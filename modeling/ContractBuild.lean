import ContractBuild.Main
import ContractBuild.Proofs.Collection.SameProgram
import ContractBuild.Proofs.CommentLine
import ContractBuild.Proofs.FlattenReach
import ContractBuild.Proofs.ImportOrder
import ContractBuild.Proofs.References
import ContractBuild.Proofs.Run.Budget
import ContractBuild.Proofs.Run.Convergence
import ContractBuild.Proofs.Run.Provenance
import ContractBuild.Proofs.Strictness
import ContractBuild.Solidity.Form
import ContractBuild.Proofs.Collection.RelativeUnits
import ContractBuild.Proofs.Run.Patch
import ContractBuild.Proofs.SourceIdentity
import ContractBuild.Proofs.Directives.RoundTrip
import ContractBuild.Proofs.Json.RunRecords
import ContractBuild.Proofs.Run.LastAttempt
import ContractBuild.Proofs.Fix.Literals
import ContractBuild.Proofs.Fix.SecondPass
import ContractBuild.Proofs.ImportFree
import ContractBuild.Proofs.Assembly
import ContractBuild.Proofs.BlockComments
import ContractBuild.Proofs.Collection.Packages
import ContractBuild.Proofs.Sandbox.Containment
import ContractBuild.Proofs.SearchOrder
import ContractBuild.Proofs.Compile.Acceptance
import ContractBuild.Proofs.Remote.Boundary
import ContractBuild.Proofs.Sandbox.Separation
import ContractBuild.Proofs.CanonicalPath
import ContractBuild.Proofs.MergedLicense
import ContractBuild.Proofs.Project.Output
import ContractBuild.Proofs.Json.Reports
import ContractBuild.Proofs.LicenseSearch
