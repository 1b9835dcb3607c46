import ContractBuild.Json.Form
import ContractBuild.Source.Flattened

/-!
# JSON forms of the results of flattening
-/

namespace ContractBuild

open Json

instance : JsonForm ResolutionDiagnostic where
  toJson d := .obj
    [("importer", .str d.importer), ("import", .str d.target), ("code", .str d.code),
     ("message", .str d.message)]
  shape n := do
    let f ← n.record "ResolutionDiagnostic"
      [required "importer" Node.string, required "import" Node.string,
       required "code" Node.string, required "message" Node.string]
    return {
      importer := ← f.get "importer" Node.string
      target := ← f.get "import" Node.string
      code := ← f.get "code" Node.string
      message := ← f.get "message" Node.string }

instance : JsonForm Flattened where
  toJson o := .object
    [("schema", some (.str o.schema)), ("text", some (.str o.text)),
     ("license", some (.str o.license)), ("pragma", o.pragma.map .str),
     ("module_count", some (toJson o.moduleCount)),
     ("unresolved_import_count", some (toJson o.unresolvedCount)),
     ("modules", some (toJson o.modules)), ("diagnostics", some (toJson o.diagnostics)),
     ("digest", some (.str o.digest))]
  shape n := do
    let f ← n.record "FlattenOutput"
      [required "schema" Node.string, required "text" Node.string,
       required "license" Node.string, optional "pragma" (Node.nullable Node.string),
       required "module_count" (shapeOf UInt64),
       required "unresolved_import_count" (shapeOf UInt64),
       optional "modules" (shapeOf (List String)),
       optional "diagnostics" (shapeOf (List ResolutionDiagnostic)),
       required "digest" Node.string]
    return {
      schema := ← f.get "schema" Node.string
      text := ← f.get "text" Node.string
      license := ← f.get "license" Node.string
      pragma := ← f.get? "pragma" Node.string
      moduleCount := ← f.get "module_count" (shapeOf UInt64)
      unresolvedCount := ← f.get "unresolved_import_count" (shapeOf UInt64)
      modules := ← f.getD "modules" (shapeOf (List String)) []
      diagnostics := ← f.getD "diagnostics" (shapeOf (List ResolutionDiagnostic)) []
      digest := ← f.get "digest" Node.string }

end ContractBuild
