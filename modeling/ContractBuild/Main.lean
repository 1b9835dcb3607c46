import ContractBuild.Cli.Session
import ContractBuild.Source.GitHub
import ContractBuild.Source.Reach
import Std.Time.DateTime.Timestamp

/-!
# The program

The files that a command can need are read first. Then the command is carried out on them, and what
it has written is written back. No compiler, build tool or remote repository is reached from here:
to a command, programs are missing and the network is down.
-/

namespace ContractBuild

/-- No programs, at one moment. -/
def noPrograms : Toolbox Instant where
  start _ _ now := (.error .notFound, now)
  clock now := (⟨0⟩, now)
  date now := (now, now)

/-- Puts a file on a disk, with the directories it needs. -/
def Disk.withFile (d : Disk) (file : Path) (content : ByteArray) : Disk :=
  let change : OnDisk OsError Unit := do
    makeDirs file.directory
    writeFile file content
  (change.run.run d).2

/-- Reads files that are there onto a disk. -/
def readFiles (files : List Path) (d : Disk) : IO Disk :=
  files.foldlM (fun d file => do
    try return d.withFile file (← IO.FS.readBinFile file.text)
    catch _ => return d) d

/-- Reads the sources of a project onto a disk. -/
partial def readSources (settings : ProjectSettings) (seen : List Path) (d : Disk) : IO Disk := do
  let resolver := (Workspace.mk d ()).resolver settings .disabled
  let wanted := resolver.wantedPaths settings.entry
  let unseen := wanted.filter fun p => !seen.contains p
  if unseen.isEmpty then return d
  let d ← readFiles (unseen.map (Disk.viewPath settings.projectRoot)) d
  readSources settings (seen ++ unseen) d

/-- Reads what a command can need of a project. -/
def readProject (entry : Path) (project : ProjectOptions) (overrides : Overrides) (d : Disk) :
    IO Disk := do
  let d ← readFiles [project.projectRoot.join ⟨ProjectConfig.fileName⟩] d
  match project.configure d overrides with
  | .ok config => readSources (project.settings entry config) [] d
  | .error _ => return d

/-- Reads what a command can need. -/
def readNeeded (d : Disk) : Command → IO Disk
  | .flatten entry project _ => readProject entry project {} d
  | .compile entry project overrides _ => readProject entry project overrides d
  | .explain _ | .listFixes _ => return d

/-- Writes the files that are new or changed. -/
def writeBack (before after : Disk) : IO Unit := do
  let old := before.filesBelow []
  for (name, content) in after.filesBelow [] do
    if !old.contains (name, content) then
      let file : Path := ⟨"/" ++ name⟩
      IO.FS.createDirAll file.directory.text
      IO.FS.writeBinFile file.text content

/-- The disk with nothing but the working directory. -/
def emptyDisk : IO Disk := do
  let here : Path := ⟨toString (← IO.currentDir)⟩
  let d := ((Disk.makeDirs here).run.run {}).2
  return { d with workDir := ((d.locate here).toOption).getD [] }

/-- The current time. -/
def currentInstant : IO Instant := do
  let now := (← Std.Time.Timestamp.now).toNanosecondsSinceUnixEpoch.val
  return ⟨now / 1000000000, (now % 1000000000).toNat⟩

/-- The surroundings of a command; the token may come from the environment. -/
def localHost (token : Option String) : Host Instant :=
  { toolbox := noPrograms
    remote := fun given => GitHub.unreachable { token := given.or token }
    sandboxDir := ⟨"/tmp/solforge-sandbox"⟩ }

/-- Carries a command out on the files of this machine. -/
def carryOut (command : Command) : IO Transcript := do
  let before ← readNeeded (← emptyDisk) command
  let host := localHost (← IO.getEnv "GITHUB_TOKEN")
  let (transcript, after) := command.perform host ⟨before, ← currentInstant⟩
  try
    writeBack before after.disk
    return transcript
  catch e => return .failed ⟨toString e, []⟩

end ContractBuild

/-- Reads the command line, carries the command out, and prints what it tells. -/
def main (args : List String) : IO UInt32 := do
  let transcript ← match ContractBuild.Command.ofArguments args with
    | .ok command => ContractBuild.carryOut command
    | .error halt => pure halt.transcript
  IO.print transcript.stdout
  IO.eprint transcript.stderr
  return transcript.exitCode.toUInt32
