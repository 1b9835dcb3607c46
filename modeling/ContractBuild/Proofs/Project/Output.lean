import ContractBuild.Project.Output
import ContractBuild.Proofs.Disk.Writing

/-!
# What a run leaves on a disk

A compile run writes its reports, and its artifacts if it has any. Nothing is ever taken away, so
what an earlier run left and this one does not write stays beside the new reports.

- **Files** (`Disk.SameFiles`): outside of the keys that are written, a disk has the files that it
  had.
- **Steps** (`Disk.perform_write_ok`, `Disk.performAll_ok`): a file is written at its place below
  the output directory, and all other files stay.
- **Artifacts** (`CompileRun.artifact?`): what a run writes under a name, if it writes anything.

Main statement: `CompileRun.artifacts_left`. Artifacts of an earlier run can stand beside the report
of a run that failed (`CompileRun.artifacts_stale`).
-/

namespace ContractBuild

open ContractBuild.Path OnDisk

namespace Disk

variable {written written' : String → Prop} {d d₁ d' : Disk}

/-! ## Files that stay -/

/-- `d'` has the files of `d`, but for those under the keys in `written`. -/
def SameFiles (written : String → Prop) (d d' : Disk) : Prop :=
  ∀ place content, ¬ written (key place) →
    (d'.get? place = some (.file content) ↔ d.get? place = some (.file content))

namespace SameFiles

theorem mono (h : SameFiles written d d') (hw : ∀ k, written k → written' k) :
    SameFiles written' d d' := fun place content hk => h place content fun hk' => hk (hw _ hk')

theorem trans (h₁ : SameFiles written d d₁) (h₂ : SameFiles written d₁ d') :
    SameFiles written d d' := fun place content hk =>
  (h₂ place content hk).trans (h₁ place content hk)

end SameFiles

theorem AddsDirectories.sameFiles (h : AddsDirectories d d') : SameFiles (fun _ => False) d d' :=
  fun place content _ => ⟨h.old place content, h.file place content not_false⟩

theorem writeFile_sameFiles {p : Path} {content : ByteArray}
    (h : exec (writeFile p content) d = (.ok (), d')) :
    SameFiles (· = key (d.placeOf p)) d d' := by
  obtain ⟨hne, rfl, -, -⟩ := writeFile_ok h
  intro place text hk
  rcases get?_put hne (.file content) place with ⟨-, hkey, -⟩ | hput
  · exact absurd hkey hk
  · rw [hput]

/-! ## Steps -/

theorem exec_inOrderTo_ok {α : Type} {purpose : String} {x : OnDisk Failure α} {a : α}
    (h : exec (inOrderTo purpose x) d = (.ok a, d')) : exec x d = (.ok a, d') := by
  have hrun : exec (inOrderTo purpose x) d =
      ((exec x d).1.mapError (·.within purpose), (exec x d).2) := rfl
  rw [hrun] at h
  rcases hx : exec x d with ⟨e | b, d₁⟩ <;> rw [hx] at h <;> cases h
  rfl

theorem makeDirs_ok {purpose act : String} {p q : Path}
    (h : exec (inOrderTo purpose (saying act q (makeDirs p))) d = (.ok (), d')) :
    AddsDirectories d d' := by
  have hadditive := isAdditive_makeDirs p d
  rwa [exec_saying_ok (exec_inOrderTo_ok h)] at hadditive

/-- `d.HasFile p place text`: the path leads to the place, and the file there holds the text. -/
structure HasFile (d : Disk) (p : Path) (place : Place) (text : String) : Prop where
  locate : d.locate p = .ok place
  content : d.get? place = some (.file text.toUTF8)

/-- **What writing one output does.** -/
theorem perform_write_ok {file : Path} {text : String}
    (h : exec (perform (.write file text)) d = (.ok (), d')) :
    Extends (· = key (d.placeOf file)) d d' ∧ SameFiles (· = key (d.placeOf file)) d d' ∧
      d'.HasFile file (d.placeOf file) text := by
  -- directories first, if the path has any, and then the file
  obtain ⟨d₁, hd₁, hwrite⟩ : ∃ d₁, AddsDirectories d d₁ ∧
      exec (writeFile file text.toUTF8) d₁ = (.ok (), d') := by
    cases hparent : file.parent? with
    | none =>
      simp only [perform, hparent] at h
      exact ⟨d, .refl d, exec_saying_ok (exec_inOrderTo_ok h)⟩
    | some dir =>
      simp only [perform, hparent] at h
      obtain ⟨_, d₁, hdirs, hfile⟩ := exec_bind_ok h
      exact ⟨d₁, makeDirs_ok hdirs, exec_saying_ok (exec_inOrderTo_ok hfile)⟩
  have hplace : d₁.placeOf file = d.placeOf file := hd₁.placeOf file
  have hextends := writeFile_extends hwrite
  have hfiles := writeFile_sameFiles hwrite
  obtain ⟨hlocate, hcontent⟩ := locate_of_writeFile hwrite
  rw [hplace] at hextends hfiles hlocate hcontent
  exact ⟨(hd₁.toExtends.mono fun _ => False.elim).trans hextends,
    (hd₁.sameFiles.mono fun _ => False.elim).trans hfiles, hlocate, hcontent⟩

/-- A file that is not written over stays where its path leads. -/
theorem HasFile.of_extends {p : Path} {place : Place} {text : String} (h : d.HasFile p place text)
    (hd : Extends written d d') (hw : ¬ written (key place)) : d'.HasFile p place text :=
  ⟨hd.locate h.locate, hd.file _ _ hw h.content⟩

theorem HasFile.readText {p : Path} {place : Place} {text : String} (h : d.HasFile p place text) :
    d.readText p = .ok text := readText_of_locate h.locate h.content

theorem placeOf_join {name : String} (h : IsPlain (.name name)) (d : Disk) (dir : Path) :
    d.placeOf (dir.join ⟨name⟩) = d.placeOf dir ++ [name] :=
  placeOf_foldl_join (List.forall_mem_singleton.mpr h) d dir

/-- Names at one place have different keys. -/
theorem key_singleton_inj {place : Place} {a b : String}
    (h : key (place ++ [a]) = key (place ++ [b])) : a = b := by
  rw [← String.toList_inj, toList_key, toList_key, List.map_append, List.map_append] at h
  rw [← String.toList_inj]
  by_cases hp : place.map String.toList = []
  · simpa [hp, slashed] using h
  · rwa [List.map_singleton, List.map_singleton, slashed_append hp (by simp),
      slashed_append hp (by simp), List.append_cancel_left_eq, List.cons_inj_right, slashed,
      slashed, List.intercalate_singleton, List.intercalate_singleton] at h

/-- **What writing files into a directory does**: each is there afterwards, and all other files
stay. -/
theorem performAll_ok {dir : Path} {files : List (String × String)}
    (hplain : ∀ f ∈ files, IsPlain (.name f.1)) (hnames : (files.map (·.1)).Nodup)
    (h : exec (performAll (files.map fun f => .write (dir.join ⟨f.1⟩) f.2)) d = (.ok (), d')) :
    Extends (fun k => ∃ f ∈ files, k = key (d.placeOf dir ++ [f.1])) d d' ∧
      SameFiles (fun k => ∃ f ∈ files, k = key (d.placeOf dir ++ [f.1])) d d' ∧
      ∀ f ∈ files, d'.HasFile (dir.join ⟨f.1⟩) (d.placeOf dir ++ [f.1]) f.2 := by
  induction files generalizing d with
  | nil =>
    cases h
    exact ⟨.refl _, fun _ _ _ => .rfl, by simp⟩
  | cons f files ih =>
    obtain ⟨_, d₁, hwrite, hrest⟩ := exec_bind_ok h
    obtain ⟨hf, hplain⟩ := List.forall_mem_cons.mp hplain
    obtain ⟨hfresh, hnames⟩ := List.nodup_cons.mp hnames
    obtain ⟨hextends, hsame, hheld⟩ := perform_write_ok hwrite
    obtain ⟨hextends', hsame', hheld'⟩ := ih hplain hnames hrest
    rw [placeOf_join hf] at hextends hsame hheld
    rw [hextends.placeOf] at hextends' hsame' hheld'
    have hfirst : ∀ k, k = key (d.placeOf dir ++ [f.1]) →
        ∃ g ∈ f :: files, k = key (d.placeOf dir ++ [g.1]) := fun k hk =>
      ⟨f, List.mem_cons_self, hk⟩
    have hothers : ∀ k, (∃ g ∈ files, k = key (d.placeOf dir ++ [g.1])) →
        ∃ g ∈ f :: files, k = key (d.placeOf dir ++ [g.1]) := by
      rintro k ⟨g, hg, hk⟩
      exact ⟨g, List.mem_cons_of_mem _ hg, hk⟩
    refine ⟨(hextends.mono hfirst).trans (hextends'.mono hothers),
      (hsame.mono hfirst).trans (hsame'.mono hothers), List.forall_mem_cons.mpr ⟨?_, hheld'⟩⟩
    refine hheld.of_extends hextends' ?_
    rintro ⟨g, hg, hkey⟩
    exact hfresh (List.mem_map.mpr ⟨g, hg, (key_singleton_inj hkey).symm⟩)

end Disk

namespace CompileRun

/-! ## The artifacts of a run -/

/-- What a run writes under a name. -/
def artifact? (r : CompileRun) (name : String) : Option String :=
  if name = "compile.json" then some (toJson r.report).pretty
  else if name = "compile.md" then some r.report.markdown
  else if name = "contracts.json" then
    r.report.outcome.success?.map fun s => (toJson s.contracts).pretty
  else if name = "fixed.sol" then r.report.outcome.success?.bind (·.compiledSource)
  else if name = "fixes.diff" then if r.patch = "" then none else some r.patch
  else none

/-- The names that a run can write under, in the order in which it writes. -/
def artifactNames : List String :=
  ["compile.json", "compile.md", "contracts.json", "fixed.sol", "fixes.diff"]

/-- The files of a run, in the order in which they are written. -/
def files (r : CompileRun) : List (String × String) :=
  artifactNames.filterMap fun name => (r.artifact? name).map (name, ·)

theorem outputs_eq (r : CompileRun) (outDir : Path) :
    r.outputs outDir =
      .makeDirs outDir :: r.files.map fun f => .write (outDir.join ⟨f.1⟩) f.2 := by
  obtain ⟨report, patch⟩ := r
  have hpatch : patch.isEmpty = decide (patch = "") := by
    rw [Bool.eq_iff_iff, String.isEmpty_iff, decide_eq_true_iff]
  unfold outputs files artifactNames
  rw [hpatch]
  cases houtcome : report.outcome with
  | failure f =>
    by_cases hp : patch = "" <;> simp [artifact?, houtcome, hp, CompileOutcome.success?]
  | success s =>
    cases hsource : s.compiledSource <;> by_cases hp : patch = "" <;>
      simp [artifact?, houtcome, hsource, hp, CompileOutcome.success?, successOutputs]

theorem mem_artifactNames {r : CompileRun} {name text : String} (h : r.artifact? name = some text) :
    name ∈ artifactNames := by
  unfold artifact? at h
  unfold artifactNames
  split_ifs at h <;> simp_all

theorem mem_files_iff {r : CompileRun} {f : String × String} :
    f ∈ r.files ↔ r.artifact? f.1 = some f.2 := by
  obtain ⟨name, text⟩ := f
  simp only [files, List.mem_filterMap, Option.map_eq_some_iff, Prod.mk.injEq]
  constructor
  · rintro ⟨_, -, _, hwritten, rfl, rfl⟩
    exact hwritten
  · intro h
    exact ⟨name, mem_artifactNames h, text, h, rfl, rfl⟩

theorem names_files_nodup (r : CompileRun) : (r.files.map (·.1)).Nodup := by
  have hsub : (r.files.map (·.1)).Sublist artifactNames := by
    unfold files
    generalize artifactNames = names
    induction names with
    | nil => exact .slnil
    | cons name names ih =>
      cases hname : r.artifact? name with
      | none =>
        rw [List.filterMap_cons_none (by rw [hname]; rfl)]
        exact ih.cons name
      | some text =>
        rw [List.filterMap_cons_some (by rw [hname]; rfl)]
        exact ih.cons_cons name
  exact hsub.nodup (by decide)

theorem isPlain_of_mem_files {r : CompileRun} {f : String × String} (h : f ∈ r.files) :
    IsPlain (.name f.1) := by
  have hplain : ∀ name ∈ artifactNames, IsPlain (.name name) := by unfold IsPlain; decide
  exact hplain _ (mem_artifactNames (mem_files_iff.mp h))

/-- What stands at the names of a directory once the outputs of a run are performed: what the run
writes, and elsewhere what stood there before. -/
theorem performAll_outputs {r : CompileRun} {outDir : Path} {d d' : Disk}
    (h : exec (Disk.performAll (r.outputs outDir)) d = (.ok (), d')) :
    Disk.SameFiles (fun k => ∃ f ∈ r.files, k = Disk.key (d.placeOf outDir ++ [f.1])) d d' ∧
      ∀ f ∈ r.files, d'.HasFile (outDir.join ⟨f.1⟩) (d.placeOf outDir ++ [f.1]) f.2 := by
  rw [outputs_eq] at h
  obtain ⟨_, d₁, hdirs, hwrites⟩ := exec_bind_ok h
  have hadds : Disk.AddsDirectories d d₁ := Disk.makeDirs_ok hdirs
  obtain ⟨-, hsame, hheld⟩ := Disk.performAll_ok (fun _ => isPlain_of_mem_files)
    r.names_files_nodup hwrites
  rw [hadds.placeOf] at hsame hheld
  exact ⟨(hadds.sameFiles.mono fun _ => False.elim).trans hsame, hheld⟩

/-- What stands under a name of the directory is what the run writes there; if it writes nothing
there, it is what stood there before. -/
theorem get?_performAll_outputs {r : CompileRun} {outDir : Path} {d d' : Disk}
    (h : exec (Disk.performAll (r.outputs outDir)) d = (.ok (), d')) (name : String)
    (content : ByteArray) :
    d'.get? (d.placeOf outDir ++ [name]) = some (.file content) ↔
      (∃ text, r.artifact? name = some text ∧ content = text.toUTF8) ∨
        r.artifact? name = none ∧ d.get? (d.placeOf outDir ++ [name]) = some (.file content) := by
  obtain ⟨hsame, hheld⟩ := performAll_outputs h
  cases hname : r.artifact? name with
  | some text =>
    have hcontent := (hheld (name, text) (mem_files_iff.mpr hname)).content
    simp only [hcontent, Option.some.injEq, DiskEntry.file.injEq, exists_eq_left', reduceCtorEq,
      false_and, or_false, eq_comm]
  | none =>
    have hkey : ¬ ∃ f ∈ r.files,
        Disk.key (d.placeOf outDir ++ [name]) = Disk.key (d.placeOf outDir ++ [f.1]) := by
      rintro ⟨f, hf, hk⟩
      have hf := mem_files_iff.mp hf
      rw [← Disk.key_singleton_inj hk, hname] at hf
      cases hf
    simp only [hsame _ content hkey, reduceCtorEq, false_and, exists_false, false_or, true_and]

/-- **What a run leaves in its output directory**, if all is written:

- Each artifact of the run is read back from the directory.
- Under each name there is the artifact of the run; if the run has none, there is what was there
  before it.
- All other files on the disk are as they were.
- So contracts are there only if the run succeeded, the compiled text only if it succeeded with one,
  and the diff only if it is not empty, each as this run has it, wherever no earlier file of that
  name was. -/
theorem artifacts_left {r : CompileRun} {outDir : Path} {d d' : Disk}
    (h : exec (Disk.performAll (r.outputs outDir)) d = (.ok (), d')) :
    let dir := d.placeOf outDir
    let fresh (name : String) := ∀ content, d.get? (dir ++ [name]) ≠ some (.file content)
    (∀ name text, r.artifact? name = some text → d'.readText (outDir.join ⟨name⟩) = .ok text) ∧
    (∀ name content, d'.get? (dir ++ [name]) = some (.file content) ↔
      (∃ text, r.artifact? name = some text ∧ content = text.toUTF8) ∨
        r.artifact? name = none ∧ d.get? (dir ++ [name]) = some (.file content)) ∧
    (∀ place content,
      (∀ name text, r.artifact? name = some text → Disk.key place ≠ Disk.key (dir ++ [name])) →
        (d'.get? place = some (.file content) ↔ d.get? place = some (.file content))) ∧
    (fresh "contracts.json" → ∀ content,
      d'.get? (dir ++ ["contracts.json"]) = some (.file content) ↔
        ∃ s, r.report.outcome = .success s ∧ content = (toJson s.contracts).pretty.toUTF8) ∧
    (fresh "fixed.sol" → ∀ content, d'.get? (dir ++ ["fixed.sol"]) = some (.file content) ↔
      ∃ s text, r.report.outcome = .success s ∧ s.compiledSource = some text ∧
        content = text.toUTF8) ∧
    (fresh "fixes.diff" → ∀ content, d'.get? (dir ++ ["fixes.diff"]) = some (.file content) ↔
      r.patch ≠ "" ∧ content = r.patch.toUTF8) := by
  intro dir fresh
  obtain ⟨hsame, hheld⟩ := performAll_outputs h
  have hholds := get?_performAll_outputs h
  have hfresh (name : String) (hn : fresh name) (content : ByteArray) :
      d'.get? (dir ++ [name]) = some (.file content) ↔
        ∃ text, r.artifact? name = some text ∧ content = text.toUTF8 := by
    rw [hholds name content, or_iff_left fun hold => hn content hold.2]
  refine ⟨fun name text hname => (hheld (name, text) (mem_files_iff.mpr hname)).readText, hholds,
    fun place content hother => ?_, fun hn content => ?_, fun hn content => ?_,
    fun hn content => ?_⟩
  · refine hsame place content ?_
    rintro ⟨f, hf, hk⟩
    exact hother f.1 f.2 (mem_files_iff.mp hf) hk
  · rw [hfresh _ hn content]
    cases houtcome : r.report.outcome <;> simp [artifact?, houtcome, CompileOutcome.success?]
  · rw [hfresh _ hn content]
    cases houtcome : r.report.outcome <;> simp [artifact?, houtcome, CompileOutcome.success?]
  · rw [hfresh _ hn content]
    by_cases hp : r.patch = "" <;> simp [artifact?, hp]

/-- A run of which only the outcome and the diff matter. -/
def sample (outcome : CompileOutcome) (patch : String) : CompileRun where
  report := { tool := { name := "solforge" }, root := "M.sol", outcome := outcome }
  patch := patch

/-- A success with one contract and the text that was compiled. -/
def compiled : CompileOutcome := .success
  { method := .directImport
    attempt := 1
    contracts :=
      Dict.ofList [("M", { contractName := "M", bytecode := "0x60", deployedBytecode := "0x" })]
    compiledSource := some "contract M {}" }

/-- A disk whose output directory holds the diff of an earlier run. -/
def olderDiff : Disk where
  entries := Dict.ofList [("out", .directory), ("out/fixes.diff", .file "--- older".toUTF8)]

theorem artifacts_left_olderDiff :
    let d' := (exec (Disk.performAll ((sample compiled "").outputs ⟨"out"⟩)) olderDiff).2
    exec (Disk.performAll ((sample compiled "").outputs ⟨"out"⟩)) olderDiff = (.ok (), d') ∧
    d'.readText (Path.join ⟨"out"⟩ ⟨"fixed.sol"⟩) = .ok "contract M {}" ∧
    d'.get? ["out", "fixed.sol"] = some (.file "contract M {}".toUTF8) ∧
    d'.get? ["out", "fixes.diff"] = some (.file "--- older".toUTF8) := by
  intro d'
  have hdone : exec (Disk.performAll ((sample compiled "").outputs ⟨"out"⟩)) olderDiff =
      (.ok (), d') := exec_eq_of_fst (by decide +kernel)
  have hdir : olderDiff.placeOf ⟨"out"⟩ = ["out"] := by decide +kernel
  have hnone : olderDiff.get? ["out", "fixed.sol"] = none := by decide +kernel
  have hsource : (sample compiled "").artifact? "fixed.sol" = some "contract M {}" := rfl
  obtain ⟨hread, hholds, -, -, hfixed, -⟩ := artifacts_left hdone
  rw [hdir] at hholds hfixed
  refine ⟨hdone, hread _ _ hsource, ?_, ?_⟩
  · refine (hfixed (fun content hfile => ?_) _).mpr ⟨_, _, rfl, rfl, rfl⟩
    cases hnone.symm.trans hfile
  · exact (hholds "fixes.diff" _).mpr (.inr ⟨rfl, by decide +kernel⟩)

/-- A failure after one attempt. -/
def exhausted : CompileOutcome := .failure
  { kind := .strategyExhausted, message := "all strategies failed", attempts := 1 }

/-- A disk whose output directory holds what an earlier run made. -/
def olderArtifacts : Disk where
  entries := Dict.ofList [("out", .directory), ("out/contracts.json", .file "{}".toUTF8),
    ("out/fixed.sol", .file "contract Older {}".toUTF8),
    ("out/fixes.diff", .file "--- older".toUTF8)]

/-- **Artifacts of an earlier run stay beside the report of a run that failed.** -/
theorem artifacts_stale :
    let r := sample exhausted ""
    let done := exec (Disk.performAll (r.outputs ⟨"out"⟩)) olderArtifacts
    r.isFailed = true ∧ r.patch = "" ∧ done.1 = .ok () ∧
    done.2.get? ["out", "contracts.json"] = some (.file "{}".toUTF8) ∧
    done.2.get? ["out", "fixed.sol"] = some (.file "contract Older {}".toUTF8) ∧
    done.2.get? ["out", "fixes.diff"] = some (.file "--- older".toUTF8) := by
  decide +kernel

end CompileRun

end ContractBuild
