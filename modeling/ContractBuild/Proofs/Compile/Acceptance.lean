import ContractBuild.Proofs.Compile.MainContract
import ContractBuild.Proofs.Run.Patch

/-!
# The answers that are accepted

An answer of the compiler is accepted if it has no errors and some contracts. What an error is, and
what a contract is, is asked in several places, which do not agree on every answer.

- **Errors** (`OutputError.isError_toDiagnostic`): what is not a warning and not an information is
  an error to the verdict, while `StandardOutput.hasErrors` looks for the word alone.
- **Contracts** (`StandardOutput.exists_toArtifact`): a contract whose code is a bare prefix is kept
  among the artifacts, and cannot be deployed.
- **Regular answers** (`StandardOutput.IsRegular`): with the three known severities and no bare
  prefixes all places agree.
- **Runs** (`Run.Answered`): a success that is not a build comes from an accepted answer.

Main statement: `Run.answer_accepted_iff`. What goes wrong with other answers is
`Run.answer_accepted_without_code`.
-/

namespace ContractBuild

/-! ## Errors -/

/-- Every severity but two is an error. -/
theorem OutputError.isError_toDiagnostic {e : OutputError} :
    e.toDiagnostic.isError = false ↔ e.severity = "warning" ∨ e.severity = "info" := by
  unfold toDiagnostic CompilerDiagnostic.isError
  dsimp only
  split
  · rename_i h
    exact iff_of_true rfl (.inl (beq_iff_eq.mp h))
  · rename_i h
    split
    · rename_i h'
      exact iff_of_true rfl (.inr (beq_iff_eq.mp h'))
    · rename_i h'
      refine iff_of_false (by decide) ?_
      rintro (hw | hi)
      · exact h (beq_iff_eq.mpr hw)
      · exact h' (beq_iff_eq.mpr hi)

theorem StandardOutput.filter_isError_eq_nil_iff {o : StandardOutput} :
    o.diagnostics.filter (·.isError) = [] ↔
      ∀ e ∈ o.errors, e.severity = "warning" ∨ e.severity = "info" := by
  rw [List.filter_eq_nil_iff, diagnostics, List.forall_mem_map]
  refine forall₂_congr fun e _ => ?_
  rw [Bool.not_eq_true, OutputError.isError_toDiagnostic]

theorem StandardOutput.hasErrors_eq_false_iff {o : StandardOutput} :
    o.hasErrors = false ↔ ∀ e ∈ o.errors, e.severity ≠ "error" := by
  simp [hasErrors]

/-! ## Contracts -/

/-- A contract has code if something stands behind the prefixes. -/
def ContractOutput.HasCode (c : ContractOutput) : Prop := ¬ IsCode c.bytecode []

theorem ContractOutput.hasCode_iff {c : ContractOutput} :
    c.HasCode ↔ bareHex c.bytecode.toList ≠ [] := not_congr isCode_iff

instance (c : ContractOutput) : Decidable c.HasCode := decidable_of_iff _ c.hasCode_iff.symm

theorem ContractOutput.HasCode.bytecode_ne {c : ContractOutput} (h : c.HasCode) :
    c.bytecode ≠ "" := by
  intro hempty
  rw [hasCode_iff, hempty] at h
  exact h rfl

theorem ContractOutput.isDeployable_toArtifact {c : ContractOutput} {unit name : String} :
    (c.toArtifact unit name).isDeployable = true ↔ c.HasCode := by
  rw [hasCode_iff, ← bareHex_withHexPrefix]
  simp [toArtifact, CompiledArtifact.isDeployable]

/-- An artifact can be deployed exactly if the contract that it is made of has code. -/
theorem StandardOutput.exists_toArtifact {o : StandardOutput} {name : String}
    {a : CompiledArtifact} (h : o.artifacts.get? name = some a) :
    ∃ unit c, (o.Holds unit name c ∧ c.bytecode ≠ "") ∧ a = c.toArtifact unit name ∧
      (a.isDeployable = true ↔ c.HasCode) := by
  obtain ⟨unit, c, hold, -, rfl⟩ := get?_artifacts.mp h
  exact ⟨unit, c, hold, rfl, ContractOutput.isDeployable_toArtifact⟩

theorem StandardOutput.isEmpty_artifacts {o : StandardOutput} :
    o.artifacts.isEmpty = false ↔
      ∃ unit name c, o.Holds unit name c ∧ c.bytecode ≠ "" := by
  rw [Dict.isEmpty, List.isEmpty_eq_false_iff_exists_mem]
  constructor
  · rintro ⟨⟨name, a⟩, hmem⟩
    obtain ⟨unit, c, hold⟩ := exists_get?_artifacts.mp ⟨a, Dict.get?_eq_some_iff.mpr hmem⟩
    exact ⟨unit, name, c, hold⟩
  · rintro ⟨unit, name, c, hold⟩
    obtain ⟨a, ha⟩ := exists_get?_artifacts.mpr ⟨unit, c, hold⟩
    exact ⟨(name, a), Dict.get?_eq_some_iff.mp ha⟩

/-! ## Verdicts -/

/-- Severities are the three known ones, and code is more than prefixes. -/
structure StandardOutput.IsRegular (o : StandardOutput) : Prop where
  severity : ∀ e ∈ o.errors, e.severity = "error" ∨ e.severity = "warning" ∨ e.severity = "info"
  code : ∀ unit name c, o.Holds unit name c → c.bytecode ≠ "" → c.HasCode

namespace StandardOutput.IsRegular

variable {o : StandardOutput}

theorem hasErrors_iff (h : o.IsRegular) :
    o.hasErrors = false ↔ ∀ e ∈ o.errors, e.severity = "warning" ∨ e.severity = "info" := by
  rw [hasErrors_eq_false_iff]
  refine forall₂_congr fun e he => ⟨(h.severity e he).resolve_left, ?_⟩
  rintro (hs | hs) <;> rw [hs] <;> decide

theorem hasCode_iff (h : o.IsRegular) :
    (∃ unit name c, o.Holds unit name c ∧ c.HasCode) ↔
      ∃ unit name c, o.Holds unit name c ∧ c.bytecode ≠ "" := by
  refine exists_congr fun unit => exists_congr fun name => exists_congr fun c => ?_
  exact and_congr_right fun hold => ⟨ContractOutput.HasCode.bytecode_ne, h.code unit name c hold⟩

theorem isDeployable (h : o.IsRegular) {name : String} {a : CompiledArtifact}
    (ha : o.artifacts.get? name = some a) : a.isDeployable = true := by
  obtain ⟨unit, c, ⟨hold, hcode⟩, -, hdeployable⟩ := exists_toArtifact ha
  exact hdeployable.mpr (h.code unit name c hold hcode)

end StandardOutput.IsRegular

namespace Run

/-- Contracts come from an answer without errors, and are all that it has. -/
theorem Verdict.result_eq_ok_iff {answer : Except CompileError StandardOutput}
    {contracts : ArtifactMap} :
    (Verdict.of answer).result = .ok contracts ↔
      ∃ out, answer = .ok out ∧ out.diagnostics.filter (·.isError) = [] ∧
        out.artifacts.isEmpty = false ∧ contracts = out.artifacts := by
  cases answer with
  | error e => simp [Verdict.of]
  | ok out =>
    simp only [Except.ok.injEq, exists_eq_left']
    unfold Verdict.of
    dsimp only
    split
    · rename_i herrors
      refine iff_of_false (by simp) fun h => ?_
      rw [herrors] at h
      exact List.cons_ne_nil _ _ h.1
    · rename_i herrors
      split
      · rename_i hempty
        refine iff_of_false (by simp) fun h => ?_
        rw [hempty] at h
        cases h.2.1
      · rename_i hempty
        simp only [herrors, Bool.not_eq_true] at hempty ⊢
        simp [hempty, eq_comm]

/-- **When an answer is accepted**: all its messages are warnings or informations, and a contract
has some text for its code. -/
theorem Verdict.succeeded_ok_iff {out : StandardOutput} :
    (Verdict.of (.ok out)).status = .succeeded ↔
      (∀ e ∈ out.errors, e.severity = "warning" ∨ e.severity = "info") ∧
        ∃ unit name c, out.Holds unit name c ∧ c.bytecode ≠ "" := by
  rw [Verdict.succeeded_iff, ← StandardOutput.filter_isError_eq_nil_iff,
    ← StandardOutput.isEmpty_artifacts]
  constructor
  · rintro ⟨contracts, h⟩
    obtain ⟨_, heq, herrors, hempty, -⟩ := Verdict.result_eq_ok_iff.mp h
    cases heq
    exact ⟨herrors, hempty⟩
  · rintro ⟨herrors, hempty⟩
    exact ⟨out.artifacts, Verdict.result_eq_ok_iff.mpr ⟨out, rfl, herrors, hempty, rfl⟩⟩

/-! ## Runs -/

section

variable {σ : Type} {c : RunContext σ} {p p' : RunProgress σ} {success : CompileSuccess}

/-- `Answered w success out`: `out` is the answer that a success comes from. -/
structure Answered (w : Surroundings σ) (success : CompileSuccess) (out : StandardOutput) : Prop
    where
  /-- It is the compiler's answer to the text and the configuration of the success. -/
  asked : ∃ (s : Sweep) (config : CompilerConfig) (text : String) (state : σ),
    success.method = s.strategy ∧ success.configurationUsed = some config ∧
      success.compiledSource = some text ∧
      (w.compile (StandardInput.ofSources (s.unitsWith text) config) state).1 = .ok out
  accepted : (Verdict.of (.ok out)).status = .succeeded
  contracts : success.contracts = out.artifacts

/-- An attempt that succeeds comes from an accepted answer, and has no main contract yet. -/
theorem attempt_accepted {s : Sweep} {config : CompilerConfig} {candidate : Candidate}
    (h : exec (attempt c s config candidate) p = (.ok (.inl success), p')) :
    success.mainContract = none ∧ ∃ out, Answered c.surroundings success out := by
  obtain ⟨ms, ⟨contracts, hresult, hsuccess, -⟩ | ⟨e, -, -, hfailed⟩⟩ := attempt_cases h
  · cases hsuccess
    obtain ⟨out, hanswer, -, -, hcontracts⟩ := Verdict.result_eq_ok_iff.mp hresult
    rw [hanswer] at hresult
    exact ⟨rfl, out, ⟨s, config, candidate.text, _, rfl, rfl, rfl, hanswer⟩,
      (Verdict.succeeded_iff _).mpr ⟨_, hresult⟩, hcontracts⟩
  · rcases hfailed with hfailed | hfailed <;> cases hfailed

/-- So does a sweep, however many attempts it takes. -/
theorem Swept.accepted {s : Sweep} {configs : List CompilerConfig} {candidate : Candidate}
    (h : Swept c s configs candidate p (.ok (some success)) p') :
    success.mainContract = none ∧ ∃ out, Answered c.surroundings success out := by
  generalize hres : (Except.ok (some success) : Except RunError (Option CompileSuccess)) = res at h
  induction h with
  | finished => cases hres
  | refused => cases hres
  | stopped => cases hres
  | succeeded hg ha =>
    cases hres
    exact attempt_accepted ha
  | again hg ha hrest ih => exact ih hres
  | next hg ha hrest ih => exact ih hres

theorem strategy_accepted {root : Path} {isLast : Bool} {strat : Strategy}
    (hmethod : success.method ≠ .sandbox)
    (h : exec (strategy c root isLast strat) p = (.ok (some success), p')) :
    success.mainContract = none ∧ ∃ out, Answered c.surroundings success out := by
  by_cases hd : strat = .sandbox
  · subst hd
    obtain ⟨hsandbox, -⟩ := (sandbox_patch h).2.2 success rfl
    exact absurd hsandbox hmethod
  · rcases configDriven_cases (Strategy.isConfigDriven_of_ne hd) h with
      ⟨-, ⟨e, he⟩, -⟩ | ⟨s, flat, -, -, hsweep⟩
    · cases he
    · obtain ⟨candidate, changes, hswept⟩ := sweep_cases hsweep
      exact hswept.accepted

/-- Without a name that is asked for, the main contract is the one that is selected. -/
theorem mainContract_withMain {settings : RunSettings} {found : CompileSuccess}
    (hcontract : settings.contract = none) (hmain : success.mainContract = none)
    (h : exec (withMain settings success) p = (.ok found, p')) :
    found = { success with
      mainContract := (selectMain success.contracts none).map (·.asMain) } := by
  unfold withMain at h
  rw [hcontract] at h
  split at h
  · rename_i main hselect
    cases h
    rw [hselect, Option.map_some]
  · rename_i hselect _
    cases h
    rw [hselect, Option.map_none, ← hmain]
  · rename_i hname
    cases hname

/-- A success that is not a build comes from an accepted answer, and its main contract is selected
from the contracts of that answer. -/
theorem success_accepted {settings : RunSettings} {surroundings : Surroundings σ} {root : Path}
    {state : σ} (hcontract : settings.contract = none) (hmethod : success.method ≠ .sandbox)
    (h : (orchestrate settings surroundings root state).1.outcome = .success success) :
    ∃ out, Answered surroundings success out ∧
      success.mainContract = (selectMain out.artifacts none).map (·.asMain) := by
  obtain ⟨res, p', hrun, horch⟩ := orchestrate_cases settings surroundings root state
  rw [horch] at h
  cases res with
  | error e => cases h
  | ok found =>
    cases h
    unfold Run.all at hrun
    rcases exec_bind_cases hrun with ⟨first, p₁, hs, hmain⟩ | ⟨e, -, he⟩
    · obtain ⟨q, p, strat, isLast, -, -, hstrat⟩ := reaches_of_success hs
      obtain ⟨main, hfound, -⟩ | ⟨_, _, hfound, -⟩ := withMain_cases hmain
      · cases hfound
        have hfirst : first.method ≠ .sandbox := hmethod
        obtain ⟨hnone, out, hanswered⟩ := strategy_accepted hfirst hstrat
        have hselect := congrArg CompileSuccess.mainContract
          (mainContract_withMain hcontract hnone hmain)
        rw [hanswered.contracts] at hselect
        exact ⟨out, ⟨hanswered.asked, hanswered.accepted, hanswered.contracts⟩, hselect⟩
      · cases hfound
    · cases he

end

/-- **The answers that are accepted.**

- An answer is accepted exactly if every message is a warning or an information, and some contract
  has a text for its code that is not empty. An artifact can be deployed exactly if its contract has
  code behind the prefixes.
- A regular answer is accepted exactly if it has no errors and a contract with code, and all its
  artifacts can be deployed.
- A success that is not a build comes from an accepted answer. Without a name that is asked for it
  lacks a main contract exactly if no artifact of the answer can be deployed, so never after a
  regular answer. -/
theorem answer_accepted_iff {σ : Type} (settings : RunSettings) (surroundings : Surroundings σ)
    (root : Path) (state : σ) :
    (∀ out : StandardOutput,
      ((Verdict.of (.ok out)).status = .succeeded ↔
        (∀ e ∈ out.errors, e.severity = "warning" ∨ e.severity = "info") ∧
          ∃ unit name c, out.Holds unit name c ∧ c.bytecode ≠ "") ∧
      (∀ name a, out.artifacts.get? name = some a →
        ∃ unit c, (out.Holds unit name c ∧ c.bytecode ≠ "") ∧ a = c.toArtifact unit name ∧
          (a.isDeployable = true ↔ c.HasCode)) ∧
      (out.IsRegular →
        ((Verdict.of (.ok out)).status = .succeeded ↔
          out.hasErrors = false ∧ ∃ unit name c, out.Holds unit name c ∧ c.HasCode) ∧
        ∀ name a, out.artifacts.get? name = some a → a.isDeployable = true)) ∧
    ∀ success, (orchestrate settings surroundings root state).1.outcome = .success success →
      success.method ≠ .sandbox → settings.contract = none →
      ∃ out, Answered surroundings success out ∧
        (success.mainContract = none ↔
          ∀ name a, out.artifacts.get? name = some a → a.isDeployable = false) ∧
        (out.IsRegular → ∃ main, success.mainContract = some main) := by
  refine ⟨fun out => ⟨Verdict.succeeded_ok_iff,
    fun name a => StandardOutput.exists_toArtifact, fun hregular => ⟨?_, ?_⟩⟩, ?_⟩
  · rw [Verdict.succeeded_ok_iff, hregular.hasErrors_iff, hregular.hasCode_iff]
  · exact fun name a ha => hregular.isDeployable ha
  · intro success h hmethod hcontract
    obtain ⟨out, hanswered, hmain⟩ := success_accepted hcontract hmethod h
    have hnone : success.mainContract = none ↔
        ∀ name a, out.artifacts.get? name = some a → a.isDeployable = false := by
      rw [hmain, Option.map_eq_none_iff, selectMain_eq_none_iff]
    refine ⟨out, hanswered, hnone, fun hregular => ?_⟩
    obtain ⟨unit, name, c, hold⟩ := (Verdict.succeeded_ok_iff.mp hanswered.accepted).2
    obtain ⟨a, ha⟩ := StandardOutput.exists_get?_artifacts.mpr ⟨unit, c, hold⟩
    refine Option.ne_none_iff_exists'.mp fun hmissing => ?_
    have hnot := hnone.mp hmissing name a ha
    rw [hregular.isDeployable ha] at hnot
    cases hnot

/-- An answer with one message, and one contract with a text for its code. -/
def singleAnswer (severity code : String) : StandardOutput :=
  { errors := [{ severity, message := "M" }]
    contracts := .ofList [("M.sol", .ofList [("M", { bytecode := code })])] }

/-- Surroundings with the root alone. The compiler gives one answer to everything. -/
def answering (out : StandardOutput) : Surroundings Unit where
  resolver _ := ⟨(MemoryFiles.ofList [("M.sol", "contract M;")]).view, .disabled, {}⟩
  compile _ _ := (.ok out, ())
  sandbox := none
  clock _ := (⟨0⟩, ())
  isCancelled _ := (false, ())

/-- One sweep with one configuration. -/
def singleSweep : RunSettings :=
  { strategies := [.directImport], configs := [⟨"paris", true, 200⟩] }

/-- The success of the first attempt with an answer. -/
def firstSuccess (out : StandardOutput) (mainContract : Option MainContract) : CompileSuccess :=
  { method := .directImport, attempt := 1, configurationUsed := some ⟨"paris", true, 200⟩
    contracts := out.artifacts, mainContract, compiledSource := some "contract M;" }

theorem holds_singleAnswer {severity code unit name : String} {c : ContractOutput} :
    (singleAnswer severity code).Holds unit name c ↔
      unit = "M.sol" ∧ name = "M" ∧ c = { bytecode := code } := by
  constructor
  · rintro ⟨contracts, hunit, hname⟩
    cases List.mem_singleton.mp (Dict.get?_eq_some_iff.mp hunit)
    cases List.mem_singleton.mp (Dict.get?_eq_some_iff.mp hname)
    exact ⟨rfl, rfl, rfl⟩
  · rintro ⟨rfl, rfl, rfl⟩
    exact ⟨_, rfl, rfl⟩

theorem answer_accepted_iff_created :
    let out := singleAnswer "warning" "60"
    let run := (orchestrate singleSweep (answering out) ⟨"M.sol"⟩ ()).1
    out.IsRegular ∧ ∃ success main,
      run.outcome = .success success ∧ success.mainContract = some main := by
  intro out run
  have hregular : out.IsRegular := by
    refine ⟨fun e he => ?_, fun unit name c hold _ => ?_⟩
    · cases List.mem_singleton.mp he
      exact .inr (.inl rfl)
    · obtain ⟨-, -, rfl⟩ := holds_singleAnswer.mp hold
      decide
  have houtcome : run.outcome = .success (firstSuccess out (some ⟨"M", 1⟩)) := by decide +kernel
  obtain ⟨_, ⟨⟨_, _, _, _, -, -, -, hanswer⟩, -, -⟩, -, hmain⟩ :=
    (answer_accepted_iff singleSweep (answering out) ⟨"M.sol"⟩ ()).2 _ houtcome (by decide) rfl
  cases hanswer
  obtain ⟨main, hmain⟩ := hmain hregular
  exact ⟨hregular, _, main, houtcome, hmain⟩

/-- **An answer without code is accepted, and an answer without errors is not.** A bare prefix
counts as code where artifacts are gathered, so that the run succeeds without a main contract. A
severity that is not known is an error to the verdict alone. -/
theorem answer_accepted_without_code :
    let bare := singleAnswer "warning" "0x"
    let fatal := singleAnswer "fatal" "60"
    ((Verdict.of (.ok bare)).status = .succeeded ∧
      (¬ ∃ unit name c, bare.Holds unit name c ∧ c.HasCode) ∧
      (∃ a, bare.artifacts.get? "M" = some a ∧ a.isDeployable = false) ∧
      (orchestrate singleSweep (answering bare) ⟨"M.sol"⟩ ()).1.outcome =
        .success (firstSuccess bare none)) ∧
    (fatal.hasErrors = false ∧ (∃ unit name c, fatal.Holds unit name c ∧ c.HasCode) ∧
      (Verdict.of (.ok fatal)).status = .compileErrors) := by
  intro bare fatal
  have hbare : ¬ ∃ unit name c, bare.Holds unit name c ∧ c.HasCode := by
    rintro ⟨unit, name, c, hold, hcode⟩
    obtain ⟨-, -, rfl⟩ := holds_singleAnswer.mp hold
    exact absurd hcode (by decide)
  have hfatal : ∃ unit name c, fatal.Holds unit name c ∧ c.HasCode :=
    ⟨_, _, _, holds_singleAnswer.mpr ⟨rfl, rfl, rfl⟩, by decide⟩
  refine ⟨⟨by decide +kernel, hbare, ⟨_, rfl, by decide⟩, by decide +kernel⟩, ?_⟩
  exact ⟨by decide, hfatal, by decide +kernel⟩

end Run

end ContractBuild
