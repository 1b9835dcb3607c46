import ContractBuild.Proofs.Run.Provenance

/-!
# The diff that a run publishes

A run keeps one diff in its record. A sweep writes it when it ends, and a build in the sandbox never
does: what the sweep before it left stays.

- **Sweeps** (`Run.Swept.patch`): the diff is the one from the text the sweep starts from to the
  text it ends with, whether it succeeds or goes through all configurations.
- **Builds** (`Run.sandbox_patch`): the diff is left alone.
- **From strategy to strategy** (`Run.Reaches.patch`): when a run gets to a strategy, the diff is
  that of the last sweep, if there was one.
- **Whole runs** (`orchestrate_patch`): the diff that is published is that of the published source,
  unless a build succeeds after a sweep (`patch_of_earlier_sweep`).
-/

namespace ContractBuild

/-- A diff is empty exactly if nothing was changed. -/
theorem Diff.unified_eq_empty_iff (before after : String) :
    unified before after = "" ↔ after = before := by
  unfold unified
  by_cases h : before = after
  · rw [if_pos (beq_iff_eq.mpr h)]
    exact iff_of_true rfl h.symm
  · rw [if_neg (mt beq_iff_eq.mp h)]
    refine iff_of_false (fun hempty => ?_) (Ne.symm h)
    have hlist := congrArg String.toList hempty
    rw [String.toList_append] at hlist
    simp at hlist

namespace Dict

variable {α β : Type}

theorem get?_map (f : α → β) (d : Dict α) (key : String) :
    (d.map f).get? key = (d.get? key).map f := by
  simp [get?, map, mapWithKey, List.find?_map, Function.comp_def]

end Dict

/-- The units of a build are those that were collected, each with the repairs carried over. -/
theorem Collected.get?_request (settings : RunSettings) (carried : List FailureClass)
    (collected : Collected) (unit : String) :
    (collected.request settings carried).sources.get? unit =
      (collected.sources.get? unit).map fun text => (settings.prepare carried text).text := by
  have hsources : (collected.request settings carried).sources =
      collected.sources.map fun text => (settings.prepare carried text).text :=
    Dict.ofList_entries (collected.sources.map fun text => (settings.prepare carried text).text)
  rw [hsources, Dict.get?_map]

theorem RunLog.lastSource_afterFailure (l : RunLog) (a : CompilationAttempt) (source : String)
    (r : Run.Repair) : (l.afterFailure a source r).lastSource = some source := by
  unfold RunLog.afterFailure
  split <;> rfl

theorem Strategy.isConfigDriven_of_ne {strat : Strategy} (h : strat ≠ .sandbox) :
    strat.isConfigDriven = true := by
  cases strat with
  | sandbox => exact absurd rfl h
  | _ => rfl

namespace Run

variable {σ : Type} {c : RunContext σ} {root : Path} {p p' : RunProgress σ}

/-- `StartsFrom r root strat text`: `text` is the text of the root unit that a strategy starts from,
before any repair. -/
inductive StartsFrom (r : Resolver) (root : Path) : Strategy → String → Prop where
  | collected {strat : Strategy} {collected : Collected} {text : String} :
      strat ≠ .flattenCompile → (UnitLookup.ofRoot r root).collect = .ok collected →
      collected.sources.get? (UnitLookup.ofRoot r root).rootUnit = some text →
      StartsFrom r root strat text
  | flattened {flat : Flattened} :
      r.flatten root = .ok flat → StartsFrom r root .flattenCompile flat.text

theorem Sweep.Starts.startsFrom {r : Resolver} {s : Sweep} (h : s.Starts r root) :
    StartsFrom r root s.strategy s.initial := by
  have hroot := h.get?_rootUnit
  cases h with
  | directImport hc => exact .collected (by simp) hc hroot
  | @flattenCompile flat unit hf hu =>
    rw [Dict.get?_insert_self, Option.some.injEq] at hroot
    rw [← hroot]
    exact .flattened hf

/-! ## Sweeps -/

/-- A failed attempt remembers the text it was made with, and the next one differs from it only if
it was repaired. -/
theorem attempt_failed {s : Sweep} {config : CompilerConfig} {candidate next : Candidate}
    {isChanged : Bool}
    (h : exec (attempt c s config candidate) p = (.ok (.inr (next, isChanged)), p')) :
    p'.log.lastSource = some candidate.text ∧ (isChanged = false → next.text = candidate.text) := by
  obtain ⟨ms, ⟨_, _, hres, _⟩ | ⟨e, -, rfl, hres⟩⟩ := attempt_cases h
  · cases hres
  · rcases hres with hres | hres
    · cases hres
    · cases hres
      refine ⟨RunLog.lastSource_afterFailure .., fun hsame => ?_⟩
      have hrepaired := candidate.repaired c.settings (Verdict.of (c.surroundings.compile
        (StandardInput.ofSources (s.unitsWith candidate.text) config)
        (c.surroundings.clock p.state).2).1)
      rw [hrepaired.outcome] at hsame ⊢
      exact text_fixClasses_of_not_isChanged hsame

/-- A sweep that comes to an end writes the diff from what it starts with to what it ends with. -/
theorem Swept.patch {s : Sweep} {configs : List CompilerConfig} {candidate : Candidate}
    {found : Option CompileSuccess} (h : Swept c s configs candidate p (.ok found) p') :
    ∃ text, p'.log.patch = Diff.unified s.initial text ∧
      (∀ success, found = some success →
        success.method = s.strategy ∧ success.compiledSource = some text) ∧
      (found = none → if configs = [] then text = candidate.text ∧
        p'.log.lastSource = p.log.lastSource else p'.log.lastSource = some text) := by
  generalize hres : (Except.ok found : Except RunError (Option CompileSuccess)) = res at h
  induction h with
  | @finished candidate p =>
    cases hres
    exact ⟨candidate.text, rfl, nofun, fun _ => by rw [if_pos rfl]; exact ⟨rfl, rfl⟩⟩
  | refused => cases hres
  | stopped => cases hres
  | @succeeded config rest candidate p p₁ p' success hg ha =>
    cases hres
    obtain ⟨ms, ⟨contracts, -, hsuccess, rfl⟩ | ⟨e, -, -, hfailed⟩⟩ := attempt_cases ha
    · cases hsuccess
      refine ⟨candidate.text, rfl, fun success hs => ?_, nofun⟩
      cases hs
      exact ⟨rfl, rfl⟩
    · rcases hfailed with hfailed | hfailed <;> cases hfailed
  | again hg ha _ ih =>
    obtain ⟨text, hpatch, hsuccess, hnone⟩ := ih hres
    exact ⟨text, hpatch, hsuccess, hnone⟩
  | @next config rest candidate same p p₁ p₂ p' res hg ha _ ih =>
    obtain ⟨text, hpatch, hsuccess, hnone⟩ := ih hres
    refine ⟨text, hpatch, hsuccess, fun hfound => ?_⟩
    obtain ⟨hlast, hsame⟩ := attempt_failed ha
    have hnone := hnone hfound
    rw [if_neg (List.cons_ne_nil _ _)]
    -- behind the last configuration the text is the one that failed there
    split at hnone
    · rw [hnone.2, hlast, hnone.1, hsame rfl]
    · exact hnone

/-! ## Strategies -/

/-- What a strategy that goes through the configurations starts from, publishes and remembers. -/
theorem configDriven_patch {isLast : Bool} {strat : Strategy} {found : Option CompileSuccess}
    (hd : strat.isConfigDriven = true)
    (h : exec (strategy c root isLast strat) p = (.ok found, p')) :
    ∃ (s : Sweep) (text : String), s.Starts (c.surroundings.resolver p.state) root ∧
      s.strategy = strat ∧ p'.log.patch = Diff.unified s.initial text ∧
      (∀ success, found = some success →
        success.method = strat ∧ success.compiledSource = some text) ∧
      (found = none → c.settings.configs ≠ [] → p'.log.lastSource = some text) := by
  rcases configDriven_cases hd h with ⟨-, ⟨e, he⟩, -⟩ | ⟨s, flat, hstarts, rfl, hsweep⟩
  · cases he
  · obtain ⟨candidate, changes, hswept⟩ := sweep_cases hsweep
    obtain ⟨text, hpatch, hsuccess, hnone⟩ := hswept.patch
    refine ⟨s, text, hstarts, rfl, hpatch, hsuccess, fun hfound hconfigs => ?_⟩
    have hnone := hnone hfound
    rwa [if_neg hconfigs] at hnone

/-- A build leaves the diff alone, and publishes the collected root with what is carried over. -/
theorem sandbox_patch {isLast : Bool} {found : Option CompileSuccess}
    (h : exec (strategy c root isLast .sandbox) p = (.ok found, p')) :
    p'.log.patch = p.log.patch ∧ p'.log.carried = p.log.carried ∧
      ∀ success, found = some success → success.method = .sandbox ∧
        ∃ original, StartsFrom (c.surroundings.resolver p.state) root .sandbox original ∧
          success.compiledSource = some (c.settings.prepare p.log.carried original).text := by
  unfold strategy at h
  cases hb : c.surroundings.sandbox with
  | none =>
    rw [hb] at h
    cases h
    exact ⟨rfl, rfl, nofun⟩
  | some build =>
    rw [hb] at h
    dsimp only at h
    rw [exec_sandboxBuild] at h
    dsimp only at h
    split at h
    · cases h
    · rename_i collected hcollected
      rcases exec_bind_cases h with ⟨u, p₁, hg, h⟩ | ⟨e, -, he⟩
      · obtain ⟨hlog, -⟩ := gate_cases hg
        have hpatch : p₁.log.patch = p.log.patch := by rw [hlog]; rfl
        have hcarried : p₁.log.carried = p.log.carried := by rw [hlog]; rfl
        obtain ⟨ms, ⟨contracts, -, hres, rfl⟩ | ⟨e, -, hafter, hres⟩⟩ := buildOnce_cases h
        · cases hres
          refine ⟨hpatch, hcarried, fun success hs => ?_⟩
          cases hs
          have hroot := UnitLookup.contains_rootUnit_of_run hcollected
          rw [Dict.contains_eq_isSome_get?] at hroot
          obtain ⟨original, horiginal⟩ := Option.isSome_iff_exists.mp hroot
          refine ⟨rfl, original, .collected (by simp) hcollected horiginal, ?_⟩
          rw [Collected.get?_request, horiginal, Option.map_some]
        · rw [hafter]
          refine ⟨hpatch, hcarried, fun success hs => ?_⟩
          subst hs
          cases isLast with
          | true => cases hres.1
          | false => rcases hres.1 with hres | hres <;> cases hres
      · cases he

/-! ## From strategy to strategy -/

/-- `LeftBySweep c root ss p q patch`: the last strategy before position `q` that goes through the
configurations is at a position `k`, only builds lie between, and `patch` is the diff from what its
sweep starts with to the text it tried last. -/
def LeftBySweep (c : RunContext σ) (root : Path) (ss : List Strategy) (p : RunProgress σ) (q : Nat)
    (patch : String) : Prop :=
  ∃ k p₁ p₂ s last, k < q ∧ (∀ j, k < j → j < q → ss[j]? = some .sandbox) ∧
    Reaches c root ss p k p₁ ∧ Reaches c root ss p (k + 1) p₂ ∧ ss[k]? = some s.strategy ∧
    Sweep.Starts (c.surroundings.resolver p₁.state) root s ∧
    patch = Diff.unified s.initial last ∧
    (c.settings.configs ≠ [] → p₂.log.lastSource = some last)

/-- Before position `q` there are only builds. -/
def OnlyBuilds (ss : List Strategy) (q : Nat) : Prop := ∀ j < q, ss[j]? = some .sandbox

theorem LeftBySweep.not_onlyBuilds {ss : List Strategy} {q : Nat} {patch : String}
    (h : LeftBySweep c root ss p q patch) : ¬ OnlyBuilds ss q := by
  intro honly
  obtain ⟨k, p₁, p₂, s, last, hk, -, -, -, hstrat, hstarts, -⟩ := h
  have hsandbox : s.strategy = .sandbox := Option.some.inj (hstrat.symm.trans (honly k hk))
  cases hstarts <;> cases hsandbox

/-- When a run gets to a strategy, builds alone have left everything as it was; otherwise the diff
is that of the last sweep. -/
theorem Reaches.patch {ss : List Strategy} {q : Nat} (h : Reaches c root ss p q p') :
    (OnlyBuilds ss q ∧ p'.log.patch = p.log.patch ∧ p'.log.carried = p.log.carried) ∨
    LeftBySweep c root ss p q p'.log.patch := by
  induction h with
  | here => exact .inl ⟨nofun, rfl, rfl⟩
  | @later strat rest q p p₁ p' hs hrest ih =>
    rcases ih with ⟨hbuilds, hpatch, hcarried⟩ | hleft
    · by_cases hd : strat = .sandbox
      · subst hd
        obtain ⟨hpatch', hcarried', -⟩ := sandbox_patch hs
        refine .inl ⟨fun j hj => ?_, hpatch.trans hpatch', hcarried.trans hcarried'⟩
        cases j with
        | zero => rfl
        | succ j => exact hbuilds j (by omega)
      · obtain ⟨s, text, hstarts, rfl, hunified, -, hlast⟩ :=
          configDriven_patch (Strategy.isConfigDriven_of_ne hd) hs
        refine .inr ⟨0, p, p₁, s, text, by omega, fun j hj hjq => ?_, .here, .later hs .here, rfl,
          hstarts, hpatch.trans hunified, hlast rfl⟩
        obtain ⟨j, rfl⟩ := Nat.exists_eq_add_of_lt hj
        rw [Nat.zero_add] at hjq ⊢
        exact hbuilds j (by omega)
    · obtain ⟨k, q₁, q₂, s, last, hk, hbuilds, hr₁, hr₂, hstrat, hrest⟩ := hleft
      refine .inr ⟨k + 1, q₁, q₂, s, last, by omega, fun j hj hjq => ?_, .later hs hr₁,
        .later hs hr₂, hstrat, hrest⟩
      obtain ⟨j, rfl⟩ := Nat.exists_eq_add_of_lt hj
      exact hbuilds (k + 1 + j) (by omega) (by omega)

/-- The strategy that a success comes from. -/
theorem reaches_of_success {ss : List Strategy} {success : CompileSuccess}
    (h : exec (strategies c root ss) p = (.ok success, p')) :
    ∃ q p₁ strat isLast, Reaches c root ss p q p₁ ∧ ss[q]? = some strat ∧
      exec (strategy c root isLast strat) p₁ = (.ok (some success), p') := by
  induction ss generalizing p with
  | nil => cases h
  | cons strat rest ih =>
    rw [strategies] at h
    rcases exec_bind_cases h with ⟨found, p₁, hs, h⟩ | ⟨e, -, he⟩
    · cases found with
      | some found =>
        cases h
        exact ⟨0, p, strat, _, .here, rfl, hs⟩
      | none =>
        obtain ⟨q, p₂, strat', isLast, hreaches, hget, hsuccess⟩ := ih h
        exact ⟨q + 1, p₂, strat', isLast, .later hs hreaches, hget, hsuccess⟩
    · cases he

end Run

theorem RunSettings.text_prepare_nil (settings : RunSettings) (text : String) :
    (settings.prepare [] text).text = text := by
  unfold RunSettings.prepare
  split <;> rfl

/-- **The published diff.** A success comes from the strategy at some position `q`, which starts
from a text of the root unit and publishes another.

- The diff is the one between these two, and empty exactly if they are the same, unless a build
  succeeds after a sweep has failed.
- A build publishes the collected text with the repairs that are carried over. It does not touch the
  diff: what is published with it is the diff of the last sweep before it. -/
theorem orchestrate_patch {σ : Type} (settings : RunSettings) (surroundings : Surroundings σ)
    (root : Path) (state : σ) (success : CompileSuccess)
    (h : (orchestrate settings surroundings root state).1.outcome = .success success) :
    let c := RunContext.begin settings surroundings state
    let p₀ := RunProgress.begin surroundings state
    let patch := (orchestrate settings surroundings root state).1.patch
    ∃ q p original text,
      Run.Reaches c root settings.strategies p₀ q p ∧
      settings.strategies[q]? = some success.method ∧
      Run.StartsFrom (surroundings.resolver p.state) root success.method original ∧
      success.compiledSource = some text ∧
      ((success.method = .sandbox → Run.OnlyBuilds settings.strategies q) →
        patch = Diff.unified original text ∧ (patch = "" ↔ text = original)) ∧
      (success.method = .sandbox →
        text = (settings.prepare p.log.carried original).text ∧
        (Run.OnlyBuilds settings.strategies q ∨
          Run.LeftBySweep c root settings.strategies p₀ q patch)) := by
  obtain ⟨res, p', hrun, horch⟩ := orchestrate_cases settings surroundings root state
  rw [horch] at h ⊢
  cases res with
  | error e => cases h
  | ok found =>
    cases h
    unfold Run.all at hrun
    rcases Run.exec_bind_cases hrun with ⟨first, p₁, hs, hmain⟩ | ⟨e, -, he⟩
    · obtain ⟨q, p, strat, isLast, hreaches, hget, hstrat⟩ := Run.reaches_of_success hs
      obtain ⟨main, hfound, rfl⟩ | ⟨_, _, hfound, -⟩ := Run.withMain_cases hmain
      · cases hfound
        dsimp only [FinishedRun.ofLog]
        by_cases hd : strat = .sandbox
        · subst hd
          obtain ⟨hpatch, -, hsuccess⟩ := Run.sandbox_patch hstrat
          obtain ⟨hmethod, original, hstarts, htext⟩ := hsuccess first rfl
          rw [hmethod, hpatch]
          refine ⟨q, p, original, (settings.prepare p.log.carried original).text, hreaches, hget,
            hstarts, htext, fun honly => ?_, fun _ => ⟨rfl, hreaches.patch.imp_left And.left⟩⟩
          rcases hreaches.patch with ⟨-, hempty, hcarried⟩ | hleft
          · -- nothing was repaired before, so nothing is carried over
            have htext : (settings.prepare p.log.carried original).text = original := by
              rw [hcarried]
              exact settings.text_prepare_nil original
            have hnone : Diff.unified original original = "" :=
              (Diff.unified_eq_empty_iff ..).mpr rfl
            rw [htext, hnone]
            exact ⟨hempty, iff_of_true hempty rfl⟩
          · exact absurd (honly rfl) hleft.not_onlyBuilds
        · obtain ⟨s, text, hstarts, rfl, hpatch, hsuccess, -⟩ :=
            Run.configDriven_patch (Strategy.isConfigDriven_of_ne hd) hstrat
          obtain ⟨hmethod, htext⟩ := hsuccess first rfl
          rw [hmethod, hpatch]
          exact ⟨q, p, s.initial, text, hreaches, hget, hstarts.startsFrom, htext,
            fun _ => ⟨rfl, Diff.unified_eq_empty_iff ..⟩, fun hsandbox => absurd hsandbox hd⟩
      · cases hfound
    · cases he

/-- A root with one function that overrides. -/
def overridingText : String := "contract M \x7bf() override;\x7d"

/-- The root without what the rules take out. -/
def plainText : String := "contract M \x7bf();\x7d"

/-- The contract of the root. -/
def overridingContract : ArtifactMap :=
  .ofList [("M", { contractName := "M", sourceName := some "M.sol", bytecode := "0x60"
                   deployedBytecode := "0x" })]

/-- Surroundings with the root alone. The compiler refuses the texts in `refused`, and the build
tool builds everything. -/
def overridingRoot (refused : List String) : Surroundings Unit where
  resolver _ := ⟨(MemoryFiles.ofList [("M.sol", overridingText)]).view, .disabled, {}⟩
  compile input _ :=
    if (input.sources.get? "M.sol").any refused.contains then
      (.ok { errors := [{ severity := "error", message := "something else" }] }, ())
    else (.ok { contracts := .ofList [("M.sol", .ofList [("M", { bytecode := "60" })])] }, ())
  sandbox := some fun _ _ => (.ok overridingContract, ())
  clock _ := (⟨0⟩, ())
  isCancelled _ := (false, ())

/-- A sweep, and a build after it, with one configuration. -/
def sweepThenBuild : RunSettings :=
  { strategies := [.directImport, .sandbox], configs := [⟨"paris", true, 200⟩] }

/-- A success with the contract of the root. -/
def overridingSuccess (method : Strategy) (attempt : UInt32) (source : String) : CompileSuccess :=
  { method, attempt, configurationUsed := some ⟨"paris", true, 200⟩
    contracts := overridingContract
    mainContract := some { contractName := "M", bytecodeLength := 1 }
    compiledSource := some source }

theorem orchestrate_patch_repaired :
    let run := (orchestrate sweepThenBuild (overridingRoot [overridingText]) ⟨"M.sol"⟩ ()).1
    run.outcome = .success (overridingSuccess .directImport 2 plainText) ∧
      ∃ original, original ≠ plainText ∧ run.patch = Diff.unified original plainText := by
  intro run
  have houtcome : run.outcome = .success (overridingSuccess .directImport 2 plainText) := by
    decide +kernel
  have hpatch : run.patch ≠ "" := by decide +kernel
  obtain ⟨q, p, original, text, -, -, -, htext, hunified, -⟩ :=
    orchestrate_patch sweepThenBuild (overridingRoot [overridingText]) ⟨"M.sol"⟩ () _ houtcome
  obtain ⟨hdiff, hempty⟩ := hunified nofun
  cases htext
  exact ⟨houtcome, original, fun h => hpatch (hempty.mpr h.symm), hdiff⟩

/-- **The published diff is not that of the published source.** The sweep takes a qualifier out and
fails. The build after it takes the root as it is, and the diff of the sweep is published with
it. -/
theorem patch_of_earlier_sweep :
    let run := (orchestrate sweepThenBuild (overridingRoot [overridingText, plainText]) ⟨"M.sol"⟩
      ()).1
    run.outcome = .success (overridingSuccess .sandbox 3 overridingText) ∧
      run.patch = Diff.unified overridingText plainText ∧
      run.patch ≠ Diff.unified overridingText overridingText := by
  intro run
  have hpatch : run.patch = Diff.unified overridingText plainText := by decide +kernel
  refine ⟨by decide +kernel, hpatch, ?_⟩
  rw [hpatch, (Diff.unified_eq_empty_iff overridingText _).mpr rfl, Ne, Diff.unified_eq_empty_iff]
  decide

end ContractBuild
