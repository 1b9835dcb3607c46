import ContractBuild.Proofs.Run.Patch
import ContractBuild.Proofs.Run.Trace

/-!
# What a failed run shows

A run that fails reports a text and a message. The candidate of a sweep may be repaired after the
last attempt, and a later strategy may give up before it submits anything: neither is reported.

- **One step** (`Run.Submits`): a step submits nothing and leaves the record of the last attempt
  alone, or its last attempt is the one that is remembered. `Run.attempt_submits`,
  `Run.Swept.submits` and `Run.strategy_submits` say it of an attempt, a sweep and a strategy.
- **From strategy to strategy** (`Run.strategies_concludes`): the last attempt of a run is made by
  the last strategy that submits anything (`Run.MakesLast`).
- **Whole runs** (`orchestrate_failure`): what a failure shows.
-/

namespace ContractBuild

/-- The text of a unit in what the compiler or the build tool is given. -/
def Exchange.unit? (unit : String) : Exchange → Option String
  | compile input _ => input.sources.get? unit
  | build request _ => request.sources.get? unit
  | _ => none

/-- The name of the root unit in what a strategy submits. -/
def Strategy.rootUnit (r : Resolver) (root : Path) : Strategy → String
  | flattenCompile => root.fileName?.getD "Flattened.sol"
  | _ => (UnitLookup.ofRoot r root).rootUnit

theorem Run.Sweep.Starts.rootUnit_eq {r : Resolver} {root : Path} {s : Run.Sweep}
    (h : s.Starts r root) : s.rootUnit = s.strategy.rootUnit r root := by
  cases h with
  | directImport => rfl
  | flattenCompile _ hu => exact hu

theorem RunLog.lastDiagnostic_afterFailure (l : RunLog) (a : CompilationAttempt) (source : String)
    (r : Run.Repair) : (l.afterFailure a source r).lastDiagnostic = a.firstError? := by
  unfold RunLog.afterFailure
  split <;> rfl

/-- The record of an attempt of a sweep lists errors only. -/
theorem Run.Sweep.firstError?_recordOf (s : Run.Sweep) (config : CompilerConfig) (number : UInt32)
    (v : Run.Verdict) (ms : UInt64) :
    (s.recordOf config number v ms).firstError? =
      (s.recordOf config number v ms).errors.head?.map (·.message) := by
  simp [CompilationAttempt.firstError?, Run.Sweep.recordOf, List.find?_filter, List.head?_filter]

namespace Run

variable {σ : Type} {c : RunContext σ} {root : Path} {strat : Strategy} {unit : String}
  {p p₁ p' : RunProgress (σ × List Exchange)} {res : Except RunError (Option CompileSuccess)}

/-! ## One step -/

/-- From `p` to `p'` nothing is submitted, and what is remembered of the last attempt stays. -/
structure Idle (p p' : RunProgress (σ × List Exchange)) : Prop where
  attempts : p'.log.attempts = p.log.attempts
  invocations : invocations p'.state.2 = invocations p.state.2
  lastSource : p'.log.lastSource = p.log.lastSource
  lastDiagnostic : p'.log.lastDiagnostic = p.log.lastDiagnostic

namespace Idle

theorem refl (p : RunProgress (σ × List Exchange)) : Idle p p := ⟨rfl, rfl, rfl, rfl⟩

theorem trans (h : Idle p p₁) (h' : Idle p₁ p') : Idle p p' where
  attempts := h'.attempts.trans h.attempts
  invocations := h'.invocations.trans h.invocations
  lastSource := h'.lastSource.trans h.lastSource
  lastDiagnostic := h'.lastDiagnostic.trans h.lastDiagnostic

theorem of_gate {left : Nat} {res : Except RunError Unit}
    (h : exec (gate c.recorded left) p = (res, p')) : Idle p p' := by
  obtain ⟨hlog, hinvocations⟩ := invocations_of_gate h
  exact ⟨by rw [hlog], hinvocations, by rw [hlog], by rw [hlog]⟩

end Idle

/-- `Latest unit text a p`: the last attempt recorded at `p` is `a`, and `text` is the text of the
unit in what was submitted last. -/
structure Latest (unit text : String) (a : CompilationAttempt)
    (p : RunProgress (σ × List Exchange)) : Prop where
  attempt : p.log.attempts.getLast? = some a
  submitted : ∃ call, (invocations p.state.2).getLast? = some call ∧ call.unit? unit = some text

theorem Latest.of_idle {text : String} {a : CompilationAttempt} (h : Latest unit text a p)
    (hidle : Idle p p') : Latest unit text a p' where
  attempt := by rw [hidle.attempts, h.attempt]
  submitted := by rw [hidle.invocations]; exact h.submitted

/-- `Remembered text a res p`: after a step with the result `res`, the text of the attempt `a` is
the one of the success; otherwise it is in the record, with the first error of the attempt. -/
def Remembered (text : String) (a : CompilationAttempt)
    (res : Except RunError (Option CompileSuccess)) (p : RunProgress (σ × List Exchange)) : Prop :=
  match res with
  | .ok (some success) => success.compiledSource = some text
  | _ => p.log.lastSource = some text ∧ p.log.lastDiagnostic = a.errors.head?.map (·.message)

/-- `Submits strat unit p res p'`: all that a step of the strategy `strat`, with `unit` for its root
unit, does to the record of the last attempt. -/
inductive Submits (strat : Strategy) (unit : String) (p : RunProgress (σ × List Exchange))
    (res : Except RunError (Option CompileSuccess)) (p' : RunProgress (σ × List Exchange)) :
    Prop where
  | nothing : Idle p p' → (∀ success, res ≠ .ok (some success)) → Submits strat unit p res p'
  | last {a : CompilationAttempt} {text : String} :
      p.log.attempts.length < p'.log.attempts.length → a.strategy = strat →
      Latest unit text a p' → Remembered text a res p' → Submits strat unit p res p'

namespace Submits

/-- What is idle before a step does not count. -/
theorem of_idle (hidle : Idle p p₁) (h : Submits strat unit p₁ res p') :
    Submits strat unit p res p' := by
  cases h with
  | nothing hidle' hres => exact .nothing (hidle.trans hidle') hres
  | last hlt hs hlatest hrem => exact .last (hidle.attempts ▸ hlt) hs hlatest hrem

/-- Of two steps the second one counts, unless it submits nothing. -/
theorem trans (h : Submits strat unit p (.ok none) p₁) (h' : Submits strat unit p₁ res p') :
    Submits strat unit p res p' := by
  cases h with
  | nothing hidle _ => exact h'.of_idle hidle
  | last hlt hs hlatest hrem =>
    cases h' with
    | last hlt' hs' hlatest' hrem' => exact .last (Nat.lt_trans hlt hlt') hs' hlatest' hrem'
    | nothing hidle hres =>
      refine .last (by rwa [hidle.attempts]) hs (hlatest.of_idle hidle) ?_
      obtain ⟨hsource, hdiagnostic⟩ := hrem
      rcases res with e | found
      · exact ⟨hidle.lastSource.trans hsource, hidle.lastDiagnostic.trans hdiagnostic⟩
      · cases found with
        | none => exact ⟨hidle.lastSource.trans hsource, hidle.lastDiagnostic.trans hdiagnostic⟩
        | some success => exact absurd rfl (hres success)

end Submits

/-- A step that invokes once makes the last attempt. -/
theorem Invokes.submits {call : Exchange} {a : CompilationAttempt} {text : String}
    (h : Invokes p call p') (hcall : call.isInvocation = true) (htext : call.unit? unit = some text)
    (ha : p'.log.attempts = p.log.attempts ++ [a]) (hs : a.strategy = strat)
    (hrem : Remembered text a res p') : Submits strat unit p res p' := by
  refine .last ?_ hs ⟨?_, call, ?_, htext⟩ hrem
  · have hlen := h.length
    omega
  · rw [ha, List.getLast?_concat]
  · rw [invocations_of_invokes h hcall, List.getLast?_concat]

/-! ## Sweeps -/

/-- An attempt of a sweep is the last one, with the candidate for its text. -/
theorem attempt_submits {s : Sweep} {config : CompilerConfig} {candidate : Candidate}
    {result : Except RunError (CompileSuccess ⊕ (Candidate × Bool))}
    (h : exec (attempt c.recorded s config candidate) p = (result, p')) :
    Submits s.strategy s.rootUnit p (result.map Sum.getLeft?) p' := by
  obtain ⟨answer, hinvokes, -⟩ := attempt_exchanges h
  have htext : (s.unitsWith candidate.text).get? s.rootUnit = some candidate.text :=
    Dict.get?_insert_self ..
  obtain ⟨ms, ⟨contracts, -, rfl, rfl⟩ | ⟨e, -, rfl, hres⟩⟩ := attempt_cases h
  · exact hinvokes.submits rfl htext rfl rfl rfl
  · refine hinvokes.submits rfl htext (RunLog.attempts_afterFailure ..) rfl ?_
    have hsource := p.log.lastSource_afterFailure
    have hdiagnostic := p.log.lastDiagnostic_afterFailure
    rcases hres with rfl | rfl
    · exact ⟨hsource .., (hdiagnostic ..).trans (s.firstError?_recordOf ..)⟩
    · exact ⟨hsource .., (hdiagnostic ..).trans (s.firstError?_recordOf ..)⟩

theorem Swept.submits {s : Sweep} {configs : List CompilerConfig} {candidate : Candidate}
    (h : Swept c.recorded s configs candidate p res p') :
    Submits s.strategy s.rootUnit p res p' := by
  induction h with
  | finished => exact .nothing ⟨rfl, rfl, rfl, rfl⟩ nofun
  | refused hg => exact .nothing (.of_gate hg) nofun
  | stopped hg ha => exact .of_idle (.of_gate hg) (attempt_submits ha)
  | succeeded hg ha => exact .of_idle (.of_gate hg) (attempt_submits ha)
  | again hg ha _ ih => exact .of_idle (.of_gate hg) ((attempt_submits ha).trans ih)
  | next hg ha _ ih => exact .of_idle (.of_gate hg) ((attempt_submits ha).trans ih)

/-! ## Builds -/

/-- A build is the last attempt, with the text it takes for the root unit. -/
theorem buildOnce_submits {build : SandboxRequest → σ → Except SandboxError ArtifactMap × σ}
    {request : SandboxRequest} {text : String} {isLast : Bool}
    (htext : request.sources.get? unit = some text)
    (h : exec (buildOnce c.recorded (fun request => recording (.build request) (build request))
      request (request.sources.get? unit) isLast) p = (res, p')) :
    Submits .sandbox unit p res p' := by
  obtain ⟨answer, hinvokes, -⟩ := buildOnce_exchanges h
  rw [htext] at h
  obtain ⟨ms, ⟨contracts, -, rfl, rfl⟩ | ⟨e, -, hlog, hres⟩⟩ := buildOnce_cases h
  · exact hinvokes.submits rfl htext rfl rfl rfl
  · have hrem : p'.log.lastSource = some text ∧ p'.log.lastDiagnostic = some e.message := by
      rw [hlog]
      exact ⟨rfl, rfl⟩
    refine hinvokes.submits rfl htext (by rw [hlog]; rfl) rfl ?_
    cases isLast with
    | true =>
      obtain ⟨rfl, -⟩ := hres
      exact hrem
    | false =>
      obtain ⟨rfl | rfl, -⟩ := hres
      · exact hrem
      · exact hrem

theorem sandbox_submits {isLast : Bool}
    (h : exec (strategy c.recorded root isLast .sandbox) p = (res, p')) :
    Submits .sandbox (Strategy.sandbox.rootUnit (c.surroundings.resolver p.state.1) root) p res
      p' := by
  have hsandbox : c.recorded.surroundings.sandbox = c.surroundings.sandbox.map
    fun build request => recording (.build request) (build request) := rfl
  unfold strategy at h
  rw [hsandbox] at h
  cases hb : c.surroundings.sandbox with
  | none =>
    rw [hb] at h
    cases h
    exact .nothing (.refl p) nofun
  | some build =>
    rw [hb, Option.map_some] at h
    dsimp only at h
    rw [exec_sandboxBuild] at h
    dsimp only at h
    split at h
    · cases h
      exact .nothing (.refl p) nofun
    · rename_i collected hcollected
      have hprepared : Idle p (p.preparedFor c.settings collected) := ⟨rfl, rfl, rfl, rfl⟩
      rcases exec_bind_cases h with ⟨u, p₁, hg, h⟩ | ⟨e, hg, rfl⟩
      · refine .of_idle (hprepared.trans (.of_gate hg)) ?_
        -- the root unit is among those that were collected
        have hroot := UnitLookup.contains_rootUnit_of_run hcollected
        rw [Dict.contains_eq_isSome_get?] at hroot
        obtain ⟨original, horiginal⟩ := Option.isSome_iff_exists.mp hroot
        have htext := Collected.get?_request c.settings p.log.carried collected
          (UnitLookup.ofRoot (c.recorded.surroundings.resolver p.state) root).rootUnit
        rw [horiginal, Option.map_some] at htext
        exact buildOnce_submits htext h
      · exact .nothing (hprepared.trans (.of_gate hg)) nofun

/-! ## From strategy to strategy -/

theorem strategy_submits {isLast : Bool}
    (h : exec (strategy c.recorded root isLast strat) p = (res, p')) :
    Submits strat (strat.rootUnit (c.surroundings.resolver p.state.1) root) p res p' := by
  by_cases hs : strat = .sandbox
  · subst hs
    exact sandbox_submits h
  · rcases configDriven_cases (Strategy.isConfigDriven_of_ne hs) h with
      ⟨rfl, ⟨e, rfl⟩, -⟩ | ⟨s, flat, hstarts, rfl, hsweep⟩
    · exact .nothing (.refl p') nofun
    · obtain ⟨candidate, changes, hswept⟩ := sweep_cases hsweep
      have hsubmits := hswept.submits
      rw [hstarts.rootUnit_eq] at hsubmits
      refine .of_idle ?_ hsubmits
      exact ⟨rfl, rfl, rfl, rfl⟩

/-- `MakesLast c root ss p n q p'`: of a run that goes through the strategies `ss` from `p` and
makes `n` attempts in all, the last one is made by the strategy at position `q`, which the run
reaches at `p'`. -/
structure MakesLast (c : RunContext σ) (root : Path) (ss : List Strategy) (p : RunProgress σ)
    (n q : Nat) (p' : RunProgress σ) : Prop where
  reaches : Reaches c root ss p q p'
  before : p'.log.attempts.length < n
  after : ∀ r p₁, q < r → Reaches c root ss p r p₁ → p₁.log.attempts.length = n

/-- `Concludes c root ss p res p'`: all that a run through the strategies `ss` from `p` to `p'` can
show of its last attempt. -/
inductive Concludes (c : RunContext σ) (root : Path) (ss : List Strategy)
    (p : RunProgress (σ × List Exchange)) (res : Except RunError CompileSuccess)
    (p' : RunProgress (σ × List Exchange)) : Prop where
  /-- No strategy submits anything. -/
  | nothing (idle : Idle p p') (failed : ∃ e, res = .error e)
      (same : ∀ r p₁, Reaches c.recorded root ss p r p₁ →
        p₁.log.attempts.length = p.log.attempts.length) : Concludes c root ss p res p'
  /-- The last attempt is made by the last strategy that submits anything. -/
  | last {q : Nat} {p₁ : RunProgress (σ × List Exchange)} {a : CompilationAttempt} {text : String}
      (makes : MakesLast c.recorded root ss p p'.log.attempts.length q p₁)
      (strategy : ss[q]? = some a.strategy)
      (latest : Latest (a.strategy.rootUnit (c.surroundings.resolver p₁.state.1) root) text a p')
      (remembered : Remembered text a (res.map some) p') : Concludes c root ss p res p'

/-- Nothing follows a strategy that ends the run. -/
theorem concludes_of_ended {rest : List Strategy} {res : Except RunError CompileSuccess}
    (h : exec (strategy c.recorded root rest.isEmpty strat) p = (res.map some, p')) :
    Concludes c root (strat :: rest) p res p' := by
  have hne : res.map some ≠ .ok none := by
    cases res <;> simp [Except.map]
  cases strategy_submits h with
  | nothing hidle hnone =>
    refine .nothing hidle ?_ fun r p₁ hr => ?_
    · cases res with
      | ok success => exact absurd rfl (hnone success)
      | error e => exact ⟨e, rfl⟩
    · rw [(hr.eq_of_ne h hne).2]
  | last hlt hstrat hlatest hrem =>
    subst hstrat
    refine .last ⟨.here, hlt, fun r p₁ hlt hr => ?_⟩ rfl hlatest hrem
    exact absurd (hr.eq_of_ne h hne).1 (by omega)

/-- What the strategies behind one show, the run shows, unless it is that one that submits last. -/
theorem Concludes.behind {rest : List Strategy} {res : Except RunError CompileSuccess}
    (hs : exec (strategy c.recorded root rest.isEmpty strat) p = (.ok none, p₁))
    (h : Concludes c root rest p₁ res p') : Concludes c root (strat :: rest) p res p' := by
  have hlater {r : Nat} {p₂ : RunProgress (σ × List Exchange)} (hr0 : 0 < r)
      (hr : Reaches c.recorded root (strat :: rest) p r p₂) :
      ∃ r', r = r' + 1 ∧ Reaches c.recorded root rest p₁ r' p₂ := by
    cases hr with
    | here => exact absurd hr0 (Nat.lt_irrefl 0)
    | later hs' hr =>
      rw [hs] at hs'
      cases hs'
      exact ⟨_, rfl, hr⟩
  cases h with
  | nothing hidle herror hsame =>
    cases strategy_submits hs with
    | nothing hidle' _ =>
      refine .nothing (hidle'.trans hidle) herror fun r p₂ hr => ?_
      by_cases hr0 : 0 < r
      · obtain ⟨r, rfl, hrest⟩ := hlater hr0 hr
        rw [hsame r p₂ hrest, hidle'.attempts]
      · cases hr with
        | here => rfl
        | later => omega
    | last hlt hstrat hlatest hrem =>
      subst hstrat
      refine .last ⟨.here, by rwa [hidle.attempts], fun r p₂ hr0 hr => ?_⟩ rfl
        (hlatest.of_idle hidle) ?_
      · obtain ⟨r, rfl, hrest⟩ := hlater hr0 hr
        rw [hsame r p₂ hrest, hidle.attempts]
      · obtain ⟨e, rfl⟩ := herror
        exact ⟨hidle.lastSource.trans hrem.1, hidle.lastDiagnostic.trans hrem.2⟩
  | @last q p₂ a text hmakes hget hlatest hrem =>
    refine .last (q := q + 1) ⟨.later hs hmakes.reaches, hmakes.before, fun r p₃ hlt hr => ?_⟩ hget
      hlatest hrem
    obtain ⟨r, rfl, hrest⟩ := hlater (by omega) hr
    exact hmakes.after r p₃ (by omega) hrest

/-- **The last attempt of a run is made by the last strategy that submits anything.** -/
theorem strategies_concludes {ss : List Strategy} {res : Except RunError CompileSuccess}
    (h : exec (strategies c.recorded root ss) p = (res, p')) : Concludes c root ss p res p' := by
  induction ss generalizing p with
  | nil =>
    cases h
    refine .nothing (.refl p') ⟨_, rfl⟩ fun r p₁ hr => ?_
    cases hr
    rfl
  | cons strat rest ih =>
    rw [strategies] at h
    rcases exec_bind_cases h with ⟨found, p₁, hs, h⟩ | ⟨e, hs, rfl⟩
    · cases found with
      | some success =>
        cases h
        exact concludes_of_ended hs
      | none => exact (ih h).behind hs
    · exact concludes_of_ended hs

end Run

/-- **What a failed run shows.** Whatever the sources, the compiler and the build tool answer:

- Without an attempt a failure shows neither a text nor a message.
- Otherwise it shows the text of the root unit in what was submitted last, which the strategy at
  some position `q` submitted, and the first error of the last attempt, if that has one. If only the
  contract asked for is missing, it shows its own message instead. -/
theorem orchestrate_failure {σ : Type} (settings : RunSettings) (surroundings : Surroundings σ)
    (root : Path) (state : σ) (failure : CompileFailure)
    (h : (orchestrate settings surroundings root state).1.outcome = .failure failure) :
    let c := RunContext.begin settings surroundings state
    let p₀ := RunProgress.begin surroundings.recorded (state, [])
    let (run, state', exchanges) := orchestrate settings surroundings.recorded root (state, [])
    orchestrate settings surroundings root state = (run, state') ∧
    ((run.attempts = [] ∧ invocations exchanges = [] ∧ failure.lastSource = none ∧
        failure.lastDiagnostic = none) ∨
      ∃ q p a call text,
        Run.MakesLast c.recorded root settings.strategies p₀ run.attempts.length q p ∧
        settings.strategies[q]? = some a.strategy ∧
        run.attempts.getLast? = some a ∧ (invocations exchanges).getLast? = some call ∧
        call.unit? (a.strategy.rootUnit (surroundings.resolver p.state.1) root) = some text ∧
        failure.lastSource = some text ∧
        failure.lastDiagnostic =
          if failure.kind = .contractNotFound then some failure.message
          else a.errors.head?.map (·.message)) := by
  obtain ⟨res, p', hrun, horch, hplain⟩ :=
    orchestrate_recorded_cases settings surroundings root state
  rw [hplain] at h
  rw [horch]
  refine ⟨hplain, ?_⟩
  cases res with
  | ok success => cases h
  | error e =>
    cases h
    dsimp only [FinishedRun.ofLog]
    unfold Run.all at hrun
    rcases Run.exec_bind_cases hrun with ⟨success, p₁, hs, hmain⟩ | ⟨e', hs, he⟩
    · rcases Run.withMain_cases hmain with ⟨main, hok, -⟩ | ⟨name, available, herror, rfl⟩
      · cases hok
      · cases herror
        cases Run.strategies_concludes hs with
        | nothing _ hfailed _ =>
          obtain ⟨e, he⟩ := hfailed
          cases he
        | @last q p a text hmakes hget hlatest hrem =>
          obtain ⟨call, hcall, htext⟩ := hlatest.submitted
          exact .inr ⟨q, p, a, call, text, hmakes, hget, hlatest.attempt, hcall, htext, hrem, rfl⟩
    · cases he
      cases Run.strategies_concludes hs with
      | nothing hidle _ _ =>
        exact .inl ⟨hidle.attempts, hidle.invocations, hidle.lastSource, hidle.lastDiagnostic⟩
      | @last q p a text hmakes hget hlatest hrem =>
        obtain ⟨call, hcall, htext⟩ := hlatest.submitted
        obtain ⟨-, -, -, hkind⟩ := Run.strategies_gains hs
        refine .inr ⟨q, p, a, call, text, hmakes, hget, hlatest.attempt, hcall, htext, hrem.1, ?_⟩
        rw [if_neg (hkind e rfl)]
        exact hrem.2

/-- A sweep with one configuration and one attempt. -/
def oneAttempt : RunSettings :=
  { strategies := [.directImport], configs := [⟨"paris", true, 200⟩], maxAttempts := 1 }

/-- The failure of a run that repairs the root and has no attempt left for it. -/
def unsubmittedRepair : CompileFailure :=
  { kind := .strategyExhausted, message := "attempt budget of 1 exhausted"
    lastDiagnostic := some "something else", lastSource := some overridingText, attempts := 1 }

theorem orchestrate_failure_unsubmitted :
    let run := (orchestrate oneAttempt (overridingRoot [overridingText]) ⟨"M.sol"⟩ ()).1
    let exchanges := (orchestrate oneAttempt (overridingRoot [overridingText]).recorded ⟨"M.sol"⟩
      ((), [])).2.2
    run.outcome = .failure unsubmittedRepair ∧ run.fixes ≠ [] ∧
      ∃ call, (invocations exchanges).getLast? = some call ∧
        call.unit? "M.sol" = some overridingText := by
  intro run exchanges
  have houtcome : run.outcome = .failure unsubmittedRepair := by decide +kernel
  have hfixes : run.fixes ≠ [] := by decide +kernel
  obtain ⟨-, ⟨-, -, hnone, -⟩ | ⟨q, p, a, call, text, -, hget, -, hcall, htext, hsource, -⟩⟩ :=
    orchestrate_failure oneAttempt (overridingRoot [overridingText]) ⟨"M.sol"⟩ () _ houtcome
  · cases hnone
  · have hstrategy : a.strategy = .directImport := by
      have hmem := List.mem_of_getElem? hget
      simpa [oneAttempt] using hmem
    have hunit (s : Unit) : a.strategy.rootUnit ((overridingRoot [overridingText]).resolver s)
        ⟨"M.sol"⟩ = "M.sol" := by
      rw [hstrategy]
      cases s
      decide +kernel
    have htext : call.unit? "M.sol" = some overridingText := by
      rw [← hunit p.state.1, htext]
      exact hsource.symm
    exact ⟨houtcome, hfixes, call, hcall, htext⟩

end ContractBuild
