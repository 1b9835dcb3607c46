import ContractBuild.Proofs.Run.Coverage

/-!
# What a run asks its surroundings

A run knows its surroundings only by what they answer. `Surroundings.recorded` answers the same and
keeps a record of every exchange in its state, so a statement about the exchanges of a run is one
about the state it ends in.

- **The run is the same** (`orchestrate_recorded`): with recorded surroundings a run gives the same
  result, and the surroundings end in the same state.
- **Single steps**: `gate_exchanges`, `attempt_exchanges` and `buildOnce_exchanges` say what each
  step asks, in order.
- **Strategies**: `sandbox_exchanges` and `configDriven_cases` say what a strategy comes to.
-/

namespace ContractBuild

/-- A question of a run to its surroundings, with the answer. -/
inductive Exchange where
  | cancelled (answer : Bool)
  | clock (reading : Span)
  | compile (input : StandardInput) (answer : Except CompileError StandardOutput)
  | build (request : SandboxRequest) (answer : Except SandboxError ArtifactMap)

namespace Exchange

/-- Whether the compiler or the build tool is asked. -/
def isInvocation : Exchange → Bool
  | compile _ _ => true
  | build _ _ => true
  | _ => false

@[simp] theorem isInvocation_cancelled (answer : Bool) : (cancelled answer).isInvocation = false :=
  rfl

@[simp] theorem isInvocation_clock (reading : Span) : (clock reading).isInvocation = false := rfl

end Exchange

/-- The invocations among some exchanges. -/
def invocations (es : List Exchange) : List Exchange := es.filter (·.isInvocation)

theorem invocations_append (es es' : List Exchange) :
    invocations (es ++ es') = invocations es ++ invocations es' :=
  List.filter_append ..

section

variable {σ α : Type}

/-- Asks, and records the exchange. -/
def recording (e : α → Exchange) (f : σ → α × σ) (s : σ × List Exchange) :
    α × (σ × List Exchange) :=
  ((f s.1).1, (f s.1).2, s.2 ++ [e (f s.1).1])

/-- The same surroundings with a record of all exchanges. -/
def Surroundings.recorded (s : Surroundings σ) : Surroundings (σ × List Exchange) where
  resolver state := s.resolver state.1
  compile input := recording (.compile input) (s.compile input)
  sandbox := s.sandbox.map fun build request => recording (.build request) (build request)
  clock := recording .clock s.clock
  isCancelled := recording .cancelled s.isCancelled

/-- The same context with a record of all exchanges. -/
def RunContext.recorded (c : RunContext σ) : RunContext (σ × List Exchange) :=
  ⟨c.settings, c.surroundings.recorded, c.started⟩

/-- A run under way without the record of its exchanges. -/
def RunProgress.forget (p : RunProgress (σ × List Exchange)) : RunProgress σ := ⟨p.log, p.state.1⟩

end

namespace Run

variable {σ α β : Type} {c : RunContext σ}

/-! ## The record changes nothing -/

/-- `Erases x y`: without the record of exchanges, `x` is `y`. -/
def Erases (x : Run (σ × List Exchange) α) (y : Run σ α) : Prop :=
  ∀ p, exec y p.forget = ((exec x p).1, (exec x p).2.forget)

namespace Erases

theorem pure (a : α) : Erases (pure a : Run (σ × List Exchange) α) (pure a) := fun _ => rfl

theorem throw (e : RunError) : Erases (throw e : Run (σ × List Exchange) α) (throw e) :=
  fun _ => rfl

theorem log : Erases (log : Run (σ × List Exchange) RunLog) log := fun _ => rfl

theorem note (f : RunLog → RunLog) : Erases (note f : Run (σ × List Exchange) Unit) (note f) :=
  fun _ => rfl

theorem act (e : α → Exchange) (f : σ → α × σ) : Erases (act (recording e f)) (act f) :=
  fun _ => rfl

theorem bind {x : Run (σ × List Exchange) α} {y : Run σ α} {f : α → Run (σ × List Exchange) β}
    {g : α → Run σ β} (h : Erases x y) (hf : ∀ a, Erases (f a) (g a)) :
    Erases (x >>= f) (y >>= g) := by
  intro p
  rw [exec_bind, exec_bind, h p]
  rcases exec x p with ⟨_ | a, p'⟩
  · rfl
  · exact hf a p'

/-- Only what is the same without the record is taken from the state. -/
theorem get_bind {f : RunProgress (σ × List Exchange) → Run (σ × List Exchange) β}
    {g : RunProgress σ → Run σ β} (h : ∀ p, Erases (f p) (g p.forget)) :
    Erases (get >>= f) (get >>= g) := by
  intro p
  rw [exec_bind, exec_bind]
  exact h p p

theorem ite {b : Prop} [Decidable b] {x x' : Run (σ × List Exchange) α} {y y' : Run σ α}
    (h : Erases x y) (h' : Erases x' y') :
    Erases (if b then x else x') (if b then y else y') := by
  split
  · exact h
  · exact h'

end Erases

theorem erases_resolved (result : Except ResolutionError α) :
    Erases (resolved result : Run (σ × List Exchange) α) (resolved result) := by
  cases result with
  | ok a => exact .pure a
  | error e => exact .throw _

theorem erases_checkTime : Erases (checkTime c.recorded) (checkTime c) :=
  .bind (.act .clock _) fun _ => .ite (.throw _) (.pure _)

theorem erases_gate (left : Nat) : Erases (gate c.recorded left) (gate c left) := by
  have hrest : Erases
      (checkTime c.recorded >>= fun _ =>
        if left == 0 then throw (.budgetExhausted c.settings.maxAttempts) else pure ())
      (checkTime c >>= fun _ =>
        if left == 0 then throw (.budgetExhausted c.settings.maxAttempts) else pure ()) :=
    .bind erases_checkTime fun _ => .ite (.throw _) (.pure _)
  exact .bind (.act .cancelled _) fun _ => .ite (.bind (.throw _) fun _ => hrest) hrest

theorem erases_attemptsLeft : Erases (attemptsLeft c.recorded) (attemptsLeft c) :=
  .bind .log fun _ => .pure _

theorem erases_applyCarried (text : String) :
    Erases (applyCarried c.recorded text) (applyCarried c text) :=
  .bind .log fun _ => .ite (.pure _) (.bind (.note _) fun _ => .pure _)

theorem erases_timed (e : α → Exchange) (f : σ → α × σ) :
    Erases (timed c.recorded (recording e f)) (timed c f) :=
  .bind (.act .clock _) fun _ => .bind (.act e f) fun _ => .bind (.act .clock _) fun _ => .pure _

theorem erases_attempt (s : Sweep) (config : CompilerConfig) (candidate : Candidate) :
    Erases (attempt c.recorded s config candidate) (attempt c s config candidate) := by
  refine .bind .log fun l => .bind (.note _) fun _ =>
    .bind (erases_timed (.compile _) _) fun answer => ?_
  dsimp only
  cases (Verdict.of answer.1).result with
  | ok contracts => exact .bind (.note _) fun _ => .bind (.note _) fun _ => .pure _
  | error e =>
    refine .bind (.note _) fun _ => .bind (.note _) fun _ => .ite ?_ ?_
    · exact .bind (.note _) fun _ => .bind (.note _) fun _ => .bind (.note _) fun _ =>
        .bind (.note _) fun _ => .bind erases_checkTime fun _ => .pure _
    · exact .bind (.note _) fun _ => .bind erases_checkTime fun _ => .pure _

theorem erases_sweepFrom (s : Sweep) (left : Nat) (configs : List CompilerConfig)
    (candidate : Candidate) :
    Erases (sweepFrom c.recorded s left configs candidate)
      (sweepFrom c s left configs candidate) := by
  induction left generalizing configs candidate with
  | zero =>
    cases configs with
    | nil => exact .bind (.note _) fun _ => .pure _
    | cons config rest => exact .bind (erases_gate 0) fun _ => .throw _
  | succ left ih =>
    cases configs with
    | nil => exact .bind (.note _) fun _ => .pure _
    | cons config rest =>
      refine .bind (erases_gate (left + 1)) fun _ =>
        .bind (erases_attempt s config candidate) fun r => ?_
      match r with
      | .inl success => exact .pure _
      | .inr (next, true) => exact ih _ _
      | .inr (next, false) => exact ih _ _

theorem erases_sweep (s : Sweep) : Erases (sweep c.recorded s) (sweep c s) :=
  .bind (erases_applyCarried _) fun _ => .bind erases_attemptsLeft fun _ =>
    erases_sweepFrom s _ _ _

theorem erases_repairUnits (units : List (String × String)) :
    Erases (repairUnits c.recorded units) (repairUnits c units) := by
  induction units with
  | nil => exact .pure _
  | cons u rest ih => exact .bind (erases_applyCarried _) fun _ => .bind ih fun _ => .pure _

theorem erases_sandboxBuild
    (build : SandboxRequest → σ → Except SandboxError ArtifactMap × σ) (root : Path)
    (isLast : Bool) :
    Erases (sandboxBuild c.recorded (fun request => recording (.build request) (build request))
      root isLast) (sandboxBuild c build root isLast) := by
  refine .get_bind fun p => .bind (erases_resolved _) fun collected =>
    .bind (erases_repairUnits _) fun units => .bind erases_attemptsLeft fun left =>
    .bind (erases_gate left) fun _ => .bind .log fun l => .bind (.note _) fun _ =>
    .bind (erases_timed (.build _) _) fun answer => ?_
  dsimp only
  cases answer.1 with
  | ok contracts => exact .bind (.note _) fun _ => .pure _
  | error e =>
    refine .bind (.note _) fun _ => .bind (.note _) fun _ => .bind (.note _) fun _ => .ite ?_ ?_
    · exact .bind (.throw _) fun _ => .bind erases_checkTime fun _ => .pure _
    · exact .bind erases_checkTime fun _ => .pure _

theorem erases_strategy (root : Path) (isLast : Bool) (s : Strategy) :
    Erases (strategy c.recorded root isLast s) (strategy c root isLast s) := by
  cases s with
  | directImport =>
    exact .get_bind fun p => .bind (erases_resolved _) fun collected => erases_sweep _
  | flattenCompile =>
    exact .get_bind fun p => .bind (erases_resolved _) fun flat => .bind (.note _) fun _ =>
      erases_sweep _
  | sandbox =>
    unfold strategy
    have hsandbox : c.recorded.surroundings.sandbox = c.surroundings.sandbox.map
      fun build request => recording (.build request) (build request) := rfl
    rw [hsandbox]
    cases c.surroundings.sandbox with
    | none => exact .pure _
    | some build => exact erases_sandboxBuild build root isLast

theorem erases_strategies (root : Path) (ss : List Strategy) :
    Erases (strategies c.recorded root ss) (strategies c root ss) := by
  induction ss with
  | nil => exact .bind .log fun _ => .throw _
  | cons s rest ih =>
    refine .bind (erases_strategy root _ s) fun result => ?_
    cases result with
    | none => exact ih
    | some success => exact .pure _

theorem erases_withMain (settings : RunSettings) (success : CompileSuccess) :
    Erases (withMain settings success : Run (σ × List Exchange) CompileSuccess)
      (withMain settings success) := by
  unfold withMain
  split
  · exact .pure _
  · exact .pure _
  · exact .bind (.note _) fun _ => .throw _

theorem erases_all (root : Path) : Erases (all c.recorded root) (all c root) :=
  .bind (erases_strategies root _) fun success => erases_withMain _ success

/-! ## Single steps -/

variable {left : Nat} {p p' : RunProgress (σ × List Exchange)}

/-- `Gated c left es res`: to ask for leave with `left` attempts left is to ask for `es`, and the
answer is `res`. -/
inductive Gated (c : RunContext σ) (left : Nat) : List Exchange → Except RunError Unit → Prop where
  | cancelled : Gated c left [.cancelled true] (.error .cancelled)
  | late {now : Span} :
      c.isOver now = true →
      Gated c left [.cancelled false, .clock now] (.error (.timeout c.settings.timeout))
  | spent {now : Span} :
      c.isOver now = false → left = 0 →
      Gated c left [.cancelled false, .clock now] (.error (.budgetExhausted c.settings.maxAttempts))
  | passed {now : Span} :
      c.isOver now = false → 0 < left → Gated c left [.cancelled false, .clock now] (.ok ())

theorem gate_exchanges {res : Except RunError Unit}
    (h : exec (gate c.recorded left) p = (res, p')) :
    p'.log = p.log ∧ ∃ es, p'.state.2 = p.state.2 ++ es ∧ Gated c left es res := by
  have hasked : c.recorded.surroundings.isCancelled =
    recording .cancelled c.surroundings.isCancelled := rfl
  have hread : c.recorded.surroundings.clock = recording .clock c.surroundings.clock := rfl
  simp only [exec_gate, hasked, hread, recording, List.append_assoc, List.singleton_append] at h
  generalize c.surroundings.isCancelled p.state.1 = asked at h
  generalize c.surroundings.clock asked.2 = read at h
  cases hcancelled : asked.1 with
  | true =>
    rw [hcancelled] at h
    cases h
    exact ⟨rfl, _, rfl, .cancelled⟩
  | false =>
    rw [hcancelled, if_neg Bool.false_ne_true] at h
    split at h
    · rename_i hover
      cases h
      exact ⟨rfl, _, rfl, .late hover⟩
    · rename_i hover
      have hover : c.isOver read.1 = false := Bool.not_eq_true _ ▸ hover
      split at h
      · rename_i hleft
        cases h
        exact ⟨rfl, _, rfl, .spent hover hleft⟩
      · rename_i hleft
        cases h
        exact ⟨rfl, _, rfl, .passed hover (Nat.pos_of_ne_zero hleft)⟩

/-- `Invokes p call p'`: from `p` to `p'` the run makes the invocation `call` and records one
attempt. Otherwise it only looks at the clock. -/
structure Invokes (p : RunProgress (σ × List Exchange)) (call : Exchange)
    (p' : RunProgress (σ × List Exchange)) : Prop where
  exchanges : ∃ start readings, p'.state.2 =
    p.state.2 ++ .clock start :: call :: List.map Exchange.clock readings
  length : p'.log.attempts.length = p.log.attempts.length + 1

/-- An answer that is no failure calls for no repair. -/
theorem Candidate.repair_of_ok {settings : RunSettings} {candidate : Candidate}
    {answer : Except CompileError StandardOutput} {contracts : ArtifactMap}
    (h : (Verdict.of answer).result = .ok contracts) :
    candidate.repair settings (Verdict.of answer) =
      ⟨[], { text := candidate.text }, candidate.sweptBroadly⟩ := by
  have hs := (Verdict.succeeded_iff answer).mpr ⟨contracts, h⟩
  simp [Candidate.repair, hs]

/-- One attempt of a sweep asks the compiler once. What the answer calls for is repaired, carried
over and recorded; an answer that is no failure calls for nothing. -/
theorem attempt_exchanges {s : Sweep} {config : CompilerConfig} {candidate : Candidate}
    {res : Except RunError (CompileSuccess ⊕ (Candidate × Bool))}
    (h : exec (attempt c.recorded s config candidate) p = (res, p')) :
    ∃ answer,
      let r := candidate.repair c.settings (Verdict.of answer)
      Invokes p (.compile (StandardInput.ofSources (s.unitsWith candidate.text) config) answer) p' ∧
      p'.log.carried = (if r.outcome.isChanged then p.log.carry r.classes else p.log).carried ∧
      p'.log.fixes = p.log.fixes ++ r.outcome.changes ∧
      ∀ next changed, res = .ok (.inr (next, changed)) →
        next = ⟨r.outcome.text, r.sweptBroadly⟩ ∧ changed = r.outcome.isChanged := by
  obtain ⟨ms, hcases⟩ := attempt_cases h
  have hask : ∀ input, c.recorded.surroundings.compile input =
    recording (.compile input) (c.surroundings.compile input) := fun _ => rfl
  have hread : c.recorded.surroundings.clock = recording .clock c.surroundings.clock := rfl
  simp only [hask, hread, recording, List.append_assoc, List.singleton_append] at hcases
  generalize (c.surroundings.clock p.state.1) = start at hcases
  generalize c.surroundings.compile _ start.2 = asked at hcases
  refine ⟨asked.1, ?_⟩
  rcases hcases with ⟨contracts, hv, rfl, rfl⟩ | ⟨e, hv, rfl, hres⟩
  · rw [Candidate.repair_of_ok hv]
    refine ⟨⟨⟨start.1, [_], rfl⟩, by simp⟩, rfl, (List.append_nil _).symm, nofun⟩
  · refine ⟨⟨⟨start.1, [_, _], rfl⟩, by simp⟩, RunLog.carried_afterFailure ..,
      RunLog.fixes_afterFailure .., ?_⟩
    rintro next changed hnext
    rcases hres with hres | hres
    · rw [hres] at hnext
      cases hnext
    · rw [hres] at hnext
      cases hnext
      exact ⟨rfl, rfl⟩

/-- One build asks the build tool once. -/
theorem buildOnce_exchanges {build : SandboxRequest → σ → Except SandboxError ArtifactMap × σ}
    {request : SandboxRequest} {source : Option String} {isLast : Bool}
    {res : Except RunError (Option CompileSuccess)}
    (h : exec (buildOnce c.recorded (fun request => recording (.build request) (build request))
      request source isLast) p = (res, p')) :
    ∃ answer, Invokes p (.build request answer) p' ∧
      p'.log.carried = p.log.carried ∧ p'.log.fixes = p.log.fixes := by
  obtain ⟨ms, hcases⟩ := buildOnce_cases h
  have hread : c.recorded.surroundings.clock = recording .clock c.surroundings.clock := rfl
  simp only [hread, recording, List.append_assoc, List.singleton_append] at hcases
  generalize c.surroundings.clock p.state.1 = start at hcases
  generalize build request start.2 = asked at hcases
  refine ⟨asked.1, ?_⟩
  rcases hcases with ⟨contracts, -, -, rfl⟩ | ⟨e, -, hlog, hend⟩
  · exact ⟨⟨⟨start.1, [_], rfl⟩, by simp⟩, rfl, rfl⟩
  · refine ⟨⟨?_, by simp [hlog]⟩, by rw [hlog]; rfl, by rw [hlog]; rfl⟩
    cases isLast with
    | true =>
      obtain ⟨-, hstate⟩ := hend
      exact ⟨start.1, [_], by rw [hstate]; rfl⟩
    | false =>
      obtain ⟨-, hstate⟩ := hend
      exact ⟨start.1, [_, _], by rw [hstate]; rfl⟩

/-! ## Strategies -/

/-- All that the sandbox can do: nothing, or ask for leave and build once. -/
theorem sandbox_exchanges {root : Path} {isLast : Bool}
    {res : Except RunError (Option CompileSuccess)}
    (h : exec (strategy c.recorded root isLast .sandbox) p = (res, p')) :
    p' = p ∨ ∃ collected,
      (UnitLookup.ofRoot (c.surroundings.resolver p.state.1) root).collect = .ok collected ∧
      ((∃ e, res = .error e ∧ exec (gate c.recorded (remaining c.recorded p))
          (p.preparedFor c.settings collected) = (.error e, p')) ∨
        ∃ p₁ answer, exec (gate c.recorded (remaining c.recorded p))
            (p.preparedFor c.settings collected) = (.ok (), p₁) ∧
          Invokes p₁ (.build (collected.request c.settings p.log.carried) answer) p' ∧
          p'.log.carried = p₁.log.carried ∧ p'.log.fixes = p₁.log.fixes) := by
  have hsandbox : c.recorded.surroundings.sandbox = c.surroundings.sandbox.map
    fun build request => recording (.build request) (build request) := rfl
  unfold strategy at h
  rw [hsandbox] at h
  cases hb : c.surroundings.sandbox with
  | none =>
    rw [hb] at h
    cases h
    exact .inl rfl
  | some build =>
    rw [hb, Option.map_some] at h
    dsimp only at h
    rw [exec_sandboxBuild] at h
    dsimp only at h
    split at h
    · cases h
      exact .inl rfl
    · rename_i collected hcollected
      refine .inr ⟨collected, hcollected, ?_⟩
      rcases exec_bind_cases h with ⟨u, p₁, hg, h⟩ | ⟨e, hg, rfl⟩
      · obtain ⟨answer, hinvokes, hcarried, hfixes⟩ := buildOnce_exchanges h
        exact .inr ⟨p₁, answer, hg, hinvokes, hcarried, hfixes⟩
      · exact .inl ⟨e, rfl, hg⟩

/-- `s.Starts r root`: `s` is the sweep with which a strategy starts on a root. -/
inductive Sweep.Starts (r : Resolver) (root : Path) : Sweep → Prop where
  /-- The root and all its units. -/
  | directImport {collected : Collected} :
      (UnitLookup.ofRoot r root).collect = .ok collected →
      Starts r root ⟨.directImport, (UnitLookup.ofRoot r root).rootUnit, collected.sources⟩
  /-- The flattened root. -/
  | flattenCompile {flat : Flattened} {unit : String} :
      r.flatten root = .ok flat → unit = root.fileName?.getD "Flattened.sol" →
      Starts r root ⟨.flattenCompile, unit, (∅ : Dict String).insert unit flat.text⟩

/-- A strategy starts with one sweep at most. -/
theorem Sweep.Starts.unique {r : Resolver} {root : Path} {s s' : Sweep} (h : s.Starts r root)
    (h' : s'.Starts r root) (hs : s.strategy = s'.strategy) : s = s' := by
  cases h with
  | directImport hc =>
    cases h' with
    | directImport hc' =>
      cases hc.symm.trans hc'
      rfl
    | flattenCompile => cases hs
  | flattenCompile hf hu =>
    cases h' with
    | directImport => cases hs
    | flattenCompile hf' hu' =>
      cases hf.symm.trans hf'
      rw [hu, hu']

/-- All that a strategy that goes through the configurations can do: give up on the sources, or
sweep. -/
theorem configDriven_cases {τ : Type} {c : RunContext τ} {root : Path} {isLast : Bool}
    {strat : Strategy} {p p' : RunProgress τ} {res : Except RunError (Option CompileSuccess)}
    (hd : strat.isConfigDriven = true) (h : exec (strategy c root isLast strat) p = (res, p')) :
    (p' = p ∧ (∃ e, res = .error e) ∧
      ∀ s : Sweep, s.strategy = strat → ¬ s.Starts (c.surroundings.resolver p.state) root) ∨
    ∃ s flat, s.Starts (c.surroundings.resolver p.state) root ∧ s.strategy = strat ∧
      exec (sweep c s) ⟨{ p.log with flatten := flat }, p.state⟩ = (res, p') := by
  cases strat with
  | directImport =>
    rw [strategy, directImport, exec_bind, exec_get] at h
    rcases exec_resolved_cases h with ⟨collected, hcollected, h⟩ | ⟨e, he, hres, rfl⟩
    · exact .inr ⟨_, p.log.flatten, .directImport hcollected, rfl, h⟩
    · refine .inl ⟨rfl, ⟨_, hres⟩, fun s hs hstarts => ?_⟩
      cases hstarts with
      | directImport hc => cases he.symm.trans hc
      | flattenCompile => cases hs
  | flattenCompile =>
    rw [strategy, flattenCompile, exec_bind, exec_get] at h
    rcases exec_resolved_cases h with ⟨flat, hflat, h⟩ | ⟨e, he, hres, rfl⟩
    · rw [exec_bind, exec_note] at h
      exact .inr ⟨_, some flat, .flattenCompile hflat rfl, rfl, h⟩
    · refine .inl ⟨rfl, ⟨_, hres⟩, fun s hs hstarts => ?_⟩
      cases hstarts with
      | directImport => cases hs
      | flattenCompile hf => cases he.symm.trans hf
  | sandbox => cases hd

end Run

/-- **A record of the exchanges changes neither the result of a run nor its surroundings.** -/
theorem orchestrate_recorded {σ : Type} (settings : RunSettings) (s : Surroundings σ) (root : Path)
    (state : σ × List Exchange) :
    orchestrate settings s root state.1 =
      ((orchestrate settings s.recorded root state).1,
        (orchestrate settings s.recorded root state).2.1) := by
  have h := Run.erases_all (c := .begin settings s state.1) root (.begin s.recorded state)
  have hplain : orchestrate settings s root state.1 =
      let ended := Run.exec (Run.all (.begin settings s state.1) root)
        (RunProgress.begin s.recorded state).forget
      (.ofLog ended.2.log ended.1, ended.2.state) := rfl
  rw [hplain, h]
  rfl

/-- A run and the same run with a record are one execution. -/
theorem orchestrate_recorded_cases {σ : Type} (settings : RunSettings) (s : Surroundings σ)
    (root : Path) (state : σ) :
    ∃ res p, Run.exec (Run.all (RunContext.begin settings s state).recorded root)
        (.begin s.recorded (state, [])) = (res, p) ∧
      orchestrate settings s.recorded root (state, []) = (.ofLog p.log res, p.state) ∧
      orchestrate settings s root state = (.ofLog p.log res, p.state.1) := by
  obtain ⟨res, p, hrun, horch⟩ := orchestrate_cases settings s.recorded root (state, [])
  refine ⟨res, p, hrun, horch, ?_⟩
  have hplain := orchestrate_recorded settings s root (state, [])
  rwa [horch] at hplain

end ContractBuild
