import ContractBuild.Compile.Run

/-!
# The steps of a run, one by one

`Run.exec` is what a step makes of a run under way. Each step of a run has one lemma that says all
it can do, so proofs about whole runs need not open any step.

- **Single steps**: `gate_cases`, `attempt_cases`, `withMain_cases`.
- **Sweeps** (`Swept`): the derivation of a sweep goes through the configurations as the sweep does,
  and reads the number of attempts left off the record (`swept_of_sweepFrom`).
- **Strategies** (`Tried`): all that can become of one strategy (`tried_of_strategy`).
- **Whole runs** (`orchestrate_eq`): a run is the execution of its steps from an empty record.
-/

namespace ContractBuild

/-! ## What an attempt leaves in the record -/

/-- What a failed attempt of a sweep leaves in the record. -/
def RunLog.afterFailure (l : RunLog) (a : CompilationAttempt) (source : String) (r : Run.Repair) :
    RunLog :=
  let l := (l.enter (.trying a.strategy a.config a.attempt)).enter (.failed a.strategy a.attempt)
  let l := l.remember a.firstError? (some source)
  let l :=
    if r.outcome.isChanged then
      let l := (l.enter (.fixing a.strategy r.outcome.ruleIds)).carry r.classes
      { l with fixes := l.fixes ++ r.outcome.changes }
    else l
  l.record { a with fixesApplied := r.outcome.ruleIds }

/-- What an attempt that succeeded leaves in the record. -/
def RunLog.afterSuccess (l : RunLog) (a : CompilationAttempt) (patch : String) : RunLog :=
  { (l.enter (.trying a.strategy a.config a.attempt)).record a with patch }

/-- What a failed build leaves in the record. -/
def RunLog.afterFailedBuild (l : RunLog) (a : CompilationAttempt) (message : String)
    (source : Option String) : RunLog :=
  (((l.enter (.trying a.strategy a.config a.attempt)).record a).enter
    (.failed a.strategy a.attempt)).remember (some message) source

/-- The record after texts were made ready for a strategy. -/
def RunLog.prepared (l : RunLog) (changes : List AppliedChange) (flat : Option Flattened) :
    RunLog :=
  { l with fixes := l.fixes ++ changes, flatten := flat }

section

variable (l : RunLog) (a : CompilationAttempt) (source : String) (r : Run.Repair)

@[simp] theorem RunLog.attempts_afterFailure : (l.afterFailure a source r).attempts =
    l.attempts ++ [{ a with fixesApplied := r.outcome.ruleIds }] := by
  unfold RunLog.afterFailure
  split <;> rfl

@[simp] theorem RunLog.transitions_afterFailure : (l.afterFailure a source r).transitions =
    l.transitions ++ .trying a.strategy a.config a.attempt :: .failed a.strategy a.attempt ::
      if r.outcome.isChanged then [.fixing a.strategy r.outcome.ruleIds] else [] := by
  unfold RunLog.afterFailure
  split <;> simp [record, carry, enter, remember]

theorem RunLog.carried_afterFailure : (l.afterFailure a source r).carried =
    (if r.outcome.isChanged then l.carry r.classes else l).carried := by
  unfold RunLog.afterFailure
  split <;> rfl

theorem RunLog.fixes_afterFailure :
    (l.afterFailure a source r).fixes = l.fixes ++ r.outcome.changes := by
  unfold RunLog.afterFailure
  split
  · rfl
  · rename_i h
    have hnone : r.outcome.changes = [] := by simpa [FixOutcome.isChanged] using h
    rw [hnone, List.append_nil]
    rfl

@[simp] theorem RunLog.attempts_afterSuccess (patch : String) :
    (l.afterSuccess a patch).attempts = l.attempts ++ [a] := rfl

@[simp] theorem RunLog.transitions_afterSuccess (patch : String) :
    (l.afterSuccess a patch).transitions =
      l.transitions ++ [.trying a.strategy a.config a.attempt] := rfl

@[simp] theorem RunLog.attempts_afterFailedBuild (message : String) (text : Option String) :
    (l.afterFailedBuild a message text).attempts = l.attempts ++ [a] := rfl

@[simp] theorem RunLog.transitions_afterFailedBuild (message : String) (text : Option String) :
    (l.afterFailedBuild a message text).transitions =
      l.transitions ++ [.trying a.strategy a.config a.attempt, .failed a.strategy a.attempt] := by
  simp [RunLog.afterFailedBuild, record, enter, remember]

end

/-! ## What a step goes by -/

/-- Whether the time of the run is over at a reading of the clock. -/
def RunContext.isOver {σ : Type} (c : RunContext σ) (now : Span) : Bool :=
  decide (c.settings.timeout.nanoseconds ≤ (Span.between c.started now).nanoseconds)

/-- A text with the repairs that are carried over. -/
def RunSettings.prepare (settings : RunSettings) (carried : List FailureClass) (text : String) :
    FixOutcome :=
  if settings.autoFix then fixClasses text carried else { text }

/-- The build that the units collected for a root ask for. -/
def Collected.request (settings : RunSettings) (carried : List FailureClass)
    (collected : Collected) : SandboxRequest where
  sources := .ofList (collected.sources.entries.map fun u =>
    (u.1, (settings.prepare carried u.2).text))
  packages := collected.packages
  config := Run.sandboxConfig settings

/-- A run after the units collected for a build were made ready. -/
def RunProgress.preparedFor {σ : Type} (settings : RunSettings) (collected : Collected)
    (p : RunProgress σ) : RunProgress σ :=
  ⟨p.log.prepared (collected.sources.entries.flatMap fun u =>
    (settings.prepare p.log.carried u.2).changes) p.log.flatten, p.state⟩

namespace Run

variable {σ α β : Type}

/-! ## Execution -/

/-- What a step makes of a run under way. -/
def exec (x : Run σ α) (p : RunProgress σ) : Except RunError α × RunProgress σ := x.run.run p

@[simp] theorem exec_pure (a : α) (p : RunProgress σ) :
    exec (pure a : Run σ α) p = (.ok a, p) := rfl

@[simp] theorem exec_throw (e : RunError) (p : RunProgress σ) :
    exec (throw e : Run σ α) p = (.error e, p) := rfl

@[simp] theorem exec_bind (x : Run σ α) (f : α → Run σ β) (p : RunProgress σ) :
    exec (x >>= f) p =
      match exec x p with
      | (.ok a, p') => exec (f a) p'
      | (.error e, p') => (.error e, p') := by
  simp only [exec, ExceptT.run_bind, StateT.run_bind]
  show (match x.run.run p with | (a, s) => _) = _
  rcases x.run.run p with ⟨_ | _, p'⟩ <;> rfl

@[simp] theorem exec_get (p : RunProgress σ) :
    exec (get : Run σ (RunProgress σ)) p = (.ok p, p) := rfl

@[simp] theorem exec_log (p : RunProgress σ) : exec log p = (.ok p.log, p) := rfl

@[simp] theorem exec_note (f : RunLog → RunLog) (p : RunProgress σ) :
    exec (note f) p = (.ok (), { p with log := f p.log }) := rfl

@[simp] theorem exec_act (f : σ → α × σ) (p : RunProgress σ) :
    exec (act f) p = (.ok (f p.state).1, { p with state := (f p.state).2 }) := rfl

@[simp] theorem exec_ite (b : Prop) [Decidable b] (x y : Run σ α) (p : RunProgress σ) :
    exec (if b then x else y) p = if b then exec x p else exec y p := by
  split <;> rfl

/-- A sequence ends with an error of its first step, or as its second. -/
theorem exec_bind_cases {x : Run σ α} {f : α → Run σ β} {p p' : RunProgress σ}
    {res : Except RunError β} (h : exec (x >>= f) p = (res, p')) :
    (∃ a p₁, exec x p = (.ok a, p₁) ∧ exec (f a) p₁ = (res, p')) ∨
    (∃ e, exec x p = (.error e, p') ∧ res = .error e) := by
  rw [exec_bind] at h
  split at h
  · rename_i a p₁ hx
    exact .inl ⟨a, p₁, hx, h⟩
  · rename_i e p₁ hx
    cases h
    exact .inr ⟨e, hx, rfl⟩

/-! ## Leave, time and texts -/

/-- The number of attempts that are left. -/
def remaining (c : RunContext σ) (p : RunProgress σ) : Nat :=
  c.settings.maxAttempts.toNat - p.log.attempts.length

@[simp] theorem exec_attemptsLeft (c : RunContext σ) (p : RunProgress σ) :
    exec (attemptsLeft c) p = (.ok (remaining c p), p) := rfl

theorem exec_checkTime (c : RunContext σ) (p : RunProgress σ) :
    exec (checkTime c) p =
      (if c.isOver (c.surroundings.clock p.state).1 then .error (.timeout c.settings.timeout)
        else .ok (), ⟨p.log, (c.surroundings.clock p.state).2⟩) := by
  simp only [checkTime, RunContext.isOver, exec_bind, exec_act, exec_ite, exec_throw, exec_pure,
    decide_eq_true_eq]
  split <;> rfl

/-- A step that looks at the clock last changes no record, and only the time can end the run. -/
theorem checkTime_then_cases {c : RunContext σ} {q p' : RunProgress σ} {a : α}
    {res : Except RunError α}
    (h : exec (checkTime c >>= fun _ => pure a) q = (res, p')) :
    p' = ⟨q.log, (c.surroundings.clock q.state).2⟩ ∧
      (res = .error (.timeout c.settings.timeout) ∨ res = .ok a) := by
  rw [exec_bind, exec_checkTime] at h
  cases hover : c.isOver (c.surroundings.clock q.state).1 with
  | false =>
    rw [hover] at h
    cases h
    exact ⟨rfl, .inr rfl⟩
  | true =>
    rw [hover] at h
    cases h
    exact ⟨rfl, .inl rfl⟩

/-- Why leave for an attempt is refused. -/
inductive Refusal (c : RunContext σ) : RunError → Prop where
  | cancelled : Refusal c .cancelled
  | timeout : Refusal c (.timeout c.settings.timeout)
  | budget : Refusal c (.budgetExhausted c.settings.maxAttempts)

/-- Cancellation goes before time, and time before the number of attempts. -/
theorem exec_gate (c : RunContext σ) (left : Nat) (p : RunProgress σ) :
    exec (gate c left) p =
      let asked := c.surroundings.isCancelled p.state
      let read := c.surroundings.clock asked.2
      if asked.1 then (.error .cancelled, ⟨p.log, asked.2⟩)
      else if c.isOver read.1 then (.error (.timeout c.settings.timeout), ⟨p.log, read.2⟩)
      else if left = 0 then (.error (.budgetExhausted c.settings.maxAttempts), ⟨p.log, read.2⟩)
      else (.ok (), ⟨p.log, read.2⟩) := by
  simp only [gate, exec_bind, exec_act, exec_ite, exec_throw, exec_pure, exec_checkTime, beq_iff_eq]
  cases c.isOver (c.surroundings.clock (c.surroundings.isCancelled p.state).2).1 <;> rfl

/-- Leave for an attempt without a countdown: the records are counted in 32 bits. -/
def gateByRecords (c : RunContext σ) : Run σ Unit := do
  if ← act c.surroundings.isCancelled then throw .cancelled
  checkTime c
  if c.settings.maxAttempts ≤ (← log).attempts.length.toUInt32 then
    throw (.budgetExhausted c.settings.maxAttempts)

/-- As long as there are no more records than attempts are allowed, none are left exactly if their
number, in 32 bits, comes up to the number that is allowed. -/
theorem remaining_eq_zero_iff {c : RunContext σ} {p : RunProgress σ}
    (h : p.log.attempts.length ≤ c.settings.maxAttempts.toNat) :
    remaining c p = 0 ↔ c.settings.maxAttempts ≤ p.log.attempts.length.toUInt32 := by
  have hfits : p.log.attempts.length < UInt32.size :=
    Nat.lt_of_le_of_lt h c.settings.maxAttempts.toNat_lt_size
  have hcount : p.log.attempts.length.toUInt32.toNat = p.log.attempts.length :=
    UInt32.toNat_ofNat_of_lt hfits
  rw [UInt32.le_iff_toNat_le, hcount]
  exact Nat.sub_eq_zero_iff_le

/-- **The countdown refuses leave where the records do.** No run gains more of them than attempts
are allowed (`RunLog.Gains.within`). -/
theorem exec_gate_remaining {c : RunContext σ} {p : RunProgress σ}
    (h : p.log.attempts.length ≤ c.settings.maxAttempts.toNat) :
    exec (gate c (remaining c p)) p = exec (gateByRecords c) p := by
  simp only [gate, gateByRecords, exec_bind, exec_act, exec_ite, exec_throw, exec_pure,
    exec_checkTime, exec_log, beq_iff_eq]
  cases c.isOver (c.surroundings.clock (c.surroundings.isCancelled p.state).2).1 with
  | true => rfl
  | false =>
    have hspent := remaining_eq_zero_iff h
    simp only [Bool.false_eq_true, if_false, hspent]

/-- Asking for leave changes no record; with leave there are attempts left. -/
theorem gate_cases {c : RunContext σ} {left : Nat} {p p' : RunProgress σ}
    {res : Except RunError Unit} (h : exec (gate c left) p = (res, p')) :
    p'.log = p.log ∧ ((res = .ok () ∧ 0 < left) ∨ ∃ e, res = .error e ∧ Refusal c e) := by
  simp only [exec_gate] at h
  split at h
  · cases h
    exact ⟨rfl, .inr ⟨_, rfl, .cancelled⟩⟩
  · split at h
    · cases h
      exact ⟨rfl, .inr ⟨_, rfl, .timeout⟩⟩
    · split at h
      · cases h
        exact ⟨rfl, .inr ⟨_, rfl, .budget⟩⟩
      · rename_i h0
        cases h
        exact ⟨rfl, .inl ⟨rfl, Nat.pos_of_ne_zero h0⟩⟩

/-- Taking the time changes no record. -/
theorem timed_cases (c : RunContext σ) (f : σ → α × σ) (p : RunProgress σ) :
    ∃ ms, exec (timed c f) p =
      (.ok ((f (c.surroundings.clock p.state).2).1, ms),
        ⟨p.log, (c.surroundings.clock (f (c.surroundings.clock p.state).2).2).2⟩) :=
  ⟨_, rfl⟩

/-- What is carried over is repaired, and only the list of changes grows. -/
theorem exec_applyCarried (c : RunContext σ) (text : String) (p : RunProgress σ) :
    exec (applyCarried c text) p =
      (.ok (c.settings.prepare p.log.carried text).text,
        ⟨p.log.prepared (c.settings.prepare p.log.carried text).changes p.log.flatten,
          p.state⟩) := by
  simp only [applyCarried, RunSettings.prepare, exec_bind, exec_log, exec_ite, exec_note, exec_pure]
  cases c.settings.autoFix with
  | false => simp [RunLog.prepared]
  | true =>
    cases hcarried : p.log.carried with
    | nil => simp [RunLog.prepared, fixClasses]
    | cons => simp [RunLog.prepared, hcarried]

/-- As `exec_applyCarried`, for many texts. -/
theorem exec_repairUnits (c : RunContext σ) (units : List (String × String))
    (p : RunProgress σ) :
    exec (repairUnits c units) p =
      (.ok (units.map fun u => (u.1, (c.settings.prepare p.log.carried u.2).text)),
        ⟨p.log.prepared (units.flatMap fun u => (c.settings.prepare p.log.carried u.2).changes)
          p.log.flatten, p.state⟩) := by
  induction units generalizing p with
  | nil => simp [repairUnits, RunLog.prepared]
  | cons u rest ih =>
    rw [repairUnits, exec_bind, exec_applyCarried]
    dsimp only
    rw [exec_bind, ih]
    simp [RunLog.prepared]

/-! ## One attempt -/

/-- An answer amounts to success exactly if there are contracts. -/
theorem Verdict.succeeded_iff (answer : Except CompileError StandardOutput) :
    (Verdict.of answer).status = .succeeded ↔
      ∃ contracts, (Verdict.of answer).result = .ok contracts := by
  unfold Verdict.of
  split
  · simp
  · split
    · simp
    · split <;> simp

theorem Verdict.not_succeeded {answer : Except CompileError StandardOutput} {e : CompileError}
    (h : (Verdict.of answer).result = .error e) : (Verdict.of answer).status ≠ .succeeded := by
  rw [Ne, succeeded_iff, h]
  simp

/-- The record of an attempt of a sweep, before anything is repaired. -/
def Sweep.recordOf (s : Sweep) (config : CompilerConfig) (number : UInt32) (v : Verdict)
    (durationMs : UInt64) : CompilationAttempt :=
  { attempt := number, strategy := s.strategy, config := some config, status := v.status
    errors := v.diagnostics.filter (·.isError), durationMs
    artifactCount :=
      match v.result with
      | .ok contracts => contracts.size.toUInt64
      | .error _ => 0 }

/-- All that one attempt of a sweep can do: the compiler is asked once, and its answer ends the
sweep or is a failure; after a failure the candidate is repaired, and the time may be over. -/
theorem attempt_cases {c : RunContext σ} {s : Sweep} {config : CompilerConfig}
    {candidate : Candidate} {p p' : RunProgress σ}
    {res : Except RunError (CompileSuccess ⊕ (Candidate × Bool))}
    (h : exec (attempt c s config candidate) p = (res, p')) :
    ∃ ms,
      let asked := c.surroundings.compile
        (StandardInput.ofSources (s.unitsWith candidate.text) config)
        (c.surroundings.clock p.state).2
      let stopped := (c.surroundings.clock asked.2).2
      let v := Verdict.of asked.1
      let a := s.recordOf config p.log.nextAttempt v ms
      let r := candidate.repair c.settings v
      (∃ contracts, v.result = .ok contracts ∧
        res = .ok (.inl
          { method := s.strategy, attempt := p.log.nextAttempt, configurationUsed := some config
            contracts, compiledSource := some candidate.text }) ∧
        p' = ⟨p.log.afterSuccess a (Diff.unified s.initial candidate.text), stopped⟩) ∨
      (∃ e, v.result = .error e ∧
        p' = ⟨p.log.afterFailure a candidate.text r, (c.surroundings.clock stopped).2⟩ ∧
        (res = .error (.timeout c.settings.timeout) ∨
          res = .ok (.inr (⟨r.outcome.text, r.sweptBroadly⟩, r.outcome.isChanged)))) := by
  unfold attempt at h
  simp only [exec_bind, exec_log, exec_note] at h
  obtain ⟨ms, ht⟩ := timed_cases c
    (c.surroundings.compile (StandardInput.ofSources (s.unitsWith candidate.text) config))
    ⟨p.log.enter (.trying s.strategy (some config) p.log.nextAttempt), p.state⟩
  rw [ht] at h
  refine ⟨ms, ?_⟩
  dsimp only at h ⊢
  generalize c.surroundings.compile _ (c.surroundings.clock p.state).2 = asked at h ⊢
  generalize Verdict.of asked.1 = v at h ⊢
  generalize candidate.repair c.settings v = r at h ⊢
  cases hv : v.result with
  | ok contracts =>
    rw [hv] at h
    cases h
    exact .inl ⟨contracts, rfl, rfl, by simp only [Sweep.recordOf, hv]; rfl⟩
  | error e =>
    rw [hv] at h
    refine .inr ⟨e, rfl, ?_⟩
    generalize hl : p.log.afterFailure _ candidate.text r = l
    apply checkTime_then_cases (c := c) (q := ⟨l, (c.surroundings.clock asked.2).2⟩)
    rw [← h, ← hl]
    simp only [RunLog.afterFailure, Sweep.recordOf, hv]
    cases r.outcome.isChanged <;> rfl

/-- Every attempt of a sweep leaves one record. -/
theorem length_of_attempt {c : RunContext σ} {s : Sweep} {config : CompilerConfig}
    {candidate : Candidate} {p p' : RunProgress σ}
    {res : Except RunError (CompileSuccess ⊕ (Candidate × Bool))}
    (h : exec (attempt c s config candidate) p = (res, p')) :
    p'.log.attempts.length = p.log.attempts.length + 1 := by
  obtain ⟨_, ⟨_, _, _, rfl⟩ | ⟨_, _, rfl, _⟩⟩ := attempt_cases h <;> simp

/-! ## Sweeps -/

/-- `Swept c s configs candidate p res p'`: going through `configs` from `candidate` takes the run
from `p` to `p'` with the result `res`. -/
inductive Swept (c : RunContext σ) (s : Sweep) : List CompilerConfig → Candidate →
    RunProgress σ → Except RunError (Option CompileSuccess) → RunProgress σ → Prop where
  | finished {candidate : Candidate} {p : RunProgress σ} :
      Swept c s [] candidate p (.ok none)
        ⟨{ p.log with patch := Diff.unified s.initial candidate.text }, p.state⟩
  /-- Leave for an attempt is refused. -/
  | refused {config : CompilerConfig} {rest : List CompilerConfig} {candidate : Candidate}
      {p p' : RunProgress σ} {e : RunError} :
      exec (gate c (remaining c p)) p = (.error e, p') →
      Swept c s (config :: rest) candidate p (.error e) p'
  /-- An attempt ends the run. -/
  | stopped {config : CompilerConfig} {rest : List CompilerConfig} {candidate : Candidate}
      {p p₁ p' : RunProgress σ} {e : RunError} :
      exec (gate c (remaining c p)) p = (.ok (), p₁) →
      exec (attempt c s config candidate) p₁ = (.error e, p') →
      Swept c s (config :: rest) candidate p (.error e) p'
  | succeeded {config : CompilerConfig} {rest : List CompilerConfig} {candidate : Candidate}
      {p p₁ p' : RunProgress σ} {success : CompileSuccess} :
      exec (gate c (remaining c p)) p = (.ok (), p₁) →
      exec (attempt c s config candidate) p₁ = (.ok (.inl success), p') →
      Swept c s (config :: rest) candidate p (.ok (some success)) p'
  /-- After a repair the same configuration is tried again. -/
  | again {config : CompilerConfig} {rest : List CompilerConfig} {candidate repaired : Candidate}
      {p p₁ p₂ p' : RunProgress σ} {res : Except RunError (Option CompileSuccess)} :
      exec (gate c (remaining c p)) p = (.ok (), p₁) →
      exec (attempt c s config candidate) p₁ = (.ok (.inr (repaired, true)), p₂) →
      Swept c s (config :: rest) repaired p₂ res p' →
      Swept c s (config :: rest) candidate p res p'
  | next {config : CompilerConfig} {rest : List CompilerConfig} {candidate same : Candidate}
      {p p₁ p₂ p' : RunProgress σ} {res : Except RunError (Option CompileSuccess)} :
      exec (gate c (remaining c p)) p = (.ok (), p₁) →
      exec (attempt c s config candidate) p₁ = (.ok (.inr (same, false)), p₂) →
      Swept c s rest same p₂ res p' →
      Swept c s (config :: rest) candidate p res p'

/-- One attempt uses up one of those that are left. -/
theorem remaining_of_attempt {c : RunContext σ} {s : Sweep} {config : CompilerConfig}
    {candidate : Candidate} {left : Nat} {p p₁ p₂ : RunProgress σ}
    {res : Except RunError (CompileSuccess ⊕ (Candidate × Bool))}
    (hleft : left + 1 = remaining c p) (hg : exec (gate c (left + 1)) p = (.ok (), p₁))
    (ha : exec (attempt c s config candidate) p₁ = (res, p₂)) : left = remaining c p₂ := by
  have hlen := length_of_attempt ha
  rw [(gate_cases hg).1] at hlen
  unfold remaining at hleft ⊢
  omega

/-- With the number of attempts that are left, a sweep runs to its end. -/
theorem swept_of_sweepFrom {c : RunContext σ} {s : Sweep} {left : Nat}
    {configs : List CompilerConfig} {candidate : Candidate} {p p' : RunProgress σ}
    {res : Except RunError (Option CompileSuccess)} (hleft : left = remaining c p)
    (h : exec (sweepFrom c s left configs candidate) p = (res, p')) :
    Swept c s configs candidate p res p' := by
  induction left generalizing configs candidate p with
  | zero =>
    cases configs with
    | nil =>
      cases h
      exact .finished
    | cons config rest =>
      rw [sweepFrom] at h
      -- without attempts left there is no leave
      rcases exec_bind_cases h with ⟨u, p₁, hg, -⟩ | ⟨e, hg, rfl⟩
      · obtain ⟨-, ⟨-, h0⟩ | ⟨e, he, -⟩⟩ := gate_cases hg
        · exact absurd h0 (Nat.lt_irrefl 0)
        · cases he
      · exact .refused (hleft ▸ hg)
  | succ left ih =>
    cases configs with
    | nil =>
      cases h
      exact .finished
    | cons config rest =>
      rw [sweepFrom, Nat.succ_eq_add_one] at h
      rcases exec_bind_cases h with ⟨u, p₁, hg, h⟩ | ⟨e, hg, rfl⟩
      · rcases exec_bind_cases h with ⟨r, p₂, ha, h⟩ | ⟨e, ha, rfl⟩
        · have hnext := remaining_of_attempt hleft hg ha
          rw [hleft] at hg
          match r, ha, h with
          | .inl success, ha, h =>
            cases h
            exact .succeeded hg ha
          | .inr (repaired, true), ha, h => exact .again hg ha (ih hnext h)
          | .inr (same, false), ha, h => exact .next hg ha (ih hnext h)
        · exact .stopped (hleft ▸ hg) ha
      · exact .refused (hleft ▸ hg)

/-- A sweep goes through the configurations from the text with the repairs carried over. -/
theorem exec_sweep (c : RunContext σ) (s : Sweep) (p : RunProgress σ) :
    exec (sweep c s) p =
      let outcome := c.settings.prepare p.log.carried s.initial
      exec (sweepFrom c s (remaining c p) c.settings.configs { text := outcome.text })
        ⟨p.log.prepared outcome.changes p.log.flatten, p.state⟩ := by
  rw [sweep, exec_bind, exec_applyCarried]
  dsimp only
  rw [exec_bind, exec_attemptsLeft]
  rfl

/-- The strategies that go through the configurations sweep all of them. -/
theorem sweep_cases {c : RunContext σ} {s : Sweep} {p p' : RunProgress σ}
    {res : Except RunError (Option CompileSuccess)} (h : exec (sweep c s) p = (res, p')) :
    ∃ candidate changes, Swept c s c.settings.configs candidate
      ⟨p.log.prepared changes p.log.flatten, p.state⟩ res p' := by
  rw [exec_sweep] at h
  exact ⟨_, _, swept_of_sweepFrom rfl h⟩

/-! ## Strategies -/

/-- The record of a build. -/
def buildRecord (config : CompilerConfig) (number : UInt32) (status : AttemptStatus)
    (durationMs : UInt64) : CompilationAttempt :=
  { attempt := number, strategy := .sandbox, config := some config, status, durationMs }

/-- `Tried c isLast s p res p'`: trying the strategy `s` takes the run from `p` to `p'` with the
result `res`. -/
inductive Tried (c : RunContext σ) (isLast : Bool) : Strategy → RunProgress σ →
    Except RunError (Option CompileSuccess) → RunProgress σ → Prop where
  | unresolved {s : Strategy} {p : RunProgress σ} (e : ResolutionError) :
      Tried c isLast s p (.error (.resolution e)) p
  | swept {s : Sweep} {candidate : Candidate} {changes : List AppliedChange}
      {flat : Option Flattened} {p p' : RunProgress σ}
      {res : Except RunError (Option CompileSuccess)} :
      s.strategy ≠ .sandbox →
      Swept c s c.settings.configs candidate ⟨p.log.prepared changes flat, p.state⟩ res p' →
      Tried c isLast s.strategy p res p'
  /-- There is no build tool. -/
  | absent {p : RunProgress σ} :
      c.surroundings.sandbox = none → Tried c isLast .sandbox p (.ok none) p
  /-- Leave for a build is refused. -/
  | refused {changes : List AppliedChange} {p p' : RunProgress σ} {e : RunError} :
      Refusal c e → p'.log = p.log.prepared changes p.log.flatten →
      Tried c isLast .sandbox p (.error e) p'
  | built {changes : List AppliedChange} {contracts : ArtifactMap} {source : Option String}
      {ms : UInt64} {p p' : RunProgress σ} :
      0 < remaining c p →
      p'.log = (p.log.prepared changes p.log.flatten).afterSuccess
        { buildRecord (sandboxConfig c.settings) p.log.nextAttempt .succeeded ms with
          artifactCount := contracts.size.toUInt64 } p.log.patch →
      Tried c isLast .sandbox p (.ok (some
        { method := .sandbox, attempt := p.log.nextAttempt
          configurationUsed := some (sandboxConfig c.settings), contracts
          compiledSource := source })) p'
  /-- A build fails. This ends the run if no strategy follows, or if the time is over. -/
  | broken {changes : List AppliedChange} {e : SandboxError} {source : Option String}
      {ms : UInt64} {p p' : RunProgress σ} {res : Except RunError (Option CompileSuccess)} :
      0 < remaining c p →
      p'.log = (p.log.prepared changes p.log.flatten).afterFailedBuild
        { buildRecord (sandboxConfig c.settings) p.log.nextAttempt .invocationFailed ms with
          errors := [.ofError e.message] } e.message source →
      (if isLast then res = .error (.sandbox e)
        else res = .error (.timeout c.settings.timeout) ∨ res = .ok none) →
      Tried c isLast .sandbox p res p'

/-- Only an error of the resolution gets in the way of what follows it. -/
theorem exec_resolved_cases {result : Except ResolutionError α} {f : α → Run σ β}
    {p p' : RunProgress σ} {res : Except RunError β}
    (h : exec (resolved result >>= f) p = (res, p')) :
    (∃ a, result = .ok a ∧ exec (f a) p = (res, p')) ∨
    (∃ e, result = .error e ∧ res = .error (.resolution e) ∧ p' = p) := by
  cases result with
  | ok a => exact .inl ⟨a, rfl, h⟩
  | error e =>
    cases h
    exact .inr ⟨e, rfl, rfl, rfl⟩

/-- One build for which leave was given. -/
def buildOnce (c : RunContext σ)
    (build : SandboxRequest → σ → Except SandboxError ArtifactMap × σ) (request : SandboxRequest)
    (compiledSource : Option String) (isLast : Bool) : Run σ (Option CompileSuccess) := do
  let number := (← log).nextAttempt
  note (·.enter (.trying .sandbox (some request.config) number))
  let (result, durationMs) ← timed c (build request)
  match result with
  | .ok contracts =>
    note (·.record
      { attempt := number, strategy := .sandbox, config := some request.config
        status := .succeeded, artifactCount := contracts.size.toUInt64, durationMs })
    return some
      { method := .sandbox, attempt := number, configurationUsed := some request.config, contracts
        compiledSource }
  | .error e =>
    note (·.record
      { attempt := number, strategy := .sandbox, config := some request.config
        status := .invocationFailed, errors := [.ofError e.message], durationMs })
    note (·.enter (.failed .sandbox number))
    note (·.remember (some e.message) compiledSource)
    if isLast then throw (.sandbox e)
    checkTime c
    return none

/-- A build in the sandbox collects and repairs the units, asks for leave and builds once. -/
theorem exec_sandboxBuild (c : RunContext σ)
    (build : SandboxRequest → σ → Except SandboxError ArtifactMap × σ) (root : Path)
    (isLast : Bool) (p : RunProgress σ) :
    exec (sandboxBuild c build root isLast) p =
      let lookup := UnitLookup.ofRoot (c.surroundings.resolver p.state) root
      match lookup.collect with
      | .error e => (.error (.resolution e), p)
      | .ok collected =>
        let request := collected.request c.settings p.log.carried
        exec (gate c (remaining c p) >>= fun _ =>
            buildOnce c build request (request.sources.get? lookup.rootUnit) isLast)
          (p.preparedFor c.settings collected) := by
  unfold sandboxBuild
  rw [exec_bind, exec_get]
  dsimp only
  cases (UnitLookup.ofRoot (c.surroundings.resolver p.state) root).collect with
  | error e => rfl
  | ok collected =>
    rw [exec_bind]
    dsimp only [resolved, exec_pure]
    rw [exec_bind, exec_repairUnits]
    dsimp only
    rw [exec_bind, exec_attemptsLeft]
    rfl

/-- All that one build can do: the build tool is asked once, and the build succeeds or fails. -/
theorem buildOnce_cases {c : RunContext σ}
    {build : SandboxRequest → σ → Except SandboxError ArtifactMap × σ} {request : SandboxRequest}
    {source : Option String} {isLast : Bool} {p p' : RunProgress σ}
    {res : Except RunError (Option CompileSuccess)}
    (h : exec (buildOnce c build request source isLast) p = (res, p')) :
    ∃ ms,
      let asked := build request (c.surroundings.clock p.state).2
      let stopped := (c.surroundings.clock asked.2).2
      let a := buildRecord request.config p.log.nextAttempt
      (∃ contracts, asked.1 = .ok contracts ∧
        res = .ok (some
          { method := .sandbox, attempt := p.log.nextAttempt
            configurationUsed := some request.config, contracts, compiledSource := source }) ∧
        p' = ⟨p.log.afterSuccess
          { a .succeeded ms with artifactCount := contracts.size.toUInt64 } p.log.patch,
          stopped⟩) ∨
      (∃ e, asked.1 = .error e ∧
        p'.log = p.log.afterFailedBuild
          { a .invocationFailed ms with errors := [.ofError e.message] } e.message source ∧
        (if isLast then res = .error (.sandbox e) ∧ p'.state = stopped
          else (res = .error (.timeout c.settings.timeout) ∨ res = .ok none) ∧
            p'.state = (c.surroundings.clock stopped).2)) := by
  unfold buildOnce at h
  simp only [exec_bind, exec_log, exec_note] at h
  obtain ⟨ms, ht⟩ := timed_cases c (build request)
    ⟨p.log.enter (.trying .sandbox (some request.config) p.log.nextAttempt), p.state⟩
  rw [ht] at h
  refine ⟨ms, ?_⟩
  dsimp only at h ⊢
  generalize build request (c.surroundings.clock p.state).2 = asked at h ⊢
  cases hasked : asked.1 with
  | ok contracts =>
    rw [hasked] at h
    cases h
    exact .inl ⟨contracts, rfl, rfl, rfl⟩
  | error e =>
    rw [hasked] at h
    refine .inr ⟨e, rfl, ?_⟩
    cases isLast with
    | true =>
      cases h
      exact ⟨rfl, rfl, rfl⟩
    | false =>
      obtain ⟨rfl, hres⟩ := checkTime_then_cases (a := none) h
      exact ⟨rfl, hres, rfl⟩

theorem sandboxBuild_cases {c : RunContext σ}
    {build : SandboxRequest → σ → Except SandboxError ArtifactMap × σ} {root : Path}
    {isLast : Bool} {p p' : RunProgress σ} {res : Except RunError (Option CompileSuccess)}
    (h : exec (sandboxBuild c build root isLast) p = (res, p')) :
    Tried c isLast .sandbox p res p' := by
  rw [exec_sandboxBuild] at h
  dsimp only at h
  split at h
  · cases h
    exact .unresolved _
  · rcases exec_bind_cases h with ⟨u, p₁, hg, h⟩ | ⟨e, hg, rfl⟩
    · obtain ⟨hl, ⟨-, hleft⟩ | ⟨e, he, -⟩⟩ := gate_cases hg
      · obtain ⟨ms, hcases⟩ := buildOnce_cases h
        rw [hl] at hcases
        rcases hcases with ⟨contracts, -, rfl, rfl⟩ | ⟨e, -, hlog, hres⟩
        · exact .built hleft rfl
        · refine .broken hleft hlog ?_
          cases isLast <;> exact hres.1
      · cases he
    · obtain ⟨hl, ⟨hr, -⟩ | ⟨e', he, hr⟩⟩ := gate_cases hg
      · cases hr
      · cases he
        exact .refused hr hl

/-- All that one strategy can do. -/
theorem tried_of_strategy {c : RunContext σ} {root : Path} {isLast : Bool} {s : Strategy}
    {p p' : RunProgress σ} {res : Except RunError (Option CompileSuccess)}
    (h : exec (strategy c root isLast s) p = (res, p')) : Tried c isLast s p res p' := by
  cases s with
  | directImport =>
    rw [strategy, directImport, exec_bind, exec_get] at h
    rcases exec_resolved_cases h with ⟨collected, -, h⟩ | ⟨e, -, rfl, rfl⟩
    · obtain ⟨candidate, changes, hs⟩ := sweep_cases h
      exact .swept (by simp) hs
    · exact .unresolved e
  | flattenCompile =>
    rw [strategy, flattenCompile, exec_bind, exec_get] at h
    rcases exec_resolved_cases h with ⟨flat, -, h⟩ | ⟨e, -, rfl, rfl⟩
    · rw [exec_bind, exec_note] at h
      obtain ⟨candidate, changes, hs⟩ := sweep_cases h
      have hs : Swept c _ _ candidate ⟨p.log.prepared changes (some flat), p.state⟩ res p' := hs
      exact .swept (by simp) hs
    · exact .unresolved e
  | sandbox =>
    unfold strategy at h
    cases hb : c.surroundings.sandbox with
    | none =>
      rw [hb] at h
      cases h
      exact .absent hb
    | some build =>
      rw [hb] at h
      exact sandboxBuild_cases h

/-! ## Whole runs -/

/-- Looking for the main contract changes no attempt and no state. -/
theorem withMain_cases {settings : RunSettings} {success : CompileSuccess}
    {p p' : RunProgress σ} {res : Except RunError CompileSuccess}
    (h : exec (withMain settings success) p = (res, p')) :
    (∃ main, res = .ok { success with mainContract := main } ∧ p' = p) ∨
    ∃ name available, res = .error (.contractNotFound name available) ∧
      p' = ⟨p.log.remember (some (RunError.contractNotFound name available).message)
        success.compiledSource, p.state⟩ := by
  unfold withMain at h
  split at h
  · cases h
    exact .inl ⟨_, rfl, rfl⟩
  · cases h
    exact .inl ⟨_, rfl, rfl⟩
  · cases h
    exact .inr ⟨_, _, rfl, rfl⟩

end Run

section

variable {σ : Type} (settings : RunSettings) (surroundings : Surroundings σ)

/-- The context of a run that begins now. -/
def RunContext.begin (state : σ) : RunContext σ :=
  ⟨settings, surroundings, (surroundings.clock state).1⟩

/-- A run that has just begun. -/
def RunProgress.begin (state : σ) : RunProgress σ := ⟨{}, (surroundings.clock state).2⟩

/-- A run is the execution of all its steps from an empty record. -/
theorem orchestrate_eq (root : Path) (state : σ) :
    (orchestrate settings surroundings root state).1 =
      let (res, p) := Run.exec (Run.all (.begin settings surroundings state) root)
        (.begin surroundings state)
      .ofLog p.log res := rfl

/-- As `orchestrate_eq`, with the state of the surroundings at the end. -/
theorem orchestrate_cases (root : Path) (state : σ) :
    ∃ res p, Run.exec (Run.all (.begin settings surroundings state) root)
        (.begin surroundings state) = (res, p) ∧
      orchestrate settings surroundings root state = (.ofLog p.log res, p.state) :=
  ⟨_, _, rfl, rfl⟩

end

end ContractBuild
