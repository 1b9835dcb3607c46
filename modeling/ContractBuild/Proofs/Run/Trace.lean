import ContractBuild.Proofs.Run.Trail

/-!
# The states of a run

The states that a run goes through, the attempts that it records and its outcome are kept in step,
whatever the surroundings answer and wherever the run ends.

- **The grammar** (`Trace`): every attempt is tried; it fails, and is followed by the rules that
  were applied; at most the last one succeeds. One state ends the run, and the outcome says which.
- **Statuses** (`Statuses`): only the attempt that gives the result of a strategy succeeds.
- **Whole runs** (`orchestrate_wellFormed`): a run has a trace, numbered from one, and what follows
  from it for the states and the attempts on their own (`FinishedRun.WellFormed`).
-/

namespace ContractBuild

/-! ## The grammar -/

/-- The state in which a run with this outcome ends. -/
def CompileOutcome.terminal : CompileOutcome → RunState
  | success _ => .success
  | failure f =>
    match f.kind with
    | .timeout => .timedOut
    | .cancelled => .cancelled
    | _ => .exhausted

theorem CompileOutcome.isTerminal_terminal (o : CompileOutcome) :
    o.terminal.isTerminal = true := by
  unfold terminal
  split
  · rfl
  · split <;> rfl

/-- `Trace o n ss as`: a run with the outcome `o` goes through the states `ss` from its attempt
number `n` on, and the attempts from there are `as`. -/
inductive Trace (o : CompileOutcome) : Nat → List RunState → List CompilationAttempt → Prop where
  | ended {n : Nat} {f : CompileFailure} :
      o = .failure f → f.kind ≠ .contractNotFound → Trace o n [o.terminal] []
  | succeeded {n : Nat} {a : CompilationAttempt} {r : CompileSuccess} :
      o = .success r → a.attempt.toNat = n → a.status = .succeeded →
      Trace o n [.trying a.strategy a.config a.attempt, .success] [a]
  /-- The attempt succeeded, but without the contract asked for. -/
  | missing {n : Nat} {a : CompilationAttempt} {f : CompileFailure} :
      o = .failure f → f.kind = .contractNotFound → a.attempt.toNat = n →
      a.status = .succeeded → Trace o n [.trying a.strategy a.config a.attempt, .exhausted] [a]
  | failed {n : Nat} {a : CompilationAttempt} {ss : List RunState}
      {as : List CompilationAttempt} :
      a.attempt.toNat = n → a.status ≠ .succeeded → a.fixesApplied = [] → Trace o (n + 1) ss as →
      Trace o n (.trying a.strategy a.config a.attempt :: .failed a.strategy a.attempt :: ss)
        (a :: as)
  | fixed {n : Nat} {a : CompilationAttempt} {ss : List RunState}
      {as : List CompilationAttempt} :
      a.attempt.toNat = n → a.status ≠ .succeeded → a.fixesApplied ≠ [] → Trace o (n + 1) ss as →
      Trace o n (.trying a.strategy a.config a.attempt :: .failed a.strategy a.attempt ::
        .fixing a.strategy a.fixesApplied :: ss) (a :: as)

/-- The number of the attempt that is tried in a state. -/
def RunState.tried? : RunState → Option UInt32
  | trying _ _ attempt => some attempt
  | _ => none

theorem RunState.tried?_of_isTerminal {s : RunState} (h : s.isTerminal = true) :
    s.tried? = none := by
  cases s <;> first | rfl | cases h

namespace Trace

variable {o : CompileOutcome} {n : Nat} {ss : List RunState} {as : List CompilationAttempt}

theorem numbers (h : Trace o n ss as) :
    as.map (·.attempt.toNat) = List.range' n as.length := by
  induction h with
  | ended => rfl
  | succeeded _ hn _ => simp [hn]
  | missing _ _ hn _ => simp [hn]
  | failed hn _ _ _ ih => simp [hn, ih, List.range'_succ]
  | fixed hn _ _ _ ih => simp [hn, ih, List.range'_succ]

/-- Every attempt is tried once. -/
theorem tried (h : Trace o n ss as) : ss.filterMap (·.tried?) = as.map (·.attempt) := by
  induction h with
  | ended => simp [RunState.tried?_of_isTerminal o.isTerminal_terminal]
  | succeeded => rfl
  | missing => rfl
  | failed _ _ _ _ ih => simpa [RunState.tried?] using ih
  | fixed _ _ _ _ ih => simpa [RunState.tried?] using ih

theorem countP_isTerminal (h : Trace o n ss as) : ss.countP (·.isTerminal) = 1 := by
  induction h with
  | ended => simp [o.isTerminal_terminal]
  | succeeded => rfl
  | missing => rfl
  | failed _ _ _ _ ih => simpa [RunState.isTerminal] using ih
  | fixed _ _ _ _ ih => simpa [RunState.isTerminal] using ih

theorem ne_nil (h : Trace o n ss as) : ss ≠ [] := by
  cases h <;> simp

theorem getLast? (h : Trace o n ss as) : ss.getLast? = some o.terminal := by
  induction h with
  | ended => rfl
  | succeeded ho => simp [ho, CompileOutcome.terminal]
  | missing ho hk => simp [ho, CompileOutcome.terminal, hk]
  | failed _ _ _ hs ih => simp [List.getLast?_cons_of_ne_nil, hs.ne_nil, ih]
  | fixed _ _ _ hs ih => simp [List.getLast?_cons_of_ne_nil, hs.ne_nil, ih]

theorem mem_dropLast_cons {α : Type} {x y : α} {l : List α} (h : x ∈ (y :: l).dropLast) :
    x = y ∨ x ∈ l.dropLast := by
  cases l with
  | nil => cases h
  | cons => simpa using h

/-- At most the last attempt succeeds. -/
theorem not_succeeded (h : Trace o n ss as) {a : CompilationAttempt} (ha : a ∈ as.dropLast) :
    a.status ≠ .succeeded := by
  induction h with
  | ended => cases ha
  | succeeded => cases ha
  | missing => cases ha
  | failed _ hf _ _ ih =>
    rcases mem_dropLast_cons ha with rfl | ha
    · exact hf
    · exact ih ha
  | fixed _ hf _ _ ih =>
    rcases mem_dropLast_cons ha with rfl | ha
    · exact hf
    · exact ih ha

/-- No trace begins with a repair. -/
theorem head?_ne_fixing (h : Trace o n ss as) (s : Strategy) (rules : List String) :
    ss.head? ≠ some (.fixing s rules) := by
  cases h with
  | ended =>
    intro he
    have ht := o.isTerminal_terminal
    rw [Option.some.inj he] at ht
    cases ht
  | _ => simp

theorem getElem?_cons_sub {α : Type} {x y : α} {l : List α} {k : Nat} (hk : n + 1 ≤ k)
    (h : l[k - (n + 1)]? = some y) : (x :: l)[k - n]? = some y := by
  rw [show k - n = k - (n + 1) + 1 by omega, List.getElem?_cons_succ, h]

/-- The repair after a failed attempt is the one that its record names. -/
theorem after_failed (h : Trace o n ss as) {s : Strategy} {k : UInt32}
    {before after : List RunState} (hss : ss = before ++ .failed s k :: after) :
    n ≤ k.toNat ∧ ∃ a, as[k.toNat - n]? = some a ∧
      (a.fixesApplied ≠ [] ∧ after.head? = some (.fixing s a.fixesApplied) ∨
        a.fixesApplied = [] ∧ ∀ s' rules, after.head? ≠ some (.fixing s' rules)) := by
  induction h generalizing before with
  | ended =>
    rcases before with _ | ⟨s₁, _ | ⟨s₂, before⟩⟩ <;> simp at hss
    have ht := o.isTerminal_terminal
    rw [hss.1] at ht
    cases ht
  | succeeded => rcases before with _ | ⟨s₁, _ | ⟨s₂, _ | ⟨s₃, before⟩⟩⟩ <;> simp at hss
  | missing => rcases before with _ | ⟨s₁, _ | ⟨s₂, _ | ⟨s₃, before⟩⟩⟩ <;> simp at hss
  | @failed n a ss as hn hf hfix htrace ih =>
    rcases before with _ | ⟨s₁, _ | ⟨s₂, before⟩⟩
    · simp at hss
    · obtain ⟨-, ⟨rfl, rfl⟩, rfl⟩ : _ ∧ (a.strategy = s ∧ a.attempt = k) ∧ ss = after := by
        simpa using hss
      exact ⟨by omega, a, by simp [hn], .inr ⟨hfix, htrace.head?_ne_fixing⟩⟩
    · obtain ⟨-, -, hss⟩ : _ ∧ _ ∧ ss = before ++ .failed s k :: after := by simpa using hss
      obtain ⟨hle, b, hb, hrest⟩ := ih hss
      exact ⟨by omega, b, getElem?_cons_sub hle hb, hrest⟩
  | @fixed n a ss as hn hf hfix htrace ih =>
    rcases before with _ | ⟨s₁, _ | ⟨s₂, _ | ⟨s₃, before⟩⟩⟩
    · simp at hss
    · obtain ⟨-, ⟨rfl, rfl⟩, rfl⟩ : _ ∧ (a.strategy = s ∧ a.attempt = k) ∧ _ = after := by
        simpa using hss
      exact ⟨by omega, a, by simp [hn], .inl ⟨hfix, rfl⟩⟩
    · simp at hss
    · obtain ⟨-, -, -, hss⟩ : _ ∧ _ ∧ _ ∧ ss = before ++ .failed s k :: after := by
        simpa using hss
      obtain ⟨hle, b, hb, hrest⟩ := ih hss
      exact ⟨by omega, b, getElem?_cons_sub hle hb, hrest⟩

end Trace

/-! ## Statuses -/

/-- `Statuses won as`: none of the attempts `as` succeeded, but the last one did if `won`. -/
inductive Statuses : Bool → List CompilationAttempt → Prop where
  | nil : Statuses false []
  | won {a : CompilationAttempt} : a.status = .succeeded → Statuses true [a]
  | cons {won : Bool} {a : CompilationAttempt} {as : List CompilationAttempt} :
      a.status ≠ .succeeded → Statuses won as → Statuses won (a :: as)

theorem Statuses.append {won : Bool} {as bs : List CompilationAttempt} (h : Statuses false as)
    (h' : Statuses won bs) : Statuses won (as ++ bs) := by
  generalize hw : false = w at h
  induction h with
  | nil => exact h'
  | won => cases hw
  | cons hf _ ih => exact .cons hf (ih hw)

/-- Attempts and how they ended make up a trace, once the outcome is known. -/
theorem Statuses.trace {won : Bool} {as : List CompilationAttempt} (h : Statuses won as)
    {o : CompileOutcome} {n : Nat} (hn : as.map (·.attempt.toNat) = List.range' n as.length)
    (ho : if won then (∃ r, o = .success r) ∨ ∃ f, o = .failure f ∧ f.kind = .contractNotFound
      else ∃ f, o = .failure f ∧ f.kind ≠ .contractNotFound) :
    Trace o n (as.flatMap (·.states) ++ [o.terminal]) as := by
  induction h generalizing n with
  | nil =>
    obtain ⟨f, hf, hk⟩ := ho
    exact .ended hf hk
  | @won a hs =>
    have hn : a.attempt.toNat = n := by simpa using hn
    rcases ho with ⟨r, rfl⟩ | ⟨f, rfl, hk⟩
    · simpa [CompilationAttempt.states, CompilationAttempt.isSuccess, hs,
        CompileOutcome.terminal] using Trace.succeeded rfl hn hs
    · simpa [CompilationAttempt.states, CompilationAttempt.isSuccess, hs,
        CompileOutcome.terminal, hk] using Trace.missing rfl hk hn hs
  | @cons won a as hf _ ih =>
    rw [List.length_cons, List.range'_succ, List.map_cons, List.cons.injEq] at hn
    have hrest := ih hn.2 ho
    by_cases hfix : a.fixesApplied = []
    · simpa [CompilationAttempt.states, CompilationAttempt.isSuccess, hf, hfix] using
        Trace.failed hn.1 hf hfix hrest
    · simpa [CompilationAttempt.states, CompilationAttempt.isSuccess, hf, hfix] using
        Trace.fixed hn.1 hf hfix hrest

namespace Run

/-- Whether a strategy succeeded. -/
def isWon : Except RunError (Option CompileSuccess) → Bool
  | .ok (some _) => true
  | _ => false

theorem SweepTrail.statuses {s : Strategy} {configs : List CompilerConfig}
    {as : List CompilationAttempt} {res : Except RunError (Option CompileSuccess)}
    (h : SweepTrail s configs as res) : Statuses (isWon res) as := by
  induction h with
  | finished => exact .nil
  | ended => exact .nil
  | succeeded _ _ hs => exact .won hs
  | again _ _ hf _ _ ih => exact .cons hf ih
  | next _ _ hf _ _ ih => exact .cons hf ih

variable {σ : Type} {c : RunContext σ}

theorem StrategyTrail.statuses {s : Strategy} {as : List CompilationAttempt}
    {res : Except RunError (Option CompileSuccess)} (h : StrategyTrail c s as res) :
    Statuses (isWon res) as := by
  cases h with
  | ended => exact .nil
  | swept _ ht => exact ht.statuses
  | absent => exact .nil
  | built _ hs => exact .won hs
  | broken _ hf hres =>
    rcases hres with rfl | ⟨e, rfl, -⟩
    · exact .cons hf .nil
    · exact .cons hf .nil

/-- Strategies, one after the other, keep the record in step with their result. -/
theorem strategies_gains {root : Path} {ss : List Strategy} {p p' : RunProgress σ}
    {res : Except RunError CompileSuccess} (h : exec (strategies c root ss) p = (res, p')) :
    ∃ as, p.log.Gains c.settings.maxAttempts as p'.log ∧ Statuses res.isOk as ∧
      ∀ e, res = .error e → e.kind ≠ .contractNotFound := by
  induction ss generalizing p with
  | nil =>
    cases h
    refine ⟨[], .nothing rfl rfl, .nil, ?_⟩
    rintro e ⟨⟩
    exact nofun
  | cons s rest ih =>
    rw [strategies] at h
    rcases exec_bind_cases h with ⟨r, p₁, hs, h⟩ | ⟨e, hs, rfl⟩
    · obtain ⟨as, hgains, htrail⟩ := (tried_of_strategy hs).trail
      cases r with
      | some success =>
        cases h
        exact ⟨as, hgains, htrail.statuses, nofun⟩
      | none =>
        obtain ⟨bs, hgains', hst, hk⟩ := ih h
        exact ⟨as ++ bs, hgains.trans hgains', htrail.statuses.append hst, hk⟩
    · obtain ⟨as, hgains, htrail⟩ := (tried_of_strategy hs).trail
      refine ⟨as, hgains, htrail.statuses, ?_⟩
      rintro e ⟨⟩
      exact htrail.ofStrategy.kind_ne

/-- All steps of a run keep its record in step with its result. -/
theorem all_gains {root : Path} {p p' : RunProgress σ} {res : Except RunError CompileSuccess}
    (h : exec (all c root) p = (res, p')) :
    ∃ as won, p.log.Gains c.settings.maxAttempts as p'.log ∧ Statuses won as ∧
      if won then (∃ r, res = .ok r) ∨ ∃ e, res = .error e ∧ e.kind = .contractNotFound
        else ∃ e, res = .error e ∧ e.kind ≠ .contractNotFound := by
  unfold all at h
  rcases exec_bind_cases h with ⟨success, p₁, hs, h⟩ | ⟨e, hs, rfl⟩
  · obtain ⟨as, hgains, hst, -⟩ := strategies_gains hs
    rcases withMain_cases h with ⟨main, rfl, rfl⟩ | ⟨name, available, rfl, rfl⟩
    · exact ⟨as, true, hgains, hst, .inl ⟨_, rfl⟩⟩
    · exact ⟨as, true, hgains.remember, hst, .inr ⟨_, rfl, rfl⟩⟩
  · obtain ⟨as, hgains, hst, hk⟩ := strategies_gains hs
    exact ⟨as, false, hgains, hst, e, rfl, hk e rfl⟩

end Run

/-! ## Whole runs -/

/-- The states, the attempts and the outcome of a run are in step. -/
structure FinishedRun.WellFormed (r : FinishedRun) : Prop where
  trace : ∃ ss, r.transitions = .idle :: ss ∧ Trace r.outcome 1 ss r.attempts
  /-- There is exactly one terminal state. -/
  terminal_once : r.transitions.countP (·.isTerminal) = 1
  /-- It is the last one, and the outcome says which. -/
  terminal_last : r.transitions.getLast? = some r.outcome.terminal
  numbers : r.attempts.map (·.attempt.toNat) = List.range' 1 r.attempts.length
  /-- There is one record for every attempt that is tried. -/
  tried : r.transitions.filterMap (·.tried?) = r.attempts.map (·.attempt)
  /-- A failed attempt is followed by the rules that its record names. -/
  fixing : ∀ before s n after, r.transitions = before ++ .failed s n :: after →
    ∃ a, r.attempts[n.toNat - 1]? = some a ∧
      (a.fixesApplied ≠ [] ∧ after.head? = some (.fixing s a.fixesApplied) ∨
        a.fixesApplied = [] ∧ ∀ s' rules, after.head? ≠ some (.fixing s' rules))
  not_succeeded : ∀ a ∈ r.attempts.dropLast, a.status ≠ .succeeded
  count : ∀ f, r.outcome = .failure f → f.attempts.toNat = r.attempts.length

/-- All else follows from the trace and the number of attempts. -/
theorem FinishedRun.wellFormed_of_trace {r : FinishedRun} {ss : List RunState}
    (ht : r.transitions = .idle :: ss) (h : Trace r.outcome 1 ss r.attempts)
    (hcount : ∀ f, r.outcome = .failure f → f.attempts.toNat = r.attempts.length) :
    r.WellFormed where
  trace := ⟨ss, ht, h⟩
  terminal_once := by simpa [ht, RunState.isTerminal] using h.countP_isTerminal
  terminal_last := by rw [ht, List.getLast?_cons_of_ne_nil h.ne_nil, h.getLast?]
  numbers := h.numbers
  tried := by
    rw [ht]
    exact h.tried
  fixing before s n after hsplit := by
    rw [ht] at hsplit
    rcases before with _ | ⟨s₀, before⟩
    · simp at hsplit
    · have hss : ss = before ++ .failed s n :: after := by simpa using (List.cons.inj hsplit).2
      exact (h.after_failed hss).2
  not_succeeded _ ha := h.not_succeeded ha
  count := hcount

theorem FinishedRun.attempts_ofLog (log : RunLog) (res : Except RunError CompileSuccess) :
    (ofLog log res).attempts = log.attempts := by
  cases res <;> rfl

/-- The last state goes with the error that ended the run. -/
theorem FinishedRun.transitions_ofLog (log : RunLog) (res : Except RunError CompileSuccess) :
    (ofLog log res).transitions = log.transitions ++ [(ofLog log res).outcome.terminal] := by
  cases res with
  | ok success => rfl
  | error e => cases e <;> rfl

theorem FinishedRun.count_ofLog {log : RunLog} {res : Except RunError CompileSuccess}
    {f : CompileFailure} (hf : (ofLog log res).outcome = .failure f)
    (hlen : log.attempts.length < UInt32.size) :
    f.attempts.toNat = (ofLog log res).attempts.length := by
  cases res with
  | ok success => cases hf
  | error e =>
    cases hf
    exact Nat.mod_eq_of_lt hlen

/-- **Well-formed runs.** Whatever the settings are, and whatever the sources, the compiler, the
build tool, the clock and the cancellation do, the states, the attempts and the outcome of a run
are in step. -/
theorem orchestrate_wellFormed {σ : Type} (settings : RunSettings) (surroundings : Surroundings σ)
    (root : Path) (state : σ) : (orchestrate settings surroundings root state).1.WellFormed := by
  rw [orchestrate_eq]
  rcases hrun : Run.exec (Run.all (.begin settings surroundings state) root)
    (.begin surroundings state) with ⟨res, p⟩
  obtain ⟨as, won, hgains, hst, hres⟩ := Run.all_gains hrun
  have hattempts : (FinishedRun.ofLog p.log res).attempts = as := by
    rw [FinishedRun.attempts_ofLog, hgains.attempts]
    rfl
  have htransitions := FinishedRun.transitions_ofLog p.log res
  rw [hgains.transitions] at htransitions
  refine FinishedRun.wellFormed_of_trace htransitions ?_ ?_
  · rw [hattempts]
    apply hst.trace hgains.numbers
    cases won with
    | true =>
      rcases hres with ⟨r, rfl⟩ | ⟨e, rfl, hk⟩
      · exact .inl ⟨r, rfl⟩
      · exact .inr ⟨_, rfl, hk⟩
    | false =>
      obtain ⟨e, rfl, hk⟩ := hres
      exact ⟨_, rfl, hk⟩
  · intro f hf
    have hlen := hgains.within (Nat.zero_le _)
    exact FinishedRun.count_ofLog hf (Nat.lt_of_le_of_lt hlen settings.maxAttempts.toNat_lt)

end ContractBuild
