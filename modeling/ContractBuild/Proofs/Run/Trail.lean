import ContractBuild.Proofs.Run.Steps

/-!
# The attempts that a run records

- **Gains** (`RunLog.Gains`): between two moments of a run the record gains attempts. For each it
  also gains the states of that attempt (`CompilationAttempt.states`) and no others, and the
  attempts are numbered on from the ones before.
- **Trails** (`SweepTrail`, `StrategyTrail`): the shape of the attempts of one sweep and of one
  strategy, together with its result. `Swept.trail` and `Tried.trail` say that every sweep and
  every strategy gains a trail.
-/

namespace ContractBuild

/-! ## Gains -/

theorem FixOutcome.isEmpty_ruleIds (o : FixOutcome) : o.ruleIds.isEmpty = !o.isChanged := by
  simp [FixOutcome.ruleIds, FixOutcome.isChanged]

/-- The states that a run enters for one attempt. -/
def CompilationAttempt.states (a : CompilationAttempt) : List RunState :=
  .trying a.strategy a.config a.attempt ::
    if a.isSuccess then []
    else .failed a.strategy a.attempt ::
      if a.fixesApplied.isEmpty then [] else [.fixing a.strategy a.fixesApplied]

/-- `Gains max l as l'`: from `l` to `l'` the record gains the attempts `as`, where at most `max`
are allowed in all. -/
structure RunLog.Gains (max : UInt32) (l : RunLog) (as : List CompilationAttempt) (l' : RunLog) :
    Prop where
  attempts : l'.attempts = l.attempts ++ as
  transitions : l'.transitions = l.transitions ++ as.flatMap (·.states)
  numbers : as.map (·.attempt.toNat) = List.range' (l.attempts.length + 1) as.length
  within : l.attempts.length ≤ max.toNat → l'.attempts.length ≤ max.toNat

namespace RunLog.Gains

variable {max : UInt32} {l l₁ l' : RunLog} {as bs : List CompilationAttempt}

/-- Whatever else is noted, a record with the same attempts and states gains nothing. -/
theorem nothing (ha : l'.attempts = l.attempts) (ht : l'.transitions = l.transitions) :
    l.Gains max [] l' where
  attempts := by simp [ha]
  transitions := by simp [ht]
  numbers := rfl
  within h := by rwa [ha]

/-- One attempt, for which there was leave. -/
theorem one {a : CompilationAttempt} (hleft : l.attempts.length < max.toNat)
    (hn : a.attempt = l.nextAttempt) (ha : l'.attempts = l.attempts ++ [a])
    (ht : l'.transitions = l.transitions ++ a.states) : l.Gains max [a] l' where
  attempts := ha
  transitions := by simp [ht]
  numbers := by
    have hmax := max.toNat_lt
    have hnext : l.nextAttempt.toNat = l.attempts.length + 1 := by
      simp only [RunLog.nextAttempt, Nat.toUInt32_eq, UInt32.toNat_ofNat']
      exact Nat.mod_eq_of_lt (by omega)
    simp [hn, hnext]
  within _ := by
    simp only [ha, List.length_append, List.length_singleton]
    omega

theorem afterSuccess {a : CompilationAttempt} {patch : String}
    (hleft : l.attempts.length < max.toNat) (hn : a.attempt = l.nextAttempt)
    (hs : a.status = .succeeded) : l.Gains max [a] (l.afterSuccess a patch) := by
  refine one hleft hn rfl ?_
  simp [CompilationAttempt.states, CompilationAttempt.isSuccess, hs]

theorem afterFailure {a : CompilationAttempt} {source : String} {r : Run.Repair}
    (hleft : l.attempts.length < max.toNat) (hn : a.attempt = l.nextAttempt)
    (hs : a.status ≠ .succeeded) :
    l.Gains max [{ a with fixesApplied := r.outcome.ruleIds }] (l.afterFailure a source r) := by
  refine one hleft hn (l.attempts_afterFailure a source r) ?_
  rw [l.transitions_afterFailure]
  cases hc : r.outcome.isChanged <;>
    simp [CompilationAttempt.states, CompilationAttempt.isSuccess, hs,
      FixOutcome.isEmpty_ruleIds, hc]

theorem afterFailedBuild {a : CompilationAttempt} {message : String} {source : Option String}
    (hleft : l.attempts.length < max.toNat) (hn : a.attempt = l.nextAttempt)
    (hs : a.status ≠ .succeeded) (hf : a.fixesApplied = []) :
    l.Gains max [a] (l.afterFailedBuild a message source) := by
  refine one hleft hn rfl ?_
  simp [CompilationAttempt.states, CompilationAttempt.isSuccess, hs, hf]

theorem trans (h : l.Gains max as l₁) (h' : l₁.Gains max bs l') : l.Gains max (as ++ bs) l' where
  attempts := by rw [h'.attempts, h.attempts, List.append_assoc]
  transitions := by rw [h'.transitions, h.transitions, List.flatMap_append, List.append_assoc]
  numbers := by
    rw [List.map_append, h.numbers, h'.numbers, h.attempts, List.length_append,
      List.length_append, Nat.add_right_comm, ← List.range'_append_1]
  within hl := h'.within (h.within hl)

theorem remember {diagnostic source : Option String} (h : l.Gains max as l') :
    l.Gains max as (l'.remember diagnostic source) :=
  ⟨h.attempts, h.transitions, h.numbers, h.within⟩

/-- Making texts ready adds no attempt. -/
theorem of_prepared {changes : List AppliedChange} {flat : Option Flattened}
    (h : (l.prepared changes flat).Gains max as l') : l.Gains max as l' := by
  have hp : l.Gains max [] (l.prepared changes flat) := nothing rfl rfl
  exact hp.trans h

end RunLog.Gains

/-! ## Trails -/

/-- The errors that can end a strategy. -/
inductive RunError.OfStrategy : RunError → Prop where
  | cancelled : OfStrategy .cancelled
  | timeout (budget : Span) : OfStrategy (.timeout budget)
  | budget (max : UInt32) : OfStrategy (.budgetExhausted max)
  | resolution (e : ResolutionError) : OfStrategy (.resolution e)
  | sandbox (e : SandboxError) : OfStrategy (.sandbox e)

theorem RunError.OfStrategy.kind_ne {e : RunError} (h : e.OfStrategy) :
    e.kind ≠ .contractNotFound := by
  cases h <;> exact nofun

namespace Run

theorem Refusal.ofStrategy {σ : Type} {c : RunContext σ} {e : RunError} (h : Refusal c e) :
    e.OfStrategy := by
  cases h with
  | cancelled => exact .cancelled
  | timeout => exact .timeout _
  | budget => exact .budget _

/-- `SweepTrail s configs as res`: `as` are the attempts of the strategy `s` while it goes through
`configs`, and `res` is how it ends. -/
inductive SweepTrail (s : Strategy) : List CompilerConfig → List CompilationAttempt →
    Except RunError (Option CompileSuccess) → Prop where
  | finished : SweepTrail s [] [] (.ok none)
  | ended {configs : List CompilerConfig} {e : RunError} :
      e.OfStrategy → SweepTrail s configs [] (.error e)
  | succeeded {config : CompilerConfig} {rest : List CompilerConfig} {a : CompilationAttempt}
      {success : CompileSuccess} :
      a.strategy = s → a.config = some config → a.status = .succeeded →
      SweepTrail s (config :: rest) [a] (.ok (some success))
  | again {config : CompilerConfig} {rest : List CompilerConfig} {a : CompilationAttempt}
      {as : List CompilationAttempt} {res : Except RunError (Option CompileSuccess)} :
      a.strategy = s → a.config = some config → a.status ≠ .succeeded → a.fixesApplied ≠ [] →
      SweepTrail s (config :: rest) as res → SweepTrail s (config :: rest) (a :: as) res
  | next {config : CompilerConfig} {rest : List CompilerConfig} {a : CompilationAttempt}
      {as : List CompilationAttempt} {res : Except RunError (Option CompileSuccess)} :
      a.strategy = s → a.config = some config → a.status ≠ .succeeded → a.fixesApplied = [] →
      SweepTrail s rest as res → SweepTrail s (config :: rest) (a :: as) res

theorem SweepTrail.ofStrategy {s : Strategy} {configs : List CompilerConfig}
    {as : List CompilationAttempt} {e : RunError} (h : SweepTrail s configs as (.error e)) :
    e.OfStrategy := by
  generalize hr : (Except.error e : Except RunError (Option CompileSuccess)) = res at h
  induction h with
  | ended he =>
    cases hr
    exact he
  | again _ _ _ _ _ ih => exact ih hr
  | next _ _ _ _ _ ih => exact ih hr
  | _ => cases hr

/-- As `SweepTrail`, for any strategy. -/
inductive StrategyTrail {σ : Type} (c : RunContext σ) : Strategy → List CompilationAttempt →
    Except RunError (Option CompileSuccess) → Prop where
  | ended {s : Strategy} {e : RunError} : e.OfStrategy → StrategyTrail c s [] (.error e)
  | swept {s : Strategy} {as : List CompilationAttempt}
      {res : Except RunError (Option CompileSuccess)} :
      s ≠ .sandbox → SweepTrail s c.settings.configs as res → StrategyTrail c s as res
  | absent : c.surroundings.sandbox = none → StrategyTrail c .sandbox [] (.ok none)
  | built {a : CompilationAttempt} {success : CompileSuccess} :
      a.strategy = .sandbox → a.status = .succeeded →
      StrategyTrail c .sandbox [a] (.ok (some success))
  | broken {a : CompilationAttempt} {res : Except RunError (Option CompileSuccess)} :
      a.strategy = .sandbox → a.status ≠ .succeeded →
      (res = .ok none ∨ ∃ e, res = .error e ∧ e.OfStrategy) →
      StrategyTrail c .sandbox [a] res

variable {σ : Type} {c : RunContext σ}

theorem StrategyTrail.ofStrategy {s : Strategy} {as : List CompilationAttempt} {e : RunError}
    (h : StrategyTrail c s as (.error e)) : e.OfStrategy := by
  cases h with
  | ended he => exact he
  | swept _ ht => exact ht.ofStrategy
  | broken _ _ hres =>
    rcases hres with hres | ⟨e', hres, he⟩
    · cases hres
    · cases hres
      exact he

theorem length_lt_of_remaining {p : RunProgress σ} (h : 0 < remaining c p) :
    p.log.attempts.length < c.settings.maxAttempts.toNat := by
  unfold remaining at h
  omega

/-- What one attempt of a sweep adds, and how its record goes with its result. -/
theorem gains_of_attempt {s : Sweep} {config : CompilerConfig} {candidate : Candidate}
    {p p₁ p' : RunProgress σ} {res : Except RunError (CompileSuccess ⊕ (Candidate × Bool))}
    (hg : exec (gate c (remaining c p)) p = (.ok (), p₁))
    (ha : exec (attempt c s config candidate) p₁ = (res, p')) :
    ∃ a, p.log.Gains c.settings.maxAttempts [a] p'.log ∧
      a.strategy = s.strategy ∧ a.config = some config ∧
      ((∃ success, res = .ok (.inl success) ∧ a.status = .succeeded) ∨
        (a.status ≠ .succeeded ∧ ((∃ budget, res = .error (.timeout budget)) ∨
          ∃ next, res = .ok (.inr (next, !a.fixesApplied.isEmpty))))) := by
  obtain ⟨hlog, ⟨-, hleft⟩ | ⟨e, he, -⟩⟩ := gate_cases hg
  · have hleft := length_lt_of_remaining hleft
    rw [← hlog] at hleft ⊢
    obtain ⟨ms, ⟨contracts, hv, rfl, rfl⟩ | ⟨e, hv, rfl, hres⟩⟩ := attempt_cases ha
    · have hok := (Verdict.succeeded_iff _).mpr ⟨contracts, hv⟩
      exact ⟨_, .afterSuccess hleft rfl hok, rfl, rfl, .inl ⟨_, rfl, hok⟩⟩
    · have hfail := Verdict.not_succeeded hv
      refine ⟨_, .afterFailure hleft rfl hfail, rfl, rfl, .inr ⟨hfail, ?_⟩⟩
      rcases hres with rfl | rfl
      · exact .inl ⟨_, rfl⟩
      · simp only [FixOutcome.isEmpty_ruleIds, Bool.not_not]
        exact .inr ⟨_, rfl⟩
  · cases he

/-- **The attempts of a sweep.** -/
theorem Swept.trail {s : Sweep} {configs : List CompilerConfig} {candidate : Candidate}
    {p p' : RunProgress σ} {res : Except RunError (Option CompileSuccess)}
    (h : Swept c s configs candidate p res p') :
    ∃ as, p.log.Gains c.settings.maxAttempts as p'.log ∧ SweepTrail s.strategy configs as res := by
  induction h with
  | finished => exact ⟨[], .nothing rfl rfl, .finished⟩
  | refused hg =>
    obtain ⟨hlog, ⟨he, -⟩ | ⟨e, he, hr⟩⟩ := gate_cases hg
    · cases he
    · cases he
      exact ⟨[], .nothing (by rw [hlog]) (by rw [hlog]), .ended hr.ofStrategy⟩
  | stopped hg ha =>
    obtain ⟨a, hgains, hs, hc, ⟨_, hres, -⟩ | ⟨hf, ⟨budget, he⟩ | ⟨_, hres⟩⟩⟩ :=
      gains_of_attempt hg ha
    · cases hres
    · cases he
      have hend : ∀ configs, SweepTrail s.strategy configs [] (.error (.timeout budget)) :=
        fun _ => .ended (.timeout budget)
      by_cases hfix : a.fixesApplied = []
      · exact ⟨[a], hgains, .next hs hc hf hfix (hend _)⟩
      · exact ⟨[a], hgains, .again hs hc hf hfix (hend _)⟩
    · cases hres
  | succeeded hg ha =>
    obtain ⟨a, hgains, hs, hc, ⟨_, -, hok⟩ | ⟨hf, ⟨_, he⟩ | ⟨_, hres⟩⟩⟩ := gains_of_attempt hg ha
    · exact ⟨[a], hgains, .succeeded hs hc hok⟩
    · cases he
    · cases hres
  | again hg ha _ ih =>
    obtain ⟨as, hrest, htrail⟩ := ih
    obtain ⟨a, hgains, hs, hc, ⟨_, hres, -⟩ | ⟨hf, ⟨_, he⟩ | ⟨_, hres⟩⟩⟩ := gains_of_attempt hg ha
    · cases hres
    · cases he
    · have hfix : a.fixesApplied ≠ [] := by simp_all
      exact ⟨a :: as, hgains.trans hrest, .again hs hc hf hfix htrail⟩
  | next hg ha _ ih =>
    obtain ⟨as, hrest, htrail⟩ := ih
    obtain ⟨a, hgains, hs, hc, ⟨_, hres, -⟩ | ⟨hf, ⟨_, he⟩ | ⟨_, hres⟩⟩⟩ := gains_of_attempt hg ha
    · cases hres
    · cases he
    · have hfix : a.fixesApplied = [] := by simp_all
      exact ⟨a :: as, hgains.trans hrest, .next hs hc hf hfix htrail⟩

/-- **The attempts of a strategy.** -/
theorem Tried.trail {isLast : Bool} {s : Strategy} {p p' : RunProgress σ}
    {res : Except RunError (Option CompileSuccess)} (h : Tried c isLast s p res p') :
    ∃ as, p.log.Gains c.settings.maxAttempts as p'.log ∧ StrategyTrail c s as res := by
  cases h with
  | unresolved e => exact ⟨[], .nothing rfl rfl, .ended (.resolution e)⟩
  | swept hs hsw =>
    obtain ⟨as, hgains, htrail⟩ := hsw.trail
    exact ⟨as, hgains.of_prepared, .swept hs htrail⟩
  | absent hn => exact ⟨[], .nothing rfl rfl, .absent hn⟩
  | refused hr hlog =>
    exact ⟨[], .nothing (by rw [hlog]; rfl) (by rw [hlog]; rfl), .ended hr.ofStrategy⟩
  | built hleft hlog =>
    rw [hlog]
    have hleft := length_lt_of_remaining hleft
    exact ⟨_, .of_prepared (.afterSuccess hleft rfl rfl), .built rfl rfl⟩
  | broken hleft hlog hres =>
    rw [hlog]
    have hleft := length_lt_of_remaining hleft
    refine ⟨_, .of_prepared (.afterFailedBuild hleft rfl nofun rfl), .broken rfl nofun ?_⟩
    split at hres
    · exact .inr ⟨_, hres, .sandbox _⟩
    · rcases hres with hres | hres
      · exact .inr ⟨_, hres, .timeout _⟩
      · exact .inl hres

end Run

end ContractBuild
