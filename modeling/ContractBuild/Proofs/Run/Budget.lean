import ContractBuild.Proofs.Run.Exchanges
import ContractBuild.Proofs.Run.Trace

/-!
# Leave for every invocation

Each time a run invokes the compiler or the build tool it has asked for leave right before.

- **The grammar** (`Run.Course`): a run looks at the clock, or asks for leave and makes one
  invocation for it. When leave is refused the run asks nothing any more.
- **Runs keep to it** (`Run.OnCourse`): every step of a run does, with as many invocations as
  attempts are recorded (`Run.all_onCourse`).
- **Whole runs** (`orchestrate_gated`): what follows for each invocation and for each time that
  leave is asked for.
-/

namespace ContractBuild

namespace Run

variable {σ α β : Type} {c : RunContext σ}

/-! ## The grammar -/

/-- `Course c n es m refusal`: a run with `n` attempts recorded asks for `es` and then has `m` of
them recorded. If leave was refused, `refusal` is the reason. -/
inductive Course (c : RunContext σ) : Nat → List Exchange → Nat → Option RunError → Prop where
  | done {n : Nat} : Course c n [] n none
  | clock {n m : Nat} {reading : Span} {es : List Exchange} {refusal : Option RunError} :
      Course c n es m refusal → Course c n (.clock reading :: es) m refusal
  /-- Leave is given, and one invocation is made. -/
  | invoked {n m : Nat} {now start : Span} {call : Exchange} {es : List Exchange}
      {refusal : Option RunError} :
      c.isOver now = false → n < c.settings.maxAttempts.toNat → call.isInvocation = true →
      Course c (n + 1) es m refusal →
      Course c n (.cancelled false :: .clock now :: .clock start :: call :: es) m refusal
  | cancelled {n : Nat} : Course c n [.cancelled true] n (some .cancelled)
  | late {n : Nat} {now : Span} :
      c.isOver now = true →
      Course c n [.cancelled false, .clock now] n (some (.timeout c.settings.timeout))
  | spent {n : Nat} {now : Span} :
      c.isOver now = false → c.settings.maxAttempts.toNat ≤ n →
      Course c n [.cancelled false, .clock now] n
        (some (.budgetExhausted c.settings.maxAttempts))

namespace Course

variable {n m k : Nat} {es es' : List Exchange} {refusal : Option RunError}

theorem append (h : Course c n es m none) (h' : Course c m es' k refusal) :
    Course c n (es ++ es') k refusal := by
  generalize hnone : (none : Option RunError) = stop at h
  induction h with
  | done => exact h'
  | clock _ ih => exact .clock (ih h' hnone)
  | invoked hover hn hcall _ ih => exact .invoked hover hn hcall (ih h' hnone)
  | _ => cases hnone

theorem readings (n : Nat) (readings : List Span) : Course c n (readings.map .clock) n none := by
  induction readings with
  | nil => exact .done
  | cons _ _ ih => exact .clock ih

/-- Every invocation is recorded. -/
theorem count (h : Course c n es m refusal) : n + es.countP (·.isInvocation) = m := by
  induction h with
  | clock _ ih => simpa using ih
  | invoked _ _ hcall _ ih =>
    rw [← ih]
    simp [hcall]
    omega
  | _ => simp

theorem within (h : Course c n es m refusal) (hn : n ≤ c.settings.maxAttempts.toNat) :
    m ≤ c.settings.maxAttempts.toNat := by
  induction h with
  | clock _ ih => exact ih hn
  | invoked _ hlt _ _ ih => exact ih hlt
  | _ => exact hn

/-- What is not the first of a list is among the rest. -/
theorem exists_of_cons_eq_append {γ : Type} {a b : γ} {l front rest : List γ}
    (h : a :: l = front ++ b :: rest) (hne : b ≠ a) :
    ∃ front', front = a :: front' ∧ l = front' ++ b :: rest := by
  cases front with
  | nil => exact absurd (List.cons.inj h).1.symm hne
  | cons x front =>
    obtain ⟨rfl, rfl⟩ := List.cons.inj h
    exact ⟨front, rfl, rfl⟩

/-- Right before every invocation there was leave. -/
theorem leave (h : Course c n es m refusal) {front rest : List Exchange} {call : Exchange}
    (hes : es = front ++ call :: rest) (hcall : call.isInvocation = true) :
    ∃ early now start, front = early ++ [.cancelled false, .clock now, .clock start] ∧
      c.isOver now = false ∧
      n + early.countP (·.isInvocation) < c.settings.maxAttempts.toNat := by
  have hclock (reading : Span) : call ≠ .clock reading := by
    rintro rfl
    cases hcall
  have hcancelled (answer : Bool) : call ≠ .cancelled answer := by
    rintro rfl
    cases hcall
  induction h generalizing front with
  | done => simp at hes
  | @clock n m reading es refusal _ ih =>
    obtain ⟨front, rfl, rfl⟩ := exists_of_cons_eq_append hes (hclock reading)
    obtain ⟨early, now, start, rfl, hover, hlt⟩ := ih rfl
    exact ⟨.clock reading :: early, now, start, rfl, hover, by simpa using hlt⟩
  | @invoked n m now start made es refusal hover hn hmade _ ih =>
    obtain ⟨front, rfl, hes₁⟩ := exists_of_cons_eq_append hes (hcancelled false)
    obtain ⟨front, rfl, hes₂⟩ := exists_of_cons_eq_append hes₁ (hclock now)
    obtain ⟨front, rfl, hes₃⟩ := exists_of_cons_eq_append hes₂ (hclock start)
    cases front with
    | nil => exact ⟨[], now, start, rfl, hover, by simpa using hn⟩
    | cons e front =>
      obtain ⟨rfl, rfl⟩ := List.cons.inj hes₃
      obtain ⟨early, now', start', rfl, hover', hlt⟩ := ih rfl
      refine ⟨.cancelled false :: .clock now :: .clock start :: made :: early, now', start', rfl,
        hover', ?_⟩
      simp [hmade]
      omega
  | cancelled =>
    obtain ⟨front, rfl, hes₁⟩ := exists_of_cons_eq_append hes (hcancelled true)
    simp at hes₁
  | @late n now =>
    obtain ⟨front, rfl, hes₁⟩ := exists_of_cons_eq_append hes (hcancelled false)
    obtain ⟨front, rfl, hes₂⟩ := exists_of_cons_eq_append hes₁ (hclock now)
    simp at hes₂
  | @spent n now =>
    obtain ⟨front, rfl, hes₁⟩ := exists_of_cons_eq_append hes (hcancelled false)
    obtain ⟨front, rfl, hes₂⟩ := exists_of_cons_eq_append hes₁ (hclock now)
    simp at hes₂

end Course

/-- `Asked c n cancelled rest refusal`: what can follow when leave is asked for with `n` attempts
recorded and `cancelled` is the first answer. -/
inductive Asked (c : RunContext σ) (n : Nat) : Bool → List Exchange → Option RunError → Prop where
  | cancelled : Asked c n true [] (some .cancelled)
  | late {now : Span} :
      c.isOver now = true → Asked c n false [.clock now] (some (.timeout c.settings.timeout))
  | spent {now : Span} :
      c.isOver now = false → c.settings.maxAttempts.toNat ≤ n →
      Asked c n false [.clock now] (some (.budgetExhausted c.settings.maxAttempts))
  | given {now start : Span} {call : Exchange} {rest : List Exchange} {refusal : Option RunError} :
      c.isOver now = false → n < c.settings.maxAttempts.toNat → call.isInvocation = true →
      Asked c n false (.clock now :: .clock start :: call :: rest) refusal

theorem Course.asked {n m : Nat} {es front rest : List Exchange} {cancelled : Bool}
    {refusal : Option RunError} (h : Course c n es m refusal)
    (hes : es = front ++ .cancelled cancelled :: rest) :
    Asked c (n + front.countP (·.isInvocation)) cancelled rest refusal := by
  induction h generalizing front with
  | done => simp at hes
  | clock _ ih =>
    obtain ⟨front, rfl, rfl⟩ := exists_of_cons_eq_append hes nofun
    simpa using ih rfl
  | @invoked n m now start made es refusal hover hn hmade _ ih =>
    cases front with
    | nil =>
      cases hes
      exact .given hover hn hmade
    | cons e front =>
      obtain ⟨rfl, hes₁⟩ := List.cons.inj hes
      obtain ⟨front, rfl, hes₂⟩ := exists_of_cons_eq_append hes₁ nofun
      obtain ⟨front, rfl, hes₃⟩ := exists_of_cons_eq_append hes₂ nofun
      have hne : Exchange.cancelled cancelled ≠ made := by
        rintro rfl
        cases hmade
      obtain ⟨front, rfl, rfl⟩ := exists_of_cons_eq_append hes₃ hne
      have hasked := ih rfl
      simpa [hmade, Nat.add_assoc, Nat.add_comm 1] using hasked
  | cancelled =>
    cases front with
    | nil =>
      cases hes
      exact .cancelled
    | cons e front => simp at hes
  | late hover =>
    cases front with
    | nil =>
      cases hes
      exact .late hover
    | cons e front =>
      obtain ⟨rfl, hes₁⟩ := List.cons.inj hes
      obtain ⟨front, rfl, hes₂⟩ := exists_of_cons_eq_append hes₁ nofun
      simp at hes₂
  | spent hover hn =>
    cases front with
    | nil =>
      cases hes
      exact .spent hover hn
    | cons e front =>
      obtain ⟨rfl, hes₁⟩ := List.cons.inj hes
      obtain ⟨front, rfl, hes₂⟩ := exists_of_cons_eq_append hes₁ nofun
      simp at hes₂

/-! ## Runs keep to it -/

/-- `OnCourse c p res p'`: what is asked from `p` to `p'` is a course from the attempts recorded at
`p` to those at `p'`, and if leave is refused on it, that is the result. -/
def OnCourse (c : RunContext σ) (p : RunProgress (σ × List Exchange)) (res : Except RunError α)
    (p' : RunProgress (σ × List Exchange)) : Prop :=
  ∃ es refusal, p'.state.2 = p.state.2 ++ es ∧
    Course c p.log.attempts.length es p'.log.attempts.length refusal ∧
    ∀ e, refusal = some e → res = .error e

namespace OnCourse

variable {p p₁ p' : RunProgress (σ × List Exchange)}

/-- A step that asks nothing and records no attempt. -/
theorem stay {res : Except RunError α} (hs : p'.state = p.state)
    (ha : p'.log.attempts = p.log.attempts) : OnCourse c p res p' := by
  refine ⟨[], none, by simp [hs], ?_, nofun⟩
  rw [ha]
  exact .done

/-- A course begins with the exchanges and the attempts so far, whatever else is recorded. -/
theorem of_same {res : Except RunError α} (q : RunProgress (σ × List Exchange))
    (hs : q.state = p.state) (ha : q.log.attempts = p.log.attempts) (h : OnCourse c q res p') :
    OnCourse c p res p' := by
  obtain ⟨es, refusal, hes, hcourse, hres⟩ := h
  rw [hs] at hes
  rw [ha] at hcourse
  exact ⟨es, refusal, hes, hcourse, hres⟩

theorem trans {a : α} {res : Except RunError β} (h : OnCourse c p (.ok a) p₁)
    (h' : OnCourse c p₁ res p') : OnCourse c p res p' := by
  obtain ⟨es, refusal, hes, hcourse, hres⟩ := h
  obtain ⟨es', refusal', hes', hcourse', hres'⟩ := h'
  cases refusal with
  | some e => cases hres e rfl
  | none => exact ⟨es ++ es', refusal', by rw [hes', hes, List.append_assoc],
      hcourse.append hcourse', hres'⟩

/-- The error of a step is the error of what it is part of. -/
theorem of_error {e : RunError} (h : OnCourse c p (.error e : Except RunError α) p') :
    OnCourse c p (.error e : Except RunError β) p' := by
  obtain ⟨es, refusal, hes, hcourse, hres⟩ := h
  exact ⟨es, refusal, hes, hcourse, fun e' he => by cases hres e' he; rfl⟩

/-- Leave is refused. -/
theorem refused {e : RunError}
    (h : exec (gate c.recorded (remaining c.recorded p)) p = (.error e, p')) :
    OnCourse c p (.error e : Except RunError α) p' := by
  obtain ⟨hlog, es, hes, hgated⟩ := gate_exchanges h
  refine ⟨es, some e, hes, ?_, fun e' he => by cases he; rfl⟩
  rw [hlog]
  cases hgated with
  | cancelled => exact .cancelled
  | late hover => exact .late hover
  | spent hover hleft =>
    exact .spent hover (Nat.le_of_sub_eq_zero hleft)

/-- Leave is given, and an invocation is made. -/
theorem invoked {call : Exchange} (res : Except RunError α)
    (h : exec (gate c.recorded (remaining c.recorded p)) p = (.ok (), p₁))
    (hinvokes : Invokes p₁ call p') (hcall : call.isInvocation = true) : OnCourse c p res p' := by
  obtain ⟨hlog, es, hes, hgated⟩ := gate_exchanges h
  obtain ⟨⟨start, readings, hes'⟩, hlength⟩ := hinvokes
  cases hgated with
  | @passed now hover hleft =>
    have hlt : p.log.attempts.length < c.settings.maxAttempts.toNat := Nat.lt_of_sub_pos hleft
    refine ⟨_, none, by rw [hes', hes, List.append_assoc], ?_, nofun⟩
    rw [hlength, hlog]
    exact .invoked hover hlt hcall (.readings _ readings)

end OnCourse

variable {p p' : RunProgress (σ × List Exchange)}

/-- One attempt of a sweep, with the question for leave before it. -/
theorem attempt_onCourse {s : Sweep} {config : CompilerConfig} {candidate : Candidate}
    {p₁ : RunProgress (σ × List Exchange)} (res : Except RunError β)
    {res' : Except RunError (CompileSuccess ⊕ (Candidate × Bool))}
    (hg : exec (gate c.recorded (remaining c.recorded p)) p = (.ok (), p₁))
    (ha : exec (attempt c.recorded s config candidate) p₁ = (res', p')) :
    OnCourse c p res p' := by
  obtain ⟨answer, hinvokes, -⟩ := attempt_exchanges ha
  exact .invoked res hg hinvokes rfl

theorem Swept.onCourse {s : Sweep} {configs : List CompilerConfig} {candidate : Candidate}
    {res : Except RunError (Option CompileSuccess)}
    (h : Swept c.recorded s configs candidate p res p') : OnCourse c p res p' := by
  induction h with
  | finished => exact .stay rfl rfl
  | refused hg => exact .refused hg
  | stopped hg ha => exact attempt_onCourse _ hg ha
  | succeeded hg ha => exact attempt_onCourse _ hg ha
  | again hg ha _ ih => exact (attempt_onCourse (.ok ()) hg ha).trans ih
  | next hg ha _ ih => exact (attempt_onCourse (.ok ()) hg ha).trans ih

theorem strategy_onCourse {root : Path} {isLast : Bool} {s : Strategy}
    {res : Except RunError (Option CompileSuccess)}
    (h : exec (strategy c.recorded root isLast s) p = (res, p')) : OnCourse c p res p' := by
  cases hd : s.isConfigDriven with
  | true =>
    rcases configDriven_cases hd h with ⟨rfl, -⟩ | ⟨sweep, flat, -, -, h⟩
    · exact .stay rfl rfl
    · obtain ⟨candidate, changes, hswept⟩ := sweep_cases h
      exact .of_same _ rfl rfl hswept.onCourse
  | false =>
    cases s with
    | sandbox =>
      rcases sandbox_exchanges h with rfl | ⟨collected, -, ⟨e, rfl, hg⟩ | ⟨p₁, _, hg, hinvokes, -⟩⟩
      · exact .stay rfl rfl
      · exact .of_same (p.preparedFor c.settings collected) rfl rfl (.refused hg)
      · exact .of_same (p.preparedFor c.settings collected) rfl rfl (.invoked res hg hinvokes rfl)
    | _ => cases hd

theorem strategies_onCourse {root : Path} {ss : List Strategy}
    {res : Except RunError CompileSuccess}
    (h : exec (strategies c.recorded root ss) p = (res, p')) : OnCourse c p res p' := by
  induction ss generalizing p with
  | nil =>
    cases h
    exact .stay rfl rfl
  | cons s rest ih =>
    rw [strategies] at h
    rcases exec_bind_cases h with ⟨r, p₁, hs, h⟩ | ⟨e, hs, rfl⟩
    · cases r with
      | some success =>
        cases h
        exact (strategy_onCourse hs).trans (.stay rfl rfl)
      | none => exact (strategy_onCourse hs).trans (ih h)
    · exact (strategy_onCourse hs).of_error

/-- All steps of a run keep to the course. -/
theorem all_onCourse {root : Path} {res : Except RunError CompileSuccess}
    (h : exec (all c.recorded root) p = (res, p')) : OnCourse c p res p' := by
  unfold all at h
  rcases exec_bind_cases h with ⟨success, p₁, hs, h⟩ | ⟨e, hs, rfl⟩
  · refine (strategies_onCourse hs).trans ?_
    rcases withMain_cases h with ⟨main, rfl, rfl⟩ | ⟨name, available, rfl, rfl⟩
    · exact .stay rfl rfl
    · exact .stay rfl rfl
  · exact strategies_onCourse hs

end Run

/-! ## Whole runs -/

theorem RunContext.isOver_eq_false {σ : Type} {c : RunContext σ} {now : Span} :
    c.isOver now = false ↔
      (Span.between c.started now).nanoseconds < c.settings.timeout.nanoseconds := by
  simp [RunContext.isOver]

/-- A run that failed for a reason. -/
def FinishedRun.FailedWith (r : FinishedRun) (kind : FailureKind) (message : String) : Prop :=
  ∃ f, r.outcome = .failure f ∧ f.kind = kind ∧ f.message = message

/-- **Leave for every invocation.** Whatever the sources, the compiler, the build tool, the clock
and the cancellation do, a run makes one invocation for each attempt in its record, and not more
than are allowed. Right before each it has asked for leave: it was not cancelled, its time was not
over, and fewer attempts than allowed had been made. Where leave is refused nothing is asked any
more, and the run fails with the first reason that applies. -/
theorem orchestrate_gated {σ : Type} (settings : RunSettings) (surroundings : Surroundings σ)
    (root : Path) (state : σ) :
    let (run, state', exchanges) := orchestrate settings surroundings.recorded root (state, [])
    orchestrate settings surroundings root state = (run, state') ∧
    ∃ started es, exchanges = .clock started :: es ∧
      es.countP (·.isInvocation) = run.attempts.length ∧
      run.attempts.length ≤ settings.maxAttempts.toNat ∧
      run.attempts.map (·.attempt.toNat) = List.range' 1 run.attempts.length ∧
      (∀ front call rest, es = front ++ call :: rest → call.isInvocation = true →
        ∃ early now start, front = early ++ [.cancelled false, .clock now, .clock start] ∧
          (Span.between started now).nanoseconds < settings.timeout.nanoseconds ∧
          early.countP (·.isInvocation) < settings.maxAttempts.toNat) ∧
      ∀ front cancelled rest, es = front ++ .cancelled cancelled :: rest →
        if cancelled then
          rest = [] ∧ run.FailedWith .cancelled RunError.cancelled.message
        else ∃ now more, rest = .clock now :: more ∧
          if settings.timeout.nanoseconds ≤ (Span.between started now).nanoseconds then
            more = [] ∧ run.FailedWith .timeout (RunError.timeout settings.timeout).message
          else if settings.maxAttempts.toNat ≤ front.countP (·.isInvocation) then
            more = [] ∧ run.FailedWith .strategyExhausted
              (RunError.budgetExhausted settings.maxAttempts).message
          else ∃ start call rest', more = .clock start :: call :: rest' ∧
            call.isInvocation = true := by
  obtain ⟨res, p, hrun, horch, hplain⟩ :=
    orchestrate_recorded_cases settings surroundings root state
  let c := RunContext.begin settings surroundings state
  obtain ⟨es, refusal, hes, hcourse, hrefusal⟩ := Run.all_onCourse hrun
  obtain ⟨as, won, hgains, -⟩ := Run.all_gains hrun
  have hempty : (RunProgress.begin surroundings.recorded (state, [])).log.attempts.length = 0 := rfl
  rw [hempty] at hcourse
  rw [horch]
  refine ⟨hplain, c.started, es, hes, ?_, ?_, ?_, ?_, ?_⟩
  · rw [FinishedRun.attempts_ofLog, ← hcourse.count, Nat.zero_add]
  · rw [FinishedRun.attempts_ofLog]
    exact hcourse.within (Nat.zero_le _)
  · rw [FinishedRun.attempts_ofLog, hgains.attempts]
    exact hgains.numbers
  · intro front call rest hsplit hcall
    obtain ⟨early, now, start, rfl, hover, hlt⟩ := hcourse.leave hsplit hcall
    rw [Nat.zero_add] at hlt
    exact ⟨early, now, start, rfl, RunContext.isOver_eq_false.mp hover, hlt⟩
  · intro front cancelled rest hsplit
    have hfailed (e : RunError) (he : refusal = some e) :
        (FinishedRun.ofLog p.log res).FailedWith e.kind e.message := by
      rw [hrefusal e he]
      exact ⟨_, rfl, rfl, rfl⟩
    have hasked := hcourse.asked hsplit
    rw [Nat.zero_add] at hasked
    cases hasked with
    | cancelled => exact ⟨rfl, hfailed .cancelled rfl⟩
    | @late now hover =>
      have hover : settings.timeout.nanoseconds ≤ (Span.between c.started now).nanoseconds :=
        of_decide_eq_true hover
      refine ⟨now, [], rfl, ?_⟩
      rw [if_pos hover]
      exact ⟨rfl, hfailed (.timeout settings.timeout) rfl⟩
    | @spent now hover hspent =>
      have hover : (Span.between c.started now).nanoseconds < settings.timeout.nanoseconds :=
        RunContext.isOver_eq_false.mp hover
      refine ⟨now, [], rfl, ?_⟩
      have hspent : settings.maxAttempts.toNat ≤ front.countP (·.isInvocation) := hspent
      rw [if_neg (Nat.not_le_of_lt hover), if_pos hspent]
      exact ⟨rfl, hfailed (.budgetExhausted settings.maxAttempts) rfl⟩
    | @given now start call rest _ hover hlt hcall =>
      have hover : (Span.between c.started now).nanoseconds < settings.timeout.nanoseconds :=
        RunContext.isOver_eq_false.mp hover
      refine ⟨now, _, rfl, ?_⟩
      have hlt : front.countP (·.isInvocation) < settings.maxAttempts.toNat := hlt
      rw [if_neg (Nat.not_le_of_lt hover), if_neg (Nat.not_le_of_lt hlt)]
      exact ⟨start, call, rest, rfl, hcall⟩

end ContractBuild
