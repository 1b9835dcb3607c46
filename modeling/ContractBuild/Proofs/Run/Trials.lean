import ContractBuild.Proofs.Fix.Descent
import ContractBuild.Proofs.Run.Exchanges

/-!
# The texts that a sweep submits

- **Trials** (`Run.Trials`): what a sweep submits, one after the other. Each text is what the repair
  after the trial before it left, and a trial for the same configuration follows exactly when that
  repair changed the text.
- **Sweeps** (`Run.trials_of_sweepFrom`): whatever number of attempts is left, the invocations of a
  sweep are trials, and what it carries over and records comes from their repairs.
-/

namespace ContractBuild

namespace RunLog

variable {l : RunLog} {classes : List FailureClass}

/-- Nothing is carried over twice. -/
theorem nodup_carry (classes : List FailureClass) (h : l.carried.Nodup) :
    (l.carry classes).carried.Nodup := by
  unfold carry
  dsimp only
  generalize classes.filter isCarriable = cs
  generalize l.carried = carried at h
  induction cs generalizing carried with
  | nil => exact h
  | cons c cs ih =>
    rw [List.foldl_cons]
    split
    · exact ih _ h
    · rename_i hc
      refine ih _ (List.nodup_append.mpr ⟨h, by simp, ?_⟩)
      rintro a ha b hb rfl
      cases List.mem_singleton.mp hb
      exact hc (by simpa using ha)

theorem mem_carry {x : FailureClass} (h : x ∈ (l.carry classes).carried) :
    x ∈ l.carried ∨ (x ∈ classes ∧ isCarriable x = true) := by
  unfold carry at h
  dsimp only at h
  rw [← List.mem_filter]
  generalize classes.filter isCarriable = cs at h ⊢
  generalize l.carried = carried at h ⊢
  induction cs generalizing carried with
  | nil => exact .inl h
  | cons c cs ih =>
    rw [List.foldl_cons] at h
    split at h
    · exact (ih _ h).imp_right (List.mem_cons_of_mem _)
    · rcases ih _ h with hx | hx
      · rcases List.mem_append.mp hx with hx | hx
        · exact .inl hx
        · exact .inr (List.mem_cons.mpr (.inl (List.mem_singleton.mp hx)))
      · exact .inr (List.mem_cons_of_mem _ hx)

end RunLog

namespace Run

/-! ## Trials -/

/-- One submission of a sweep. -/
structure Trial where
  /-- The index of the configuration. -/
  index : Nat
  config : CompilerConfig
  candidate : Candidate
  answer : Except CompileError StandardOutput

namespace Trial

/-- The text that was submitted for the root unit. -/
def text (t : Trial) : String := t.candidate.text

/-- What the answer amounts to. -/
def verdict (t : Trial) : Verdict := .of t.answer

/-- What the rules make of the text after the trial. -/
def repair (settings : RunSettings) (t : Trial) : Repair := t.candidate.repair settings t.verdict

/-- The candidate after the trial. -/
def next (settings : RunSettings) (t : Trial) : Candidate :=
  ⟨(t.repair settings).outcome.text, (t.repair settings).sweptBroadly⟩

/-- The index after the trial. -/
def nextIndex (settings : RunSettings) (t : Trial) : Nat :=
  if (t.repair settings).outcome.isChanged then t.index else t.index + 1

/-- What the compiler is given, and what it answers. -/
def invocation (s : Sweep) (t : Trial) : Exchange :=
  .compile (.ofSources (s.unitsWith t.text) t.config) t.answer

/-- A class that the diagnostics of the trial call for, where the rules for what they call for
changed the text. -/
def CallsFor (t : Trial) (c : FailureClass) : Prop :=
  t.verdict.status = .compileErrors ∧ c ∈ classify t.verdict.diagnostics ∧
    (fixClasses t.text (classify t.verdict.diagnostics)).text ≠ t.text

end Trial

/-- `Trials settings i candidate ts`: a sweep goes on from the configuration with the index `i` and
`candidate` with the trials `ts`. -/
inductive Trials (settings : RunSettings) : Nat → Candidate → List Trial → Prop where
  | done {i : Nat} {candidate : Candidate} : Trials settings i candidate []
  | next {t : Trial} {ts : List Trial} :
      settings.configs[t.index]? = some t.config →
      Trials settings (t.nextIndex settings) (t.next settings) ts →
      Trials settings t.index t.candidate (t :: ts)

/-! ## Repairs -/

/-- `Repaired settings candidate v r`: `r` is the repair of a candidate after the verdict `v`. -/
inductive Repaired (settings : RunSettings) (candidate : Candidate) (v : Verdict) :
    Repair → Prop where
  | unasked :
      settings.autoFix = false ∨ v.status ≠ .compileErrors →
      Repaired settings candidate v ⟨[], { text := candidate.text }, candidate.sweptBroadly⟩
  /-- Nothing is called for, and the broad sweep of rules has not been tried. -/
  | broad :
      settings.autoFix = true → v.status = .compileErrors → classify v.diagnostics = [] →
      candidate.sweptBroadly = false →
      Repaired settings candidate v ⟨[.aggressive], fixClasses candidate.text [.aggressive], true⟩
  | called :
      settings.autoFix = true → v.status = .compileErrors →
      Repaired settings candidate v
        ⟨classify v.diagnostics, fixClasses candidate.text (classify v.diagnostics),
          candidate.sweptBroadly⟩

theorem Candidate.repaired (settings : RunSettings) (candidate : Candidate) (v : Verdict) :
    Repaired settings candidate v (candidate.repair settings v) := by
  unfold Candidate.repair
  cases hauto : settings.autoFix with
  | false => exact .unasked (.inl hauto)
  | true =>
    by_cases hstatus : v.status = .compileErrors
    · rw [if_neg (by simp [hstatus])]
      dsimp only
      split
      · rename_i hbroad
        simp only [Bool.and_eq_true, List.isEmpty_iff, Bool.not_eq_true'] at hbroad
        exact .broad hauto hstatus hbroad.1.1 hbroad.2
      · exact .called hauto hstatus
    · rw [if_pos (by simp [hstatus])]
      exact .unasked (.inr hstatus)

/-- Every repair is one for its classes. -/
theorem Repaired.outcome {settings : RunSettings} {candidate : Candidate} {v : Verdict}
    {r : Repair} (h : Repaired settings candidate v r) :
    r.outcome = fixClasses candidate.text r.classes := by
  cases h <;> rfl

/-- What is carried over after a repair was called for. -/
theorem Trial.callsFor_of_repair {settings : RunSettings} {t : Trial} {x : FailureClass}
    (hchanged : (t.repair settings).outcome.isChanged = true)
    (hx : x ∈ (t.repair settings).classes) (hcarriable : RunLog.isCarriable x = true) :
    t.CallsFor x := by
  have hrepaired := t.candidate.repaired settings t.verdict
  rw [← Trial.repair] at hrepaired
  generalize t.repair settings = r at hchanged hx hrepaired
  cases hrepaired with
  | unasked => cases hx
  | broad =>
    cases List.mem_singleton.mp hx
    cases hcarriable
  | called _ hstatus => exact ⟨hstatus, hx, text_fixClasses_ne hchanged⟩

/-! ## Sweeps -/

variable {σ : Type} {c : RunContext σ} {p p' : RunProgress (σ × List Exchange)}

/-- `Tries settings s p ts p'`: from `p` to `p'` the run makes the trials `ts` of the sweep `s`.
What is carried over and what is recorded as changed comes from them. -/
structure Tries (settings : RunSettings) (s : Sweep) (p : RunProgress (σ × List Exchange))
    (ts : List Trial) (p' : RunProgress (σ × List Exchange)) : Prop where
  invocations : invocations p'.state.2 = invocations p.state.2 ++ ts.map (·.invocation s)
  fixes : p'.log.fixes = p.log.fixes ++ ts.flatMap fun t => (t.repair settings).outcome.changes
  nodup : p.log.carried.Nodup → p'.log.carried.Nodup
  carried : ∀ x ∈ p'.log.carried, x ∈ p.log.carried ∨
    (RunLog.isCarriable x = true ∧ ∃ t ∈ ts, t.CallsFor x)

namespace Tries

variable {settings : RunSettings} {s : Sweep} {p₁ : RunProgress (σ × List Exchange)}
  {ts us : List Trial}

/-- Whatever else is noted, nothing is tried if nothing is submitted, changed or carried over. -/
theorem nothing (hi : ContractBuild.invocations p'.state.2 = ContractBuild.invocations p.state.2)
    (hf : p'.log.fixes = p.log.fixes) (hc : p'.log.carried = p.log.carried) :
    Tries settings s p [] p' where
  invocations := by simp [hi]
  fixes := by simp [hf]
  nodup h := by rwa [hc]
  carried x hx := .inl (hc ▸ hx)

theorem trans (h : Tries settings s p ts p₁) (h' : Tries settings s p₁ us p') :
    Tries settings s p (ts ++ us) p' where
  invocations := by rw [h'.invocations, h.invocations, List.map_append, List.append_assoc]
  fixes := by rw [h'.fixes, h.fixes, List.flatMap_append, List.append_assoc]
  nodup hn := h'.nodup (h.nodup hn)
  carried x hx := by
    rcases h'.carried x hx with hx | ⟨hx, t, ht, hcalls⟩
    · rcases h.carried x hx with hx | ⟨hx, t, ht, hcalls⟩
      · exact .inl hx
      · exact .inr ⟨hx, t, List.mem_append_left _ ht, hcalls⟩
    · exact .inr ⟨hx, t, List.mem_append_right _ ht, hcalls⟩

end Tries

/-- Asking for leave invokes nothing. -/
theorem invocations_of_gate {left : Nat} {res : Except RunError Unit}
    (h : exec (gate c.recorded left) p = (res, p')) :
    p'.log = p.log ∧ invocations p'.state.2 = invocations p.state.2 := by
  obtain ⟨hlog, es, hes, hgated⟩ := gate_exchanges h
  have hnone : invocations es = [] := by cases hgated <;> rfl
  rw [hes, invocations_append, hnone, List.append_nil]
  exact ⟨hlog, rfl⟩

theorem Tries.of_gate {settings : RunSettings} {s : Sweep} {left : Nat}
    {res : Except RunError Unit} (h : exec (gate c.recorded left) p = (res, p')) :
    Tries settings s p [] p' := by
  obtain ⟨hlog, hinvocations⟩ := invocations_of_gate h
  exact .nothing hinvocations (by rw [hlog]) (by rw [hlog])

theorem invocations_of_invokes {call : Exchange} (h : Invokes p call p')
    (hcall : call.isInvocation = true) :
    invocations p'.state.2 = invocations p.state.2 ++ [call] := by
  obtain ⟨start, readings, hes⟩ := h.exchanges
  have hreadings : invocations (readings.map .clock) = [] := by
    rw [invocations, List.filter_eq_nil_iff]
    simp
  rw [hes, invocations_append]
  congr 1
  rw [invocations, List.filter_cons_of_neg (by simp), List.filter_cons_of_pos hcall, ← invocations,
    hreadings]

/-- One attempt of a sweep is a trial. -/
theorem tries_of_attempt {left : Nat} {s : Sweep} {config : CompilerConfig}
    {candidate : Candidate} {p₁ : RunProgress (σ × List Exchange)}
    {res : Except RunError (CompileSuccess ⊕ (Candidate × Bool))} (i : Nat)
    (hg : exec (gate c.recorded left) p = (.ok (), p₁))
    (ha : exec (attempt c.recorded s config candidate) p₁ = (res, p')) :
    ∃ answer,
      let t : Trial := ⟨i, config, candidate, answer⟩
      Tries c.settings s p [t] p' ∧ ∀ next changed, res = .ok (.inr (next, changed)) →
        next = t.next c.settings ∧ changed = (t.repair c.settings).outcome.isChanged := by
  obtain ⟨hlog, hinvocations⟩ := invocations_of_gate hg
  obtain ⟨answer, hinvokes, hcarried, hfixes, hnext⟩ := attempt_exchanges ha
  refine ⟨answer, ⟨?_, ?_, ?_, ?_⟩, hnext⟩
  · rw [invocations_of_invokes hinvokes rfl, hinvocations]
    rfl
  · rw [hfixes, hlog, List.flatMap_singleton]
    rfl
  · intro hnodup
    rw [hcarried, hlog]
    split
    · exact RunLog.nodup_carry _ hnodup
    · exact hnodup
  · intro x hx
    rw [hcarried, hlog] at hx
    split at hx
    · rename_i hchanged
      rcases RunLog.mem_carry hx with hx | ⟨hx, hcarriable⟩
      · exact .inl hx
      · exact .inr ⟨hcarriable, _, List.mem_singleton_self _,
          Trial.callsFor_of_repair hchanged hx hcarriable⟩
    · exact .inl hx

/-- **The invocations of a sweep are trials**, whatever number of attempts is left. -/
theorem trials_of_sweepFrom {s : Sweep} {left i : Nat} {configs : List CompilerConfig}
    {candidate : Candidate} {res : Except RunError (Option CompileSuccess)}
    (hconfigs : configs = c.settings.configs.drop i)
    (h : exec (sweepFrom c.recorded s left configs candidate) p = (res, p')) :
    ∃ ts, Trials c.settings i candidate ts ∧ Tries c.settings s p ts p' := by
  induction left generalizing i configs candidate p with
  | zero =>
    cases configs with
    | nil =>
      cases h
      exact ⟨[], .done, .nothing rfl rfl rfl⟩
    | cons config rest =>
      rw [sweepFrom] at h
      rcases exec_bind_cases h with ⟨u, p₁, hg, h⟩ | ⟨e, hg, rfl⟩
      · cases h
        exact ⟨[], .done, .of_gate hg⟩
      · exact ⟨[], .done, .of_gate hg⟩
  | succ left ih =>
    cases configs with
    | nil =>
      cases h
      exact ⟨[], .done, .nothing rfl rfl rfl⟩
    | cons config rest =>
      rw [sweepFrom, Nat.succ_eq_add_one] at h
      rcases exec_bind_cases h with ⟨u, p₁, hg, h⟩ | ⟨e, hg, rfl⟩
      · have hconfig : c.settings.configs[i]? = some config := getElem?_of_cons_eq_drop hconfigs
        rcases exec_bind_cases h with ⟨r, p₂, ha, h⟩ | ⟨e, ha, rfl⟩
        · obtain ⟨answer, htries, hnext⟩ := tries_of_attempt i hg ha
          rcases r with success | ⟨next, changed⟩
          · cases h
            exact ⟨_, .next (t := ⟨i, config, candidate, answer⟩) hconfig .done, htries⟩
          · obtain ⟨rfl, hchanged⟩ := hnext next changed rfl
            cases changed with
            | true =>
              obtain ⟨ts, htrials, htries'⟩ := ih hconfigs h
              refine ⟨_, .next (t := ⟨i, config, candidate, answer⟩) hconfig ?_,
                htries.trans htries'⟩
              rwa [Trial.nextIndex, ← hchanged, if_pos rfl]
            | false =>
              obtain ⟨ts, htrials, htries'⟩ := ih (eq_drop_of_cons_eq_drop hconfigs) h
              refine ⟨_, .next (t := ⟨i, config, candidate, answer⟩) hconfig ?_,
                htries.trans htries'⟩
              rwa [Trial.nextIndex, ← hchanged, if_neg Bool.false_ne_true]
        · obtain ⟨answer, htries, -⟩ := tries_of_attempt i hg ha
          exact ⟨_, .next (t := ⟨i, config, candidate, answer⟩) hconfig .done, htries⟩
      · exact ⟨[], .done, .of_gate hg⟩

/-- The invocations of a whole sweep are trials from the text with the repairs carried over. -/
theorem trials_of_sweep {s : Sweep} {res : Except RunError (Option CompileSuccess)}
    (h : exec (sweep c.recorded s) p = (res, p')) :
    let outcome := c.settings.prepare p.log.carried s.initial
    ∃ ts, Trials c.settings 0 { text := outcome.text } ts ∧
      Tries c.settings s ⟨p.log.prepared outcome.changes p.log.flatten, p.state⟩ ts p' := by
  rw [exec_sweep] at h
  exact trials_of_sweepFrom (i := 0) rfl h

end Run

end ContractBuild
