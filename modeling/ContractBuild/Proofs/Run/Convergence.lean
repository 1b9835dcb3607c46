import ContractBuild.Proofs.Run.Trials

/-!
# Repairs come to an end

- **Chains** (`RepairStep`): where each text is a repair of the one before that changed something,
  the potential falls from text to text.
- **Sweeps** (`Run.Trials`): the texts that a sweep submits for one configuration are such a chain,
  however many attempts are left.
- **Both together**: `fixing_converges`.
-/

namespace ContractBuild

open ContractBuild.Fix

/-! ## Chains -/

/-- A repair for some classes changed something in the first text and gave the second. -/
def RepairStep (classes : List FailureClass) (text text' : String) : Prop :=
  (fixClasses text classes).isChanged = true ∧ text' = (fixClasses text classes).text

theorem RepairStep.potential_lt {classes : List FailureClass} {text text' : String}
    (h : RepairStep classes text text') : potential text'.toList < potential text.toList := by
  rw [h.2]
  exact potential_fixClasses h.1

/-- Along a chain the potential falls with every step. -/
theorem potential_add_le_of_chain {texts : Nat → String} {classes : Nat → List FailureClass}
    {n i j : Nat} (h : ∀ k < n, RepairStep (classes k) (texts k) (texts (k + 1)))
    (hij : i ≤ j) (hj : j ≤ n) :
    potential (texts j).toList + (j - i) ≤ potential (texts i).toList := by
  induction j with
  | zero =>
    cases Nat.le_zero.mp hij
    exact Nat.le_refl _
  | succ j ih =>
    rcases Nat.lt_or_eq_of_le hij with hlt | rfl
    · have hstep := (h j (by omega)).potential_lt
      have hrest := ih (by omega) (by omega)
      omega
    · omega

/-! ## Sweeps -/

namespace Run

variable {settings : RunSettings} {candidate : Candidate} {i : Nat} {ts : List Trial}

/-- After a trial the same configuration is tried again with a text of a smaller potential, or the
next one with the same text. -/
theorem Trial.next_cases (settings : RunSettings) (t : Trial) :
    (t.nextIndex settings = t.index ∧
      potential (t.next settings).text.toList < potential t.text.toList) ∨
    (t.nextIndex settings = t.index + 1 ∧ (t.next settings).text = t.text) := by
  have houtcome : (t.repair settings).outcome = fixClasses t.text (t.repair settings).classes :=
    (t.candidate.repaired settings t.verdict).outcome
  unfold Trial.nextIndex Trial.next
  cases hchanged : (t.repair settings).outcome.isChanged with
  | true =>
    rw [houtcome] at hchanged ⊢
    exact .inl ⟨if_pos rfl, potential_fixClasses hchanged⟩
  | false =>
    rw [houtcome] at hchanged ⊢
    exact .inr ⟨if_neg Bool.false_ne_true, text_fixClasses_of_not_isChanged hchanged⟩

namespace Trials

theorem index_le (h : Trials settings i candidate ts) {t : Trial} (ht : t ∈ ts) : i ≤ t.index := by
  induction h with
  | done => cases ht
  | @next u ts _ _ ih =>
    rcases List.mem_cons.mp ht with rfl | ht
    · exact Nat.le_refl _
    · have hle := ih ht
      rcases u.next_cases settings with ⟨hindex, -⟩ | ⟨hindex, -⟩ <;> omega

theorem potential_le (h : Trials settings i candidate ts) {t : Trial} (ht : t ∈ ts) :
    potential t.text.toList ≤ potential candidate.text.toList := by
  induction h with
  | done => cases ht
  | @next u ts _ _ ih =>
    rcases List.mem_cons.mp ht with rfl | ht
    · exact Nat.le_refl _
    · rcases u.next_cases settings with ⟨-, hlt⟩ | ⟨-, htext⟩
      · exact (ih ht).trans (Nat.le_of_lt hlt)
      · have hle := ih ht
        rwa [htext] at hle

/-- No text is submitted twice for one configuration. -/
theorem nodup (h : Trials settings i candidate ts) :
    (ts.map fun t => (t.index, t.text)).Nodup := by
  induction h with
  | done => exact List.nodup_nil
  | @next t ts _ hrest ih =>
    refine List.nodup_cons.mpr ⟨fun hmem => ?_, ih⟩
    obtain ⟨u, hu, heq⟩ := List.mem_map.mp hmem
    obtain ⟨hindex, htext⟩ := Prod.mk.inj heq
    have hle := hrest.index_le hu
    have hpotential := hrest.potential_le hu
    rw [htext] at hpotential
    rcases t.next_cases settings with ⟨-, hlt⟩ | ⟨hnext, -⟩ <;> omega

/-- The number of trials for one configuration is bounded by the text alone. -/
theorem countP_index_le (h : Trials settings i candidate ts) (j : Nat) :
    ts.countP (·.index == j) ≤ potential candidate.text.toList + 1 := by
  induction h with
  | done => exact Nat.zero_le _
  | @next t ts _ hrest ih =>
    have hcandidate : potential t.candidate.text.toList = potential t.text.toList := rfl
    rw [List.countP_cons, hcandidate]
    rcases t.next_cases settings with ⟨-, hlt⟩ | ⟨hnext, htext⟩
    · split <;> omega
    · by_cases hj : t.index = j
      · -- no later trial is for this configuration
        have hnone : ts.countP (·.index == j) = 0 := by
          refine List.countP_eq_zero.mpr fun u hu => ?_
          have hle := hrest.index_le hu
          simp only [beq_iff_eq]
          omega
        rw [hnone]
        split <;> omega
      · rw [htext] at ih
        rw [if_neg (by simpa using hj)]
        exact ih

end Trials

end Run

/-! ## Both together -/

/-- **Fixing converges.** There is no endless chain of repairs that each change something, and no
text comes back in one. So whatever the compiler answers and however many attempts are left, a sweep
submits no text twice for one configuration, and the number of its trials for one configuration has
a bound that depends on the first text only. -/
theorem fixing_converges {σ : Type} (c : RunContext σ) (s : Run.Sweep) (candidate : Run.Candidate) :
    (∀ (texts : Nat → String) (classes : Nat → List FailureClass),
      ¬ ∀ i, RepairStep (classes i) (texts i) (texts (i + 1))) ∧
    (∀ (texts : Nat → String) (classes : Nat → List FailureClass) (n : Nat),
      (∀ i < n, RepairStep (classes i) (texts i) (texts (i + 1))) →
      ∀ i j, i < j → j ≤ n → texts i ≠ texts j) ∧
    ∀ (left : Nat) (p : RunProgress (σ × List Exchange)),
      let swept := Run.exec (Run.sweepFrom c.recorded s left c.settings.configs candidate) p
      Run.exec (Run.sweepFrom c s left c.settings.configs candidate) p.forget =
        (swept.1, swept.2.forget) ∧
      ∃ ts, Run.Trials c.settings 0 candidate ts ∧
        invocations swept.2.state.2 = invocations p.state.2 ++ ts.map (·.invocation s) ∧
        (ts.map fun t => (t.index, t.text)).Nodup ∧
        ∀ i, ts.countP (·.index == i) ≤ potential candidate.text.toList + 1 := by
  refine ⟨?_, ?_, ?_⟩
  · intro texts classes h
    have hle := potential_add_le_of_chain (n := potential (texts 0).toList + 1)
      (fun i _ => h i) (Nat.zero_le _) (Nat.le_refl _)
    omega
  · intro texts classes n h i j hij hj heq
    have hle := potential_add_le_of_chain h hij.le hj
    rw [heq] at hle
    omega
  · intro left p
    refine ⟨Run.erases_sweepFrom s left _ candidate p, ?_⟩
    obtain ⟨ts, htrials, htries⟩ := Run.trials_of_sweepFrom (c := c) (i := 0) rfl
      (rfl : Run.exec (Run.sweepFrom c.recorded s left c.settings.configs candidate) p = _)
    exact ⟨ts, htrials, htries.invocations, htrials.nodup, htrials.countP_index_le⟩

end ContractBuild
