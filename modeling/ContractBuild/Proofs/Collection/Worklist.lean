import ContractBuild.Source.Collection
import Mathlib.Data.Finset.Card
import Mathlib.Data.Finset.Filter

/-!
# The worklist of a collection

- **Steps** (`step_cases`, `step_error`): all that taking one unit off the list can do.
- **Reached units** (`Reaches`): the names that imports lead to from the root, found or not.
- **What is collected** (`get?_of_run`): when the list is empty, the units that are reached and
  found, with the texts that were found for them.
- **How long it takes** (`run_ends`): every step takes a unit off the list, and only a unit that is
  collected for the first time puts new ones on it. So a collection ends if the reached units that
  are found are among finitely many.
-/

namespace ContractBuild

open Solidity

namespace UnitLookup

variable {l : UnitLookup}

/-! ## Steps -/

/-- The unit is not found, and that is no error. -/
def LeftOut (l : UnitLookup) (name : String) : Prop :=
  l.resolver.settings.strict = false ∧ ∃ e, l.find name = .error e

/-- All that a step without an error can do: skip a unit that is collected, collect one, or leave
one that is not found to the compiler. -/
theorem step_cases {u : PendingUnit} {rest : List PendingUnit} {c : Collected} {w : Worklist}
    (h : l.step u rest c = .ok w) :
    (c.sources.contains u.name = true ∧ w = ⟨rest, c⟩) ∨
    (c.sources.contains u.name = false ∧ ∃ text, l.find u.name = .ok text ∧
      w = ⟨rest ++ nextUnits c u text, add c u text⟩) ∨
    (u.name ≠ l.rootUnit ∧ l.LeftOut u.name ∧ w = ⟨rest, c⟩) := by
  unfold step at h
  split at h
  · rename_i hc
    cases h
    exact .inl ⟨hc, rfl⟩
  · rename_i hc
    split at h
    · rename_i text ht
      cases h
      exact .inr (.inl ⟨by simpa using hc, text, ht, rfl⟩)
    · rename_i e he
      split at h
      · cases h
      · rename_i hroot
        split at h
        · cases h
        · rename_i hstrict
          cases h
          exact .inr (.inr ⟨by simpa using hroot, ⟨by simpa using hstrict, e, he⟩, rfl⟩)

/-- A step fails only at a unit that is not found, and only if it is the root or the resolver is
strict. -/
theorem step_error {u : PendingUnit} {rest : List PendingUnit} {c : Collected} {e : ResolutionError}
    (h : l.step u rest c = .error e) :
    (∃ cause, l.find u.name = .error cause) ∧
      (u.name = l.rootUnit ∨ l.resolver.settings.strict = true) ∧ ∀ name, e ≠ .endless name := by
  unfold step at h
  split at h
  · cases h
  · split at h
    · cases h
    · rename_i cause hcause
      refine ⟨⟨cause, hcause⟩, ?_⟩
      split at h
      · rename_i hroot
        cases h
        exact ⟨.inl (by simpa using hroot), by simp⟩
      · split at h
        · rename_i hstrict
          cases h
          exact ⟨.inr hstrict, by simp⟩
        · cases h

theorem mem_nextUnits {c : Collected} {u v : PendingUnit} {text : String}
    (h : v ∈ nextUnits c u text) :
    ∃ raw ∈ importPaths text, v.name = unitName u.name raw ∧
      v.package = (u.package || ImportKind.of raw != .relative) := by
  obtain ⟨hm, -⟩ := List.mem_filter.mp h
  obtain ⟨raw, hraw, rfl⟩ := List.mem_map.mp hm
  exact ⟨raw, hraw, rfl, rfl⟩

theorem exists_mem_nextUnits {u : PendingUnit} {text raw : String} (c : Collected)
    (h : raw ∈ importPaths text) :
    c.sources.contains (unitName u.name raw) = true ∨
      ∃ v ∈ nextUnits c u text, v.name = unitName u.name raw := by
  cases hc : c.sources.contains (unitName u.name raw) with
  | true => exact .inl rfl
  | false =>
    refine .inr ⟨⟨unitName u.name raw, u.package || ImportKind.of raw != .relative⟩, ?_, rfl⟩
    exact List.mem_filter.mpr ⟨List.mem_map.mpr ⟨raw, h, rfl⟩, by simp [hc]⟩

theorem length_nextUnits_le (c : Collected) (u : PendingUnit) (text : String) :
    (nextUnits c u text).length ≤ (importPaths text).length := by
  simpa [nextUnits] using List.length_filter_le _ ((importPaths text).map fun raw =>
    (⟨unitName u.name raw, u.package || ImportKind.of raw != .relative⟩ : PendingUnit))

theorem contains_add (c : Collected) (u : PendingUnit) (text key : String) :
    (add c u text).sources.contains key = (key == u.name || c.sources.contains key) :=
  Dict.contains_insert c.sources u.name key text

/-- What steps keep holds when the list is empty. -/
theorem run_ok {motive : Worklist → Prop}
    (hstep : ∀ u rest c w, motive ⟨u :: rest, c⟩ → l.step u rest c = .ok w → motive w)
    {n : Nat} {w : Worklist} {c : Collected} (hw : motive w) (h : l.run n w = .ok c) :
    motive ⟨[], c⟩ := by
  induction n generalizing w with
  | zero =>
    rcases w with ⟨_ | ⟨u, rest⟩, c₁⟩
    · cases h
      exact hw
    · cases h
  | succ n ih =>
    rcases w with ⟨_ | ⟨u, rest⟩, c₁⟩
    · cases h
      exact hw
    · rw [run] at h
      cases hs : l.step u rest c₁ with
      | error e =>
        rw [hs] at h
        cases h
      | ok w =>
        rw [hs] at h
        exact ih (hstep u rest c₁ w hw hs) h

/-! ## Reached units -/

/-- The names that imports lead to from the root. -/
inductive Reaches (l : UnitLookup) : String → Prop where
  | root : Reaches l l.rootUnit
  | step {name text raw : String} (before : Reaches l name) (found : l.find name = .ok text)
      (imported : raw ∈ importPaths text) : Reaches l (unitName name raw)

/-- A name that is collected, on the list, or left out. -/
def Settled (l : UnitLookup) (w : Worklist) (name : String) : Prop :=
  w.collected.sources.contains name = true ∨ (∃ u ∈ w.pending, u.name = name) ∨ l.LeftOut name

/-- What holds of a list and of what is collected at every step. -/
structure Sound (l : UnitLookup) (w : Worklist) : Prop where
  pending : ∀ u ∈ w.pending, l.Reaches u.name
  collected : ∀ name text, w.collected.sources.get? name = some text →
    l.Reaches name ∧ l.find name = .ok text
  /-- The root has to be found. -/
  rooted : w.collected.sources.contains l.rootUnit = true ∨ ∃ u ∈ w.pending, u.name = l.rootUnit
  closed : ∀ name text, w.collected.sources.get? name = some text →
    ∀ raw ∈ importPaths text, l.Settled w (unitName name raw)

theorem sound_start (l : UnitLookup) : l.Sound l.start where
  pending u hu := by
    rw [List.mem_singleton.mp hu]
    exact .root
  collected name text h := by cases h
  rooted := .inr ⟨_, List.mem_singleton_self _, rfl⟩
  closed name text h := by cases h

/-- Taking a unit off the list settles it, if it is collected or left out. -/
theorem Settled.pop {u : PendingUnit} {rest : List PendingUnit} {c : Collected} {name : String}
    (h : l.Settled ⟨u :: rest, c⟩ name)
    (hu : c.sources.contains u.name = true ∨ l.LeftOut u.name) : l.Settled ⟨rest, c⟩ name := by
  rcases h with h | ⟨v, hv, rfl⟩ | h
  · exact .inl h
  · rcases List.mem_cons.mp hv with rfl | hv
    · exact hu.imp_right .inr
    · exact .inr (.inl ⟨v, hv, rfl⟩)
  · exact .inr (.inr h)

theorem Settled.add {u : PendingUnit} {rest more : List PendingUnit} {c : Collected} {name : String}
    (h : l.Settled ⟨u :: rest, c⟩ name) (text : String) :
    l.Settled ⟨rest ++ more, add c u text⟩ name := by
  rcases h with h | ⟨v, hv, rfl⟩ | h
  · exact .inl (by rw [contains_add, h, Bool.or_true])
  · rcases List.mem_cons.mp hv with rfl | hv
    · exact .inl (by rw [contains_add, beq_self_eq_true, Bool.true_or])
    · exact .inr (.inl ⟨v, List.mem_append_left _ hv, rfl⟩)
  · exact .inr (.inr h)

namespace Sound

variable {u : PendingUnit} {rest : List PendingUnit} {c : Collected}

/-- A unit is skipped or left to the compiler. -/
theorem pop (h : l.Sound ⟨u :: rest, c⟩)
    (hu : c.sources.contains u.name = true ∨ u.name ≠ l.rootUnit ∧ l.LeftOut u.name) :
    l.Sound ⟨rest, c⟩ where
  pending v hv := h.pending v (List.mem_cons_of_mem _ hv)
  collected := h.collected
  rooted := by
    rcases h.rooted with hr | ⟨v, hv, hname⟩
    · exact .inl hr
    · rcases List.mem_cons.mp hv with rfl | hv
      · rcases hu with hu | ⟨hne, -⟩
        · exact .inl (hname ▸ hu)
        · exact absurd hname hne
      · exact .inr ⟨v, hv, hname⟩
  closed name text ht raw hraw := (h.closed name text ht raw hraw).pop (hu.imp_right (·.2))

/-- A unit is collected. -/
theorem add (h : l.Sound ⟨u :: rest, c⟩) {text : String} (ht : l.find u.name = .ok text) :
    l.Sound ⟨rest ++ nextUnits c u text, UnitLookup.add c u text⟩ := by
  have hu := h.pending u (by simp)
  -- what is found under a name now is what was found before, or the new text
  have hget : ∀ {name t}, (UnitLookup.add c u text).sources.get? name = some t →
      (name = u.name ∧ t = text) ∨ c.sources.get? name = some t := by
    intro name t hn
    by_cases he : name = u.name
    · subst he
      have : some text = some t := (Dict.get?_insert_self c.sources u.name text).symm.trans hn
      exact .inl ⟨rfl, (Option.some.inj this).symm⟩
    · exact .inr ((Dict.get?_insert_ne c.sources text he).symm.trans hn)
  constructor
  case pending =>
    intro v hv
    rcases List.mem_append.mp hv with hv | hv
    · exact h.pending v (List.mem_cons_of_mem _ hv)
    · obtain ⟨raw, hraw, hname, -⟩ := mem_nextUnits hv
      rw [hname]
      exact .step hu ht hraw
  case collected =>
    intro name t hn
    rcases hget hn with ⟨rfl, rfl⟩ | hn
    · exact ⟨hu, ht⟩
    · exact h.collected name t hn
  case rooted =>
    rcases h.rooted with hr | ⟨v, hv, hname⟩
    · exact .inl (by rw [contains_add, hr, Bool.or_true])
    · rcases List.mem_cons.mp hv with rfl | hv
      · exact .inl (by rw [contains_add, hname, beq_self_eq_true, Bool.true_or])
      · exact .inr ⟨v, List.mem_append_left _ hv, hname⟩
  case closed =>
    intro name t hn raw hraw
    rcases hget hn with ⟨rfl, rfl⟩ | hn
    · rcases exists_mem_nextUnits c hraw with hc | ⟨v, hv, hname⟩
      · exact .inl (by rw [contains_add, hc, Bool.or_true])
      · exact .inr (.inl ⟨v, List.mem_append_right _ hv, hname⟩)
    · exact (h.closed name t hn raw hraw).add text

theorem step {w : Worklist} (h : l.Sound ⟨u :: rest, c⟩) (hs : l.step u rest c = .ok w) :
    l.Sound w := by
  rcases step_cases hs with ⟨hc, rfl⟩ | ⟨-, text, ht, rfl⟩ | ⟨hne, he, rfl⟩
  · exact h.pop (.inl hc)
  · exact h.add ht
  · exact h.pop (.inr ⟨hne, he⟩)

end Sound

theorem sound_of_run {n : Nat} {c : Collected} (h : l.run n l.start = .ok c) : l.Sound ⟨[], c⟩ :=
  run_ok (fun _ _ _ _ hw hs => hw.step hs) l.sound_start h

/-- The root is among what is collected for it. -/
theorem contains_rootUnit_of_run {n : Nat} {c : Collected} (h : l.run n l.start = .ok c) :
    c.sources.contains l.rootUnit = true :=
  (sound_of_run h).rooted.resolve_right (by simp)

/-- **What is collected is what is reached and found.** -/
theorem get?_of_run {n : Nat} {c : Collected} (h : l.run n l.start = .ok c) (name text : String) :
    c.sources.get? name = some text ↔ l.Reaches name ∧ l.find name = .ok text := by
  have hsound := sound_of_run h
  -- a name that is collected has the text that is found for it
  have hgot : ∀ {name text}, c.sources.contains name = true → l.find name = .ok text →
      c.sources.get? name = some text := by
    intro name text hc hf
    rw [Dict.contains_eq_isSome_get?] at hc
    obtain ⟨t, ht⟩ := Option.isSome_iff_exists.mp hc
    cases (hsound.collected name t ht).2.symm.trans hf
    exact ht
  refine ⟨hsound.collected name text, ?_⟩
  rintro ⟨hr, hf⟩
  induction hr generalizing text with
  | root => exact hgot (contains_rootUnit_of_run h) hf
  | step _ found imported ih =>
    rcases hsound.closed _ _ (ih _ found) _ imported with hc | ⟨u, hu, -⟩ | ⟨-, e, he⟩
    · exact hgot hc hf
    · cases hu
    · cases he.symm.trans hf

/-- No unit belongs to a package if all imports are relative. -/
theorem packages_of_run {n : Nat} {c : Collected} (h : l.run n l.start = .ok c)
    (hrel : ∀ name text, l.Reaches name → l.find name = .ok text →
      ∀ raw ∈ importPaths text, ImportKind.of raw = .relative) : c.packages = ∅ := by
  have hkept : l.Sound ⟨[], c⟩ ∧ (∀ u ∈ ([] : List PendingUnit), u.package = false) ∧
      c.packages = ∅ := by
    refine run_ok (motive := fun w => l.Sound w ∧ (∀ u ∈ w.pending, u.package = false) ∧
      w.collected.packages = ∅) ?_ ⟨l.sound_start, ?_, rfl⟩ h
    · rintro u rest c w ⟨hsound, hpending, hpackages⟩ hs
      refine ⟨hsound.step hs, ?_⟩
      obtain ⟨hu, hrest⟩ := List.forall_mem_cons.mp hpending
      rcases step_cases hs with ⟨-, rfl⟩ | ⟨-, text, ht, rfl⟩ | ⟨-, -, rfl⟩
      · exact ⟨hrest, hpackages⟩
      · refine ⟨fun v hv => ?_, by simpa [add, hu] using hpackages⟩
        rcases List.mem_append.mp hv with hv | hv
        · exact hrest v hv
        · obtain ⟨raw, hraw, -, hpackage⟩ := mem_nextUnits hv
          rw [hpackage, hu, hrel _ _ (hsound.pending u (by simp)) ht raw hraw]
          rfl
      · exact ⟨hrest, hpackages⟩
    · intro u hu
      rw [List.mem_singleton.mp hu]
  exact hkept.2.2

/-! ## How long it takes -/

/-- The names of a finite set that are not collected yet. -/
def missing (names : Finset String) (c : Collected) : Finset String :=
  names.filter fun name => c.sources.contains name = false

/-- The units on the list, and as many for each name that can still be collected as a unit has
imports. -/
def workLeft (names : Finset String) (imports : Nat) (w : Worklist) : Nat :=
  w.pending.length + imports * (missing names w.collected).card

theorem card_missing_add {names : Finset String} {c : Collected} {u : PendingUnit} (text : String)
    (hm : u.name ∈ names) (hc : c.sources.contains u.name = false) :
    (missing names (add c u text)).card + 1 ≤ (missing names c).card := by
  apply Finset.card_lt_card
  refine ⟨fun name hname => ?_, fun hs => ?_⟩
  · obtain ⟨hn, hv⟩ := Finset.mem_filter.mp hname
    rw [contains_add, Bool.or_eq_false_iff] at hv
    exact Finset.mem_filter.mpr ⟨hn, hv.2⟩
  · have := hs (Finset.mem_filter.mpr ⟨hm, hc⟩)
    simp [missing, contains_add] at this

/-- Every step leaves less to do, if what is collected is among the names. -/
theorem workLeft_step {names : Finset String} {imports : Nat} {u : PendingUnit}
    {rest : List PendingUnit} {c : Collected} {w : Worklist} (hs : l.step u rest c = .ok w)
    (hu : ∀ text, l.find u.name = .ok text →
      u.name ∈ names ∧ (importPaths text).length ≤ imports) :
    workLeft names imports w < workLeft names imports ⟨u :: rest, c⟩ := by
  rcases step_cases hs with ⟨-, rfl⟩ | ⟨hc, text, ht, rfl⟩ | ⟨-, -, rfl⟩
  · simp [workLeft]
  · obtain ⟨hm, himports⟩ := hu text ht
    have hnext := length_nextUnits_le c u text
    have hcard := Nat.mul_le_mul_left imports (card_missing_add text hm hc)
    simp only [workLeft, List.length_append, List.length_cons] at hcard ⊢
    rw [Nat.mul_add, Nat.mul_one] at hcard
    omega
  · simp [workLeft]

/-- A step failed at a reached unit. -/
def Fails (l : UnitLookup) (n : Nat) (w : Worklist) : Prop :=
  ∃ name cause e, l.Reaches name ∧ l.find name = .error cause ∧
    (name = l.rootUnit ∨ l.resolver.settings.strict = true) ∧ l.run n w = .error e ∧
    ∀ other, e ≠ .endless other

/-- **A collection ends,** if the reached units that are found are among finitely many. Then the
list becomes empty, or a unit is not found and that is an error. -/
theorem run_ends {names : Finset String} {imports : Nat}
    (hfound : ∀ name text, l.Reaches name → l.find name = .ok text →
      name ∈ names ∧ (importPaths text).length ≤ imports)
    {n : Nat} (hn : 1 + imports * names.card ≤ n) :
    (∃ c, l.run n l.start = .ok c) ∨ l.Fails n l.start := by
  have hgen : ∀ (n : Nat) (w : Worklist), l.Sound w → workLeft names imports w ≤ n →
      (∃ c, l.run n w = .ok c) ∨ l.Fails n w := by
    intro n
    induction n with
    | zero =>
      rintro ⟨_ | ⟨u, rest⟩, c⟩ - hwork
      · exact .inl ⟨c, rfl⟩
      · simp [workLeft] at hwork
    | succ n ih =>
      rintro ⟨_ | ⟨u, rest⟩, c⟩ hsound hwork
      · exact .inl ⟨c, rfl⟩
      · have hu := hsound.pending u (by simp)
        rw [Fails, run]
        cases hs : l.step u rest c with
        | error e =>
          obtain ⟨⟨cause, hcause⟩, hwhy, hne⟩ := step_error hs
          exact .inr ⟨u.name, cause, e, hu, hcause, hwhy, rfl, hne⟩
        | ok w =>
          have hlt := workLeft_step hs fun text ht => hfound u.name text hu ht
          exact ih w (hsound.step hs) (by omega)
  refine hgen n l.start l.sound_start (le_trans ?_ hn)
  have hcard : (missing names l.start.collected).card ≤ names.card :=
    Finset.card_le_card (Finset.filter_subset _ _)
  have := Nat.mul_le_mul_left imports hcard
  simp only [workLeft, start, List.length_singleton] at this ⊢
  omega

/-- More steps do not change the answer of a collection that ended. -/
theorem run_of_le {n m : Nat} {w : Worklist} (h : ∀ name, l.run n w ≠ .error (.endless name))
    (hm : n ≤ m) : l.run m w = l.run n w := by
  induction n generalizing m w with
  | zero =>
    rcases w with ⟨_ | ⟨u, rest⟩, c⟩
    · cases m <;> rfl
    · exact absurd rfl (h u.name)
  | succ n ih =>
    obtain ⟨m, rfl⟩ : ∃ k, m = k + 1 := ⟨m - 1, by omega⟩
    rcases w with ⟨_ | ⟨u, rest⟩, c⟩
    · rfl
    · rw [run] at h ⊢
      rw [run]
      cases hs : l.step u rest c with
      | error e => rfl
      | ok w =>
        rw [hs] at h
        exact ih h (Nat.le_of_succ_le_succ hm)

/-- **A chain of imports that never comes back to a name never ends.** -/
theorem run_endless (names texts raws : Nat → String) (hinj : Function.Injective names)
    (hroot : l.rootUnit = names 0) (hfind : ∀ k, l.find (names k) = .ok (texts k))
    (himports : ∀ k, importPaths (texts k) = [raws k])
    (hnext : ∀ k, unitName (names k) (raws k) = names (k + 1)) (n : Nat) :
    ∃ name, l.run n l.start = .error (.endless name) := by
  -- the list is one unit of the chain, and only those before it are collected
  have hgen : ∀ (n k : Nat) (package : Bool) (c : Collected),
      (∀ j, c.sources.contains (names j) = true → j < k) →
      ∃ name, l.run n ⟨[⟨names k, package⟩], c⟩ = .error (.endless name) := by
    intro n
    induction n with
    | zero => exact fun k _ _ _ => ⟨names k, rfl⟩
    | succ n ih =>
      intro k package c hc
      have hfresh {j : Nat} (hj : k ≤ j) : c.sources.contains (names j) = false := by
        by_contra hne
        have := hc j (by simpa using hne)
        omega
      have hstep : l.step ⟨names k, package⟩ [] c =
          .ok ⟨[⟨names (k + 1), package || ImportKind.of (raws k) != .relative⟩],
            add c ⟨names k, package⟩ (texts k)⟩ := by
        simp [step, hfind, hfresh, nextUnits, himports, hnext]
      rw [run, hstep]
      refine ih _ _ _ fun j hj => ?_
      rw [contains_add, Bool.or_eq_true, beq_iff_eq] at hj
      rcases hj with hj | hj
      · rw [hinj hj]
        exact Nat.lt_succ_self k
      · exact Nat.lt_succ_of_lt (hc j hj)
  rw [start, hroot]
  exact hgen n 0 false {} fun j hj => by cases hj

end UnitLookup

end ContractBuild
