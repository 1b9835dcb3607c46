import ContractBuild.Proofs.Collection.Closure

/-!
# Which units belong to a package

A unit can be asked for more than once, by relative imports and by others. Whether it belongs to a
package is settled when it is collected, by the request for it that comes first.

- **Requests** (`requests`, `firstRequests`): what a unit asks for, and the first request for each
  name.
- **The order of units** (`BreadthFirst`): each unit is the first request for its name among those
  that the units before it make. There is only one such order.
- **The list** (`Lined`): at every step the collected units are the first requests of those that
  were handled, and the list holds those that were not.
- **Routes** (`Led`): imports that lead from the root to a unit, one of them not relative if the
  request for the unit is marked as one of a package.

Main statement: `packages_exact`. A unit that is reached in both ways can be left out of the
packages (`package_by_order`).
-/

namespace ContractBuild

open Solidity

namespace Collected

/-- A chain of imports of collected units leads from one unit to another, and one of the imports is
not relative. -/
def LeadsThroughPackage (c : Collected) (start u : String) : Prop :=
  ∃ name raw next, c.LeadsTo start name ∧ c.Imports name raw next ∧
    ImportKind.of raw ≠ .relative ∧ c.LeadsTo next u

/-- Relative imports of collected units lead from one unit to another. -/
def LeadsRelatively (c : Collected) : String → String → Prop :=
  Relation.ReflTransGen fun name next =>
    ∃ raw, c.Imports name raw next ∧ ImportKind.of raw = .relative

theorem LeadsRelatively.leadsTo {c : Collected} {start u : String} (h : c.LeadsRelatively start u) :
    c.LeadsTo start u :=
  Relation.ReflTransGen.mono (fun _ _ hstep => hstep.imp fun _ himports => himports.1) _ _ h

end Collected

namespace UnitLookup

/-! ## Requests -/

/-- What a unit asks for: the units it imports, in order. -/
def requests (l : UnitLookup) (u : PendingUnit) : List PendingUnit :=
  match l.find u.name with
  | .ok text => (importPaths text).map fun raw =>
      ⟨unitName u.name raw, u.package || ImportKind.of raw != .relative⟩
  | .error _ => []

/-- Whether a unit is found. -/
def isFound (l : UnitLookup) (u : PendingUnit) : Bool := (l.find u.name).isOk

/-- All that is asked for, by the start and then by some units one after the other. -/
def allRequests (l : UnitLookup) (order : List PendingUnit) : List PendingUnit :=
  ⟨l.rootUnit, false⟩ :: order.flatMap l.requests

/-- The first request for each name. -/
def firstRequests : List PendingUnit → List PendingUnit
  | [] => []
  | u :: rest => u :: (firstRequests rest).filter (·.name != u.name)

theorem mem_of_mem_firstRequests {asked : List PendingUnit} {u : PendingUnit}
    (h : u ∈ firstRequests asked) : u ∈ asked := by
  induction asked with
  | nil => cases h
  | cons v rest ih =>
    rcases List.mem_cons.1 h with rfl | h
    · exact List.mem_cons_self ..
    · exact List.mem_cons_of_mem _ (ih (List.mem_of_mem_filter h))

/-- Every name that is asked for is asked for by a first request. -/
theorem exists_mem_firstRequests {asked : List PendingUnit} {u : PendingUnit} (h : u ∈ asked) :
    ∃ v ∈ firstRequests asked, v.name = u.name := by
  induction asked with
  | nil => cases h
  | cons w rest ih =>
    by_cases hname : w.name = u.name
    · exact ⟨w, List.mem_cons_self .., hname⟩
    · rcases List.mem_cons.1 h with rfl | h
      · exact absurd rfl hname
      · obtain ⟨v, hv, hvu⟩ := ih h
        refine ⟨v, List.mem_cons_of_mem _ (List.mem_filter.2 ⟨hv, ?_⟩), hvu⟩
        rw [hvu, bne_iff_ne]
        exact Ne.symm hname

theorem firstRequests_append (a b : List PendingUnit) : firstRequests (a ++ b) =
    firstRequests a ++ (firstRequests b).filter fun v => !(a.map (·.name)).contains v.name := by
  induction a with
  | nil => simp [firstRequests]
  | cons u a ih =>
    rw [List.cons_append, firstRequests, ih, firstRequests, List.filter_append, List.filter_filter,
      List.cons_append]
    congr 3
    funext v
    rw [List.map_cons, List.contains_cons, Bool.not_or]
    rfl

theorem nodup_firstRequests (asked : List PendingUnit) :
    ((firstRequests asked).map (·.name)).Nodup := by
  induction asked with
  | nil => exact List.nodup_nil
  | cons u rest ih =>
    refine List.nodup_cons.2 ⟨fun hu => ?_, ih.sublist (List.filter_sublist.map _)⟩
    obtain ⟨v, hv, hname⟩ := List.mem_map.1 hu
    simpa [hname] using (List.mem_filter.1 hv).2

variable {l : UnitLookup} {n : Nat} {c : Collected}

theorem requests_of_find {u : PendingUnit} {text : String} (h : l.find u.name = .ok text) :
    l.requests u = (importPaths text).map fun raw =>
      ⟨unitName u.name raw, u.package || ImportKind.of raw != .relative⟩ := by
  rw [requests, h]

theorem nextUnits_eq {u : PendingUnit} {text : String} (h : l.find u.name = .ok text) :
    nextUnits c u text = (l.requests u).filter fun v => !c.sources.contains v.name := by
  rw [requests_of_find h, nextUnits]

theorem exists_of_mem_requests {u v : PendingUnit} (h : v ∈ l.requests u) : ∃ text raw,
    l.find u.name = .ok text ∧ raw ∈ importPaths text ∧
      v = ⟨unitName u.name raw, u.package || ImportKind.of raw != .relative⟩ := by
  cases ht : l.find u.name with
  | ok text =>
    rw [requests_of_find ht] at h
    obtain ⟨raw, hraw, rfl⟩ := List.mem_map.1 h
    exact ⟨text, raw, rfl, hraw, rfl⟩
  | error e =>
    rw [requests, ht] at h
    cases h

theorem allRequests_append (a b : List PendingUnit) :
    l.allRequests (a ++ b) = l.allRequests a ++ b.flatMap l.requests := by
  rw [allRequests, List.flatMap_append]
  rfl

/-! ## The order of units -/

/-- The requests that are answered with a unit: the first one for each name that is found. -/
def answered (l : UnitLookup) (asked : List PendingUnit) : List PendingUnit :=
  (firstRequests asked).filter l.isFound

/-- The breadth-first order of the units: they answer what the start and they themselves ask for,
and each one is asked for by the start or by those before it. -/
structure BreadthFirst (l : UnitLookup) (order : List PendingUnit) : Prop where
  eq_answered : order = l.answered (l.allRequests order)
  asked : ∀ before u later, order = before ++ u :: later → u ∈ l.allRequests before

theorem answered_append (a b : List PendingUnit) : l.answered (a ++ b) =
    l.answered a ++ (l.answered b).filter fun v => !(a.map (·.name)).contains v.name := by
  rw [answered, firstRequests_append, List.filter_append, List.filter_comm]
  rfl

theorem mem_of_mem_answered {asked : List PendingUnit} {u : PendingUnit}
    (h : u ∈ l.answered asked) : u ∈ asked :=
  mem_of_mem_firstRequests (List.mem_of_mem_filter h)

/-- Requests for names that were asked for before are not answered. -/
theorem answered_append_of_mem {a b : List PendingUnit}
    (h : ∀ v ∈ b, ∃ u ∈ a, u.name = v.name) : l.answered (a ++ b) = l.answered a := by
  have hnone : (l.answered b).filter (fun v => !(a.map (·.name)).contains v.name) = [] := by
    refine List.filter_eq_nil_iff.2 fun v hv => ?_
    obtain ⟨u, hu, hname⟩ := h v (mem_of_mem_answered hv)
    simpa using ⟨u, hu, hname⟩
  rw [answered_append, hnone, List.append_nil]

/-- Every name that is asked for and found is answered. -/
theorem exists_mem_answered {asked : List PendingUnit} {u : PendingUnit} (h : u ∈ asked)
    (hfound : l.isFound u = true) : ∃ v ∈ l.answered asked, v.name = u.name := by
  obtain ⟨v, hv, hname⟩ := exists_mem_firstRequests h
  exact ⟨v, List.mem_filter.2 ⟨hv, by rw [isFound, hname]; exact hfound⟩, hname⟩

theorem nodup_answered (asked : List PendingUnit) : ((l.answered asked).map (·.name)).Nodup :=
  (nodup_firstRequests asked).sublist (List.filter_sublist.map _)

namespace BreadthFirst

/-- The unit behind some others is the first request that they make and do not answer. -/
theorem getElem?_answered {before later : List PendingUnit} {u : PendingUnit}
    (h : l.BreadthFirst (before ++ u :: later)) :
    (l.answered (l.allRequests before))[before.length]? = some u := by
  have heq := h.eq_answered
  have hnodup := nodup_answered (l := l) (l.allRequests (before ++ u :: later))
  rw [← heq, List.map_append, List.map_cons, List.nodup_middle, List.nodup_cons] at hnodup
  have hfound : l.isFound u = true := by
    have hu : u ∈ l.answered (l.allRequests (before ++ u :: later)) := by
      rw [← heq]
      simp
    exact (List.mem_filter.1 hu).2
  -- the name is answered among what was asked before, and not by one of the units before it
  obtain ⟨v, hv, hname⟩ := exists_mem_answered (h.asked before u later rfl) hfound
  have hnew : v ∉ before := fun hmem =>
    hnodup.1 (List.mem_append_left _ (List.mem_map.2 ⟨v, hmem, hname⟩))
  rw [allRequests_append, answered_append] at heq
  rcases List.append_eq_append_iff.1 heq with ⟨more, hmore, hrest⟩ | ⟨more, hmore, -⟩
  · cases more with
    | nil =>
      rw [hmore, List.append_nil] at hv
      exact absurd hv hnew
    | cons w more =>
      obtain ⟨rfl, -⟩ := List.cons.inj hrest
      rw [hmore]
      simp
  · exact absurd (hmore ▸ List.mem_append_left more hv) hnew

/-- **There is one breadth-first order.** -/
theorem unique {a b : List PendingUnit} (ha : l.BreadthFirst a) (hb : l.BreadthFirst b) :
    a = b := by
  have hgen : ∀ before s t : List PendingUnit, l.BreadthFirst (before ++ s) →
      l.BreadthFirst (before ++ t) → s = t := by
    -- all that the units ask for is answered
    have hdone {before : List PendingUnit} (h : l.BreadthFirst (before ++ [])) :
        (l.answered (l.allRequests before))[before.length]? = none := by
      rw [List.append_nil] at h
      rw [← h.eq_answered]
      exact List.getElem?_eq_none (Nat.le_refl _)
    intro before s
    induction s generalizing before with
    | nil =>
      intro t hs ht
      cases t with
      | nil => rfl
      | cons v t => cases (hdone hs).symm.trans ht.getElem?_answered
    | cons u s ih =>
      intro t hs ht
      cases t with
      | nil => cases (hdone ht).symm.trans hs.getElem?_answered
      | cons v t =>
        cases hs.getElem?_answered.symm.trans ht.getElem?_answered
        rw [List.append_cons] at hs ht
        rw [ih _ t hs ht]
  exact hgen [] a b ha hb

end BreadthFirst

/-- `Thinned c asked pending`: the list `pending` holds what is asked for, in order, and only
requests for collected names are left out. -/
inductive Thinned (c : Collected) : List PendingUnit → List PendingUnit → Prop where
  | nil : Thinned c [] []
  | kept {u : PendingUnit} {asked pending : List PendingUnit} (later : Thinned c asked pending) :
      Thinned c (u :: asked) (u :: pending)
  | dropped {u : PendingUnit} {asked pending : List PendingUnit}
      (collected : c.sources.contains u.name = true) (later : Thinned c asked pending) :
      Thinned c (u :: asked) pending

namespace Thinned

variable {asked asked' pending pending' : List PendingUnit}

theorem mono {c' : Collected} (h : Thinned c asked pending)
    (hc : ∀ name, c.sources.contains name = true → c'.sources.contains name = true) :
    Thinned c' asked pending := by
  induction h with
  | nil => exact .nil
  | kept _ ih => exact .kept ih
  | dropped collected _ ih => exact .dropped (hc _ collected) ih

theorem append (h : Thinned c asked pending) (h' : Thinned c asked' pending') :
    Thinned c (asked ++ asked') (pending ++ pending') := by
  induction h with
  | nil => exact h'
  | kept _ ih => exact .kept ih
  | dropped collected _ ih => exact .dropped collected ih

theorem filter (c : Collected) (asked : List PendingUnit) :
    Thinned c asked (asked.filter fun u => !c.sources.contains u.name) := by
  induction asked with
  | nil => exact .nil
  | cons u rest ih =>
    cases hc : c.sources.contains u.name with
    | true =>
      rw [List.filter_cons_of_neg (by simp [hc])]
      exact .dropped hc ih
    | false =>
      rw [List.filter_cons_of_pos (by simp [hc])]
      exact .kept ih

/-- Before the next unit of the list only collected names are asked for. -/
theorem exists_of_cons {u : PendingUnit} {rest : List PendingUnit}
    (h : Thinned c asked (u :: rest)) : ∃ skipped later, asked = skipped ++ u :: later ∧
      (∀ v ∈ skipped, c.sources.contains v.name = true) ∧ Thinned c later rest := by
  generalize hpending : u :: rest = pending at h
  induction h with
  | nil => cases hpending
  | kept later =>
    cases hpending
    exact ⟨[], _, rfl, nofun, later⟩
  | dropped collected _ ih =>
    obtain ⟨skipped, later, rfl, hskipped, hlater⟩ := ih hpending
    exact ⟨_ :: skipped, later, rfl, List.forall_mem_cons.2 ⟨collected, hskipped⟩, hlater⟩

theorem collected_of_nil (h : Thinned c asked []) :
    ∀ v ∈ asked, c.sources.contains v.name = true := by
  generalize hpending : [] = pending at h
  induction h with
  | nil => nofun
  | kept => cases hpending
  | dropped collected _ ih => exact List.forall_mem_cons.2 ⟨collected, ih hpending⟩

end Thinned

/-- `l.Lined w order handled waiting`: what was asked for is handled or still waits, the units of
`order` answer what is handled, and they are the collected ones. -/
structure Lined (l : UnitLookup) (w : Worklist) (order handled waiting : List PendingUnit) :
    Prop where
  asked : l.allRequests order = handled ++ waiting
  answers : order = l.answered handled
  earlier : ∀ before u later, order = before ++ u :: later → u ∈ l.allRequests before
  pending : Thinned w.collected waiting w.pending
  sources : ∀ name, w.collected.sources.contains name = true ↔ ∃ u ∈ order, u.name = name
  packages : ∀ name, w.collected.packages.contains name = true ↔ ⟨name, true⟩ ∈ order

theorem lined_start (l : UnitLookup) : l.Lined l.start [] [] [⟨l.rootUnit, false⟩] where
  asked := rfl
  answers := rfl
  earlier _ _ _ h :=
    absurd h.symm (List.append_ne_nil_of_right_ne_nil _ (List.cons_ne_nil _ _))
  pending := .kept .nil
  sources _ := ⟨nofun, nofun⟩
  packages _ := ⟨nofun, nofun⟩

namespace Lined

variable {u : PendingUnit} {rest order handled skipped waiting : List PendingUnit}

/-- A collected name was asked for by a request that is handled. -/
theorem exists_handled {w : Worklist} (h : l.Lined w order handled waiting) {name : String}
    (hc : w.collected.sources.contains name = true) : ∃ u ∈ handled, u.name = name := by
  obtain ⟨u, hu, hname⟩ := (h.sources name).1 hc
  rw [h.answers] at hu
  exact ⟨u, mem_of_mem_answered hu, hname⟩

/-- A name that is found and was asked for by a request that is handled is collected. -/
theorem contains_of_handled {w : Worklist} (h : l.Lined w order handled waiting)
    (hu : u ∈ handled) (hfound : l.isFound u = true) :
    w.collected.sources.contains u.name = true := by
  rw [h.sources, h.answers]
  exact exists_mem_answered hu hfound

/-- Requests for collected names are handled without a new unit. -/
theorem answered_skipped {w : Worklist} (h : l.Lined w order handled waiting)
    (hskipped : ∀ v ∈ skipped, w.collected.sources.contains v.name = true) :
    l.answered (handled ++ skipped) = order := by
  rw [answered_append_of_mem fun v hv => h.exists_handled (hskipped v hv), ← h.answers]

/-- A request is handled without a new unit. -/
theorem pop (h : l.Lined ⟨u :: rest, c⟩ order handled (skipped ++ u :: waiting))
    (hskipped : ∀ v ∈ skipped, c.sources.contains v.name = true)
    (hu : c.sources.contains u.name = true ∨ l.isFound u = false) (hrest : Thinned c waiting rest) :
    l.Lined ⟨rest, c⟩ order (handled ++ skipped ++ [u]) waiting where
  asked := by rw [h.asked]; simp
  answers := by
    rcases hu with hu | hu
    · rw [List.append_assoc, h.answered_skipped]
      exact List.forall_mem_append.2 ⟨hskipped, List.forall_mem_singleton.2 hu⟩
    · have hnone : l.answered [u] = [] := List.filter_cons_of_neg (by simp [hu])
      rw [answered_append, hnone, List.filter_nil, List.append_nil, h.answered_skipped hskipped]
  earlier := h.earlier
  pending := hrest
  sources := h.sources
  packages := h.packages

/-- A request is handled with a new unit. -/
theorem add (h : l.Lined ⟨u :: rest, c⟩ order handled (skipped ++ u :: waiting))
    (hskipped : ∀ v ∈ skipped, c.sources.contains v.name = true)
    (hfresh : c.sources.contains u.name = false) {text : String} (ht : l.find u.name = .ok text)
    (hrest : Thinned c waiting rest) :
    l.Lined ⟨rest ++ nextUnits c u text, UnitLookup.add c u text⟩ (order ++ [u])
      (handled ++ skipped ++ [u]) (waiting ++ l.requests u) := by
  have hfound : l.isFound u = true := by rw [isFound, ht]; rfl
  have hmono (name : String) (hc : c.sources.contains name = true) :
      (UnitLookup.add c u text).sources.contains name = true := by
    rw [contains_add, hc, Bool.or_true]
  constructor
  case asked =>
    rw [allRequests_append, h.asked]
    simp
  case answers =>
    -- a request for the same name would have been answered
    have hnew : ∀ v ∈ handled ++ skipped, v.name ≠ u.name := by
      intro v hv hname
      have hv : c.sources.contains v.name = true := by
        rcases List.mem_append.1 hv with hv | hv
        · exact h.contains_of_handled hv (by rw [isFound, hname]; exact hfound)
        · exact hskipped v hv
      rw [hname, hfresh] at hv
      cases hv
    have hone : l.answered [u] = [u] := List.filter_cons_of_pos hfound
    rw [answered_append, h.answered_skipped hskipped, hone, List.filter_cons_of_pos,
      List.filter_nil]
    simpa using List.forall_mem_append.1 hnew
  case earlier =>
    intro before v later heq
    rcases List.append_eq_append_iff.1 heq with ⟨more, rfl, hmore⟩ | ⟨more, rfl, hmore⟩
    · cases more with
      | nil =>
        cases hmore
        rw [List.append_nil, h.asked]
        simp
      | cons w more => simp at hmore
    · cases more with
      | nil =>
        cases hmore
        rw [List.append_nil] at h
        rw [h.asked]
        simp
      | cons w more =>
        cases hmore
        exact h.earlier before v more rfl
  case pending =>
    rw [nextUnits_eq ht]
    exact (hrest.mono hmono).append ((Thinned.filter c (l.requests u)).mono hmono)
  case sources =>
    intro name
    have hbefore := h.sources name
    rw [contains_add, Bool.or_eq_true, beq_iff_eq, hbefore]
    simp [or_comm, eq_comm]
  case packages =>
    intro name
    have hbefore := h.packages name
    rw [List.mem_append, List.mem_singleton, ← hbefore]
    cases hp : u.package with
    | true =>
      rw [UnitLookup.add, if_pos hp, KeySet.contains_add, Bool.or_eq_true, beq_iff_eq, or_comm]
      refine or_congr_right ⟨fun hname => ?_, fun hname => by rw [← hname]⟩
      rw [hname, ← hp]
    | false =>
      rw [UnitLookup.add, if_neg (by simp [hp])]
      refine ⟨.inl, fun h => h.resolve_right ?_⟩
      rintro rfl
      cases hp

theorem step {w : Worklist} (h : l.Lined ⟨u :: rest, c⟩ order handled waiting)
    (hs : l.step u rest c = .ok w) : ∃ order handled waiting, l.Lined w order handled waiting := by
  obtain ⟨skipped, later, rfl, hskipped, hrest⟩ := h.pending.exists_of_cons
  rcases step_cases hs with ⟨hc, rfl⟩ | ⟨hfresh, text, ht, rfl⟩ | ⟨-, ⟨-, e, he⟩, rfl⟩
  · exact ⟨_, _, _, h.pop hskipped (.inl hc) hrest⟩
  · exact ⟨_, _, _, h.add hskipped hfresh ht hrest⟩
  · exact ⟨_, _, _, h.pop hskipped (.inr (by rw [isFound, he]; rfl)) hrest⟩

end Lined

/-- **The collected units in breadth-first order** are marked as the first requests for them. -/
theorem breadthFirst_of_run (h : l.run n l.start = .ok c) : ∃ order, l.BreadthFirst order ∧
    (∀ name, c.sources.contains name = true ↔ ∃ u ∈ order, u.name = name) ∧
    ∀ name, c.isPackage name = true ↔ ⟨name, true⟩ ∈ order := by
  obtain ⟨order, handled, waiting, hlined⟩ :=
    run_ok (motive := fun w => ∃ order handled waiting, l.Lined w order handled waiting)
      (fun _ _ _ _ hw hs => hw.elim fun _ hw => hw.elim fun _ hw => hw.elim fun _ hw => hw.step hs)
      ⟨_, _, _, l.lined_start⟩ h
  refine ⟨order, ⟨?_, hlined.earlier⟩, hlined.sources, hlined.packages⟩
  rw [hlined.asked, hlined.answered_skipped hlined.pending.collected_of_nil]

/-! ## Routes -/

/-- What holds of the start, and of a request if it holds of the unit that makes it, holds of every
unit. -/
theorem BreadthFirst.forall_mem {P : PendingUnit → Prop} {order : List PendingUnit}
    (h : l.BreadthFirst order) (hroot : P ⟨l.rootUnit, false⟩)
    (hstep : ∀ u v, P u → v ∈ l.requests u → P v) : ∀ u ∈ order, P u := by
  have hgen : ∀ before later, order = before ++ later → ∀ u ∈ before, P u := by
    intro before
    induction before using List.reverseRecOn with
    | nil => simp
    | append_singleton before u ih =>
      intro later heq
      rw [List.append_assoc, List.singleton_append] at heq
      have hbefore := ih _ heq
      refine List.forall_mem_append.2 ⟨hbefore, List.forall_mem_singleton.2 ?_⟩
      rcases List.mem_cons.1 (h.asked before u later heq) with rfl | hu
      · exact hroot
      · obtain ⟨v, hv, hu⟩ := List.mem_flatMap.1 hu
        exact hstep v u (hbefore v hv) hu
  exact hgen order [] (List.append_nil order).symm

/-- Imports lead from the root to a request: some of them not relative, if the request is marked as
one of a package, and else only relative ones. -/
structure Led (l : UnitLookup) (c : Collected) (u : PendingUnit) : Prop where
  reached : l.Reaches u.name
  package : u.package = true → c.LeadsThroughPackage l.rootUnit u.name
  relative : u.package = false → c.LeadsRelatively l.rootUnit u.name

theorem led_root (l : UnitLookup) (c : Collected) : l.Led c ⟨l.rootUnit, false⟩ where
  reached := .root
  package h := by cases h
  relative _ := .refl

theorem Led.step (hc : l.run n l.start = .ok c) {u v : PendingUnit} (h : l.Led c u)
    (hv : v ∈ l.requests u) : l.Led c v := by
  obtain ⟨text, raw, ht, hraw, rfl⟩ := exists_of_mem_requests hv
  have himports : c.Imports u.name raw (unitName u.name raw) :=
    ⟨text, (get?_of_run hc u.name text).2 ⟨h.reached, ht⟩, hraw, rfl⟩
  refine ⟨.step h.reached ht hraw, fun hp => ?_, fun hp => ?_⟩
  · cases hu : u.package with
    | true =>
      obtain ⟨name, raw', next, hname, himports', hkind, hnext⟩ := h.package hu
      exact ⟨name, raw', next, hname, himports', hkind, hnext.tail ⟨raw, himports⟩⟩
    | false =>
      have hkind : ImportKind.of raw ≠ .relative := by simpa [hu] using hp
      exact ⟨u.name, raw, _, (h.relative hu).leadsTo, himports, hkind, .refl⟩
  · obtain ⟨hu, hkind⟩ : u.package = false ∧ ImportKind.of raw = .relative := by simpa using hp
    exact (h.relative hu).tail ⟨raw, himports, hkind⟩

/-- **Which units belong to a package.** The units are collected in the breadth-first order, and the
first request for a unit decides: a unit belongs to a package if and only if this request is marked
as one of a package. To a unit of a package leads a chain of imports with one that is not relative,
and to every other unit a chain of relative imports. So if not both lead to a unit, it belongs to a
package if and only if a chain with an import that is not relative leads to it. -/
theorem packages_exact (l : UnitLookup) (n : Nat) (c : Collected) (h : l.run n l.start = .ok c) :
    (∃ order, l.BreadthFirst order ∧ (∀ other, l.BreadthFirst other → other = order) ∧
      ∀ u, (c.sources.contains u = true ↔ ∃ package, ⟨u, package⟩ ∈ order) ∧
        (c.isPackage u = true ↔ ⟨u, true⟩ ∈ order)) ∧
    ∀ u, c.sources.contains u = true →
      (c.isPackage u = true → c.LeadsThroughPackage l.rootUnit u) ∧
      (c.isPackage u = false → c.LeadsRelatively l.rootUnit u) ∧
      (¬(c.LeadsThroughPackage l.rootUnit u ∧ c.LeadsRelatively l.rootUnit u) →
        (c.isPackage u = true ↔ c.LeadsThroughPackage l.rootUnit u)) := by
  obtain ⟨order, horder, hsources, hpackages⟩ := breadthFirst_of_run h
  have hled : ∀ u ∈ order, l.Led c u :=
    horder.forall_mem (l.led_root c) fun u v hu hv => hu.step h hv
  have hpackage (u : String) (hu : c.isPackage u = true) : c.LeadsThroughPackage l.rootUnit u :=
    (hled _ ((hpackages u).1 hu)).package rfl
  have hrelative (u : String) (hc : c.sources.contains u = true) (hu : c.isPackage u = false) :
      c.LeadsRelatively l.rootUnit u := by
    obtain ⟨⟨name, package⟩, hmem, rfl⟩ := (hsources u).1 hc
    cases package with
    | true => exact absurd ((hpackages name).2 hmem) (by simp [hu])
    | false => exact (hled _ hmem).relative rfl
  refine ⟨⟨order, horder, fun other hother => hother.unique horder, fun u => ⟨?_, hpackages u⟩⟩,
    fun u hu => ⟨hpackage u, hrelative u hu, fun hboth => ⟨hpackage u, fun hthrough => ?_⟩⟩⟩
  · rw [hsources u]
    constructor
    · rintro ⟨⟨name, package⟩, hmem, rfl⟩
      exact ⟨package, hmem⟩
    · rintro ⟨package, hmem⟩
      exact ⟨_, hmem, rfl⟩
  · by_contra hne
    exact hboth ⟨hthrough, hrelative u hu (by simpa using hne)⟩

/-- A root that imports a file in both ways, the relative one first. -/
def relativeFirst : MemoryFiles := .ofList [("M", "import './A'; import 'A';"), ("A", "")]

/-- A root that imports a file in both ways, the relative one last. -/
def relativeLast : MemoryFiles := .ofList [("M", "import 'A'; import './A';"), ("A", "")]

theorem packages_exact_relativeLast :
    let l := ofRoot ⟨relativeLast.view, .disabled, {}⟩ ⟨"M"⟩
    let c : Collected :=
      ⟨.ofList [("M", "import 'A'; import './A';"), ("A", "")], .ofList [("A", ())]⟩
    l.collect = .ok c ∧
    (∃ order, l.BreadthFirst order ∧ (∀ other, l.BreadthFirst other → other = order) ∧
      ∀ u, (c.sources.contains u = true ↔ ∃ package, ⟨u, package⟩ ∈ order) ∧
        (c.isPackage u = true ↔ ⟨u, true⟩ ∈ order)) ∧
    c.LeadsThroughPackage "M" "A" ∧ c.LeadsRelatively "M" "M" := by
  intro l c
  have hc : l.collect = .ok c := by decide +kernel
  obtain ⟨horder, hunits⟩ := packages_exact l l.bound c hc
  exact ⟨hc, horder, (hunits "A" (by decide)).1 (by decide),
    (hunits "M" (by decide)).2.1 (by decide)⟩

/-- **The order of the imports decides.** A chain with an import that is not relative leads to a
unit that does not belong to a package. With the two imports the other way round it belongs to
one. -/
theorem package_by_order :
    let c : Collected := ⟨.ofList [("M", "import './A'; import 'A';"), ("A", "")], {}⟩
    let c' : Collected :=
      ⟨.ofList [("M", "import 'A'; import './A';"), ("A", "")], .ofList [("A", ())]⟩
    (ofRoot ⟨relativeFirst.view, .disabled, {}⟩ ⟨"M"⟩).collect = .ok c ∧
    c.LeadsThroughPackage "M" "A" ∧ c.isPackage "A" = false ∧
    (ofRoot ⟨relativeLast.view, .disabled, {}⟩ ⟨"M"⟩).collect = .ok c' ∧
    c'.isPackage "A" = true := by
  intro c c'
  have himports : c.Imports "M" "A" "A" :=
    ⟨"import './A'; import 'A';", by decide, by decide +kernel, by decide +kernel⟩
  exact ⟨by decide +kernel, ⟨"M", "A", "A", .refl, himports, by decide +kernel, .refl⟩, by decide,
    by decide +kernel, by decide⟩

end UnitLookup

end ContractBuild
