import ContractBuild.Proofs.JoinedPath
import ContractBuild.Sandbox.Layout

/-!
# Units stay inside the project

A unit is written where its steps lead from `contracts`, or from `node_modules` for a unit of a
package. `Sandbox.depth` counts how far below the project steps lead, whatever is passed on the way,
and says which units have no place.

- **One step after the other** (`descend_error_iff`, `descend_ok`): the names that are kept never
  fall below the floor, and those at the floor are never touched.
- **The place of a unit** (`unitNames_ok`): the names are plain, so they are steps of the path that
  they are joined to.

Main statement: `Sandbox.unitPath_contained`.
-/

namespace ContractBuild

namespace Sandbox

open ContractBuild.Path

/-! ## One step after the other -/

/-- Whether a step goes down. -/
def isName : Component → Bool
  | .name _ => true
  | _ => false

/-- How far below the project steps lead from a place that lies `start` names below it, whatever
they pass on the way. -/
def depth (start : Nat) (steps : List Component) : Int :=
  start + steps.countP isName - steps.count .up

@[simp] theorem depth_nil (start : Nat) : depth start [] = start := by simp [depth]

@[simp] theorem depth_name (start : Nat) (s : String) (steps : List Component) :
    depth start (.name s :: steps) = depth (start + 1) steps := by
  have hdown : (Component.name s :: steps).countP isName = steps.countP isName + 1 :=
    List.countP_cons_of_pos rfl
  have hup : (Component.name s :: steps).count .up = steps.count .up :=
    List.count_cons_of_ne (by simp)
  rw [depth, depth, hdown, hup]
  omega

@[simp] theorem depth_here (start : Nat) (steps : List Component) :
    depth start (.here :: steps) = depth start steps := by
  simp [depth, isName]

@[simp] theorem depth_up (start : Nat) (steps : List Component) :
    depth (start + 1) (.up :: steps) = depth start steps := by
  have hdown : (Component.up :: steps).countP isName = steps.countP isName :=
    List.countP_cons_of_neg (by simp [isName])
  have hup : (Component.up :: steps).count .up = steps.count .up + 1 := List.count_cons_self
  rw [depth, depth, hdown, hup]
  omega

/-- Steps that cannot be taken: they start over at the root, go below the floor at some front, or
end at it. -/
def Leaves (floor start : Nat) (steps : List Component) : Prop :=
  .root ∈ steps ∨ (∃ front, front <+: steps ∧ depth start front < floor) ∨
    depth start steps = floor

/-- A first step that stays above the floor only changes where the rest starts from. -/
theorem leaves_cons {floor start next : Nat} {c : Component} (hroot : c ≠ .root)
    (hstart : floor ≤ start) (hdepth : ∀ steps, depth start (c :: steps) = depth next steps)
    (steps : List Component) : Leaves floor start (c :: steps) ↔ Leaves floor next steps := by
  unfold Leaves
  rw [hdepth, List.mem_cons, or_iff_right hroot.symm]
  refine or_congr_right (or_congr_left ⟨?_, ?_⟩)
  · rintro ⟨front, hfront, hlow⟩
    rcases List.prefix_cons_iff.mp hfront with rfl | ⟨behind, rfl, hbehind⟩
    · rw [depth_nil] at hlow
      omega
    · exact ⟨behind, hbehind, by rwa [hdepth] at hlow⟩
  · rintro ⟨front, hfront, hlow⟩
    exact ⟨c :: front, (List.prefix_cons_inj c).mpr hfront, by rwa [hdepth]⟩

/-- **Which steps cannot be taken**, from a place that is not below the floor. -/
theorem descend_error_iff {unit : String} {floor : Nat} {names : List String}
    {steps : List Component} (h : floor ≤ names.length) :
    (∃ e, descend unit floor names steps = .error e) ↔ Leaves floor names.length steps := by
  fun_induction descend unit floor names steps with
  | case1 names hend =>
    refine iff_of_true ⟨_, rfl⟩ (.inr (.inr ?_))
    rw [depth_nil]
    omega
  | case2 names hend =>
    refine iff_of_false (by simp) ?_
    simp only [Leaves, List.not_mem_nil, List.prefix_nil, exists_eq_left, depth_nil, false_or]
    omega
  | case3 names s rest ih =>
    rw [ih (Nat.le_succ_of_le h), leaves_cons (by simp) h fun _ => depth_name ..]
    rfl
  | case4 names rest ih => rw [ih h, leaves_cons (by simp) h fun _ => depth_here ..]
  | case5 names rest hend =>
    refine iff_of_true ⟨_, rfl⟩ (.inr (.inl ⟨[.up], by simp, ?_⟩))
    have hlow : depth names.length [.up] = names.length - 1 := by simp [depth, isName]
    omega
  | case6 names rest hend ih =>
    obtain ⟨s, names, rfl⟩ := List.exists_cons_of_length_pos (by omega : 0 < names.length)
    rw [List.length_cons] at hend
    rw [ih (by omega : floor ≤ names.length), leaves_cons (by simp) h fun _ => depth_up ..]
    rfl
  | case7 names rest => exact iff_of_true ⟨_, rfl⟩ (.inl (by simp))

/-- **What steps that can be taken lead to**: above the floor, with the names at the floor as they
were, and to where the steps lead when parent steps are folded. -/
theorem descend_ok {unit : String} {floor : Nat} {names result : List String}
    {steps : List Component} (h : floor ≤ names.length)
    (hok : descend unit floor names steps = .ok result) :
    floor < result.length ∧ result.reverse.take floor = names.reverse.take floor ∧
      result.map .name = steps.foldl follow (names.map .name) := by
  fun_induction descend unit floor names steps with
  | case1 => cases hok
  | case2 names hend =>
    cases hok
    exact ⟨by omega, rfl, rfl⟩
  | case3 names s rest ih =>
    obtain ⟨hlength, hfloor, hresult⟩ := ih (Nat.le_succ_of_le h) hok
    refine ⟨hlength, ?_, hresult⟩
    rw [hfloor, List.reverse_cons, List.take_append_of_le_length (by simpa using h)]
  | case4 names rest ih => exact ih h hok
  | case5 => cases hok
  | case6 names rest hend ih =>
    obtain ⟨s, names, rfl⟩ := List.exists_cons_of_length_pos (by omega : 0 < names.length)
    rw [List.length_cons] at hend
    have hkept : floor ≤ names.length := by omega
    obtain ⟨hlength, hfloor, hresult⟩ := ih hkept hok
    refine ⟨hlength, ?_, hresult⟩
    rw [hfloor, List.tail_cons, List.reverse_cons,
      List.take_append_of_le_length (by simpa using hkept)]
  | case7 => cases hok

/-! ## The place of a unit -/

theorem isPlain_base (package : Bool) : IsPlain (.name (base package)) := by
  unfold IsPlain
  cases package <;> decide

theorem floor_le (package : Bool) : floor package ≤ [base package].length := by
  cases package <;> decide

/-- The names that lead to a unit are plain, and those of a package's unit stay in the packages. -/
theorem unitNames_ok {unit : String} {package : Bool} {names : List String}
    (h : unitNames unit package = .ok names) :
    names ≠ [] ∧ (∀ s ∈ names, IsPlain (.name s)) ∧
      names.map .name = resolve (.name (base package) :: (Path.mk unit).components) ∧
      (package = true → ∃ s rest, names = "node_modules" :: s :: rest) := by
  cases hd : descend unit (floor package) [base package] (Path.mk unit).components with
  | error e =>
    rw [unitNames, hd] at h
    cases h
  | ok result =>
    rw [unitNames, hd] at h
    cases h
    obtain ⟨hlength, hkept, hresult⟩ := descend_ok (floor_le package) hd
    refine ⟨?_, fun s hs => ?_, ?_, ?_⟩
    · exact List.reverse_ne_nil_iff.mpr (List.ne_nil_of_length_pos (by omega))
    · have hmem : .name s ∈ result.map Component.name :=
        List.mem_map_of_mem (List.mem_reverse.mp hs)
      rw [hresult] at hmem
      rcases mem_foldl_follow hmem with hmem | hmem
      · exact isPlain_of_name_mem_components hmem
      · rw [List.mem_singleton.mp hmem]
        exact isPlain_base package
    · rw [List.map_reverse, hresult]
      rfl
    · rintro rfl
      -- the one name at the floor is that of the packages, and something stands above it
      have hlong : 1 < result.reverse.length := by rwa [List.length_reverse]
      obtain ⟨first, more, hfirst⟩ := List.exists_cons_of_length_pos (Nat.zero_lt_of_lt hlong)
      rw [hfirst, List.length_cons] at hlong
      obtain ⟨s, rest, hmore⟩ := List.exists_cons_of_length_pos (Nat.lt_of_succ_lt_succ hlong)
      have hbase : [first] = [base true] := by simpa [hfirst, floor] using hkept
      exact ⟨s, rest, by rw [hfirst, hmore, List.singleton_inj.mp hbase]; rfl⟩

/-- **Units stay inside the project.** A unit that has a place is written below the directory of
the project, at one or more plain names: those that remain of its steps when parent steps are folded
into `contracts` or `node_modules`. A unit of a package is written below `node_modules`. A unit has
no place exactly if it is absolute, or steps above the project (above `node_modules` for a unit of a
package) at any point, or ends there. -/
theorem unitPath_contained (dir : Path) (unit : String) (package : Bool) :
    let steps := (Path.mk unit).components
    let floor : Nat := if package then 1 else 0
    (∀ p, unitPath dir unit package = .ok p → ∃ names : List String,
      names ≠ [] ∧ (∀ s ∈ names, IsPlain (.name s)) ∧
      p.components = dir.components ++ names.map .name ∧
      names.map .name =
        resolve (.name (if package then "node_modules" else "contracts") :: steps) ∧
      (package = true → ∃ s rest, names = "node_modules" :: s :: rest)) ∧
    ((∃ e, unitPath dir unit package = .error e) ↔
      (Path.mk unit).isAbsolute = true ∨
      (∃ front, front <+: steps ∧ depth 1 front < floor) ∨ depth 1 steps = floor) := by
  intro steps floor
  constructor
  · intro p hp
    cases hn : unitNames unit package with
    | error e =>
      rw [unitPath, hn] at hp
      cases hp
    | ok names =>
      rw [unitPath, hn] at hp
      cases hp
      obtain ⟨hne, hplain, hresolve, hpackage⟩ := unitNames_ok hn
      exact ⟨names, hne, hplain, components_foldl_join hplain dir, hresolve, hpackage⟩
  · have hleaves : (∃ e, descend unit (Sandbox.floor package) [base package] steps = .error e) ↔
        Leaves floor 1 steps := descend_error_iff (floor_le package)
    rw [Leaves, root_mem_components_iff] at hleaves
    refine Iff.trans ?_ hleaves
    rw [unitPath, unitNames]
    cases descend unit (Sandbox.floor package) [base package] steps with
    | error e => exact iff_of_true ⟨e, rfl⟩ ⟨e, rfl⟩
    | ok names => exact iff_of_false (by rintro ⟨e, he⟩; cases he) (by rintro ⟨e, he⟩; cases he)

/-- A unit may step out of `contracts`, and back in, as long as it stays in the project. -/
example : unitPath ⟨"/tmp/box"⟩ "../lib/./Math.sol" false = .ok ⟨"/tmp/box/lib/Math.sol"⟩ :=
  rfl

end Sandbox

end ContractBuild
