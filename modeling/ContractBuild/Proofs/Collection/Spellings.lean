import ContractBuild.Proofs.Collection.RelativeUnits

/-!
# How collected units are spelled

Two names can lead to the same file and still be different units. How far apart they can be depends
on how a unit is reached.

- **Names** (`Spelled`): a unit other than the root is a normal form, or it is taken as it is
  written from an import that is not relative to its importer. Then it belongs to a package, or is
  absolute.
- **The root** (`normalize_rootUnit`): the name of a root that is a file is a normal form.
- **Texts** (`find_congr`): names with one normal form that are looked for in the dependency
  directories have the same text. So only a name that is read as a reference to a remote repository
  has a text of its own.
-/

namespace ContractBuild

open Solidity ContractBuild.Path

/-! ## Names -/

theorem Path.components_name {s : String} (h : IsPlain (.name s)) :
    (Path.mk s).components = [.name s] := by
  have hread := @components_ofComponents [.name s] (by simpa using h)
  rwa [ofComponents_name] at hread

namespace UnitLookup

variable {l : UnitLookup} {n : Nat} {c : Collected}

/-- How a unit is spelled: it is the root or a normal form, or it is taken as it is written. A unit
that is taken as it is written belongs to a package unless it is absolute. -/
def Spelled (l : UnitLookup) (name : String) (package : Bool) : Prop :=
  name = l.rootUnit ∨ (Path.mk name).normalize = ⟨name⟩ ∨
    startsRelative name = false ∧ (package = false → (Path.mk name).isAbsolute = true)

theorem Spelled.mono {name : String} {package package' : Bool} (h : l.Spelled name package)
    (hp : package' = false → package = false) : l.Spelled name package' :=
  h.imp_right (Or.imp_right (And.imp_right fun ha hp' => ha (hp hp')))

/-- What a unit imports is spelled so. -/
theorem spelled_of_mem_nextUnits {u v : PendingUnit} {text : String} (h : v ∈ nextUnits c u text) :
    l.Spelled v.name v.package := by
  obtain ⟨raw, -, hname, hpackage⟩ := mem_nextUnits h
  rw [hname, hpackage, unitName]
  cases hr : startsRelative raw with
  | true => exact .inr (.inl (normalize_normalize _))
  | false =>
    refine .inr (.inr ⟨hr, fun hfalse => ?_⟩)
    rw [Bool.or_eq_false_iff, bne_eq_false_iff_eq] at hfalse
    by_contra ha
    have ha : (raw.toList.head? == some '/') = false := by simpa [isAbsolute] using ha
    have hkind := hfalse.2
    rw [ImportKind.of, hr, ha] at hkind
    split at hkind
    · rename_i hfalse
      cases hfalse
    · split at hkind <;> cases hkind

/-- **How every collected unit is spelled.** -/
theorem spelled_of_run (h : l.run n l.start = .ok c) {name : String}
    (hname : c.sources.contains name = true) : l.Spelled name (c.packages.contains name) := by
  have hend : (∀ u ∈ ([] : List PendingUnit), l.Spelled u.name u.package) ∧
      ∀ name, c.sources.contains name = true → l.Spelled name (c.packages.contains name) := by
    refine run_ok (motive := fun w => (∀ u ∈ w.pending, l.Spelled u.name u.package) ∧
      ∀ name, w.collected.sources.contains name = true →
        l.Spelled name (w.collected.packages.contains name)) ?_ ⟨?_, ?_⟩ h
    · rintro u rest c w ⟨hpending, hcollected⟩ hs
      obtain ⟨hu, hrest⟩ := List.forall_mem_cons.mp hpending
      rcases step_cases hs with ⟨-, rfl⟩ | ⟨-, text, -, rfl⟩ | ⟨-, -, rfl⟩
      · exact ⟨hrest, hcollected⟩
      · refine ⟨fun v hv => ?_, fun name hname => ?_⟩
        · rcases List.mem_append.mp hv with hv | hv
          · exact hrest v hv
          · exact spelled_of_mem_nextUnits hv
        · by_cases he : name = u.name
          · subst he
            refine hu.mono fun hfalse => ?_
            by_contra hpackage
            rw [add, if_pos (by simpa using hpackage), KeySet.contains_add, beq_self_eq_true]
              at hfalse
            cases hfalse
          · rw [contains_add, beq_eq_false_iff_ne.mpr he, Bool.false_or] at hname
            refine (hcollected name hname).mono fun hfalse => ?_
            rw [add] at hfalse
            split at hfalse
            · rwa [KeySet.contains_add, beq_eq_false_iff_ne.mpr he, Bool.false_or] at hfalse
            · exact hfalse
      · exact ⟨hrest, hcollected⟩
    · intro u hu
      rw [List.mem_singleton.mp hu]
      exact .inl rfl
    · intro name hname
      cases hname
  exact hend.2 name hname

/-- The name of a root that is a file is a normal form. -/
theorem normalize_rootUnit {p : Path} (hb : l.base = .file p) (hp : p.normalize = p) :
    (Path.mk l.rootUnit).normalize = ⟨l.rootUnit⟩ := by
  unfold rootUnit
  rw [hb]
  dsimp only
  cases hname : p.fileName? with
  | none => exact hp
  | some s =>
    obtain ⟨before, ht⟩ := trail_of_fileName? hp hname
    have hplain : IsPlain (.name s) := isPlain_of_mem_trail (by rw [ht]; simp) (by simp)
    rw [Option.getD_some, Path.normalize, components_name hplain]
    exact ofComponents_name s

end UnitLookup

/-! ## Texts -/

namespace Resolver

variable {r : Resolver}

theorem candidates_congr {u v : String} (hu : (Path.mk u).isAbsolute = false)
    (hv : (Path.mk v).isAbsolute = false) (h : (Path.mk u).trail = (Path.mk v).trail) (dir : Path) :
    (dir.join ⟨u⟩).normalize = (dir.join ⟨v⟩).normalize := by
  refine normalize_eq_of_trail ?_
  rw [trail_join_trail hu, trail_join_trail hv, h]

/-- Names with one normal form are found at the same place in the dependency directories. -/
theorem locate_congr {u v : String} (hu : (Path.mk u).isAbsolute = false)
    (hv : (Path.mk v).isAbsolute = false) (h : (Path.mk u).trail = (Path.mk v).trail)
    (hku : ImportKind.of u = .dependencyRoot) (hkv : ImportKind.of v = .dependencyRoot)
    (base : Location) : r.locate base u = r.locate base v := by
  have hjoin := candidates_congr hu hv h
  have hdependency (start : Path) :
      r.dependencyCandidates start u = r.dependencyCandidates start v := by
    simp only [dependencyCandidates, hjoin]
  cases base with
  | file p => simp only [locate, hku, hkv, locateFile?, candidates, hjoin, hdependency]
  | remote ref =>
    simp only [locate, hku, hkv, locateDependency?, hdependency, RemoteRef.join, hjoin]

end Resolver

namespace UnitLookup

variable {l : UnitLookup}

/-- **Names with one normal form that are looked for in the dependency directories have the same
text.** -/
theorem find_congr {u v text text' : String} (hu : (Path.mk u).isAbsolute = false)
    (hv : (Path.mk v).isAbsolute = false) (h : (Path.mk u).trail = (Path.mk v).trail)
    (hku : ImportKind.of u = .dependencyRoot) (hkv : ImportKind.of v = .dependencyRoot)
    (hne : u ≠ l.rootUnit) (hne' : v ≠ l.rootUnit) (hf : l.find u = .ok text)
    (hf' : l.find v = .ok text') : text = text' := by
  obtain ⟨-, loc, hloc, hload⟩ := (find_ok hf).resolve_left fun h => hne h.1
  obtain ⟨-, loc', hloc', hload'⟩ := (find_ok hf').resolve_left fun h => hne' h.1
  rw [Resolver.locate_congr hu hv h hku hkv, hloc', Option.some.injEq] at hloc
  rw [← hloc, hload'] at hload
  exact (Except.ok.inj hload).symm

end UnitLookup

end ContractBuild
