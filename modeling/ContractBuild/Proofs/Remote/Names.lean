import ContractBuild.Proofs.SearchOrder

/-!
# The name of a reference gives the reference back

A reference into a remote repository is written with a host, an owner, a repository and a path, and
a scheme and `www.` may stand in front of the host (`RemoteRef.Spells`). Its canonical name has
nothing in front, and nothing in it is escaped.

- **What is read back** (`parse?_id_iff`): exactly a reference whose owner and repository are not
  empty and whose path is a normal form on one line.
- **What imports lead to** (`Obtained.isReadable`): a path is normalized when it is read and when it
  is joined, and no line break comes in by an import on one line.

Main statement: `RemoteRef.id_faithful`.
-/

namespace ContractBuild.RemoteRef

open Text ContractBuild.Path

/-! ## What is read back -/

/-- A reference that its name says all about: an owner and a repository that are not empty, and a
path that is a normal form on one line. -/
structure IsReadable (r : RemoteRef) : Prop where
  repository : ∃ owner repo : List Char, owner ≠ [] ∧ '/' ∉ owner ∧ repo ≠ [] ∧ '/' ∉ repo ∧
    r.repository = String.ofList (owner ++ '/' :: repo)
  normal : r.path.normalize = r.path
  line : '\n' ∉ r.path.text.toList

theorem isReadable_of_parse? {raw : String} {r : RemoteRef} (h : parse? raw = some r) :
    r.IsReadable := by
  obtain ⟨owner, repo, path, ⟨howner, hownerSlash, hrepo, hrepoSlash, -⟩, rfl⟩ :=
    parse?_eq_some_iff.mp h
  refine ⟨⟨owner, repo, howner, hownerSlash, hrepo, hrepoSlash, rfl⟩, normalize_normalize _,
    fun hline => ?_⟩
  have hmem : '\n' ∈ path.takeWhile (· != '\n') := by
    simpa using mem_of_mem_normalize (by decide) hline
  simpa using List.mem_takeWhile_imp hmem

/-- **Which references their names give back.** -/
theorem parse?_id_iff {r : RemoteRef} : parse? r.id = some r ↔ r.IsReadable := by
  refine ⟨isReadable_of_parse?, fun h => ?_⟩
  obtain ⟨owner, repo, howner, hownerSlash, hrepo, hrepoSlash, hrepository⟩ := h.repository
  have hid : r.id.toList = "github.com/".toList ++
      (owner ++ '/' :: (repo ++ '/' :: r.path.text.toList)) := by
    simp [id, hrepository]
  have hline : r.path.text.toList.takeWhile (· != '\n') = r.path.text.toList :=
    List.takeWhile_eq_self_iff.mpr fun c hc => by
      rw [bne_iff_ne]
      rintro rfl
      exact h.line hc
  refine parse?_eq_some_iff.mpr ⟨owner, repo, r.path.text.toList, ⟨howner, hownerSlash, hrepo,
    hrepoSlash, "", by simp, "", by simp, by simpa using hid⟩, ?_⟩
  rw [hline, String.ofList_toList, h.normal, ← hrepository]

theorem IsReadable.join {r : RemoteRef} (h : r.IsReadable) {rel : String}
    (hrel : '\n' ∉ rel.toList) : (r.join rel).IsReadable where
  repository := h.repository
  normal := normalize_normalize _
  line hmem := by
    rcases mem_of_mem_join (by decide) (mem_of_mem_normalize (by decide) hmem) with hmem | hmem
    · exact h.line (mem_of_mem_directory (by decide) hmem)
    · exact hrel hmem

/-! ## What imports lead to -/

/-- References that can be come by: what is read, and what an import means in the file of another
one. Only imports of a kind are followed. -/
inductive Obtained (allowed : String → Prop) : RemoteRef → Prop where
  | read {raw : String} {r : RemoteRef} : parse? raw = some r → Obtained allowed r
  | joined {r : RemoteRef} {rel : String} :
      Obtained allowed r → allowed rel → Obtained allowed (r.join rel)

/-- An import on one line. -/
def OnOneLine (rel : String) : Prop := '\n' ∉ rel.toList

theorem Obtained.isReadable {r : RemoteRef} (h : Obtained OnOneLine r) : r.IsReadable := by
  induction h with
  | read hread => exact isReadable_of_parse? hread
  | joined _ hrel ih => exact ih.join hrel

/-- **The name of a reference gives the reference back.** For all references that can be come by
with imports on one line, what is read from the name is the reference; so two of them have the same
name only if they are the same. What can be read is spelled by an owner, a repository and a path,
and all spellings of them, with any scheme and with `www.` or without, are one reference with one
name. -/
theorem id_faithful :
    (∀ r, Obtained OnOneLine r → parse? r.id = some r) ∧
    (∀ a b, Obtained OnOneLine a → Obtained OnOneLine b → a.id = b.id → a = b) ∧
    (∀ raw r, parse? raw = some r → ∃ owner repo path, Spells raw owner repo path) ∧
    ∀ owner repo path raw other, Spells raw owner repo path → Spells other owner repo path →
      ∃ r, parse? raw = some r ∧ parse? other = some r := by
  have hback : ∀ r, Obtained OnOneLine r → parse? r.id = some r := fun r hr =>
    parse?_id_iff.mpr hr.isReadable
  refine ⟨hback, fun a b ha hb hid => ?_, fun raw r hread => ?_,
    fun owner repo path raw other hraw hother => ?_⟩
  · have hsame : some a = some b := (hback a ha).symm.trans (hid ▸ hback b hb)
    exact Option.some.inj hsame
  · obtain ⟨owner, repo, path, hspells, -⟩ := parse?_eq_some_iff.mp hread
    exact ⟨owner, repo, path, hspells⟩
  · exact ⟨_, parse?_eq_some_iff.mpr ⟨owner, repo, path, hraw, rfl⟩,
      parse?_eq_some_iff.mpr ⟨owner, repo, path, hother, rfl⟩⟩

/-- A file above the repository, imported by one that was named by its full address. -/
theorem id_faithful_sibling :
    let x : RemoteRef := ⟨"o/r", ⟨"a/X.sol"⟩⟩
    let y : RemoteRef := ⟨"o/r", ⟨"../b/Y.sol"⟩⟩
    parse? "https://www.github.com/o/r/a/X.sol" = some x ∧
    parse? "http://github.com/o/r/a/X.sol" = some x ∧
    x.join "../../b/Y.sol" = y ∧ Obtained OnOneLine y ∧
    y.id = "github.com/o/r/../b/Y.sol" ∧ parse? y.id = some y := by
  intro x y
  have hread : parse? "https://www.github.com/o/r/a/X.sol" = some x := by decide +kernel
  have hjoin : x.join "../../b/Y.sol" = y := by decide +kernel
  have hline : OnOneLine "../../b/Y.sol" := by
    unfold OnOneLine
    decide
  have hy : Obtained OnOneLine y := hjoin ▸ .joined (.read hread) hline
  obtain ⟨hback, -, -, hsame⟩ := id_faithful
  have hplain : parse? "http://github.com/o/r/a/X.sol" = some x := by
    obtain ⟨r, hr, hother⟩ := hsame ['o'] ['r'] "a/X.sol".toList
      "https://www.github.com/o/r/a/X.sol" "http://github.com/o/r/a/X.sol"
      ⟨by decide, by decide, by decide, by decide, "https://", by decide, "www.", by decide,
        by decide⟩
      ⟨by decide, by decide, by decide, by decide, "http://", by decide, "", by decide, by decide⟩
    rw [hother, ← hr, hread]
  exact ⟨hread, hplain, hjoin, hy, by decide +kernel, hback y hy⟩

end ContractBuild.RemoteRef
