import ContractBuild.Proofs.DepthFirst
import ContractBuild.Proofs.FlattenReach

/-!
# How a flattened unit is put together

The licences and the pragma of a unit come from the modules in the order in which they are begun,
and the bodies stand in the order in which they are finished. `Assembled` says all parts of a unit
in these terms.

- **Bytes** (`bytes_lt`): the order of texts is the order of their UTF-8 bytes.
- **Units** (`assembled_of_flatten`): every unit is put together in this way, whatever is behind the
  resolver.

Main statement: `flatten_assembled`, for files in memory and a lenient resolver.
-/

namespace ContractBuild

open Solidity

/-! ## Bytes -/

namespace Text

/-- The bytes of a text in UTF-8. -/
def bytes (s : String) : List UInt8 := s.toUTF8.data.toList

theorem bytes_eq (s : String) : bytes s = s.toList.flatMap String.utf8EncodeChar := by
  conv_lhs => rw [← String.ofList_toList (s := s)]
  rw [bytes, String.toUTF8_eq_toByteArray, String.toByteArray_ofList, List.utf8Encode,
    List.data_toByteArray]

/-- The bytes of a character and those of a greater one differ before either ends, and the first
difference decides. -/
theorem utf8EncodeChar_append_lt {c d : Char} (h : c < d) (a b : List UInt8) :
    String.utf8EncodeChar c ++ a < String.utf8EncodeChar d ++ b := by
  have hlt : c.val.toNat < d.val.toNat := h
  have hmax : d.val.toNat < 0x110000 := by
    rcases d.valid with hd | hd <;> omega
  unfold String.utf8EncodeChar
  dsimp only
  generalize c.val.toNat = m at hlt ⊢
  generalize d.val.toNat = n at hlt hmax ⊢
  -- one case for each pair of lengths; a longer form starts with a greater byte
  split_ifs <;>
    simp (disch := omega) only [List.cons_append, List.nil_append, List.cons_lt_cons_iff,
      UInt8.lt_iff_toNat_lt, ← UInt8.toNat_inj, UInt8.toNat_ofNat', Nat.mod_eq_of_lt] <;>
    omega

/-- **The order of texts is the order of their bytes.** -/
theorem bytes_lt {s t : String} (h : s < t) : bytes s < bytes t := by
  rw [bytes_eq, bytes_eq]
  replace h : s.toList < t.toList := h
  generalize s.toList = a at h ⊢
  generalize t.toList = b at h ⊢
  induction a generalizing b with
  | nil =>
    cases b with
    | nil => exact absurd h (List.not_lt_nil _)
    | cons d b =>
      obtain ⟨first, more, heq⟩ :=
        List.exists_cons_of_ne_nil (String.utf8EncodeChar_ne_nil (c := d))
      rw [List.flatMap_nil, List.flatMap_cons, heq]
      exact List.nil_lt_cons ..
  | cons c a ih =>
    cases b with
    | nil => exact absurd h (List.not_lt_nil _)
    | cons d b =>
      rw [List.flatMap_cons, List.flatMap_cons]
      rcases List.cons_lt_cons_iff.1 h with hlt | ⟨rfl, hrest⟩
      · exact utf8EncodeChar_append_lt hlt _ _
      · exact List.append_left_lt (ih b hrest)

end Text

/-! ## Units -/

/-- The keys of a dictionary ascend. -/
theorem Dict.pairwise_keys {α : Type} (d : Dict α) : d.keys.Pairwise (· < ·) :=
  List.pairwise_map.2 d.ascending

/-- No more files can be fetched than the size of the remote says. -/
def Remote.Counted (remote : Remote) : Prop :=
  ∃ ids : Finset String, ids.card ≤ remote.size ∧
    ∀ ref text, remote.fetch ref = .ok text → ref.id ∈ ids

theorem Remote.counted_ofDict (files : Dict String) : (Remote.ofDict files).Counted := by
  refine ⟨files.keys.toFinset, ?_, fun ref text h => List.mem_toFinset.2 (mem_keys_of_fetch h)⟩
  have hcard := List.toFinset_card_le files.keys
  exact hcard.trans ((List.length_map _).trans_le (MemoryFiles.length_le_weight files))

/-- Bodies with a blank line between each two of them and a line break at the end; nothing if there
are none. -/
def joinBodies (bodies : List String) : String :=
  if bodies = [] then "" else "\n\n".intercalate bodies ++ "\n"

namespace Resolver

/-- `r.Assembled start out first rest emitted`: the unit `out` is put together from the module
`first` at `start` and the modules of `rest`, which are begun in this order. They are finished in
the order of `emitted`. -/
structure Assembled (r : Resolver) (start : Location) (out : Flattened) (first : SourceModule)
    (rest emitted : List SourceModule) : Prop where
  /-- This is the one order in which modules are begun. -/
  order : ∀ order, r.DepthFirst ∅ [start] order ↔ order = first :: rest
  finished : emitted.Perm (first :: rest)
  modules : out.modules = emitted.map (·.id)
  distinct : out.modules.Nodup
  /-- The licences of the modules and no others, each once and in ascending order of their bytes. -/
  license : ∃ merged : List String, merged.Pairwise (fun a b => Text.bytes a < Text.bytes b) ∧
    (∀ l, l ∈ merged ↔ ∃ m ∈ emitted, l ∈ m.licenses) ∧
    out.license = if merged = [] then "UNLICENSED" else " AND ".intercalate merged
  /-- The pragma of the root, or else that of the first module that has one. -/
  pragma : out.pragma = first.pragma.or (rest.findSome? (·.pragma))
  text : out.text = "// SPDX-License-Identifier: " ++ out.license ++ "\n" ++
    out.pragma.elim "" (· ++ "\n\n") ++ joinBodies ((emitted.map (·.body)).filter (! ·.isEmpty))
  count : out.moduleCount = .ofNat out.modules.length

variable {r : Resolver}

/-- The licences that a tour from an empty graph leaves. -/
theorem Toured.mem_licenses {locs : List Location} {order : List SourceModule} {g : Graph}
    (h : r.Toured .empty locs order g) (l : String) :
    l ∈ g.licenses.keys ↔ ∃ m ∈ order, l ∈ m.licenses := by
  have hcontains : g.licenses.contains l = (order.flatMap (·.licenses)).contains l := by
    rw [h.licenses, KeySet.contains_addAll]
    exact Bool.or_false _
  calc l ∈ g.licenses.keys
    _ ↔ g.licenses.contains l = true := ⟨Dict.contains_of_mem_keys, Dict.mem_keys_of_contains⟩
    _ ↔ l ∈ order.flatMap (·.licenses) := by rw [hcontains, List.contains_iff_mem]
    _ ↔ ∃ m ∈ order, l ∈ m.licenses := List.mem_flatMap

theorem unitText_eq (g : Graph) :
    g.unitText = "// SPDX-License-Identifier: " ++ g.license ++ "\n" ++
      g.pragma.elim "" (· ++ "\n\n") ++ joinBodies g.bodies := by
  unfold Graph.unitText joinBodies
  cases g.pragma <;> cases g.bodies <;> rfl

/-- **Every unit is assembled** from the modules that are begun, the root first. -/
theorem assembled_of_flatten {root : Path} {out : Flattened} (h : r.flatten root = .ok out) :
    ∃ text rest emitted, r.load (r.rootLocation root) = .ok text ∧
      r.Assembled (r.rootLocation root) out (.parse (r.rootLocation root).id text) rest
        emitted := by
  unfold flatten at h
  split at h
  · cases h
  · rename_i g hg
    cases h
    obtain ⟨text, rest, hread, htour⟩ := toured_of_visit hg
    obtain ⟨new, hmodules, hperm, hbody⟩ := htour.modules
    obtain rfl : g.modules = new := hmodules
    obtain ⟨i, new, hgrown, hnew, -⟩ := grown_of_visit hg
    have hbodies : g.modules.map (·.body) = (g.modules.map asRead).map (·.body) := by
      rw [List.map_map]
      exact List.map_congr_left hbody
    refine ⟨text, rest, g.modules.map asRead, hread, ?_⟩
    constructor
    case order =>
      intro order
      have horder := htour.before [] [] .done
      rw [List.append_nil, List.append_nil] at horder
      exact ⟨fun h => h.unique horder, fun h => h ▸ horder⟩
    case finished => exact hperm
    case modules =>
      rw [List.map_map]
      rfl
    case distinct =>
      show (g.modules.map (·.id)).Nodup
      rw [hnew]
      exact hgrown.nodup
    case license =>
      refine ⟨g.licenses.keys, g.licenses.pairwise_keys.imp Text.bytes_lt, fun l => ?_, ?_⟩
      · rw [htour.mem_licenses]
        exact exists_congr fun m => and_congr_left fun _ => hperm.mem_iff.symm
      · show mergeLicenses g.licenses.keys = _
        cases g.licenses.keys <;> rfl
    case pragma =>
      have hpragma := htour.pragma
      rw [← List.singleton_append, List.findSome?_append, List.findSome?_singleton] at hpragma
      exact hpragma
    case text =>
      rw [← hbodies]
      exact unitText_eq g
    case count => simp [Graph.flattened]

/-- **A unit is assembled from the modules that are begun.** For files in memory, any remote and a
lenient resolver: a root that can be read has a unit, if the remote has no more files than it says,
and every unit is put together from the root and what is begun behind it. -/
theorem flatten_assembled (files : MemoryFiles) (remote : Remote) (dirs : List String)
    (root : Path) :
    let r : Resolver := ⟨files.view, remote, { dependencyDirs := dirs, strict := false }⟩
    let start := r.rootLocation root
    ∀ text, r.load start = .ok text →
      (remote.Counted → ∃ out, r.flatten root = .ok out) ∧
      ∀ out, r.flatten root = .ok out →
        ∃ rest emitted, r.Assembled start out (.parse start.id text) rest emitted := by
  intro r start text hread
  refine ⟨fun ⟨ids, hcard, hids⟩ => ?_, fun out hout => ?_⟩
  · have hbound : (fileIds files ∪ ids).card < r.bound :=
      Nat.lt_succ_of_le ((Finset.card_union_le _ _).trans
        (Nat.add_le_add (card_fileIds_le files) hcard))
    obtain ⟨g, hg⟩ := visit_ok (bounded_memory files hids rfl) hbound hread
    exact ⟨g.flattened, flatten_of_visit hg⟩
  · obtain ⟨text', rest, emitted, hread', hassembled⟩ := assembled_of_flatten hout
    cases hread.symm.trans hread'
    exact ⟨rest, emitted, hassembled⟩

/-- Files with licences: the root has no directives, two files have a pragma, and one is not
imported. -/
def licensedFiles : MemoryFiles := .ofList
  [("M", "import './A'; import 'github.com/o/r/G'; M"),
    ("A", "// SPDX-License-Identifier: MIT\npragma solidity ^8;import './C'; A"),
    ("C", "pragma solidity 8;import './M';"), ("D", "// SPDX-License-Identifier: BSD\n")]

/-- A licensed remote file. -/
def licensedRemote : Dict String :=
  .ofList [("github.com/o/r/G", "// SPDX-License-Identifier: GPL\nG")]

/-- The pragma is that of the file that is begun first, and a body without a text leaves no gap. -/
theorem flatten_assembled_licensed :
    let r : Resolver := ⟨licensedFiles.view, .ofDict licensedRemote, { dependencyDirs := [] }⟩
    let start := r.rootLocation ⟨"M"⟩
    ∃ text out, r.load start = .ok text ∧ r.flatten ⟨"M"⟩ = .ok out ∧
      out.modules = ["C", "A", "github.com/o/r/G", "M"] ∧
      out.license = "GPL AND MIT" ∧
      out.pragma = some "pragma solidity ^8;" ∧
      out.text = "// SPDX-License-Identifier: GPL AND MIT\npragma solidity ^8;\n\nA\n\nG\n\nM\n" ∧
      ∃ rest emitted, r.Assembled start out (.parse start.id text) rest emitted := by
  intro r start
  have hload : (r.load start).toOption.isSome = true := by decide +kernel
  have hparts : (r.flatten ⟨"M"⟩).toOption.map
        (fun out => (out.modules, out.license, out.pragma, out.text)) =
      some (["C", "A", "github.com/o/r/G", "M"], "GPL AND MIT", some "pragma solidity ^8;",
        "// SPDX-License-Identifier: GPL AND MIT\npragma solidity ^8;\n\nA\n\nG\n\nM\n") := by
    decide +kernel
  cases hread : r.load start with
  | error cause =>
    rw [hread] at hload
    cases hload
  | ok text =>
    obtain ⟨hends, hall⟩ :=
      flatten_assembled licensedFiles (.ofDict licensedRemote) [] ⟨"M"⟩ text hread
    obtain ⟨out, hout⟩ := hends (Remote.counted_ofDict licensedRemote)
    replace hout : r.flatten ⟨"M"⟩ = .ok out := hout
    rw [hout] at hparts
    simp only [Except.toOption, Option.map_some, Option.some.injEq, Prod.mk.injEq] at hparts
    obtain ⟨hmodules, hlicense, hpragma, htext⟩ := hparts
    exact ⟨text, out, rfl, hout, hmodules, hlicense, hpragma, htext, hall out hout⟩

end Resolver

end ContractBuild
