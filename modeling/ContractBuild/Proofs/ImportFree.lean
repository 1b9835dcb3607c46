import ContractBuild.Proofs.Directives.Search
import ContractBuild.Proofs.FlattenReach
import ContractBuild.Proofs.ImportWords
import ContractBuild.Proofs.Strictness

/-!
# Flattened units without import statements

A flattened unit is a licence line, a version pragma and the bodies of the modules, one after the
other. Each of them is clear if the import statements of every text that was read stand apart, and
so is the unit. Without that a statement may be left (`flatten_leaves_import`).

- **Licence lines** (`oneLine_of_mem_declaredLicenses`): a declared licence stays on its line.
- **Walks** (`Graph.Gathered`, `Resolver.gathered_of_visit`): the bodies, the pragma and the
  licences that a walk has gathered come from texts that it has read.

Main statement: `flatten_importless`.
-/

namespace ContractBuild

open Solidity Text

/-! ## Licence lines -/

/-- What is found in a text was recognised at some position of it. -/
theorem Text.Pattern.exists_of_mem_values {α : Type} {p : Pattern α} {cs : List Char} {v : α}
    (h : v ∈ p.values cs) : ∃ before rest hit, p before rest = some hit ∧ hit.value = v := by
  rw [Pattern.values, Pattern.split] at h
  generalize none = before at h
  fun_induction Pattern.pieces p before cs with
  | case1 => cases h
  | case2 before c cs hit hp more ih =>
    rcases List.mem_cons.1 h with rfl | h
    · exact ⟨before, c :: cs, hit, hp, rfl⟩
    · exact ih h
  | case3 before c cs hp ih => exact ih h

namespace Solidity

theorem mem_of_mem_dropEndWhile {p : Char → Bool} {cs : List Char} {c : Char}
    (h : c ∈ dropEndWhile p cs) : c ∈ cs := by
  rw [dropEndWhile, List.mem_reverse] at h
  exact List.mem_reverse.1 ((List.dropWhile_sublist p).subset h)

theorem mem_of_mem_dropReturn {cs : List Char} {c : Char} (h : c ∈ dropReturn cs) : c ∈ cs := by
  unfold dropReturn at h
  split at h
  · exact List.dropLast_subset cs h
  · exact h

theorem dropClosersReversed_suffix (cs : List Char) : dropClosersReversed cs <:+ cs := by
  fun_induction dropClosersReversed cs with
  | case1 rest ih => exact ih.trans ⟨['/', '*'], rfl⟩
  | case2 cs => exact List.suffix_rfl

/-- **A declared licence stays on its line.** -/
theorem oneLine_of_mem_declaredLicenses {text license : String}
    (h : license ∈ declaredLicenses text) : '\n' ∉ license.toList := by
  obtain ⟨expression, hmem, rfl⟩ := List.mem_map.1 (List.mem_of_mem_filter h)
  obtain ⟨before, rest, hit, hline, rfl⟩ := Pattern.exists_of_mem_values hmem
  simp only [licenseLine, Option.bind_eq_bind, Option.bind_eq_some_iff, Option.pure_def,
    Option.some.injEq] at hline
  obtain ⟨more, -, rfl⟩ := hline
  rw [String.toList_ofList, Hit.value_upTo]
  intro hbreak
  have hclosers := (List.dropWhile_sublist _).subset (mem_of_mem_dropEndWhile hbreak)
  rw [dropClosers, List.mem_reverse] at hclosers
  have hexpression := List.mem_reverse.1 ((dropClosersReversed_suffix _).subset hclosers)
  have hfront := mem_of_mem_dropReturn (mem_of_mem_dropEndWhile hexpression)
  have hin := (List.dropWhile_sublist _).subset hfront
  simpa using List.mem_takeWhile_imp hin

end Solidity

/-! ## What a walk gathers -/

/-- `g.Gathered P`: the bodies, the pragma and the licences that were gathered come from texts of
which `P` holds. -/
structure Graph.Gathered (P : String → Prop) (g : Graph) : Prop where
  bodies : ∀ m ∈ g.modules, ∃ text, P text ∧ m.body = stripDirectives text
  pragma : ∀ p, g.pragma = some p → ∃ text, P text ∧ pragma? text = some p
  licenses : ∀ l, g.licenses.contains l = true → ∃ text, P text ∧ l ∈ declaredLicenses text

namespace Graph.Gathered

variable {P : String → Prop} {g : Graph}

theorem empty : Gathered P .empty := ⟨nofun, nofun, nofun⟩

theorem report (h : g.Gathered P) (d : ResolutionDiagnostic) : (g.report d).Gathered P :=
  ⟨h.bodies, h.pragma, h.licenses⟩

theorem claim (h : g.Gathered P) (id : String) : (g.claim id).Gathered P :=
  ⟨h.bodies, h.pragma, h.licenses⟩

/-- The directives of a text are counted. -/
theorem begin {text : String} (h : g.Gathered P) (htext : P text) (id : String) :
    (g.begin (.parse id text)).Gathered P where
  bodies := h.bodies
  pragma p hp := by
    rcases Option.or_eq_some_iff.1 hp with hp | ⟨-, hp⟩
    · exact h.pragma p hp
    · exact ⟨text, htext, hp⟩
  licenses l hl := by
    have hadded := KeySet.contains_addAll g.licenses (declaredLicenses text) l
    rcases Bool.or_eq_true_iff.1 (hadded.symm.trans hl) with hl | hl
    · exact ⟨text, htext, List.contains_iff_mem.1 hl⟩
    · exact h.licenses l hl

/-- A module is finished. -/
theorem push {loc : Location} {text : String} {imports : List ImportReference} (h : g.Gathered P)
    (htext : P text) : (g.push (moduleAt loc text imports)).Gathered P where
  bodies m hm := by
    rw [modules_push, List.mem_append, List.mem_singleton] at hm
    rcases hm with hm | rfl
    · exact h.bodies m hm
    · exact ⟨text, htext, rfl⟩
  pragma := h.pragma
  licenses := h.licenses

end Graph.Gathered

namespace Resolver

variable {r : Resolver} {root : Location} {P : String → Prop}

/-- **A walk without an error gathers from the texts that it reads.** -/
theorem Walked.gathered
    (hP : ∀ loc text, r.Reachable root loc → r.load loc = .ok text → P text)
    {loc : Location} {is is' : List ImportReference} {g g' : Graph} (h : r.Walked loc is g is' g')
    {text : String} (hloc : r.Reachable root loc) (hread : r.load loc = .ok text)
    (hi : ∀ i ∈ is, i.raw ∈ importPaths text) (hg : g.Gathered P) : g'.Gathered P := by
  induction h generalizing text with
  | done => exact hg
  | missing _ left _ ih =>
    obtain ⟨-, d, rfl⟩ := unresolved_ok left
    exact ih hloc hread (List.forall_mem_cons.1 hi).2 (hg.report d)
  | seen _ _ _ ih => exact ih hloc hread (List.forall_mem_cons.1 hi).2 hg
  | @entered _ target text' _ _ _ _ _ _ _ located fresh read below later ihb ih =>
    obtain ⟨hraw, hrest⟩ := List.forall_mem_cons.1 hi
    have htarget : r.Reachable root target :=
      .step hloc hread hraw located fun ref he => ⟨text', by rw [he] at read; exact read⟩
    have htext := hP target text' htarget read
    have hbelow := ihb htarget read (by simp [SourceModule.parse]) (hg.begin htext target.id)
    exact ih hloc hread hrest (hbelow.push htext)
  | failed _ _ _ left _ ih =>
    obtain ⟨-, d, rfl⟩ := unresolved_ok left
    exact ih hloc hread (List.forall_mem_cons.1 hi).2 ((hg.claim _).report d)

theorem gathered_of_visit
    (hP : ∀ loc text, r.Reachable root loc → r.load loc = .ok text → P text) {g : Graph}
    (h : r.visit root .empty = ⟨g, none⟩) : g.Gathered P := by
  obtain ⟨text, imports, g₁, read, hwalked, rfl⟩ := walked_of_visit rfl h
  have htext := hP root text .root read
  have hbelow := hwalked.gathered hP .root read (by simp [SourceModule.parse])
    (Graph.Gathered.empty.begin htext root.id)
  exact hbelow.push htext

end Resolver

/-! ## The unit -/

theorem oneLine_mergeLicenses {licenses : List String} (h : ∀ l ∈ licenses, '\n' ∉ l.toList) :
    '\n' ∉ (mergeLicenses licenses).toList := by
  unfold mergeLicenses
  split
  · decide
  · have hlines : ∀ l ∈ licenses.map String.toList, l.all (· != '\n') = true := by
      refine List.forall_mem_map.2 fun l hl => List.all_eq_true.2 fun c hc => bne_iff_ne.2 ?_
      rintro rfl
      exact h l hl hc
    have hsep : " AND ".toList.all (· != '\n') = true := by decide
    have hall := all_intercalate hsep hlines
    rw [String.toList_intercalate]
    intro hbreak
    simpa using List.all_eq_true.1 hall _ hbreak

/-- **The unit of a graph is clear,** if the import statements of the texts stand apart. -/
theorem Graph.Gathered.clear_unitText {g : Graph} (h : g.Gathered ImportsApart) :
    Clear g.unitText.toList := by
  have hlicense : '\n' ∉ g.license.toList := by
    refine oneLine_mergeLicenses fun l hl => ?_
    obtain ⟨text, -, hmem⟩ := h.licenses l (Dict.contains_of_mem_keys hl)
    exact oneLine_of_mem_declaredLicenses hmem
  have hheader : Clear ("// SPDX-License-Identifier: " ++ g.license).toList := by
    rw [String.toList_append]
    refine Clear.lineComment (t := " SPDX-License-Identifier: ".toList ++ g.license.toList) ?_
    exact List.mem_append.not.2 (not_or.2 ⟨by decide, hlicense⟩)
  have hbodies : Clear (['\n', '\n'].intercalate (g.bodies.map String.toList)) := by
    refine .intercalate (List.forall_mem_map.2 fun body hbody => ?_)
    obtain ⟨m, hm, rfl⟩ := List.mem_map.1 (List.mem_of_mem_filter hbody)
    obtain ⟨text, htext, hstripped⟩ := h.bodies m hm
    rw [hstripped]
    exact htext.clear_body
  have hrest :
      Clear (if g.bodies.isEmpty then "" else "\n\n".intercalate g.bodies ++ "\n").toList := by
    split
    · exact .nil
    · rw [String.toList_append, String.toList_intercalate]
      exact hbodies.append_line .nil
  unfold unitText
  split
  · rename_i p hp
    obtain ⟨text, htext, hpragma⟩ := h.pragma p hp
    have hclear := htext.pragma p hpragma
    have hlines := hheader.append_line (hclear.append_line (Clear.nil.append_line hrest))
    simpa using hlines
  · have hlines := hheader.append_line hrest
    simpa using hlines

namespace Resolver

/-- **A flattened unit has no import statement,** if the import statements of every text that can be
reached stand apart. -/
theorem flatten_importless (r : Resolver) (root : Path)
    (htexts : ∀ loc text, r.Reachable (r.rootLocation root) loc → r.load loc = .ok text →
      ImportsApart text)
    {out : Flattened} (h : r.flatten root = .ok out) : hasImport out.text = false := by
  unfold flatten at h
  split at h
  · cases h
  · rename_i g hg
    cases h
    exact (gathered_of_visit htexts hg).clear_unitText.hasImport_eq_false

/-- Two sources with comments in which the word `import` stands, one of them a statement. -/
def annotatedFiles : MemoryFiles := .ofList
  [("M.sol", "pragma solidity 0.8.1;\n/* import './B.sol'; */\n" ++
      "import \x7bA\x7d from './A.sol'; // import A\ncontract M \x7b\x7d"),
    ("A.sol", "contract A \x7b string s = '//'; \x7d\n")]

/-- They are flattened without an error, and no statement is left. -/
theorem flatten_importless_annotated :
    (∀ e ∈ annotatedFiles.texts.entries, ImportsApart e.2) ∧
      ∃ out, (inMemory annotatedFiles none { strict := true }).flatten ⟨"M.sol"⟩ = .ok out ∧
        hasImport out.text = false := by
  have htexts : ∀ e ∈ annotatedFiles.texts.entries, ImportsApart e.2 := by decide +kernel
  have hok : ((inMemory annotatedFiles none { strict := true }).flatten
    ⟨"M.sol"⟩).toOption.isSome = true := by decide +kernel
  refine ⟨htexts, ?_⟩
  cases hout : (inMemory annotatedFiles none { strict := true }).flatten ⟨"M.sol"⟩ with
  | error e =>
    rw [hout] at hok
    cases hok
  | ok out =>
    refine ⟨out, rfl, flatten_importless _ _ (fun loc text _ hload => ?_) hout⟩
    cases loc with
    | file p => exact htexts _ (MemoryFiles.mem_entries_of_read hload)
    | remote ref => cases hload

/-- Two sources, with a comment in an import clause that holds the end of a statement. -/
def commentedClause : MemoryFiles := .ofList
  [("M.sol", "import \x7bA /* \x7d from './A.sol';\nimport './B.sol'; */ \x7d from './A.sol';\n"),
    ("A.sol", "contract A \x7b\x7d\n")]

/-- **A strict flatten leaves an import statement:** with the clause, the start of its comment is
removed, and what stood in the comment is code. -/
theorem flatten_leaves_import :
    ((inMemory commentedClause none { strict := true }).flatten ⟨"M.sol"⟩).toOption.map
        (fun out => (out.unresolvedCount, importPaths out.text)) = some (0, ["./B.sol"]) := by
  decide +kernel

end Resolver

end ContractBuild
