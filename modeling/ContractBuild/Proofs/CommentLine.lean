import ContractBuild.Proofs.Recognition
import ContractBuild.Solidity.Import
import ContractBuild.Solidity.Pragma

/-!
# Directives behind a line comment

A line comment in front of a text changes nothing about the directives that are read from it, as
long as no match that starts in the comment runs over the end of its line. One that does takes what
it runs over away from the search, though it is not counted itself.

- **Searches of two stretches** (`Pattern.pieces_append`): if no hit runs from the first into the
  second, the second is searched as if it stood alone.
- **Masks** (`commentMask_line`): the comment is marked up to its line break, and nothing of what
  follows changes.
- **Pieces** (`inCode_line`): the line has no hits that count, and what follows has those it had.

Main statement: `directives_behind_comment`.
-/

namespace ContractBuild

open Text

/-! ## Searches of two stretches -/

namespace Text.Pattern

variable {α : Type}

/-- Some hit starts in the first stretch of a text and ends in the second. -/
def RunsOver (p : Pattern α) (front rest : List Char) : Prop :=
  ∃ r ∈ p.ranges (front ++ rest), r.1 < front.length ∧ front.length < r.2

instance (p : Pattern α) (front rest : List Char) : Decidable (p.RunsOver front rest) :=
  inferInstanceAs (Decidable (∃ r ∈ p.ranges (front ++ rest), _))

/-- Taking no more than a front takes of the front alone. -/
theorem take_drop_append {front rest : List Char} {k : Nat}
    (h : ((front ++ rest).take k).length ≤ front.length) :
    (front ++ rest).take k = front.take k ∧ (front ++ rest).drop k = front.drop k ++ rest := by
  by_cases hk : k ≤ front.length
  · exact ⟨List.take_append_of_le_length hk, List.drop_append_of_le_length hk⟩
  · have hnil : rest = [] := by
      rw [List.length_take, List.length_append] at h
      exact List.length_eq_zero_iff.mp (by omega)
    simp [hnil]

/-- **Without a hit that runs over, the second stretch is searched as if it stood alone.** -/
theorem pieces_append (p : Pattern α) (before : Option Char) (front rest : List Char) (n : Nat)
    (h : ∀ r ∈ rangesFrom n (p.pieces before (front ++ rest)),
      r.1 < n + front.length → r.2 ≤ n + front.length) :
    ∃ ps, p.pieces before (front ++ rest) = ps ++ p.pieces (front.getLast?.or before) rest ∧
      ps.flatMap Piece.text = front := by
  induction hlen : front.length using Nat.strongRecOn generalizing front before n with
  | ind len ih =>
    subst hlen
    cases front with
    | nil => exact ⟨[], by simp⟩
    | cons c front =>
      rw [List.cons_append, pieces] at h ⊢
      cases hp : p before (c :: (front ++ rest)) with
      | none =>
        simp only [hp, rangesFrom] at h ⊢
        obtain ⟨ps, hps, htext⟩ := ih front.length (by simp) (some c) front (n + 1)
          (fun r hr hlt => by
            have := h r hr (by rw [List.length_cons]; omega)
            rw [List.length_cons] at this
            omega) rfl
        refine ⟨.gap c :: ps, ?_, by simp [Piece.text, htext]⟩
        rw [hps, getLast?_cons_or, List.cons_append]
      | some hit =>
        simp only [hp, rangesFrom, List.forall_mem_cons, List.length_cons] at h ⊢
        obtain ⟨hfirst, hlater⟩ := h
        -- the hit ends in the front, so it is one of the front
        have hends : ((front ++ rest).take (hit.size - 1)).length ≤ front.length := by
          have := hfirst (by omega)
          omega
        obtain ⟨htake, hdrop⟩ := take_drop_append hends
        rw [htake, hdrop] at hlater ⊢
        have hsplit := List.take_append_drop (hit.size - 1) front
        have hsum : (front.take (hit.size - 1)).length + (front.drop (hit.size - 1)).length =
            front.length := by rw [← List.length_append, hsplit]
        obtain ⟨ps, hps, htext⟩ := ih (front.drop (hit.size - 1)).length
          (by rw [List.length_cons]; omega)
          (some ((front.take (hit.size - 1)).getLastD c)) _ _
          (fun r hr hlt => by have := hlater r hr (by omega); omega) rfl
        refine ⟨.hit hit.value (c :: front.take (hit.size - 1)) :: ps, ?_, by
          simp [Piece.text, htext]⟩
        rw [hps, List.cons_append]
        congr 2
        conv => rhs; rw [← hsplit, List.getLast?_cons, List.getLast?_append]
        rw [List.getLastD_eq_getLast?]
        cases (front.drop (hit.size - 1)).getLast? <;> simp

/-- What was found so far does not matter beyond what the pattern sees of it. -/
theorem pieces_congr_before {p : Pattern α} {before before' : Option Char}
    (h : ∀ cs, p before cs = p before' cs) (cs : List Char) :
    p.pieces before cs = p.pieces before' cs := by
  cases cs with
  | nil => rw [pieces, pieces]
  | cons c cs => rw [pieces, pieces, h]

/-- A hit starts where the pattern recognises something. -/
theorem head?_of_hit_mem {p : Pattern α} {x : Char} (hx : ∀ before cs, p before (x :: cs) = none)
    {before : Option Char} {cs : List Char} {v : α} {t : List Char}
    (h : .hit v t ∈ p.pieces before cs) : ∃ c more, t = c :: more ∧ c ≠ x := by
  fun_induction pieces p before cs with
  | case1 => cases h
  | case2 before c cs found hp more ih =>
    rcases List.mem_cons.mp h with h | h
    · cases h
      refine ⟨c, more, rfl, ?_⟩
      rintro rfl
      rw [hx] at hp
      cases hp
    · exact ih h
  | case3 before c cs hp ih =>
    rcases List.mem_cons.mp h with h | h
    · cases h
    · exact ih h

end Text.Pattern

namespace Solidity

variable {α : Type}

/-! ## Masks -/

/-- A line comment with its line break. -/
def commentLine (c : List Char) : List Char := '/' :: '/' :: c ++ ['\n']

theorem restOfLine_append {c t : List Char} (hc : '\n' ∉ c) :
    (restOfLine (c ++ '\n' :: t)).2 = '\n' :: t := by
  have hall : ∀ x ∈ c, (x != '\n') = true := by
    intro x hx
    simp only [bne_iff_ne, ne_eq]
    rintro rfl
    exact hc hx
  simp [restOfLine, spanOf, List.dropWhile_append_of_pos hall]

/-- The pieces of a text behind a line comment. -/
theorem split_commentLine {c : List Char} (hc : '\n' ∉ c) (t : List Char) :
    commentOrLiteral.split (commentLine c ++ t) =
      .hit .comment ('/' :: '/' :: c) :: .gap '\n' :: commentOrLiteral.split t := by
  have hcomment : commentOrLiteral none (('/' :: '/' :: c) ++ '\n' :: t) =
      some (.upTo .comment (('/' :: '/' :: c) ++ '\n' :: t) ('\n' :: t)) := by
    simp [commentOrLiteral, restOfLine_append hc]
  have hsplit : commentLine c ++ t = ('/' :: '/' :: c) ++ '\n' :: t := by simp [commentLine]
  have hbefore : ∀ cs, commentOrLiteral (some '\n') cs = commentOrLiteral none cs := fun _ => rfl
  have halone : commentOrLiteral.pieces (some '\n') t = commentOrLiteral.split t :=
    Pattern.pieces_congr_before hbefore t
  rw [hsplit, Pattern.split, Pattern.pieces_of_hit hcomment (by simp) (Hit.size_upTo ..),
    Pattern.pieces_of_gap rfl, halone, Hit.value_upTo]

/-- Of a line comment all is marked but its line break. -/
theorem commentMask_line {c : List Char} (hc : '\n' ∉ c) (t : List Char) :
    commentMask (commentLine c ++ t) = (commentLine c).map (· != '\n') ++ commentMask t := by
  have hmarked : c.map (· != '\n') = List.replicate c.length true := by
    rw [List.map_eq_replicate_iff]
    intro x hx
    simp only [bne_iff_ne, ne_eq]
    rintro rfl
    exact hc hx
  rw [commentMask, split_commentLine hc]
  simp [commentLine, Piece.text, hmarked, commentMask, List.replicate_succ]

/-! ## Pieces -/

theorem unmarked_append (mask : List Bool) (ps qs : List (Piece α)) :
    unmarked mask (ps ++ qs) =
      unmarked mask ps ++ unmarked (mask.drop (ps.flatMap Piece.text).length) qs := by
  induction ps generalizing mask with
  | nil => simp [unmarked]
  | cons piece ps ih =>
    cases piece with
    | gap c => simp [unmarked, ih, Piece.text, Nat.add_comm]
    | hit v t => simp [unmarked, ih, Piece.text, List.append_assoc, List.drop_drop]

/-- Where all is marked but one character, and no hit starts there, no hit counts. -/
theorem unmarked_eq_gaps {x : Char} {ps : List (Piece α)} (more : List Bool)
    (hx : ∀ v t, .hit v t ∈ ps → ∃ c rest, t = c :: rest ∧ c ≠ x) :
    unmarked ((ps.flatMap Piece.text).map (· != x) ++ more) ps =
      (ps.flatMap Piece.text).map .gap := by
  induction ps with
  | nil => rfl
  | cons piece ps ih =>
    have hrest := ih fun v t hm => hx v t (List.mem_cons_of_mem _ hm)
    cases piece with
    | gap c => simpa [unmarked, Piece.text] using hrest
    | hit v t =>
      obtain ⟨c, rest, rfl, hc⟩ := hx v t (by simp)
      simpa [unmarked, Piece.text, hc] using hrest

/-- **A comment line has no hits that count, and what follows has those it had,** if no hit runs
over the end of the line. The pattern starts at no line break and takes one for the start of a
text. -/
theorem inCode_line {p : Pattern α} (hbreak : ∀ before cs, p before ('\n' :: cs) = none)
    (hstart : ∀ cs, p (some '\n') cs = p none cs) {c t : List Char} (hc : '\n' ∉ c)
    (hover : ¬ p.RunsOver (commentLine c) t) :
    inCode p (commentLine c ++ t) = (commentLine c).map .gap ++ inCode p t := by
  obtain ⟨ps, hps, htext⟩ := p.pieces_append none (commentLine c) t 0 fun r hr hlt => by
    rw [Nat.zero_add] at hlt ⊢
    exact Nat.not_lt.mp fun hgt => hover ⟨r, hr, hlt, hgt⟩
  have hlast : (commentLine c).getLast?.or none = some '\n' := by
    rw [commentLine, List.getLast?_concat]
    rfl
  rw [hlast, Pattern.pieces_congr_before hstart] at hps
  have hgaps : unmarked ((commentLine c).map (· != '\n') ++ commentMask t) ps =
      (commentLine c).map .gap := by
    rw [← htext]
    exact unmarked_eq_gaps _ fun v t hm =>
      Pattern.head?_of_hit_mem hbreak (by rw [hps]; exact List.mem_append_left _ hm)
  rw [inCode, commentMask_line hc, Pattern.split, hps, unmarked_append, hgaps, htext]
  simp [inCode, Pattern.split]

theorem importStatement_lineBreak (before : Option Char) (cs : List Char) :
    importStatement before ('\n' :: cs) = none := by
  simp [importStatement, literal, List.isPrefixOf?]

theorem pragmaDirective_lineBreak (before : Option Char) (cs : List Char) :
    pragmaDirective before ('\n' :: cs) = none := by
  simp [pragmaDirective, pragmaHead, literal, List.isPrefixOf?]

theorem importStatement_after_lineBreak (cs : List Char) :
    importStatement (some '\n') cs = importStatement none cs := by
  have hword : wordStart (some '\n') = wordStart none := by decide
  simp only [importStatement, hword]

/-- **A line comment does not change which directives are read,** if no match that starts in it runs
over the end of its line. -/
theorem directives_behind_comment (c t : String) (hc : '\n' ∉ c.toList) :
    (¬ importStatement.RunsOver (commentLine c.toList) t.toList →
      importPaths ("//" ++ c ++ "\n" ++ t) = importPaths t) ∧
    (¬ pragmaDirective.RunsOver (commentLine c.toList) t.toList →
      pragma? ("//" ++ c ++ "\n" ++ t) = pragma? t) := by
  have hline : ("//" ++ c ++ "\n" ++ t).toList = commentLine c.toList ++ t.toList := by
    simp [commentLine]
  refine ⟨fun hover => ?_, fun hover => ?_⟩
  · rw [importPaths, hline, valuesInCode,
      inCode_line importStatement_lineBreak importStatement_after_lineBreak hc hover]
    simp [List.filterMap_map, Function.comp_def, Piece.value?, importPaths, valuesInCode]
  · rw [pragma?, hline, inCode_line pragmaDirective_lineBreak (fun _ => rfl) hc hover,
      List.findSome?_append, List.findSome?_eq_none_iff.mpr (by simp), Option.none_or, pragma?]

/-- A comment may hold whole directives, and words that start none. -/
theorem directives_behind_comment_whole :
    let c := " import \"./Old.sol\"; pragma solidity 0.7.6; important"
    let t := "pragma solidity ^0.8.20; import \"./A.sol\";"
    '\n' ∉ c.toList ∧
    ¬ importStatement.RunsOver (commentLine c.toList) t.toList ∧
    ¬ pragmaDirective.RunsOver (commentLine c.toList) t.toList ∧
    importPaths ("//" ++ c ++ "\n" ++ t) = importPaths t ∧
    pragma? ("//" ++ c ++ "\n" ++ t) = pragma? t := by
  intro c t
  have hc : '\n' ∉ c.toList := by decide
  have himport : ¬ importStatement.RunsOver (commentLine c.toList) t.toList := by decide +kernel
  have hpragma : ¬ pragmaDirective.RunsOver (commentLine c.toList) t.toList := by decide +kernel
  obtain ⟨hi, hp⟩ := directives_behind_comment c t hc
  exact ⟨hc, himport, hpragma, hi himport, hp hpragma⟩

/-- **A comment that starts a directive hides those behind it.** The match that starts in the
comment runs on to the end of the directive below, and starts in a comment. -/
theorem comment_hides_directives :
    let c := " pragma solidity and import \x7b"
    let t := "pragma solidity ^0.8.20;\nimport \x7bA\x7d from \"./A.sol\";"
    '\n' ∉ c.toList ∧
    importPaths t = ["./A.sol"] ∧ importPaths ("//" ++ c ++ "\n" ++ t) = [] ∧
    pragma? t = some "pragma solidity ^0.8.20;" ∧ pragma? ("//" ++ c ++ "\n" ++ t) = none := by
  decide +kernel

end Solidity

end ContractBuild
