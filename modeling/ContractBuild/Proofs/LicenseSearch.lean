import ContractBuild.Fix.Transform
import ContractBuild.Proofs.Regex

/-!
# The two searches for licence lines

Licence lines are searched for twice: once for the licences they declare, once for lines that are
there more than once. Each search stands for a regular expression of its own. One keeps the licence
as a group between blanks, the other takes the line without looking at it.

- **Lines** (`exists_line`): a text is its first line and what follows from the end of it on.
- **Ends** (`found_blankEnd`, `found_blankEnd_eq_none`): blanks and one carriage return lead to the
  end of a line, and nothing else does.
- **Licences** (`found_licenseBetween`, `found_wholeLine`): behind the colon both expressions always
  find something, and both go on to the end of the line and over its line break.
- **Fronts** (`found_licenseHead`): up to the colon both are read without going back.
- **Agreement** (`pattern_licenseLine`, `pattern_licenseComment`): each search finds what its
  expression finds, groups included.

Main statement: `license_ranges_agree`.
-/

namespace ContractBuild

open Text Text.Regex Solidity ContractBuild.Fix

/-- A licence line with the licence as a group:
`^[ \t]*//\s*SPDX-License-Identifier:[ \t]*(.*?)[ \t]*\r?$\n?`. -/
def licenseLineRegex : Regex :=
  [.lineStart, .many isBlank, .word "//", .many isSpace, .word "SPDX-License-Identifier:",
   .many isBlank, .group (.few (· != '\n')), .many isBlank, .maybe "\r", .lineEnd, .maybe "\n"]

/-- A licence line as a whole: `^[ \t]*//\s*SPDX-License-Identifier:.*$\n?`. -/
def licenseCommentRegex : Regex :=
  [.lineStart, .many isBlank, .word "//", .many isSpace, .word "SPDX-License-Identifier:",
   .many (· != '\n'), .lineEnd, .maybe "\n"]

/-! ## Lines -/

theorem eq_of_lineEnd {rest : List Char} (h : lineEnd rest = true) :
    rest = [] ∨ ∃ more, rest = '\n' :: more := by
  cases rest with
  | nil => exact .inl rfl
  | cons c more =>
    obtain rfl : c = '\n' := by simpa [lineEnd] using h
    exact .inr ⟨more, rfl⟩

theorem restOfLine_append_end {line rest : List Char} (hline : '\n' ∉ line)
    (hrest : lineEnd rest = true) : restOfLine (line ++ rest) = (line, rest) := by
  have hall : ∀ c ∈ line, (c != '\n') = true := fun c hc => by
    simpa using ne_of_mem_of_not_mem hc hline
  rw [restOfLine, spanOf, List.takeWhile_append_of_pos hall, List.dropWhile_append_of_pos hall]
  obtain rfl | ⟨more, rfl⟩ := eq_of_lineEnd hrest <;> simp

theorem exists_line (cs : List Char) :
    ∃ line rest, '\n' ∉ line ∧ lineEnd rest = true ∧ cs = line ++ rest := by
  obtain ⟨line, hcs, hline⟩ := exists_eq_append_dropWhile (· != '\n') cs
  refine ⟨line, _, fun hmem => absurd (hline _ hmem) (by decide), ?_, hcs⟩
  cases hrest : (cs.dropWhile (· != '\n')).head? with
  | none => rw [lineEnd, hrest]; rfl
  | some c => simpa [lineEnd, hrest] using head?_dropWhile_ne hrest

/-- Blanks at the front of a line are dropped within the line. -/
theorem dropWhile_line {line rest : List Char} (hrest : lineEnd rest = true) :
    (line ++ rest).dropWhile isBlank = line.dropWhile isBlank ++ rest := by
  have hend : rest.dropWhile isBlank = rest := by
    obtain rfl | ⟨more, rfl⟩ := eq_of_lineEnd hrest <;> rfl
  rw [List.dropWhile_append, hend]
  split
  · rename_i hnil
    rw [List.isEmpty_iff.mp hnil, List.nil_append]
  · rfl

theorem exists_eq_dropReturn_append (line : List Char) :
    ∃ ret, (ret = [] ∨ ret = ['\r']) ∧ line = dropReturn line ++ ret := by
  by_cases hlast : line.getLast? = some '\r'
  · refine ⟨['\r'], .inr rfl, ?_⟩
    rw [dropReturn, if_pos (by simpa using hlast), List.dropLast_append_getLast? _ hlast]
  · refine ⟨[], .inl rfl, ?_⟩
    rw [dropReturn, if_neg (by simpa using hlast), List.append_nil]

theorem dropReturn_append {front line : List Char} (hline : line ≠ []) :
    dropReturn (front ++ line) = front ++ dropReturn line := by
  rw [dropReturn, dropReturn, List.getLast?_append_of_ne_nil front hline,
    List.dropLast_append_of_ne_nil hline]
  split <;> rfl

theorem exists_eq_dropEndWhile_append (p : Char → Bool) (cs : List Char) :
    ∃ run, (∀ c ∈ run, p c = true) ∧ cs = dropEndWhile p cs ++ run := by
  obtain ⟨run, hcs, hrun⟩ := exists_eq_append_dropWhile p cs.reverse
  refine ⟨run.reverse, fun c hc => hrun c (List.mem_reverse.mp hc), ?_⟩
  rw [dropEndWhile, ← List.reverse_append, ← hcs, List.reverse_reverse]

theorem getLast?_dropEndWhile {p : Char → Bool} {cs : List Char} {c : Char}
    (h : (dropEndWhile p cs).getLast? = some c) : p c = false := by
  rw [dropEndWhile, List.getLast?_reverse] at h
  exact head?_dropWhile_ne h

/-! ## Ends -/

section

variable {before : Option Char} {cs : List Char}

theorem found_lineBreak : found [.lineEnd, .maybe "\n"] before cs =
    if lineEnd cs then some (skipLineBreak cs, []) else none := by
  rw [found_lineEnd]
  split
  · rename_i hend
    obtain rfl | ⟨more, rfl⟩ := eq_of_lineEnd hend <;> rfl
  · rfl

/-- A carriage return may stand at the end of a line. -/
theorem found_return {ret rest : List Char} (hret : ret = [] ∨ ret = ['\r'])
    (hrest : lineEnd rest = true) :
    found [.maybe "\r", .lineEnd, .maybe "\n"] before (ret ++ rest) =
      some (skipLineBreak rest, []) := by
  rw [found_maybe]
  rcases hret with rfl | rfl
  · have hnone : literal "\r" rest = none := by
      obtain rfl | ⟨more, rfl⟩ := eq_of_lineEnd hrest <;> rfl
    rw [List.nil_append, hnone, Option.bind_none, Option.none_or, found_lineBreak, if_pos hrest]
  · have hsome : literal "\r" (['\r'] ++ rest) = some rest := literal_append "\r" rest
    rw [hsome, Option.bind_some, found_lineBreak, if_pos hrest, Option.some_or]

theorem exists_of_found_return {r : List Char × List (List Char)}
    (h : found [.maybe "\r", .lineEnd, .maybe "\n"] before cs = some r) :
    ∃ ret rest, (ret = [] ∨ ret = ['\r']) ∧ lineEnd rest = true ∧ cs = ret ++ rest := by
  rw [found_maybe, Option.or_eq_some_iff, Option.bind_eq_some_iff] at h
  simp only [found_lineBreak, Option.ite_none_right_eq_some] at h
  rcases h with ⟨rest, hliteral, hrest, -⟩ | ⟨-, hrest, -⟩
  · exact ⟨['\r'], rest, .inr rfl, hrest, literal_eq_some.mp hliteral⟩
  · exact ⟨[], cs, .inl rfl, hrest, rfl⟩

/-- Before a blank there is no end of a line. -/
theorem found_return_of_isBlank {c : Char} (hc : isBlank c = true) :
    found [.maybe "\r", .lineEnd, .maybe "\n"] before (c :: cs) = none := by
  rw [Option.eq_none_iff_forall_ne_some]
  intro r hr
  obtain ⟨ret, rest, rfl | rfl, hrest, hcs⟩ := exists_of_found_return hr
  · obtain rfl : c :: cs = rest := hcs
    obtain h | ⟨more, h⟩ := eq_of_lineEnd hrest <;> cases h
    cases hc
  · obtain rfl : c = '\r' := (List.cons.inj hcs).1
    cases hc

/-- Blanks and a carriage return lead to the end of a line. -/
theorem found_blankEnd {run ret rest : List Char} (hrun : ∀ c ∈ run, isBlank c = true)
    (hret : ret = [] ∨ ret = ['\r']) (hrest : lineEnd rest = true) :
    found [.many isBlank, .maybe "\r", .lineEnd, .maybe "\n"] before (run ++ (ret ++ rest)) =
      some (skipLineBreak rest, []) := by
  have hhead : (ret ++ rest).head?.any isBlank = false := by
    rcases hret with rfl | rfl
    · obtain rfl | ⟨more, rfl⟩ := eq_of_lineEnd hrest <;> rfl
    · rfl
  apply found_many_of_some
  rw [dropWhile_append_run hrun hhead, found_return hret hrest]

/-- A line with anything else in it does not end here. -/
theorem found_blankEnd_eq_none {c : Char} (hmem : c ∈ dropReturn (restOfLine cs).1)
    (hc : isBlank c = false) :
    found [.many isBlank, .maybe "\r", .lineEnd, .maybe "\n"] before cs = none := by
  rw [found_many_of_none fun _ _ _ => found_return_of_isBlank, Option.eq_none_iff_forall_ne_some]
  intro r hr
  obtain ⟨run, hcs, hrun⟩ := exists_eq_append_dropWhile isBlank cs
  obtain ⟨ret, rest, hret, hrest, hend⟩ := exists_of_found_return hr
  have hline : '\n' ∉ run ++ ret := by
    rw [List.mem_append, not_or]
    refine ⟨fun hbreak => absurd (hrun _ hbreak) (by decide), ?_⟩
    rcases hret with rfl | rfl <;> decide
  rw [hcs, hend, ← List.append_assoc, restOfLine_append_end hline hrest] at hmem
  have hblank : c ∈ run := by
    rcases hret with rfl | rfl
    · obtain ⟨ret, -, heq⟩ := exists_eq_dropReturn_append (run ++ [])
      rw [← List.append_nil run, heq]
      exact List.mem_append_left ret hmem
    · rw [dropReturn_append (by simp)] at hmem
      simpa [dropReturn] using hmem
  rw [hrun c hblank] at hc
  cases hc

end

/-! ## Licences -/

/-- Between the blanks around it, the licence is the shortest group that is found. -/
theorem found_license (before : Option Char) (cs : List Char) :
    found [.group (.few (· != '\n')), .many isBlank, .maybe "\r", .lineEnd, .maybe "\n"] before cs =
      some (skipLineBreak (restOfLine cs).2,
        [dropEndWhile isBlank (dropReturn (restOfLine cs).1)]) := by
  obtain ⟨line, rest, hline, hrest, rfl⟩ := exists_line cs
  rw [restOfLine_append_end hline hrest]
  obtain ⟨ret, hret, hreturn⟩ := exists_eq_dropReturn_append line
  obtain ⟨run, hrun, hblanks⟩ := exists_eq_dropEndWhile_append isBlank (dropReturn line)
  have hlast : ∀ c, (dropEndWhile isBlank (dropReturn line)).getLast? = some c →
    isBlank c = false := fun _ => getLast?_dropEndWhile
  generalize dropEndWhile isBlank (dropReturn line) = front at hblanks hlast ⊢
  have hwhole : line = front ++ (run ++ ret) := by rw [hreturn, hblanks, List.append_assoc]
  have hcs : line ++ rest = front ++ (run ++ (ret ++ rest)) := by
    rw [hwhole]
    simp only [List.append_assoc]
  rw [hcs]
  refine found_group_few ?_ (fun u v huv hv => ?_) (found_blankEnd hrun hret hrest)
  · intro c hc
    have hmem : c ∈ line := hwhole ▸ List.mem_append_left _ hc
    simpa using ne_of_mem_of_not_mem hmem hline
  · -- the rest of the line still holds the last character of `front`, which is no blank
    have hleft : line = u ++ (v ++ (run ++ ret)) := by rw [hwhole, huv, List.append_assoc]
    have hbreak : '\n' ∉ v ++ (run ++ ret) := fun hmem =>
      hline (hleft ▸ List.mem_append_right u hmem)
    have hdrop : dropReturn (v ++ (run ++ ret)) = v ++ run := by
      have hbehind : dropReturn (u ++ (v ++ (run ++ ret))) = u ++ dropReturn (v ++ (run ++ ret)) :=
        dropReturn_append (by simp [hv])
      rw [← hleft, hblanks, huv, List.append_assoc] at hbehind
      exact (List.append_cancel_left hbehind).symm
    obtain ⟨v, c, rfl⟩ := List.eq_nil_or_concat v |>.resolve_left hv
    refine found_blankEnd_eq_none ?_ (hlast c (by simp [huv]))
    rw [← List.append_assoc run, ← List.append_assoc _ (run ++ ret),
      restOfLine_append_end hbreak hrest, hdrop]
    simp

/-- The licence stands between the blanks at the front of a line and those at its end. -/
theorem found_licenseBetween (before : Option Char) (cs : List Char) :
    found [.many isBlank, .group (.few (· != '\n')), .many isBlank, .maybe "\r", .lineEnd,
        .maybe "\n"] before cs =
      some (skipLineBreak (restOfLine cs).2,
        [dropEndWhile isBlank (dropReturn ((restOfLine cs).1.dropWhile isBlank))]) := by
  apply found_many_of_some
  rw [found_license]
  obtain ⟨line, rest, hline, hrest, rfl⟩ := exists_line cs
  have hfront : '\n' ∉ line.dropWhile isBlank := fun hmem =>
    hline ((List.dropWhile_sublist _).subset hmem)
  rw [dropWhile_line hrest, restOfLine_append_end hfront hrest, restOfLine_append_end hline hrest]

theorem found_wholeLine (before : Option Char) (cs : List Char) :
    found [.many (· != '\n'), .lineEnd, .maybe "\n"] before cs =
      some (skipLineBreak (restOfLine cs).2, []) := by
  obtain ⟨line, rest, hline, hrest, rfl⟩ := exists_line cs
  have hend : (line ++ rest).dropWhile (· != '\n') = rest :=
    congrArg Prod.snd (restOfLine_append_end hline hrest)
  apply found_many_of_some
  rw [hend, found_lineBreak, if_pos hrest, restOfLine_append_end hline hrest]

/-! ## Fronts -/

/-- Both expressions start alike, and what stands there is read without going back: blanks and
spaces end before the words behind them. -/
theorem found_licenseHead {tail : Regex} {f : List Char → List Char × List (List Char)}
    (htail : ∀ b cs, found tail b cs = some (f cs)) (before : Option Char) (cs : List Char) :
    found (.lineStart :: .many isBlank :: .word "//" :: .many isSpace ::
        .word "SPDX-License-Identifier:" :: tail) before cs =
      (licenseHead before cs).map f := by
  rw [found_lineStart, licenseHead]
  cases lineStart before with
  | false => rfl
  | true =>
    rw [if_pos rfl, found_many_word rfl (by decide)]
    cases literal "//" (cs.dropWhile isBlank) with
    | none => rfl
    | some comment =>
      rw [Option.bind_some, found_many_word rfl (by decide), ← trimStart]
      simp only [htail]
      cases hwords : literal "SPDX-License-Identifier:" (trimStart comment) with
      | none => simp [hwords]
      | some rest => simp [hwords]

/-! ## Agreement -/

/-- The licences that are read are the groups of the first expression. -/
theorem pattern_licenseLine (before : Option Char) (cs : List Char) :
    licenseLineRegex.pattern before cs = (licenseLine before cs).map (Hit.map ([·])) := by
  rw [pattern_eq, licenseLineRegex, found_licenseHead found_licenseBetween, licenseLine]
  cases licenseHead before cs <;> rfl

theorem pattern_licenseComment (before : Option Char) (cs : List Char) :
    licenseCommentRegex.pattern before cs =
      (licenseComment before cs).map (Hit.map fun _ => []) := by
  rw [pattern_eq, licenseCommentRegex, found_licenseHead found_wholeLine, licenseComment]
  cases licenseHead before cs <;> rfl

/-- With or without a group, an expression takes the same stretch of a text. -/
theorem pattern_licenseComment_eq (before : Option Char) (cs : List Char) :
    licenseCommentRegex.pattern before cs =
      (licenseLineRegex.pattern before cs).map (Hit.map fun _ => []) := by
  simp only [pattern_eq, licenseLineRegex, licenseCommentRegex,
    found_licenseHead found_licenseBetween, found_licenseHead found_wholeLine, Option.map_map]
  rfl

/-- **The search for licences and the search for lines that repeat find the same ranges,** in every
text, and each of them finds the ranges of its expression. -/
theorem license_ranges_agree (text : String) :
    licenseLine.ranges text.toList = licenseComment.ranges text.toList ∧
    licenseLine.ranges text.toList = licenseLineRegex.pattern.ranges text.toList ∧
    licenseComment.ranges text.toList = licenseCommentRegex.pattern.ranges text.toList := by
  have hline := Pattern.ranges_map pattern_licenseLine text.toList
  have hcomment := Pattern.ranges_map pattern_licenseComment text.toList
  have hsame := Pattern.ranges_map pattern_licenseComment_eq text.toList
  exact ⟨by rw [← hline, ← hcomment, hsame], hline.symm, hcomment.symm⟩

-- slashes and words on different lines, a carriage return, and a line at the end of the text
example : licenseLine.ranges
    "//\n SPDX-License-Identifier: MIT \r\n;\n\t//SPDX-License-Identifier:X".toList =
      [(0, 35), (37, 65)] := by
  decide +kernel

end ContractBuild
