import ContractBuild.Proofs.Directives.Search
import ContractBuild.Solidity.Module

/-!
# The forms of an import directive

An import directive brings in a whole file, a whole file under a name in one of three ways, or
symbols, each under its own name or a new one. `ImportDirective` admits these five forms with a path
in either quote, and `ImportDirective.text` writes them.

- **Names** (`Identifier.identifier_append`): a name is read up to a character that goes on no name.
- **Clauses**: what stands before the path is read up to it (`ImportClause.bindingClause_front`),
  and what stands behind it up to the semicolon (`ImportClause.aliasClause_back`).
- **Directives**: a directive is recognised where it is written, whatever follows
  (`ImportDirective.importStatement_text`). It has no comments in it (`ImportDirective.isCode_text`)
  and starts no version pragma (`ImportDirective.noPragma_text`), though its path may hold slashes
  and semicolons and its names may be the words of a pragma.
-/

namespace ContractBuild.Solidity

open Text

/-! ## Characters -/

/-- A letter, digit, underscore or dollar of ASCII. -/
def isIdentChar (c : Char) : Bool := isIdentStart c || c.isDigit

/-- A character of a list of symbols. -/
def isSymbolChar (c : Char) : Bool := isIdentChar c || " ,".toList.contains c

/-- A character of a directive outside its path. -/
def isClauseChar (c : Char) : Bool := isSymbolChar c || "*;\x7b\x7d".toList.contains c

/-- A character that may stand in a path. -/
def isPathChar (c : Char) : Bool := !isQuote c && c != '\\' && c != '\n'

/-- What holds of the first 128 characters is a matter of counting. -/
theorem of_ascii {P : Char → Prop} {c : Char} (hc : c.toNat < 128)
    (h : ∀ n < 128, P (Char.ofNat n)) : P c := by
  have := h c.toNat hc
  rwa [Char.ofNat_toNat] at this

theorem toNat_of_isAlphanum {c : Char} (h : c.isAlphanum = true) : c.toNat < 128 := by
  have hle {x : Char} (hx : x.toNat < 128) (h : c.val ≤ x.val) : c.toNat < 128 :=
    Nat.lt_of_le_of_lt (UInt32.le_iff_toNat_le.mp h) hx
  rcases Bool.or_eq_true_iff.mp h with h | hdigit
  · rcases Bool.or_eq_true_iff.mp h with hupper | hlower
    · exact hle (by decide : 'Z'.toNat < 128) (of_decide_eq_true hupper).2
    · exact hle (by decide : 'z'.toNat < 128)
        (of_decide_eq_true (Bool.and_eq_true_iff.mp hlower).2)
  · exact hle (by decide : '9'.toNat < 128) (of_decide_eq_true (Bool.and_eq_true_iff.mp hdigit).2)

theorem isIdentChar_of_isIdentStart {c : Char} (h : isIdentStart c = true) :
    isIdentChar c = true := by
  simp [isIdentChar, h]

theorem isSymbolChar_of_isIdentChar (c : Char) (h : isIdentChar c = true) :
    isSymbolChar c = true := by
  simp [isSymbolChar, h]

theorem isClauseChar_of_isSymbolChar (c : Char) (h : isSymbolChar c = true) :
    isClauseChar c = true := by
  simp [isClauseChar, h]

theorem toNat_of_isClauseChar {c : Char} (h : isClauseChar c = true) : c.toNat < 128 := by
  by_cases halnum : c.isAlphanum = true
  · exact toNat_of_isAlphanum halnum
  · have hmem : c ∈ "_$ ,*;\x7b\x7d".toList := by
      simp_all [isClauseChar, isSymbolChar, isIdentChar, isIdentStart, Char.isAlphanum, or_assoc]
    have hall : ("_$ ,*;\x7b\x7d".toList.all fun x => x.toNat < 128) = true := by decide
    exact of_decide_eq_true (List.all_eq_true.mp hall c hmem)

/-- A directive has no quotes, slashes and line breaks outside its path. -/
theorem isLineChar_of_isClauseChar (c : Char) (h : isClauseChar c = true) : isLineChar c = true :=
  of_ascii (P := fun c => isClauseChar c = true → isLineChar c = true)
    (toNat_of_isClauseChar h) (by decide +kernel) h

/-- What a name is made of is read as part of a name, and is no space. -/
theorem isIdentPart_of_isIdentChar {c : Char} (h : isIdentChar c = true) :
    isIdentPart c = true ∧ isSpace c = false := by
  have hclause := isClauseChar_of_isSymbolChar c (isSymbolChar_of_isIdentChar c h)
  exact of_ascii (P := fun c => isIdentChar c = true → isIdentPart c = true ∧ isSpace c = false)
    (toNat_of_isClauseChar hclause) (by decide +kernel) h

theorem eq_of_isQuote {q : Char} (h : isQuote q = true) : q = '"' ∨ q = '\'' := by
  simpa [isQuote] using h

/-! ## Names -/

/-- A name of letters, digits, underscores and dollars that does not start with a digit. -/
structure Identifier where
  text : String
  head : text.toList.head?.any isIdentStart = true
  chars : text.toList.all isIdentChar = true

namespace Identifier

variable (n : Identifier)

theorem exists_cons : ∃ c cs, n.text.toList = c :: cs ∧ isIdentStart c = true := by
  cases h : n.text.toList with
  | nil =>
    have := n.head
    rw [h] at this
    cases this
  | cons c cs =>
    have := n.head
    rw [h] at this
    exact ⟨c, cs, rfl, this⟩

theorem identifier_append {x : Char} (hx : isIdentPart x = false) (rest : List Char) :
    identifier (n.text.toList ++ x :: rest) = some (x :: rest) := by
  obtain ⟨c, cs, hn, hc⟩ := n.exists_cons
  have hcs : ∀ y ∈ cs, isIdentPart y = true := fun y hy =>
    (isIdentPart_of_isIdentChar (List.all_eq_true.mp n.chars y (by simp [hn, hy]))).1
  rw [hn, List.cons_append, identifier, if_pos hc, List.dropWhile_append_of_pos hcs,
    List.dropWhile_cons_of_neg (by simp [hx])]

theorem spaces_append (rest : List Char) :
    spaces (' ' :: (n.text.toList ++ rest)) = some (n.text.toList ++ rest) := by
  obtain ⟨c, cs, hn, hc⟩ := n.exists_cons
  have hspace := (isIdentPart_of_isIdentChar (isIdentChar_of_isIdentStart hc)).2
  have hblank : isSpace ' ' = true := by decide
  rw [hn, List.cons_append, spaces, if_pos hblank, trimStart,
    List.dropWhile_cons_of_neg (by simp [hspace])]

/-- A name behind a space is read up to a character that goes on no name. -/
theorem spaces_bind_identifier {x : Char} (hx : isIdentPart x = false) (rest : List Char) :
    (spaces (' ' :: (n.text.toList ++ x :: rest))).bind identifier = some (x :: rest) := by
  rw [n.spaces_append]
  exact n.identifier_append hx rest

end Identifier

/-! ## Import directives -/

/-- A symbol of a list, under its own name or another one. -/
structure ImportedSymbol where
  name : Identifier
  newName : Option Identifier := none

/-- `A`, or `A as B`. -/
def ImportedSymbol.text (s : ImportedSymbol) : String :=
  s.name.text ++ (s.newName.elim "" fun b => " as " ++ b.text)

/-- What is imported: a whole file, a whole file under a name in one of three ways, or symbols. -/
inductive ImportClause where
  | whole
  | wholeAs (n : Identifier)
  | star (n : Identifier)
  | symbols (ss : List ImportedSymbol)
  | named (n : Identifier)

/-- What stands between `import` and the path. -/
def ImportClause.front : ImportClause → String
  | whole | wholeAs _ => ""
  | star n => "* as " ++ n.text ++ " from "
  | symbols ss => "\x7b" ++ ", ".intercalate (ss.map (·.text)) ++ "\x7d from "
  | named n => n.text ++ " from "

/-- What stands between the path and the semicolon. -/
def ImportClause.back : ImportClause → String
  | wholeAs n => " as " ++ n.text
  | whole | star _ | symbols _ | named _ => ""

/-- An import directive. Its path may hold whatever comments, directives and literals are made of,
but no quotes and not the word that opens a pragma. -/
structure ImportDirective where
  clause : ImportClause
  quote : Char
  path : String
  isQuote_quote : isQuote quote = true
  path_ne : path ≠ ""
  path_chars : path.toList.all isPathChar = true
  path_noPragma : ¬ "pragma".toList <:+: path.toList

namespace ImportDirective

variable (d : ImportDirective)

/-- The text of a directive. -/
def text : String :=
  "import " ++ d.clause.front ++ d.quote.toString ++ d.path ++ d.quote.toString ++ d.clause.back ++
    ";"

/-- The path in its quotes. -/
def quoted : List Char := d.quote :: (d.path.toList ++ [d.quote])

theorem toList_text : d.text.toList =
    "import ".toList ++ d.clause.front.toList ++ d.quoted ++ (d.clause.back.toList ++ [';']) := by
  unfold text
  simp [quoted]

end ImportDirective

/-! ### Characters of a clause -/

theorem Identifier.symbolChars (n : Identifier) : n.text.toList.all isSymbolChar = true :=
  all_mono n.chars isSymbolChar_of_isIdentChar

theorem Identifier.clauseChars (n : Identifier) : n.text.toList.all isClauseChar = true :=
  all_mono n.symbolChars isClauseChar_of_isSymbolChar

theorem ImportedSymbol.symbolChars (s : ImportedSymbol) :
    s.text.toList.all isSymbolChar = true := by
  cases hnew : s.newName with
  | none =>
    rw [text, hnew, Option.elim_none, String.append_empty]
    exact s.name.symbolChars
  | some b =>
    rw [text, hnew, Option.elim_some, String.toList_append, String.toList_append, List.all_append,
      List.all_append, s.name.symbolChars, b.symbolChars]
    rfl

/-- The symbols of a list, with commas between them. -/
def symbolsText (ss : List ImportedSymbol) : List Char :=
  ", ".toList.intercalate (ss.map (·.text.toList))

theorem symbolsText_cons_cons (s s' : ImportedSymbol) (ss : List ImportedSymbol) :
    symbolsText (s :: s' :: ss) = s.text.toList ++ ", ".toList ++ symbolsText (s' :: ss) :=
  List.intercalate_cons_cons

theorem symbolsText_singleton (s : ImportedSymbol) : symbolsText [s] = s.text.toList :=
  List.intercalate_singleton

theorem symbolChars_symbolsText (ss : List ImportedSymbol) :
    (symbolsText ss).all isSymbolChar = true :=
  all_intercalate rfl (List.forall_mem_map.mpr fun s _ => s.symbolChars)

namespace ImportClause

theorem front_star (n : Identifier) :
    (star n).front.toList = "* as ".toList ++ (n.text.toList ++ " from ".toList) := by
  simp [front]

theorem front_symbols (ss : List ImportedSymbol) :
    (symbols ss).front.toList = '\x7b' :: (symbolsText ss ++ "\x7d from ".toList) := by
  simp [front, symbolsText, String.toList_intercalate, Function.comp_def]

theorem front_named (n : Identifier) :
    (named n).front.toList = n.text.toList ++ " from ".toList := by
  simp [front]

theorem back_wholeAs (n : Identifier) :
    (wholeAs n).back.toList = " as ".toList ++ n.text.toList := by
  simp [back]

theorem clauseChars_front (clause : ImportClause) :
    clause.front.toList.all isClauseChar = true := by
  cases clause with
  | whole => rfl
  | wholeAs n => rfl
  | star n =>
    rw [front_star, List.all_append, List.all_append, n.clauseChars]
    rfl
  | symbols ss =>
    rw [front_symbols, List.all_cons, List.all_append,
      all_mono (symbolChars_symbolsText ss) isClauseChar_of_isSymbolChar]
    rfl
  | named n =>
    rw [front_named, List.all_append, n.clauseChars]
    rfl

theorem clauseChars_back (clause : ImportClause) :
    clause.back.toList.all isClauseChar = true := by
  cases clause with
  | wholeAs n =>
    rw [back_wholeAs, List.all_append, n.clauseChars]
    rfl
  | whole => rfl
  | star n => rfl
  | symbols ss => rfl
  | named n => rfl

/-! ### Reading a clause -/

/-- What is imported ends with `from` and the path. -/
theorem bindingClause_of_from {cs rest : List Char} {q : Char} (hq : isQuote q = true)
    (h : ((symbolList cs).or (starBinding cs)).or (identifier cs) =
      some (" from ".toList ++ q :: rest)) : bindingClause cs = some (q :: rest) := by
  rw [bindingClause, h]
  rcases eq_of_isQuote hq with rfl | rfl <;> rfl

theorem starBinding_append (n : Identifier) (rest : List Char) :
    starBinding ("* as ".toList ++ (n.text.toList ++ ' ' :: rest)) = some (' ' :: rest) := by
  change (spaces (' ' :: (n.text.toList ++ ' ' :: rest))).bind identifier = some (' ' :: rest)
  exact n.spaces_bind_identifier (by decide) rest

theorem symbolList_append (ss : List ImportedSymbol) (rest : List Char) :
    symbolList ('\x7b' :: (symbolsText ss ++ '\x7d' :: rest)) = some rest := by
  have hbrace : ∀ c ∈ symbolsText ss, (c != '\x7d') = true := by
    intro c hc
    rw [bne_iff_ne]
    rintro rfl
    exact absurd (List.all_eq_true.mp (symbolChars_symbolsText ss) _ hc) (by decide)
  rw [symbolList, List.dropWhile_append_of_pos hbrace, List.dropWhile_cons_of_neg (by decide)]
  rfl

/-- A name is neither a list of symbols nor a star. -/
theorem symbols_or_star_of_isIdentStart {c : Char} (hc : isIdentStart c = true) (cs : List Char) :
    (symbolList (c :: cs)).or (starBinding (c :: cs)) = none := by
  have hbrace : c ≠ '\x7b' := by rintro rfl; cases hc
  have hstar : c ≠ '*' := by rintro rfl; cases hc
  simp [symbolList, starBinding, hbrace, hstar]

/-- The front of a directive is read up to its path. -/
theorem bindingClause_front (clause : ImportClause) {q : Char} (hq : isQuote q = true)
    (rest : List Char) :
    (bindingClause (clause.front.toList ++ q :: rest)).getD (clause.front.toList ++ q :: rest) =
      q :: rest := by
  cases clause with
  | whole => rcases eq_of_isQuote hq with rfl | rfl <;> rfl
  | wholeAs n => rcases eq_of_isQuote hq with rfl | rfl <;> rfl
  | star n =>
    have hread := starBinding_append n ("from ".toList ++ q :: rest)
    rw [front_star, List.append_assoc, List.append_assoc, bindingClause_of_from hq,
      Option.getD_some]
    exact congrArg (Option.or · _) hread
  | symbols ss =>
    have hread := symbolList_append ss (" from ".toList ++ q :: rest)
    rw [front_symbols, List.cons_append, List.append_assoc, bindingClause_of_from hq,
      Option.getD_some]
    exact congrArg (fun r => (Option.or r _).or _) hread
  | named n =>
    -- a name is tried last, so that it has to be neither of the others
    have hread : identifier (n.text.toList ++ (" from ".toList ++ q :: rest)) =
        some (" from ".toList ++ q :: rest) := n.identifier_append (by decide) _
    obtain ⟨c, cs, hn, hc⟩ := n.exists_cons
    rw [front_named, List.append_assoc, bindingClause_of_from hq, Option.getD_some]
    rw [hn] at hread ⊢
    rw [List.cons_append, symbols_or_star_of_isIdentStart hc, Option.none_or]
    exact hread

/-- One space stands before what is imported. -/
theorem spaces_front (clause : ImportClause) {q : Char} (hq : isQuote q = true)
    (rest : List Char) :
    spaces (' ' :: (clause.front.toList ++ q :: rest)) =
      some (clause.front.toList ++ q :: rest) := by
  cases clause with
  | whole => rcases eq_of_isQuote hq with rfl | rfl <;> rfl
  | wholeAs n => rcases eq_of_isQuote hq with rfl | rfl <;> rfl
  | star n =>
    rw [front_star]
    rfl
  | symbols ss =>
    rw [front_symbols]
    rfl
  | named n =>
    rw [front_named, List.append_assoc]
    exact n.spaces_append _

/-- The back of a directive is read up to its semicolon. -/
theorem aliasClause_back (clause : ImportClause) (rest : List Char) :
    (aliasClause (clause.back.toList ++ ';' :: rest)).getD (clause.back.toList ++ ';' :: rest) =
      ';' :: rest := by
  cases clause with
  | wholeAs n =>
    have hread : aliasClause (" as ".toList ++ (n.text.toList ++ ';' :: rest)) =
        some (';' :: rest) := by
      change (spaces (' ' :: (n.text.toList ++ ';' :: rest))).bind identifier = some (';' :: rest)
      exact n.spaces_bind_identifier (by decide) rest
    rw [back_wholeAs, List.append_assoc, hread, Option.getD_some]
  | whole => rfl
  | star n => rfl
  | symbols ss => rfl
  | named n => rfl

end ImportClause

namespace ImportDirective

variable (d : ImportDirective)

theorem ne_of_mem_path {c : Char} (hc : c ∈ d.path.toList) :
    isQuote c = false ∧ c ≠ '\\' ∧ c ≠ '\n' := by
  have hchar := List.all_eq_true.mp d.path_chars c hc
  simp only [isPathChar, Bool.and_eq_true, Bool.not_eq_true', bne_iff_ne] at hchar
  exact ⟨hchar.1.1, hchar.1.2, hchar.2⟩

theorem quotedPath_quoted (rest : List Char) :
    quotedPath (d.quoted ++ rest) = some (d.path.toList, rest) := by
  have hchars : ∀ c ∈ d.path.toList, (!isQuote c) = true := fun c hc => by
    rw [(d.ne_of_mem_path hc).1, Bool.not_false]
  have hspan : spanOf (!isQuote ·) (d.path.toList ++ d.quote :: rest) =
      (d.path.toList, d.quote :: rest) := spanOf_cut hchars (by simp [d.isQuote_quote]) rest
  have hne : d.path.toList ≠ [] := by simpa using d.path_ne
  obtain ⟨c, cs, hpath⟩ := List.exists_cons_of_ne_nil hne
  rw [quoted, List.cons_append, List.append_assoc, quotedPath, if_pos d.isQuote_quote,
    List.singleton_append, hspan, hpath]

/-- **A directive is recognised where it is written,** whatever follows it. -/
theorem importStatement_text {before : Option Char} (hbefore : wordStart before = true)
    (rest : List Char) :
    importStatement before (d.text.toList ++ rest) =
      some (.upTo d.path (d.text.toList ++ rest) rest) := by
  have hword : literal "import" (d.text.toList ++ rest) = some (' ' :: (d.clause.front.toList ++
      (d.quoted ++ (d.clause.back.toList ++ ';' :: rest)))) := by
    rw [literal_eq_some, toList_text]
    simp
  have hspaces (more : List Char) : spaces (' ' :: (d.clause.front.toList ++ (d.quoted ++ more))) =
      some (d.clause.front.toList ++ (d.quoted ++ more)) :=
    d.clause.spaces_front d.isQuote_quote _
  have hfront (more : List Char) : (bindingClause (d.clause.front.toList ++
      (d.quoted ++ more))).getD (d.clause.front.toList ++ (d.quoted ++ more)) = d.quoted ++ more :=
    d.clause.bindingClause_front d.isQuote_quote _
  have hend : literal ";" (trimStart (';' :: rest)) = some rest := rfl
  simp only [importStatement, hbefore, guard_true, Option.bind_eq_bind, Option.pure_def,
    Option.bind_some, hword, hspaces, hfront, quotedPath_quoted, ImportClause.aliasClause_back,
    hend, String.ofList_toList]

/-- A directive has no comments in it, and no line breaks. -/
theorem isCode_text : IsCode d.text.toList ∧ '\n' ∉ d.text.toList := by
  have hfront : ("import ".toList ++ d.clause.front.toList).all isClauseChar = true := by
    rw [List.all_append, d.clause.clauseChars_front]
    rfl
  have hback : (d.clause.back.toList ++ [';']).all isClauseChar = true := by
    rw [List.all_append, d.clause.clauseChars_back]
    rfl
  have hplain {cs : List Char} (h : cs.all isClauseChar = true) : IsCode cs ∧ '\n' ∉ cs :=
    isCode_of_isLineChar (all_mono h isLineChar_of_isClauseChar)
  have hquote := eq_of_isQuote d.isQuote_quote
  have hpath : ∀ c ∈ d.path.toList, c ≠ d.quote ∧ c ≠ '\\' ∧ c ≠ '\n' := by
    intro c hc
    obtain ⟨hnone, hothers⟩ := d.ne_of_mem_path hc
    refine ⟨?_, hothers⟩
    rintro rfl
    rw [d.isQuote_quote] at hnone
    cases hnone
  have hline : '\n' ∉ d.quoted := by
    have hne : '\n' ≠ d.quote := by rcases hquote with h | h <;> rw [h] <;> decide
    simpa [quoted, hne] using fun h => (hpath _ h).2.2 rfl
  rw [toList_text]
  refine ⟨((hplain hfront).1.append (isCode_quoted hquote hpath)).append (hplain hback).1, ?_⟩
  rw [List.mem_append, List.mem_append, not_or, not_or]
  exact ⟨⟨(hplain hfront).2, hline⟩, (hplain hback).2⟩

end ImportDirective

/-! ### No version pragma -/

/-- No version pragma starts in `front` when `rest` follows. -/
structure NoPragma (front rest : List Char) : Prop where
  throughout : ∀ before, Throughout (fun _ cs => pragmaHead cs = none) before front rest

theorem NoPragma.append {front front' rest : List Char} (h : NoPragma front (front' ++ rest))
    (h' : NoPragma front' rest) : NoPragma (front ++ front') rest :=
  ⟨fun before => throughout_append.mpr ⟨h.throughout before, h'.throughout _⟩⟩

theorem literal_eq_none {s : String} {cs : List Char} (h : ¬ s.toList <+: cs) :
    literal s cs = none := by
  cases hs : literal s cs with
  | none => rfl
  | some rest => exact absurd ⟨rest, (literal_eq_some.mp hs).symm⟩ h

theorem pragmaHead_of_absent {cs : List Char} (h : ¬ "pragma".toList <+: cs) :
    pragmaHead cs = none := by
  rw [pragmaHead, literal_eq_none h]
  rfl

theorem noPragma_of_absent {front rest : List Char} {x : Char} (hw : ¬ "pragma".toList <:+: front)
    (hx : x ∉ "pragma".toList) : NoPragma front (x :: rest) :=
  ⟨fun _ => (throughout_absent hw hx).mono fun _ _ => pragmaHead_of_absent⟩

theorem noPragma_of_getLast {front rest : List Char} {x : Char} (hw : ¬ "pragma".toList <:+: front)
    (hlast : front.getLast? = some x) (hx : x ∉ "pragma".toList) : NoPragma front rest :=
  ⟨fun _ => (throughout_absent_of_getLast hw hlast hx).mono fun _ _ => pragmaHead_of_absent⟩

theorem noPragma_nil (rest : List Char) : NoPragma [] rest := ⟨fun _ => trivial⟩

/-- A name may end in the word that opens a pragma, but what follows the name does not go on like
one. -/
theorem Identifier.noPragma (n : Identifier) {x : Char} {rest : List Char}
    (hx : x ∉ "pragma".toList) (hrest : (spaces (x :: rest)).bind (literal "solidity") = none) :
    NoPragma n.text.toList (x :: rest) := by
  refine ⟨fun _ => throughout_of_suffix fun tail htail _ => ?_⟩
  by_cases hword : "pragma".toList <+: tail ++ x :: rest
  · have htail' : "pragma".toList <+: tail := (front_or_mem hword).resolve_right hx
    obtain ⟨more, rfl⟩ := htail'
    have hread : literal "pragma" ("pragma".toList ++ more ++ x :: rest) =
        some (more ++ x :: rest) := literal_eq_some.mpr (List.append_assoc ..)
    rw [pragmaHead, hread]
    change (spaces (more ++ x :: rest)).bind (literal "solidity") = none
    -- the word is the end of the name, or a character of the name follows it and no space
    cases more with
    | nil => exact hrest
    | cons c more =>
      have hc : c ∈ n.text.toList := htail.subset (by simp)
      have hspace := (isIdentPart_of_isIdentChar (List.all_eq_true.mp n.chars c hc)).2
      rw [List.cons_append, spaces, if_neg (by simp [hspace]), Option.bind_none]
  · exact pragmaHead_of_absent hword

theorem ImportedSymbol.noPragma (s : ImportedSymbol) {x : Char} {rest : List Char}
    (hx : x ∉ "pragma".toList) (hspace : isSpace x = false) :
    NoPragma s.text.toList (x :: rest) := by
  have hnone : (spaces (x :: rest)).bind (literal "solidity") = none := by
    simp [spaces, hspace]
  cases hnew : s.newName with
  | none =>
    rw [text, hnew, Option.elim_none, String.append_empty]
    exact s.name.noPragma hx hnone
  | some b =>
    rw [text, hnew, Option.elim_some, String.toList_append, String.toList_append]
    refine .append (s.name.noPragma (by decide) rfl) (.append ?_ (b.noPragma hx hnone))
    exact noPragma_of_getLast (by decide +kernel) rfl (by decide)

theorem noPragma_symbolsText (ss : List ImportedSymbol) (rest : List Char) :
    NoPragma (symbolsText ss) ('\x7d' :: rest) := by
  induction ss with
  | nil => exact noPragma_nil _
  | cons s ss ih =>
    cases ss with
    | nil =>
      rw [symbolsText_singleton]
      exact s.noPragma (by decide) (by decide)
    | cons s' ss =>
      rw [symbolsText_cons_cons]
      refine .append (.append (s.noPragma (by decide) (by decide)) ?_) ih
      exact noPragma_of_getLast (by decide +kernel) rfl (by decide)

theorem ImportClause.noPragma_front (clause : ImportClause) (rest : List Char) :
    NoPragma clause.front.toList rest := by
  have hfrom : NoPragma " from ".toList rest :=
    noPragma_of_getLast (by decide +kernel) rfl (by decide)
  cases clause with
  | whole => exact noPragma_nil _
  | wholeAs n => exact noPragma_nil _
  | star n =>
    rw [front_star]
    refine .append ?_ (.append (n.noPragma (by decide) rfl) hfrom)
    exact noPragma_of_getLast (by decide +kernel) rfl (by decide)
  | symbols ss =>
    rw [front_symbols, ← List.singleton_append]
    refine .append ?_ (.append (noPragma_symbolsText ss _) ?_)
    · exact noPragma_of_getLast (by decide +kernel) rfl (by decide)
    · exact noPragma_of_getLast (by decide +kernel) rfl (by decide)
  | named n =>
    rw [front_named]
    exact .append (n.noPragma (by decide) rfl) hfrom

theorem ImportClause.noPragma_back (clause : ImportClause) (rest : List Char) :
    NoPragma (clause.back.toList ++ [';']) rest := by
  have hend : NoPragma [';'] rest := noPragma_of_getLast (by decide +kernel) rfl (by decide)
  cases clause with
  | wholeAs n =>
    rw [back_wholeAs]
    refine .append (.append ?_ (n.noPragma (by decide) rfl)) hend
    exact noPragma_of_getLast (by decide +kernel) rfl (by decide)
  | whole => exact hend
  | star n => exact hend
  | symbols ss => exact hend
  | named n => exact hend

/-- **No version pragma starts in an import directive,** whatever follows it. -/
theorem ImportDirective.noPragma_text (d : ImportDirective) (rest : List Char) :
    NoPragma d.text.toList rest := by
  have hquote : d.quote ∉ "pragma".toList := by
    rcases eq_of_isQuote d.isQuote_quote with h | h <;> rw [h] <;> decide
  have hone (more : List Char) : NoPragma [d.quote] more :=
    noPragma_of_getLast (fun h => absurd h.length_le (by simp)) rfl hquote
  rw [toList_text]
  refine .append (.append (.append ?_ (d.clause.noPragma_front _)) ?_) (d.clause.noPragma_back rest)
  · exact noPragma_of_getLast (by decide +kernel) rfl (by decide)
  · rw [quoted, ← List.singleton_append]
    exact .append (hone _) (.append (noPragma_of_absent d.path_noPragma hquote) (hone _))

end ContractBuild.Solidity
