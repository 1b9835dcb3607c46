import ContractBuild.Fix.Transform
import ContractBuild.Proofs.Directives.Search

/-!
# Function headers

- **Words** (`HasWord`): a word that stands in a text, between characters that are no part of it.
- **The first word** (`exists_of_lacksVirtual`): a header that lacks `virtual` gets it behind the
  first word `internal`, wherever that stands.
- **Forms** (`Opening`, `Header`): how a header is written, up to the first closing parenthesis and
  behind it. The search recognises exactly these forms (`functionHeader_append`, `takes_header`).
- **Parameter lists** (`Signature`): the front of a header up to the parenthesis that closes the list,
  which need not be the first closing one.

Main statement: `virtual_behind_parameters`.
-/

namespace ContractBuild

open Text

namespace Text

/-! ## Words -/

/-- `HasWord w cs`: the word `w` stands in `cs`, between characters that are no part of it. -/
def HasWord (w : String) (cs : List Char) : Prop :=
  ∃ front rest, cs = front ++ (w.toList ++ rest) ∧ wordStart front.getLast? = true ∧
    wordEnd rest = true

theorem values_wholeWord_eq_nil_iff {w : String} (hw : w.toList ≠ []) {cs : List Char} :
    (wholeWord w).values cs = [] ↔ ¬ HasWord w cs := by
  constructor
  · rintro hnone ⟨front, rest, rfl, hstart, hend⟩
    have hfound := Pattern.wholeWord_append (w := w) hstart hend
    rw [← Option.or_none (o := front.getLast?)] at hfound
    exact Pattern.filterMap_pieces_ne_nil (by simp [hw]) hfound hnone
  · intro hword
    rcases (Pattern.takes_wholeWord hw).exists_first none cs with
      hgaps | ⟨_, front, t, rest, hcs, -, ⟨rfl, hstart, hend⟩, -⟩
    · rw [Pattern.values, Pattern.split, hgaps, filterMap_value?_gaps]
    · rw [Option.or_none] at hstart
      exact absurd ⟨front, rest, hcs, hstart, hend⟩ hword

end Text

namespace Fix

theorem lacksVirtual_iff {header : List Char} : lacksVirtual header = true ↔
    HasWord "internal" header ∧ ¬ HasWord "virtual" header := by
  rw [lacksVirtual, Bool.and_eq_true, bne_iff_ne, beq_iff_eq, Pattern.count, Pattern.count,
    List.length_eq_zero_iff, ne_eq, List.length_eq_zero_iff,
    values_wholeWord_eq_nil_iff (by decide), values_wholeWord_eq_nil_iff (by decide), not_not]

theorem addVirtual_of_not_lacksVirtual {header : List Char} (h : lacksVirtual header = false) :
    addVirtual header = header :=
  if_neg (by simp [h])

/-- The first hit is replaced behind the gaps. -/
theorem replaceFirst_gaps {α : Type} (new front : List Char) (v : α) (t : List Char)
    (ps : List (Piece α)) :
    replaceFirst new (front.map .gap ++ .hit v t :: ps) =
      front ++ (new ++ ps.flatMap Piece.text) := by
  induction front with
  | nil => rfl
  | cons c front ih => exact congrArg (c :: ·) ih

/-- A header that lacks `virtual` gets it behind the first word `internal`. -/
theorem exists_of_lacksVirtual {header : List Char} (h : lacksVirtual header = true) :
    ∃ front rest, header = front ++ ("internal".toList ++ rest) ∧
      wordStart front.getLast? = true ∧ wordEnd rest = true ∧
      addVirtual header = front ++ ("internal virtual".toList ++ rest) ∧
      ∀ front' rest', header = front' ++ ("internal".toList ++ rest') →
        wordStart front'.getLast? = true → wordEnd rest' = true →
        front.length ≤ front'.length := by
  have hnew : addVirtual header =
      replaceFirst "internal virtual".toList ((wholeWord "internal").pieces none header) := if_pos h
  rcases (Pattern.takes_wholeWord (w := "internal") (by decide)).exists_first none header with
    hgaps | ⟨_, front, _, rest, rfl, -, ⟨rfl, hstart, hend⟩, hnone, hpieces⟩
  · refine absurd (lacksVirtual_iff.mp h).1 ((values_wholeWord_eq_nil_iff (by decide)).mp ?_)
    rw [Pattern.values, Pattern.split, hgaps, filterMap_value?_gaps]
  · rw [Option.or_none] at hstart
    rw [hpieces, replaceFirst_gaps, Pattern.text_pieces] at hnew
    refine ⟨front, rest, rfl, hstart, hend, hnew, ?_⟩
    intro front' rest' heq hstart' hend'
    refine hnone.length_le heq ?_
    rw [Option.or_none, Pattern.wholeWord_append hstart' hend']
    exact Option.some_ne_none _

/-! ## Forms -/

/-- A character that ends a header. -/
def EndsHeader (c : Char) : Prop := c = '\x7b' ∨ c = ';'

/-- The keyword, the name and the opening parenthesis of a function header. -/
inductive Opening : List Char → Prop where
  | form {s : List Char} {c : Char} {name s' : List Char}
      (hs : s ≠ [] ∧ ∀ d ∈ s, isSpace d = true) (hc : isIdentStart c = true)
      (hname : ∀ d ∈ name, isIdentPart d = true) (hs' : ∀ d ∈ s', isSpace d = true) :
      Opening ("function".toList ++ (s ++ (c :: name ++ (s' ++ "(".toList))))

/-- A function header: its opening, all up to the first closing parenthesis, and what follows up to
a brace or a semicolon. -/
inductive Header : List Char → Prop where
  | form {opening params tail : List Char} (hopening : Opening opening) (hparams : ')' ∉ params)
      (htail : ∀ c ∈ tail, ¬ EndsHeader c) :
      Header (opening ++ (params ++ (")".toList ++ tail)))

theorem isSpace_of_isIdentStart {c : Char} (h : isIdentStart c = true) : isSpace c = false := by
  by_contra hspace
  rw [Bool.not_eq_false] at hspace
  have hspaces := of_isSpace (P := fun c => isIdentStart c = false) hspace (by decide +kernel)
  rw [hspaces] at h
  cases h

theorem isIdentPart_of_isSpace {c : Char} (h : isSpace c = true) : isIdentPart c = false := by
  have hdollar : (c == '$') = false := of_isSpace (P := fun c => (c == '$') = false) h (by decide)
  rw [isIdentPart, isWord_of_isSpace h, hdollar, Bool.or_false]

/-- An opening ends with its first opening parenthesis. -/
theorem Opening.exists_append {opening : List Char} (h : Opening opening) :
    ∃ front, opening = front ++ "(".toList ∧ '(' ∉ front := by
  obtain @⟨s, c, name, s', ⟨-, hs⟩, hc, hname, hs'⟩ := h
  refine ⟨"function".toList ++ (s ++ (c :: name ++ s')), by simp only [List.append_assoc], ?_⟩
  simp only [List.mem_append, List.mem_cons, not_or]
  refine ⟨by decide, fun h => absurd (hs _ h) (by decide), ⟨?_, ?_⟩, ?_⟩
  · rintro rfl
    exact absurd hc (by decide)
  · exact fun h => absurd (hname _ h) (by decide)
  · exact fun h => absurd (hs' _ h) (by decide)

/-- A header is recognised where its opening stands, if there is a closing parenthesis behind it. -/
theorem functionHeader_append {before : Option Char} (hbefore : wordStart before = true)
    {opening : List Char} (hopening : Opening opening) (rest : List Char) :
    functionHeader before (opening ++ rest) =
      (literal ")" (rest.dropWhile (· != ')'))).map fun behind =>
        .upTo () (opening ++ rest) (behind.dropWhile fun c => c != '\x7b' && c != ';') := by
  obtain @⟨s, c, name, s', ⟨hne, hs⟩, hc, hname, hs'⟩ := hopening
  have hspaces : spaces (s ++ (c :: (name ++ (s' ++ ("(".toList ++ rest))))) = some _ :=
    spaces_append hne hs (by simp [isSpace_of_isIdentStart hc])
  have hidentifier : identifier (c :: (name ++ (s' ++ ("(".toList ++ rest)))) =
      some (s' ++ ("(".toList ++ rest)) := by
    rw [identifier, if_pos hc, dropWhile_append_run hname]
    cases s' with
    | nil => rfl
    | cons d s' => exact isIdentPart_of_isSpace (hs' d (List.mem_cons_self ..))
  have hopen : literal "(" (trimStart (s' ++ ("(".toList ++ rest))) = some rest := by
    rw [trimStart, dropWhile_append_run hs' rfl, literal_append]
  simp only [functionHeader, List.append_assoc, List.cons_append, literal_append, hspaces,
    hidentifier, hopen, hbefore, guard_true, Option.bind_eq_bind, Option.bind_some, Option.pure_def]
  exact (Option.map_eq_bind ..).symm

/-- The first closing parenthesis. -/
theorem dropWhile_params {params : List Char} (hparams : ')' ∉ params) (rest : List Char) :
    (params ++ (")".toList ++ rest)).dropWhile (· != ')') = ")".toList ++ rest :=
  dropWhile_append_run (fun c hc => by simpa using ne_of_mem_of_not_mem hc hparams) rfl

theorem functionHeader_ne_none {before : Option Char} (hbefore : wordStart before = true)
    {opening : List Char} (hopening : Opening opening) {rest : List Char} (hclose : ')' ∈ rest) :
    functionHeader before (opening ++ rest) ≠ none := by
  obtain ⟨params, behind, hrest, hparams⟩ := List.eq_append_cons_of_mem hclose
  obtain rfl : rest = params ++ (")".toList ++ behind) := hrest
  rw [functionHeader_append hbefore hopening, dropWhile_params hparams, literal_append]
  exact Option.some_ne_none _

/-- A header is recognised up to what ends it. -/
theorem Header.functionHeader_append {t rest : List Char} (h : Header t) {before : Option Char}
    (hbefore : wordStart before = true) (hrest : ∀ c, rest.head? = some c → EndsHeader c) :
    functionHeader before (t ++ rest) = some (.upTo () (t ++ rest) rest) := by
  obtain @⟨opening, params, tail, hopening, hparams, htail⟩ := h
  have hend : (tail ++ rest).dropWhile (fun c => c != '\x7b' && c != ';') = rest := by
    refine dropWhile_append_run (fun c hc => ?_) ?_
    · simpa [EndsHeader] using htail c hc
    · cases hhead : rest.head? with
      | none => rfl
      | some c => rcases hrest c hhead with rfl | rfl <;> rfl
  simp only [List.append_assoc, Fix.functionHeader_append hbefore hopening,
    dropWhile_params hparams, literal_append, Option.map_some, hend]

/-- What is recognised is a header, up to what ends it. -/
theorem takes_header : functionHeader.Takes fun before _ t rest =>
    wordStart before = true ∧ Header t ∧ ∀ c, rest.head? = some c → EndsHeader c := by
  intro before cs h hh
  simp only [functionHeader, Option.bind_eq_bind, Option.bind_eq_some_iff, Option.guard_eq_some',
    literal_eq_some, Option.pure_def, Option.some.injEq] at hh
  obtain ⟨-, hbefore, _, rfl, _, hspaces, named, hread, opened, hopen, closed, hclose, rfl⟩ := hh
  obtain ⟨s, hs, rfl⟩ := exists_of_spaces hspaces
  obtain ⟨c, name, rfl, hc, hname⟩ := exists_of_identifier hread
  obtain ⟨s', hnamed, hs'⟩ := exists_eq_append_dropWhile isSpace named
  obtain ⟨params, hopened, hparams⟩ := exists_eq_append_dropWhile (· != ')') opened
  obtain ⟨tail, hclosed, htail⟩ :=
    exists_eq_append_dropWhile (fun c => c != '\x7b' && c != ';') closed
  generalize hrest : closed.dropWhile (fun c => c != '\x7b' && c != ';') = rest at hclosed
  rw [← trimStart, hopen] at hnamed
  rw [hclose] at hopened
  subst hnamed hopened hclosed
  refine ⟨_, rest, ?_, ?_, Hit.size_upTo_of_eq _ ?_, hbefore,
    .form (.form hs hc hname hs') (fun h => absurd (hparams _ h) (by decide))
      (fun c hc => by simpa [EndsHeader] using htail c hc), ?_⟩
  · simp only [List.append_assoc]
  · simp
  · simp only [List.append_assoc]
  · intro d hd
    rw [← hrest] at hd
    have hstop := head?_dropWhile_ne hd
    by_contra hends
    simp only [EndsHeader, not_or] at hends
    simp [hends] at hstop

/-! ## Where `virtual` is put -/

/-- What is behind the word `internal` in a header ends the word in the whole text too. -/
theorem wordEnd_behind {rest behind : List Char} (hrest : wordEnd rest = true)
    (hbehind : ∀ c, behind.head? = some c → EndsHeader c) : wordEnd (rest ++ behind) = true := by
  cases rest with
  | cons c rest => exact hrest
  | nil =>
    cases behind with
    | nil => rfl
    | cons c behind => rcases hbehind c rfl with rfl | rfl <;> rfl

theorem notMem_internal {x : Char} (hx : isWord x = false) : x ∉ "internal".toList := by
  intro hmem
  have hall : "internal".toList.all isWord = true := by decide
  rw [List.all_eq_true.mp hall x hmem] at hx
  cases hx

/-- What ends a text behind the word `internal` stands behind the word. -/
theorem mem_of_getLast? {a b : List Char} {x : Char} (hx : isWord x = false)
    (h : (a ++ ("internal".toList ++ b)).getLast? = some x) : x ∈ b := by
  rw [List.getLast?_append_of_ne_nil _ (by simp)] at h
  exact (List.mem_append.mp (List.mem_of_getLast? h)).resolve_left (notMem_internal hx)

section

variable {header behind front rest : List Char} {x : Char} (hlacks : lacksVirtual header = true)
  (hbehind : ∀ c, behind.head? = some c → EndsHeader c) (hlast : front.getLast? = some x)
  (hx : isWord x = false) (heq : header ++ behind = front ++ rest)

include hlacks hbehind hlast hx heq

/-- If the word `internal` does not stand in a front of the text from a header on, then the header
has the front and keeps it. -/
theorem addVirtual_behind (hfront : ¬ HasWord "internal" front) :
    ∃ a b, header = front ++ (a ++ ("internal".toList ++ b)) ∧
      addVirtual header = front ++ (a ++ ("internal virtual".toList ++ b)) := by
  obtain ⟨a, b, rfl, hstart, hend, hnew, -⟩ := exists_of_lacksVirtual hlacks
  rw [hnew]
  simp only [List.append_assoc] at heq
  rcases List.append_eq_append_iff.mp heq with ⟨more, rfl, hmore⟩ | ⟨more, rfl, -⟩
  · by_cases hnil : more = []
    · subst hnil
      exact ⟨[], b, by simp, by simp⟩
    · -- otherwise the word would start in the front
      rcases List.append_eq_append_iff.mp hmore with ⟨u, rfl, hu⟩ | ⟨u, hword, -⟩
      · have hne : u ≠ [] := List.ne_nil_of_mem (mem_of_getLast? hx hlast)
        have hu : wordEnd u = true := by
          rw [← wordEnd_append hne, ← hu]
          exact wordEnd_behind hend hbehind
        exact absurd ⟨a, u, rfl, hstart, hu⟩ hfront
      · rw [List.getLast?_append_of_ne_nil _ hnil] at hlast
        have hmem : x ∈ more ++ u := List.mem_append_left u (List.mem_of_getLast? hlast)
        exact absurd (hword ▸ hmem) (notMem_internal hx)
  · exact ⟨more, b, List.append_assoc .., List.append_assoc ..⟩

omit hbehind in
/-- If the word `internal` stands in the front, then `virtual` is put into it. -/
theorem addVirtual_within (hfront : HasWord "internal" front) :
    ∃ a b, front = a ++ ("internal".toList ++ b) ∧ x ∈ b ∧
      addVirtual header ++ behind = a ++ ("internal virtual".toList ++ (b ++ rest)) := by
  obtain ⟨a, b, hheader, hstart, hend, hnew, hfirst⟩ := exists_of_lacksVirtual hlacks
  obtain ⟨a', b', hword, hstart', hend'⟩ := hfront
  have hb' : b' ≠ [] := List.ne_nil_of_mem (mem_of_getLast? hx (hword ▸ hlast))
  have hle : a.length ≤ a'.length := by
    by_contra hlt
    have hwhole : header ++ behind = a' ++ "internal".toList ++ (b' ++ rest) := by
      rw [heq, hword]
      simp only [List.append_assoc]
    rcases List.append_eq_append_iff.mp hwhole with ⟨u, hu, -⟩ | ⟨u, hu, hb⟩
    · have hlengths := congrArg List.length hu
      rw [hheader] at hlengths
      simp only [List.length_append] at hlengths
      omega
    · -- the header itself has the word there
      have hend' : wordEnd u = true := by
        by_cases hne : u = []
        · rw [hne]
          rfl
        · rw [← wordEnd_append hne behind, ← hb, wordEnd_append hb', hend']
      exact hlt (hfirst a' u (by rw [hu, List.append_assoc]) hstart' hend')
  have hwhole : a ++ "internal".toList ++ (b ++ behind) = front ++ rest := by
    rw [← heq, hheader]
    simp only [List.append_assoc]
  rcases List.append_eq_append_iff.mp hwhole with ⟨g, rfl, hg⟩ | ⟨g, hg, -⟩
  · rw [List.append_assoc] at hlast ⊢
    refine ⟨a, g, rfl, mem_of_getLast? hx hlast, ?_⟩
    rw [hnew, ← hg]
    simp only [List.append_assoc]
  · have hlengths := congrArg List.length hg
    have hpos := List.length_pos_iff.mpr hb'
    rw [hword] at hlengths
    simp only [List.length_append] at hlengths
    omega

end

/-! ## Parameter lists -/

/-- A stretch in which every parenthesis is closed. -/
inductive Balanced : List Char → Prop where
  | nil : Balanced []
  | char {c : Char} {cs : List Char} (hc : c ≠ '(' ∧ c ≠ ')') (h : Balanced cs) : Balanced (c :: cs)
  | nested {inner cs : List Char} (h : Balanced inner) (h' : Balanced cs) :
      Balanced ("(".toList ++ (inner ++ (")".toList ++ cs)))

/-- The front of a function header: its opening, and its parameters with the parenthesis that closes
their list. -/
inductive Signature : List Char → Prop where
  | form {opening params : List Char} (hopening : Opening opening) (hparams : Balanced params) :
      Signature (opening ++ (params ++ ")".toList))

theorem Signature.getLast? {front : List Char} (h : Signature front) :
    front.getLast? = some ')' := by
  obtain @⟨opening, params, -, -⟩ := h
  rw [← List.append_assoc, List.getLast?_append_of_ne_nil _ (by decide)]
  rfl

/-- A text that is put behind others does not begin as before. -/
theorem append_ne_of_mem {w b rest more : List Char} {x : Char} (hw : w ≠ []) (hxw : x ∉ w)
    (hxb : x ∈ b) : w ++ (b ++ rest) ≠ b ++ more := by
  intro heq
  have hfirst := congrArg (List.idxOf x) heq
  rw [List.idxOf_append_of_notMem hxw, List.idxOf_append_of_mem hxb,
    List.idxOf_append_of_mem hxb] at hfirst
  have hpos := List.length_pos_iff.mpr hw
  omega

/-- **Where `virtual` is put.** In every header that is rewritten, if the word `internal` stands
neither in the name nor in the list of parameters, then both are kept, and `virtual` follows an
`internal` behind the parenthesis that closes the list. If it stands in one of them, then `virtual` is
put there, and the name and the list do not stay the same. -/
theorem virtual_behind_parameters {cs : List Char} {pre post : List (Piece Unit)}
    {header front rest : List Char}
    (hsplit : functionHeader.split cs = pre ++ .hit () header :: post)
    (hrewritten : addVirtual header ≠ header) (hfront : Signature front)
    (hrest : header ++ post.flatMap Piece.text = front ++ rest) :
    (markInternalVirtual cs).text =
      pre.flatMap (Piece.replaced fun _ => addVirtual) ++
        (addVirtual header ++ post.flatMap (Piece.replaced fun _ => addVirtual)) ∧
    (¬ HasWord "internal" front → ∃ a b, header = front ++ (a ++ ("internal".toList ++ b)) ∧
      addVirtual header = front ++ (a ++ ("internal virtual".toList ++ b))) ∧
    (HasWord "internal" front → ¬ front <+: addVirtual header ++ post.flatMap Piece.text) := by
  have hlacks : lacksVirtual header = true := by
    by_contra hvirtual
    exact hrewritten (if_neg hvirtual)
  obtain ⟨-, _, -, -, hbehind⟩ := takes_header.of_pieces_eq hsplit
  refine ⟨?_, addVirtual_behind hlacks hbehind hfront.getLast? (by decide) hrest, ?_⟩
  · rw [markInternalVirtual, Pattern.replace_eq, ← Pattern.split, hsplit, List.flatMap_append]
    rfl
  · rintro hword ⟨more, hmore⟩
    obtain ⟨a, b, rfl, hmem, hnew⟩ :=
      addVirtual_within hlacks hfront.getLast? (by decide) hrest hword
    rw [hnew] at hmore
    simp only [List.append_assoc] at hmore
    have hshift : b ++ more = " virtual".toList ++ (b ++ rest) :=
      @List.append_cancel_left _ "internal".toList _ _ (List.append_cancel_left hmore)
    exact append_ne_of_mem (by decide) (by decide) hmem hshift.symm

/-- A stretch without parentheses in front of one in which they are closed. -/
theorem Balanced.plain_append {plain cs : List Char}
    (hplain : plain.all (fun c => c != '(' && c != ')') = true) (h : Balanced cs) :
    Balanced (plain ++ cs) := by
  induction plain with
  | nil => exact h
  | cons c plain ih =>
    obtain ⟨hc, hplain⟩ := Bool.and_eq_true_iff.mp hplain
    exact .char (by simpa using hc) (ih hplain)

/-- An opening with one space in it. -/
theorem opening_plain (c : Char) (name : List Char) (hc : isIdentStart c = true)
    (hname : name.all isIdentPart = true) :
    Opening ("function ".toList ++ (c :: name ++ "(".toList)) := by
  have hspace : [' '] ≠ [] ∧ ∀ d ∈ [' '], isSpace d = true := ⟨by simp, by simp [isSpace]⟩
  exact @Opening.form [' '] c name [] hspace hc (List.all_eq_true.mp hname) (by simp)

/-- The front of a function that takes a callback. -/
theorem signature_callback (location : String)
    (h : location.toList.all (fun c => c != '(' && c != ')') = true) :
    Signature ("function each(function(uint) ".toList ++ (location.toList ++ " f)".toList)) := by
  have huint : Balanced ("uint".toList ++ []) := .plain_append (by decide) .nil
  have hparams : Balanced ("function".toList ++ ("(".toList ++ ("uint".toList ++ [] ++
      (")".toList ++ (" ".toList ++ (location.toList ++ (" f".toList ++ []))))))) :=
    .plain_append (by decide) (.nested huint (.plain_append (by decide)
      (.plain_append h (.plain_append (by decide) .nil))))
  have hform := Signature.form (opening_plain 'e' "ach".toList (by decide) (by decide)) hparams
  simp only [List.append_assoc] at hform
  exact hform

/-- An internal function that takes a callback. -/
def callbackFunction : String := "function each(function(uint) external f) internal;"

/-- `virtual` follows the `internal` of the function, behind the nested parentheses. -/
theorem virtual_behind_parameters_callback :
    functionHeader.split callbackFunction.toList =
      [] ++ .hit () "function each(function(uint) external f) internal".toList :: [.gap ';'] ∧
    Signature "function each(function(uint) external f)".toList ∧
    ∃ a b, addVirtual "function each(function(uint) external f) internal".toList =
        "function each(function(uint) external f)".toList ++
          (a ++ ("internal virtual".toList ++ b)) := by
  have hsplit : functionHeader.split callbackFunction.toList =
      [] ++ .hit () "function each(function(uint) external f) internal".toList :: [.gap ';'] := by
    decide +kernel
  have hsignature : Signature "function each(function(uint) external f)".toList :=
    signature_callback "external" (by decide)
  have hrest : "function each(function(uint) external f) internal".toList ++
      [.gap ';'].flatMap (Piece.text (α := Unit)) =
        "function each(function(uint) external f)".toList ++ " internal;".toList := by
    decide +kernel
  have hword : ¬ HasWord "internal" "function each(function(uint) external f)".toList :=
    (values_wholeWord_eq_nil_iff (by decide)).mp (by decide +kernel)
  obtain ⟨-, hbehind, -⟩ :=
    virtual_behind_parameters hsplit (by decide +kernel) hsignature hrest
  obtain ⟨a, b, -, hnew⟩ := hbehind hword
  exact ⟨hsplit, hsignature, a, b, hnew⟩

/-- **`virtual` gets into the list of parameters** behind the `internal` of a callback, and into the
name of a function behind a dollar sign. -/
theorem virtual_within_parameters :
    Signature "function each(function(uint) internal f)".toList ∧
    (markInternalVirtual "function each(function(uint) internal f) public;".toList).text =
      "function each(function(uint) internal virtual f) public;".toList ∧
    Signature "function to$internal()".toList ∧
    (markInternalVirtual "function to$internal() public;".toList).text =
      "function to$internal virtual() public;".toList := by
  refine ⟨signature_callback "internal" (by decide), by decide +kernel, ?_, by decide +kernel⟩
  exact .form (opening_plain 't' "o$internal".toList (by decide) (by decide)) .nil

end Fix

end ContractBuild
