import ContractBuild.Proofs.Recognition

/-!
# Regular expressions

A pattern reads a text from left to right and never goes back. A regular expression has a meaning
of its own: all the ways to match at a position, in the order in which they are tried. What it finds
is the first of them.

- **Ways** (`ways`): a run of a class is tried from the longest to the shortest or the other way
  round, and a text that may be missing is tried first. Whatever way is taken, nothing of the text
  is lost (`taken_append_rest`).
- **Finding** (`found`): what the first way leaves, and its groups, with equations for each item. A
  greedy run is taken whole if the rest of the expression finds nothing inside it
  (`found_many_of_none`) or finds something behind it (`found_many_of_some`). A lazy run ends where
  the rest first finds something (`found_group_few`).
- **Searches** (`pattern`): an expression as a pattern. Patterns that differ in their values only
  cut a text in the same places (`Pattern.pieces_map`, `Pattern.ranges_map`).
-/

namespace ContractBuild.Text

/-- A part of a regular expression. Nothing is repeated but classes of characters. -/
inductive Regex.Item where
  /-- The start of a line, `^`. -/
  | lineStart
  /-- The end of a line, `$`. -/
  | lineEnd
  /-- A fixed text. -/
  | word (s : String)
  /-- A run of a class, the longest first: `p*`. -/
  | many (p : Char → Bool)
  /-- A run of a class, the shortest first: `p*?`. -/
  | few (p : Char → Bool)
  /-- A fixed text that may be missing: `s?`. -/
  | maybe (s : String)
  /-- An item whose text is kept: `(i)`. -/
  | group (i : Item)

/-- A regular expression, item by item. -/
abbrev Regex := List Regex.Item

/-- A line ends here. -/
def lineEnd (cs : List Char) : Bool := cs.head?.all (· == '\n')

namespace Regex

/-! ## Ways -/

/-- A way to match: what is taken of a text, what is left of it, and the texts of the groups. -/
structure Match where
  taken : List Char
  rest : List Char
  groups : List (List Char) := []

/-- One match behind another. -/
def Match.append (m n : Match) : Match := ⟨m.taken ++ n.taken, n.rest, m.groups ++ n.groups⟩

/-- The runs of a class at the front of a text, the shortest first. -/
def runs (p : Char → Bool) : List Char → List Match
  | [] => [{ taken := [], rest := [] }]
  | c :: cs =>
    { taken := [], rest := c :: cs } ::
      if p c then (runs p cs).map fun m => { m with taken := c :: m.taken } else []

/-- The way to take a fixed text, if it stands here. -/
def wordWays (s : String) (cs : List Char) : List Match :=
  ((literal s cs).map fun rest => { taken := s.toList, rest }).toList

/-- The ways of an item behind the character `before`, in the order in which they are tried. -/
def Item.ways : Item → Option Char → List Char → List Match
  | lineStart, before, cs =>
    if Text.lineStart before then [{ taken := [], rest := cs }] else []
  | lineEnd, _, cs => if Text.lineEnd cs then [{ taken := [], rest := cs }] else []
  | word s, _, cs => wordWays s cs
  | many p, _, cs => (runs p cs).reverse
  | few p, _, cs => runs p cs
  | maybe s, _, cs => wordWays s cs ++ [{ taken := [], rest := cs }]
  | group i, before, cs =>
    (i.ways before cs).map fun m => { m with groups := m.taken :: m.groups }

/-- The ways of an expression: all ways of the first item are tried, and behind each of them all
ways of the others. -/
def ways : Regex → Option Char → List Char → List Match
  | [], _, cs => [{ taken := [], rest := cs }]
  | i :: e, before, cs =>
    (i.ways before cs).flatMap fun m =>
      (ways e (m.taken.getLast?.or before) m.rest).map m.append

theorem taken_append_rest_of_mem_runs {p : Char → Bool} {cs : List Char} {m : Match}
    (h : m ∈ runs p cs) : m.taken ++ m.rest = cs := by
  induction cs generalizing m with
  | nil =>
    obtain rfl := List.mem_singleton.mp h
    rfl
  | cons c cs ih =>
    rw [runs, List.mem_cons] at h
    rcases h with rfl | h
    · rfl
    · split at h
      · obtain ⟨n, hn, rfl⟩ := List.mem_map.mp h
        exact congrArg (c :: ·) (ih hn)
      · cases h

theorem taken_append_rest_of_mem_wordWays {s : String} {cs : List Char} {m : Match}
    (h : m ∈ wordWays s cs) : m.taken ++ m.rest = cs := by
  rw [wordWays, Option.mem_toList, Option.map_eq_some_iff] at h
  obtain ⟨rest, hrest, rfl⟩ := h
  exact (literal_eq_some.mp hrest).symm

theorem Item.taken_append_rest {i : Item} {before : Option Char} {cs : List Char} {m : Match}
    (h : m ∈ i.ways before cs) : m.taken ++ m.rest = cs := by
  induction i generalizing m with
  | lineStart =>
    rw [ways, List.mem_ite_nil_right, List.mem_singleton] at h
    rw [h.2, List.nil_append]
  | lineEnd =>
    rw [ways, List.mem_ite_nil_right, List.mem_singleton] at h
    rw [h.2, List.nil_append]
  | word s => exact taken_append_rest_of_mem_wordWays h
  | many p => exact taken_append_rest_of_mem_runs (List.mem_reverse.mp h)
  | few p => exact taken_append_rest_of_mem_runs h
  | maybe s =>
    rw [ways, List.mem_append, List.mem_singleton] at h
    rcases h with h | rfl
    · exact taken_append_rest_of_mem_wordWays h
    · rfl
  | group i ih =>
    obtain ⟨n, hn, rfl⟩ := List.mem_map.mp h
    have hcs : n.taken ++ n.rest = cs := ih hn
    exact hcs

/-- **Whatever way is taken, nothing of the text is lost.** -/
theorem taken_append_rest {e : Regex} {before : Option Char} {cs : List Char} {m : Match}
    (h : m ∈ ways e before cs) : m.taken ++ m.rest = cs := by
  induction e generalizing before cs m with
  | nil =>
    obtain rfl := List.mem_singleton.mp h
    rfl
  | cons i e ih =>
    obtain ⟨first, hfirst, hm⟩ := List.mem_flatMap.mp h
    obtain ⟨second, hsecond, rfl⟩ := List.mem_map.mp hm
    calc first.taken ++ second.taken ++ second.rest
        = first.taken ++ first.rest := by rw [List.append_assoc, ih hsecond]
      _ = cs := Item.taken_append_rest hfirst

/-- The longest run comes last, and every other one stops before a character of the class. -/
theorem exists_reverse_runs (p : Char → Bool) (cs : List Char) : ∃ shorter,
    (runs p cs).reverse = { taken := cs.takeWhile p, rest := cs.dropWhile p } :: shorter ∧
      ∀ m ∈ shorter, ∃ c rest, m.rest = c :: rest ∧ p c = true := by
  induction cs with
  | nil => exact ⟨[], rfl, by simp⟩
  | cons c cs ih =>
    by_cases hc : p c = true
    · obtain ⟨shorter, heq, hshorter⟩ := ih
      refine ⟨shorter.map (fun m => { m with taken := c :: m.taken }) ++
        [{ taken := [], rest := c :: cs }], ?_, ?_⟩
      · rw [runs, if_pos hc, List.reverse_cons, ← List.map_reverse, heq,
          List.takeWhile_cons_of_pos hc, List.dropWhile_cons_of_pos hc]
        rfl
      · intro m hm
        rcases List.mem_append.mp hm with hm | hm
        · obtain ⟨n, hn, rfl⟩ := List.mem_map.mp hm
          exact hshorter n hn
        · obtain rfl := List.mem_singleton.mp hm
          exact ⟨c, cs, rfl, hc⟩
    · refine ⟨[], ?_, by simp⟩
      rw [runs, if_neg hc, List.takeWhile_cons_of_neg hc, List.dropWhile_cons_of_neg hc]
      rfl

/-- Runs are tried in the order of their length. -/
theorem findSome?_runs {β : Type} {p : Char → Bool} {front rest : List Char} {f : Match → Option β}
    (hp : ∀ c ∈ front, p c = true)
    (hnone : ∀ u v, front = u ++ v → v ≠ [] → f { taken := u, rest := v ++ rest } = none) {b : β}
    (hsome : f { taken := front, rest := rest } = some b) :
    (runs p (front ++ rest)).findSome? f = some b := by
  induction front generalizing f with
  | nil => cases rest <;> simp [runs, hsome]
  | cons c front ih =>
    obtain ⟨hc, hp⟩ := List.forall_mem_cons.mp hp
    have hempty : f { taken := [], rest := c :: (front ++ rest) } = none :=
      hnone [] (c :: front) rfl (List.cons_ne_nil c front)
    rw [List.cons_append, runs, List.findSome?_cons, hempty, if_pos hc, List.findSome?_map]
    exact ih hp (fun u v huv hv => hnone (c :: u) v (congrArg (c :: ·) huv) hv) hsome

/-! ## Finding -/

/-- What is left behind the first way, and its groups. -/
def found (e : Regex) (before : Option Char) (cs : List Char) :
    Option (List Char × List (List Char)) :=
  (ways e before cs).head?.map fun m => (m.rest, m.groups)

section

variable {e : Regex} {p : Char → Bool} {before : Option Char} {cs : List Char}

theorem found_cons (i : Item) (e : Regex) (before : Option Char) (cs : List Char) :
    found (i :: e) before cs = (i.ways before cs).findSome? fun m =>
      (found e (m.taken.getLast?.or before) m.rest).map fun r => (r.1, m.groups ++ r.2) := by
  rw [found, ways, List.head?_flatMap, List.map_findSome?]
  congr 1
  funext m
  simp only [Function.comp_apply, List.head?_map, Option.map_map, found]
  rfl

theorem found_lineStart :
    found (.lineStart :: e) before cs = if lineStart before then found e before cs else none := by
  rw [found_cons, Item.ways]
  split <;> simp

theorem found_lineEnd :
    found (.lineEnd :: e) before cs = if lineEnd cs then found e before cs else none := by
  rw [found_cons, Item.ways]
  split <;> simp

theorem found_word {s : String} : found (.word s :: e) before cs =
    (literal s cs).bind fun rest => found e (s.toList.getLast?.or before) rest := by
  rw [found_cons, Item.ways, wordWays]
  cases literal s cs <;> simp

/-- A fixed text is not found before another character than its first. -/
theorem found_word_of_ne {s : String} {d : Char} {w : List Char} (hs : s.toList = d :: w) {c : Char}
    (hc : c ≠ d) : found (.word s :: e) before (c :: cs) = none := by
  rw [found_word]
  cases hliteral : literal s (c :: cs) with
  | none => rfl
  | some rest =>
    rw [literal_eq_some, hs] at hliteral
    exact absurd (List.cons.inj hliteral).1 hc

theorem found_maybe {s : String} : found (.maybe s :: e) before cs =
    ((literal s cs).bind fun rest => found e (s.toList.getLast?.or before) rest).or
      (found e before cs) := by
  rw [found_cons, Item.ways, List.findSome?_append, wordWays]
  cases literal s cs <;> simp

/-- A greedy run is taken whole if something is found behind it. -/
theorem found_many_of_some {r : List Char × List (List Char)}
    (h : found e ((cs.takeWhile p).getLast?.or before) (cs.dropWhile p) = some r) :
    found (.many p :: e) before cs = some r := by
  obtain ⟨shorter, hways, -⟩ := exists_reverse_runs p cs
  rw [found_cons, Item.ways, hways, List.findSome?_cons, h]
  simp

/-- A greedy run is taken whole if nothing is found inside it. -/
theorem found_many_of_none (h : ∀ b c cs, p c = true → found e b (c :: cs) = none) :
    found (.many p :: e) before cs =
      found e ((cs.takeWhile p).getLast?.or before) (cs.dropWhile p) := by
  cases hfound : found e ((cs.takeWhile p).getLast?.or before) (cs.dropWhile p) with
  | some r => exact found_many_of_some hfound
  | none =>
    obtain ⟨shorter, hways, hshorter⟩ := exists_reverse_runs p cs
    rw [found_cons, Item.ways, hways, List.findSome?_cons, hfound, Option.map_none]
    refine List.findSome?_eq_none_iff.mpr fun m hm => ?_
    obtain ⟨c, rest, hrest, hc⟩ := hshorter m hm
    rw [hrest, h _ c rest hc, Option.map_none]

/-- A greedy run is taken whole before a fixed text that starts outside the class. -/
theorem found_many_word {s : String} {d : Char} {w : List Char} (hs : s.toList = d :: w)
    (hd : p d = false) : found (.many p :: .word s :: e) before cs =
      (literal s (cs.dropWhile p)).bind fun rest =>
        found e (s.toList.getLast?.or ((cs.takeWhile p).getLast?.or before)) rest := by
  rw [found_many_of_none, found_word]
  intro b c cs hc
  refine found_word_of_ne hs ?_
  rintro rfl
  rw [hd] at hc
  cases hc

/-- A lazy run ends where something is first found behind it. -/
theorem found_group_few {front rest : List Char} {r : List Char × List (List Char)}
    (hp : ∀ c ∈ front, p c = true)
    (hnone : ∀ u v, front = u ++ v → v ≠ [] →
      found e (u.getLast?.or before) (v ++ rest) = none)
    (hsome : found e (front.getLast?.or before) rest = some r) :
    found (.group (.few p) :: e) before (front ++ rest) = some (r.1, front :: r.2) := by
  rw [found_cons, Item.ways, Item.ways, List.findSome?_map]
  refine findSome?_runs hp (fun u v huv hv => ?_) ?_
  · rw [Function.comp_apply, hnone u v huv hv, Option.map_none]
  · rw [Function.comp_apply, hsome]
    rfl

end

/-! ## Searches -/

/-- An expression as a pattern; the value is the texts of the groups. -/
def pattern (e : Regex) : Pattern (List (List Char)) := fun before cs =>
  (ways e before cs).head?.map fun m => ⟨m.groups, m.taken.length⟩

theorem pattern_eq (e : Regex) (before : Option Char) (cs : List Char) :
    e.pattern before cs = (found e before cs).map fun r => .upTo r.2 cs r.1 := by
  rw [pattern, found, Option.map_map]
  cases h : (ways e before cs).head? with
  | none => rfl
  | some m =>
    have hcs := taken_append_rest (List.mem_of_head? h)
    simp [← hcs, Hit.upTo]

end Regex

section

variable {α β : Type}

/-- A hit with another value. -/
def Hit.map (f : α → β) (h : Hit α) : Hit β := ⟨f h.value, h.size⟩

/-- A piece with another value. -/
def Piece.map (f : α → β) : Piece α → Piece β
  | gap c => gap c
  | hit v t => hit (f v) t

namespace Pattern

variable {p : Pattern α} {q : Pattern β} {f : α → β}

/-- **Patterns that differ in their values only cut a text in the same places.** -/
theorem pieces_map (h : ∀ before cs, q before cs = (p before cs).map (Hit.map f))
    (before : Option Char) (cs : List Char) :
    q.pieces before cs = (p.pieces before cs).map (Piece.map f) := by
  fun_induction pieces p before cs with
  | case1 => rw [pieces, List.map_nil]
  | case2 before c cs found hp more ih =>
    rw [pieces, h, hp, List.map_cons, ← ih]
    rfl
  | case3 before c cs hp ih =>
    rw [pieces, h, hp, List.map_cons, ← ih]
    rfl

theorem rangesFrom_map (f : α → β) (n : Nat) (ps : List (Piece α)) :
    rangesFrom n (ps.map (Piece.map f)) = rangesFrom n ps := by
  induction ps generalizing n with
  | nil => rfl
  | cons piece ps ih =>
    cases piece with
    | gap c => exact ih (n + 1)
    | hit v t => exact congrArg ((n, n + t.length) :: ·) (ih (n + t.length))

theorem ranges_map (h : ∀ before cs, q before cs = (p before cs).map (Hit.map f))
    (cs : List Char) : q.ranges cs = p.ranges cs := by
  rw [ranges, split, pieces_map h, rangesFrom_map, ranges, split]

end Pattern

end

end ContractBuild.Text
