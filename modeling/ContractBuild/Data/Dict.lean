/-!
# Dictionaries with ordered keys

A `Dict` holds entries by key, in ascending order of the keys. The order of strings is that of
their code points, which is also the order of their UTF-8 bytes. That the keys ascend is part of the
type, so a dictionary is determined by what it holds.

Main statements: `Dict.get?_insert_self` and `Dict.get?_insert_ne` say what an insertion does to
look-ups, `Dict.get?_ofList` what entries that are put in one after the other come to, and
`KeySet.contains_add` what an insertion does to a set.
-/

namespace ContractBuild

/-- Entries of a dictionary in ascending order of their keys. -/
def Ascending {α : Type} (entries : List (String × α)) : Prop :=
  entries.Pairwise fun a b => a.1 < b.1

/-- A dictionary from strings. -/
structure Dict (α : Type) where
  entries : List (String × α)
  ascending : Ascending entries

namespace Dict

variable {α β : Type}

/-- The dictionary that holds nothing. -/
def empty : Dict α := ⟨[], List.Pairwise.nil⟩

instance : EmptyCollection (Dict α) := ⟨empty⟩

instance : Inhabited (Dict α) := ⟨empty⟩

instance [Repr α] : Repr (Dict α) := ⟨fun d n => reprPrec d.entries n⟩

instance [DecidableEq α] : DecidableEq (Dict α) := fun a b =>
  decidable_of_iff (a.entries = b.entries) (by cases a; cases b; simp)

/-- Puts an entry in its place among ascending entries, over one with the same key. -/
def insertEntry (key : String) (value : α) : List (String × α) → List (String × α)
  | [] => [(key, value)]
  | e :: rest =>
    if key < e.1 then (key, value) :: e :: rest
    else if e.1 < key then e :: insertEntry key value rest
    else (key, value) :: rest

theorem mem_insertEntry {key : String} {value : α} {entries : List (String × α)}
    {e : String × α} (h : e ∈ insertEntry key value entries) : e = (key, value) ∨ e ∈ entries := by
  induction entries with
  | nil => simpa [insertEntry] using h
  | cons a rest ih =>
    rw [insertEntry] at h
    split at h
    · simpa using h
    · split at h
      · rcases List.mem_cons.mp h with rfl | h
        · simp
        · rcases ih h with h | h <;> simp [h]
      · rcases List.mem_cons.mp h with rfl | h <;> simp [*]

theorem ascending_insertEntry (key : String) (value : α) {entries : List (String × α)}
    (h : Ascending entries) : Ascending (insertEntry key value entries) := by
  induction entries with
  | nil => simp [insertEntry, Ascending]
  | cons a rest ih =>
    have ⟨ha, hr⟩ := List.pairwise_cons.mp h
    rw [insertEntry]
    split
    · rename_i hk
      refine List.pairwise_cons.mpr ⟨fun b hb => ?_, h⟩
      rcases List.mem_cons.mp hb with rfl | hb
      · exact hk
      · exact String.lt_trans hk (ha b hb)
    · split
      · rename_i hk
        refine List.pairwise_cons.mpr ⟨fun b hb => ?_, ih hr⟩
        rcases mem_insertEntry hb with rfl | hb
        · exact hk
        · exact ha b hb
      · rename_i h1 h2
        have he : a.1 = key := String.le_antisymm (String.not_lt.mp h1) (String.not_lt.mp h2)
        exact List.pairwise_cons.mpr ⟨fun b hb => he ▸ ha b hb, hr⟩

/-- An entry behind all others is put in last. -/
theorem insertEntry_eq_append {key : String} {value : α} {entries : List (String × α)}
    (h : ∀ e ∈ entries, e.1 < key) : insertEntry key value entries = entries ++ [(key, value)] := by
  induction entries with
  | nil => rfl
  | cons e rest ih =>
    obtain ⟨he, hrest⟩ := List.forall_mem_cons.mp h
    rw [insertEntry, if_neg (String.lt_asymm he), if_pos he, ih hrest, List.cons_append]

/-- The dictionary with one entry put in, over one with the same key. -/
def insert (d : Dict α) (key : String) (value : α) : Dict α :=
  ⟨insertEntry key value d.entries, ascending_insertEntry key value d.ascending⟩

/-- The entries put in one after the other. -/
def ofList (entries : List (String × α)) : Dict α :=
  entries.foldl (fun d e => d.insert e.1 e.2) empty

theorem entries_foldl_insert (d : Dict α) (es : List (String × α))
    (h : Ascending (d.entries ++ es)) :
    (es.foldl (fun d e => d.insert e.1 e.2) d).entries = d.entries ++ es := by
  induction es generalizing d with
  | nil => simp
  | cons e es ih =>
    have hlast : (d.insert e.1 e.2).entries = d.entries ++ [e] := by
      refine insertEntry_eq_append fun x hx => ?_
      exact (List.pairwise_append.mp h).2.2 x hx e (List.mem_cons_self ..)
    rw [List.foldl_cons, ih, hlast, List.append_assoc, List.singleton_append]
    rwa [hlast, List.append_assoc, List.singleton_append]

theorem eq_of_entries {d d' : Dict α} (h : d.entries = d'.entries) : d = d' := by
  cases d
  cases d'
  cases h
  rfl

/-- A dictionary is its entries put in one after the other. -/
theorem ofList_entries (d : Dict α) : ofList d.entries = d :=
  eq_of_entries (entries_foldl_insert empty d.entries d.ascending)

/-- The value under a key. -/
def get? (d : Dict α) (key : String) : Option α :=
  (d.entries.find? (·.1 == key)).map (·.2)

/-- Whether there is an entry under a key. -/
def contains (d : Dict α) (key : String) : Bool := d.entries.any (·.1 == key)

/-- The keys in ascending order. -/
def keys (d : Dict α) : List String := d.entries.map (·.1)

/-- The values in ascending order of their keys. -/
def values (d : Dict α) : List α := d.entries.map (·.2)

/-- The number of entries. -/
def size (d : Dict α) : Nat := d.entries.length

/-- Whether there are no entries. -/
def isEmpty (d : Dict α) : Bool := d.entries.isEmpty

/-- Each value replaced by what `f` makes of its key and itself. -/
def mapWithKey (f : String → α → β) (d : Dict α) : Dict β :=
  ⟨d.entries.map fun e => (e.1, f e.1 e.2), by
    simpa [Ascending, List.pairwise_map] using d.ascending⟩

/-- Each value replaced by its image. -/
def map (f : α → β) (d : Dict α) : Dict β := d.mapWithKey fun _ => f

private theorem find?_insertEntry_self (key : String) (value : α) (entries : List (String × α)) :
    ((insertEntry key value entries).find? (·.1 == key)) = some (key, value) := by
  induction entries with
  | nil => simp [insertEntry]
  | cons a rest ih =>
    rw [insertEntry]
    split
    · simp
    · split
      · rename_i h
        have hne : a.1 ≠ key := fun e => String.lt_irrefl key (e ▸ h)
        simpa [List.find?_cons, hne] using ih
      · simp

private theorem find?_insertEntry_ne {key other : String} (value : α)
    (entries : List (String × α)) (hne : other ≠ key) :
    (insertEntry key value entries).find? (·.1 == other) = entries.find? (·.1 == other) := by
  induction entries with
  | nil => simp [insertEntry, hne.symm]
  | cons a rest ih =>
    rw [insertEntry]
    split
    · simp [List.find?_cons, hne.symm]
    · split
      · simp only [List.find?_cons, ih]
      · rename_i h1 h2
        have he : a.1 = key := String.le_antisymm (String.not_lt.mp h1) (String.not_lt.mp h2)
        simp [hne.symm, he]

/-- **What was put in last under a key is found under it.** -/
theorem get?_insert_self (d : Dict α) (key : String) (value : α) :
    (d.insert key value).get? key = some value := by
  simp [get?, insert, find?_insertEntry_self]

/-- **Other keys are found as before.** -/
theorem get?_insert_ne (d : Dict α) {key other : String} (value : α) (h : other ≠ key) :
    (d.insert key value).get? other = d.get? other := by
  simp [get?, insert, find?_insertEntry_ne value d.entries h]

/-- What is found under a key is what stands under it: a key stands there once. -/
theorem get?_eq_some_iff {d : Dict α} {key : String} {value : α} :
    d.get? key = some value ↔ (key, value) ∈ d.entries := by
  constructor
  · intro h
    obtain ⟨⟨k, v⟩, hf, rfl⟩ := Option.map_eq_some_iff.mp h
    have hk : k = key := by simpa using List.find?_some hf
    rw [← hk]
    exact List.mem_of_find?_eq_some hf
  · intro h
    obtain ⟨before, after, hsplit⟩ := List.append_of_mem h
    have hbefore : ∀ e ∈ before, e.1 ≠ key := fun e he heq => by
      have hlt := (List.pairwise_append.mp (hsplit ▸ d.ascending)).2.2 e he _ List.mem_cons_self
      exact String.lt_irrefl key (heq ▸ hlt)
    have hfind : d.entries.find? (·.1 == key) = some (key, value) := by
      rw [List.find?_eq_some_iff_append]
      exact ⟨by simp, before, after, hsplit, by simpa using hbefore⟩
    rw [get?, hfind, Option.map_some]

theorem get?_foldl_insert {d : Dict α} {es : List (String × α)} {key : String} {value : α} :
    (es.foldl (fun d e => d.insert e.1 e.2) d).get? key = some value ↔
      (∃ before after, es = before ++ (key, value) :: after ∧ ∀ e ∈ after, e.1 ≠ key) ∨
      d.get? key = some value ∧ ∀ e ∈ es, e.1 ≠ key := by
  induction es generalizing d with
  | nil => simp
  | cons e es ih =>
    rw [List.foldl_cons, ih]
    constructor
    · rintro (⟨before, after, rfl, hafter⟩ | ⟨hget, hes⟩)
      · exact .inl ⟨e :: before, after, rfl, hafter⟩
      · by_cases he : e.1 = key
        · subst he
          rw [get?_insert_self, Option.some.injEq] at hget
          exact .inl ⟨[], es, by rw [← hget]; rfl, hes⟩
        · rw [get?_insert_ne d e.2 (Ne.symm he)] at hget
          exact .inr ⟨hget, List.forall_mem_cons.mpr ⟨he, hes⟩⟩
    · rintro (⟨before, after, hsplit, hafter⟩ | ⟨hget, hes⟩)
      · cases before with
        | nil =>
          cases hsplit
          exact .inr ⟨get?_insert_self .., hafter⟩
        | cons e' before =>
          rw [List.cons_append, List.cons.injEq] at hsplit
          exact .inl ⟨before, after, hsplit.2, hafter⟩
      · obtain ⟨he, hes⟩ := List.forall_mem_cons.mp hes
        exact .inr ⟨by rwa [get?_insert_ne d e.2 (Ne.symm he)], hes⟩

/-- **Of several entries with one key the last one counts.** -/
theorem get?_ofList {es : List (String × α)} {key : String} {value : α} :
    (ofList es).get? key = some value ↔
      ∃ before after, es = before ++ (key, value) :: after ∧ ∀ e ∈ after, e.1 ≠ key := by
  rw [ofList, get?_foldl_insert, or_iff_left]
  rintro ⟨hget, -⟩
  cases hget

theorem contains_eq_isSome_get? (d : Dict α) (key : String) :
    d.contains key = (d.get? key).isSome := by
  rw [contains, get?, Option.isSome_map, List.isSome_find?]

theorem contains_insert (d : Dict α) (key other : String) (value : α) :
    (d.insert key value).contains other = (other == key || d.contains other) := by
  simp only [contains_eq_isSome_get?]
  by_cases h : other = key
  · subst h; simp [get?_insert_self]
  · simp [get?_insert_ne d value h, h]

theorem contains_ofList (es : List (String × α)) (key : String) :
    (ofList es).contains key = es.any (·.1 == key) := by
  have hfold (d : Dict α) : (es.foldl (fun d e => d.insert e.1 e.2) d).contains key =
      (es.any (·.1 == key) || d.contains key) := by
    induction es generalizing d with
    | nil => rfl
    | cons e es ih =>
      rw [List.foldl_cons, ih, contains_insert, List.any_cons, Bool.or_left_comm, Bool.or_assoc,
        Bool.beq_comm]
  rw [ofList, hfold]
  exact Bool.or_false _

/-- What is found under a key stands under it. -/
theorem mem_keys_of_contains {d : Dict α} {key : String} (h : d.contains key = true) :
    key ∈ d.keys := by
  simpa [contains, keys] using h

theorem contains_of_mem_keys {d : Dict α} {key : String} (h : key ∈ d.keys) :
    d.contains key = true := by
  simpa [contains, keys] using h

end Dict

/-- A set of strings. -/
abbrev KeySet := Dict Unit

namespace KeySet

/-- The set with one more member. -/
def add (s : KeySet) (key : String) : KeySet := Dict.insert s key ()

/-- The members put in one after the other. -/
def addAll (s : KeySet) (keys : List String) : KeySet := keys.foldl add s

/-- A set with one more member holds that member and what it held before. -/
theorem contains_add (s : KeySet) (key other : String) :
    (s.add key).contains other = (other == key || s.contains other) :=
  Dict.contains_insert s key other ()

theorem contains_addAll (s : KeySet) (keys : List String) (other : String) :
    (s.addAll keys).contains other = (keys.contains other || s.contains other) := by
  induction keys generalizing s with
  | nil => rfl
  | cons key keys ih =>
    show ((s.add key).addAll keys).contains other = _
    rw [ih, contains_add, List.contains_cons, Bool.or_left_comm, Bool.or_assoc]

end KeySet

end ContractBuild
