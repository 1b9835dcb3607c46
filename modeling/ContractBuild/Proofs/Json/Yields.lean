import ContractBuild.Proofs.Json.Values

/-!
# What a shape can take from a text

Whatever text a node was read from, a reader follows it only as deep as there is room, and its
integers are of the 64-bit ranges (`Node.Within`). So what a shape takes from it has a property that
does not depend on the text: `Yields room shape P`.

- **Nodes** (`within_read`): what is read has the room that is left where it stands.
- **Values** (`Yields.value`): they are proper, and nest no deeper than there is room for.
- **Records and tags** (`record_within`, `Yields.tagged`): their parts are read with less room.
- **Whole texts**: `Yields.decode`.
-/

namespace ContractBuild.Json

theorem bind_eq_ok {ε α β : Type} {x : Except ε α} {f : α → Except ε β} {b : β}
    (h : x >>= f = .ok b) : ∃ a, x = .ok a ∧ f a = .ok b := by
  cases x with
  | error e => cases h
  | ok a => exact ⟨a, rfl, h⟩

theorem map_eq_ok {ε α β : Type} {x : Except ε α} {f : α → β} {b : β} (h : x.map f = .ok b) :
    ∃ a, x = .ok a ∧ f a = b := by
  cases x with
  | error e => cases h
  | ok a =>
    cases h
    exact ⟨a, rfl, rfl⟩

mutual

/-- `n.Within room`: a node as it is read where `room` more lists and objects are followed. -/
def Node.Within : Nat → Node → Prop
  | _, .scalar _ strict _ => ∀ v, strict = .ok v → (Node.ofScalar v).IsRegular
  | room, .arr _ deep items _ => deep = false → 0 < room ∧ ItemsWithin (room - 1) items
  | room, .obj _ deep fields _ => deep = false → 0 < room ∧ FieldsWithin (room - 1) fields
  | _, .bad _ => True

/-- The nodes of items. -/
def ItemsWithin : Nat → List Node → Prop
  | _, [] => True
  | room, n :: ns => n.Within room ∧ ItemsWithin room ns

/-- The nodes of fields. -/
def FieldsWithin : Nat → List (Key × Node) → Prop
  | _, [] => True
  | room, (_, n) :: fs => n.Within room ∧ FieldsWithin room fs

end

theorem fieldsWithin_iff {room : Nat} {fs : List (Key × Node)} :
    FieldsWithin room fs ↔ ∀ f ∈ fs, f.2.Within room := by
  induction fs with
  | nil => simp [FieldsWithin]
  | cons f fs ih => rw [FieldsWithin, ih, List.forall_mem_cons]

/-! ## Numbers -/

theorem takeDigits_lt {significand : Nat} (h : significand < UInt64.size) (ds : List Char) :
    (takeDigits significand ds).1 < UInt64.size := by
  induction ds generalizing significand with
  | nil => exact h
  | cons c ds ih =>
    unfold takeDigits
    dsimp only
    split
    · rename_i hnext
      exact ih hnext
    · exact h

theorem isRegular_float (x : Binary64) : (num (.float x)).IsRegular := trivial

theorem isRegular_floatAt {pos : Nat} {negative : Bool} {significand : Nat} {exponent : Int}
    {x : JsonNumber} (h : floatAt pos negative significand exponent = .ok x) :
    (num x).IsRegular := by
  unfold floatAt at h
  split at h
  · cases h
    exact isRegular_float _
  · cases h

theorem isRegular_integerAt {pos : Nat} {negative : Bool} {n : Nat} (hn : n < UInt64.size)
    {x : JsonNumber} (h : integerAt pos negative n = .ok x) : (num x).IsRegular := by
  unfold integerAt at h
  split at h
  · cases h
    exact ⟨by omega, by omega⟩
  · split at h
    · exact isRegular_floatAt h
    · rename_i hsmall
      cases h
      simp only [Bool.or_eq_true, beq_iff_eq, decide_eq_true_eq, not_or] at hsmall
      have hsize : (UInt64.size : Int) = 18446744073709551616 := rfl
      exact ⟨by omega, by omega⟩

theorem isRegular_readExponent {pos : Nat} {negative : Bool} {significand : Nat} {exponent : Int}
    {cs : List Char} {r : JsonNumber × Nat × List Char}
    (h : readExponent pos negative significand exponent cs = .ok r) : (num r.1).IsRegular := by
  unfold readExponent at h
  dsimp only at h
  split at h
  · cases h
  · cases h
  · split at h
    · split_ifs at h
      cases h
      exact isRegular_float _
    · obtain ⟨x, hx, h⟩ := bind_eq_ok h
      cases h
      exact isRegular_floatAt hx

theorem isRegular_readPlaces {pos : Nat} {negative : Bool} {significand : Nat} {exponent : Int}
    {cs : List Char} {r : JsonNumber × Nat × List Char}
    (h : readPlaces pos negative significand exponent cs = .ok r) : (num r.1).IsRegular := by
  unfold readPlaces at h
  split at h
  · cases h
  · cases h
  · dsimp only at h
    split at h
    · exact isRegular_readExponent h
    · exact isRegular_readExponent h
    · obtain ⟨x, hx, h⟩ := bind_eq_ok h
      cases h
      exact isRegular_floatAt hx

/-- **An integer that is read is one of the 64-bit ranges.** -/
theorem isRegular_readNumber {pos : Nat} {negative : Bool} {cs : List Char}
    {r : JsonNumber × Nat × List Char} (h : readNumber pos negative cs = .ok r) :
    (num r.1).IsRegular := by
  unfold readNumber at h
  split at h
  · cases h
  · cases h
  · cases h
  · dsimp only at h
    split at h
    · exact isRegular_readPlaces h
    · exact isRegular_readExponent h
    · exact isRegular_readExponent h
    · split at h
      · obtain ⟨x, hx, h⟩ := bind_eq_ok h
        cases h
        exact isRegular_integerAt (takeDigits_lt (by decide) _) hx
      · obtain ⟨x, hx, h⟩ := bind_eq_ok h
        cases h
        exact isRegular_floatAt hx

/-! ## Nodes -/

theorem within_scalarNode {start : Nat} {strict : Except Fault Scalar}
    {lenient : Except Fault (Nat × List Char)}
    (h : ∀ v, strict = .ok v → (Node.ofScalar v).IsRegular) (room : Nat) :
    (scalarNode start strict lenient).1.Within room := h

theorem within_plainNode (pos : Nat) (cs : List Char) (room : Nat) :
    (plainNode pos cs).1.Within room := by
  have hword (word : String) (value : Scalar) (hvalue : (Node.ofScalar value).IsRegular)
      (cs : List Char) : (wordNode pos word value cs).1.Within room := by
    refine within_scalarNode (fun v hv => ?_) room
    obtain ⟨_, -, rfl⟩ := map_eq_ok hv
    exact hvalue
  have hnumber (start : Nat) (negative : Bool) (cs : List Char) :
      (numberNode pos start negative cs).1.Within room := by
    refine within_scalarNode (fun v hv => ?_) room
    obtain ⟨r, hr, rfl⟩ := map_eq_ok hv
    exact isRegular_readNumber hr
  unfold plainNode
  split
  · trivial
  · exact hword _ .null trivial _
  · exact hword _ (.bool true) trivial _
  · exact hword _ (.bool false) trivial _
  · refine within_scalarNode (fun v hv => ?_) room
    obtain ⟨_, -, rfl⟩ := map_eq_ok hv
    trivial
  · exact hnumber _ _ _
  · split
    · exact hnumber _ _ _
    · trivial

/-- **Every node of a text is read with the room that is left where it stands.** -/
theorem within_read (fuel : Nat) :
    (∀ depth pos cs, (readValue fuel depth pos cs).1.Within (depthLimit - depth)) ∧
    (∀ depth first pos cs, ItemsWithin (depthLimit - depth) (readItems fuel depth first pos cs).1) ∧
    (∀ depth pos cs, ItemsWithin (depthLimit - depth) (readItem fuel depth pos cs).1) ∧
    (∀ depth first pos cs,
      FieldsWithin (depthLimit - depth) (readFields fuel depth first pos cs).1) ∧
    ∀ depth pos cs, FieldsWithin (depthLimit - depth) (readField fuel depth pos cs).1 := by
  induction fuel with
  | zero =>
    refine ⟨fun _ _ _ => ?_, fun _ _ _ _ => ?_, fun _ _ _ => ?_, fun _ _ _ _ => ?_,
      fun _ _ _ => ?_⟩
    · rw [readValue]; trivial
    · rw [readItems]; trivial
    · rw [readItem]; trivial
    · rw [readFields]; trivial
    · rw [readField]; trivial
  | succ fuel ih =>
    obtain ⟨hvalue, hitems, hitem, hfields, hfield⟩ := ih
    refine ⟨fun depth pos cs => ?_, fun depth first pos cs => ?_, fun depth pos cs => ?_,
      fun depth first pos cs => ?_, fun depth pos cs => ?_⟩
    · rw [readValue]
      split
      · refine fun hdeep => ⟨?_, hitems (depth + 1) true _ _⟩
        have := of_decide_eq_false hdeep
        omega
      · refine fun hdeep => ⟨?_, hfields (depth + 1) true _ _⟩
        have := of_decide_eq_false hdeep
        omega
      · exact within_plainNode _ _ _
    · rw [readItems]
      split
      · trivial
      · trivial
      · split
        · exact hitem _ _ _
        · split
          · split
            · trivial
            · trivial
            · exact hitem _ _ _
          · trivial
    · rw [readItem]
      have hfirst := hvalue depth pos cs
      split
      · rename_i heq
        rw [heq] at hfirst
        exact ⟨hfirst, trivial⟩
      · rename_i heq
        rw [heq] at hfirst
        exact ⟨hfirst, hitems _ _ _ _⟩
    · rw [readFields]
      split
      · trivial
      · trivial
      · split
        · split
          · exact hfield _ _ _
          · trivial
        · split
          · split
            · trivial
            · exact hfield _ _ _
            · trivial
            · trivial
          · trivial
    · rw [readField]
      split
      · trivial
      · dsimp only
        split
        · rename_i stop rest _ _ after _
          have hfirst := hvalue depth ((skipBlanks stop rest).1 + 1) after
          split
          · rename_i heq
            rw [heq] at hfirst
            exact ⟨hfirst, trivial⟩
          · rename_i heq
            rw [heq] at hfirst
            exact ⟨hfirst, hfields _ _ _ _⟩
        · exact ⟨trivial, trivial⟩
        · exact ⟨trivial, trivial⟩

/-! ## Shapes -/

/-- `Yields room shape P`: what the shape takes from a node that is read with this room satisfies
`P`. -/
def Yields {α : Type} (room : Nat) (shape : Shape α) (P : α → Prop) : Prop :=
  ∀ n : Node, n.Within room → ∀ x, shape n = .ok x → P x

theorem eq_false_of_tooDeepAt {start : Nat} {deep : Bool} {u : Unit}
    (h : tooDeepAt start deep = .ok u) : deep = false := by
  cases deep with
  | true => cases h
  | false => rfl

mutual

/-- A value is proper, and nests no deeper than its node has room for. -/
theorem value_yields : ∀ (n : Node) {room : Nat} {v : Json}, n.Within room → n.value = .ok v →
    v.IsProper ∧ v.nesting ≤ room
  | .scalar _ strict _, room, v, hn, hv => by
    obtain ⟨x, hx, rfl⟩ := map_eq_ok (x := strict) hv
    have hregular := hn x hx
    cases x <;> exact ⟨hregular, Nat.zero_le _⟩
  | .arr _ deep items tail, room, v, hn, hv => by
    rw [Node.value] at hv
    obtain ⟨_, hdeep, hv⟩ := bind_eq_ok hv
    obtain ⟨vs, hvs, hv⟩ := bind_eq_ok hv
    obtain ⟨_, -, hv⟩ := bind_eq_ok hv
    cases hv
    obtain ⟨hroom, hitems⟩ := hn (eq_false_of_tooDeepAt hdeep)
    have hall := valueItems_yields items hitems hvs
    have hnesting := nestingItems_le_iff.2 fun v hv => (hall v hv).2
    exact ⟨⟨trivial, allItems_iff.2 fun v hv => (hall v hv).1⟩, by rw [nesting]; omega⟩
  | .obj _ deep fields tail, room, v, hn, hv => by
    rw [Node.value] at hv
    obtain ⟨_, hdeep, hv⟩ := bind_eq_ok hv
    obtain ⟨kvs, hkvs, hv⟩ := bind_eq_ok hv
    obtain ⟨_, -, hv⟩ := bind_eq_ok hv
    cases hv
    obtain ⟨hroom, hfields⟩ := hn (eq_false_of_tooDeepAt hdeep)
    obtain ⟨hkeys, hall⟩ := valueFields_yields fields hfields hkvs .nil (List.forall_mem_nil _)
    have hnesting := nestingFields_le_iff.2 fun kv hkv => (hall kv hkv).2
    exact ⟨⟨hkeys, allFields_iff.2 fun kv hkv => (hall kv hkv).1⟩, by rw [nesting]; omega⟩
  | .bad _, _, _, _, hv => by cases hv

theorem valueItems_yields : ∀ (ns : List Node) {room : Nat} {vs : List Json},
    ItemsWithin room ns → Node.valueItems ns = .ok vs →
    ∀ v ∈ vs, v.IsProper ∧ v.nesting ≤ room
  | [], _, _, _, hvs => by
    cases hvs
    exact List.forall_mem_nil _
  | n :: ns, room, vs, ⟨hn, hns⟩, hvs => by
    rw [Node.valueItems] at hvs
    obtain ⟨v, hv, hvs⟩ := bind_eq_ok hvs
    obtain ⟨rest, hrest, hvs⟩ := bind_eq_ok hvs
    cases hvs
    exact List.forall_mem_cons.2 ⟨value_yields n hn hv, valueItems_yields ns hns hrest⟩

/-- Fields are put in their places among those before them. -/
theorem valueFields_yields : ∀ (fs : List (Key × Node)) {room : Nat}
    {before kvs : List (String × Json)}, FieldsWithin room fs →
    Node.valueFields before fs = .ok kvs → Ascending before →
    (∀ kv ∈ before, kv.2.IsProper ∧ kv.2.nesting ≤ room) →
    Ascending kvs ∧ ∀ kv ∈ kvs, kv.2.IsProper ∧ kv.2.nesting ≤ room
  | [], _, _, _, _, hkvs, hkeys, hbefore => by
    cases hkvs
    exact ⟨hkeys, hbefore⟩
  | (k, n) :: fs, room, before, kvs, ⟨hn, hfs⟩, hkvs, hkeys, hbefore => by
    rw [Node.valueFields] at hkvs
    obtain ⟨key, -, hkvs⟩ := bind_eq_ok hkvs
    obtain ⟨v, hv, hkvs⟩ := bind_eq_ok hkvs
    refine valueFields_yields fs hfs hkvs (Dict.ascending_insertEntry key v hkeys) fun kv hkv => ?_
    rcases Dict.mem_insertEntry hkv with rfl | hkv
    · exact value_yields n hn hv
    · exact hbefore kv hkv

end

theorem eq_scalar_of_value_null {n : Node} (h : n.value = .ok null) :
    ∃ start lenient, n = .scalar start (.ok .null) lenient := by
  cases n with
  | scalar start strict lenient =>
    obtain ⟨x, rfl, hx⟩ := map_eq_ok (x := strict) h
    cases x with
    | null => exact ⟨start, lenient, rfl⟩
    | _ => cases hx
  | arr start deep items tail =>
    rw [Node.value] at h
    obtain ⟨_, -, h⟩ := bind_eq_ok h
    obtain ⟨_, -, h⟩ := bind_eq_ok h
    obtain ⟨_, -, h⟩ := bind_eq_ok h
    cases h
  | obj start deep fields tail =>
    rw [Node.value] at h
    obtain ⟨_, -, h⟩ := bind_eq_ok h
    obtain ⟨_, -, h⟩ := bind_eq_ok h
    obtain ⟨_, -, h⟩ := bind_eq_ok h
    cases h
  | bad f => cases h

namespace Yields

variable {α : Type} {room : Nat} {shape : Shape α} {P Q : α → Prop}

theorem value (room : Nat) :
    Yields room Node.value fun v => v.IsProper ∧ v.nesting ≤ room := fun n hn _ hv =>
  value_yields n hn hv

/-- A value that may be missing is never null. -/
theorem nullableValue (room : Nat) : Yields room (Node.nullable Node.value) fun v? =>
    ∀ v ∈ v?, v ≠ null ∧ v.IsProper ∧ v.nesting ≤ room := by
  intro n hn v? hv? v hv
  unfold Node.nullable at hv?
  split at hv?
  · cases hv?
    cases hv
  · rename_i hnull
    obtain ⟨w, hw, rfl⟩ := map_eq_ok hv?
    cases hv
    refine ⟨?_, value_yields n hn hw⟩
    rintro rfl
    obtain ⟨start, lenient, rfl⟩ := eq_scalar_of_value_null hw
    exact hnull start lenient rfl

theorem mapM_items (h : Yields room shape P) {items : List Node} (hitems : ItemsWithin room items)
    {xs : List α} (hxs : items.mapM shape = .ok xs) : ∀ x ∈ xs, P x := by
  induction items generalizing xs with
  | nil =>
    cases hxs
    exact List.forall_mem_nil _
  | cons n items ih =>
    rw [List.mapM_cons] at hxs
    obtain ⟨x, hx, hxs⟩ := bind_eq_ok hxs
    obtain ⟨rest, hrest, hxs⟩ := bind_eq_ok hxs
    cases hxs
    exact List.forall_mem_cons.2 ⟨h n hitems.1 x hx, ih hitems.2 hrest⟩

theorem list (h : Yields room shape P) :
    Yields (room + 1) (Node.list shape) fun xs => ∀ x ∈ xs, P x := by
  intro n hn xs hxs
  cases n with
  | arr start deep items tail =>
    obtain ⟨_, hdeep, hxs⟩ := bind_eq_ok hxs
    obtain ⟨ys, hys, hxs⟩ := bind_eq_ok hxs
    obtain ⟨_, -, hxs⟩ := bind_eq_ok hxs
    cases hxs
    exact h.mapM_items (hn (eq_false_of_tooDeepAt hdeep)).2 hys
  | scalar _ _ _ => cases hxs
  | obj _ _ _ _ => cases hxs
  | bad _ => cases hxs

theorem foldlM_fields (h : Yields room shape P) {fields : List (Key × Node)}
    (hfields : FieldsWithin room fields) {d d' : Dict α} (hd : ∀ e ∈ d.entries, P e.2)
    (hd' : fields.foldlM (fun (d : Dict α) (k, n) => do
      let key ← k.text
      return d.insert key (← shape n)) d = .ok d') : ∀ e ∈ d'.entries, P e.2 := by
  induction fields generalizing d with
  | nil =>
    cases hd'
    exact hd
  | cons f fields ih =>
    rw [List.foldlM_cons] at hd'
    obtain ⟨d₁, hd₁, hd'⟩ := bind_eq_ok hd'
    obtain ⟨key, -, hd₁⟩ := bind_eq_ok hd₁
    obtain ⟨x, hx, hd₁⟩ := bind_eq_ok hd₁
    cases hd₁
    refine ih hfields.2 (fun e he => ?_) hd'
    rcases Dict.mem_insertEntry he with rfl | he
    · exact h f.2 hfields.1 x hx
    · exact hd e he

theorem dict (h : Yields room shape P) :
    Yields (room + 1) (Node.dict shape) fun d => ∀ e ∈ d.entries, P e.2 := by
  intro n hn d hd
  cases n with
  | obj start deep fields tail =>
    obtain ⟨_, hdeep, hd⟩ := bind_eq_ok hd
    obtain ⟨d', hd', hd⟩ := bind_eq_ok hd
    obtain ⟨_, -, hd⟩ := bind_eq_ok hd
    cases hd
    exact h.foldlM_fields (hn (eq_false_of_tooDeepAt hdeep)).2 (List.forall_mem_nil _) hd'
  | scalar _ _ _ => cases hd
  | arr _ _ _ _ => cases hd
  | bad _ => cases hd

end Yields

/-! ## Records -/

/-- The nodes of the fields of a record. -/
def Fields.Within (room : Nat) (found : Fields) : Prop := ∀ f ∈ found, f.2.Within room

theorem objectFields_within {room : Nat} {shapes : List FieldShape} {fields : List (Key × Node)}
    (hfields : FieldsWithin room fields) {found found' : Fields} (hfound : found.Within room)
    (h : Node.objectFields shapes found fields = .ok found') : found'.Within room := by
  induction fields generalizing found with
  | nil =>
    cases h
    exact hfound
  | cons f fields ih =>
    rw [Node.objectFields] at h
    obtain ⟨key, -, h⟩ := bind_eq_ok h
    have hrest : Node.objectFields shapes ((key, f.2) :: found) fields = .ok found' := by
      dsimp only at h
      split at h
      · obtain ⟨_, -, h⟩ := bind_eq_ok h
        exact h
      · split_ifs at h
        · cases h
        · obtain ⟨_, -, h⟩ := bind_eq_ok h
          exact h
    exact ih hfields.2 (List.forall_mem_cons.2 ⟨hfields.1, hfound⟩) hrest

theorem listFields_within {room : Nat} {title : String} {count : Nat} {tail : Tail}
    {shapes : List FieldShape} {items : List Node} (hitems : ItemsWithin room items)
    {r : Fields × List Node} (h : Node.listFields title count tail shapes items = .ok r) :
    r.1.Within room := by
  induction shapes generalizing items r with
  | nil =>
    cases h
    exact List.forall_mem_nil _
  | cons shape shapes ih =>
    cases items with
    | nil =>
      rw [Node.listFields] at h
      obtain ⟨_, -, h⟩ := bind_eq_ok h
      split at h
      · exact @ih [] trivial _ h
      · cases h
    | cons n items =>
      rw [Node.listFields] at h
      obtain ⟨_, -, h⟩ := bind_eq_ok h
      obtain ⟨r', hr', h⟩ := bind_eq_ok h
      cases h
      exact List.forall_mem_cons.2 ⟨hitems.1, ih hitems.2 hr'⟩

/-- The fields of a record are read with one level less. -/
theorem record_within {room : Nat} {n : Node} (hn : n.Within (room + 1)) {title : String}
    {shapes : List FieldShape} {found : Fields} (h : n.record title shapes = .ok found) :
    found.Within room := by
  cases n with
  | obj start deep fields tail =>
    obtain ⟨_, hdeep, h⟩ := bind_eq_ok h
    obtain ⟨found', hfound', h⟩ := bind_eq_ok h
    obtain ⟨_, -, h⟩ := bind_eq_ok h
    have hwithin := objectFields_within (hn (eq_false_of_tooDeepAt hdeep)).2
      (List.forall_mem_nil _) hfound'
    split at h
    · cases h
    · cases h
      exact hwithin
  | arr start deep items tail =>
    obtain ⟨_, hdeep, h⟩ := bind_eq_ok h
    obtain ⟨r, hr, h⟩ := bind_eq_ok h
    have hwithin := listFields_within (hn (eq_false_of_tooDeepAt hdeep)).2 hr
    dsimp only at h
    split at h
    · obtain ⟨_, -, h⟩ := bind_eq_ok h
      cases h
      exact hwithin
    · cases h
  | scalar _ _ _ => cases h
  | bad _ => cases h

theorem Fields.Within.node? {room : Nat} {found : Fields} (h : found.Within room) {name : String}
    {n : Node} (hn : found.node? name = some n) : n.Within room := by
  obtain ⟨f, hf, rfl⟩ := Option.map_eq_some_iff.1 hn
  exact h f (List.mem_of_find?_eq_some hf)

namespace Yields

variable {α : Type} {room : Nat} {shape : Shape α} {P : α → Prop}

theorem get (h : Yields room shape P) {found : Fields} (hfound : found.Within room) {name : String}
    {x : α} (hx : found.get name shape = .ok x) : P x := by
  unfold Fields.get at hx
  split at hx
  · rename_i n hn
    exact h n (hfound.node? hn) x hx
  · cases hx

theorem getD (h : Yields room shape P) {found : Fields} (hfound : found.Within room)
    {name : String} {default x : α} (hdefault : P default)
    (hx : found.getD name shape default = .ok x) : P x := by
  unfold Fields.getD at hx
  split at hx
  · rename_i n hn
    exact h n (hfound.node? hn) x hx
  · cases hx
    exact hdefault

end Yields

/-! ## Tagged values -/

mutual

theorem within_reread : ∀ (n : Node) {room : Nat}, n.Within room → n.reread.Within room
  | .scalar _ _ _, _, hn => hn
  | .arr _ _ items _, _, hn => fun hdeep =>
    ⟨(hn hdeep).1, itemsWithin_reread items (hn hdeep).2⟩
  | .obj _ _ fields _, _, hn => fun hdeep =>
    ⟨(hn hdeep).1, fieldsWithin_reread fields (hn hdeep).2⟩
  | .bad _, _, _ => trivial

theorem itemsWithin_reread : ∀ (ns : List Node) {room : Nat}, ItemsWithin room ns →
    ItemsWithin room (Node.rereadItems ns)
  | [], _, _ => trivial
  | n :: ns, _, hns => ⟨within_reread n hns.1, itemsWithin_reread ns hns.2⟩

theorem fieldsWithin_reread : ∀ (fs : List (Key × Node)) {room : Nat}, FieldsWithin room fs →
    FieldsWithin room (Node.rereadFields fs)
  | [], _, _ => trivial
  | (_, n) :: fs, _, hfs => ⟨within_reread n hfs.1, fieldsWithin_reread fs hfs.2⟩

end

theorem splitTag_within {room : Nat} {tag : String} {names : List String}
    {fields : List (Key × Node)} (hfields : FieldsWithin room fields) {found : Option String}
    {others : List (Key × Node)} (hothers : FieldsWithin room others)
    {r : Option String × List (Key × Node)}
    (h : Node.splitTag tag names found others fields = .ok r) : FieldsWithin room r.2 := by
  induction fields generalizing found others with
  | nil =>
    cases h
    rw [fieldsWithin_iff] at hothers ⊢
    simpa using hothers
  | cons f fields ih =>
    rw [Node.splitTag] at h
    obtain ⟨key, -, h⟩ := bind_eq_ok h
    dsimp only at h
    split_ifs at h
    · cases h
    · obtain ⟨_, -, h⟩ := bind_eq_ok h
      exact ih hfields.2 hothers h
    · obtain ⟨_, -, h⟩ := bind_eq_ok h
      have hmore : FieldsWithin room (f :: others) := ⟨hfields.1, hothers⟩
      exact ih hfields.2 hmore h

namespace Yields

variable {α : Type} {room : Nat} {P : α → Prop}

/-- A value with a tag has what all shapes that the tag can name yield. -/
theorem tagged {title tag : String} {shapes : List (String × Shape α)}
    (h : ∀ s ∈ shapes, Yields room s.2 P) : Yields room (Node.tagged title tag shapes) P := by
  have hpick {name : String} {rest : Node} (hrest : rest.Within room) {x : α}
      (hx : Node.asUnfit (Node.tagged.pick shapes name rest) = .ok x) : P x := by
    unfold Node.tagged.pick at hx
    split at hx
    · rename_i s hs
      cases hread : s.2 rest with
      | error e =>
        rw [hread] at hx
        cases hx
      | ok y =>
        rw [hread] at hx
        cases hx
        exact h s (List.mem_of_find?_eq_some hs) rest hrest x hread
    · cases hx
  intro n hn x hx
  cases n with
  | obj start deep fields tail =>
    obtain ⟨_, hdeep, hx⟩ := bind_eq_ok hx
    obtain ⟨r, hr, hx⟩ := bind_eq_ok hx
    obtain ⟨hroom, hfields⟩ := hn (eq_false_of_tooDeepAt hdeep)
    have hnone : FieldsWithin (room - 1) [] := trivial
    have hothers := splitTag_within hfields hnone hr
    have hrest : (Node.obj start false r.2 tail).Within room := fun _ => ⟨hroom, hothers⟩
    obtain ⟨_, -, hx⟩ := bind_eq_ok hx
    split at hx
    · cases hx
    · exact hpick (within_reread _ hrest) hx
  | arr start deep items tail =>
    obtain ⟨_, hdeep, hx⟩ := bind_eq_ok hx
    obtain ⟨hroom, hitems⟩ := hn (eq_false_of_tooDeepAt hdeep)
    cases items with
    | nil =>
      obtain ⟨_, -, hx⟩ := bind_eq_ok hx
      cases hx
    | cons first rest =>
      obtain ⟨_, -, hx⟩ := bind_eq_ok hx
      obtain ⟨_, -, hx⟩ := bind_eq_ok hx
      obtain ⟨_, -, hx⟩ := bind_eq_ok hx
      have hrest : (Node.arr start false rest tail).Within room := fun _ => ⟨hroom, hitems.2⟩
      exact hpick (within_reread _ hrest) hx
  | scalar _ _ _ => cases hx
  | bad _ => cases hx

/-- **What is read from a text has what its shape yields.** -/
theorem decode {shape : Shape α} (h : Yields depthLimit shape P) {text : String} {x : α}
    (hx : Json.decode shape text = .ok x) : P x := by
  obtain ⟨y, hy, hx⟩ := bind_eq_ok hx
  obtain ⟨_, -, hx⟩ := bind_eq_ok hx
  cases hx
  refine h _ ?_ x hy
  have hread := (within_read (4 * text.toList.length + 4)).1 0 0 text.toList
  unfold readDocument
  split
  · rename_i heq
    rw [heq] at hread
    exact hread
  · rename_i heq
    rw [heq] at hread
    split <;> exact hread

end Yields

end ContractBuild.Json
