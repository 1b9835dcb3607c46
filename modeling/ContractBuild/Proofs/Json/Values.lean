import ContractBuild.Proofs.Json.Shapes

/-!
# Values of any shape

Parts of a record may be any JSON. Such values are read back as they are.

- **Parts** (`Json.All`, `Json.nesting`): a property of all parts of a value, and how deep its lists
  and objects go into each other.
- **Proper values** (`Json.IsProper`): integers of the 64-bit ranges, and objects whose keys ascend.
  Every value that is read is one.

Main statement: `Carries.value`.
-/

namespace ContractBuild.Json

/-! ## Values and their parts -/

mutual

/-- A property of a value and of all its parts. -/
def All (P : Json → Prop) : Json → Prop
  | arr vs => P (arr vs) ∧ AllItems P vs
  | obj kvs => P (obj kvs) ∧ AllFields P kvs
  | null => P null
  | bool b => P (bool b)
  | num x => P (num x)
  | str s => P (str s)

/-- A property of all items and their parts. -/
def AllItems (P : Json → Prop) : List Json → Prop
  | [] => True
  | v :: vs => All P v ∧ AllItems P vs

/-- A property of all values of fields and their parts. -/
def AllFields (P : Json → Prop) : List (String × Json) → Prop
  | [] => True
  | (_, v) :: kvs => All P v ∧ AllFields P kvs

end

mutual

/-- How deep lists and objects go into each other. -/
def nesting : Json → Nat
  | arr vs => nestingItems vs + 1
  | obj kvs => nestingFields kvs + 1
  | null | bool _ | num _ | str _ => 0

/-- How deep the items of a list go. -/
def nestingItems : List Json → Nat
  | [] => 0
  | v :: vs => max v.nesting (nestingItems vs)

/-- How deep the fields of an object go. -/
def nestingFields : List (String × Json) → Nat
  | [] => 0
  | (_, v) :: kvs => max v.nesting (nestingFields kvs)

end

/-- An integer is one of the 64-bit ranges, and the keys of an object ascend. -/
def IsRegular : Json → Prop
  | num (.int n) => -(Nat.pow 2 63 : Nat) ≤ n ∧ n < UInt64.size
  | obj kvs => Ascending kvs
  | _ => True

/-- A value that a reader can give. -/
def IsProper (v : Json) : Prop := v.All IsRegular

/-- Not a floating-point number. -/
def IsNoFloat : Json → Prop
  | num (.float _) => False
  | _ => True

/-- A value without floating-point numbers. -/
def IsFloatFree (v : Json) : Prop := v.All IsNoFloat

theorem allItems_iff {P : Json → Prop} {vs : List Json} : AllItems P vs ↔ ∀ v ∈ vs, v.All P := by
  induction vs with
  | nil => simp [AllItems]
  | cons v vs ih => simp [AllItems, ih]

theorem allFields_iff {P : Json → Prop} {kvs : List (String × Json)} :
    AllFields P kvs ↔ ∀ kv ∈ kvs, kv.2.All P := by
  induction kvs with
  | nil => simp [AllFields]
  | cons kv kvs ih => simp [AllFields, ih]

theorem nestingItems_le_iff {vs : List Json} {room : Nat} :
    nestingItems vs ≤ room ↔ ∀ v ∈ vs, v.nesting ≤ room := by
  induction vs with
  | nil => simp [nestingItems]
  | cons v vs ih => rw [nestingItems, Nat.max_le, ih, List.forall_mem_cons]

theorem nestingFields_le_iff {kvs : List (String × Json)} {room : Nat} :
    nestingFields kvs ≤ room ↔ ∀ kv ∈ kvs, kv.2.nesting ≤ room := by
  induction kvs with
  | nil => simp [nestingFields]
  | cons kv kvs ih => rw [nestingFields, Nat.max_le, ih, List.forall_mem_cons]

/-! ## Reading back -/

mutual

/-- A proper value without floats fits in the room that it takes. -/
theorem fits_of_isProper : ∀ (v : Json) {room : Nat}, v.IsProper → v.IsFloatFree →
    v.nesting ≤ room → v.Fits room
  | null, _, _, _, _ | bool _, _, _, _, _ | str _, _, _, _, _ => trivial
  | num (.int _), _, hproper, _, _ => hproper
  | num (.float _), _, _, hfloat, _ => hfloat
  | arr vs, room, hproper, hfloat, hroom => by
    simp only [nesting] at hroom
    exact ⟨by omega, itemsFit_of_isProper vs hproper.2 hfloat.2 (by omega)⟩
  | obj kvs, room, hproper, hfloat, hroom => by
    simp only [nesting] at hroom
    exact ⟨by omega, fieldsFit_of_isProper kvs hproper.2 hfloat.2 (by omega)⟩

theorem itemsFit_of_isProper : ∀ (vs : List Json) {room : Nat}, AllItems IsRegular vs →
    AllItems IsNoFloat vs → nestingItems vs ≤ room → ItemsFit vs room
  | [], _, _, _, _ => trivial
  | v :: vs, _, ⟨hv, hvs⟩, ⟨hv', hvs'⟩, hroom =>
    ⟨fits_of_isProper v hv hv' (Nat.le_trans (Nat.le_max_left ..) hroom),
      itemsFit_of_isProper vs hvs hvs' (Nat.le_trans (Nat.le_max_right ..) hroom)⟩

theorem fieldsFit_of_isProper : ∀ (kvs : List (String × Json)) {room : Nat},
    AllFields IsRegular kvs → AllFields IsNoFloat kvs → nestingFields kvs ≤ room →
    FieldsFit kvs room
  | [], _, _, _, _ => trivial
  | (_, v) :: kvs, _, ⟨hv, hkvs⟩, ⟨hv', hkvs'⟩, hroom =>
    ⟨fits_of_isProper v hv hv' (Nat.le_trans (Nat.le_max_left ..) hroom),
      fieldsFit_of_isProper kvs hkvs hkvs' (Nat.le_trans (Nat.le_max_right ..) hroom)⟩

end

mutual

/-- A node that says a proper value is read as this value. -/
theorem value_of_isProper : ∀ (v : Json) {n : Node}, v.IsProper → v.SaidBy n → n.value = .ok v
  | null, _, _, ⟨_, _, hn⟩ | bool _, _, _, ⟨_, _, hn⟩ | num _, _, _, ⟨_, _, hn⟩
  | str _, _, _, ⟨_, _, hn⟩ => by rw [hn]; rfl
  | arr vs, _, hproper, ⟨_, _, _, hn, htail, hitems⟩ => by
    obtain ⟨stop, hstop⟩ := htail.strictEnd
    simp only [hn, Node.value, valueItems_of_isProper vs hproper.2 hitems, hstop]
    rfl
  | obj kvs, _, hproper, ⟨_, _, _, hn, htail, hfields⟩ => by
    obtain ⟨stop, hstop⟩ := htail.strictEnd
    have hkeys : Ascending ([] ++ kvs) := hproper.1
    simp only [hn, Node.value, valueFields_of_isProper kvs hproper.2 hfields hkeys, hstop]
    rfl

theorem valueItems_of_isProper : ∀ (vs : List Json) {ns : List Node}, AllItems IsRegular vs →
    ItemsSaidBy vs ns → Node.valueItems ns = .ok vs
  | [], _, _, hns => by rw [hns]; rfl
  | v :: vs, _, ⟨hv, hvs⟩, ⟨_, _, hns, hn, hrest⟩ => by
    simp only [hns, Node.valueItems, value_of_isProper v hv hn, valueItems_of_isProper vs hvs hrest]
    rfl

/-- Fields whose keys ascend are put behind those before them. -/
theorem valueFields_of_isProper : ∀ (kvs : List (String × Json)) {ns : List (Key × Node)}
    {before : List (String × Json)}, AllFields IsRegular kvs → FieldsSaidBy kvs ns →
    Ascending (before ++ kvs) → Node.valueFields before ns = .ok (before ++ kvs)
  | [], _, before, _, hns, _ => by rw [hns, List.append_nil]; rfl
  | (key, v) :: kvs, _, before, ⟨hv, hkvs⟩, ⟨_, _, _, hns, hkey, hn, hrest⟩, hkeys => by
    have hbefore : ∀ e ∈ before, e.1 < key := fun e he =>
      (List.pairwise_append.mp hkeys).2.2 e he (key, v) List.mem_cons_self
    have hmore : before ++ (key, v) :: kvs = Dict.insertEntry key v before ++ kvs := by
      rw [Dict.insertEntry_eq_append hbefore, List.append_assoc, List.singleton_append]
    rw [hmore] at hkeys ⊢
    simp only [hns, Node.valueFields, hkey, value_of_isProper v hv hn]
    exact valueFields_of_isProper kvs hkvs hrest hkeys

end

/-- **A proper value without floats is read back.** -/
theorem Carries.value {v : Json} {room : Nat} (hproper : v.IsProper) (hfloat : v.IsFloatFree)
    (hroom : v.nesting ≤ room) : Carries room Node.value v v where
  fits := fits_of_isProper v hproper hfloat hroom
  reads _ hn := value_of_isProper v hproper hn

end ContractBuild.Json
