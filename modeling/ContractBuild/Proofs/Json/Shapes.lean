import ContractBuild.Proofs.Json.Reading
import Mathlib.Data.List.Nodup

/-!
# Shapes read what they were written from

`Carries room shape v x`: the value `v` can be written and read back, and the shape takes `x` from
it. There is one lemma for each kind of shape; how deep the value nests adds up along the way, so
that a whole value can be compared with the depth a reader follows.

- **Records** (`Carries.record`): a `Part` is one field, with what a look-up of it gives afterwards.
- **Tagged values** (`Carries.tagged`): the tag may stand anywhere, and the rest is read twice.
- **Whole texts**: `Carries.decode_text`.
-/

namespace ContractBuild.Json

/-! ## What fits, and what is said -/

theorem itemsFit_iff {vs : List Json} {room : Nat} : ItemsFit vs room ↔ ∀ v ∈ vs, v.Fits room := by
  induction vs with
  | nil => simp [ItemsFit]
  | cons v vs ih => simp [ItemsFit, ih]

theorem fieldsFit_iff {kvs : List (String × Json)} {room : Nat} :
    FieldsFit kvs room ↔ ∀ kv ∈ kvs, kv.2.Fits room := by
  induction kvs with
  | nil => simp [FieldsFit]
  | cons kv kvs ih => simp [FieldsFit, ih]

theorem Tail.IsWhole.strictEnd {tail : Tail} (h : tail.IsWhole) :
    ∃ stop, tail.strictEnd = .ok stop := by
  cases tail with
  | closed stop => exact ⟨stop, rfl⟩
  | known stop => exact ⟨stop, rfl⟩
  | broken _ _ _ => cases h
  | cut => cases h

/-- A node that says null says nothing else. -/
theorem SaidBy.eq_null {v : Json} {start : Nat} {stop : Except Fault Nat}
    (h : v.SaidBy (.scalar start (.ok .null) stop)) : v = null := by
  cases v <;> simp_all [SaidBy]

/-! ## Values that carry others -/

/-- `Carries room shape v x`: at most `room` lists and objects are nested in the value `v`, and
whatever node says `v`, the shape takes `x` from it. -/
structure Carries {α : Type} (room : Nat) (shape : Shape α) (v : Json) (x : α) : Prop where
  fits : v.Fits room
  reads : ∀ n, v.SaidBy n → shape n = .ok x

namespace Carries

variable {α β : Type} {room : Nat} {shape : Shape α} {v : Json} {x : α}

/-- **A value that carries `x` is written to a text that `x` is read from**, in either layout. -/
theorem decode_text (h : Carries depthLimit shape v x) (l : Layout) :
    decode shape (v.text l) = .ok x := by
  obtain ⟨hsaid, htrailing⟩ := readDocument_write l h.fits
  simp only [decode, text, String.toList_ofList, h.reads _ hsaid, htrailing]
  rfl

theorem map (h : Carries room shape v x) (f : α → β) :
    Carries room (fun n => (shape n).map f) v (f x) where
  fits := h.fits
  reads n hn := by
    rw [h.reads n hn]
    rfl

/-! ## One kind of value -/

theorem string (room : Nat) (s : String) : Carries room Node.string (.str s) s where
  fits := trivial
  reads := by
    rintro _ ⟨start, stop, rfl⟩
    rfl

theorem boolean (room : Nat) (b : Bool) : Carries room Node.boolean (.bool b) b where
  fits := trivial
  reads := by
    rintro _ ⟨start, stop, rfl⟩
    rfl

theorem naturalBelow (room : Nat) {limit n : Nat} (expected : String) (hn : n < limit)
    (hlimit : limit ≤ UInt64.size) :
    Carries room (Node.naturalBelow limit expected) (.ofNat n) n where
  fits := by
    refine ⟨?_, ?_⟩ <;> omega
  reads := by
    rintro _ ⟨start, stop, rfl⟩
    simp only [Node.naturalBelow]
    rw [if_pos (by omega), Int.toNat_natCast]

theorem uint32 (room : Nat) (n : UInt32) : Carries room (shapeOf UInt32) (toJson n) n := by
  have h := (naturalBelow room "u32" n.toNat_lt_size (by decide)).map Nat.toUInt32
  rwa [show n.toNat.toUInt32 = n from UInt32.ofNat_toNat] at h

theorem uint64 (room : Nat) (n : UInt64) : Carries room (shapeOf UInt64) (toJson n) n := by
  have h := (naturalBelow room "u64" n.toNat_lt_size (Nat.le_refl _)).map Nat.toUInt64
  rwa [show n.toNat.toUInt64 = n from UInt64.ofNat_toNat] at h

theorem nullable (h : Carries room shape v x) (hv : v ≠ null) :
    Carries room (Node.nullable shape) v (some x) where
  fits := h.fits
  reads n hn := by
    unfold Node.nullable
    split
    · exact absurd hn.eq_null hv
    · rw [h.reads n hn]
      rfl

/-- A choice is written as its name. -/
theorem choice {options : List α} {name : α → String} (hx : x ∈ options)
    (hname : ∀ y ∈ options, name y = name x → y = x) (room : Nat) :
    Carries room (Node.choice (options.map fun y => (name y, y))) (.str (name x)) x where
  fits := trivial
  reads := by
    rintro _ ⟨start, stop, rfl⟩
    have hfind : (options.map fun y => (name y, y)).find? (·.1 == name x) = some (name x, x) := by
      induction options with
      | nil => cases hx
      | cons y options ih =>
        by_cases hy : name y = name x
        · simp [hname y (by simp) hy]
        · have hxy : x ≠ y := fun e => hy (e ▸ rfl)
          simpa [hy] using ih (by simpa [hxy] using hx) (fun z hz => hname z (by simp [hz]))
    simp only [Node.choice, Node.choice.pick, hfind]

/-! ## Lists and dictionaries -/

theorem mapM_items {f : α → Json} {xs : List α} (h : ∀ x ∈ xs, Carries room shape (f x) x)
    {items : List Node} (hitems : ItemsSaidBy (xs.map f) items) : items.mapM shape = .ok xs := by
  induction xs generalizing items with
  | nil =>
    cases hitems
    rfl
  | cons x xs ih =>
    obtain ⟨n, rest, rfl, hn, hrest⟩ := hitems
    rw [List.mapM_cons, (h x (by simp)).reads n hn, ih (fun y hy => h y (by simp [hy])) hrest]
    rfl

theorem list {f : α → Json} {xs : List α} (h : ∀ x ∈ xs, Carries room shape (f x) x) :
    Carries (room + 1) (Node.list shape) (.arr (xs.map f)) xs where
  fits := by
    refine ⟨by omega, itemsFit_iff.2 ?_⟩
    simpa using fun x hx => (h x hx).fits
  reads := by
    rintro _ ⟨start, items, tail, rfl, htail, hitems⟩
    obtain ⟨stop, hstop⟩ := htail.strictEnd
    simp only [Node.list, mapM_items h hitems, hstop]
    rfl

theorem foldlM_fields {f : β → Json} {g : β → α} {es : List (String × β)}
    (h : ∀ e ∈ es, Carries room shape (f e.2) (g e.2)) {fields : List (Key × Node)}
    (hfields : FieldsSaidBy (es.map fun e => (e.1, f e.2)) fields) (d : Dict α) :
    fields.foldlM (fun (d : Dict α) (k, n) => do
      let key ← k.text
      return d.insert key (← shape n)) d =
        .ok ((es.map fun e => (e.1, g e.2)).foldl (fun d e => d.insert e.1 e.2) d) := by
  induction es generalizing fields d with
  | nil =>
    cases hfields
    rfl
  | cons e es ih =>
    obtain ⟨key, n, rest, rfl, hkey, hn, hrest⟩ := hfields
    have hes := ih (fun y hy => h y (by simp [hy])) hrest
    simp only [List.foldlM_cons, hkey, (h e (by simp)).reads n hn]
    exact hes _

/-- A dictionary is read back with what its values carry. -/
theorem mapDict {f : β → Json} {g : β → α} {d : Dict β}
    (h : ∀ e ∈ d.entries, Carries room shape (f e.2) (g e.2)) :
    Carries (room + 1) (Node.dict shape) (.obj (d.entries.map fun e => (e.1, f e.2)))
      (d.map g) where
  fits := by
    refine ⟨by omega, fieldsFit_iff.2 fun kv hkv => ?_⟩
    obtain ⟨e, he, rfl⟩ := List.mem_map.1 hkv
    exact (h e he).fits
  reads := by
    rintro _ ⟨start, fields, tail, rfl, htail, hfields⟩
    obtain ⟨stop, hstop⟩ := htail.strictEnd
    have hread := foldlM_fields h hfields ∅
    have hentries : (d.entries.map fun e => (e.1, g e.2)).foldl (fun d e => d.insert e.1 e.2) ∅ =
        d.map g := (d.map g).ofList_entries
    rw [hentries] at hread
    simp only [Node.dict, hread, hstop]
    rfl

theorem dict {f : α → Json} {d : Dict α} (h : ∀ e ∈ d.entries, Carries room shape (f e.2) e.2) :
    Carries (room + 1) (Node.dict shape) (.obj (d.entries.map fun e => (e.1, f e.2))) d := by
  have hid : d.map id = d := Dict.eq_of_entries (List.map_id d.entries)
  have hmap := @mapDict α α room shape f id d h
  rwa [hid] at hmap

end Carries

/-! ## Records -/

/-- The fields of a record hold what was written under a name: a node that says it, or nothing. -/
def Fields.Holds (found : Fields) (name : String) : Option Json → Prop
  | some v => ∃ n, found.node? name = some n ∧ v.SaidBy n
  | none => found.node? name = none

/-- `Part room s f P`: the field `f` of an object passes the check `s`, and where it is held, a
look-up of it gives what `P` says. -/
structure Part (room : Nat) (s : FieldShape) (f : String × Option Json) (P : Fields → Prop) :
    Prop where
  name : s.name = f.1
  fits : ∀ v ∈ f.2, v.Fits room
  check : ∀ v ∈ f.2, ∀ n, v.SaidBy n → s.check n = .ok ()
  missing : f.2 = none → s.presence = .optional
  gives : ∀ found : Fields, found.Holds f.1 f.2 → P found

namespace Part

variable {α : Type} {room : Nat} {shape : Shape α} {v : Json} {x : α}

theorem required (name : String) (h : Carries room shape v x) :
    Part room (Json.required name shape) (name, some v)
      (fun found => found.get name shape = .ok x) where
  name := rfl
  fits := by simpa using h.fits
  check := by
    rintro _ ⟨⟩ n hn
    simp only [Json.required, h.reads n hn]
    rfl
  missing := nofun
  gives := by
    rintro found ⟨n, hfound, hn⟩
    simp only [Fields.get, hfound, h.reads n hn]

/-- A field that is left out only where it holds the default. -/
theorem unlessDefault (name : String) (default : α) {v? : Option Json}
    (h : ∀ v ∈ v?, Carries room shape v x) (hnone : v? = none → x = default) :
    Part room (Json.optional name shape) (name, v?)
      (fun found => found.getD name shape default = .ok x) where
  name := rfl
  fits v hv := (h v hv).fits
  check v hv n hn := by
    simp only [Json.optional, (h v hv).reads n hn]
    rfl
  missing _ := rfl
  gives := by
    intro found hfound
    cases v? with
    | none =>
      have hnode : found.node? name = none := hfound
      simp only [Fields.getD, hnode, hnone rfl]
    | some v =>
      obtain ⟨n, hnode, hn⟩ := hfound
      simp only [Fields.getD, hnode, (h v rfl).reads n hn]

/-- A field that may be missing, but never is. -/
theorem optional (name : String) (default : α) (h : Carries room shape v x) :
    Part room (Json.optional name shape) (name, some v)
      (fun found => found.getD name shape default = .ok x) :=
  unlessDefault name default (by simpa using h) nofun

/-- A field that is left out where there is nothing. -/
theorem nullableOf (name : String) {x? : Option α} {f : α → Json}
    (h : ∀ x ∈ x?, Carries room shape (f x) x) (hf : ∀ x, f x ≠ null) :
    Part room (Json.optional name (Node.nullable shape)) (name, x?.map f)
      (fun found => found.get? name shape = .ok x?) := by
  refine unlessDefault name none ?_ ?_
  · cases x? with
    | none => simp
    | some x => simpa using (h x rfl).nullable (hf x)
  · simp

/-- The same for a type whose values all carry themselves. -/
theorem nullable (name : String) (x? : Option α) {f : α → Json}
    (h : ∀ x, Carries room shape (f x) x) (hf : ∀ x, f x ≠ null) :
    Part room (Json.optional name (Node.nullable shape)) (name, x?.map f)
      (fun found => found.get? name shape = .ok x?) :=
  nullableOf name (fun x _ => h x) hf

end Part

/-- The fields of an object, one by one. -/
inductive Parts (room : Nat) : List FieldShape → List (String × Option Json) → (Fields → Prop) →
    Prop where
  | nil : Parts room [] [] fun _ => True
  | cons {s f P shapes fields Q} : Part room s f P → Parts room shapes fields Q →
      Parts room (s :: shapes) (f :: fields) fun found => P found ∧ Q found

namespace Parts

variable {room : Nat} {shapes : List FieldShape} {fields : List (String × Option Json)}
  {P : Fields → Prop}

theorem map_name (h : Parts room shapes fields P) : shapes.map (·.name) = fields.map (·.1) := by
  induction h with
  | nil => rfl
  | cons hpart _ ih => rw [List.map_cons, List.map_cons, hpart.name, ih]

theorem exists_shape (h : Parts room shapes fields P) {f : String × Option Json}
    (hf : f ∈ fields) : ∃ s ∈ shapes, ∃ Q, Part room s f Q := by
  induction h with
  | nil => cases hf
  | cons hpart _ ih =>
    rcases List.mem_cons.1 hf with rfl | hf
    · exact ⟨_, by simp, _, hpart⟩
    · obtain ⟨s, hs, hQ⟩ := ih hf
      exact ⟨s, by simp [hs], hQ⟩

theorem exists_field (h : Parts room shapes fields P) {s : FieldShape} (hs : s ∈ shapes) :
    ∃ f ∈ fields, ∃ Q, Part room s f Q := by
  induction h with
  | nil => cases hs
  | cons hpart _ ih =>
    rcases List.mem_cons.1 hs with rfl | hs
    · exact ⟨_, by simp, _, hpart⟩
    · obtain ⟨f, hf, hQ⟩ := ih hs
      exact ⟨f, by simp [hf], hQ⟩

theorem gives (h : Parts room shapes fields P) {found : Fields}
    (hfound : ∀ f ∈ fields, found.Holds f.1 f.2) : P found := by
  induction h with
  | nil => trivial
  | cons hpart _ ih =>
    obtain ⟨hf, hfields⟩ := List.forall_mem_cons.1 hfound
    exact ⟨hpart.gives found hf, ih hfields⟩

end Parts

/-- A shape is found under its name, if no other has the name. -/
theorem find?_name {shapes : List FieldShape} (hnames : (shapes.map (·.name)).Nodup)
    {s : FieldShape} (hs : s ∈ shapes) : shapes.find? (·.name == s.name) = some s := by
  induction shapes with
  | nil => cases hs
  | cons t shapes ih =>
    obtain ⟨ht, hshapes⟩ := List.nodup_cons.1 hnames
    rcases List.mem_cons.1 hs with rfl | hs
    · simp
    · have hne : t.name ≠ s.name := by
        intro e
        exact ht (List.mem_map.2 ⟨s, hs, e.symm⟩)
      simpa [hne] using ih hshapes hs

/-- Fields that pass their checks are all found, and nothing else is. -/
theorem objectFields_said {shapes : List FieldShape} {kvs : List (String × Json)}
    {ns : List (Key × Node)} (hsaid : FieldsSaidBy kvs ns) (hkeys : (kvs.map (·.1)).Nodup)
    (hcheck : ∀ kv ∈ kvs, ∃ s, shapes.find? (·.name == kv.1) = some s ∧
      ∀ n, kv.2.SaidBy n → s.check n = .ok ())
    {found : Fields} (hfound : ∀ kv ∈ kvs, found.node? kv.1 = none) :
    ∃ found', Node.objectFields shapes found ns = .ok found' ∧
      (∀ kv ∈ kvs, ∃ n, found'.node? kv.1 = some n ∧ kv.2.SaidBy n) ∧
      ∀ name ∉ kvs.map (·.1), found'.node? name = found.node? name := by
  induction kvs generalizing ns found with
  | nil =>
    cases hsaid
    exact ⟨found, rfl, by simp, fun _ _ => rfl⟩
  | cons kv kvs ih =>
    obtain ⟨key, v⟩ := kv
    obtain ⟨k, n, rest, rfl, hk, hn, hrest⟩ := hsaid
    obtain ⟨hkey, hkeys⟩ := List.nodup_cons.1 hkeys
    obtain ⟨⟨s, hs, hschecks⟩, hcheck⟩ := List.forall_mem_cons.1 hcheck
    obtain ⟨hnone, hfound⟩ := List.forall_mem_cons.1 hfound
    have hother (name : String) (hne : name ≠ key) :
        Fields.node? ((key, n) :: found) name = found.node? name := by
      simp [Fields.node?, hne.symm]
    have hfound' : ∀ kv ∈ kvs, Fields.node? ((key, n) :: found) kv.1 = none := by
      intro kv hkv
      rw [hother kv.1 fun e => hkey (List.mem_map.2 ⟨kv, hkv, e⟩)]
      exact hfound kv hkv
    obtain ⟨found', hread, hheld, hsame⟩ := ih hrest hkeys hcheck hfound'
    refine ⟨found', ?_, List.forall_mem_cons.2 ⟨⟨n, ?_, hn⟩, hheld⟩, fun name hname => ?_⟩
    · rw [Node.objectFields, hk]
      dsimp only [bind, Except.bind] at hs hnone hschecks ⊢
      rw [hs]
      dsimp only
      rw [hnone, hschecks n hn]
      exact hread
    · rw [hsame key hkey]
      simp [Fields.node?]
    · obtain ⟨hne, hname⟩ := List.ne_and_not_mem_of_not_mem_cons hname
      rw [hsame name hname, hother name hne]

namespace Parts

variable {room : Nat} {shapes : List FieldShape} {fields : List (String × Option Json)}
  {P : Fields → Prop}

/-- The fields that are there. -/
theorem mem_written {kv : String × Json} :
    kv ∈ fields.filterMap (fun f => f.2.map fun v => (f.1, v)) ↔ (kv.1, some kv.2) ∈ fields := by
  obtain ⟨key, v⟩ := kv
  simp only [List.mem_filterMap, Option.map_eq_some_iff, Prod.mk.injEq, Prod.exists]
  constructor
  · rintro ⟨_, _, hmem, _, rfl, rfl, rfl⟩
    exact hmem
  · intro hmem
    exact ⟨key, some v, hmem, v, rfl, rfl, rfl⟩

theorem nodup_written (h : (fields.map (·.1)).Nodup) :
    ((fields.filterMap (fun f => f.2.map fun v => (f.1, v))).map (·.1)).Nodup := by
  refine h.sublist ?_
  induction fields with
  | nil => simp
  | cons f fields ih =>
    obtain ⟨name, v?⟩ := f
    have ih := ih (List.nodup_cons.1 h).2
    cases v? with
    | none => simpa using ih.cons name
    | some v => simpa using ih

theorem fits (h : Parts room shapes fields P) : (object fields).Fits (room + 1) := by
  refine ⟨by omega, fieldsFit_iff.2 fun kv hkv => ?_⟩
  obtain ⟨s, -, Q, hpart⟩ := h.exists_shape (mem_written.1 hkv)
  exact hpart.fits kv.2 rfl

/-- The fields of a record are read back from an object that was written of them. -/
theorem record (h : Parts room shapes fields P) (hshapes : (shapes.map (·.name)).Nodup)
    (title : String) {n : Node} (hn : (object fields).SaidBy n) :
    ∃ found, n.record title shapes = .ok found ∧ P found := by
  have hnames : (fields.map (·.1)).Nodup := h.map_name ▸ hshapes
  obtain ⟨start, ns, tail, rfl, htail, hsaid⟩ := hn
  obtain ⟨stop, hstop⟩ := htail.strictEnd
  have hcheck : ∀ kv ∈ fields.filterMap (fun f => f.2.map fun v => (f.1, v)),
      ∃ s, shapes.find? (·.name == kv.1) = some s ∧ ∀ n, kv.2.SaidBy n → s.check n = .ok () := by
    intro kv hkv
    obtain ⟨s, hs, Q, hpart⟩ := h.exists_shape (mem_written.1 hkv)
    have hname : s.name = kv.1 := hpart.name
    refine ⟨s, ?_, hpart.check kv.2 rfl⟩
    rw [← hname]
    exact find?_name hshapes hs
  obtain ⟨found, hread, hheld, hsame⟩ :=
    objectFields_said hsaid (nodup_written hnames) hcheck
      (fun _ _ => show Fields.node? [] _ = _ from rfl)
  have hholds : ∀ f ∈ fields, found.Holds f.1 f.2 := by
    rintro ⟨name, v?⟩ hf
    cases v? with
    | some v => exact hheld (name, v) (mem_written.2 hf)
    | none =>
      refine hsame name fun hmem => ?_
      obtain ⟨⟨name, v⟩, hv, rfl⟩ := List.mem_map.1 hmem
      have heq := List.inj_on_of_nodup_map hnames (mem_written.1 hv) hf rfl
      simp at heq
  refine ⟨found, ?_, h.gives hholds⟩
  have hmissing : Node.missing? shapes found = none := by
    refine List.find?_eq_none.2 fun s hs => ?_
    obtain ⟨⟨name, v?⟩, hf, Q, hpart⟩ := h.exists_field hs
    have hname : s.name = name := hpart.name
    cases v? with
    | none => simp [hpart.missing rfl]
    | some v =>
      obtain ⟨n, hnode, -⟩ := hholds _ hf
      simp [hname, hnode]
  simp only [Node.record, tooDeepAt, hread, hstop]
  dsimp only [bind, Except.bind]
  rw [hmissing]
  rfl

end Parts

namespace Carries

variable {α : Type} {room : Nat} {shape : Shape α} {v : Json} {x : α}

/-- A structure is read back, if its fields are. -/
theorem record {shapes : List FieldShape} {fields : List (String × Option Json)}
    {P : Fields → Prop} (hparts : Parts room shapes fields P) (hv : v = object fields)
    {title : String} {build : Fields → Except Fault α}
    (hshape : shape = fun n => n.record title shapes >>= build)
    (hshapes : (shapes.map (·.name)).Nodup) (hbuild : ∀ found, P found → build found = .ok x) :
    Carries (room + 1) shape v x where
  fits := hv ▸ hparts.fits
  reads n hn := by
    subst hv
    obtain ⟨found, hread, hP⟩ := hparts.record hshapes title hn
    rw [hshape]
    show (n.record title shapes >>= build) = _
    rw [hread]
    exact hbuild found hP

end Carries

/-! ## Tagged values -/

mutual

/-- A node that says a value can be read without a shape. -/
theorem value_of_saidBy : ∀ (v : Json) {n : Node}, v.SaidBy n → ∃ w, n.value = .ok w
  | null, _, ⟨_, _, hn⟩ => ⟨null, by rw [hn]; rfl⟩
  | bool b, _, ⟨_, _, hn⟩ => ⟨bool b, by rw [hn]; rfl⟩
  | num x, _, ⟨_, _, hn⟩ => ⟨num x, by rw [hn]; rfl⟩
  | str s, _, ⟨_, _, hn⟩ => ⟨str s, by rw [hn]; rfl⟩
  | arr vs, _, ⟨_, _, _, hn, htail, hitems⟩ => by
    obtain ⟨ws, hws⟩ := valueItems_of_saidBy vs hitems
    obtain ⟨stop, hstop⟩ := htail.strictEnd
    exact ⟨.arr ws, by simp only [hn, Node.value, hws, hstop]; rfl⟩
  | obj kvs, _, ⟨_, _, _, hn, htail, hfields⟩ => by
    obtain ⟨ws, hws⟩ := valueFields_of_saidBy kvs hfields []
    obtain ⟨stop, hstop⟩ := htail.strictEnd
    exact ⟨.obj ws, by simp only [hn, Node.value, hws, hstop]; rfl⟩

theorem valueItems_of_saidBy : ∀ (vs : List Json) {ns : List Node}, ItemsSaidBy vs ns →
    ∃ ws, Node.valueItems ns = .ok ws
  | [], _, hns => ⟨[], by rw [hns]; rfl⟩
  | v :: vs, _, ⟨_, _, hns, hn, hrest⟩ => by
    obtain ⟨w, hw⟩ := value_of_saidBy v hn
    obtain ⟨ws, hws⟩ := valueItems_of_saidBy vs hrest
    exact ⟨w :: ws, by simp only [hns, Node.valueItems, hw, hws]; rfl⟩

theorem valueFields_of_saidBy : ∀ (kvs : List (String × Json)) {ns : List (Key × Node)},
    FieldsSaidBy kvs ns → ∀ before, ∃ ws, Node.valueFields before ns = .ok ws
  | [], _, hns, before => ⟨before, by rw [hns]; rfl⟩
  | (key, v) :: kvs, _, ⟨_, _, _, hns, hkey, hn, hrest⟩, before => by
    obtain ⟨w, hw⟩ := value_of_saidBy v hn
    obtain ⟨ws, hws⟩ := valueFields_of_saidBy kvs hrest (Dict.insertEntry key w before)
    exact ⟨ws, by simp only [hns, Node.valueFields, hkey, hw]; exact hws⟩

end

theorem Tail.IsWhole.reread {tail : Tail} (h : tail.IsWhole) : tail.reread.IsWhole := by
  cases tail with
  | closed stop => trivial
  | known stop => trivial
  | broken _ _ _ => cases h
  | cut => cases h

mutual

/-- A node that is read again says what it said. -/
theorem SaidBy.reread : ∀ (v : Json) {n : Node}, v.SaidBy n → v.SaidBy n.reread
  | null, _, ⟨start, stop, hn⟩ | bool _, _, ⟨start, stop, hn⟩ | num _, _, ⟨start, stop, hn⟩
  | str _, _, ⟨start, stop, hn⟩ => ⟨start, stop, by rw [hn]; rfl⟩
  | arr vs, _, ⟨start, items, tail, hn, htail, hitems⟩ =>
    ⟨start, Node.rereadItems items, tail.reread, by rw [hn]; rfl, htail.reread,
      itemsSaidBy_reread vs hitems⟩
  | obj kvs, _, ⟨start, fields, tail, hn, htail, hfields⟩ =>
    ⟨start, Node.rereadFields fields, tail.reread, by rw [hn]; rfl, htail.reread,
      fieldsSaidBy_reread kvs hfields⟩

theorem itemsSaidBy_reread : ∀ (vs : List Json) {ns : List Node}, ItemsSaidBy vs ns →
    ItemsSaidBy vs (Node.rereadItems ns)
  | [], _, hns => by rw [hns]; rfl
  | v :: vs, _, ⟨n, rest, hns, hn, hrest⟩ =>
    ⟨n.reread, Node.rereadItems rest, by rw [hns]; rfl, SaidBy.reread v hn,
      itemsSaidBy_reread vs hrest⟩

theorem fieldsSaidBy_reread : ∀ (kvs : List (String × Json)) {ns : List (Key × Node)},
    FieldsSaidBy kvs ns → FieldsSaidBy kvs (Node.rereadFields ns)
  | [], _, hns => by rw [hns]; rfl
  | (_, v) :: kvs, _, ⟨k, n, rest, hns, hk, hn, hrest⟩ =>
    ⟨k, n.reread, Node.rereadFields rest, by rw [hns]; rfl, hk, SaidBy.reread v hn,
      fieldsSaidBy_reread kvs hrest⟩

end

/-- Behind the tag all fields are read and kept. -/
theorem splitTag_said {tag : String} (names : List String) {kvs : List (String × Json)}
    (htag : ∀ kv ∈ kvs, kv.1 ≠ tag) {ns : List (Key × Node)} (hsaid : FieldsSaidBy kvs ns)
    (found : Option String) (others : List (Key × Node)) :
    Node.splitTag tag names found others ns = .ok (found, others.reverse ++ ns) := by
  induction kvs generalizing ns others with
  | nil =>
    cases hsaid
    rw [Node.splitTag, List.append_nil]
  | cons kv kvs ih =>
    obtain ⟨k, n, rest, rfl, hk, hn, hrest⟩ := hsaid
    obtain ⟨hkv, htag⟩ := List.forall_mem_cons.1 htag
    obtain ⟨w, hw⟩ := value_of_saidBy _ hn
    rw [Node.splitTag, hk]
    dsimp only [bind, Except.bind]
    rw [if_neg (by simpa using hkv), hw]
    dsimp only
    rw [ih htag hrest, List.reverse_cons, List.append_assoc, List.singleton_append]

namespace Carries

variable {α : Type} {room : Nat} {x : α}

/-- A value with a tag is read back, if the rest of it is by the shape that the tag names. -/
theorem tagged (title : String) {tag name : String} {shapes : List (String × Shape α)}
    {shape : Shape α} (hshape : shapes.find? (·.1 == name) = some (name, shape))
    {kvs : List (String × Json)} (htag : ∀ kv ∈ kvs, kv.1 ≠ tag)
    (h : Carries (room + 1) shape (obj kvs) x) :
    Carries (room + 1) (Node.tagged title tag shapes) (obj ((tag, str name) :: kvs)) x where
  fits := ⟨by omega, trivial, h.fits.2⟩
  reads := by
    rintro _ ⟨start, _, tail, rfl, htail, k, n, ns, rfl, hk, ⟨nstart, nstop, rfl⟩, hsaid⟩
    obtain ⟨stop, hstop⟩ := htail.strictEnd
    have hname : (shapes.map (·.1)).contains name = true := by
      have hmem := List.mem_of_find?_eq_some hshape
      exact List.contains_iff_mem.2 (List.mem_map.2 ⟨_, hmem, rfl⟩)
    have hsplit : Node.splitTag tag (shapes.map (·.1)) none []
        ((k, .scalar nstart (.ok (.str name)) (.ok nstop)) :: ns) = .ok (some name, ns) := by
      rw [Node.splitTag, hk]
      simp only [bind, Except.bind, beq_self_eq_true, if_true, Option.isSome_none,
        Bool.false_eq_true, if_false, Node.splitTag.choiceName, Node.stringAs, hname]
      exact splitTag_said _ htag hsaid (some name) []
    have hrest : (obj kvs).SaidBy (Node.obj start false ns tail) :=
      ⟨start, ns, tail, rfl, htail, hsaid⟩
    have hpick := h.reads _ (SaidBy.reread _ hrest)
    simp only [Node.tagged, tooDeepAt, hsplit, hstop]
    dsimp only [bind, Except.bind]
    simp only [Bool.false_eq_true, if_false, Node.tagged.pick, hshape, hpick]
    rfl

/-- A structure with a tag is read back, if its fields are. -/
theorem taggedRecord (title : String) {tag name : String} {shapes : List (String × Shape α)}
    {shape : Shape α} (hshape : shapes.find? (·.1 == name) = some (name, shape))
    {parts : List FieldShape} {fields : List (String × Option Json)} {P : Fields → Prop}
    (hparts : Parts room parts fields P) {part : String} {build : Fields → Except Fault α}
    (hrecord : shape = fun n => n.record part parts >>= build)
    (hnames : (tag :: parts.map (·.name)).Nodup) (hbuild : ∀ found, P found → build found = .ok x) :
    Carries (room + 1) (Node.tagged title tag shapes) (object ((tag, some (str name)) :: fields))
      x := by
  obtain ⟨htag, hnames⟩ := List.nodup_cons.1 hnames
  refine tagged title hshape ?_ (record hparts rfl hrecord hnames hbuild)
  rintro kv hkv rfl
  rw [hparts.map_name] at htag
  exact htag (List.mem_map.2 ⟨_, Parts.mem_written.1 hkv, rfl⟩)

/-- A variant without parts. -/
theorem nothingMore (room : Nat) (x : α) :
    Carries (room + 1) (Node.nothingMore x) (obj []) x where
  fits := ⟨by omega, trivial⟩
  reads := by
    rintro _ ⟨start, fields, tail, rfl, -, -⟩
    rfl

end Carries

end ContractBuild.Json
