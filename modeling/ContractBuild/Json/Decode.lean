import ContractBuild.Data.Dict
import ContractBuild.Json.Node
import ContractBuild.Text.Quoted

/-!
# Looking for a shape in a JSON text

A `Shape α` takes a node to a value of type `α`, or to the first fault in the order of the text.
`value` takes any JSON; `string`, `natural`, `list`, `dict` and so on take one kind of value;
`record` takes the fields of a structure, from an object or, in order, from a list.
-/

namespace ContractBuild.Json

/-- A reader of nodes. -/
abbrev Shape (α : Type) := Node → Except Fault α

/-- The fault of a node that says something else than `expected`. -/
def Node.unfit (node : Node) (expected : String) : Fault :=
  match node with
  | .scalar _ (.error f) _ => f
  | .scalar start (.ok v) lenient =>
    ⟨.unfit s!"invalid type: {said v}, expected {expected}", lenient.toOption.getD start⟩
  | .arr start .. => ⟨.unfit s!"invalid type: sequence, expected {expected}", start⟩
  | .obj start .. => ⟨.unfit s!"invalid type: map, expected {expected}", start⟩
  | .bad f => f
where
  /-- What a scalar says. -/
  said : Scalar → String
    | .null => "null"
    | .bool true => "boolean `true`"
    | .bool false => "boolean `false`"
    | .num (.int n) => s!"integer `{String.ofList (intChars n)}`"
    | .num (.float x) => s!"floating point `{String.ofList x.jsonChars}`"
    | .str s => "string " ++ String.ofList (Text.quoted s.toList)

/-- What a reader says of the end of a list or an object. -/
def Tail.strictEnd : Tail → Except Fault Nat
  | .closed stop | .known stop => .ok stop
  | .broken strict _ _ => .error strict
  | .cut => .error ⟨.endInValue, 0⟩

/-- What a skipper says of the end of a list or an object. -/
def Tail.lenientEnd : Tail → Except Fault Unit
  | .closed _ | .known _ => .ok ()
  | .broken _ lenient _ => .error lenient
  | .cut => .error ⟨.endInValue, 0⟩

/-- What one says who expects the bracket. -/
def Tail.finish : Tail → Except Fault Nat
  | .closed stop | .known stop => .ok stop
  | .broken _ _ finish => .error finish
  | .cut => .error ⟨.endInValue, 0⟩

/-- The end of a list or an object in a value that was read whole before. -/
def Tail.reread : Tail → Tail
  | .closed stop => .known stop
  | tail => tail

/-- The fault of a list or an object that too many others enclose. -/
def tooDeepAt (start : Nat) (deep : Bool) : Except Fault Unit :=
  if deep then .error ⟨.tooDeep, start + 1⟩ else .ok ()

namespace Node

/-! ## Any value -/

mutual

/-- Skips a value. -/
def skip : Node → Except Fault Unit
  | scalar _ _ lenient => lenient.map fun _ => ()
  | arr _ _ items tail => do
    skipItems items
    tail.lenientEnd
  | obj _ _ fields tail => do
    skipFields fields
    tail.lenientEnd
  | bad f => .error f

/-- Skips the items of a list. -/
def skipItems : List Node → Except Fault Unit
  | [] => .ok ()
  | n :: rest => do
    skip n
    skipItems rest

/-- Skips the values of fields. -/
def skipFields : List (Key × Node) → Except Fault Unit
  | [] => .ok ()
  | (_, n) :: rest => do
    skip n
    skipFields rest

end

/-- The value of a scalar. -/
def ofScalar : Scalar → Json
  | .null => .null
  | .bool b => .bool b
  | .num n => .num n
  | .str s => .str s

mutual

/-- Any value. Fields of an object are put in ascending order of their names, and of several with
one name the last counts. -/
def value : Shape Json
  | scalar _ strict _ => strict.map ofScalar
  | arr start deep items tail => do
    tooDeepAt start deep
    let items ← valueItems items
    let _ ← tail.strictEnd
    return .arr items
  | obj start deep fields tail => do
    tooDeepAt start deep
    let fields ← valueFields [] fields
    let _ ← tail.strictEnd
    return .obj fields
  | bad f => .error f

/-- The items of a list. -/
def valueItems : List Node → Except Fault (List Json)
  | [] => .ok []
  | n :: rest => do
    let v ← value n
    return v :: (← valueItems rest)

/-- The fields of an object, added to those before them. -/
def valueFields (before : List (String × Json)) :
    List (Key × Node) → Except Fault (List (String × Json))
  | [] => .ok before
  | (k, n) :: rest => do
    let key ← k.text
    let v ← value n
    valueFields (Dict.insertEntry key v before) rest

end

/-! ## One kind of value -/

/-- A string; `expected` names what it stands for. -/
def stringAs (expected : String) : Shape String
  | scalar _ (.ok (.str s)) _ => .ok s
  | n => .error (n.unfit expected)

/-- A string. -/
def string : Shape String := stringAs "a string"

/-- A truth value. -/
def boolean : Shape Bool
  | scalar _ (.ok (.bool b)) _ => .ok b
  | n => .error (n.unfit "a boolean")

/-- A natural number below a limit; `expected` names its type. -/
def naturalBelow (limit : Nat) (expected : String) : Shape Nat
  | scalar start (.ok (.num (.int i))) lenient =>
    if 0 ≤ i ∧ i < limit then .ok i.toNat
    else
      let said := String.ofList (intChars i)
      .error ⟨.unfit s!"invalid value: integer `{said}`, expected {expected}",
        lenient.toOption.getD start⟩
  | n => .error (n.unfit expected)

/-- A natural number of 32 bits. -/
def natural32 : Shape Nat := naturalBelow UInt32.size "u32"

/-- A natural number of 64 bits. -/
def natural64 : Shape Nat := naturalBelow UInt64.size "u64"

/-- A value, or null for none. -/
def nullable {α : Type} (shape : Shape α) : Shape (Option α)
  | scalar _ (.ok .null) _ => .ok none
  | n => (shape n).map some

/-- A list. -/
def list {α : Type} (shape : Shape α) : Shape (List α)
  | arr start deep items tail => do
    tooDeepAt start deep
    let items ← items.mapM shape
    let _ ← tail.strictEnd
    return items
  | n => .error (n.unfit "a sequence")

/-- A dictionary; of several entries with one key the last counts. -/
def dict {α : Type} (shape : Shape α) : Shape (Dict α)
  | obj start deep fields tail => do
    tooDeepAt start deep
    let entries ← fields.foldlM (fun (d : Dict α) (k, n) => do
      let key ← k.text
      return d.insert key (← shape n)) ∅
    let _ ← tail.strictEnd
    return entries
  | n => .error (n.unfit "a map")

/-- The cause of a name that is none of the known ones. -/
def unknownName (name : String) (known : List String) : Cause :=
  let expected := match known with
    | [a] => s!"`{a}`"
    | [a, b] => s!"`{a}` or `{b}`"
    | names => "one of " ++ ", ".intercalate (names.map fun n => s!"`{n}`")
  .unfit s!"unknown variant `{name}`, expected {expected}"

/-- One of several names: a string, or an object with the name as its only key and nothing under it.
Nothing is null, and in a value that was read whole before also an object without fields. -/
def choice {α : Type} (options : List (String × α)) : Shape α
  | obj start deep fields tail => do
    tooDeepAt start deep
    match fields with
    | [] =>
      let stop ← tail.finish
      throw ⟨.noValue, stop⟩
    | (k, n) :: more =>
      let found ← pick (← k.text) k.after
      match n with
      | scalar _ (.ok .null) _ | obj _ _ [] (.known _) => pure ()
      | n => throw (n.unfit "unit")
      if more.isEmpty then
        let _ ← tail.finish
        return found
      else throw ⟨.noValue, k.after⟩
  | scalar start (.ok (.str s)) lenient => pick s (lenient.toOption.getD start)
  | scalar start (.ok _) _ => .error ⟨.noValue, start + 1⟩
  | scalar start (.error f) _ => .error (if quoteFault f then f else ⟨.noValue, start + 1⟩)
  | arr start .. => .error ⟨.noValue, start + 1⟩
  | bad f => .error f
where
  /-- The option with a name. -/
  pick (name : String) (pos : Nat) : Except Fault α :=
    match options.find? (·.1 == name) with
    | some o => .ok o.2
    | none =>
      .error ⟨unknownName name (options.map (·.1)), pos⟩
  /-- Whether a fault lies in a string. -/
  quoteFault (f : Fault) : Bool :=
    match f.cause with
    | .endInString | .badEscape | .rawControl | .loneSurrogate | .brokenPair | .notUnicode => true
    | _ => false

/-! ## Structures -/

end Node

/-- Whether a field of a structure has to be there. -/
inductive Presence where
  /-- Always. -/
  | required
  /-- It may be missing, in an object and at the end of a list. -/
  | optional
  deriving Repr, DecidableEq

/-- A field of a structure: its name, whether it has to be there, and the check of its value. -/
structure FieldShape where
  name : String
  presence : Presence
  check : Node → Except Fault Unit

/-- A field that has to be there. -/
def required {α : Type} (name : String) (shape : Shape α) : FieldShape :=
  ⟨name, .required, fun n => (shape n).map fun _ => ()⟩

/-- A field that may be missing. -/
def optional {α : Type} (name : String) (shape : Shape α) : FieldShape :=
  ⟨name, .optional, fun n => (shape n).map fun _ => ()⟩

/-- The nodes of the fields of a structure, by name. -/
abbrev Fields := List (String × Node)

namespace Fields

/-- The node of a field. -/
def node? (fields : Fields) (name : String) : Option Node :=
  (fields.find? (·.1 == name)).map (·.2)

/-- A field that was checked to be there. -/
def get {α : Type} (fields : Fields) (name : String) (shape : Shape α) : Except Fault α :=
  match node? fields name with
  | some n => shape n
  | none => .error ⟨.unfit s!"missing field `{name}`", 0⟩

/-- A field, or a default if it is missing. -/
def getD {α : Type} (fields : Fields) (name : String) (shape : Shape α) (default : α) :
    Except Fault α :=
  match node? fields name with
  | some n => shape n
  | none => .ok default

/-- A field that may be null or missing. -/
def get? {α : Type} (fields : Fields) (name : String) (shape : Shape α) :
    Except Fault (Option α) :=
  getD fields name (Node.nullable shape) none

end Fields

namespace Node

/-- Reads fields of an object in the order of the text. Known fields are checked, and none may come
twice; others are skipped. -/
def objectFields (shapes : List FieldShape) (found : Fields) :
    List (Key × Node) → Except Fault Fields
  | [] => .ok found
  | (k, n) :: rest => do
    let key ← k.text
    match shapes.find? (·.name == key) with
    | none => n.skip
    | some shape =>
      if (found.node? key).isSome then
        throw ⟨.unfit s!"duplicate field `{key}`", k.after⟩
      shape.check n
    objectFields shapes ((key, n) :: found) rest

/-- The first field that is missing although it has to be there. -/
def missing? (shapes : List FieldShape) (found : Fields) : Option FieldShape :=
  shapes.find? fun s => s.presence == .required && (found.node? s.name).isNone

/-- Reads items of a list as fields, in order. Also gives the items that are left. -/
def listFields (title : String) (count : Nat) (tail : Tail) :
    List FieldShape → List Node → Except Fault (Fields × List Node)
  | [], items => .ok ([], items)
  | shape :: shapes, [] => do
    let stop ← tail.strictEnd
    match shape.presence with
    | .optional => listFields title count tail shapes []
    | .required =>
      let elements := if count == 1 then "1 element" else s!"{count} elements"
      let length := count - shapes.length - 1
      throw ⟨.unfit s!"invalid length {length}, expected struct {title} with {elements}", stop⟩
  | shape :: shapes, n :: items => do
    shape.check n
    let (fields, rest) ← listFields title count tail shapes items
    return ((shape.name, n) :: fields, rest)

/-- The fields of a structure that is called `title`. -/
def record (title : String) (shapes : List FieldShape) : Shape Fields
  | obj start deep fields tail => do
    tooDeepAt start deep
    let found ← objectFields shapes [] fields
    let stop ← tail.strictEnd
    match missing? shapes found with
    | some s => throw ⟨.unfit s!"missing field `{s.name}`", stop⟩
    | none => return found
  | arr start deep items tail => do
    tooDeepAt start deep
    let (fields, rest) ← listFields title shapes.length tail shapes items
    match rest with
    | [] =>
      let _ ← tail.finish
      return fields
    | n :: _ => throw ⟨.trailingText, n.start + 1⟩
  | n => .error (n.unfit s!"struct {title}")

/-! ## Values with a tag

A value of one of several shapes names its shape in a tag: a field of an object, wherever it stands,
or the first item of a list. All of the value is read before its shape is looked for. -/

/-- Any fault of a value that was read before is one of shape. -/
def asUnfit {α : Type} (r : Except Fault α) : Except Fault α :=
  r.mapError fun f =>
    match f.cause with
    | .unfit _ => f
    | c => ⟨.unfit c.message, f.offset⟩

mutual

/-- A value that was read whole before. -/
def reread : Node → Node
  | arr start deep items tail => arr start deep (rereadItems items) tail.reread
  | obj start deep fields tail => obj start deep (rereadFields fields) tail.reread
  | n => n

/-- The items of a list that was read whole before. -/
def rereadItems : List Node → List Node
  | [] => []
  | n :: rest => n.reread :: rereadItems rest

/-- The fields of an object that was read whole before. -/
def rereadFields : List (Key × Node) → List (Key × Node)
  | [] => []
  | (k, n) :: rest => (k, n.reread) :: rereadFields rest

end

/-- Separates the tag from the other fields, reading them all. -/
def splitTag (tag : String) (names : List String) (found : Option String)
    (others : List (Key × Node)) : List (Key × Node) →
    Except Fault (Option String × List (Key × Node))
  | [] => .ok (found, others.reverse)
  | (k, n) :: rest => do
    let key ← k.text
    if key == tag then
      if found.isSome then throw ⟨.unfit s!"duplicate field `{tag}`", k.after⟩
      let name ← choiceName n
      splitTag tag names (some name) others rest
    else
      let _ ← n.value
      splitTag tag names found ((k, n) :: others) rest
where
  /-- The name in a tag. -/
  choiceName (n : Node) : Except Fault String := do
    let name ← stringAs "variant identifier" n
    if names.contains name then return name
    else throw ⟨unknownName name names, n.start⟩

/-- A value with a tag: `shapes` says what the rest is read as. -/
def tagged {α : Type} (title tag : String) (shapes : List (String × Shape α)) : Shape α
  | obj start deep fields tail => do
    tooDeepAt start deep
    let (name, others) ← splitTag tag (shapes.map (·.1)) none [] fields
    let stop ← tail.strictEnd
    match name with
    | none => throw ⟨.unfit s!"missing field `{tag}`", stop⟩
    | some name => asUnfit (pick name (obj start false others tail).reread)
  | arr start deep items tail => do
    tooDeepAt start deep
    match items with
    | [] =>
      let stop ← tail.strictEnd
      throw ⟨.unfit s!"missing field `{tag}`", stop⟩
    | first :: rest =>
      let name ← splitTag.choiceName (shapes.map (·.1)) first
      let _ ← valueItems rest
      let _ ← tail.strictEnd
      asUnfit (pick name (arr start false rest tail).reread)
  | n => .error (n.unfit s!"internally tagged enum {title}")
where
  /-- What a shape makes of the rest. -/
  pick (name : String) (rest : Node) : Except Fault α :=
    match shapes.find? (·.1 == name) with
    | some s => s.2 rest
    | none => .error ⟨unknownName name (shapes.map (·.1)), rest.start⟩

/-- The shape of a variant without parts: any object, or a list of nothing. -/
def nothingMore {α : Type} (value : α) : Shape α
  | arr start _ (item :: items) _ =>
    let length := (item :: items).length
    .error ⟨.unfit s!"invalid length {length}, expected 0 elements in sequence", start⟩
  | _ => .ok value

end Node

/-! ## Whole texts -/

/-- Reads a whole text as a shape. -/
def decode {α : Type} (shape : Shape α) (text : String) : Except Fault α := do
  let document := readDocument text.toList
  let v ← shape document.node
  document.trailing
  return v

/-- Reads a whole text as any value. -/
def parse (text : String) : Except Fault Json := decode Node.value text

end ContractBuild.Json
