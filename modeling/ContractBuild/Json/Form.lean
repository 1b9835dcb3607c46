import ContractBuild.Json.Decode

/-!
# Types with a JSON form

A `JsonForm` says how the values of a type are written and which shape they are read from.
-/

namespace ContractBuild

open Json

/-- A type whose values are written and read as JSON. -/
class JsonForm (α : Type) where
  toJson : α → Json
  shape : Shape α

export JsonForm (toJson)

/-- The shape that values of a type are read from. -/
abbrev shapeOf (α : Type) [JsonForm α] : Shape α := JsonForm.shape

namespace Json

/-- Reads a whole text as a value of a type. -/
def read (α : Type) [JsonForm α] (text : String) : Except Fault α := decode (shapeOf α) text

/-- An object of those fields that are there. -/
def object (fields : List (String × Option Json)) : Json :=
  obj (fields.filterMap fun f => f.2.map fun v => (f.1, v))

/-- The fields of an object; none for another value. -/
def fieldsOf : Json → List (String × Json)
  | obj fields => fields
  | _ => []

/-- A value with one of several names, written as the name. -/
def named {α : Type} [DecidableEq α] (names : List (String × α)) (v : α) : Json :=
  str (((names.find? (·.2 == v)).map (·.1)).getD "")

end Json

instance : JsonForm String := ⟨.str, Node.string⟩

instance : JsonForm Bool := ⟨.bool, Node.boolean⟩

instance : JsonForm UInt32 :=
  ⟨fun n => .ofNat n.toNat, fun n => (Node.natural32 n).map Nat.toUInt32⟩

instance : JsonForm UInt64 :=
  ⟨fun n => .ofNat n.toNat, fun n => (Node.natural64 n).map Nat.toUInt64⟩

instance : JsonForm Json := ⟨id, Node.value⟩

instance {α : Type} [JsonForm α] : JsonForm (List α) :=
  ⟨fun l => .arr (l.map toJson), Node.list (shapeOf α)⟩

instance {α : Type} [JsonForm α] : JsonForm (Dict α) :=
  ⟨fun d => .obj (d.entries.map fun e => (e.1, toJson e.2)), Node.dict (shapeOf α)⟩

end ContractBuild
