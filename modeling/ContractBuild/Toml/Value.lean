/-!
# TOML values

A value remembers how its tables came about, because that decides which of them may still be added
to.
-/

namespace ContractBuild

/-- How a table came about. -/
inductive TableOrigin where
  /-- From its own header, or as the root. -/
  | header
  /-- From the header of a table in it. -/
  | implied
  /-- From a key with dots. -/
  | dotted
  /-- From braces. -/
  | braces
  deriving Repr, DecidableEq

/-- A TOML value. Of a float it is only known whether it is within the range of binary64, and of a
date that it is there. -/
inductive Toml where
  | str (s : String)
  | int (n : Int)
  | float (inRange : Bool)
  | bool (b : Bool)
  | date
  | arr (items : List Toml)
  /-- Tables with the same header in double brackets. -/
  | tables (items : List Toml)
  | table (origin : TableOrigin) (fields : List (String × Toml))
  deriving Repr, Inhabited

namespace Toml

/-- The value of a field. -/
def lookup (fields : List (String × Toml)) (name : String) : Option Toml :=
  (fields.find? (·.1 == name)).map (·.2)

/-- Replaces the value of a field, or adds it. -/
def replace (fields : List (String × Toml)) (name : String) (value : Toml) :
    List (String × Toml) :=
  if fields.any (·.1 == name) then fields.map fun f => if f.1 == name then (name, value) else f
  else fields ++ [(name, value)]

/-! ## Numbers out of range

A document may hold numbers that are out of range. Only to look at one of them is wrong. -/

/-- Whether an integer fits in 128 bits, with a sign or without one. -/
def intInRange (n : Int) : Bool := -Nat.pow 2 127 ≤ n && n < Nat.pow 2 128

mutual

/-- Whether all numbers in a value are in range. -/
def inRange : Toml → Bool
  | int n => intInRange n
  | float b => b
  | arr items | tables items => itemsInRange items
  | table _ fields => fieldsInRange fields
  | str _ | bool _ | date => true

/-- Whether all numbers in the items of a list are in range. -/
def itemsInRange : List Toml → Bool
  | [] => true
  | t :: rest => t.inRange && itemsInRange rest

/-- Whether all numbers in the fields of a table are in range. -/
def fieldsInRange : List (String × Toml) → Bool
  | [] => true
  | (_, t) :: rest => t.inRange && fieldsInRange rest

end

/-! ## Adding to tables -/

/-- Changes the fields of the table that a path leads to. Tables that are missing are put in with an
origin. A path with dots does not enter tables that have a header, and nothing enters braces. In a
list of tables the path leads into the last one. -/
def update (dotted : Bool) (change : TableOrigin → List (String × Toml) → Option Toml) :
    List String → Toml → Option Toml
  | [], table origin fields => change origin fields
  | key :: path, table origin fields => do
    let next ← match lookup fields key with
      | none => update dotted change path (table (if dotted then .dotted else .implied) [])
      | some (table .braces _) => none
      | some (table .header inner) =>
        if dotted then none else update dotted change path (table .header inner)
      | some (table o inner) => update dotted change path (table o inner)
      | some (tables items) =>
        match items.getLast? with
        | some last =>
          (update dotted change path last).map fun t => tables (items.dropLast ++ [t])
        | none => none
      | some _ => none
    return table origin (replace fields key next)
  | _, _ => none

/-- Puts a new field into a table. The table of a key with dots has to come from such keys too. -/
def addField (path : List String) (key : String) (value : Toml) : Toml → Option Toml :=
  update true (fun origin fields =>
    if (lookup fields key).isSome || (!path.isEmpty && origin != .dotted) then none
    else some (table origin (fields ++ [(key, value)]))) path

/-- Opens a table by its header. One that was only implied so far is taken over. -/
def openTable (path : List String) (key : String) : Toml → Option Toml :=
  update false (fun origin fields =>
    match lookup fields key with
    | none => some (table origin (fields ++ [(key, table .header [])]))
    | some (table .implied inner) => some (table origin (replace fields key (table .header inner)))
    | some _ => none) path

/-- Opens one more table of a list by its header. -/
def openListed (path : List String) (key : String) : Toml → Option Toml :=
  update false (fun origin fields =>
    match lookup fields key with
    | none => some (table origin (fields ++ [(key, tables [table .header []])]))
    | some (tables items) =>
      some (table origin (replace fields key (tables (items ++ [table .header []]))))
    | some _ => none) path

/-- Puts a new field into the table under a header, or below it. -/
def addUnder (header path : List String) (key : String) (value : Toml) : Toml → Option Toml :=
  update false (fun origin fields => addField path key value (table origin fields)) header

end Toml

end ContractBuild
