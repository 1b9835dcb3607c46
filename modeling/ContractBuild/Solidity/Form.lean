import ContractBuild.Json.Form
import ContractBuild.Solidity.Module

/-!
# JSON forms of modules
-/

namespace ContractBuild.Solidity

open Json

/-- The kinds of imports by name. -/
def ImportKind.names : List (String × ImportKind) :=
  [.relative, .dependencyRoot, .remoteRepository].map fun k => (k.name, k)

instance : JsonForm ImportKind where
  toJson k := .str k.name
  shape := Node.choice ImportKind.names

instance : JsonForm ImportReference where
  toJson i := .object
    [("raw", some (.str i.raw)), ("kind", some (toJson i.kind)), ("resolved", i.resolved.map .str)]
  shape n := do
    let f ← n.record "ImportReference"
      [required "raw" Node.string, required "kind" (shapeOf ImportKind),
       optional "resolved" (Node.nullable Node.string)]
    return {
      raw := ← f.get "raw" Node.string
      kind := ← f.get "kind" (shapeOf ImportKind)
      resolved := ← f.get? "resolved" Node.string }

instance : JsonForm SourceModule where
  toJson m := .object
    [("id", some (.str m.id)), ("text", some (.str m.text)), ("body", some (.str m.body)),
     ("pragma", m.pragma.map .str), ("licenses", some (toJson m.licenses)),
     ("imports", some (toJson m.imports))]
  shape n := do
    let f ← n.record "SourceModule"
      [required "id" Node.string, required "text" Node.string, required "body" Node.string,
       optional "pragma" (Node.nullable Node.string),
       optional "licenses" (shapeOf (List String)),
       optional "imports" (shapeOf (List ImportReference))]
    return {
      id := ← f.get "id" Node.string
      text := ← f.get "text" Node.string
      body := ← f.get "body" Node.string
      pragma := ← f.get? "pragma" Node.string
      licenses := ← f.getD "licenses" (shapeOf (List String)) []
      imports := ← f.getD "imports" (shapeOf (List ImportReference)) [] }

end ContractBuild.Solidity
