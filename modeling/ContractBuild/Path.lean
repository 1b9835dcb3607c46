import ContractBuild.Text.CharClass

/-!
# Slash-separated paths

A `Path` is kept as it was written. Its `components` are what it says: a leading slash is the root,
repeated and trailing slashes and inner dots say nothing. `Path.normalize` folds parent steps into
the names before them without looking at any file, and `Path.join`, `Path.parent?` and
`Path.fileName?` keep the spelling of what they do not touch. Whoever goes from directory to
directory comes to an end (`Path.length_directory_lt`).
-/

namespace ContractBuild

open Text

/-- One step of a path. -/
inductive Component where
  /-- The leading slash of an absolute path. -/
  | root
  /-- A dot at the front of a relative path. -/
  | here
  /-- Two dots. -/
  | up
  /-- An ordinary name. -/
  | name (text : String)
  deriving Repr, DecidableEq

/-- A component as it is written. -/
def Component.text : Component → String
  | root => "/"
  | here => "."
  | up => ".."
  | name s => s

/-- A path as it was written. -/
structure Path where
  text : String
  deriving Repr, DecidableEq, Inhabited

namespace Path

/-- The empty path. -/
def empty : Path := ⟨""⟩

instance : EmptyCollection Path := ⟨empty⟩

/-- Whether the path starts at the root. -/
def isAbsolute (p : Path) : Bool := p.text.toList.head? == some '/'

/-- Whether nothing is written. -/
def isEmpty (p : Path) : Bool := p.text.isEmpty

/-- The stretches between slashes. -/
def segments (cs : List Char) : List (List Char) := splitWhere (· == '/') cs

theorem segments_eq_splitOn (cs : List Char) : segments cs = cs.splitOn '/' := by
  induction cs with
  | nil => rfl
  | cons c cs ih =>
    unfold segments at ih ⊢
    rw [List.splitOn_cons_eq_if_modifyHead, ← ih, splitWhere]
    split
    · rfl
    · cases hs : splitWhere (· == '/') cs with
      | nil => exact absurd (ih.symm.trans hs) (List.splitOn_ne_nil '/' cs)
      | cons w ws => rfl

/-- A stretch that says nothing: an empty one, or a dot. -/
def idle (segment : List Char) : Bool := segment == [] || segment == ['.']

/-- What a stretch says behind the front of a path. -/
def step? (segment : List Char) : Option Component :=
  if idle segment then none
  else if segment == ['.', '.'] then some .up
  else some (.name (String.ofList segment))

/-- The steps of a path. A dot counts only at the front of a relative path. -/
def components (p : Path) : List Component :=
  match p.text.toList with
  | '/' :: rest => .root :: (segments rest).filterMap step?
  | cs =>
    match segments cs with
    | ['.'] :: more => .here :: more.filterMap step?
    | all => all.filterMap step?

/-- Stretches with a slash between each two. -/
def slashed (parts : List (List Char)) : List Char := ['/'].intercalate parts

theorem slashed_segments (cs : List Char) : slashed (segments cs) = cs := by
  rw [segments_eq_splitOn, slashed, List.intercalate_splitOn]

theorem slashed_cons (part : List Char) {parts : List (List Char)} (h : parts ≠ []) :
    slashed (part :: parts) = part ++ '/' :: slashed parts := by
  obtain ⟨next, more, rfl⟩ := List.exists_cons_of_ne_nil h
  rw [slashed, List.intercalate_cons_cons, List.append_assoc]
  rfl

theorem slashed_append {front rest : List (List Char)} (hf : front ≠ []) (hr : rest ≠ []) :
    slashed (front ++ rest) = slashed front ++ '/' :: slashed rest := by
  induction front with
  | nil => exact absurd rfl hf
  | cons part front ih =>
    cases front with
    | nil =>
      have hone : slashed [part] = part := by simp [slashed]
      rw [List.singleton_append, slashed_cons part hr, hone]
    | cons next more =>
      have hne : next :: more ≠ [] := List.cons_ne_nil next more
      rw [List.cons_append, slashed_cons part (by simp), slashed_cons part hne, ih hne,
        List.append_assoc, List.cons_append]

/-- The plain spelling of a list of steps. -/
def ofComponents : List Component → Path
  | .root :: steps => ⟨String.ofList ('/' :: slashed (steps.map (·.text.toList)))⟩
  | steps => ⟨String.ofList (slashed (steps.map (·.text.toList)))⟩

/-- Takes one step from the place that `trail` leads to, the last step first. A parent step takes
back a name, stays at the root, and is kept where there is nothing to take back. -/
def follow (trail : List Component) : Component → List Component
  | .here => trail
  | .up =>
    match trail with
    | .name _ :: before => before
    | .root :: _ => trail
    | _ => .up :: trail
  | c => c :: trail

/-- The steps that remain when dots are dropped and parent steps are folded. -/
def resolve (steps : List Component) : List Component := (steps.foldl follow []).reverse

/-- The normal form of a path: no dots, and parent steps only at the front of a relative path. No
file is looked at. -/
def normalize (p : Path) : Path := ofComponents (resolve p.components)

/-- `q` seen from `p`. An absolute `q` stands for itself. -/
def join (p q : Path) : Path :=
  if q.isAbsolute || p.isEmpty then q
  else if p.text.toList.getLast? == some '/' then ⟨p.text ++ q.text⟩
  else ⟨p.text ++ "/" ++ q.text⟩

/-- The path without its last step; the empty path and the root have none. -/
def parent? (p : Path) : Option Path :=
  match p.text.toList with
  | '/' :: rest =>
    match (segments rest).reverse.dropWhile idle with
    | [] => none
    | _ :: before => some ⟨String.ofList ('/' :: slashed (before.dropWhile idle).reverse)⟩
  | [] => none
  | cs =>
    match segments cs with
    | [] => none
    | first :: more =>
      match more.reverse.dropWhile idle with
      | [] => some empty
      | _ :: before => some ⟨String.ofList (slashed (first :: (before.dropWhile idle).reverse))⟩

/-- The directory of a path, the empty path for a bare name. -/
def directory (p : Path) : Path := p.parent?.getD empty

/-- What is left of some stretches when the last one that says something is cut off, with all
that say nothing around it, is their front. -/
theorem exists_append_of_dropWhile {parts before : List (List Char)} {part : List Char}
    (h : parts.reverse.dropWhile idle = part :: before) :
    ∃ behind, behind ≠ [] ∧ parts = (before.dropWhile idle).reverse ++ behind := by
  have hall : parts.reverse.takeWhile idle ++
      part :: (before.takeWhile idle ++ before.dropWhile idle) = parts.reverse := by
    rw [List.takeWhile_append_dropWhile, ← h, List.takeWhile_append_dropWhile]
  refine ⟨(parts.reverse.takeWhile idle ++ part :: before.takeWhile idle).reverse, by simp, ?_⟩
  rw [← List.reverse_append, List.append_assoc, List.cons_append, hall, List.reverse_reverse]

/-- Fewer stretches are spelled shorter. -/
theorem length_slashed_lt {front behind : List (List Char)} (hf : front ≠ []) (hb : behind ≠ []) :
    (slashed front).length < (slashed (front ++ behind)).length := by
  rw [slashed_append hf hb, List.length_append, List.length_cons]
  omega

/-- **A directory is spelled shorter** than what it holds. -/
theorem length_directory_lt {p : Path} (h : p.isEmpty = false) :
    p.directory.text.length < p.text.length := by
  have hpos : 0 < p.text.toList.length := by
    cases hp : p.text.toList with
    | nil =>
      rw [isEmpty, String.toList_eq_nil_iff.mp hp] at h
      cases h
    | cons c cs => exact Nat.zero_lt_succ _
  rw [← String.length_toList, ← String.length_toList]
  unfold directory parent?
  split
  · rename_i rest hp
    rw [hp]
    split
    · exact Nat.zero_lt_succ _
    · rename_i part before hdrop
      obtain ⟨behind, hne, hparts⟩ := exists_append_of_dropWhile hdrop
      rw [Option.getD_some, String.toList_ofList, List.length_cons, List.length_cons]
      refine Nat.succ_lt_succ ?_
      by_cases hfront : (before.dropWhile idle).reverse = []
      · rw [hfront]
        cases rest with
        | nil => cases hdrop
        | cons c rest => exact Nat.zero_lt_succ _
      · rw [← slashed_segments rest, hparts]
        exact length_slashed_lt hfront hne
  · exact hpos
  · split
    · exact hpos
    · rename_i first more hparts
      split
      · exact hpos
      · rename_i part before hdrop
        obtain ⟨behind, hne, hmore⟩ := exists_append_of_dropWhile hdrop
        rw [Option.getD_some, String.toList_ofList, ← slashed_segments p.text.toList, hparts, hmore,
          ← List.cons_append]
        exact length_slashed_lt (List.cons_ne_nil _ _) hne
/-- The last step, if it is a name. -/
def fileName? (p : Path) : Option String :=
  match p.components.getLast? with
  | some (.name s) => some s
  | _ => none

/-- The steps of `p` behind those of `base`, if `p` starts with them. -/
def stripPrefix? (p base : Path) : Option Path :=
  (base.components.isPrefixOf? p.components).map ofComponents

/-- Two spellings of the same steps. -/
def sameSteps (p q : Path) : Bool := p.components == q.components

end Path

end ContractBuild
