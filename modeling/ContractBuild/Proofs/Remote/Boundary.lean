import ContractBuild.Proofs.Remote.Names
import ContractBuild.Proofs.Sandbox.Containment
import ContractBuild.Proofs.SourceIdentity
import ContractBuild.Source.GitHub

/-!
# Where the paths of remote files lead

The path of a reference is meant to lie inside its repository. Nothing checks that it does: parent
steps at its front are kept, and the address of the file is put together from it as it is.

- **Paths that stay below their start** (`Path.staysBelow_iff`): a normal form has no parent steps
  exactly if its path never leads above its start on the way.
- **Addresses** (`Url.parse?_below`): if nothing is dropped, an address is read as its stretches.
  Only steps of dots change them, and parent steps take back stretches (`Url.resolveDots_ups`).
- **Addresses of files** (`RemoteRef.IsVerbatim.text_address`): the stretches of the repository, and
  then those of the path.

Main statement: `RemoteRef.contents_boundary`. Parent steps at the front of a path lead out of the
repository, and so do dots that are escaped (`RemoteRef.contents_left`).
-/

namespace ContractBuild

open Text ContractBuild.Path

/-! ## Paths that stay below their start -/

namespace Path

/-- A relative path that does not lead above its start on the way. -/
def StaysBelow (p : Path) : Prop :=
  p.isAbsolute = false ∧ ∀ front, front <+: p.components → 0 ≤ Sandbox.depth 0 front

/-- A parent step that is kept is never taken back. -/
theorem up_mem_foldl_follow {before : List Component} (h : .up ∈ before)
    (steps : List Component) : .up ∈ steps.foldl follow before := by
  induction steps generalizing before with
  | nil => exact h
  | cons c steps ih =>
    refine ih ?_
    unfold follow
    split
    · exact h
    · split
      · simpa using h
      · exact h
      · exact List.mem_cons_self
    · exact List.mem_cons_of_mem _ h

/-- **Parent steps are left exactly if the steps lead above the names they start from.** -/
theorem up_notMem_foldl_follow_iff {steps : List Component} (hroot : .root ∉ steps)
    (names : List String) :
    .up ∉ steps.foldl follow (names.map .name) ↔
      ∀ front, front <+: steps → 0 ≤ Sandbox.depth names.length front := by
  induction steps generalizing names with
  | nil => simp
  | cons c steps ih =>
    rw [List.mem_cons, not_or] at hroot
    have hfronts (P : List Component → Prop) : (∀ front, front <+: c :: steps → P front) ↔
        P [] ∧ ∀ front, front <+: steps → P (c :: front) := by
      simp only [List.prefix_cons_iff]
      grind
    rw [List.foldl_cons, hfronts, Sandbox.depth_nil, and_iff_right (Int.natCast_nonneg _)]
    cases c with
    | root => exact absurd rfl hroot.1
    | here =>
      simp only [Sandbox.depth_here]
      exact ih hroot.2 names
    | name s =>
      simp only [Sandbox.depth_name]
      exact ih hroot.2 (s :: names)
    | up =>
      cases names with
      | nil =>
        refine iff_of_false (not_not_intro (up_mem_foldl_follow List.mem_cons_self steps)) ?_
        intro h
        have hlow := h [] List.nil_prefix
        simp [Sandbox.depth, Sandbox.isName] at hlow
      | cons s names =>
        simp only [List.length_cons, Sandbox.depth_up]
        exact ih hroot.2 names

/-- **Which paths have a normal form that is relative and without parent steps.** -/
theorem staysBelow_iff (p : Path) :
    p.StaysBelow ↔ p.normalize.isAbsolute = false ∧ .up ∉ p.normalize.components := by
  rw [StaysBelow, isAbsolute_normalize, components_normalize, resolve, List.mem_reverse]
  refine and_congr_right fun hrelative => (up_notMem_foldl_follow_iff ?_ []).symm
  rw [root_mem_components_iff, hrelative]
  exact Bool.false_ne_true

end Path

/-! ## Addresses -/

namespace Url

/-- A stretch of a path in its standard spelling. -/
def stretch (s : String) : String := String.ofList (encode pathSet s.toList)

/-- A stretch that is no dots, in any spelling. -/
def IsName (s : String) : Prop :=
  isDot (encode pathSet s.toList) = false ∧ isDotDot (encode pathSet s.toList) = false

instance (s : String) : Decidable (IsName s) := inferInstanceAs (Decidable (_ ∧ _))

theorem toList_stretch (s : String) : (stretch s).toList = encode pathSet s.toList :=
  String.toList_ofList

/-- Names have a standard spelling that is no dots. -/
theorem not_dots_of_isName {names : List String} (h : ∀ s ∈ names, IsName s) :
    ∀ s ∈ (names.map stretch).map String.toList, isDot s = false ∧ isDotDot s = false := by
  intro s hs
  obtain ⟨t, ht, rfl⟩ := List.mem_map.mp hs
  obtain ⟨name, hname, rfl⟩ := List.mem_map.mp ht
  rw [toList_stretch]
  exact h name hname

theorem map_encode_toList (stretches : List String) :
    (stretches.map String.toList).map (encode pathSet) =
      (stretches.map stretch).map String.toList := by
  simp [toList_stretch]

/-- Characters that are not read as part of a name: some are dropped, some start a query or a
fragment, and a backslash is a slash. -/
def marks : List Char := ['\t', '\n', '\r', '?', '#', '\\']

theorem notMem_marks_of_all {cs : List Char} (h : cs.all (!marks.contains ·) = true) :
    ∀ c ∈ cs, c ∉ marks := by
  simpa using h

/-- A text without margins and line breaks is read as it is. -/
theorem cleaned_eq_self {first : Char} {cs : List Char} (hfirst : isMargin first = false)
    (hend : ∀ c ∈ (first :: cs).getLast?, isMargin c = false)
    (hmarks : ∀ c ∈ first :: cs, c ∉ marks) :
    cleaned (String.ofList (first :: cs)) = first :: cs := by
  have hback : dropEndWhile isMargin (first :: cs) = first :: cs := by
    rw [dropEndWhile, List.reverse_eq_iff, List.dropWhile_eq_self_iff]
    intro hlen
    have hlast : (first :: cs).reverse[0] ∈ (first :: cs).getLast? := by
      rw [← List.head?_reverse, List.head?_eq_getElem?, Option.mem_def, List.getElem?_eq_getElem]
    exact Bool.eq_false_iff.mp (hend _ hlast)
  have hkept : ∀ c ∈ first :: cs, (c != '\t' && c != '\n' && c != '\r') = true := fun c hc => by
    have := hmarks c hc
    simp only [marks, List.mem_cons, not_or] at this
    simp [this]
  rw [cleaned, String.toList_ofList, List.dropWhile_cons_of_neg (by simp [hfirst]), hback,
    List.filter_eq_self.mpr hkept]

/-- **An address below the service is read as its stretches**, with steps of dots followed. -/
theorem parse?_below {cs : List Char} (hend : ∀ c ∈ cs.getLast?, isMargin c = false)
    (hmarks : ∀ c ∈ cs, c ∉ marks) :
    parse? (String.ofList ("https://api.github.com/".toList ++ cs)) =
      some ⟨"https", String.ofList ("//api.github.com".toList ++
        (resolveDots [] ((segments cs).map (encode pathSet))).flatMap ('/' :: ·))⟩ := by
  have hhost : ∀ c ∈ "https://api.github.com/".toList, c ∉ marks := notMem_marks_of_all (by decide)
  have hclean : cleaned (String.ofList ("https://api.github.com/".toList ++ cs)) =
      "https://api.github.com/".toList ++ cs := by
    have hslash : "https://api.github.com/".toList.getLast? = some '/' := by decide
    refine cleaned_eq_self (by decide) (fun c hc => ?_) fun c hc =>
      (List.mem_append.mp hc).elim (hhost c) (hmarks c)
    change c ∈ ("https://api.github.com/".toList ++ cs).getLast? at hc
    rw [List.getLast?_append, hslash] at hc
    cases hcs : cs.getLast? with
    | none =>
      rw [hcs] at hc
      cases hc
      decide
    | some a =>
      rw [hcs] at hc
      exact hend c (hcs.trans hc)
  have hscheme : scheme? ("https://api.github.com/".toList ++ cs) =
      some ("https", "//api.github.com/".toList ++ cs) := by
    have hlower : asciiLower (String.ofList "https".toList) = "https" := by decide +kernel
    conv => rhs; rw [← hlower]
    rfl
  have htail : splitTail ("//api.github.com/".toList ++ cs) =
      ("//api.github.com/".toList ++ cs, []) := by
    have hshort : ∀ c ∈ "//api.github.com/".toList, c ∉ marks := notMem_marks_of_all (by decide)
    have hplain : ∀ c ∈ "//api.github.com/".toList ++ cs, (c != '?' && c != '#') = true :=
      fun c hc => by
        have := (List.mem_append.mp hc).elim (hshort c) (hmarks c)
        simp only [marks, List.mem_cons, not_or] at this
        simp [this]
    rw [splitTail, spanOf, List.takeWhile_eq_self_iff.mpr hplain,
      List.dropWhile_eq_nil_iff.mpr hplain]
  have hstretches : splitWhere (isSlash true) cs = segments cs := splitWhere_congr fun c hc => by
    have := hmarks c hc
    simp only [marks, List.mem_cons, not_or] at this
    simp [isSlash, this]
  have hauthority : authorityText 443 "api.github.com".toList = .ok "api.github.com".toList := by
    decide +kernel
  have hweb : webText 443 ("//api.github.com/".toList ++ cs) =
      .ok ("//api.github.com".toList ++ pathText true cs) := by
    have hspan : spanOf (!isSlash true ·)
        (("//api.github.com/".toList ++ cs).dropWhile (isSlash true)) =
          ("api.github.com".toList, '/' :: cs) := rfl
    rw [webText, hspan]
    dsimp only
    rw [hauthority]
    rfl
  have hrest : restText "https" ("//api.github.com/".toList ++ cs) =
      .ok ("//api.github.com".toList ++ pathText true cs) := by
    have husual : usualPorts.lookup "https" = some 443 := by decide
    rw [restText, htail]
    dsimp only
    rw [husual]
    dsimp only
    rw [hweb]
    exact congrArg Except.ok (List.append_nil _)
  rw [parse?, read, hclean, hscheme]
  dsimp only
  rw [hrest, pathText, hstretches]
  rfl

/-! ## Steps of dots -/

/-- Stretches that are no dots stay. -/
theorem resolveDots_names {names : List (List Char)}
    (h : ∀ s ∈ names, isDot s = false ∧ isDotDot s = false) (before rest : List (List Char)) :
    resolveDots before (names ++ rest) = resolveDots (before ++ names) rest := by
  induction names generalizing before with
  | nil => simp
  | cons s names ih =>
    obtain ⟨⟨hdot, hdots⟩, hnames⟩ := List.forall_mem_cons.mp h
    rw [List.cons_append, resolveDots, hdot, hdots]
    simp [ih hnames]

/-- **Parent steps take back stretches of an address, as long as there are some.** -/
theorem resolveDots_ups (k : Nat) {rest : List (List Char)} (hne : rest ≠ [])
    (before : List (List Char)) :
    resolveDots before (List.replicate k ['.', '.'] ++ rest) =
      resolveDots (before.take (before.length - k)) rest := by
  induction k generalizing before with
  | zero => simp
  | succ k ih =>
    have hmore : (List.replicate k ['.', '.'] ++ rest).isEmpty = false := by simp [hne]
    have hdots : isDotDot ['.', '.'] = true := by decide
    rw [List.replicate_succ, List.cons_append, resolveDots, hdots, hmore]
    simp only [if_true, Bool.false_eq_true, if_false, List.append_nil]
    rw [ih, List.dropLast_eq_take, List.take_take, List.length_take]
    congr 2
    omega

/-- Parent steps, and then names or the end of the address. -/
theorem resolveDots_climb (k : Nat) {names : List (List Char)}
    (h : ∀ s ∈ names, isDot s = false ∧ isDotDot s = false) (before : List (List Char)) :
    resolveDots before
        (if k = 0 ∧ names = [] then [[]] else List.replicate k ['.', '.'] ++ names) =
      before.take (before.length - k) ++ if names = [] then [[]] else names := by
  by_cases hne : names = []
  · subst hne
    cases k with
    | zero => simp [resolveDots, isDot, isDotDot]
    | succ k =>
      -- the last parent step leaves an empty stretch behind
      have hlast (stretches : List (List Char)) : resolveDots stretches [['.', '.']] =
          stretches.dropLast ++ [[]] := rfl
      rw [if_neg (by simp), List.append_nil, List.replicate_succ',
        resolveDots_ups k (List.cons_ne_nil _ _), hlast, List.dropLast_eq_take, List.take_take,
        List.length_take, if_pos rfl]
      congr 2
      omega
  · have hall := resolveDots_names h (before.take (before.length - k)) []
    rw [List.append_nil] at hall
    rw [if_neg (fun hk => hne hk.2), if_neg hne, resolveDots_ups k hne, hall, resolveDots]

end Url

/-- The stretches of the address that the files of a repository lie below. -/
def GitHub.contents (owner repo : String) : List String := ["repos", owner, repo, "contents"]

/-- The address of what stretches lead to, below the service. -/
def GitHub.below (stretches : List String) : String :=
  "https://api.github.com/" ++ "/".intercalate stretches

/-! ## Paths of references -/

namespace RemoteRef

/-- The path lies in the repository: it is relative, and has no parent steps. -/
def Inside (r : RemoteRef) : Prop := r.path.isAbsolute = false ∧ .up ∉ r.path.components

/-- A reference that an address gives as it is: nothing in it is dropped or ends the path of the
address, and none of its names is dots in another spelling. -/
structure IsVerbatim (r : RemoteRef) (owner repo : String) : Prop where
  repository : r.repository = owner ++ "/" ++ repo
  marks : ∀ c ∈ r.repository.toList ++ r.path.text.toList, c ∉ Url.marks
  ending : ∀ c ∈ r.path.text.toList.getLast?, Url.isMargin c = false
  contents : ∀ s ∈ [owner, repo], '/' ∉ s.toList ∧ Url.IsName s
  names : ∀ s, .name s ∈ r.path.components → Url.IsName s

/-- The address of a reference has the stretches of its repository in front of its path. -/
theorem toList_address (token : Option String) {r : RemoteRef} {owner repo : String}
    (h : r.repository = owner ++ "/" ++ repo) :
    (({ token } : GitHub).address r).toList = "https://api.github.com/".toList ++
      (slashed ((GitHub.contents owner repo).map String.toList) ++ '/' :: r.path.text.toList) := by
  have hbase : String.ofList (dropEndWhile (· == '/') "https://api.github.com".toList) =
      "https://api.github.com" := by decide +kernel
  rw [GitHub.address, hbase, h]
  simp [GitHub.contents, slashed, List.intercalate]

theorem flatMap_slash {stretches : List (List Char)} (h : stretches ≠ []) :
    stretches.flatMap ('/' :: ·) = '/' :: slashed stretches := by
  induction stretches with
  | nil => exact absurd rfl h
  | cons s stretches ih =>
    cases stretches with
    | nil => simp [slashed]
    | cons t more =>
      rw [List.flatMap_cons, ih (List.cons_ne_nil t more), slashed_cons s (List.cons_ne_nil t more),
        List.cons_append]

/-- An address of the service as it is written. -/
theorem text_below (stretches : List String) :
    (Url.mk "https" (String.ofList ("//api.github.com".toList ++
      '/' :: slashed (stretches.map String.toList)))).text = GitHub.below stretches := by
  have hslash : "/".toList = ['/'] := by decide
  apply String.toList_injective
  unfold Url.text GitHub.below
  simp only [String.toList_append, String.toList_intercalate, String.toList_ofList, hslash]
  rfl

/-- The stretches of a spelling are the steps, or an empty one if there are none. -/
theorem segments_texts {steps : List Component} (h : ∀ c ∈ steps, IsPlain c) :
    segments (slashed (steps.map (·.text.toList))) =
      if steps = [] then [[]] else steps.map (·.text.toList) := by
  split
  · rename_i hnil
    subst hnil
    rfl
  · rename_i hne
    exact segments_slashed (slash_notMem_texts h) (by simpa using hne)

namespace IsVerbatim

variable {r : RemoteRef} {owner repo : String}

/-- The repository of a reference as it is: none of its stretches is dots, or divided. -/
theorem contents_all (h : r.IsVerbatim owner repo) :
    ∀ s ∈ GitHub.contents owner repo, '/' ∉ s.toList ∧ Url.IsName s := by
  have hfixed : ∀ s ∈ ["repos", "contents"], '/' ∉ s.toList ∧ Url.IsName s := by decide
  intro s hs
  simp only [GitHub.contents, List.mem_cons, List.not_mem_nil, or_false] at hs
  rcases hs with rfl | rfl | rfl | rfl
  · exact hfixed _ (by simp)
  · exact h.contents _ (by simp)
  · exact h.contents _ (by simp)
  · exact hfixed _ (by simp)

theorem marks_address (h : r.IsVerbatim owner repo) :
    ∀ c ∈ slashed ((GitHub.contents owner repo).map String.toList) ++ '/' :: r.path.text.toList,
      c ∉ Url.marks := by
  have hslash : '/' ∉ Url.marks := by decide
  have hrepos : ∀ c ∈ "repos".toList, c ∉ Url.marks := Url.notMem_marks_of_all (by decide)
  have hcontents : ∀ c ∈ "contents".toList, c ∉ Url.marks := Url.notMem_marks_of_all (by decide)
  have hrepository : r.repository.toList = owner.toList ++ '/' :: repo.toList := by
    simp [h.repository]
  intro c hc
  by_cases hne : c = '/'
  · rwa [hne]
  rcases List.mem_append.mp hc with hc | hc
  · obtain ⟨part, hpart, hin⟩ := mem_of_mem_slashed hne hc
    obtain ⟨s, hs, rfl⟩ := List.mem_map.mp hpart
    simp only [GitHub.contents, List.mem_cons, List.not_mem_nil, or_false] at hs
    rcases hs with rfl | rfl | rfl | rfl
    · exact hrepos c hin
    · exact h.marks c (by simp [hrepository, hin])
    · exact h.marks c (by simp [hrepository, hin])
    · exact hcontents c hin
  · exact h.marks c (List.mem_append_right _ ((List.mem_cons.mp hc).resolve_left hne))

theorem ending_address (h : r.IsVerbatim owner repo) :
    ∀ c ∈ (slashed ((GitHub.contents owner repo).map String.toList) ++
      '/' :: r.path.text.toList).getLast?, Url.isMargin c = false := by
  intro c hc
  rw [List.getLast?_append, List.getLast?_cons] at hc
  cases hlast : r.path.text.toList.getLast? with
  | none =>
    rw [hlast] at hc
    cases hc
    decide
  | some a =>
    rw [hlast] at hc
    exact h.ending c (hlast.trans hc)

/-- **Where the address of a reference leads**: to the stretches of its repository and of its path,
with steps of dots followed. -/
theorem text_address (h : r.IsVerbatim owner repo) (token : Option String) {behind : List String}
    (hne : behind ≠ [])
    (hbehind : Url.resolveDots (((GitHub.contents owner repo).map Url.stretch).map String.toList)
      ((segments r.path.text.toList).map (Url.encode Url.pathSet)) =
        (behind.map Url.stretch).map String.toList) :
    (Url.parse? (({ token } : GitHub).address r)).map Url.text =
      some (GitHub.below (behind.map Url.stretch)) := by
  have haddress : ({ token } : GitHub).address r =
      String.ofList ("https://api.github.com/".toList ++
        (slashed ((GitHub.contents owner repo).map String.toList) ++
          '/' :: r.path.text.toList)) := by
    rw [← toList_address token h.repository, String.ofList_toList]
  have hsegments : segments (slashed ((GitHub.contents owner repo).map String.toList) ++
      '/' :: r.path.text.toList) =
        (GitHub.contents owner repo).map String.toList ++ segments r.path.text.toList := by
    have hwhole : ∀ part ∈ (GitHub.contents owner repo).map String.toList, '/' ∉ part := by
      simpa using fun s hs => (h.contents_all s hs).1
    rw [segments_append_slash, segments_slashed hwhole (List.cons_ne_nil _ _)]
  have hresolved := Url.resolveDots_names
    (Url.not_dots_of_isName fun s hs => (h.contents_all s hs).2) []
    ((segments r.path.text.toList).map (Url.encode Url.pathSet))
  rw [List.nil_append, hbehind] at hresolved
  rw [haddress, Url.parse?_below h.ending_address h.marks_address, hsegments, List.map_append,
    Url.map_encode_toList, hresolved, flatMap_slash (by simpa using hne), Option.map_some,
    Option.some.injEq]
  exact text_below _

/-- The address of a file, if its path is relative: parent steps lead out of the repository. -/
theorem text_address_relative (h : r.IsVerbatim owner repo) (token : Option String)
    (hnormal : r.path.normalize = r.path) {climbs : Nat} {names : List String}
    (hsteps : r.path.components = List.replicate climbs .up ++ names.map .name) :
    (Url.parse? (({ token } : GitHub).address r)).map Url.text =
      some (GitHub.below (((GitHub.contents owner repo).take (4 - climbs) ++
        if names = [] then [""] else names).map Url.stretch)) := by
  have hmem : ∀ s ∈ names, .name s ∈ r.path.components := fun s hs => by
    rw [hsteps]
    exact List.mem_append_right _ (List.mem_map_of_mem hs)
  have hplain : ∀ c ∈ r.path.components, IsPlain c := fun c hc => by
    rw [hsteps] at hc
    rcases List.mem_append.mp hc with hc | hc
    · rw [List.eq_of_mem_replicate hc]
      unfold IsPlain
      decide
    · obtain ⟨s, hs, rfl⟩ := List.mem_map.mp hc
      exact isPlain_of_name_mem_components (hmem s hs)
  have htext : r.path.text.toList = slashed (r.path.components.map (·.text.toList)) := by
    conv => lhs; rw [← ofComponents_trail hnormal, ← components_eq_trail hnormal,
      ofComponents_of_isPlain hplain, String.toList_ofList]
  have hsegments : (segments r.path.text.toList).map (Url.encode Url.pathSet) =
      if climbs = 0 ∧ (names.map Url.stretch).map String.toList = [] then [[]]
      else List.replicate climbs ['.', '.'] ++ (names.map Url.stretch).map String.toList := by
    have hdots : Url.encode Url.pathSet ['.', '.'] = ['.', '.'] := by decide
    rw [htext, segments_texts hplain, hsteps, ← Url.map_encode_toList]
    by_cases hnone : climbs = 0 ∧ names = []
    · simp [hnone, Url.encode]
    · have hsome : ¬ List.replicate climbs Component.up ++ names.map .name = [] := by
        simpa [List.replicate_eq_nil_iff] using hnone
      rw [if_neg hsome, if_neg (by simpa using hnone)]
      simp [Component.text, hdots, Function.comp_def]
  have hdots := Url.not_dots_of_isName fun s hs => h.names s (hmem s hs)
  have hlength : (((GitHub.contents owner repo).map Url.stretch).map String.toList).length = 4 :=
    rfl
  have hend : (if names = [] then [""] else names) ≠ [] := by
    split
    · exact List.cons_ne_nil _ _
    · assumption
  refine h.text_address token (List.append_ne_nil_of_right_ne_nil _ hend) ?_
  rw [hsegments, Url.resolveDots_climb climbs hdots, hlength, List.map_append, List.map_append,
    List.map_take, List.map_take]
  by_cases hnil : names = []
  · simp [hnil, Url.stretch, Url.encode]
  · simp [hnil]

/-- The address of a file, if its path is absolute: it lies in the repository all the same. -/
theorem text_address_absolute (h : r.IsVerbatim owner repo) (token : Option String)
    (hnormal : r.path.normalize = r.path) {names : List String}
    (hsteps : r.path.components = .root :: names.map .name) :
    (Url.parse? (({ token } : GitHub).address r)).map Url.text =
      some (GitHub.below ((GitHub.contents owner repo ++
        "" :: if names = [] then [""] else names).map Url.stretch)) := by
  have hmem : ∀ s ∈ names, .name s ∈ r.path.components := fun s hs => by
    rw [hsteps]
    exact List.mem_cons_of_mem _ (List.mem_map_of_mem hs)
  have htext : r.path.text.toList = [] ++ '/' :: slashed ((names.map .name).map
      (fun c : Component => c.text.toList)) := by
    conv => lhs; rw [← ofComponents_trail hnormal, ← components_eq_trail hnormal, hsteps]
    rw [ofComponents, String.toList_ofList, List.nil_append]
  have hplain : ∀ c ∈ names.map Component.name, IsPlain c := fun c hc => by
    obtain ⟨s, hs, rfl⟩ := List.mem_map.mp hc
    exact isPlain_of_name_mem_components (hmem s hs)
  have hsegments : segments r.path.text.toList =
      ("" :: if names = [] then [""] else names).map String.toList := by
    rw [htext, segments_append_slash, segments_texts hplain]
    by_cases hnil : names = [] <;> simp [hnil, segments, splitWhere, Component.text]
  have hnames : ∀ s ∈ "" :: if names = [] then [""] else names, Url.IsName s := fun s hs => by
    have hempty : Url.IsName "" := by decide
    by_cases hnil : names = []
    · have hs : s = "" := by simpa [hnil] using hs
      rwa [hs]
    · rw [if_neg hnil] at hs
      rcases List.mem_cons.mp hs with rfl | hs
      · exact hempty
      · exact h.names s (hmem s hs)
  refine h.text_address token (List.append_ne_nil_of_right_ne_nil _ (List.cons_ne_nil _ _)) ?_
  have hall := Url.resolveDots_names (Url.not_dots_of_isName hnames)
    (((GitHub.contents owner repo).map Url.stretch).map String.toList) []
  rw [List.append_nil] at hall
  rw [hsegments, Url.map_encode_toList, hall, Url.resolveDots, List.map_append, List.map_append]

end IsVerbatim

/-! ## The boundary -/

theorem Obtained.normalize_path {allowed : String → Prop} {r : RemoteRef}
    (h : Obtained allowed r) : r.path.normalize = r.path := by
  cases h with
  | read hread => exact (isReadable_of_parse? hread).normal
  | joined => exact normalize_normalize _

/-- **Where the boundary of a repository holds**, for every reference that can be come by. If it is
read, it is spelled by a repository and a path, and its own path lies in the repository exactly if
the path that is written, up to the end of the line, never leads above its start. What an import
means lies there exactly if the import, seen from the directory of the file it stands in, does not
lead above it either.

Whatever is read and joined, a path is parent steps and names behind them, or absolute. If the
address gives the reference as it is, what is asked for lies below the contents of the repository
when there are no parent steps, and each of them takes back one stretch of it. -/
theorem contents_boundary {r : RemoteRef} (hr : Obtained (fun _ => True) r) :
    (∀ raw, parse? raw = some r → ∃ owner repo written, Spells raw owner repo written ∧
      let path : Path := ⟨String.ofList (written.takeWhile (· != '\n'))⟩
      r = ⟨String.ofList (owner ++ '/' :: repo), path.normalize⟩ ∧
        (r.Inside ↔ path.StaysBelow)) ∧
    (∀ rel, (r.join rel).Inside ↔ (r.path.directory.join ⟨rel⟩).StaysBelow) ∧
    ((∃ (climbs : Nat) (names : List String),
      r.path.components = List.replicate climbs .up ++ names.map .name ∧
      (r.Inside ↔ climbs = 0) ∧
      ∀ token owner repo, r.IsVerbatim owner repo →
        (Url.parse? (({ token } : GitHub).address r)).map Url.text =
          some (GitHub.below (((GitHub.contents owner repo).take (4 - climbs) ++
            if names = [] then [""] else names).map Url.stretch))) ∨
    ∃ names : List String, r.path.components = .root :: names.map .name ∧ ¬ r.Inside ∧
      ∀ token owner repo, r.IsVerbatim owner repo →
        (Url.parse? (({ token } : GitHub).address r)).map Url.text =
          some (GitHub.below ((GitHub.contents owner repo ++
            "" :: if names = [] then [""] else names).map Url.stretch))) := by
  refine ⟨fun raw hread => ?_, fun rel => (staysBelow_iff _).symm, ?_⟩
  · obtain ⟨owner, repo, written, hspells, rfl⟩ := parse?_eq_some_iff.mp hread
    exact ⟨owner, repo, written, hspells, rfl, (staysBelow_iff _).symm⟩
  have hnormal := hr.normalize_path
  have hsteps := components_eq_trail hnormal
  cases habsolute : r.path.isAbsolute with
  | false =>
    obtain ⟨names, climbs, htrail⟩ := exists_names habsolute
    have hshape : r.path.components =
        List.replicate climbs .up ++ names.reverse.map .name := by
      rw [hsteps, htrail]
      simp
    refine .inl ⟨climbs, names.reverse, hshape, ?_, fun token owner repo hverbatim =>
      hverbatim.text_address_relative token hnormal hshape⟩
    rw [Inside, hshape, habsolute]
    simp
  | true =>
    obtain ⟨names, htrail⟩ :=
      r.path.isTrail.exists_names_root (r.path.root_mem_trail_iff.mpr habsolute)
    have hshape : r.path.components = .root :: names.reverse.map .name := by
      rw [hsteps, htrail]
      simp
    refine .inr ⟨names.reverse, hshape, fun hinside => ?_, fun token owner repo hverbatim =>
      hverbatim.text_address_absolute token hnormal hshape⟩
    rw [Inside, habsolute] at hinside
    exact Bool.false_ne_true hinside.1.symm

/-- An import that leads up and down again inside its repository, to a name with a space. -/
theorem contents_boundary_sibling :
    let x : RemoteRef := ⟨"o/r", ⟨"a/X.sol"⟩⟩
    let y : RemoteRef := ⟨"o/r", ⟨"b/Y Z.sol"⟩⟩
    x.join "../b/Y Z.sol" = y ∧ Obtained (fun _ => True) y ∧ y.IsVerbatim "o" "r" ∧ y.Inside ∧
    (x.path.directory.join ⟨"../b/Y Z.sol"⟩).StaysBelow ∧
    (Url.parse? (({} : GitHub).address y)).map Url.text =
      some "https://api.github.com/repos/o/r/contents/b/Y%20Z.sol" := by
  intro x y
  have hread : parse? "https://github.com/o/r/a/X.sol" = some x := by decide +kernel
  have hx : Obtained (fun _ => True) x := .read hread
  have hjoin : x.join "../b/Y Z.sol" = y := by decide +kernel
  have hy : Obtained (fun _ => True) y := hjoin ▸ .joined hx trivial
  have hsteps : y.path.components = ["b", "Y Z.sol"].map .name := by decide +kernel
  have hinside : y.Inside := by
    unfold Inside
    decide +kernel
  have hverbatim : y.IsVerbatim "o" "r" := by
    have hlast : y.path.text.toList.getLast? = some 'l' := by decide +kernel
    have hnames : ∀ s ∈ ["b", "Y Z.sol"], Url.IsName s := by decide
    refine ⟨by decide +kernel, Url.notMem_marks_of_all (by decide +kernel), fun c hc => ?_,
      by decide, fun s hs => ?_⟩
    · rw [hlast] at hc
      cases hc
      decide
    · rw [hsteps, List.mem_map] at hs
      obtain ⟨t, ht, he⟩ := hs
      exact Component.name.inj he ▸ hnames t ht
  have hbelow : (x.path.directory.join ⟨"../b/Y Z.sol"⟩).StaysBelow :=
    ((contents_boundary hx).2.1 "../b/Y Z.sol").mp (hjoin ▸ hinside)
  refine ⟨hjoin, hy, hverbatim, hinside, hbelow, ?_⟩
  rcases (contents_boundary hy).2.2 with ⟨climbs, names, hshape, hclimbs, haddress⟩ |
    ⟨names, -, hnot, -⟩
  · obtain rfl := hclimbs.mp hinside
    have hnames : names = ["b", "Y Z.sol"] :=
      List.map_injective_iff.mpr (fun _ _ h => Component.name.inj h) (hshape.symm.trans hsteps)
    subst hnames
    exact (haddress none "o" "r" hverbatim).trans (by decide +kernel)
  · exact absurd hinside hnot

/-- **Paths leave their repository.** Parent steps at the front of a path are kept, whether they are
read or come in by an import, and the address leads to another place of the service. A path is
absolute if an import of it was. And dots that are escaped are names of a path, but steps of an
address. -/
theorem contents_left :
    (let r : RemoteRef := ⟨"o/r", ⟨"../x"⟩⟩
    parse? "github.com/o/r/../x" = some r ∧ ¬ r.Inside ∧
      (Url.parse? (({} : GitHub).address r)).map Url.text =
        some "https://api.github.com/repos/o/r/x") ∧
    (let r : RemoteRef := ⟨"o/r", ⟨"../../../../user"⟩⟩
    join ⟨"o/r", ⟨"a/X.sol"⟩⟩ "../../../../../user" = r ∧ ¬ r.Inside ∧
      (Url.parse? (({} : GitHub).address r)).map Url.text = some "https://api.github.com/user") ∧
    (let r : RemoteRef := ⟨"o/r", ⟨"/x"⟩⟩
    join ⟨"o/r", ⟨"a/X.sol"⟩⟩ "/x" = r ∧ ¬ r.Inside) ∧
    (let r : RemoteRef := ⟨"o/r", ⟨"%2e%2e/x"⟩⟩
    parse? "github.com/o/r/%2e%2e/x" = some r ∧ r.Inside ∧
      (Url.parse? (({} : GitHub).address r)).map Url.text =
        some "https://api.github.com/repos/o/r/x") := by
  unfold Inside
  decide +kernel

end RemoteRef

end ContractBuild
