import ContractBuild.Proofs.JoinedPath
import ContractBuild.Proofs.Recognition
import ContractBuild.Proofs.Strictness
import Mathlib.Data.List.ProdSigma

/-!
# How many names lead to the same files

A unit is named by steps from the directory of the root, so many names may lead to one file: parent
steps are taken back by the names of the directory, and beyond those they stay.

- **Names and parent steps** (`Trail.exists_names`, `foldl_follow_ups`): a relative trail is parent
  steps and names behind them. Seen from a relative directory, the names stay, and so many of the
  parent steps that the number of them is bounded.
- **Spellings** (`spellings`): the names that can be made of the ends of some paths, with parent
  steps, a root or a host in front. A normal form that leads from a directory to one of the paths is
  among them (`mem_spellings_of_join`).
-/

namespace ContractBuild

namespace Path

/-! ## Names and parent steps -/

/-- A trail without a root is parent steps and names behind them. -/
theorem Trail.exists_names {before : List Component} (h : Trail before) (hr : .root ∉ before) :
    ∃ (names : List String) (n : Nat), before = names.map .name ++ List.replicate n .up := by
  induction h with
  | root => simp at hr
  | ups n => exact ⟨[], n, rfl⟩
  | name s _ ih =>
    obtain ⟨names, n, rfl⟩ := ih fun h => hr (List.mem_cons_of_mem _ h)
    exact ⟨s :: names, n, rfl⟩

theorem foldl_follow_names (names : List String) (before : List Component) :
    (names.map Component.name).foldl follow before = (names.map .name).reverse ++ before := by
  induction names generalizing before with
  | nil => rfl
  | cons s names ih =>
    rw [List.map_cons, List.foldl_cons, ih, List.reverse_cons, List.append_assoc]
    rfl

/-- Parent steps first, then names, from a place on. -/
theorem foldl_follow_reverse (names : List String) (n : Nat) (before : List Component) :
    (names.map Component.name ++ List.replicate n Component.up).reverse.foldl follow before =
      names.map .name ++ (List.replicate n .up).foldl follow before := by
  rw [List.reverse_append, List.reverse_replicate, List.foldl_append, ← List.map_reverse,
    foldl_follow_names, ← List.map_reverse, List.reverse_reverse]

/-- **Parent steps take names back as long as there are some, and stay behind them.** -/
theorem foldl_follow_ups (n : Nat) {before : List Component} (hr : .root ∉ before) :
    (n ≤ before.length ∧ (List.replicate n .up).foldl follow before = before.drop n) ∨
    ∃ after, (List.replicate n .up).foldl follow before = .up :: after ∧
      n ≤ before.length + after.length + 1 := by
  induction n with
  | zero => exact .inl ⟨Nat.zero_le _, rfl⟩
  | succ n ih =>
    rw [List.replicate_succ', List.foldl_append, List.foldl_cons, List.foldl_nil]
    rcases ih with ⟨hn, h⟩ | ⟨after, h, hn⟩
    · rw [h]
      cases hd : before.drop n with
      | nil => exact .inr ⟨[], rfl, by simpa using hn⟩
      | cons c rest =>
        have hlt : n < before.length := by
          rw [← List.drop_eq_nil_iff.not.trans Nat.not_le, hd]
          simp
        have hrest : before.drop (n + 1) = rest := by rw [← List.drop_drop, hd]; rfl
        cases c with
        | root => exact absurd (List.mem_of_mem_drop (hd ▸ List.mem_cons_self)) hr
        | name s => exact .inl ⟨hlt, hrest.symm⟩
        | here => exact .inr ⟨_, rfl, by omega⟩
        | up => exact .inr ⟨_, rfl, by omega⟩
    · rw [h]
      refine .inr ⟨_, rfl, ?_⟩
      rw [List.length_cons]
      omega

/-- There are no more parent steps than the steps of the place and of what they lead to. -/
theorem le_length_foldl_follow (n : Nat) {before : List Component} (hr : .root ∉ before) :
    n ≤ before.length + ((List.replicate n .up).foldl follow before).length := by
  rcases foldl_follow_ups n hr with ⟨hn, h⟩ | ⟨after, h, hn⟩
  · omega
  · rw [h, List.length_cons]
    omega

/-! ## Steps of normal forms -/

theorem length_innerSteps_le (cs : List Char) : (innerSteps cs).length ≤ cs.length := by
  induction cs with
  | nil => exact Nat.le_refl 0
  | cons c cs ih =>
    by_cases hc : c = '/'
    · subst hc
      rw [innerSteps_slash, List.length_cons]
      omega
    · -- the character goes to the front of the first stretch, which may say something now
      refine le_trans ?_ (Nat.succ_le_succ ih)
      unfold innerSteps segments
      rw [Text.splitWhere]
      simp only [beq_iff_eq, hc, if_false]
      cases h : Text.splitWhere (· == '/') cs with
      | nil => exact List.length_filterMap_le _ _
      | cons part more =>
        have hfirst (w : List Char) : (w :: more).filterMap step? =
            [w].filterMap step? ++ more.filterMap step? := by
          rw [← List.filterMap_append, List.singleton_append]
        have hone : ([c :: part].filterMap step?).length ≤ 1 := List.length_filterMap_le _ _
        dsimp only
        rw [hfirst, hfirst, List.length_append, List.length_append]
        omega

theorem ofComponents_trail {p : Path} (hp : p.normalize = p) :
    ofComponents p.trail.reverse = p := by
  rw [← normalize_eq, hp]

/-- The steps of a normal form that is absolute. -/
theorem root_innerSteps_normalize {p : Path} (h : p.isAbsolute = true) :
    .root :: innerSteps p.normalize.text.toList = p.trail.reverse := by
  have hc : p.normalize.components = p.trail.reverse := components_normalize p
  rcases p.normalize.components_eq with ⟨-, hn⟩ | ⟨ha, -⟩ | ⟨ha, -⟩
  · rw [← hn, hc]
  · rw [isAbsolute_normalize, h] at ha
    cases ha
  · rw [isAbsolute_normalize, h] at ha
    cases ha

/-- The names a relative path ends in are those that its target ends in. -/
theorem names_suffix_join {u : Path} (hu : u.isAbsolute = false) {names : List String} {n : Nat}
    (ht : u.trail = names.map .name ++ List.replicate n .up) (d : Path) :
    (names.map Component.name).reverse <:+ innerSteps (d.join u).normalize.text.toList := by
  have htrail : (d.join u).trail.reverse =
      ((List.replicate n .up).foldl follow d.trail).reverse ++ (names.map .name).reverse := by
    rw [trail_join_trail hu, ht, foldl_follow_reverse, List.reverse_append]
  cases ha : (d.join u).isAbsolute with
  | false =>
    rw [innerSteps_normalize ha, htrail]
    exact List.suffix_append _ _
  | true =>
    have hs : (names.map Component.name).reverse <:+
        .root :: innerSteps (d.join u).normalize.text.toList := by
      rw [root_innerSteps_normalize ha, htrail]
      exact List.suffix_append _ _
    rcases List.suffix_cons_iff.mp hs with he | hs
    · have hroot : Component.root ∈ (names.map Component.name).reverse := he ▸ List.mem_cons_self
      simp at hroot
    · exact hs

/-! ## Spellings -/

/-- What can stand before the end of a path in the name of a unit: the root, a host, or a number of
parent steps. -/
def fronts (n : Nat) : List (List Component) :=
  [.root] :: [.name "www.github.com"] :: (List.range (n + 1)).map fun k => List.replicate k .up

/-- The names that can be made of some ends of paths. -/
def spellings (n : Nat) (ends : List (List Component)) : List String :=
  (fronts n ×ˢ ends).map fun pair => (ofComponents (pair.1 ++ pair.2)).text

theorem length_spellings (n : Nat) (ends : List (List Component)) :
    (spellings n ends).length = (n + 3) * ends.length := by
  have hfronts : (fronts n).length = n + 3 := by simp [fronts]
  rw [spellings, List.length_map, List.length_product, hfronts]

theorem mem_spellings {n : Nat} {ends : List (List Component)} {front last : List Component}
    (hf : front ∈ fronts n) (hl : last ∈ ends) :
    (ofComponents (front ++ last)).text ∈ spellings n ends :=
  List.mem_map.mpr ⟨(front, last), List.pair_mem_product.mpr ⟨hf, hl⟩, rfl⟩

theorem ups_mem_fronts {k n : Nat} (h : k ≤ n) : List.replicate k .up ∈ fronts n := by
  refine List.mem_cons_of_mem _ (List.mem_cons_of_mem _ (List.mem_map.mpr ⟨k, ?_, rfl⟩))
  exact List.mem_range.mpr (Nat.lt_succ_of_le h)

/-- A normal form of parent steps and names is a spelling. -/
theorem mem_spellings_of_trail {u : Path} (hu : u.normalize = u) {names : List String} {k n : Nat}
    (ht : u.trail = names.map .name ++ List.replicate k .up) (hk : k ≤ n)
    {ends : List (List Component)} (he : (names.map Component.name).reverse ∈ ends) :
    u.text ∈ spellings n ends := by
  have hspelt := mem_spellings (ups_mem_fronts hk) he
  rwa [← List.reverse_replicate, ← List.reverse_append, ← ht, ofComponents_trail hu] at hspelt

theorem mem_spellings_of_isAbsolute {u : Path} (hu : u.normalize = u) (ha : u.isAbsolute = true)
    (n : Nat) {ends : List (List Component)} (he : innerSteps u.text.toList ∈ ends) :
    u.text ∈ spellings n ends := by
  have hfront : [.root] ∈ fronts n := List.mem_cons_self
  have hspelt := mem_spellings hfront he
  have hsteps := root_innerSteps_normalize ha
  rw [hu] at hsteps
  rwa [List.singleton_append, hsteps, ofComponents_trail hu] at hspelt

theorem root_notMem_trail {p : Path} (h : p.isAbsolute = false) : .root ∉ p.trail := by
  rw [root_mem_trail_iff, h]
  simp

theorem exists_names {u : Path} (h : u.isAbsolute = false) :
    ∃ (names : List String) (n : Nat), u.trail = names.map .name ++ List.replicate n .up :=
  u.isTrail.exists_names (root_notMem_trail h)

theorem length_trail_le {p : Path} (hp : p.normalize = p) (hr : p.isAbsolute = false) :
    p.trail.length ≤ p.text.length := by
  rw [← List.length_reverse, ← innerSteps_normalize hr, hp, ← String.length_toList]
  exact length_innerSteps_le _

/-- **Finitely many names lead from a directory to a path.** A normal form that is seen from a
relative directory is a spelling of the ends of the path that it leads to. -/
theorem mem_spellings_of_join {u d : Path} (hu : u.normalize = u) (hd : d.isAbsolute = false)
    {n : Nat} (hn : d.trail.length + (d.join u).normalize.text.length ≤ n)
    {ends : List (List Component)}
    (he : ∀ last, last <:+ innerSteps (d.join u).normalize.text.toList → last ∈ ends) :
    u.text ∈ spellings n ends := by
  cases ha : u.isAbsolute with
  | true =>
    rw [join_of_isAbsolute ha, hu] at he
    exact mem_spellings_of_isAbsolute hu ha n (he _ (List.suffix_refl _))
  | false =>
    obtain ⟨names, k, ht⟩ := exists_names ha
    refine mem_spellings_of_trail hu ht ?_ (he _ (names_suffix_join ha ht d))
    have hjoin : (d.join u).trail =
        names.map .name ++ (List.replicate k .up).foldl follow d.trail := by
      rw [trail_join_trail ha, ht, foldl_follow_reverse]
    have hlen : (d.join u).trail.length ≤ (d.join u).normalize.text.length := by
      rw [← trail_normalize]
      refine length_trail_le (normalize_normalize _) ?_
      rw [isAbsolute_normalize, isAbsolute_join ha, hd]
    have hk := le_length_foldl_follow k (root_notMem_trail hd)
    rw [hjoin, List.length_append] at hlen
    omega

/-- A normal form with two parent steps in front is written relative to a file. -/
theorem startsRelative_of_trail {u : Path} (hu : u.normalize = u) {names : List String} {k : Nat}
    (ht : u.trail = names.map .name ++ List.replicate (k + 2) .up) :
    Solidity.startsRelative u.text = true := by
  rw [← ofComponents_trail hu, ht, List.reverse_append, List.reverse_replicate]
  simp [List.replicate_succ, ofComponents, slashed, List.intercalate, Component.text,
    Solidity.startsRelative]

/-- A normal form that is not written relative to a file is a spelling of the ends of what it leads
to, from whatever directory. -/
theorem mem_spellings_of_not_startsRelative {u : Path} (hu : u.normalize = u)
    (hs : Solidity.startsRelative u.text = false) {n : Nat} (hn : 1 ≤ n) (d : Path)
    {ends : List (List Component)}
    (he : ∀ last, last <:+ innerSteps (d.join u).normalize.text.toList → last ∈ ends) :
    u.text ∈ spellings n ends := by
  cases ha : u.isAbsolute with
  | true =>
    rw [join_of_isAbsolute ha, hu] at he
    exact mem_spellings_of_isAbsolute hu ha n (he _ (List.suffix_refl _))
  | false =>
    obtain ⟨names, k, ht⟩ := exists_names ha
    refine mem_spellings_of_trail hu ht ?_ (he _ (names_suffix_join ha ht d))
    by_contra hk
    obtain ⟨j, rfl⟩ : ∃ j, k = j + 2 := ⟨k - 2, by omega⟩
    rw [startsRelative_of_trail hu ht] at hs
    cases hs

/-! ## Names of remote files -/

/-- Every stretch of a relative normal form says something. -/
theorem not_idle_of_mem_segments {u : Path} (hu : u.normalize = u) (hr : u.isAbsolute = false)
    (hne : u.text ≠ "") {part : List Char} (h : part ∈ segments u.text.toList) :
    idle part = false := by
  have hplain : ∀ c ∈ u.trail.reverse, IsPlain c := fun c hc =>
    isPlain_of_mem_trail (List.mem_reverse.mp hc) fun he =>
      root_notMem_trail hr (he ▸ List.mem_reverse.mp hc)
  have htext : u.text.toList = slashed (u.trail.reverse.map (·.text.toList)) := by
    conv => lhs; rw [← ofComponents_trail hu, ofComponents_of_isPlain hplain]
    rw [String.toList_ofList]
  have htrail : u.trail.reverse.map (·.text.toList) ≠ [] := by
    intro hnil
    rw [hnil] at htext
    exact hne (String.toList_eq_nil_iff.mp htext)
  rw [htext, segments_slashed (slash_notMem_texts hplain) htrail] at h
  obtain ⟨c, hc, rfl⟩ := List.mem_map.mp h
  exact not_idle_of_isPlain (hplain c hc)

/-- Something stands between any two slashes of a relative normal form. -/
theorem ne_slash_slash {u : Path} (hu : u.normalize = u) (hr : u.isAbsolute = false)
    (front behind : List Char) : u.text.toList ≠ front ++ '/' :: '/' :: behind := by
  intro he
  have hnil : [] ∈ segments u.text.toList := by
    rw [he, segments_append_slash]
    simp [segments, Text.splitWhere]
  have hidle := not_idle_of_mem_segments hu hr (fun ht => by simp [ht] at he) hnil
  simp [idle] at hidle

end Path

open Text ContractBuild.Path

namespace RemoteRef

theorem eq_append_of_segment? {cs name rest : List Char} (h : segment? cs = some (name, rest)) :
    cs = name ++ '/' :: rest := by
  have hspan := spanOf_append (· != '/') cs
  unfold segment? at h
  split at h
  · cases h
  · rename_i heq
    cases h
    rw [heq] at hspan
    exact hspan.symm
  · cases h

theorem skipScheme_cases (cs : List Char) :
    skipScheme cs = cs ∨ cs = "https:".toList ++ '/' :: '/' :: skipScheme cs ∨
      cs = "http:".toList ++ '/' :: '/' :: skipScheme cs := by
  unfold skipScheme
  cases hs : (literal "https://" cs).or (literal "http://" cs) with
  | none => exact .inl rfl
  | some rest =>
    rcases Option.or_eq_some_iff.mp hs with h | ⟨-, h⟩
    · exact .inr (.inl ((literal_eq_some.mp h).trans rfl))
    · exact .inr (.inr ((literal_eq_some.mp h).trans rfl))

theorem optional_cases (s : String) (cs : List Char) :
    optional s cs = cs ∨ cs = s.toList ++ optional s cs := by
  unfold optional
  cases hs : literal s cs with
  | none => exact .inl rfl
  | some rest => exact .inr (literal_eq_some.mp hs)

/-- What a reference is read from: a host behind a scheme and `www.`, a repository, and a path up to
the end of the line. -/
theorem exists_of_parse? {raw : String} {ref : RemoteRef} (h : parse? raw = some ref) :
    ∃ owner repo rest : List Char,
      optional "www." (skipScheme raw.toList) =
        "github.com".toList ++ '/' :: (owner ++ '/' :: (repo ++ '/' :: rest)) ∧
      ref = ⟨String.ofList (owner ++ '/' :: repo),
        (Path.mk (String.ofList (restOfLine rest).1)).normalize⟩ := by
  simp only [parse?, Option.bind_eq_bind, Option.bind_eq_some_iff, Option.pure_def,
    Option.some.injEq, Prod.exists] at h
  obtain ⟨behind, hhost, owner, behind', howner, repo, rest, hrepo, rfl⟩ := h
  refine ⟨owner, repo, rest, ?_, rfl⟩
  rw [literal_eq_some.mp hhost, eq_append_of_segment? howner, eq_append_of_segment? hrepo]
  rfl

theorem toList_id (ref : RemoteRef) :
    ref.id.toList = "github.com".toList ++
      '/' :: (ref.repository.toList ++ '/' :: ref.path.text.toList) := by
  simp [id]

/-- The path of a reference is an end of its name. -/
theorem innerSteps_path_suffix (ref : RemoteRef) :
    innerSteps ref.path.text.toList <:+ innerSteps ref.id.toList := by
  rw [toList_id, innerSteps_append_slash, innerSteps_append_slash]
  exact (List.suffix_append _ _).trans (List.suffix_append _ _)

/-- A relative normal form has no scheme: there would be nothing between two slashes. -/
theorem exists_host_of_parse? {u : Path} (hu : u.normalize = u) {ref : RemoteRef}
    (h : parse? u.text = some ref) :
    u.isAbsolute = false ∧ ∃ host owner repo rest : List Char,
      (host = "github.com".toList ∨ host = "www.github.com".toList) ∧
      u.text.toList = host ++ '/' :: (owner ++ '/' :: (repo ++ '/' :: rest)) ∧
      ref = ⟨String.ofList (owner ++ '/' :: repo),
        (Path.mk (String.ofList (restOfLine rest).1)).normalize⟩ := by
  obtain ⟨owner, repo, rest, hcs, href⟩ := exists_of_parse? h
  rcases skipScheme_cases u.text.toList with hs | hs | hs
  · rw [hs] at hcs
    rcases optional_cases "www." u.text.toList with ho | ho
    · rw [ho] at hcs
      exact ⟨by simp [isAbsolute, hcs], _, owner, repo, rest, .inl rfl, hcs, href⟩
    · rw [hcs] at ho
      exact ⟨by simp [isAbsolute, ho], _, owner, repo, rest, .inr rfl, ho, href⟩
  · exact absurd hs (ne_slash_slash hu (by rw [isAbsolute, hs]; rfl) "https:".toList _)
  · exact absurd hs (ne_slash_slash hu (by rw [isAbsolute, hs]; rfl) "http:".toList _)

theorem restOfLine_of_notMem {cs : List Char} (h : '\n' ∉ cs) : (restOfLine cs).1 = cs := by
  rw [restOfLine, spanOf]
  refine List.takeWhile_eq_self_iff.mpr fun c hc => ?_
  simp only [bne_iff_ne, ne_eq]
  rintro rfl
  exact h hc

/-- A path of names is as plain as it gets. -/
theorem innerSteps_normalize_of_names {t : Path} (hr : t.isAbsolute = false) {names : List String}
    (h : innerSteps t.text.toList = names.map .name) :
    innerSteps t.normalize.text.toList = innerSteps t.text.toList := by
  rw [innerSteps_normalize hr, trail_eq, hr, h]
  simp [foldl_follow_names]

/-- The canonical name of what a normal form on one line names differs from it in the host at
most. -/
theorem innerSteps_id_of_parse? {u : Path} (hu : u.normalize = u) (hline : '\n' ∉ u.text.toList)
    {ref : RemoteRef} (h : parse? u.text = some ref) :
    ∃ host more, (host = "github.com" ∨ host = "www.github.com") ∧
      u.trail.reverse = .name host :: more ∧
      innerSteps ref.id.toList = .name "github.com" :: more := by
  obtain ⟨hr, host, owner, repo, rest, hhost, htext, rfl⟩ := exists_host_of_parse? hu h
  have hsteps : u.trail.reverse =
      innerSteps host ++ (innerSteps owner ++ (innerSteps repo ++ innerSteps rest)) := by
    rw [← innerSteps_normalize hr, hu, htext, innerSteps_append_slash, innerSteps_append_slash,
      innerSteps_append_slash]
  have hfirst : ∃ s, (s = "github.com" ∨ s = "www.github.com") ∧ innerSteps host = [.name s] := by
    rcases hhost with rfl | rfl
    · exact ⟨_, .inl rfl, by decide⟩
    · exact ⟨_, .inr rfl, by decide⟩
  obtain ⟨s, hs, hinner⟩ := hfirst
  rw [hinner, List.singleton_append] at hsteps
  -- the host is a name, so there are no parent steps
  obtain ⟨names, k, ht⟩ := exists_names hr
  have hnames : names.reverse.map .name =
      Component.name s :: (innerSteps owner ++ (innerSteps repo ++ innerSteps rest)) := by
    rw [ht, List.reverse_append, List.reverse_replicate, ← List.map_reverse] at hsteps
    cases k with
    | zero => exact hsteps
    | succ k => simp [List.replicate_succ] at hsteps
  have hrest : ∃ names' : List String, innerSteps rest = names'.map .name := by
    obtain ⟨-, l, -, -, hl⟩ := List.map_eq_cons_iff.mp hnames
    obtain ⟨-, l, -, -, hl⟩ := List.map_eq_append_iff.mp hl
    obtain ⟨-, l, -, -, hl⟩ := List.map_eq_append_iff.mp hl
    exact ⟨l, hl.symm⟩
  have hpath : innerSteps (Path.mk (String.ofList (restOfLine rest).1)).normalize.text.toList =
      innerSteps rest := by
    obtain ⟨names', hnames'⟩ := hrest
    have hlast : '\n' ∉ rest := fun hm => hline (by rw [htext]; simp [hm])
    rw [restOfLine_of_notMem hlast]
    have habs : (Path.mk (String.ofList rest)).isAbsolute = false := by
      rw [isAbsolute, String.toList_ofList, beq_eq_false_iff_ne]
      intro hhead
      obtain ⟨behind, rfl⟩ := List.head?_eq_some_iff.mp hhead
      refine ne_slash_slash hu hr (host ++ '/' :: (owner ++ '/' :: repo)) behind ?_
      simpa using htext
    rw [innerSteps_normalize_of_names habs (by rw [String.toList_ofList]; exact hnames'),
      String.toList_ofList]
  refine ⟨s, _, hs, hsteps, ?_⟩
  have hrepository : innerSteps (String.ofList (owner ++ '/' :: repo)).toList =
      innerSteps owner ++ innerSteps repo := by
    rw [String.toList_ofList, innerSteps_append_slash]
  rw [toList_id, innerSteps_append_slash, innerSteps_append_slash, hrepository, hpath,
    List.append_assoc]
  rfl

/-- **A normal form on one line that names a remote file is a spelling** of its canonical name. -/
theorem mem_spellings_of_parse? {u : Path} (hu : u.normalize = u) (hline : '\n' ∉ u.text.toList)
    {ref : RemoteRef} (h : parse? u.text = some ref) (n : Nat) {ends : List (List Component)}
    (he : ∀ last, last <:+ innerSteps ref.id.toList → last ∈ ends) :
    u.text ∈ spellings n ends := by
  obtain ⟨host, more, rfl | rfl, htrail, hid⟩ := innerSteps_id_of_parse? hu hline h
  · have hspelt := mem_spellings (ups_mem_fronts (Nat.zero_le n)) (he _ (List.suffix_refl _))
    rwa [hid, ← htrail, List.replicate_zero, List.nil_append, ofComponents_trail hu] at hspelt
  · have hfront : [.name "www.github.com"] ∈ fronts n := List.mem_cons_of_mem _ List.mem_cons_self
    have hspelt := mem_spellings hfront (he more (hid ▸ List.suffix_cons _ _))
    rwa [List.singleton_append, ← htrail, ofComponents_trail hu] at hspelt

end RemoteRef

end ContractBuild
