import ContractBuild.Proofs.SourceIdentity
import Mathlib.Logic.Relation

/-!
# Normal forms as names for files

A normal form is a canonical spelling: names behind a slash, or names behind a run of parent steps
(`Path.isCanonical_normalize`). Its steps are those of the path, folded one by one
(`Path.folds_normalize`). It may stand for its path in front of anything that is joined to it
(`Path.normalize_join`). Sources in memory are kept under normal forms, so a path finds the text
that was put in last under any spelling that normalizes alike (`MemoryFiles.read_eq_ok_iff`).

Main statement: `Path.normalize_canonical`.
-/

namespace ContractBuild

namespace Path

open Relation

/-! ## Canonical spellings -/

/-- An ordinary name: neither empty nor dots, and without a slash. -/
def IsName (s : String) : Prop := s ≠ "" ∧ s ≠ "." ∧ s ≠ ".." ∧ '/' ∉ s.toList

theorem isName_of_isPlain {s : String} (h : IsPlain (.name s)) : IsName s := by
  obtain ⟨hslash, hstep⟩ := h
  refine ⟨?_, ?_, ?_, hslash⟩ <;>
  · rintro rfl
    revert hstep
    decide

/-- `p.IsCanonical`: the path is spelled as names behind a slash, or as names behind a run of
parent steps, and these are its steps. -/
def IsCanonical (p : Path) : Prop :=
  ∃ names : List String, (∀ s ∈ names, IsName s) ∧
    ((p.text = "/" ++ "/".intercalate names ∧ p.components = .root :: names.map .name) ∨
      ∃ climbs, p.text = "/".intercalate (List.replicate climbs ".." ++ names) ∧
        p.components = List.replicate climbs .up ++ names.map .name)

/-- A path is spelled as its steps with slashes between them. -/
theorem text_ofComponents (steps : List Component) (h : .root ∉ steps) :
    (ofComponents steps).text = "/".intercalate (steps.map (·.text)) := by
  have hof : ofComponents steps = ⟨String.ofList (slashed (steps.map (·.text.toList)))⟩ := by
    unfold ofComponents
    split
    · simp at h
    · rfl
  rw [hof, ← String.toList_inj, String.toList_ofList, String.toList_intercalate, List.map_map]
  rfl

theorem text_ofComponents_root (steps : List Component) :
    (ofComponents (.root :: steps)).text = "/" ++ "/".intercalate (steps.map (·.text)) := by
  rw [ofComponents, ← String.toList_inj, String.toList_ofList, String.toList_append,
    String.toList_intercalate, List.map_map]
  rfl

theorem map_text_names (names : List String) : (names.map Component.name).map (·.text) = names := by
  rw [List.map_map]
  exact List.map_id names

/-- **A normal form is a canonical spelling.** -/
theorem isCanonical_normalize (p : Path) : p.normalize.IsCanonical := by
  have hsteps : p.normalize.components = p.trail.reverse := components_normalize p
  have hplain {s : String} (h : .name s ∈ p.trail) : IsName s :=
    isName_of_isPlain (isPlain_of_mem_trail h (by simp))
  cases habsolute : p.isAbsolute with
  | true =>
    obtain ⟨names, htrail⟩ := p.isTrail.exists_names_root (p.root_mem_trail_iff.mpr habsolute)
    have hreverse : p.trail.reverse = .root :: names.reverse.map .name := by simp [htrail]
    refine ⟨names.reverse, fun s hs => hplain (by simpa [htrail] using hs), .inl ⟨?_, ?_⟩⟩
    · rw [normalize_eq, hreverse, text_ofComponents_root, map_text_names]
    · rw [hsteps, hreverse]
  | false =>
    obtain ⟨names, climbs, htrail⟩ := exists_names habsolute
    have hreverse : p.trail.reverse = List.replicate climbs .up ++ names.reverse.map .name := by
      simp [htrail]
    refine ⟨names.reverse, fun s hs => hplain (by simpa [htrail] using hs), .inr ⟨climbs, ?_, ?_⟩⟩
    · rw [normalize_eq, hreverse, text_ofComponents _ (by simp), List.map_append, map_text_names,
        List.map_replicate]
      rfl
    · rw [hsteps, hreverse]

/-! ## Folding -/

/-- One fold of some steps: a dot is dropped, a parent step takes back the name before it, or it
stays at the root. -/
inductive Fold : List Component → List Component → Prop where
  | here (before after : List Component) : Fold (before ++ .here :: after) (before ++ after)
  | back (before : List Component) (s : String) (after : List Component) :
    Fold (before ++ .name s :: .up :: after) (before ++ after)
  | top (after : List Component) : Fold (.root :: .up :: after) (.root :: after)

/-- A step that is followed is folded into the trail, whatever comes behind it. -/
theorem folds_follow {trail : List Component} (ht : Trail trail) {c : Component} (hc : c ≠ .root)
    (after : List Component) :
    ReflTransGen Fold (trail.reverse ++ c :: after) ((follow trail c).reverse ++ after) := by
  have hkept : (c :: trail).reverse ++ after = trail.reverse ++ c :: after := by simp
  cases c with
  | root => exact absurd rfl hc
  | here => exact .single (.here _ _)
  | name s => exact hkept ▸ .refl
  | up =>
    cases ht with
    | root => exact .single (.top after)
    | ups n =>
      cases n with
      | zero => exact .refl
      | succ n => exact hkept ▸ .refl
    | @name before s _ =>
      have hback := Fold.back before.reverse s after
      rw [List.reverse_cons, List.append_assoc]
      exact .single hback

theorem folds_foldl {trail steps : List Component} (ht : Trail trail)
    (h : ∀ c ∈ steps, c ≠ .root) :
    ReflTransGen Fold (trail.reverse ++ steps) (steps.foldl follow trail).reverse := by
  induction steps generalizing trail with
  | nil =>
    rw [List.append_nil]
    exact .refl
  | cons c steps ih =>
    obtain ⟨hc, hsteps⟩ := List.forall_mem_cons.mp h
    exact (folds_follow ht hc steps).trans (ih (ht.follow hc) hsteps)

/-- **The steps of a normal form are those of its path, folded.** -/
theorem folds_normalize (p : Path) : ReflTransGen Fold p.components p.normalize.components := by
  obtain ⟨steps, hplain, hcases⟩ := components_cases p
  have hroot : ∀ c ∈ steps, c ≠ .root := fun c hc => ne_root_of_isPlain (hplain c hc)
  rw [components_normalize, resolve]
  rcases hcases with hp | hp | hp <;> rw [hp]
  · exact folds_foldl .root hroot
  · exact folds_foldl (.ups 0) (List.forall_mem_cons.mpr ⟨by simp, hroot⟩)
  · exact folds_foldl (.ups 0) hroot

/-- Steps that are folded lead where they led before. -/
theorem resolve_of_folds {steps steps' : List Component} (h : ReflTransGen Fold steps steps') :
    resolve steps = resolve steps' := by
  induction h with
  | refl => rfl
  | tail _ hfold ih =>
    rw [ih]
    cases hfold with
    | here before after => rw [resolve, resolve, List.foldl_append, List.foldl_append]; rfl
    | back before s after => rw [resolve, resolve, List.foldl_append, List.foldl_append]; rfl
    | top after => rfl

theorem Trail.names {trail : List Component} (h : Trail trail) (names : List String) :
    Trail (names.map .name ++ trail) := by
  induction names with
  | nil => exact h
  | cons s names ih => exact .name s ih

/-- A canonical spelling is its own normal form. -/
theorem IsCanonical.normalize_eq {p : Path} (h : p.IsCanonical) : p.normalize = p := by
  obtain ⟨names, -, ⟨hspelling, hsteps⟩ | ⟨climbs, hspelling, hsteps⟩⟩ := h
  · have hfolded := (Trail.root.names names.reverse).resolve_reverse
    have hreverse : (names.reverse.map Component.name ++ [Component.root]).reverse =
        .root :: names.map .name := by simp
    rw [hreverse] at hfolded
    rw [normalize, hsteps, hfolded]
    refine congrArg Path.mk ((text_ofComponents_root _).trans ?_)
    rw [map_text_names, hspelling]
  · have hfolded := ((Trail.ups climbs).names names.reverse).resolve_reverse
    have hreverse :
        (names.reverse.map Component.name ++ List.replicate climbs Component.up).reverse =
          List.replicate climbs .up ++ names.map .name := by simp
    rw [hreverse] at hfolded
    rw [normalize, hsteps, hfolded]
    refine congrArg Path.mk ((text_ofComponents _ (by simp)).trans ?_)
    rw [List.map_append, map_text_names, List.map_replicate, hspelling]
    rfl

/-- **The normal form is the only canonical spelling** whose steps are those of the path, folded. -/
theorem eq_normalize_iff {p q : Path} :
    q = p.normalize ↔ q.IsCanonical ∧ ReflTransGen Fold p.components q.components := by
  constructor
  · rintro rfl
    exact ⟨isCanonical_normalize p, folds_normalize p⟩
  · rintro ⟨hcanonical, hfolds⟩
    rw [← hcanonical.normalize_eq, normalize, normalize, resolve_of_folds hfolds]

end Path

/-! ## Sources in memory -/

namespace MemoryFiles

open ContractBuild.Path

/-- `LastUnder files p text`: of the texts that are put in one after the other, `text` is the last
one under a path that normalizes as `p` does. -/
def LastUnder (files : List (String × String)) (p : Path) (text : String) : Prop :=
  ∃ before spelling after, files = before ++ (spelling, text) :: after ∧
    (Path.mk spelling).normalize = p.normalize ∧
    ∀ f ∈ after, (Path.mk f.1).normalize ≠ p.normalize

theorem key_eq_iff (p q : Path) : key p = key q ↔ p.normalize = q.normalize :=
  ⟨congrArg Path.mk, congrArg Path.text⟩

theorem texts_ofList (files : List (String × String)) :
    (ofList files).texts = .ofList (files.map fun f => (key ⟨f.1⟩, f.2)) := by
  have hfold (m : MemoryFiles) : (files.foldl (fun m f => m.insert ⟨f.1⟩ f.2) m).texts =
      (files.map fun f => (key ⟨f.1⟩, f.2)).foldl (fun d e => d.insert e.1 e.2) m.texts := by
    induction files generalizing m with
    | nil => rfl
    | cons f files ih => exact ih _
  exact hfold empty

theorem get?_key_ofList {files : List (String × String)} {p : Path} {text : String} :
    (ofList files).texts.get? (key p) = some text ↔ LastUnder files p text := by
  rw [texts_ofList, Dict.get?_ofList]
  constructor
  · rintro ⟨before, after, hsplit, hafter⟩
    obtain ⟨front, rest, rfl, rfl, hrest⟩ := List.map_eq_append_iff.mp hsplit
    obtain ⟨⟨spelling, t⟩, behind, rfl, hf, rfl⟩ := List.map_eq_cons_iff.mp hrest
    obtain ⟨hkey, rfl⟩ := Prod.mk.inj hf
    refine ⟨front, spelling, behind, rfl, (key_eq_iff _ _).mp hkey, fun f hf heq => ?_⟩
    exact hafter _ (List.mem_map_of_mem hf) ((key_eq_iff _ _).mpr heq)
  · rintro ⟨before, spelling, after, rfl, hsame, hafter⟩
    refine ⟨before.map fun f => (key ⟨f.1⟩, f.2), after.map fun f => (key ⟨f.1⟩, f.2), ?_, ?_⟩
    · rw [List.map_append, List.map_cons, (key_eq_iff _ _).mpr hsame]
    · intro e he
      obtain ⟨f, hf, rfl⟩ := List.mem_map.mp he
      exact fun heq => hafter f hf ((key_eq_iff _ _).mp heq)

/-- **A path finds the text that was put in last under a spelling of it.** -/
theorem read_eq_ok_iff {files : List (String × String)} {p : Path} {text : String} :
    (ofList files).read p = .ok text ↔ LastUnder files p text := by
  rw [← get?_key_ofList, read]
  cases (ofList files).texts.get? (key p) <;> simp

theorem isFile_iff {files : List (String × String)} {p : Path} :
    (ofList files).isFile p = true ↔ ∃ text, LastUnder files p text := by
  rw [isFile, Dict.contains_eq_isSome_get?, Option.isSome_iff_exists]
  exact exists_congr fun text => get?_key_ofList

/-- Where nothing is found, the error names the path as it was asked for. -/
theorem read_of_not_isFile {m : MemoryFiles} {p : Path} (h : m.isFile p = false) :
    m.read p = .error ⟨"no in-memory source at " ++ p.text, []⟩ := by
  rw [isFile, Dict.contains_eq_isSome_get?, Option.isSome_eq_false_iff, Option.isNone_iff_eq_none]
    at h
  rw [read, h]

/-- Spellings that normalize alike find the same text. -/
theorem lastUnder_congr {files : List (String × String)} {p q : Path}
    (h : p.normalize = q.normalize) (text : String) :
    LastUnder files p text ↔ LastUnder files q text := by
  rw [LastUnder, LastUnder, h]

end MemoryFiles

namespace Path

open MemoryFiles Relation

/-- **Normal forms are canonical names of files.** A normal form is its own normal form, may stand
for its path in front of anything that is joined to it, and is a canonical spelling: the only one
whose steps are the steps of the path, folded one by one. Sources in memory answer for a path with
the text that was put in last under any spelling that normalizes alike, and so alike for all of
these spellings; if there is none, with an error that names the path. -/
theorem normalize_canonical (p q : Path) (files : List (String × String)) :
    let view := (MemoryFiles.ofList files).view
    p.normalize.normalize = p.normalize ∧
    (p.join q).normalize = (p.normalize.join q).normalize ∧
    p.normalize.IsCanonical ∧
    (∀ n : Path, n = p.normalize ↔ n.IsCanonical ∧ ReflTransGen Fold p.components n.components) ∧
    (∀ text, view.read p = .ok text ↔ LastUnder files p text) ∧
    (view.isFile p = true ↔ ∃ text, LastUnder files p text) ∧
    (view.isFile p = false → view.read p = .error ⟨"no in-memory source at " ++ p.text, []⟩) ∧
    (p.normalize = q.normalize →
      view.isFile p = view.isFile q ∧ ∀ text, view.read p = .ok text ↔ view.read q = .ok text) := by
  refine ⟨normalize_normalize p, normalize_join p q, isCanonical_normalize p,
    fun n => eq_normalize_iff, fun text => read_eq_ok_iff, isFile_iff, read_of_not_isFile,
    fun hsame => ⟨?_, fun text => ?_⟩⟩
  · rw [Bool.eq_iff_iff]
    exact isFile_iff.trans ((exists_congr (lastUnder_congr hsame)).trans isFile_iff.symm)
  · exact read_eq_ok_iff.trans ((lastUnder_congr hsame text).trans read_eq_ok_iff.symm)

/-- A text that is put in twice, read under a third spelling that climbs and comes back. -/
theorem normalize_canonical_respelled :
    let files := [("a//b.sol", "old"), ("c.sol", "other"), ("./a/b.sol", "new")]
    let view := (MemoryFiles.ofList files).view
    let p : Path := ⟨"x/../a/./b.sol"⟩
    let q : Path := ⟨"a/b.sol/"⟩
    p.normalize = ⟨"a/b.sol"⟩ ∧ q.normalize = ⟨"a/b.sol"⟩ ∧
      (Path.mk "a/../../b/.").normalize = ⟨"../b"⟩ ∧ (Path.mk "/../a/./b").normalize = ⟨"/a/b"⟩ ∧
      view.read p = .ok "new" ∧ view.isFile q = true ∧ view.read q = .ok "new" := by
  intro files view p q
  have hp : p.normalize = ⟨"a/b.sol"⟩ := by decide +kernel
  have hq : q.normalize = ⟨"a/b.sol"⟩ := by decide +kernel
  have hread : view.read p = .ok "new" := by decide +kernel
  have hfile : view.isFile p = true := by decide +kernel
  obtain ⟨-, -, -, -, -, -, -, halike⟩ := normalize_canonical p q files
  obtain ⟨hfiles, hreads⟩ := halike (hp.trans hq.symm)
  exact ⟨hp, hq, by decide +kernel, by decide +kernel, hread, hfiles ▸ hfile,
    (hreads "new").mp hread⟩

end Path

end ContractBuild
