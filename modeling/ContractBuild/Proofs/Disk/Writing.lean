import ContractBuild.Disk.Output
import ContractBuild.Proofs.JoinedPath

/-!
# What writing does to a disk

A path leads to one place or nowhere, and that place can be read off its steps (`Disk.placeOf`).
Changes to a disk never take anything away: directories stay directories, and what stands somewhere
stays there or is written over. `Disk.Extends written` says so, and that no file is written over but
those under the keys in `written`. Paths that lead somewhere still lead there
(`Extends.locate`), so what holds after one change can be used after all later ones.

- **Files** (`writeFile_ok`, `locate_of_writeFile`): a file is written at the place of its path, and
  nothing else changes.
- **Directories** (`isAdditive_makeDirs`): making them writes over nothing and brings no files.
- **Places below a directory** (`placeOf_foldl_join`, `key_append_inj`): different plain names lead
  to different keys.
-/

namespace ContractBuild

/-! ## Execution -/

namespace OnDisk

variable {ε α β : Type}

/-- What a change makes of a disk. -/
def exec (x : OnDisk ε α) (d : Disk) : Except ε α × Disk := x.run.run d

@[simp] theorem exec_pure (a : α) (d : Disk) : exec (pure a : OnDisk ε α) d = (.ok a, d) := rfl

@[simp] theorem exec_throw (e : ε) (d : Disk) :
    exec (throw e : OnDisk ε α) d = (.error e, d) := rfl

@[simp] theorem exec_get (d : Disk) : exec (get : OnDisk ε Disk) d = (.ok d, d) := rfl

@[simp] theorem exec_set (d' d : Disk) : exec (set d' : OnDisk ε PUnit) d = (.ok ⟨⟩, d') := rfl

@[simp] theorem exec_mk (r : Except ε α) (d : Disk) :
    exec (ExceptT.mk (pure r) : OnDisk ε α) d = (r, d) := rfl

@[simp] theorem exec_bind (x : OnDisk ε α) (f : α → OnDisk ε β) (d : Disk) :
    exec (x >>= f) d =
      match exec x d with
      | (.ok a, d') => exec (f a) d'
      | (.error e, d') => (.error e, d') := by
  simp only [exec, ExceptT.run_bind, StateT.run_bind]
  show (match x.run.run d with | (a, s) => _) = _
  rcases x.run.run d with ⟨_ | _, d'⟩ <;> rfl

@[simp] theorem exec_tryCatch (x : OnDisk ε α) (f : ε → OnDisk ε α) (d : Disk) :
    exec (tryCatch x f) d =
      match exec x d with
      | (.ok a, d') => (.ok a, d')
      | (.error e, d') => exec (f e) d' := by
  simp only [exec, ExceptT.run_tryCatch, StateT.run_bind]
  show (match x.run.run d with | (a, s) => _) = _
  rcases x.run.run d with ⟨_ | _, d'⟩ <;> rfl

@[simp] theorem exec_ite (b : Prop) [Decidable b] (x y : OnDisk ε α) (d : Disk) :
    exec (if b then x else y) d = if b then exec x d else exec y d := by
  split <;> rfl

/-- A sequence that succeeds has a first part that does. -/
theorem exec_bind_ok {x : OnDisk ε α} {f : α → OnDisk ε β} {d d' : Disk} {b : β}
    (h : exec (x >>= f) d = (.ok b, d')) :
    ∃ a d₁, exec x d = (.ok a, d₁) ∧ exec (f a) d₁ = (.ok b, d') := by
  rw [exec_bind] at h
  split at h
  · rename_i a d₁ hx
    exact ⟨a, d₁, hx, h⟩
  · cases h

theorem exec_eq_of_fst {x : OnDisk ε α} {d : Disk} {a : α} (h : (exec x d).1 = .ok a) :
    exec x d = (.ok a, (exec x d).2) := Prod.ext h rfl

/-- Words for an error change nothing else. -/
theorem exec_saying (act : String) (p : Path) (x : OnDisk OsError α) (d : Disk) :
    exec (Disk.saying act p x) d =
      match exec x d with
      | (.ok a, d') => (.ok a, d')
      | (.error e, d') => (.error ⟨s!"failed to {act} `{p.text}`: {e.message}", []⟩, d') := by
  simp only [exec, Disk.saying, ExceptT.run_mk, StateT.run_bind]
  show (match x.run.run d with | (a, s) => _) = _
  rcases x.run.run d with ⟨_ | _, d'⟩ <;> rfl

theorem exec_saying_ok {act : String} {p : Path} {x : OnDisk OsError α} {d d' : Disk} {a : α}
    (h : exec (Disk.saying act p x) d = (.ok a, d')) : exec x d = (.ok a, d') := by
  rw [exec_saying] at h
  rcases hx : exec x d with ⟨_ | _, d₁⟩ <;> rw [hx] at h <;> cases h
  rfl

end OnDisk

namespace Disk

open ContractBuild.Path OnDisk

/-! ## What stands where -/

/-- What stands at a place is told by its key. -/
theorem get?_of_key {d : Disk} {place other : Place} (hp : place ≠ []) (ho : other ≠ [])
    (h : key other = key place) : d.get? other = d.get? place := by
  simp [get?, hp, ho, h]

@[simp] theorem get?_nil (d : Disk) : d.get? [] = some .directory := rfl

/-- What stands at a place after something is put at one: that, at the places with its key, and what
stood there before at all others. -/
theorem get?_put {d : Disk} {place : Place} (hp : place ≠ []) (e : DiskEntry) (other : Place) :
    (d.get? other = d.get? place ∧ key other = key place ∧ (d.put place e).get? other = some e) ∨
      (d.put place e).get? other = d.get? other := by
  by_cases ho : other = []
  · exact .inr (by rw [ho, get?_nil, get?_nil])
  · by_cases hk : key other = key place
    · refine .inl ⟨get?_of_key hp ho hk, hk, ?_⟩
      rw [get?_of_key hp ho hk]
      simp [get?, put, hp, Dict.get?_insert_self]
    · exact .inr (by simp [get?, put, Dict.get?_insert_ne _ _ hk])

theorem get?_put_self {d : Disk} {place : Place} (hp : place ≠ []) (e : DiskEntry) :
    (d.put place e).get? place = some e := by
  simp [get?, put, hp, Dict.get?_insert_self]

theorem isDirectoryAt_iff {d : Disk} {place : Place} :
    d.isDirectoryAt place = true ↔ d.get? place = some .directory := by
  simp [isDirectoryAt]

/-! ## Disks that only grow -/

/-- `d'` has all that `d` has, and the same files but for those under the keys in `written`. -/
structure Extends (written : String → Prop) (d d' : Disk) : Prop where
  workDir : d'.workDir = d.workDir
  directory : ∀ place, d.get? place = some .directory → d'.get? place = some .directory
  there : ∀ place, (d.get? place).isSome = true → (d'.get? place).isSome = true
  file : ∀ place content, ¬ written (key place) → d.get? place = some (.file content) →
    d'.get? place = some (.file content)

namespace Extends

variable {written written' : String → Prop} {d d₁ d' : Disk}

theorem refl (d : Disk) : Extends written d d :=
  ⟨rfl, fun _ h => h, fun _ h => h, fun _ _ _ h => h⟩

theorem mono (h : Extends written d d') (hw : ∀ k, written k → written' k) :
    Extends written' d d' :=
  ⟨h.workDir, h.directory, h.there, fun place content hk =>
    h.file place content fun hk' => hk (hw _ hk')⟩

theorem trans (h₁ : Extends written d d₁) (h₂ : Extends written d₁ d') : Extends written d d' :=
  ⟨h₂.workDir.trans h₁.workDir, fun place h => h₂.directory place (h₁.directory place h),
    fun place h => h₂.there place (h₁.there place h),
    fun place content hk h => h₂.file place content hk (h₁.file place content hk h)⟩

end Extends

/-- Something is put where no directory stands, and over a file only if its key is one of those that
are written over. -/
theorem extends_put {written : String → Prop} {d : Disk} {place : Place} {e : DiskEntry}
    (hp : place ≠ []) (hdir : d.get? place ≠ some .directory)
    (hfile : ¬ written (key place) → d.get? place = none) : Extends written d (d.put place e) := by
  refine ⟨rfl, fun other h => ?_, fun other h => ?_, fun other content hk h => ?_⟩
  · rcases get?_put hp e other with ⟨hsame, -, -⟩ | hput
    · exact absurd (hsame ▸ h) hdir
    · rwa [hput]
  · rcases get?_put hp e other with ⟨-, -, hput⟩ | hput
    · rw [hput, Option.isSome_some]
    · rwa [hput]
  · rcases get?_put hp e other with ⟨hsame, hkey, -⟩ | hput
    · rw [hsame, hfile (hkey ▸ hk)] at h
      cases h
    · rwa [hput]

/-! ## Where paths lead -/

/-- Where a step leads from a place if everything on the way is there. -/
def lead (place : Place) : Component → Place
  | .name s => place ++ [s]
  | .up => place.dropLast
  | _ => place

/-- The place that a path can lead to. -/
def placeOf (d : Disk) (p : Path) : Place :=
  (innerSteps p.text.toList).foldl lead (if p.isAbsolute then [] else d.workDir)

/-- **When a step can be taken**, and where it leads. -/
theorem step_eq_ok_iff {d : Disk} {place next : Place} {segment : List Char} :
    d.step place segment = .ok next ↔
      d.get? place = some .directory ∧ (step? segment).toList.foldl lead place = next ∧
        ∀ s, step? segment = some (.name s) →
          s.utf8ByteSize ≤ longestName ∧ (d.get? next).isSome = true := by
  unfold step step?
  dsimp only
  split
  · rename_i hdir
    simp_all [isDirectoryAt]
  · rename_i hdir
    have hdir : d.get? place = some .directory := by simpa [isDirectoryAt] using hdir
    split
    · simp [hdir]
    · split
      · simp [hdir, lead]
      · -- a name: it must not be too long, and something must stand there
        simp only [Option.toList_some, List.foldl_cons, List.foldl_nil, lead, Option.some.injEq,
          Component.name.injEq, forall_eq', hdir, true_and]
        generalize String.ofList segment = name
        split
        · rename_i hlong
          exact iff_of_false (by simp) fun h => absurd hlong (Nat.not_lt.mpr h.2.1)
        · rename_i hlong
          split
          · rename_i hnone
            refine iff_of_false (by simp) ?_
            rintro ⟨rfl, -, hsome⟩
            rw [Option.isNone_iff_eq_none.mp hnone] at hsome
            cases hsome
          · rename_i hsome
            rw [Except.ok.injEq]
            refine ⟨?_, fun h => h.1⟩
            rintro rfl
            exact ⟨rfl, Nat.not_lt.mp hlong, by simpa [Option.isSome_iff_ne_none] using hsome⟩

theorem walk_cons_eq_ok_iff {d : Disk} {place last : Place} {segment : List Char}
    {rest : List (List Char)} :
    d.walk place (segment :: rest) = .ok last ↔
      ∃ next, d.step place segment = .ok next ∧ d.walk next rest = .ok last := by
  rw [walk]
  cases d.step place segment with
  | error e => simp [bind, Except.bind]
  | ok next => simp [bind, Except.bind]

theorem walk_append_eq_ok_iff {d : Disk} {place last : Place} {front rest : List (List Char)} :
    d.walk place (front ++ rest) = .ok last ↔
      ∃ next, d.walk place front = .ok next ∧ d.walk next rest = .ok last := by
  induction front generalizing place with
  | nil => simp [walk]
  | cons segment front ih =>
    simp only [List.cons_append, walk_cons_eq_ok_iff, ih]
    constructor
    · rintro ⟨first, hfirst, next, hfront, hrest⟩
      exact ⟨next, ⟨first, hfirst, hfront⟩, hrest⟩
    · rintro ⟨next, ⟨first, hfirst, hfront⟩, hrest⟩
      exact ⟨first, hfirst, next, hfront, hrest⟩

/-- Steps that can be taken lead where they say. -/
theorem foldl_lead_of_walk {d : Disk} {place last : Place} {steps : List (List Char)}
    (h : d.walk place steps = .ok last) : (steps.filterMap step?).foldl lead place = last := by
  induction steps generalizing place with
  | nil =>
    cases h
    rfl
  | cons segment rest ih =>
    obtain ⟨next, hstep, hrest⟩ := walk_cons_eq_ok_iff.mp h
    rw [← ih hrest, ← (step_eq_ok_iff.mp hstep).2.1, ← List.foldl_append]
    congr 1
    cases hs : step? segment <;> simp [hs]

/-- The steps of a path, and where they start from. -/
def steps (p : Path) : List (List Char) :=
  segments (if p.isAbsolute then p.text.toList.tail else p.text.toList)

theorem innerSteps_eq_steps (p : Path) : innerSteps p.text.toList = (steps p).filterMap step? := by
  unfold steps
  split
  · rename_i ha
    obtain ⟨rest, hrest⟩ := List.head?_eq_some_iff.mp (beq_iff_eq.mp ha)
    rw [hrest, innerSteps_slash, innerSteps, List.tail_cons]
  · rfl

theorem route_eq_ok_iff {d : Disk} {p : Path} {start : Place} {parts : List (List Char)} :
    d.route p = .ok (start, parts) ↔
      p.text.utf8ByteSize ≤ longestPath ∧ p.text.toList ≠ [] ∧
        (if p.isAbsolute then [] else d.workDir) = start ∧ steps p = parts := by
  unfold route steps isAbsolute
  split
  · rename_i hlong
    exact iff_of_false (by simp) fun h => absurd hlong (Nat.not_lt.mpr h.1)
  · rename_i hlong
    have hshort : p.text.utf8ByteSize ≤ longestPath := Nat.not_lt.mp hlong
    split
    · rename_i hp
      simp [hp]
    · rename_i rest hp
      simp [hp, hshort]
    · rename_i hne hrel
      have hhead : (p.text.toList.head? == some '/') = false := by
        rw [beq_eq_false_iff_ne]
        intro hhead
        obtain ⟨rest, hrest⟩ := List.head?_eq_some_iff.mp hhead
        exact hrel rest hrest
      have hne : p.text.toList ≠ [] := hne
      simp only [hhead, hshort, hne, ne_eq, not_false_eq_true, true_and, Bool.false_eq_true,
        if_false, Except.ok.injEq, Prod.mk.injEq]

/-- **When a path leads somewhere**, and where. -/
theorem locate_eq_ok_iff {d : Disk} {p : Path} {place : Place} :
    d.locate p = .ok place ↔
      p.text.utf8ByteSize ≤ longestPath ∧ p.text.toList ≠ [] ∧
        d.walk (if p.isAbsolute then [] else d.workDir) (steps p) = .ok place := by
  unfold locate
  cases hr : d.route p with
  | error e =>
    refine iff_of_false (by simp [bind, Except.bind]) fun ⟨hshort, hne, _⟩ => ?_
    have hok := (route_eq_ok_iff (d := d)).mpr ⟨hshort, hne, rfl, rfl⟩
    rw [hr] at hok
    cases hok
  | ok r =>
    obtain ⟨start, parts⟩ := r
    obtain ⟨hshort, hne, rfl, rfl⟩ := route_eq_ok_iff.mp hr
    exact ⟨fun h => ⟨hshort, hne, h⟩, fun h => h.2.2⟩

namespace Extends

variable {written : String → Prop} {d d' : Disk}

theorem walk (h : Extends written d d') {place last : Place} {parts : List (List Char)}
    (hw : d.walk place parts = .ok last) : d'.walk place parts = .ok last := by
  induction parts generalizing place with
  | nil => exact hw
  | cons segment rest ih =>
    obtain ⟨next, hstep, hrest⟩ := walk_cons_eq_ok_iff.mp hw
    obtain ⟨hdir, hnext, hname⟩ := step_eq_ok_iff.mp hstep
    have hstep' : d'.step place segment = .ok next :=
      step_eq_ok_iff.mpr ⟨h.directory _ hdir, hnext, fun s hs =>
        ⟨(hname s hs).1, h.there _ (hname s hs).2⟩⟩
    exact walk_cons_eq_ok_iff.mpr ⟨next, hstep', ih hrest⟩

/-- **A path that leads somewhere still leads there.** -/
theorem locate (h : Extends written d d') {p : Path} {place : Place}
    (hl : d.locate p = .ok place) : d'.locate p = .ok place := by
  obtain ⟨hshort, hne, hw⟩ := locate_eq_ok_iff.mp hl
  refine locate_eq_ok_iff.mpr ⟨hshort, hne, ?_⟩
  rw [h.workDir]
  exact h.walk hw

theorem placeOf (h : Extends written d d') (p : Path) : d'.placeOf p = d.placeOf p := by
  rw [Disk.placeOf, Disk.placeOf, h.workDir]

end Extends

/-! ## Single changes -/

theorem step?_of_not_isDots {segment : List Char} (h : isDots segment = false)
    (hne : segment ≠ []) : step? segment = some (.name (String.ofList segment)) := by
  simp_all [isDots, step?, idle]

/-- If the last stretch of a path is not empty, it is the last one that is not empty. -/
theorem eq_append_of_dropWhile {parts before : List (List Char)} {last : List Char}
    (h : parts.reverse.dropWhile (·.isEmpty) = last :: before)
    (hlast : (parts.getLast? == some []) = false) :
    parts = before.reverse ++ [last] ∧ last ≠ [] := by
  rw [List.getLast?_eq_head?_reverse] at hlast
  cases hr : parts.reverse with
  | nil => simp [hr] at h
  | cons part rest =>
    have hpart : part ≠ [] := by simpa [hr] using hlast
    rw [hr, List.dropWhile_cons_of_neg (by simpa using hpart), List.cons.injEq] at h
    obtain ⟨rfl, rfl⟩ := h
    exact ⟨by rw [← List.reverse_inj, hr]; simp, hpart⟩

/-- **A path that can be written to**: all of it but its last name is there, so it leads where that
name says as soon as something stands there. -/
theorem target_cases {d : Disk} {p : Path} {t : Target} (h : d.target p = .ok t)
    (hdots : isDots t.last = false) (hslash : t.slashBehind = false) :
    t.dir ++ [String.ofList t.last] = d.placeOf p ∧
      ∀ d', Extends (fun _ => True) d d' → (d'.get? (d.placeOf p)).isSome = true →
        d'.locate p = .ok (d.placeOf p) := by
  unfold target at h
  cases hr : d.route p with
  | error e =>
    rw [hr] at h
    cases h
  | ok r =>
    obtain ⟨start, parts⟩ := r
    obtain ⟨hshort, hne, rfl, rfl⟩ := route_eq_ok_iff.mp hr
    rw [hr] at h
    simp only [bind, Except.bind] at h
    split at h
    · cases h
      cases hslash
    · rename_i last before hlast
      split at h
      · cases h
      · rename_i dir hdir
        split at h
        · cases h
        · rename_i hthere
          split at h
          · cases h
          · rename_i hlong
            cases h
            obtain ⟨hsteps, hne_last⟩ := eq_append_of_dropWhile hlast hslash
            have hname := step?_of_not_isDots hdots hne_last
            have hplace : dir ++ [String.ofList last] = d.placeOf p := by
              rw [placeOf, innerSteps_eq_steps, hsteps, List.filterMap_append, List.foldl_append,
                foldl_lead_of_walk hdir]
              simp [hname, lead]
            refine ⟨hplace, fun d' hd' hsome => locate_eq_ok_iff.mpr ⟨hshort, hne, ?_⟩⟩
            rw [hd'.workDir, hsteps, walk_append_eq_ok_iff]
            refine ⟨dir, hd'.walk hdir, walk_cons_eq_ok_iff.mpr ⟨_, step_eq_ok_iff.mpr ?_, rfl⟩⟩
            refine ⟨hd'.directory _ (isDirectoryAt_iff.mp (by simpa using hthere)), ?_, ?_⟩
            · rw [hname, ← hplace]
              rfl
            · rintro s hs
              rw [hname, Option.some.injEq, Component.name.injEq] at hs
              exact ⟨hs ▸ Nat.not_lt.mp hlong, hsome⟩

/-- **What writing a file comes to.** -/
theorem writeFile_ok {p : Path} {content : ByteArray} {d d' : Disk}
    (h : exec (writeFile p content) d = (.ok (), d')) :
    d.placeOf p ≠ [] ∧ d' = d.put (d.placeOf p) (.file content) ∧
      d.get? (d.placeOf p) ≠ some .directory ∧
      ∀ d₁, Extends (fun _ => True) d d₁ → (d₁.get? (d.placeOf p)).isSome = true →
        d₁.locate p = .ok (d.placeOf p) := by
  simp only [writeFile, exec_bind, exec_get, exec_mk] at h
  cases ht : d.target p with
  | error e =>
    rw [ht] at h
    cases h
  | ok t =>
    rw [ht] at h
    simp only [exec_ite, exec_bind, exec_throw] at h
    split at h
    · cases h
    · rename_i hdots
      split at h
      · cases h
      · cases h
      · cases h
      · rename_i hslash hdir
        cases h
        obtain ⟨hplace, hlocate⟩ := target_cases ht (by simpa using hdots) hslash
        exact ⟨by simp [← hplace], by rw [← hplace], by rw [← hplace]; exact hdir, hlocate⟩

theorem writeFile_extends {p : Path} {content : ByteArray} {d d' : Disk}
    (h : exec (writeFile p content) d = (.ok (), d')) :
    Extends (· = key (d.placeOf p)) d d' := by
  obtain ⟨hne, rfl, hdir, -⟩ := writeFile_ok h
  exact extends_put hne hdir fun hk => absurd rfl hk

/-- **What was written is there**, at the place that the path leads to from then on. -/
theorem locate_of_writeFile {p : Path} {content : ByteArray} {d d' : Disk}
    (h : exec (writeFile p content) d = (.ok (), d')) :
    d'.locate p = .ok (d.placeOf p) ∧ d'.get? (d.placeOf p) = some (.file content) := by
  obtain ⟨hne, rfl, -, hlocate⟩ := writeFile_ok h
  have hput := get?_put_self (d := d) hne (.file content)
  exact ⟨hlocate _ ((writeFile_extends h).mono fun _ _ => trivial) (by rw [hput]; rfl), hput⟩

/-- A file that is new is written over nothing. -/
theorem writeFile_extends_new {p : Path} {content : ByteArray} {d d' : Disk}
    (h : exec (writeFile p content) d = (.ok (), d')) (hnew : d.hasPath p = false) :
    Extends (fun _ => False) d d' := by
  obtain ⟨hne, rfl, hdir, hlocate⟩ := writeFile_ok h
  refine extends_put hne hdir fun _ => ?_
  -- something that stood there would have been found
  by_contra hsome
  rw [← ne_eq, ← Option.isSome_iff_ne_none] at hsome
  have hfound := hlocate d (.refl d) hsome
  rw [hasPath, find?, hfound] at hnew
  exact absurd hsome (by simp [hnew])

/-- The text of a file that was written. -/
theorem readText_of_locate {d : Disk} {p : Path} {place : Place} {text : String}
    (hl : d.locate p = .ok place) (hf : d.get? place = some (.file text.toUTF8)) :
    d.readText p = .ok text := by
  have hutf8 : String.fromUTF8? text.toUTF8 = some text := by
    rw [String.fromUTF8?, dif_pos (show text.toUTF8.IsValidUTF8 from text.isValidUTF8)]
    rfl
  simp only [readText, hl, hf, hutf8]

theorem exists_locate_of_hasPath {d : Disk} {p : Path} (h : d.hasPath p = true) :
    ∃ place, d.locate p = .ok place := by
  unfold hasPath find? at h
  split at h
  · rename_i place hplace
    exact ⟨place, hplace⟩
  · cases h

/-- **What a path leads through is a directory.** -/
theorem isDirectory_of_locate {d : Disk} {p home : Path} {place : Place} {more : List Char}
    (hl : d.locate p = .ok place) (hp : p.text.toList = home.text.toList ++ '/' :: more)
    (hne : home.text.toList ≠ []) : d.isDirectory home = true := by
  obtain ⟨hshort, -, hw⟩ := locate_eq_ok_iff.mp hl
  have habsolute : p.isAbsolute = home.isAbsolute := by
    rw [isAbsolute, isAbsolute, hp, List.head?_append, List.head?_eq_some_head hne, Option.some_or]
  have hsteps : steps p = steps home ++ segments more := by
    rw [steps, steps, habsolute, ← segments_append_slash, hp]
    split
    · rw [List.tail_append_of_ne_nil hne]
    · rfl
  have hsize : home.text.utf8ByteSize ≤ longestPath := by
    have htext : p.text = home.text ++ String.ofList ('/' :: more) := by
      rw [← String.toList_inj, hp, String.toList_append, String.toList_ofList]
    rw [htext, String.utf8ByteSize_append] at hshort
    exact Nat.le_of_add_right_le hshort
  obtain ⟨part, rest, hmore⟩ := List.exists_cons_of_ne_nil
    (segments_eq_splitOn more ▸ List.splitOn_ne_nil '/' more)
  rw [hsteps, habsolute, walk_append_eq_ok_iff, hmore] at hw
  obtain ⟨next, hnext, hrest⟩ := hw
  obtain ⟨_, hstep, -⟩ := walk_cons_eq_ok_iff.mp hrest
  have hfound := locate_eq_ok_iff.mpr ⟨hsize, hne, hnext⟩
  rw [isDirectory, find?, hfound, beq_iff_eq]
  exact (step_eq_ok_iff.mp hstep).1

/-! ## Places below a directory -/

theorem placeOf_foldl_join {names : List String} (h : ∀ s ∈ names, IsPlain (.name s)) (d : Disk)
    (dir : Path) :
    d.placeOf (names.foldl (fun p s => p.join ⟨s⟩) dir) = d.placeOf dir ++ names := by
  induction names generalizing dir with
  | nil => simp
  | cons s names ih =>
    obtain ⟨hs, hnames⟩ := List.forall_mem_cons.mp h
    have hjoin : d.placeOf (dir.join ⟨s⟩) = d.placeOf dir ++ [s] := by
      rw [placeOf, innerSteps_join (isAbsolute_name hs), isAbsolute_join (isAbsolute_name hs),
        innerSteps_name hs, List.foldl_append, ← placeOf]
      rfl
    rw [List.foldl_cons, ih hnames, hjoin, List.append_assoc, List.singleton_append]

theorem toList_key (place : Place) : (key place).toList = slashed (place.map String.toList) := by
  rw [key, String.toList_intercalate]
  rfl

/-- **Different plain names below a place have different keys.** -/
theorem key_append_inj {place : Place} {names names' : List String}
    (h : ∀ s ∈ names, IsPlain (.name s)) (h' : ∀ s ∈ names', IsPlain (.name s))
    (hne : names ≠ []) (hne' : names' ≠ []) (hk : key (place ++ names) = key (place ++ names')) :
    names = names' := by
  have hplain {names : List String} (h : ∀ s ∈ names, IsPlain (.name s)) :
      ∀ part ∈ names.map String.toList, '/' ∉ part := by
    intro part hp
    obtain ⟨s, hs, rfl⟩ := List.mem_map.mp hp
    exact (h s hs).1
  have hparts : slashed (names.map String.toList) = slashed (names'.map String.toList) := by
    rw [← String.toList_inj, toList_key, toList_key, List.map_append, List.map_append] at hk
    by_cases hp : place = []
    · simpa [hp] using hk
    · have hp : place.map String.toList ≠ [] := by simpa using hp
      rwa [slashed_append hp (by simpa using hne), slashed_append hp (by simpa using hne'),
        List.append_cancel_left_eq, List.cons_inj_right] at hk
  have hread := congrArg segments hparts
  rw [segments_slashed (hplain h) (by simpa using hne),
    segments_slashed (hplain h') (by simpa using hne')] at hread
  exact (List.map_inj_right fun _ _ => String.toList_inj.mp).mp hread

theorem key_placeOf_inj {d : Disk} {dir : Path} {names names' : List String}
    (h : ∀ s ∈ names, IsPlain (.name s)) (h' : ∀ s ∈ names', IsPlain (.name s))
    (hne : names ≠ []) (hne' : names' ≠ [])
    (hk : key (d.placeOf (names.foldl (fun p s => p.join ⟨s⟩) dir)) =
      key (d.placeOf (names'.foldl (fun p s => p.join ⟨s⟩) dir))) : names = names' := by
  rw [placeOf_foldl_join h, placeOf_foldl_join h'] at hk
  exact key_append_inj h h' hne hne' hk

end Disk

/-! ## Changes that write over nothing -/

/-- `d'` has all that `d` has, and nothing new but directories. -/
structure Disk.AddsDirectories (d d' : Disk) : Prop extends Disk.Extends (fun _ => False) d d' where
  old : ∀ place content, d'.get? place = some (.file content) →
    d.get? place = some (.file content)

namespace Disk.AddsDirectories

theorem refl (d : Disk) : AddsDirectories d d := ⟨.refl d, fun _ _ h => h⟩

theorem trans {d d₁ d' : Disk} (h₁ : AddsDirectories d d₁) (h₂ : AddsDirectories d₁ d') :
    AddsDirectories d d' :=
  ⟨h₁.toExtends.trans h₂.toExtends, fun place content h =>
    h₁.old place content (h₂.old place content h)⟩

end Disk.AddsDirectories

namespace OnDisk

variable {ε α β : Type}

/-- A change that adds directories only, also if it fails. -/
def IsAdditive (x : OnDisk ε α) : Prop := ∀ d, Disk.AddsDirectories d (exec x d).2

namespace IsAdditive

theorem pure (a : α) : IsAdditive (Pure.pure a : OnDisk ε α) := fun d => .refl d

theorem throw (e : ε) : IsAdditive (MonadExcept.throw e : OnDisk ε α) := fun d => .refl d

theorem bind {x : OnDisk ε α} {f : α → OnDisk ε β} (hx : IsAdditive x)
    (hf : ∀ a, IsAdditive (f a)) : IsAdditive (x >>= f) := by
  intro d
  have hd := hx d
  rw [exec_bind]
  rcases hx : exec x d with ⟨e | a, d₁⟩ <;> rw [hx] at hd
  · exact hd
  · exact hd.trans (hf a d₁)

theorem tryCatch {x : OnDisk ε α} {f : ε → OnDisk ε α} (hx : IsAdditive x)
    (hf : ∀ e, IsAdditive (f e)) : IsAdditive (MonadExcept.tryCatch x f) := by
  intro d
  have hd := hx d
  rw [exec_tryCatch]
  rcases hx : exec x d with ⟨e | a, d₁⟩ <;> rw [hx] at hd
  · exact hd.trans (hf e d₁)
  · exact hd

theorem saying {act : String} {p : Path} {x : OnDisk OsError α} (hx : IsAdditive x) :
    IsAdditive (Disk.saying act p x) := by
  intro d
  have hd := hx d
  rw [exec_saying]
  rcases hx : exec x d with ⟨e | a, d₁⟩ <;> rw [hx] at hd <;> exact hd

theorem get : IsAdditive (MonadState.get : OnDisk ε Disk) := fun d => .refl d

theorem ite {b : Prop} [Decidable b] {x y : OnDisk ε α} (hx : IsAdditive x) (hy : IsAdditive y) :
    IsAdditive (if b then x else y) := by
  split
  · exact hx
  · exact hy

end IsAdditive

end OnDisk

namespace Disk

open ContractBuild.Path OnDisk

theorem isAdditive_makeDir (p : Path) : IsAdditive (makeDir p) := by
  intro d
  simp only [makeDir, exec_bind, exec_get, exec_mk]
  cases d.target p with
  | error e => exact .refl d
  | ok t =>
    simp only [exec_ite, exec_bind, exec_throw, exec_set]
    split
    · exact .refl d
    · rename_i hfree
      rw [Bool.or_eq_true, not_or] at hfree
      have hnone : d.get? (t.dir ++ [String.ofList t.last]) = none := by simpa using hfree.2
      have hne : t.dir ++ [String.ofList t.last] ≠ [] := by simp
      refine ⟨extends_put hne (by simp [hnone]) fun _ => hnone, fun place content h => ?_⟩
      rcases get?_put hne .directory place with ⟨-, -, hput⟩ | hput
      · cases hput.symm.trans h
      · exact hput.symm.trans h

theorem isAdditive_makeChain (ps : List Path) : IsAdditive (makeChain ps) := by
  induction ps with
  | nil => exact .pure ()
  | cons p rest ih =>
    have hcheck (e : OsError) : IsAdditive (do
        let d ← MonadState.get
        if (!d.isDirectory p) = true then MonadExcept.throw e
        else Pure.pure () : OnDisk OsError Unit) :=
      .bind .get fun d => .ite (.throw e) (.pure ())
    rw [makeChain]
    refine .tryCatch (isAdditive_makeDir p) fun e => ?_
    split
    · exact .bind ih fun _ => .tryCatch (isAdditive_makeDir p) hcheck
    · exact hcheck _

theorem isAdditive_makeDirs (p : Path) : IsAdditive (makeDirs p) :=
  .ite (.pure ()) (isAdditive_makeChain _)

end Disk

end ContractBuild
