import ContractBuild.Proofs.FlattenReach

/-!
# Strict and lenient resolution agree

A lenient walk goes on where a strict one ends: at an import that cannot be resolved. Up to there
the two do the same.

- **Two walks** (`Agrees`): step by step, a strict walk equals the lenient one as long as there is
  no new diagnostic, and ends with the error that the first new diagnostic reports (`visit_agrees`).
- **The number of diagnostics** (`Walked.length_diagnostics_le`): each text is read once, so there
  are no more diagnostics than characters, and the reported number of them is exact.

Main statement: `flatten_strict_iff`.
-/

namespace ContractBuild

open Solidity

/-- `e.ReportedAs d`: where a strict resolver ends with the error `e`, a lenient one leaves the
diagnostic `d` and goes on. -/
inductive ResolutionError.ReportedAs : ResolutionError → ResolutionDiagnostic → Prop where
  | unresolved (importer target : String) :
      ReportedAs (.unresolved importer target)
        { importer, target, code := "unresolved_import", message := s!"import {target} not found" }
  | remote (importer target : String) (cause : Failure) :
      ReportedAs (.remote importer target cause)
        { importer, target, code := "remote_fetch_failed"
          message := s!"remote import {target} could not be fetched: {cause.full}" }

namespace Resolver

variable {r : Resolver} {β : Type}

/-- The same resolver, strict or lenient. -/
def withStrict (r : Resolver) (strict : Bool) : Resolver :=
  { r with settings := { r.settings with strict } }

@[simp] theorem locate_withStrict (strict : Bool) (loc : Location) (raw : String) :
    (r.withStrict strict).locate loc raw = r.locate loc raw := rfl

@[simp] theorem load_withStrict (strict : Bool) (loc : Location) :
    (r.withStrict strict).load loc = r.load loc := rfl

@[simp] theorem remote_withStrict (strict : Bool) : (r.withStrict strict).remote = r.remote := rfl

/-! ## Two walks -/

/-- `Agrees progress g x y`: from the graph `g` a lenient walk gets to `x` and a strict one to `y`.
The two are the same if there is no new diagnostic, and otherwise the strict walk ends with the
error of the first one. -/
def Agrees (progress : β → Progress) (g : Graph) (x y : β) : Prop :=
  ((progress x).graph.diagnostics = g.diagnostics ∧ y = x) ∨
  ∃ d more e, (progress x).graph.diagnostics = g.diagnostics ++ d :: more ∧
    (progress y).error = some e ∧ e.ReportedAs d

namespace Agrees

variable {progress : β → Progress} {g g₁ : Graph} {x y : β}

theorem same (h : (progress x).graph.diagnostics = g.diagnostics) : Agrees progress g x x :=
  .inl ⟨h, rfl⟩

/-- Only the diagnostics of the graph matter. -/
theorem of_diagnostics_eq (h : Agrees progress g₁ x y) (hd : g₁.diagnostics = g.diagnostics) :
    Agrees progress g x y := by
  unfold Agrees at h ⊢
  rwa [hd] at h

/-- A lenient walk takes no diagnostic back. -/
theorem diagnostics_grow (h : Agrees progress g x y) :
    g.diagnostics <+: (progress x).graph.diagnostics := by
  obtain ⟨h, -⟩ | ⟨d, more, e, h, -⟩ := h
  · rw [h]
  · rw [h]
    exact List.prefix_append ..

/-- The import that is recorded is the same for both. -/
theorem record {x y : Progress} (h : Agrees id g x y) (i : ImportReference) :
    Agrees Prod.snd g (i, x) (i, y) := by
  obtain ⟨hd, rfl⟩ | h := h
  · exact .inl ⟨hd, rfl⟩
  · exact .inr h

end Agrees

/-- An import that cannot be resolved is where the two part. -/
theorem unresolved_agrees (g : Graph) (importer target : String) (cause : Option Failure) :
    Agrees id g ((r.withStrict false).unresolved g importer target cause)
      ((r.withStrict true).unresolved g importer target cause) := by
  cases cause with
  | none => exact .inr ⟨_, [], _, rfl, rfl, .unresolved importer target⟩
  | some cause => exact .inr ⟨_, [], _, rfl, rfl, .remote importer target cause⟩

/-- From every module that is claimed and read, two walks agree. -/
def EntersAlike (lenient strict : Location → String → Graph → Progress) : Prop :=
  ∀ loc text g, Agrees id g (lenient loc text g) (strict loc text g)

section

variable {lenient strict : Location → String → Graph → Progress}

theorem visitWith_agrees (he : EntersAlike lenient strict) (loc : Location) (g : Graph) :
    Agrees id g ((r.withStrict false).visitWith lenient loc g)
      ((r.withStrict true).visitWith strict loc g) := by
  simp only [visitWith, load_withStrict]
  split
  · exact .same rfl
  · split
    · exact (he _ _ _).of_diagnostics_eq rfl
    · exact .same rfl

theorem follow_agrees (he : EntersAlike lenient strict) (loc : Location) (i : ImportReference)
    (g : Graph) :
    Agrees Prod.snd g ((r.withStrict false).follow lenient loc i g)
      ((r.withStrict true).follow strict loc i g) := by
  simp only [follow, locate_withStrict, remote_withStrict]
  split
  · exact (unresolved_agrees ..).record i
  · exact (visitWith_agrees he ..).record _
  · split
    · exact .same rfl
    · split
      · exact ((he _ _ _).of_diagnostics_eq rfl).record _
      · exact ((unresolved_agrees ..).of_diagnostics_eq rfl).record i

end

/-- What a lenient walk does behind its first diagnostic does not matter any more. -/
theorem followAll_agrees {follow follow' : ImportReference → Graph → ImportReference × Progress}
    (hf : ∀ i g, Agrees Prod.snd g (follow i g) (follow' i g)) (is : List ImportReference)
    (g : Graph) : Agrees Prod.snd g (followAll follow is g) (followAll follow' is g) := by
  induction is generalizing g with
  | nil => exact .same rfl
  | cons i rest ih =>
    have h := hf i g
    simp only [followAll]
    generalize follow i g = x at h ⊢
    generalize follow' i g = y at h ⊢
    obtain ⟨i₁, ⟨g₁, e₁⟩⟩ := x
    rcases h with ⟨hd, rfl⟩ | ⟨d, more, e, hd, he, hr⟩
    · cases e₁ with
      | some e => exact .same hd
      | none =>
        rcases (ih g₁).of_diagnostics_eq hd with ⟨hd', hsame⟩ | hlater
        · dsimp only
          rw [hsame]
          exact .same hd'
        · exact .inr hlater
    · -- the strict walk ends here
      obtain ⟨i₂, ⟨g₂, e₂⟩⟩ := y
      cases he
      cases e₁ with
      | some e₁ => exact .inr ⟨d, more, e, hd, rfl, hr⟩
      | none =>
        obtain ⟨more', hmore⟩ := (ih g₁).diagnostics_grow
        refine .inr ⟨d, more ++ more', e, ?_, rfl, hr⟩
        dsimp only at hd ⊢
        rw [← hmore, hd, List.append_assoc, List.cons_append]

/-- **Two walks agree from every module on,** whatever the bound on the length of chains. -/
theorem enter_agrees (n : Nat) :
    EntersAlike ((r.withStrict false).enter n) ((r.withStrict true).enter n) := by
  induction n with
  | zero => exact fun _ _ _ => .same rfl
  | succ n ih =>
    intro loc text g
    have h := followAll_agrees (follow_agrees (r := r) ih loc)
      (SourceModule.parse loc.id text).imports
      (g.record (SourceModule.parse loc.id text).pragma (SourceModule.parse loc.id text).licenses)
    simp only [enter]
    generalize followAll ((r.withStrict false).follow _ loc) _ _ = x at h ⊢
    generalize followAll ((r.withStrict true).follow _ loc) _ _ = y at h ⊢
    obtain ⟨imports, ⟨g₁, e₁⟩⟩ := x
    rcases h with ⟨hd, rfl⟩ | ⟨d, more, e, hd, he, hr⟩
    · cases e₁ <;> exact .same hd
    · obtain ⟨imports', ⟨g₂, e₂⟩⟩ := y
      cases he
      cases e₁ <;> exact .inr ⟨d, more, e, hd, rfl, hr⟩

theorem visit_agrees (loc : Location) (g : Graph) :
    Agrees id g ((r.withStrict false).visit loc g) ((r.withStrict true).visit loc g) :=
  visitWith_agrees (enter_agrees _) loc g

/-- What a strict resolver makes of a root that a lenient one can walk from. -/
theorem flatten_agrees {root : Path} {g : Graph}
    (h : (r.withStrict false).visit (r.rootLocation root) .empty = ⟨g, none⟩) :
    (g.diagnostics = [] ∧ (r.withStrict true).flatten root = .ok g.flattened) ∨
    ∃ d more e, g.diagnostics = d :: more ∧ (r.withStrict true).flatten root = .error e ∧
      e.ReportedAs d := by
  have hagree := visit_agrees (r := r) (r.rootLocation root) .empty
  rw [h] at hagree
  obtain ⟨hd, hsame⟩ | ⟨d, more, e, hd, he, hr⟩ := hagree
  · exact .inl ⟨hd, flatten_of_visit hsame⟩
  · refine .inr ⟨d, more, e, hd, ?_, hr⟩
    exact flatten_of_visit_error
      (g := ((r.withStrict true).visit (r.rootLocation root) .empty).graph)
      (congrArg (Progress.mk _) he)

end Resolver

/-! ## The number of diagnostics -/

/-- The number of unresolved imports is exact as long as it fits. -/
theorem Graph.unresolvedCount_flattened_eq_zero_iff {g : Graph}
    (h : g.diagnostics.length < UInt64.size) :
    g.flattened.unresolvedCount = 0 ↔ g.diagnostics = [] := by
  rw [← UInt64.toNat_inj, flattened, unresolvedCount, Nat.toUInt64_eq,
    UInt64.toNat_ofNat_of_lt' h, UInt64.toNat_zero, List.length_eq_zero_iff]

theorem Text.Pattern.length_pieces_le {α : Type} (p : Text.Pattern α) (before : Option Char)
    (cs : List Char) : (p.pieces before cs).length ≤ cs.length := by
  fun_induction Text.Pattern.pieces p before cs with
  | case1 => exact Nat.le_refl 0
  | case2 before c cs h hp more ih =>
    simp only [List.length_cons, List.length_drop] at ih ⊢
    omega
  | case3 before c cs hp ih => simpa using ih

/-- Taking hits back leaves no more values than there were pieces. -/
theorem Solidity.length_values_unmarked_le {α : Type} (mask : List Bool)
    (ps : List (Text.Piece α)) :
    ((unmarked mask ps).filterMap Text.Piece.value?).length ≤ ps.length := by
  induction ps generalizing mask with
  | nil => exact Nat.le_refl 0
  | cons piece ps ih =>
    cases piece with
    | gap c =>
      have hrest := ih mask.tail
      simp only [unmarked, List.filterMap_cons, Text.Piece.value?, List.length_cons]
      omega
    | hit v t =>
      have hrest := ih (mask.drop t.length)
      have hone : ((if mask.headD false then t.map .gap else [.hit v t] :
          List (Text.Piece α)).filterMap Text.Piece.value?).length ≤ 1 := by
        split
        · simp [List.filterMap_map, Function.comp_def, Text.Piece.value?]
        · simp [Text.Piece.value?]
      simp only [unmarked, List.filterMap_append, List.length_append, List.length_cons]
      omega

/-- No module has more imports than its text has characters. -/
theorem Solidity.SourceModule.length_imports_parse_le (id text : String) :
    (SourceModule.parse id text).imports.length ≤ text.length := by
  calc (SourceModule.parse id text).imports.length
      = (importPaths text).length := List.length_map _
    _ ≤ (importStatement.split text.toList).length := length_values_unmarked_le _ _
    _ ≤ text.toList.length := Text.Pattern.length_pieces_le _ _ _
    _ = text.length := String.length_toList

namespace Resolver

variable {r : Resolver}

/-- The number of characters in those of some texts whose ids are not claimed yet. -/
def unread : List (String × Nat) → Graph → Nat
  | [], _ => 0
  | t :: texts, g => (if g.isVisited t.1 then 0 else t.2) + unread texts g

theorem unread_append (texts texts' : List (String × Nat)) (g : Graph) :
    unread (texts ++ texts') g = unread texts g + unread texts' g := by
  induction texts with
  | nil => exact (Nat.zero_add _).symm
  | cons t rest ih => rw [List.cons_append, unread, unread, ih, Nat.add_assoc]

theorem unread_le {texts : List (String × Nat)} {g g' : Graph}
    (h : ∀ id, g.isVisited id = true → g'.isVisited id = true) :
    unread texts g' ≤ unread texts g := by
  induction texts with
  | nil => exact Nat.le_refl 0
  | cons t rest ih =>
    refine Nat.add_le_add ?_ ih
    cases hg : g.isVisited t.1 with
    | true => simp [h _ hg]
    | false => split <;> simp

/-- A module that is begun takes the characters of its text off. -/
theorem unread_begin {texts : List (String × Nat)} {g : Graph} {m : SourceModule} {n : Nat}
    (hm : (m.id, n) ∈ texts) (hv : g.isVisited m.id = false) :
    unread texts (g.begin m) + n ≤ unread texts g := by
  have hkept : ∀ id, g.isVisited id = true → (g.begin m).isVisited id = true :=
    fun _ h => by simp [h]
  induction texts with
  | nil => cases hm
  | cons t rest ih =>
    rcases List.mem_cons.mp hm with rfl | hm
    · have hrest : unread rest (g.begin m) ≤ unread rest g := unread_le hkept
      rw [unread, unread, if_pos (by simp), if_neg (by simp [hv])]
      omega
    · have hone : unread [t] (g.begin m) ≤ unread [t] g := unread_le hkept
      have hrest := ih hm
      simp only [unread] at hone ⊢
      omega

/-- Whatever the resolver locates and reads is among some texts, given by id and length. -/
def ReadsFrom (r : Resolver) (texts : List (String × Nat)) : Prop :=
  ∀ loc raw target text, r.locate loc raw = some target → r.load target = .ok text →
    (target.id, text.length) ∈ texts

/-- **Diagnostics are paid for by characters.** A walk over some imports leaves at most one
diagnostic for each of them, and one for each character that it reads. -/
theorem Walked.length_diagnostics_le {texts : List (String × Nat)} (hr : r.ReadsFrom texts)
    {loc : Location} {is is' : List ImportReference} {g g' : Graph}
    (h : r.Walked loc is g is' g') :
    g'.diagnostics.length + unread texts g' ≤
      g.diagnostics.length + unread texts g + is.length := by
  induction h with
  | done => simp
  | @missing _ _ _ _ g _ _ _ left _ ih =>
    obtain ⟨-, d, rfl⟩ := unresolved_ok left
    have hreport : unread texts (g.report d) ≤ unread texts g := unread_le fun _ h => h
    simp only [Graph.diagnostics_report, List.length_append, List.length_cons, List.length_nil]
      at ih ⊢
    omega
  | seen _ _ _ ih =>
    rw [List.length_cons]
    omega
  | @entered _ target text _ inner _ _ g g₁ _ located fresh read _ _ ihb ih =>
    have hbegin := unread_begin (m := .parse target.id text) (hr _ _ _ _ located read) fresh
    have himports := SourceModule.length_imports_parse_le target.id text
    have hpush : unread texts (g₁.push (moduleAt target text inner)) ≤ unread texts g₁ :=
      unread_le fun _ h => h
    simp only [Graph.diagnostics_push, Graph.diagnostics_begin, List.length_cons] at ih ihb ⊢
    omega
  | @failed _ ref _ _ _ _ g _ _ _ _ _ left _ ih =>
    obtain ⟨-, d, rfl⟩ := unresolved_ok left
    have hclaim : unread texts ((g.claim ref.id).report d) ≤ unread texts g :=
      unread_le fun _ h => by simp [h]
    simp only [Graph.diagnostics_report, Graph.diagnostics_claim, List.length_append,
      List.length_cons, List.length_nil] at ih ⊢
    omega

/-- No more diagnostics are left than all texts together have characters. -/
theorem length_diagnostics_of_visit {texts : List (String × Nat)} (hr : r.ReadsFrom texts)
    {root : Location} {text : String} (hread : r.load root = .ok text)
    (hroot : (root.id, text.length) ∈ texts) {g : Graph} (h : r.visit root .empty = ⟨g, none⟩) :
    g.diagnostics.length ≤ unread texts .empty := by
  obtain ⟨text', imports, g₁, hread', hw, rfl⟩ := walked_of_visit rfl h
  obtain rfl : text' = text := by simpa [hread] using hread'.symm
  have hwalk := hw.length_diagnostics_le hr
  have hbegin := unread_begin (g := .empty) (m := .parse root.id text') hroot rfl
  have himports := SourceModule.length_imports_parse_le root.id text'
  simp only [Graph.diagnostics_begin, Graph.diagnostics_empty, List.length_nil,
    Graph.diagnostics_push] at hwalk ⊢
  omega

end Resolver

/-! ## Sources in memory -/

theorem Dict.mem_entries_of_get? {α : Type} {d : Dict α} {key : String} {value : α}
    (h : d.get? key = some value) : (key, value) ∈ d.entries :=
  get?_eq_some_iff.mp h

theorem MemoryFiles.mem_entries_of_read {files : MemoryFiles} {p : Path} {text : String}
    (h : files.read p = .ok text) : (MemoryFiles.key p, text) ∈ files.texts.entries := by
  unfold MemoryFiles.read at h
  split at h
  · rename_i t ht
    cases h
    exact Dict.mem_entries_of_get? ht
  · cases h

theorem Remote.mem_entries_of_fetch {d : Dict String} {ref : RemoteRef} {text : String}
    (h : (Remote.ofDict d).fetch ref = .ok text) : (ref.id, text) ∈ d.entries := by
  unfold Remote.ofDict at h
  dsimp only at h
  split at h
  · rename_i t ht
    cases h
    exact Dict.mem_entries_of_get? ht
  · cases h

namespace Resolver

/-- The texts of some entries, whatever their ids are, have no more characters than the entries
weigh. -/
theorem unread_entries_le_weight (d : Dict String) (id : String → String) :
    unread (d.entries.map fun e => (id e.1, e.2.length)) .empty ≤ MemoryFiles.weight d := by
  have hfold : ∀ (entries : List (String × String)) (n : Nat),
      n + unread (entries.map fun e => (id e.1, e.2.length)) .empty ≤
        entries.foldl (fun n e => n + e.1.length + e.2.length + 1) n := by
    intro entries
    induction entries with
    | nil => exact fun n => Nat.le_refl n
    | cons e rest ih =>
      intro n
      have hrest := ih (n + e.1.length + e.2.length + 1)
      simp only [List.map_cons, unread, List.foldl_cons, Graph.isVisited_empty]
      simp only [Bool.false_eq_true, if_false]
      omega
  simpa [MemoryFiles.weight] using hfold d.entries 0

/-- The ids and lengths of sources in memory. -/
def memoryTexts (files : MemoryFiles) (remote : Option (Dict String)) : List (String × Nat) :=
  (files.texts.entries.map fun e => ((Location.file ⟨e.1⟩).id, e.2.length)) ++
    remote.elim [] fun d => d.entries.map fun e => (e.1, e.2.length)

theorem unread_memoryTexts_le (files : MemoryFiles) (remote : Option (Dict String))
    (settings : ResolverSettings) :
    unread (memoryTexts files remote) .empty ≤
      (inMemory files remote settings).view.size +
        (inMemory files remote settings).remote.size := by
  have hfiles := unread_entries_le_weight files.texts fun key => (Location.file ⟨key⟩).id
  rw [memoryTexts, unread_append]
  refine Nat.add_le_add hfiles ?_
  cases remote with
  | none => exact Nat.le_refl 0
  | some d => exact unread_entries_le_weight d id

/-- What is read under the normal form of a path, or fetched, is among the sources. -/
theorem mem_memoryTexts {files : MemoryFiles} {remote : Option (Dict String)}
    {settings : ResolverSettings} {loc : Location} {text : String}
    (hn : ∀ p, loc = .file p → p.normalize = p)
    (h : (inMemory files remote settings).load loc = .ok text) :
    (loc.id, text.length) ∈ memoryTexts files remote := by
  rw [memoryTexts, List.mem_append]
  cases loc with
  | file p =>
    refine .inl (List.mem_map.mpr ⟨_, MemoryFiles.mem_entries_of_read h, ?_⟩)
    rw [MemoryFiles.key, hn p rfl]
  | remote ref =>
    cases remote with
    | none => cases h
    | some d => exact .inr (List.mem_map.mpr ⟨_, Remote.mem_entries_of_fetch h, rfl⟩)

theorem readsFrom_inMemory (files : MemoryFiles) (remote : Option (Dict String))
    (settings : ResolverSettings) :
    (inMemory files remote settings).ReadsFrom (memoryTexts files remote) := by
  intro loc raw target text hl ht
  refine mem_memoryTexts (fun p hp => ?_) ht
  rw [hp] at hl
  exact (isFile_of_locate hl).2

theorem normalize_rootLocation {r : Resolver} {root p : Path} (h : r.rootLocation root = .file p) :
    p.normalize = p := by
  unfold rootLocation at h
  split at h
  · cases h
  · cases h
    exact Path.normalize_normalize _

/-- **Strict and lenient flattening agree.** For sources in memory and a root that can be read, the
lenient result has no diagnostic exactly if there is a strict result, which is then the same one.
Otherwise the strict error is the one that the first lenient diagnostic reports. As long as the
sources have fewer characters than a 64-bit number can count, the number of unresolved imports that
the lenient result gives tells which. -/
theorem flatten_strict_iff (files : MemoryFiles) (remote : Option (Dict String))
    (dirs : List String) (root : Path) (text : String) :
    let lenient := inMemory files remote { dependencyDirs := dirs, strict := false }
    let strict := inMemory files remote { dependencyDirs := dirs, strict := true }
    lenient.load (lenient.rootLocation root) = .ok text →
    ∃ out, lenient.flatten root = .ok out ∧
      ((∃ out', strict.flatten root = .ok out') ↔ out.diagnostics = []) ∧
      (out.diagnostics = [] → strict.flatten root = .ok out) ∧
      (∀ d more, out.diagnostics = d :: more →
        ∃ e, strict.flatten root = .error e ∧ e.ReportedAs d) ∧
      (lenient.view.size + lenient.remote.size < UInt64.size →
        ((∃ out', strict.flatten root = .ok out') ↔ out.unresolvedCount = 0)) := by
  intro lenient strict hload
  obtain ⟨g, hg⟩ :=
    visit_ok (bounded_inMemory files remote _ rfl) (card_memoryIds files remote _) hload
  have hagree := flatten_agrees (r := lenient) hg
  -- either way, there is a strict result exactly if there is no diagnostic
  have hiff : (∃ out', strict.flatten root = .ok out') ↔ g.diagnostics = [] := by
    rcases hagree with ⟨hd, hok⟩ | ⟨d, more, e, hd, herr, -⟩
    · exact ⟨fun _ => hd, fun _ => ⟨_, hok⟩⟩
    · refine ⟨fun ⟨out', hok⟩ => ?_, fun hnil => ?_⟩
      · cases herr.symm.trans hok
      · cases hd.symm.trans hnil
  refine ⟨g.flattened, flatten_of_visit hg, hiff, fun hnil => ?_, fun d more hd => ?_,
    fun hfits => ?_⟩
  · rcases hagree with ⟨-, hok⟩ | ⟨d, more, e, hd, -, -⟩
    · exact hok
    · cases hd.symm.trans hnil
  · rcases hagree with ⟨hnil, -⟩ | ⟨d', more', e, hd', herr, hr⟩
    · cases hd.symm.trans hnil
    · cases hd.symm.trans hd'
      exact ⟨e, herr, hr⟩
  · have hroot := mem_memoryTexts (fun p => normalize_rootLocation) hload
    have hlen := length_diagnostics_of_visit (readsFrom_inMemory files remote _) hload hroot hg
    have hsum := unread_memoryTexts_le files remote { dependencyDirs := dirs, strict := false }
    rw [hiff, Graph.unresolvedCount_flattened_eq_zero_iff ((hlen.trans hsum).trans_lt hfits)]

/-- A root whose first import is found, and is lost in turn for an import that is not. -/
def halfResolved : MemoryFiles :=
  .ofList [("Main.sol", "import \"./A.sol\"; import \"github.com/o/r/B.sol\";"),
    ("A.sol", "import \"./Missing.sol\";")]

/-- Two diagnostics are left, and the strict error is the first of them. -/
theorem flatten_strict_iff_halfResolved :
    let lenient := inMemory halfResolved none { dependencyDirs := ["lib"], strict := false }
    let strict := inMemory halfResolved none { dependencyDirs := ["lib"], strict := true }
    (∃ text, lenient.load (lenient.rootLocation ⟨"Main.sol"⟩) = .ok text) ∧
    ∃ out, lenient.flatten ⟨"Main.sol"⟩ = .ok out ∧
      out.diagnostics.map (fun d => (d.importer, d.target, d.code)) =
        [("A.sol", "./Missing.sol", "unresolved_import"),
         ("Main.sol", "github.com/o/r/B.sol", "remote_fetch_failed")] ∧
      strict.flatten ⟨"Main.sol"⟩ = .error (.unresolved "A.sol" "./Missing.sol") ∧
      ((∃ out', strict.flatten ⟨"Main.sol"⟩ = .ok out') ↔ out.diagnostics = []) ∧
      (out.diagnostics = [] → strict.flatten ⟨"Main.sol"⟩ = .ok out) ∧
      (∀ d more, out.diagnostics = d :: more →
        ∃ e, strict.flatten ⟨"Main.sol"⟩ = .error e ∧ e.ReportedAs d) ∧
      lenient.view.size + lenient.remote.size < UInt64.size ∧
      ((∃ out', strict.flatten ⟨"Main.sol"⟩ = .ok out') ↔ out.unresolvedCount = 0) := by
  intro lenient strict
  have hload : lenient.load (lenient.rootLocation ⟨"Main.sol"⟩) =
      .ok "import \"./A.sol\"; import \"github.com/o/r/B.sol\";" := by decide +kernel
  have hfits : lenient.view.size + lenient.remote.size < UInt64.size := by decide +kernel
  have hleft : (lenient.flatten ⟨"Main.sol"⟩).map
        (·.diagnostics.map fun d => (d.importer, d.target, d.code)) =
      .ok [("A.sol", "./Missing.sol", "unresolved_import"),
        ("Main.sol", "github.com/o/r/B.sol", "remote_fetch_failed")] := by decide +kernel
  obtain ⟨out, hok, hiff, hsame, hfirst, hcount⟩ :=
    flatten_strict_iff halfResolved none ["lib"] ⟨"Main.sol"⟩ _ hload
  replace hok : lenient.flatten ⟨"Main.sol"⟩ = .ok out := hok
  rw [hok] at hleft
  have hlist := Except.ok.inj hleft
  obtain ⟨d, more, hcons, hd, -⟩ := List.map_eq_cons_iff.mp hlist
  obtain ⟨e, herror, hreported⟩ := hfirst d more hcons
  have hstrict : strict.flatten ⟨"Main.sol"⟩ = .error (.unresolved "A.sol" "./Missing.sol") := by
    cases hreported with
    | unresolved importer target =>
      cases hd
      exact herror
    | remote importer target cause => simp at hd
  exact ⟨⟨_, hload⟩, out, hok, hlist, hstrict, hiff, hsame, hfirst, hfits, hcount hfits⟩

end Resolver

end ContractBuild
