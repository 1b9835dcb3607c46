import ContractBuild.Proofs.Run.Trail
import Mathlib.Data.List.Chain

/-!
# What a run has tried

Every attempt of a run has a place: the position of its strategy in the settings, and the index of
its configuration.

- **Places** (`Placed`, `Covers`): the first attempt of a strategy has the index 0. After an attempt
  without repair the next one of its strategy has the next index, after a repair the same one.
- **What lies behind** (`GoneThrough`): when a run gets to a strategy (`Run.Reaches`), every
  strategy before it has been gone through: each configuration was attempted and failed, or the
  build failed, or there is no build tool.
- **Whole runs** (`orchestrate_covers`): the attempts of a run have such places, and a run that
  ends because all strategies are exhausted has gone through all of them.
-/

namespace ContractBuild

/-! ## Places -/

/-- Whether a strategy goes through the configurations. -/
def Strategy.isConfigDriven : Strategy → Bool
  | sandbox => false
  | _ => true

/-- An attempt with its place. -/
structure Placed where
  record : CompilationAttempt
  /-- The position of its strategy. -/
  position : Nat
  /-- The index of its configuration. -/
  index : Nat

/-- The index of the next attempt of the same strategy. -/
def Placed.nextIndex (x : Placed) : Nat :=
  if x.record.fixesApplied.isEmpty then x.index + 1 else x.index

/-- `GoneThrough settings hasSandbox placed q`: all that the strategy at position `q` can try is
among the attempts `placed`, and failed. -/
def GoneThrough (settings : RunSettings) (hasSandbox : Bool) (placed : List Placed) (q : Nat) :
    Prop :=
  ∀ s, settings.strategies[q]? = some s →
    if s.isConfigDriven then
      ∀ i < settings.configs.length,
        ∃ x ∈ placed, x.position = q ∧ x.index = i ∧ x.record.status ≠ .succeeded
    else hasSandbox = false ∨ ∃ x ∈ placed, x.position = q ∧ x.record.status ≠ .succeeded

/-- The places of attempts follow the settings. -/
structure Covers (settings : RunSettings) (hasSandbox : Bool) (placed : List Placed) : Prop where
  strategy : ∀ x ∈ placed, settings.strategies[x.position]? = some x.record.strategy
  config : ∀ x ∈ placed, x.record.strategy.isConfigDriven →
    ∃ config, settings.configs[x.index]? = some config ∧ x.record.config = some config
  /-- The first attempt of a strategy is for the first configuration. -/
  first : ∀ q x, placed.find? (·.position == q) = some x → x.index = 0
  /-- The next attempt of the same strategy is for the next configuration, or for the same one
  after a repair. -/
  next : placed.IsChain fun x y => y.position = x.position → y.index = x.nextIndex
  ordered : placed.Pairwise (·.position ≤ ·.position)
  /-- Before the first attempt of a strategy all strategies before it are gone through. -/
  earlier : ∀ i x, placed[i]? = some x →
    ∀ q < x.position, GoneThrough settings hasSandbox (placed.take i) q

theorem GoneThrough.mono {settings : RunSettings} {hasSandbox : Bool} {as bs : List Placed}
    {q : Nat} (h : GoneThrough settings hasSandbox as q) (hsub : as ⊆ bs) :
    GoneThrough settings hasSandbox bs q := by
  intro s hs
  have h := h s hs
  split at h
  · rename_i hd
    rw [if_pos hd]
    intro i hi
    obtain ⟨x, hx, hrest⟩ := h i hi
    exact ⟨x, hsub hx, hrest⟩
  · rename_i hd
    rw [if_neg hd]
    rcases h with hno | ⟨x, hx, hrest⟩
    · exact .inl hno
    · exact .inr ⟨x, hsub hx, hrest⟩

/-! ## The attempts of one strategy -/

/-- Gives attempts of the strategy at position `q` their places, from index `i` on. -/
def placeFrom (q i : Nat) : List CompilationAttempt → List Placed
  | [] => []
  | a :: as => ⟨a, q, i⟩ :: placeFrom q (Placed.nextIndex ⟨a, q, i⟩) as

theorem getElem?_of_cons_eq_drop {α : Type} {x : α} {rest l : List α} {i : Nat}
    (h : x :: rest = l.drop i) : l[i]? = some x := by
  rw [← List.head?_drop, ← h, List.head?_cons]

theorem eq_drop_of_cons_eq_drop {α : Type} {x : α} {rest l : List α} {i : Nat}
    (h : x :: rest = l.drop i) : rest = l.drop (i + 1) := by
  rw [← List.tail_drop, ← h, List.tail_cons]

section

variable {q i : Nat} {as : List CompilationAttempt}

@[simp] theorem map_record_placeFrom : (placeFrom q i as).map (·.record) = as := by
  induction as generalizing i with
  | nil => rfl
  | cons a as ih => simp [placeFrom, ih]

theorem position_of_mem_placeFrom {x : Placed} (hx : x ∈ placeFrom q i as) : x.position = q := by
  induction as generalizing i with
  | nil => cases hx
  | cons a as ih =>
    rcases List.mem_cons.mp hx with rfl | hx
    · rfl
    · exact ih hx

theorem index_of_find?_placeFrom {x : Placed} {r : Nat}
    (hx : (placeFrom q i as).find? (·.position == r) = some x) : x.index = i := by
  cases as with
  | nil => cases hx
  | cons a as =>
    have hq : x.position = q := position_of_mem_placeFrom (List.mem_of_find?_eq_some hx)
    have hr : x.position = r := by simpa using List.find?_some hx
    rw [placeFrom, List.find?_cons_of_pos (by simp [← hq, hr])] at hx
    cases hx
    rfl

theorem isChain_placeFrom : (placeFrom q i as).IsChain fun x y => y.index = x.nextIndex := by
  induction as generalizing i with
  | nil => exact .nil
  | cons a as ih =>
    cases as with
    | nil => exact .singleton _
    | cons b as => exact .cons_cons rfl ih

end

namespace Run

/-- A sweep tries the configurations at the indices of its attempts. -/
theorem SweepTrail.config {s : Strategy} {configs rest : List CompilerConfig}
    {as : List CompilationAttempt} {res : Except RunError (Option CompileSuccess)} {q i : Nat}
    (h : SweepTrail s rest as res) (hrest : rest = configs.drop i) :
    ∀ x ∈ placeFrom q i as, x.record.strategy = s ∧
      ∃ config, configs[x.index]? = some config ∧ x.record.config = some config := by
  induction h generalizing i with
  | finished => exact nofun
  | ended => exact nofun
  | succeeded hs hc _ =>
    intro x hx
    cases List.mem_singleton.mp hx
    exact ⟨hs, _, getElem?_of_cons_eq_drop hrest, hc⟩
  | again hs hc _ hfix _ ih =>
    intro x hx
    rcases List.mem_cons.mp hx with rfl | hx
    · exact ⟨hs, _, getElem?_of_cons_eq_drop hrest, hc⟩
    · rw [Placed.nextIndex, if_neg (by simpa using hfix)] at hx
      exact ih hrest x hx
  | next hs hc _ hfix _ ih =>
    intro x hx
    rcases List.mem_cons.mp hx with rfl | hx
    · exact ⟨hs, _, getElem?_of_cons_eq_drop hrest, hc⟩
    · rw [Placed.nextIndex, if_pos (by simpa using hfix)] at hx
      exact ih (eq_drop_of_cons_eq_drop hrest) x hx

/-- A sweep that comes to its end has tried every configuration. -/
theorem SweepTrail.attempted {s : Strategy} {configs rest : List CompilerConfig}
    {as : List CompilationAttempt} {q i j : Nat} (h : SweepTrail s rest as (.ok none))
    (hrest : rest = configs.drop i) (hij : i ≤ j) (hj : j < configs.length) :
    ∃ x ∈ placeFrom q i as, x.index = j ∧ x.record.status ≠ .succeeded := by
  generalize hres : (Except.ok none : Except RunError (Option CompileSuccess)) = res at h
  induction h generalizing i with
  | finished =>
    have := List.drop_eq_nil_iff.mp hrest.symm
    omega
  | ended => cases hres
  | succeeded => cases hres
  | @again config rest a as res hs hc hf hfix _ ih =>
    obtain ⟨x, hx, hrest⟩ := ih hrest hij hres
    refine ⟨x, List.mem_cons_of_mem _ ?_, hrest⟩
    rwa [Placed.nextIndex, if_neg (by simpa using hfix)]
  | @next config rest a as res hs hc hf hfix _ ih =>
    rcases Nat.eq_or_lt_of_le hij with rfl | hlt
    · exact ⟨_, List.mem_cons_self, rfl, hf⟩
    · obtain ⟨x, hx, hrest⟩ := ih (eq_drop_of_cons_eq_drop hrest) hlt hres
      refine ⟨x, List.mem_cons_of_mem _ ?_, hrest⟩
      rwa [Placed.nextIndex, if_pos (by simpa using hfix)]

variable {σ : Type} {c : RunContext σ}

theorem StrategyTrail.config {s : Strategy} {as : List CompilationAttempt}
    {res : Except RunError (Option CompileSuccess)} {q : Nat} (h : StrategyTrail c s as res) :
    ∀ x ∈ placeFrom q 0 as, x.record.strategy = s ∧ (s.isConfigDriven → ∃ config,
      c.settings.configs[x.index]? = some config ∧ x.record.config = some config) := by
  intro x hx
  cases h with
  | ended => cases hx
  | swept _ ht =>
    obtain ⟨hs, hc⟩ := ht.config rfl x hx
    exact ⟨hs, fun _ => hc⟩
  | absent => cases hx
  | built hs =>
    cases List.mem_singleton.mp hx
    exact ⟨hs, nofun⟩
  | broken hs =>
    cases List.mem_singleton.mp hx
    exact ⟨hs, nofun⟩

/-- A strategy that ends without a result is gone through. -/
theorem StrategyTrail.goneThrough {s : Strategy} {as : List CompilationAttempt} {q : Nat}
    (h : StrategyTrail c s as (.ok none)) (hs : c.settings.strategies[q]? = some s) :
    GoneThrough c.settings c.surroundings.sandbox.isSome (placeFrom q 0 as) q := by
  intro s' hs'
  cases Option.some.inj (hs.symm.trans hs')
  cases h with
  | swept hne ht =>
    have hd : s.isConfigDriven = true := by
      cases s with
      | sandbox => exact absurd rfl hne
      | _ => rfl
    rw [if_pos hd]
    intro i hi
    obtain ⟨x, hx, hindex, hf⟩ := ht.attempted (q := q) rfl (Nat.zero_le i) hi
    exact ⟨x, hx, position_of_mem_placeFrom hx, hindex, hf⟩
  | absent hno => exact .inl (by simp [hno])
  | broken _ hf _ => exact .inr ⟨_, List.mem_singleton.mpr rfl, rfl, hf⟩

end Run

/-! ## From strategy to strategy -/

/-- `Behind settings hasSandbox placed q`: the attempts `placed` lie behind a run that gets to the
strategy at position `q`. -/
structure Behind (settings : RunSettings) (hasSandbox : Bool) (placed : List Placed) (q : Nat) :
    Prop where
  covers : Covers settings hasSandbox placed
  before : ∀ x ∈ placed, x.position < q
  gone : ∀ r < q, GoneThrough settings hasSandbox placed r

namespace Behind

variable {settings : RunSettings} {hasSandbox : Bool} {placed : List Placed} {q : Nat}

theorem nil : Behind settings hasSandbox [] 0 where
  covers :=
    { strategy := by simp, config := by simp, first := by simp, next := .nil, ordered := .nil
      earlier := by simp }
  before := by simp
  gone := by simp

/-- The attempts of the strategy at position `q` find their places after those behind it. -/
theorem append (h : Behind settings hasSandbox placed q) {s : Strategy}
    {as : List CompilationAttempt} (hs : settings.strategies[q]? = some s)
    (has : ∀ x ∈ placeFrom q 0 as, x.record.strategy = s ∧ (s.isConfigDriven → ∃ config,
      settings.configs[x.index]? = some config ∧ x.record.config = some config)) :
    Covers settings hasSandbox (placed ++ placeFrom q 0 as) where
  strategy x hx := by
    rcases List.mem_append.mp hx with hx | hx
    · exact h.covers.strategy x hx
    · rw [position_of_mem_placeFrom hx, hs, (has x hx).1]
  config x hx hd := by
    rcases List.mem_append.mp hx with hx | hx
    · exact h.covers.config x hx hd
    · obtain ⟨rfl, hc⟩ := has x hx
      exact hc hd
  first r x hx := by
    rw [List.find?_append, Option.or_eq_some_iff] at hx
    rcases hx with hx | ⟨-, hx⟩
    · exact h.covers.first r x hx
    · exact index_of_find?_placeFrom hx
  next := by
    refine h.covers.next.append (isChain_placeFrom.imp fun _ _ hxy _ => hxy) ?_
    intro x hx y hy hxy
    have hlt := h.before x (List.mem_of_getLast? hx)
    rw [← hxy, position_of_mem_placeFrom (List.mem_of_head? hy)] at hlt
    exact absurd hlt (Nat.lt_irrefl q)
  ordered := by
    refine List.pairwise_append.mpr ⟨h.covers.ordered, ?_, ?_⟩
    · refine List.pairwise_of_forall_mem_list fun x hx y hy => ?_
      rw [position_of_mem_placeFrom hx, position_of_mem_placeFrom hy]
    · intro x hx y hy
      rw [position_of_mem_placeFrom hy]
      exact (h.before x hx).le
  earlier i x hx r hr := by
    rcases Nat.lt_or_ge i placed.length with hi | hi
    · rw [List.getElem?_append_left hi] at hx
      rw [List.take_append_of_le_length hi.le]
      exact h.covers.earlier i x hx r hr
    · rw [List.getElem?_append_right hi] at hx
      rw [position_of_mem_placeFrom (List.mem_of_getElem? hx)] at hr
      refine (h.gone r hr).mono fun y hy => ?_
      rw [List.take_append, List.take_of_length_le hi]
      exact List.mem_append_left _ hy

/-- Once a strategy is gone through, its attempts lie behind as well. -/
theorem succ (h : Behind settings hasSandbox placed q) {as : List CompilationAttempt}
    (hc : Covers settings hasSandbox (placed ++ placeFrom q 0 as))
    (hg : GoneThrough settings hasSandbox (placeFrom q 0 as) q) :
    Behind settings hasSandbox (placed ++ placeFrom q 0 as) (q + 1) where
  covers := hc
  before x hx := by
    rcases List.mem_append.mp hx with hx | hx
    · exact Nat.lt_succ_of_lt (h.before x hx)
    · rw [position_of_mem_placeFrom hx]
      exact Nat.lt_succ_self q
  gone r hr := by
    rcases Nat.lt_succ_iff_lt_or_eq.mp hr with hr | rfl
    · exact (h.gone r hr).mono (List.subset_append_left ..)
    · exact hg.mono (List.subset_append_right ..)

end Behind

namespace Run

variable {σ : Type} {c : RunContext σ} {root : Path}

/-- `Reaches c root ss p q p'`: a run that goes through the strategies `ss` from `p` gets to the
position `q` among them, and is then at `p'`. -/
inductive Reaches (c : RunContext σ) (root : Path) : List Strategy → RunProgress σ → Nat →
    RunProgress σ → Prop where
  | here {ss : List Strategy} {p : RunProgress σ} : Reaches c root ss p 0 p
  | later {s : Strategy} {rest : List Strategy} {q : Nat} {p p₁ p' : RunProgress σ} :
      exec (strategy c root rest.isEmpty s) p = (.ok none, p₁) → Reaches c root rest p₁ q p' →
      Reaches c root (s :: rest) p (q + 1) p'

/-- A run does not get past a strategy that ends it. -/
theorem Reaches.eq_of_ne {s : Strategy} {rest : List Strategy} {q : Nat} {p p₁ p' : RunProgress σ}
    {res : Except RunError (Option CompileSuccess)} (h : Reaches c root (s :: rest) p q p₁)
    (hs : exec (strategy c root rest.isEmpty s) p = (res, p')) (hne : res ≠ .ok none) :
    q = 0 ∧ p₁ = p := by
  cases h with
  | here => exact ⟨rfl, rfl⟩
  | later hnone _ =>
    rw [hs] at hnone
    cases hnone
    exact absurd rfl hne

/-- `Covered c root ss q p placed p'`: `placed` are the places of all attempts of a run that comes
to the strategies `ss`, from position `q` on, at `p` and ends at `p'`. -/
structure Covered (c : RunContext σ) (root : Path) (ss : List Strategy) (q : Nat)
    (p : RunProgress σ) (placed : List Placed) (p' : RunProgress σ) : Prop where
  record : placed.map (·.record) = p'.log.attempts
  covers : Covers c.settings c.surroundings.sandbox.isSome placed
  reached : ∀ r p₁, Reaches c root ss p r p₁ → ∃ part, part <+: placed ∧
    part.map (·.record) = p₁.log.attempts ∧
    Behind c.settings c.surroundings.sandbox.isSome part (q + r)

/-- The attempts of the strategies from position `q` on find their places after those behind. -/
theorem strategies_covered {ss : List Strategy} {q : Nat} {placed : List Placed}
    {p p' : RunProgress σ} {res : Except RunError CompileSuccess}
    (h : exec (strategies c root ss) p = (res, p')) (hss : ss = c.settings.strategies.drop q)
    (hp : placed.map (·.record) = p.log.attempts)
    (hbehind : Behind c.settings c.surroundings.sandbox.isSome placed q) :
    ∃ placed', placed <+: placed' ∧ Covered c root ss q p placed' p' ∧
      (∀ n, res = .error (.strategiesExhausted n) → ∀ r < c.settings.strategies.length,
        GoneThrough c.settings c.surroundings.sandbox.isSome placed' r) := by
  induction ss generalizing q placed p with
  | nil =>
    cases h
    refine ⟨placed, List.prefix_rfl, ⟨hp, hbehind.covers, ?_⟩, ?_⟩
    · rintro r p₁ ⟨⟩
      exact ⟨placed, List.prefix_rfl, hp, hbehind⟩
    · intro n _ r hr
      have hq := List.drop_eq_nil_iff.mp hss.symm
      exact hbehind.gone r (by omega)
  | cons s rest ih =>
    have hs : c.settings.strategies[q]? = some s := getElem?_of_cons_eq_drop hss
    rcases hstrategy : exec (strategy c root rest.isEmpty s) p with ⟨res₁, p₁⟩
    obtain ⟨as, hgains, htrail⟩ := (tried_of_strategy hstrategy).trail
    have hcovers := hbehind.append hs htrail.config
    have hrecord : (placed ++ placeFrom q 0 as).map (·.record) = p₁.log.attempts := by
      rw [List.map_append, hp, map_record_placeFrom, hgains.attempts]
    -- unless the strategy ends without a result, it is the last one of the run
    have hlast (hne : res₁ ≠ .ok none) :
        Covered c root (s :: rest) q p (placed ++ placeFrom q 0 as) p₁ := by
      refine ⟨hrecord, hcovers, fun r p₂ hr => ?_⟩
      obtain ⟨rfl, rfl⟩ := hr.eq_of_ne hstrategy hne
      exact ⟨placed, List.prefix_append .., hp, hbehind⟩
    rw [strategies, exec_bind, hstrategy] at h
    match res₁ with
    | .error e =>
      cases h
      refine ⟨_, List.prefix_append .., hlast nofun, ?_⟩
      rintro n ⟨⟩
      cases htrail.ofStrategy
    | .ok (some success) =>
      cases h
      exact ⟨_, List.prefix_append .., hlast nofun, nofun⟩
    | .ok none =>
      have hnext := hbehind.succ hcovers (htrail.goneThrough hs)
      obtain ⟨placed', hprefix, hcovered, hgone⟩ :=
        ih h (eq_drop_of_cons_eq_drop hss) hrecord hnext
      have hprefix' := (List.prefix_append placed (placeFrom q 0 as)).trans hprefix
      refine ⟨placed', hprefix', ⟨hcovered.record, hcovered.covers, ?_⟩, hgone⟩
      intro r p₂ hr
      cases hr with
      | here => exact ⟨placed, hprefix', hp, hbehind⟩
      | @later _ _ r _ p₃ _ hnone hr =>
        rw [hstrategy] at hnone
        cases hnone
        obtain ⟨part, hpart, hmap, hb⟩ := hcovered.reached r p₂ hr
        exact ⟨part, hpart, hmap, by rwa [Nat.add_comm r 1, ← Nat.add_assoc]⟩

/-- A run that begins with no attempts is covered from its first strategy on. -/
theorem all_covered {p p' : RunProgress σ} {res : Except RunError CompileSuccess}
    (h : exec (all c root) p = (res, p')) (hp : p.log.attempts = []) :
    ∃ placed, Covered c root c.settings.strategies 0 p placed p' ∧
      (∀ n, res = .error (.strategiesExhausted n) → ∀ r < c.settings.strategies.length,
        GoneThrough c.settings c.surroundings.sandbox.isSome placed r) := by
  have hp : ([] : List Placed).map (·.record) = p.log.attempts := hp.symm
  unfold all at h
  rcases exec_bind_cases h with ⟨success, p₁, hs, h⟩ | ⟨e, hs, rfl⟩
  · obtain ⟨placed, -, hcovered, -⟩ := strategies_covered hs rfl hp .nil
    rcases withMain_cases h with ⟨main, rfl, rfl⟩ | ⟨name, available, rfl, rfl⟩
    · exact ⟨placed, hcovered, nofun⟩
    · exact ⟨placed, ⟨hcovered.record, hcovered.covers, hcovered.reached⟩, nofun⟩
  · obtain ⟨placed, -, hcovered, hgone⟩ := strategies_covered hs rfl hp .nil
    exact ⟨placed, hcovered, fun n he => hgone n (by cases he; rfl)⟩

end Run

/-! ## Whole runs -/

/-- What a message begins with, it still begins with when it goes on. -/
theorem opens_append {w m t : String} (h : w.toList <+: m.toList) :
    w.toList <+: (m ++ t).toList := by
  rw [String.toList_append]
  exact h.trans (List.prefix_append ..)

/-- What the messages of errors begin with, but for the one that tells that all strategies are
exhausted. -/
def RunError.openings : List String :=
  ["attempt budget of ", "wall-clock budget of ", "cancelled", "cannot read ",
    "unresolved import \"", "remote import \"", "endless imports at ", "sandbox setup failed: ",
    "failed to run `", "sandbox build exited with ", "sandbox build produced no artifacts under ",
    "contract `"]

theorem ResolutionError.message_opens (e : ResolutionError) :
    ∃ w ∈ RunError.openings, w.toList <+: e.message.toList := by
  cases e with
  | read path cause =>
    refine ⟨"cannot read ", by decide, ?_⟩
    exact opens_append (opens_append (opens_append List.prefix_rfl))
  | unresolved importer target =>
    refine ⟨"unresolved import \"", by decide, ?_⟩
    exact opens_append (opens_append (opens_append List.prefix_rfl))
  | remote importer target cause =>
    refine ⟨"remote import \"", by decide, ?_⟩
    exact opens_append (opens_append (opens_append (opens_append (opens_append List.prefix_rfl))))
  | endless path =>
    refine ⟨"endless imports at ", by decide, ?_⟩
    exact opens_append List.prefix_rfl

theorem SandboxError.message_opens (e : SandboxError) :
    ∃ w ∈ RunError.openings, w.toList <+: e.message.toList := by
  cases e with
  | setup cause =>
    refine ⟨"sandbox setup failed: ", by decide, ?_⟩
    exact opens_append List.prefix_rfl
  | spawn program cause =>
    refine ⟨"failed to run `", by decide, ?_⟩
    exact opens_append (opens_append (opens_append List.prefix_rfl))
  | exited status output =>
    refine ⟨"sandbox build exited with ", by decide, ?_⟩
    exact opens_append (opens_append (opens_append List.prefix_rfl))
  | noArtifacts dir =>
    refine ⟨"sandbox build produced no artifacts under ", by decide, ?_⟩
    exact opens_append List.prefix_rfl

theorem RunError.message_opens {e : RunError} (h : ∀ n, e ≠ .strategiesExhausted n) :
    ∃ w ∈ openings, w.toList <+: e.message.toList := by
  cases e with
  | strategiesExhausted n => exact absurd rfl (h n)
  | budgetExhausted max =>
    refine ⟨"attempt budget of ", by decide, ?_⟩
    exact opens_append (opens_append List.prefix_rfl)
  | timeout budget =>
    refine ⟨"wall-clock budget of ", by decide, ?_⟩
    exact opens_append (opens_append List.prefix_rfl)
  | cancelled => exact ⟨"cancelled", by decide, List.prefix_rfl⟩
  | resolution e => exact e.message_opens
  | sandbox e => exact e.message_opens
  | contractNotFound name available =>
    refine ⟨"contract `", by decide, ?_⟩
    exact opens_append (opens_append (opens_append (opens_append List.prefix_rfl)))

/-- Only one error tells that all strategies are exhausted. -/
theorem RunError.eq_strategiesExhausted {e : RunError}
    (h : "all strategies exhausted".toList <+: e.message.toList) :
    ∃ n, e = .strategiesExhausted n := by
  have hne : ∀ w ∈ openings, ¬ ("all strategies exhausted".toList <+: w.toList ∨
      w.toList <+: "all strategies exhausted".toList) := by decide
  by_contra hall
  obtain ⟨w, hw, hopens⟩ := message_opens fun n he => hall ⟨n, he⟩
  exact hne w hw (List.prefix_or_prefix_of_prefix h hopens)

/-- **Covered runs.** The attempts of a run have places: nothing is skipped, and only a repaired
text is tried again for the same configuration. When the run gets to a strategy, all strategies
before it have been gone through. A run that ends because all strategies are exhausted has gone
through every one of them. -/
theorem orchestrate_covers {σ : Type} (settings : RunSettings) (surroundings : Surroundings σ)
    (root : Path) (state : σ) :
    ∃ placed : List Placed,
      placed.map (·.record) = (orchestrate settings surroundings root state).1.attempts ∧
      Covers settings surroundings.sandbox.isSome placed ∧
      (∀ q p, Run.Reaches (.begin settings surroundings state) root settings.strategies
          (.begin surroundings state) q p →
        ∃ part, part <+: placed ∧ part.map (·.record) = p.log.attempts ∧
          ∀ r < q, GoneThrough settings surroundings.sandbox.isSome part r) ∧
      (∀ f, (orchestrate settings surroundings root state).1.outcome = .failure f →
        "all strategies exhausted".toList <+: f.message.toList →
        ∀ q < settings.strategies.length,
          GoneThrough settings surroundings.sandbox.isSome placed q) := by
  rw [orchestrate_eq]
  rcases hrun : Run.exec (Run.all (.begin settings surroundings state) root)
    (.begin surroundings state) with ⟨res, p⟩
  obtain ⟨placed, hcovered, hgone⟩ := Run.all_covered hrun rfl
  refine ⟨placed, ?_, hcovered.covers, ?_, ?_⟩
  · cases res <;> exact hcovered.record
  · intro q p₁ hq
    obtain ⟨part, hprefix, hrecord, hbehind⟩ := hcovered.reached q p₁ hq
    exact ⟨part, hprefix, hrecord, fun r hr => hbehind.gone r (by omega)⟩
  · intro f hf hmessage
    cases res with
    | ok success => cases hf
    | error e =>
      cases hf
      obtain ⟨n, rfl⟩ := RunError.eq_strategiesExhausted hmessage
      exact hgone n rfl

end ContractBuild
