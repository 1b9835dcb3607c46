import ContractBuild.Proofs.Collection.Worklist
import ContractBuild.Proofs.Run.Trials

/-!
# Where the texts of a run come from

- **What a strategy starts from**: the root unit is among the units that are collected for it
  (`UnitLookup.contains_rootUnit_of_run`), so a sweep starts with a text for it.
- **From text to text** (`Run.Trial.LeadsTo`): how the text of a trial comes from the one before it.
  `Run.Faithful` says it of a whole sweep.
- **Visits** (`Run.Visit`): the strategies that a run enters, each with what it submits and with the
  classes that are carried over to it. `Run.Here` says what one strategy adds, and `Run.Visits` goes
  through the strategies as the run does.
- **Whole runs**: `orchestrate_provenance`.
-/

namespace ContractBuild

/-! ## What is collected -/

/-- A sweep starts with a text for the root unit. -/
theorem Run.Sweep.Starts.get?_rootUnit {r : Resolver} {root : Path} {s : Run.Sweep}
    (h : s.Starts r root) : s.sources.get? s.rootUnit = some s.initial := by
  have hcontains : s.sources.contains s.rootUnit = true := by
    cases h with
    | directImport hc => exact UnitLookup.contains_rootUnit_of_run hc
    | flattenCompile => simp [Dict.contains_insert]
  rw [Dict.contains_eq_isSome_get?] at hcontains
  obtain ⟨text, htext⟩ := Option.isSome_iff_exists.mp hcontains
  rw [Run.Sweep.initial, htext, Option.getD_some]

namespace Run

/-! ## From text to text -/

variable {settings : RunSettings} {i : Nat} {candidate : Candidate} {ts : List Trial}

/-- How the text of one trial comes from that of the trial before it. The broad sweep of rules comes
in only where `isBroad` allows it. -/
def Trial.LeadsTo (t : Trial) (isBroad : Prop) (u : Trial) : Prop :=
  u.text = t.text ∨
  (t.verdict.status = .compileErrors ∧
    u.text = (fixClasses t.text (classify t.verdict.diagnostics)).text) ∨
  (isBroad ∧ classify t.verdict.diagnostics = [] ∧
    u.text = (fixClasses t.text [.aggressive]).text)

theorem Trial.LeadsTo.mono {t u : Trial} {P Q : Prop} (h : t.LeadsTo P u) (hPQ : P → Q) :
    t.LeadsTo Q u :=
  h.imp_right (Or.imp_right (And.imp_left hPQ))

/-- The candidate after a trial. -/
theorem Trial.repaired (settings : RunSettings) (t : Trial) :
    Repaired settings t.candidate t.verdict (t.repair settings) :=
  t.candidate.repaired settings t.verdict

theorem Trial.repair_of_off (hauto : settings.autoFix = false) (t : Trial) :
    t.repair settings = ⟨[], { text := t.text }, t.candidate.sweptBroadly⟩ := by
  simp [Trial.repair, Candidate.repair, hauto, Trial.text]

namespace Trials

theorem head (h : Trials settings i candidate ts) {t : Trial} (ht : ts[0]? = some t) :
    t.candidate = candidate := by
  cases h with
  | done => cases ht
  | next =>
    cases ht
    rfl

theorem config (h : Trials settings i candidate ts) {t : Trial} (ht : t ∈ ts) :
    settings.configs[t.index]? = some t.config := by
  induction h with
  | done => cases ht
  | next hconfig _ ih =>
    rcases List.mem_cons.mp ht with rfl | ht
    · exact hconfig
    · exact ih ht

/-- One more trial in front. -/
theorem leadsTo_cons {t₀ : Trial} {broad broad' : Option Nat}
    (hfirst : ∀ u, ts[0]? = some u → t₀.LeadsTo (broad' = some 0) u)
    (hlater : ∀ k, broad = some k → broad' = some (k + 1))
    (h : ∀ k t u, ts[k]? = some t → ts[k + 1]? = some u → t.LeadsTo (broad = some k) u)
    (k : Nat) (t u : Trial) (ht : (t₀ :: ts)[k]? = some t) (hu : (t₀ :: ts)[k + 1]? = some u) :
    t.LeadsTo (broad' = some k) u := by
  cases k with
  | zero =>
    cases ht
    exact hfirst u hu
  | succ k => exact (h k t u ht hu).mono (hlater k)

/-- Every text comes from the one before it, and the broad sweep of rules comes in once at most. -/
theorem leadsTo (h : Trials settings i candidate ts) :
    ∃ broad : Option Nat, (candidate.sweptBroadly = true → broad = none) ∧
      ∀ k t u, ts[k]? = some t → ts[k + 1]? = some u → t.LeadsTo (broad = some k) u := by
  induction h with
  | done =>
    refine ⟨none, fun _ => rfl, fun k t u ht => ?_⟩
    cases ht
  | @next t₀ ts _ hrest ih =>
    obtain ⟨broad, hbroad, hleads⟩ := ih
    have hfirst (u : Trial) (hu : ts[0]? = some u) :
        u.text = (t₀.repair settings).outcome.text := by
      rw [Trial.text, hrest.head hu]
      rfl
    have hflag : (t₀.next settings).sweptBroadly = (t₀.repair settings).sweptBroadly := rfl
    have hrepaired := t₀.repaired settings
    rw [hflag] at hbroad
    generalize t₀.repair settings = r at hfirst hbroad hrepaired
    -- the broad sweep is tried after this trial, or it is left to the later ones
    cases hrepaired with
    | broad _ _ hnone hswept =>
      cases hbroad rfl
      exact ⟨some 0, fun h => absurd h (by simp [hswept]), leadsTo_cons
        (fun u hu => .inr (.inr ⟨rfl, hnone, hfirst u hu⟩)) (fun _ h => by cases h) hleads⟩
    | unasked =>
      exact ⟨broad.map (· + 1), fun h => by rw [hbroad h]; rfl, leadsTo_cons
        (fun u hu => .inl (hfirst u hu)) (fun k h => by rw [h]; rfl) hleads⟩
    | called _ hstatus =>
      exact ⟨broad.map (· + 1), fun h => by rw [hbroad h]; rfl, leadsTo_cons
        (fun u hu => .inr (.inl ⟨hstatus, hfirst u hu⟩)) (fun k h => by rw [h]; rfl) hleads⟩

/-- Without repairs every text is the first one. -/
theorem text_eq (h : Trials settings i candidate ts) (hauto : settings.autoFix = false) {t : Trial}
    (ht : t ∈ ts) : t.text = candidate.text := by
  induction h with
  | done => cases ht
  | @next t₀ ts _ _ ih =>
    rcases List.mem_cons.mp ht with rfl | ht
    · rfl
    · rw [ih ht, Trial.next, t₀.repair_of_off hauto]
      rfl

end Trials

/-! ## Visits -/

/-- What a run does at a strategy that it enters: a sweep with its trials, or a build. -/
inductive Work where
  | sweep (s : Sweep) (trials : List Trial)
  | build (collected : Collected) (answer : Except SandboxError ArtifactMap)

/-- A strategy that a run enters, with the classes that are carried over to it. -/
structure Visit where
  position : Nat
  carried : List FailureClass
  work : Work

namespace Visit

/-- The strategy that is entered. -/
def strategy (x : Visit) : Strategy :=
  match x.work with
  | .sweep s _ => s.strategy
  | .build _ _ => .sandbox

/-- The trials of a visit. -/
def trials (x : Visit) : List Trial :=
  match x.work with
  | .sweep _ ts => ts
  | .build _ _ => []

/-- The invocations of a visit. -/
def invocations (settings : RunSettings) (x : Visit) : List Exchange :=
  match x.work with
  | .sweep s ts => ts.map (·.invocation s)
  | .build collected answer => [.build (collected.request settings x.carried) answer]

end Visit

/-- Classes that are carried over: each was called for in a trial of the past. -/
structure CarriedFrom (past : List Trial) (carried : List FailureClass) : Prop where
  nodup : carried.Nodup
  origin : ∀ x ∈ carried, x ≠ .aggressive ∧ x ≠ .unclassified ∧ ∃ t ∈ past, t.CallsFor x

/-- The texts of a sweep are what its sources, the classes carried over to it and its own
diagnostics account for. -/
structure Faithful (settings : RunSettings) (carried : List FailureClass) (s : Sweep)
    (ts : List Trial) : Prop where
  trials : Trials settings 0 { text := (settings.prepare carried s.initial).text } ts
  /-- Only the root unit is ever replaced. -/
  units : ∀ t ∈ ts, (s.unitsWith t.text).get? s.rootUnit = some t.text ∧
    ∀ unit, unit ≠ s.rootUnit → (s.unitsWith t.text).get? unit = s.sources.get? unit
  config : ∀ t ∈ ts, settings.configs[t.index]? = some t.config
  initial : s.sources.get? s.rootUnit = some s.initial
  first : settings.autoFix = true → ∀ t, ts[0]? = some t →
    t.text = (fixClasses s.initial carried).text
  /-- The broad sweep of rules is tried once at most. -/
  next : ∃ broad : Option Nat, ∀ k t u, ts[k]? = some t → ts[k + 1]? = some u →
    t.LeadsTo (broad = some k) u
  unrepaired : settings.autoFix = false → ∀ t ∈ ts, t.text = s.initial

theorem Trials.faithful {r : Resolver} {root : Path} {s : Sweep} {carried : List FailureClass}
    (hstarts : s.Starts r root)
    (h : Trials settings 0 { text := (settings.prepare carried s.initial).text } ts) :
    Faithful settings carried s ts where
  trials := h
  units t _ := ⟨Dict.get?_insert_self .., fun _ hne => Dict.get?_insert_ne _ _ hne⟩
  config _ ht := h.config ht
  initial := hstarts.get?_rootUnit
  first hauto t ht := by
    rw [Trial.text, h.head ht, RunSettings.prepare, if_pos hauto]
  next := by
    obtain ⟨broad, -, hleads⟩ := h.leadsTo
    exact ⟨broad, hleads⟩
  unrepaired hauto t ht := by
    rw [h.text_eq hauto ht, RunSettings.prepare, if_neg (by simp [hauto])]

/-! ## From strategy to strategy -/

variable {σ : Type} {c : RunContext σ} {root : Path} {p p' : RunProgress (σ × List Exchange)}
  {done : List Visit}

/-- `x.Sound c root earlier p`: the run is at `p` when the visit `x` begins, with the visits
`earlier` behind it. -/
structure Visit.Sound (c : RunContext σ) (root : Path) (earlier : List Visit) (x : Visit)
    (p : RunProgress (σ × List Exchange)) : Prop where
  /-- All that was invoked so far was invoked by the earlier visits. -/
  behind : ContractBuild.invocations p.state.2 = earlier.flatMap (·.invocations c.settings)
  carried : x.carried = p.log.carried
  origin : CarriedFrom (earlier.flatMap (·.trials)) x.carried
  work :
    match x.work with
    | .sweep s ts => s.Starts (c.surroundings.resolver p.state.1) root ∧
        Faithful c.settings x.carried s ts
    | .build collected _ =>
        (UnitLookup.ofRoot (c.surroundings.resolver p.state.1) root).collect = .ok collected

/-- `Account settings done p`: the visits `done` account for all that was invoked and is carried
over at `p`. -/
structure Account (settings : RunSettings) (done : List Visit)
    (p : RunProgress (σ × List Exchange)) : Prop where
  invocations : invocations p.state.2 = done.flatMap (·.invocations settings)
  carried : CarriedFrom (done.flatMap (·.trials)) p.log.carried
  fixes : settings.autoFix = false → p.log.fixes = []

namespace Account

/-- Whatever else is noted, the same is accounted for. -/
theorem of_same (h : Account settings done p)
    (hi : ContractBuild.invocations p'.state.2 = ContractBuild.invocations p.state.2)
    (hc : p'.log.carried = p.log.carried) (hf : p'.log.fixes = p.log.fixes) :
    Account settings done p' where
  invocations := hi.trans h.invocations
  carried := hc ▸ h.carried
  fixes hauto := hf.trans (h.fixes hauto)

/-- Asking for leave changes nothing that is accounted for. -/
theorem of_gate {left : Nat} {res : Except RunError Unit} (h : Account settings done p)
    (hg : exec (gate c.recorded left) p = (res, p')) : Account settings done p' := by
  obtain ⟨hlog, hi⟩ := invocations_of_gate hg
  exact h.of_same hi (by rw [hlog]) (by rw [hlog])

/-- Texts are made ready. -/
theorem prepared {changes : List AppliedChange} (h : Account settings done p)
    (hchanges : settings.autoFix = false → changes = []) (flat : Option Flattened) :
    Account settings done ⟨p.log.prepared changes flat, p.state⟩ where
  invocations := h.invocations
  carried := h.carried
  fixes hauto := by
    rw [RunLog.prepared, h.fixes hauto, hchanges hauto]
    rfl

/-- A sweep is accounted for by its trials. -/
theorem sweep {s : Sweep} (h : Account settings done p) (htries : Tries settings s p ts p')
    (q : Nat) (carried : List FailureClass) :
    Account settings (done ++ [⟨q, carried, .sweep s ts⟩]) p' where
  invocations := by
    rw [htries.invocations, h.invocations, List.flatMap_append, List.flatMap_singleton]
    rfl
  carried := by
    rw [List.flatMap_append, List.flatMap_singleton]
    refine ⟨htries.nodup h.carried.nodup, fun x hx => ?_⟩
    rcases htries.carried x hx with hx | ⟨hcarriable, t, ht, hcalls⟩
    · obtain ⟨haggressive, hunclassified, t, ht, hcalls⟩ := h.carried.origin x hx
      exact ⟨haggressive, hunclassified, t, List.mem_append_left _ ht, hcalls⟩
    · obtain ⟨haggressive, hunclassified⟩ : x ≠ .aggressive ∧ x ≠ .unclassified := by
        simpa [RunLog.isCarriable] using hcarriable
      exact ⟨haggressive, hunclassified, t, List.mem_append_right _ ht, hcalls⟩
  fixes hauto := by
    rw [htries.fixes, h.fixes hauto, List.nil_append, List.flatMap_eq_nil_iff]
    intro t _
    rw [t.repair_of_off hauto]

/-- A build is accounted for. -/
theorem build {collected : Collected} {answer : Except SandboxError ArtifactMap}
    {carried : List FailureClass} (h : Account settings done p)
    (hinvokes : Invokes p (.build (collected.request settings carried) answer) p')
    (hc : p'.log.carried = p.log.carried) (hf : p'.log.fixes = p.log.fixes) (q : Nat) :
    Account settings (done ++ [⟨q, carried, .build collected answer⟩]) p' where
  invocations := by
    rw [invocations_of_invokes hinvokes rfl, h.invocations, List.flatMap_append,
      List.flatMap_singleton]
    rfl
  carried := by
    have hnone : (⟨q, carried, .build collected answer⟩ : Visit).trials = [] := rfl
    rw [hc, List.flatMap_append, List.flatMap_singleton, hnone, List.append_nil]
    exact h.carried
  fixes hauto := hf.trans (h.fixes hauto)

end Account

/-- `Here c root strat q done x? p p'`: trying the strategy `strat` at the position `q` takes the
run from `p`, with the visits `done` behind it, to `p'`. If the strategy is entered, `x?` is the
visit. -/
structure Here (c : RunContext σ) (root : Path) (strat : Strategy) (q : Nat) (done : List Visit)
    (x? : Option Visit) (p p' : RunProgress (σ × List Exchange)) : Prop where
  account : Account c.settings (done ++ x?.toList) p'
  sound : ∀ x, x? = some x → x.position = q ∧ x.strategy = strat ∧ x.Sound c root done p
  entered : ∀ s : Sweep, s.strategy = strat → s.Starts (c.surroundings.resolver p.state.1) root →
    ∃ x ts, x? = some x ∧ x.work = .sweep s ts

/-- A strategy that is not entered. -/
theorem Here.nothing {strat : Strategy} {q : Nat} (hacc : Account c.settings done p')
    (hnone : ∀ s : Sweep, s.strategy = strat →
      ¬ s.Starts (c.surroundings.resolver p.state.1) root) :
    Here c root strat q done none p p' where
  account := by rwa [Option.toList_none, List.append_nil]
  sound := nofun
  entered s hs hstarts := absurd hstarts (hnone s hs)

/-- Without repairs nothing is recorded as changed when texts are made ready. -/
theorem changes_prepare (hauto : settings.autoFix = false) (carried : List FailureClass)
    (text : String) : (settings.prepare carried text).changes = [] := by
  simp [RunSettings.prepare, hauto]

/-- A visit that sweeps. -/
theorem here_of_sweep {strat : Strategy} {s : Sweep} {flat : Option Flattened} {q : Nat}
    {res : Except RunError (Option CompileSuccess)} (hacc : Account c.settings done p)
    (hstarts : s.Starts (c.surroundings.resolver p.state.1) root) (hs : s.strategy = strat)
    (h : exec (sweep c.recorded s) ⟨{ p.log with flatten := flat }, p.state⟩ = (res, p')) :
    ∃ ts, Here c root strat q done (some ⟨q, p.log.carried, .sweep s ts⟩) p p' := by
  obtain ⟨ts, htrials, htries⟩ := trials_of_sweep h
  have hfaithful : Faithful c.settings p.log.carried s ts := htrials.faithful hstarts
  refine ⟨ts, ?_, ?_, ?_⟩
  · have hprepared := hacc.prepared
      (fun hauto => changes_prepare hauto p.log.carried s.initial) flat
    exact hprepared.sweep htries q _
  · rintro x ⟨⟩
    exact ⟨rfl, hs, hacc.invocations, rfl, hacc.carried, hstarts, hfaithful⟩
  · intro s' hs' hstarts'
    cases hstarts.unique hstarts' (hs.trans hs'.symm)
    exact ⟨_, ts, rfl, rfl⟩

/-- A strategy that builds. -/
theorem here_of_sandbox {isLast : Bool} {res : Except RunError (Option CompileSuccess)} {q : Nat}
    (hacc : Account c.settings done p)
    (h : exec (strategy c.recorded root isLast .sandbox) p = (res, p')) :
    ∃ x?, Here c root .sandbox q done x? p p' := by
  have hnone (s : Sweep) (hs : s.strategy = .sandbox) :
      ¬ s.Starts (c.surroundings.resolver p.state.1) root := by
    intro hstarts
    cases hstarts <;> cases hs
  rcases sandbox_exchanges h with rfl | ⟨collected, hcollected, hrest⟩
  · exact ⟨none, .nothing hacc hnone⟩
  · have hprepared : Account c.settings done (p.preparedFor c.settings collected) :=
      hacc.prepared (fun hauto => List.flatMap_eq_nil_iff.mpr fun u _ =>
        changes_prepare hauto p.log.carried u.2) _
    rcases hrest with ⟨e, -, hg⟩ | ⟨p₁, answer, hg, hinvokes, hcarried, hfixes⟩
    · exact ⟨none, .nothing (hprepared.of_gate hg) hnone⟩
    · refine ⟨some _, (hprepared.of_gate hg).build hinvokes hcarried hfixes q, ?_,
        fun s hs hstarts => absurd hstarts (hnone s hs)⟩
      rintro x ⟨⟩
      exact ⟨rfl, rfl, hacc.invocations, rfl, hacc.carried, hcollected⟩

theorem strategy_here {isLast : Bool} {strat : Strategy}
    {res : Except RunError (Option CompileSuccess)} (q : Nat) (hacc : Account c.settings done p)
    (h : exec (strategy c.recorded root isLast strat) p = (res, p')) :
    ∃ x?, Here c root strat q done x? p p' := by
  cases hd : strat.isConfigDriven with
  | true =>
    rcases configDriven_cases hd h with ⟨rfl, -, hnone⟩ | ⟨s, flat, hstarts, hs, h⟩
    · exact ⟨none, .nothing hacc hnone⟩
    · obtain ⟨ts, hhere⟩ := here_of_sweep hacc hstarts hs h
      exact ⟨_, hhere⟩
  | false =>
    cases strat with
    | sandbox => exact here_of_sandbox hacc h
    | _ => cases hd

/-! ## Whole runs -/

/-- `Visits c root ss q done p xs p'`: a run that comes to the strategies `ss`, from position `q`
on, at `p` with the visits `done` behind it goes on with the visits `xs` and ends at `p'`. -/
inductive Visits (c : RunContext σ) (root : Path) : List Strategy → Nat → List Visit →
    RunProgress (σ × List Exchange) → List Visit → RunProgress (σ × List Exchange) → Prop where
  | exhausted {q : Nat} {done : List Visit} {p : RunProgress (σ × List Exchange)} :
      Account c.settings done p → Visits c root [] q done p [] p
  | ended {strat : Strategy} {rest : List Strategy} {q : Nat} {done : List Visit}
      {x? : Option Visit} {p p' : RunProgress (σ × List Exchange)}
      {res : Except RunError (Option CompileSuccess)} :
      exec (strategy c.recorded root rest.isEmpty strat) p = (res, p') → res ≠ .ok none →
      Here c root strat q done x? p p' → Visits c root (strat :: rest) q done p x?.toList p'
  | next {strat : Strategy} {rest : List Strategy} {q : Nat} {done xs : List Visit}
      {x? : Option Visit} {p p₁ p' : RunProgress (σ × List Exchange)} :
      exec (strategy c.recorded root rest.isEmpty strat) p = (.ok none, p₁) →
      Here c root strat q done x? p p₁ → Visits c root rest (q + 1) (done ++ x?.toList) p₁ xs p' →
      Visits c root (strat :: rest) q done p (x?.toList ++ xs) p'

theorem strategies_visits {ss : List Strategy} {res : Except RunError CompileSuccess} (q : Nat)
    (hacc : Account c.settings done p)
    (h : exec (strategies c.recorded root ss) p = (res, p')) :
    ∃ xs, Visits c root ss q done p xs p' := by
  induction ss generalizing p q done with
  | nil =>
    cases h
    exact ⟨[], .exhausted hacc⟩
  | cons strat rest ih =>
    rw [strategies] at h
    rcases exec_bind_cases h with ⟨r, p₁, hs, h⟩ | ⟨e, hs, rfl⟩
    · obtain ⟨x?, hhere⟩ := strategy_here q hacc hs
      cases r with
      | some success =>
        cases h
        exact ⟨_, .ended hs (by simp) hhere⟩
      | none =>
        obtain ⟨xs, hvisits⟩ := ih (q + 1) hhere.account h
        exact ⟨_, .next hs hhere hvisits⟩
    · obtain ⟨x?, hhere⟩ := strategy_here q hacc hs
      exact ⟨_, .ended hs (by simp) hhere⟩

namespace Visits

variable {ss : List Strategy} {q : Nat} {xs : List Visit}

theorem account (h : Visits c root ss q done p xs p') : Account c.settings (done ++ xs) p' := by
  induction h with
  | exhausted hacc => rwa [List.append_nil]
  | ended _ _ hhere => exact hhere.account
  | next _ _ _ ih => rwa [← List.append_assoc]

/-- A visit is here, or it is one of the later ones. -/
theorem split_cases {x? : Option Visit} {earlier later : List Visit} {x : Visit}
    (h : x?.toList ++ xs = earlier ++ x :: later) :
    (x? = some x ∧ earlier = []) ∨
    ∃ earlier', earlier = x?.toList ++ earlier' ∧ xs = earlier' ++ x :: later := by
  cases x? with
  | none => exact .inr ⟨earlier, rfl, h⟩
  | some y =>
    cases earlier with
    | nil =>
      cases h
      exact .inl ⟨rfl, rfl⟩
    | cons e earlier =>
      obtain ⟨rfl, rfl⟩ := List.cons.inj h
      exact .inr ⟨earlier, rfl, rfl⟩

/-- Every visit is to a strategy that the run reaches, and it is sound. -/
theorem sound (h : Visits c root ss q done p xs p') {earlier later : List Visit} {x : Visit}
    (hxs : xs = earlier ++ x :: later) :
    ∃ r p₁, x.position = q + r ∧ Reaches c.recorded root ss p r p₁ ∧ ss[r]? = some x.strategy ∧
      x.Sound c root (done ++ earlier) p₁ := by
  induction h generalizing earlier with
  | exhausted => simp at hxs
  | ended _ _ hhere =>
    rw [← List.append_nil (Option.toList _)] at hxs
    rcases split_cases hxs with ⟨hx, rfl⟩ | ⟨_, -, hnil⟩
    · obtain ⟨hposition, rfl, hsound⟩ := hhere.sound x hx
      exact ⟨0, _, hposition, .here, rfl, by rwa [List.append_nil]⟩
    · simp at hnil
  | next hs hhere _ ih =>
    rcases split_cases hxs with ⟨hx, rfl⟩ | ⟨earlier, rfl, rfl⟩
    · obtain ⟨hposition, rfl, hsound⟩ := hhere.sound x hx
      exact ⟨0, _, hposition, .here, rfl, by rwa [List.append_nil]⟩
    · obtain ⟨r, p₁, hposition, hreaches, hstrategy, hsound⟩ := ih rfl
      rw [List.append_assoc] at hsound
      exact ⟨r + 1, p₁, by omega, .later hs hreaches, hstrategy, hsound⟩

theorem le_position (h : Visits c root ss q done p xs p') {x : Visit} (hx : x ∈ xs) :
    q ≤ x.position := by
  obtain ⟨earlier, later, hxs⟩ := List.append_of_mem hx
  obtain ⟨r, -, hposition, -⟩ := h.sound hxs
  omega

/-- The visits are in the order of the strategies, one for each at most. -/
theorem ordered (h : Visits c root ss q done p xs p') :
    (xs.map (·.position)).Pairwise (· < ·) := by
  induction h with
  | exhausted => exact .nil
  | @ended _ _ _ _ x? => cases x? <;> simp
  | @next _ _ q _ xs x? _ _ _ _ hhere hrest ih =>
    cases x? with
    | none => exact ih
    | some x =>
      refine List.pairwise_cons.mpr ⟨fun r hr => ?_, ih⟩
      obtain ⟨y, hy, rfl⟩ := List.mem_map.mp hr
      show x.position < y.position
      rw [(hhere.sound x rfl).1]
      exact hrest.le_position hy

/-- Every strategy that the run reaches and that starts with a sweep is visited with it. -/
theorem entered (h : Visits c root ss q done p xs p') {r : Nat}
    {p₁ : RunProgress (σ × List Exchange)} {s : Sweep}
    (hreaches : Reaches c.recorded root ss p r p₁) (hs : ss[r]? = some s.strategy)
    (hstarts : s.Starts (c.surroundings.resolver p₁.state.1) root) :
    ∃ x ∈ xs, x.position = q + r ∧ ∃ ts, x.work = .sweep s ts := by
  induction h generalizing r with
  | exhausted => simp at hs
  | ended hstrategy hne hhere =>
    obtain ⟨rfl, rfl⟩ := hreaches.eq_of_ne hstrategy hne
    cases hs
    obtain ⟨x, ts, rfl, hwork⟩ := hhere.entered s rfl hstarts
    exact ⟨x, by simp, (hhere.sound x rfl).1, ts, hwork⟩
  | next hstrategy hhere _ ih =>
    cases hreaches with
    | here =>
      cases hs
      obtain ⟨x, ts, rfl, hwork⟩ := hhere.entered s rfl hstarts
      exact ⟨x, by simp, (hhere.sound x rfl).1, ts, hwork⟩
    | later hnone hrest =>
      rw [hstrategy] at hnone
      cases hnone
      obtain ⟨x, hx, hposition, hwork⟩ := ih hrest hs
      exact ⟨x, List.mem_append_right _ hx, by omega, hwork⟩

end Visits

/-- All visits of a whole run. -/
theorem all_visits {res : Except RunError CompileSuccess} (hacc : Account c.settings [] p)
    (h : exec (all c.recorded root) p = (res, p')) :
    ∃ xs p₁, Visits c root c.settings.strategies 0 [] p xs p₁ ∧ Account c.settings xs p' := by
  unfold all at h
  rcases exec_bind_cases h with ⟨success, p₁, hs, h⟩ | ⟨e, hs, rfl⟩
  · obtain ⟨xs, hvisits⟩ := strategies_visits 0 hacc hs
    refine ⟨xs, p₁, hvisits, ?_⟩
    rcases withMain_cases h with ⟨main, -, rfl⟩ | ⟨name, available, -, rfl⟩
    · exact hvisits.account
    · exact hvisits.account.of_same rfl rfl rfl
  · obtain ⟨xs, hvisits⟩ := strategies_visits 0 hacc hs
    exact ⟨xs, p', hvisits, hvisits.account⟩

/-- All units are submitted as they were found. -/
def Visit.Unmodified (settings : RunSettings) (x : Visit) : Prop :=
  match x.work with
  | .sweep s ts => ∀ t ∈ ts, ∀ unit, (s.unitsWith t.text).get? unit = s.sources.get? unit
  | .build collected _ => (collected.request settings x.carried).sources = collected.sources

/-- Without repairs a visit submits what it found. -/
theorem Visit.Sound.unmodified {x : Visit} (h : x.Sound c root done p)
    (hauto : c.settings.autoFix = false) : x.Unmodified c.settings := by
  rcases x with ⟨q, carried, ⟨s, ts⟩ | ⟨collected, answer⟩⟩
  · obtain ⟨-, hfaithful⟩ : _ ∧ Faithful c.settings carried s ts := h.work
    intro t ht unit
    obtain ⟨hroot, hothers⟩ := hfaithful.units t ht
    by_cases hunit : unit = s.rootUnit
    · rw [hunit, hroot, hfaithful.initial, hfaithful.unrepaired hauto t ht]
    · exact hothers unit hunit
  · simp [Visit.Unmodified, Collected.request, RunSettings.prepare, hauto, Dict.ofList_entries]

end Run

theorem FinishedRun.fixes_ofLog (log : RunLog) (res : Except RunError CompileSuccess) :
    (FinishedRun.ofLog log res).fixes = log.fixes := by
  cases res <;> rfl

/-- **Where every submitted text comes from.** Whatever the sources, the compiler and the build tool
answer, the invocations of a run are those of its visits, in order, and every strategy that it
reaches and that starts with a sweep has one.

- All units but the root unit are submitted as they were found.
- The first text is the text found for the root unit, with the repairs for the classes that are
  carried over. Each of them was called for in a trial of an earlier visit and changed a text there.
- Each later text is the one before it, unchanged or with the repairs that the diagnostics for it
  call for. The broad sweep of rules comes in once at most, and where nothing is called for.
- Without repairs everything is submitted as it was found, and no change is recorded. -/
theorem orchestrate_provenance {σ : Type} (settings : RunSettings) (surroundings : Surroundings σ)
    (root : Path) (state : σ) :
    let c := RunContext.begin settings surroundings state
    let reaches := Run.Reaches c.recorded root settings.strategies
      (.begin surroundings.recorded (state, []))
    let (run, state', exchanges) := orchestrate settings surroundings.recorded root (state, [])
    orchestrate settings surroundings root state = (run, state') ∧
    ∃ visits : List Run.Visit,
      invocations exchanges = visits.flatMap (·.invocations settings) ∧
      (visits.map (·.position)).Pairwise (· < ·) ∧
      (∀ q p (s : Run.Sweep), reaches q p → settings.strategies[q]? = some s.strategy →
        s.Starts (surroundings.resolver p.state.1) root →
        ∃ x ∈ visits, x.position = q ∧ ∃ ts, x.work = .sweep s ts) ∧
      (∀ earlier x later, visits = earlier ++ x :: later →
        ∃ p, reaches x.position p ∧ settings.strategies[x.position]? = some x.strategy ∧
          x.Sound c root earlier p) ∧
      (settings.autoFix = false → run.fixes = [] ∧ ∀ x ∈ visits, x.Unmodified settings) := by
  obtain ⟨res, p, hrun, horch, hplain⟩ :=
    orchestrate_recorded_cases settings surroundings root state
  have hbegin : Run.Account settings [] (.begin surroundings.recorded (state, [])) :=
    ⟨rfl, ⟨List.nodup_nil, nofun⟩, fun _ => rfl⟩
  obtain ⟨visits, p₁, hvisits, hacc⟩ := Run.all_visits hbegin hrun
  rw [horch]
  refine ⟨hplain, visits, hacc.invocations, hvisits.ordered, ?_, ?_, ?_⟩
  · intro q p s hreaches hs hstarts
    have hentered := hvisits.entered hreaches hs hstarts
    rwa [Nat.zero_add] at hentered
  · intro earlier x later hsplit
    obtain ⟨r, p₁, hposition, hreaches, hstrategy, hsound⟩ := hvisits.sound hsplit
    rw [Nat.zero_add] at hposition
    cases hposition
    exact ⟨p₁, hreaches, hstrategy, hsound⟩
  · intro hauto
    refine ⟨?_, fun x hx => ?_⟩
    · rw [FinishedRun.fixes_ofLog]
      exact hacc.fixes hauto
    · obtain ⟨earlier, later, hsplit⟩ := List.append_of_mem hx
      obtain ⟨-, p₁, -, -, -, hsound⟩ := hvisits.sound hsplit
      exact hsound.unmodified hauto

end ContractBuild
