import ContractBuild.Proofs.Json.RunRecords
import ContractBuild.Proofs.Json.Yields
import ContractBuild.Proofs.Time.Instant

/-!
# The contracts in a report

A report is written as JSON and read back by the same types. Its contracts hold values of any shape:
the interface of a contract, its gas estimates, and its metadata, which the compiler gives as JSON
in a string. Two things can get in the way. A value that is null is read as one that is missing, and
a value that stands alone may nest deeper than one inside of a report.

- **Written** (`CompiledArtifact.carries`, `CompileReport.carries`): what the text of a report
  carries, with nulls left out.
- **Read** (`CompiledArtifact.yields`, `CompileReport.yields`): what contracts can be read from any
  text. Nothing in them is null, and they nest only as deep as a reader follows.
- **Answers** (`StandardOutput.isProper_embedded`, `StandardOutput.yields`): the same for what the
  compiler says.

Main statement: `CompileReport.contracts_read_back`. Metadata that says null does not come back
(`CompileReport.null_metadata_lost`).
-/

namespace ContractBuild

open Json

/-! ## Small records -/

theorem FailureClass.carries (room : Nat) (c : FailureClass) :
    Carries room (shapeOf FailureClass) (toJson c) c :=
  .choice (by cases c <;> decide) (by cases c <;> decide) room

theorem AppliedChange.carries (room : Nat) (c : AppliedChange) :
    Carries (room + 1) (shapeOf AppliedChange) (toJson c) c := by
  have hparts := Parts.cons (.required "rule_id" (.string room c.ruleId)) <|
    .cons (.required "class" (c.forClass.carries room)) <|
    .cons (.required "description" (.string room c.description)) <|
    .cons (.required "occurrences" (.uint64 room c.occurrences)) .nil
  refine .record hparts rfl rfl (by decide) ?_
  rintro found ⟨hrule, hclass, hdescription, hoccurrences, -⟩
  simp only [hrule, hclass, hdescription, hoccurrences]
  rfl

theorem ToolInfo.carries (room : Nat) (t : ToolInfo) :
    Carries (room + 1) (shapeOf ToolInfo) (toJson t) t := by
  have hparts := Parts.cons (.required "name" (.string room t.name)) <|
    .cons (.nullable "version" t.version (.string room) nofun) .nil
  refine .record hparts rfl rfl (by decide) ?_
  rintro found ⟨hname, hversion, -⟩
  simp only [hname, hversion]
  rfl

theorem Instant.carries_of_parse? (room : Nat) {t : Instant} {text : String}
    (h : Instant.parse? text = some t) : Carries room (shapeOf Instant) (.str text) t where
  fits := trivial
  reads := by
    rintro _ ⟨start, stop, rfl⟩
    unfold shapeOf JsonForm.shape instJsonFormInstant
    simp only [Node.stringAs, bind, Except.bind, h]
    rfl

theorem Instant.carries (room : Nat) {t : Instant} (h : t.IsValid) :
    Carries room (shapeOf Instant) (toJson t) t := carries_of_parse? room (parse?_text h)

/-- The times of a run can be shown by a clock. -/
def RunInfo.IsValid (r : RunInfo) : Prop :=
  (∀ t ∈ r.startedAt, t.IsValid) ∧ ∀ t ∈ r.endedAt, t.IsValid

theorem RunInfo.carries (room : Nat) {r : RunInfo} (h : r.IsValid) :
    Carries (room + 1) (shapeOf RunInfo) (toJson r) r := by
  have hnull (t : Instant) : toJson t ≠ .null := Json.noConfusion
  have hparts := Parts.cons
      (.nullableOf "started_at" (fun t ht => Instant.carries room (h.1 t ht)) hnull) <|
    .cons (.nullableOf "ended_at" (fun t ht => Instant.carries room (h.2 t ht)) hnull) <|
    .cons (.nullable "duration_ms" r.durationMs (.uint64 room) nofun) .nil
  refine .record hparts rfl rfl (by decide) ?_
  rintro found ⟨hstarted, hended, hduration, -⟩
  simp only [hstarted, hended, hduration]
  rfl

theorem MainContract.carries (room : Nat) (m : MainContract) :
    Carries (room + 1) (shapeOf MainContract) (toJson m) m := by
  have hparts := Parts.cons (.required "contract_name" (.string room m.contractName)) <|
    .cons (.required "bytecode_length" (.uint64 room m.bytecodeLength)) .nil
  refine .record hparts rfl rfl (by decide) ?_
  rintro found ⟨hname, hlength, -⟩
  simp only [hname, hlength]
  rfl

/-! ## Artifacts -/

/-- A value that may be missing, but is not null. -/
def dropNull (v? : Option Json) : Option Json := v?.filter fun v => decide (v ≠ .null)

theorem dropNull_eq_self_iff {v? : Option Json} : dropNull v? = v? ↔ v? ≠ some .null := by
  cases v? with
  | none => simp [dropNull]
  | some v => by_cases hv : v = .null <;> simp [dropNull, hv]

/-- A value that may be missing is read back, but null is read as nothing. -/
theorem Json.Part.nullableValue {room : Nat} (name : String) {v? : Option Json}
    (h : ∀ v ∈ v?, Carries room Node.value v v) :
    Part room (Json.optional name (Node.nullable Node.value)) (name, v?)
      (fun found => found.get? name Node.value = .ok (dropNull v?)) := by
  refine .unlessDefault name none (fun v hv => ?_) ?_
  · cases hv
    by_cases hnull : v = .null
    · subst hnull
      refine ⟨trivial, ?_⟩
      rintro _ ⟨start, stop, rfl⟩
      rfl
    · rw [dropNull_eq_self_iff.2 (by simpa using hnull)]
      exact (h v rfl).nullable hnull
  · rintro rfl
    rfl

namespace CompiledArtifact

/-- The JSON values that an artifact holds. -/
def embedded (a : CompiledArtifact) : List Json :=
  a.abi ++ a.metadata.toList ++ a.gasEstimates.toList

/-- The artifact as it is read back: what is null is missing. -/
def withoutNulls (a : CompiledArtifact) : CompiledArtifact :=
  { a with metadata := dropNull a.metadata, gasEstimates := dropNull a.gasEstimates }

/-- Lists and objects go into each other at most `room` deep in the interface of a contract, and one
level more outside of its list. -/
structure Nests (room : Nat) (a : CompiledArtifact) : Prop where
  abi : ∀ v ∈ a.abi, v.nesting ≤ room
  metadata : ∀ v ∈ a.metadata, v.nesting ≤ room + 1
  gasEstimates : ∀ v ∈ a.gasEstimates, v.nesting ≤ room + 1

theorem carries {room : Nat} {a : CompiledArtifact} (hproper : ∀ v ∈ a.embedded, v.IsProper)
    (hfloat : ∀ v ∈ a.embedded, v.IsFloatFree) (hnests : a.Nests room) :
    Carries (room + 2) (shapeOf CompiledArtifact) (toJson a) a.withoutNulls := by
  have hvalue (v : Json) (hv : v ∈ a.embedded) (k : Nat) (hk : v.nesting ≤ k) :
      Carries k Node.value v v := .value (hproper v hv) (hfloat v hv) hk
  have habi : Carries (room + 1) (shapeOf (List Json)) (.arr a.abi) a.abi := by
    have hlist := Carries.list (f := id) fun v hv =>
      hvalue v (by simp [embedded, hv]) room (hnests.abi v hv)
    rwa [List.map_id] at hlist
  have hparts := Parts.cons (.required "contract_name" (.string (room + 1) a.contractName)) <|
    .cons (.nullable "source_name" a.sourceName (.string _) nofun) <|
    .cons (.required "bytecode" (.string _ a.bytecode)) <|
    .cons (.required "deployed_bytecode" (.string _ a.deployedBytecode)) <|
    .cons (.optional "abi" [] habi) <|
    .cons (.nullableValue "metadata" fun v hv =>
      hvalue v (by simp [embedded, Option.mem_def.1 hv]) _ (hnests.metadata v hv)) <|
    .cons (.nullableValue "gas_estimates" fun v hv =>
      hvalue v (by simp [embedded, Option.mem_def.1 hv]) _ (hnests.gasEstimates v hv)) .nil
  refine .record hparts rfl rfl (by decide) ?_
  rintro found ⟨hname, hsource, hcode, hdeployed, hinterface, hmetadata, hgas, -⟩
  simp only [hname, hsource, hcode, hdeployed, hinterface, hmetadata, hgas]
  rfl

/-- Whatever text an artifact is read from, it nests no deeper than there is room for, and nothing
in it is null. -/
theorem yields (room : Nat) : Yields (room + 2) (shapeOf CompiledArtifact) fun a =>
    a.Nests room ∧ a.metadata ≠ some .null ∧ a.gasEstimates ≠ some .null := by
  intro n hn a ha
  obtain ⟨found, hrecord, ha⟩ := bind_eq_ok ha
  have hfound := record_within hn hrecord
  obtain ⟨_, -, ha⟩ := bind_eq_ok ha
  obtain ⟨_, -, ha⟩ := bind_eq_ok ha
  obtain ⟨_, -, ha⟩ := bind_eq_ok ha
  obtain ⟨_, -, ha⟩ := bind_eq_ok ha
  obtain ⟨abi, habi, ha⟩ := bind_eq_ok ha
  obtain ⟨metadata, hmetadata, ha⟩ := bind_eq_ok ha
  obtain ⟨gas, hgas, ha⟩ := bind_eq_ok ha
  cases ha
  have habi := (Yields.value room).list.getD hfound (List.forall_mem_nil _) habi
  have hmetadata := (Yields.nullableValue (room + 1)).getD hfound (by simp) hmetadata
  have hgas := (Yields.nullableValue (room + 1)).getD hfound (by simp) hgas
  exact ⟨⟨fun v hv => (habi v hv).2, fun v hv => (hmetadata v hv).2.2,
    fun v hv => (hgas v hv).2.2⟩, fun h => (hmetadata .null h).1 rfl, fun h => (hgas .null h).1 rfl⟩

end CompiledArtifact

/-! ## Outcomes and reports -/

/-- What is read back of a success. -/
def CompileSuccess.withoutNulls (s : CompileSuccess) : CompileSuccess :=
  { s with contracts := s.contracts.map (·.withoutNulls) }

/-- The fields of a success behind its tag. -/
def CompileSuccess.fields (s : CompileSuccess) : List (String × Option Json) :=
  [("method", some (toJson s.method)), ("attempt", some (toJson s.attempt)),
   ("configuration_used", s.configurationUsed.map toJson),
   ("contracts", some (toJson s.contracts)), ("main_contract", s.mainContract.map toJson),
   ("compiled_source", s.compiledSource.map .str)]

theorem CompileSuccess.carries {room : Nat} {s : CompileSuccess}
    (h : ∀ a ∈ s.contracts.values, (∀ v ∈ a.embedded, v.IsProper) ∧
      (∀ v ∈ a.embedded, v.IsFloatFree) ∧ a.Nests room) :
    Carries (room + 4) (shapeOf CompileOutcome) (toJson (CompileOutcome.success s))
      (.success s.withoutNulls) := by
  have hcontracts : Carries (room + 3) (shapeOf ArtifactMap) (toJson s.contracts)
      (s.contracts.map (·.withoutNulls)) := by
    refine .mapDict fun e he => ?_
    obtain ⟨hproper, hfloat, hnests⟩ := h e.2 (List.mem_map.2 ⟨e, he, rfl⟩)
    exact CompiledArtifact.carries hproper hfloat hnests
  have hparts := Parts.cons (.required "method" (s.method.carries (room + 3))) <|
    .cons (.required "attempt" (.uint32 _ s.attempt)) <|
    .cons (.nullable "configuration_used" s.configurationUsed
      (CompilerConfig.carries (room + 2)) nofun) <|
    .cons (.required "contracts" hcontracts) <|
    .cons (.nullable "main_contract" s.mainContract (MainContract.carries (room + 2)) nofun) <|
    .cons (.nullable "compiled_source" s.compiledSource (.string _) nofun) .nil
  have hrecord : Carries (room + 4) CompileOutcome.successShape (object s.fields)
      s.withoutNulls := by
    refine .record hparts rfl rfl (by decide) ?_
    rintro found ⟨hmethod, hattempt, hconfig, hmap, hmain, hsource, -⟩
    simp only [hmethod, hattempt, hconfig, hmap, hmain, hsource]
    rfl
  refine .tagged "CompileOutcome" rfl (fun kv hkv htag => ?_) (hrecord.map CompileOutcome.success)
  have hmem : (kv.1, some kv.2) ∈ s.fields := Parts.mem_written.1 hkv
  simp [htag, CompileSuccess.fields] at hmem

theorem CompileReport.carries {room : Nat} {r : CompileReport} {s : CompileSuccess}
    (hr : r.outcome = .success s) (hrun : r.run.IsValid)
    (h : ∀ a ∈ s.contracts.values, (∀ v ∈ a.embedded, v.IsProper) ∧
      (∀ v ∈ a.embedded, v.IsFloatFree) ∧ a.Nests room) :
    Carries (room + 5) (shapeOf CompileReport) (toJson r)
      { r with outcome := .success s.withoutNulls } := by
  have houtcome : Carries (room + 4) (shapeOf CompileOutcome) (toJson r.outcome)
      (.success s.withoutNulls) := by
    rw [hr]
    exact s.carries h
  have hattempts : Carries (room + 4) (shapeOf (List CompilationAttempt)) (toJson r.attempts)
      r.attempts := .list fun a _ => a.carries room
  have htransitions : Carries (room + 4) (shapeOf (List RunState)) (toJson r.transitions)
      r.transitions := .list fun t _ => t.carries (room + 1)
  have hfixes : Carries (room + 4) (shapeOf (List AppliedChange)) (toJson r.fixes) r.fixes :=
    .list fun c _ => c.carries (room + 2)
  have hparts := Parts.cons (.required "schema" (.string (room + 4) r.schema)) <|
    .cons (.required "tool" (r.tool.carries (room + 3))) <|
    .cons (.required "run" (RunInfo.carries (room + 3) hrun)) <|
    .cons (.required "root" (.string _ r.root)) <|
    .cons (.required "outcome" houtcome) <|
    .cons (.optional "attempts" [] hattempts) <|
    .cons (.optional "transitions" [] htransitions) <|
    .cons (.optional "fixes" [] hfixes) <|
    .cons (.nullable "flatten" r.flatten (Flattened.carries (room + 1)) nofun) .nil
  refine .record hparts rfl rfl (by decide) ?_
  rintro found ⟨hschema, htool, htimes, hroot, hended, htried, hstates, hchanges, hflat, -⟩
  simp only [hschema, htool, htimes, hroot, hended, htried, hstates, hchanges, hflat]
  rfl

/-- Whatever text a report is read from, its contracts nest no deeper than there is room for, and
nothing in them is null. -/
theorem CompileReport.yields (room : Nat) : Yields (room + 5) (shapeOf CompileReport) fun r =>
    ∀ s, r.outcome = .success s → ∀ a ∈ s.contracts.values,
      a.Nests room ∧ a.metadata ≠ some .null ∧ a.gasEstimates ≠ some .null := by
  have hcontracts := (CompiledArtifact.yields room).dict
  have houtcome : Yields (room + 4) (shapeOf CompileOutcome) fun outcome =>
      ∀ s, outcome = .success s → ∀ a ∈ s.contracts.values,
        a.Nests room ∧ a.metadata ≠ some .null ∧ a.gasEstimates ≠ some .null := by
    refine .tagged (List.forall_mem_cons.2 ⟨?_, List.forall_mem_singleton.2 ?_⟩)
    · intro n hn outcome hread s hs a ha
      obtain ⟨s', hsuccess, rfl⟩ := map_eq_ok hread
      cases hs
      obtain ⟨found, hrecord, hsuccess⟩ := bind_eq_ok hsuccess
      have hfound := record_within hn hrecord
      obtain ⟨_, -, hsuccess⟩ := bind_eq_ok hsuccess
      obtain ⟨_, -, hsuccess⟩ := bind_eq_ok hsuccess
      obtain ⟨_, -, hsuccess⟩ := bind_eq_ok hsuccess
      obtain ⟨contracts, hmap, hsuccess⟩ := bind_eq_ok hsuccess
      obtain ⟨_, -, hsuccess⟩ := bind_eq_ok hsuccess
      obtain ⟨_, -, hsuccess⟩ := bind_eq_ok hsuccess
      cases hsuccess
      obtain ⟨e, he, rfl⟩ := List.mem_map.1 ha
      exact hcontracts.get hfound hmap e he
    · intro n hn outcome hread s hs
      obtain ⟨f, -, rfl⟩ := map_eq_ok hread
      cases hs
  intro n hn r hread
  obtain ⟨found, hrecord, hread⟩ := bind_eq_ok hread
  have hfound := record_within hn hrecord
  obtain ⟨_, -, hread⟩ := bind_eq_ok hread
  obtain ⟨_, -, hread⟩ := bind_eq_ok hread
  obtain ⟨_, -, hread⟩ := bind_eq_ok hread
  obtain ⟨_, -, hread⟩ := bind_eq_ok hread
  obtain ⟨outcome, hended, hread⟩ := bind_eq_ok hread
  obtain ⟨_, -, hread⟩ := bind_eq_ok hread
  obtain ⟨_, -, hread⟩ := bind_eq_ok hread
  obtain ⟨_, -, hread⟩ := bind_eq_ok hread
  obtain ⟨_, -, hread⟩ := bind_eq_ok hread
  cases hread
  exact houtcome.get hfound hended

/-! ## Answers of the compiler -/

/-- The JSON values that the compiler embeds in a contract, its metadata apart. -/
def ContractOutput.embedded (c : ContractOutput) : List Json := c.abi ++ c.gasEstimates.toList

namespace StandardOutput

/-- The values in an answer are such as a reader can give. -/
def IsProper (o : StandardOutput) : Prop :=
  ∀ c ∈ o.contractList, ∀ v ∈ c.2.2.embedded, v.IsProper

theorem exists_of_mem_artifacts {o : StandardOutput} {a : CompiledArtifact}
    (h : a ∈ o.artifacts.values) : ∃ c ∈ o.contractList, a = c.2.2.toArtifact c.1 c.2.1 := by
  obtain ⟨⟨key, a⟩, he, rfl⟩ := List.mem_map.1 h
  obtain ⟨before, after, hsplit, -⟩ := Dict.get?_ofList.1 (Dict.get?_eq_some_iff.2 he)
  have hmem : (key, a) ∈ o.contractList.map fun c => (c.2.1, c.2.2.toArtifact c.1 c.2.1) := by
    rw [hsplit]
    simp
  obtain ⟨c, hc, heq⟩ := List.mem_map.1 hmem
  cases heq
  exact ⟨c, hc, rfl⟩

/-- Metadata is proper, be it read from its string or kept as a string. -/
theorem isProper_embedded {o : StandardOutput} (ho : o.IsProper) {a : CompiledArtifact}
    (ha : a ∈ o.artifacts.values) : ∀ v ∈ a.embedded, v.IsProper := by
  obtain ⟨c, hc, rfl⟩ := exists_of_mem_artifacts ha
  have hc := ho c hc
  intro v hv
  simp only [CompiledArtifact.embedded, ContractOutput.toArtifact, List.mem_append,
    Option.mem_toList, Option.map_eq_some_iff] at hv
  simp only [ContractOutput.embedded, List.mem_append, Option.mem_toList] at hc
  rcases hv with (hv | ⟨raw, -, rfl⟩) | hv
  · exact hc v (.inl hv)
  · cases hparse : Json.parse raw with
    | error e => exact trivial
    | ok v => exact ((Yields.value depthLimit).decode hparse).1
  · exact hc v (.inr hv)

/-- Whatever text an answer is read from, its values are proper, and a report has room for them. -/
theorem yields (room : Nat) : Yields (room + 5) (shapeOf StandardOutput) fun o =>
    ∀ c ∈ o.contractList, (∀ v ∈ c.2.2.abi, v.IsProper ∧ v.nesting ≤ room) ∧
      ∀ v ∈ c.2.2.gasEstimates, v ≠ .null ∧ v.IsProper ∧ v.nesting ≤ room := by
  have hevm : Yields (room + 1) ContractOutput.evmShape fun e =>
      ∀ v ∈ e.2.2, v ≠ .null ∧ v.IsProper ∧ v.nesting ≤ room := by
    intro n hn e he
    obtain ⟨found, hrecord, he⟩ := bind_eq_ok he
    obtain ⟨_, -, he⟩ := bind_eq_ok he
    obtain ⟨_, -, he⟩ := bind_eq_ok he
    obtain ⟨gas, hgas, he⟩ := bind_eq_ok he
    cases he
    exact (Yields.nullableValue room).getD (record_within hn hrecord) (by simp) hgas
  have hcontract : Yields (room + 2) (shapeOf ContractOutput) fun c =>
      (∀ v ∈ c.abi, v.IsProper ∧ v.nesting ≤ room) ∧
        ∀ v ∈ c.gasEstimates, v ≠ .null ∧ v.IsProper ∧ v.nesting ≤ room := by
    intro n hn c hc
    obtain ⟨found, hrecord, hc⟩ := bind_eq_ok hc
    have hfound := record_within hn hrecord
    obtain ⟨abi, habi, hc⟩ := bind_eq_ok hc
    obtain ⟨evm, hread, hc⟩ := bind_eq_ok hc
    obtain ⟨_, -, hc⟩ := bind_eq_ok hc
    cases hc
    exact ⟨(Yields.value room).list.getD hfound (List.forall_mem_nil _) habi,
      hevm.getD hfound (by simp) hread⟩
  intro n hn o ho
  obtain ⟨found, hrecord, ho⟩ := bind_eq_ok ho
  obtain ⟨_, -, ho⟩ := bind_eq_ok ho
  obtain ⟨contracts, hcontracts, ho⟩ := bind_eq_ok ho
  cases ho
  have hcontracts := hcontract.dict.dict.getD (record_within hn hrecord) (List.forall_mem_nil _)
    hcontracts
  intro c hc
  obtain ⟨u, hu, hc⟩ := List.mem_flatMap.1 (List.mem_filter.1 hc).1
  obtain ⟨e, he, rfl⟩ := List.mem_map.1 hc
  exact hcontracts u hu e he

end StandardOutput

/-! ## Whole texts -/

namespace CompileReport

/-- Contracts without nulls are read back as they are. -/
theorem map_withoutNulls {contracts : ArtifactMap}
    (h : ∀ a ∈ contracts.values, a.metadata ≠ some .null ∧ a.gasEstimates ≠ some .null) :
    contracts.map (·.withoutNulls) = contracts := by
  have hsame : ∀ e ∈ contracts.entries, (e.1, e.2.withoutNulls) = id e := by
    intro e he
    obtain ⟨hmetadata, hgas⟩ := h e.2 (List.mem_map.2 ⟨e, he, rfl⟩)
    rw [CompiledArtifact.withoutNulls, dropNull_eq_self_iff.2 hmetadata,
      dropNull_eq_self_iff.2 hgas, id]
  exact Dict.eq_of_entries ((List.map_congr_left hsame).trans (List.map_id _))

/-- A report that its text has room for is read back, but what is null is missing. -/
theorem read_of_nests {o : StandardOutput} (ho : o.IsProper) {r : CompileReport}
    {s : CompileSuccess} (hr : r.outcome = .success s) (hs : s.contracts = o.artifacts)
    (hrun : r.run.IsValid)
    (hfloat : ∀ a ∈ s.contracts.values, ∀ v ∈ a.embedded, v.IsFloatFree)
    (hnests : ∀ a ∈ s.contracts.values, a.Nests 122) :
    Json.read CompileReport (toJson r).pretty =
      .ok { r with outcome := .success s.withoutNulls } := by
  refine Carries.decode_text (CompileReport.carries hr hrun fun a ha => ?_) .indented
  exact ⟨StandardOutput.isProper_embedded ho (hs ▸ ha), hfloat a ha, hnests a ha⟩

/-- **The contracts of a success are read back from the text of its report**, for every contract map
that comes from an answer of the compiler and holds no floats:

- If its values nest no deeper than a report has room for, the report is read back, but what is null
  is missing.
- So the contract map is read back exactly if there is this room and nothing is null.
- For an answer that was read itself, both depend on the metadata alone. -/
theorem contracts_read_back {o : StandardOutput} (ho : o.IsProper) {r : CompileReport}
    {s : CompileSuccess} (hr : r.outcome = .success s) (hs : s.contracts = o.artifacts)
    (hrun : r.run.IsValid)
    (hfloat : ∀ a ∈ s.contracts.values, ∀ v ∈ a.embedded, v.IsFloatFree) :
    ((∀ a ∈ s.contracts.values, a.Nests 122) →
      Json.read CompileReport (toJson r).pretty =
        .ok { r with outcome := .success s.withoutNulls }) ∧
    ((∃ r' s', Json.read CompileReport (toJson r).pretty = .ok r' ∧ r'.outcome = .success s' ∧
        s'.contracts = s.contracts) ↔
      ∀ a ∈ s.contracts.values,
        a.Nests 122 ∧ a.metadata ≠ some .null ∧ a.gasEstimates ≠ some .null) ∧
    ∀ text, Json.read StandardOutput text = .ok o → ∀ a ∈ s.contracts.values,
      (a.Nests 122 ∧ a.metadata ≠ some .null ∧ a.gasEstimates ≠ some .null ↔
        ∀ v ∈ a.metadata, v ≠ .null ∧ v.nesting ≤ 123) := by
  have hread := read_of_nests ho hr hs hrun hfloat
  refine ⟨hread, ⟨?_, fun h => ?_⟩, fun text htext a ha => ?_⟩
  · rintro ⟨r', s', hr', hs', hcontracts⟩ a ha
    exact (CompileReport.yields 122).decode hr' s' hs' a (hcontracts ▸ ha)
  · refine ⟨_, _, hread fun a ha => (h a ha).1, rfl, ?_⟩
    exact map_withoutNulls fun a ha => (h a ha).2
  · obtain ⟨c, hc, rfl⟩ := StandardOutput.exists_of_mem_artifacts (hs ▸ ha)
    obtain ⟨habi, hgas⟩ := (StandardOutput.yields 122).decode htext c hc
    constructor
    · rintro ⟨hnests, hnull, -⟩ v hv
      refine ⟨?_, hnests.metadata v hv⟩
      rintro rfl
      exact hnull hv
    · intro hmetadata
      exact ⟨⟨fun v hv => (habi v hv).2, fun v hv => (hmetadata v hv).2,
        fun v hv => Nat.le_succ_of_le (hgas v hv).2.2⟩, fun h => (hmetadata _ h).1 rfl,
        fun h => (hgas _ h).1 rfl⟩

/-- An answer with one contract, which has some metadata. -/
def answer (metadata : String) : StandardOutput where
  contracts := Dict.ofList [("M.sol", Dict.ofList
    [("M", { abi := [.obj [("name", .str "f"), ("type", .str "function")]], bytecode := "60",
             metadata := some metadata })])]

/-- The artifact that is made of it. -/
def artifact (metadata : Json) : CompiledArtifact where
  contractName := "M"
  sourceName := some "M.sol"
  bytecode := "0x60"
  deployedBytecode := "0x"
  abi := [.obj [("name", .str "f"), ("type", .str "function")]]
  metadata := some metadata

/-- The success that an answer leads to. -/
def successOf (o : StandardOutput) : CompileSuccess where
  method := .directImport
  attempt := 1
  contracts := o.artifacts

/-- A report of a success, with the time at which the run started. -/
def reportOf (s : CompileSuccess) : CompileReport where
  tool := { name := "solforge" }
  run := { startedAt := some ⟨1760000000, 250000000⟩ }
  root := "M.sol"
  outcome := .success s

theorem isProper_answer (metadata : String) : (answer metadata).IsProper := by
  have hlist : (answer metadata).contractList = [("M.sol", "M",
      { abi := [.obj [("name", .str "f"), ("type", .str "function")]], bytecode := "60",
        metadata := some metadata })] := rfl
  have hkeys : Ascending [("name", Json.str "f"), ("type", .str "function")] := by
    unfold Ascending
    decide
  rw [StandardOutput.IsProper, hlist, List.forall_mem_singleton]
  exact List.forall_mem_singleton.2 ⟨hkeys, trivial, trivial, trivial⟩

theorem isValid_reportOf (s : CompileSuccess) : (reportOf s).run.IsValid := by
  refine ⟨fun t ht => ?_, nofun⟩
  cases ht
  exact ⟨by decide +kernel, .inl (by decide)⟩

theorem isFloatFree_artifact {v : Json} (hv : v.IsFloatFree) :
    ∀ w ∈ (artifact v).embedded, w.IsFloatFree :=
  List.forall_mem_cons.2 ⟨⟨trivial, trivial, trivial, trivial⟩, List.forall_mem_singleton.2 hv⟩

theorem nests_artifact {v : Json} (hv : v.nesting ≤ 123) : (artifact v).Nests 122 where
  abi := List.forall_mem_singleton.2 (by decide)
  metadata := by simpa [artifact] using hv
  gasEstimates := nofun

theorem contracts_read_back_versioned :
    let s := successOf (answer "\x7b\"version\":[1,-2]\x7d")
    s.contracts.values =
      [artifact (.obj [("version", .arr [.num (.int 1), .num (.int (-2))])])] ∧
    ∃ r' s', Json.read CompileReport (toJson (reportOf s)).pretty = .ok r' ∧
      r'.outcome = .success s' ∧ s'.contracts = s.contracts := by
  intro s
  have hvalues : s.contracts.values =
      [artifact (.obj [("version", .arr [.num (.int 1), .num (.int (-2))])])] := by decide +kernel
  refine ⟨hvalues, (contracts_read_back (isProper_answer _) rfl rfl (isValid_reportOf s) ?_).2.1.2
    ?_⟩
  · rw [hvalues, List.forall_mem_singleton]
    exact isFloatFree_artifact ⟨trivial, ⟨trivial, trivial, trivial, trivial⟩, trivial⟩
  · rw [hvalues, List.forall_mem_singleton]
    exact ⟨nests_artifact (by decide), by simp [artifact], by simp [artifact]⟩

/-- **Metadata that says null is lost**: the artifact holds it, and the report that is read back
does not. -/
theorem null_metadata_lost :
    let s := successOf (answer "null")
    s.contracts.values = [artifact .null] ∧
    ∃ r' s', Json.read CompileReport (toJson (reportOf s)).pretty = .ok r' ∧
      r'.outcome = .success s' ∧ s'.contracts.values = [{ artifact .null with metadata := none }] ∧
      s'.contracts ≠ s.contracts := by
  intro s
  have hvalues : s.contracts.values = [artifact .null] := by decide +kernel
  have hread : Json.read CompileReport (toJson (reportOf s)).pretty =
      .ok { reportOf s with outcome := .success s.withoutNulls } := by
    refine read_of_nests (isProper_answer "null") rfl rfl (isValid_reportOf s) ?_ ?_
    · rw [hvalues, List.forall_mem_singleton]
      exact isFloatFree_artifact trivial
    · rw [hvalues, List.forall_mem_singleton]
      exact nests_artifact (by decide)
  exact ⟨hvalues, _, _, hread, rfl, by decide +kernel, by decide +kernel⟩

end CompileReport

end ContractBuild
