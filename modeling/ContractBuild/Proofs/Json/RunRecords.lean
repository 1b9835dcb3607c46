import ContractBuild.Compile.Report
import ContractBuild.Compile.StandardJson
import ContractBuild.Proofs.Json.Shapes

/-!
# The records of a run survive their text

What a run leaves behind is written as JSON and read back by the same types. For each type the
lemma here says that its values carry themselves (`Json.Carries`) through their own shape;
`read_records` puts this together for whole texts.
-/

namespace ContractBuild

open Json

/-! ## Names -/

theorem Strategy.carries (room : Nat) (s : Strategy) :
    Carries room (shapeOf Strategy) (toJson s) s :=
  .choice (by cases s <;> decide) (by cases s <;> decide) room

theorem Severity.carries (room : Nat) (s : Severity) :
    Carries room (shapeOf Severity) (toJson s) s :=
  .choice (by cases s <;> decide) (by cases s <;> decide) room

theorem AttemptStatus.carries (room : Nat) (s : AttemptStatus) :
    Carries room (shapeOf AttemptStatus) (toJson s) s :=
  .choice (by cases s <;> decide) (by cases s <;> decide) room

/-! ## Lists and dictionaries of strings -/

theorem carries_strings (room : Nat) (ss : List String) :
    Carries (room + 1) (shapeOf (List String)) (toJson ss) ss :=
  .list fun s _ => .string room s

/-! ## Flattening -/

theorem ResolutionDiagnostic.carries (room : Nat) (d : ResolutionDiagnostic) :
    Carries (room + 1) (shapeOf ResolutionDiagnostic) (toJson d) d := by
  have hparts := Parts.cons (.required "importer" (.string room d.importer)) <|
    .cons (.required "import" (.string room d.target)) <|
    .cons (.required "code" (.string room d.code)) <|
    .cons (.required "message" (.string room d.message)) .nil
  refine .record hparts rfl rfl (by decide) ?_
  rintro found ⟨himporter, htarget, hcode, hmessage, -⟩
  simp only [himporter, htarget, hcode, hmessage]
  rfl

theorem Flattened.carries (room : Nat) (o : Flattened) :
    Carries (room + 3) (shapeOf Flattened) (toJson o) o := by
  have hdiagnostics : Carries (room + 2) (shapeOf (List ResolutionDiagnostic))
      (toJson o.diagnostics) o.diagnostics := .list fun d _ => d.carries room
  have hparts := Parts.cons (.required "schema" (.string (room + 2) o.schema)) <|
    .cons (.required "text" (.string _ o.text)) <|
    .cons (.required "license" (.string _ o.license)) <|
    .cons (.nullable "pragma" o.pragma (.string _) nofun) <|
    .cons (.required "module_count" (.uint64 _ o.moduleCount)) <|
    .cons (.required "unresolved_import_count" (.uint64 _ o.unresolvedCount)) <|
    .cons (.optional "modules" [] (carries_strings _ o.modules)) <|
    .cons (.optional "diagnostics" [] hdiagnostics) <|
    .cons (.required "digest" (.string _ o.digest)) .nil
  refine .record hparts rfl rfl (by decide) ?_
  rintro found
    ⟨hschema, htext, hlicense, hpragma, hmodules, hunresolved, hids, hreports, hdigest, -⟩
  simp only [hschema, htext, hlicense, hpragma, hmodules, hunresolved, hids, hreports, hdigest]
  rfl

/-! ## Compiling -/

theorem CompilerConfig.carries (room : Nat) (c : CompilerConfig) :
    Carries (room + 1) (shapeOf CompilerConfig) (toJson c) c := by
  have hparts := Parts.cons (.required "evm_version" (.string room c.evmVersion)) <|
    .cons (.required "optimizer_enabled" (.boolean room c.optimizerEnabled)) <|
    .cons (.required "optimizer_runs" (.uint32 room c.optimizerRuns)) .nil
  refine .record hparts rfl rfl (by decide) ?_
  rintro found ⟨hversion, henabled, hruns, -⟩
  simp only [hversion, henabled, hruns]
  rfl

theorem CompilerDiagnostic.carries (room : Nat) (d : CompilerDiagnostic) :
    Carries (room + 1) (shapeOf CompilerDiagnostic) (toJson d) d := by
  have hparts := Parts.cons (.required "severity" (d.severity.carries room)) <|
    .cons (.required "message" (.string room d.message)) <|
    .cons (.nullable "formatted_message" d.formattedMessage (.string room) nofun) <|
    .cons (.nullable "kind" d.kind (.string room) nofun) .nil
  refine .record hparts rfl rfl (by decide) ?_
  rintro found ⟨hseverity, hmessage, hformatted, hkind, -⟩
  simp only [hseverity, hmessage, hformatted, hkind]
  rfl

theorem CompilationAttempt.carries (room : Nat) (a : CompilationAttempt) :
    Carries (room + 3) (shapeOf CompilationAttempt) (toJson a) a := by
  have herrors : Carries (room + 2) (shapeOf (List CompilerDiagnostic)) (toJson a.errors)
      a.errors := .list fun d _ => d.carries room
  -- Fixes are written only if there are any.
  have hfixes : Part (room + 2) (optional "fixes_applied" (shapeOf (List String)))
      ("fixes_applied", if a.fixesApplied.isEmpty then none else some (toJson a.fixesApplied))
      (fun found =>
        found.getD "fixes_applied" (shapeOf (List String)) [] = .ok a.fixesApplied) := by
    refine .unlessDefault "fixes_applied" [] ?_ ?_
    · intro v hv
      split at hv
      · cases hv
      · cases hv
        exact carries_strings (room + 1) a.fixesApplied
    · intro hnone
      split at hnone
      · rename_i hempty
        exact List.isEmpty_iff.1 hempty
      · cases hnone
  have hparts := Parts.cons (.required "attempt" (.uint32 (room + 2) a.attempt)) <|
    .cons (.required "strategy" (a.strategy.carries _)) <|
    .cons (.nullable "config" a.config (CompilerConfig.carries (room + 1)) nofun) <|
    .cons (.required "status" (a.status.carries _)) <|
    .cons (.optional "errors" [] herrors) <|
    .cons (.optional "artifact_count" 0 (.uint64 _ a.artifactCount)) <|
    .cons hfixes <|
    .cons (.optional "duration_ms" 0 (.uint64 _ a.durationMs)) .nil
  refine .record hparts rfl rfl (by decide) ?_
  rintro found ⟨hattempt, hstrategy, hconfig, hstatus, hmessages, hartifacts, hrules, hduration, -⟩
  simp only [hattempt, hstrategy, hconfig, hstatus, hmessages, hartifacts, hrules, hduration]
  rfl

theorem RunState.carries (room : Nat) (s : RunState) :
    Carries (room + 2) (shapeOf RunState) (toJson s) s := by
  cases s with
  | idle => exact .tagged "OrchestratorState" rfl nofun (.nothingMore _ _)
  | success => exact .tagged "OrchestratorState" rfl nofun (.nothingMore _ _)
  | exhausted => exact .tagged "OrchestratorState" rfl nofun (.nothingMore _ _)
  | timedOut => exact .tagged "OrchestratorState" rfl nofun (.nothingMore _ _)
  | cancelled => exact .tagged "OrchestratorState" rfl nofun (.nothingMore _ _)
  | trying strategy config attempt =>
    have hparts := Parts.cons (.required "strategy" (strategy.carries (room + 1))) <|
      .cons (.nullable "config" config (CompilerConfig.carries room) nofun) <|
      .cons (.required "attempt" (.uint32 _ attempt)) .nil
    refine .taggedRecord "OrchestratorState" rfl hparts rfl (by decide) ?_
    rintro found ⟨hstrategy, hconfig, hattempt, -⟩
    simp only [hstrategy, hconfig, hattempt]
    rfl
  | failed strategy attempt =>
    have hparts := Parts.cons (.required "strategy" (strategy.carries (room + 1))) <|
      .cons (.required "attempt" (.uint32 _ attempt)) .nil
    refine .taggedRecord "OrchestratorState" rfl hparts rfl (by decide) ?_
    rintro found ⟨hstrategy, hattempt, -⟩
    simp only [hstrategy, hattempt]
    rfl
  | fixing strategy rules =>
    have hparts := Parts.cons (.required "strategy" (strategy.carries (room + 1))) <|
      .cons (.required "rules" (carries_strings room rules)) .nil
    refine .taggedRecord "OrchestratorState" rfl hparts rfl (by decide) ?_
    rintro found ⟨hstrategy, hrules, -⟩
    simp only [hstrategy, hrules]
    rfl

namespace StandardInput

theorem carries_entry (room : Nat) (text : String) :
    Carries (room + 1) entryShape (.obj [("content", .str text)]) text := by
  have hparts := Parts.cons (.required "content" (.string room text)) .nil
  refine .record hparts rfl rfl (by decide) ?_
  rintro found ⟨hcontent, -⟩
  exact hcontent

theorem carries_optimizer (room : Nat) (enabled : Bool) (runs : UInt32) :
    Carries (room + 1) optimizerShape (.obj [("enabled", .bool enabled), ("runs", toJson runs)])
      (enabled, runs) := by
  have hparts := Parts.cons (.required "enabled" (.boolean room enabled)) <|
    .cons (.required "runs" (.uint32 room runs)) .nil
  refine .record hparts rfl rfl (by decide) ?_
  rintro found ⟨henabled, hruns, -⟩
  simp only [henabled, hruns]
  rfl

theorem carries_settings (room : Nat) (enabled : Bool) (runs : UInt32) (version : String)
    (selection : Dict (Dict (List String))) :
    Carries (room + 4) settingsShape
      (.obj [("optimizer", .obj [("enabled", .bool enabled), ("runs", toJson runs)]),
        ("evmVersion", .str version), ("outputSelection", toJson selection)])
      ((enabled, runs), version, selection) := by
  have hselection : Carries (room + 3) (shapeOf (Dict (Dict (List String)))) (toJson selection)
      selection := .dict fun _ _ => .dict fun _ _ => carries_strings room _
  have hparts := Parts.cons (.required "optimizer" (carries_optimizer (room + 2) enabled runs)) <|
    .cons (.required "evmVersion" (.string _ version)) <|
    .cons (.required "outputSelection" hselection) .nil
  refine .record hparts rfl rfl (by decide) ?_
  rintro found ⟨hoptimizer, hversion, houtputs, -⟩
  simp only [hoptimizer, hversion, houtputs]
  rfl

theorem carries (room : Nat) (i : StandardInput) :
    Carries (room + 5) (shapeOf StandardInput) (toJson i) i := by
  have hsources : Carries (room + 4) (Node.dict entryShape)
      (.obj (i.sources.entries.map fun e => (e.1, .obj [("content", .str e.2)]))) i.sources :=
    .dict (f := fun text => .obj [("content", .str text)]) fun _ _ => carries_entry (room + 2) _
  have hparts := Parts.cons (.required "language" (.string (room + 4) i.language)) <|
    .cons (.required "sources" hsources) <|
    .cons (.required "settings" (carries_settings room i.optimizerEnabled i.optimizerRuns
      i.evmVersion i.outputSelection)) .nil
  refine .record hparts rfl rfl (by decide) ?_
  rintro found ⟨hlanguage, htexts, hsettings, -⟩
  simp only [hlanguage, htexts, hsettings]
  rfl

end StandardInput

/-! ## Whole texts -/

/-- **The records of a run are read back from their texts**, in either layout: what flattening
gave, what the compiler was given, every attempt and every state. -/
theorem run_records_round_trip (l : Layout) :
    (∀ o : Flattened, Json.read Flattened ((toJson o).text l) = .ok o) ∧
      (∀ i : StandardInput, Json.read StandardInput ((toJson i).text l) = .ok i) ∧
      (∀ a : CompilationAttempt, Json.read CompilationAttempt ((toJson a).text l) = .ok a) ∧
      ∀ s : RunState, Json.read RunState ((toJson s).text l) = .ok s := by
  refine ⟨fun o => ?_, fun i => ?_, fun a => ?_, fun s => ?_⟩
  · exact (o.carries 124).decode_text l
  · exact (i.carries 122).decode_text l
  · exact (a.carries 124).decode_text l
  · exact (s.carries 125).decode_text l

end ContractBuild
