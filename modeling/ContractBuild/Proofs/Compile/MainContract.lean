import ContractBuild.Compile.StandardJson
import ContractBuild.Text.Utf8

/-!
# The contracts of an answer, and the main one

- **Creation code** (`IsCode`): what stands behind all the hexadecimal prefixes of a text. A
  contract is deployable if there is any, and its size is counted in pairs of digits.
- **Entries** (`ContractOutput.Records`): an artifact has the name and the unit of its contract, and
  the code of the contract behind a prefix.
- **Artifacts** (`StandardOutput.get?_artifacts`): an answer has an artifact under a name if a unit
  holds a contract of that name with a code that is not empty, and it is that of the last such unit.
- **The main contract** (`selectMain_eq_some_iff`): the deployable one with the most code, and of
  several the one with the least name.

Main statement: `StandardOutput.artifacts_and_main`.
-/

namespace ContractBuild

/-! ## Creation code -/

/-- `IsCode text digits`: `digits` is what stands behind all the hexadecimal prefixes at the front
of `text`. -/
def IsCode (text : String) (digits : List Char) : Prop :=
  (∃ n, text.toList = (List.replicate n ['0', 'x']).flatten ++ digits) ∧ ¬ ['0', 'x'] <+: digits

theorem exists_eq_append_bareHex (cs : List Char) :
    ∃ n, cs = (List.replicate n ['0', 'x']).flatten ++ bareHex cs := by
  fun_induction bareHex cs with
  | case1 rest ih =>
    obtain ⟨n, hn⟩ := ih
    exact ⟨n + 1, by rw [List.replicate_succ, List.flatten_cons, List.append_assoc, ← hn]; rfl⟩
  | case2 cs => exact ⟨0, rfl⟩

theorem not_prefix_bareHex (cs : List Char) : ¬ ['0', 'x'] <+: bareHex cs := by
  fun_induction bareHex cs with
  | case1 rest ih => exact ih
  | case2 cs h =>
    rintro ⟨rest, rfl⟩
    exact h rest rfl

theorem bareHex_of_not_prefix {digits : List Char} (h : ¬ ['0', 'x'] <+: digits) :
    bareHex digits = digits := by
  fun_cases bareHex digits with
  | case1 rest => exact absurd (List.prefix_append ['0', 'x'] rest) h
  | case2 => rfl

/-- Prefixes are left out however many there are. -/
theorem bareHex_append (n : Nat) (digits : List Char) :
    bareHex ((List.replicate n ['0', 'x']).flatten ++ digits) = bareHex digits := by
  induction n with
  | zero => rfl
  | succ n ih =>
    rw [List.replicate_succ, List.flatten_cons, List.append_assoc]
    exact ih

theorem isCode_iff {text : String} {digits : List Char} :
    IsCode text digits ↔ bareHex text.toList = digits := by
  constructor
  · rintro ⟨⟨n, hn⟩, hbare⟩
    rw [hn, bareHex_append, bareHex_of_not_prefix hbare]
  · rintro rfl
    exact ⟨exists_eq_append_bareHex _, not_prefix_bareHex _⟩

namespace CompiledArtifact

/-- The code of an artifact says whether it is deployable, and how large it is. -/
theorem exists_isCode (a : CompiledArtifact) :
    ∃ digits, IsCode a.bytecode digits ∧ (a.isDeployable = true ↔ digits ≠ []) ∧
      a.bytecodeLength = (String.ofList digits).utf8ByteSize / 2 ∧
      ((∀ c ∈ digits, c.toNat < 128) → a.bytecodeLength = digits.length / 2) := by
  refine ⟨bareHex a.bytecode.toList, isCode_iff.mpr rfl, by simp [isDeployable], rfl, fun h => ?_⟩
  rw [bytecodeLength, Text.utf8ByteSize_ofList h]

end CompiledArtifact

/-! ## Entries -/

/-- `WritesCode text hex`: `text` starts with a prefix and has the digits of `hex`. It is `hex` as
it stands, or behind the prefix that it lacks. -/
structure WritesCode (text hex : String) : Prop where
  marked : ['0', 'x'] <+: text.toList
  spelling : text = hex ∨ ¬ ['0', 'x'] <+: hex.toList ∧ text = "0x" ++ hex
  digits : ∀ digits, IsCode text digits ↔ IsCode hex digits

theorem writesCode_iff {text hex : String} : WritesCode text hex ↔ text = withHexPrefix hex := by
  have hmark : "0x".toList.isPrefixOf hex.toList = true ↔ ['0', 'x'] <+: hex.toList :=
    List.isPrefixOf_iff_prefix
  constructor
  · rintro ⟨hmarked, rfl | ⟨hbare, rfl⟩, -⟩
    · exact (if_pos (hmark.mpr hmarked)).symm
    · exact (if_neg (mt hmark.mp hbare)).symm
  · rintro rfl
    have hdigits (digits : List Char) : IsCode (withHexPrefix hex) digits ↔ IsCode hex digits := by
      rw [isCode_iff, isCode_iff, bareHex_withHexPrefix]
    by_cases h : ['0', 'x'] <+: hex.toList
    · have hsame : withHexPrefix hex = hex := if_pos (hmark.mpr h)
      exact ⟨hsame.symm ▸ h, .inl hsame, hdigits⟩
    · have hput : withHexPrefix hex = "0x" ++ hex := if_neg (mt hmark.mp h)
      refine ⟨?_, .inr ⟨h, hput⟩, hdigits⟩
      rw [hput, String.toList_append]
      exact List.prefix_append _ _

/-- `KeepsMetadata kept raw`: of the metadata of a contract the JSON that it says is kept, or else
the text. -/
inductive KeepsMetadata : Option Json → Option String → Prop where
  | none : KeepsMetadata none none
  | json {raw : String} {v : Json} : Json.parse raw = .ok v → KeepsMetadata (some v) (some raw)
  | text {raw : String} :
    (∀ v, Json.parse raw ≠ .ok v) → KeepsMetadata (some (.str raw)) (some raw)

/-- `c.Records unit name a`: the artifact `a` is the contract `c` that a unit has under a name. -/
structure ContractOutput.Records (c : ContractOutput) (unit name : String) (a : CompiledArtifact) :
    Prop where
  contractName : a.contractName = name
  sourceName : a.sourceName = some unit
  bytecode : WritesCode a.bytecode c.bytecode
  deployedBytecode : WritesCode a.deployedBytecode c.deployedBytecode
  abi : a.abi = c.abi
  metadata : KeepsMetadata a.metadata c.metadata
  gasEstimates : a.gasEstimates = c.gasEstimates

theorem keepsMetadata_iff {kept : Option Json} {raw : Option String} :
    KeepsMetadata kept raw ↔
      kept = raw.map fun raw => (Json.parse raw).toOption.getD (.str raw) := by
  constructor
  · rintro (_ | hv | hv)
    · rfl
    · simp [hv, Except.toOption]
    · rename_i raw
      cases hparse : Json.parse raw with
      | error e => simp [hparse, Except.toOption]
      | ok v => exact absurd hparse (hv v)
  · rintro rfl
    cases raw with
    | none => exact .none
    | some raw =>
      cases hparse : Json.parse raw with
      | error e =>
        simp only [Option.map_some, hparse, Except.toOption, Option.getD_none]
        exact .text (by simp [hparse])
      | ok v =>
        simp only [Option.map_some, hparse, Except.toOption, Option.getD_some]
        exact .json hparse

/-- An artifact is determined by what it records. -/
theorem ContractOutput.records_iff {c : ContractOutput} {unit name : String}
    {a : CompiledArtifact} : c.Records unit name a ↔ a = c.toArtifact unit name := by
  obtain ⟨contractName, sourceName, bytecode, deployedBytecode, abi, metadata, gasEstimates⟩ := a
  constructor
  · rintro ⟨rfl, rfl, hcode, hdeployed, rfl, hmetadata, rfl⟩
    obtain rfl := writesCode_iff.mp hcode
    obtain rfl := writesCode_iff.mp hdeployed
    obtain rfl := keepsMetadata_iff.mp hmetadata
    rfl
  · intro h
    rw [h]
    exact ⟨rfl, rfl, writesCode_iff.mpr rfl, writesCode_iff.mpr rfl, rfl, keepsMetadata_iff.mpr rfl,
      rfl⟩

/-! ## Artifacts -/

namespace StandardOutput

variable {o : StandardOutput} {unit name : String} {c : ContractOutput}

/-- `o.Holds unit name c`: the answer has the contract `c` under a name in a unit. -/
def Holds (o : StandardOutput) (unit name : String) (c : ContractOutput) : Prop :=
  ∃ contracts, o.contracts.get? unit = some contracts ∧ contracts.get? name = some c

theorem mem_contractList :
    (unit, name, c) ∈ o.contractList ↔ o.Holds unit name c ∧ c.bytecode ≠ "" := by
  rw [contractList, List.mem_filter, List.mem_flatMap]
  refine and_congr ⟨?_, ?_⟩ (by simp)
  · rintro ⟨u, hu, hmem⟩
    obtain ⟨e, he, heq⟩ := List.mem_map.mp hmem
    cases heq
    exact ⟨u.2, Dict.get?_eq_some_iff.mpr hu, Dict.get?_eq_some_iff.mpr he⟩
  · rintro ⟨contracts, hunit, hname⟩
    exact ⟨(unit, contracts), Dict.get?_eq_some_iff.mp hunit,
      List.mem_map.mpr ⟨(name, c), Dict.get?_eq_some_iff.mp hname, rfl⟩⟩

/-- Contracts stand in the order of their units, and in a unit in the order of their names. -/
theorem pairwise_contractList (o : StandardOutput) :
    o.contractList.Pairwise fun x y => x.1 < y.1 ∨ x.1 = y.1 ∧ x.2.1 < y.2.1 := by
  refine List.Pairwise.filter _ (List.pairwise_flatMap.mpr ⟨fun u _ => ?_, ?_⟩)
  · exact List.pairwise_map.mpr (u.2.ascending.imp fun h => .inr ⟨rfl, h⟩)
  · refine o.contracts.ascending.imp fun h x hx y hy => .inl ?_
    obtain ⟨_, -, rfl⟩ := List.mem_map.mp hx
    obtain ⟨_, -, rfl⟩ := List.mem_map.mp hy
    exact h

/-- Of two contracts with one name the later one is of a greater unit. -/
theorem pairwise_units (o : StandardOutput) :
    o.contractList.Pairwise fun x y => x.2.1 = y.2.1 → x.1 < y.1 := by
  refine o.pairwise_contractList.imp fun h hname => ?_
  rcases h with h | ⟨-, h⟩
  · exact h
  · exact absurd (hname ▸ h) (String.lt_irrefl _)

/-- **Under each name stands the contract of the last unit** that has code for it. -/
theorem get?_artifacts {a : CompiledArtifact} :
    o.artifacts.get? name = some a ↔
      ∃ unit c, (o.Holds unit name c ∧ c.bytecode ≠ "") ∧
        (∀ unit' c', o.Holds unit' name c' → c'.bytecode ≠ "" → unit' ≤ unit) ∧
        a = c.toArtifact unit name := by
  have horder := o.pairwise_units
  rw [artifacts, Dict.get?_ofList]
  constructor
  · rintro ⟨before, after, hsplit, hafter⟩
    obtain ⟨front, behind, hlist, -, hbehind⟩ := List.map_eq_append_iff.mp hsplit
    obtain ⟨⟨unit, name', c⟩, behind, rfl, hc, rfl⟩ := List.map_eq_cons_iff.mp hbehind
    cases hc
    refine ⟨unit, c, mem_contractList.mp (by rw [hlist]; simp), fun unit' c' hold hcode => ?_, rfl⟩
    have hmem := mem_contractList.mpr ⟨hold, hcode⟩
    rw [hlist] at hmem horder
    rcases List.mem_append.mp hmem with hmem | hmem
    · have hlt : unit' < unit :=
        (List.pairwise_append.mp horder).2.2 _ hmem _ List.mem_cons_self rfl
      exact String.not_lt.mp (String.lt_asymm hlt)
    · rcases List.mem_cons.mp hmem with heq | hmem
      · cases heq
        exact String.le_refl unit
      · exact absurd rfl (hafter _ (List.mem_map_of_mem hmem))
  · rintro ⟨unit, c, hold, hlast, rfl⟩
    obtain ⟨front, behind, hlist⟩ := List.append_of_mem (mem_contractList.mpr hold)
    refine ⟨front.map fun c => (c.2.1, c.2.2.toArtifact c.1 c.2.1),
      behind.map fun c => (c.2.1, c.2.2.toArtifact c.1 c.2.1), by rw [hlist]; simp, ?_⟩
    intro e he hname
    obtain ⟨⟨unit', name', c'⟩, hmem, rfl⟩ := List.mem_map.mp he
    cases hname
    have hcontract : (unit', name', c') ∈ o.contractList := by
      rw [hlist]
      exact List.mem_append_right _ (List.mem_cons_of_mem _ hmem)
    obtain ⟨hold', hcode'⟩ := mem_contractList.mp hcontract
    rw [hlist] at horder
    have hlt : unit < unit' :=
      (List.pairwise_cons.mp (List.pairwise_append.mp horder).2.1).1 _ hmem rfl
    exact String.not_lt.mpr (hlast unit' c' hold' hcode') hlt

/-- There is an artifact under a name exactly if a unit has code for it. -/
theorem exists_get?_artifacts :
    (∃ a, o.artifacts.get? name = some a) ↔ ∃ unit c, o.Holds unit name c ∧ c.bytecode ≠ "" := by
  constructor
  · rintro ⟨a, ha⟩
    obtain ⟨unit, c, hold, -⟩ := get?_artifacts.mp ha
    exact ⟨unit, c, hold⟩
  · rintro ⟨unit, c, hold⟩
    have hcontains : o.artifacts.contains name = true := by
      rw [artifacts, Dict.contains_ofList, List.any_map, List.any_eq_true]
      exact ⟨(unit, name, c), mem_contractList.mpr hold, by simp⟩
    rw [Dict.contains_eq_isSome_get?] at hcontains
    exact Option.isSome_iff_exists.mp hcontains

end StandardOutput

/-! ## The main contract -/

theorem longest?_eq_none_iff {as : List CompiledArtifact} : longest? as = none ↔ as = [] := by
  cases as with
  | nil => exact iff_of_true rfl rfl
  | cons a as =>
    refine iff_of_false ?_ (List.cons_ne_nil a as)
    unfold longest?
    split
    · split <;> simp
    · simp

/-- The longest of some artifacts is longer than all before it, and none behind it is longer. -/
theorem exists_of_longest? {as : List CompiledArtifact} {a : CompiledArtifact}
    (h : longest? as = some a) :
    ∃ before after, as = before ++ a :: after ∧
      (∀ b ∈ before, b.bytecodeLength < a.bytecodeLength) ∧
      ∀ b ∈ after, b.bytecodeLength ≤ a.bytecodeLength := by
  induction as generalizing a with
  | nil => cases h
  | cons x rest ih =>
    unfold longest? at h
    split at h
    · rename_i b hb
      obtain ⟨before, after, rfl, hbefore, hafter⟩ := ih hb
      split at h
      · rename_i hlt
        cases h
        exact ⟨x :: before, after, rfl, List.forall_mem_cons.mpr ⟨hlt, hbefore⟩, hafter⟩
      · rename_i hge
        cases h
        refine ⟨[], _, rfl, by simp, fun y hy => ?_⟩
        have hle : b.bytecodeLength ≤ x.bytecodeLength := Nat.le_of_not_lt hge
        rcases List.mem_append.mp hy with hy | hy
        · exact Nat.le_trans (Nat.le_of_lt (hbefore y hy)) hle
        · rcases List.mem_cons.mp hy with rfl | hy
          · exact hle
          · exact Nat.le_trans (hafter y hy) hle
    · rename_i hnone
      cases h
      exact ⟨[], rest, rfl, by simp, by simp [longest?_eq_none_iff.mp hnone]⟩

/-- `IsMain artifacts name main`: under `name` stands the deployable artifact with the most code,
and no lesser name has as much. -/
structure IsMain (artifacts : ArtifactMap) (name : String) (main : CompiledArtifact) : Prop where
  found : artifacts.get? name = some main
  deployable : main.isDeployable = true
  best : ∀ other a, artifacts.get? other = some a → a.isDeployable = true →
    a.bytecodeLength < main.bytecodeLength ∨
      a.bytecodeLength = main.bytecodeLength ∧ name ≤ other

theorem IsMain.unique {artifacts : ArtifactMap} {name name' : String}
    {main main' : CompiledArtifact} (h : IsMain artifacts name main)
    (h' : IsMain artifacts name' main') : main = main' := by
  have hname : name = name' := by
    rcases h.best name' main' h'.found h'.deployable with hlt | ⟨hsize, hle⟩ <;>
      rcases h'.best name main h.found h.deployable with hlt' | ⟨hsize', hle'⟩
    · omega
    · omega
    · omega
    · exact String.le_antisymm hle hle'
  exact Option.some.inj (h.found.symm.trans (hname ▸ h'.found))

/-- The artifact that is selected is the main one. -/
theorem isMain_of_selectMain {artifacts : ArtifactMap} {main : CompiledArtifact}
    (h : selectMain artifacts none = some main) : ∃ name, IsMain artifacts name main := by
  obtain ⟨before, after, hsplit, hbefore, hafter⟩ := exists_of_longest? h
  rw [Dict.values, List.filter_map] at hsplit
  obtain ⟨front, behind, hlist, rfl, hbehind⟩ := List.map_eq_append_iff.mp hsplit
  obtain ⟨⟨name, a⟩, behind, rfl, rfl, rfl⟩ := List.map_eq_cons_iff.mp hbehind
  have hmem (e : String × CompiledArtifact) : e ∈ front ++ (name, a) :: behind ↔
      artifacts.get? e.1 = some e.2 ∧ e.2.isDeployable = true := by
    rw [← hlist, List.mem_filter, Dict.get?_eq_some_iff]
    rfl
  have horder : Ascending (front ++ (name, a) :: behind) := by
    rw [← hlist]
    exact artifacts.ascending.filter _
  obtain ⟨hfound, hdeployable⟩ := (hmem (name, a)).mp (by simp)
  refine ⟨name, hfound, hdeployable, fun other b hb hd => ?_⟩
  rcases List.mem_append.mp ((hmem (other, b)).mpr ⟨hb, hd⟩) with hin | hin
  · exact .inl (hbefore b (List.mem_map_of_mem hin))
  · rcases List.mem_cons.mp hin with heq | hin
    · cases heq
      exact .inr ⟨rfl, String.le_refl _⟩
    · have hlt : name < other :=
        (List.pairwise_cons.mp (List.pairwise_append.mp horder).2.1).1 _ hin
      have hle : b.bytecodeLength ≤ a.bytecodeLength := hafter b (List.mem_map_of_mem hin)
      rcases Nat.lt_or_eq_of_le hle with hless | hsame
      · exact .inl hless
      · exact .inr ⟨hsame, String.not_lt.mp (String.lt_asymm hlt)⟩

/-- Nothing is selected exactly if nothing can be deployed. -/
theorem selectMain_eq_none_iff {artifacts : ArtifactMap} :
    selectMain artifacts none = none ↔
      ∀ name a, artifacts.get? name = some a → a.isDeployable = false := by
  rw [selectMain, longest?_eq_none_iff, List.filter_eq_nil_iff]
  constructor
  · intro h name a ha
    simpa using h a (List.mem_map_of_mem (Dict.get?_eq_some_iff.mp ha))
  · intro h a ha
    obtain ⟨⟨name, a⟩, hmem, rfl⟩ := List.mem_map.mp ha
    simp [h name a (Dict.get?_eq_some_iff.mpr hmem)]

/-- **The main contract is the one that is selected.** -/
theorem selectMain_eq_some_iff {artifacts : ArtifactMap} {main : CompiledArtifact} :
    selectMain artifacts none = some main ↔ ∃ name, IsMain artifacts name main := by
  refine ⟨isMain_of_selectMain, fun ⟨name, h⟩ => ?_⟩
  cases hs : selectMain artifacts none with
  | none =>
    have hnot := selectMain_eq_none_iff.mp hs name main h.found
    rw [h.deployable] at hnot
    cases hnot
  | some main' =>
    obtain ⟨name', h'⟩ := isMain_of_selectMain hs
    rw [h'.unique h]

/-- **The contracts of an answer, and the main one.** There is an artifact under a name exactly if
some unit has a contract of that name whose code is not empty, and it records that of the greatest
such unit: the name, the unit, the digits of the code behind a prefix, and the rest of the contract.
A unit without code hides nothing. Without a name that is asked for, nothing is selected exactly if
no artifact is deployable, and otherwise the one with the most code is, with the least name among
those that have as much. What counts as code stands behind all the prefixes, in pairs of digits. -/
theorem StandardOutput.artifacts_and_main (out : StandardOutput) :
    (∀ name, (∃ a, out.artifacts.get? name = some a) ↔
      ∃ unit c, out.Holds unit name c ∧ c.bytecode ≠ "") ∧
    (∀ name a, out.artifacts.get? name = some a ↔
      ∃ unit c, (out.Holds unit name c ∧ c.bytecode ≠ "") ∧
        (∀ unit' c', out.Holds unit' name c' → c'.bytecode ≠ "" → unit' ≤ unit) ∧
        c.Records unit name a) ∧
    (selectMain out.artifacts none = none ↔
      ∀ name a, out.artifacts.get? name = some a → a.isDeployable = false) ∧
    (∀ main, selectMain out.artifacts none = some main ↔
      ∃ name, IsMain out.artifacts name main) ∧
    ∀ a : CompiledArtifact, ∃ digits, IsCode a.bytecode digits ∧
      (a.isDeployable = true ↔ digits ≠ []) ∧
      a.bytecodeLength = (String.ofList digits).utf8ByteSize / 2 ∧
      ((∀ c ∈ digits, c.toNat < 128) → a.bytecodeLength = digits.length / 2) := by
  refine ⟨fun name => exists_get?_artifacts, fun name a => ?_, selectMain_eq_none_iff,
    fun main => selectMain_eq_some_iff, CompiledArtifact.exists_isCode⟩
  simp only [ContractOutput.records_iff]
  exact get?_artifacts

/-- An answer with one name in three units, the last of which has no code for it. -/
def threeUnits : StandardOutput where
  contracts := Dict.ofList
    [("a.sol", Dict.ofList
      [("Token", { bytecode := "6001" }), ("Vault", { bytecode := "6002" })]),
     ("b.sol", Dict.ofList [("Token", { bytecode := "0x0x6003" })]),
     ("c.sol", Dict.ofList [("Token", {})])]

/-- Of the three units the second has the entry. It is as large as the only other one, and its name
is the lesser. -/
theorem StandardOutput.artifacts_and_main_threeUnits :
    ∃ token vault,
      (threeUnits.artifacts.get? "Token" = some token ∧ token.contractName = "Token" ∧
        token.sourceName = some "b.sol" ∧ token.bytecode = "0x0x6003" ∧
        IsCode token.bytecode "6003".toList) ∧
      (threeUnits.artifacts.get? "Vault" = some vault ∧ vault.contractName = "Vault" ∧
        vault.sourceName = some "a.sol" ∧ vault.bytecode = "0x6002" ∧
        IsCode vault.bytecode "6002".toList) ∧
      token.bytecodeLength = 2 ∧ vault.bytecodeLength = 2 ∧
      selectMain threeUnits.artifacts none = some token ∧
      ∃ name, IsMain threeUnits.artifacts name token := by
  have hlist : threeUnits.contractList =
      [("a.sol", "Token", { bytecode := "6001" }), ("a.sol", "Vault", { bytecode := "6002" }),
       ("b.sol", "Token", { bytecode := "0x0x6003" })] := by decide +kernel
  obtain ⟨hfound, hentry, -, hmain, hcode⟩ := artifacts_and_main threeUnits
  have hlength {a : CompiledArtifact} {digits : List Char} (h : IsCode a.bytecode digits)
      (hascii : digits.all (·.toNat < 128) = true) : a.bytecodeLength = digits.length / 2 := by
    obtain ⟨digits', h', -, -, hsize⟩ := hcode a
    obtain rfl := (isCode_iff.mp h').symm.trans (isCode_iff.mp h)
    exact hsize (by simpa using hascii)
  have hb : ("b.sol", "Token", { bytecode := "0x0x6003" }) ∈ threeUnits.contractList := by
    simp [hlist]
  have ha : ("a.sol", "Vault", { bytecode := "6002" }) ∈ threeUnits.contractList := by
    simp [hlist]
  rw [mem_contractList] at ha hb
  obtain ⟨token, htoken⟩ := (hfound "Token").mpr ⟨_, _, hb⟩
  obtain ⟨vault, hvault⟩ := (hfound "Vault").mpr ⟨_, _, ha⟩
  obtain ⟨unit, c, hold, hlast, hrecords⟩ := (hentry "Token" token).mp htoken
  obtain ⟨unit', c', hold', -, hrecords'⟩ := (hentry "Vault" vault).mp hvault
  -- The first unit has the name too, but the second one is greater.
  obtain ⟨rfl, rfl⟩ : unit = "b.sol" ∧ c = { bytecode := "0x0x6003" } := by
    have hunit : unit = "a.sol" ∧ c = { bytecode := "6001" } ∨
        unit = "b.sol" ∧ c = { bytecode := "0x0x6003" } := by
      simpa [hlist] using mem_contractList.mpr hold
    rcases hunit with ⟨rfl, -⟩ | h
    · exact absurd (hlast _ _ hb.1 hb.2) (by decide)
    · exact h
  obtain ⟨rfl, rfl⟩ : unit' = "a.sol" ∧ c' = { bytecode := "6002" } := by
    simpa [hlist] using mem_contractList.mpr hold'
  have hdigits := (hrecords.bytecode.digits "6003".toList).mpr (isCode_iff.mpr rfl)
  have hdigits' := (hrecords'.bytecode.digits "6002".toList).mpr (isCode_iff.mpr rfl)
  have hselect : selectMain threeUnits.artifacts none = threeUnits.artifacts.get? "Token" := by
    decide +kernel
  exact ⟨token, vault,
    ⟨htoken, hrecords.contractName, hrecords.sourceName, writesCode_iff.mp hrecords.bytecode,
      hdigits⟩,
    ⟨hvault, hrecords'.contractName, hrecords'.sourceName, writesCode_iff.mp hrecords'.bytecode,
      hdigits'⟩,
    hlength hdigits (by decide +kernel), hlength hdigits' (by decide +kernel),
    hselect.trans htoken, (hmain token).mp (hselect.trans htoken)⟩

end ContractBuild
