import ContractBuild.Time.Instant
import Mathlib.Tactic.IntervalCases

/-!
# Points in time survive their text

An instant is written as a date and a time of day in universal time, and read back from them.

- **Calendar** (`Instant.civilFromDays_spec`): days fall on dates that exist, and the date leads
  back to the day. `yearOfEra_bounds` places a day of an era in its year.
- **Reading** (`Instant.number?_padded`, `Instant.year?_yearText` and
  `Instant.fraction?_fractionText`): each part of the text is read back, whatever follows it.

Main statement: `Instant.parse?_text`.
-/

namespace ContractBuild.Instant

open Text

/-! ## The calendar -/

/-- The number of days of an era before one of its years. -/
def yearStart (y : Int) : Int := 365 * y + y / 4 - y / 100

/-- The year of an era that a day of the era falls in. -/
def yearOfEra (day : Int) : Int := (day - day / 1460 + day / 36524 - day / 146096) / 365

/-- The year of a day: `c` centuries, `q` times four years, and `s` days more. The last of four
years takes the leap day. -/
theorem yearOfEra_eq {c q s : Int} (hc : 0 ≤ c ∧ c ≤ 3) (hq : 0 ≤ q ∧ q ≤ 24)
    (hs : 0 ≤ s ∧ s ≤ 1460) (hlt : 1461 * q + s < 36524) :
    yearOfEra (36524 * c + 1461 * q + s) = 100 * c + 4 * q + min (s / 365) 3 := by
  have hcentury : (36524 * c + 1461 * q + s) / 36524 = c := by omega
  have hera : (36524 * c + 1461 * q + s) / 146096 = 0 := by omega
  have hleap : (36524 * c + 1461 * q + s) / 1460 = 25 * c + q ∧ s ≤ 1459 ∨
      (36524 * c + 1461 * q + s) / 1460 = 25 * c + q + 1 ∧ 1364 ≤ s := by omega
  unfold yearOfEra
  rw [hcentury, hera]
  rcases hleap with ⟨hleap, hs'⟩ | ⟨hleap, hs'⟩ <;> rw [hleap] <;> omega

/-- A day lies between the start of its year and that of the next one. -/
theorem yearOfEra_bounds {day : Int} (h₀ : 0 ≤ day) (h₁ : day < 146097) :
    0 ≤ yearOfEra day ∧ yearOfEra day ≤ 399 ∧ yearStart (yearOfEra day) ≤ day ∧
      (yearOfEra day < 399 → day < yearStart (yearOfEra day + 1)) := by
  by_cases hlast : day = 146096
  · subst hlast
    decide
  -- the last day of an era apart, each day belongs to a whole century
  obtain ⟨c, q, s, hc, hq, hs, hlt, rfl⟩ : ∃ c q s : Int, (0 ≤ c ∧ c ≤ 3) ∧ (0 ≤ q ∧ q ≤ 24) ∧
      (0 ≤ s ∧ s ≤ 1460) ∧ 1461 * q + s < 36524 ∧ day = 36524 * c + 1461 * q + s :=
    ⟨day / 36524, day % 36524 / 1461, day % 36524 % 1461, by omega, by omega, by omega, by omega,
      by omega⟩
  obtain ⟨p, hp, hstart, hyear⟩ : ∃ p, min (s / 365) 3 = p ∧ (0 ≤ p ∧ 365 * p ≤ s) ∧
      (p < 3 ∧ s < 365 * (p + 1) ∨ p = 3) := ⟨_, rfl, by omega, by omega⟩
  rw [yearOfEra_eq hc hq hs hlt, hp]
  unfold yearStart
  have hfours : (100 * c + 4 * q + p) / 4 = 25 * c + q := by omega
  have hcenturies : (100 * c + 4 * q + p) / 100 = c := by omega
  rw [hfours, hcenturies]
  refine ⟨by omega, by omega, by omega, fun _ => ?_⟩
  rcases hyear with ⟨hp, hs'⟩ | rfl
  · have hfours : (100 * c + 4 * q + p + 1) / 4 = 25 * c + q := by omega
    have hcenturies : (100 * c + 4 * q + p + 1) / 100 = c := by omega
    omega
  · have hfours : (100 * c + 4 * q + 3 + 1) / 4 = 25 * c + q + 1 := by omega
    have hcenturies : (100 * c + 4 * q + 3 + 1) / 100 = c ∧ q < 24 ∨
        (100 * c + 4 * q + 3 + 1) / 100 = c + 1 ∧ q = 24 := by omega
    rcases hcenturies with ⟨hcenturies, hq'⟩ | ⟨hcenturies, rfl⟩ <;> omega

/-- A year has a day more than 365 only in front of a leap year: the leap day is its last. -/
theorem isLeapYear_of_last {era day : Int} (h₀ : 0 ≤ day) (h₁ : day < 146097)
    (hlast : day = yearStart (yearOfEra day) + 365) :
    isLeapYear (yearOfEra day + era * 400 + 1) = true := by
  obtain ⟨hy₀, hy₁, -, hnext⟩ := yearOfEra_bounds h₀ h₁
  generalize yearOfEra day = y at *
  have hleap : (y + 1) % 4 = 0 ∧ ((y + 1) % 100 ≠ 0 ∨ y = 399) := by
    unfold yearStart at *
    have hfour : (y + 1) / 4 = y / 4 ∨ (y + 1) / 4 = y / 4 + 1 ∧ (y + 1) % 4 = 0 := by omega
    have hhundred : (y + 1) / 100 = y / 100 ∧ (y + 1) % 100 ≠ 0 ∨
        (y + 1) / 100 = y / 100 + 1 := by omega
    omega
  have hfour : (y + era * 400 + 1) % 4 = 0 := by omega
  have hhundred : (y + era * 400 + 1) % 100 ≠ 0 ∨ (y + era * 400 + 1) % 400 = 0 := by omega
  rcases hhundred with h | h <;> simp [isLeapYear, hfour, h]

/-- The month with a number from March on. -/
def month (mp : Int) : Nat := (if mp < 10 then mp + 3 else mp - 9).toNat

/-- The year of a month, for a year `y` that starts in March. -/
def civilYear (y mp : Int) : Int := if mp < 10 then y else y + 1

/-- The days before a date are those of its era, its year, its month and itself. -/
theorem daysFromCivil_month {era y mp : Int} (hy : 0 ≤ y ∧ y ≤ 399) (hmp : 0 ≤ mp ∧ mp ≤ 11)
    (d : Nat) :
    daysFromCivil (civilYear (y + era * 400) mp) (month mp) d =
      era * 146097 + (yearStart y + ((153 * mp + 2) / 5 + d - 1)) - 719468 := by
  have hyear : (if month mp ≤ 2 then civilYear (y + era * 400) mp - 1
      else civilYear (y + era * 400) mp) = y + era * 400 := by
    unfold month civilYear
    split_ifs <;> omega
  have hmonth : (if 2 < month mp then (month mp : Int) - 3 else month mp + 9) = mp := by
    unfold month
    split_ifs <;> omega
  have hera : (y + era * 400) / 400 = era := by omega
  have hrest : y + era * 400 - era * 400 = y := by omega
  unfold daysFromCivil yearStart
  simp only [hyear, hmonth, Int.fdiv_eq_ediv_of_nonneg _ (by decide : (0 : Int) ≤ 400),
    Int.fdiv_eq_ediv_of_nonneg _ (by decide : (0 : Int) ≤ 5),
    Int.fdiv_eq_ediv_of_nonneg _ (by decide : (0 : Int) ≤ 4),
    Int.fdiv_eq_ediv_of_nonneg _ (by decide : (0 : Int) ≤ 100), hera, hrest]
  omega

/-- A day of a year that starts in March is a day of its month. -/
theorem dayOfMonth_bounds {y mp day : Int} (hmp : 0 ≤ mp ∧ mp ≤ 11)
    (hday : 153 * mp ≤ 5 * day + 2 ∧ 5 * day + 2 < 153 * mp + 153) (hlast : day ≤ 365)
    (hleap : day = 365 → isLeapYear (y + 1) = true) :
    1 ≤ day - (153 * mp + 2) / 5 + 1 ∧
      day - (153 * mp + 2) / 5 + 1 ≤ daysInMonth (civilYear y mp) (month mp) := by
  obtain ⟨h₀, h₁⟩ := hmp
  by_cases hfebruary : mp = 11
  · subst hfebruary
    have hlength :
        daysInMonth (civilYear y 11) (month 11) = if isLeapYear (y + 1) then 29 else 28 := rfl
    rw [hlength]
    split_ifs with hyear
    · omega
    · have hshort : day ≠ 365 := fun h => hyear (hleap h)
      omega
  · interval_cases mp <;> simp only [month, civilYear, daysInMonth] <;> norm_num <;> omega

/-- The date of a day, from its era, its year and its month. -/
theorem civilFromDays_eq {days era day mp : Int} (hera : (days + 719468) / 146097 = era)
    (hday : days + 719468 - era * 146097 = day)
    (hmp : (5 * (day - yearStart (yearOfEra day)) + 2) / 153 = mp) (h₀ : 0 ≤ mp) (h₁ : mp ≤ 11) :
    civilFromDays days = (civilYear (yearOfEra day + era * 400) mp, month mp,
      (day - yearStart (yearOfEra day) - (153 * mp + 2) / 5 + 1).toNat) := by
  have hyear : (if (if mp < 10 then mp + 3 else mp - 9) ≤ 2 then yearOfEra day + era * 400 + 1
      else yearOfEra day + era * 400) = civilYear (yearOfEra day + era * 400) mp := by
    unfold civilYear
    split_ifs <;> omega
  rw [← hyear]
  unfold civilFromDays
  subst hmp hday hera
  simp only [Int.fdiv_eq_ediv_of_nonneg _ (by decide : (0 : Int) ≤ 146097),
    Int.fdiv_eq_ediv_of_nonneg _ (by decide : (0 : Int) ≤ 1460),
    Int.fdiv_eq_ediv_of_nonneg _ (by decide : (0 : Int) ≤ 36524),
    Int.fdiv_eq_ediv_of_nonneg _ (by decide : (0 : Int) ≤ 146096),
    Int.fdiv_eq_ediv_of_nonneg _ (by decide : (0 : Int) ≤ 365),
    Int.fdiv_eq_ediv_of_nonneg _ (by decide : (0 : Int) ≤ 4),
    Int.fdiv_eq_ediv_of_nonneg _ (by decide : (0 : Int) ≤ 100),
    Int.fdiv_eq_ediv_of_nonneg _ (by decide : (0 : Int) ≤ 153),
    Int.fdiv_eq_ediv_of_nonneg _ (by decide : (0 : Int) ≤ 5)]
  rfl

/-- **A day falls on a date that exists, and the date leads back to the day.** -/
theorem civilFromDays_spec (days : Int) :
    ∃ y m d, civilFromDays days = (y, m, d) ∧
      (1 ≤ m ∧ m ≤ 12 ∧ 1 ≤ d ∧ d ≤ daysInMonth y m) ∧ daysFromCivil y m d = days := by
  obtain ⟨era, hera⟩ : ∃ era, (days + 719468) / 146097 = era := ⟨_, rfl⟩
  obtain ⟨day, hday⟩ : ∃ day, days + 719468 - era * 146097 = day := ⟨_, rfl⟩
  have h₀ : 0 ≤ day := by omega
  have h₁ : day < 146097 := by omega
  obtain ⟨hy₀, hy₁, hstart, hnext⟩ := yearOfEra_bounds h₀ h₁
  have hleap := @isLeapYear_of_last era day h₀ h₁
  have hlast : day - yearStart (yearOfEra day) ≤ 365 := by
    unfold yearStart at *
    generalize yearOfEra day = y at *
    have hfour : (y + 1) / 4 ≤ y / 4 + 1 := by omega
    have hhundred : y / 100 ≤ (y + 1) / 100 := by omega
    omega
  obtain ⟨mp, hmp⟩ : ∃ mp, (5 * (day - yearStart (yearOfEra day)) + 2) / 153 = mp := ⟨_, rfl⟩
  have hmp₀ : 0 ≤ mp := by omega
  have hmp₁ : mp ≤ 11 := by omega
  have heq := civilFromDays_eq hera hday hmp hmp₀ hmp₁
  have hbounds := @dayOfMonth_bounds (yearOfEra day + era * 400) mp _ ⟨hmp₀, hmp₁⟩ (by omega) hlast
    fun h => hleap (by omega)
  obtain ⟨d, hd⟩ : ∃ d : Nat, day - yearStart (yearOfEra day) - (153 * mp + 2) / 5 + 1 = d :=
    ⟨(day - yearStart (yearOfEra day) - (153 * mp + 2) / 5 + 1).toNat, by omega⟩
  rw [hd] at heq hbounds
  have hmonth : 1 ≤ month mp ∧ month mp ≤ 12 := by
    unfold month
    split_ifs <;> omega
  refine ⟨_, _, _, heq, ⟨hmonth.1, hmonth.2, ?_, ?_⟩, ?_⟩
  · exact Int.ofNat_le.mp hbounds.1
  · exact Int.ofNat_le.mp hbounds.2
  · rw [Int.toNat_natCast, daysFromCivil_month ⟨hy₀, hy₁⟩ ⟨hmp₀, hmp₁⟩]
    omega

/-! ## Digits -/

/-- A text that does not go on with a digit. -/
def StopsDigits (cs : List Char) : Prop := ∀ c ∈ cs.head?, c.isDigit = false

theorem takeWhile_take_of_stopsDigits {rest : List Char} (h : StopsDigits rest) (n : Nat) :
    (rest.take n).takeWhile Char.isDigit = [] := by
  cases rest with
  | nil => simp
  | cons c rest =>
    cases n with
    | zero => rfl
    | succ n => simp [h c rfl]

/-- Digits are read up to the width, or up to what stops them. -/
theorem number?_append {width : Nat} {ds rest : List Char} (hds : ∀ c ∈ ds, c.isDigit = true)
    (hne : ds ≠ []) (hlength : ds.length ≤ width)
    (hrest : ds.length = width ∨ StopsDigits rest) :
    number? width (ds ++ rest) = some (Nat.ofDigitChars 10 ds 0, ds.length, rest) := by
  have htaken : ((ds ++ rest).take width).takeWhile Char.isDigit = ds := by
    rw [List.take_append, List.take_of_length_le hlength, List.takeWhile_append_of_pos hds]
    rcases hrest with rfl | hrest
    · simp
    · rw [takeWhile_take_of_stopsDigits hrest, List.append_nil]
  have hvalue : ds.foldl (fun n c => n * 10 + (c.toNat - 48)) 0 = Nat.ofDigitChars 10 ds 0 := by
    unfold Nat.ofDigitChars
    congr 1
    funext n c
    rw [Nat.mul_comm]
    rfl
  simp only [number?, htaken, hvalue, List.drop_left]
  rw [if_neg (by simpa using hne)]

theorem toList_padded (width n : Nat) :
    (padded width n).toList =
      List.replicate (width - (Nat.toDigits 10 n).length) '0' ++ Nat.toDigits 10 n := by
  rw [padded, String.toList_ofList]

theorem isDigit_of_mem_padded {width n : Nat} {c : Char} (h : c ∈ (padded width n).toList) :
    c.isDigit = true := by
  rw [toList_padded, List.mem_append] at h
  rcases h with h | h
  · rw [List.eq_of_mem_replicate h]
    rfl
  · exact Nat.isDigit_of_mem_toDigits (by omega) (by omega) h

theorem padded_ne_nil (width n : Nat) : (padded width n).toList ≠ [] := by
  rw [toList_padded]
  simp

theorem length_padded {width n : Nat} (hwidth : 0 < width) (h : n < Nat.pow 10 width) :
    (padded width n).toList.length = width := by
  have hlength := (Nat.length_toDigits_le_iff (by omega) hwidth).mpr h
  rw [toList_padded, List.length_append, List.length_replicate]
  omega

/-- Zeros in front of a number do not count. -/
theorem ofDigitChars_padded (width n : Nat) :
    Nat.ofDigitChars 10 (padded width n).toList 0 = n := by
  have hzeros (k : Nat) : Nat.ofDigitChars 10 (List.replicate k '0') 0 = 0 := by
    induction k with
    | zero => rfl
    | succ k ih => rw [List.replicate_succ, Nat.ofDigitChars_cons]; exact ih
  rw [toList_padded, Nat.ofDigitChars_append, hzeros, Nat.ofDigitChars_ten_toDigits]

/-- **A number is read back from its digits.** -/
theorem number?_padded {width n : Nat} (hwidth : 0 < width) (h : n < Nat.pow 10 width)
    (rest : List Char) :
    number? width ((padded width n).toList ++ rest) = some (n, width, rest) := by
  have hlength := length_padded hwidth h
  rw [number?_append (fun _ => isDigit_of_mem_padded) (padded_ne_nil width n) hlength.le
    (.inl hlength), ofDigitChars_padded, hlength]

/-! ## Parts of the text -/

theorem isSpace_of_isDigit {c : Char} (h : c.isDigit = true) : isSpace c = false := by
  have hrange : 48 ≤ c.toNat ∧ c.toNat ≤ 57 := by
    simpa [Char.isDigit, UInt32.le_iff_toNat_le] using h
  simp only [isSpace, Bool.or_eq_false_iff, Bool.and_eq_false_iff, decide_eq_false_iff_not,
    beq_eq_false_iff_ne]
  omega

/-- No spaces are skipped before a number. -/
theorem trimStart_padded (width n : Nat) (rest : List Char) :
    trimStart ((padded width n).toList ++ rest) = (padded width n).toList ++ rest := by
  obtain ⟨c, cs, hcs⟩ := List.exists_cons_of_ne_nil (padded_ne_nil width n)
  have hc : c.isDigit = true := isDigit_of_mem_padded (hcs ▸ List.mem_cons_self)
  rw [hcs, List.cons_append, trimStart,
    List.dropWhile_cons_of_neg (by simp [isSpace_of_isDigit hc])]

theorem field?_padded {n : Nat} (h : n < 100) (rest : List Char) :
    field? ((padded 2 n).toList ++ rest) = some (n, rest) := by
  rw [field?, trimStart_padded, number?_padded (by omega) h]
  rfl

theorem separator?_self {c : Char} (h : isSpace c = false) (rest : List Char) :
    separator? c (c :: rest) = some rest := by
  rw [separator?, trimStart, List.dropWhile_cons_of_neg (by simp [h])]
  simp

theorem year?_minus (cs : List Char) :
    year? ('-' :: cs) = (number? cs.length cs).map fun r => (-(r.1 : Int), r.2.2) := rfl

theorem year?_plus (cs : List Char) :
    year? ('+' :: cs) = (number? cs.length cs).map fun r => ((r.1 : Int), r.2.2) := rfl

/-- **A year is read back**, with its sign if it has one. -/
theorem year?_yearText (y : Int) {rest : List Char} (hrest : StopsDigits rest) :
    year? ((yearText y).toList ++ rest) = some (y, rest) := by
  have hsigned (n : Nat) : number? ((padded 4 n).toList ++ rest).length
      ((padded 4 n).toList ++ rest) = some (n, (padded 4 n).toList.length, rest) := by
    rw [number?_append (fun _ => isDigit_of_mem_padded) (padded_ne_nil 4 n) (by simp)
      (.inr hrest), ofDigitChars_padded]
  unfold yearText
  split_ifs with hplain hnegative
  · -- four digits without a sign: the first one is no sign either
    have hlength := @length_padded 4 y.toNat (by omega) (by show _ < 10000; omega)
    obtain ⟨c, cs, hcs⟩ := List.exists_cons_of_ne_nil (padded_ne_nil 4 y.toNat)
    have hc : c.isDigit = true := isDigit_of_mem_padded (hcs ▸ List.mem_cons_self)
    have hread := @number?_padded 4 y.toNat (by omega) (by show _ < 10000; omega) rest
    unfold year?
    rw [trimStart_padded]
    rw [hcs, List.cons_append] at hread ⊢
    split
    · rename_i heq
      cases heq
      cases hc
    · rename_i heq
      cases heq
      cases hc
    · rw [hread]
      simp only [Option.map_some, Option.some.injEq, Prod.mk.injEq, and_true]
      omega
  · have htext : ("-" ++ padded 4 y.natAbs).toList ++ rest =
        '-' :: ((padded 4 y.natAbs).toList ++ rest) := by rw [String.toList_append]; rfl
    rw [htext, year?_minus, hsigned]
    simp only [Option.map_some, Option.some.injEq, Prod.mk.injEq, and_true]
    omega
  · have htext : ("+" ++ padded 4 y.natAbs).toList ++ rest =
        '+' :: ((padded 4 y.natAbs).toList ++ rest) := by rw [String.toList_append]; rfl
    rw [htext, year?_plus, hsigned]
    simp only [Option.map_some, Option.some.injEq, Prod.mk.injEq, and_true]
    omega

/-- **A fraction of a second is read back** from as few places as it takes. -/
theorem fraction?_fractionText {n : Nat} (h : n < 1000000000) :
    fraction? ((fractionText n).toList ++ ['Z']) = some (n, ['Z']) := by
  have hplaces (width k : Nat) (hwidth : 0 < width) (hk : k < Nat.pow 10 width)
      (hn : k * Nat.pow 10 (9 - width) = n) (hnine : width ≤ 9) :
      fraction? (("." ++ padded width k).toList ++ ['Z']) = some (n, ['Z']) := by
    have hread : number? 9 ((padded width k).toList ++ ['Z']) = some (k, width, ['Z']) := by
      rw [number?_append (fun _ => isDigit_of_mem_padded) (padded_ne_nil width k)
        ((length_padded hwidth hk).trans_le hnine) (.inr (by simp [StopsDigits])),
        ofDigitChars_padded, length_padded hwidth hk]
    have htext : ("." ++ padded width k).toList ++ ['Z'] =
        '.' :: ((padded width k).toList ++ ['Z']) := by rw [String.toList_append]; rfl
    rw [htext, fraction?]
    simp only [hread, Option.map_some, hn]
    rfl
  unfold fractionText
  simp only [beq_iff_eq]
  split_ifs with hnone hmillis hmicros
  · rw [hnone]
    rfl
  · exact hplaces 3 _ (by omega) (by show _ < 1000; omega) (by show _ * 1000000 = _; omega)
      (by omega)
  · exact hplaces 6 _ (by omega) (by show _ < 1000000; omega) (by show _ * 1000 = _; omega)
      (by omega)
  · exact hplaces 9 n (by omega) h (Nat.mul_one n) (by omega)

/-! ## Whole texts -/

/-- A date and a time of day in universal time. -/
def layout (y : Int) (m d hour minute second fraction : Nat) : List Char :=
  (yearText y).toList ++ '-' :: ((padded 2 m).toList ++ '-' :: ((padded 2 d).toList ++
    'T' :: ((padded 2 hour).toList ++ ':' :: ((padded 2 minute).toList ++
      ':' :: ((padded 2 second).toList ++ ((fractionText fraction).toList ++ ['Z']))))))

/-- A date and a time that exist are read back. A second behind the last of a minute is a leap
second. -/
theorem parse?_layout {s : String} {y : Int} {m d hour minute second fraction : Nat}
    (hs : s.toList = layout y m d hour minute second fraction)
    (hy : -262143 ≤ y ∧ y ≤ 262142) (hdate : 1 ≤ m ∧ m ≤ 12 ∧ 1 ≤ d ∧ d ≤ daysInMonth y m)
    (htime : hour < 24 ∧ minute < 60 ∧ second ≤ 60) (hfraction : fraction < 1000000000) :
    parse? s = some ⟨daysFromCivil y m d * 86400 + hour * 3600 + minute * 60 + min second 59,
      if second = 60 then fraction + 1000000000 else fraction⟩ := by
  have hd : d < 100 := by
    have hmonth : daysInMonth y m ≤ 31 := by
      unfold daysInMonth
      split_ifs <;> omega
    omega
  have hoffset : offset? (trimStart ['Z']) = some (0, []) := rfl
  have hend : (trimStart []).isEmpty = true := rfl
  unfold parse?
  rw [hs, layout, year?_yearText y (by simp [StopsDigits])]
  dsimp only [Option.bind_eq_bind, Option.bind_some]
  rw [separator?_self (by decide), Option.bind_some, field?_padded (show m < 100 by omega),
    Option.bind_some, separator?_self (by decide), Option.bind_some, field?_padded hd,
    Option.bind_some]
  show (field? _).bind _ = _
  rw [field?_padded (show hour < 100 by omega), Option.bind_some, separator?_self (by decide),
    Option.bind_some, field?_padded (show minute < 100 by omega), Option.bind_some,
    separator?_self (by decide), Option.bind_some, field?_padded (show second < 100 by omega),
    Option.bind_some, fraction?_fractionText hfraction, Option.bind_some, hoffset, Option.bind_some]
  have hzero : (-86400 : Int) < 0 ∧ (0 : Int) < 86400 := by decide
  simp only [guard, hend, hy, hdate, htime, hzero, if_true, and_self, pure, Option.bind_some,
    Option.some.injEq, Instant.mk.injEq]
  by_cases hleap : second = 60
  · subst hleap
    exact ⟨by simp, by simp⟩
  · simp only [beq_iff_eq, hleap, if_false, Nat.add_zero, and_true]
    omega

/-- A point in time that a clock can show: its year has at most six digits, and the leap second is
the last of a minute. -/
structure IsValid (t : Instant) : Prop where
  year : -262143 ≤ (civilFromDays (t.seconds.fdiv 86400)).1 ∧
    (civilFromDays (t.seconds.fdiv 86400)).1 ≤ 262142
  fraction : t.nanos < 1000000000 ∨ t.nanos < 2000000000 ∧ t.seconds % 60 = 59

theorem toList_text (t : Instant) :
    let date := civilFromDays (t.seconds.fdiv 86400)
    let rest := (t.seconds - t.seconds.fdiv 86400 * 86400).toNat
    let leap := if 1000000000 ≤ t.nanos then 1 else 0
    t.text.toList = layout date.1 date.2.1 date.2.2 (rest / 3600) (rest / 60 % 60)
      (rest % 60 + leap) (t.nanos - leap * 1000000000) := by
  intro date rest leap
  have hfraction : (if 1000000000 ≤ t.nanos then (1, t.nanos - 1000000000) else (0, t.nanos)) =
      (leap, t.nanos - leap * 1000000000) := by
    simp only [leap]
    split_ifs <;> simp
  have hclock (a b c : String) :
      (":".intercalate [a, b, c]).toList = a.toList ++ ':' :: (b.toList ++ ':' :: c.toList) := by
    simp
  unfold text layout
  rw [hfraction]
  have hdash : "-".toList = ['-'] := rfl
  have hmiddle : "T".toList = ['T'] := rfl
  have hend : "Z".toList = ['Z'] := rfl
  simp only [String.toList_append, List.append_assoc, toString, hclock, List.cons_append, hdash,
    hmiddle, hend, List.nil_append, date, rest]

/-- **A point in time is read back from its text.** -/
theorem parse?_text {t : Instant} (h : t.IsValid) : parse? t.text = some t := by
  obtain ⟨y, m, d, hcivil, hdate, hdays⟩ := civilFromDays_spec (t.seconds.fdiv 86400)
  have hyear := h.year
  have htext := t.toList_text
  rw [hcivil] at hyear htext
  have hfdiv : t.seconds.fdiv 86400 = t.seconds / 86400 :=
    Int.fdiv_eq_ediv_of_nonneg _ (by decide)
  obtain ⟨rest, hrest⟩ : ∃ rest : Nat, t.seconds - t.seconds.fdiv 86400 * 86400 = rest :=
    ⟨(t.seconds - t.seconds.fdiv 86400 * 86400).toNat, by omega⟩
  rw [hrest, Int.toNat_natCast] at htext
  have hfraction := h.fraction
  have hparsed := parse?_layout htext hyear hdate (by split_ifs <;> omega) (by split_ifs <;> omega)
  rw [hparsed, hdays]
  obtain ⟨seconds, nanos⟩ := t
  simp only [Option.some.injEq, Instant.mk.injEq] at *
  split_ifs at * <;> omega

end ContractBuild.Instant
