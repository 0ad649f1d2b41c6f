import Kubeka.Model.Periodic
import Mathlib.Data.List.TakeWhile

/-!
# Periods

A period is a numeral with a unit. `parse_unit` tests whether a unit of one
letter is known and returns the result of the test, which is the number of
seconds of a second. The product of number and unit has 32 bits, and a numeral
that is too large is cut to as many. When no unit follows the digits, the byte
behind the end of the text decides.
-/

namespace Kubeka

/-- The spellings of the units and their seconds. -/
def unitSpellings : List (CStr × ℕ) :=
  [("s".toList, 1), ("sec".toList, 1), ("secs".toList, 1), ("second".toList, 1),
    ("seconds".toList, 1), ("m".toList, 60), ("min".toList, 60), ("mins".toList, 60),
    ("minute".toList, 60), ("minutes".toList, 60), ("h".toList, 3600), ("hr".toList, 3600),
    ("hrs".toList, 3600), ("hour".toList, 3600), ("hours".toList, 3600), ("d".toList, 86400),
    ("day".toList, 86400), ("days".toList, 86400)]

/-- The units of one letter that are not seconds. -/
def shortUnits : List CStr := ["m".toList, "h".toList, "d".toList]

/-- The text says a period of so many seconds. -/
def IsPeriod (text : CStr) (seconds : ℕ) : Prop :=
  ∃ (d : Numeral) (unit : CStr × ℕ), unit ∈ unitSpellings ∧ text = d.digits ++ unit.1 ∧
    d.value < 2 ^ 32 ∧ seconds = d.value * unit.2

/-- A period has the value that it says, and nothing else is one, whatever stands behind the end of
the text. -/
structure ParsedAsPeriod (text : CStr) : Prop where
  accepted : ∀ seconds, IsPeriod text seconds → ∀ nul now,
    ∃ kbp, kbperiodParse nul text = some kbp ∧ kbperiodReset kbp now = now + seconds
  rejected : (∀ seconds, ¬ IsPeriod text seconds) → ∀ nul, kbperiodParse nul text = none

/-! ### Units -/

theorem parseUnit_spelling (nul : Bool) : ∀ unit ∈ unitSpellings,
    parseUnit nul unit.1 = if unit.1 ∈ shortUnits then 1 else unit.2 := by
  cases nul <;> decide

/-- Every spelling that the parser knows is listed. -/
theorem parseUnit_unknown (nul : Bool) {text : CStr} (hne : text ≠ [])
    (h : ∀ unit ∈ unitSpellings, text ≠ unit.1) : parseUnit nul text = 0 := by
  match text with
  | [] => exact absurd rfl hne
  | [c] =>
    have hletters : ∀ c ∈ "smhd".toList, ∃ unit ∈ unitSpellings, [c] = unit.1 := by
      simp [unitSpellings]
    have hc : c ∉ "smhd".toList := fun hmem => by
      obtain ⟨unit, hunit, heq⟩ := hletters c hmem
      exact h unit hunit heq
    simp only [parseUnit, if_neg hc]
  | c :: c' :: rest =>
    have hlisted : ∀ s ∈ periodSuffixes, s ∈ unitSpellings := by decide
    have hnone : (periodSuffixes.find? fun s => c :: c' :: rest = s.1) = none := by
      rw [List.find?_eq_none]
      intro s hs
      simpa using h s (hlisted s hs)
    simp only [parseUnit, hnone]

theorem head_of_unit : ∀ unit ∈ unitSpellings, unit.1 ≠ [] ∧ ∀ c ∈ unit.1.head?,
    c.isDigit = false := by
  simp [unitSpellings]

theorem unit_inj : ∀ unit ∈ unitSpellings, ∀ unit' ∈ unitSpellings, unit.1 = unit'.1 →
    unit.2 = unit'.2 := by decide

/-! ### Numerals with something behind them -/

variable {rest : CStr}

/-- The digits in front of a text. -/
theorem exists_numeral {text : CStr} (h : text.takeWhile Char.isDigit ≠ []) :
    ∃ d : Numeral, text.takeWhile Char.isDigit = d.digits ∧
      text = d.digits ++ text.dropWhile Char.isDigit ∧
      ∀ c ∈ (text.dropWhile Char.isDigit).head?, c.isDigit = false := by
  refine ⟨⟨text.takeWhile Char.isDigit, h, fun c hc => List.mem_takeWhile_imp hc⟩, rfl,
    List.takeWhile_append_dropWhile.symm, fun c hc => ?_⟩
  have hhead := List.head?_dropWhile_not Char.isDigit text
  rw [Option.mem_def.mp hc] at hhead
  simpa using hhead

theorem kbperiodParse_numeral (nul : Bool) (d : Numeral)
    (h : ∀ c ∈ rest.head?, c.isDigit = false) : kbperiodParse nul (d.digits ++ rest) =
      if parseUnit nul rest = 0 then none
      else some { unit := parseUnit nul rest, nunits := min d.value (2 ^ 64 - 1) % 2 ^ 32 } := by
  obtain ⟨htake, hdrop⟩ := takeWhile_numeral d h
  unfold kbperiodParse
  rw [htake, hdrop, sscanfUnsigned_numeral 32 d h]
  simp [d.ne_nil]

/-- A period is split where its digits end. -/
theorem isPeriod_numeral_iff (d : Numeral) (h : ∀ c ∈ rest.head?, c.isDigit = false)
    (seconds : ℕ) : IsPeriod (d.digits ++ rest) seconds ↔
      d.value < 2 ^ 32 ∧ ∃ unit ∈ unitSpellings, rest = unit.1 ∧ seconds = d.value * unit.2 := by
  constructor
  · rintro ⟨d', unit, hunit, htext, hlt, hseconds⟩
    obtain ⟨htake, hdrop⟩ := takeWhile_numeral d h
    obtain ⟨htake', hdrop'⟩ := takeWhile_numeral d' (head_of_unit unit hunit).2
    have hvalue : d.value = d'.value := by
      rw [Numeral.value, Numeral.value, ← htake, ← htake', htext]
    rw [hvalue]
    exact ⟨hlt, unit, hunit, by rw [← hdrop, htext, hdrop'], hseconds⟩
  · rintro ⟨hlt, unit, hunit, rfl, hseconds⟩
    exact ⟨d, unit, hunit, rfl, hlt, hseconds⟩

theorem not_isPeriod_of_no_digits {text : CStr} (h : text.takeWhile Char.isDigit = [])
    (seconds : ℕ) : ¬ IsPeriod text seconds := by
  rintro ⟨d, unit, hunit, rfl, -⟩
  rw [(takeWhile_numeral d (head_of_unit unit hunit).2).1] at h
  exact d.ne_nil h

/-! ### Periods -/

theorem isPeriod_unit_iff (d : Numeral) {unit : CStr × ℕ} (hunit : unit ∈ unitSpellings)
    (seconds : ℕ) : IsPeriod (d.digits ++ unit.1) seconds ↔
      d.value < 2 ^ 32 ∧ seconds = d.value * unit.2 := by
  rw [isPeriod_numeral_iff d (head_of_unit unit hunit).2]
  constructor
  · rintro ⟨hlt, unit', hunit', heq, rfl⟩
    exact ⟨hlt, by rw [unit_inj unit hunit unit' hunit' heq]⟩
  · rintro ⟨hlt, rfl⟩
    exact ⟨hlt, unit, hunit, rfl, rfl⟩

/-- The seconds that the parser makes of a number with a known unit. -/
theorem kbperiodParse_unit (nul : Bool) (d : Numeral) {unit : CStr × ℕ}
    (hunit : unit ∈ unitSpellings) : ∃ kbp, kbperiodParse nul (d.digits ++ unit.1) = some kbp ∧
      kbp.seconds = (if unit.1 ∈ shortUnits then 1 else unit.2) *
        (min d.value (2 ^ 64 - 1) % 2 ^ 32) % 2 ^ 32 := by
  have hpos : ∀ unit ∈ unitSpellings, (if unit.1 ∈ shortUnits then 1 else unit.2) ≠ 0 := by decide
  rw [kbperiodParse_numeral nul d (head_of_unit unit hunit).2, parseUnit_spelling nul unit hunit,
    if_neg (hpos unit hunit)]
  exact ⟨_, rfl, rfl⟩

/-- A number with a known unit has the value that it says exactly when this is small enough, and 0
if the unit is a short one. -/
theorem parsedAsPeriod_unit_iff (d : Numeral) {unit : CStr × ℕ} (hunit : unit ∈ unitSpellings) :
    ParsedAsPeriod (d.digits ++ unit.1) ↔
      d.value * unit.2 < 2 ^ 32 ∧ (unit.1 ∈ shortUnits → d.value = 0) := by
  have hseconds : ∀ unit ∈ unitSpellings, 1 ≤ unit.2 ∧ (unit.1 ∈ shortUnits → 2 ≤ unit.2) := by
    decide
  obtain ⟨hpos, hlong⟩ := hseconds unit hunit
  constructor
  · intro h
    have hlt : d.value < 2 ^ 32 := by
      by_contra hbig
      have hno : ∀ seconds, ¬ IsPeriod (d.digits ++ unit.1) seconds := by
        intro seconds hperiod
        exact hbig ((isPeriod_unit_iff d hunit seconds).mp hperiod).1
      obtain ⟨kbp, hkbp, -⟩ := kbperiodParse_unit true d hunit
      simp [h.rejected hno true] at hkbp
    obtain ⟨kbp, hkbp, hreset⟩ := h.accepted _ ((isPeriod_unit_iff d hunit _).mpr ⟨hlt, rfl⟩) true 0
    obtain ⟨kbp', hkbp', hvalue⟩ := kbperiodParse_unit true d hunit
    obtain rfl := Option.some.inj (hkbp.symm.trans hkbp')
    rw [kbperiodReset, Nat.zero_add, Nat.zero_add, hvalue] at hreset
    refine ⟨by rw [← hreset]; exact Nat.mod_lt _ (by decide), fun hshort => ?_⟩
    have hmin : min d.value (2 ^ 64 - 1) = d.value := by omega
    rw [if_pos hshort, Nat.one_mul, hmin, Nat.mod_mod, Nat.mod_eq_of_lt hlt] at hreset
    have hdouble := Nat.mul_le_mul_left d.value (hlong hshort)
    omega
  · rintro ⟨hprod, hshort⟩
    have hle := Nat.mul_le_mul_left d.value hpos
    have hlt : d.value < 2 ^ 32 := by omega
    constructor
    · intro seconds hperiod nul now
      obtain ⟨-, rfl⟩ := (isPeriod_unit_iff d hunit seconds).mp hperiod
      obtain ⟨kbp, hkbp, hvalue⟩ := kbperiodParse_unit nul d hunit
      have hmin : min d.value (2 ^ 64 - 1) = d.value := by omega
      refine ⟨kbp, hkbp, ?_⟩
      rw [kbperiodReset, hvalue, hmin, Nat.mod_eq_of_lt hlt]
      split_ifs with hletter
      · simp [hshort hletter]
      · rw [Nat.mul_comm, Nat.mod_eq_of_lt hprod]
    · intro hno
      exact absurd ((isPeriod_unit_iff d hunit _).mpr ⟨hlt, rfl⟩) (hno _)

/-- A text is parsed as the period that it says exactly when it has no digits in front, or something
behind them that is no unit or one with which the seconds are fewer than 2^32, and none when the
unit is a short one. -/
theorem parsedAsPeriod_iff (text : CStr) : ParsedAsPeriod text ↔
    text.takeWhile Char.isDigit = [] ∨ text.dropWhile Char.isDigit ≠ [] ∧
      ∀ unit ∈ unitSpellings, text.dropWhile Char.isDigit = unit.1 →
        decimal (text.takeWhile Char.isDigit) * unit.2 < 2 ^ 32 ∧
          (unit.1 ∈ shortUnits → decimal (text.takeWhile Char.isDigit) = 0) := by
  by_cases hdigits : text.takeWhile Char.isDigit = []
  · refine iff_of_true ⟨?_, ?_⟩ (.inl hdigits)
    · intro seconds hperiod
      exact absurd hperiod (not_isPeriod_of_no_digits hdigits seconds)
    · intro _ nul
      simp [kbperiodParse, hdigits]
  · rw [or_iff_right hdigits]
    obtain ⟨d, htake, htext, hhead⟩ := exists_numeral hdigits
    rw [htake]
    generalize text.dropWhile Char.isDigit = rest at htext hhead ⊢
    subst htext
    by_cases hunit : ∃ unit ∈ unitSpellings, rest = unit.1
    · obtain ⟨unit, hunit, rfl⟩ := hunit
      rw [parsedAsPeriod_unit_iff d hunit, and_iff_right (head_of_unit unit hunit).1]
      constructor
      · intro h unit' hunit' heq
        rwa [← heq, ← unit_inj unit hunit unit' hunit' heq]
      · intro h
        exact h unit hunit rfl
    · push Not at hunit
      have hno : ∀ seconds, ¬ IsPeriod (d.digits ++ rest) seconds := by
        intro seconds hperiod
        obtain ⟨-, unit, hmem, heq, -⟩ := (isPeriod_numeral_iff d hhead seconds).mp hperiod
        exact hunit unit hmem heq
      constructor
      · intro h
        refine ⟨?_, fun unit hmem heq => absurd heq (hunit unit hmem)⟩
        rintro rfl
        have hrejected := h.rejected hno true
        rw [kbperiodParse_numeral true d hhead] at hrejected
        simp [parseUnit] at hrejected
      · rintro ⟨hne, -⟩
        refine ⟨fun seconds hperiod => absurd hperiod (hno seconds), fun _ nul => ?_⟩
        rw [kbperiodParse_numeral nul d hhead, parseUnit_unknown nul hne hunit, if_pos rfl]

/-- A minute is taken for a second, and digits without a unit may be accepted. -/
theorem oneMinute_not_parsedAsPeriod :
    (kbperiodParse false "1m".toList).map (kbperiodReset · 0) = some 1 ∧
      ¬ ParsedAsPeriod "1m".toList ∧ ¬ ParsedAsPeriod "1".toList := by
  have hno : ∀ seconds, ¬ IsPeriod "1".toList seconds := by
    rintro seconds ⟨d, unit, hunit, htext, -⟩
    obtain ⟨hunit, hhead⟩ := head_of_unit unit hunit
    have hdrop := (takeWhile_numeral d hhead).2
    rw [← htext] at hdrop
    exact hunit hdrop.symm
  refine ⟨by decide, fun h => ?_, fun h => ?_⟩
  · have hperiod : IsPeriod "1m".toList 60 :=
      ⟨⟨"1".toList, by decide, List.all_eq_true.mp (by decide)⟩, ("m".toList, 60), by decide,
        by decide, by decide, by decide⟩
    obtain ⟨kbp, hkbp, hreset⟩ := h.accepted 60 hperiod false 0
    obtain rfl := Option.some.inj hkbp
    exact absurd hreset (by decide)
  · exact absurd (h.rejected hno true) (by decide)

end Kubeka
