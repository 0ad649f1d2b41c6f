import Kubeka.Config.Instances
import Kubeka.Eval.Kept
import Kubeka.Run.Periods
import Kubeka.Run.Schedule

/-!
# Nodes that the linter and the thread accept

`nc_periodic` looks at the configured values of a periodic node and
`th_periodic` at the first values of the evaluated root. A period has no
reference, so it is the same in both places. A COUNTER may have references, but
behind its first digit only, and that is all that `sscanf` needs.
-/

namespace Kubeka

open Fuel

/-! ### Both parsers on a text -/

/-- Blanks and a sign, as they may stand in front of the digits of a number. -/
def IsNumberFront (front : CStr) : Prop :=
  ∃ blanks sign, front = blanks ++ sign ∧ (∀ c ∈ blanks, isspace c = true) ∧
    (sign = [] ∨ sign = ['-'] ∨ sign = ['+'])

theorem exists_digit {text : CStr} (h : text.takeWhile Char.isDigit ≠ []) :
    ∃ d rest, text = d :: rest ∧ d.isDigit = true := by
  cases text with
  | nil => simp at h
  | cons d rest =>
    refine ⟨d, rest, rfl, ?_⟩
    by_contra hd
    exact h (List.takeWhile_cons_of_neg hd)

/-- A number is read from a text that begins with one. -/
theorem sscanfUnsigned_isSome_iff {w : ℕ} {s : CStr} : (sscanfUnsigned w s).isSome = true ↔
    ∃ front d rest, s = front ++ d :: rest ∧ IsNumberFront front ∧ d.isDigit = true := by
  constructor
  · intro h
    have hs : s = s.takeWhile isspace ++ s.dropWhile isspace := List.takeWhile_append_dropWhile.symm
    have hblanks : ∀ c ∈ s.takeWhile isspace, isspace c = true := fun c hc =>
      List.mem_takeWhile_imp hc
    have hread : ∀ sign u, s.dropWhile isspace = sign ++ u →
        (sign = [] ∨ sign = ['-'] ∨ sign = ['+']) → u.takeWhile Char.isDigit ≠ [] →
        ∃ front d rest, s = front ++ d :: rest ∧ IsNumberFront front ∧ d.isDigit = true := by
      intro sign u hdrop hsign hdigits
      obtain ⟨d, rest, rfl, hd⟩ := exists_digit hdigits
      refine ⟨s.takeWhile isspace ++ sign, d, rest, ?_, ⟨_, _, rfl, hblanks, hsign⟩, hd⟩
      rw [List.append_assoc, ← hdrop, ← hs]
    unfold sscanfUnsigned at h
    cases hdrop : s.dropWhile isspace with
    | nil => simp [hdrop] at h
    | cons c u =>
      rw [hdrop] at h
      by_cases hminus : c = '-'
      · subst hminus
        refine hread ['-'] u hdrop (by simp) fun hnil => ?_
        simp [hnil] at h
      · by_cases hplus : c = '+'
        · subst hplus
          refine hread ['+'] u hdrop (by simp) fun hnil => ?_
          simp [hnil] at h
        · refine hread [] (c :: u) hdrop (by simp) fun hnil => ?_
          simp [hminus, hplus, hnil] at h
  · rintro ⟨front, d, rest, rfl, ⟨blanks, sign, rfl, hblanks, hsign⟩, hd⟩
    have hspace : isspace d = false := isspace_of_isDigit hd
    have hdrop : (blanks ++ sign ++ d :: rest).dropWhile isspace = sign ++ d :: rest := by
      rw [List.append_assoc, List.dropWhile_append_of_pos hblanks]
      rcases hsign with rfl | rfl | rfl
      · exact List.dropWhile_cons_of_neg (by simp [hspace])
      · rfl
      · rfl
    have hminus : d ≠ '-' := by
      rintro rfl
      simp at hd
    have hplus : d ≠ '+' := by
      rintro rfl
      simp at hd
    unfold sscanfUnsigned
    rw [hdrop]
    rcases hsign with rfl | rfl | rfl <;> simp [hd, hminus, hplus]

theorem dollar_notMem_of_isNumberFront {front : CStr} (h : IsNumberFront front) : '$' ∉ front := by
  obtain ⟨blanks, sign, rfl, hblanks, hsign⟩ := h
  have hdollar : '$' ∉ blanks := fun hmem => absurd (hblanks '$' hmem) (by decide)
  rcases hsign with rfl | rfl | rfl <;> simp [hdollar]

/-- A period with a unit is one whatever stands behind the end of its text. -/
theorem kbperiodParse_isSome_iff (nul : Bool) {text : CStr}
    (hunit : text.dropWhile Char.isDigit ≠ []) : (kbperiodParse nul text).isSome = true ↔
      text.takeWhile Char.isDigit ≠ [] ∧
        ∃ unit ∈ unitSpellings, text.dropWhile Char.isDigit = unit.1 := by
  by_cases hdigits : text.takeWhile Char.isDigit = []
  · simp [kbperiodParse, hdigits]
  · obtain ⟨d, htake, htext, hhead⟩ := exists_numeral hdigits
    have hparse := kbperiodParse_numeral nul d hhead
    rw [← htext] at hparse
    rw [hparse]
    have hpositive : ∀ unit ∈ unitSpellings, unit.2 ≠ 0 := by decide
    constructor
    · intro h
      refine ⟨hdigits, ?_⟩
      by_contra hno
      have hzero := parseUnit_unknown nul hunit fun unit hmem heq => hno ⟨unit, hmem, heq⟩
      simp [hzero] at h
    · rintro ⟨-, unit, hmem, heq⟩
      have hne : parseUnit nul (text.dropWhile Char.isDigit) ≠ 0 := by
        rw [heq, parseUnit_spelling nul unit hmem]
        split_ifs
        · exact one_ne_zero
        · exact hpositive unit hmem
      simp [hne]

theorem dollar_notMem_of_period {nul : Bool} {text : CStr}
    (hunit : text.dropWhile Char.isDigit ≠ []) (h : (kbperiodParse nul text).isSome = true) :
    '$' ∉ text := by
  obtain ⟨-, unit, hmem, heq⟩ := (kbperiodParse_isSome_iff nul hunit).mp h
  have hspellings : ∀ unit ∈ unitSpellings, '$' ∉ unit.1 := by decide
  rw [← List.takeWhile_append_dropWhile (p := Char.isDigit) (l := text), heq, List.mem_append]
  rintro (hdigit | hdollar)
  · exact absurd (List.mem_takeWhile_imp hdigit) (by decide)
  · exact hspellings unit hmem hdollar

/-! ### What the linter accepts -/

theorem ncPeriodic_accepts {nul : Bool} {st : Symtab} (h : (ncPeriodic nul st).nerrors = 0) :
    (∃ period, kbsymtabGet st kbnodeKeyPeriod = some [period] ∧
        (kbperiodParse nul period).isSome = true) ∧
      ((kbsymtabGet st kbnodeKeyCounter).getD [] = [] ∨
        ∃ counter, kbsymtabGet st kbnodeKeyCounter = some [counter] ∧
          (sscanfUnsigned 64 counter).isSome = true) := by
  have hbound : ∀ {key v vs}, (kbsymtabGet st key).getD [] = v :: vs →
      kbsymtabGet st key = some (v :: vs) := by
    intro key v vs hget
    cases hvs : kbsymtabGet st key with
    | none => simp [hvs] at hget
    | some ws => rw [hvs] at hget; exact congrArg some hget
  unfold ncPeriodic at h
  split at h
  · simp at h
  · next period periods hperiod =>
    simp only [Nat.add_eq_zero_iff] at h
    obtain ⟨⟨hseveral, hinvalid⟩, hcounters⟩ := h
    have hnil : periods = [] := by
      by_contra hne
      simp [hne] at hseveral
    subst hnil
    refine ⟨⟨period, hbound hperiod, ?_⟩, ?_⟩
    · by_contra hno
      simp only [Bool.not_eq_true, Option.isSome_eq_false_iff] at hno
      simp [hno] at hinvalid
    · split at hcounters
      · next hnone => exact .inl hnone
      · next counter counters hcounter =>
        simp only [Nat.add_eq_zero_iff] at hcounters
        obtain ⟨hmany, hread⟩ := hcounters
        have hone : counters = [] := by
          by_contra hne
          simp [hne] at hmany
        subst hone
        refine .inr ⟨counter, hbound hcounter, ?_⟩
        by_contra hno
        simp only [Bool.not_eq_true, Option.isSome_eq_false_iff] at hno
        simp [hno] at hread

/-! ### What the thread accepts -/

/-- A thread gets to its loop with a period, an origin, and a COUNTER that is empty or a number. -/
theorem thPeriodicStart_of_values {nul : Bool} {root : KbTree} (now : ℕ)
    (hsrc : kbnodeGetSrcdef root.symtab ≠ none)
    (hperiod : (kbperiodParse nul (kbnodeGetvalueFirst root.symtab kbnodeKeyPeriod)).isSome = true)
    (hcounter : kbnodeGetvalueFirst root.symtab kbnodeKeyCounter = [] ∨
      (sscanfUnsigned 64 (kbnodeGetvalueFirst root.symtab kbnodeKeyCounter)).isSome = true) :
    ∃ period s, thPeriodicStart nul root now = some (period, s) ∧ s.done = false := by
  obtain ⟨srcdef, hdef⟩ := Option.ne_none_iff_exists'.mp hsrc
  obtain ⟨period, hparse⟩ := Option.isSome_iff_exists.mp hperiod
  have hgiven : kbnodeGetvalueFirst root.symtab kbnodeKeyPeriod ≠ [] := by
    intro hnil
    simp [hnil, kbperiodParse] at hparse
  unfold thPeriodicStart
  simp only [hdef, if_neg hgiven, hparse]
  by_cases hnone : kbnodeGetvalueFirst root.symtab kbnodeKeyCounter = []
  · simp [hnone]
  · obtain ⟨counter, hread⟩ := Option.isSome_iff_exists.mp (hcounter.resolve_left hnone)
    simp [hnone, hread]

/-- A loop that is told to end is left. -/
theorem periodicLoop_left {period : Kbperiod} {s : Periodic} {ticks : List Tick}
    (hs : s.done = false) (h : ∃ tick ∈ ticks, tick.endflag ≠ 0) :
    ∃ it ∈ periodicLoop period s ticks, (periodicStep period it.before it.tick).1.done = true := by
  induction ticks generalizing s with
  | nil => simp at h
  | cons tick ticks ih =>
    rw [periodicLoop, if_neg (by simp [hs])]
    by_cases hdone : (periodicStep period s tick).1.done = true
    · exact ⟨_, List.mem_cons_self, hdone⟩
    · have hgoes : tick.endflag = 0 := by
        by_contra hend
        exact hdone (by rw [periodicStep, if_pos hend])
      have hrest : ∃ t ∈ ticks, t.endflag ≠ 0 := by simpa [hgoes] using h
      obtain ⟨it, hit, hleft⟩ := ih (by simpa using hdone) hrest
      exact ⟨it, List.mem_cons_of_mem _ hit, hleft⟩

/-! ### Both -/

/-- The first value of a variable that has one value. -/
theorem kept_first {st st' : Symtab} {key v : CStr} (h : KeepsFronts st st')
    (hv : kbsymtabGet st key = some [v]) : KeepsFront v (kbnodeGetvalueFirst st' key) := by
  obtain ⟨vs', hvs', hkept⟩ := h key [v] hv
  cases hkept with
  | @cons _ v' _ _ hfirst hrest =>
    rw [kbnodeGetvalueFirst, kbsymtabGetString_of_cons hvs']
    exact hfirst

theorem kbtreeEval_root_arrays {L : Libds} {t : KbTree} {env : Env} {r : TreeEval KbTree}
    (h : HaltsWith (kbtreeEval L [] t env) r) (key : CStr) :
    arrayLength r.tree.symtab key = arrayLength t.symtab key := by
  obtain ⟨up, n, hat, hshape⟩ := (kbtreeEval_shape h [] []).1 [] t rfl
  obtain ⟨-, rfl⟩ := Prod.mk.inj (Option.some.inj hat)
  exact hshape.arrays key

/-- The COUNTER of a root is empty or a number when that of the node is. -/
theorem counter_accepted {st st' : Symtab} (hkept : KeepsFronts st st')
    (harrays : arrayLength st' kbnodeKeyCounter = arrayLength st kbnodeKeyCounter)
    (h : (kbsymtabGet st kbnodeKeyCounter).getD [] = [] ∨
      ∃ counter, kbsymtabGet st kbnodeKeyCounter = some [counter] ∧
        (sscanfUnsigned 64 counter).isSome = true) :
    kbnodeGetvalueFirst st' kbnodeKeyCounter = [] ∨
      (sscanfUnsigned 64 (kbnodeGetvalueFirst st' kbnodeKeyCounter)).isSome = true := by
  rcases h with hnone | ⟨counter, hcounter, hread⟩
  · have hall : kbnodeGetvalueAll st kbnodeKeyCounter = [] := hnone
    rw [getvalueAll_eq_nil_iff, ← harrays, ← getvalueAll_eq_nil_iff, kbnodeGetvalueAll] at hall
    refine .inl ?_
    rw [kbnodeGetvalueFirst, kbsymtabGetString]
    cases hget : kbsymtabGet st' kbnodeKeyCounter with
    | none => rfl
    | some vs =>
      rw [hget] at hall
      obtain rfl : vs = [] := hall
      rfl
  · obtain ⟨front, d, rest, rfl, hfront, hd⟩ := sscanfUnsigned_isSome_iff.mp hread
    have hdollar : '$' ∉ front ++ [d] := by
      rw [List.mem_append, List.mem_singleton]
      rintro (hmem | rfl)
      · exact dollar_notMem_of_isNumberFront hfront hmem
      · exact absurd hd (by decide)
    obtain ⟨rest', hrest'⟩ := (kept_first hkept hcounter).front (front ++ [d]) hdollar
      ⟨rest, by simp⟩
    refine .inr (sscanfUnsigned_isSome_iff.mpr ⟨front, d, rest', ?_, hfront, hd⟩)
    rw [← hrest', List.append_assoc]
    rfl

/-- A periodic node that the linter accepts is accepted by its thread, which then runs its loop, and
leaves the loop once it is told to. -/
theorem thPeriodicStart_of_kbnodeCheck {L : Libds} {nul : Bool} {n : Kbnode} {all : List Kbnode}
    {t : KbTree} {env : Env} {r : TreeEval KbTree} (htype : n.type = .periodic)
    (hunit : (kbnodeGetvalueFirst n.symtab kbnodeKeyPeriod).dropWhile Char.isDigit ≠ [])
    (hcheck : (kbnodeCheck nul n).nerrors = 0)
    (hbuilt : kbnodeInstantiate L n all = { tree := some t, nerrors := 0 })
    (heval : HaltsWith (kbtreeEval L [] t env) r) (hr : r.nerrors = 0) (nul' : Bool) (now : ℕ) :
    ∃ period s, thPeriodicStart nul' r.tree now = some (period, s) ∧
      ∀ ticks, (∃ tick ∈ ticks, tick.endflag ≠ 0) → ∃ it ∈ thPeriodic nul' r.tree now ticks,
        (periodicStep period it.before it.tick).1.done = true := by
  have hper : (ncPeriodic nul n.symtab).nerrors = 0 := by
    simp only [kbnodeCheck, htype] at hcheck
    omega
  obtain ⟨⟨period, hperiod, hparse⟩, hcounter⟩ := ncPeriodic_accepts hper
  rw [kbnodeGetvalueFirst, kbsymtabGetString_of_cons hperiod] at hunit
  have hinst := kbnodeInstantiate_eq L n all
  rw [hbuilt] at hinst
  have hcopy := kbsymtabCopy_get (nodeInstantiate_root hinst).2
  have hkept := kbtreeEval_keepsFronts heval
  -- the period has no reference
  have hsame : kbnodeGetvalueFirst r.tree.symtab kbnodeKeyPeriod = period := by
    refine (kept_first hkept ((hcopy _).trans hperiod)).whole fun hin => ?_
    exact dollar_notMem_of_period hunit hparse (hin.subset List.mem_cons_self)
  have hsrc : kbnodeGetSrcdef r.tree.symtab ≠ none := by
    rw [ne_eq, srcdef_congr (kbtreeEval_root_arrays heval)]
    exact kbtreeEval_srcdef heval hr [] [] [] t rfl
  have hperiod' : (kbperiodParse nul' (kbnodeGetvalueFirst r.tree.symtab kbnodeKeyPeriod)).isSome =
      true := by
    rw [hsame, kbperiodParse_isSome_iff nul' hunit]
    exact (kbperiodParse_isSome_iff nul hunit).mp hparse
  have hcounter' := counter_accepted hkept (kbtreeEval_root_arrays heval _) (by rwa [hcopy])
  obtain ⟨kbp, s, hs, hgoes⟩ := thPeriodicStart_of_values now hsrc hperiod' hcounter'
  refine ⟨kbp, s, hs, fun ticks hend => ?_⟩
  simp only [thPeriodic, hs]
  exact periodicLoop_left hgoes hend

/-- A periodic node with a reference in its COUNTER. -/
def countedNode : Kbnode :=
  ⟨.periodic, symtabOf [(kbnodeKeyId, ["p".toList]), (kbnodeKeyFname, ["f".toList]),
    (kbnodeKeyLine, ["1".toList]), (kbnodeKeyMessage, ["m".toList]),
    (kbnodeKeyExec, ["true".toList]), (kbnodeKeyPeriod, ["10sec".toList]),
    (kbnodeKeyCounter, ["1$<ID>".toList])]⟩

theorem countedNode_thPeriodicStart : ∃ r,
    HaltsWith (kbtreeEval Libds.ordered [] (.node .periodic countedNode.symtab [] [])
      fun _ => none) r ∧
    ∃ period s, thPeriodicStart false r.tree 0 = some (period, s) ∧
      ∀ ticks, (∃ tick ∈ ticks, tick.endflag ≠ 0) → ∃ it ∈ thPeriodic false r.tree 0 ticks,
        (periodicStep period it.before it.tick).1.done = true := by
  have hbuilt : kbnodeInstantiate Libds.ordered countedNode [countedNode] =
      { tree := some (.node .periodic countedNode.symtab [] []), nerrors := 0 } := rfl
  obtain ⟨r, heval, hr⟩ := exists_haltsWith
    (f := kbtreeEval .ordered [] (.node .periodic countedNode.symtab [] []) fun _ => none) 4
    (fun r => r.nerrors = 0) (by decide +kernel)
  have hcheck : (kbnodeCheck false countedNode).nerrors = 0 := by decide +kernel
  exact ⟨r, heval, thPeriodicStart_of_kbnodeCheck rfl (by decide +kernel) hcheck hbuilt heval
    (of_decide_eq_true hr) false 0⟩

end Kubeka
