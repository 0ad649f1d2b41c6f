import Kubeka.Model.Node

/-!
# Checks of single nodes (`kbnode.c`, `kbperiod.c`)

`kbnode_check` counts what is wrong with a node as it was read. A missing origin
is a warning only; the messages themselves are not modelled.
-/

namespace Kubeka

/-! ### Periods -/

def unitSec : ℕ := 1
def unitMin : ℕ := 60
def unitHour : ℕ := 60 * 60
def unitDay : ℕ := 24 * 60 * 60

def periodSuffixes : List (CStr × ℕ) :=
  [("sec".toList, unitSec), ("secs".toList, unitSec), ("second".toList, unitSec),
    ("seconds".toList, unitSec), ("min".toList, unitMin), ("mins".toList, unitMin),
    ("minute".toList, unitMin), ("minutes".toList, unitMin), ("hr".toList, unitHour),
    ("hrs".toList, unitHour), ("hour".toList, unitHour), ("hours".toList, unitHour),
    ("day".toList, unitDay), ("days".toList, unitDay)]

/-- The unit of a period, 0 for `unit_UNKNOWN`. For an empty text `src[1]` is the byte after the
terminator; `nul` says whether it is 0, and then `strchr` finds the terminator in `smhd`. -/
def parseUnit (nul : Bool) : CStr → ℕ
  | [] => if nul then 1 else 0
  | [c] => if c ∈ "smhd".toList then 1 else 0
  | src =>
    match periodSuffixes.find? fun s => src = s.1 with
    | some s => s.2
    | none => 0

structure Kbperiod where
  unit : ℕ
  nunits : ℕ

def kbperiodParse (nul : Bool) (src : CStr) : Option Kbperiod :=
  let digits := src.takeWhile Char.isDigit
  let unit := parseUnit nul (src.dropWhile Char.isDigit)
  if digits = [] then none
  else if unit = 0 then none
  else (sscanfUnsigned 32 src).map fun nunits => { unit := unit, nunits := nunits }

/-! ### The check -/

/-- Errors and warnings counted. -/
structure Counts where
  nerrors : ℕ
  nwarnings : ℕ

def ncJob (_ : Symtab) : Counts := { nerrors := 0, nwarnings := 0 }

def ncEntrypoint (_ : Symtab) : Counts := { nerrors := 0, nwarnings := 0 }

/-- Without a period the rest of the node is not looked at. -/
def ncPeriodic (nul : Bool) (st : Symtab) : Counts :=
  match (kbsymtabGet st kbnodeKeyPeriod).getD [] with
  | [] => { nerrors := 1, nwarnings := 0 }
  | period :: periods =>
    let several := if periods ≠ [] then 1 else 0
    let invalid := if (kbperiodParse nul period).isNone then 1 else 0
    let counters :=
      match (kbsymtabGet st kbnodeKeyCounter).getD [] with
      | [] => 0
      | counter :: counters =>
        (if counters ≠ [] then 1 else 0) + if (sscanfUnsigned 64 counter).isNone then 1 else 0
    { nerrors := several + invalid + counters, nwarnings := 0 }

def requiredKeys : List CStr := [kbnodeKeyId, kbnodeKeyMessage]

/-- How many of EXEC, EMITS and JOBS a node has. -/
def actionCount (st : Symtab) : ℕ :=
  ([kbnodeKeyExec, kbnodeKeyEmits, kbnodeKeyJobs].filter (kbsymtabExists st)).length

def kbnodeCheck (nul : Bool) (n : Kbnode) : Counts :=
  let typed :=
    match n.type with
    | .job => ncJob n.symtab
    | .periodic => ncPeriodic nul n.symtab
    | .entrypoint => ncEntrypoint n.symtab
  let origin := if kbnodeGetSrcdef n.symtab = none then 1 else 0
  let missing := (requiredKeys.filter fun key => ! kbsymtabExists n.symtab key).length
  let actions := if actionCount n.symtab ≠ 1 then 1 else 0
  { nerrors := typed.nerrors + missing + actions, nwarnings := origin + typed.nwarnings }

/-! ### What a node without errors has -/

variable {nul : Bool} {n : Kbnode}

theorem kbnodeCheck_exists (h : (kbnodeCheck nul n).nerrors = 0) {key : CStr}
    (hkey : key ∈ requiredKeys) : kbsymtabExists n.symtab key = true := by
  have hmissing : (requiredKeys.filter fun key => ! kbsymtabExists n.symtab key) = [] := by
    rw [← List.length_eq_zero_iff]
    simp only [kbnodeCheck] at h
    omega
  simpa using List.filter_eq_nil_iff.mp hmissing key hkey

theorem kbnodeCheck_actionCount (h : (kbnodeCheck nul n).nerrors = 0) :
    actionCount n.symtab = 1 := by
  by_contra hne
  simp only [kbnodeCheck, if_pos hne] at h
  omega

/-- A periodic node without errors has one period. -/
theorem kbnodeCheck_period (h : (kbnodeCheck nul n).nerrors = 0) (htype : n.type = .periodic) :
    (kbnodeGetvalueAll n.symtab kbnodeKeyPeriod).length = 1 := by
  have hper : (ncPeriodic nul n.symtab).nerrors = 0 := by
    simp only [kbnodeCheck, htype] at h
    omega
  simp only [ncPeriodic] at hper
  split at hper
  · simp at hper
  · next period periods hget =>
    have hnil : periods = [] := by
      by_contra hne
      simp only [if_pos hne] at hper
      omega
    simp [kbnodeGetvalueAll, hget, hnil]

end Kubeka
