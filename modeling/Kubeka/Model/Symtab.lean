import Kubeka.Library.Text
import Mathlib.Data.List.AList
import Mathlib.Data.List.DropRight

/-!
# Strings, string arrays and symbol tables

A C string is the list of its characters up to the terminating NUL, a
NULL-terminated array of strings is a list of strings, and `ds_hmap` is a
finite map with distinct keys that lists them in the order of its entries.
That order is arbitrary: no definition here depends on how an insertion
places a key.
-/

namespace Kubeka

open Text

abbrev CStr := List Char

instance : LawfulBEq CStr := inferInstance

/-! ### Keys with a meaning for the engine (`kbnode.h`) -/

def kbnodeKeyFname : CStr := "_FILENAME".toList
def kbnodeKeyLine : CStr := "_LINE".toList
def kbnodeKeyId : CStr := "ID".toList
def kbnodeKeyMessage : CStr := "MESSAGE".toList
def kbnodeKeyJobs : CStr := "JOBS".toList
def kbnodeKeyExec : CStr := "EXEC".toList
def kbnodeKeyEmits : CStr := "EMITS".toList
def kbnodeKeyHandles : CStr := "HANDLES".toList
def kbnodeKeyRollback : CStr := "ROLLBACK".toList
def kbnodeKeyPeriod : CStr := "PERIOD".toList
def kbnodeKeyCounter : CStr := "COUNTER".toList

/-! ### String helpers (`kbutil.c`) -/

/-- `strchr`, as the text before and after the character. -/
def strchr (s : CStr) (c : Char) : Option (CStr × CStr) := cut [c] s

/-- `strstr`, as the text before and after the needle. -/
def strstr (s needle : CStr) : Option (CStr × CStr) := cut needle s

/-- The tokens of `strtok_r`: adjacent delimiters are merged. -/
def strtok (s : CStr) (delim : Char) : List CStr := (s.splitOn delim).filter (· ≠ [])

def kbutilStrsplit (src : CStr) (delim : Char) : List CStr := strtok src delim

/-- The elements after the first two characters `[ `, the later ones with their comma. -/
def kbutilStrarrayFormatTail : List CStr → CStr
  | [] => "]".toList
  | v :: vs => ",".toList ++ v ++ " ".toList ++ kbutilStrarrayFormatTail vs

/-- A single value stands for itself, several are written as an array. -/
def kbutilStrarrayFormat : List CStr → CStr
  | [] => []
  | [v] => v
  | v :: vs => "[ ".toList ++ v ++ " ".toList ++ kbutilStrarrayFormatTail vs

/-! ### White space -/

def isspace (c : Char) : Bool := c ∈ [' ', '\t', '\n', '\x0b', '\x0c', '\r']

/-- A text without the white space at its ends. -/
def trim (s : CStr) : CStr := (s.dropWhile isspace).rdropWhile isspace

/-! ### Numbers read by `sscanf` -/

def decimal (digits : CStr) : ℕ := digits.foldl (fun n c => 10 * n + (c.toNat - '0'.toNat)) 0

/-- `sscanf` of an unsigned integer of `w` bits: blanks, an optional sign and at least one digit;
a numeral of 2^64 or more is read as 2^64 - 1 before it is cut to `w` bits. -/
def sscanfUnsigned (w : ℕ) (s : CStr) : Option ℕ :=
  let t := s.dropWhile isspace
  let (neg, u) := match t with
    | '-' :: u => (true, u)
    | '+' :: u => (false, u)
    | u => (false, u)
  let digits := u.takeWhile Char.isDigit
  if digits = [] then none
  else
    let n := min (decimal digits) (2 ^ 64 - 1)
    some ((if neg && n = decimal digits then 2 ^ 64 - n else n) % 2 ^ w)

/-- A decimal numeral. -/
structure Numeral where
  digits : CStr
  ne_nil : digits ≠ []
  isDigit : ∀ c ∈ digits, c.isDigit = true

def Numeral.value (d : Numeral) : ℕ := decimal d.digits

/-- A numeral in front of something else is read up to its end. -/
theorem takeWhile_numeral (d : Numeral) {rest : CStr} (h : ∀ c ∈ rest.head?, c.isDigit = false) :
    (d.digits ++ rest).takeWhile Char.isDigit = d.digits ∧
      (d.digits ++ rest).dropWhile Char.isDigit = rest := by
  have hrest : rest.takeWhile Char.isDigit = [] ∧ rest.dropWhile Char.isDigit = rest := by
    cases rest with
    | nil => exact ⟨rfl, rfl⟩
    | cons c rest =>
      have hc : c.isDigit = false := h c rfl
      simp [hc]
  constructor
  · rw [List.takeWhile_append_of_pos d.isDigit, hrest.1, List.append_nil]
  · rw [List.dropWhile_append_of_pos d.isDigit, hrest.2]

theorem isspace_of_isDigit {c : Char} (h : c.isDigit = true) : isspace c = false := by
  by_contra hspace
  simp only [isspace, Bool.not_eq_false, decide_eq_true_iff, List.mem_cons, List.not_mem_nil,
    or_false] at hspace
  rcases hspace with rfl | rfl | rfl | rfl | rfl | rfl <;> exact absurd h (by decide)

theorem sscanfUnsigned_numeral (w : ℕ) (d : Numeral) {rest : CStr}
    (h : ∀ c ∈ rest.head?, c.isDigit = false) :
    sscanfUnsigned w (d.digits ++ rest) = some (min d.value (2 ^ 64 - 1) % 2 ^ w) := by
  obtain ⟨c, digits, hdigits⟩ := List.exists_cons_of_ne_nil d.ne_nil
  have hc : c.isDigit = true := d.isDigit c (by simp [hdigits])
  have hminus : c ≠ '-' := by
    rintro rfl
    simp at hc
  have hplus : c ≠ '+' := by
    rintro rfl
    simp at hc
  have htake := (takeWhile_numeral d h).1
  unfold sscanfUnsigned
  rw [hdigits] at htake ⊢
  rw [List.cons_append] at htake ⊢
  rw [List.dropWhile_cons_of_neg (by simp [isspace_of_isDigit hc])]
  simp [hminus, hplus, htake, Numeral.value, hdigits]

/-! ### Symbol tables (`kbsym.c`) -/

abbrev Symtab := AList (fun _ : CStr => List CStr)

/-- NULL when the key is not bound. -/
def kbsymtabGet (st : Symtab) (key : CStr) : Option (List CStr) := st.lookup key

def kbsymtabExists (st : Symtab) (key : CStr) : Bool := key ∈ st.keys

/-- The first value, or the empty string. -/
def kbsymtabGetString (st : Symtab) (key : CStr) : CStr :=
  match kbsymtabGet st key with
  | some (v :: _) => v
  | _ => []

/-- NULL for an empty table. -/
def kbsymtabKeys (st : Symtab) : Option (List CStr) :=
  if st.keys = [] then none else some st.keys

theorem kbsymtabGet_insert (st : Symtab) (k k' : CStr) (vs : List CStr) :
    kbsymtabGet (st.insert k vs) k' = if k' = k then some vs else kbsymtabGet st k' := by
  split_ifs with h
  · rw [h]
    exact AList.lookup_insert _
  · exact AList.lookup_insert_ne h

/-- The table with these variables; the first binding of a key counts. -/
def symtabOf (vars : List (CStr × List CStr)) : Symtab :=
  vars.foldr (fun v st => st.insert v.1 v.2) ∅

@[simp] theorem kbsymtabGet_symtabOf_cons (k key : CStr) (vs : List CStr)
    (vars : List (CStr × List CStr)) : kbsymtabGet (symtabOf ((k, vs) :: vars)) key =
      if key = k then some vs else kbsymtabGet (symtabOf vars) key :=
  kbsymtabGet_insert _ k key vs

@[simp] theorem kbsymtabGet_symtabOf_nil (key : CStr) : kbsymtabGet (symtabOf []) key = none := rfl

theorem mem_of_kbsymtabGet_symtabOf {vars : List (CStr × List CStr)} {key : CStr} {vs : List CStr}
    (h : kbsymtabGet (symtabOf vars) key = some vs) : (key, vs) ∈ vars := by
  induction vars with
  | nil => simp at h
  | cons v vars ih =>
    obtain ⟨k, ws⟩ := v
    rw [kbsymtabGet_symtabOf_cons] at h
    split_ifs at h with hk
    · simp_all
    · exact List.mem_cons_of_mem _ (ih h)

theorem forall_values_symtabOf {P : CStr → Prop} {vars : List (CStr × List CStr)}
    (h : ∀ var ∈ vars, ∀ v ∈ var.2, P v) (key : CStr) (vs : List CStr)
    (hvs : kbsymtabGet (symtabOf vars) key = some vs) : ∀ v ∈ vs, P v :=
  h (key, vs) (mem_of_kbsymtabGet_symtabOf hvs)

@[simp] theorem kbsymtabExists_iff {st : Symtab} {key : CStr} :
    kbsymtabExists st key = true ↔ ∃ vs, kbsymtabGet st key = some vs := by
  rw [kbsymtabExists, decide_eq_true_iff, ← AList.mem_keys, ← AList.lookup_isSome,
    Option.isSome_iff_exists, kbsymtabGet]

theorem kbsymtabGetString_of_cons {st : Symtab} {key v : CStr} {vs : List CStr}
    (h : kbsymtabGet st key = some (v :: vs)) : kbsymtabGetString st key = v := by
  simp [kbsymtabGetString, h]

theorem kbsymtabKeys_eq_some {st : Symtab} {key : CStr} {vs : List CStr}
    (h : kbsymtabGet st key = some vs) : kbsymtabKeys st = some st.keys := by
  have hmem : key ∈ st.keys := AList.mem_keys.mp (AList.lookup_isSome.mp (by simp_all [kbsymtabGet]))
  rw [kbsymtabKeys, if_neg (List.ne_nil_of_mem hmem)]

end Kubeka
