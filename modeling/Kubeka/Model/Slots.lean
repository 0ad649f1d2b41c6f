import Kubeka.Library.Store
import Kubeka.Library.Table
import Kubeka.Model.Assign

/-!
# Arrays of strings in memory (`kbsym.c`, `kbutil.c`, `kbnode.c`)

The arrays of a symbol table once more, now with their slots. An array has as
many slots as were allocated for it, and its length is kept nowhere: every
reader goes on until it meets NULL. A slot behind the last one cannot be read.
A table owns its arrays and an array its strings, so no two slots share one;
the new value of `kbnode_set_single` is a string of the caller.
-/

namespace Kubeka

/-- The slots of a `char **`, each a string or NULL. -/
abbrev Slots := List (Option CStr)

/-- `sa[i]` -/
def Slots.read (sa : Slots) (i : ℕ) : Except Fault (Option CStr) :=
  match sa[i]? with
  | none => .error .undefined
  | some slot => .ok slot

/-! ### Length -/

/-- `for (size_t i=0; sa[i]; i++)` of `kbutil_strarray_length`, over the slots from `i` on. -/
def strarrayCount : ℕ → Slots → Except Fault ℕ
  | _, [] => .error .undefined
  | ret, none :: _ => .ok ret
  | ret, some _ :: sa => strarrayCount (ret + 1) sa

def kbutilStrarrayLength : Option Slots → Except Fault ℕ
  | none => .ok 0
  | some sa => do
    match ← sa.read 0 with
    | none => .ok 0
    | some _ => strarrayCount 0 sa

theorem strarrayCount_eq (ret : ℕ) (sa : Slots) : strarrayCount ret sa =
    match ZeroTable.scan sa with
    | none => .error .undefined
    | some xs => .ok (ret + xs.length) := by
  induction sa generalizing ret with
  | nil => rfl
  | cons slot sa ih =>
    cases slot with
    | none => rfl
    | some v =>
      rw [strarrayCount, ih, ZeroTable.scan]
      cases ZeroTable.scan sa with
      | none => rfl
      | some xs => simp [Nat.add_assoc, Nat.add_comm 1]

/-- The length is the number of values that a reader finds. -/
theorem kbutilStrarrayLength_some (sa : Slots) : kbutilStrarrayLength (some sa) =
    match ZeroTable.scan sa with
    | none => .error .undefined
    | some xs => .ok xs.length := by
  cases sa with
  | nil => rfl
  | cons slot sa =>
    cases slot with
    | none => rfl
    | some v =>
      have hread : Slots.read (some v :: sa) 0 = .ok (some v) := rfl
      rw [kbutilStrarrayLength, hread, ok_bind]
      simp only [strarrayCount_eq, Nat.zero_add]

theorem kbutilStrarrayLength_of_scan {sa : Slots} {xs : List CStr}
    (h : ZeroTable.scan sa = some xs) : kbutilStrarrayLength (some sa) = .ok xs.length := by
  rw [kbutilStrarrayLength_some, h]

/-! ### Tables -/

/-- `struct kbsymtab_t` with the slots of its arrays. -/
abbrev SlotTable := AList (fun _ : CStr => Slots)

/-- `kbsymtab_get` on a table that may be NULL. -/
def kbsymtabGetSlots (st : Option SlotTable) (key : CStr) : Option Slots :=
  st.bind fun st => st.lookup key

/-- What `kbnode_set_single` returns, the `symtab` it leaves the node with, and the slots of the
array that it has written. -/
structure SetSingle where
  ret : Bool
  symtab : Option SlotTable
  stored : List ℕ

/-- `kbnode_set_single` on a node with this `symtab`. -/
def kbnodeSetSingleSlots (alloc : Alloc) (symtab : Option SlotTable) (key : CStr) (index : ℕ)
    (newvalue : CStr) : Except Fault SetSingle :=
  match symtab, kbsymtabGetSlots symtab key with
  | some st, some values => do
    match ← values.read 0 with
    | none => .ok { ret := false, symtab := symtab, stored := [] }
    | some _ =>
      let nvalues ← kbutilStrarrayLength (some values)
      if index > nvalues then .ok { ret := false, symtab := symtab, stored := [] }
      else
        -- the string in this slot is freed
        let _ ← values.read index
        let copy := if alloc .replacement then some newvalue else none
        .ok { ret := copy.isSome, symtab := some (st.insert key (values.set index copy))
              stored := [index] }
  | _, _ => .ok { ret := false, symtab := symtab, stored := [] }

end Kubeka
