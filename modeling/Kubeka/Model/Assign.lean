import Kubeka.Model.Node

/-!
# Assignments to variables (`kbsym.c`)

`kbsymtab_set` and `kbsymtab_append` take a key as it is written in a file,
with or without brackets. Every allocation in them can fail: `Alloc` tells for
each place that allocates whether it gets its memory. An append to an element
behind the end of an array has no defined result.
-/

namespace Kubeka

/-- The places that allocate, in `kbsym.c` and in what it calls. -/
inductive AllocSite where
  /-- the copy of the key in `detect_keytype` -/
  | keytype
  | keycopy
  /-- the copies of a value in `parse_value` and `_parse_value` -/
  | value
  | tokens
  | varray
  /-- an element of a parsed value -/
  | element (i : ℕ)
  /-- the value that replaces an element -/
  | replacement
  /-- the new value of an append, and the larger array for it -/
  | newval
  | grown
  /-- the array for a variable without values, and its empty string -/
  | fresh
  | empty
  /-- an entry of the hash map -/
  | entry
  deriving DecidableEq, Repr

abbrev Alloc := AllocSite → Bool

/-- Every allocation succeeds. -/
def Alloc.all : Alloc := fun _ => true

/-! ### Keys -/

/-- `enum keytype_t`, with the index that `detect_keytype` stores. -/
inductive Keytype where
  | error
  | index (value : ℕ)
  | array
  | count
  | concat
  | format
  deriving DecidableEq, Repr

/-- The index variable of a caller that has initialised it; only `keytype_INDEX` sets it. -/
def Keytype.indexOr (init : ℕ) : Keytype → ℕ
  | .index value => value
  | _ => init

/-- `enum keyclass_t`; no key is `keyclass_UNKNOWN`. -/
inductive Keyclass where
  | ro
  | system
  | user
  deriving DecidableEq, Repr

def detectKeytype (alloc : Alloc) (key : CStr) : Keytype :=
  if ¬ alloc .keytype then .error
  else
    match strchr key '[' with
    | none => .index 0
    | some (_, start) =>
      match strchr start ']' with
      | none => .error
      | some (digits, _) =>
        match start with
        | ']' :: _ => .array
        | '#' :: _ => .count
        | '*' :: _ => .concat
        | '@' :: _ => .format
        | c :: _ =>
          if c.isDigit then
            match sscanfUnsigned 64 digits with
            | some value => .index value
            | none => .error
          else .error
        | [] => .error

def detectKeyclass (key : CStr) : Keyclass :=
  if key.head? = some '_' then .ro else if key.any Char.isLower then .user else .system

/-- `Normalise the key (remove the []).` -/
def normaliseKey (key : CStr) : CStr := key.takeWhile (· ≠ '[')

/-! ### Values -/

/-- A text that starts with a bracket is an array, up to the first closing bracket; an element
without memory ends it. -/
def parseValue (L : Libds) (alloc : Alloc) (value : CStr) : Option (List CStr) :=
  if ¬ alloc .value then none
  else
    match value with
    | '[' :: value =>
      match strchr value ']' with
      | none => none
      | some (value, _) =>
        if ¬ alloc .tokens then none
        else if ¬ alloc .varray then none
        else
          some (((strtok value ',').zipIdx.takeWhile fun tok => alloc (.element tok.2)).map
            fun tok => L.strTrim tok.1)
    | value =>
      if ¬ alloc .varray then none
      else if alloc (.element 0) then some [value] else some []

/-! ### Setting -/

/-- The variable is looked up by the key as it is written and stored under the normalised one. -/
def kbsymtabSet (L : Libds) (alloc : Alloc) (force : Bool) (st : Symtab) (key value : CStr) :
    Bool × Symtab :=
  if ¬ alloc .keycopy then (false, st)
  else
    let keycopy := normaliseKey key
    if force = false ∧ detectKeyclass keycopy = .ro then (false, st)
    else
      let keytype := detectKeytype alloc keycopy
      if keytype = .error then (false, st)
      else
        match parseValue L alloc value with
        | none => (false, st)
        | some varray =>
          match kbsymtabGet st key with
          | none =>
            if keytype ≠ .index 0 then (false, st)
            else if ¬ alloc .entry then (false, st)
            else (true, st.insert keycopy varray)
          | some existing =>
            let index := keytype.indexOr (2 ^ 64 - 1)
            if index ≥ existing.length then (false, st)
            else
              match varray with
              | _ :: _ :: _ => (false, st)
              | [] => (true, st.insert key (existing.set index []))
              | [v] =>
                if alloc .replacement then (true, st.insert key (existing.set index v))
                -- the freed element is overwritten by NULL, which ends the array
                else (false, st.insert key (existing.take index))

/-! ### Appending -/

/-- What becomes of the array in an append: it cannot be allocated, or it is stored, or an element
behind its end is read, freed and overwritten. A NULL array stays NULL when it cannot grow. -/
inductive Appended where
  | noMemory
  | array (values : Option (List CStr))
  | undefined

def appendValue (alloc : Alloc) (existing : Option (List CStr)) (keytype : Keytype)
    (value : CStr) : Appended :=
  match keytype with
  | .array =>
    if ¬ alloc .newval then .noMemory
    else if alloc .grown then .array (some (existing.getD [] ++ [value]))
    else .array existing
  | .index index =>
    match existing.getD [] with
    | [] =>
      if ¬ alloc .fresh then .noMemory
      else if ¬ alloc .empty then .noMemory
      -- the new array has one element and its end
      else if index ≠ 0 then .undefined
      else if ¬ alloc .newval then .noMemory
      else .array (some [" ".toList ++ value])
    | existing =>
      if ¬ alloc .newval then .noMemory
      else .array (some (existing.modify index fun old => old ++ " ".toList ++ value))
  | _ => .array existing

/-- `kbsymtab_append` once it has accepted the key: the variable is removed before the new array is
made. An entry with a NULL array is an unbound one to every reader. -/
def replaceValue (alloc : Alloc) (st : Symtab) (keycopy : CStr) (keytype : Keytype)
    (value : CStr) : Option (Bool × Symtab) :=
  match appendValue alloc (kbsymtabGet st keycopy) keytype value with
  | .undefined => none
  | .noMemory => some (false, st.erase keycopy)
  | .array array =>
    if ¬ alloc .entry then some (false, st.erase keycopy)
    else
      match array with
      | none => some (true, st.erase keycopy)
      | some array => some (true, (st.erase keycopy).insert keycopy array)

/-- `none` where the call has no defined result. -/
def kbsymtabAppend (alloc : Alloc) (force : Bool) (st : Symtab) (key value : CStr) :
    Option (Bool × Symtab) :=
  let keytype := detectKeytype alloc key
  if ¬ alloc .keycopy then some (false, st)
  else
    let keycopy := normaliseKey key
    if force = false ∧ detectKeyclass keycopy = .ro then some (false, st)
    else
      let nexisting := ((kbsymtabGet st keycopy).getD []).length
      match keytype with
      | .index index =>
        if nexisting ≠ 0 ∧ index ≥ nexisting then some (false, st)
        else replaceValue alloc st keycopy keytype value
      | .array => replaceValue alloc st keycopy keytype value
      | _ => some (false, st)

/-! ### Tables of nodes -/

/-- The variables that `node_new` sets: the file name and the line, both written as values. -/
def nodeNewSymtab (L : Libds) (allocFname allocLine : Alloc) (fname : CStr) (line : ℕ) :
    Option Symtab :=
  match kbsymtabSet L allocFname true ∅ kbnodeKeyFname fname with
  | (false, _) => none
  | (true, st) =>
    match kbsymtabSet L allocLine true st kbnodeKeyLine (Nat.toDigits 10 line) with
    | (false, _) => none
    | (true, st) => some st

end Kubeka
