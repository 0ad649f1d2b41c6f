import Kubeka.Assign.Calls
import Kubeka.Assign.Values

/-!
# Variables as arrays

Every variable is an array, and a name by itself stands for the first element.
`kbsymtab_set` looks its key up with the brackets, finds nothing, and replaces
the whole array. `kbsymtab_append` keeps to the array but for an index into a
variable that has no values.
-/

namespace Kubeka

variable {L : Libds} {st : Symtab} {name : CStr}

/-- What becomes of the variable `name`, given what it is bound to before; no other one is
changed. -/
structure Obeys (model : Option (List CStr) → Bool → Option (List CStr) → Prop) (st : Symtab)
    (name : CStr) (r : Bool × Symtab) : Prop where
  result : ∀ ok after, model (kbsymtabGet st name) ok after →
    r.1 = ok ∧ kbsymtabGet r.2 name = after
  others : ChangesOnly name st r.2

/-! ### Setting -/

/-- Assigning to an array: what the variable is bound to before, whether the call succeeds, and what
it is bound to afterwards. -/
inductive ArraySet (L : Libds) (form : KeyForm) (value : CStr) :
    Option (List CStr) → Bool → Option (List CStr) → Prop
  | element {xs i} : value.head? ≠ some '[' → form.position = some i → i < xs.length →
      ArraySet L form value (some xs) true (some (xs.set i value))
  | outside {xs i} : value.head? ≠ some '[' → form.position = some i → xs.length ≤ i →
      ArraySet L form value (some xs) false (some xs)
  | create : value.head? ≠ some '[' → form = .plain →
      ArraySet L form value none true (some [value])
  | list {before vs} : value.head? = some '[' → form = .array → parseValue L .all value = some vs →
      ArraySet L form value before true (some vs)

/-- Besides a name by itself, only an index means an element. -/
theorem KeyForm.index_of_position {form : KeyForm} (h : form ≠ .plain) {i : ℕ}
    (hpos : form.position = some i) : ∃ d : Numeral, form = .index d ∧ d.value = i := by
  cases form with
  | plain => contradiction
  | index d => exact ⟨d, rfl, Option.some.inj hpos⟩
  | array => simp [position] at hpos

theorem KeyForm.mem_key {form : KeyForm} (h : form ≠ .plain) : '[' ∈ form.key name := by
  by_contra hno
  exact h (form.plain_of_key hno)

/-- A name by itself is that of the first element. -/
theorem kbsymtabSet_plain (hst : PlainKeys st) (hname : '[' ∉ name)
    (hro : detectKeyclass name ≠ .ro) (value : CStr) :
    Obeys (ArraySet L .plain value) st name (kbsymtabSet L .all false st name value) := by
  have hbase := normaliseKey_of_plain hname
  have haccepts : Accepts .all false name := accepts_all (.inr (by rwa [hbase]))
  constructor
  · intro ok after h
    generalize hget : kbsymtabGet st name = before at h
    cases h with
    | element hvalue hpos hlt =>
      obtain rfl := Option.some.inj hpos
      obtain ⟨x, rest, rfl⟩ := List.exists_cons_of_length_pos hlt
      rw [kbsymtabSet_accepted haccepts (parseValue_single hvalue), storeValue_bound hget]
      simp [Alloc.all, kbsymtabGet_insert]
    | outside hvalue hpos hle =>
      obtain rfl := Option.some.inj hpos
      obtain rfl := List.length_eq_zero_iff.mp (Nat.le_zero.mp hle)
      rw [kbsymtabSet_accepted haccepts (parseValue_single hvalue), storeValue_blank hget]
      exact ⟨rfl, hget⟩
    | create hvalue hform =>
      rw [kbsymtabSet_accepted haccepts (parseValue_single hvalue), storeValue_unbound hget]
      simp [Alloc.all, kbsymtabGet_insert, hbase]
    | list _ hform _ => simp at hform
  · have honly := changesOnly_kbsymtabSet (L := L) hst .all false name value
    rwa [hbase] at honly

/-- With brackets, the whole array is replaced. -/
theorem kbsymtabSet_brackets (hst : PlainKeys st) (hname : '[' ∉ name)
    (hro : detectKeyclass name ≠ .ro) {form : KeyForm} (hform : form ≠ .plain) {value : CStr}
    {vs : List CStr} (hparse : parseValue L .all value = some vs) :
    kbsymtabSet L .all false st (form.key name) value = (true, st.insert name vs) := by
  have hbase := form.normaliseKey_key hname
  have haccepts : Accepts .all false (form.key name) := accepts_all (.inr (by rwa [hbase]))
  rw [kbsymtabSet_accepted haccepts hparse, storeValue_bracket hst (form.mem_key hform), hbase]
  rfl

/-- An index that is obeyed is that of the only value. -/
theorem only_of_obeys (hst : PlainKeys st) (hname : '[' ∉ name) (hro : detectKeyclass name ≠ .ro)
    {d : Numeral} {value : CStr} {xs : List CStr} (hvalue : value.head? ≠ some '[')
    (hget : kbsymtabGet st name = some xs)
    (h : Obeys (ArraySet L (.index d) value) st name
      (kbsymtabSet L .all false st (KeyForm.key name (.index d)) value)) :
    xs.length = 1 ∧ d.value = 0 := by
  have hform : KeyForm.index d ≠ .plain := by simp
  have hset := kbsymtabSet_brackets hst hname hro hform (parseValue_single (L := L) hvalue)
  by_cases hlt : d.value < xs.length
  · have hmodel : ArraySet L (.index d) value (kbsymtabGet st name) true
        (some (xs.set d.value value)) := by
      rw [hget]
      exact .element hvalue rfl hlt
    have hresult := (h.result true _ hmodel).2
    rw [hset, kbsymtabGet_insert, if_pos rfl, Option.some.injEq] at hresult
    have hlength := congrArg List.length hresult
    rw [List.length_singleton, List.length_set] at hlength
    omega
  · have hmodel : ArraySet L (.index d) value (kbsymtabGet st name) false (some xs) := by
      rw [hget]
      exact .outside hvalue rfl (not_lt.mp hlt)
    have hresult := (h.result false (some xs) hmodel).1
    rw [hset] at hresult
    contradiction

/-- A key with brackets is obeyed when the array has only the element that it means. -/
theorem kbsymtabSet_brackets_obeys (hst : PlainKeys st) (hname : '[' ∉ name)
    (hro : detectKeyclass name ≠ .ro) {form : KeyForm} (hform : form ≠ .plain) {value : CStr}
    (h : ∀ d xs, form = .index d → value.head? ≠ some '[' → kbsymtabGet st name = some xs →
      xs.length = 1 ∧ d.value = 0) :
    Obeys (ArraySet L form value) st name (kbsymtabSet L .all false st (form.key name) value) := by
  constructor
  · intro ok after hmodel
    generalize hget : kbsymtabGet st name = before at hmodel
    cases hmodel with
    | @element xs i hvalue hpos hlt =>
      obtain ⟨d, rfl, rfl⟩ := KeyForm.index_of_position hform hpos
      obtain ⟨hlen, hzero⟩ := h d xs rfl hvalue hget
      obtain ⟨x, rfl⟩ := List.length_eq_one_iff.mp hlen
      rw [kbsymtabSet_brackets hst hname hro hform (parseValue_single hvalue), hzero,
        kbsymtabGet_insert, if_pos rfl]
      exact ⟨rfl, rfl⟩
    | @outside xs i hvalue hpos hle =>
      obtain ⟨d, rfl, rfl⟩ := KeyForm.index_of_position hform hpos
      obtain ⟨hlen, hzero⟩ := h d xs rfl hvalue hget
      omega
    | create _ hplain => contradiction
    | list _ _ hparse =>
      rw [kbsymtabSet_brackets hst hname hro hform hparse, kbsymtabGet_insert, if_pos rfl]
      exact ⟨rfl, rfl⟩
  · have honly := changesOnly_kbsymtabSet (L := L) hst .all false (form.key name) value
    rwa [form.normaliseKey_key hname] at honly

/-- An index is obeyed exactly when the variable has one value, and the index is that of it. -/
theorem kbsymtabSet_arraySet_iff (hst : PlainKeys st) (hname : '[' ∉ name)
    (hro : detectKeyclass name ≠ .ro) (form : KeyForm) (value : CStr) :
    Obeys (ArraySet L form value) st name (kbsymtabSet L .all false st (form.key name) value) ↔
      ∀ d xs, form = .index d → value.head? ≠ some '[' → kbsymtabGet st name = some xs →
        xs.length = 1 ∧ d.value = 0 := by
  by_cases hform : form = .plain
  · subst hform
    exact iff_of_true (kbsymtabSet_plain hst hname hro value) (by simp)
  · constructor
    · rintro h d xs rfl hvalue hget
      exact only_of_obeys hst hname hro hvalue hget h
    · exact kbsymtabSet_brackets_obeys hst hname hro hform

def digitZero : Numeral where
  digits := "0".toList
  ne_nil := by decide
  isDigit := List.all_eq_true.mp (by decide)

def digitOne : Numeral where
  digits := "1".toList
  ne_nil := by decide
  isDigit := List.all_eq_true.mp (by decide)

/-- One variable `x` with these values. -/
def onlyX (values : List CStr) : Symtab := symtabOf [("x".toList, values)]

theorem onlyX_plain (values : List CStr) : PlainKeys (onlyX values) := by
  intro k hk
  obtain rfl : k = "x".toList := by simpa [onlyX, symtabOf] using hk
  decide

/-- After `x[1] = b` the array `[p, q]` is gone. -/
theorem secondElement_not_arraySet :
    kbsymtabGet (kbsymtabSet .ordered .all false (onlyX ["p".toList, "q".toList]) "x[1]".toList
        "b".toList).2 "x".toList = some ["b".toList] ∧
      ¬ Obeys (ArraySet .ordered (.index digitOne) "b".toList) (onlyX ["p".toList, "q".toList])
        "x".toList (kbsymtabSet .ordered .all false (onlyX ["p".toList, "q".toList]) "x[1]".toList
          "b".toList) := by
  refine ⟨by decide, fun h => ?_⟩
  have hmodel : ArraySet .ordered (.index digitOne) "b".toList (some ["p".toList, "q".toList]) true
      (some ["p".toList, "b".toList]) :=
    ArraySet.element (i := 1) (by decide) (by decide) (by decide)
  exact absurd (h.result true (some ["p".toList, "b".toList]) hmodel).2 (by decide)

/-- The only value of a variable can be set by its index. -/
theorem onlyElement_arraySet :
    Obeys (ArraySet .ordered (.index digitZero) "b".toList) (onlyX ["p".toList]) "x".toList
      (kbsymtabSet .ordered .all false (onlyX ["p".toList]) "x[0]".toList "b".toList) := by
  refine (kbsymtabSet_arraySet_iff (onlyX_plain _) (by decide) (by decide) (.index digitZero)
    "b".toList).mpr ?_
  intro d xs hd _ hget
  obtain rfl := KeyForm.index.inj hd
  obtain rfl : ["p".toList] = xs := Option.some.inj hget
  decide

/-! ### Appending -/

/-- Appending to an array: an element that is there gets longer, the array gets a new element, and
nothing else is accepted. -/
inductive ArrayAppend (form : KeyForm) (value : CStr) :
    Option (List CStr) → Bool → Option (List CStr) → Prop
  | element {before i} : form.position = some i → i < (before.getD []).length →
      ArrayAppend form value before true
        (some ((before.getD []).modify i fun old => old ++ " ".toList ++ value))
  | first {before} : form.position = some 0 → before.getD [] = [] →
      ArrayAppend form value before true (some [" ".toList ++ value])
  | last {before} : form.position = none →
      ArrayAppend form value before true (some (before.getD [] ++ [value]))
  | refused {before i} : form.position = some i → max (before.getD []).length 1 ≤ i →
      ArrayAppend form value before false before

/-- The element of the array that `kbsymtab_append` reads, frees and replaces, and the number of
elements that the array then has: a new one has a single element. -/
def appendElement (st : Symtab) (key : CStr) : Option (ℕ × ℕ) :=
  match detectKeytype .all key with
  | .index index =>
    if nexisting st key ≠ 0 ∧ index ≥ nexisting st key then none
    else some (index, max (nexisting st key) 1)
  | _ => none

/-- Only elements that exist are read and written, with the result that the array model gives, and
no other variable is touched. -/
structure AppendsWithin (st : Symtab) (key value : CStr) (run : Option (Bool × Symtab)) : Prop where
  inBounds : ∀ i n, appendElement st key = some (i, n) → i < n
  result : ∃ r, run = some r ∧ ChangesOnly (normaliseKey key) st r.2 ∧
    ∀ name form, '[' ∉ name → key = KeyForm.key name form →
      Obeys (ArrayAppend form value) st name r

/-- With memory, the new array is stored. -/
theorem replaceValue_all {vs : List CStr} {key value : CStr} {keytype : Keytype}
    (h : appendValue .all (kbsymtabGet st key) keytype value = .array (some vs)) :
    replaceValue .all st key keytype value = some (true, (st.erase key).insert key vs) := by
  rw [replaceValue, h]
  rfl

theorem kbsymtabGet_replaced (st : Symtab) (key : CStr) (vs : List CStr) :
    kbsymtabGet ((st.erase key).insert key vs) key = some vs := by
  rw [kbsymtabGet_insert, if_pos rfl]

theorem appendValue_element {alloc : Alloc} (hnewval : alloc .newval = true)
    {before : Option (List CStr)} {i : ℕ} (hlt : i < (before.getD []).length) (value : CStr) :
    appendValue alloc before (.index i) value =
      .array (some ((before.getD []).modify i fun old => old ++ " ".toList ++ value)) := by
  obtain ⟨x, rest, hxs⟩ := List.exists_cons_of_length_pos (Nat.zero_lt_of_lt hlt)
  simp [appendValue, hxs, hnewval]

/-- Only a wrong element is changed otherwise. -/
theorem modify_append_inj {xs : List CStr} {i j : ℕ} {value : CStr} (hi : i < xs.length)
    (h : (xs.modify i fun old => old ++ " ".toList ++ value) =
      xs.modify j fun old => old ++ " ".toList ++ value) : j = i := by
  by_contra hne
  have hget := congrArg (fun l : List CStr => l[i]?) h
  simp [hne, hi] at hget

/-- The call succeeds, with these values for the variable. -/
def AppendsTo (st : Symtab) (key value : CStr) (vs : List CStr) : Prop :=
  ∃ st', kbsymtabAppend .all false st key value = some (true, st') ∧
    kbsymtabGet st' (normaliseKey key) = some vs

/-- The accepted append to the element with the index that `detect_keytype` reads. -/
theorem kbsymtabAppend_element {key : CStr} {i : ℕ}
    (hro : detectKeyclass (normaliseKey key) ≠ .ro) (hkey : detectKeytype .all key = .index i)
    (hlt : i < nexisting st key) (value : CStr) :
    AppendsTo st key value (((kbsymtabGet st (normaliseKey key)).getD []).modify i
      fun old => old ++ " ".toList ++ value) := by
  have hfits : (detectKeytype .all key).Fits (nexisting st key) := by
    rw [hkey]
    exact .inr hlt
  refine ⟨_, ?_, kbsymtabGet_replaced st _ _⟩
  rw [kbsymtabAppend_accepted (accepts_all (.inr hro)) hfits, hkey]
  exact replaceValue_all (appendValue_element rfl hlt value)

theorem kbsymtabAppend_last {key : CStr} (st : Symtab)
    (hro : detectKeyclass (normaliseKey key) ≠ .ro) (hkey : detectKeytype .all key = .array)
    (value : CStr) :
    AppendsTo st key value ((kbsymtabGet st (normaliseKey key)).getD [] ++ [value]) := by
  have hfits : (detectKeytype .all key).Fits (nexisting st key) := by
    rw [hkey]
    trivial
  refine ⟨_, ?_, kbsymtabGet_replaced st _ _⟩
  rw [kbsymtabAppend_accepted (accepts_all (.inr hro)) hfits, hkey]
  apply replaceValue_all
  simp [appendValue, Alloc.all]

/-- A new array has its first element. -/
theorem kbsymtabAppend_first {key : CStr}
    (hro : detectKeyclass (normaliseKey key) ≠ .ro) (hkey : detectKeytype .all key = .index 0)
    (hblank : (kbsymtabGet st (normaliseKey key)).getD [] = []) (value : CStr) :
    AppendsTo st key value [" ".toList ++ value] := by
  have hfits : (detectKeytype .all key).Fits (nexisting st key) := by
    rw [hkey]
    exact .inl (by rw [nexisting, hblank, List.length_nil])
  refine ⟨_, ?_, kbsymtabGet_replaced st _ _⟩
  rw [kbsymtabAppend_accepted (accepts_all (.inr hro)) hfits, hkey]
  apply replaceValue_all
  simp [appendValue, Alloc.all, hblank]

theorem KeyForm.keytype_of_position {form : KeyForm} {i : ℕ} (h : form.position = some i) :
    form.keytype = .index (min i (2 ^ 64 - 1)) := by
  cases form with
  | plain =>
    obtain rfl := Option.some.inj h
    rfl
  | index d =>
    obtain rfl := Option.some.inj h
    rfl
  | array => simp [position] at h

theorem KeyForm.keytype_of_last {form : KeyForm} (h : form.position = none) :
    form.keytype = .array := by
  cases form with
  | array => rfl
  | _ => simp [position] at h

/-- An index that needs more than 64 bits is taken for another one in an array that is as large. -/
theorem not_obeys_of_big (hname : '[' ∉ name) (hro : detectKeyclass name ≠ .ro)
    {d : Numeral} (hbig : 2 ^ 64 ≤ d.value)
    (hlarge : 2 ^ 64 ≤ nexisting st (KeyForm.key name (.index d))) {value : CStr}
    {r : Bool × Symtab}
    (hrun : kbsymtabAppend .all false st (KeyForm.key name (.index d)) value = some r) :
    ¬ Obeys (ArrayAppend (.index d) value) st name r := by
  intro h
  have hbase := KeyForm.normaliseKey_key (.index d) hname
  have hkey : detectKeytype .all (KeyForm.key name (.index d)) = .index (2 ^ 64 - 1) := by
    rw [KeyForm.detectKeytype_key _ rfl hname, KeyForm.keytype, Nat.min_eq_right (by omega)]
  have hmax : 2 ^ 64 - 1 < nexisting st (KeyForm.key name (.index d)) := by omega
  obtain ⟨st', happend, hget⟩ := kbsymtabAppend_element (by rwa [hbase]) hkey hmax value
  obtain rfl := Option.some.inj (happend.symm.trans hrun)
  rw [hbase] at hget
  by_cases hlt : d.value < ((kbsymtabGet st name).getD []).length
  · have hmodel := (h.result true _ (.element rfl hlt)).2
    have heq := modify_append_inj hlt (Option.some.inj (hmodel.symm.trans hget))
    omega
  · rw [nexisting, hbase] at hlarge
    have hmodel := (h.result false _ (.refused (i := d.value) rfl (by omega))).1
    contradiction

/-- An append follows the array model when it makes no array for an index behind the first one, and
its index is read as it stands. -/
theorem kbsymtabAppend_obeys (hname : '[' ∉ name)
    (hro : detectKeyclass name ≠ .ro) {form : KeyForm}
    (hfresh : ∀ i, form.keytype = .index i → nexisting st (form.key name) = 0 → i = 0)
    (hnumber : ∀ i, form.position = some i → 2 ^ 64 ≤ i → nexisting st (form.key name) < 2 ^ 64)
    {value : CStr} {r : Bool × Symtab}
    (hrun : kbsymtabAppend .all false st (form.key name) value = some r) :
    Obeys (ArrayAppend form value) st name r := by
  have hbase := form.normaliseKey_key hname
  have hkey : detectKeytype .all (form.key name) = form.keytype := form.detectKeytype_key rfl hname
  have hro' : detectKeyclass (normaliseKey (form.key name)) ≠ .ro := by rwa [hbase]
  have hlength : nexisting st (form.key name) = ((kbsymtabGet st name).getD []).length := by
    rw [nexisting, hbase]
  have hmade {vs : List CStr} (h : AppendsTo st (form.key name) value vs) :
      r.1 = true ∧ kbsymtabGet r.2 name = some vs := by
    obtain ⟨st', happend, hget⟩ := h
    obtain rfl := Option.some.inj (happend.symm.trans hrun)
    rw [hbase] at hget
    exact ⟨rfl, hget⟩
  constructor
  · intro ok after hmodel
    cases hmodel with
    | @element i hpos hlt =>
      have hi := hnumber i hpos
      rw [KeyForm.keytype_of_position hpos, Nat.min_eq_left (by omega)] at hkey
      have hin : i < nexisting st (form.key name) := by omega
      have hresult := kbsymtabAppend_element hro' hkey hin value
      rw [hbase] at hresult
      exact hmade hresult
    | first hpos hblank =>
      rw [KeyForm.keytype_of_position hpos] at hkey
      exact hmade (kbsymtabAppend_first hro' hkey (by rwa [hbase]) value)
    | last hpos =>
      rw [KeyForm.keytype_of_last hpos] at hkey
      have hresult := kbsymtabAppend_last st hro' hkey value
      rw [hbase] at hresult
      exact hmade hresult
    | @refused i hpos hmax =>
      have hzero := hfresh _ (KeyForm.keytype_of_position hpos)
      have hi := hnumber i hpos
      have hrefused : ¬ (detectKeytype .all (form.key name)).Fits
          (nexisting st (form.key name)) := by
        rw [hkey, KeyForm.keytype_of_position hpos, Keytype.Fits]
        omega
      rw [kbsymtabAppend_refused (.inr hrefused)] at hrun
      obtain rfl := Option.some.inj hrun
      exact ⟨rfl, rfl⟩
  · have honly := changesOnly_kbsymtabAppend hrun
    rwa [hbase] at honly

theorem appendValue_undefined_iff {alloc : Alloc} {before : Option (List CStr)} {keytype : Keytype}
    {value : CStr} : appendValue alloc before keytype value = .undefined ↔
      ∃ i, keytype = .index i ∧ i ≠ 0 ∧ before.getD [] = [] ∧ alloc .fresh = true ∧
        alloc .empty = true := by
  cases keytype with
  | index i =>
    cases hvs : before.getD [] with
    | nil =>
      simp only [appendValue, hvs]
      split_ifs <;> simp_all
    | cons x rest =>
      simp only [appendValue, hvs]
      split_ifs <;> simp
  | array =>
    simp only [appendValue]
    split_ifs <;> simp
  | _ => simp [appendValue]

theorem replaceValue_eq_none_iff {alloc : Alloc} {key : CStr} {keytype : Keytype} {value : CStr} :
    replaceValue alloc st key keytype value = none ↔
      appendValue alloc (kbsymtabGet st key) keytype value = .undefined := by
  unfold replaceValue
  cases happend : appendValue alloc (kbsymtabGet st key) keytype value with
  | undefined => simp
  | noMemory => simp
  | array values => cases values <;> cases alloc .entry <;> simp

/-- The call has no result exactly when it makes an array for an index behind the first one. -/
theorem kbsymtabAppend_eq_none_iff {alloc : Alloc} {force : Bool} {key value : CStr} :
    kbsymtabAppend alloc force st key value = none ↔ Accepts alloc force key ∧
      ∃ i, detectKeytype .all key = .index i ∧ i ≠ 0 ∧ nexisting st key = 0 ∧
        alloc .fresh = true ∧ alloc .empty = true := by
  have hnone : nexisting st key = 0 ↔ (kbsymtabGet st (normaliseKey key)).getD [] = [] := by
    rw [nexisting, List.length_eq_zero_iff]
  rw [hnone]
  by_cases h : Accepts alloc force key ∧ (detectKeytype .all key).Fits (nexisting st key)
  · rw [kbsymtabAppend_accepted h.1 h.2, replaceValue_eq_none_iff, appendValue_undefined_iff,
      and_iff_right h.1]
  · rw [kbsymtabAppend_refused (not_and_or.mp h)]
    refine iff_of_false (by simp) ?_
    rintro ⟨haccepts, i, hkey, -, hblank, -⟩
    refine h ⟨haccepts, ?_⟩
    rw [hkey]
    exact .inl (hnone.mpr hblank)

/-- An append keeps to the array exactly when it does not come with an index into a variable
without values; an index that needs more than 64 bits is only told from others in an array that
fits in memory. -/
theorem kbsymtabAppend_within_iff {key : CStr}
    (hro : detectKeyclass (normaliseKey key) ≠ .ro) (value : CStr) :
    AppendsWithin st key value (kbsymtabAppend .all false st key value) ↔
      (∀ i, detectKeytype .all key = .index i → nexisting st key = 0 → i = 0) ∧
      ∀ name d, '[' ∉ name → key = KeyForm.key name (.index d) → 2 ^ 64 ≤ d.value →
        nexisting st key < 2 ^ 64 := by
  constructor
  · intro h
    obtain ⟨r, hrun, -, hobeys⟩ := h.result
    constructor
    · intro i hkey hnone
      have helement : appendElement st key = some (i, 1) := by simp [appendElement, hkey, hnone]
      have hlt := h.inBounds i 1 helement
      omega
    · intro name d hname hform hbig
      by_contra hlarge
      have hindex := hobeys name (.index d) hname hform
      subst hform
      rw [KeyForm.normaliseKey_key _ hname] at hro
      exact not_obeys_of_big hname hro hbig (not_lt.mp hlarge) hrun hindex
  · rintro ⟨hfresh, hnumber⟩
    obtain ⟨r, hrun⟩ : ∃ r, kbsymtabAppend .all false st key value = some r := by
      refine Option.ne_none_iff_exists'.mp fun hnone => ?_
      obtain ⟨-, i, hkey, hi, hblank, -⟩ := kbsymtabAppend_eq_none_iff.mp hnone
      exact hi (hfresh i hkey hblank)
    refine ⟨?_, r, hrun, changesOnly_kbsymtabAppend hrun, ?_⟩
    · intro i n helement
      unfold appendElement at helement
      split at helement
      · next index hkey =>
        split_ifs at helement with hout
        obtain ⟨rfl, rfl⟩ := Prod.mk.inj (Option.some.inj helement)
        have hzero := hfresh index hkey
        omega
      · simp at helement
    · intro name form hname hform
      subst hform
      rw [form.detectKeytype_key rfl hname] at hfresh
      rw [form.normaliseKey_key hname] at hro
      refine kbsymtabAppend_obeys hname hro hfresh ?_ hrun
      intro i hpos hi
      cases form with
      | plain =>
        obtain rfl := Option.some.inj hpos
        omega
      | index d =>
        obtain rfl := Option.some.inj hpos
        exact hnumber name d hname rfl hi
      | array => simp [KeyForm.position] at hpos

/-- The second element of a variable that has none is read and replaced. -/
theorem secondElement_not_appendsWithin :
    appendElement (onlyX []) "x[1]".toList = some (1, 1) ∧
      kbsymtabAppend .all false (onlyX []) "x[1]".toList "v".toList = none ∧
      ¬ AppendsWithin (onlyX []) "x[1]".toList "v".toList
        (kbsymtabAppend .all false (onlyX []) "x[1]".toList "v".toList) := by
  refine ⟨by decide, by decide, fun h => ?_⟩
  exact absurd (h.inBounds 1 1 (by decide)) (by decide)

theorem firstElement_appendsWithin :
    AppendsWithin (onlyX []) "x[0]".toList "v".toList
      (kbsymtabAppend .all false (onlyX []) "x[0]".toList "v".toList) := by
  refine (kbsymtabAppend_within_iff (by decide) "v".toList).mpr ⟨?_, ?_⟩
  · intro i hkey _
    have hzero : detectKeytype .all "x[0]".toList = .index 0 := by decide
    exact (Keytype.index.inj (hzero.symm.trans hkey)).symm
  · intro _ _ _ _ _
    decide

end Kubeka
