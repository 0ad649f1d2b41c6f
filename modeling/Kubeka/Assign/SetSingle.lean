import Kubeka.Model.Node
import Kubeka.Model.Slots

/-!
# Replacing one value

`kbnode_set_single` looks for the end of an array and replaces a value before
it. Its bound is one too large: the index may be the number of values, where the
terminating NULL is. And it stores the copy of the new value whether there is
one or not, so without memory the array ends at the index.
-/

namespace Kubeka

variable {alloc : Alloc} {symtab : Option SlotTable} {key newvalue : CStr} {index : ℕ} {sa : Slots}
  {xs : List CStr}

/-- Every array has an end for its readers. -/
def Ends (symtab : Option SlotTable) : Prop :=
  ∀ key sa, kbsymtabGetSlots symtab key = some sa → (ZeroTable.scan sa).isSome

/-- The `symtab` of a node, with arrays that end. -/
structure EndedTable where
  symtab : Option SlotTable
  ends : Ends symtab

/-- The values that a reader finds. -/
def EndedTable.values (t : EndedTable) (key : CStr) : Option (List CStr) :=
  (kbsymtabGetSlots t.symtab key).bind ZeroTable.scan

/-- If the key has more than `index` values, this one and nothing else is replaced; otherwise
nothing is written. The terminating NULL is never written to. -/
structure SetsSingle (before : Option SlotTable) (key : CStr) (index : ℕ) (newvalue : CStr)
    (r : SetSingle) : Prop where
  returns : r.ret = true ↔
    ∃ n, kbutilStrarrayLength (kbsymtabGetSlots before key) = .ok n ∧ index < n
  element : r.ret = true → ∀ sa, kbsymtabGetSlots before key = some sa →
    kbsymtabGetSlots r.symtab key = some (sa.set index (some newvalue)) ∧ r.stored = [index]
  length : r.ret = true → kbutilStrarrayLength (kbsymtabGetSlots r.symtab key) =
    kbutilStrarrayLength (kbsymtabGetSlots before key)
  others : r.ret = true → ∀ k, k ≠ key → kbsymtabGetSlots r.symtab k = kbsymtabGetSlots before k
  nothing : r.ret = false → r.symtab = before ∧ r.stored = []
  terminator : ∀ n, kbutilStrarrayLength (kbsymtabGetSlots before key) = .ok n → n ∉ r.stored

/-! ### What the call does -/

theorem kbsymtabGetSlots_insert (st : SlotTable) (key : CStr) (sa : Slots) (k : CStr) :
    kbsymtabGetSlots (some (st.insert key sa)) k =
      if k = key then some sa else kbsymtabGetSlots (some st) k := by
  split_ifs with hk
  · rw [hk]
    exact AList.lookup_insert st
  · exact AList.lookup_insert_ne hk

theorem Slots.read_of_scan (h : ZeroTable.scan sa = some xs) (hle : index ≤ xs.length) :
    sa.read index = .ok xs[index]? := by
  rw [Slots.read, ZeroTable.scan_getElem? h hle]

/-- A key that is not bound has no values. -/
theorem setSingleSlots_unbound (hget : kbsymtabGetSlots symtab key = none) :
    kbnodeSetSingleSlots alloc symtab key index newvalue =
      .ok { ret := false, symtab := symtab, stored := [] } := by
  cases symtab <;> simp [kbnodeSetSingleSlots, hget]

/-- An array without values is left alone, and so is one that ends before the index. -/
theorem setSingleSlots_refused (hget : kbsymtabGetSlots symtab key = some sa)
    (hscan : ZeroTable.scan sa = some xs) (h : xs = [] ∨ xs.length < index) :
    kbnodeSetSingleSlots alloc symtab key index newvalue =
      .ok { ret := false, symtab := symtab, stored := [] } := by
  cases symtab with
  | none => simp [kbsymtabGetSlots] at hget
  | some st =>
    simp only [kbnodeSetSingleSlots, hget, Slots.read_of_scan hscan (Nat.zero_le _), ok_bind,
      kbutilStrarrayLength_of_scan hscan]
    cases xs with
    | nil => rfl
    | cons x xs =>
      have hgt : index > (x :: xs).length := h.resolve_left (List.cons_ne_nil x xs)
      simp only [List.getElem?_cons_zero, if_pos hgt]

/-- In any other case the slot at the index is written. -/
theorem setSingleSlots_stored {st : SlotTable} (hget : kbsymtabGetSlots (some st) key = some sa)
    (hscan : ZeroTable.scan sa = some xs) (hne : xs ≠ []) (hle : index ≤ xs.length) :
    kbnodeSetSingleSlots alloc (some st) key index newvalue =
      .ok { ret := alloc .replacement
            symtab := some (st.insert key
              (sa.set index (if alloc .replacement then some newvalue else none)))
            stored := [index] } := by
  obtain ⟨x, rest, rfl⟩ := List.exists_cons_of_ne_nil hne
  have hgt : ¬ index > (x :: rest).length := not_lt.mpr hle
  simp only [kbnodeSetSingleSlots, hget, Slots.read_of_scan hscan (Nat.zero_le _), ok_bind,
    kbutilStrarrayLength_of_scan hscan, List.getElem?_cons_zero, if_neg hgt,
    Slots.read_of_scan hscan hle]
  cases alloc .replacement <;> rfl

theorem ends_empty : Ends (some ∅) := fun _ _ h => absurd h (by simp [kbsymtabGetSlots])

theorem Ends.insert {st : SlotTable} (h : Ends (some st)) (hsa : (ZeroTable.scan sa).isSome)
    (key : CStr) : Ends (some (st.insert key sa)) := by
  intro k sa' hget
  rw [kbsymtabGetSlots_insert] at hget
  split_ifs at hget
  · rwa [← Option.some.inj hget]
  · exact h k sa' hget

/-! ### When it does what it is for -/

/-- Nothing is written where there is no such element. -/
theorem SetsSingle.refused
    (h : ∀ n, kbutilStrarrayLength (kbsymtabGetSlots symtab key) = .ok n → n ≤ index) :
    SetsSingle symtab key index newvalue { ret := false, symtab := symtab, stored := [] } where
  returns := by
    refine iff_of_false Bool.false_ne_true ?_
    rintro ⟨n, hn, hlt⟩
    exact absurd hlt (not_lt.mpr (h n hn))
  element h := absurd h Bool.false_ne_true
  length h := absurd h Bool.false_ne_true
  others h := absurd h Bool.false_ne_true
  nothing _ := ⟨rfl, rfl⟩
  terminator _ _ := List.not_mem_nil

/-- A write is that of an element when it is before the end, and there is a string to write. -/
theorem setsSingle_stored_iff {st : SlotTable} (hget : kbsymtabGetSlots (some st) key = some sa)
    (hscan : ZeroTable.scan sa = some xs) (hle : index ≤ xs.length) (copied : Bool) :
    SetsSingle (some st) key index newvalue
      { ret := copied
        symtab := some (st.insert key (sa.set index (if copied then some newvalue else none)))
        stored := [index] } ↔ index < xs.length ∧ copied = true := by
  have hlength : kbutilStrarrayLength (kbsymtabGetSlots (some st) key) = .ok xs.length := by
    rw [hget, kbutilStrarrayLength_of_scan hscan]
  constructor
  · intro h
    have hne : index ≠ xs.length := fun heq => h.terminator _ hlength (by simp [heq])
    have hlt : index < xs.length := lt_of_le_of_ne hle hne
    exact ⟨hlt, h.returns.mpr ⟨_, hlength, hlt⟩⟩
  · rintro ⟨hlt, rfl⟩
    have hself := kbsymtabGetSlots_insert st key (sa.set index (some newvalue)) key
    rw [if_pos rfl] at hself
    refine ⟨iff_of_true rfl ⟨_, hlength, hlt⟩, fun _ sa' hget' => ?_, fun _ => ?_,
      fun _ k hk => ?_, fun h => absurd h.symm Bool.false_ne_true, fun n hn => ?_⟩
    · obtain rfl : sa = sa' := Option.some.inj (hget.symm.trans hget')
      exact ⟨hself, rfl⟩
    · have hset := kbutilStrarrayLength_of_scan (ZeroTable.scan_set hscan hlt newvalue)
      rw [List.length_set] at hset
      rw [hlength, ← hset]
      exact congrArg kbutilStrarrayLength hself
    · rw [kbsymtabGetSlots_insert, if_neg hk]
    · have hn' : xs.length = n := Except.ok.inj (hlength.symm.trans hn)
      rw [List.mem_singleton]
      omega

/-- A value is replaced, or nothing written, exactly when the index is not the number of values and
the new value of an element can be copied. -/
theorem kbnodeSetSingleSlots_sets_iff (alloc : Alloc) (node : EndedTable) (key : CStr) (index : ℕ)
    (newvalue : CStr) :
    (∃ r, kbnodeSetSingleSlots alloc node.symtab key index newvalue = .ok r ∧
        SetsSingle node.symtab key index newvalue r) ↔
      ∀ xs, node.values key = some xs → xs ≠ [] →
        index ≠ xs.length ∧ (index < xs.length → alloc .replacement = true) := by
  obtain ⟨symtab, hends⟩ := node
  simp only [EndedTable.values]
  cases hget : kbsymtabGetSlots symtab key with
  | none =>
    refine iff_of_true ⟨_, setSingleSlots_unbound hget, .refused ?_⟩ (by simp)
    intro n hn
    rw [hget] at hn
    obtain rfl : 0 = n := Except.ok.inj hn
    exact Nat.zero_le index
  | some sa =>
    obtain ⟨xs, hscan⟩ := Option.isSome_iff_exists.mp (hends key sa hget)
    have hlength : kbutilStrarrayLength (kbsymtabGetSlots symtab key) = .ok xs.length := by
      rw [hget, kbutilStrarrayLength_of_scan hscan]
    simp only [Option.bind_some, hscan, Option.some.injEq, forall_eq']
    by_cases hrefused : xs = [] ∨ xs.length < index
    · refine iff_of_true ⟨_, setSingleSlots_refused hget hscan hrefused, .refused ?_⟩ ?_
      · intro n hn
        obtain rfl : xs.length = n := Except.ok.inj (hlength.symm.trans hn)
        rcases hrefused with rfl | hlt
        · exact Nat.zero_le index
        · exact hlt.le
      · intro hne
        have hlt := hrefused.resolve_left hne
        exact ⟨hlt.ne', fun hgt => absurd hgt hlt.asymm⟩
    · obtain ⟨hne, hle⟩ := not_or.mp hrefused
      rw [not_lt] at hle
      cases symtab with
      | none => simp [kbsymtabGetSlots] at hget
      | some st =>
        rw [setSingleSlots_stored hget hscan hne hle]
        simp only [Except.ok.injEq, exists_eq_left', setsSingle_stored_iff hget hscan hle]
        constructor
        · rintro ⟨hlt, hcopy⟩ _
          exact ⟨hlt.ne, fun _ => hcopy⟩
        · intro h
          obtain ⟨hend, hcopy⟩ := h hne
          have hlt : index < xs.length := lt_of_le_of_ne hle hend
          exact ⟨hlt, hcopy hlt⟩

/-- A node with COUNTER = 1. -/
def onceCounted : EndedTable where
  symtab := some ((∅ : SlotTable).insert kbnodeKeyCounter [some "1".toList, none])
  ends := ends_empty.insert rfl _

/-- The value after the only one goes to where the array ends. -/
theorem onceCounted_overwritten :
    (∃ r, kbnodeSetSingleSlots .all onceCounted.symtab kbnodeKeyCounter 1 "0".toList = .ok r ∧
      r.ret = true ∧ r.stored = [1] ∧
      kbutilStrarrayLength (kbsymtabGetSlots onceCounted.symtab kbnodeKeyCounter) = .ok 1 ∧
      kbutilStrarrayLength (kbsymtabGetSlots r.symtab kbnodeKeyCounter) = .error .undefined) ∧
    ¬ ∃ r, kbnodeSetSingleSlots .all onceCounted.symtab kbnodeKeyCounter 1 "0".toList = .ok r ∧
      SetsSingle onceCounted.symtab kbnodeKeyCounter 1 "0".toList r := by
  refine ⟨⟨_, rfl, rfl, rfl, rfl, rfl⟩, ?_⟩
  rintro ⟨r, hr, hsets⟩
  obtain rfl := Except.ok.inj hr
  exact hsets.terminator 1 rfl List.mem_cons_self

/-! ### Arrays that end -/

/-- A call that does what it is for leaves every array with its length. -/
theorem SetsSingle.keepsLength {r : SetSingle} (h : SetsSingle symtab key index newvalue r)
    (k : CStr) : kbutilStrarrayLength (kbsymtabGetSlots r.symtab k) =
      kbutilStrarrayLength (kbsymtabGetSlots symtab k) := by
  cases hret : r.ret with
  | false => rw [(h.nothing hret).1]
  | true =>
    by_cases hk : k = key
    · rw [hk, h.length hret]
    · rw [h.others hret k hk]

/-! ### The arrays as lists -/

/-- A reader of the arrays finds the values of this table. -/
def Represents (symtab : Option SlotTable) (st : Symtab) : Prop :=
  ∀ key, (kbsymtabGetSlots symtab key).map ZeroTable.scan = (kbsymtabGet st key).map some

variable {st : Symtab}

theorem Represents.bound (h : Represents symtab st) (hget : kbsymtabGet st key = some xs) :
    ∃ sa, kbsymtabGetSlots symtab key = some sa ∧ ZeroTable.scan sa = some xs := by
  have hkey := h key
  rw [hget] at hkey
  exact Option.map_eq_some_iff.mp hkey

theorem Represents.unbound (h : Represents symtab st) (hget : kbsymtabGet st key = none) :
    kbsymtabGetSlots symtab key = none := by
  have hkey := h key
  rw [hget] at hkey
  exact Option.map_eq_none_iff.mp hkey

theorem Represents.insert {table : SlotTable} (h : Represents (some table) st)
    (hscan : ZeroTable.scan sa = some xs) (key : CStr) :
    Represents (some (table.insert key sa)) (st.insert key xs) := by
  intro k
  rw [kbsymtabGetSlots_insert, kbsymtabGet_insert]
  split_ifs
  · rw [Option.map_some, hscan]
    rfl
  · exact h k

/-- Any table can be in memory. -/
theorem exists_represents (st : Symtab) : ∃ table, Represents (some table) st := by
  induction st using AList.insertRec with
  | H0 => exact ⟨∅, fun _ => rfl⟩
  | IH key xs st _ ih =>
    obtain ⟨table, htable⟩ := ih
    have hscan : ZeroTable.scan (xs.map some ++ [none]) = some xs :=
      ZeroTable.scan_eq_some_iff.mpr ⟨[], rfl⟩
    exact ⟨_, htable.insert hscan key⟩

/-- As long as the index is not the number of values, the call is that on lists. -/
theorem setSingleSlots_represents (h : Represents symtab st) (hcopy : alloc .replacement = true)
    (hindex : ∀ xs, kbsymtabGet st key = some xs → xs ≠ [] → index ≠ xs.length)
    (newvalue : CStr) :
    ∃ r, kbnodeSetSingleSlots alloc symtab key index newvalue = .ok r ∧
      r.ret = (kbnodeSetSingle st key index newvalue).1 ∧
      Represents r.symtab (kbnodeSetSingle st key index newvalue).2 := by
  cases hget : kbsymtabGet st key with
  | none =>
    refine ⟨_, setSingleSlots_unbound (h.unbound hget), ?_⟩
    simp [kbnodeSetSingle, hget, h]
  | some xs =>
    obtain ⟨sa, hslots, hscan⟩ := h.bound hget
    by_cases hrefused : xs = [] ∨ xs.length < index
    · refine ⟨_, setSingleSlots_refused hslots hscan hrefused, ?_⟩
      rw [kbnodeSetSingle_refused hget hrefused]
      exact ⟨rfl, h⟩
    · obtain ⟨hne, hle⟩ := not_or.mp hrefused
      rw [not_lt] at hle
      cases symtab with
      | none => simp [kbsymtabGetSlots] at hslots
      | some table =>
        refine ⟨_, setSingleSlots_stored hslots hscan hne hle, ?_⟩
        rw [kbnodeSetSingle_stored hget hne hle, hcopy]
        have hlt : index < xs.length := lt_of_le_of_ne hle (hindex xs hget hne)
        exact ⟨rfl, h.insert (ZeroTable.scan_set hscan hlt newvalue) key⟩

end Kubeka
