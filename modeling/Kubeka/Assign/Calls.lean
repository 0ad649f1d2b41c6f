import Kubeka.Assign.Keys
import Kubeka.Read.ReadOnly

/-!
# What a call comes to

`kbsymtab_set` and `kbsymtab_append` refuse a call for a number of reasons and
then leave the table alone. A call that is not refused comes to the table. For
`kbsymtab_set` this is `storeValue`: the index it works with is that of the
normalised key, which is 0 whatever stands in the brackets.
-/

namespace Kubeka

variable {L : Libds} {alloc : Alloc} {force : Bool} {st : Symtab} {key value : CStr}

/-- The key can be copied and may be written. -/
structure Accepts (alloc : Alloc) (force : Bool) (key : CStr) : Prop where
  keycopy : alloc .keycopy = true
  keytype : alloc .keytype = true
  writable : force = true ∨ detectKeyclass (normaliseKey key) ≠ .ro

theorem accepts_all (hro : force = true ∨ detectKeyclass (normaliseKey key) ≠ .ro) :
    Accepts .all force key :=
  ⟨rfl, rfl, hro⟩

/-- `kbsymtab_set` from the lookup of the existing values on. -/
def storeValue (alloc : Alloc) (st : Symtab) (key : CStr) (varray : List CStr) : Bool × Symtab :=
  match kbsymtabGet st key, varray with
  | none, varray =>
    if alloc .entry then (true, st.insert (normaliseKey key) varray) else (false, st)
  | some [], _ => (false, st)
  | some (_ :: rest), [] => (true, st.insert key ([] :: rest))
  | some (_ :: rest), [v] =>
    if alloc .replacement then (true, st.insert key (v :: rest)) else (false, st.insert key [])
  | some (_ :: _), _ :: _ :: _ => (false, st)

theorem storeValue_unbound (h : kbsymtabGet st key = none) (varray : List CStr) :
    storeValue alloc st key varray =
      if alloc .entry then (true, st.insert (normaliseKey key) varray) else (false, st) := by
  simp [storeValue, h]

theorem storeValue_blank (h : kbsymtabGet st key = some []) (varray : List CStr) :
    storeValue alloc st key varray = (false, st) := by
  simp [storeValue, h]

theorem storeValue_bound {x : CStr} {rest : List CStr} (h : kbsymtabGet st key = some (x :: rest))
    (varray : List CStr) : storeValue alloc st key varray =
      match varray with
      | [] => (true, st.insert key ([] :: rest))
      | [v] =>
        if alloc .replacement then (true, st.insert key (v :: rest)) else (false, st.insert key [])
      | _ => (false, st) := by
  match varray with
  | [] => simp [storeValue, h]
  | [v] => simp [storeValue, h]
  | _ :: _ :: _ => simp [storeValue, h]

/-- With brackets, a key is that of no variable. -/
theorem kbsymtabGet_of_bracket (hst : PlainKeys st) (hkey : '[' ∈ key) :
    kbsymtabGet st key = none := by
  by_contra hne
  obtain ⟨vs, hvs⟩ := Option.ne_none_iff_exists'.mp hne
  exact hst key (mem_keys_iff.mpr ⟨vs, hvs⟩) hkey

/-- The base name of a key with brackets is bound anew. -/
theorem storeValue_bracket (hst : PlainKeys st) (hkey : '[' ∈ key) (varray : List CStr) :
    storeValue alloc st key varray =
      if alloc .entry then (true, st.insert (normaliseKey key) varray) else (false, st) :=
  storeValue_unbound (kbsymtabGet_of_bracket hst hkey) varray

theorem accepts_iff : Accepts alloc force key ↔ alloc .keycopy = true ∧ alloc .keytype = true ∧
    ¬ (force = false ∧ detectKeyclass (normaliseKey key) = .ro) := by
  rw [not_and_or, Bool.not_eq_false]
  exact ⟨fun h => ⟨h.keycopy, h.keytype, h.writable⟩, fun ⟨hcopy, htype, hro⟩ => ⟨hcopy, htype, hro⟩⟩

theorem kbsymtabSet_refused
    (h : ¬ Accepts alloc force key ∨ parseValue L alloc value = none) :
    kbsymtabSet L alloc force st key value = (false, st) := by
  unfold kbsymtabSet
  by_cases hcopy : alloc .keycopy = true
  · by_cases hro : force = false ∧ detectKeyclass (normaliseKey key) = .ro
    · simp [hcopy, hro]
    · by_cases htype : alloc .keytype = true
      · have hnone := h.resolve_left (not_not.mpr (accepts_iff.mpr ⟨hcopy, htype, hro⟩))
        simp [hcopy, hro, hnone]
      · simp [hcopy, hro, detectKeytype, htype]
  · simp [hcopy]

theorem kbsymtabSet_accepted (h : Accepts alloc force key) {varray : List CStr}
    (hparse : parseValue L alloc value = some varray) :
    kbsymtabSet L alloc force st key value = storeValue alloc st key varray := by
  have hro := (accepts_iff.mp h).2.2
  have htype := detectKeytype_plain h.keytype (normaliseKey_plain key)
  unfold kbsymtabSet
  simp only [h.keycopy, hro, htype, hparse, storeValue]
  cases hget : kbsymtabGet st key with
  | none => cases hentry : alloc .entry <;> simp
  | some existing =>
    cases existing with
    | nil => simp [Keytype.indexOr]
    | cons x rest =>
      match varray with
      | [] => simp [Keytype.indexOr]
      | [v] => simp [Keytype.indexOr]
      | _ :: _ :: _ => simp [Keytype.indexOr]

theorem changesOnly_kbsymtabSet (hst : PlainKeys st) (alloc : Alloc) (force : Bool)
    (key value : CStr) :
    ChangesOnly (normaliseKey key) st (kbsymtabSet L alloc force st key value).2 := by
  rcases kbsymtabSet_cases hst alloc force key value with h | ⟨-, ok, vs, h⟩
  · rw [h]
    exact fun _ _ => rfl
  · rw [h]
    exact changesOnly_insert st _ vs

theorem detectKeytype_of_alloc (h : alloc .keytype = true) (key : CStr) :
    detectKeytype alloc key = detectKeytype .all key := by
  simp [detectKeytype, h, Alloc.all]

/-- The array that a key names has the element that it means, or is made with it. -/
def Keytype.Fits (nexisting : ℕ) : Keytype → Prop
  | .index i => nexisting = 0 ∨ i < nexisting
  | .array => True
  | _ => False

/-- The number of values that `kbsymtab_append` finds. -/
def nexisting (st : Symtab) (key : CStr) : ℕ :=
  ((kbsymtabGet st (normaliseKey key)).getD []).length

theorem kbsymtabAppend_refused
    (h : ¬ Accepts alloc force key ∨ ¬ (detectKeytype .all key).Fits (nexisting st key)) :
    kbsymtabAppend alloc force st key value = some (false, st) := by
  unfold kbsymtabAppend
  by_cases hcopy : alloc .keycopy = true
  · by_cases hro : force = false ∧ detectKeyclass (normaliseKey key) = .ro
    · simp [hcopy, hro]
    · by_cases htype : alloc .keytype = true
      · have hfits := h.resolve_left (not_not.mpr (accepts_iff.mpr ⟨hcopy, htype, hro⟩))
        rw [detectKeytype_of_alloc htype]
        cases hkey : detectKeytype .all key with
        | index index =>
          simp only [hkey, Keytype.Fits, nexisting] at hfits
          simp only [hcopy, hro, if_false, not_true_eq_false]
          rw [if_pos (by omega)]
        | array => simp [hkey, Keytype.Fits] at hfits
        | _ => simp [hcopy, hro]
      · simp [hcopy, hro, detectKeytype, htype]
  · simp [hcopy]

theorem kbsymtabAppend_accepted (h : Accepts alloc force key)
    (hfits : (detectKeytype .all key).Fits (nexisting st key)) :
    kbsymtabAppend alloc force st key value =
      replaceValue alloc st (normaliseKey key) (detectKeytype .all key) value := by
  have hro := (accepts_iff.mp h).2.2
  unfold kbsymtabAppend
  rw [detectKeytype_of_alloc h.keytype]
  cases hkey : detectKeytype .all key with
  | index index =>
    simp only [hkey, Keytype.Fits, nexisting] at hfits
    simp only [h.keycopy, hro, if_false, not_true_eq_false]
    rw [if_neg (by omega)]
  | array => simp [h.keycopy, hro]
  | _ => simp [hkey, Keytype.Fits] at hfits

theorem changesOnly_kbsymtabAppend {r : Bool × Symtab}
    (h : kbsymtabAppend alloc force st key value = some r) :
    ChangesOnly (normaliseKey key) st r.2 := by
  rcases kbsymtabAppend_cases h with rfl | ⟨-, h | ⟨vs, h⟩⟩
  · exact fun _ _ => rfl
  · rw [h]
    exact changesOnly_erase st _
  · rw [h]
    intro k hk
    exact (changesOnly_insert _ _ _ k hk).trans (changesOnly_erase _ _ k hk)

end Kubeka
