import Kubeka.Model.Assign

/-!
# Keys

A key names a variable, one of its elements, or its array. `detect_keytype`
reads the index of an element with `sscanf`, so that one of 2^64 or more is
taken for the largest one there is.
-/

namespace Kubeka

open Text

/-- The forms of a key: `name`, `name[3]`, `name[]`. -/
inductive KeyForm where
  | plain
  | index (digits : Numeral)
  | array

namespace KeyForm

def key (name : CStr) : KeyForm → CStr
  | plain => name
  | index d => name ++ '[' :: (d.digits ++ [']'])
  | array => name ++ ['[', ']']

/-- The element that is meant; a name by itself is that of the first element. -/
def position : KeyForm → Option ℕ
  | plain => some 0
  | index d => some d.value
  | array => none

/-- What `detect_keytype` makes of the key. -/
def keytype : KeyForm → Keytype
  | plain => .index 0
  | index d => .index (min d.value (2 ^ 64 - 1))
  | array => .array

end KeyForm

variable {alloc : Alloc} {key name : CStr}

theorem normaliseKey_plain (key : CStr) : '[' ∉ normaliseKey key := by
  intro h
  simpa using List.mem_takeWhile_imp h

theorem normaliseKey_of_plain (h : '[' ∉ key) : normaliseKey key = key := by
  refine List.takeWhile_eq_self_iff.mpr fun c hc => ?_
  simpa using fun heq : c = '[' => h (heq ▸ hc)

theorem normaliseKey_append (h : '[' ∉ name) (rest : CStr) :
    normaliseKey (name ++ '[' :: rest) = name := by
  have hall : ∀ c ∈ name, (c != '[') = true := by
    intro c hc
    simpa using fun heq : c = '[' => h (heq ▸ hc)
  unfold normaliseKey
  simp only [ne_eq, decide_not] at hall ⊢
  rw [List.takeWhile_append_of_pos (by simpa using hall), List.takeWhile_cons_of_neg (by simp),
    List.append_nil]

theorem detectKeytype_plain (halloc : alloc .keytype = true) (h : '[' ∉ key) :
    detectKeytype alloc key = .index 0 := by
  have hcut : strchr key '[' = none :=
    cut_eq_none_iff.mpr fun hin => h (hin.subset List.mem_cons_self)
  simp [detectKeytype, halloc, hcut]

theorem detectKeytype_index (halloc : alloc .keytype = true) (h : '[' ∉ name) (d : Numeral) :
    detectKeytype alloc (name ++ '[' :: (d.digits ++ [']'])) =
      .index (min d.value (2 ^ 64 - 1)) := by
  have hclose : ']' ∉ d.digits := fun hc => absurd (d.isDigit _ hc) (by decide)
  have hopened : strchr (name ++ '[' :: (d.digits ++ [']'])) '[' =
      some (name, d.digits ++ [']']) := cut_singleton _ h
  have hclosed : strchr (d.digits ++ [']']) ']' = some (d.digits, []) := cut_singleton _ hclose
  have hscan := sscanfUnsigned_numeral 64 d (fun c (hc : c ∈ ([] : CStr).head?) => by simp at hc)
  rw [List.append_nil, Nat.mod_eq_of_lt (by omega)] at hscan
  obtain ⟨c, digits, hdigits⟩ := List.exists_cons_of_ne_nil d.ne_nil
  have hc : c.isDigit = true := d.isDigit c (by simp [hdigits])
  have hne : ∀ x : Char, x.isDigit = false → c ≠ x := by
    intro x hx heq
    rw [heq, hx] at hc
    contradiction
  unfold detectKeytype
  simp only [halloc, hopened, hclosed, hscan]
  rw [hdigits, List.cons_append]
  simp [hc, hne ']' (by decide), hne '#' (by decide), hne '*' (by decide), hne '@' (by decide)]

theorem detectKeytype_array (halloc : alloc .keytype = true) (h : '[' ∉ name) :
    detectKeytype alloc (name ++ ['[', ']']) = .array := by
  have hopened : strchr (name ++ ['[', ']']) '[' = some (name, [']']) := cut_singleton _ h
  have hclosed : strchr [']'] ']' = some ([], []) := rfl
  simp [detectKeytype, halloc, hopened, hclosed]

namespace KeyForm

theorem normaliseKey_key (form : KeyForm) (h : '[' ∉ name) :
    normaliseKey (form.key name) = name := by
  cases form with
  | plain => exact normaliseKey_of_plain h
  | index d => exact normaliseKey_append h _
  | array => exact normaliseKey_append h _

theorem detectKeytype_key (form : KeyForm) (halloc : alloc .keytype = true) (h : '[' ∉ name) :
    detectKeytype alloc (form.key name) = form.keytype := by
  cases form with
  | plain => exact detectKeytype_plain halloc h
  | index d => exact detectKeytype_index halloc h d
  | array => exact detectKeytype_array halloc h

/-- A key with brackets is none of the names that stand in a table. -/
theorem plain_of_key (form : KeyForm) (h : '[' ∉ form.key name) : form = .plain := by
  cases form with
  | plain => rfl
  | index d => simp [key] at h
  | array => simp [key] at h

end KeyForm

end Kubeka
