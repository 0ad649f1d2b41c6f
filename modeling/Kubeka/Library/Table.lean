import Mathlib.Tactic

/-!
# Tables that end at a zero entry

A table is allocated with a number of zero slots and filled from the front. Its
length is kept nowhere: a reader goes on until it meets a zero slot. A write
past the last slot changes nothing in the table and is noted, as what it does
to the rest of the memory is unknown.
-/

namespace Kubeka

structure ZeroTable (α : Type*) where
  slots : List (Option α)
  stored : ℕ
  overflow : Bool

namespace ZeroTable

variable {α : Type*}

/-- `calloc` -/
def new (n : ℕ) : ZeroTable α := { slots := List.replicate n none, stored := 0, overflow := false }

/-- Write at the first position that has not been written yet. -/
def store (t : ZeroTable α) (a : α) : ZeroTable α where
  slots := t.slots.set t.stored (some a)
  stored := t.stored + 1
  overflow := t.overflow || decide (t.slots.length ≤ t.stored)

def storeAll (t : ZeroTable α) (xs : List α) : ZeroTable α := xs.foldl store t

/-- The entries before the first zero slot; `none` when the reader leaves the table. -/
def scan : List (Option α) → Option (List α)
  | [] => none
  | none :: _ => some []
  | some a :: slots => (scan slots).map (a :: ·)

/-- Every write was inside of the table, and at least one slot was left zero. -/
structure Terminated (t : ZeroTable α) : Prop where
  inBounds : t.overflow = false
  room : t.stored ≤ t.slots.length - 1
  ends : (scan t.slots).isSome

@[simp] theorem storeAll_nil (t : ZeroTable α) : t.storeAll [] = t := rfl

@[simp] theorem storeAll_cons (t : ZeroTable α) (a : α) (xs : List α) :
    t.storeAll (a :: xs) = (t.store a).storeAll xs := rfl

theorem storeAll_append (t : ZeroTable α) (xs ys : List α) :
    t.storeAll (xs ++ ys) = (t.storeAll xs).storeAll ys := List.foldl_append

@[simp] theorem storeAll_stored (t : ZeroTable α) (xs : List α) :
    (t.storeAll xs).stored = t.stored + xs.length := by
  induction xs generalizing t with
  | nil => rfl
  | cons a xs ih =>
    rw [storeAll_cons, ih, List.length_cons]
    simp only [store]
    omega

@[simp] theorem storeAll_length (t : ZeroTable α) (xs : List α) :
    (t.storeAll xs).slots.length = t.slots.length := by
  induction xs generalizing t with
  | nil => rfl
  | cons a xs ih => rw [storeAll_cons, ih, store, List.length_set]

/-- Writes go on past the end exactly when there are more of them than free slots. -/
theorem storeAll_overflow {t : ZeroTable α} {xs : List α} (h : t.stored ≤ t.slots.length) :
    (t.storeAll xs).overflow = false ↔
      t.overflow = false ∧ t.stored + xs.length ≤ t.slots.length := by
  induction xs generalizing t with
  | nil => simpa using fun _ => h
  | cons a xs ih =>
    rw [storeAll_cons, List.length_cons]
    by_cases hroom : t.stored + 1 ≤ t.slots.length
    · have hstore : (t.store a).stored ≤ (t.store a).slots.length := by simpa [store] using hroom
      have hlt : ¬ t.slots.length ≤ t.stored := by omega
      rw [ih hstore]
      simp only [store, List.length_set, hlt, decide_false, Bool.or_false]
      exact and_congr_right fun _ => by omega
    · have hover : ∀ (ys : List α) (u : ZeroTable α), u.overflow = true →
          (u.storeAll ys).overflow = true := by
        intro ys
        induction ys with
        | nil => exact fun u hu => hu
        | cons b ys ihys => exact fun u hu => ihys _ (by simp [store, hu])
      have hfull : (t.store a).overflow = true := by
        simp only [store, Bool.or_eq_true, decide_eq_true_eq]
        omega
      simp only [hover xs _ hfull, Bool.true_eq_false, false_iff, not_and]
      omega

/-- The slots of a table that was large enough. -/
theorem storeAll_new_slots {n : ℕ} {xs : List α} (h : xs.length ≤ n) :
    ((new n).storeAll xs).slots = xs.map some ++ List.replicate (n - xs.length) none := by
  have hgen : ∀ (ys : List α) (t : ZeroTable α) (front : List (Option α)) (k : ℕ),
      t.slots = front ++ List.replicate (ys.length + k) none → t.stored = front.length →
      (t.storeAll ys).slots = front ++ ys.map some ++ List.replicate k none := by
    intro ys
    induction ys with
    | nil =>
      intro t front k hslots _
      simpa using hslots
    | cons a ys ih =>
      intro t front k hslots hstored
      have hset : (t.store a).slots = (front ++ [some a]) ++
          List.replicate (ys.length + k) none := by
        have hlen : (a :: ys).length + k = (ys.length + k) + 1 := by
          simp only [List.length_cons]
          omega
        rw [store, hslots, hstored, hlen, List.replicate_succ, List.set_append_right _ _ le_rfl]
        simp
      rw [storeAll_cons, ih _ _ k hset (by simp [store, hstored])]
      simp
  have hsplit : xs.length + (n - xs.length) = n := by omega
  simpa using hgen xs (new n) [] (n - xs.length) (by rw [hsplit]; rfl) rfl

/-! ### What a reader finds -/

theorem scan_map_append (xs : List α) (slots : List (Option α)) :
    scan (xs.map some ++ slots) = (scan slots).map (xs ++ ·) := by
  induction xs with
  | nil => simp
  | cons a xs ih =>
    rw [List.map_cons, List.cons_append, scan, ih, Option.map_map]
    rfl

theorem scan_append_replicate (xs : List α) (k : ℕ) :
    scan (xs.map some ++ List.replicate k none) = if k = 0 then none else some xs := by
  rw [scan_map_append]
  cases k <;> simp [scan, List.replicate_succ]

/-- The entries are followed by a zero slot, and what is behind it does not matter. -/
theorem scan_eq_some_iff {slots : List (Option α)} {xs : List α} :
    scan slots = some xs ↔ ∃ rest, slots = xs.map some ++ none :: rest := by
  constructor
  · intro h
    induction slots generalizing xs with
    | nil => simp [scan] at h
    | cons slot slots ih =>
      cases slot with
      | none =>
        obtain rfl : [] = xs := by simpa [scan] using h
        exact ⟨slots, rfl⟩
      | some a =>
        obtain ⟨ys, hys, rfl⟩ := Option.map_eq_some_iff.mp h
        obtain ⟨rest, rfl⟩ := ih hys
        exact ⟨rest, rfl⟩
  · rintro ⟨rest, rfl⟩
    rw [scan_map_append, scan, Option.map_some, List.append_nil]

section

variable {slots : List (Option α)} {xs : List α} {i : ℕ} (h : scan slots = some xs)

include h

/-- Up to the zero slot the slots are the entries. -/
theorem scan_getElem? (hi : i ≤ xs.length) : slots[i]? = some xs[i]? := by
  obtain ⟨rest, rfl⟩ := scan_eq_some_iff.mp h
  by_cases hlt : i < xs.length
  · simp [List.getElem?_append_left, hlt]
  · obtain rfl : i = xs.length := by omega
    simp

/-- An entry is replaced in its slot. -/
theorem scan_set (hi : i < xs.length) (a : α) :
    scan (slots.set i (some a)) = some (xs.set i a) := by
  obtain ⟨rest, rfl⟩ := scan_eq_some_iff.mp h
  refine scan_eq_some_iff.mpr ⟨rest, ?_⟩
  rw [List.set_append_left _ _ (by simpa using hi), List.map_set]

end

/-- A table ends after its entries exactly when a slot more than there are entries was allocated. -/
theorem storeAll_terminated_iff {n : ℕ} {xs : List α} (hn : 0 < n) :
    Terminated ((new n).storeAll xs) ↔ xs.length + 1 ≤ n := by
  have hlen : (new n : ZeroTable α).slots.length = n := by simp [new]
  constructor
  · rintro ⟨-, hroom, -⟩
    rw [storeAll_stored, storeAll_length, hlen] at hroom
    simp only [new] at hroom
    omega
  · intro h
    refine ⟨?_, ?_, ?_⟩
    · refine (storeAll_overflow (by simp [new])).mpr ⟨rfl, ?_⟩
      rw [hlen]
      simp only [new]
      omega
    · rw [storeAll_stored, storeAll_length, hlen]
      simp only [new]
      omega
    · have hk : n - xs.length ≠ 0 := by omega
      rw [storeAll_new_slots (by omega), scan_append_replicate, if_neg hk]
      rfl

/-- What is read of such a table is what was stored in it. -/
theorem scan_storeAll_new {n : ℕ} {xs : List α} (h : xs.length + 1 ≤ n) :
    scan ((new n).storeAll xs).slots = some xs := by
  have hk : n - xs.length ≠ 0 := by omega
  rw [storeAll_new_slots (by omega), scan_append_replicate, if_neg hk]

end ZeroTable

end Kubeka
