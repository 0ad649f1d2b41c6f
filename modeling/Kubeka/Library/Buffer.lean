import Mathlib.Data.List.GetD
import Mathlib.Tactic

/-!
# Buffers

A buffer is a piece of memory of known size, whose cells hold something from
the start. A write that does not fit into it is undefined. Resizing keeps the
cells that were there, and what the new ones hold is not known.
-/

namespace Kubeka

structure Buffer (α : Type*) where
  size : ℕ
  cells : ℕ → α

namespace Buffer

variable {α : Type*} {b : Buffer α} {xs ys zs : List α}

/-- Copy a list into the cells from `i` on. -/
def write (b : Buffer α) (i : ℕ) (xs : List α) : Option (Buffer α) :=
  if i + xs.length ≤ b.size then
    some { b with cells := fun j => if i ≤ j then (xs[j - i]?).getD (b.cells j) else b.cells j }
  else none

def resize (b : Buffer α) (size : ℕ) (fresh : ℕ → α) : Buffer α where
  size := size
  cells j := if j < b.size then b.cells j else fresh j

/-- The `n` cells from `i` on. -/
def slice (b : Buffer α) (i n : ℕ) : List α := (List.range n).map fun k => b.cells (i + k)

/-- The buffer starts with this list. -/
structure Holds (b : Buffer α) (xs : List α) : Prop where
  fits : xs.length ≤ b.size
  cells : ∀ k x, xs[k]? = some x → b.cells k = x

theorem holds_nil (b : Buffer α) : b.Holds [] := ⟨Nat.zero_le _, by simp⟩

theorem Holds.of_append (h : b.Holds (xs ++ ys)) : b.Holds xs where
  fits := by
    have hfits := h.fits
    rw [List.length_append] at hfits
    omega
  cells k x hk := by
    refine h.cells k x ?_
    rw [List.getElem?_append_left (List.getElem?_eq_some_iff.mp hk).1, hk]

theorem Holds.resize (h : b.Holds xs) {size : ℕ} (hsize : xs.length ≤ size) (fresh : ℕ → α) :
    (b.resize size fresh).Holds xs where
  fits := hsize
  cells k x hk := by
    have hlt := (List.getElem?_eq_some_iff.mp hk).1
    have hfits := h.fits
    rw [Buffer.resize]
    simp only
    rw [if_pos (by omega), h.cells k x hk]

/-- What is written behind a list is appended to it. -/
theorem Holds.write (h : b.Holds xs) (ys : List α) (hroom : xs.length + ys.length ≤ b.size) :
    ∃ b', b.write xs.length ys = some b' ∧ b'.size = b.size ∧ b'.Holds (xs ++ ys) := by
  refine ⟨_, if_pos hroom, rfl, by rwa [List.length_append], fun k x hk => ?_⟩
  by_cases hle : xs.length ≤ k
  · rw [List.getElem?_append_right hle] at hk
    simp [hle, hk]
  · rw [List.getElem?_append_left (not_le.mp hle)] at hk
    simp only [hle, if_false]
    exact h.cells k x hk

theorem length_slice (b : Buffer α) (i n : ℕ) : (b.slice i n).length = n := by simp [slice]

/-- A piece of the list is read at its place. -/
theorem Holds.slice (h : b.Holds (xs ++ (ys ++ zs))) : b.slice xs.length ys.length = ys := by
  refine List.ext_getElem? fun k => ?_
  by_cases hk : k < ys.length
  · have hcell : (xs ++ (ys ++ zs))[xs.length + k]? = some ys[k] := by
      rw [List.getElem?_append_right (by omega), Nat.add_sub_cancel_left,
        List.getElem?_append_left hk, List.getElem?_eq_getElem hk]
    rw [List.getElem?_eq_getElem hk, Buffer.slice, List.getElem?_map, List.getElem?_range hk,
      Option.map_some, h.cells _ _ hcell]
  · rw [List.getElem?_eq_none (by rw [length_slice]; omega), List.getElem?_eq_none (by omega)]

end Buffer

end Kubeka
