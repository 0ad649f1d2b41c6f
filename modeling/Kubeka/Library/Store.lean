import Mathlib.Tactic
import Mathlib.Logic.Function.Basic

/-!
# A store of cells

Cells are allocated one after the other and can be released. A program over
such a store may come to a cell that is not there, which is undefined, or have
too little fuel; otherwise it has a result. An array in a cell is visited by
index while the visits may change it.
-/

namespace Kubeka

/-- Why a program has no result. -/
inductive Fault where
  | fuel
  | undefined
  deriving DecidableEq, Repr

theorem ok_bind {α β : Type} (a : α) (f : α → Except Fault β) : (Except.ok a >>= f) = f a := rfl

theorem error_bind {α β : Type} (e : Fault) (f : α → Except Fault β) :
    ((Except.error e : Except Fault α) >>= f) = .error e := rfl

abbrev Ref := ℕ

/-- The cells, the reference of the next one, and the references released, in order. -/
structure Store (α : Type) where
  cells : Ref → Option α
  next : Ref
  released : List Ref

namespace Store

variable {α : Type}

def empty : Store α where
  cells _ := none
  next := 0
  released := []

def read (h : Store α) (r : Ref) : Except Fault α :=
  match h.cells r with
  | none => .error .undefined
  | some a => .ok a

def set (h : Store α) (r : Ref) (a : α) : Store α :=
  { h with cells := Function.update h.cells r (some a) }

def alloc (h : Store α) (a : α) : Store α × Ref :=
  ({ h with cells := Function.update h.cells h.next (some a), next := h.next + 1 }, h.next)

def release (h : Store α) (r : Ref) : Store α :=
  { h with cells := Function.update h.cells r none, released := h.released ++ [r] }

theorem read_of_cells {h : Store α} {r : Ref} {a : α} (hr : h.cells r = some a) :
    h.read r = .ok a := by
  simp [read, hr]

theorem read_of_none {h : Store α} {r : Ref} (hr : h.cells r = none) :
    h.read r = .error .undefined := by
  simp [read, hr]

section
variable (h : Store α) (r q : Ref) (a : α)

@[simp] theorem set_next : (h.set r a).next = h.next := rfl
@[simp] theorem set_released : (h.set r a).released = h.released := rfl
@[simp] theorem set_cells_self : (h.set r a).cells r = some a := Function.update_self ..
@[simp] theorem alloc_ref : (h.alloc a).2 = h.next := rfl
@[simp] theorem alloc_next : (h.alloc a).1.next = h.next + 1 := rfl
@[simp] theorem alloc_cells_self : (h.alloc a).1.cells h.next = some a := Function.update_self ..
@[simp] theorem release_next : (h.release r).next = h.next := rfl
@[simp] theorem release_released : (h.release r).released = h.released ++ [r] := rfl
@[simp] theorem release_cells_self : (h.release r).cells r = none := Function.update_self ..

variable {r q}

theorem set_cells_of_ne (hne : q ≠ r) : (h.set r a).cells q = h.cells q :=
  Function.update_of_ne hne ..

theorem alloc_cells_of_ne (hne : q ≠ h.next) : (h.alloc a).1.cells q = h.cells q :=
  Function.update_of_ne hne ..

theorem release_cells_of_ne (hne : q ≠ r) : (h.release r).cells q = h.cells q :=
  Function.update_of_ne hne ..

end

/-! ### Visiting an array -/

/-- Call `f` on the elements at `i`, `i + 1`, ... of the array in a cell, as long as there are such
elements; `steps` is the fuel. -/
def visit (items : α → List Ref) (f : Store α → Ref → Except Fault (Store α)) (r : Ref) :
    ℕ → ℕ → Store α → Except Fault (Store α)
  | 0, i, h => do
    let cell ← h.read r
    match (items cell)[i]? with
    | none => .ok h
    | some _ => .error .fuel
  | steps + 1, i, h => do
    let cell ← h.read r
    match (items cell)[i]? with
    | none => .ok h
    | some c => do
      let h ← f h c
      visit items f r steps (i + 1) h

variable {items : α → List Ref} {f : Store α → Ref → Except Fault (Store α)} {r c : Ref}
  {steps i : ℕ} {h h' : Store α} {cell : α}

theorem visit_done (hr : h.cells r = some cell) (hi : (items cell).length ≤ i) :
    visit items f r steps i h = .ok h := by
  cases steps <;> rw [visit, read_of_cells hr, ok_bind, List.getElem?_eq_none hi]

theorem visit_step (hr : h.cells r = some cell) (hi : (items cell)[i]? = some c)
    (hf : f h c = .ok h') :
    visit items f r (steps + 1) i h = visit items f r steps (i + 1) h' := by
  rw [visit, read_of_cells hr, ok_bind, hi]
  simp only [hf, ok_bind]

theorem visit_fault {e : Fault} (hr : h.cells r = some cell) (hi : (items cell)[i]? = some c)
    (hf : f h c = .error e) : visit items f r (steps + 1) i h = .error e := by
  rw [visit, read_of_cells hr, ok_bind, hi]
  simp only [hf, error_bind]

end Store

end Kubeka
