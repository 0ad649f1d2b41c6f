import Mathlib.Data.Fintype.Card
import Mathlib.Data.Set.Finite.Basic
import Mathlib.Logic.Relation
import Mathlib.Order.WellFounded
import Mathlib.Tactic

/-!
# Cycles and termination in a finite part of a graph

A search that follows the edges of a relation from a start vertex ends on every
path exactly when no cycle can be reached, as soon as only finitely many
vertices can be reached at all. `Acc` states that the search ends and carries
the induction over it.
-/

namespace Kubeka.FiniteGraph

open Relation

variable {α : Type*} {r : α → α → Prop} {x y : α}

/-- No path from `x` is infinite. -/
def Terminates (r : α → α → Prop) (x : α) : Prop := Acc (flip r) x

/-- Some vertex reachable from `x` lies on a cycle. -/
def ReachesCycle (r : α → α → Prop) (x : α) : Prop :=
  ∃ y, ReflTransGen r x y ∧ TransGen r y y

theorem Terminates.of_step (h : Terminates r x) (hxy : r x y) : Terminates r y :=
  Acc.inv h hxy

theorem Terminates.of_path (h : Terminates r x) (hxy : ReflTransGen r x y) : Terminates r y := by
  induction hxy with
  | refl => exact h
  | tail _ hstep ih => exact ih.of_step hstep

theorem Terminates.transGen (h : Terminates r x) : Terminates (TransGen r) x :=
  Subrelation.accessible (fun hxy => transGen_swap.mpr hxy) (Acc.transGen h)

theorem Terminates.not_cycle (h : Terminates r x) : ¬ TransGen r x x := by
  have ht : Acc (TransGen (flip r)) x := Acc.transGen h
  induction ht with
  | intro x _ ih =>
    intro hc
    exact ih x (transGen_swap.mpr hc) (h.of_path hc.to_reflTransGen) hc

theorem Terminates.not_reachesCycle (h : Terminates r x) : ¬ ReachesCycle r x := by
  rintro ⟨y, hxy, hc⟩
  exact (h.of_path hxy).not_cycle hc

/-- Where a bound goes down along every edge, or the edge leads to a vertex for which this is known
already, no path is infinite, and what holds of the vertices with a bound holds of every vertex
reached. -/
theorem terminates_of_bound {B : ℕ → α → Prop} {P : α → Prop} (hzero : ∀ x, ¬ B 0 x)
    (hstep : ∀ k x, B (k + 1) x → P x ∧ ∀ y, r x y →
      B k y ∨ (Terminates r y ∧ ∀ z, ReflTransGen r y z → P z)) {k : ℕ} (h : B k x) :
    Terminates r x ∧ ∀ y, ReflTransGen r x y → P y := by
  induction k generalizing x with
  | zero => exact absurd h (hzero x)
  | succ k ih =>
    obtain ⟨hx, hstep⟩ := hstep k x h
    have hbelow : ∀ y, r x y → Terminates r y ∧ ∀ z, ReflTransGen r y z → P z :=
      fun y hy => (hstep y hy).elim (fun hbound => ih hbound) id
    refine ⟨Acc.intro _ fun y hy => (hbelow y hy).1, fun z hz => ?_⟩
    rcases ReflTransGen.cases_head hz with rfl | ⟨y, hy, hyz⟩
    · exact hx
    · exact (hbelow y hy).2 z hyz

theorem mem_of_path {s : Set α} (hs : ∀ x y, r x y → y ∈ s) (hx : x ∈ s)
    (hxy : ReflTransGen r x y) : y ∈ s := by
  rcases ReflTransGen.cases_tail hxy with rfl | ⟨_, _, hstep⟩
  · exact hx
  · exact hs _ _ hstep

theorem ReachesCycle.of_path (hxy : ReflTransGen r x y) (h : ReachesCycle r y) :
    ReachesCycle r x := by
  obtain ⟨z, hyz, hc⟩ := h
  exact ⟨z, hxy.trans hyz, hc⟩

/-- On the finitely many vertices reachable from `x`, acyclicity is well-founded. -/
theorem terminates_of_not_reachesCycle {s : Set α} (hs : s.Finite)
    (hsub : ∀ y, ReflTransGen r x y → y ∈ s) (hc : ¬ ReachesCycle r x) : Terminates r x := by
  let V := {y // ReflTransGen r x y}
  let edge : V → V → Prop := fun a b => TransGen (flip r) a.1 b.1
  have hfin : Finite V := (hs.subset fun y hy => hsub y hy).to_subtype
  have htrans : IsTrans V edge := ⟨fun _ _ _ => TransGen.trans⟩
  have hirrefl : Std.Irrefl edge :=
    ⟨fun a ha => hc ⟨a.1, a.2, transGen_swap.mp ha⟩⟩
  have hwf : WellFounded edge := Finite.wellFounded_of_trans_of_irrefl edge
  have hall : ∀ a : V, Acc (flip r) a.1 := by
    intro a
    induction a using hwf.induction with
    | h a ih =>
      refine Acc.intro _ fun b hb => ?_
      exact ih ⟨b, a.2.tail hb⟩ (TransGen.single hb)
  exact hall ⟨x, ReflTransGen.refl⟩

theorem terminates_iff_not_reachesCycle {s : Set α} (hs : s.Finite)
    (hsub : ∀ y, ReflTransGen r x y → y ∈ s) : Terminates r x ↔ ¬ ReachesCycle r x :=
  ⟨Terminates.not_reachesCycle, terminates_of_not_reachesCycle hs hsub⟩

end Kubeka.FiniteGraph
