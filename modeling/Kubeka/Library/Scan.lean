import Mathlib.Algebra.BigOperators.Group.List.Basic
import Mathlib.Data.List.Forall2
import Mathlib.Tactic

/-!
# Taking something from the elements of a list

`f` says what is left of an element when something is taken from it, and what
is taken, which may depend on the elements behind. `takeFirst` takes from the
first element that has something to give, `takeAll` from every element in one
pass. When no element gives twice, the pass is what `takeFirst` does again and
again.
-/

namespace Kubeka.Scan

variable {α β : Type*}

def takeFirst (f : α → Option ((List α → β) × α)) : List α → Option β × List α
  | [] => (none, [])
  | a :: l =>
    match f a with
    | some (b, a') => (some (b l), a' :: l)
    | none => ((takeFirst f l).1, a :: (takeFirst f l).2)

def takeAll (f : α → Option ((List α → β) × α)) : List α → List β × List α
  | [] => ([], [])
  | a :: l =>
    match f a with
    | some (b, a') => (b l :: (takeAll f l).1, a' :: (takeAll f l).2)
    | none => ((takeAll f l).1, a :: (takeAll f l).2)

/-- What is left of an element. -/
def leftOf (f : α → Option ((List α → β) × α)) (a : α) : α :=
  match f a with
  | some (_, a') => a'
  | none => a

/-- What is left of an element has nothing more to give. -/
def Once (f : α → Option ((List α → β) × α)) : Prop :=
  ∀ a b a', f a = some (b, a') → f a' = none

variable {f : α → Option ((List α → β) × α)}

/-! ### The first element -/

theorem takeFirst_eq_none_iff {l : List α} : (takeFirst f l).1 = none ↔ ∀ a ∈ l, f a = none := by
  induction l with
  | nil => simp [takeFirst]
  | cons a l ih => cases hfa : f a <;> simp [takeFirst, hfa, ih]

theorem takeFirst_of_none {l : List α} (h : ∀ a ∈ l, f a = none) : takeFirst f l = (none, l) := by
  induction l with
  | nil => rfl
  | cons a l ih =>
    obtain ⟨ha, hl⟩ := List.forall_mem_cons.mp h
    rw [takeFirst, ha, ih hl]

/-- Elements in front that have nothing to give. -/
theorem takeFirst_append_of_none {pre : List α} (h : ∀ a ∈ pre, f a = none) (l : List α) :
    takeFirst f (pre ++ l) = ((takeFirst f l).1, pre ++ (takeFirst f l).2) := by
  induction pre with
  | nil => rfl
  | cons a pre ih =>
    obtain ⟨ha, hpre⟩ := List.forall_mem_cons.mp h
    rw [List.cons_append, takeFirst, ha, ih hpre]
    rfl

/-- Either nothing in front has anything to give, or what is taken is taken there. -/
theorem takeFirst_append_cases (f : α → Option ((List α → β) × α)) (pre : List α) :
    (∀ a ∈ pre, f a = none) ∨ ∃ front a rest b a', pre = front ++ a :: rest ∧
      (∀ x ∈ front, f x = none) ∧ f a = some (b, a') ∧
      ∀ l, takeFirst f (pre ++ l) = (some (b (rest ++ l)), (front ++ a' :: rest) ++ l) := by
  induction pre with
  | nil => exact .inl (by simp)
  | cons x pre ih =>
    cases hfx : f x with
    | some r =>
      obtain ⟨b, a'⟩ := r
      exact .inr ⟨[], x, pre, b, a', rfl, by simp, hfx, fun l => by simp [takeFirst, hfx]⟩
    | none =>
      rcases ih with hnone | ⟨front, a, rest, b, a', rfl, hfront, hfa, htake⟩
      · exact .inl (List.forall_mem_cons.mpr ⟨hfx, hnone⟩)
      · refine .inr ⟨x :: front, a, rest, b, a', rfl, List.forall_mem_cons.mpr ⟨hfx, hfront⟩, hfa, ?_⟩
        intro l
        rw [List.cons_append, takeFirst, hfx, htake]
        rfl

/-- What is left weighs less when what is left of an element does. -/
theorem sum_takeFirst_lt {w : α → ℕ} (hw : ∀ {a b a'}, f a = some (b, a') → w a' < w a)
    {l : List α} (h : (takeFirst f l).1 ≠ none) :
    ((takeFirst f l).2.map w).sum < (l.map w).sum := by
  induction l with
  | nil => exact absurd rfl h
  | cons a l ih =>
    cases hfa : f a with
    | none =>
      simp only [takeFirst, hfa] at h ⊢
      have hl := ih h
      simp only [List.map_cons, List.sum_cons]
      omega
    | some r =>
      have ha := hw hfa
      simp only [takeFirst, hfa, List.map_cons, List.sum_cons]
      omega

theorem forall_takeFirst {P : α → Prop} (hf : ∀ a b a', f a = some (b, a') → P a → P a')
    {l : List α} (h : ∀ a ∈ l, P a) : ∀ a ∈ (takeFirst f l).2, P a := by
  induction l with
  | nil => exact h
  | cons a l ih =>
    obtain ⟨ha, hl⟩ := List.forall_mem_cons.mp h
    cases hfa : f a with
    | none =>
      rw [takeFirst, hfa]
      exact List.forall_mem_cons.mpr ⟨ha, ih hl⟩
    | some r =>
      rw [takeFirst, hfa]
      exact List.forall_mem_cons.mpr ⟨hf a _ _ hfa ha, hl⟩

theorem forall₂_takeFirst {R : α → α → Prop} (hrefl : ∀ a, R a a)
    (hf : ∀ a b a', f a = some (b, a') → R a a') (l : List α) :
    List.Forall₂ R l (takeFirst f l).2 := by
  induction l with
  | nil => exact .nil
  | cons a l ih =>
    cases hfa : f a with
    | none =>
      rw [takeFirst, hfa]
      exact .cons (hrefl a) ih
    | some r =>
      rw [takeFirst, hfa]
      exact .cons (hf a _ _ hfa) (List.forall₂_same.mpr fun x _ => hrefl x)

theorem length_takeFirst_snd (l : List α) : (takeFirst f l).2.length = l.length :=
  (forall₂_takeFirst (R := fun _ _ => True) (fun _ => trivial) (fun _ _ _ _ => trivial)
    l).length_eq.symm

/-! ### One pass -/

theorem takeAll_eq_nil_iff {l : List α} : (takeAll f l).1 = [] ↔ ∀ a ∈ l, f a = none := by
  induction l with
  | nil => simp [takeAll]
  | cons a l ih => cases hfa : f a <;> simp [takeAll, hfa, ih]

theorem takeAll_snd (l : List α) : (takeAll f l).2 = l.map (leftOf f) := by
  induction l with
  | nil => rfl
  | cons a l ih => cases hfa : f a <;> simp [takeAll, leftOf, hfa, ih]

theorem takeAll_of_none {l : List α} (h : ∀ a ∈ l, f a = none) : takeAll f l = ([], l) := by
  have hleft : l.map (leftOf f) = l := by
    conv_rhs => rw [← List.map_id l]
    refine List.map_congr_left fun a ha => ?_
    rw [leftOf, h a ha, id]
  rw [Prod.ext_iff, takeAll_snd, takeAll_eq_nil_iff.mpr h, hleft]
  exact ⟨rfl, rfl⟩

theorem forall_takeAll {P : α → Prop} (hf : ∀ a b a', f a = some (b, a') → P a → P a')
    {l : List α} (h : ∀ a ∈ l, P a) : ∀ a ∈ (takeAll f l).2, P a := by
  rw [takeAll_snd]
  refine List.forall_mem_map.mpr fun a ha => ?_
  rw [leftOf]
  split
  · next b a' hfa => exact hf a b a' hfa (h a ha)
  · exact h a ha

theorem forall₂_takeAll {R : α → α → Prop} (hrefl : ∀ a, R a a)
    (hf : ∀ a b a', f a = some (b, a') → R a a') (l : List α) :
    List.Forall₂ R l (takeAll f l).2 := by
  rw [takeAll_snd, List.forall₂_map_right_iff]
  refine List.forall₂_same.mpr fun a _ => ?_
  rw [leftOf]
  split
  · next b a' hfa => exact hf a b a' hfa
  · exact hrefl a

/-- What is left has nothing more to give. -/
theorem takeAll_done (hf : Once f) (l : List α) : ∀ a ∈ (takeAll f l).2, f a = none := by
  rw [takeAll_snd]
  intro a' ha'
  obtain ⟨a, -, rfl⟩ := List.mem_map.mp ha'
  rw [leftOf]
  split
  · next b a' hfa => exact hf _ _ _ hfa
  · next hfa => exact hfa

theorem takeAll_append_of_none {pre : List α} (h : ∀ a ∈ pre, f a = none) (l : List α) :
    takeAll f (pre ++ l) = ((takeAll f l).1, pre ++ (takeAll f l).2) := by
  induction pre with
  | nil => rfl
  | cons a pre ih =>
    obtain ⟨ha, hpre⟩ := List.forall_mem_cons.mp h
    rw [List.cons_append, takeAll, ha, ih hpre]
    rfl

/-- A pass over elements in front takes the same whatever is behind, when what is taken depends on
the next element at most, and not even on that for the last one. -/
theorem takeAll_append {pre : List α}
    (hnext : ∀ a b a', f a = some (b, a') → ∀ x l l', b (x :: l) = b (x :: l'))
    (hlast : ∀ a ∈ pre.getLast?, ∀ b a', f a = some (b, a') → ∀ l l', b l = b l') :
    ∃ bs, ∀ l, takeAll f (pre ++ l) =
      (bs ++ (takeAll f l).1, pre.map (leftOf f) ++ (takeAll f l).2) := by
  induction pre with
  | nil => exact ⟨[], fun l => rfl⟩
  | cons a pre ih =>
    have hpre : ∀ a ∈ pre.getLast?, ∀ b a', f a = some (b, a') → ∀ l l', b l = b l' := by
      intro x hx
      refine hlast x ?_
      rw [List.getLast?_cons, Option.mem_def.mp hx]
      rfl
    obtain ⟨bs, hbs⟩ := ih hpre
    cases hfa : f a with
    | none => exact ⟨bs, fun l => by simp [takeAll, hfa, hbs, leftOf]⟩
    | some r =>
      obtain ⟨b, a'⟩ := r
      have hb : ∀ l, b (pre ++ l) = b (pre ++ []) := by
        intro l
        cases pre with
        | nil => exact hlast a (by simp) b a' hfa l []
        | cons x pre => exact hnext a b a' hfa x _ _
      exact ⟨b (pre ++ []) :: bs, fun l => by simp [takeAll, hfa, hbs, leftOf, hb l]⟩

theorem length_takeAll (l : List α) : (takeAll f l).1.length = l.countP fun a => (f a).isSome := by
  induction l with
  | nil => rfl
  | cons a l ih => cases hfa : f a <;> simp [takeAll, hfa, ih]

/-- The first one taken is the first of the pass, and the pass goes on from there. -/
theorem takeFirst_of_cons (hf : Once f) {l : List α} {b : β} {bs : List β}
    (h : (takeAll f l).1 = b :: bs) : (takeFirst f l).1 = some b ∧
      takeAll f (takeFirst f l).2 = (bs, (takeAll f l).2) := by
  induction l with
  | nil => simp [takeAll] at h
  | cons a l ih =>
    cases hfa : f a with
    | none =>
      rw [takeAll, hfa] at h
      obtain ⟨hfirst, hall⟩ := ih h
      simp only [takeFirst, hfa, takeAll]
      exact ⟨hfirst, by rw [hall]⟩
    | some r =>
      obtain ⟨c, a'⟩ := r
      simp only [takeAll, hfa, List.cons.injEq] at h
      obtain ⟨rfl, rfl⟩ := h
      simp [takeFirst, takeAll, hfa, hf _ _ _ hfa]

/-- A list in blocks, each of which gives and leaves its own. -/
theorem takeAll_flatMap {ι : Type*} {items : List ι} {block left : ι → List α} {gives : ι → List β}
    (h : ∀ i ∈ items, ∀ rest, takeAll f (block i ++ rest) =
      (gives i ++ (takeAll f rest).1, left i ++ (takeAll f rest).2)) :
    takeAll f (items.flatMap block) = (items.flatMap gives, items.flatMap left) := by
  induction items with
  | nil => rfl
  | cons i items ih =>
    obtain ⟨hi, hitems⟩ := List.forall_mem_cons.mp h
    rw [List.flatMap_cons, hi, ih hitems]
    rfl

end Kubeka.Scan
