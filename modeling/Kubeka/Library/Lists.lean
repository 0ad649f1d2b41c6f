import Mathlib.Data.List.Forall2
import Mathlib.Algebra.Order.BigOperators.Group.List
import Mathlib.Tactic

/-!
# Lists side by side and with positions

A pass that makes one result of each element leaves two lists related by
`List.Forall₂`. Every element has its result, every result its element, and two
passes one after the other are one. What holds of all elements does not depend
on their positions.
-/

namespace Kubeka.Lists

variable {α β γ : Type*} {R : α → β → Prop} {S : β → γ → Prop} {l₁ : List α} {l₂ : List β}
  {l₃ : List γ}

theorem forall₂_right_of_mem (h : List.Forall₂ R l₁ l₂) {a : α} (ha : a ∈ l₁) :
    ∃ b ∈ l₂, R a b := by
  induction h with
  | nil => simp at ha
  | cons hab _ ih =>
    rcases List.mem_cons.mp ha with rfl | ha
    · exact ⟨_, List.mem_cons_self, hab⟩
    · obtain ⟨b, hb, hR⟩ := ih ha
      exact ⟨b, List.mem_cons_of_mem _ hb, hR⟩

theorem forall₂_left_of_mem (h : List.Forall₂ R l₁ l₂) {b : β} (hb : b ∈ l₂) :
    ∃ a ∈ l₁, R a b :=
  forall₂_right_of_mem (R := flip R) h.flip hb

theorem forall₂_comp (h : List.Forall₂ R l₁ l₂) (h' : List.Forall₂ S l₂ l₃) :
    List.Forall₂ (fun a c => ∃ b, R a b ∧ S b c) l₁ l₃ := by
  induction h generalizing l₃ with
  | nil =>
    cases h'
    exact .nil
  | cons h _ ih =>
    cases h' with
    | cons h₁ h₂ => exact .cons ⟨_, h, h₁⟩ (ih h₂)

/-- An element in the middle of a list may be exchanged for another one that is related to the
same. -/
theorem forall₂_middle {pre rest : List β} {b : β} (h : List.Forall₂ R l₁ (pre ++ b :: rest)) :
    ∃ a ∈ l₁, R a b ∧ ∀ b', R a b' → List.Forall₂ R l₁ (pre ++ b' :: rest) := by
  induction pre generalizing l₁ with
  | nil =>
    obtain _ | ⟨hab, hrest⟩ := h
    exact ⟨_, List.mem_cons_self, hab, fun b' hb' => .cons hb' hrest⟩
  | cons c pre ih =>
    obtain _ | ⟨hc, hrest⟩ := h
    obtain ⟨a, ha, hab, hset⟩ := ih hrest
    exact ⟨a, List.mem_cons_of_mem _ ha, hab, fun b' hb' => .cons hc (hset b' hb')⟩

/-- An element is exchanged for one with the same relations. -/
theorem forall₂_set (h : List.Forall₂ R l₁ l₂) {i : ℕ} {b b' : β} (hi : l₂[i]? = some b)
    (hb : ∀ a, R a b → R a b') : List.Forall₂ R l₁ (l₂.set i b') := by
  induction h generalizing i with
  | nil => simp at hi
  | cons hab hrest ih =>
    cases i with
    | zero =>
      obtain rfl := Option.some.inj hi
      exact .cons (hb _ hab) hrest
    | succ i => exact .cons hab (ih (by simpa using hi))

theorem map_eq_of_forall₂ (h : List.Forall₂ R l₁ l₂) {f : α → γ} {g : β → γ}
    (hfg : ∀ a b, R a b → f a = g b) : l₁.map f = l₂.map g := by
  induction h with
  | nil => rfl
  | cons hab _ ih => rw [List.map_cons, List.map_cons, hfg _ _ hab, ih]

theorem flatMap_eq_of_forall₂ (h : List.Forall₂ R l₁ l₂) {f : α → List γ} {g : β → List γ}
    (hfg : ∀ a b, R a b → f a = g b) : l₁.flatMap f = l₂.flatMap g := by
  rw [List.flatMap_def, List.flatMap_def, map_eq_of_forall₂ h hfg]

/-- The first elements that are looked for are related. -/
theorem rel_find? (h : List.Forall₂ R l₁ l₂) {f : α → Bool} {g : β → Bool}
    (hfg : ∀ a b, R a b → f a = g b) : Option.Rel R (l₁.find? f) (l₂.find? g) := by
  induction h with
  | nil => exact .none
  | @cons a b _ _ hab _ ih =>
    rw [List.find?_cons, List.find?_cons, ← hfg a b hab]
    cases f a with
    | true => exact .some hab
    | false => exact ih

/-- Related elements stand in the same places. -/
theorem forall₂_zipIdx (h : List.Forall₂ R l₁ l₂) (k : ℕ) :
    List.Forall₂ (fun a b => a.2 = b.2 ∧ R a.1 b.1) (l₁.zipIdx k) (l₂.zipIdx k) := by
  induction h generalizing k with
  | nil => exact .nil
  | cons hab _ ih =>
    rw [List.zipIdx_cons, List.zipIdx_cons]
    exact .cons ⟨rfl, hab⟩ (ih (k + 1))

theorem forall₂_getElem? (h : List.Forall₂ R l₁ l₂) {i : ℕ} {a : α} (hi : l₁[i]? = some a) :
    ∃ b, l₂[i]? = some b ∧ R a b := by
  induction h generalizing i with
  | nil => simp at hi
  | cons hab _ ih =>
    cases i with
    | zero =>
      obtain rfl := Option.some.inj hi
      exact ⟨_, rfl, hab⟩
    | succ i => exact ih hi

/-- Lists with related elements at the places of one of them are related. -/
theorem forall₂_of_getElem? (hsome : ∀ (i : ℕ) a, l₁[i]? = some a → ∃ b, l₂[i]? = some b ∧ R a b)
    (hnone : ∀ i : ℕ, l₁[i]? = none → l₂[i]? = none) : List.Forall₂ R l₁ l₂ := by
  induction l₁ generalizing l₂ with
  | nil =>
    have hnil : l₂ = [] := by simpa using hnone 0 rfl
    rw [hnil]
    exact .nil
  | cons a l ih =>
    obtain ⟨b, hb, hab⟩ := hsome 0 a rfl
    cases l₂ with
    | nil => simp at hb
    | cons c l₂ =>
      obtain rfl := Option.some.inj hb
      exact .cons hab (ih (fun i => hsome (i + 1)) fun i => hnone (i + 1))

/-- Related elements may be put into the same place. -/
theorem forall₂_set_set (h : List.Forall₂ R l₁ l₂) (i : ℕ) {a : α} {b : β} (hab : R a b) :
    List.Forall₂ R (l₁.set i a) (l₂.set i b) := by
  induction h generalizing i with
  | nil => exact .nil
  | cons h hrest ih =>
    cases i with
    | zero => exact .cons hab hrest
    | succ i => exact .cons h (ih i)

/-- A position of a list with one element exchanged. -/
theorem getElem?_set_cases {i j : ℕ} {a b : α} (h : (l₁.set i a)[j]? = some b) :
    j = i ∧ b = a ∨ j ≠ i ∧ l₁[j]? = some b := by
  rw [List.getElem?_set] at h
  by_cases hij : i = j
  · subst hij
    rw [if_pos rfl] at h
    split_ifs at h
    exact .inl ⟨rfl, (Option.some.inj h).symm⟩
  · rw [if_neg hij] at h
    exact .inr ⟨Ne.symm hij, h⟩

theorem forall_mem_set {P : α → Prop} {i : ℕ} {a : α} (h : ∀ b ∈ l₁, P b) (ha : P a) :
    ∀ b ∈ l₁.set i a, P b := by
  intro b hb
  rcases List.mem_or_eq_of_mem_set hb with hmem | rfl
  · exact h b hmem
  · exact ha

theorem sum_map_set (f : α → ℕ) {i : ℕ} {a : α} (hi : l₁[i]? = some a) (b : α) :
    ((l₁.set i b).map f).sum + f a = (l₁.map f).sum + f b := by
  induction l₁ generalizing i with
  | nil => simp at hi
  | cons c l ih =>
    cases i with
    | zero =>
      obtain rfl := Option.some.inj hi
      simp only [List.set_cons_zero, List.map_cons, List.sum_cons]
      omega
    | succ i =>
      have hrest := ih (i := i) (by simpa using hi)
      simp only [List.set_cons_succ, List.map_cons, List.sum_cons]
      omega

/-- An element exchanged for one with the same image. -/
theorem map_set_of_eq (f : α → β) {i : ℕ} {a b : α} (hi : l₁[i]? = some a) (hf : f b = f a) :
    (l₁.set i b).map f = l₁.map f := by
  obtain ⟨hlt, rfl⟩ := List.getElem?_eq_some_iff.mp hi
  have hlt' : i < (l₁.map f).length := by simpa using hlt
  have hself := List.set_getElem_self hlt'
  rwa [List.getElem_map, ← hf, ← List.map_set] at hself

theorem forall_mem_zipIdx_fst {P : α → Prop} : (∀ k ∈ l₁.zipIdx, P k.1) ↔ ∀ a ∈ l₁, P a := by
  rw [← List.forall_mem_map, List.zipIdx_map_fst]

/-- Positive numbers add up to at most their count only when each of them is one. -/
theorem sum_le_length_iff {ns : List ℕ} (h : ∀ n ∈ ns, 1 ≤ n) :
    ns.sum ≤ ns.length ↔ ∀ n ∈ ns, n = 1 := by
  induction ns with
  | nil => simp
  | cons n ns ih =>
    obtain ⟨hn, hns⟩ := List.forall_mem_cons.mp h
    have hge : ns.length ≤ ns.sum := by
      simpa using List.length_le_sum_of_one_le ns hns
    rw [List.forall_mem_cons, ← ih hns, List.sum_cons, List.length_cons]
    omega

theorem length_le_of_forall_lt {l : List ℕ} {n : ℕ} (hnodup : l.Nodup) (hlt : ∀ a ∈ l, a < n) :
    l.length ≤ n := by
  have hsub := List.subperm_of_subset hnodup fun a ha => List.mem_range.mpr (hlt a ha)
  simpa using hsub.length_le

/-- A recursion that appends what each element gives. -/
theorem eq_flatMap {F : List α → List β} {g : α → List β} (hnil : F [] = [])
    (hcons : ∀ a l, F (a :: l) = g a ++ F l) (l : List α) : F l = l.flatMap g := by
  induction l with
  | nil => exact hnil
  | cons a l ih => rw [hcons, ih, List.flatMap_cons]

/-! ### Repetitions side by side -/

/-- Equal elements stand next to each other. -/
def RepeatsAdjacent (l : List α) : Prop :=
  ∀ i j a, i < j → l[i]? = some a → l[j]? = some a → j = i + 1

theorem repeatsAdjacent_singleton (a : α) : RepeatsAdjacent [a] := by
  intro i j b hij hi hj
  have hjlt := (List.getElem?_eq_some_iff.mp hj).1
  simp only [List.length_singleton] at hjlt
  omega

theorem repeatsAdjacent_cons_cons {a b : α} {l : List α} :
    RepeatsAdjacent (a :: b :: l) ↔ a ∉ l ∧ RepeatsAdjacent (b :: l) := by
  constructor
  · intro h
    refine ⟨fun hmem => ?_, fun i j c hij hi hj => ?_⟩
    · obtain ⟨j, hj⟩ := List.mem_iff_getElem?.mp hmem
      have heq := h 0 (j + 2) a (by omega) rfl (by simpa using hj)
      omega
    · have heq := h (i + 1) (j + 1) c (by omega) (by simpa using hi) (by simpa using hj)
      omega
  · rintro ⟨hnot, h⟩ i j c hij hi hj
    cases j with
    | zero => omega
    | succ j =>
      cases i with
      | succ i =>
        have heq := h i j c (by omega) (by simpa using hi) (by simpa using hj)
        omega
      | zero =>
        obtain rfl : a = c := by simpa using hi
        cases j with
        | zero => rfl
        | succ j => exact absurd (List.mem_of_getElem? (by simpa using hj)) hnot

theorem RepeatsAdjacent.count_le_two [BEq α] [LawfulBEq α] {l : List α} (h : RepeatsAdjacent l)
    (a : α) : l.count a ≤ 2 := by
  induction l with
  | nil => simp
  | cons b l ih =>
    cases l with
    | nil =>
      have hle := List.count_le_length (a := a) (l := [b])
      simp only [List.length_singleton] at hle
      omega
    | cons c l =>
      obtain ⟨hnot, htail⟩ := repeatsAdjacent_cons_cons.mp h
      by_cases hba : b = a
      · have hzero : l.count a = 0 := List.count_eq_zero.mpr (hba ▸ hnot)
        rw [List.count_cons, List.count_cons, hzero]
        split_ifs <;> omega
      · rw [List.count_cons_of_ne hba]
        exact ih htail

theorem RepeatsAdjacent.length_le [DecidableEq α] {l : List α} (h : RepeatsAdjacent l)
    {s : Finset α} (hs : ∀ a ∈ l, a ∈ s) : l.length ≤ 2 * s.card := by
  have hsub : l.toFinset ⊆ s := fun a ha => hs a (List.mem_toFinset.mp ha)
  calc l.length = ∑ a ∈ l.toFinset, l.count a := (List.sum_toFinset_count_eq_length l).symm
    _ ≤ ∑ _a ∈ l.toFinset, 2 := Finset.sum_le_sum fun a _ => h.count_le_two a
    _ = 2 * l.toFinset.card := by rw [Finset.sum_const, smul_eq_mul, mul_comm]
    _ ≤ 2 * s.card := Nat.mul_le_mul_left 2 (Finset.card_le_card hsub)

/-! ### The first element of each key -/

section Firsts

variable (key : α → Option β)

/-- Two elements with one key; an element without a key shares it with none. -/
def SameKey (a b : α) : Prop := ∃ k, key a = some k ∧ key b = some k

instance [DecidableEq β] (a b : α) : Decidable (SameKey key a b) :=
  decidable_of_iff (key a ≠ none ∧ key a = key b) <| by
    constructor
    · rintro ⟨hne, heq⟩
      obtain ⟨k, hk⟩ := Option.ne_none_iff_exists'.mp hne
      exact ⟨k, hk, heq ▸ hk⟩
    · rintro ⟨k, ha, hb⟩
      exact ⟨by simp [ha], ha.trans hb.symm⟩

variable {key}

theorem SameKey.symm {a b : α} (h : SameKey key a b) : SameKey key b a := by
  obtain ⟨k, ha, hb⟩ := h
  exact ⟨k, hb, ha⟩

theorem SameKey.trans {a b c : α} (h : SameKey key a b) (h' : SameKey key b c) :
    SameKey key a c := by
  obtain ⟨k, ha, hb⟩ := h
  obtain ⟨k', hb', hc⟩ := h'
  obtain rfl := Option.some.inj (hb.symm.trans hb')
  exact ⟨k, ha, hc⟩

variable [DecidableEq β] (key)

/-- The elements that share their key with none before them, when `before` has gone before. -/
def firsts : List α → List α → List α
  | _, [] => []
  | before, a :: l =>
    if ∃ b ∈ before, SameKey key b a then firsts (before ++ [a]) l
    else a :: firsts (before ++ [a]) l

theorem firsts_sublist (before l : List α) : (firsts key before l).Sublist l := by
  induction l generalizing before with
  | nil => exact .slnil
  | cons a l ih =>
    rw [firsts]
    split_ifs
    · exact (ih _).cons a
    · exact (ih _).cons_cons a

variable {key}

/-- Nothing is left out exactly when the keys are pairwise different. -/
theorem firsts_length_eq_iff {before l : List α} : (firsts key before l).length = l.length ↔
    (∀ b ∈ before, ∀ a ∈ l, ¬ SameKey key b a) ∧ l.Pairwise fun a b => ¬ SameKey key a b := by
  induction l generalizing before with
  | nil => simp [firsts]
  | cons a l ih =>
    rw [firsts, List.pairwise_cons]
    split_ifs with hold
    · have hle := (firsts_sublist key (before ++ [a]) l).length_le
      obtain ⟨b, hb, hkey⟩ := hold
      refine iff_of_false (by rw [List.length_cons]; omega) fun h => ?_
      exact h.1 b hb a List.mem_cons_self hkey
    · rw [List.length_cons, List.length_cons, Nat.succ_inj, ih]
      simp only [List.mem_append, List.mem_cons, List.not_mem_nil, or_false]
      constructor
      · rintro ⟨hbefore, hrest⟩
        refine ⟨fun b hb c hc => ?_, fun c hc => hbefore a (.inr rfl) c hc, hrest⟩
        rcases hc with rfl | hc
        · exact fun hkey => hold ⟨b, hb, hkey⟩
        · exact hbefore b (.inl hb) c hc
      · rintro ⟨hbefore, ha, hrest⟩
        refine ⟨fun b hb c hc => ?_, hrest⟩
        rcases hb with hb | rfl
        · exact hbefore b hb c (.inr hc)
        · exact ha c hc

end Firsts

/-! ### Every other element -/

/-- The elements met by index while each one met is taken out: those at the even positions. -/
def everyOther : List α → List α
  | [] => []
  | [a] => [a]
  | a :: _ :: l => a :: everyOther l

/-- The elements that are passed over. -/
def passedOver : List α → List α
  | [] => []
  | [_] => []
  | _ :: b :: l => b :: passedOver l

/-- A recursion that appends what every other element gives. -/
theorem eq_flatMap_everyOther {F : List α → List β} {g : α → List β} (hnil : F [] = [])
    (hone : ∀ a, F [a] = g a) (hcons : ∀ a b l, F (a :: b :: l) = g a ++ F l) (l : List α) :
    F l = (everyOther l).flatMap g := by
  induction l using everyOther.induct with
  | case1 => simp [hnil, everyOther]
  | case2 a => simp [hone, everyOther]
  | case3 a b l ih => simp [hcons, ih, everyOther]

theorem everyOther_sublist : ∀ l : List α, (everyOther l).Sublist l
  | [] => .slnil
  | [a] => List.Sublist.refl [a]
  | a :: b :: l => ((everyOther_sublist l).cons b).cons_cons a

theorem everyOther_of_length_le_one {l : List α} (h : l.length ≤ 1) : everyOther l = l := by
  match l with
  | [] => rfl
  | [a] => rfl
  | a :: b :: l =>
    simp only [List.length_cons] at h
    omega

theorem everyOther_perm : ∀ l : List α, l.Perm (passedOver l ++ everyOther l)
  | [] => .refl []
  | [a] => .refl [a]
  | a :: b :: l => ((everyOther_perm l).cons b).cons a |>.trans <|
      (List.Perm.swap b a _).trans (List.perm_middle.symm.cons b)

/-- Without a second element none is passed over. -/
theorem passedOver_eq_nil_iff {l : List α} : passedOver l = [] ↔ l.length ≤ 1 := by
  match l with
  | [] => simp [passedOver]
  | [a] => simp [passedOver]
  | a :: b :: l => simp [passedOver]

end Kubeka.Lists
