import Kubeka.Library.Template

/-!
# Rewriting templates with any text for a name

Here a name has no fixed template: each time it is replaced by any template
whose names it may lead to. Rewriting ends in whatever order and with whatever
choices, when no chain of names that lead to each other is infinite.
-/

namespace Kubeka.Templates

open Relation FiniteGraph

variable {ν α : Type*} {M : ν → ν → Prop}

/-- One reference is replaced by a template with names that it may lead to. -/
def Replaces (M : ν → ν → Prop) (t t' : Template ν α) : Prop :=
  ∃ u x b v, t = u ++ .ref x :: v ∧ t' = u ++ (b ++ v) ∧ ∀ y, .ref y ∈ b → M x y

variable {t t' u : Template ν α} {x : ν} {b : Template ν α}

theorem Replaces.append_left (h : Replaces M t t') (u : Template ν α) :
    Replaces M (u ++ t) (u ++ t') := by
  obtain ⟨w, x, b, v, rfl, rfl, hb⟩ := h
  exact ⟨u ++ w, x, b, v, by simp, by simp, hb⟩

/-- A replacement in a concatenation is one in one of its parts. -/
theorem Replaces.of_append (h : Replaces M (t ++ u) t') :
    (∃ s, Replaces M t s ∧ t' = s ++ u) ∨ ∃ s, Replaces M u s ∧ t' = t ++ s := by
  obtain ⟨w, x, b, v, heq, rfl, hb⟩ := h
  rcases List.append_eq_append_iff.mp heq with ⟨r, rfl, rfl⟩ | ⟨r, rfl, hr⟩
  · exact .inr ⟨r ++ (b ++ v), ⟨r, x, b, v, rfl, rfl, hb⟩, by simp⟩
  · cases r with
    | nil =>
      refine .inr ⟨b ++ v, ⟨[], x, b, v, ?_, rfl, hb⟩, by simp⟩
      simpa using hr.symm
    | cons g r =>
      obtain ⟨rfl, rfl⟩ := List.cons.inj hr
      exact .inl ⟨w ++ (b ++ r), ⟨w, x, b, r, rfl, rfl, hb⟩, by simp⟩

/-- The names that come in are led to by those that were there. -/
theorem Replaces.exists_ref (h : Replaces M t t') {y : ν} (hy : .ref y ∈ t') :
    ∃ x, .ref x ∈ t ∧ ReflTransGen M x y := by
  obtain ⟨u, x, b, v, rfl, rfl, hb⟩ := h
  rcases List.mem_append.mp hy with hy | hy
  · exact ⟨y, List.mem_append_left _ hy, .refl⟩
  rcases List.mem_append.mp hy with hy | hy
  · exact ⟨x, List.mem_append_right _ List.mem_cons_self, .single (hb y hy)⟩
  · exact ⟨y, List.mem_append_right _ (List.mem_cons_of_mem _ hy), .refl⟩

theorem exists_ref_of_replaces (h : ReflTransGen (Replaces M) t t') {y : ν} (hy : .ref y ∈ t') :
    ∃ x, .ref x ∈ t ∧ ReflTransGen M x y := by
  induction h generalizing y with
  | refl => exact ⟨y, hy, .refl⟩
  | tail _ hstep ih =>
    obtain ⟨z, hz, hzy⟩ := hstep.exists_ref hy
    obtain ⟨x, hx, hxz⟩ := ih hz
    exact ⟨x, hx, hxz.trans hzy⟩

theorem terminates_append (ht : Terminates (Replaces M) t) (hu : Terminates (Replaces M) u) :
    Terminates (Replaces M) (t ++ u) := by
  induction ht generalizing u with
  | intro t ht iht =>
    induction hu with
    | intro u hu ihu =>
      refine Acc.intro _ fun t' ht' => ?_
      have hstep : Replaces M (t ++ u) t' := ht'
      rcases hstep.of_append with ⟨s, hs, rfl⟩ | ⟨s, hs, rfl⟩
      · exact iht s hs (Acc.intro _ hu)
      · exact ihu s hs

/-- A template ends when each of its references does. -/
theorem terminates_of_singletons
    (h : ∀ x, .ref x ∈ t → Terminates (Replaces M) ([.ref x] : Template ν α)) :
    Terminates (Replaces M) t := by
  induction t with
  | nil =>
    refine Acc.intro _ fun s hs => ?_
    obtain ⟨w, x, b, v, heq, -⟩ := hs
    simp at heq
  | cons g t ih =>
    have hrest : Terminates (Replaces M) t := ih fun x hx => h x (List.mem_cons_of_mem _ hx)
    have hfirst : Terminates (Replaces M) [g] := by
      cases g with
      | ref x => exact h x List.mem_cons_self
      | lit a =>
        refine Acc.intro _ fun s hs => ?_
        obtain ⟨w, x, b, v, heq, -⟩ := hs
        have hmem : .ref x ∈ ([.lit a] : Template ν α) := by simp [heq]
        simp at hmem
    exact terminates_append hfirst hrest

theorem terminates_singleton (h : Terminates M x) :
    Terminates (Replaces M) ([.ref x] : Template ν α) := by
  induction h with
  | intro x _ ih =>
    refine Acc.intro _ fun s hs => ?_
    obtain ⟨w, y, b, v, heq, rfl, hb⟩ := hs
    obtain ⟨rfl, hy, rfl⟩ : w = [] ∧ Seg.ref x = .ref y ∧ v = [] := by
      cases w with
      | nil =>
        obtain ⟨hy, hv⟩ := List.cons.inj heq
        exact ⟨rfl, hy, hv.symm⟩
      | cons g w => simp at heq
    obtain rfl := Seg.ref.inj hy
    exact terminates_of_singletons fun z hz => ih z (hb z (by simpa using hz))

/-- Rewriting ends when no chain of names from a reference of the template is infinite. -/
theorem terminates_of_refs (h : ∀ x, .ref x ∈ t → Terminates M x) :
    Terminates (Replaces M) t :=
  terminates_of_singletons fun x hx => terminates_singleton (h x hx)

/-- Replacing a name everywhere is one replacement after another, at least one when the name
occurs. -/
theorem replaces_substAll [DecidableEq ν] (hb : ∀ y, .ref y ∈ b → M x y) (t : Template ν α) :
    ReflTransGen (Replaces M) t (substAll x b t) ∧
      (.ref x ∈ t → TransGen (Replaces M) t (substAll x b t)) := by
  induction t with
  | nil => exact ⟨.refl, by simp⟩
  | cons g t ih =>
    have hrest : ∀ u, ReflTransGen (Replaces M) (u ++ t) (u ++ substAll x b t) := fun u =>
      ih.1.lift (u ++ ·) fun _ _ h => h.append_left u
    have hoccurs : ∀ u, .ref x ∈ t → TransGen (Replaces M) (u ++ t) (u ++ substAll x b t) :=
      fun u hx => (ih.2 hx).lift (u ++ ·) fun _ _ h => h.append_left u
    cases g with
    | lit a => exact ⟨hrest [.lit a], fun hx => hoccurs [.lit a] (by simpa using hx)⟩
    | ref y =>
      by_cases hy : y = x
      · subst hy
        have hstep : Replaces M (.ref y :: t) (b ++ t) := ⟨[], y, b, t, rfl, rfl, hb⟩
        have hall : TransGen (Replaces M) (.ref y :: t) (b ++ substAll y b t) :=
          TransGen.head' hstep (hrest b)
        rw [substAll, if_pos rfl]
        exact ⟨hall.to_reflTransGen, fun _ => hall⟩
      · rw [substAll, if_neg hy]
        refine ⟨hrest [.ref y], fun hx => hoccurs [.ref y] ?_⟩
        simpa [Ne.symm hy] using hx

end Kubeka.Templates
