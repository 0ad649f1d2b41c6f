import Kubeka.Library.Chains
import Kubeka.Library.Text

/-!
# Texts whose closing letters carry labels

A letter `c` closes what stands before it, back to the closer before. Each
closer of a text gets a label that allows for this. When a pattern that ends
with a closer is replaced, every occurrence takes its label away and brings in
those of the new text, so the labels are rewritten like the names of a
template, whatever is put together from the text around.
-/

namespace Kubeka.Text

open Relation Templates

variable {α ι : Type*} {c : α} {ok : List α → ι → Prop}

/-- What stands before each closer of `s`, back to the closer before, when `l` stands before `s`. -/
def segments [DecidableEq α] (c : α) : List α → List α → List (List α)
  | _, [] => []
  | l, a :: s => if a = c then l :: segments c [] s else segments c (l ++ [a]) s

theorem segments_close [DecidableEq α] {w : List α} (hw : c ∉ w) (l r : List α) :
    segments c l (w ++ c :: r) = (l ++ w) :: segments c [] r := by
  induction w generalizing l with
  | nil => simp [segments]
  | cons a w ih =>
    obtain ⟨ha, hw⟩ := List.ne_and_not_mem_of_not_mem_cons hw
    simp [segments, ha.symm, ih hw]

/-- What a closer ends stands at the end of a segment. -/
theorem exists_segment [DecidableEq α] {l s w : List α} (hw : c ∉ w) (h : w ++ [c] <:+: s) :
    ∃ p ∈ segments c l s, w <:+ p := by
  obtain ⟨u, r, rfl⟩ := h
  induction u generalizing l with
  | nil =>
    refine ⟨l ++ w, ?_, List.suffix_append l w⟩
    simp [segments_close hw]
  | cons a u ih =>
    simp only [List.cons_append, segments]
    split_ifs
    · obtain ⟨p, hp, hsuf⟩ := ih (l := [])
      exact ⟨p, List.mem_cons_of_mem _ hp, hsuf⟩
    · exact ih

/-- Labels of the closers of `s`, each one right for what stands before the closer, when `l` stands
before `s`. -/
inductive Labelled (c : α) (ok : List α → ι → Prop) : List α → List α → List ι → Prop
  | nil {l} : Labelled c ok l [] []
  | letter {l a s xs} : a ≠ c → Labelled c ok (l ++ [a]) s xs → Labelled c ok l (a :: s) xs
  | close {l s x xs} : ok l x → Labelled c ok [] s xs → Labelled c ok l (c :: s) (x :: xs)

variable {l s t w : List α} {xs ys : List ι} {x : ι}

/-- The label `x` for every closer of a text. -/
theorem exists_labelled [DecidableEq α] (h : ∀ p ∈ segments c l s, ok p x) :
    ∃ xs, Labelled c ok l s xs ∧ ∀ y ∈ xs, y = x := by
  induction s generalizing l with
  | nil => exact ⟨[], .nil, by simp⟩
  | cons a s ih =>
    rw [segments] at h
    split_ifs at h with ha
    · subst ha
      obtain ⟨hl, hs⟩ := List.forall_mem_cons.mp h
      obtain ⟨xs, hxs, hx⟩ := ih hs
      exact ⟨x :: xs, .close hl hxs, by simpa using hx⟩
    · obtain ⟨xs, hxs, hx⟩ := ih h
      exact ⟨xs, .letter ha hxs, hx⟩

theorem labelled_of_notMem (h : c ∉ s) : Labelled c ok l s [] := by
  induction s generalizing l with
  | nil => exact .nil
  | cons a s ih =>
    obtain ⟨ha, hs⟩ := List.ne_and_not_mem_of_not_mem_cons h
    exact .letter ha.symm (ih hs)

/-- A label stays right with more text before it. -/
theorem Labelled.extend (hok : ∀ q l x, ok l x → ok (q ++ l) x) (h : Labelled c ok l s xs)
    (q : List α) : Labelled c ok (q ++ l) s xs := by
  induction h with
  | nil => exact .nil
  | letter ha _ ih => exact .letter ha (by simpa using ih)
  | close hx hs _ => exact .close (hok q _ _ hx) hs

theorem Labelled.append (hok : ∀ q l x, ok l x → ok (q ++ l) x) (h : Labelled c ok l s xs)
    (ht : Labelled c ok [] t ys) : Labelled c ok l (s ++ t) (xs ++ ys) := by
  induction h with
  | @nil l => simpa using ht.extend hok l
  | letter ha _ ih => exact .letter ha ih
  | close hx _ ih => exact .close hx ih

/-- The label of the first closer, and those of the others. -/
theorem Labelled.of_close (hw : c ∉ w) (h : Labelled c ok l (w ++ c :: s) xs) :
    ∃ x ys, xs = x :: ys ∧ ok (l ++ w) x ∧ Labelled c ok [] s ys := by
  induction w generalizing l with
  | nil =>
    cases h with
    | letter hc _ => exact absurd rfl hc
    | @close _ _ x ys hx hs => exact ⟨x, ys, rfl, by simpa using hx, hs⟩
  | cons a w ih =>
    obtain ⟨ha, hw⟩ := List.ne_and_not_mem_of_not_mem_cons hw
    cases h with
    | close _ _ => exact absurd rfl ha
    | letter _ h =>
      obtain ⟨x, ys, rfl, hx, hs⟩ := ih hw h
      exact ⟨x, ys, rfl, by simpa using hx, hs⟩

/-- The labels as a template of references only. -/
def labels (α : Type*) (xs : List ι) : Template ι α := xs.map Seg.ref

theorem labels_append (xs ys : List ι) : labels α (xs ++ ys) = labels α xs ++ labels α ys :=
  List.map_append

theorem ref_mem_labels : .ref x ∈ labels α xs ↔ x ∈ xs := by simp [labels]

/-- Replacing a pattern that ends with a closer replaces the labels of its occurrences. -/
theorem Labelled.replaceAll [DecidableEq α] {M : ι → ι → Prop} {new : List α} (hw : c ∉ w)
    (hok : ∀ q l x, ok l x → ok (q ++ l) x)
    (hnew : ∀ l x, ok (l ++ w) x → ∃ ys, Labelled c ok [] new ys ∧ ∀ y ∈ ys, M x y)
    (h : Labelled c ok l s xs) :
    ∃ ys, Labelled c ok l (replaceAll (w ++ [c]) new s) ys ∧
      ReflTransGen (Replaces M) (labels α xs) (labels α ys) ∧
      (w ++ [c] <:+: s → TransGen (Replaces M) (labels α xs) (labels α ys)) := by
  induction hn : s.length using Nat.strong_induction_on generalizing l s xs with
  | h n ih =>
    subst hn
    by_cases hpat : w ++ [c] <+: s
    · obtain ⟨r, rfl⟩ := hpat
      rw [List.append_assoc, List.singleton_append] at h
      obtain ⟨x, rest, rfl, hx, hr⟩ := h.of_close hw
      obtain ⟨ys, hys, hxy⟩ := hnew l x hx
      obtain ⟨rest', hr', hrun, -⟩ := ih r.length (by simp; omega) hr rfl
      have hstep : Replaces M (labels α (x :: rest)) (labels α ys ++ labels α rest) :=
        ⟨[], x, labels α ys, labels α rest, rfl, rfl, fun y hy => hxy y (ref_mem_labels.mp hy)⟩
      have hall : TransGen (Replaces M) (labels α (x :: rest)) (labels α (ys ++ rest')) := by
        rw [labels_append]
        exact TransGen.head' hstep (hrun.lift (labels α ys ++ ·) fun _ _ h => h.append_left _)
      rw [replaceAll_pat new r (by simp)]
      refine ⟨ys ++ rest', ?_, hall.to_reflTransGen, fun _ => hall⟩
      have hbefore : Labelled c ok l new ys := by simpa using hys.extend hok l
      exact hbefore.append hok hr'
    · cases h with
      | nil =>
        refine ⟨[], .nil, .refl, fun hin => absurd hin ?_⟩
        simp
      | @letter _ a s _ ha h =>
        obtain ⟨ys, hys, hrun, hoccurs⟩ := ih s.length (by simp) h rfl
        rw [replaceAll_cons _ hpat]
        exact ⟨ys, .letter ha hys, hrun,
          fun hin => hoccurs ((List.infix_cons_iff.mp hin).resolve_left hpat)⟩
      | @close _ s x rest hx h =>
        obtain ⟨ys, hys, hrun, hoccurs⟩ := ih s.length (by simp) h rfl
        rw [replaceAll_cons _ hpat]
        refine ⟨x :: ys, .close hx hys, hrun.lift ([Seg.ref x] ++ ·) fun _ _ h => h.append_left _,
          fun hin => ?_⟩
        exact (hoccurs ((List.infix_cons_iff.mp hin).resolve_left hpat)).lift ([Seg.ref x] ++ ·)
          fun _ _ h => h.append_left _

end Kubeka.Text
