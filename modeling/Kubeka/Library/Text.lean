import Mathlib.Data.List.Infix
import Mathlib.Tactic

/-!
# Searching and replacing in text

Text is a list of letters. `cut` splits a text at the first occurrence of a
pattern, `replaceAll` exchanges every occurrence, from left to right and
without overlaps. The pieces of a text that is split at some letters hold none
of them.
-/

namespace Kubeka.Text

variable {α : Type*} [DecidableEq α]

/-- The text before and after the first occurrence of `pat`. -/
def cut (pat : List α) : List α → Option (List α × List α)
  | [] => if pat = [] then some ([], []) else none
  | a :: s =>
    if pat.isPrefixOf (a :: s) then some ([], (a :: s).drop pat.length)
    else (cut pat s).map fun p => (a :: p.1, p.2)

theorem cut_eq_none_iff {pat s : List α} : cut pat s = none ↔ ¬ pat <:+: s := by
  induction s with
  | nil => simp [cut]
  | cons a s ih =>
    simp only [cut, List.infix_cons_iff, not_or]
    split_ifs with hp
    · simp [List.isPrefixOf_iff_prefix.mp hp]
    · simp [ih, mt List.isPrefixOf_iff_prefix.mpr hp]

theorem cut_cons {pat : List α} {a : α} {s : List α} (h : ¬ pat <+: a :: s) :
    cut pat (a :: s) = (cut pat s).map fun p => (a :: p.1, p.2) := by
  simp [cut, mt List.isPrefixOf_iff_prefix.mp h]

theorem cut_prefix {pat : List α} (s : List α) (hp : pat ≠ []) :
    cut pat (pat ++ s) = some ([], s) := by
  cases pat with
  | nil => exact absurd rfl hp
  | cons a u =>
    have hpre : (a :: u).isPrefixOf (a :: (u ++ s)) = true :=
      List.isPrefixOf_iff_prefix.mpr ⟨s, rfl⟩
    simp [cut, hpre]

/-- What is found stands between what is before and after it. -/
theorem eq_of_cut {pat s a b : List α} (h : cut pat s = some (a, b)) : s = a ++ (pat ++ b) := by
  induction s generalizing a with
  | nil =>
    unfold cut at h
    split_ifs at h with hp
    obtain ⟨rfl, rfl⟩ := Prod.mk.inj (Option.some.inj h)
    simp [hp]
  | cons x s ih =>
    unfold cut at h
    split_ifs at h with hp
    · obtain ⟨rfl, rfl⟩ := Prod.mk.inj (Option.some.inj h)
      exact (List.prefix_iff_eq_append.mp (List.isPrefixOf_iff_prefix.mp hp)).symm
    · obtain ⟨⟨a', b'⟩, hcut, heq⟩ := Option.map_eq_some_iff.mp h
      obtain ⟨rfl, rfl⟩ := Prod.mk.inj heq
      rw [ih hcut, List.cons_append]

/-- A pattern is found behind the text in which no occurrence starts. -/
theorem cut_append {pat pre : List α} (rest : List α) (hp : pat ≠ [])
    (h : ∀ v w, pre = v ++ w → w ≠ [] → ¬ pat <+: w ++ (pat ++ rest)) :
    cut pat (pre ++ (pat ++ rest)) = some (pre, rest) := by
  induction pre with
  | nil => exact cut_prefix rest hp
  | cons a pre ih =>
    have hhead : ¬ pat <+: a :: (pre ++ (pat ++ rest)) := h [] (a :: pre) rfl (by simp)
    rw [List.cons_append, cut_cons hhead, ih fun v w hpre hw => h (a :: v) w (by simp [hpre]) hw]
    rfl

/-- A letter is found behind the text that does not hold it. -/
theorem cut_singleton {c : α} {b : List α} (r : List α) (hb : c ∉ b) :
    cut [c] (b ++ c :: r) = some (b, r) := by
  induction b with
  | nil => simp [cut]
  | cons a b ih =>
    obtain ⟨hca, hcb⟩ := List.ne_and_not_mem_of_not_mem_cons hb
    simp [cut, hca, ih hcb]

/-- A text is split at a letter where the letter stands for the first time. -/
theorem cut_singleton_eq_some_iff {c : α} {s a b : List α} :
    cut [c] s = some (a, b) ↔ s = a ++ c :: b ∧ c ∉ a := by
  constructor
  · intro h
    refine ⟨eq_of_cut h, fun hmem => ?_⟩
    obtain ⟨front, back, rfl, hfront⟩ := List.eq_append_cons_of_mem hmem
    have hcut := cut_singleton (back ++ c :: b) hfront
    rw [eq_of_cut h, List.append_assoc] at h
    obtain ⟨heq, -⟩ := Prod.mk.inj (Option.some.inj (hcut.symm.trans h))
    exact hfront (heq ▸ hmem)
  · rintro ⟨rfl, ha⟩
    exact cut_singleton b ha

theorem eq_of_append_singleton {c : α} {b b' r r' : List α} (hb : c ∉ b) (hb' : c ∉ b')
    (h : b ++ c :: r = b' ++ c :: r') : b = b' ∧ r = r' := by
  have hcut := cut_singleton r hb
  rw [h, cut_singleton r' hb'] at hcut
  exact ⟨(Prod.mk.inj (Option.some.inj hcut)).1.symm, (Prod.mk.inj (Option.some.inj hcut)).2.symm⟩

omit [DecidableEq α] in
/-- Text without the letter stands in front of it. -/
theorem isPrefix_of_append_cons {l r a b : List α} {c : α} (hc : c ∉ l)
    (h : l ++ r = a ++ c :: b) : l <+: a := by
  have hl : l <+: a ++ c :: b := ⟨r, h⟩
  have ha : a ++ [c] <+: a ++ c :: b := ⟨b, by simp⟩
  rcases List.prefix_or_prefix_of_prefix hl ha with hle | hle
  · rcases List.prefix_concat_iff.mp hle with heq | hle
    · exact absurd (by simp [heq]) hc
    · exact hle
  · exact absurd (hle.subset (by simp)) hc

omit [DecidableEq α] in
/-- A pattern is not found in text without its first letter. -/
theorem isInfix_append_iff {c : α} {pat l : List α} (h : c ∉ l) (r : List α) :
    c :: pat <:+: l ++ r ↔ c :: pat <:+: r := by
  induction l with
  | nil => rfl
  | cons a l ih =>
    obtain ⟨ha, hl⟩ := List.ne_and_not_mem_of_not_mem_cons h
    rw [List.cons_append, List.infix_cons_iff, ih hl]
    exact or_iff_right fun hfront => ha (List.cons_prefix_cons.mp hfront).1

/-- Replacement with a count of the letters of an occurrence still to be skipped. -/
def replaceFrom (pat new : List α) : ℕ → List α → List α
  | _, [] => []
  | k + 1, _ :: s => replaceFrom pat new k s
  | 0, a :: s =>
    if pat.isPrefixOf (a :: s) then new ++ replaceFrom pat new (pat.length - 1) s
    else a :: replaceFrom pat new 0 s

/-- Every occurrence of `pat` exchanged for `new`. -/
def replaceAll (pat new s : List α) : List α := replaceFrom pat new 0 s

theorem replaceFrom_skip (pat new u s : List α) :
    replaceFrom pat new u.length (u ++ s) = replaceFrom pat new 0 s := by
  induction u with
  | nil => rfl
  | cons a u ih => simpa [replaceFrom] using ih

theorem replaceAll_pat {pat : List α} (new s : List α) (hp : pat ≠ []) :
    replaceAll pat new (pat ++ s) = new ++ replaceAll pat new s := by
  cases pat with
  | nil => exact absurd rfl hp
  | cons a u =>
    have hpre : (a :: u).isPrefixOf (a :: (u ++ s)) = true :=
      List.isPrefixOf_iff_prefix.mpr ⟨s, rfl⟩
    simp only [replaceAll, List.cons_append, replaceFrom, hpre, if_true, List.length_cons,
      Nat.add_sub_cancel, replaceFrom_skip]

theorem replaceAll_cons {pat : List α} (new : List α) {a : α} {s : List α}
    (h : ¬ pat <+: a :: s) : replaceAll pat new (a :: s) = a :: replaceAll pat new s := by
  simp [replaceAll, replaceFrom, mt List.isPrefixOf_iff_prefix.mp h]

/-- Text in which no occurrence starts is passed over unchanged. -/
theorem replaceAll_append {pat : List α} (new u s : List α)
    (h : ∀ v w, u = v ++ w → w ≠ [] → ¬ pat <+: w ++ s) :
    replaceAll pat new (u ++ s) = u ++ replaceAll pat new s := by
  induction u with
  | nil => rfl
  | cons a u ih =>
    have hhead : ¬ pat <+: a :: (u ++ s) := h [] (a :: u) rfl (by simp)
    rw [List.cons_append, replaceAll_cons new hhead,
      ih fun v w huvw hw => h (a :: v) w (by simp [huvw]) hw, List.cons_append]

theorem replaceAll_eq_self {pat s : List α} (new : List α) (h : ¬ pat <:+: s) :
    replaceAll pat new s = s := by
  have hstarts : ∀ v w, s = v ++ w → w ≠ [] → ¬ pat <+: w ++ [] := by
    rintro v w rfl - hpre
    rw [List.append_nil] at hpre
    exact h (hpre.isInfix.trans (List.suffix_append v w).isInfix)
  simpa [replaceAll, replaceFrom] using replaceAll_append new s [] hstarts

/-! ### Splitting -/

theorem of_mem_splitOnP {α : Type*} {p : α → Bool} {text piece : List α}
    (h : piece ∈ text.splitOnP p) : ∀ c ∈ piece, p c = false := by
  induction text generalizing piece with
  | nil => simp_all
  | cons c text ih =>
    obtain ⟨first, rest, hsplit⟩ := List.exists_cons_of_ne_nil (List.splitOnP_ne_nil p text)
    rw [hsplit] at ih
    rw [List.splitOnP_cons_eq_if_modifyHead, hsplit] at h
    by_cases hc : p c = true
    · rw [if_pos hc, List.mem_cons] at h
      rcases h with rfl | h
      · simp
      · exact ih h
    · rw [if_neg hc, List.modifyHead_cons, List.mem_cons] at h
      rcases h with rfl | h
      · intro d hd
        rcases List.mem_cons.mp hd with rfl | hd
        · simpa using hc
        · exact ih List.mem_cons_self d hd
      · exact ih (List.mem_cons_of_mem _ h)

theorem not_mem_of_mem_splitOn {c : α} {text piece : List α} (h : piece ∈ text.splitOn c) :
    c ∉ piece := by
  intro hc
  rw [List.splitOn_eq_splitOnP] at h
  simpa using of_mem_splitOnP h c hc

theorem mem_intercalate_iff {α : Type*} {c sep : α} (hc : c ≠ sep) {pieces : List (List α)} :
    c ∈ [sep].intercalate pieces ↔ ∃ piece ∈ pieces, c ∈ piece := by
  induction pieces with
  | nil => simp
  | cons piece pieces ih =>
    cases pieces with
    | nil => simp
    | cons next pieces =>
      rw [List.intercalate_cons_cons, List.mem_append, List.mem_append, ih]
      simp [hc]

/-- A text ends where a separator follows or nothing. -/
theorem append_inj_of_sep {sep : α} {s s' t t' : List α} (hs : sep ∉ s) (hs' : sep ∉ s')
    (ht : ∀ c ∈ t.head?, c = sep) (ht' : ∀ c ∈ t'.head?, c = sep) (h : s ++ t = s' ++ t') :
    s = s' ∧ t = t' := by
  have hfront {s t : List α} (hs : sep ∉ s) (ht : ∀ c ∈ t.head?, c = sep) :
      (s ++ t).takeWhile (· ≠ sep) = s := by
    have hall : ∀ c ∈ s, decide (c ≠ sep) = true := fun c hc =>
      decide_eq_true fun heq => hs (heq ▸ hc)
    rw [List.takeWhile_append_of_pos hall]
    cases t with
    | nil => simp
    | cons c t => simp [ht c rfl]
  have heq : s = s' := by rw [← hfront hs ht, h, hfront hs' ht']
  exact ⟨heq, List.append_cancel_left (heq ▸ h)⟩

/-- Pieces behind separators can be told from their text. -/
theorem flatMap_cons_inj {sep : α} {l l' : List (List α)} (hl : ∀ s ∈ l, sep ∉ s)
    (hl' : ∀ s ∈ l', sep ∉ s) (h : l.flatMap (sep :: ·) = l'.flatMap (sep :: ·)) : l = l' := by
  have hhead (l : List (List α)) : ∀ c ∈ (l.flatMap (sep :: ·)).head?, c = sep := by
    cases l <;> simp
  induction l generalizing l' with
  | nil =>
    cases l' with
    | nil => rfl
    | cons s' l' => simp at h
  | cons s l ih =>
    cases l' with
    | nil => simp at h
    | cons s' l' =>
      obtain ⟨hs, hrest⟩ := List.forall_mem_cons.mp hl
      obtain ⟨hs', hrest'⟩ := List.forall_mem_cons.mp hl'
      simp only [List.flatMap_cons, List.cons_append, List.cons.injEq, true_and] at h
      obtain ⟨rfl, heq⟩ := append_inj_of_sep hs hs' (hhead l) (hhead l') h
      rw [ih hrest hrest' heq]

theorem splitOn_eq_singleton_nil_iff {c : α} {text : List α} :
    text.splitOn c = [[]] ↔ text = [] := by
  constructor
  · intro h
    have hjoin : [c].intercalate (text.splitOn c) = text := List.intercalate_splitOn c
    rw [h] at hjoin
    simpa using hjoin.symm
  · intro h
    rw [h, List.splitOn_nil]

end Kubeka.Text
