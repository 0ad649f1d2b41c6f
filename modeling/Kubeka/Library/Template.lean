import Kubeka.Library.FiniteGraph

/-!
# Templates and their evaluation

A template is text in which names stand for further templates, given by a
table. `Evaluates` is the meaning: text read from left to right, every name
replaced by the value of its template, with the first undefined name as the
only error. `rewrite` is the usual implementation: while a name is left, the
leftmost one is looked up and all its occurrences are replaced in place.

The two agree on outcome and on termination (`rewrite_of_evaluates`,
`evaluates_of_rewrite`), the rewriting stops unless a ring of live references is
reached (`settles_iff_not_ring`), and neither notices when parts of the table
have been evaluated already (`evaluates_iff_of_partial`).
-/

namespace Kubeka.Templates

open Relation FiniteGraph

/-- One piece of a template: a letter of the text or a reference to a name. -/
inductive Seg (ν α : Type*) where
  | lit (a : α)
  | ref (x : ν)
  deriving DecidableEq, Repr

abbrev Template (ν α : Type*) := List (Seg ν α)

abbrev Table (ν α : Type*) := ν → Option (Template ν α)

variable {ν α : Type*} {ρ ρ' : Table ν α}

/-- Plain text as a template. -/
def ofText (s : List α) : Template ν α := s.map Seg.lit

/-- The value of a template in `n` look-ups: its text, or the undefined name met first. -/
inductive Evaluates (ρ : Table ν α) : ℕ → Template ν α → Except ν (List α) → Prop
  | nil : Evaluates ρ 0 [] (.ok [])
  | lit {a n t o} : Evaluates ρ n t o → Evaluates ρ n (.lit a :: t) (o.map (a :: ·))
  | undefined {x t} : ρ x = none → Evaluates ρ 0 (.ref x :: t) (.error x)
  | inside {x b n y t} : ρ x = some b → Evaluates ρ n b (.error y) →
      Evaluates ρ (n + 1) (.ref x :: t) (.error y)
  | after {x b m s n t o} : ρ x = some b → Evaluates ρ m b (.ok s) → Evaluates ρ n t o →
      Evaluates ρ (m + n + 1) (.ref x :: t) (o.map (s ++ ·))

theorem evaluates_nil_iff {n : ℕ} {o : Except ν (List α)} :
    Evaluates ρ n [] o ↔ n = 0 ∧ o = .ok [] := by
  constructor
  · intro h
    cases h
    exact ⟨rfl, rfl⟩
  · rintro ⟨rfl, rfl⟩
    exact .nil

theorem evaluates_lit_iff {n : ℕ} {a : α} {t : Template ν α} {o : Except ν (List α)} :
    Evaluates ρ n (.lit a :: t) o ↔ ∃ o', Evaluates ρ n t o' ∧ o = o'.map (a :: ·) := by
  constructor
  · intro h
    cases h with
    | lit h => exact ⟨_, h, rfl⟩
  · rintro ⟨o', h, rfl⟩
    exact .lit h

theorem evaluates_ref_iff {n : ℕ} {x : ν} {t : Template ν α} {o : Except ν (List α)} :
    Evaluates ρ n (.ref x :: t) o ↔
      (ρ x = none ∧ n = 0 ∧ o = .error x) ∨
      (∃ b m y, ρ x = some b ∧ Evaluates ρ m b (.error y) ∧ n = m + 1 ∧ o = .error y) ∨
      (∃ b m s k o', ρ x = some b ∧ Evaluates ρ m b (.ok s) ∧ Evaluates ρ k t o' ∧
        n = m + k + 1 ∧ o = o'.map (s ++ ·)) := by
  constructor
  · intro h
    cases h with
    | undefined hx => exact .inl ⟨hx, rfl, rfl⟩
    | inside hx hb => exact .inr (.inl ⟨_, _, _, hx, hb, rfl, rfl⟩)
    | after hx hb ht => exact .inr (.inr ⟨_, _, _, _, _, hx, hb, ht, rfl, rfl⟩)
  · rintro (⟨hx, rfl, rfl⟩ | ⟨b, m, y, hx, hb, rfl, rfl⟩ | ⟨b, m, s, k, o', hx, hb, ht, rfl, rfl⟩)
    · exact .undefined hx
    · exact .inside hx hb
    · exact .after hx hb ht

/-- Evaluation is a function: it fixes both the number of look-ups and the outcome. -/
theorem Evaluates.unique {n m : ℕ} {t : Template ν α} {o o' : Except ν (List α)}
    (h : Evaluates ρ n t o) (h' : Evaluates ρ m t o') : n = m ∧ o = o' := by
  induction h generalizing m o' with
  | nil =>
    obtain ⟨rfl, rfl⟩ := evaluates_nil_iff.mp h'
    exact ⟨rfl, rfl⟩
  | lit _ ih =>
    obtain ⟨o₂, h₂, rfl⟩ := evaluates_lit_iff.mp h'
    obtain ⟨rfl, rfl⟩ := ih h₂
    exact ⟨rfl, rfl⟩
  | undefined hx =>
    rcases evaluates_ref_iff.mp h' with ⟨_, rfl, rfl⟩ | ⟨b, _, _, hb, _⟩ | ⟨b, _, _, _, _, hb, _⟩
    · exact ⟨rfl, rfl⟩
    · simp [hx] at hb
    · simp [hx] at hb
  | inside hx _ ih =>
    rcases evaluates_ref_iff.mp h' with ⟨hn, _⟩ | ⟨b, k, y, hb, h₂, rfl, rfl⟩ |
      ⟨b, k, s, l, o₂, hb, h₂, _⟩
    · simp [hx] at hn
    · obtain rfl : _ = b := Option.some.inj (hx.symm.trans hb)
      obtain ⟨rfl, he⟩ := ih h₂
      exact ⟨rfl, he⟩
    · obtain rfl : _ = b := Option.some.inj (hx.symm.trans hb)
      exact absurd (ih h₂).2 (by simp)
  | after hx _ _ ihb iht =>
    rcases evaluates_ref_iff.mp h' with ⟨hn, _⟩ | ⟨b, k, y, hb, h₂, _⟩ |
      ⟨b, k, s, l, o₂, hb, h₂, h₃, rfl, rfl⟩
    · simp [hx] at hn
    · obtain rfl : _ = b := Option.some.inj (hx.symm.trans hb)
      exact absurd (ihb h₂).2 (by simp)
    · obtain rfl : _ = b := Option.some.inj (hx.symm.trans hb)
      obtain ⟨rfl, he⟩ := ihb h₂
      obtain ⟨rfl, rfl⟩ := iht h₃
      cases he
      exact ⟨rfl, rfl⟩

theorem Evaluates.append_error {n : ℕ} {t : Template ν α} {y : ν} (u : Template ν α)
    (h : Evaluates ρ n t (.error y)) : Evaluates ρ n (t ++ u) (.error y) := by
  generalize ho : Except.error y = o at h
  induction h with
  | nil => cases ho
  | @lit a n t o h ih =>
    cases o with
    | ok s => cases ho
    | error z =>
      cases ho
      exact .lit (a := a) (ih rfl)
  | undefined hx =>
    cases ho
    exact .undefined hx
  | inside hx hb =>
    cases ho
    exact .inside hx hb
  | @after x b m s n t o hx hb _ _ iht =>
    cases o with
    | ok s => cases ho
    | error z =>
      cases ho
      exact .after hx hb (iht rfl)

theorem Evaluates.append_ok {m n : ℕ} {t u : Template ν α} {s : List α} {o : Except ν (List α)}
    (h : Evaluates ρ m t (.ok s)) (hu : Evaluates ρ n u o) :
    Evaluates ρ (m + n) (t ++ u) (o.map (s ++ ·)) := by
  generalize ho : Except.ok s = o' at h
  induction h generalizing s with
  | nil =>
    cases ho
    cases o <;> simpa [Except.map] using hu
  | @lit a k t o' h ih =>
    cases o' with
    | error z => cases ho
    | ok s' =>
      cases ho
      have hl := Evaluates.lit (a := a) (ih rfl)
      cases o <;> simpa [Except.map] using hl
  | undefined hx => cases ho
  | inside hx hb => cases ho
  | @after x b k s₁ l t o' hx hb _ _ iht =>
    cases o' with
    | error z => cases ho
    | ok s' =>
      cases ho
      have ha := Evaluates.after hx hb (iht rfl)
      have hn : k + l + 1 + n = k + (l + n) + 1 := by omega
      rw [hn]
      cases o <;> simpa [Except.map] using ha

/-- A concatenation evaluates its left part first. -/
theorem evaluates_append_iff {n : ℕ} {t u : Template ν α} {o : Except ν (List α)} :
    Evaluates ρ n (t ++ u) o ↔
      (∃ y, Evaluates ρ n t (.error y) ∧ o = .error y) ∨
      (∃ m k s o', Evaluates ρ m t (.ok s) ∧ Evaluates ρ k u o' ∧ n = m + k ∧
        o = o'.map (s ++ ·)) := by
  constructor
  · induction t generalizing n o with
    | nil =>
      intro h
      refine .inr ⟨0, n, [], o, .nil, h, by simp, ?_⟩
      cases o <;> simp [Except.map]
    | cons g t ih =>
      intro h
      cases g with
      | lit a =>
        obtain ⟨o₁, h₁, rfl⟩ := evaluates_lit_iff.mp h
        rcases ih h₁ with ⟨y, hy, rfl⟩ | ⟨m, k, s, o', hm, hk, rfl, rfl⟩
        · exact .inl ⟨y, .lit hy, rfl⟩
        · refine .inr ⟨m, k, a :: s, o', .lit hm, hk, rfl, ?_⟩
          cases o' <;> simp [Except.map]
      | ref x =>
        rcases evaluates_ref_iff.mp h with ⟨hx, rfl, rfl⟩ | ⟨b, m, y, hx, hb, rfl, rfl⟩ |
          ⟨b, m, s, k, o₁, hx, hb, h₁, rfl, rfl⟩
        · exact .inl ⟨x, .undefined hx, rfl⟩
        · exact .inl ⟨y, .inside hx hb, rfl⟩
        · rcases ih h₁ with ⟨y, hy, rfl⟩ | ⟨m', k', s', o', hm, hk, rfl, rfl⟩
          · exact .inl ⟨y, .after hx hb hy, rfl⟩
          · refine .inr ⟨m + m' + 1, k', s ++ s', o', .after hx hb hm, hk, by omega, ?_⟩
            cases o' <;> simp [Except.map]
  · rintro (⟨y, h, rfl⟩ | ⟨m, k, s, o', hm, hk, rfl, rfl⟩)
    · exact h.append_error u
    · exact hm.append_ok hk

theorem evaluates_ofText (s : List α) : Evaluates ρ 0 (ofText s) (.ok s) := by
  induction s with
  | nil => exact .nil
  | cons a s ih => exact .lit ih

/-- Evaluation of `t` ends, with a text or at an undefined name. -/
def Settles (ρ : Table ν α) (t : Template ν α) : Prop := ∃ n o, Evaluates ρ n t o

/-- `t` has the text `s` as its value. -/
def Expands (ρ : Table ν α) (t : Template ν α) (s : List α) : Prop := ∃ n, Evaluates ρ n t (.ok s)

theorem Expands.unique {t : Template ν α} {s s' : List α} (h : Expands ρ t s)
    (h' : Expands ρ t s') : s = s' := by
  obtain ⟨_, h⟩ := h
  obtain ⟨_, h'⟩ := h'
  exact Except.ok.inj (h.unique h').2

/-! ### Rewriting in place -/

section Rewrite

variable [DecidableEq ν]

/-- The leftmost reference of a template. -/
def firstRef : Template ν α → Option ν
  | [] => none
  | .lit _ :: t => firstRef t
  | .ref x :: _ => some x

/-- The letters of a template, references left out. -/
def letters : Template ν α → List α
  | [] => []
  | .lit a :: t => a :: letters t
  | .ref _ :: t => letters t

/-- Replace every occurrence of the name `x` by `b`. -/
def substAll (x : ν) (b : Template ν α) : Template ν α → Template ν α
  | [] => []
  | .lit a :: t => .lit a :: substAll x b t
  | .ref y :: t => if y = x then b ++ substAll x b t else .ref y :: substAll x b t

/-- Replace the leftmost name until none is left, at most `fuel` times. -/
def rewrite (ρ : Table ν α) : ℕ → Template ν α → Option (Except ν (List α))
  | 0, _ => none
  | fuel + 1, t =>
    match firstRef t with
    | none => some (.ok (letters t))
    | some x =>
      match ρ x with
      | none => some (.error x)
      | some b => rewrite ρ fuel (substAll x b t)

omit [DecidableEq ν] in
theorem evaluates_of_firstRef_none {t : Template ν α} (h : firstRef t = none) :
    Evaluates ρ 0 t (.ok (letters t)) := by
  induction t with
  | nil => exact .nil
  | cons g t ih =>
    cases g with
    | lit a => exact .lit (ih h)
    | ref x => simp [firstRef] at h

omit [DecidableEq ν] in
theorem evaluates_of_firstRef_undefined {t : Template ν α} {x : ν} (h : firstRef t = some x)
    (hx : ρ x = none) : Evaluates ρ 0 t (.error x) := by
  induction t with
  | nil => simp [firstRef] at h
  | cons g t ih =>
    cases g with
    | lit a => exact .lit (ih h)
    | ref y =>
      obtain rfl : y = x := by simpa [firstRef] using h
      exact .undefined hx

/-- Replacing a defined name keeps the outcome and never adds look-ups. -/
theorem Evaluates.substAll {x : ν} {b : Template ν α} (hx : ρ x = some b) {n : ℕ}
    {t : Template ν α} {o : Except ν (List α)} (h : Evaluates ρ n t o) :
    ∃ m ≤ n, Evaluates ρ m (substAll x b t) o := by
  induction h with
  | nil => exact ⟨0, le_rfl, .nil⟩
  | lit _ ih =>
    obtain ⟨m, hm, h⟩ := ih
    exact ⟨m, hm, .lit h⟩
  | @undefined y t hy =>
    have hne : y ≠ x := by rintro rfl; simp [hx] at hy
    exact ⟨0, le_rfl, by simpa [Templates.substAll, hne] using .undefined hy⟩
  | @inside y b' n z t hy hb _ =>
    by_cases hxy : y = x
    · subst hxy
      obtain rfl : b' = b := Option.some.inj (hy.symm.trans hx)
      exact ⟨n, Nat.le_succ n, by simpa [Templates.substAll] using hb.append_error _⟩
    · exact ⟨n + 1, le_rfl, by simpa [Templates.substAll, hxy] using .inside hy hb⟩
  | @after y b' m s n t o hy hb _ _ iht =>
    obtain ⟨k, hk, h⟩ := iht
    by_cases hxy : y = x
    · subst hxy
      obtain rfl : b' = b := Option.some.inj (hy.symm.trans hx)
      exact ⟨m + k, by omega, by simpa [Templates.substAll] using hb.append_ok h⟩
    · exact ⟨m + k + 1, by omega, by simpa [Templates.substAll, hxy] using .after hy hb h⟩

/-- Replacing the leftmost name saves a look-up. -/
theorem Evaluates.substAll_firstRef {x : ν} {b : Template ν α} (hx : ρ x = some b) {n : ℕ}
    {t : Template ν α} {o : Except ν (List α)} (hfirst : firstRef t = some x)
    (h : Evaluates ρ n t o) : ∃ m < n, Evaluates ρ m (Templates.substAll x b t) o := by
  induction t generalizing o with
  | nil => simp [firstRef] at hfirst
  | cons g t ih =>
    cases g with
    | lit a =>
      obtain ⟨o', ht, rfl⟩ := evaluates_lit_iff.mp h
      obtain ⟨m, hm, ht⟩ := ih hfirst ht
      exact ⟨m, hm, .lit ht⟩
    | ref y =>
      obtain rfl : y = x := by simpa [firstRef] using hfirst
      rcases evaluates_ref_iff.mp h with ⟨hn, _⟩ | ⟨b', m, z, hb, he, rfl, rfl⟩ |
        ⟨b', m, s, k, o', hb, he, ht, rfl, rfl⟩
      · simp [hx] at hn
      · obtain rfl : b' = b := Option.some.inj (hb.symm.trans hx)
        exact ⟨m, by omega, by simpa [Templates.substAll] using he.append_error _⟩
      · obtain rfl : b' = b := Option.some.inj (hb.symm.trans hx)
        obtain ⟨l, hl, ht⟩ := ht.substAll hx
        exact ⟨m + l, by omega, by simpa [Templates.substAll] using he.append_ok ht⟩

/-- Conversely the replaced text has no outcome that the original has not. -/
theorem evaluates_of_substAll {x : ν} {b : Template ν α} (hx : ρ x = some b) {n : ℕ}
    {t : Template ν α} {o : Except ν (List α)} (h : Evaluates ρ n (substAll x b t) o) :
    ∃ m, Evaluates ρ m t o := by
  induction t generalizing n o with
  | nil => exact ⟨n, h⟩
  | cons g t ih =>
    cases g with
    | lit a =>
      obtain ⟨o', ht, rfl⟩ := evaluates_lit_iff.mp h
      obtain ⟨m, ht⟩ := ih ht
      exact ⟨m, .lit ht⟩
    | ref y =>
      by_cases hxy : y = x
      · subst hxy
        simp only [substAll, if_true] at h
        rcases evaluates_append_iff.mp h with ⟨z, he, rfl⟩ | ⟨m, k, s, o', hb, ht, rfl, rfl⟩
        · exact ⟨n + 1, .inside hx he⟩
        · obtain ⟨l, ht⟩ := ih ht
          exact ⟨m + l + 1, .after hx hb ht⟩
      · simp only [substAll, if_neg hxy] at h
        rcases evaluates_ref_iff.mp h with ⟨hy, rfl, rfl⟩ | ⟨b', m, z, hy, hb, rfl, rfl⟩ |
          ⟨b', m, s, k, o', hy, hb, ht, rfl, rfl⟩
        · exact ⟨0, .undefined hy⟩
        · exact ⟨m + 1, .inside hy hb⟩
        · obtain ⟨l, ht⟩ := ih ht
          exact ⟨m + l + 1, .after hy hb ht⟩

theorem rewrite_of_evaluates {n fuel : ℕ} {t : Template ν α} {o : Except ν (List α)}
    (h : Evaluates ρ n t o) (hfuel : n < fuel) : rewrite ρ fuel t = some o := by
  induction fuel generalizing n t with
  | zero => omega
  | succ fuel ih =>
    cases hf : firstRef t with
    | none =>
      have hl := (h.unique (evaluates_of_firstRef_none hf)).2
      simp [rewrite, hf, hl]
    | some x =>
      cases hx : ρ x with
      | none =>
        have he := (h.unique (evaluates_of_firstRef_undefined hf hx)).2
        simp [rewrite, hf, hx, he]
      | some b =>
        obtain ⟨m, hm, h⟩ := h.substAll_firstRef hx hf
        simpa [rewrite, hf, hx] using ih h (by omega)

theorem evaluates_of_rewrite {fuel : ℕ} {t : Template ν α} {o : Except ν (List α)}
    (h : rewrite ρ fuel t = some o) : ∃ n, Evaluates ρ n t o := by
  induction fuel generalizing t with
  | zero => simp [rewrite] at h
  | succ fuel ih =>
    cases hf : firstRef t with
    | none =>
      obtain rfl : Except.ok (letters t) = o := by simpa [rewrite, hf] using h
      exact ⟨0, evaluates_of_firstRef_none hf⟩
    | some x =>
      cases hx : ρ x with
      | none =>
        obtain rfl : Except.error x = o := by simpa [rewrite, hf, hx] using h
        exact ⟨0, evaluates_of_firstRef_undefined hf hx⟩
      | some b =>
        obtain ⟨m, h⟩ := ih (by simpa [rewrite, hf, hx] using h)
        exact evaluates_of_substAll hx h

end Rewrite

/-! ### Rings of references -/

/-- `x` is looked up when `t` is evaluated: all references before it have a value. -/
def Live (ρ : Table ν α) (t : Template ν α) (x : ν) : Prop :=
  ∃ u v, t = u ++ .ref x :: v ∧ ∃ s, Expands ρ u s

/-- The template of `x` looks up `y`. -/
def Refers (ρ : Table ν α) (x y : ν) : Prop := ∃ b, ρ x = some b ∧ Live ρ b y

/-- Evaluating `t` runs into a ring of names each of which looks up the next. -/
def Ring (ρ : Table ν α) (t : Template ν α) : Prop :=
  ∃ x, Live ρ t x ∧ ReachesCycle (Refers ρ) x

theorem Live.cons_lit {t : Template ν α} {x : ν} (a : α) (h : Live ρ t x) :
    Live ρ (.lit a :: t) x := by
  obtain ⟨u, v, rfl, s, n, hu⟩ := h
  exact ⟨.lit a :: u, v, rfl, a :: s, n, .lit hu⟩

theorem Live.cons_ref {t b : Template ν α} {x y : ν} {s : List α} (hy : ρ y = some b)
    (hb : Expands ρ b s) (h : Live ρ t x) : Live ρ (.ref y :: t) x := by
  obtain ⟨u, v, rfl, s', n, hu⟩ := h
  obtain ⟨m, hb⟩ := hb
  exact ⟨.ref y :: u, v, rfl, s ++ s', m + n + 1, .after hy hb hu⟩

/-- A template settles as soon as the templates of its live references do. -/
theorem settles_of_live {t : Template ν α}
    (h : ∀ x b, Live ρ t x → ρ x = some b → Settles ρ b) : Settles ρ t := by
  induction t with
  | nil => exact ⟨0, _, .nil⟩
  | cons g t ih =>
    cases g with
    | lit a =>
      obtain ⟨n, o, h⟩ := ih fun x b hl hx => h x b (hl.cons_lit a) hx
      exact ⟨n, _, .lit h⟩
    | ref y =>
      cases hy : ρ y with
      | none => exact ⟨0, _, .undefined hy⟩
      | some c =>
        obtain ⟨n, o, hc⟩ := h y c ⟨[], t, rfl, [], 0, .nil⟩ hy
        cases o with
        | error z => exact ⟨n + 1, _, .inside hy hc⟩
        | ok s =>
          obtain ⟨m, o, ht⟩ := ih fun x b hl hx => h x b (hl.cons_ref hy ⟨n, hc⟩) hx
          exact ⟨_, _, .after hy hc ht⟩

/-- A live reference of a settled template has a template that settles in fewer look-ups. -/
theorem Evaluates.live {n : ℕ} {t b : Template ν α} {x : ν} {o : Except ν (List α)}
    (h : Evaluates ρ n t o) (hl : Live ρ t x) (hx : ρ x = some b) :
    ∃ m < n, ∃ o', Evaluates ρ m b o' := by
  obtain ⟨u, v, rfl, s, k, hu⟩ := hl
  rcases evaluates_append_iff.mp h with ⟨y, he, _⟩ | ⟨m, l, s', o', _, hv, rfl, _⟩
  · exact absurd (hu.unique he).2 (by simp)
  · rcases evaluates_ref_iff.mp hv with ⟨hn, _⟩ | ⟨c, i, z, hc, hb, rfl, _⟩ |
      ⟨c, i, s₂, j, o₂, hc, hb, _, rfl, _⟩
    · simp [hx] at hn
    · obtain rfl : c = b := Option.some.inj (hc.symm.trans hx)
      exact ⟨i, by omega, _, hb⟩
    · obtain rfl : c = b := Option.some.inj (hc.symm.trans hx)
      exact ⟨i, by omega, _, hb⟩

/-- A name whose template settles starts only finite chains of look-ups. -/
theorem terminates_of_evaluates {n : ℕ} {x : ν} {b : Template ν α} {o : Except ν (List α)}
    (hx : ρ x = some b) (h : Evaluates ρ n b o) : Terminates (Refers ρ) x := by
  induction n using Nat.strong_induction_on generalizing x b o with
  | _ n ih =>
    refine Acc.intro _ fun y hy => ?_
    obtain ⟨b', hb', hl⟩ := hy
    obtain rfl : b' = b := Option.some.inj (hb'.symm.trans hx)
    cases hy : ρ y with
    | none =>
      refine Acc.intro _ fun z hz => ?_
      obtain ⟨c, hc, _⟩ := hz
      simp [hy] at hc
    | some c =>
      obtain ⟨m, hm, o', hc⟩ := h.live hl hy
      exact ih m hm hy hc

/-- With finitely many names defined, evaluation ends unless it runs into a ring. -/
theorem settles_iff_not_ring (hfin : {x | (ρ x).isSome}.Finite) {t : Template ν α} :
    Settles ρ t ↔ ¬ Ring ρ t := by
  constructor
  · rintro ⟨n, o, h⟩ ⟨x, hl, hring⟩
    have hx : (ρ x).isSome := by
      obtain ⟨y, hxy, hc⟩ := hring
      have hstep : ∃ z, Refers ρ x z := by
        rcases ReflTransGen.cases_head hxy with rfl | ⟨z, hz, _⟩
        · obtain ⟨z, hz, _⟩ := TransGen.head'_iff.mp hc
          exact ⟨z, hz⟩
        · exact ⟨z, hz⟩
      obtain ⟨z, b, hb, _⟩ := hstep
      simp [hb]
    obtain ⟨b, hb⟩ := Option.isSome_iff_exists.mp hx
    obtain ⟨m, _, o', hm⟩ := h.live hl hb
    exact (terminates_of_evaluates hb hm).not_reachesCycle hring
  · intro hring
    -- Only names with a template are followed, so the chains stay in a finite set.
    let step : ν → ν → Prop := fun x y => Refers ρ x y ∧ (ρ y).isSome
    have hstep : ∀ x, Live ρ t x → (ρ x).isSome → Terminates step x := by
      intro x hl hx
      refine terminates_of_not_reachesCycle hfin ?_ ?_
      · intro y hxy
        rcases ReflTransGen.cases_tail hxy with rfl | ⟨z, _, hz⟩
        · exact hx
        · exact hz.2
      · rintro ⟨y, hxy, hc⟩
        have hsub : step ≤ Refers ρ := fun _ _ h => h.1
        exact hring ⟨x, hl, y, ReflTransGen.mono hsub _ _ hxy, TransGen.mono hsub _ _ hc⟩
    have hbody : ∀ x, Terminates step x → ∀ b, ρ x = some b → Settles ρ b := by
      intro x hx
      induction hx with
      | intro x _ ih =>
        intro b hb
        refine settles_of_live fun y c hl hy => ?_
        exact ih y ⟨⟨b, hb, hl⟩, by simp [hy]⟩ c hy
    exact settles_of_live fun x b hl hx => hbody x (hstep x hl (by simp [hx])) b hx

/-- In a template with a value every reference has a value, in fewer look-ups. -/
theorem Evaluates.mem {n : ℕ} {t : Template ν α} {x : ν} {s : List α}
    (h : Evaluates ρ n t (.ok s)) (hx : .ref x ∈ t) :
    ∃ b m s', ρ x = some b ∧ m < n ∧ Evaluates ρ m b (.ok s') := by
  obtain ⟨u, v, rfl⟩ := List.append_of_mem hx
  rcases evaluates_append_iff.mp h with ⟨y, _, he⟩ | ⟨k, l, s₁, o', _, hv, rfl, ho⟩
  · cases he
  · rcases evaluates_ref_iff.mp hv with ⟨_, _, rfl⟩ | ⟨b, m, y, _, _, _, rfl⟩ |
      ⟨b, m, s', j, o₂, hb, hm, _, rfl, _⟩
    · cases ho
    · cases ho
    · exact ⟨b, m, s', hb, by omega, hm⟩

/-! ### Evaluation by recursion on the references -/

/-- The text of a template when `sub` gives the texts of its names. -/
def expandWith (sub : ν → Option (List α)) : Template ν α → Option (List α)
  | [] => some []
  | .lit a :: t => (expandWith sub t).map (a :: ·)
  | .ref x :: t => (sub x).bind fun s => (expandWith sub t).map (s ++ ·)

theorem expands_of_expandWith {sub : ν → Option (List α)}
    (hsub : ∀ x s, sub x = some s → ∃ b, ρ x = some b ∧ Expands ρ b s) {t : Template ν α}
    {s : List α} (h : expandWith sub t = some s) : Expands ρ t s := by
  induction t generalizing s with
  | nil =>
    obtain rfl : [] = s := by simpa [expandWith] using h
    exact ⟨0, .nil⟩
  | cons g t ih =>
    cases g with
    | lit a =>
      obtain ⟨s', hs, rfl⟩ := Option.map_eq_some_iff.mp h
      obtain ⟨n, ht⟩ := ih hs
      exact ⟨n, .lit ht⟩
    | ref x =>
      obtain ⟨s₁, hx, h⟩ := Option.bind_eq_some_iff.mp h
      obtain ⟨s₂, hs, rfl⟩ := Option.map_eq_some_iff.mp h
      obtain ⟨b, hb, m, hm⟩ := hsub x s₁ hx
      obtain ⟨n, ht⟩ := ih hs
      exact ⟨m + n + 1, .after hb hm ht⟩

theorem Expands.append {t u : Template ν α} {s s' : List α} (h : Expands ρ t s)
    (hu : Expands ρ u s') : Expands ρ (t ++ u) (s ++ s') := by
  obtain ⟨m, h⟩ := h
  obtain ⟨n, hu⟩ := hu
  exact ⟨m + n, h.append_ok hu⟩

theorem expands_ofText (s : List α) : Expands ρ (ofText s) s := ⟨0, evaluates_ofText s⟩

/-! ### Partly evaluated tables -/

/-- `t'` is `t` with some of its parts replaced by their values. -/
inductive Partial (ρ : Table ν α) : Template ν α → Template ν α → Prop
  | nil : Partial ρ [] []
  | seg {t t'} (g : Seg ν α) : Partial ρ t t' → Partial ρ (g :: t) (g :: t')
  | done {v s t t'} : Expands ρ v s → Partial ρ t t' → Partial ρ (v ++ t) (ofText s ++ t')

theorem Partial.refl (t : Template ν α) : Partial ρ t t := by
  induction t with
  | nil => exact .nil
  | cons g t ih => exact .seg g ih

theorem Partial.append {t t' u u' : Template ν α} (h : Partial ρ t t') (hu : Partial ρ u u') :
    Partial ρ (t ++ u) (t' ++ u') := by
  induction h with
  | nil => exact hu
  | seg g _ ih => exact .seg g ih
  | done hv _ ih => simpa using Partial.done hv ih

/-- `ρ'` defines the same names as `ρ`, with some parts of their templates evaluated. -/
def PartialTable (ρ ρ' : Table ν α) : Prop := ∀ x, Option.Rel (Partial ρ) (ρ x) (ρ' x)

theorem PartialTable.none_iff (h : PartialTable ρ ρ') {x : ν} : ρ x = none ↔ ρ' x = none := by
  cases hx : ρ x <;> cases hx' : ρ' x <;> have := h x <;> simp [hx, hx'] at this ⊢

theorem PartialTable.exists_of_some (h : PartialTable ρ ρ') {x : ν} {b : Template ν α}
    (hx : ρ x = some b) : ∃ b', ρ' x = some b' ∧ Partial ρ b b' := by
  have hrel := h x
  rw [hx] at hrel
  cases hx' : ρ' x with
  | none => simp [hx'] at hrel
  | some b' => exact ⟨b', rfl, by simpa [hx'] using hrel⟩

theorem PartialTable.exists_of_some' (h : PartialTable ρ ρ') {x : ν} {b' : Template ν α}
    (hx : ρ' x = some b') : ∃ b, ρ x = some b ∧ Partial ρ b b' := by
  cases hx' : ρ x with
  | none => simp [h.none_iff.mp hx'] at hx
  | some b =>
    obtain ⟨c, hc, hp⟩ := h.exists_of_some hx'
    obtain rfl : c = b' := Option.some.inj (hc.symm.trans hx)
    exact ⟨b, rfl, hp⟩

/-- One evaluation is taken over to another table if this can be done for the template of a name in
front, and for what follows it. -/
theorem Evaluates.cons_transfer {R : Template ν α → Template ν α → Prop}
    (hnone : ∀ x, ρ x = none → ρ' x = none)
    (hsome : ∀ x b, ρ x = some b → ∃ b', ρ' x = some b' ∧ R b b') {k : ℕ} {g : Seg ν α}
    {t t' : Template ν α} {o : Except ν (List α)} (h : Evaluates ρ k (g :: t) o)
    (hbody : ∀ i < k, ∀ b b' o, Evaluates ρ i b o → R b b' → ∃ m, Evaluates ρ' m b' o)
    (hrest : ∀ j ≤ k, ∀ o, Evaluates ρ j t o → ∃ m, Evaluates ρ' m t' o) :
    ∃ m, Evaluates ρ' m (g :: t') o := by
  cases g with
  | lit a =>
    obtain ⟨o', ht, rfl⟩ := evaluates_lit_iff.mp h
    obtain ⟨m, ht⟩ := hrest k le_rfl o' ht
    exact ⟨m, .lit ht⟩
  | ref x =>
    rcases evaluates_ref_iff.mp h with ⟨hx, rfl, rfl⟩ | ⟨b, i, y, hx, hb, rfl, rfl⟩ |
      ⟨b, i, s, j, o', hx, hb, ht, rfl, rfl⟩
    · exact ⟨0, .undefined (hnone x hx)⟩
    · obtain ⟨b', hx', hbb⟩ := hsome x b hx
      obtain ⟨m, hb'⟩ := hbody i (by omega) b b' _ hb hbb
      exact ⟨m + 1, .inside hx' hb'⟩
    · obtain ⟨b', hx', hbb⟩ := hsome x b hx
      obtain ⟨m, hb'⟩ := hbody i (by omega) b b' _ hb hbb
      obtain ⟨l, ht'⟩ := hrest j (by omega) o' ht
      exact ⟨m + l + 1, .after hx' hb' ht'⟩

theorem Evaluates.toPartial (hρ : PartialTable ρ ρ') {n : ℕ} {t t' : Template ν α}
    {o : Except ν (List α)} (h : Evaluates ρ n t o) (hp : Partial ρ t t') :
    ∃ m, Evaluates ρ' m t' o := by
  induction n using Nat.strong_induction_on generalizing t t' o with
  | _ n ih =>
    -- Inner induction on how `t'` arises; a look-up inside uses the outer hypothesis.
    have inner : ∀ k ≤ n, ∀ o, Evaluates ρ k t o → ∃ m, Evaluates ρ' m t' o := by
      clear h
      induction hp with
      | nil =>
        intro k _ o h
        obtain ⟨rfl, rfl⟩ := evaluates_nil_iff.mp h
        exact ⟨0, .nil⟩
      | @seg t t' g hp ihp =>
        intro k hk o h
        refine h.cons_transfer (fun x => hρ.none_iff.mp) (fun x b => hρ.exists_of_some) ?_ ?_
        · exact fun i hi b b' o hb hpb => ih i (by omega) hb hpb
        · exact fun j hj o ht => ihp j (by omega) o ht
      | @done v s t t' hv hp ihp =>
        intro k hk o h
        obtain ⟨i, hv⟩ := hv
        rcases evaluates_append_iff.mp h with ⟨y, he, _⟩ | ⟨i', j, s', o', hv', ht, rfl, rfl⟩
        · exact absurd (hv.unique he).2 (by simp)
        · obtain ⟨rfl, hs⟩ := hv.unique hv'
          cases hs
          obtain ⟨m, ht'⟩ := ihp j (by omega) o' ht
          exact ⟨0 + m, (evaluates_ofText s).append_ok ht'⟩
    exact inner n le_rfl o h

theorem Evaluates.ofPartial (hρ : PartialTable ρ ρ') {n : ℕ} {t t' : Template ν α}
    {o : Except ν (List α)} (h : Evaluates ρ' n t' o) (hp : Partial ρ t t') :
    ∃ m, Evaluates ρ m t o := by
  induction n using Nat.strong_induction_on generalizing t t' o with
  | _ n ih =>
    have inner : ∀ k ≤ n, ∀ o, Evaluates ρ' k t' o → ∃ m, Evaluates ρ m t o := by
      clear h
      induction hp with
      | nil =>
        intro k _ o h
        obtain ⟨rfl, rfl⟩ := evaluates_nil_iff.mp h
        exact ⟨0, .nil⟩
      | @seg t t' g hp ihp =>
        intro k hk o h
        refine h.cons_transfer (fun x => hρ.none_iff.mpr) (fun x b => hρ.exists_of_some') ?_ ?_
        · exact fun i hi b b' o hb hpb => ih i (by omega) hb hpb
        · exact fun j hj o ht => ihp j (by omega) o ht
      | @done v s t t' hv hp ihp =>
        intro k hk o h
        obtain ⟨i, hv⟩ := hv
        rcases evaluates_append_iff.mp h with ⟨y, he, _⟩ | ⟨i', j, s', o', hs, ht, rfl, rfl⟩
        · exact absurd ((evaluates_ofText s).unique he).2 (by simp)
        · cases ((evaluates_ofText s).unique hs).2
          obtain ⟨m, ht'⟩ := ihp j (by omega) o' ht
          exact ⟨i + m, hv.append_ok ht'⟩
    exact inner n le_rfl o h

/-- Evaluating parts of the table, and of the template, in advance changes nothing. -/
theorem evaluates_iff_of_partial (hρ : PartialTable ρ ρ') {t t' : Template ν α}
    (hp : Partial ρ t t') {o : Except ν (List α)} :
    (∃ n, Evaluates ρ n t o) ↔ ∃ n, Evaluates ρ' n t' o :=
  ⟨fun ⟨_, h⟩ => h.toPartial hρ hp, fun ⟨_, h⟩ => h.ofPartial hρ hp⟩

end Kubeka.Templates
