import Kubeka.Model.Options

/-!
# Which arguments `opt_long` takes

An argument spells a long option when behind `--` there is its name, alone or
with `=` behind it. `opt_long` compares the two names only as far as the
shorter one goes, so it takes every argument whose text begins with the name or
is a beginning of it.
-/

namespace Kubeka

open Scan

/-- `--name`, `--name=` or `--name=value` -/
def Spells (name arg : CStr) : Prop :=
  arg = '-' :: '-' :: name ∨ '-' :: '-' :: (name ++ ['=']) <+: arg

instance (name arg : CStr) : Decidable (Spells name arg) := inferInstanceAs (Decidable (_ ∨ _))

/-- `--` and a text that agrees with the name as far as the shorter one goes -/
def Resembles (name arg : CStr) : Prop :=
  ∃ text, arg = '-' :: '-' :: text ∧ (text <+: name ∨ name <+: text)

/-- The text behind the first `=`. -/
def valueOf (arg : CStr) : CStr := ((strchr arg '=').map Prod.snd).getD []

/-- The vector after `opt_long` has been called `k` times. -/
def afterCalls (name : CStr) (k : ℕ) (argv : List CStr) : List CStr :=
  (fun argv => (optLong argv name).2)^[k] argv

/-- The first `k` arguments that spell the option are emptied. -/
def emptied (name : CStr) : ℕ → List CStr → List CStr
  | _, [] => []
  | 0, args => args
  | k + 1, arg :: args =>
    if Spells name arg then [] :: emptied name k args else arg :: emptied name (k + 1) args

/-- Repeated calls give the values of the arguments that spell the option, in their order, and then
NULL. The other arguments are left, and the long options among them are reported. -/
structure MatchesExactly (name : CStr) (argv : List CStr) : Prop where
  answers : ∀ k, (optLong (afterCalls name k argv) name).1 =
    ((argv.tail.filter (Spells name)).map valueOf)[k]?
  left : ∀ k, afterCalls name k argv = argv.take 1 ++ emptied name k argv.tail
  reported : ∀ k, (argv.tail.filter fun arg => ['-', '-'] <+: arg ∧ ¬ Spells name arg).Sublist
    (optUnrecognised (afterCalls name k argv))

/-! ### The comparison -/

theorem take_eq_take_iff {s t : CStr} {n : ℕ}
    (hn : n = if s.length < t.length then s.length else t.length) :
    s.take n = t.take n ↔ s <+: t ∨ t <+: s := by
  subst hn
  split_ifs with hlt
  · rw [List.take_length, ← List.prefix_iff_eq_take]
    exact (or_iff_left fun h => absurd h.length_le (by omega)).symm
  · rw [List.take_length, eq_comm, ← List.prefix_iff_eq_take]
    constructor
    · exact .inr
    · rintro (h | h)
      · exact (h.eq_of_length_le (by omega)) ▸ List.prefix_rfl
      · exact h

theorem valueOf_long (text : CStr) :
    valueOf ('-' :: '-' :: text) = ((strchr text '=').map Prod.snd).getD [] := by
  have hskip (s : CStr) : strchr ('-' :: s) '=' = (strchr s '=').map fun p => ('-' :: p.1, p.2) :=
    Text.cut_cons (by simp)
  rw [valueOf, hskip, hskip, Option.map_map, Option.map_map]
  rfl

theorem longValue_eq_some_iff {name arg value : CStr} :
    longValue name arg = some value ↔ Resembles name arg ∧ value = valueOf arg := by
  unfold longValue
  split
  · next text =>
    have hres : Resembles name ('-' :: '-' :: text) ↔ (text <+: name ∨ name <+: text) := by
      simp [Resembles]
    simp only [take_eq_take_iff rfl, hres, valueOf_long]
    split_ifs with h
    · cases hcut : strchr text '=' <;> simp [h, eq_comm]
    · simp [h]
  · next hlong =>
    refine iff_of_false (by simp) ?_
    rintro ⟨⟨text, rfl, -⟩, -⟩
    exact hlong text rfl

theorem longValue_eq_none_iff {name arg : CStr} : longValue name arg = none ↔ ¬ Resembles name arg := by
  constructor
  · intro h hres
    have hsome := longValue_eq_some_iff.mpr ⟨hres, rfl⟩
    simp [h] at hsome
  · intro h
    by_contra hne
    obtain ⟨value, hvalue⟩ := Option.ne_none_iff_exists'.mp hne
    exact h (longValue_eq_some_iff.mp hvalue).1

theorem Spells.resembles {name arg : CStr} (h : Spells name arg) : Resembles name arg := by
  rcases h with rfl | ⟨value, rfl⟩
  · exact ⟨name, rfl, .inl List.prefix_rfl⟩
  · exact ⟨name ++ '=' :: value, by simp, .inr (List.prefix_append _ _)⟩

/-! ### Repeated calls -/

theorem emptied_zero (name : CStr) (args : List CStr) : emptied name 0 args = args := by
  cases args <;> rfl

theorem mem_emptied {name arg : CStr} {args : List CStr} (h : ¬ Spells name arg) (k : ℕ)
    (harg : arg ∈ args) : arg ∈ emptied name k args := by
  induction args generalizing k with
  | nil => exact harg
  | cons a args ih =>
    cases k with
    | zero => exact harg
    | succ k =>
      rw [emptied]
      rcases List.mem_cons.mp harg with rfl | harg
      · rw [if_neg h]
        exact List.mem_cons_self
      · split_ifs
        · exact List.mem_cons_of_mem _ (ih k harg)
        · exact List.mem_cons_of_mem _ (ih (k + 1) harg)

/-- Long options that are left are reported, each of them once. -/
theorem filter_sublist_unrecognised (name : CStr) (k : ℕ) (args : List CStr) :
    (args.filter fun arg => ['-', '-'] <+: arg ∧ ¬ Spells name arg).Sublist
      ((emptied name k args).flatMap unrecognised) := by
  induction args generalizing k with
  | nil => exact List.nil_sublist _
  | cons arg args ih =>
    have hstep : ∃ a' k', emptied name k (arg :: args) = a' :: emptied name k' args ∧
        (a' = arg ∨ Spells name arg) := by
      cases k with
      | zero => exact ⟨arg, 0, by rw [emptied_zero, emptied_zero], .inl rfl⟩
      | succ k =>
        rw [emptied]
        split_ifs with hsp
        · exact ⟨[], k, rfl, .inr hsp⟩
        · exact ⟨arg, k + 1, rfl, .inl rfl⟩
    obtain ⟨a', k', heq, ha'⟩ := hstep
    rw [heq, List.flatMap_cons]
    by_cases hkept : ['-', '-'] <+: arg ∧ ¬ Spells name arg
    · obtain rfl := ha'.resolve_right hkept.2
      obtain ⟨text, rfl⟩ := hkept.1
      rw [List.filter_cons_of_pos (by simpa using hkept.2)]
      exact (ih k').cons_cons _
    · rw [List.filter_cons_of_neg (by simpa using hkept)]
      exact (ih k').trans (List.sublist_append_right _ _)

/-- A call, when the first `k` have been emptied and only spelled options resemble the name. -/
theorem takeFirst_emptied {name : CStr} {args : List CStr}
    (h : ∀ arg ∈ args, Resembles name arg → Spells name arg) (k : ℕ) :
    takeFirst (longTaken name) (emptied name k args) =
      (((args.filter (Spells name)).map valueOf)[k]?, emptied name (k + 1) args) := by
  induction args generalizing k with
  | nil => rfl
  | cons arg args ih =>
    obtain ⟨harg, hargs⟩ := List.forall_mem_cons.mp h
    by_cases hsp : Spells name arg
    · have hvalue : longValue name arg = some (valueOf arg) :=
        longValue_eq_some_iff.mpr ⟨hsp.resembles, rfl⟩
      cases k with
      | zero => simp [emptied, takeFirst, longTaken, hvalue, hsp, emptied_zero]
      | succ k =>
        have hempty : longTaken name [] = none := rfl
        simp [emptied, takeFirst, hempty, hsp, ih hargs]
    · have hnone : longValue name arg = none := longValue_eq_none_iff.mpr (mt harg hsp)
      have hskip : emptied name k (arg :: args) = arg :: emptied name k args := by
        cases k <;> simp [emptied, hsp, emptied_zero]
      rw [hskip, takeFirst, longTaken, hnone, ih hargs k]
      simp [emptied, hsp]

theorem afterCalls_eq {name prog : CStr} {args : List CStr}
    (h : ∀ arg ∈ args, Resembles name arg → Spells name arg) (k : ℕ) :
    afterCalls name k (prog :: args) = prog :: emptied name k args := by
  induction k with
  | zero => rw [emptied_zero]; rfl
  | succ k ih =>
    rw [afterCalls, Function.iterate_succ_apply', ← afterCalls, ih, optLong, fromFirst,
      takeFirst_emptied h]

theorem matchesExactly_of_spells {name : CStr} {argv : List CStr}
    (h : ∀ arg ∈ argv.tail, Resembles name arg → Spells name arg) : MatchesExactly name argv := by
  cases argv with
  | nil =>
    have hafter (k : ℕ) : afterCalls name k [] = [] := Function.iterate_fixed rfl k
    exact ⟨fun k => by simp [hafter, optLong, fromFirst], fun k => by simp [hafter, emptied],
      by simp⟩
  | cons prog args =>
    have hafter (k : ℕ) : afterCalls name k (prog :: args) = prog :: emptied name k args :=
      afterCalls_eq h k
    refine ⟨fun k => ?_, hafter, fun k => ?_⟩
    · rw [hafter, optLong, fromFirst]
      exact congrArg Prod.fst (takeFirst_emptied h k)
    · rw [hafter, optUnrecognised, List.flatMap_cons]
      exact (filter_sublist_unrecognised name k args).trans (List.sublist_append_right _ _)

/-- Long options are matched exactly when nothing else resembles the name. -/
theorem optLong_matchesExactly_iff (name : CStr) (argv : List CStr) :
    MatchesExactly name argv ↔ ∀ arg ∈ argv.tail, Resembles name arg → Spells name arg := by
  refine ⟨fun h arg harg hres => ?_, matchesExactly_of_spells⟩
  by_contra hsp
  obtain ⟨prog, args, rfl⟩ : ∃ prog args, argv = prog :: args := by
    cases argv with
    | nil => simp at harg
    | cons prog args => exact ⟨prog, args, rfl⟩
  -- when all that spell the option have been found, the next call finds this argument
  have hend := h.answers (((prog :: args).tail.filter (Spells name)).map valueOf).length
  rw [h.left, List.getElem?_eq_none le_rfl] at hend
  have hnone := takeFirst_eq_none_iff.mp hend arg (mem_emptied hsp _ harg)
  rw [longTaken, Option.map_eq_none_iff, longValue_eq_none_iff] at hnone
  exact hnone hres

/-- A misspelled option is taken for `--path`. -/
theorem pathology_not_matchesExactly :
    (optLong ["kubeka".toList, "--pathology=x".toList] "path".toList).1 = some "x".toList ∧
    ¬ MatchesExactly "path".toList ["kubeka".toList, "--pathology=x".toList] := by
  refine ⟨by decide, fun h => ?_⟩
  have hfirst := h.answers 0
  exact absurd hfirst (by decide)

end Kubeka
