import Kubeka.Options.Long

/-!
# The loops that store the values of an option

A loop takes from every argument that has the option, in one pass: no query
finds anything in what it has left of an argument, and what it leaves does not
depend on the other arguments.
-/

namespace Kubeka

open Scan

/-- An argument with short options has this letter. -/
def HasLetter (opt : Char) (arg : CStr) : Prop :=
  ∃ letters, shortLetters arg = some letters ∧ opt ∈ letters

/-- The letter stands at the end of an argument, so that its value is the next one. -/
def EndsIn (opt : Char) (arg : CStr) : Prop :=
  ∃ letters ∈ shortLetters arg, ∃ p ∈ strchr letters opt, p.2 = []

theorem strchr_eq_none_iff {s : CStr} {c : Char} : strchr s c = none ↔ c ∉ s := by
  rw [strchr, Text.cut_eq_none_iff, List.singleton_infix_iff]

theorem strchr_eq_some_iff {s front back : CStr} {c : Char} :
    strchr s c = some (front, back) ↔ s = front ++ c :: back ∧ c ∉ front :=
  Text.cut_singleton_eq_some_iff

theorem shortTaken_eq_none_iff {opt : Char} {arg : CStr} :
    shortTaken opt arg = none ↔ ¬ HasLetter opt arg := by
  unfold shortTaken HasLetter
  cases shortLetters arg with
  | none => simp
  | some letters =>
    cases hcut : strchr letters opt with
    | none => simpa [hcut] using strchr_eq_none_iff.mp hcut
    | some p =>
      obtain ⟨front, back⟩ := p
      have hmem : opt ∈ letters := by simp [(strchr_eq_some_iff.mp hcut).1]
      cases back <;> simp [hcut, hmem]

/-- What is left of an argument ends with `_` or is cut in front of the letter. -/
theorem shortTaken_eq_some {opt : Char} {arg arg' : CStr} {value : List CStr → CStr}
    (h : shortTaken opt arg = some (value, arg')) : ∃ front back,
      shortLetters arg = some (front ++ opt :: back) ∧ opt ∉ front ∧
      ((back = [] ∧ (value = fun next => next.head?.getD []) ∧ arg' = '-' :: (front ++ ['_'])) ∨
        (back ≠ [] ∧ (value = fun _ => back) ∧ arg' = '-' :: front)) := by
  unfold shortTaken at h
  split at h
  · simp at h
  · next letters hletters =>
    split at h
    · simp at h
    · next front hcut =>
      obtain ⟨rfl, hfront⟩ := strchr_eq_some_iff.mp hcut
      obtain ⟨rfl, rfl⟩ := Prod.mk.inj (Option.some.inj h)
      exact ⟨front, [], hletters, hfront, .inl ⟨rfl, rfl, rfl⟩⟩
    · next front back hne hcut =>
      obtain ⟨rfl, hfront⟩ := strchr_eq_some_iff.mp hcut
      obtain ⟨rfl, rfl⟩ := Prod.mk.inj (Option.some.inj h)
      exact ⟨front, back, hletters, hfront, .inr ⟨hne, rfl, rfl⟩⟩

theorem shortTaken_last {opt : Char} {arg front : CStr}
    (hletters : shortLetters arg = some (front ++ [opt])) (hfront : opt ∉ front) :
    shortTaken opt arg = some (fun next => next.head?.getD [], '-' :: (front ++ ['_'])) := by
  have hcut : strchr (front ++ [opt]) opt = some (front, []) := strchr_eq_some_iff.mpr ⟨rfl, hfront⟩
  simp only [shortTaken, hletters, hcut]

theorem shortTaken_cut {opt : Char} {arg front back : CStr}
    (hletters : shortLetters arg = some (front ++ opt :: back)) (hfront : opt ∉ front)
    (hback : back ≠ []) : shortTaken opt arg = some (fun _ => back, '-' :: front) := by
  have hcut : strchr (front ++ opt :: back) opt = some (front, back) :=
    strchr_eq_some_iff.mpr ⟨rfl, hfront⟩
  cases back with
  | nil => exact absurd rfl hback
  | cons x back => simp only [shortTaken, hletters, hcut]

theorem shortTaken_single {opt : Char} (hopt : opt ≠ '-') :
    shortTaken opt ['-', opt] = some (fun next => next.head?.getD [], ['-', '_']) := by
  have hletters : shortLetters ['-', opt] = some ([] ++ [opt]) :=
    shortLetters_eq_some_iff.mpr ⟨rfl, by simpa using hopt⟩
  exact shortTaken_last hletters (by simp)

theorem shortTaken_of_ne {opt : Char} {arg : CStr} (h : arg.head? ≠ some '-') :
    shortTaken opt arg = none := by
  rw [shortTaken_eq_none_iff]
  rintro ⟨letters, hletters, -⟩
  rw [(shortLetters_eq_some_iff.mp hletters).1] at h
  exact h rfl

theorem once_longTaken (name : CStr) : Once (longTaken name) := by
  intro arg value arg' h
  obtain ⟨v, -, hv⟩ := Option.map_eq_some_iff.mp h
  obtain ⟨-, rfl⟩ := Prod.mk.inj hv
  rfl

theorem once_shortTaken {opt : Char} (hopt : opt ≠ '_') : Once (shortTaken opt) := by
  intro arg value arg' h
  obtain ⟨front, back, -, hfront, hleft⟩ := shortTaken_eq_some h
  rw [shortTaken_eq_none_iff]
  rintro ⟨letters, hletters, hmem⟩
  obtain ⟨harg, -⟩ := shortLetters_eq_some_iff.mp hletters
  rcases hleft with ⟨-, -, rfl⟩ | ⟨-, -, rfl⟩
  · obtain rfl := (List.cons.inj harg).2
    simp [hopt, hfront] at hmem
  · obtain rfl := (List.cons.inj harg).2
    exact hfront hmem

/-! ### Loops -/

def Opt.taken : Opt → CStr → Option ((List CStr → CStr) × CStr)
  | .long name => longTaken name
  | .short letter _ => shortTaken letter

/-- The option is found in an argument. -/
def Opt.Finds (arg : CStr) : Opt → Prop
  | .long name => Resembles name arg
  | .short letter _ => HasLetter letter arg

theorem Opt.taken_eq_none_iff {o : Opt} {arg : CStr} : o.taken arg = none ↔ ¬ o.Finds arg := by
  cases o with
  | long name => exact Option.map_eq_none_iff.trans longValue_eq_none_iff
  | short letter h => exact shortTaken_eq_none_iff

theorem not_hasLetter_long (opt : Char) (name : CStr) : ¬ HasLetter opt ('-' :: '-' :: name) := by
  rintro ⟨letters, hletters, -⟩
  simp [shortLetters] at hletters

theorem not_resembles_short (name : CStr) {letters : CStr} (h : letters.head? ≠ some '-') :
    ¬ Resembles name ('-' :: letters) := by
  rintro ⟨text, heq, -⟩
  exact h (by rw [(List.cons.inj heq).2]; rfl)

/-- What does not begin with `-` is no option. -/
theorem Opt.taken_of_head_ne (o : Opt) {arg : CStr} (h : arg.head? ≠ some '-') :
    o.taken arg = none := by
  cases o with
  | long name =>
    rw [Opt.taken_eq_none_iff]
    rintro ⟨text, rfl, -⟩
    exact h rfl
  | short letter hletter => exact shortTaken_of_ne h

theorem not_hasLetter_single {a b : Char} (h : a ≠ b) : ¬ HasLetter a ['-', b] := by
  rintro ⟨letters, hletters, hmem⟩
  obtain rfl := (List.cons.inj (shortLetters_eq_some_iff.mp hletters).1).2
  exact h (List.mem_singleton.mp hmem)

/-- The mark of a letter that was taken is no option. -/
theorem Opt.taken_mark (o : Opt) : o.taken ['-', '_'] = none := by
  rw [o.taken_eq_none_iff]
  cases o with
  | long name => exact not_resembles_short name (by decide)
  | short letter hletter => exact not_hasLetter_single hletter

theorem Opt.once (o : Opt) : Once o.taken := by
  cases o with
  | long name => exact once_longTaken name
  | short letter h => exact once_shortTaken h

theorem Opt.ask_eq (o : Opt) (argv : List CStr) : o.ask argv = fromFirst (takeFirst o.taken) argv := by
  cases o <;> rfl

/-- All values that a loop finds, and the vector it leaves. -/
def Opt.all (o : Opt) : List CStr → List CStr × List CStr
  | [] => ([], [])
  | prog :: args => ((takeAll o.taken args).1, prog :: (takeAll o.taken args).2)

theorem Opt.all_cons (o : Opt) (prog : CStr) (args : List CStr) :
    o.all (prog :: args) = ((takeAll o.taken args).1, prog :: (takeAll o.taken args).2) := rfl

section

variable {null : NullArgs} {o : Opt} {stored : CStr → Option CStr} {paths : Paths}
  {argv : List CStr}

theorem storeAll_of_none (h : (o.ask argv).1 = none) :
    storeAll null o stored paths argv = .ok (paths, (o.ask argv).2) := by
  rw [storeAll]
  split
  · rfl
  · next hsome => simp [h] at hsome

theorem storeAll_of_some {value : CStr} (h : (o.ask argv).1 = some value) :
    storeAll null o stored paths argv = (insTail null paths (stored value)).bind fun paths =>
      storeAll null o stored paths (o.ask argv).2 := by
  rw [storeAll]
  split
  · next hnone => simp [h] at hnone
  · next v hsome =>
    obtain rfl := Option.some.inj (h.symm.trans hsome)
    cases insTail null paths (stored value) <;> rfl

end

/-- A loop stores all values, unless it comes to one that cannot be stored. -/
theorem storeAll_eq (null : NullArgs) (o : Opt) (stored : CStr → Option CStr) (paths : Paths)
    (argv : List CStr) : storeAll null o stored paths argv =
      if null.insTail = false ∧ none ∈ (o.all argv).1.map stored then .error .storing
      else .ok (paths ++ (o.all argv).1.map stored, (o.all argv).2) := by
  cases argv with
  | nil =>
    have hask : o.ask [] = (none, []) := o.ask_eq []
    rw [storeAll_of_none (by rw [hask])]
    simp [Opt.all, hask]
  | cons prog args =>
    rw [Opt.all]
    generalize hvalues : (takeAll o.taken args).1 = values
    induction values generalizing args paths with
    | nil =>
      have hnone := takeAll_eq_nil_iff.mp hvalues
      have hask : o.ask (prog :: args) = (none, prog :: args) := by
        rw [o.ask_eq, fromFirst, takeFirst_of_none hnone]
      rw [storeAll_of_none (by rw [hask]), hask, takeAll_of_none hnone]
      simp
    | cons value values ih =>
      obtain ⟨hfirst, hall⟩ := takeFirst_of_cons o.once hvalues
      have hask : o.ask (prog :: args) = (some value, prog :: (takeFirst o.taken args).2) := by
        rw [o.ask_eq, fromFirst, hfirst]
      have hrest := fun paths => ih paths (takeFirst o.taken args).2 (by rw [hall])
      rw [storeAll_of_some (by rw [hask]), hask, insTail]
      by_cases hnone : stored value = none ∧ null.insTail = false
      · rw [if_pos hnone, if_pos ⟨hnone.2, by simp [hnone.1]⟩]
        rfl
      · have hmem : (null.insTail = false ∧ none ∈ (value :: values).map stored) ↔
            null.insTail = false ∧ none ∈ values.map stored := by
          rw [List.map_cons, List.mem_cons]
          tauto
        rw [if_neg hnone, if_congr hmem rfl rfl, Except.bind, hrest, hall, List.append_assoc]
        rfl

theorem storeAll_some (null : NullArgs) (o : Opt) (paths : Paths) (argv : List CStr) :
    storeAll null o some paths argv = .ok (paths ++ (o.all argv).1.map some, (o.all argv).2) := by
  rw [storeAll_eq, if_neg (by simp)]

end Kubeka
