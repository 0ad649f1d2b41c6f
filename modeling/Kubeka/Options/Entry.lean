import Kubeka.Options.Dialogue

/-!
# The value of `-j`

`main` keeps a pointer to the value of `-j` while it asks for other options.
When that is an argument which begins with `-`, the queries may edit it.
-/

namespace Kubeka

open Scan Interaction

/-! ### What queries leave alone -/

/-- Queries leave the number of arguments, and every argument that does not begin with `-`. -/
structure Edited (argv argv' : List CStr) : Prop where
  length_eq : argv'.length = argv.length
  kept : ∀ (i : ℕ) (arg : CStr), argv[i]? = some arg → arg.head? ≠ some '-' → argv'[i]? = some arg

theorem Edited.refl (argv : List CStr) : Edited argv argv := ⟨rfl, fun _ _ h _ => h⟩

theorem Edited.trans {a b c : List CStr} (h : Edited a b) (h' : Edited b c) : Edited a c :=
  ⟨h'.length_eq.trans h.length_eq, fun i arg hi hne => h'.kept i arg (h.kept i arg hi hne) hne⟩

theorem edited_of_forall₂ {argv argv' : List CStr}
    (h : List.Forall₂ (fun arg arg' => arg.head? ≠ some '-' → arg' = arg) argv argv') :
    Edited argv argv' := by
  refine ⟨h.length_eq.symm, fun i arg hi hne => ?_⟩
  induction h generalizing i with
  | nil => simp at hi
  | @cons a a' l l' ha hl ih =>
    cases i with
    | zero =>
      obtain rfl := Option.some.inj hi
      exact congrArg some (ha hne)
    | succ i => exact ih i hi

/-- Only arguments that begin with `-` have something to give. -/
theorem edited_fromFirst {f : CStr → Option ((List CStr → CStr) × CStr)}
    (hf : ∀ arg, arg.head? ≠ some '-' → f arg = none) (argv : List CStr) :
    Edited argv (fromFirst (takeFirst f) argv).2 := by
  cases argv with
  | nil => exact Edited.refl []
  | cons prog args =>
    refine edited_of_forall₂ (.cons (fun _ => rfl) (forall₂_takeFirst (fun _ _ => rfl) ?_ args))
    intro arg value arg' harg hne
    rw [hf arg hne] at harg
    cases harg

theorem edited_optLong (argv : List CStr) (name : CStr) : Edited argv (optLong argv name).2 :=
  edited_fromFirst (fun _ => (Opt.long name).taken_of_head_ne) argv

theorem edited_optShort (argv : List CStr) (opt : Char) : Edited argv (optShort argv opt).2 :=
  edited_fromFirst (fun _ => shortTaken_of_ne) argv

theorem edited_all (argv : List CStr) (o : Opt) : Edited argv (o.all argv).2 := by
  cases argv with
  | nil => exact Edited.refl []
  | cons prog args =>
    refine edited_of_forall₂ (.cons (fun _ => rfl) (forall₂_takeAll (fun _ _ => rfl) ?_ args))
    intro arg value arg' harg hne
    rw [o.taken_of_head_ne hne] at harg
    cases harg

theorem edited_ask (argv : List CStr) (q : Question) : Edited argv (ask argv q).2 := by
  cases q with
  | flag lopt sopt => exact (edited_optLong argv lopt).trans (edited_optShort _ sopt)
  | all o => exact edited_all argv o
  | either sopt lopt =>
    have hshort := edited_optShort argv sopt
    simp only [ask, optEither]
    rcases hfound : optShort argv sopt with ⟨_ | value, argv₁⟩ <;> rw [hfound] at hshort
    · exact hshort.trans (edited_optLong argv₁ lopt)
    · exact hshort

theorem edited_play {α : Type} (m : Dialogue α) (argv : List CStr) :
    Edited argv (m.play ask argv).2 :=
  Prog.play_preserves (P := Edited argv) (fun _ q h => h.trans (edited_ask _ q)) m (Edited.refl argv)

/-! ### The place of the value -/

section

variable {opt : Char}

theorem nextPlace_cons_of_none {arg : CStr} (h : shortTaken opt arg = none) (args : List CStr) :
    nextPlace opt (arg :: args) = (nextPlace opt args).map (· + 1) := by
  have hcut : (shortLetters arg).bind (fun letters => strchr letters opt) = none := by
    rw [Option.bind_eq_none_iff]
    intro letters hletters
    have hmem := fun hmem => shortTaken_eq_none_iff.mp h ⟨letters, hletters, hmem⟩
    exact strchr_eq_none_iff.mpr hmem
  rw [nextPlace, hcut]

theorem nextPlace_append_of_none {pre : List CStr} (h : ∀ arg ∈ pre, shortTaken opt arg = none)
    (args : List CStr) :
    nextPlace opt (pre ++ args) = (nextPlace opt args).map (pre.length + ·) := by
  induction pre with
  | nil => simp
  | cons arg pre ih =>
    obtain ⟨harg, hpre⟩ := List.forall_mem_cons.mp h
    rw [List.cons_append, nextPlace_cons_of_none harg, ih hpre, Option.map_map]
    refine congrArg (fun g => (nextPlace opt args).map g) (funext fun i => ?_)
    simp only [Function.comp_apply, List.length_cons]
    omega

theorem nextPlace_of_none {args : List CStr} (h : ∀ arg ∈ args, shortTaken opt arg = none) :
    nextPlace opt args = none := by
  simpa [nextPlace] using nextPlace_append_of_none h []

/-- The value is the next argument, or stands behind the letter. -/
theorem nextPlace_cons_of_some {arg arg' : CStr} {value : List CStr → CStr}
    (h : shortTaken opt arg = some (value, arg')) :
    (EndsIn opt arg ∧ ∀ args, nextPlace opt (arg :: args) = some 1 ∧
      value args = args.head?.getD []) ∨ ∀ args, nextPlace opt (arg :: args) = none := by
  obtain ⟨front, back, hletters, hfront, hleft⟩ := shortTaken_eq_some h
  have hcut : strchr (front ++ opt :: back) opt = some (front, back) :=
    strchr_eq_some_iff.mpr ⟨rfl, hfront⟩
  have hbind : (shortLetters arg).bind (fun letters => strchr letters opt) = some (front, back) := by
    rw [hletters, Option.bind_some, hcut]
  rcases hleft with ⟨rfl, rfl, -⟩ | ⟨hback, -, -⟩
  · exact .inl ⟨⟨_, hletters, _, hcut, rfl⟩, fun args => ⟨by rw [nextPlace, hbind], rfl⟩⟩
  · refine .inr fun args => ?_
    cases back with
    | nil => exact absurd rfl hback
    | cons x back => rw [nextPlace, hbind]

theorem value_of_nextPlace {args : List CStr} {value : CStr} {i : ℕ}
    (h : (takeFirst (shortTaken opt) args).1 = some value) (hi : nextPlace opt args = some i) :
    args[i]?.getD [] = value := by
  induction args generalizing i with
  | nil => cases h
  | cons arg args ih =>
    cases harg : shortTaken opt arg with
    | none =>
      rw [takeFirst, harg] at h
      rw [nextPlace_cons_of_none harg] at hi
      obtain ⟨j, hj, rfl⟩ := Option.map_eq_some_iff.mp hi
      exact ih h hj
    | some r =>
      obtain ⟨taken, arg'⟩ := r
      rw [takeFirst, harg] at h
      obtain rfl := Option.some.inj h
      rcases nextPlace_cons_of_some harg with ⟨-, hends⟩ | hnext
      · obtain ⟨hnext, hvalue⟩ := hends args
        obtain rfl := Option.some.inj (hnext.symm.trans hi)
        rw [hvalue]
        cases args <;> rfl
      · rw [hnext] at hi
        cases hi

end

/-! ### The value in the end -/

section

variable {start argv : List CStr} {value : CStr}

theorem optShort_fst (argv : List CStr) (opt : Char) :
    (optShort argv opt).1 = (takeFirst (shortTaken opt) argv.tail).1 := by
  cases argv <;> rfl

theorem optEntry_of_none (h : (optShort start 'j').1 = none) : optEntry start argv value = value := by
  rw [optShort_fst] at h
  rw [optEntry, nextPlace_of_none (takeFirst_eq_none_iff.mp h)]
  rfl

/-- A value that does not begin with `-` stays as it is. -/
theorem optEntry_of_head_ne (hedit : Edited start argv) (h : (optShort start 'j').1 = some value)
    (hne : value.head? ≠ some '-') : optEntry start argv value = value := by
  rw [optShort_fst] at h
  rw [optEntry]
  cases hnext : nextPlace 'j' start.tail with
  | none => rfl
  | some i =>
    have hvalue := value_of_nextPlace h hnext
    rw [Option.bind_some]
    cases hi : start.tail[i]? with
    | none =>
      have hlen := hedit.length_eq
      have hargv : argv.tail[i]? = none := by
        rw [List.getElem?_eq_none_iff, List.length_tail] at hi ⊢
        omega
      rw [hargv]
      rfl
    | some arg =>
      rw [hi] at hvalue
      obtain rfl : arg = value := hvalue
      rw [List.getElem?_tail] at hi ⊢
      rw [hedit.kept _ _ hi hne]
      rfl

end

/-- With `-j -l`, the query for `-l` edits the name of the job. -/
example : (readOptions ⟨none, false⟩ ["kubeka".toList, "-j".toList, "-l".toList]).toOption.map
    (fun r => r.2.entry) = some (some "-_".toList) := by
  decide +kernel

end Kubeka
