import Kubeka.Options.Entry
import Kubeka.Options.Groups

/-!
# Separate and grouped short options

The arguments of `main` with options in arguments of their own are compared
with those where they are grouped in one argument. The group is read like the
separate options as long as its letters are asked for from the end, and what is
asked for is not found in a value.
-/

namespace Kubeka

open Scan Interaction

/-- `-x -y -z foo`: options without a value, and at the end perhaps one with a value. -/
structure ShortOptions where
  flags : List Char
  value : Option (Char × CStr)
  flags_ne : ∀ x ∈ flags, x ∉ valueLetters ∧ x ≠ '-'
  value_ne : ∀ v ∈ value, v.1 ∈ valueLetters ∧ v.2 ≠ [] ∧ v.2.head? ≠ some '-'

def ShortOptions.separate (s : ShortOptions) : List CStr :=
  s.flags.map (fun x => ['-', x]) ++
    match s.value with
    | none => []
    | some (z, foo) => [['-', z], foo]

/-- The grouped spellings: `-xy`, and with a value `-xyz foo` or `-xyzfoo`. -/
inductive ShortOptions.Grouped (s : ShortOptions) : List CStr → Prop where
  | flags {ys} : s.value = none → ys.Perm s.flags → s.Grouped ['-' :: ys]
  | next {ys z foo} : s.value = some (z, foo) → ys.Perm s.flags →
      s.Grouped ['-' :: (ys ++ [z]), foo]
  | attached {ys z foo} : s.value = some (z, foo) → ys.Perm s.flags →
      s.Grouped ['-' :: (ys ++ z :: foo)]

/-! ### What a query needs -/

/-- The query does not find the letter before the argument `k`. -/
def PassesTo (k : ℕ) (opt : Char) (argv : List CStr) : Prop :=
  ∀ arg ∈ argv.tail.take k, ¬ HasLetter opt arg

/-- The argument `k` is tidy for a query of the letter. -/
def TidyAt (k : ℕ) (opt : Char) (argv : List CStr) : Prop :=
  ∀ arg ∈ argv.tail[k]?, ∀ letters ∈ shortLetters arg, Tidy opt letters

/-- The argument `k` is not the value of the one before. -/
def NotValueAt (k : ℕ) (opt : Char) (argv : List CStr) : Prop :=
  ∀ arg ∈ (argv.tail.take k).getLast?, ¬ EndsIn opt arg

/-- The queries for this question leave the group at the place `k` as they should. -/
def Question.Keeps (k : ℕ) (argv : List CStr) : Question → Prop
  | .flag lopt sopt =>
    PassesTo k sopt (optLong argv lopt).2 → TidyAt k sopt (optLong argv lopt).2
  | .all (.long _) => True
  | .all (.short letter _) => TidyAt k letter argv ∧ NotValueAt k letter argv
  | .either sopt _ => (PassesTo k sopt argv → TidyAt k sopt argv) ∧
    (PassesTo (k - 1) sopt argv → NotValueAt k sopt argv)

section

variable (k : ℕ) (opt : Char)

instance (arg : CStr) : Decidable (EndsIn opt arg) :=
  inferInstanceAs (Decidable (∃ letters ∈ shortLetters arg, _))

instance (argv : List CStr) : Decidable (PassesTo k opt argv) :=
  inferInstanceAs (Decidable (∀ arg ∈ argv.tail.take k, _))

instance (argv : List CStr) : Decidable (TidyAt k opt argv) :=
  inferInstanceAs (Decidable (∀ arg ∈ argv.tail[k]?, _))

instance (argv : List CStr) : Decidable (NotValueAt k opt argv) :=
  inferInstanceAs (Decidable (∀ arg ∈ (argv.tail.take k).getLast?, _))

end

instance (k : ℕ) (argv : List CStr) : DecidablePred (Question.Keeps k argv)
  | .flag _ _ => inferInstanceAs (Decidable (_ → _))
  | .all (.long _) => inferInstanceAs (Decidable True)
  | .all (.short _ _) => inferInstanceAs (Decidable (_ ∧ _))
  | .either _ _ => inferInstanceAs (Decidable (_ ∧ _))

/-- Two vectors that differ in the spelling of the options between the first `k` arguments and the
last `n`. -/
def Related (k n : ℕ) (argv argv' : List CStr) : Prop :=
  ∃ prog pre sep group post, pre.length = k ∧ post.length = n ∧ SameOptions sep group ∧
    argv = prog :: (pre ++ (sep ++ post)) ∧ argv' = prog :: (pre ++ (group ++ post))

/-! ### A query of both vectors -/

section

variable {k n : ℕ} {opt : Char}

theorem TidyAt.head {prog : CStr} {pre group post : List CStr} (hk : pre.length = k)
    (h : TidyAt k opt (prog :: (pre ++ (group ++ post)))) :
    ∀ arg ∈ group.head?, ∀ letters ∈ shortLetters arg, Tidy opt letters := by
  intro arg harg
  refine h arg ?_
  cases group with
  | nil => simp at harg
  | cons g group =>
    subst hk
    simpa using harg

theorem passesTo_iff {prog : CStr} {pre rest : List CStr} (hk : pre.length = k) :
    PassesTo k opt (prog :: (pre ++ rest)) ↔ ∀ arg ∈ pre, shortTaken opt arg = none := by
  simp only [PassesTo, List.tail_cons, List.take_left' hk, shortTaken_eq_none_iff]

/-- The value does not depend on what comes after the next argument. -/
theorem shortTaken_next {arg arg' : CStr} {value : List CStr → CStr}
    (h : shortTaken opt arg = some (value, arg')) (x : CStr) (l l' : List CStr) :
    value (x :: l) = value (x :: l') := by
  obtain ⟨-, -, -, -, ⟨-, rfl, -⟩ | ⟨-, rfl, -⟩⟩ := shortTaken_eq_some h <;> rfl

/-- Nor on the next argument, when the letter does not end this one. -/
theorem shortTaken_of_not_endsIn {arg arg' : CStr} {value : List CStr → CStr}
    (h : shortTaken opt arg = some (value, arg')) (hends : ¬ EndsIn opt arg) (l l' : List CStr) :
    value l = value l' := by
  obtain ⟨front, back, hletters, hfront, ⟨rfl, -, -⟩ | ⟨-, rfl, -⟩⟩ := shortTaken_eq_some h
  · exact absurd ⟨_, hletters, _, strchr_eq_some_iff.mpr ⟨rfl, hfront⟩, rfl⟩ hends
  · rfl

/-- The last argument in front of the group is not followed by its value. -/
theorem not_endsIn_last {prog arg : CStr} {front rest : List CStr} (hk : (front ++ [arg]).length = k)
    (hfront : ∀ x ∈ front, shortTaken opt x = none)
    (hnot : PassesTo (k - 1) opt (prog :: ((front ++ [arg]) ++ rest)) →
      NotValueAt k opt (prog :: ((front ++ [arg]) ++ rest))) : ¬ EndsIn opt arg := by
  have hk' : k = front.length + 1 := by simpa using hk.symm
  have hpass : PassesTo (k - 1) opt (prog :: ((front ++ [arg]) ++ rest)) := by
    rw [List.append_assoc, passesTo_iff (by omega)]
    exact hfront
  refine hnot hpass arg ?_
  rw [List.tail_cons, List.take_left' hk]
  simp

theorem optShort_cons (prog : CStr) (args : List CStr) : optShort (prog :: args) opt =
    ((takeFirst (shortTaken opt) args).1, prog :: (takeFirst (shortTaken opt) args).2) := rfl

theorem Related.optShort {argv argv' : List CStr} (h : Related k n argv argv') (hmark : opt ≠ '_')
    (htidy : PassesTo k opt argv' → TidyAt k opt argv') :
    (Kubeka.optShort argv opt).1.isSome = (Kubeka.optShort argv' opt).1.isSome ∧
      Related k n (Kubeka.optShort argv opt).2 (Kubeka.optShort argv' opt).2 ∧
      (opt ∈ valueLetters → (PassesTo (k - 1) opt argv' → NotValueAt k opt argv') →
        (Kubeka.optShort argv opt).1 = (Kubeka.optShort argv' opt).1) := by
  obtain ⟨prog, pre, sep, group, post, hk, hn, hsame, rfl, rfl⟩ := h
  rw [optShort_cons, optShort_cons]
  rcases takeFirst_append_cases (shortTaken opt) pre with
    hpre | ⟨front, arg, rest, value, arg', rfl, hfront, harg, htake⟩
  · rcases hsame.found hmark ((htidy ((passesTo_iff hk).mpr hpre)).head hk) with
      ⟨hsep, hgroup⟩ | ⟨⟨front, back, arg, arg', rest, value, rfl, rfl, hfront, harg, hleft, hv⟩, hne⟩
    · rw [takeFirst_append_of_none hpre, takeFirst_append_of_none hsep,
        takeFirst_append_of_none hpre, takeFirst_append_of_none hgroup]
      have hn' := (length_takeFirst_snd (f := shortTaken opt) post).trans hn
      exact ⟨rfl, ⟨prog, pre, sep, group, _, hk, hn', hsame, rfl, rfl⟩, fun _ _ => rfl⟩
    · rw [takeFirst_append_of_none hpre, List.append_assoc, takeFirst_append_of_none hfront,
        takeFirst_append_of_none hpre, List.cons_append, takeFirst, shortTaken_single hne,
        List.cons_append, takeFirst, harg]
      refine ⟨rfl, ⟨prog, pre, _, _, post, hk, hn, hleft, by simp, rfl⟩, fun hvalue _ => ?_⟩
      obtain ⟨foo, rfl, -, -, hfoo⟩ := hv hvalue
      simp [hfoo]
  · rw [htake, htake]
    have hk' : (front ++ arg' :: rest).length = k := by simpa using hk
    refine ⟨rfl, ⟨prog, _, sep, group, post, hk', hn, hsame, rfl, rfl⟩, fun _ hnot => ?_⟩
    cases rest with
    | cons x rest => exact congrArg some (shortTaken_next harg x _ _)
    | nil =>
      have hends := not_endsIn_last hk hfront hnot
      exact congrArg some (shortTaken_of_not_endsIn harg hends _ _)

/-- What a long option gives does not depend on the arguments behind it. -/
theorem longTaken_const {name arg arg' : CStr} {value : List CStr → CStr}
    (h : longTaken name arg = some (value, arg')) (l l' : List CStr) : value l = value l' := by
  obtain ⟨v, -, hv⟩ := Option.map_eq_some_iff.mp h
  obtain ⟨rfl, -⟩ := Prod.mk.inj hv
  rfl

theorem Related.optLong {argv argv' : List CStr} (h : Related k n argv argv')
    (name : CStr) : (Kubeka.optLong argv name).1 = (Kubeka.optLong argv' name).1 ∧
      Related k n (Kubeka.optLong argv name).2 (Kubeka.optLong argv' name).2 := by
  obtain ⟨prog, pre, sep, group, post, hk, hn, hsame, rfl, rfl⟩ := h
  obtain ⟨hsep, hgroup⟩ := hsame.longTaken_none name
  simp only [Kubeka.optLong, fromFirst]
  rcases takeFirst_append_cases (longTaken name) pre with
    hpre | ⟨front, arg, rest, value, arg', rfl, hfront, harg, htake⟩
  · rw [takeFirst_append_of_none hpre, takeFirst_append_of_none hsep,
      takeFirst_append_of_none hpre, takeFirst_append_of_none hgroup]
    have hn' := (length_takeFirst_snd (f := longTaken name) post).trans hn
    exact ⟨rfl, prog, pre, sep, group, _, hk, hn', hsame, rfl, rfl⟩
  · rw [htake, htake]
    have hk' : (front ++ arg' :: rest).length = k := by simpa using hk
    exact ⟨congrArg some (longTaken_const harg _ _), prog, _, sep, group, post, hk', hn, hsame,
      rfl, rfl⟩

/-- A pass over either of the spellings gives the same values, and leaves the same options. -/
def SamePass (o : Opt) (post sep group : List CStr) : Prop :=
  ∃ values sep' group', SameOptions sep' group' ∧
    takeAll o.taken (sep ++ post) =
      (values ++ (takeAll o.taken post).1, sep' ++ (takeAll o.taken post).2) ∧
    takeAll o.taken (group ++ post) =
      (values ++ (takeAll o.taken post).1, group' ++ (takeAll o.taken post).2)

/-- One pass over both vectors. -/
theorem SamePass.related {prog : CStr} {pre sep group post : List CStr} {o : Opt}
    (h : SamePass o post sep group) (hk : pre.length = k) (hn : post.length = n)
    (hlast : ∀ arg ∈ pre.getLast?, ∀ value arg', o.taken arg = some (value, arg') →
      ∀ l l', value l = value l') :
    (o.all (prog :: (pre ++ (sep ++ post)))).1 = (o.all (prog :: (pre ++ (group ++ post)))).1 ∧
      Related k n (o.all (prog :: (pre ++ (sep ++ post)))).2
        (o.all (prog :: (pre ++ (group ++ post)))).2 := by
  have hnext : ∀ arg value arg', o.taken arg = some (value, arg') →
      ∀ x l l', value (x :: l) = value (x :: l') := by
    intro arg value arg' harg x l l'
    cases o with
    | long name => exact longTaken_const harg _ _
    | short letter hletter => exact shortTaken_next harg x l l'
  obtain ⟨given, hpre⟩ := takeAll_append hnext hlast
  obtain ⟨values, sep', group', hsame, hsep, hgroup⟩ := h
  rw [Opt.all_cons, Opt.all_cons, hpre, hpre, hsep, hgroup]
  have hn' : (takeAll o.taken post).2.length = n := by rw [takeAll_snd, List.length_map, hn]
  exact ⟨rfl, prog, _, sep', group', _, by simpa using hk, hn', hsame, rfl, rfl⟩

theorem SameOptions.samePass {sep group : List CStr} (h : SameOptions sep group) (o : Opt)
    (hsep : ∀ arg ∈ sep, o.taken arg = none) (hgroup : ∀ arg ∈ group, o.taken arg = none)
    (post : List CStr) : SamePass o post sep group :=
  ⟨[], sep, group, h, takeAll_append_of_none hsep post, takeAll_append_of_none hgroup post⟩

theorem FoundInBoth.samePass {sep group : List CStr} {hmark : opt ≠ '_'}
    (h : FoundInBoth opt sep group) (hopt : opt ∈ valueLetters) (post : List CStr) :
    SamePass (.short opt hmark) post sep group := by
  obtain ⟨⟨front, back, arg, arg', rest, value, rfl, rfl, hfront, harg, hleft, hv⟩, hne⟩ := h
  obtain ⟨foo, rfl, hfoo, hrest, hvalue⟩ := hv hopt
  have hnone : shortTaken opt foo = none := shortTaken_of_ne hfoo
  refine ⟨[foo], _, _, hleft, ?_, ?_⟩
  · rw [List.append_assoc, Opt.taken, takeAll_append_of_none hfront, List.cons_append, takeAll,
      shortTaken_single hne, List.singleton_append, takeAll, hnone]
    simp
  · rw [Opt.taken, List.cons_append, takeAll, harg, takeAll_append_of_none hrest]
    simp [hvalue]

theorem Related.all {argv argv' : List CStr} (h : Related k n argv argv') {o : Opt}
    (ho : ∀ letter hletter, o = .short letter hletter → letter ∈ valueLetters)
    (hkeeps : (Question.all o).Keeps k argv') :
    (o.all argv).1 = (o.all argv').1 ∧ Related k n (o.all argv).2 (o.all argv').2 := by
  obtain ⟨prog, pre, sep, group, post, hk, hn, hsame, rfl, rfl⟩ := h
  cases o with
  | long name =>
    obtain ⟨hsep, hgroup⟩ := hsame.longTaken_none name
    have hpass := hsame.samePass (.long name) hsep hgroup post
    exact hpass.related hk hn fun arg _ value arg' harg => longTaken_const harg
  | short letter hletter =>
    obtain ⟨htidy, hnot⟩ := hkeeps
    have hpass : SamePass (.short letter hletter) post sep group := by
      rcases hsame.found hletter (htidy.head hk) with ⟨hsep, hgroup⟩ | hfound
      · exact hsame.samePass (.short letter hletter) hsep hgroup post
      · exact hfound.samePass (ho letter hletter rfl) post
    refine hpass.related hk hn fun arg harg value arg' htaken => ?_
    refine shortTaken_of_not_endsIn htaken (hnot arg ?_)
    rwa [List.tail_cons, List.take_left' hk]

end

/-! ### The questions of `main` -/

/-- Loops and `-j` are for options with a value. -/
def Question.Proper : Question → Prop
  | .flag _ sopt => sopt ≠ '_'
  | .all (.long _) => True
  | .all (.short letter _) => letter ∈ valueLetters
  | .either sopt _ => sopt ∈ valueLetters

theorem modeDialogue_proper : modeDialogue.Asks Question.Proper := by
  refine ⟨(by decide : 'j' ∈ valueLetters), fun entry =>
    ⟨(by decide : 'j' ∈ valueLetters), fun again => ?_⟩⟩
  dsimp only
  split_ifs
  · trivial
  · refine ⟨(by decide : 'l' ≠ '_'), fun lint => ⟨(by decide : 'd' ≠ '_'), fun daemon => ?_⟩⟩
    dsimp only
    split_ifs
    · trivial
    · trivial
    · exact ⟨(by decide : 'W' ≠ '_'), fun _ => trivial⟩

theorem pathsDialogue_proper (null : NullArgs) : (pathsDialogue null).Asks Question.Proper := by
  refine ⟨(by decide : 'h' ≠ '_'), fun help => ?_⟩
  dsimp only
  split_ifs
  · trivial
  · refine ⟨trivial, fun longPaths =>
      ⟨(by decide : 'p' ∈ valueLetters), fun shortPaths => ⟨trivial, fun longFiles => ?_⟩⟩⟩
    dsimp only
    split_ifs
    · trivial
    · exact ⟨(by decide : 'f' ∈ valueLetters), fun _ => trivial⟩

theorem optionsDialogue_proper (null : NullArgs) :
    (optionsDialogue null).Asks Question.Proper := by
  refine (pathsDialogue_proper null).bind fun r => ?_
  cases r with
  | error e => trivial
  | ok paths => exact modeDialogue_proper.bind fun _ => trivial

/-- A tidy question gets the same answer from both vectors. -/
theorem Related.ask {k n : ℕ} {argv argv' : List CStr} {q : Question} (hq : q.Proper)
    (h : Related k n argv argv') (hkeeps : q.Keeps k argv') :
    (Kubeka.ask argv q).1 = (Kubeka.ask argv' q).1 ∧
      Related k n (Kubeka.ask argv q).2 (Kubeka.ask argv' q).2 := by
  cases q with
  | flag lopt sopt =>
    obtain ⟨hlong, hrel⟩ := h.optLong lopt
    obtain ⟨hshort, hrel', -⟩ := hrel.optShort hq hkeeps
    have hflag : (optBool argv lopt sopt).1 = (optBool argv' lopt sopt).1 := by
      simp only [optBool, hlong, hshort]
    refine ⟨?_, hrel'⟩
    rw [Kubeka.ask, Kubeka.ask, hflag]
  | all o =>
    refine h.all (fun letter hletter heq => ?_) hkeeps
    subst heq
    exact hq
  | either sopt lopt =>
    obtain ⟨-, hrel, hvalue⟩ := h.optShort (valueLetters_ne hq).2 hkeeps.1
    have hvalue := hvalue hq hkeeps.2
    simp only [Kubeka.ask, optEither]
    rcases hshort : Kubeka.optShort argv sopt with ⟨_ | value, argv₁⟩ <;>
      rcases hshort' : Kubeka.optShort argv' sopt with ⟨_ | value', argv₁'⟩ <;>
      rw [hshort, hshort'] at hrel hvalue
    · obtain ⟨hlong, hrel'⟩ := hrel.optLong lopt
      exact ⟨congrArg Option.toList hlong, hrel'⟩
    · simp at hvalue
    · simp at hvalue
    · exact ⟨congrArg Option.toList hvalue, hrel⟩

theorem Related.play {k n : ℕ} {α : Type} {m : Dialogue α} (hasks : m.Asks Question.Proper)
    {argv argv' : List CStr} (h : Related k n argv argv')
    (hkeeps : ∀ e ∈ m.record Kubeka.ask argv', e.2.Keeps k e.1) :
    (m.play Kubeka.ask argv).1 = (m.play Kubeka.ask argv').1 ∧
      Related k n (m.play Kubeka.ask argv).2 (m.play Kubeka.ask argv').2 ∧
      m.answers Kubeka.ask argv = m.answers Kubeka.ask argv' :=
  Prog.play_related (fun _ _ _ hq hr hk => hr.ask hq hk) hasks h hkeeps

/-! ### The job in the end -/

theorem getElem?_append_append (pre group post : List CStr) (i : ℕ) :
    (pre ++ (group ++ post))[pre.length + (group.length + i)]? = post[i]? := by
  rw [List.getElem?_append_right (by omega), List.getElem?_append_right (by omega)]
  simp

/-- The job is the same in the end, when the same was found. -/
theorem Related.optEntry_eq {k n : ℕ} {start start' argv argv' : List CStr}
    (h : Related k n start start') (hleft : Related k n argv argv') (hedit : Edited start argv)
    (hedit' : Edited start' argv') {lopt : CStr} (hkeeps : (Question.either 'j' lopt).Keeps k start')
    {value : CStr} (hvalue : (Kubeka.optShort start 'j').1 = some value)
    (hvalue' : (Kubeka.optShort start' 'j').1 = some value) :
    optEntry start argv value = optEntry start' argv' value := by
  by_cases hdash : value.head? ≠ some '-'
  · rw [optEntry_of_head_ne hedit hvalue hdash, optEntry_of_head_ne hedit' hvalue' hdash]
  obtain ⟨htidy, hnot⟩ := hkeeps
  obtain ⟨prog, pre, sep, group, post, hk, hn, hsame, rfl, rfl⟩ := h
  obtain ⟨prog₂, pre₂, sep₂, group₂, post₂, hk₂, hn₂, -, rfl, rfl⟩ := hleft
  have hlength := hedit.length_eq
  have hlength' := hedit'.length_eq
  simp only [List.length_cons, List.length_append] at hlength hlength'
  rw [optEntry, optEntry, List.tail_cons, List.tail_cons, List.tail_cons, List.tail_cons]
  rcases takeFirst_append_cases (shortTaken 'j') pre with
    hpre | ⟨front, arg, rest, taken, arg', rfl, hfront, harg, -⟩
  · rcases hsame.found (by decide) ((htidy ((passesTo_iff hk).mpr hpre)).head hk) with
      ⟨hsep, hgroup⟩ | ⟨⟨front, back, arg, arg', rest, taken, rfl, rfl, -, harg, -, hv⟩, -⟩
    · rw [nextPlace_append_of_none hpre, nextPlace_append_of_none hsep,
        nextPlace_append_of_none hpre, nextPlace_append_of_none hgroup]
      cases nextPlace 'j' post with
      | none => rfl
      | some i =>
        have hplace : pre.length + (sep.length + i) = pre₂.length + (sep₂.length + i) := by omega
        have hplace' : pre.length + (group.length + i) = pre₂.length + (group₂.length + i) := by
          omega
        simp only [Option.map_some, Option.bind_some]
        rw [hplace, hplace', getElem?_append_append, getElem?_append_append]
    · obtain ⟨foo, -, hfoo, -, hfound⟩ := hv (by decide)
      rw [optShort_fst, List.tail_cons, takeFirst_append_of_none hpre, List.cons_append, takeFirst,
        harg] at hvalue'
      have hvalue : foo = value := (hfound post).symm.trans (Option.some.inj hvalue')
      exact absurd (hvalue ▸ hfoo) hdash
  · rw [List.append_assoc, nextPlace_append_of_none hfront, List.append_assoc,
      nextPlace_append_of_none hfront, List.cons_append, List.cons_append]
    rcases nextPlace_cons_of_some harg with ⟨hends, hnext⟩ | hnext
    · cases rest with
      | nil => exact absurd hends (not_endsIn_last hk hfront hnot)
      | cons x rest =>
        have hlt : front.length + 1 < pre₂.length := by
          rw [hk₂, ← hk]
          simp
        rw [(hnext _).1, (hnext _).1]
        simp only [Option.map_some, Option.bind_some, List.getElem?_append_left hlt]
    · rw [hnext, hnext]
      rfl

theorem optEither_of_some {argv : List CStr} {sopt : Char} {lopt value : CStr}
    (h : (optShort argv sopt).1 = some value) : (optEither argv sopt lopt).1 = some value := by
  rcases hshort : optShort argv sopt with ⟨found, argv₁⟩
  rw [hshort] at h
  obtain rfl : found = some value := h
  rw [optEither, hshort]

theorem entry_of_mode {argv : List CStr} {options : Options}
    (h : (modeDialogue.play ask argv).1 = .ok options) :
    options.entry = (optEither argv 'j' "job".toList).1 := by
  have hentry : (ask argv (.either 'j' "job".toList)).1.head? =
      (optEither argv 'j' "job".toList).1 := by
    rw [ask]
    cases (optEither argv 'j' "job".toList).1 <;> rfl
  simp only [modeDialogue, Prog.play_call] at h
  split_ifs at h
  · cases h
  · simp only [Prog.play_call] at h
    split_ifs at h
    · cases h
    · cases h
    · rw [← hentry, ← Except.ok.inj h]

/-- The job in the end is the same, when it was the same as it was found. -/
theorem Related.entry_mode {k n : ℕ} {argv argv' : List CStr} (h : Related k n argv argv')
    (hkeeps : ∀ e ∈ modeDialogue.record Kubeka.ask argv', e.2.Keeps k e.1) {options : Options}
    (hok : (modeDialogue.play Kubeka.ask argv').1 = .ok options) :
    options.entry.map (optEntry argv (modeDialogue.play Kubeka.ask argv).2) =
      options.entry.map (optEntry argv' (modeDialogue.play Kubeka.ask argv').2) := by
  have hj : (Question.either 'j' "job".toList).Keeps k argv' := hkeeps _ List.mem_cons_self
  obtain ⟨-, hleft, -⟩ := h.play modeDialogue_proper hkeeps
  obtain ⟨hfound, -, hvalue⟩ := h.optShort (by decide) hj.1
  rw [entry_of_mode hok]
  cases hshort : (Kubeka.optShort argv' 'j').1 with
  | none =>
    rw [hshort, Option.isSome_none, Option.isSome_eq_false_iff, Option.isNone_iff_eq_none] at hfound
    exact Option.map_congr fun value _ => by rw [optEntry_of_none hfound, optEntry_of_none hshort]
  | some value =>
    rw [hshort] at hvalue
    rw [optEither_of_some hshort]
    exact congrArg some (h.optEntry_eq hleft (edited_play _ _) (edited_play _ _) hj
      (hvalue (by decide) hj.2) hshort)

/-- The options in the end are the same, when the same were found. -/
theorem Related.finalOptions {k n : ℕ} {null : NullArgs} {argv argv' : List CStr}
    (h : Related k n argv argv')
    (hkeeps : ∀ e ∈ (optionsDialogue null).record Kubeka.ask argv', e.2.Keeps k e.1)
    {paths : Paths} {options : Options}
    (hok : ((optionsDialogue null).play Kubeka.ask argv').1 = .ok (paths, options)) :
    finalOptions null argv options = finalOptions null argv' options := by
  rw [optionsDialogue, Prog.record_bind] at hkeeps
  obtain ⟨hpaths, hmode⟩ := List.forall_mem_append.mp hkeeps
  obtain ⟨hsame, hstart, -⟩ := h.play (pathsDialogue_proper null) hpaths
  simp only [Kubeka.finalOptions, optionsDialogue, Prog.play_bind, hsame]
  rw [optionsDialogue, Prog.play_bind] at hok
  rcases hresult : ((pathsDialogue null).play Kubeka.ask argv').1 with _ | found <;>
    rw [hresult] at hok hmode
  · cases hok
  · rw [Prog.record_bind] at hmode
    rw [Prog.play_bind] at hok
    obtain ⟨hmode, -⟩ := List.forall_mem_append.mp hmode
    simp only [Prog.play_bind, Prog.play_done]
    rcases hoptions : (modeDialogue.play Kubeka.ask ((pathsDialogue null).play Kubeka.ask argv').2).1
      with _ | r <;> rw [hoptions] at hok
    · cases hok
    · obtain rfl : r = options := (Prod.mk.inj (Except.ok.inj hok)).2
      rw [hstart.entry_mode hmode hoptions]

/-! ### What is left at the end -/

/-- No argument has the letter. -/
def Free (opt : Char) (argv : List CStr) : Prop := ∀ arg ∈ argv.tail, ¬ HasLetter opt arg

section

variable {opt : Char}

theorem not_hasLetter_longTaken {name arg arg' : CStr} {value : List CStr → CStr}
    (h : longTaken name arg = some (value, arg')) : ¬ HasLetter opt arg' := by
  obtain ⟨v, -, hv⟩ := Option.map_eq_some_iff.mp h
  obtain ⟨-, rfl⟩ := Prod.mk.inj hv
  rintro ⟨letters, hletters, -⟩
  simp [shortLetters] at hletters

theorem not_hasLetter_shortTaken {letter : Char} (hopt : opt ≠ '_') {arg arg' : CStr}
    {value : List CStr → CStr} (h : shortTaken letter arg = some (value, arg'))
    (hfree : ¬ HasLetter opt arg) : ¬ HasLetter opt arg' := by
  obtain ⟨front, back, hletters, -, hleft⟩ := shortTaken_eq_some h
  rintro ⟨letters, hletters', hmem⟩
  refine hfree ⟨_, hletters, ?_⟩
  have harg := (shortLetters_eq_some_iff.mp hletters').1
  rcases hleft with ⟨-, -, rfl⟩ | ⟨-, -, rfl⟩
  · obtain rfl := (List.cons.inj harg).2
    rcases List.mem_append.mp hmem with hmem | hmem
    · exact List.mem_append_left _ hmem
    · exact absurd (List.mem_singleton.mp hmem) hopt
  · obtain rfl := (List.cons.inj harg).2
    exact List.mem_append_left _ hmem

theorem Free.optLong {argv : List CStr} (h : Free opt argv) (name : CStr) :
    Free opt (Kubeka.optLong argv name).2 := by
  cases argv with
  | nil => exact h
  | cons prog args => exact forall_takeFirst (fun _ _ _ ht _ => not_hasLetter_longTaken ht) h

theorem Free.optShort (hopt : opt ≠ '_') {argv : List CStr} (h : Free opt argv) (letter : Char) :
    Free opt (Kubeka.optShort argv letter).2 := by
  cases argv with
  | nil => exact h
  | cons prog args => exact forall_takeFirst (fun _ _ _ => not_hasLetter_shortTaken hopt) h

theorem Free.ask (hopt : opt ≠ '_') {argv : List CStr} (h : Free opt argv) (q : Question) :
    Free opt (Kubeka.ask argv q).2 := by
  cases q with
  | flag lopt sopt => exact (h.optLong lopt).optShort hopt sopt
  | all o =>
    cases argv with
    | nil => exact h
    | cons prog args =>
      refine forall_takeAll (fun _ _ _ ht hf => ?_) h
      cases o with
      | long name => exact not_hasLetter_longTaken ht
      | short letter hletter => exact not_hasLetter_shortTaken hopt ht hf
  | either sopt lopt =>
    have hshort := h.optShort hopt sopt
    simp only [Kubeka.ask, optEither]
    rcases hfound : Kubeka.optShort argv sopt with ⟨_ | value, argv₁⟩ <;> rw [hfound] at hshort
    · exact hshort.optLong lopt
    · exact hshort

/-- A loop leaves none of its letter. -/
theorem free_all (hopt : opt ≠ '_') (argv : List CStr) :
    Free opt ((Opt.short opt hopt).all argv).2 := by
  cases argv with
  | nil => simp [Free, Opt.all]
  | cons prog args =>
    intro arg harg
    exact shortTaken_eq_none_iff.mp (takeAll_done (once_shortTaken hopt) args arg harg)

/-- There is none of a letter that was asked for and not found. -/
theorem free_either (hopt : opt ≠ '_') {argv : List CStr} {lopt : CStr}
    (h : (Kubeka.ask argv (.either opt lopt)).1 = []) :
    Free opt (Kubeka.ask argv (.either opt lopt)).2 := by
  refine Free.ask hopt ?_ _
  simp only [Kubeka.ask, optEither] at h
  rcases hfound : Kubeka.optShort argv opt with ⟨_ | value, argv₁⟩ <;> rw [hfound] at h
  · have hnone : (Kubeka.optShort argv opt).1 = none := by rw [hfound]
    cases argv with
    | nil => simp [Free]
    | cons prog args =>
      intro arg harg
      exact shortTaken_eq_none_iff.mp (takeFirst_eq_none_iff.mp hnone arg harg)
  · simp at h

theorem Free.play {α : Type} (hopt : opt ≠ '_') {argv : List CStr} (h : Free opt argv)
    (m : Dialogue α) : Free opt (m.play Kubeka.ask argv).2 :=
  Prog.play_preserves (fun _ q hs => hs.ask hopt q) m h

theorem free_of_paths {null : NullArgs} {argv : List CStr} {paths : Paths}
    (h : ((pathsDialogue null).play Kubeka.ask argv).1 = .ok paths) :
    Free 'p' ((pathsDialogue null).play Kubeka.ask argv).2 ∧
      Free 'f' ((pathsDialogue null).play Kubeka.ask argv).2 := by
  rw [pathsDialogue, Prog.play_call] at h ⊢
  split_ifs at h ⊢ with hhelp
  · cases h
  · rw [Prog.play_call, Prog.play_call, Prog.play_call] at h ⊢
    split_ifs at h ⊢
    · cases h
    · exact ⟨((free_all (by decide) _).ask (by decide) _).ask (by decide) _,
        free_all (by decide) _⟩

theorem free_of_mode {argv : List CStr} {options : Options}
    (h : (modeDialogue.play Kubeka.ask argv).1 = .ok options) :
    Free 'j' (modeDialogue.play Kubeka.ask argv).2 := by
  rw [modeDialogue, Prog.play_call, Prog.play_call] at h ⊢
  by_cases hagain : (Kubeka.ask (Kubeka.ask argv (.either 'j' "job".toList)).2
      (.either 'j' "job".toList)).1 = []
  · exact (free_either (by decide) hagain).play (by decide) _
  · rw [if_pos hagain] at h
    cases h

/-- When `main` gets to the end there is no option with a value left. -/
theorem free_of_ok {null : NullArgs} {argv : List CStr} {r : Paths × Options}
    (h : ((optionsDialogue null).play Kubeka.ask argv).1 = .ok r) :
    ∀ letter ∈ valueLetters, Free letter ((optionsDialogue null).play Kubeka.ask argv).2 := by
  rw [optionsDialogue, Prog.play_bind] at h ⊢
  have hpathsFree := @free_of_paths null argv
  rcases hpaths : (pathsDialogue null).play Kubeka.ask argv with ⟨_ | paths, argv₁⟩ <;>
    rw [hpaths] at h hpathsFree
  · cases h
  · obtain ⟨hp, hf⟩ := hpathsFree rfl
    have hmodeFree := @free_of_mode argv₁
    have hp := hp.play (by decide) modeDialogue
    have hf := hf.play (by decide) modeDialogue
    rw [Prog.play_bind] at h ⊢
    rcases hmode : modeDialogue.play Kubeka.ask argv₁ with ⟨_ | options, argv₂⟩ <;>
      rw [hmode] at h hmodeFree hp hf
    · cases h
    · have hj := hmodeFree rfl
      simp only [valueLetters, List.forall_mem_cons]
      exact ⟨hp, hf, hj, by simp⟩

end

/-! ### The count -/

theorem unrecognised_of_head_ne {arg : CStr} (h : arg.head? ≠ some '-') : unrecognised arg = [] := by
  unfold unrecognised
  split
  · exact absurd rfl h
  · exact absurd rfl h
  · rfl

theorem unrecognised_short {letters : CStr} (h : letters.head? ≠ some '-') :
    unrecognised ('-' :: letters) = (unmarked letters).map fun c => ['-', c] := by
  unfold unrecognised
  split
  · next heq =>
    rw [(List.cons.inj heq).2] at h
    exact absurd rfl h
  · next heq =>
    rw [(List.cons.inj heq).2]
    rfl
  · next hother => exact absurd rfl (hother letters)

theorem Inert.unrecognised {arg : CStr} (h : Inert arg) : Kubeka.unrecognised arg = [] := by
  rcases h with h | rfl
  · exact unrecognised_of_head_ne h
  · rfl

theorem length_unrecognised_separate {ls : CStr} (h : Plain ls) :
    ((ls.map fun x => ['-', x]).flatMap unrecognised).length = (unmarked ls).length := by
  induction ls with
  | nil => rfl
  | cons x ls ih =>
    obtain ⟨hx, hls⟩ := List.forall_mem_cons.mp h
    have hhead : [x].head? ≠ some '-' := by simpa using hx.2
    rw [List.map_cons, List.flatMap_cons, unrecognised_short hhead, List.length_append, ih hls,
      List.length_map]
    by_cases hmark : x = '_' <;> simp [unmarked, hmark]
    omega

/-- The same number of options is left when those with a value were taken. -/
theorem SameOptions.length_unrecognised {sep group : List CStr} (h : SameOptions sep group)
    (hfree : ∀ letter ∈ valueLetters, ∀ arg ∈ group, ¬ HasLetter letter arg) :
    (sep.flatMap unrecognised).length = (group.flatMap unrecognised).length := by
  obtain @⟨ls, gs, a, u, b, hls, hgs, hperm, hvalue⟩ := h
  have hletters := shortLetters_group hgs hvalue.head_ne
  have hhas {z : Char} (hz : z ∈ u) : HasLetter z ('-' :: (gs ++ u)) :=
    ⟨_, hletters, List.mem_append_right _ hz⟩
  cases hvalue with
  | next hz => exact absurd (hhas List.mem_cons_self) (hfree _ hz _ List.mem_cons_self)
  | attached hz => exact absurd (hhas List.mem_cons_self) (hfree _ hz _ List.mem_cons_self)
  | settled ha hb =>
    have hinert {args : List CStr} (hi : ∀ x ∈ args, Inert x) : args.flatMap unrecognised = [] :=
      List.flatMap_eq_nil_iff.mpr fun x hx => (hi x hx).unrecognised
    have hhead := (shortLetters_eq_some_iff.mp hletters).2
    rw [List.flatMap_append, hinert ha, List.append_nil, length_unrecognised_separate hls,
      List.flatMap_cons, hinert hb, List.append_nil, unrecognised_short hhead, List.append_nil,
      List.length_map, hperm.length_eq]

theorem Related.length_optUnrecognised {k n : ℕ} {argv argv' : List CStr}
    (h : Related k n argv argv')
    (hfree : ∀ letter ∈ valueLetters, Free letter argv') :
    (optUnrecognised argv).length = (optUnrecognised argv').length := by
  obtain ⟨prog, pre, sep, group, post, -, -, hsame, rfl, rfl⟩ := h
  have hgroup : (sep.flatMap unrecognised).length = (group.flatMap unrecognised).length := by
    refine hsame.length_unrecognised fun letter hletter arg harg => hfree letter hletter arg ?_
    simp [harg]
  simp only [optUnrecognised, List.flatMap_cons, List.flatMap_append, List.length_append, hgroup]

/-! ### Grouped spellings -/

theorem ShortOptions.Grouped.sameOptions {s : ShortOptions} {group : List CStr}
    (h : s.Grouped group) : SameOptions s.separate group := by
  have hplain {ys : CStr} (hys : ys.Perm s.flags) : Plain ys := fun x hx =>
    s.flags_ne x (hys.mem_iff.mp hx)
  have hperm {ys : CStr} (hys : ys.Perm s.flags) : (unmarked s.flags).Perm (unmarked ys) :=
    (hys.filter _).symm
  rw [separate]
  cases h with
  | flags hnone hys =>
    have hmk := SameOptions.mk s.flags_ne (hplain hys) (hperm hys)
      (.settled (a := []) (b := []) (by simp) (by simp))
    rw [List.append_nil] at hmk
    simpa [hnone] using hmk
  | next hsome hys =>
    have hvalue := s.value_ne _ hsome
    simpa [hsome] using SameOptions.mk s.flags_ne (hplain hys) (hperm hys)
      (.next hvalue.1 hvalue.2.2)
  | attached hsome hys =>
    have hvalue := s.value_ne _ hsome
    simpa [hsome] using SameOptions.mk s.flags_ne (hplain hys) (hperm hys)
      (.attached hvalue.1 hvalue.2.1 hvalue.2.2)

/-- All questions of `main` get the same answers from two vectors, and it comes to the same
result, in which the unrecognised options are counted. -/
structure SameReading (null : NullArgs) (argv argv' : List CStr) : Prop where
  answers : (optionsDialogue null).answers ask argv = (optionsDialogue null).answers ask argv'
  result : readOptions null argv = readOptions null argv'

/-- A grouped spelling is read like the separate options when each query takes the group from its
end. The value of an option, which in the separate spelling is an argument of its own, is not
searched for letters then. -/
theorem grouped_sameReading (null : NullArgs) {s : ShortOptions} {group : List CStr}
    (hgroup : s.Grouped group) (prog : CStr) (pre post : List CStr)
    (hkeeps : ∀ e ∈ (optionsDialogue null).record ask (prog :: (pre ++ (group ++ post))),
      e.2.Keeps pre.length e.1) :
    SameReading null (prog :: (pre ++ (s.separate ++ post))) (prog :: (pre ++ (group ++ post))) := by
  have hrel : Related pre.length post.length (prog :: (pre ++ (s.separate ++ post)))
      (prog :: (pre ++ (group ++ post))) :=
    ⟨prog, pre, _, _, post, rfl, rfl, hgroup.sameOptions, rfl, rfl⟩
  obtain ⟨hresult, hleft, hanswers⟩ := hrel.play (optionsDialogue_proper null) hkeeps
  refine ⟨hanswers, ?_⟩
  rw [readOptions_eq_play, readOptions_eq_play, hresult]
  rcases hplay : ((optionsDialogue null).play ask (prog :: (pre ++ (group ++ post)))).1 with
    _ | options
  · rfl
  · have hfinal := hrel.finalOptions hkeeps hplay
    simp only [Except.bind, hleft.length_optUnrecognised (free_of_ok hplay), hfinal]

/-- `-l -d -p a` -/
def lintDaemonPath : ShortOptions where
  flags := ['l', 'd']
  value := some ('p', "a".toList)
  flags_ne := by simp [valueLetters]
  value_ne := by simp [valueLetters]

/-- `-dlpa` -/
theorem lintDaemonPath_sameReading :
    SameReading ⟨none, false⟩ ("kubeka".toList :: ([] ++ (lintDaemonPath.separate ++ [])))
      ("kubeka".toList :: ([] ++ (["-dlpa".toList] ++ []))) :=
  have hflags : ['d', 'l'].Perm lintDaemonPath.flags := List.Perm.swap 'l' 'd' []
  have hgroup : lintDaemonPath.Grouped ['-' :: (['d', 'l'] ++ 'p' :: "a".toList)] :=
    .attached rfl hflags
  grouped_sameReading ⟨none, false⟩ hgroup "kubeka".toList [] [] (by decide +kernel)

/-- `-l -d` -/
def lintDaemon : ShortOptions where
  flags := ['l', 'd']
  value := none
  flags_ne := by simp [valueLetters]
  value_ne := by simp [valueLetters]

/-- The query for `-l` cuts off the `d` of `-ld`. -/
theorem lintDaemon_not_sameReading : lintDaemon.Grouped ["-ld".toList] ∧
    ¬ SameReading ⟨none, false⟩ ("kubeka".toList :: ([] ++ (lintDaemon.separate ++ [])))
      ("kubeka".toList :: ([] ++ (["-ld".toList] ++ []))) := by
  refine ⟨.flags rfl (List.Perm.refl _), fun h => ?_⟩
  have hdaemon := congrArg (fun r => r.toOption.map fun o => o.2.daemon) h.result
  exact absurd hdaemon (by decide +kernel)

end Kubeka
