import Kubeka.Options.Loops

/-!
# A letter in a group of short options

Options that stand in arguments of their own and the same options grouped in
one argument. A query that finds its letter in the group cuts off whatever
stands behind it, so what it leaves has the same options again only when that
is the value of the letter, or letters that were taken before.
-/

namespace Kubeka

open Scan

/-- The short options that `main` asks for a value. -/
def valueLetters : List Char := ['p', 'f', 'j']

/-- What a query for a letter cuts off is the value of the letter, or letters that were taken
before; and it does not find its letter in the value of another one. -/
def Tidy (opt : Char) (letters : CStr) : Prop :=
  ∀ p ∈ strchr letters opt, (∀ x ∈ p.1, x ∉ valueLetters) ∧
    (opt ∈ valueLetters ∨ ∀ x ∈ p.2, x = '_')

section

variable (opt : Char)

instance (arg : CStr) : Decidable (HasLetter opt arg) :=
  decidable_of_iff (opt ∈ (shortLetters arg).getD []) <| by
    cases h : shortLetters arg <;> simp [HasLetter, h]

instance (letters : CStr) : Decidable (Tidy opt letters) :=
  decidable_of_iff (∀ p ∈ strchr letters opt, p.1.all (· ∉ valueLetters) ∧
    (opt ∈ valueLetters ∨ p.2.all (· = '_'))) <| by simp [Tidy]

end

/-! ### The two spellings -/

/-- Letters without a value. -/
def Plain (letters : CStr) : Prop := ∀ x ∈ letters, x ∉ valueLetters ∧ x ≠ '-'

/-- Nothing is found in this argument any more. -/
def Inert (arg : CStr) : Prop := arg.head? ≠ some '-' ∨ arg = ['-', '_']

/-- The letters that were not taken yet. -/
def unmarked (letters : CStr) : CStr := letters.filter (· ≠ '_')

/-- The option with a value: the separate arguments for it, the end of the group, and the arguments
behind the group. -/
inductive ValueOption : List CStr → CStr → List CStr → Prop where
  | settled {a b} : (∀ x ∈ a, Inert x) → (∀ x ∈ b, Inert x) → ValueOption a [] b
  | next {z foo} : z ∈ valueLetters → foo.head? ≠ some '-' →
      ValueOption [['-', z], foo] [z] [foo]
  | attached {z foo} : z ∈ valueLetters → foo ≠ [] → foo.head? ≠ some '-' →
      ValueOption [['-', z], foo] (z :: foo) []

/-- Separate arguments and a group with the same options left. -/
inductive SameOptions : List CStr → List CStr → Prop where
  | mk {ls gs a u b} : Plain ls → Plain gs → (unmarked ls).Perm (unmarked gs) →
      ValueOption a u b → SameOptions (ls.map (fun x => ['-', x]) ++ a) (('-' :: (gs ++ u)) :: b)

/-! ### A letter in the group -/

theorem valueLetters_ne {z : Char} (h : z ∈ valueLetters) : z ≠ '-' ∧ z ≠ '_' := by
  simp only [valueLetters, List.mem_cons, List.not_mem_nil, or_false] at h
  rcases h with rfl | rfl | rfl <;> decide

theorem Inert.taken {arg : CStr} (h : Inert arg) (o : Opt) : o.taken arg = none := by
  rcases h with h | rfl
  · exact o.taken_of_head_ne h
  · exact o.taken_mark

theorem plain_append {s t : CStr} : Plain (s ++ t) ↔ Plain s ∧ Plain t := List.forall_mem_append

theorem plain_mark : Plain ['_'] := by
  simp [Plain, valueLetters]

theorem shortLetters_group {gs u : CStr} (hgs : Plain gs) (hu : u.head? ≠ some '-') :
    shortLetters ('-' :: (gs ++ u)) = some (gs ++ u) := by
  refine shortLetters_eq_some_iff.mpr ⟨rfl, ?_⟩
  cases gs with
  | nil => exact hu
  | cons x gs => simpa using (hgs x List.mem_cons_self).2

theorem ValueOption.head_ne {a b : List CStr} {u : CStr} (h : ValueOption a u b) :
    u.head? ≠ some '-' := by
  cases h with
  | settled => simp
  | next hz => simpa using (valueLetters_ne hz).1
  | attached hz => simpa using (valueLetters_ne hz).1

/-- Nothing is found in the arguments of the option when its letter is not. -/
theorem ValueOption.taken_eq_none {a b : List CStr} {u : CStr} (h : ValueOption a u b) {o : Opt}
    (ho : ∀ z ∈ u.head?, o.taken ['-', z] = none) :
    (∀ x ∈ a, o.taken x = none) ∧ ∀ x ∈ b, o.taken x = none := by
  cases h with
  | settled ha hb => exact ⟨fun x hx => (ha x hx).taken o, fun x hx => (hb x hx).taken o⟩
  | @next z foo hz hfoo =>
    have hnone := o.taken_of_head_ne hfoo
    exact ⟨by simp [ho z rfl, hnone], by simpa using hnone⟩
  | @attached z foo hz hne hfoo =>
    have hnone := o.taken_of_head_ne hfoo
    exact ⟨by simp [ho z rfl, hnone], by simp⟩

theorem shortTaken_separate {opt : Char} {ls : CStr} (h : opt ∉ ls) :
    ∀ arg ∈ ls.map (fun x => ['-', x]), shortTaken opt arg = none := by
  intro arg harg
  obtain ⟨x, hx, rfl⟩ := List.mem_map.mp harg
  exact shortTaken_eq_none_iff.mpr (not_hasLetter_single fun heq => h (heq ▸ hx))

/-- The letter is found in neither of the spellings. -/
def FoundInNone (opt : Char) (sep group : List CStr) : Prop :=
  (∀ arg ∈ sep, shortTaken opt arg = none) ∧ ∀ arg ∈ group, shortTaken opt arg = none

/-- The letter is found in both spellings, and what is left has the same options again. A letter
with a value gets the same value from both. -/
structure FoundInBoth (opt : Char) (sep group : List CStr) : Prop where
  found : ∃ front back arg arg' rest value, sep = front ++ ['-', opt] :: back ∧ group = arg :: rest ∧
    (∀ x ∈ front, shortTaken opt x = none) ∧ shortTaken opt arg = some (value, arg') ∧
    SameOptions (front ++ ['-', '_'] :: back) (arg' :: rest) ∧
    (opt ∈ valueLetters → ∃ foo, back = [foo] ∧ foo.head? ≠ some '-' ∧
      (∀ x ∈ rest, shortTaken opt x = none) ∧ ∀ post, value (rest ++ post) = foo)
  ne : opt ≠ '-'

section

variable {opt : Char}

theorem Plain.notMem {letters : CStr} (h : Plain letters) (hopt : opt ∈ valueLetters) :
    opt ∉ letters := fun hmem => (h opt hmem).1 hopt

theorem ValueOption.foundInNone {ls gs u : CStr} {a b : List CStr} (h : ValueOption a u b)
    (hmark : opt ≠ '_') (hgs : Plain gs) (hls : opt ∉ ls) (hgroup : opt ∉ gs ++ u) :
    FoundInNone opt (ls.map (fun x => ['-', x]) ++ a) (('-' :: (gs ++ u)) :: b) := by
  have hletter : ∀ z ∈ u.head?, (Opt.short opt hmark).taken ['-', z] = none := by
    intro z hz
    refine shortTaken_eq_none_iff.mpr (not_hasLetter_single ?_)
    rintro rfl
    exact hgroup (List.mem_append_right _ (List.mem_of_mem_head? hz))
  obtain ⟨ha, hb⟩ := h.taken_eq_none hletter
  refine ⟨List.forall_mem_append.mpr ⟨shortTaken_separate hls, ha⟩,
    List.forall_mem_cons.mpr ⟨shortTaken_eq_none_iff.mpr ?_, hb⟩⟩
  rintro ⟨letters, hletters, hmem⟩
  rw [shortLetters_group hgs h.head_ne] at hletters
  exact hgroup (Option.some.inj hletters ▸ hmem)

/-- A tidy query finds nothing in the value that is attached to another letter. -/
theorem notMem_attached {gs foo : CStr} {z : Char} (hgs : opt ∉ gs) (hne : opt ≠ z)
    (hz : z ∈ valueLetters) (htidy : Tidy opt (gs ++ z :: foo)) : opt ∉ gs ++ z :: foo := by
  intro hmem
  obtain ⟨front, back, hsplit, hfront⟩ := List.eq_append_cons_of_mem hmem
  refine (htidy (front, back) (strchr_eq_some_iff.mpr ⟨hsplit, hfront⟩)).1 z ?_ hz
  rcases List.append_eq_append_iff.mp hsplit with ⟨c, rfl, hc⟩ | ⟨c, rfl, hc⟩
  · cases c with
    | nil => exact absurd (List.cons.inj hc).1.symm hne
    | cons x c => simp [(List.cons.inj hc).1]
  · cases c with
    | nil => exact absurd (List.cons.inj hc).1 hne
    | cons x c => exact absurd (by simp [(List.cons.inj hc).1]) hgs

theorem ValueOption.notMem {gs u : CStr} {a b : List CStr} (h : ValueOption a u b)
    (hgs : opt ∉ gs) (hne : u.head? ≠ some opt) (htidy : Tidy opt (gs ++ u)) : opt ∉ gs ++ u := by
  cases h with
  | settled => simpa using hgs
  | @next z foo hz hfoo =>
    have hopt : opt ≠ z := fun heq => hne (heq ▸ rfl)
    simp [hgs, hopt]
  | @attached z foo hz =>
    have hopt : opt ≠ z := fun heq => hne (heq ▸ rfl)
    exact notMem_attached hgs hopt hz htidy

/-- The option with a value, after its value was taken. -/
theorem valueOption_taken {foo : CStr} (hfoo : foo.head? ≠ some '-') {b : List CStr}
    (hb : ∀ x ∈ b, x = foo) : ValueOption [['-', '_'], foo] [] b := by
  refine .settled ?_ fun x hx => .inl (hb x hx ▸ hfoo)
  intro x hx
  rcases List.mem_pair.mp hx with rfl | rfl
  · exact .inr rfl
  · exact .inl hfoo

theorem SameOptions.taken {ls gs foo : CStr} {b : List CStr} (hls : Plain ls) (hgs : Plain gs)
    (hperm : (unmarked ls).Perm (unmarked gs)) (hfoo : foo.head? ≠ some '-')
    (hb : ∀ x ∈ b, x = foo) :
    SameOptions (ls.map (fun x => ['-', x]) ++ [['-', '_'], foo]) (('-' :: gs) :: b) := by
  have hmk := SameOptions.mk hls hgs hperm (valueOption_taken hfoo hb)
  rwa [List.append_nil] at hmk

theorem unmarked_append (s t : CStr) : unmarked (s ++ t) = unmarked s ++ unmarked t :=
  List.filter_append s t

@[simp] theorem unmarked_mark : unmarked ['_'] = [] := rfl

theorem mem_unmarked {letters : CStr} (hopt : opt ≠ '_') : opt ∈ unmarked letters ↔ opt ∈ letters := by
  simp [unmarked, hopt]

/-- A query for an option with a value. -/
theorem SameOptions.found_value {sep group : List CStr} (h : SameOptions sep group)
    (hopt : opt ∈ valueLetters)
    (htidy : ∀ arg ∈ group.head?, ∀ letters ∈ shortLetters arg, Tidy opt letters) :
    FoundInNone opt sep group ∨ FoundInBoth opt sep group := by
  obtain ⟨hdash, hmark⟩ := valueLetters_ne hopt
  obtain @⟨ls, gs, a, u, b, hls, hgs, hperm, hvalue⟩ := h
  have hls' := hls.notMem hopt
  have hgs' := hgs.notMem hopt
  have hletters := shortLetters_group hgs hvalue.head_ne
  by_cases hlast : u.head? = some opt
  · refine .inr ⟨?_, hdash⟩
    cases hvalue with
    | settled => simp at hlast
    | @next z foo hz hfoo =>
      obtain rfl : opt = z := by simpa using hlast.symm
      have hnone : shortTaken opt foo = none := shortTaken_of_ne hfoo
      have hleft := SameOptions.taken (b := [foo]) hls (plain_append.mpr ⟨hgs, plain_mark⟩)
        (by simpa [unmarked_append] using hperm) hfoo (by simp)
      refine ⟨_, [foo], _, _, [foo], _, rfl, rfl, shortTaken_separate hls',
        shortTaken_last hletters hgs', hleft, fun _ => ?_⟩
      exact ⟨foo, rfl, hfoo, by simpa using hnone, fun post => rfl⟩
    | @attached z foo hz hne hfoo =>
      obtain rfl : opt = z := by simpa using hlast.symm
      have hleft := SameOptions.taken (b := []) hls hgs hperm hfoo (by simp)
      refine ⟨_, [foo], _, _, [], _, rfl, rfl, shortTaken_separate hls',
        shortTaken_cut hletters hgs' hne, hleft, fun _ => ?_⟩
      exact ⟨foo, rfl, hfoo, by simp, fun post => rfl⟩
  · have hgroup := hvalue.notMem hgs' hlast (htidy _ rfl _ hletters)
    exact .inl (hvalue.foundInNone hmark hgs hls' hgroup)

/-- What is left of a group when all behind the letter was taken before. -/
theorem shortTaken_marked {gs front back : CStr} (hgs : Plain gs) (hsplit : gs = front ++ opt :: back)
    (hfront : opt ∉ front) (hback : ∀ x ∈ back, x = '_') : ∃ value gs',
      shortTaken opt ('-' :: gs) = some (value, '-' :: gs') ∧ Plain gs' ∧
      unmarked gs' = unmarked front := by
  have hletters := shortLetters_group hgs (u := []) (by simp)
  rw [List.append_nil, hsplit] at hletters
  have hplain : Plain front := (plain_append.mp (hsplit ▸ hgs)).1
  rw [hsplit]
  cases back with
  | nil =>
    exact ⟨_, _, shortTaken_last hletters hfront, plain_append.mpr ⟨hplain, plain_mark⟩,
      by simp [unmarked_append]⟩
  | cons y back => exact ⟨_, _, shortTaken_cut hletters hfront (by simp), hplain, rfl⟩

/-- The letter is taken from both: marked in its own argument, and the last one in the group. -/
theorem perm_taken {l₁ l₂ gs front back : CStr} (hmark : opt ≠ '_')
    (hperm : (unmarked (l₁ ++ opt :: l₂)).Perm (unmarked gs)) (hsplit : gs = front ++ opt :: back)
    (hback : ∀ x ∈ back, x = '_') :
    (unmarked (l₁ ++ '_' :: l₂)).Perm (unmarked front) := by
  have hnil : unmarked back = [] := List.filter_eq_nil_iff.mpr fun x hx => by simp [hback x hx]
  have hleft : unmarked (l₁ ++ '_' :: l₂) = unmarked l₁ ++ unmarked l₂ := by simp [unmarked]
  have hls : unmarked (l₁ ++ opt :: l₂) = unmarked l₁ ++ opt :: unmarked l₂ := by
    simp [unmarked, hmark]
  have hgs : unmarked gs = unmarked front ++ opt :: [] := by
    rw [hsplit, unmarked_append, ← hnil]
    simp [unmarked, hmark]
  rw [hls, hgs] at hperm
  have hcons := (List.perm_middle.symm.trans hperm).trans List.perm_middle
  rw [hleft]
  simpa using (List.perm_cons opt).mp hcons

/-- A query for an option without a value. -/
theorem SameOptions.found_flag {sep group : List CStr} (h : SameOptions sep group)
    (hopt : opt ∉ valueLetters) (hmark : opt ≠ '_')
    (htidy : ∀ arg ∈ group.head?, ∀ letters ∈ shortLetters arg, Tidy opt letters) :
    FoundInNone opt sep group ∨ FoundInBoth opt sep group := by
  obtain @⟨ls, gs, a, u, b, hls, hgs, hperm, hvalue⟩ := h
  have hmem : opt ∈ ls ↔ opt ∈ gs := by
    rw [← mem_unmarked hmark, hperm.mem_iff, mem_unmarked hmark]
  have htidy' := htidy _ rfl _ (shortLetters_group hgs hvalue.head_ne)
  by_cases hin : opt ∈ gs
  · obtain ⟨front, back, hsplit, hfront⟩ := List.eq_append_cons_of_mem hin
    have hcut : strchr (gs ++ u) opt = some (front, back ++ u) :=
      strchr_eq_some_iff.mpr ⟨by simp [hsplit], hfront⟩
    have hmarked := (htidy' _ hcut).2.resolve_left hopt
    have hback : ∀ x ∈ back, x = '_' := fun x hx => hmarked x (List.mem_append_left _ hx)
    -- a letter with a value at the end of the group would be cut off
    have hz : ∀ z ∈ valueLetters, z ∉ u := fun z hz hzu =>
      (valueLetters_ne hz).2 (hmarked z (List.mem_append_right _ hzu))
    cases hvalue with
    | next hz' => exact absurd List.mem_cons_self (hz _ hz')
    | attached hz' => exact absurd List.mem_cons_self (hz _ hz')
    | settled ha hb =>
      obtain ⟨l₁, l₂, rfl, hl₁⟩ := List.eq_append_cons_of_mem (hmem.mpr hin)
      obtain ⟨hfrontPlain, hbackPlain⟩ := plain_append.mp hls
      obtain ⟨hoptPlain, hl₂⟩ := List.forall_mem_cons.mp hbackPlain
      obtain ⟨value, gs', htaken, hgs', hleft⟩ := shortTaken_marked hgs hsplit hfront hback
      have hls' : Plain (l₁ ++ '_' :: l₂) :=
        plain_append.mpr ⟨hfrontPlain, plain_append.mpr ⟨plain_mark, hl₂⟩⟩
      have hperm' := perm_taken hmark hperm hsplit hback
      rw [← hleft] at hperm'
      have hsame := SameOptions.mk hls' hgs' hperm' (.settled ha hb)
      refine .inr ⟨⟨l₁.map (fun x => ['-', x]), l₂.map (fun x => ['-', x]) ++ a, _, '-' :: gs', b,
        value, by simp, by simp, shortTaken_separate hl₁, htaken, ?_, fun h => absurd h hopt⟩,
        hoptPlain.2⟩
      simpa using hsame
  · have hlast : u.head? ≠ some opt := by
      intro hu
      cases hvalue with
      | settled => simp at hu
      | next hz => exact hopt (Option.some.inj hu ▸ hz)
      | attached hz => exact hopt (Option.some.inj hu ▸ hz)
    have hgroup := hvalue.notMem hin hlast htidy'
    exact .inl (hvalue.foundInNone hmark hgs (mt hmem.mp hin) hgroup)

theorem SameOptions.found {sep group : List CStr} (h : SameOptions sep group) (hmark : opt ≠ '_')
    (htidy : ∀ arg ∈ group.head?, ∀ letters ∈ shortLetters arg, Tidy opt letters) :
    FoundInNone opt sep group ∨ FoundInBoth opt sep group := by
  by_cases hopt : opt ∈ valueLetters
  · exact h.found_value hopt htidy
  · exact h.found_flag hopt hmark htidy

end

/-- No long option is found in either of the spellings. -/
theorem SameOptions.longTaken_none {sep group : List CStr} (h : SameOptions sep group)
    (name : CStr) : (∀ arg ∈ sep, longTaken name arg = none) ∧
      ∀ arg ∈ group, longTaken name arg = none := by
  have hshort {letters : CStr} (hl : letters.head? ≠ some '-') :
      longTaken name ('-' :: letters) = none :=
    (Opt.taken_eq_none_iff (o := .long name)).mpr (not_resembles_short name hl)
  obtain @⟨ls, gs, a, u, b, hls, hgs, -, hvalue⟩ := h
  obtain ⟨ha, hb⟩ := hvalue.taken_eq_none (o := .long name) fun z hz =>
    hshort fun hdash => hvalue.head_ne (hz.trans hdash)
  have hgroup := (shortLetters_eq_some_iff.mp (shortLetters_group hgs hvalue.head_ne)).2
  refine ⟨List.forall_mem_append.mpr ⟨?_, ha⟩, List.forall_mem_cons.mpr ⟨hshort hgroup, hb⟩⟩
  intro arg harg
  obtain ⟨x, hx, rfl⟩ := List.mem_map.mp harg
  exact hshort (by simpa using (hls x hx).2)

end Kubeka
