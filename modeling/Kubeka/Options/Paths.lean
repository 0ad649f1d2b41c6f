import Kubeka.Options.Loops

/-!
# The list of paths

An argument vector is read as its documentation has it: options for a path or a
file, and other arguments. `main` takes the values from the arguments in four
loops. What its queries find in the other arguments, because a long name is
compared too short or a letter stands in the value of a job, is added to the
list too; and the loop for `--file` stores another variable than the value.
-/

namespace Kubeka

open Scan

/-- The spellings of an option for a path or a file. -/
inductive PathKind where
  | longPath
  | shortPath
  | longFile
  | shortFile
  deriving DecidableEq

def PathKind.opt : PathKind → Opt
  | .longPath => .long "path".toList
  | .shortPath => .short 'p' pathLetter_ne
  | .longFile => .long "file".toList
  | .shortFile => .short 'f' fileLetter_ne

/-- The order in which they are read. -/
def pathKinds : List PathKind := [.longPath, .shortPath, .longFile, .shortFile]

/-- An option with its value, or some other argument. -/
inductive Item where
  | path (kind : PathKind) (value : CStr)
  | other (arg : CStr)

def PathKind.args (value : CStr) : PathKind → List CStr
  | .longPath => ["--path=".toList ++ value]
  | .shortPath => ["-p".toList, value]
  | .longFile => ["--file=".toList ++ value]
  | .shortFile => ["-f".toList, value]

def Item.args : Item → List CStr
  | .path kind value => kind.args value
  | .other arg => [arg]

/-- The other arguments ask neither for a path, nor for a file, nor for help: of the letters that do
so and `j`, which takes the rest of the argument for its value, `j` comes first. -/
structure OtherArgument (arg : CStr) : Prop where
  long : ∀ name ∈ ["help".toList, "path".toList, "file".toList], ¬ Spells name arg
  short : ∀ letters, shortLetters arg = some letters →
    letters.find? (· ∈ ['h', 'p', 'f', 'j']) = none ∨ letters.find? (· ∈ ['h', 'p', 'f', 'j']) = 'j'

/-- The value of an option does not begin with `-`. -/
def Item.WellFormed : Item → Prop
  | .path _ value => value.head? ≠ some '-'
  | .other arg => OtherArgument arg

/-- The values of one spelling. -/
def Item.values (kind : PathKind) : Item → List CStr
  | .path k value => if k = kind then [value] else []
  | .other _ => []

/-- What `main` is to build: the values grouped by the spelling. -/
def givenPaths (items : List Item) : Paths :=
  ("/etc/kubeka".toList :: pathKinds.flatMap fun kind => items.flatMap (Item.values kind)).map some

/-- A query of `main` for help, paths or files finds something in this argument. -/
def Mistaken (arg : CStr) : Prop :=
  (∃ name ∈ ["help".toList, "path".toList, "file".toList], Resembles name arg) ∨
    ∃ letter ∈ ['h', 'p', 'f'], HasLetter letter arg

/-! ### The loops one after the other -/

/-- The values that loops for these options find, one after the other. -/
def passes : List Opt → List CStr → List (List CStr)
  | [], _ => []
  | o :: opts, args => (takeAll o.taken args).1 :: passes opts (takeAll o.taken args).2

/-- How often the loops find something in an argument. -/
def hits : List Opt → CStr → ℕ
  | [], _ => 0
  | o :: opts, arg => (if (o.taken arg).isSome then 1 else 0) + hits opts (leftOf o.taken arg)

theorem hits_eq_zero_iff {opts : List Opt} {arg : CStr} :
    hits opts arg = 0 ↔ ∀ o ∈ opts, o.taken arg = none := by
  induction opts generalizing arg with
  | nil => simp [hits]
  | cons o opts ih =>
    cases h : o.taken arg with
    | none =>
      have hleft : leftOf o.taken arg = arg := by rw [leftOf, h]
      simp [hits, h, hleft, ih]
    | some r => simp [hits, h]

theorem sum_length_passes (opts : List Opt) (args : List CStr) :
    ((passes opts args).map List.length).sum = (args.map (hits opts)).sum := by
  induction opts generalizing args with
  | nil => simp [passes, hits]
  | cons o opts ih =>
    rw [passes, List.map_cons, List.sum_cons, ih, takeAll_snd, length_takeAll]
    clear ih
    induction args with
    | nil => rfl
    | cons arg args ih =>
      simp only [List.countP_cons, List.map_cons, List.sum_cons, hits] at ih ⊢
      omega

section

variable {null : NullArgs} {prog : CStr} {args : List CStr}

/-- Nothing is found for help. -/
def NoHelp (args : List CStr) : Prop :=
  ∀ arg ∈ args, ¬ Resembles "help".toList arg ∧ ¬ HasLetter 'h' arg

theorem optBool_help_of_noHelp (h : NoHelp args) :
    optBool (prog :: args) "help".toList 'h' = (false, prog :: args) := by
  have hlong : takeFirst (longTaken "help".toList) args = (none, args) :=
    takeFirst_of_none fun arg harg => by
      rw [longTaken, longValue_eq_none_iff.mpr (h arg harg).1, Option.map_none]
  have hshort : takeFirst (shortTaken 'h') args = (none, args) :=
    takeFirst_of_none fun arg harg => shortTaken_eq_none_iff.mpr (h arg harg).2
  simp only [optBool, optLong, optShort, fromFirst, hlong, hshort]
  rfl

theorem readPaths_of_noHelp (h : NoHelp args) {longPaths shortPaths longFiles shortFiles : List CStr}
    (hpasses : passes (pathKinds.map PathKind.opt) args =
      [longPaths, shortPaths, longFiles, shortFiles]) :
    (readPaths null (prog :: args)).map Prod.fst =
      if null.insTail = false ∧ none ∈ longFiles.map fun _ => null.strDup then .error .storing
      else .ok (some "/etc/kubeka".toList :: (longPaths.map some ++ shortPaths.map some ++
        longFiles.map (fun _ => null.strDup) ++ shortFiles.map some)) := by
  simp only [pathKinds, List.map_cons, List.map_nil, PathKind.opt, passes, List.cons.injEq,
    and_true] at hpasses
  obtain ⟨hlong, hshort, hlongFiles, hshortFiles⟩ := hpasses
  simp only [readPaths, optBool_help_of_noHelp h, storeAll_some, Opt.all_cons, bind, Except.bind,
    Bool.false_eq_true, if_false]
  simp only [storeAll_eq null (.long _), Opt.all_cons, hlong, hshort, hlongFiles]
  by_cases hfail : null.insTail = false ∧ none ∈ longFiles.map fun _ => null.strDup
  · rw [if_pos hfail, if_pos hfail]
    rfl
  · rw [if_neg hfail, if_neg hfail]
    simp only [Opt.all_cons, hshortFiles]
    rfl

end

/-! ### The given options -/

theorem not_resembles {a b : Char} (h : a ≠ b) (name text : CStr) :
    ¬ Resembles (a :: name) ('-' :: '-' :: b :: text) := by
  rintro ⟨text', heq, hpre⟩
  obtain rfl := (List.cons.inj (List.cons.inj heq).2).2
  simp [List.cons_prefix_cons, h, h.symm] at hpre

theorem longValue_given {name : CStr} (hname : '=' ∉ name) (value : CStr) :
    longValue name ('-' :: '-' :: (name ++ '=' :: value)) = some value := by
  have hcut : strchr (name ++ '=' :: value) '=' = some (name, value) :=
    strchr_eq_some_iff.mpr ⟨rfl, hname⟩
  rw [longValue_eq_some_iff, valueOf_long, hcut]
  exact ⟨⟨_, rfl, .inr (List.prefix_append _ _)⟩, rfl⟩

/-- What a loop leaves of the option it takes. -/
def PathKind.left (value : CStr) : PathKind → List CStr
  | .longPath | .longFile => [[]]
  | .shortPath | .shortFile => ["-_".toList, value]

theorem takeAll_long {name : CStr} (hname : '=' ∉ name) (value : CStr) (rest : List CStr) :
    takeAll (longTaken name) (('-' :: '-' :: (name ++ '=' :: value)) :: rest) =
      (value :: (takeAll (longTaken name) rest).1, [] :: (takeAll (longTaken name) rest).2) := by
  have htaken : longTaken name ('-' :: '-' :: (name ++ '=' :: value)) = some (fun _ => value, []) := by
    rw [longTaken, longValue_given hname]
    rfl
  rw [takeAll, htaken]

theorem takeAll_short {letter : Char} (hletter : letter ≠ '-') {value : CStr}
    (hvalue : value.head? ≠ some '-') (rest : List CStr) :
    takeAll (shortTaken letter) (['-', letter] :: value :: rest) =
      (value :: (takeAll (shortTaken letter) rest).1,
        ['-', '_'] :: value :: (takeAll (shortTaken letter) rest).2) := by
  rw [takeAll, shortTaken_single hletter, takeAll, shortTaken_of_ne hvalue]
  rfl

theorem PathKind.takeAll_args (k : PathKind) {value : CStr} (h : value.head? ≠ some '-')
    (rest : List CStr) : takeAll k.opt.taken (k.args value ++ rest) =
      (value :: (takeAll k.opt.taken rest).1, k.left value ++ (takeAll k.opt.taken rest).2) := by
  cases k with
  | longPath => exact takeAll_long (by decide : '=' ∉ "path".toList) value rest
  | shortPath => exact takeAll_short (by decide : 'p' ≠ '-') h rest
  | longFile => exact takeAll_long (by decide : '=' ∉ "file".toList) value rest
  | shortFile => exact takeAll_short (by decide : 'f' ≠ '-') h rest

/-- A loop finds nothing in an option of another spelling. -/
theorem PathKind.taken_args {k k' : PathKind} (hne : k' ≠ k) {value : CStr}
    (h : value.head? ≠ some '-') : ∀ arg ∈ k'.args value, k.opt.taken arg = none := by
  intro arg harg
  rw [Opt.taken_eq_none_iff]
  cases k' with
  | longPath | longFile =>
    obtain rfl := List.mem_singleton.mp harg
    cases k with
    | longPath | longFile =>
      first
      | exact absurd rfl hne
      | exact not_resembles (by decide) _ _
    | shortPath | shortFile => exact not_hasLetter_long _ _
  | shortPath | shortFile =>
    rcases List.mem_pair.mp harg with rfl | rfl
    · cases k with
      | longPath | longFile => exact not_resembles_short _ (by decide)
      | shortPath | shortFile =>
        first
        | exact absurd rfl hne
        | exact not_hasLetter_single (by decide)
    · exact Opt.taken_eq_none_iff.mp (k.opt.taken_of_head_ne h)

theorem PathKind.taken_left (k k' : PathKind) {value : CStr} (h : value.head? ≠ some '-') :
    ∀ arg ∈ k'.left value, k.opt.taken arg = none := by
  have hmark : k.opt.taken "-_".toList = none := k.opt.taken_mark
  have hnil : k.opt.taken [] = none := k.opt.taken_of_head_ne (by simp)
  have hvalue := k.opt.taken_of_head_ne h
  cases k' <;> simp [left, hnil, hvalue] <;> exact hmark

/-- The arguments of an item when the options in `done` have been read. -/
def Item.block (done : List PathKind) : Item → List CStr
  | .path kind value => if kind ∈ done then kind.left value else kind.args value
  | .other arg => [arg]

theorem Item.takeAll_block {i : Item} (hwf : i.WellFormed)
    (hplain : ∀ arg, i = .other arg → ¬ Mistaken arg) {k : PathKind} {done : List PathKind}
    (hk : k ∉ done) (rest : List CStr) : takeAll k.opt.taken (i.block done ++ rest) =
      (i.values k ++ (takeAll k.opt.taken rest).1,
        i.block (k :: done) ++ (takeAll k.opt.taken rest).2) := by
  cases i with
  | other arg =>
    have hnone : ∀ a ∈ [arg], k.opt.taken a = none := by
      intro a ha
      rw [List.mem_singleton.mp ha, Opt.taken_eq_none_iff]
      refine mt (fun hfinds => ?_) (hplain arg rfl)
      cases k with
      | longPath => exact .inl ⟨_, by simp, hfinds⟩
      | longFile => exact .inl ⟨_, by simp, hfinds⟩
      | shortPath => exact .inr ⟨_, by simp, hfinds⟩
      | shortFile => exact .inr ⟨_, by simp, hfinds⟩
    exact takeAll_append_of_none hnone rest
  | path k' value =>
    by_cases heq : k' = k
    · subst heq
      simpa [block, hk, values] using k'.takeAll_args hwf rest
    · have hnone : ∀ a ∈ (Item.path k' value).block done, k.opt.taken a = none := by
        rw [block]
        split_ifs
        · exact k.taken_left k' hwf
        · exact PathKind.taken_args heq hwf
      have hblock : (Item.path k' value).block (k :: done) = (Item.path k' value).block done := by
        simp [block, heq]
      rw [takeAll_append_of_none hnone, hblock, values, if_neg heq, List.nil_append]

/-- When nothing is found in the other arguments, each loop finds the values of its spelling. -/
theorem passes_items {items : List Item} (hwf : ∀ i ∈ items, i.WellFormed)
    (hplain : ∀ arg, .other arg ∈ items → ¬ Mistaken arg) (kinds done : List PathKind)
    (hnodup : kinds.Nodup) (hdone : ∀ k ∈ kinds, k ∉ done) :
    passes (kinds.map PathKind.opt) (items.flatMap (Item.block done)) =
      kinds.map fun k => items.flatMap (Item.values k) := by
  induction kinds generalizing done with
  | nil => rfl
  | cons k kinds ih =>
    obtain ⟨hk, hkinds⟩ := List.nodup_cons.mp hnodup
    have hpass := takeAll_flatMap fun i hi rest => Item.takeAll_block (hwf i hi)
      (fun arg harg => hplain arg (harg ▸ hi)) (hdone k List.mem_cons_self) rest
    rw [List.map_cons, passes, hpass, List.map_cons, ih _ hkinds]
    intro k' hk' hmem
    rcases List.mem_cons.mp hmem with rfl | hmem
    · exact hk hk'
    · exact hdone k' (List.mem_cons_of_mem _ hk') hmem

theorem block_nil : Item.block [] = Item.args := by
  funext i
  cases i <;> rfl

/-- The list is built as the options ask for it. -/
def BuildsPaths (null : NullArgs) (prog : CStr) (items : List Item) : Prop :=
  (readPaths null (prog :: items.flatMap Item.args)).map Prod.fst = .ok (givenPaths items)

theorem PathKind.noHelp_args (k : PathKind) {value : CStr} (h : value.head? ≠ some '-') :
    NoHelp (k.args value) := by
  intro arg harg
  have hvalue : ¬ Resembles "help".toList value ∧ ¬ HasLetter 'h' value :=
    ⟨(Opt.taken_eq_none_iff (o := .long _)).mp (Opt.taken_of_head_ne _ h),
      (Opt.taken_eq_none_iff (o := .short 'h' (by decide))).mp (Opt.taken_of_head_ne _ h)⟩
  cases k with
  | longPath | longFile =>
    obtain rfl := List.mem_singleton.mp harg
    exact ⟨not_resembles (by decide) _ _, not_hasLetter_long _ _⟩
  | shortPath | shortFile =>
    rcases List.mem_pair.mp harg with rfl | rfl
    · exact ⟨not_resembles_short _ (by decide), not_hasLetter_single (by decide)⟩
    · exact hvalue

section

variable {null : NullArgs} {prog : CStr} {items : List Item}

theorem noHelp_items (hwf : ∀ i ∈ items, i.WellFormed)
    (hplain : ∀ arg, .other arg ∈ items → ¬ Mistaken arg) : NoHelp (items.flatMap Item.args) := by
  intro arg harg
  obtain ⟨i, hi, harg⟩ := List.mem_flatMap.mp harg
  cases i with
  | path kind value => exact kind.noHelp_args (hwf _ hi) arg harg
  | other a =>
    obtain rfl := List.mem_singleton.mp harg
    have hmistaken := hplain arg hi
    exact ⟨fun h => hmistaken (.inl ⟨_, by simp, h⟩), fun h => hmistaken (.inr ⟨_, by simp, h⟩)⟩

theorem mem_values_iff {kind : PathKind} {value : CStr} :
    value ∈ items.flatMap (Item.values kind) ↔ .path kind value ∈ items := by
  rw [List.mem_flatMap]
  constructor
  · rintro ⟨i, hi, hv⟩
    cases i with
    | other arg => simp [Item.values] at hv
    | path k v =>
      rw [Item.values] at hv
      split_ifs at hv with hk
      · rw [List.mem_singleton.mp hv, ← hk]
        exact hi
      · simp at hv
  · intro h
    exact ⟨_, h, by simp [Item.values]⟩

/-- When nothing is found in the other arguments, only the values for `--file` go wrong. -/
theorem buildsPaths_iff_of_plain (hwf : ∀ i ∈ items, i.WellFormed)
    (hplain : ∀ arg, .other arg ∈ items → ¬ Mistaken arg) : BuildsPaths null prog items ↔
      ∀ value, .path .longFile value ∈ items → null.strDup = some value := by
  have hpasses := passes_items hwf hplain pathKinds [] (by decide) (by simp)
  rw [block_nil] at hpasses
  rw [BuildsPaths, readPaths_of_noHelp (noHelp_items hwf hplain) hpasses]
  simp only [← mem_values_iff]
  generalize hfiles : items.flatMap (Item.values .longFile) = files
  have hgiven : givenPaths items = some "/etc/kubeka".toList ::
      ((items.flatMap (Item.values .longPath)).map some ++
        (items.flatMap (Item.values .shortPath)).map some ++ files.map some ++
        (items.flatMap (Item.values .shortFile)).map some) := by
    simp [givenPaths, pathKinds, hfiles]
  rw [hgiven]
  constructor
  · intro h value hvalue
    split_ifs at h
    have hlist := (List.cons.inj (Except.ok.inj h)).2
    rw [List.append_left_inj, List.append_right_inj] at hlist
    exact List.map_inj_left.mp hlist value hvalue
  · intro h
    have hmap : (files.map fun _ => null.strDup) = files.map some := List.map_congr_left h
    rw [hmap, if_neg (by simp)]

/-! ### What is found in other arguments -/

theorem noHelp_of_ok {args : List CStr} {paths : Paths}
    (h : (readPaths null (prog :: args)).map Prod.fst = .ok paths) : NoHelp args := by
  by_contra hhelp
  have hbool : (optBool (prog :: args) "help".toList 'h').1 = true := by
    rw [optBool, Bool.or_eq_true, Option.isSome_iff_ne_none, Option.isSome_iff_ne_none]
    by_contra hnone
    obtain ⟨hshort, hlong⟩ := not_or.mp hnone
    rw [not_ne_iff] at hshort hlong
    have hlong' := takeFirst_eq_none_iff.mp hlong
    have hargv : (optLong (prog :: args) "help".toList).2 = prog :: args := by
      rw [optLong, fromFirst, takeFirst_of_none hlong']
    rw [hargv] at hshort
    refine hhelp fun arg harg => ⟨?_, ?_⟩
    · exact (Opt.taken_eq_none_iff (o := .long _)).mp (hlong' arg harg)
    · exact shortTaken_eq_none_iff.mp (takeFirst_eq_none_iff.mp hshort arg harg)
  rcases hopt : optBool (prog :: args) "help".toList 'h' with ⟨found, argv⟩
  obtain rfl : found = true := by rw [← hbool, hopt]
  rw [readPaths, hopt] at h
  cases h

/-- Every find adds an element. -/
theorem length_of_ok {args : List CStr} {paths : Paths}
    (h : (readPaths null (prog :: args)).map Prod.fst = .ok paths) :
    paths.length = 1 + (args.map (hits (pathKinds.map PathKind.opt))).sum := by
  have hpasses := @readPaths_of_noHelp null prog _ (noHelp_of_ok h) _ _ _ _ rfl
  rw [h] at hpasses
  split_ifs at hpasses
  rw [Except.ok.inj hpasses, ← sum_length_passes]
  simp [passes, pathKinds]
  omega

/-- What the loops find in the other arguments. -/
def Item.extra : Item → ℕ
  | .path _ _ => 0
  | .other arg => hits (pathKinds.map PathKind.opt) arg

theorem Item.sum_hits {i : Item} (hwf : i.WellFormed) :
    (i.args.map (hits (pathKinds.map PathKind.opt))).sum =
      (pathKinds.flatMap i.values).length + i.extra := by
  cases i with
  | other arg => simp [args, extra, values]
  | path kind value =>
    have hone : ∀ i ∈ [Item.path kind value], i.WellFormed := by simpa using hwf
    have hpasses := passes_items hone (by simp) pathKinds [] (by decide) (by simp)
    simp only [block_nil, List.flatMap_cons, List.flatMap_nil, List.append_nil] at hpasses
    rw [← sum_length_passes, hpasses]
    simp [extra, pathKinds]

theorem sum_hits_items (hwf : ∀ i ∈ items, i.WellFormed) :
    1 + ((items.flatMap Item.args).map (hits (pathKinds.map PathKind.opt))).sum =
      (givenPaths items).length + (items.map Item.extra).sum := by
  induction items with
  | nil => simp [givenPaths]
  | cons i items ih =>
    obtain ⟨hi, hitems⟩ := List.forall_mem_cons.mp hwf
    have hlength : (givenPaths (i :: items)).length =
        (givenPaths items).length + (pathKinds.flatMap i.values).length := by
      simp [givenPaths, pathKinds]
      omega
    have ih := ih hitems
    rw [List.flatMap_cons, List.map_append, List.sum_append, Item.sum_hits hi, List.map_cons,
      List.sum_cons, hlength]
    omega

theorem BuildsPaths.plain (hwf : ∀ i ∈ items, i.WellFormed) (h : BuildsPaths null prog items) :
    ∀ arg, .other arg ∈ items → ¬ Mistaken arg := by
  intro arg harg
  have hextra : (items.map Item.extra).sum = 0 := by
    have hlength := length_of_ok h
    have hsum := sum_hits_items hwf
    omega
  have hhits : hits (pathKinds.map PathKind.opt) arg = 0 :=
    List.sum_eq_zero_iff.mp hextra _ (List.mem_map_of_mem harg)
  have hfinds (k : PathKind) : ¬ k.opt.Finds arg := by
    refine Opt.taken_eq_none_iff.mp (hits_eq_zero_iff.mp hhits _ (List.mem_map_of_mem ?_))
    cases k <;> simp [pathKinds]
  have hhelp := noHelp_of_ok h arg (List.mem_flatMap.mpr ⟨_, harg, by simp [Item.args]⟩)
  rintro (⟨name, hname, hres⟩ | ⟨letter, hletter, hhas⟩)
  · simp only [List.mem_cons, List.not_mem_nil, or_false] at hname
    rcases hname with rfl | rfl | rfl
    · exact hhelp.1 hres
    · exact hfinds .longPath hres
    · exact hfinds .longFile hres
  · simp only [List.mem_cons, List.not_mem_nil, or_false] at hletter
    rcases hletter with rfl | rfl | rfl
    · exact hhelp.2 hhas
    · exact hfinds .shortPath hhas
    · exact hfinds .shortFile hhas

end

/-- The list is right exactly when a NULL string is copied to each value for `--file`, and nothing
is found in the other arguments. -/
theorem readPaths_buildsPaths_iff (null : NullArgs) (prog : CStr) (items : List Item)
    (hwf : ∀ i ∈ items, i.WellFormed) : BuildsPaths null prog items ↔
      (∀ value, .path .longFile value ∈ items → null.strDup = some value) ∧
        ∀ arg, .other arg ∈ items → ¬ Mistaken arg := by
  constructor
  · intro h
    have hplain := h.plain hwf
    exact ⟨(buildsPaths_iff_of_plain hwf hplain).mp h, hplain⟩
  · rintro ⟨hfiles, hplain⟩
    exact (buildsPaths_iff_of_plain hwf hplain).mpr hfiles

theorem lintArgument : OtherArgument "-l".toList ∧ ¬ Mistaken "-l".toList := by
  refine ⟨⟨by decide, fun letters hletters => ?_⟩, ?_⟩
  · obtain rfl := Option.some.inj hletters
    exact .inl (by decide)
  · rintro (⟨name, -, hres⟩ | ⟨letter, hletter, hhas⟩)
    · exact not_resembles_short name (by decide) hres
    · refine not_hasLetter_single ?_ hhas
      rintro rfl
      exact absurd hletter (by decide)

/-- `-f a -l --path=b -p c` -/
theorem twoPaths_buildsPaths : BuildsPaths ⟨none, false⟩ "kubeka".toList
    [.path .shortFile "a".toList, .other "-l".toList, .path .longPath "b".toList,
      .path .shortPath "c".toList] := by
  refine (readPaths_buildsPaths_iff ⟨none, false⟩ "kubeka".toList
    [.path .shortFile "a".toList, .other "-l".toList, .path .longPath "b".toList,
      .path .shortPath "c".toList] ?_).mpr ⟨by simp, ?_⟩
  · simp only [List.forall_mem_cons, Item.WellFormed]
    exact ⟨by decide, lintArgument.1, by decide, by decide, by simp⟩
  · intro arg harg
    obtain rfl : arg = "-l".toList := by simpa using harg
    exact lintArgument.2

/-- `--file=a -l` -/
theorem longFile_not_buildsPaths :
    (∀ i ∈ [Item.path .longFile "a".toList, .other "-l".toList], i.WellFormed) ∧
    ((readPaths ⟨none, true⟩ ["kubeka".toList, "--file=a".toList, "-l".toList]).toOption.map
      Prod.fst) = some [some "/etc/kubeka".toList, none] ∧
    ¬ BuildsPaths ⟨none, true⟩ "kubeka".toList [.path .longFile "a".toList, .other "-l".toList] := by
  have hread : ((readPaths ⟨none, true⟩ ["kubeka".toList, "--file=a".toList,
      "-l".toList]).toOption.map Prod.fst) = some [some "/etc/kubeka".toList, none] := by
    decide +kernel
  refine ⟨?_, hread, fun h => ?_⟩
  · simp only [List.forall_mem_cons, Item.WellFormed]
    exact ⟨by decide, lintArgument.1, by simp⟩
  · change (readPaths ⟨none, true⟩ ["kubeka".toList, "--file=a".toList, "-l".toList]).map _ = _ at h
    rcases hr : readPaths ⟨none, true⟩ ["kubeka".toList, "--file=a".toList, "-l".toList] with _ | r
    · rw [hr] at hread
      simp [Except.toOption] at hread
    · rw [hr] at h hread
      have hlist := (Except.ok.inj h).symm.trans (Option.some.inj hread)
      exact absurd hlist (by decide)

end Kubeka
