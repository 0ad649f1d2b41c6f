import Kubeka.Library.Scan
import Kubeka.Model.Lint

/-!
# Reading the options (step 1 of `main` in `kubeka.c`)

`argv` starts with the name of the program, which only `opt_unrecognised` looks
at. The queries edit the arguments in place: a long option that was found is
emptied; the letter of a short option becomes `_` when it is the last one of
its argument, and otherwise the argument ends in front of it.
-/

namespace Kubeka

open Scan

/-! ### The queries -/

/-- The loops start with the first argument behind the name of the program. -/
def fromFirst (query : List CStr → Option CStr × List CStr) :
    List CStr → Option CStr × List CStr
  | [] => (none, [])
  | prog :: args => ((query args).1, prog :: (query args).2)

/-- The value that `opt_long` takes from an argument. The two names are compared as far as the
shorter one goes. -/
def longValue (opt : CStr) : CStr → Option CStr
  | '-' :: '-' :: name =>
    let cmpbytes := if name.length < opt.length then name.length else opt.length
    if name.take cmpbytes = opt.take cmpbytes then
      match strchr name '=' with
      | some (_, value) => some value
      | none => some []
    else none
  | _ => none

/-- What `opt_long` returns for an argument, and what it leaves of it. -/
def longTaken (opt arg : CStr) : Option ((List CStr → CStr) × CStr) :=
  (longValue opt arg).map fun value => (fun _ => value, [])

def optLong (argv : List CStr) (opt : CStr) : Option CStr × List CStr :=
  fromFirst (takeFirst (longTaken opt)) argv

/-- The letters of an argument with short options. -/
def shortLetters : CStr → Option CStr
  | '-' :: letters => if letters.head? = some '-' then none else some letters
  | _ => none

theorem shortLetters_eq_some_iff {arg letters : CStr} :
    shortLetters arg = some letters ↔ arg = '-' :: letters ∧ letters.head? ≠ some '-' := by
  unfold shortLetters
  split
  · next rest =>
    split_ifs with h
    · refine iff_of_false (by simp) ?_
      rintro ⟨heq, hne⟩
      exact hne ((List.cons.inj heq).2 ▸ h)
    · constructor
      · rintro ⟨⟩
        exact ⟨rfl, h⟩
      · rintro ⟨heq, -⟩
        rw [(List.cons.inj heq).2]
  · next hother =>
    refine iff_of_false (by simp) ?_
    rintro ⟨rfl, -⟩
    exact hother letters rfl

/-- What `opt_short` returns for an argument with these arguments behind it, and what it leaves. -/
def shortTaken (opt : Char) (arg : CStr) : Option ((List CStr → CStr) × CStr) :=
  match shortLetters arg with
  | none => none
  | some letters =>
    match strchr letters opt with
    | none => none
    | some (front, []) => some (fun next => next.head?.getD [], '-' :: (front ++ ['_']))
    | some (front, value) => some (fun _ => value, '-' :: front)

def optShort (argv : List CStr) (opt : Char) : Option CStr × List CStr :=
  fromFirst (takeFirst (shortTaken opt)) argv

/-- The place of the argument that `opt_short` returns, when it finds the letter at the end of the
one before. -/
def nextPlace (opt : Char) : List CStr → Option ℕ
  | [] => none
  | arg :: args =>
    match (shortLetters arg).bind fun letters => strchr letters opt with
    | none => (nextPlace opt args).map (· + 1)
    | some (_, []) => some 1
    | some _ => none

/-- The options of an argument that `opt_unrecognised` complains about. -/
def unrecognised : CStr → List CStr
  | '-' :: '-' :: name => ['-' :: '-' :: name]
  | '-' :: letters => (letters.filter (· ≠ '_')).map fun c => ['-', c]
  | _ => []

/-- What `opt_unrecognised` reports; the length is what it returns. -/
def optUnrecognised (argv : List CStr) : List CStr := argv.flatMap unrecognised

/-- Both spellings are looked for. -/
def optBool (argv : List CStr) (lopt : CStr) (sopt : Char) : Bool × List CStr :=
  let opt := optLong argv lopt
  let short := optShort opt.2 sopt
  (short.1.isSome || opt.1.isSome, short.2)

/-- The short option, and the long one when that is not found. -/
def optEither (argv : List CStr) (sopt : Char) (lopt : CStr) : Option CStr × List CStr :=
  match optShort argv sopt with
  | (some value, argv) => (some value, argv)
  | (none, argv) => optLong argv lopt

/-! ### Loops -/

/-- An option that is asked for until it is not found any more. The letter `_` would be found for
ever. -/
inductive Opt where
  | long (name : CStr)
  | short (letter : Char) (h : letter ≠ '_')

def Opt.ask (argv : List CStr) : Opt → Option CStr × List CStr
  | .long name => optLong argv name
  | .short letter _ => optShort argv letter

/-- The characters of the arguments that are not marked as taken. -/
def unread (argv : List CStr) : ℕ := (argv.map fun arg => arg.countP (· ≠ '_')).sum

theorem unread_fromFirst_lt {f : CStr → Option ((List CStr → CStr) × CStr)}
    (hf : ∀ {a b a'}, f a = some (b, a') → a'.countP (· ≠ '_') < a.countP (· ≠ '_'))
    {argv : List CStr} (h : (fromFirst (takeFirst f) argv).1 ≠ none) :
    unread (fromFirst (takeFirst f) argv).2 < unread argv := by
  cases argv with
  | nil => exact absurd rfl h
  | cons prog args =>
    have hlt := sum_takeFirst_lt hf h
    simp only [unread, fromFirst, List.map_cons, List.sum_cons]
    exact Nat.add_lt_add_left hlt _

theorem longTaken_unread_lt {opt arg arg' : CStr} {value : List CStr → CStr}
    (h : longTaken opt arg = some (value, arg')) :
    arg'.countP (· ≠ '_') < arg.countP (· ≠ '_') := by
  unfold longTaken longValue at h
  split at h
  · obtain ⟨v, -, hv⟩ := Option.map_eq_some_iff.mp h
    obtain ⟨-, rfl⟩ := Prod.mk.inj hv
    simp
  · simp at h

theorem shortTaken_unread_lt {opt : Char} {arg arg' : CStr} {value : List CStr → CStr}
    (hopt : opt ≠ '_') (h : shortTaken opt arg = some (value, arg')) :
    arg'.countP (· ≠ '_') < arg.countP (· ≠ '_') := by
  unfold shortTaken at h
  split at h
  · simp at h
  · next letters hletters =>
    obtain rfl := (shortLetters_eq_some_iff.mp hletters).1
    split at h
    · simp at h
    · next front hcut =>
      obtain ⟨-, rfl⟩ := Prod.mk.inj (Option.some.inj h)
      rw [Text.eq_of_cut hcut]
      simp [hopt]
    · next front back hne hcut =>
      obtain ⟨-, rfl⟩ := Prod.mk.inj (Option.some.inj h)
      rw [Text.eq_of_cut hcut]
      simp [hopt]

theorem Opt.unread_lt {o : Opt} {argv : List CStr} {value : CStr}
    (h : (o.ask argv).1 = some value) : unread (o.ask argv).2 < unread argv := by
  have hne : (o.ask argv).1 ≠ none := by simp [h]
  cases o with
  | long name => exact unread_fromFirst_lt longTaken_unread_lt hne
  | short letter hletter => exact unread_fromFirst_lt (shortTaken_unread_lt hletter) hne

/-- What the container library does with NULL: the result of `ds_str_dup`, and whether
`ds_array_ins_tail` stores it. -/
structure NullArgs where
  strDup : Option CStr
  insTail : Bool

/-- The exits of `main` before any file is read. -/
inductive OptExit where
  | help
  | storing
  | moreJobs
  | jobAndDaemon
  | noMode
  | unrecognised (nbadopts : ℕ)
  deriving DecidableEq

/-- An element of `paths`; a NULL pointer is `none`. -/
abbrev Paths := List (Option CStr)

def insTail (null : NullArgs) (paths : Paths) (path : Option CStr) : Except OptExit Paths :=
  if path = none ∧ null.insTail = false then .error .storing else .ok (paths ++ [path])

/-- `while ((opt = …)) ds_array_ins_tail (paths, …)`, where `stored` is what the loop stores for the
value that was found. -/
def storeAll (null : NullArgs) (o : Opt) (stored : CStr → Option CStr) (paths : Paths)
    (argv : List CStr) : Except OptExit (Paths × List CStr) :=
  match _h : (o.ask argv).1 with
  | none => .ok (paths, (o.ask argv).2)
  | some value =>
    match insTail null paths (stored value) with
    | .error e => .error e
    | .ok paths => storeAll null o stored paths (o.ask argv).2
termination_by unread argv
decreasing_by exact Opt.unread_lt _h

/-! ### The options of `main` -/

theorem pathLetter_ne : 'p' ≠ '_' := by decide

theorem fileLetter_ne : 'f' ≠ '_' := by decide

/-- Steps 1.1 to 1.3. -/
def readPaths (null : NullArgs) (argv : List CStr) : Except OptExit (Paths × List CStr) := do
  let (help, argv) := optBool argv "help".toList 'h'
  if help then throw .help
  let paths := [some "/etc/kubeka".toList]
  let (paths, argv) ← storeAll null (.long "path".toList) some paths argv
  let (paths, argv) ← storeAll null (.short 'p' pathLetter_ne) some paths argv
  -- what is stored here is `opt_path`, which is NULL after the loop before
  let (paths, argv) ← storeAll null (.long "file".toList) (fun _ => null.strDup) paths argv
  storeAll null (.short 'f' fileLetter_ne) some paths argv

/-- `opt_entry`, after the queries that lead from `start` to `argv`. When it points to an argument,
they may have edited that. -/
def optEntry (start argv : List CStr) (value : CStr) : CStr :=
  ((nextPlace 'j' start.tail).bind fun i => argv.tail[i]?).getD value

/-- Steps 1.4 to 1.7. A daemon is forked before the last query, and the child goes on. -/
def readMode (start : List CStr) : Except OptExit (Options × List CStr) := do
  let (entry, argv) := optEither start 'j' "job".toList
  -- only a single job is supported
  let (again, argv) := optEither argv 'j' "job".toList
  if again.isSome then throw .moreJobs
  let (lint, argv) := optBool argv "lint".toList 'l'
  let (daemon, argv) := optBool argv "daemon".toList 'd'
  if entry.isSome && daemon then throw .jobAndDaemon
  if !daemon && !lint && entry.isNone then throw .noMode
  let (werror, argv) := optBool argv "Werror".toList 'W'
  return ({ entry := entry.map (optEntry start argv), lint := lint, daemon := daemon,
            werror := werror }, argv)

/-- Step 1. -/
def readOptions (null : NullArgs) (argv : List CStr) : Except OptExit (Paths × Options) := do
  let (paths, argv) ← readPaths null argv
  let (options, argv) ← readMode argv
  let nbadopts := (optUnrecognised argv).length
  if nbadopts ≠ 0 then throw (.unrecognised nbadopts)
  return (paths, options)

end Kubeka
