import Kubeka.Library.Interaction
import Kubeka.Options.Loops

/-!
# The questions of `main`

What `main` learns about its options is the answers to a few kinds of questions
about the argument vector, and an answer is the list of the values found. The
vector is edited by the answers. `readOptions` is the play of this dialogue,
followed by the count of what nobody asked for.
-/

namespace Kubeka

open Scan Interaction

/-- A question about the options. -/
inductive Question where
  /-- `opt_bool` -/
  | flag (lopt : CStr) (sopt : Char)
  /-- a loop over all values -/
  | all (o : Opt)
  /-- `opt_short`, and `opt_long` when it returns NULL -/
  | either (sopt : Char) (lopt : CStr)

/-- The values found, and the vector that is left; a flag has the empty value. -/
def ask (argv : List CStr) : Question → List CStr × List CStr
  | .flag lopt sopt =>
    let found := optBool argv lopt sopt
    (if found.1 then [[]] else [], found.2)
  | .all o => o.all argv
  | .either sopt lopt =>
    let found := optEither argv sopt lopt
    (found.1.toList, found.2)

/-- A program that reads options. -/
abbrev Dialogue (α : Type) := Prog Question (List CStr) (Except OptExit α)

def pathsDialogue (null : NullArgs) : Dialogue Paths :=
  .call (.flag "help".toList 'h') fun help =>
  if help ≠ [] then .done (.error .help) else
  .call (.all (.long "path".toList)) fun longPaths =>
  .call (.all (.short 'p' pathLetter_ne)) fun shortPaths =>
  .call (.all (.long "file".toList)) fun longFiles =>
  if null.insTail = false ∧ none ∈ longFiles.map fun _ => null.strDup then
    .done (.error .storing)
  else
  .call (.all (.short 'f' fileLetter_ne)) fun shortFiles =>
  .done (.ok ([some "/etc/kubeka".toList] ++ longPaths.map some ++ shortPaths.map some ++
    (longFiles.map fun _ => null.strDup) ++ shortFiles.map some))

def modeDialogue : Dialogue Options :=
  .call (.either 'j' "job".toList) fun entry =>
  .call (.either 'j' "job".toList) fun again =>
  if again ≠ [] then .done (.error .moreJobs) else
  .call (.flag "lint".toList 'l') fun lint =>
  .call (.flag "daemon".toList 'd') fun daemon =>
  if entry ≠ [] ∧ daemon ≠ [] then .done (.error .jobAndDaemon) else
  if daemon = [] ∧ lint = [] ∧ entry = [] then .done (.error .noMode) else
  .call (.flag "Werror".toList 'W') fun werror =>
  .done (.ok { entry := entry.head?, lint := lint ≠ [], daemon := daemon ≠ [],
               werror := werror ≠ [] })

/-- All questions of `main`. -/
def optionsDialogue (null : NullArgs) : Dialogue (Paths × Options) :=
  (pathsDialogue null).bind fun
    | .error e => .done (.error e)
    | .ok paths => modeDialogue.bind fun r => .done (r.map fun options => (paths, options))

theorem readPaths_eq_play (null : NullArgs) (argv : List CStr) : readPaths null argv =
    ((pathsDialogue null).play ask argv).1.map fun paths =>
      (paths, ((pathsDialogue null).play ask argv).2) := by
  rcases hhelp : optBool argv "help".toList 'h' with ⟨_ | _, argv₁⟩
  · rcases hlong : (Opt.long "path".toList).all argv₁ with ⟨longPaths, argv₂⟩
    rcases hshort : (Opt.short 'p' (by decide)).all argv₂ with ⟨shortPaths, argv₃⟩
    rcases hlongFiles : (Opt.long "file".toList).all argv₃ with ⟨longFiles, argv₄⟩
    simp only [readPaths, pathsDialogue, Prog.play_call, ask, hhelp, hlong, hshort, hlongFiles,
      storeAll_some, bind, Except.bind, Bool.false_eq_true, if_false, ne_eq, not_true_eq_false]
    rw [storeAll_eq, hlongFiles]
    by_cases hfail : null.insTail = false ∧ none ∈ longFiles.map fun _ => null.strDup
    · simp only [if_pos hfail]
      rfl
    · simp only [if_neg hfail]
      rfl
  · simp only [readPaths, pathsDialogue, Prog.play_call, ask, hhelp]
    rfl

theorem readMode_eq_play (argv : List CStr) : readMode argv =
    (modeDialogue.play ask argv).1.map fun options =>
      ({ options with entry := options.entry.map (optEntry argv (modeDialogue.play ask argv).2) },
        (modeDialogue.play ask argv).2) := by
  rcases hentry : optEither argv 'j' "job".toList with ⟨entry, argv₁⟩
  rcases hagain : optEither argv₁ 'j' "job".toList with ⟨_ | again, argv₂⟩
  · rcases hlint : optBool argv₂ "lint".toList 'l' with ⟨lint, argv₃⟩
    rcases hdaemon : optBool argv₃ "daemon".toList 'd' with ⟨daemon, argv₄⟩
    rcases hwerror : optBool argv₄ "Werror".toList 'W' with ⟨werror, argv₅⟩
    simp only [readMode, hentry, hagain, hlint, hdaemon, hwerror]
    simp only [modeDialogue, Prog.play_call, ask, hentry, hagain, Option.toList_none, ne_eq,
      not_true_eq_false, if_false, hlint, hdaemon]
    cases entry <;> cases lint <;> cases daemon <;>
      simp only [Option.toList, reduceCtorEq, not_true_eq_false, not_false_eq_true, and_true,
        and_false, and_self, if_true, if_false, Bool.false_eq_true, Prog.play_call, ask, hwerror] <;>
      cases werror <;> rfl
  · simp only [readMode, modeDialogue, Prog.play_call, ask, hentry, hagain]
    rfl

/-- The options that `main` has in the end. The argument that `opt_entry` points to may have been
edited since it was found. -/
def finalOptions (null : NullArgs) (argv : List CStr) (options : Options) : Options :=
  { options with
    entry := options.entry.map (optEntry ((pathsDialogue null).play ask argv).2
      ((optionsDialogue null).play ask argv).2) }

/-- `main` plays the dialogue, and then counts what is left. -/
theorem readOptions_eq_play (null : NullArgs) (argv : List CStr) : readOptions null argv =
    ((optionsDialogue null).play ask argv).1.bind fun r =>
      let nbadopts := (optUnrecognised ((optionsDialogue null).play ask argv).2).length
      if nbadopts ≠ 0 then .error (.unrecognised nbadopts)
      else .ok (r.1, finalOptions null argv r.2) := by
  simp only [finalOptions]
  rw [readOptions, readPaths_eq_play, optionsDialogue, Prog.play_bind]
  rcases (pathsDialogue null).play ask argv with ⟨_ | paths, argv₁⟩
  · rfl
  · simp only [Except.map, bind, Except.bind, Prog.play_bind, readMode_eq_play]
    rcases modeDialogue.play ask argv₁ with ⟨_ | options, argv₂⟩
    · rfl
    · by_cases hbad : (optUnrecognised argv₂).length ≠ 0
      · simp only [if_pos hbad]
        exact (if_pos hbad).symm
      · simp only [if_neg hbad]
        exact (if_neg hbad).symm

end Kubeka
