import Kubeka.Model.Options
import Kubeka.Model.Read

/-!
# From the paths to the nodes (steps 2 and 3 of `main` in `kubeka.c`)

What `opendir` and `readdir` give is a tree: a path that is no directory, one
that cannot be opened, or the entries in the order of `readdir`. An entry of
type `DT_DIR` is opened below its own path; of the others only the name is
looked at. The files that are found are read one after the other into one array
of nodes. Allocations succeed, and `opendir (NULL)` is assumed to fail with an
`errno` that is not `ENOTDIR`.
-/

namespace Kubeka

/-! ### Directories -/

mutual

/-- What `opendir` finds: `ENOTDIR`, another failure, or a directory. -/
inductive Listing where
  | notDir
  | failed
  | entries (es : List Dirent)

/-- An entry of a directory, with what is found below it when its type is `DT_DIR`. -/
inductive Dirent where
  | subdir (name : CStr) (sub : Listing)
  | other (name : CStr)

end

def Dirent.name : Dirent → CStr
  | .subdir name _ => name
  | .other name => name

def fileExt : CStr := ".kubeka".toList

/-- The name ends with the extension and is longer. -/
def hasExt (name : CStr) : Bool :=
  ! decide (name.length ≤ fileExt.length) && name.drop (name.length - fileExt.length) = fileExt

/-- `ds_str_cat (path, "/", name, NULL)` -/
def entryPath (path name : CStr) : CStr := path ++ "/".toList ++ name

mutual

def processPath (files : List CStr) (path : CStr) : Listing → List CStr
  | .notDir => files ++ [path]
  | .failed => files
  | .entries es => processEntries files path es

/-- `while ((de = readdir (dirp)))` -/
def processEntries (files : List CStr) (path : CStr) : List Dirent → List CStr
  | [] => files
  | de :: es => processEntries (processEntry files path de) path es

/-- One round of the loop: a directory is gone through, and it is listed as well when its name has
the extension. -/
def processEntry (files : List CStr) (path : CStr) : Dirent → List CStr
  | .subdir name sub =>
    if name.head? = some '.' then files
    else
      let files := processPath files (entryPath path name) sub
      if hasExt name then files ++ [entryPath path name] else files
  | .other name =>
    if name.head? = some '.' then files
    else if hasExt name then files ++ [entryPath path name] else files

end

/-- The loop of `process_paths` with the files so far. It is assumed that `opendir (NULL)` fails with
another `errno` than `ENOTDIR`, so that nothing is added for a NULL path. -/
def processPathsFrom (fs : CStr → Listing) (files : List CStr) : Paths → List CStr
  | [] => files
  | none :: paths => processPathsFrom fs files paths
  | some path :: paths => processPathsFrom fs (processPath files path (fs path)) paths

def processPaths (fs : CStr → Listing) (paths : Paths) : List CStr := processPathsFrom fs [] paths

/-! ### Files -/

/-- Step 3, with the nodes of the files so far: what is read of each file, and `none` when a reading
is not defined or leaves a deleted node in the array. -/
def readFiles (L : Libds) (content : CStr → Option CStr) (dst : List (Option Kbnode)) :
    List CStr → Option (List FileRead)
  | [] => some []
  | fname :: fnames =>
    let r := kbnodeReadFile L dst fname (content fname)
    let new := r.dst.drop dst.length
    if r.defined = false ∨ none ∈ new then none
    else
      (readFiles L content r.dst fnames).map fun files =>
        { nodes := new.reduceOption, nerrors := r.nerrors, nwarnings := r.nwarnings } :: files

/-! ### The program -/

/-- How the program ends, or where it goes on. -/
inductive ProgramResult where
  | options (e : OptExit)
  /-- a deleted node is used, or what is behind the end of an array -/
  | undefined
  /-- the evaluation of a value has not ended yet -/
  | evaluating (s : LoopStart)
  | main (r : MainResult)

/-- The linter has ended. -/
def ProgramResult.isMain : ProgramResult → Bool
  | .main _ => true
  | _ => false

/-- What the program finds outside: the directories, the files, what stands behind the end of a text,
and the environment. -/
structure Outside where
  fs : CStr → Listing
  content : CStr → Option CStr
  nul : ℕ → Bool
  env : Env
  null : NullArgs

def program (L : Libds) (o : Outside) (argv : List CStr) (fuel : ℕ) : ProgramResult :=
  match readOptions o.null argv with
  | .error e => .options e
  | .ok (paths, opts) =>
    match readFiles L o.content [] (processPaths o.fs paths) with
    | none => .undefined
    | some files =>
      match main L o.nul opts files o.env fuel with
      | .error s => .evaluating s
      | .ok r => .main r

end Kubeka
