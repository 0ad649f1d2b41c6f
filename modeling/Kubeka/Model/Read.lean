import Kubeka.Model.Assign

/-!
# Reading files (`kbnode_read_file` in `kbnode.c`)

The reader takes a file line by line and appends a node to `dst` for every
header. `dst` is an array of pointers: an element is the node, or `none` once
the node has been deleted and the pointer dangles. `current` is the node that
assignments go to, given by its place in `dst`, as every node that becomes
current is appended. A run that reads or deletes through a dangling pointer, or
appends to an element behind the end of an array, has no defined result.
Allocations succeed.
-/

namespace Kubeka

/-! ### Lines -/

/-- `fgets` with room for `n` characters: the line and the rest of the file. -/
def fgets : ℕ → CStr → CStr × CStr
  | _, [] => ([], [])
  | 0, s => ([], s)
  | n + 1, c :: s =>
    if c = '\n' then ([c], s)
    else ((c :: (fgets n s).1), (fgets n s).2)
termination_by structural _ s => s

/-- `static const int line_len = 1024 * 1024` -/
def lineLen : ℕ := 1024 * 1024

/-- All lines that `fgets` gives of a file; each takes a character, so the length is enough fuel. -/
def fileLines (content : CStr) : List CStr :=
  let rec go : ℕ → CStr → List CStr
    | 0, _ => []
    | _, [] => []
    | fuel + 1, s => (fgets (lineLen - 1) s).1 :: go fuel (fgets (lineLen - 1) s).2
  go content.length content

/-- What the reader sees in the buffer: the text up to the first NUL. -/
def cstring (buffer : CStr) : CStr := buffer.takeWhile (· ≠ '\x00')

/-- Name and value of an assignment with this operator. -/
def parseNv (L : Libds) (line delim : CStr) : Option (CStr × CStr) :=
  (strstr line delim).map fun nv => (L.strTrim nv.1, L.strTrim nv.2)

/-- The kinds of lines that the reader tells apart. -/
inductive Line where
  | carriageReturn
  | unterminated
  | blank
  /-- a header without its closing bracket -/
  | mangled
  | header (typename : CStr)
  | append (name value : CStr)
  | assign (name value : CStr)
  | unrecognised
  deriving DecidableEq, Repr

def classify (L : Libds) (buffer : CStr) : Line :=
  let line := cstring buffer
  if '\r' ∈ line then .carriageReturn
  else
    match strchr line '\n' with
    | none => .unterminated
    | some (line, _) =>
      let line := match strchr line '#' with
        | some (text, _) => text
        | none => line
      let line := L.strTrim line
      if line = [] then .blank
      else if line.head? = some '[' then
        match strchr line ']' with
        | none => .mangled
        | some (header, _) => .header header.tail
      else
        match parseNv L line "+=".toList with
        | some (name, value) => .append name value
        | none =>
          match parseNv L line "=".toList with
          | some (name, value) => .assign name value
          | none => .unrecognised

/-! ### Nodes -/

/-- `node_type_names`; UNKNOWN is `none`. -/
def nodeTypeType (name : CStr) : Option KbnodeType :=
  if name = "periodic".toList then some .periodic
  else if name = "job".toList then some .job
  else if name = "entrypoint".toList then some .entrypoint
  else none

/-- `node_new` without a parent: NULL for an unknown type; a node whose variables cannot be set is
deleted, and its address is returned all the same. -/
def nodeNew (L : Libds) (fname : CStr) (line : ℕ) (typename : CStr) : Option (Option Kbnode) :=
  (nodeTypeType typename).map fun type =>
    (nodeNewSymtab L .all .all fname line).map fun symtab => { type := type, symtab := symtab }

/-! ### The reader -/

structure Reader where
  dst : List (Option Kbnode)
  current : Option ℕ
  lc : ℕ
  nnodes : ℕ
  nerrors : ℕ
  nwarnings : ℕ

/-- Where a line leads: to the next one, to the cleanup, or nowhere defined. -/
inductive Read where
  | next (s : Reader)
  | cleanup (s : Reader)
  | undefined (s : Reader)

def Read.state : Read → Reader
  | .next s | .cleanup s | .undefined s => s

/-- Assign to the current node with `f`; a failure is an error that leaves no current node. -/
def Reader.assign (s : Reader) (f : Symtab → Option (Bool × Symtab)) : Read :=
  match s.current with
  | none => .cleanup { s with nerrors := s.nerrors + 1 }
  | some i =>
    match s.dst[i]? with
    | some (some node) =>
      match f node.symtab with
      | none => .undefined s
      | some (ok, symtab) =>
        let s := { s with dst := s.dst.set i (some { node with symtab := symtab }) }
        if ok then .next s else .cleanup { s with nerrors := s.nerrors + 1, current := none }
    | _ => .undefined s

def readLine (L : Libds) (fname : CStr) (s : Reader) (buffer : CStr) : Read :=
  let s := { s with lc := s.lc + 1 }
  match classify L buffer with
  | .carriageReturn => .cleanup { s with nerrors := s.nerrors + 1, current := none }
  | .unterminated => .cleanup { s with nerrors := s.nerrors + 1, current := none }
  | .blank => .next s
  -- the one exit that keeps the current node
  | .mangled => .cleanup { s with nerrors := s.nerrors + 1 }
  | .header typename =>
    match nodeNew L fname s.lc typename with
    | none => .cleanup { s with nerrors := s.nerrors + 1, current := none }
    | some node =>
      .next { s with dst := s.dst ++ [node], current := some s.dst.length, nnodes := s.nnodes + 1 }
  | .append name value => s.assign fun st => kbsymtabAppend .all false st name value
  | .assign name value => s.assign fun st => some (kbsymtabSet L .all false st name value)
  | .unrecognised => .next { s with nwarnings := s.nwarnings + 1 }

def readLines (L : Libds) (fname : CStr) : Reader → List CStr → Read
  | s, [] => .next s
  | s, buffer :: buffers =>
    match readLine L fname s buffer with
    | .next s => readLines L fname s buffers
    | r => r

/-- What `kbnode_read_file` leaves behind; `defined` is false when it used a deleted node or what is
behind the end of an array. -/
structure ReadFile where
  ok : Bool
  dst : List (Option Kbnode)
  lc : ℕ
  nerrors : ℕ
  nwarnings : ℕ
  defined : Bool

/-- From the label `cleanup` on: with errors, the current node is deleted. -/
def Reader.finish (s : Reader) : ReadFile :=
  let nwarnings := if s.nnodes = 0 then s.nwarnings + 1 else s.nwarnings
  let ok := s.nerrors = 0 ∧ nwarnings = 0
  let left (dst : List (Option Kbnode)) (defined : Bool) : ReadFile :=
    { ok := ok, dst := dst, lc := s.lc, nerrors := s.nerrors, nwarnings := nwarnings,
      defined := defined }
  if s.nerrors = 0 then left s.dst true
  else
    match s.current with
    | none => left s.dst true
    | some i =>
      match s.dst[i]? with
      | some (some _) => left (s.dst.set i none) true
      | _ => left s.dst false

def Read.result : Read → ReadFile
  | .next s => s.finish
  | .cleanup s => s.finish
  | .undefined s => { s.finish with defined := false }

/-- Before the first line, with the nodes of earlier files. -/
def Reader.start (dst : List (Option Kbnode)) : Reader :=
  { dst := dst, current := none, lc := 0, nnodes := 0, nerrors := 0, nwarnings := 0 }

/-- Read a file with this content, `none` when it cannot be opened. -/
def kbnodeReadFile (L : Libds) (dst : List (Option Kbnode)) (fname : CStr)
    (content : Option CStr) : ReadFile :=
  match content with
  | none => ({ Reader.start dst with nerrors := 1 } : Reader).finish
  | some content => (readLines L fname (.start dst) (fileLines content)).result

end Kubeka
