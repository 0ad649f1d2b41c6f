import Kubeka.Model.Node

/-!
# Builtin functions and the evaluation of trees (`kbbi.c`, `kbtree.c`)

The substitution loop of `kbtree_eval` has no bound of its own. It is run here
with `fuel` rounds, and evaluation stops with the loop that needed more. A
count of errors stands for the increments of `*nerrors`; `*nwarnings` is only
touched in a branch that `kbnode_getvalue_all`, which never returns NULL, rules
out.
-/

namespace Kubeka

/-! ### The process environment -/

abbrev Env := CStr → Option CStr

/-- `setenv` with overwriting; a name that is empty or has a `=` is refused. -/
def setenv (env : Env) (name value : CStr) : ℤ × Env :=
  if name = [] ∨ '=' ∈ name then (-1, env)
  else (0, fun n => if n = name then some value else env n)

/-! ### Builtin functions -/

/-- What resolving a reference returns: the text or NULL, errors counted, and the environment. -/
structure Resolved where
  text : Option CStr
  nerrors : ℕ
  env : Env

def biSetenv (params : CStr) (env : Env) : Resolved :=
  match kbutilStrsplit params '=' with
  | name :: value :: _ =>
    let (rc, env') := setenv env name value
    { text := some [], nerrors := if rc ≠ 0 then 1 else 0, env := env' }
  | _ => { text := none, nerrors := 1, env := env }

def biGetenv (params : CStr) (env : Env) : Resolved :=
  { text := some ((env params).getD []), nerrors := 0, env := env }

/-- The table `functions`. -/
def builtinFunctions : List (CStr × (CStr → Env → Resolved)) :=
  [("setenv".toList, biSetenv), ("getenv".toList, biGetenv)]

def kbbiFptr (name : CStr) : Option (CStr → Env → Resolved) :=
  (builtinFunctions.find? fun f => name = f.1).map (·.2)

/-! ### References -/

def refOpen : CStr := "$<".toList

/-- A reference `$<function params>`. -/
def execBuiltin (ref : CStr) (env : Env) : Resolved :=
  match strchr (ref.drop 2) ' ' with
  | none => { text := none, nerrors := 1, env := env }
  | some (func, params) =>
    match strchr params '>' with
    | none => { text := none, nerrors := 1, env := env }
    | some (params, _) =>
      match kbbiFptr func with
      | none => { text := none, nerrors := 1, env := env }
      | some fptr => fptr params env

/-- The text a reference stands for in a node with the given ancestors. -/
def resolve (scope : List Symtab) (ref : CStr) (env : Env) : Resolved :=
  if ' ' ∈ ref then execBuiltin ref env
  else
    match strchr (ref.drop 2) '>' with
    | none => { text := none, nerrors := 1, env := env }
    | some (name, _) =>
      match kbnodeResolve scope name with
      | none => { text := none, nerrors := 1, env := env }
      | some values => { text := some (kbutilStrarrayFormat values), nerrors := 0, env := env }

/-- The leftmost reference of a text, from `$<` to the next `>`, and the errors counted. -/
def findNextRef (src : CStr) : Option CStr × ℕ :=
  match strstr src refOpen with
  | none => (none, 0)
  | some (_, start) =>
    match strchr start '>' with
    | none => (none, 1)
    | some (name, _) => (some (refOpen ++ name ++ ['>']), 0)

/-! ### The substitution loop -/

/-- What the loop leaves: errors counted, the environment, and the text reached. -/
structure Substituted where
  nerrors : ℕ
  env : Env
  newvalue : CStr

/-- `while (!errors && (ref = find_next_ref (...)))`, at most `fuel` times. -/
def substLoop (L : Libds) (scope : List Symtab) : ℕ → Env → CStr → Option Substituted
  | 0, _, _ => none
  | fuel + 1, env, newvalue =>
    match findNextRef newvalue with
    | (none, errors) => some { nerrors := errors, env := env, newvalue := newvalue }
    | (some ref, _) =>
      match resolve scope ref env with
      | ⟨some resolved, 0, env'⟩ => substLoop L scope fuel env' (L.strsubst newvalue ref resolved)
      | ⟨_, errors, env'⟩ => some { nerrors := errors, env := env', newvalue := newvalue }

/-- Where a substitution loop started. -/
structure LoopStart where
  scope : List Symtab
  env : Env
  value : CStr

def substitute (L : Libds) (scope : List Symtab) (env : Env) (value : CStr) (fuel : ℕ) :
    Except LoopStart Substituted :=
  match substLoop L scope fuel env value with
  | none => .error { scope := scope, env := env, value := value }
  | some r => .ok r

/-! ### Values, keys and children of a node -/

/-- What evaluation carries through a node: its table, the environment and the errors counted. -/
structure NodeEval where
  symtab : Symtab
  env : Env
  nerrors : ℕ

/-- The values of one key from position `j` on; an error leaves the rest of them alone. -/
def evalValues (L : Libds) (up : List Symtab) (key : CStr) :
    ℕ → List CStr → Symtab → Env → ℕ → Except LoopStart NodeEval
  | _, [], st, env, _ => pure { symtab := st, env := env, nerrors := 0 }
  | j, value :: values, st, env, fuel => do
    let r ← substitute L (st :: up) env value fuel
    if r.nerrors = 0 then
      evalValues L up key (j + 1) values (kbnodeSetSingle st key j r.newvalue).2 r.env fuel
    else pure { symtab := st, env := r.env, nerrors := r.nerrors }

/-- All keys of a node, each of them after a check that the node still has its origin. -/
def evalKeys (L : Libds) (up : List Symtab) :
    List CStr → Symtab → Env → ℕ → Except LoopStart NodeEval
  | [], st, env, _ => pure { symtab := st, env := env, nerrors := 0 }
  | key :: keys, st, env, fuel =>
    match kbnodeGetSrcdef st with
    | none => pure { symtab := st, env := env, nerrors := 1 }
    | some _ => do
      let r ← evalValues L up key 0 (kbnodeGetvalueAll st key) st env fuel
      let r' ← evalKeys L up keys r.symtab r.env fuel
      pure { r' with nerrors := r.nerrors + r'.nerrors }

/-- What the evaluation of a tree, or of a list of trees, leaves. -/
structure TreeEval (τ : Type) where
  tree : τ
  env : Env
  nerrors : ℕ

mutual

/-- Evaluate a tree in place: the handlers, then the jobs, then the variables of the root itself,
so that the ancestors of a node are unevaluated when it reads them. -/
def kbtreeEval (L : Libds) (up : List Symtab) :
    KbTree → Env → ℕ → Except LoopStart (TreeEval KbTree)
  | .node type st jobs handlers, env, fuel =>
    match kbnodeGetSrcdef st, kbsymtabKeys st with
    | some _, some keys => do
      let hs ← kbtreeEvalAll L (st :: up) handlers env fuel
      let js ← kbtreeEvalAll L (st :: up) jobs hs.env fuel
      let r ← evalKeys L up keys st js.env fuel
      pure { tree := .node type r.symtab js.tree hs.tree, env := r.env,
             nerrors := hs.nerrors + js.nerrors + r.nerrors }
    | _, _ => pure { tree := .node type st jobs handlers, env := env, nerrors := 1 }

def kbtreeEvalAll (L : Libds) (up : List Symtab) :
    List KbTree → Env → ℕ → Except LoopStart (TreeEval (List KbTree))
  | [], env, _ => pure { tree := [], env := env, nerrors := 0 }
  | t :: ts, env, fuel => do
    let r ← kbtreeEval L up t env fuel
    let rs ← kbtreeEvalAll L up ts r.env fuel
    pure { tree := r.tree :: rs.tree, env := rs.env, nerrors := r.nerrors + rs.nerrors }

end

end Kubeka
