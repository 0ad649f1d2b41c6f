import Kubeka.Model.Check
import Kubeka.Model.Eval
import Kubeka.Model.Instantiate

/-!
# Linting and launching (`kbtree.c`, `kubeka.c`)

Steps 3 to 10 of `main`, from what `kbnode_read_file` made of each file. Every
pass has counters of its own that are added to the totals, and the totals decide
whether anything is run.
-/

namespace Kubeka

/-! ### Reading -/

/-- What reading a file appended to the nodes and counted. -/
structure FileRead where
  nodes : List Kbnode
  nerrors : ℕ
  nwarnings : ℕ

/-- `kbnode_read_file` returns false when it counted something, and only then the counts are
added. -/
def FileRead.ok (f : FileRead) : Bool := f.nerrors = 0 && f.nwarnings = 0

def readNodes (files : List FileRead) : List Kbnode := files.flatMap FileRead.nodes

def readCounts : List FileRead → Counts
  | [] => { nerrors := 0, nwarnings := 0 }
  | f :: files =>
    let counts := readCounts files
    if f.ok then counts
    else { nerrors := f.nerrors + counts.nerrors, nwarnings := f.nwarnings + counts.nwarnings }

/-! ### Gathering the nodes -/

structure Coalesced where
  nodes : List Kbnode
  ndups : ℕ
  nerrors : ℕ
  nwarnings : ℕ

/-- The loop of `kbtree_coalesce` with the set filled so far: the set, or NULL when a duplicate has
no origin, and the duplicates found before that. -/
def coalesceNodes (set : List Kbnode) : List Kbnode → Option (List Kbnode) × ℕ
  | [] => (some set, 0)
  | node :: nodes =>
    match set.find? fun existing => kbnodeCmp existing node = 0 with
    | none => coalesceNodes (set ++ [node]) nodes
    | some existing =>
      if kbnodeGetSrcdef existing.symtab = none ∨ kbnodeGetSrcdef node.symtab = none then (none, 0)
      else
        let r := coalesceNodes set nodes
        (r.1, r.2 + 1)

def kbtreeCoalesce (L : Libds) (nodes : List Kbnode) : Coalesced :=
  if nodes = [] then { nodes := [], ndups := 0, nerrors := 0, nwarnings := 0 }
  else
    match coalesceNodes [] nodes with
    | (some set, n) => { nodes := L.setIterate (some set), ndups := n, nerrors := n, nwarnings := n }
    -- the set is deleted and set to NULL, and the count of duplicates is not handed out
    | (none, n) => { nodes := L.setIterate none, ndups := 0, nerrors := n + 1, nwarnings := 0 }

/-! ### Checking, instantiating and evaluating -/

def kbnodeFilterTypes (nodes : List Kbnode) (types : List KbnodeType) : List Kbnode :=
  nodes.filter fun n => n.type ∈ types

/-- The nodes that become the roots of trees. -/
def entrypoints (nodes : List Kbnode) : List Kbnode :=
  kbnodeFilterTypes nodes [.periodic, .entrypoint]

/-- `nul` is about the bytes that `parse_unit` reads too far, by the position of the node. -/
def checkNodes (nul : ℕ → Bool) (nodes : List Kbnode) : Counts :=
  let counts := nodes.mapIdx fun i n => kbnodeCheck (nul i) n
  { nerrors := (counts.map Counts.nerrors).sum, nwarnings := (counts.map Counts.nwarnings).sum }

/-- The trees of the nodes that could be instantiated, and the errors counted. -/
def instantiateAll (L : Libds) (all : List Kbnode) : List Kbnode → List KbTree × ℕ
  | [] => ([], 0)
  | ep :: eps =>
    let r := kbnodeInstantiate L ep all
    let rs := instantiateAll L all eps
    (r.tree.toList ++ rs.1, r.nerrors + rs.2)

/-- The evaluated trees and the totals at the end of step 7. -/
structure Linted where
  trees : List KbTree
  nerrors : ℕ
  nwarnings : ℕ

def lint (L : Libds) (nul : ℕ → Bool) (files : List FileRead) (env : Env) (fuel : ℕ) :
    Except LoopStart Linted :=
  let read := readCounts files
  let dedup := kbtreeCoalesce L (readNodes files)
  let checks := checkNodes nul dedup.nodes
  let built := instantiateAll L dedup.nodes (entrypoints dedup.nodes)
  do
    let r ← kbtreeEvalAll L [] built.1 env fuel
    pure { trees := r.tree
           nerrors := read.nerrors + dedup.ndups + dedup.nerrors + checks.nerrors + built.2 +
             r.nerrors
           nwarnings := read.nwarnings + dedup.nwarnings + checks.nwarnings }

/-! ### The gate -/

structure Options where
  entry : Option CStr
  lint : Bool
  daemon : Bool
  werror : Bool

/-- How `main` goes on after the lint. -/
inductive MainResult where
  | exit (success : Bool)
  /-- `kbbi_launch` is called -/
  | launch (nodeId : CStr) (trees : List KbTree)
  /-- `kbbi_thread_launch` is called on each tree -/
  | threads (trees : List KbTree)

/-- Something is run. -/
def MainResult.Launches : MainResult → Prop
  | .exit _ => False
  | .launch _ _ | .threads _ => True

instance : DecidablePred MainResult.Launches
  | .exit _ => inferInstanceAs (Decidable False)
  | .launch _ _ | .threads _ => inferInstanceAs (Decidable True)

/-- Steps 8 to 10. -/
def gate (opts : Options) (r : Linted) : MainResult :=
  if r.nerrors ≠ 0 then .exit false
  else if r.nwarnings ≠ 0 ∧ opts.werror then .exit false
  else if opts.lint then .exit true
  else
    match opts.entry with
    | some nodeId => .launch nodeId r.trees
    | none =>
      if opts.daemon then if r.trees = [] then .exit true else .threads r.trees
      else .exit false

def main (L : Libds) (nul : ℕ → Bool) (opts : Options) (files : List FileRead) (env : Env)
    (fuel : ℕ) : Except LoopStart MainResult := do
  let r ← lint L nul files env fuel
  pure (gate opts r)

end Kubeka
