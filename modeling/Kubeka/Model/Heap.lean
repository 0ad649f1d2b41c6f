import Kubeka.Library.Store
import Kubeka.Model.Assign
import Kubeka.Model.Instantiate

/-!
# Nodes in memory (`kbnode.c`)

The functions that build and delete a tree once more, now on nodes with
pointers: a node is attached to a list of its parent when it is made, and
deleting it takes it out of the lists again. Allocations succeed. `ds_array_rm`
takes out the element at an index and changes nothing past the end.
-/

namespace Kubeka

/-- `struct kbnode_t`; `symtab` is NULL when the table could not be copied. -/
structure NodeCell where
  type : KbnodeType
  symtab : Option Symtab
  parent : Option Ref
  jobs : List Ref
  handlers : List Ref

/-- A node without children. -/
def NodeCell.childless (type : KbnodeType) (symtab : Option Symtab) (parent : Option Ref) :
    NodeCell where
  type := type
  symtab := symtab
  parent := parent
  jobs := []
  handlers := []

abbrev Heap := Store NodeCell

def nodeFindJob (node : NodeCell) (job : Ref) : Option ℕ := node.jobs.idxOf? job

def nodeFindHandler (node : NodeCell) (handler : Ref) : Option ℕ := node.handlers.idxOf? handler

/-- `kbsymtab_del` looks into the table that it is given. -/
def kbsymtabDel : Option Symtab → Except Fault Unit
  | none => .error .undefined
  | some _ => .ok ()

/-! ### Deleting -/

/-- `ds_array_rm` in the jobs at an index that was found. -/
def NodeCell.rmJob (L : Libds) (node : NodeCell) (me : Option ℕ) : NodeCell :=
  { node with jobs := match me with
    | none => node.jobs
    | some me => L.arrayRm node.jobs me }

/-- The parent after the node was searched in both of its lists. -/
def NodeCell.detach (L : Libds) (parent : NodeCell) (node : Ref) : NodeCell :=
  let parent := parent.rmJob L (nodeFindJob parent node)
  -- the index among the handlers, but the list of jobs
  parent.rmJob L (nodeFindHandler parent node)

def detachFromParent (L : Libds) (h : Heap) (node : Ref) : Option Ref → Except Fault Heap
  | none => .ok h
  | some p => do
    let parent ← h.read p
    .ok (h.set p (parent.detach L node))

def nodeDel (L : Libds) : ℕ → Heap → Ref → Except Fault Heap
  | 0, _, _ => .error .fuel
  | fuel + 1, h, r => do
    let node ← h.read r
    let h ← detachFromParent L h r node.parent
    let h ← Store.visit NodeCell.jobs (nodeDel L fuel) r node.jobs.length 0 h
    let h ← Store.visit NodeCell.handlers (nodeDel L fuel) r node.handlers.length 0 h
    let node ← h.read r
    kbsymtabDel node.symtab
    .ok (h.release r)

def kbnodeDel (L : Libds) (h : Heap) (r : Ref) : Except Fault Heap := nodeDel L h.next h r

/-! ### Building -/

/-- The parent with one more job or handler. -/
def NodeCell.attach (parent : NodeCell) (childtype : Childtype) (node : Ref) : NodeCell :=
  match childtype with
  | .job => { parent with jobs := parent.jobs ++ [node] }
  | .handler => { parent with handlers := parent.handlers ++ [node] }

/-- `node_new` with an empty file name and line 0; without a parent there is no child type. -/
def nodeNewHeap (L : Libds) (h : Heap) (parent : Option (Ref × Childtype)) (type : KbnodeType) :
    Except Fault (Heap × Ref) :=
  let (h, ret) := h.alloc
    (.childless type (nodeNewSymtab L Alloc.all Alloc.all [] 0) (parent.map Prod.fst))
  match parent with
  | none => .ok (h, ret)
  | some (p, childtype) => do
    let node ← h.read p
    .ok (h.set p (node.attach childtype ret), ret)

/-- From a node upwards; `steps` is the fuel. -/
def nodeFindparentHeap (h : Heap) (id : CStr) : ℕ → Option Ref → Except Fault (Option Ref)
  | _, none => .ok none
  | 0, some _ => .error .fuel
  | steps + 1, some r => do
    let node ← h.read r
    -- without a table the ID is the empty text
    if node.symtab.elim [] nodeId = id then .ok (some r)
    else nodeFindparentHeap h id steps node.parent

/-- The loop over the children, each of them made by `build`; the errors are counted, and the flag
is false when the loop was left on one. -/
def instantiateChildrenHeap (all : List Kbnode) (parent : Option Ref)
    (build : Heap → Childtype → Kbnode → Except Fault (Heap × Option Ref × ℕ)) :
    List Djob → Heap → Except Fault (Heap × Bool × ℕ)
  | [], h => .ok (h, true, 0)
  | d :: ds, h =>
    match nodeFindbyid all d.id with
    | none => do
      let (h, ok, n) ← instantiateChildrenHeap all parent build ds h
      .ok (h, ok, 1 + n)
    | some ref => do
      match ← nodeFindparentHeap h d.id h.next parent with
      | some _ => .ok (h, false, 1)
      | none =>
        match ← build h d.childtype ref with
        | (h, none, n) => .ok (h, false, n + 1)
        | (h, some _, n) => do
          let (h, ok, m) ← instantiateChildrenHeap all parent build ds h
          .ok (h, ok, n + m)

/-- The rest of `node_instantiate` once the node `ret` has its table: a node that is left on an error
is deleted. -/
def instantiateRefsHeap (L : Libds) (all : List Kbnode) (parent : Option Ref)
    (build : Heap → Childtype → Kbnode → Except Fault (Heap × Option Ref × ℕ)) (src : Kbnode)
    (ret : Ref) (h : Heap) : Except Fault (Heap × Option Ref × ℕ) :=
  match nodeFindDependentJobs src.symtab all with
  | (none, n) => .ok (h, some ret, n)
  | (some djobs, n) => do
    let (h, ok, m) ← instantiateChildrenHeap all parent build djobs h
    if ok then .ok (h, some ret, n + m)
    else do
      let h ← nodeDel L h.next h ret
      .ok (h, none, n + m)

/-- The node made, or NULL, and the errors counted. -/
def nodeInstantiateHeap (L : Libds) (all : List Kbnode) :
    ℕ → Heap → Option (Ref × Childtype) → Kbnode → Except Fault (Heap × Option Ref × ℕ)
  | 0, _, _, _ => .error .fuel
  | fuel + 1, h, parent, src => do
    let (h, ret) ← nodeNewHeap L h parent src.type
    let node ← h.read ret
    kbsymtabDel node.symtab
    let h := h.set ret { node with symtab := kbsymtabCopy L src.symtab }
    match kbsymtabCopy L src.symtab with
    | none => do
      let h ← nodeDel L h.next h ret
      .ok (h, none, 1)
    | some _ =>
      instantiateRefsHeap L all (parent.map Prod.fst)
        (fun h childtype ref => nodeInstantiateHeap L all fuel h (some (ret, childtype)) ref)
        src ret h

def kbnodeInstantiateHeap (L : Libds) (h : Heap) (src : Kbnode) (all : List Kbnode) :
    Except Fault (Heap × Option Ref × ℕ) :=
  nodeInstantiateHeap L all (instantiateFuel all) h none src

end Kubeka
