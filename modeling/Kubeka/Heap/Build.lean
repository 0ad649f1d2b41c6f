import Kubeka.Heap.Delete

/-!
# States of a call in memory

In which states `node_instantiate` is called, and what the heap is like after a
tree was built or a node was dropped again.
-/

namespace Kubeka

open Placed

variable {L : Libds} {all : List Kbnode} {h h' h₁ : Heap} {up : List Symtab}

/-! ### The ancestors in memory -/

/-- Following the pointers to the parents gives these tables; parents are older than children. -/
inductive Ancestors (h : Heap) : Option Ref → List Symtab → Prop
  | root : Ancestors h none []
  | node {r : Ref} {cell : NodeCell} {st : Symtab} {up : List Symtab} (alive : h.cells r = some cell)
      (symtab : cell.symtab = some st) (older : ∀ q, cell.parent = some q → q < r)
      (parent : Ancestors h cell.parent up) : Ancestors h (some r) (st :: up)

theorem Ancestors.length_le {p : Option Ref} {n : ℕ} (ha : Ancestors h p up)
    (hp : ∀ r, p = some r → r < n) : up.length ≤ n := by
  induction ha generalizing n with
  | root => exact Nat.zero_le n
  | node _ _ older _ ih => exact (Nat.succ_le_succ (ih older)).trans (hp _ rfl)

/-- Lists of children may change. -/
theorem Ancestors.congr {p : Option Ref} {n : ℕ} (ha : Ancestors h p up)
    (hp : ∀ r, p = some r → r < n)
    (hcells : ∀ q < n, ∀ cell, h.cells q = some cell → ∃ cell', h'.cells q = some cell' ∧
      cell'.symtab = cell.symtab ∧ cell'.parent = cell.parent) : Ancestors h' p up := by
  induction ha generalizing n with
  | root => exact .root
  | @node r cell st up alive symtab older _ ih =>
    have hr := hp r rfl
    obtain ⟨cell', hcell', hsymtab, hparent⟩ := hcells r hr cell alive
    refine .node hcell' (hsymtab.trans symtab) (hparent ▸ older) ?_
    rw [hparent]
    exact ih older fun q hq => hcells q (hq.trans hr)

theorem nodeFindparentHeap_spec {p : Option Ref} {steps : ℕ} (ha : Ancestors h p up)
    (hsteps : up.length ≤ steps) (id : CStr) :
    ∃ found, nodeFindparentHeap h id steps p = .ok found ∧
      (found = none ↔ nodeFindparent up id = none) := by
  induction ha generalizing steps with
  | root => exact ⟨none, by cases steps <;> rfl, by simp [nodeFindparent]⟩
  | @node r cell st up alive symtab _ _ ih =>
    obtain ⟨steps, rfl⟩ : ∃ k, steps = k + 1 :=
      Nat.exists_eq_add_of_le' ((Nat.le_add_left 1 _).trans hsteps)
    rw [nodeFindparentHeap, Store.read_of_cells alive, ok_bind, symtab]
    by_cases hid : nodeId st = id
    · exact ⟨some r, if_pos hid, by simp [nodeFindparent, hid]⟩
    · obtain ⟨found, hrun, hfound⟩ := ih (Nat.le_of_succ_le_succ hsteps)
      refine ⟨found, (if_neg hid).trans hrun, hfound.trans ?_⟩
      simp [nodeFindparent, hid]

/-! ### The state of a call -/

/-- The node at `r` is alive and has its ancestors, and its children are older than what comes. -/
structure AtNode (h : Heap) (r : Ref) (cell : NodeCell) (st : Symtab) (up : List Symtab) : Prop where
  alive : h.cells r = some cell
  symtab : cell.symtab = some st
  older : ∀ q, cell.parent = some q → q < r
  ancestors : Ancestors h cell.parent up
  next : r < h.next
  lists : ∀ q ∈ cell.jobs ++ cell.handlers, q < h.next

/-- A state in which `node_instantiate` is called. -/
inductive Callable (h : Heap) : Option (Ref × Childtype) → List Symtab → Prop
  | root : Callable h none []
  | child {r : Ref} {cell : NodeCell} {st : Symtab} {up : List Symtab} {childtype : Childtype} :
      AtNode h r cell st up → Callable h (some (r, childtype)) (st :: up)

variable {parent : Option (Ref × Childtype)}

theorem Callable.ancestors (hc : Callable h parent up) :
    Ancestors h (parent.map Prod.fst) up ∧ ∀ r, parent.map Prod.fst = some r → r < h.next := by
  cases hc with
  | root => exact ⟨.root, by simp⟩
  | child hat =>
    refine ⟨.node hat.alive hat.symtab hat.older hat.ancestors, ?_⟩
    rintro r ⟨⟩
    exact hat.next

/-- The cells after a change of the parent. -/
def onParent (h : Heap) (parent : Option (Ref × Childtype))
    (f : Childtype → NodeCell → NodeCell) (q : Ref) : Option NodeCell :=
  match parent with
  | none => h.cells q
  | some (p, childtype) => if q = p then (h.cells q).map (f childtype) else h.cells q

theorem onParent_of_ne {f : Childtype → NodeCell → NodeCell} {q : Ref}
    (hq : parent.map Prod.fst ≠ some q) : onParent h parent f q = h.cells q := by
  cases parent with
  | none => rfl
  | some p => exact if_neg fun heq => hq (congrArg some heq.symm)

@[simp] theorem onParent_self (p : Ref) (childtype : Childtype)
    (f : Childtype → NodeCell → NodeCell) :
    onParent h (some (p, childtype)) f p = (h.cells p).map (f childtype) :=
  if_pos rfl

theorem attach_same (cell : NodeCell) (childtype : Childtype) (r : Ref) :
    (cell.attach childtype r).symtab = cell.symtab ∧
      (cell.attach childtype r).parent = cell.parent ∧
      (cell.attach childtype r).type = cell.type := by
  cases childtype <;> exact ⟨rfl, rfl, rfl⟩

theorem mem_attach {cell : NodeCell} {childtype : Childtype} {r q : Ref} :
    q ∈ (cell.attach childtype r).jobs ++ (cell.attach childtype r).handlers ↔
      q = r ∨ q ∈ cell.jobs ++ cell.handlers := by
  cases childtype with
  | job => simp [NodeCell.attach, or_left_comm]
  | handler => simp [NodeCell.attach, or_comm, or_left_comm]

/-! ### A tree built, and a failure -/

/-- The tree lies in the heap after the call, in new cells, and was attached to the parent. -/
structure Grown (h h' : Heap) (parent : Option (Ref × Childtype)) (t : Placed) : Prop where
  rep : Rep h' (parent.map Prod.fst) t
  fresh : ∀ q ∈ t.refs, h.next ≤ q ∧ q < h'.next
  nodup : t.refs.Nodup
  frame : ∀ q < h.next, h'.cells q = onParent h parent (fun ct cell => cell.attach ct t.ref) q

/-- The node made by the call was attached to the parent and deleted again. -/
structure Dropped (L : Libds) (h h' : Heap) (parent : Option (Ref × Childtype)) : Prop where
  next : h.next < h'.next
  gone : h'.cells h.next = none
  frame : ∀ q < h.next, h'.cells q =
    onParent h parent (fun ct cell => (cell.attach ct h.next).detach L h.next) q

theorem Grown.next_le {t : Placed} (hg : Grown h h' parent t) : h.next ≤ h'.next := by
  obtain ⟨hle, hlt⟩ := hg.fresh t.ref t.ref_mem_refs
  exact hle.trans hlt.le

/-- What a call does, next to what `nodeInstantiate` says. -/
inductive CallSpec (L : Libds) (h : Heap) (parent : Option (Ref × Childtype)) (src : Kbnode) (byJobs : Prop)
    (r : Instantiated) (run : Except Fault (Heap × Option Ref × ℕ)) : Prop
  | built {t : Placed} {h' : Heap} (tree : r.tree = some t.erase) (copied : t.src = src)
      (ran : run = .ok (h', some t.ref, r.nerrors)) (grown : Grown h h' parent t) :
      CallSpec L h parent src byJobs r run
  | dropped {h' : Heap} (tree : r.tree = none) (jobs : byJobs)
      (ran : run = .ok (h', none, r.nerrors)) (dropped : Dropped L h h' parent) :
      CallSpec L h parent src byJobs r run
  | undefined (tree : r.tree = none) (notJobs : ¬ byJobs) (ran : run = .error .undefined) :
      CallSpec L h parent src byJobs r run

/-! ### The children of a node -/

/-- Children placed in memory. -/
structure Kids where
  jobs : List Placed
  handlers : List Placed

namespace Kids

def both (k : Kids) : List Placed := k.jobs ++ k.handlers

def insert (k : Kids) (childtype : Childtype) (t : Placed) : Kids :=
  match childtype with
  | .job => { k with jobs := t :: k.jobs }
  | .handler => { k with handlers := t :: k.handlers }

theorem insert_perm (k : Kids) (childtype : Childtype) (t : Placed) :
    (k.insert childtype t).both.Perm (t :: k.both) := by
  cases childtype with
  | job => exact .refl _
  | handler => exact List.perm_middle

theorem refs_insert_perm (k : Kids) (childtype : Childtype) (t : Placed) :
    ((k.insert childtype t).both.flatMap refs).Perm (t.refs ++ k.both.flatMap refs) := by
  rw [← List.flatMap_cons]
  exact (k.insert_perm childtype t).flatMap_right refs

/-- Without the references these are the children of `nodeInstantiate`. -/
structure Erases (k : Kids) (c : Children) : Prop where
  jobs : c.jobs = k.jobs.map erase
  handlers : c.handlers = k.handlers.map erase

theorem Erases.insert {k : Kids} {c : Children} (he : k.Erases c) (childtype : Childtype)
    (t : Placed) (n : ℕ) : (k.insert childtype t).Erases (c.insert childtype t.erase n) := by
  cases childtype with
  | job => exact ⟨congrArg (t.erase :: ·) he.jobs, he.handlers⟩
  | handler => exact ⟨he.jobs, congrArg (t.erase :: ·) he.handlers⟩

end Kids

/-- The cell of a node with more children. -/
def NodeCell.extend (cell : NodeCell) (k : Kids) : NodeCell :=
  { cell with jobs := cell.jobs ++ k.jobs.map Placed.ref,
              handlers := cell.handlers ++ k.handlers.map Placed.ref }

theorem NodeCell.extend_nil (cell : NodeCell) : cell.extend ⟨[], []⟩ = cell := by
  simp [NodeCell.extend]

theorem NodeCell.extend_insert (cell : NodeCell) (childtype : Childtype) (t : Placed) (k : Kids) :
    cell.extend (k.insert childtype t) = (cell.attach childtype t.ref).extend k := by
  cases childtype <;> simp [NodeCell.extend, Kids.insert, NodeCell.attach]

/-- The children lie in new cells of the heap, below the node at `r`, which is now `cell'`. -/
structure Extended (h h' : Heap) (r : Ref) (k : Kids) (cell' : NodeCell) : Prop where
  rep : ∀ c ∈ k.both, Rep h' (some r) c
  fresh : ∀ q ∈ k.both.flatMap refs, h.next ≤ q ∧ q < h'.next
  nodup : (k.both.flatMap refs).Nodup
  frame : ∀ q < h.next, q ≠ r → h'.cells q = h.cells q
  own : h'.cells r = some cell'
  next : h.next ≤ h'.next

variable {r : Ref} {cell cell' : NodeCell} {st : Symtab} {childtype : Childtype} {k : Kids}
  {t : Placed}

theorem Extended.none (hframe : ∀ q < h.next, q ≠ r → h'.cells q = h.cells q)
    (hown : h'.cells r = some cell') (hnext : h.next ≤ h'.next) :
    Extended h h' r ⟨[], []⟩ cell' :=
  ⟨by simp [Kids.both], by simp [Kids.both], by simp [Kids.both], hframe, hown, hnext⟩

/-- One child, and then the others. -/
theorem Extended.insert (hg : Grown h h₁ (some (r, childtype)) t) (hr : r < h.next)
    (he : Extended h₁ h' r k cell') : Extended h h' r (k.insert childtype t) cell' where
  rep c hc := by
    rcases List.mem_cons.mp ((k.insert_perm childtype t).subset hc) with rfl | hc
    · refine hg.rep.congr fun q hq => he.frame q (hg.fresh q hq).2 ?_
      exact (hr.trans_le (hg.fresh q hq).1).ne'
    · exact he.rep c hc
  fresh q hq := by
    rcases List.mem_append.mp ((k.refs_insert_perm childtype t).subset hq) with hq | hq
    · exact ⟨(hg.fresh q hq).1, (hg.fresh q hq).2.trans_le he.next⟩
    · exact ⟨hg.next_le.trans (he.fresh q hq).1, (he.fresh q hq).2⟩
  nodup := by
    refine (k.refs_insert_perm childtype t).nodup_iff.mpr (List.nodup_append.mpr
      ⟨hg.nodup, he.nodup, fun q hq q' hq' heq => ?_⟩)
    exact absurd (he.fresh q' hq').1 (heq ▸ (hg.fresh q hq).2).not_ge
  frame q hq hqr := by
    rw [he.frame q (hq.trans_le hg.next_le) hqr, hg.frame q hq]
    exact if_neg hqr
  own := he.own
  next := hg.next_le.trans he.next

theorem Extended.root_nodup (he : Extended h h' r k cell') (hr : r < h.next) :
    (r :: k.both.flatMap refs).Nodup :=
  List.nodup_cons.mpr ⟨fun hmem => absurd (he.fresh _ hmem).1 hr.not_ge, he.nodup⟩

/-- The children can be deleted again. -/
theorem Extended.doomed {fuel : ℕ} (he : Extended h h' r k cell') (hr : r < h.next)
    (hfuel : h'.next ≤ fuel + 1) : Doomed L fuel h' r k.both := by
  have hlt : ∀ q ∈ r :: k.both.flatMap refs, q < h'.next := fun q hq => by
    rcases List.mem_cons.mp hq with hqr | hq
    · exact hqr ▸ hr.trans_le he.next
    · exact (he.fresh q hq).2
  have hlength := Lists.length_le_of_forall_lt (he.root_nodup hr) hlt
  exact ⟨fun c hmem => deletes_of_length_le c
    ((refs_length_le hmem).trans (Nat.le_of_succ_le_succ (hlength.trans hfuel))), he.rep,
    he.root_nodup hr⟩

theorem AtNode.grown (hat : AtNode h r cell st up) (hg : Grown h h₁ (some (r, childtype)) t) :
    AtNode h₁ r (cell.attach childtype t.ref) st up where
  alive := by rw [hg.frame r hat.next, onParent_self, hat.alive, Option.map_some]
  symtab := (attach_same cell childtype t.ref).1.trans hat.symtab
  older := (attach_same cell childtype t.ref).2.1 ▸ hat.older
  ancestors := by
    rw [(attach_same cell childtype t.ref).2.1]
    refine hat.ancestors.congr hat.older fun q hq qcell hqcell => ⟨qcell, ?_, rfl, rfl⟩
    rw [hg.frame q (hq.trans hat.next), ← hqcell]
    exact if_neg hq.ne
  next := hat.next.trans_le hg.next_le
  lists q hq := by
    rcases mem_attach.mp hq with rfl | hq
    · exact (hg.fresh _ t.ref_mem_refs).2
    · exact (hat.lists q hq).trans_le hg.next_le

end Kubeka
