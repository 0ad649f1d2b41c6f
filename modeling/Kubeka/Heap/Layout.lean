import Kubeka.Library.Lists
import Kubeka.Model.Heap

/-!
# Trees in memory

A tree with the references of its nodes, the nodes of the configuration they
are copied from and the copied tables. `Rep` says that the tree lies in a heap:
each node has its cell, with the references of its children in the two lists
and with the pointer to its parent.
-/

namespace Kubeka

/-- A tree with the references of its nodes. -/
inductive Placed where
  | node (ref : Ref) (src : Kbnode) (symtab : Symtab) (jobs handlers : List Placed)

namespace Placed

def ref : Placed → Ref
  | .node ref _ _ _ _ => ref

def src : Placed → Kbnode
  | .node _ src _ _ _ => src

def symtab : Placed → Symtab
  | .node _ _ symtab _ _ => symtab

def jobs : Placed → List Placed
  | .node _ _ _ jobs _ => jobs

def handlers : Placed → List Placed
  | .node _ _ _ _ handlers => handlers

def children (t : Placed) : List Placed := t.jobs ++ t.handlers

/-- Induction over a tree with a hypothesis for every child. -/
@[elab_as_elim]
theorem inductionOn {P : Placed → Prop} (t : Placed)
    (node : ∀ r src st js hs, (∀ c ∈ js ++ hs, P c) → P (.node r src st js hs)) : P t :=
  Placed.rec (motive_1 := P) (motive_2 := fun ts => ∀ c ∈ ts, P c)
    (fun r src st js hs hj hh => node r src st js hs (List.forall_mem_append.mpr ⟨hj, hh⟩)) (by simp)
    (fun t ts ht hts c hc => by
      rcases List.mem_cons.mp hc with rfl | hc
      · exact ht
      · exact hts c hc) t

mutual

/-- The references of the nodes. -/
def refs : Placed → List Ref
  | .node r _ _ jobs handlers => r :: (refsAll jobs ++ refsAll handlers)

def refsAll : List Placed → List Ref
  | [] => []
  | t :: ts => refs t ++ refsAll ts

end

mutual

/-- The tree without the references. -/
def erase : Placed → KbTree
  | .node _ src st jobs handlers => .node src.type st (eraseAll jobs) (eraseAll handlers)

def eraseAll : List Placed → List KbTree
  | [] => []
  | t :: ts => erase t :: eraseAll ts

end

theorem refsAll_eq (ts : List Placed) : refsAll ts = ts.flatMap refs :=
  Lists.eq_flatMap rfl (fun _ _ => rfl) ts

@[simp] theorem refs_node (r : Ref) (src : Kbnode) (st : Symtab) (js hs : List Placed) :
    (node r src st js hs).refs = r :: (js ++ hs).flatMap refs := by
  rw [refs, refsAll_eq, refsAll_eq, List.flatMap_append]

theorem eraseAll_eq (ts : List Placed) : eraseAll ts = ts.map erase := by
  induction ts with
  | nil => rfl
  | cons t ts ih => rw [eraseAll, ih, List.map_cons]

@[simp] theorem erase_node (r : Ref) (src : Kbnode) (st : Symtab) (js hs : List Placed) :
    (node r src st js hs).erase = .node src.type st (js.map erase) (hs.map erase) := by
  rw [erase, eraseAll_eq, eraseAll_eq]

@[simp] theorem erase_type (t : Placed) : t.erase.type = t.src.type := by
  cases t
  rw [erase_node]
  rfl

@[simp] theorem erase_symtab (t : Placed) : t.erase.symtab = t.symtab := by
  cases t
  rw [erase_node]
  rfl

@[simp] theorem erase_jobs (t : Placed) : t.erase.jobs = t.jobs.map erase := by
  cases t
  rw [erase_node]
  rfl

@[simp] theorem erase_handlers (t : Placed) : t.erase.handlers = t.handlers.map erase := by
  cases t
  rw [erase_node]
  rfl

theorem ref_mem_refs (t : Placed) : t.ref ∈ t.refs := by
  obtain ⟨r, src, st, js, hs⟩ := t
  rw [refs_node]
  exact List.mem_cons_self

theorem mem_flatMap_refs {q : Ref} {t : Placed} {ts : List Placed} (ht : t ∈ ts) (hq : q ∈ t.refs) :
    q ∈ ts.flatMap refs :=
  List.mem_flatMap.mpr ⟨t, ht, hq⟩

theorem refs_sublist {t : Placed} {ts : List Placed} (h : t ∈ ts) :
    t.refs.Sublist (ts.flatMap refs) := by
  have hsub := (List.singleton_sublist.mpr h).flatMap refs
  rwa [List.flatMap_singleton] at hsub

theorem refs_length_le {t : Placed} {ts : List Placed} (h : t ∈ ts) :
    t.refs.length ≤ (ts.flatMap refs).length :=
  (refs_sublist h).length_le

theorem refs_children (t : Placed) : t.refs = t.ref :: t.children.flatMap refs := by
  obtain ⟨r, src, st, js, hs⟩ := t
  exact refs_node r src st js hs

theorem map_ref_sublist : ∀ ts : List Placed, (ts.map ref).Sublist (ts.flatMap refs)
  | [] => .slnil
  | t :: ts => (List.singleton_sublist.mpr (ref_mem_refs t)).append (map_ref_sublist ts)

end Placed

/-! ### Lying in a heap -/

/-- The cell of a node whose children are placed. -/
def NodeCell.of (src : Kbnode) (st : Symtab) (parent : Option Ref) (jobs handlers : List Placed) :
    NodeCell where
  type := src.type
  symtab := some st
  parent := parent
  jobs := jobs.map Placed.ref
  handlers := handlers.map Placed.ref

/-- The tree lies in the heap, below the parent. -/
inductive Rep (h : Heap) : Option Ref → Placed → Prop
  | node {parent : Option Ref} {r : Ref} {src : Kbnode} {st : Symtab} {jobs handlers : List Placed} :
      h.cells r = some (.of src st parent jobs handlers) →
      (∀ c ∈ jobs ++ handlers, Rep h (some r) c) → Rep h parent (.node r src st jobs handlers)

variable {h h' : Heap} {parent : Option Ref}

theorem Rep.cell {t : Placed} (hr : Rep h parent t) :
    h.cells t.ref = some (.of t.src t.symtab parent t.jobs t.handlers) := by
  cases hr with
  | node hcell _ => exact hcell

theorem Rep.child {t c : Placed} (hr : Rep h parent t) (hc : c ∈ t.children) :
    Rep h (some t.ref) c := by
  cases hr with
  | node _ hchildren => exact hchildren c hc

/-- Only the cells of the tree matter. -/
theorem Rep.congr {t : Placed} (hr : Rep h parent t) (hcells : ∀ q ∈ t.refs, h'.cells q = h.cells q) :
    Rep h' parent t := by
  induction t using Placed.inductionOn generalizing parent with
  | node r src st js hs ih =>
    rw [Placed.refs_node] at hcells
    refine .node ((hcells r List.mem_cons_self).trans hr.cell) fun c hc => ?_
    refine ih c hc (hr.child hc) fun q hq => ?_
    exact hcells q (List.mem_cons_of_mem _ (Placed.mem_flatMap_refs hc hq))

/-! ### Following pointers -/

/-- From a node to one that it points to through its lists, in any number of steps. -/
inductive Descends (h : Heap) (r : Ref) : Ref → Prop
  | here : Descends h r r
  | child {q c : Ref} {cell : NodeCell} : Descends h r q → h.cells q = some cell →
      c ∈ cell.jobs ++ cell.handlers → Descends h r c

/-- A node of a tree, with the reference of its parent. -/
inductive Below (parent : Option Ref) (t : Placed) : Option Ref → Placed → Prop
  | here : Below parent t parent t
  | child {p : Option Ref} {n c : Placed} : Below parent t p n → c ∈ n.children →
      Below parent t (some n.ref) c

theorem Below.head {t c n : Placed} {p : Option Ref} (hc : c ∈ t.children)
    (hb : Below (some t.ref) c p n) : Below parent t p n := by
  induction hb with
  | here => exact .child .here hc
  | child _ hk ih => exact .child ih hk

/-- What holds of all nodes holds of the root and of all nodes below the children. -/
theorem forall_below_iff {P : Placed → Prop} {t : Placed} :
    (∀ p n, Below parent t p n → P n) ↔
      P t ∧ ∀ c ∈ t.children, ∀ p n, Below (some t.ref) c p n → P n := by
  constructor
  · exact fun hP => ⟨hP parent t .here, fun c hc p n hn => hP p n (hn.head hc)⟩
  · rintro ⟨hroot, hchildren⟩ p n hn
    have hcases : n = t ∨ ∃ c ∈ t.children, Below (some t.ref) c p n := by
      induction hn with
      | here => exact .inl rfl
      | child _ hk ih =>
        rcases ih with rfl | ⟨c, hc, hn⟩
        · exact .inr ⟨_, hk, .here⟩
        · exact .inr ⟨c, hc, .child hn hk⟩
    rcases hcases with rfl | ⟨c, hc, hn⟩
    · exact hroot
    · exact hchildren c hc p n hn

theorem Below.rep {t n : Placed} {p : Option Ref} (hb : Below parent t p n) (hr : Rep h parent t) :
    Rep h p n := by
  induction hb with
  | here => exact hr
  | child _ hc ih => exact ih.child hc

theorem Below.refs_sublist {t n : Placed} {p : Option Ref} (hb : Below parent t p n) :
    n.refs.Sublist t.refs := by
  induction hb with
  | here => exact List.Sublist.refl _
  | @child p n c _ hc ih =>
    rw [n.refs_children] at ih
    exact (Placed.refs_sublist hc).trans ((List.sublist_cons_self _ _).trans ih)

theorem mem_of_mem_cell {t : Placed} {cell : NodeCell} {c : Ref} (hr : Rep h parent t)
    (hcell : h.cells t.ref = some cell) : c ∈ cell.jobs ++ cell.handlers ↔
      ∃ k ∈ t.children, k.ref = c := by
  obtain rfl := Option.some.inj (hcell.symm.trans hr.cell)
  simp only [NodeCell.of, ← List.map_append, List.mem_map, Placed.children]

/-- Following pointers from the root of a tree gets to its nodes, and to nothing else. -/
theorem descends_iff {t : Placed} {q : Ref} (hr : Rep h parent t) :
    Descends h t.ref q ↔ ∃ p n, Below parent t p n ∧ n.ref = q := by
  constructor
  · intro hd
    induction hd with
    | here => exact ⟨parent, t, .here, rfl⟩
    | child _ hcell hc ih =>
      obtain ⟨p, n, hn, rfl⟩ := ih
      obtain ⟨k, hk, hkref⟩ := (mem_of_mem_cell (hn.rep hr) hcell).mp hc
      exact ⟨some n.ref, k, .child hn hk, hkref⟩
  · rintro ⟨p, n, hn, rfl⟩
    induction hn with
    | here => exact .here
    | child hn hc ih =>
      have hrep := hn.rep hr
      exact .child ih hrep.cell ((mem_of_mem_cell hrep hrep.cell).mpr ⟨_, hc, rfl⟩)

theorem mem_refs_iff {t : Placed} {q : Ref} :
    q ∈ t.refs ↔ ∃ p n, Below parent t p n ∧ n.ref = q := by
  constructor
  · intro hq
    induction t using Placed.inductionOn generalizing parent with
    | node r src st js hs ih =>
      rw [Placed.refs_node, List.mem_cons, List.mem_flatMap] at hq
      rcases hq with rfl | ⟨c, hc, hq⟩
      · exact ⟨parent, _, .here, rfl⟩
      · have hbelow : ∃ p n, Below (some r) c p n ∧ n.ref = q := ih c hc hq
        obtain ⟨p, n, hn, hnref⟩ := hbelow
        exact ⟨p, n, hn.head hc, hnref⟩
  · rintro ⟨p, n, hn, rfl⟩
    exact hn.refs_sublist.subset n.ref_mem_refs

end Kubeka
