import Kubeka.Config.Instances
import Kubeka.Eval.TemplateTree

/-!
# The ways to the nodes of a tree

A tree that is built from an entrypoint has a node for each way along the
references of the configuration, and above the node stand copies of the tables
along the way. What is said about the nodes of the tree can so be said about
the ways, without the tree.
-/

namespace Kubeka

open Relation Templates

variable {L : Libds} {all : List Kbnode} {ep : Kbnode} {up : List Symtab}

/-- A way along the references from `ep`, the last node first. -/
inductive Way (all : List Kbnode) (ep : Kbnode) : List Kbnode → Prop
  | start : Way all ep [ep]
  | step {n m ns} : Way all ep (n :: ns) → PointsTo all n m → Way all ep (m :: n :: ns)

/-- Copies of the tables of some nodes. -/
def Mirrors (scope : List Symtab) (ns : List Kbnode) : Prop :=
  List.Forall₂ (fun st n => ∀ key, kbsymtabGet st key = kbsymtabGet n.symtab key) scope ns

theorem Mirrors.resolve {scope : List Symtab} {ns : List Kbnode} (h : Mirrors scope ns)
    (name : CStr) : kbnodeResolve scope name = kbnodeResolve (ns.map Kbnode.symtab) name := by
  induction h with
  | nil => rfl
  | cons hst _ ih => simp only [List.map_cons, kbnodeResolve, hst, ih]

theorem Mirrors.table {scope : List Symtab} {ns : List Kbnode} (h : Mirrors scope ns) :
    table scope = table (ns.map Kbnode.symtab) := by
  funext name
  rw [Kubeka.table, Kubeka.table, h.resolve]

/-! ### One reference -/

theorem mem_handlersOf {m k : Kbnode} : k ∈ handlersOf all m ↔
    k ∈ all ∧ ∃ s ∈ kbnodeGetvalueAll m.symtab kbnodeKeyEmits,
      s ∈ kbnodeGetvalueAll k.symtab kbnodeKeyHandles := by
  simp only [handlersOf, List.mem_flatMap, List.mem_filter, decide_eq_true_eq]
  constructor
  · rintro ⟨s, hs, hk, hsk⟩
    exact ⟨hk, s, hs, hsk⟩
  · rintro ⟨hk, s, hs, hsk⟩
    exact ⟨s, hs, hk, hsk⟩

section Ids

variable (hids : (all.map fun n => nodeId n.symtab).Nodup)

include hids

/-- A child unfolds a node that is referred to. -/
theorem Unfolds.pointsTo {m k : Kbnode} {n c : KbTree} (h : Unfolds all m n)
    (hc : Unfolds all k c) (hk : k ∈ all) {s : Step} (hchild : n.child? s = some c) :
    PointsTo all m k := by
  refine ⟨hk, ?_⟩
  cases s with
  | job i =>
    left
    rw [← h.jobs, ← hc.id]
    exact List.mem_map_of_mem (List.mem_of_getElem? hchild)
  | handler i =>
    right
    have hid : c.id ∈ n.handlers.map KbTree.id :=
      List.mem_map_of_mem (List.mem_of_getElem? hchild)
    rw [h.handlers, hc.id] at hid
    obtain ⟨k', hk', heq⟩ := List.mem_map.mp hid
    obtain ⟨hmem, hsignal⟩ := mem_handlersOf.mp hk'
    rwa [List.inj_on_of_nodup_map hids hmem hk heq] at hsignal

omit hids in
/-- A node that is referred to has a child with its ID. -/
theorem Unfolds.exists_child {m k : Kbnode} {n : KbTree} (h : Unfolds all m n)
    (hpoints : PointsTo all m k) : ∃ s c, n.child? s = some c ∧ c.id = nodeId k.symtab := by
  obtain ⟨hk, hjob | hsignal⟩ := hpoints
  · rw [← h.jobs] at hjob
    obtain ⟨c, hc, hid⟩ := List.mem_map.mp hjob
    obtain ⟨i, hi⟩ := List.mem_iff_getElem?.mp hc
    exact ⟨.job i, c, hi, hid⟩
  · have hmem : nodeId k.symtab ∈ n.handlers.map KbTree.id := by
      rw [h.handlers]
      exact List.mem_map.mpr ⟨k, mem_handlersOf.mpr ⟨hk, hsignal⟩, rfl⟩
    obtain ⟨c, hc, hid⟩ := List.mem_map.mp hmem
    obtain ⟨i, hi⟩ := List.mem_iff_getElem?.mp hc
    exact ⟨.handler i, c, hi, hid⟩

/-! ### Whole trees -/

variable {t : KbTree} (hep : ep ∈ all)
  (hbuilt : kbnodeInstantiate L ep all = { tree := some t, nerrors := 0 })

include hep hbuilt

omit hids in
theorem unfolds_at {p : Path} {n : KbTree} (hn : t.at? [] p = some (up, n)) :
    ∃ m ∈ all, Unfolds all m n :=
  nodeInstantiate_unfolds hep ((kbnodeInstantiate_eq L ep all).trans (congrArg some hbuilt)) []
    p up n hn

/-- The node unfolds the one with its ID. -/
theorem unfolds_of_id {p : Path} {n : KbTree} (hn : t.at? [] p = some (up, n)) {m : Kbnode}
    (hm : m ∈ all) (hid : n.id = nodeId m.symtab) : Unfolds all m n := by
  obtain ⟨k, hk, hunfolds⟩ := unfolds_at hep hbuilt hn
  rwa [List.inj_on_of_nodup_map hids hk hm (hunfolds.id.symm.trans hid)] at hunfolds

theorem unfolds_root : Unfolds all ep t := by
  have hinst := kbnodeInstantiate_eq L ep all
  rw [hbuilt] at hinst
  have hroot : t.at? [] [] = some ([], t) := rfl
  exact unfolds_of_id hids hep hbuilt hroot hep (nodeInstantiate_id hinst)

/-- To every node of the tree leads a way. -/
theorem way_of_at {p : Path} {n : KbTree} (hn : t.at? [] p = some (up, n)) :
    ∃ m ns, Way all ep (m :: ns) ∧ Unfolds all m n ∧ Mirrors up ns := by
  induction p using List.reverseRecOn generalizing up n with
  | nil =>
    obtain ⟨rfl, rfl⟩ := Prod.mk.inj (Option.some.inj hn)
    exact ⟨ep, [], .start, unfolds_root hids hep hbuilt, .nil⟩
  | append_singleton p s ih =>
    obtain ⟨k, hk, hunfolds⟩ := unfolds_at hep hbuilt hn
    rw [KbTree.at?_append] at hn
    obtain ⟨⟨up', parent⟩, hparent, hn⟩ := Option.bind_eq_some_iff.mp hn
    rw [KbTree.at?_cons] at hn
    obtain ⟨c, hchild, hc⟩ := Option.bind_eq_some_iff.mp hn
    obtain ⟨rfl, rfl⟩ := Prod.mk.inj (Option.some.inj hc)
    obtain ⟨m, ns, hway, hm, hmirrors⟩ := ih hparent
    exact ⟨k, m :: ns, hway.step (hm.pointsTo hids hunfolds hk hchild), hunfolds,
      .cons hm.values hmirrors⟩

/-- Every way leads to a node of the tree. -/
theorem at_of_way {ns : List Kbnode} (h : Way all ep ns) :
    ∃ m ns' p up n, ns = m :: ns' ∧ t.at? [] p = some (up, n) ∧ Unfolds all m n ∧
      Mirrors up ns' := by
  induction h with
  | start => exact ⟨ep, [], [], [], t, rfl, rfl, unfolds_root hids hep hbuilt, .nil⟩
  | @step m k ns _ hpoints ih =>
    obtain ⟨_, _, p, up, n, heq, hn, hunfolds, hmirrors⟩ := ih
    obtain ⟨rfl, rfl⟩ := List.cons.inj heq
    obtain ⟨s, c, hchild, hid⟩ := hunfolds.exists_child hpoints
    have hc : t.at? [] (p ++ [s]) = some (n.symtab :: up, c) := by
      rw [KbTree.at?_append, hn, Option.bind_some, KbTree.at?_cons, hchild]
      rfl
    exact ⟨k, m :: ns, p ++ [s], n.symtab :: up, c, rfl, hc,
      unfolds_of_id hids hep hbuilt hc hpoints.1 hid, .cons hunfolds.values hmirrors⟩

end Ids

/-! ### Expansions along a way -/

/-- Every value of the first node has an expansion in the tables of all of them. -/
def WayExpands : List Kbnode → Prop
  | [] => True
  | m :: ns => ∀ key vs, kbsymtabGet m.symtab key = some vs →
      ∀ v ∈ vs, ∃ s, Expands (table ((m :: ns).map Kbnode.symtab)) (parse v) s

theorem Unfolds.nodeExpands_iff {m : Kbnode} {n : KbTree} {ns : List Kbnode}
    (h : Unfolds all m n) (hmirrors : Mirrors up ns) :
    NodeExpands up n ↔ WayExpands (m :: ns) := by
  have hscope : Mirrors (n.symtab :: up) (m :: ns) := .cons h.values hmirrors
  simp only [NodeExpands, WayExpands, h.values, hscope.table]

/-- All values in a tree have expansions when those on the ways to its nodes have. -/
theorem forall_nodeExpands_iff (hids : (all.map fun n => nodeId n.symtab).Nodup) (hep : ep ∈ all)
    {t : KbTree} (hbuilt : kbnodeInstantiate L ep all = { tree := some t, nerrors := 0 }) :
    t.Forall NodeExpands [] ↔ ∀ ns, Way all ep ns → WayExpands ns := by
  constructor
  · intro h ns hway
    obtain ⟨m, ns, p, up, n, rfl, hn, hunfolds, hmirrors⟩ := at_of_way hids hep hbuilt hway
    exact (hunfolds.nodeExpands_iff hmirrors).mp (h p up n hn)
  · intro h p up n hn
    obtain ⟨m, ns, hway, hunfolds, hmirrors⟩ := way_of_at hids hep hbuilt hn
    exact (hunfolds.nodeExpands_iff hmirrors).mpr (h _ hway)

end Kubeka
