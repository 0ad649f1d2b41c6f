import Kubeka.Config.Instances
import Kubeka.Heap.Simulation

/-!
# The tree in memory unfolds the configuration

Without errors every node that is reached from the root is a copy of a node of
the configuration, and its lists hold copies of the jobs that this node names
and of the handlers of its signals, in order. Which node a copy is made from
can be read off its ID.
-/

namespace Kubeka

open Placed

variable {L : Libds} {all : List Kbnode} {h h' : Heap} {r : Ref}

/-- The cell at `q` is a copy of its source, with a child for each name in JOBS and for each handler
of each signal. -/
structure Copied (h : Heap) (all : List Kbnode) (source : Ref → Kbnode) (q : Ref)
    (cell : NodeCell) : Prop where
  listed : source q ∈ all
  type : cell.type = (source q).type
  values : ∃ st, cell.symtab = some st ∧
    ∀ key, kbsymtabGet st key = kbsymtabGet (source q).symtab key
  jobs : cell.jobs.map (fun c => nodeId (source c).symtab) =
    kbnodeGetvalueAll (source q).symtab kbnodeKeyJobs
  handlers : cell.handlers.map source = handlersOf all (source q)
  distinct : (cell.jobs ++ cell.handlers).Nodup
  parent : ∀ c ∈ cell.jobs ++ cell.handlers,
    ∃ child, h.cells c = some child ∧ child.parent = some q

/-! ### Nodes below -/

theorem Below.forall_erase {P : KbTree → Prop} {parent p : Option Ref} {t n : Placed}
    {up : List Symtab} (hb : Below parent t p n) (hP : t.erase.Forall (fun _ u => P u) up) :
    ∃ up', n.erase.Forall (fun _ u => P u) up' := by
  induction hb with
  | here => exact ⟨up, hP⟩
  | @child p n c _ hc ih =>
    obtain ⟨up', hn⟩ := ih
    obtain ⟨q, src, st, js, hs⟩ := n
    rw [erase_node, KbTree.forall_node] at hn
    rcases List.mem_append.mp hc with hc | hc
    · exact ⟨_, hn.2.1 c.erase (List.mem_map_of_mem hc)⟩
    · exact ⟨_, hn.2.2 c.erase (List.mem_map_of_mem hc)⟩

theorem Below.holds {P : KbTree → Prop} {parent p : Option Ref} {t n : Placed} {up : List Symtab}
    (hb : Below parent t p n) (hP : t.erase.Forall (fun _ u => P u) up) : P n.erase := by
  obtain ⟨up', hn⟩ := hb.forall_erase hP
  exact hn [] up' _ rfl

/-! ### Sources -/

/-- The node that a cell is a copy of, by its ID. -/
def sourceOf (all : List Kbnode) (h : Heap) (src : Kbnode) (q : Ref) : Kbnode :=
  (((h.cells q).bind NodeCell.symtab).bind fun st => nodeFindbyid all (nodeId st)).getD src

theorem sourceOf_rep (src : Kbnode) {m : Kbnode} {p : Option Ref} {n : Placed}
    (hids : (all.map fun n => nodeId n.symtab).Nodup) (hm : m ∈ all) (hrep : Rep h p n)
    (hid : n.erase.id = nodeId m.symtab) : sourceOf all h src n.ref = m := by
  rw [KbTree.id, erase_symtab] at hid
  have hfound : nodeFindbyid all (nodeId n.symtab) = some m := by
    rw [hid]
    exact nodeFindbyid_of_nodup hids hm
  simp [sourceOf, hrep.cell, NodeCell.of, hfound]

/-- The sources of the children have the IDs of the children. -/
theorem map_id_sourceOf (src : Kbnode) {p : Option Ref} {ts : List Placed}
    (hids : (all.map fun n => nodeId n.symtab).Nodup) (hrep : ∀ c ∈ ts, Rep h p c)
    (hu : ∀ c ∈ ts, ∃ k ∈ all, Unfolds all k c.erase) :
    (∀ c ∈ ts, sourceOf all h src c.ref ∈ all) ∧
      (ts.map Placed.ref).map (fun q => nodeId (sourceOf all h src q).symtab) =
        (ts.map erase).map KbTree.id := by
  have hsource : ∀ c ∈ ts, sourceOf all h src c.ref ∈ all ∧
      nodeId (sourceOf all h src c.ref).symtab = c.erase.id := by
    intro c hc
    obtain ⟨k, hk, huk⟩ := hu c hc
    rw [sourceOf_rep src hids hk (hrep c hc) huk.id, huk.id]
    exact ⟨hk, rfl⟩
  refine ⟨fun c hc => (hsource c hc).1, ?_⟩
  rw [List.map_map, List.map_map]
  exact List.map_congr_left fun c hc => (hsource c hc).2

/-- Lists of listed nodes with the same IDs are the same. -/
theorem eq_of_map_id {ms ns : List Kbnode} (hids : (all.map fun n => nodeId n.symtab).Nodup)
    (hms : ∀ m ∈ ms, m ∈ all) (hns : ∀ n ∈ ns, n ∈ all)
    (heq : ms.map (fun n => nodeId n.symtab) = ns.map fun n => nodeId n.symtab) : ms = ns := by
  have hfind : ∀ ks : List Kbnode, (∀ k ∈ ks, k ∈ all) →
      (ks.map fun n => nodeId n.symtab).map (nodeFindbyid all) = ks.map some := fun ks hks => by
    rw [List.map_map]
    exact List.map_congr_left fun k hk => nodeFindbyid_of_nodup hids (hks k hk)
  have hsome : ms.map some = ns.map some := by rw [← hfind ms hms, heq, hfind ns hns]
  exact List.map_injective_iff.mpr (Option.some_injective _) hsome

theorem mem_of_mem_handlersOf {m k : Kbnode} (hk : k ∈ handlersOf all m) : k ∈ all := by
  obtain ⟨s, -, hk⟩ := List.mem_flatMap.mp hk
  exact List.mem_of_mem_filter hk

/-- One node, when it and its children unfold the nodes with their IDs. -/
theorem Copied.of_unfolds {src m : Kbnode} {p : Option Ref} {n : Placed}
    (hids : (all.map fun n => nodeId n.symtab).Nodup) (hm : m ∈ all) (hrep : Rep h p n)
    (hnodup : (n.children.map Placed.ref).Nodup) (hu : Unfolds all m n.erase)
    (hchildren : ∀ c ∈ n.children, ∃ k ∈ all, Unfolds all k c.erase) :
    Copied h all (sourceOf all h src) n.ref (.of n.src n.symtab p n.jobs n.handlers) := by
  have hsource := sourceOf_rep src hids hm hrep hu.id
  obtain ⟨-, hjobs⟩ := map_id_sourceOf src hids
    (fun c hc => hrep.child (List.mem_append_left n.handlers hc))
    fun c hc => hchildren c (List.mem_append_left n.handlers hc)
  obtain ⟨hlisted, hhandlers⟩ := map_id_sourceOf src hids
    (fun c hc => hrep.child (List.mem_append_right n.jobs hc))
    fun c hc => hchildren c (List.mem_append_right n.jobs hc)
  rw [← erase_jobs, hu.jobs] at hjobs
  rw [← erase_handlers, hu.handlers] at hhandlers
  constructor
  · rwa [hsource]
  · rw [hsource, ← hu.type, erase_type]
    rfl
  · rw [hsource, ← erase_symtab]
    exact ⟨_, rfl, hu.values⟩
  · rw [hsource]
    exact hjobs
  · rw [hsource]
    refine eq_of_map_id hids (List.forall_mem_map.mpr (List.forall_mem_map.mpr hlisted))
      (fun k => mem_of_mem_handlersOf) ?_
    rw [List.map_map]
    exact hhandlers
  · rw [NodeCell.of, ← List.map_append]
    exact hnodup
  · intro c hc
    obtain ⟨k, hk, rfl⟩ := (mem_of_mem_cell hrep hrep.cell).mp hc
    exact ⟨_, (hrep.child hk).cell, rfl⟩

/-- Built without errors, the tree in memory is the unfolding of the configuration from `src`. -/
theorem kbnodeInstantiateHeap_unfolds {src : Kbnode}
    (hids : (all.map fun n => nodeId n.symtab).Nodup) (hsrc : src ∈ all)
    (hrun : kbnodeInstantiateHeap L h src all = .ok (h', some r, 0)) :
    ∃ source : Ref → Kbnode, source r = src ∧ ∀ q, Descends h' r q →
      ∃ cell, h'.cells q = some cell ∧ Copied h' all source q cell := by
  obtain ⟨t, htree, -, rfl, hgrown⟩ := kbnodeInstantiateHeap_grown hrun
  have hbuilt : nodeInstantiate L all (instantiateFuel all) [] src =
      some { tree := some t.erase, nerrors := 0 } := by rw [kbnodeInstantiate_eq, htree]
  have hunfolds := nodeInstantiate_unfolds hsrc hbuilt []
  refine ⟨sourceOf all h' src, sourceOf_rep src hids hsrc hgrown.rep (nodeInstantiate_id hbuilt),
    fun q hq => ?_⟩
  obtain ⟨p, n, hn, rfl⟩ := (descends_iff hgrown.rep).mp hq
  have hrep := hn.rep hgrown.rep
  obtain ⟨m, hm, hu⟩ := hn.holds hunfolds
  have hnodup := hgrown.nodup.sublist hn.refs_sublist
  rw [n.refs_children] at hnodup
  exact ⟨_, hrep.cell, .of_unfolds hids hm hrep
    ((List.nodup_cons.mp hnodup).2.sublist (map_ref_sublist _)) hu
    fun c hc => (hn.child hc).holds hunfolds⟩

/-- An entrypoint with a job and with a signal that one node handles. -/
def oneOfEach : List Kbnode :=
  let vars (id : String) : List (CStr × List CStr) := [(kbnodeKeyId, [id.toList]),
    (kbnodeKeyFname, ["f".toList]), (kbnodeKeyLine, ["1".toList])]
  [⟨.entrypoint, symtabOf (vars "ep" ++ [(kbnodeKeyJobs, ["a".toList]),
      (kbnodeKeyEmits, ["s".toList])])⟩,
    ⟨.job, symtabOf (vars "a")⟩,
    ⟨.job, symtabOf (vars "b" ++ [(kbnodeKeyHandles, ["s".toList])])⟩]

theorem oneOfEach_unfolds : ∃ (h' : Heap) (source : Ref → Kbnode),
    source 0 = oneOfEach.head (by decide) ∧ ∀ q, Descends h' 0 q →
      ∃ cell, h'.cells q = some cell ∧ Copied h' oneOfEach source q cell :=
  ⟨_, kbnodeInstantiateHeap_unfolds (L := .ordered) (h := .empty) (by decide) (List.head_mem _) rfl⟩

end Kubeka
