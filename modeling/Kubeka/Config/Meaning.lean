import Kubeka.Config.Sound
import Kubeka.Run.Plan

/-!
# What a configuration means

The nodes of a configuration refer to each other, and a node that is reached
along some references stands in the scope of the nodes on the way. This gives a
plan: the values of the node are the expansions in its scope, its jobs are the
nodes that are named, and its handlers those whose expanded signals it emits.
A configuration that the linter accepts is run by this plan, as if there were no
trees and no tables that are changed in place.
-/

namespace Kubeka

open Fuel Templates

/-- A node of the configuration with the nodes through which it is reached, the nearest first. -/
structure Reached where
  node : Kbnode
  up : List Kbnode

def Reached.scope (i : Reached) : List Symtab := (i.node :: i.up).map Kbnode.symtab

def Reached.child (i : Reached) (k : Kbnode) : Reached := ⟨k, i.node :: i.up⟩

/-- What a text stands for. -/
noncomputable def Reached.valueOf (i : Reached) (text : CStr) : CStr :=
  Classical.epsilon (Expands (table i.scope) (parse text))

noncomputable def Reached.valuesOf (i : Reached) (key : CStr) : List CStr :=
  (kbnodeGetvalueAll i.node.symtab key).map i.valueOf

/-- The nodes that JOBS names. -/
def jobsOf (all : List Kbnode) (m : Kbnode) : List Kbnode :=
  (kbnodeGetvalueAll m.symtab kbnodeKeyJobs).filterMap (nodeFindbyid all)

/-- What the nodes of a configuration do. -/
noncomputable def configPlan (all : List Kbnode) : Plan Reached where
  reacting := fun i => ((handlersOf all i.node).map i.child).zipIdx.filter fun h =>
    (i.valuesOf kbnodeKeyEmits).any fun s => (h.1.valuesOf kbnodeKeyHandles).any fun h => s = h
  commands := fun i => ((i.valuesOf kbnodeKeyExec).takeWhile (· ≠ [])).zipIdx
  jobs := fun i => (jobsOf all i.node).map i.child
  undo := fun i => i.valuesOf kbnodeKeyRollback

theorem map_nodeId_filterMap {all : List Kbnode} {ids : List CStr}
    (h : ∀ id ∈ ids, ∃ k ∈ all, nodeId k.symtab = id) :
    (ids.filterMap (nodeFindbyid all)).map (fun k => nodeId k.symtab) = ids := by
  induction ids with
  | nil => rfl
  | cons id ids ih =>
    obtain ⟨⟨k, hk, hid⟩, hrest⟩ := List.forall_mem_cons.mp h
    have hfound : nodeFindbyid all id ≠ none := fun hnone => by
      have hno := List.find?_eq_none.mp hnone k hk
      simp [hid] at hno
    obtain ⟨m, hm⟩ := Option.ne_none_iff_exists'.mp hfound
    rw [List.filterMap_cons_some hm, List.map_cons, (nodeFindbyid_some hm).2, ih hrest]

theorem Reached.valueOf_eq {i : Reached} {text s : CStr}
    (h : Expands (table i.scope) (parse text) s) : i.valueOf text = s :=
  (Classical.epsilon_spec ⟨s, h⟩).unique h

/-! ### Evaluated trees -/

variable {L : Libds} {all : List Kbnode} {ep : Kbnode}

/-- At the place of `c` in an evaluated tree a copy of the node was evaluated in its scope. -/
def Realises (all : List Kbnode) (t t' : KbTree) (c : KbTree) (i : Reached) : Prop :=
  ∃ p up up' n, t.at? [] p = some (up, n) ∧ t'.at? [] p = some (up', c) ∧
    Unfolds all i.node n ∧ Mirrors up i.up

section Tree

variable {t t' : KbTree} (heval : KbTree.Related (TreeEvaluated 0) [] [] t t')

include heval

theorem Realises.values {c : KbTree} {i : Reached} (h : Realises all t t' c i) (key : CStr) :
    kbnodeGetvalueAll c.symtab key = i.valuesOf key := by
  obtain ⟨p, up, up', n, hn, hc, hunfolds, hmirrors⟩ := h
  obtain ⟨_, c', hc', hto⟩ := (heval p).1 up n hn
  obtain ⟨-, rfl⟩ := Prod.mk.inj (Option.some.inj (hc.symm.trans hc'))
  have hscope : Mirrors (n.symtab :: up) (i.node :: i.up) := .cons hunfolds.values hmirrors
  simp only [Reached.valuesOf, kbnodeGetvalueAll]
  rw [← hunfolds.values key]
  cases hvs : kbsymtabGet n.symtab key with
  | none =>
    have hrel := hto.2 key
    rw [hvs] at hrel
    generalize kbsymtabGet c.symtab key = o at hrel ⊢
    cases hrel
    rfl
  | some vs =>
    obtain ⟨ss, hss, hall⟩ := hto.expands hvs
    rw [hss, Option.getD_some, Option.getD_some]
    rw [hscope.table] at hall
    have hmap : ss.map id = vs.map i.valueOf :=
      Lists.map_eq_of_forall₂ hall.flip fun s v hv => (Reached.valueOf_eq hv).symm
    rwa [List.map_id] at hmap

variable (hids : (all.map fun n => nodeId n.symtab).Nodup) (hep : ep ∈ all)
  (hbuilt : kbnodeInstantiate L ep all = { tree := some t, nerrors := 0 })

include hids hep hbuilt

/-- Children with the IDs of some nodes are those nodes, reached through one more. -/
theorem Realises.kids (sel : KbTree → List KbTree) (step : ℕ → Step)
    (hstep : ∀ (n : KbTree) j, n.child? (step j) = (sel n)[j]?) {c : KbTree} {i : Reached}
    {ks : List Kbnode} (hks : ∀ k ∈ ks, k ∈ all)
    (hsel : ∀ p up n, t.at? [] p = some (up, n) → Unfolds all i.node n →
      (sel n).map KbTree.id = ks.map fun k => nodeId k.symtab)
    (h : Realises all t t' c i) : List.Forall₂ (Realises all t t') (sel c) (ks.map i.child) := by
  obtain ⟨p, up, up', n, hn, hc, hunfolds, hmirrors⟩ := h
  have hat : ∀ j, t.at? [] (p ++ [step j]) = (sel n)[j]?.map fun d => (n.symtab :: up, d) := by
    intro j
    rw [KbTree.at?_append, hn, Option.bind_some, KbTree.at?_cons, hstep]
    cases (sel n)[j]? <;> rfl
  have hat' : ∀ j, t'.at? [] (p ++ [step j]) = (sel c)[j]?.map fun d => (c.symtab :: up', d) := by
    intro j
    rw [KbTree.at?_append, hc, Option.bind_some, KbTree.at?_cons, hstep]
    cases (sel c)[j]? <;> rfl
  have hid : ∀ j : ℕ, (sel n)[j]?.map KbTree.id = ks[j]?.map fun k : Kbnode => nodeId k.symtab := by
    intro j
    rw [← List.getElem?_map, ← List.getElem?_map, hsel p up n hn hunfolds]
  refine Lists.forall₂_of_getElem? (fun j d' hd' => ?_) fun j hnone => ?_
  · have hplace' := hat' j
    rw [hd', Option.map_some] at hplace'
    cases hd : (sel n)[j]? with
    | none =>
      have hplace := hat j
      rw [hd, Option.map_none] at hplace
      simp [(heval _).2 hplace] at hplace'
    | some d =>
      have hplace := hat j
      rw [hd, Option.map_some] at hplace
      have hdid := hid j
      rw [hd, Option.map_some] at hdid
      obtain ⟨k, hk, hkid⟩ := Option.map_eq_some_iff.mp hdid.symm
      have hd_unfolds := unfolds_of_id hids hep hbuilt hplace (hks k (List.mem_of_getElem? hk))
        hkid.symm
      refine ⟨i.child k, by simp [hk], _, _, _, d, hplace, hplace', hd_unfolds, ?_⟩
      exact .cons hunfolds.values hmirrors
  · cases hd : (sel n)[j]? with
    | none =>
      have hdid := hid j
      rw [hd, Option.map_none] at hdid
      rw [List.getElem?_map, Option.map_eq_none_iff.mp hdid.symm, Option.map_none]
    | some d =>
      have hplace := hat j
      rw [hd, Option.map_some] at hplace
      obtain ⟨_, _, hplace', -⟩ := (heval _).1 _ _ hplace
      rw [hat' j, hnone] at hplace'
      simp at hplace'

/-- The tree and the configuration are plans that agree. -/
theorem agree_configPlan : Agree treePlan (configPlan all) (Realises all t t') := by
  have hjobs : ∀ c i, Realises all t t' c i →
      List.Forall₂ (Realises all t t') c.jobs ((jobsOf all i.node).map i.child) := by
    intro c i h
    refine h.kids heval hids hep hbuilt KbTree.jobs .job (fun _ _ => rfl) (fun k hk => ?_)
      fun p up n hn hunfolds => ?_
    · obtain ⟨id, -, hfound⟩ := List.mem_filterMap.mp hk
      exact (nodeFindbyid_some hfound).1
    · rw [hunfolds.jobs, jobsOf, map_nodeId_filterMap fun id hid => ?_]
      rw [← hunfolds.jobs] at hid
      obtain ⟨d, hd, rfl⟩ := List.mem_map.mp hid
      obtain ⟨j, hj⟩ := List.mem_iff_getElem?.mp hd
      have hplace : t.at? [] (p ++ [.job j]) = some (n.symtab :: up, d) := by
        rw [KbTree.at?_append, hn, Option.bind_some, KbTree.at?_cons, KbTree.child?, hj]
        rfl
      obtain ⟨k, hk, hd_unfolds⟩ := unfolds_at hep hbuilt hplace
      exact ⟨k, hk, hd_unfolds.id.symm⟩
  have hhandlers : ∀ c i, Realises all t t' c i →
      List.Forall₂ (Realises all t t') c.handlers ((handlersOf all i.node).map i.child) :=
    fun c i h => h.kids heval hids hep hbuilt KbTree.handlers .handler (fun _ _ => rfl)
      (fun k hk => (mem_handlersOf.mp hk).1) fun _ _ _ _ hunfolds => hunfolds.handlers
  constructor
  · intro c i h
    refine List.rel_filter (fun a b hab => ?_) (Lists.forall₂_zipIdx (hhandlers c i h) 0)
    simp only [nodeFilterHandlers, hab.2.values heval, h.values heval]
  · intro c i h
    simp only [treePlan, configPlan, commandsOf, h.values heval]
  · exact hjobs
  · intro c i h
    exact h.values heval _

omit heval in
theorem realises_root : Realises all t t' t' ⟨ep, []⟩ :=
  ⟨[], [], [], t, rfl, rfl, unfolds_root hids hep hbuilt, .nil⟩

end Tree

section TreeOf

variable {t t' : KbTree} (hreg : Regular all) (hids : (all.map fun n => nodeId n.symtab).Nodup)
  (hep : ep ∈ all) (h : TreeOf L all ep t t')

include hreg hep h

theorem TreeOf.evaluated : KbTree.Related (TreeEvaluated 0) [] [] t t' := by
  obtain ⟨hbuilt, env, env', hr⟩ := h
  exact (haltsWith_kbtreeEval (by simp) (hreg.templateNode hep hbuilt) hr).2.nodes []

omit hreg hep in
theorem TreeOf.srcdef : t'.Forall (fun _ n => kbnodeGetSrcdef n.symtab ≠ none) [] := by
  obtain ⟨-, env, env', hr⟩ := h
  exact (kbtreeEval_shape hr []).forall_imp (kbtreeEval_srcdef hr rfl [])
    fun _ _ _ _ _ _ _ hshape hn => mt (srcdef_congr hshape.arrays).mp hn

include hids

theorem TreeOf.values (key : CStr) :
    kbnodeGetvalueAll t'.symtab key = (⟨ep, []⟩ : Reached).valuesOf key :=
  (realises_root hids hep h.1).values (h.evaluated hreg hep) key

/-- What is done by the plan of an evaluated tree the configuration says. -/
theorem TreeOf.does {shell : Shell} {ret : CInt} {trace : List Event}
    (hdoes : Does treePlan shell [] t' ret trace) :
    Does (configPlan all) shell [] ⟨ep, []⟩ ret trace :=
  hdoes.agree (agree_configPlan (h.evaluated hreg hep) hids hep h.1) (realises_root hids hep h.1)

/-- The run of an evaluated tree is all that the configuration says. -/
theorem TreeOf.does_iff (shell : Shell) (ret : CInt) (trace : List Event) :
    Does (configPlan all) shell [] ⟨ep, []⟩ ret trace ↔
      (kbbiRun shell [] t').ret = ret ∧ (kbbiRun shell [] t').trace = trace := by
  have hdoes := h.does hreg hids hep (kbbiRun_does shell h.srcdef [])
  rw [exitStatus_eq]
  constructor
  · exact hdoes.unique
  · rintro ⟨rfl, rfl⟩
    exact hdoes

end TreeOf

/-! ### What is launched -/

section Passed

variable {files : List FileRead} {trees : List KbTree}

theorem Passed.regular (h : Passed L files all trees) (hreg : Regular (readNodes files)) :
    Regular all ∧ (all.map fun n => nodeId n.symtab).Nodup := by
  have hreg' := hreg.perm h.collected
  exact ⟨hreg', (pairwise_cmp_iff hreg'.srcdef).mp h.distinct⟩

end Passed

/-- The nodes of the set, in its order. -/
def nodeSet (L : Libds) (files : List FileRead) : List Kbnode :=
  (kbtreeCoalesce L (readNodes files)).nodes

/-- After a lint without errors the tree of each entrypoint is run as the configuration says. -/
theorem lint_runs (L : Libds) (nul : ℕ → Bool) (files : List FileRead) (env : Env) (r : Linted)
    (hreg : Regular (readNodes files)) (hr : HaltsWith (lint L nul files env) r)
    (hzero : r.nerrors = 0) :
    List.Forall₂ (fun ep t => ∀ shell ret trace,
      Does (configPlan (nodeSet L files)) shell [] ⟨ep, []⟩ ret trace ↔
        (kbbiRun shell [] t).ret = ret ∧ (kbbiRun shell [] t).trace = trace)
      (entrypoints (nodeSet L files)) r.trees := by
  have hpassed := Passed.of_lint hr hzero
  obtain ⟨hreg', hids⟩ := hpassed.regular hreg
  refine hpassed.built.imp fun ep t' h shell ret trace => ?_
  obtain ⟨hep, t, htree⟩ := h
  exact htree.does_iff hreg' hids hep shell ret trace

/-- The entrypoint with an ID, as it reads where its references are expanded. -/
noncomputable def launched (nodes : List Kbnode) (nodeId : CStr) : Option Kbnode :=
  nodes.find? fun ep => ((⟨ep, []⟩ : Reached).valuesOf kbnodeKeyId).headD [] = nodeId

theorem kbnodeGetvalueFirst_eq (st : Symtab) (key : CStr) :
    kbnodeGetvalueFirst st key = (kbnodeGetvalueAll st key).headD [] := by
  rw [kbnodeGetvalueFirst, kbsymtabGetString, kbnodeGetvalueAll]
  rcases kbsymtabGet st key with _ | _ | ⟨v, vs⟩ <;> rfl

/-- What is launched for an ID does what the configuration says of the first entrypoint with this
ID, and where there is none nothing is run. -/
theorem main_launch_runs {nul : ℕ → Bool} {opts : Options} {files : List FileRead} {env : Env}
    {fuel : ℕ} {nodeId : CStr} {trees : List KbTree} (hreg : Regular (readNodes files))
    (h : main L nul opts files env fuel = .ok (.launch nodeId trees)) (shell : Shell) :
    (∀ ep, launched (entrypoints (nodeSet L files)) nodeId = some ep → ∀ ret trace,
      Does (configPlan (nodeSet L files)) shell [] ⟨ep, []⟩ ret trace ↔
        (kbbiLaunch shell nodeId trees).ret = ret ∧
          (kbbiLaunch shell nodeId trees).trace = trace) ∧
      (launched (entrypoints (nodeSet L files)) nodeId = none →
        (kbbiLaunch shell nodeId trees).ret = exitFailure ∧
          (kbbiLaunch shell nodeId trees).trace = []) := by
  have hpassed : Passed L files (nodeSet L files) trees := main_passed h trivial
  obtain ⟨hreg', hids⟩ := hpassed.regular hreg
  have hfound := Lists.rel_find? (f := fun ep : Kbnode => decide
    (((⟨ep, []⟩ : Reached).valuesOf kbnodeKeyId).headD [] = nodeId))
    (g := fun n : KbTree => decide (kbnodeGetvalueFirst n.symtab kbnodeKeyId = nodeId))
    hpassed.built fun ep t' h => by
      obtain ⟨hep, t, htree⟩ := h
      rw [kbnodeGetvalueFirst_eq, htree.values hreg' hids hep]
  simp only [kbbiLaunch, findNode, launched]
  generalize (entrypoints (nodeSet L files)).find? _ = found,
    trees.find? _ = target at hfound ⊢
  cases hfound with
  | none => simp
  | @some ep t' h =>
    obtain ⟨hep, t, htree⟩ := h
    refine ⟨?_, by simp⟩
    rintro _ ⟨⟩ ret trace
    exact htree.does_iff hreg' hids hep shell ret trace

/-- What is done for `greetingNodes` when the command succeeds. -/
def greetingTrace : List Event :=
  [.start [], .start [.job 0], .command [.job 0] 0 "echo you".toList 0, .finish [.job 0] 0,
    .finish [] 0]

theorem greetingNodes_runs : ∃ ep ∈ entrypoints (nodeSet .ordered [fileOf greetingNodes]),
    Does (configPlan (nodeSet .ordered [fileOf greetingNodes])) (fun _ _ _ => 0) [] ⟨ep, []⟩ 0
      greetingTrace := by
  obtain ⟨r, hr, hruns⟩ := exists_haltsWith
    (f := lint .ordered (fun _ => false) [fileOf greetingNodes] fun _ => none) 3
    (fun r => r.nerrors = 0 ∧ r.trees.map (fun t => ((kbbiRun (fun _ _ _ => 0) [] t).ret,
      (kbbiRun (fun _ _ _ => 0) [] t).trace)) = [(0, greetingTrace)]) (by decide +kernel)
  obtain ⟨hzero, htrees⟩ := of_decide_eq_true hruns
  have hmem : (0, greetingTrace) ∈ r.trees.map fun t => ((kbbiRun (fun _ _ _ => 0) [] t).ret,
      (kbbiRun (fun _ _ _ => 0) [] t).trace) := by
    rw [htrees]
    exact List.mem_singleton_self _
  obtain ⟨t, ht, heq⟩ := List.mem_map.mp hmem
  obtain ⟨ep, hep, hdoes⟩ := Lists.forall₂_left_of_mem (lint_runs .ordered (fun _ => false)
    [fileOf greetingNodes] (fun _ => none) r greetingNodes_regular hr hzero) ht
  exact ⟨ep, hep, (hdoes _ _ _).mpr (Prod.mk.inj heq)⟩

def MainResult.LaunchesWith (P : CStr → List KbTree → Bool) : MainResult → Bool
  | .launch nodeId trees => P nodeId trees
  | _ => false

/-- `--job ep` -/
theorem greetingNodes_launched : ∃ nodeId ep,
    launched (entrypoints (nodeSet .ordered [fileOf greetingNodes])) nodeId = some ep ∧
      Does (configPlan (nodeSet .ordered [fileOf greetingNodes])) (fun _ _ _ => 0) [] ⟨ep, []⟩ 0
        greetingTrace := by
  obtain ⟨o, ⟨fuel, ho⟩, hlaunch⟩ := exists_haltsWith
    (f := main .ordered (fun _ => false) jobOptions [fileOf greetingNodes] fun _ => none) 3
    (MainResult.LaunchesWith fun nodeId trees =>
      (kbbiLaunch (fun _ _ _ => 0) nodeId trees).ret = 0 ∧
        (kbbiLaunch (fun _ _ _ => 0) nodeId trees).trace = greetingTrace) (by decide +kernel)
  cases o with
  | exit success => simp [MainResult.LaunchesWith] at hlaunch
  | threads trees => simp [MainResult.LaunchesWith] at hlaunch
  | launch nodeId trees =>
    obtain ⟨hret, htrace⟩ := of_decide_eq_true hlaunch
    have hreg : Regular (readNodes [fileOf greetingNodes]) := greetingNodes_regular
    obtain ⟨hdoes, hnone⟩ := main_launch_runs hreg ho fun _ _ _ => 0
    cases hep : launched (entrypoints (nodeSet .ordered [fileOf greetingNodes])) nodeId with
    | none => exact absurd (htrace.symm.trans (hnone hep).2) (by decide)
    | some ep => exact ⟨nodeId, ep, hep, (hdoes ep hep _ _).mpr ⟨hret, htrace⟩⟩

end Kubeka
