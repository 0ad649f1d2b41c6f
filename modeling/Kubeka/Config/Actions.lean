import Kubeka.Config.Lint
import Kubeka.Run.Evaluated
import Kubeka.Run.Reach

/-!
# Actions of the nodes that pass the lint

The lint wants exactly one of EXEC, EMITS and JOBS to be bound, the run looks at
the evaluated values. A node that has passed does something just when these
values name something to do.
-/

namespace Kubeka

open Fuel

variable {L : Libds} {shell : Shell}

/-! ### Nodes of the trees -/

/-- What the lint has established for a node of an evaluated tree. -/
structure LintedNode (n : KbTree) : Prop where
  srcdef : kbnodeGetSrcdef n.symtab ≠ none
  actions : actionCount n.symtab = 1
  jobs : n.jobs.length = (kbnodeGetvalueAll n.symtab kbnodeKeyJobs).length

theorem kbsymtabExists_congr {st st' : Symtab}
    (h : ∀ key, arrayLength st' key = arrayLength st key) :
    kbsymtabExists st' = kbsymtabExists st := by
  funext key
  rw [Bool.eq_iff_iff, kbsymtabExists_iff_arrayLength, kbsymtabExists_iff_arrayLength, h]

theorem getvalueAll_length_congr {st st' : Symtab}
    (h : ∀ key, arrayLength st' key = arrayLength st key) (key : CStr) :
    (kbnodeGetvalueAll st' key).length = (kbnodeGetvalueAll st key).length := by
  have hkey := h key
  simp only [arrayLength] at hkey
  rw [kbnodeGetvalueAll, kbnodeGetvalueAll]
  cases hst : kbsymtabGet st key <;> cases hst' : kbsymtabGet st' key <;> simp_all

theorem InstanceOf.arrays {m : Kbnode} {n : KbTree} (h : InstanceOf m n) (key : CStr) :
    arrayLength n.symtab key = arrayLength m.symtab key := by
  rw [arrayLength, arrayLength, h.values]

theorem LintedTree.nodes {all : List Kbnode} {t' : KbTree} (h : LintedTree L all t') :
    t'.Forall (fun _ n => LintedNode n) [] := by
  obtain ⟨hall, ep, hep, t, hbuilt, env, env', heval⟩ := h
  have hinst := nodeInstantiate_instances hep
    ((kbnodeInstantiate_eq L ep all).trans (congrArg some hbuilt)) []
  have hsrc := kbtreeEval_srcdef heval rfl []
  have hboth : t.Forall (fun _ n => (∃ m ∈ all, InstanceOf m n) ∧
      kbnodeGetSrcdef n.symtab ≠ none) [] := fun p up n hn => ⟨hinst p up n hn, hsrc p up n hn⟩
  refine (kbtreeEval_shape heval []).forall_imp hboth ?_
  rintro p up n up₂ n' - - hshape ⟨⟨m, hm, hnm⟩, hsrcdef⟩
  have harrays : ∀ key, arrayLength n'.symtab key = arrayLength m.symtab key :=
    fun key => (hshape.arrays key).trans (hnm.arrays key)
  refine ⟨mt (srcdef_congr hshape.arrays).mp hsrcdef, ?_, ?_⟩
  · obtain ⟨nul, hchecked⟩ := hall m hm
    rw [actionCount, kbsymtabExists_congr harrays]
    exact kbnodeCheck_actionCount hchecked
  · rw [hshape.jobs, hnm.jobs, getvalueAll_length_congr harrays]

/-! ### Doing something -/

/-- The node at `q` executes a command or runs a child. -/
def Acts (q : Path) (trace : List Event) : Prop :=
  (∃ i cmd rc, .command q i cmd rc ∈ trace) ∨ ∃ s, .start (q ++ [s]) ∈ trace

/-- Every node of a run does something, and no run of a node ends in the branch for those that have
nothing to do. -/
structure EveryNodeActs (trace : List Event) : Prop where
  acts : ∀ q, .start q ∈ trace → Acts q trace
  noBranch : ∀ q, .noAction q ∉ trace

/-- The values of the one action a node has name something to do: a first command that is not empty,
a signal that one of the handlers handles, or a job. -/
structure HasAction (n : KbTree) : Prop where
  exec : kbsymtabExists n.symtab kbnodeKeyExec = true →
    kbnodeGetvalueFirst n.symtab kbnodeKeyExec ≠ []
  emits : kbsymtabExists n.symtab kbnodeKeyEmits = true →
    ∃ h ∈ n.handlers, nodeFilterHandlers h.symtab (kbnodeGetvalueAll n.symtab kbnodeKeyEmits) = true
  jobs : kbsymtabExists n.symtab kbnodeKeyJobs = true →
    kbnodeGetvalueAll n.symtab kbnodeKeyJobs ≠ []

theorem commandsOf_eq_nil_iff {st : Symtab} :
    commandsOf st = [] ↔ kbnodeGetvalueFirst st kbnodeKeyExec = [] := by
  simp only [commandsOf, List.zipIdx_eq_nil_iff, kbnodeGetvalueAll, kbnodeGetvalueFirst,
    kbsymtabGetString]
  rcases kbsymtabGet st kbnodeKeyExec with _ | _ | ⟨_ | ⟨c, cmd⟩, cmds⟩ <;> simp

theorem matching_eq_nil_iff {n : KbTree} : matching n = [] ↔ ∀ h ∈ n.handlers,
    nodeFilterHandlers h.symtab (kbnodeGetvalueAll n.symtab kbnodeKeyEmits) = false := by
  simp only [matching, List.filter_eq_nil_iff, Bool.not_eq_true]
  exact Lists.forall_mem_zipIdx_fst (P := fun h : KbTree =>
    nodeFilterHandlers h.symtab (kbnodeGetvalueAll n.symtab kbnodeKeyEmits) = false)

/-- Of the three actions one is bound and the others are not. -/
theorem actionCount_eq_one {st : Symtab} (h : actionCount st = 1) :
    (kbsymtabExists st kbnodeKeyExec = true ∧ kbsymtabExists st kbnodeKeyEmits = false ∧
        kbsymtabExists st kbnodeKeyJobs = false) ∨
      (kbsymtabExists st kbnodeKeyExec = false ∧ kbsymtabExists st kbnodeKeyEmits = true ∧
        kbsymtabExists st kbnodeKeyJobs = false) ∨
      (kbsymtabExists st kbnodeKeyExec = false ∧ kbsymtabExists st kbnodeKeyEmits = false ∧
        kbsymtabExists st kbnodeKeyJobs = true) := by
  rw [actionCount] at h
  cases hexec : kbsymtabExists st kbnodeKeyExec <;>
    cases hemits : kbsymtabExists st kbnodeKeyEmits <;>
    cases hjobs : kbsymtabExists st kbnodeKeyJobs <;> simp [List.filter, hexec, hemits, hjobs] at h ⊢

theorem getvalue_of_not_exists {st : Symtab} {key : CStr} (h : kbsymtabExists st key = false) :
    kbnodeGetvalueAll st key = [] ∧ kbnodeGetvalueFirst st key = [] := by
  have hget : kbsymtabGet st key = none := by
    by_contra hne
    have hexists := kbsymtabExists_iff.mpr (Option.ne_none_iff_exists'.mp hne)
    simp [h] at hexists
  simp [kbnodeGetvalueAll, kbnodeGetvalueFirst, kbsymtabGetString, hget]

/-- A node has something to do just when its run does not end in the branch for those that have
not. -/
theorem LintedNode.hasAction_iff {n : KbTree} (h : LintedNode n) :
    HasAction n ↔ ¬ (matching n = [] ∧ commandsOf n.symtab = [] ∧ n.jobs = []) := by
  have hjobs : n.jobs = [] ↔ kbnodeGetvalueAll n.symtab kbnodeKeyJobs = [] := by
    rw [← List.length_eq_zero_iff, h.jobs, List.length_eq_zero_iff]
  have hsilent : kbsymtabExists n.symtab kbnodeKeyEmits = false → matching n = [] := by
    intro he
    simp [matching_eq_nil_iff, (getvalue_of_not_exists he).1, nodeFilterHandlers]
  rw [commandsOf_eq_nil_iff, hjobs]
  rcases actionCount_eq_one h.actions with ⟨hx, he, hj⟩ | ⟨hx, he, hj⟩ | ⟨hx, he, hj⟩
  · simp only [hsilent he, (getvalue_of_not_exists hj).1, true_and, and_true]
    exact ⟨fun hact => hact.exec hx,
      fun hne => ⟨fun _ => hne, fun h => by simp [he] at h, fun h => by simp [hj] at h⟩⟩
  · simp only [(getvalue_of_not_exists hx).2, (getvalue_of_not_exists hj).1, and_true,
      matching_eq_nil_iff, not_forall, Bool.not_eq_false, exists_prop]
    exact ⟨fun hact => hact.emits he,
      fun hne => ⟨fun h => by simp [hx] at h, fun _ => hne, fun h => by simp [hj] at h⟩⟩
  · simp only [hsilent he, (getvalue_of_not_exists hx).2, true_and]
    exact ⟨fun hact => hact.jobs hj,
      fun hne => ⟨fun h => by simp [hx] at h, fun h => by simp [he] at h, fun _ => hne⟩⟩

/-! ### Nodes of a run -/

theorem Visited.noAction_iff {q : Path} {t n : KbTree} (h : Visited shell [] t q n)
    (hn : LintedNode n) : .noAction q ∈ (kbbiRun shell [] t).trace ↔ ¬ HasAction n := by
  rw [h.noAction_mem_iff, hn.hasAction_iff, not_not]
  exact and_iff_right hn.srcdef

theorem Visited.acts_iff {q : Path} {t n : KbTree} (h : Visited shell [] t q n)
    (hn : LintedNode n) : Acts q (kbbiRun shell [] t).trace ↔ HasAction n := by
  rw [hn.hasAction_iff]
  constructor
  · rintro (⟨i, cmd, rc, hmem⟩ | ⟨s, hmem⟩) ⟨hm, hc, hj⟩
    · obtain ⟨n', hn', -, -, hcmd, -⟩ := command_mem_trace.mp hmem
      obtain rfl := hn'.unique h
      simp [hc] at hcmd
    · obtain ⟨c, hrun⟩ := h.start_child_iff.mp hmem
      cases hrun with
      | handler _ hmatch => simp [hm] at hmatch
      | job _ _ _ hjob => simp [hj] at hjob
  · intro hnot
    by_cases hm : matching n = []
    · by_cases hc : commandsOf n.symtab = []
      · -- the first job is run whatever the others do
        obtain ⟨job, jobs, hjobs⟩ := List.exists_cons_of_ne_nil fun hj => hnot ⟨hm, hc, hj⟩
        refine .inr ⟨.job 0, h.start_child_iff.mpr ⟨job, .job hn.srcdef hm hc ?_ ?_⟩⟩
        · simp [hjobs]
        · exact fun k _ hk => absurd hk (Nat.not_lt_zero _)
      · obtain ⟨c, hcmd⟩ := List.exists_mem_of_ne_nil _ hc
        exact .inl ⟨c.2, c.1, _, command_mem_trace.mpr ⟨n, h, hn.srcdef, hm, hcmd, rfl⟩⟩
    · obtain ⟨k, hk⟩ := List.exists_mem_of_ne_nil _ hm
      exact .inr ⟨.handler k.2, h.start_child_iff.mpr ⟨k.1, .handler hn.srcdef hk⟩⟩

theorem everyNodeActs_iff {t : KbTree} (ht : t.Forall (fun _ n => LintedNode n) []) :
    EveryNodeActs (kbbiRun shell [] t).trace ↔ ∀ q n, Visited shell [] t q n → HasAction n := by
  have hlinted : ∀ q n, Visited shell [] t q n → LintedNode n := by
    intro q n hn
    obtain ⟨up, hat⟩ := hn.exists_at
    exact ht q up n hat
  constructor
  · intro h q n hn
    exact (hn.acts_iff (hlinted q n hn)).mp (h.acts q (hn.subset (start_mem_trace q n)))
  · intro h
    refine ⟨fun q hq => ?_, fun q hq => ?_⟩
    · obtain ⟨n, hn⟩ := Visited.of_mem_trace hq rfl
      exact (Visited.acts_iff hn (hlinted q n hn)).mpr (h q n hn)
    · obtain ⟨n, hn⟩ := Visited.of_mem_trace hq rfl
      exact (Visited.noAction_iff hn (hlinted q n hn)).mp hq (h q n hn)

/-- In a configuration that lints without errors, all runs of a tree have every node do something
just when every node that can be reached has something to do. -/
theorem kbbiRun_everyNodeActs_iff (L : Libds) (all : List Kbnode) (t : KbTree)
    (h : LintedTree L all t) :
    (∀ shell, EveryNodeActs (kbbiRun shell [] t).trace) ↔ ∀ q n, Reaches t q n → HasAction n := by
  simp only [everyNodeActs_iff h.nodes]
  exact forall_visited_iff fun p up n hat => LintedNode.srcdef (h.nodes p up n hat)

/-! ### An empty command -/

/-- The variables of a node as they are read from a file. -/
def nodeVars (id : String) (vars : List (CStr × List CStr)) : Symtab :=
  symtabOf ((kbnodeKeyId, [id.toList]) :: (kbnodeKeyFname, ["f".toList]) ::
    (kbnodeKeyLine, ["1".toList]) :: (kbnodeKeyMessage, ["m".toList]) :: vars)

/-- A file with these nodes and nothing to complain about. -/
def fileOf (nodes : List Kbnode) : FileRead := { nodes := nodes, nerrors := 0, nwarnings := 0 }

/-- An entrypoint with one command. -/
def commandFile (cmd : String) : FileRead :=
  fileOf [⟨.entrypoint, nodeVars "ep" [(kbnodeKeyExec, [cmd.toList])]⟩]

/-- `EXEC =` passes the lint, and the entrypoint does nothing and returns 0. -/
theorem kbbiRun_emptyCommand_not_acts :
    ∃ r, HaltsWith (lint .ordered (fun _ => false) [commandFile ""] fun _ => none) r ∧
      r.nerrors = 0 ∧ ∃ t ∈ r.trees, (kbbiRun succeeding [] t).ret = 0 ∧
        ¬ ∀ shell, EveryNodeActs (kbbiRun shell [] t).trace := by
  obtain ⟨r, hr, hP⟩ := exists_haltsWith
    (f := lint .ordered (fun _ => false) [commandFile ""] fun _ => none) 2
    (fun r => r.nerrors = 0 && r.trees.any fun t => (kbbiRun succeeding [] t).ret = 0 &&
      .noAction [] ∈ (kbbiRun succeeding [] t).trace) (by decide +kernel)
  simp only [Bool.and_eq_true, decide_eq_true_eq, List.any_eq_true] at hP
  obtain ⟨hn, t, ht, hret, hmem⟩ := hP
  exact ⟨r, hr, hn, t, ht, hret, fun h => (h succeeding).noBranch [] hmem⟩

theorem Reaches.eq_of_childless {t n : KbTree} {q : Path} (h : Reaches t q n) (hj : t.jobs = [])
    (hh : t.handlers = []) : n = t := by
  cases h with
  | here => rfl
  | child hc _ =>
    cases hc with
    | handler _ hm => simp [matching, hh] at hm
    | job _ _ _ hmem => simp [hj] at hmem

theorem kbbiRun_everyNodeActs_command :
    ∃ r, HaltsWith (lint .ordered (fun _ => false) [commandFile "true"] fun _ => none) r ∧
      ∃ t ∈ r.trees, ∀ shell, EveryNodeActs (kbbiRun shell [] t).trace := by
  obtain ⟨r, hr, hP⟩ := exists_haltsWith
    (f := lint .ordered (fun _ => false) [commandFile "true"] fun _ => none) 2
    (fun r => r.nerrors = 0 && r.trees.any fun t => t.jobs.isEmpty && t.handlers.isEmpty &&
      (kbnodeGetvalueFirst t.symtab kbnodeKeyExec ≠ [] &&
        !kbsymtabExists t.symtab kbnodeKeyEmits && !kbsymtabExists t.symtab kbnodeKeyJobs))
    (by decide +kernel)
  simp only [Bool.and_eq_true, decide_eq_true_eq, List.any_eq_true, List.isEmpty_iff,
    Bool.not_eq_true'] at hP
  obtain ⟨hn, t, ht, ⟨hj, hh⟩, ⟨hexec, hemits⟩, hjobs⟩ := hP
  have htree := (Passed.of_lint hr hn).lintedTree ht
  refine ⟨r, hr, t, ht, (kbbiRun_everyNodeActs_iff .ordered _ t htree).mpr ?_⟩
  intro q n hreach
  rw [hreach.eq_of_childless hj hh]
  exact ⟨fun _ => hexec, fun h => by simp [hemits] at h, fun h => by simp [hjobs] at h⟩

end Kubeka
