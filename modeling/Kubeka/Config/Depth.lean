import Kubeka.Library.Lists
import Kubeka.Model.Instantiate

/-!
# How deep an instantiation goes

`node_instantiate` calls itself for a child only when the child is not an
ancestor of its parent, but the parent itself is not looked at. So an ID can
come back in the very next call and never later, whatever the nodes refer to,
and a chain of nested calls is at most twice as long as there are IDs.
-/

namespace Kubeka

variable {L : Libds} {all : List Kbnode} {up : List Symtab} {src : Kbnode}

/-- A call of `node_instantiate`: the node, and the tables of the ancestors of its copy. -/
structure InstantiateCall where
  up : List Symtab
  src : Kbnode

def InstantiateCall.id (c : InstantiateCall) : CStr := nodeId c.src.symtab

/-- The first call makes the second one for one of its children. -/
inductive NestedCall (L : Libds) (all : List Kbnode) : InstantiateCall → InstantiateCall → Prop
  | child {up : List Symtab} {src ref : Kbnode} {st : Symtab} {djobs : List Djob} {n : ℕ}
      {d : Djob} (copy : kbsymtabCopy L src.symtab = some st)
      (table : nodeFindDependentJobs src.symtab all = (some djobs, n)) (entry : d ∈ djobs)
      (found : nodeFindbyid all d.id = some ref) (fresh : nodeFindparent up d.id = none) :
      NestedCall L all ⟨up, src⟩ ⟨st :: up, ref⟩

/-! ### Chains of nested calls -/

theorem NestedCall.spec {c c' : InstantiateCall} (h : NestedCall L all c c') :
    c'.id ∉ c.up.map nodeId ∧ c'.src ∈ all ∧ c'.up.map nodeId = c.id :: c.up.map nodeId := by
  cases h with
  | child copy table entry found fresh =>
    obtain ⟨hmem, hid⟩ := nodeFindbyid_some found
    refine ⟨?_, hmem, ?_⟩
    · rw [InstantiateCall.id, hid]
      exact nodeFindparent_none.mp fresh
    · rw [List.map_cons, kbsymtabCopy_nodeId copy, InstantiateCall.id]

/-- No later call is for a node with the ID of an ancestor of the first one. -/
theorem chain_ids_fresh {c : InstantiateCall} {calls : List InstantiateCall}
    (h : List.IsChain (NestedCall L all) (c :: calls)) :
    ∀ c' ∈ calls, c'.id ∉ c.up.map nodeId := by
  induction calls generalizing c with
  | nil => simp
  | cons d calls ih =>
    obtain ⟨hcd, htail⟩ := List.isChain_cons_cons.mp h
    obtain ⟨hfresh, -, hup⟩ := hcd.spec
    intro c' hc'
    rcases List.mem_cons.mp hc' with rfl | hc'
    · exact hfresh
    · have hnot := ih htail c' hc'
      rw [hup] at hnot
      exact fun hmem => hnot (List.mem_cons_of_mem _ hmem)

theorem chain_repeatsAdjacent {calls : List InstantiateCall}
    (h : List.IsChain (NestedCall L all) calls) :
    Lists.RepeatsAdjacent (calls.map InstantiateCall.id) := by
  induction calls with
  | nil =>
    intro i j a _ hi _
    simp at hi
  | cons c calls ih =>
    cases calls with
    | nil => exact Lists.repeatsAdjacent_singleton _
    | cons d calls =>
      obtain ⟨hcd, htail⟩ := List.isChain_cons_cons.mp h
      refine Lists.repeatsAdjacent_cons_cons.mpr ⟨fun hmem => ?_, ih htail⟩
      obtain ⟨c', hc', hid⟩ := List.mem_map.mp hmem
      have hnot := chain_ids_fresh htail c' hc'
      rw [hcd.spec.2.2, hid] at hnot
      exact hnot List.mem_cons_self

theorem chain_mem {c : InstantiateCall} {calls : List InstantiateCall}
    (h : List.IsChain (NestedCall L all) (c :: calls)) : ∀ c' ∈ calls, c'.src ∈ all := by
  induction calls generalizing c with
  | nil => simp
  | cons d calls ih =>
    obtain ⟨hcd, htail⟩ := List.isChain_cons_cons.mp h
    exact List.forall_mem_cons.mpr ⟨hcd.spec.2.1, ih htail⟩

/-- The IDs of a node and of those in the list. -/
def listedIds (src : Kbnode) (all : List Kbnode) : Finset CStr :=
  ((src :: all).map fun n => nodeId n.symtab).toFinset

theorem chain_length_le {calls : List InstantiateCall}
    (h : List.IsChain (NestedCall L all) (⟨up, src⟩ :: calls)) :
    calls.length + 1 ≤ 2 * (listedIds src all).card := by
  have hmem : ∀ c ∈ InstantiateCall.mk up src :: calls, c.src ∈ src :: all := by
    refine List.forall_mem_cons.mpr ⟨List.mem_cons_self, fun c hc => ?_⟩
    exact List.mem_cons_of_mem _ (chain_mem h c hc)
  have hle := (chain_repeatsAdjacent h).length_le (s := listedIds src all) <| by
    rw [List.forall_mem_map]
    exact fun c hc => List.mem_toFinset.mpr (List.mem_map_of_mem (hmem c hc))
  simpa using hle

/-! ### The recursion -/

/-- The loop over the children lacks a result only where one of its calls does. -/
theorem instantiateChildren_none {build : Kbnode → Option Instantiated} {ds : List Djob}
    (h : instantiateChildren all up build ds = none) :
    ∃ d ∈ ds, ∃ ref, nodeFindbyid all d.id = some ref ∧ nodeFindparent up d.id = none ∧
      build ref = none := by
  induction ds with
  | nil => simp [instantiateChildren] at h
  | cons d ds ih =>
    simp only [instantiateChildren] at h
    split at h
    · obtain ⟨d', hd', hcall⟩ := ih (by simpa using h)
      exact ⟨d', List.mem_cons_of_mem _ hd', hcall⟩
    · next ref hfind =>
      split at h
      · simp at h
      · next hpar =>
        split at h
        · next hbuild => exact ⟨d, List.mem_cons_self, ref, hfind, hpar, hbuild⟩
        · simp at h
        · obtain ⟨d', hd', hcall⟩ := ih (by simpa using h)
          exact ⟨d', List.mem_cons_of_mem _ hd', hcall⟩

/-- A recursion that is deeper than its fuel has made a chain of nested calls. -/
theorem exists_chain_of_none {fuel : ℕ} (h : nodeInstantiate L all fuel up src = none) :
    ∃ calls, calls.length = fuel ∧
      List.IsChain (NestedCall L all) (⟨up, src⟩ :: calls) := by
  induction fuel generalizing up src with
  | zero => exact ⟨[], rfl, List.isChain_singleton _⟩
  | succ fuel ih =>
    simp only [nodeInstantiate] at h
    split at h
    · simp at h
    · next st hcopy =>
      split at h
      · simp at h
      · next djobs n htable =>
        obtain ⟨d, hd, ref, hfind, hpar, hnone⟩ := instantiateChildren_none (by simpa using h)
        obtain ⟨calls, hlen, hchain⟩ := ih hnone
        refine ⟨⟨st :: up, ref⟩ :: calls, by simp [hlen], List.isChain_cons_cons.mpr ⟨?_, hchain⟩⟩
        exact .child hcopy htable hd hfind hpar

/-- The recursion ends with as many levels as twice the number of IDs, as no chain of nested calls
is longer: on a chain an ID stands at most twice, in consecutive calls. -/
theorem nodeInstantiate_depth (L : Libds) (all : List Kbnode) (up : List Symtab) (src : Kbnode) :
    (nodeInstantiate L all (2 * (listedIds src all).card) up src).isSome ∧
      ∀ calls, List.IsChain (NestedCall L all) (⟨up, src⟩ :: calls) →
        let ids := (InstantiateCall.mk up src :: calls).map InstantiateCall.id
        (∀ id, ids.count id ≤ 2) ∧
          (∀ i j id, i < j → ids[i]? = some id → ids[j]? = some id → j = i + 1) ∧
          ids.length ≤ 2 * (listedIds src all).card := by
  constructor
  · rw [← Option.ne_none_iff_isSome]
    intro hnone
    obtain ⟨calls, hlen, hchain⟩ := exists_chain_of_none hnone
    have hle := chain_length_le hchain
    omega
  · intro calls hchain
    have hadj := chain_repeatsAdjacent hchain
    have hlen := chain_length_le hchain
    exact ⟨fun id => hadj.count_le_two id, hadj, by simpa using hlen⟩

/-- A job that names itself is built once more below itself. -/
def selfJob : Kbnode :=
  ⟨.job, symtabOf [(kbnodeKeyId, ["a".toList]), (kbnodeKeyFname, ["f".toList]),
    (kbnodeKeyLine, ["1".toList]), (kbnodeKeyJobs, ["a".toList])]⟩

def selfJobCalls : List InstantiateCall := [⟨[], selfJob⟩, ⟨[selfJob.symtab], selfJob⟩]

theorem selfJob_depth : List.IsChain (NestedCall .ordered [selfJob]) selfJobCalls ∧
    (selfJobCalls.map InstantiateCall.id).count "a".toList ≤ 2 := by
  have hcall : NestedCall .ordered [selfJob] ⟨[], selfJob⟩ ⟨[selfJob.symtab], selfJob⟩ :=
    .child (d := ⟨.job, "a".toList⟩) rfl rfl List.mem_cons_self rfl rfl
  have hchain := List.isChain_cons_cons.mpr ⟨hcall, List.isChain_singleton _⟩
  exact ⟨hchain, ((nodeInstantiate_depth .ordered [selfJob] [] selfJob).2 _ hchain).1 _⟩

end Kubeka
