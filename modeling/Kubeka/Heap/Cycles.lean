import Kubeka.Config.Instances
import Kubeka.Heap.FailedChild

/-!
# Which cycles are reported

Without a cycle the tree is built, or the missing references are counted. A
cycle ends the call for the node that refers back to an ancestor, and with it
the calls on the way to it. This is reported where those were calls for jobs; a
handler that fails is deleted twice. On the way the first reference of each
node is taken that leads into a cycle.
-/

namespace Kubeka

open Relation FiniteGraph

variable {L : Libds} {all : List Kbnode} {h : Heap} {up : List Symtab} {src : Kbnode}

/-- The references of a node are looked into where each of its signals has a handler. -/
def LooksInto (all : List Kbnode) (n m : Kbnode) : Prop :=
  PointsTo all n m ∧ ∀ s ∈ kbnodeGetvalueAll n.symtab kbnodeKeyEmits,
    ∃ handler ∈ all, s ∈ kbnodeGetvalueAll handler.symtab kbnodeKeyHandles

/-- The entry refers to a node from which a cycle can be reached. -/
def Djob.LeadsToCycle (all : List Kbnode) (d : Djob) : Prop :=
  ∃ m, nodeFindbyid all d.id = some m ∧ ReachesCycle (LooksInto all) m

/-- The first entry of the table of the node, the jobs before the handlers, that leads to a
cycle. -/
def FirstToCycle (all : List Kbnode) (n : Kbnode) (d : Djob) : Prop :=
  ∃ pre post e, nodeFindDependentJobs n.symtab all = (some (pre ++ d :: post), e) ∧
    (∀ c ∈ pre, ¬ c.LeadsToCycle all) ∧ d.LeadsToCycle all

/-- Taking the first entry that leads to a cycle from node to node, only jobs are passed before the
entry that has one of the IDs on the way, or of those given. -/
inductive ReturnsByJobs (all : List Kbnode) : List CStr → Kbnode → Prop
  | ancestor {ids : List CStr} {n : Kbnode} {d : Djob} (first : FirstToCycle all n d)
      (above : d.id ∈ ids) : ReturnsByJobs all ids n
  | job {ids : List CStr} {n m : Kbnode} {d : Djob} (first : FirstToCycle all n d)
      (job : d.childtype = .job) (found : nodeFindbyid all d.id = some m)
      (below : ReturnsByJobs all (nodeId n.symtab :: ids) m) : ReturnsByJobs all ids n

/-- Everything that can be reached has its references, and no cycle can be reached. -/
def RefersSoundly (all : List Kbnode) (src : Kbnode) : Prop :=
  (∀ n, ReflTransGen (PointsTo all) src n → ReferencesResolve all n) ∧
    ¬ ReachesCycle (PointsTo all) src

/-- The call returns, with a tree and no error for sound references and with errors for others. -/
def ChecksReferences (all : List Kbnode) (src : Kbnode)
    (run : Except Fault (Heap × Option Ref × ℕ)) : Prop :=
  ∃ h' made nerrors, run = .ok (h', made, nerrors) ∧
    (RefersSoundly all src → made ≠ none ∧ nerrors = 0) ∧
    (¬ RefersSoundly all src → nerrors ≠ 0)

/-! ### Entries of the table -/

theorem exists_dependentJobs {n : Kbnode} (hsrc : kbnodeGetSrcdef n.symtab ≠ none)
    (hsignals : ∀ s ∈ kbnodeGetvalueAll n.symtab kbnodeKeyEmits,
      ∃ handler ∈ all, s ∈ kbnodeGetvalueAll handler.symtab kbnodeKeyHandles) :
    ∃ djobs e, nodeFindDependentJobs n.symtab all = (some djobs, e) := by
  obtain ⟨origin, horigin⟩ := Option.ne_none_iff_exists'.mp hsrc
  cases hhandlers : signalHandlers all (kbnodeGetvalueAll n.symtab kbnodeKeyEmits) with
  | none =>
    obtain ⟨s, hs, hno⟩ := signalHandlers_none hhandlers
    obtain ⟨m, hm, hsm⟩ := hsignals s hs
    exact absurd hsm (hno m hm)
  | some handlers =>
    rw [nodeFindDependentJobs, horigin, hhandlers]
    exact ⟨_, _, rfl⟩

/-- The table is there where the signals have handlers, and lists what is looked into. -/
theorem looksInto_iff_entry (hall : WellIdentified all) {n m : Kbnode} (hn : n ∈ all) :
    LooksInto all n m ↔ ∃ djobs e, nodeFindDependentJobs n.symtab all = (some djobs, e) ∧
      ∃ d ∈ djobs, nodeFindbyid all d.id = some m := by
  constructor
  · rintro ⟨⟨hm, href⟩, hsignals⟩
    obtain ⟨djobs, e, htable⟩ := exists_dependentJobs (hall.srcdef n hn) hsignals
    obtain ⟨-, -, hids⟩ := nodeFindDependentJobs_some htable
    have hid : nodeId m.symtab ∈ djobs.map Djob.id :=
      (hids _).mpr (href.imp id fun hs => ⟨m, hm, rfl, hs⟩)
    obtain ⟨d, hd, hdid⟩ := List.mem_map.mp hid
    exact ⟨djobs, e, htable, d, hd, by rw [hdid, hall.findbyid hm]⟩
  · rintro ⟨djobs, e, htable, d, hd, hfound⟩
    obtain ⟨-, hsignals, hids⟩ := nodeFindDependentJobs_some htable
    obtain ⟨hm, hmid⟩ := nodeFindbyid_some hfound
    refine ⟨⟨hm, ?_⟩, hsignals⟩
    rcases (hids d.id).mp (List.mem_map_of_mem hd) with hjob | ⟨m', hm', hmid', hs⟩
    · exact .inl (by rwa [hmid])
    · obtain rfl := hall.eq_of_id hm hm' (hmid.trans hmid'.symm)
      exact .inr hs

/-! ### A node cannot be built -/

/-- The IDs are those of nodes that lead to `n`. -/
def Above (all : List Kbnode) (ids : List CStr) (n : Kbnode) : Prop :=
  ∀ id ∈ ids, ∃ a ∈ all, nodeId a.symtab = id ∧ TransGen (LooksInto all) a n

theorem Above.nil (n : Kbnode) : Above all [] n := by simp [Above]

theorem Above.child {ids : List CStr} {n m : Kbnode} (ha : Above all ids n) (hn : n ∈ all)
    (hlooks : LooksInto all n m) : Above all (nodeId n.symtab :: ids) m := by
  refine List.forall_mem_cons.mpr ⟨⟨n, hn, rfl, .single hlooks⟩, fun id hid => ?_⟩
  obtain ⟨a, hmem, haid, hpath⟩ := ha id hid
  exact ⟨a, hmem, haid, hpath.tail hlooks⟩

/-- Who refers to an ancestor is on a cycle, and so is the ancestor. -/
theorem Above.reachesCycle (hall : WellIdentified all) {ids : List CStr} {n m : Kbnode}
    (ha : Above all ids n) (hlooks : LooksInto all n m) (hid : nodeId m.symtab ∈ ids) :
    TransGen (LooksInto all) m m := by
  obtain ⟨a, hmem, haid, hpath⟩ := ha _ hid
  obtain rfl := hall.eq_of_id hmem hlooks.1.1 haid
  exact hpath.tail hlooks

/-- Below nodes that lead to it a node cannot be built only where it reaches a cycle. -/
theorem Fails.reachesCycle (hall : WellIdentified all) (hfails : Fails L all up src)
    (hsrc : src ∈ all) (ha : Above all (up.map nodeId) src) : ReachesCycle (LooksInto all) src := by
  induction hfails with
  | @table up src copy =>
    obtain ⟨st, hst⟩ := exists_kbsymtabCopy L (hall.srcdef src hsrc)
    simp [copy] at hst
  | @ancestor up src ref st djobs n d copy table entry found cycle =>
    have hlooks := (looksInto_iff_entry hall hsrc).mpr ⟨djobs, n, table, d, entry, found⟩
    have hid : nodeId ref.symtab ∈ up.map nodeId := by
      rw [(nodeFindbyid_some found).2]
      exact not_not.mp (mt nodeFindparent_none.mpr cycle)
    exact ⟨ref, .single hlooks, ha.reachesCycle hall hlooks hid⟩
  | @child up src ref st djobs n d copy table entry found fails ih =>
    have hlooks := (looksInto_iff_entry hall hsrc).mpr ⟨djobs, n, table, d, entry, found⟩
    refine .of_path (.single hlooks) (ih hlooks.1.1 ?_)
    rw [List.map_cons, kbsymtabCopy_nodeId copy]
    exact ha.child hsrc hlooks

/-- Where a node can be built no path from it is infinite: each level of the recursion uses up an
ID. -/
theorem terminates_of_not_fails (hall : WellIdentified all) (hsrc : src ∈ all)
    (hfails : ¬ Fails L all up src) : Terminates (LooksInto all) src := by
  let ids : Finset CStr := (all.map fun n => nodeId n.symtab).toFinset
  have hids : ∀ n ∈ all, nodeId n.symtab ∈ ids :=
    fun n hn => List.mem_toFinset.mpr (List.mem_map_of_mem hn)
  refine (terminates_of_bound (P := fun _ => True) (B := fun k n => n ∈ all ∧
    ∃ up, ¬ Fails L all up n ∧ depthBound ids up (nodeId n.symtab) < k) ?_ ?_
    ⟨hsrc, up, hfails, Nat.lt_succ_self _⟩).1
  · rintro n ⟨-, up, -, hlt⟩
    exact absurd hlt (Nat.not_lt_zero _)
  · rintro k n ⟨hn, up, hbuilds, hlt⟩
    refine ⟨trivial, fun m hm => .inl ⟨hm.1.1, ?_⟩⟩
    obtain ⟨djobs, e, htable, d, hd, hfound⟩ := (looksInto_iff_entry hall hn).mp hm
    obtain ⟨st, hcopy⟩ := exists_kbsymtabCopy L (hall.srcdef n hn)
    have hst : nodeId st = nodeId n.symtab := kbsymtabCopy_nodeId hcopy
    have hnot := mt (fails_iff hcopy htable).mpr hbuilds
    have hnew : nodeId m.symtab ∉ up.map nodeId := by
      rw [(nodeFindbyid_some hfound).2]
      refine nodeFindparent_none.mp (not_not.mp fun hcycle => ?_)
      exact hnot ⟨d, hd, m, hfound, .inl hcycle⟩
    refine ⟨st :: up, fun hbelow => hnot ⟨d, hd, m, hfound, .inr hbelow⟩, ?_⟩
    have hdepth := depthBound_child (by rw [hst]; exact hids n hn) hnew
    rw [hst] at hdepth
    omega

theorem fails_iff_reachesCycle (hall : WellIdentified all) (hsrc : src ∈ all)
    (ha : Above all (up.map nodeId) src) :
    Fails L all up src ↔ ReachesCycle (LooksInto all) src :=
  ⟨fun hfails => hfails.reachesCycle hall hsrc ha, not_imp_not.mp fun hbuilds =>
    (terminates_of_not_fails hall hsrc hbuilds).not_reachesCycle⟩

/-- The entries at which the loop stops are those that lead to a cycle. -/
theorem stops_iff_leadsToCycle (hall : WellIdentified all) (hsrc : src ∈ all)
    (ha : Above all (up.map nodeId) src) {st : Symtab} (hcopy : kbsymtabCopy L src.symtab = some st)
    {djobs : List Djob} {e : ℕ} (htable : nodeFindDependentJobs src.symtab all = (some djobs, e))
    {d : Djob} (hd : d ∈ djobs) :
    d.Stops all up (Fails L all (st :: up)) ↔ d.LeadsToCycle all := by
  refine exists_congr fun m => and_congr_right fun hfound => ?_
  have hlooks := (looksInto_iff_entry hall hsrc).mpr ⟨djobs, e, htable, d, hd, hfound⟩
  have hbelow : Above all ((st :: up).map nodeId) m := by
    rw [List.map_cons, kbsymtabCopy_nodeId hcopy]
    exact ha.child hsrc hlooks
  rw [fails_iff_reachesCycle hall hlooks.1.1 hbelow]
  refine or_iff_right_of_imp fun hcycle => ⟨m, .refl, ha.reachesCycle hall hlooks ?_⟩
  rw [(nodeFindbyid_some hfound).2]
  exact not_not.mp (mt nodeFindparent_none.mpr hcycle)

/-- The calls that fail are those for the references that lead to a cycle first. -/
theorem failsByJobs_iff_returnsByJobs (hall : WellIdentified all) (hsrc : src ∈ all)
    (ha : Above all (up.map nodeId) src) :
    FailsByJobs L all up src ↔ ReturnsByJobs all (up.map nodeId) src := by
  constructor
  · intro hfails
    induction hfails with
    | @ancestor up src ref st pre post e d copy table passed found cycle =>
      have hstops := fun c hc => stops_iff_leadsToCycle hall hsrc ha copy table (d := c) hc
      refine .ancestor ⟨pre, post, e, table, fun c hc => ?_, ?_⟩
        (not_not.mp (mt nodeFindparent_none.mpr cycle))
      · rw [← hstops c (by simp [hc])]
        exact passed c hc
      · exact (hstops d (by simp)).mp ⟨ref, found, .inl cycle⟩
    | @job up src ref st pre post e d copy table passed found job fails ih =>
      have hstops := fun c hc => stops_iff_leadsToCycle hall hsrc ha copy table (d := c) hc
      have hlooks := (looksInto_iff_entry hall hsrc).mpr ⟨_, e, table, d, by simp, found⟩
      refine .job ⟨pre, post, e, table, fun c hc => ?_, ?_⟩ job found ?_
      · rw [← hstops c (by simp [hc])]
        exact passed c hc
      · exact (hstops d (by simp)).mp ⟨ref, found, .inr fails.fails⟩
      · have hbelow := ha.child hsrc hlooks
        rw [← kbsymtabCopy_nodeId copy, ← List.map_cons] at hbelow ⊢
        exact ih hlooks.1.1 hbelow
  · intro hreturns
    generalize hids : up.map nodeId = ids at hreturns
    induction hreturns generalizing up with
    | @ancestor ids n d first above =>
      subst hids
      obtain ⟨pre, post, e, table, passed, m, found, -⟩ := first
      obtain ⟨st, copy⟩ := exists_kbsymtabCopy L (hall.srcdef n hsrc)
      refine .ancestor copy table (fun c hc => ?_) found (mt nodeFindparent_none.mp (not_not.mpr above))
      rw [stops_iff_leadsToCycle hall hsrc ha copy table (by simp [hc])]
      exact passed c hc
    | @job ids n m d first job found below ih =>
      subst hids
      obtain ⟨pre, post, e, table, passed, -⟩ := first
      obtain ⟨st, copy⟩ := exists_kbsymtabCopy L (hall.srcdef n hsrc)
      have hlooks := (looksInto_iff_entry hall hsrc).mpr ⟨_, e, table, d, by simp, found⟩
      refine .job copy table (fun c hc => ?_) found job (ih hlooks.1.1 ?_ ?_)
      · rw [stops_iff_leadsToCycle hall hsrc ha copy table (by simp [hc])]
        exact passed c hc
      · rw [List.map_cons, kbsymtabCopy_nodeId copy]
        exact ha.child hsrc hlooks
      · rw [List.map_cons, kbsymtabCopy_nodeId copy]

/-! ### The whole call -/

/-- References are checked exactly as they should be where no cycle is looked into, or where it is come
to by jobs. -/
theorem kbnodeInstantiateHeap_checksReferences_iff (L : Libds) (h : Heap) (all : List Kbnode)
    (src : Kbnode) (hall : WellIdentified all) (hsrc : src ∈ all) :
    ChecksReferences all src (kbnodeInstantiateHeap L h src all) ↔
      (ReachesCycle (LooksInto all) src → ReturnsByJobs all [] src) := by
  have hsound := kbnodeInstantiate_succeeds_iff L all src hall hsrc
  have hnone := nodeInstantiate_none (kbnodeInstantiate_eq L src all)
  have hfails : (kbnodeInstantiate L src all).tree = none ↔ ReachesCycle (LooksInto all) src :=
    (nodeInstantiate_fails_iff (kbnodeInstantiate_eq L src all)).trans
      (fails_iff_reachesCycle hall hsrc (.nil src))
  have hjobs : FailsByJobs L all [] src ↔ ReturnsByJobs all [] src :=
    failsByJobs_iff_returnsByJobs hall hsrc (.nil src)
  cases kbnodeInstantiateHeap_spec L h src all with
  | @built t h' tree copied ran grown =>
    refine iff_of_true ⟨h', some t.ref, _, ran, fun hgood => ⟨by simp, ?_⟩, fun hbad herr => ?_⟩ ?_
    · obtain ⟨t', ht'⟩ := hsound.mpr hgood
      rw [ht']
    · exact hbad (hsound.mp ⟨t.erase, by rw [← tree, ← herr]⟩)
    · rw [← hfails, tree]
      simp
  | @dropped h' tree jobs ran dropped =>
    refine iff_of_true ⟨h', none, _, ran, fun hgood => ?_, fun _ => hnone tree⟩
      fun _ => hjobs.mp jobs
    obtain ⟨t', ht'⟩ := hsound.mpr hgood
    simp [ht'] at tree
  | undefined tree notJobs ran =>
    refine iff_of_false ?_ fun hreturns => notJobs (hjobs.mpr (hreturns (hfails.mp tree)))
    rintro ⟨h', made, n, hrun, -⟩
    simp [ran] at hrun

/-- The handler of the entrypoint's signal has the entrypoint as a job: it fails, and the entrypoint,
which still has it, is deleted. -/
theorem cyclicHandler_not_checksReferences : WellIdentified cyclicHandler ∧
    cyclicHandler[0] ∈ cyclicHandler ∧ ¬ ChecksReferences cyclicHandler cyclicHandler[0]
      (kbnodeInstantiateHeap .ordered .empty cyclicHandler[0] cyclicHandler) := by
  refine ⟨⟨by decide, by decide⟩, by simp, ?_⟩
  rintro ⟨h', made, n, hrun, -⟩
  cases hrun

/-- Two nodes that have each other as jobs. -/
def circularJobs : List Kbnode :=
  let vars (id : String) : List (CStr × List CStr) := [(kbnodeKeyId, [id.toList]),
    (kbnodeKeyFname, ["f".toList]), (kbnodeKeyLine, ["1".toList])]
  [⟨.entrypoint, symtabOf (vars "ep" ++ [(kbnodeKeyJobs, ["a".toList])])⟩,
    ⟨.job, symtabOf (vars "a" ++ [(kbnodeKeyJobs, ["ep".toList])])⟩]

theorem circularJobs_wellIdentified : WellIdentified circularJobs := ⟨by decide, by decide⟩

theorem circularJobs_checksReferences : ChecksReferences circularJobs circularJobs[0]
    (kbnodeInstantiateHeap .ordered .empty circularJobs[0] circularJobs) := by
  refine (kbnodeInstantiateHeap_checksReferences_iff .ordered .empty circularJobs _
    circularJobs_wellIdentified (by simp)).mpr fun _ => ?_
  have hlooks₀ : LooksInto circularJobs circularJobs[0] circularJobs[1] :=
    ⟨⟨by simp, .inl (by decide)⟩, by decide⟩
  have hlooks₁ : LooksInto circularJobs circularJobs[1] circularJobs[0] :=
    ⟨⟨by simp, .inl (by decide)⟩, by decide⟩
  have hcycle₀ : ReachesCycle (LooksInto circularJobs) circularJobs[0] :=
    ⟨_, .refl, .tail (.single hlooks₀) hlooks₁⟩
  have hcycle₁ : ReachesCycle (LooksInto circularJobs) circularJobs[1] :=
    .of_path (.single hlooks₁) hcycle₀
  refine .job (m := circularJobs[1]) (d := ⟨.job, "a".toList⟩)
    ⟨[], [], 0, rfl, by simp, _, rfl, hcycle₁⟩ rfl rfl ?_
  exact .ancestor (d := ⟨.job, "ep".toList⟩) ⟨[], [], 0, rfl, by simp, _, rfl, hcycle₀⟩ (by decide)

end Kubeka
