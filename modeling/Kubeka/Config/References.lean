import Kubeka.Library.FiniteGraph
import Kubeka.Model.Instantiate

/-!
# References and cycles are checked exactly

The nodes of a configuration form a graph: a node points to the nodes named in
its JOBS and to the handlers of the signals in its EMITS. Building the tree of
a node succeeds without errors exactly when every reference that can be reached
has a target and no cycle can be reached. A tree that was built bounds every
path of the graph; conversely an ancestor that is met again would close a cycle.
-/

namespace Kubeka

open Relation FiniteGraph

variable {L : Libds} {all : List Kbnode} {up : List Symtab}

/-- Node `n` has `m` among its jobs or among the handlers of its signals. -/
def PointsTo (all : List Kbnode) (n m : Kbnode) : Prop :=
  m ∈ all ∧ (nodeId m.symtab ∈ kbnodeGetvalueAll n.symtab kbnodeKeyJobs ∨
    ∃ s ∈ kbnodeGetvalueAll n.symtab kbnodeKeyEmits,
      s ∈ kbnodeGetvalueAll m.symtab kbnodeKeyHandles)

/-- Every job name and every signal of the node has a target. -/
def ReferencesResolve (all : List Kbnode) (n : Kbnode) : Prop :=
  (∀ name ∈ kbnodeGetvalueAll n.symtab kbnodeKeyJobs, ∃ m ∈ all, nodeId m.symtab = name) ∧
    ∀ s ∈ kbnodeGetvalueAll n.symtab kbnodeKeyEmits,
      ∃ m ∈ all, s ∈ kbnodeGetvalueAll m.symtab kbnodeKeyHandles

/-- IDs tell the nodes apart, and every node has its origin. -/
structure WellIdentified (all : List Kbnode) : Prop where
  ids : (all.map fun n => nodeId n.symtab).Nodup
  srcdef : ∀ n ∈ all, kbnodeGetSrcdef n.symtab ≠ none

/-- Where IDs tell the nodes apart a node is found by its ID. -/
theorem nodeFindbyid_of_nodup (hids : (all.map fun n => nodeId n.symtab).Nodup) {n : Kbnode}
    (hn : n ∈ all) : nodeFindbyid all (nodeId n.symtab) = some n := by
  cases hf : nodeFindbyid all (nodeId n.symtab) with
  | none =>
    have hno := List.find?_eq_none.mp hf n hn
    simp at hno
  | some m =>
    obtain ⟨hm, hid⟩ := nodeFindbyid_some hf
    rw [List.inj_on_of_nodup_map hids hm hn hid]

theorem WellIdentified.eq_of_id (h : WellIdentified all) {n m : Kbnode} (hn : n ∈ all) (hm : m ∈ all)
    (hid : nodeId n.symtab = nodeId m.symtab) : n = m :=
  List.inj_on_of_nodup_map h.ids hn hm hid

theorem WellIdentified.findbyid (h : WellIdentified all) {n : Kbnode} (hn : n ∈ all) :
    nodeFindbyid all (nodeId n.symtab) = some n :=
  nodeFindbyid_of_nodup h.ids hn

/-! ### The table of children -/

theorem mem_kbnodeFilterHandlers {s : CStr} {m : Kbnode} :
    m ∈ kbnodeFilterHandlers all [s] ↔
      m ∈ all ∧ s ∈ kbnodeGetvalueAll m.symtab kbnodeKeyHandles := by
  simp [kbnodeFilterHandlers, nodeFilterHandlers_iff]

theorem signalHandlers_some {signals : List CStr} {handlers : List Kbnode}
    (h : signalHandlers all signals = some handlers) :
    (∀ s ∈ signals, ∃ m ∈ all, s ∈ kbnodeGetvalueAll m.symtab kbnodeKeyHandles) ∧
      ∀ m, m ∈ handlers ↔
        m ∈ all ∧ ∃ s ∈ signals, s ∈ kbnodeGetvalueAll m.symtab kbnodeKeyHandles := by
  induction signals generalizing handlers with
  | nil =>
    obtain rfl : [] = handlers := by simpa [signalHandlers] using h
    simp
  | cons s signals ih =>
    obtain ⟨hne, rest, hrest, rfl⟩ := signalHandlers_cons_eq_some h
    obtain ⟨hres, hmem⟩ := ih hrest
    obtain ⟨m, hm⟩ := List.exists_mem_of_ne_nil _ hne
    refine ⟨List.forall_mem_cons.mpr ⟨⟨m, mem_kbnodeFilterHandlers.mp hm⟩, hres⟩, fun k => ?_⟩
    rw [List.mem_append, mem_kbnodeFilterHandlers, hmem]
    simp only [List.mem_cons, exists_eq_or_imp]
    tauto

theorem signalHandlers_none {signals : List CStr} (h : signalHandlers all signals = none) :
    ∃ s ∈ signals, ∀ m ∈ all, s ∉ kbnodeGetvalueAll m.symtab kbnodeKeyHandles := by
  induction signals with
  | nil => simp [signalHandlers] at h
  | cons s signals ih =>
    simp only [signalHandlers] at h
    split at h
    · next hfilter =>
      refine ⟨s, List.mem_cons_self, fun m hm hs => ?_⟩
      have hmem := mem_kbnodeFilterHandlers.mpr ⟨hm, hs⟩
      simp [hfilter] at hmem
    · obtain ⟨s', hs', hno⟩ := ih (by simpa using h)
      exact ⟨s', List.mem_cons_of_mem _ hs', hno⟩

/-- The table lists the jobs by their names and the handlers of all signals by their IDs. -/
theorem nodeFindDependentJobs_some {n : Kbnode} {djobs : List Djob} {e : ℕ}
    (h : nodeFindDependentJobs n.symtab all = (some djobs, e)) :
    e = 0 ∧ (∀ s ∈ kbnodeGetvalueAll n.symtab kbnodeKeyEmits,
        ∃ m ∈ all, s ∈ kbnodeGetvalueAll m.symtab kbnodeKeyHandles) ∧
      ∀ id, id ∈ djobs.map Djob.id ↔ id ∈ kbnodeGetvalueAll n.symtab kbnodeKeyJobs ∨
        ∃ m ∈ all, nodeId m.symtab = id ∧ ∃ s ∈ kbnodeGetvalueAll n.symtab kbnodeKeyEmits,
          s ∈ kbnodeGetvalueAll m.symtab kbnodeKeyHandles := by
  unfold nodeFindDependentJobs at h
  split at h
  · simp at h
  · split at h
    · simp at h
    · next handlers hhandlers =>
      obtain ⟨hjobs, rfl⟩ := Prod.mk.inj h
      obtain rfl := Option.some.inj hjobs
      obtain ⟨hres, hmem⟩ := signalHandlers_some hhandlers
      refine ⟨rfl, hres, fun id => ?_⟩
      simp only [List.map_append, List.map_map, List.mem_append, List.mem_map, Function.comp_apply,
        hmem, exists_eq_right]
      refine or_congr Iff.rfl ⟨?_, ?_⟩
      · rintro ⟨m, ⟨hm, hs⟩, rfl⟩
        exact ⟨m, hm, rfl, hs⟩
      · rintro ⟨m, hm, rfl, hs⟩
        exact ⟨m, ⟨hm, hs⟩, rfl⟩

theorem nodeFindDependentJobs_none {n : Kbnode} {e : ℕ}
    (h : nodeFindDependentJobs n.symtab all = (none, e)) :
    e = 1 ∧ (kbnodeGetSrcdef n.symtab = none ∨ ¬ ReferencesResolve all n) := by
  unfold nodeFindDependentJobs at h
  split at h
  · next hsrc => exact ⟨(Prod.mk.inj h).2.symm, .inl hsrc⟩
  · split at h
    · next hnone =>
      refine ⟨(Prod.mk.inj h).2.symm, .inr fun hres => ?_⟩
      obtain ⟨s, hs, hno⟩ := signalHandlers_none hnone
      obtain ⟨m, hm, hsm⟩ := hres.2 s hs
      exact hno m hm hsm
    · simp at h

/-! ### Building without errors -/

/-- A tree was built and no error counted. -/
def Instantiated.Succeeds (r : Instantiated) : Prop := r.tree.isSome ∧ r.nerrors = 0

/-- The loop over the children has no error when each of them is found, is not an ancestor and can
be built. -/
theorem instantiateChildren_ok_iff {build : Kbnode → Option Instantiated} {ds : List Djob}
    {c : Children} (h : instantiateChildren all up build ds = some c) :
    c.ok = true ∧ c.nerrors = 0 ↔ ∀ d ∈ ds, ∃ ref r, nodeFindbyid all d.id = some ref ∧
      nodeFindparent up d.id = none ∧ build ref = some r ∧ r.Succeeds := by
  induction ds generalizing c with
  | nil =>
    obtain rfl := Option.some.inj h
    simp
  | cons d ds ih =>
    rw [List.forall_mem_cons]
    cases instantiateChildren_cons h with
    | missing found => simp [found]
    | cycle _ cycle => simp [cycle]
    | failed found _ failed => simp [found, failed, Instantiated.Succeeds]
    | built found fresh built rest =>
      rw [Children.insert_ok, Children.insert_nerrors, ← ih rest]
      simp only [found, fresh, built, Option.some.injEq, exists_and_left, exists_eq_left',
        true_and, Instantiated.Succeeds, Option.isSome_some, Nat.add_eq_zero_iff]
      tauto

/-- What one level of the recursion has found when it succeeds: every signal has a handler, and
whatever the table of children names is found, is no ancestor and is built without errors. -/
theorem nodeInstantiate_succeeds {fuel : ℕ} {src : Kbnode} {r : Instantiated}
    (h : nodeInstantiate L all (fuel + 1) up src = some r) (hr : r.Succeeds) :
    kbnodeGetSrcdef src.symtab ≠ none ∧ (∀ s ∈ kbnodeGetvalueAll src.symtab kbnodeKeyEmits,
        ∃ m ∈ all, s ∈ kbnodeGetvalueAll m.symtab kbnodeKeyHandles) ∧
      ∃ st, kbsymtabCopy L src.symtab = some st ∧
        ∀ id, (id ∈ kbnodeGetvalueAll src.symtab kbnodeKeyJobs ∨ ∃ m ∈ all, nodeId m.symtab = id ∧
            ∃ s ∈ kbnodeGetvalueAll src.symtab kbnodeKeyEmits,
              s ∈ kbnodeGetvalueAll m.symtab kbnodeKeyHandles) →
          ∃ ref r, nodeFindbyid all id = some ref ∧ id ∉ up.map nodeId ∧
            nodeInstantiate L all fuel (st :: up) ref = some r ∧ r.Succeeds := by
  cases nodeInstantiate_succ h with
  | noTable => simp [Instantiated.Succeeds] at hr
  | noChildren _ table =>
    simp [Instantiated.Succeeds, (nodeFindDependentJobs_none table).1] at hr
  | @children st djobs n c copy table loop =>
    have hsrc : kbnodeGetSrcdef src.symtab ≠ none := by
      intro hnone
      simp [nodeFindDependentJobs, hnone] at table
    obtain ⟨rfl, hsignals, hids⟩ := nodeFindDependentJobs_some table
    have hok : c.ok = true ∧ c.nerrors = 0 := by
      cases hcok : c.ok <;> simp_all [Instantiated.Succeeds]
    refine ⟨hsrc, hsignals, st, copy, fun id hid => ?_⟩
    obtain ⟨d, hd, rfl⟩ := List.mem_map.mp ((hids id).mpr hid)
    obtain ⟨ref, r, href, hpar, hbuild, hok⟩ := (instantiateChildren_ok_iff loop).mp hok d hd
    exact ⟨ref, r, href, nodeFindparent_none.mp hpar, hbuild, hok⟩

/-- One level of the recursion: the references of the node resolve and every node it points to, not
being an ancestor, is built without errors. -/
theorem nodeInstantiate_succeeds_iff (hall : WellIdentified all) {fuel : ℕ} {src : Kbnode}
    (hsrc : src ∈ all) {r : Instantiated} (h : nodeInstantiate L all (fuel + 1) up src = some r) :
    r.Succeeds ↔ ReferencesResolve all src ∧ ∃ st, kbsymtabCopy L src.symtab = some st ∧
      ∀ m, PointsTo all src m → nodeId m.symtab ∉ up.map nodeId ∧
        ∃ r, nodeInstantiate L all fuel (st :: up) m = some r ∧ r.Succeeds := by
  constructor
  · intro hr
    obtain ⟨-, hsignals, st, hcopy, hfound⟩ := nodeInstantiate_succeeds h hr
    refine ⟨⟨fun name hname => ?_, hsignals⟩, st, hcopy, fun m hm => ?_⟩
    · obtain ⟨ref, _, href, _⟩ := hfound name (.inl hname)
      exact ⟨ref, nodeFindbyid_some href⟩
    · obtain ⟨ref, r, href, hnew, hbuild, hok⟩ :=
        hfound (nodeId m.symtab) (hm.2.imp id fun hs => ⟨m, hm.1, rfl, hs⟩)
      obtain rfl := Option.some.inj (href.symm.trans (hall.findbyid hm.1))
      exact ⟨hnew, r, hbuild, hok⟩
  · rintro ⟨hres, st, hcopy, hok⟩
    cases nodeInstantiate_succ h with
    | noTable copy => simp [hcopy] at copy
    | noChildren _ table =>
      have hbad := (nodeFindDependentJobs_none table).2.resolve_left (hall.srcdef src hsrc)
      exact absurd hres hbad
    | @children st' djobs n c copy table loop =>
      obtain rfl := Option.some.inj (hcopy.symm.trans copy)
      obtain ⟨rfl, -, hids⟩ := nodeFindDependentJobs_some table
      have hdone : c.ok = true ∧ c.nerrors = 0 := by
        refine (instantiateChildren_ok_iff loop).mpr fun d hd => ?_
        obtain ⟨m, hm, hmid⟩ : ∃ m, PointsTo all src m ∧ nodeId m.symtab = d.id := by
          rcases (hids d.id).mp (List.mem_map_of_mem hd) with hjob | ⟨m, hm, hmid, hs⟩
          · obtain ⟨m, hm, hmid⟩ := hres.1 _ hjob
            exact ⟨m, ⟨hm, .inl (by rwa [hmid])⟩, hmid⟩
          · exact ⟨m, ⟨hm, .inr hs⟩, hmid⟩
        obtain ⟨hup, r, hr, hr_ok⟩ := hok m hm
        rw [← hmid]
        exact ⟨m, r, hall.findbyid hm.1, nodeFindparent_none.mpr hup, hr, hr_ok⟩
      simp [Instantiated.Succeeds, hdone]

/-! ### Whole trees -/

/-- The node is built without errors below some ancestors, with the recursion run that deep. -/
def BuiltWithin (L : Libds) (all : List Kbnode) (fuel : ℕ) (src : Kbnode) : Prop :=
  ∃ up r, nodeInstantiate L all fuel up src = some r ∧ r.Succeeds

theorem not_builtWithin_zero (src : Kbnode) : ¬ BuiltWithin L all 0 src := by
  rintro ⟨up, r, h, -⟩
  simp [nodeInstantiate] at h

/-- A tree that was built covers everything its node can reach. -/
theorem resolves_of_builtWithin (hall : WellIdentified all) {fuel : ℕ} {src : Kbnode}
    (hsrc : src ∈ all) (h : BuiltWithin L all fuel src) : Terminates (PointsTo all) src ∧
      ∀ n, ReflTransGen (PointsTo all) src n → ReferencesResolve all n := by
  refine terminates_of_bound (B := fun k n => n ∈ all ∧ BuiltWithin L all k n)
    (fun n hn => not_builtWithin_zero n hn.2) ?_ ⟨hsrc, h⟩
  rintro k n ⟨hn, up, r, hbuild, hr⟩
  obtain ⟨hres, st, -, hchild⟩ := (nodeInstantiate_succeeds_iff hall hn hbuild).mp hr
  refine ⟨hres, fun m hm => .inl ⟨hm.1, ?_⟩⟩
  obtain ⟨-, r', hbuild', hr'⟩ := hchild m hm
  exact ⟨_, r', hbuild', hr'⟩

/-- Where nothing is missing and no path is infinite, a node is built below any ancestors that lead
to it: an ancestor that it points to would close a cycle. -/
theorem succeeds_of_terminates (hall : WellIdentified all) {ids : Finset CStr}
    (hids : ∀ n ∈ all, nodeId n.symtab ∈ ids) {src : Kbnode} (hsrc : src ∈ all)
    (hterm : Terminates (PointsTo all) src)
    (hres : ∀ n, ReflTransGen (PointsTo all) src n → ReferencesResolve all n)
    (hup : ∀ st ∈ up, ∃ a ∈ all, nodeId a.symtab = nodeId st ∧ TransGen (PointsTo all) a src)
    {fuel : ℕ} (hfuel : depthBound ids up (nodeId src.symtab) < fuel) {r : Instantiated}
    (h : nodeInstantiate L all fuel up src = some r) : r.Succeeds := by
  induction hterm generalizing up fuel r with
  | intro src hacc ih =>
    cases fuel with
    | zero => omega
    | succ fuel =>
      obtain ⟨st, hst⟩ := exists_kbsymtabCopy L (hall.srcdef src hsrc)
      have hid : nodeId st = nodeId src.symtab := kbsymtabCopy_nodeId hst
      refine (nodeInstantiate_succeeds_iff hall hsrc h).mpr
        ⟨hres src .refl, st, hst, fun m hm => ?_⟩
      have hnew : nodeId m.symtab ∉ up.map nodeId := by
        intro hmem
        obtain ⟨st', hst', hid'⟩ := List.mem_map.mp hmem
        obtain ⟨a, ha, haid, hpath⟩ := hup st' hst'
        obtain rfl : a = m := hall.eq_of_id ha hm.1 (haid.trans hid')
        have hcycle : TransGen (PointsTo all) src src := .head hm hpath
        have hterm : Terminates (PointsTo all) src := Acc.intro src hacc
        exact hterm.not_cycle hcycle
      have hlt : depthBound ids (st :: up) (nodeId m.symtab) < fuel := by
        have hdepth := depthBound_child (by rw [hid]; exact hids src hsrc) hnew
        rw [hid] at hdepth
        omega
      obtain ⟨r', hr'⟩ := Option.isSome_iff_exists.mp
        (nodeInstantiate_isSome_of_lt (L := L) hids (hids m hm.1) hlt)
      refine ⟨hnew, r', hr', ih m hm hm.1 (fun n hn => hres n (.head hm hn)) ?_ hlt hr'⟩
      refine List.forall_mem_cons.mpr ⟨⟨src, hsrc, hid.symm, .single hm⟩, fun st' hst' => ?_⟩
      obtain ⟨a, ha, haid, hpath⟩ := hup st' hst'
      exact ⟨a, ha, haid, hpath.tail hm⟩

theorem kbnodeInstantiate_eq (L : Libds) (src : Kbnode) (all : List Kbnode) :
    nodeInstantiate L all (instantiateFuel all) [] src = some (kbnodeInstantiate L src all) :=
  (Option.some_get _).symm

/-- Instantiation returns a tree and counts no error exactly when all references reachable from the
node have a target and no cycle is reachable. -/
theorem kbnodeInstantiate_succeeds_iff (L : Libds) (all : List Kbnode) (src : Kbnode)
    (hall : WellIdentified all) (hsrc : src ∈ all) :
    (∃ t, kbnodeInstantiate L src all = { tree := some t, nerrors := 0 }) ↔
      (∀ n, ReflTransGen (PointsTo all) src n → ReferencesResolve all n) ∧
        ¬ ReachesCycle (PointsTo all) src := by
  have hok : (∃ t, kbnodeInstantiate L src all = { tree := some t, nerrors := 0 }) ↔
      (kbnodeInstantiate L src all).Succeeds := by
    generalize kbnodeInstantiate L src all = r
    obtain ⟨tree, n⟩ := r
    cases tree <;> simp [Instantiated.Succeeds]
  have hterm : Terminates (PointsTo all) src ↔ ¬ ReachesCycle (PointsTo all) src :=
    terminates_iff_not_reachesCycle (List.finite_toSet all) fun n hn =>
      mem_of_path (s := {n | n ∈ all}) (fun _ _ h => h.1) hsrc hn
  rw [hok, ← hterm]
  constructor
  · intro hr
    obtain ⟨hacc, hres⟩ :=
      resolves_of_builtWithin hall hsrc ⟨_, _, kbnodeInstantiate_eq L src all, hr⟩
    exact ⟨hres, hacc⟩
  · rintro ⟨hres, hacc⟩
    let ids : Finset CStr := (all.map fun n => nodeId n.symtab).toFinset
    have hids : ∀ n ∈ all, nodeId n.symtab ∈ ids :=
      fun n hn => List.mem_toFinset.mpr (List.mem_map_of_mem hn)
    refine succeeds_of_terminates hall hids hsrc hacc hres (by simp) ?_
      (kbnodeInstantiate_eq L src all)
    have hcard : ids.card ≤ all.length := (List.toFinset_card_le _).trans (by simp)
    rw [depthBound_root, instantiateFuel]
    omega

/-- An entrypoint with two jobs that share a third one. -/
def sharedJob : List Kbnode :=
  let vars (id : String) : List (CStr × List CStr) := [(kbnodeKeyId, [id.toList]),
    (kbnodeKeyFname, ["f".toList]), (kbnodeKeyLine, ["1".toList])]
  [⟨.entrypoint, symtabOf (vars "ep" ++ [(kbnodeKeyJobs, ["a".toList, "b".toList])])⟩,
    ⟨.job, symtabOf (vars "a" ++ [(kbnodeKeyJobs, ["c".toList])])⟩,
    ⟨.job, symtabOf (vars "b" ++ [(kbnodeKeyJobs, ["c".toList])])⟩,
    ⟨.job, symtabOf (vars "c" ++ [(kbnodeKeyExec, ["true".toList])])⟩]

theorem sharedJob_wellIdentified : WellIdentified sharedJob := ⟨by decide, by decide⟩

example : ¬ ReachesCycle (PointsTo sharedJob) (sharedJob.head (by decide)) :=
  ((kbnodeInstantiate_succeeds_iff .ordered sharedJob _ sharedJob_wellIdentified
    (List.head_mem _)).mp ⟨_, rfl⟩).2

end Kubeka
