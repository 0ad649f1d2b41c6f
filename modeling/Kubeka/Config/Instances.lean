import Kubeka.Config.References

/-!
# What a tree is built from

Every node of a tree that was built without errors is a copy of a node of the
configuration, with a child for each name in its JOBS and for each handler of
each of its signals. A node that could not be built is always counted.
-/

namespace Kubeka

variable {L : Libds} {all : List Kbnode} {up : List Symtab}

/-- `n` is a copy of `m` with as many jobs as `m` names. -/
structure InstanceOf (m : Kbnode) (n : KbTree) : Prop where
  type : n.type = m.type
  values : ∀ key, kbsymtabGet n.symtab key = kbsymtabGet m.symtab key
  jobs : n.jobs.length = (kbnodeGetvalueAll m.symtab kbnodeKeyJobs).length

/-- For each signal of a node in turn the nodes that handle it. -/
def handlersOf (all : List Kbnode) (m : Kbnode) : List Kbnode :=
  (kbnodeGetvalueAll m.symtab kbnodeKeyEmits).flatMap fun s =>
    all.filter fun k => s ∈ kbnodeGetvalueAll k.symtab kbnodeKeyHandles

def KbTree.id (t : KbTree) : CStr := nodeId t.symtab

/-- `n` is a copy of `m` with a job for each name and a handler for each node that handles a signal,
as their IDs tell. -/
structure Unfolds (all : List Kbnode) (m : Kbnode) (n : KbTree) : Prop where
  type : n.type = m.type
  values : ∀ key, kbsymtabGet n.symtab key = kbsymtabGet m.symtab key
  jobs : n.jobs.map KbTree.id = kbnodeGetvalueAll m.symtab kbnodeKeyJobs
  handlers : n.handlers.map KbTree.id = (handlersOf all m).map fun k => nodeId k.symtab

theorem Unfolds.id {m : Kbnode} {n : KbTree} (hu : Unfolds all m n) : n.id = nodeId m.symtab := by
  simp only [KbTree.id, nodeId, kbsymtabGetString, hu.values]

theorem Unfolds.instanceOf {m : Kbnode} {n : KbTree} (h : Unfolds all m n) : InstanceOf m n :=
  ⟨h.type, h.values, by rw [← h.jobs, List.length_map]⟩

/-! ### The table of children in order -/

theorem kbnodeFilterHandlers_singleton (s : CStr) : kbnodeFilterHandlers all [s] =
    all.filter fun k => s ∈ kbnodeGetvalueAll k.symtab kbnodeKeyHandles := by
  refine List.filter_congr fun k _ => ?_
  rw [Bool.eq_iff_iff, nodeFilterHandlers_iff]
  simp

theorem signalHandlers_eq {signals : List CStr} {handlers : List Kbnode}
    (h : signalHandlers all signals = some handlers) :
    handlers = signals.flatMap fun s => kbnodeFilterHandlers all [s] := by
  induction signals generalizing handlers with
  | nil => simpa [signalHandlers, eq_comm] using h
  | cons s signals ih =>
    obtain ⟨-, rest, hrest, rfl⟩ := signalHandlers_cons_eq_some h
    rw [List.flatMap_cons, ih hrest]

theorem nodeFindDependentJobs_ids {n : Kbnode} {djobs : List Djob} {e : ℕ}
    (h : nodeFindDependentJobs n.symtab all = (some djobs, e)) :
    (djobs.filter fun d => d.childtype = .job).map Djob.id =
        kbnodeGetvalueAll n.symtab kbnodeKeyJobs ∧
      (djobs.filter fun d => d.childtype = .handler).map Djob.id =
        (handlersOf all n).map fun k => nodeId k.symtab := by
  unfold nodeFindDependentJobs at h
  split at h
  · simp at h
  · split at h
    · simp at h
    · next handlers hhandlers =>
      obtain ⟨hdjobs, -⟩ := Prod.mk.inj h
      obtain rfl := Option.some.inj hdjobs
      have hof : handlers = handlersOf all n := by
        rw [signalHandlers_eq hhandlers, handlersOf]
        exact congrArg (List.flatMap · _) (funext kbnodeFilterHandlers_singleton)
      simp [List.filter_append, List.filter_map, Function.comp_def, hof, kbnodeGetvalueFirst, nodeId]

/-! ### The loop over the children -/

/-- The loop is left only with an error. -/
theorem instantiateChildren_stopped {build : Kbnode → Option Instantiated} {ds : List Djob}
    {c : Children} (h : instantiateChildren all up build ds = some c) (hok : c.ok = false) :
    c.nerrors ≠ 0 := by
  induction ds generalizing c with
  | nil =>
    obtain rfl := Option.some.inj h
    simp at hok
  | cons d ds ih =>
    cases instantiateChildren_cons h with
    | missing => simp
    | cycle => simp
    | failed => simp
    | built _ _ _ rest =>
      rw [Children.insert_ok] at hok
      rw [Children.insert_nerrors]
      have hrest := ih rest hok
      omega

theorem nodeInstantiate_none {fuel : ℕ} {src : Kbnode} {r : Instantiated}
    (h : nodeInstantiate L all fuel up src = some r) (htree : r.tree = none) : r.nerrors ≠ 0 := by
  cases fuel with
  | zero => simp [nodeInstantiate] at h
  | succ fuel =>
    cases nodeInstantiate_succ h with
    | noTable => simp
    | noChildren => simp at htree
    | @children st djobs n c copy table loop =>
      have hok : c.ok = false := by
        cases hc : c.ok with
        | false => rfl
        | true => simp [hc] at htree
      have hne := instantiateChildren_stopped loop hok
      dsimp only
      omega

/-- Without errors there is a child for each reference, built from a node of the configuration. -/
theorem instantiateChildren_built {build : Kbnode → Option Instantiated} {ds : List Djob}
    {c : Children} (hroot : ∀ ref t, build ref = some { tree := some t, nerrors := 0 } →
      t.id = nodeId ref.symtab) (h : instantiateChildren all up build ds = some c)
    (hok : c.ok = true) (hn : c.nerrors = 0) :
    c.jobs.map KbTree.id = (ds.filter fun d => d.childtype = .job).map Djob.id ∧
      c.handlers.map KbTree.id = (ds.filter fun d => d.childtype = .handler).map Djob.id ∧
      ∀ t, t ∈ c.jobs ∨ t ∈ c.handlers →
        ∃ ref ∈ all, build ref = some { tree := some t, nerrors := 0 } := by
  induction ds generalizing c with
  | nil =>
    obtain rfl := Option.some.inj h
    simp
  | cons d ds ih =>
    cases instantiateChildren_cons h with
    | missing => simp at hn
    | cycle => simp at hok
    | failed => simp at hok
    | @built ref t n c found _ built rest =>
      rw [Children.insert_ok] at hok
      rw [Children.insert_nerrors, Nat.add_eq_zero_iff] at hn
      obtain ⟨rfl, hn⟩ := hn
      obtain ⟨hjobs, hhandlers, hbuilt⟩ := ih rest hok hn
      obtain ⟨href, hid⟩ := nodeFindbyid_some found
      have htid : t.id = d.id := (hroot ref t built).trans hid
      refine ⟨?_, ?_, fun u hu => ?_⟩
      · cases hd : d.childtype <;> simp [hd, Children.insert, hjobs, htid]
      · cases hd : d.childtype <;> simp [hd, Children.insert, hhandlers, htid]
      · rcases Children.mem_insert.mp hu with rfl | hu
        · exact ⟨ref, href, built⟩
        · exact hbuilt u hu

/-! ### Whole trees -/

/-- The root of a tree is a copy. -/
theorem nodeInstantiate_root {fuel : ℕ} {src : Kbnode} {t : KbTree} {n : ℕ}
    (h : nodeInstantiate L all fuel up src = some { tree := some t, nerrors := n }) :
    t.type = src.type ∧ kbsymtabCopy L src.symtab = some t.symtab := by
  cases fuel with
  | zero => simp [nodeInstantiate] at h
  | succ fuel =>
    generalize hr : Instantiated.mk (some t) n = r at h
    cases nodeInstantiate_succ h with
    | noTable => simp at hr
    | noChildren copy =>
      simp only [Instantiated.mk.injEq, Option.some.injEq] at hr
      obtain ⟨rfl, -⟩ := hr
      exact ⟨rfl, copy⟩
    | children copy =>
      simp only [Instantiated.mk.injEq, Option.some_eq_ite_none_right, Option.some.injEq] at hr
      obtain ⟨⟨-, rfl⟩, -⟩ := hr
      exact ⟨rfl, copy⟩

theorem nodeInstantiate_id {fuel : ℕ} {src : Kbnode} {t : KbTree} {n : ℕ}
    (h : nodeInstantiate L all fuel up src = some { tree := some t, nerrors := n }) :
    t.id = nodeId src.symtab :=
  kbsymtabCopy_nodeId (nodeInstantiate_root h).2

/-- Every node of a tree built without errors unfolds a node of the configuration. -/
theorem nodeInstantiate_unfolds {fuel : ℕ} {src : Kbnode} {t : KbTree} (hsrc : src ∈ all)
    (h : nodeInstantiate L all fuel up src = some { tree := some t, nerrors := 0 })
    (up₂ : List Symtab) : t.Forall (fun _ n => ∃ m ∈ all, Unfolds all m n) up₂ := by
  induction fuel generalizing up src t up₂ with
  | zero => simp [nodeInstantiate] at h
  | succ fuel ih =>
    generalize hr : Instantiated.mk (some t) 0 = r at h
    cases nodeInstantiate_succ h with
    | noTable => simp at hr
    | noChildren _ table =>
      have hn := (nodeFindDependentJobs_none table).1
      simp only [Instantiated.mk.injEq] at hr
      omega
    | @children st djobs n c copy table loop =>
      simp only [Instantiated.mk.injEq, Option.some_eq_ite_none_right, Option.some.injEq] at hr
      obtain ⟨⟨hok, rfl⟩, hsum⟩ := hr
      have hn : c.nerrors = 0 := by omega
      obtain ⟨hjobsIds, hhandlersIds, hbuilt⟩ :=
        instantiateChildren_built (fun _ _ hbuild => nodeInstantiate_id hbuild) loop hok hn
      obtain ⟨hnames, hsignals⟩ := nodeFindDependentJobs_ids table
      refine KbTree.forall_node.mpr ⟨⟨src, hsrc, rfl, kbsymtabCopy_get copy,
        hjobsIds.trans hnames, hhandlersIds.trans hsignals⟩, ?_, ?_⟩
      · intro u hu
        obtain ⟨ref, href, hr⟩ := hbuilt u (.inl hu)
        exact ih href hr _
      · intro u hu
        obtain ⟨ref, href, hr⟩ := hbuilt u (.inr hu)
        exact ih href hr _

theorem nodeInstantiate_instances {fuel : ℕ} {src : Kbnode} {t : KbTree} (hsrc : src ∈ all)
    (h : nodeInstantiate L all fuel up src = some { tree := some t, nerrors := 0 })
    (up₂ : List Symtab) : t.Forall (fun _ n => ∃ m ∈ all, InstanceOf m n) up₂ := by
  intro p up' n hn
  obtain ⟨m, hm, hmn⟩ := nodeInstantiate_unfolds hsrc h up₂ p up' n hn
  exact ⟨m, hm, hmn.instanceOf⟩

end Kubeka
