import Kubeka.Config.Actions
import Kubeka.Eval.Termination

/-!
# The gate before a launch

A configuration is launched only when no pass has counted an error. What the
passes have established together is that no defect is left, with one gap: an ID
or a MESSAGE may be an array without values. The handlers of a signal are looked
up a second time by the text of their IDs, and an ID without a value reads as
the empty one, so that what is behind a handler that is taken for another node
has not been looked at.
-/

namespace Kubeka

open Relation FiniteGraph Fuel Templates

variable {L : Libds} {all : List Kbnode} {up : List Symtab}

/-! ### Nodes and what they refer to -/

/-- The node has an ID value, and it is `id`. -/
def HasId (n : Kbnode) (id : CStr) : Prop :=
  ∃ rest, kbsymtabGet n.symtab kbnodeKeyId = some (id :: rest)

/-- Node `n` has `m` among its jobs or emits a signal that `m` handles. -/
def RefersTo (all : List Kbnode) (n m : Kbnode) : Prop :=
  m ∈ all ∧ ((∃ id ∈ kbnodeGetvalueAll n.symtab kbnodeKeyJobs, HasId m id) ∨
    ∃ s ∈ kbnodeGetvalueAll n.symtab kbnodeKeyEmits,
      s ∈ kbnodeGetvalueAll m.symtab kbnodeKeyHandles)

/-- A job of the node is missing or a signal of it unhandled. -/
def Dangling (all : List Kbnode) (n : Kbnode) : Prop :=
  (∃ id ∈ kbnodeGetvalueAll n.symtab kbnodeKeyJobs, ∀ m ∈ all, ¬ HasId m id) ∨
    ∃ s ∈ kbnodeGetvalueAll n.symtab kbnodeKeyEmits,
      ∀ m ∈ all, s ∉ kbnodeGetvalueAll m.symtab kbnodeKeyHandles

theorem HasId.nodeId {n : Kbnode} {id : CStr} (h : HasId n id) : nodeId n.symtab = id := by
  obtain ⟨rest, h⟩ := h
  exact kbsymtabGetString_of_cons h

theorem hasId_or_empty (n : Kbnode) : HasId n (nodeId n.symtab) ∨
    ((kbsymtabGet n.symtab kbnodeKeyId = none ∨ kbsymtabGet n.symtab kbnodeKeyId = some []) ∧
      nodeId n.symtab = []) := by
  rw [HasId, nodeId, kbsymtabGetString]
  rcases kbsymtabGet n.symtab kbnodeKeyId with _ | _ | ⟨id, rest⟩ <;> simp

theorem hasId_of_srcdef {n : Kbnode} (h : kbnodeGetSrcdef n.symtab ≠ none) :
    HasId n (nodeId n.symtab) := by
  refine (hasId_or_empty n).resolve_right fun hempty => h ?_
  refine kbnodeGetSrcdef_eq_none.mpr (.inr (.inr ?_))
  rcases hempty.1 with hget | hget <;> simp [kbnodeGetvalueAll, hget]

/-! ### Trees without errors -/

/-- `m` handles a signal of `n` and has an ID without values, and some node has the empty ID. -/
def Confused (all : List Kbnode) (n m : Kbnode) : Prop :=
  m ∈ all ∧ kbsymtabGet m.symtab kbnodeKeyId = some [] ∧
    (∃ s ∈ kbnodeGetvalueAll n.symtab kbnodeKeyEmits,
      s ∈ kbnodeGetvalueAll m.symtab kbnodeKeyHandles) ∧
    ∃ k ∈ all, HasId k []

/-- From the node a handler is reached that is taken for another node, and from the handler a missing
job, an unhandled signal or a cycle. -/
def Hides (all : List Kbnode) (src : Kbnode) : Prop :=
  ∃ n m, ReflTransGen (RefersTo all) src n ∧ Confused all n m ∧
    ((∃ k, ReflTransGen (RefersTo all) m k ∧ Dangling all k) ∨ ReachesCycle (RefersTo all) m)

theorem Confused.refersTo {n m : Kbnode} (h : Confused all n m) : RefersTo all n m :=
  ⟨h.1, .inr h.2.2.1⟩

/-- The nodes with ID values are told apart by them. -/
def IdsDistinct (all : List Kbnode) : Prop :=
  ∀ n ∈ all, ∀ m ∈ all, ∀ id, HasId n id → HasId m id → n = m

/-- A node that is built without errors has an ID value. -/
theorem BuiltWithin.hasId {fuel : ℕ} {src : Kbnode} (h : BuiltWithin L all fuel src) :
    HasId src (nodeId src.symtab) := by
  cases fuel with
  | zero => exact absurd h (not_builtWithin_zero src)
  | succ fuel =>
    obtain ⟨up, r, h, hr⟩ := h
    exact hasId_of_srcdef (nodeInstantiate_succeeds h hr).1

/-- One level of a tree without errors: nothing dangles, and every node referred to is built, except
for a handler in whose place another node is. -/
theorem BuiltWithin.refersTo (hkeys : ∀ m ∈ all, kbsymtabGet m.symtab kbnodeKeyId ≠ none)
    (hids : IdsDistinct all) {fuel : ℕ} {src : Kbnode} (h : BuiltWithin L all (fuel + 1) src) :
    ¬ Dangling all src ∧
      ∀ m, RefersTo all src m → BuiltWithin L all fuel m ∨ Confused all src m := by
  obtain ⟨up, r, h, hr⟩ := h
  obtain ⟨-, hsignals, st, -, hfound⟩ := nodeInstantiate_succeeds h hr
  have hlookup : ∀ id, (id ∈ kbnodeGetvalueAll src.symtab kbnodeKeyJobs ∨
      ∃ m ∈ all, nodeId m.symtab = id ∧ ∃ s ∈ kbnodeGetvalueAll src.symtab kbnodeKeyEmits,
        s ∈ kbnodeGetvalueAll m.symtab kbnodeKeyHandles) →
      ∃ ref ∈ all, HasId ref id ∧ BuiltWithin L all fuel ref := by
    intro id hid
    obtain ⟨ref, r', href, -, hbuild, hok⟩ := hfound id hid
    obtain ⟨hmem, rfl⟩ := nodeFindbyid_some href
    have hbuilt : BuiltWithin L all fuel ref := ⟨_, r', hbuild, hok⟩
    exact ⟨ref, hmem, hbuilt.hasId, hbuilt⟩
  refine ⟨?_, ?_⟩
  · rintro (⟨id, hid, hmissing⟩ | ⟨s, hs, hunhandled⟩)
    · obtain ⟨ref, hmem, href, -⟩ := hlookup id (.inl hid)
      exact hmissing ref hmem href
    · obtain ⟨m, hm, hsm⟩ := hsignals s hs
      exact hunhandled m hm hsm
  · rintro m ⟨hm, ⟨id, hid, hmid⟩ | ⟨s, hs, hsm⟩⟩
    · obtain ⟨ref, hmem, href, hbuilt⟩ := hlookup id (.inl hid)
      rw [hids ref hmem m hm id href hmid] at hbuilt
      exact .inl hbuilt
    · obtain ⟨ref, hmem, href, hbuilt⟩ := hlookup (nodeId m.symtab) (.inr ⟨m, hm, rfl, s, hs, hsm⟩)
      rcases hasId_or_empty m with hid | ⟨hnone, hempty⟩
      · rw [hids ref hmem m hm _ href hid] at hbuilt
        exact .inl hbuilt
      · -- the handler has no ID value, so another node was found by the empty ID
        rw [hempty] at href
        exact .inr ⟨hm, hnone.resolve_left (hkeys m hm), ⟨s, hs, hsm⟩, ref, hmem, href⟩

/-- A tree that was built without errors covers everything its node reaches but what is hidden. -/
theorem BuiltWithin.covers (hkeys : ∀ m ∈ all, kbsymtabGet m.symtab kbnodeKeyId ≠ none)
    (hids : IdsDistinct all) {fuel : ℕ} {src : Kbnode} (h : BuiltWithin L all fuel src)
    (hhides : ¬ Hides all src) : Terminates (RefersTo all) src ∧
      ∀ n, ReflTransGen (RefersTo all) src n → ¬ Dangling all n := by
  refine terminates_of_bound
    (B := fun k n => ReflTransGen (RefersTo all) src n ∧ BuiltWithin L all k n)
    (fun n hn => not_builtWithin_zero n hn.2) ?_ ⟨.refl, h⟩
  rintro k n ⟨hn, hbuilt⟩
  obtain ⟨hres, hbelow⟩ := hbuilt.refersTo hkeys hids
  refine ⟨hres, fun m hm => (hbelow m hm).imp (fun hbuilt => ⟨hn.tail hm, hbuilt⟩) fun hconf => ?_⟩
  have hacyclic : ¬ ReachesCycle (RefersTo all) m := fun hc => hhides ⟨n, m, hn, hconf, .inr hc⟩
  have hmem : ∀ k, ReflTransGen (RefersTo all) m k → k ∈ {k | k ∈ all} :=
    fun k hk => mem_of_path (fun _ _ h => h.1) hm.1 hk
  exact ⟨terminates_of_not_reachesCycle (List.finite_toSet all) hmem hacyclic,
    fun k hk hd => hhides ⟨n, m, hn, hconf, .inl ⟨k, hk, hd⟩⟩⟩

/-! ### Values without definitions -/

/-- In a tree of templates that was evaluated without errors every name referred to is defined. -/
theorem resolve_of_treeOf {ep : Kbnode} {t t' : KbTree} (h : TreeOf L all ep t t') (hep : ep ∈ all)
    (htemplates : ∀ n ∈ all, ∀ key vs, kbsymtabGet n.symtab key = some vs → ∀ v ∈ vs, IsTemplate v)
    {p : Path} {n : KbTree} (hat : t.at? [] p = some (up, n)) {key : CStr} {vs : List CStr} {v : CStr}
    (hvs : kbsymtabGet n.symtab key = some vs) (hv : v ∈ vs) {name : CStr} (hname : IsName name)
    (hin : refText name <:+: v) : kbnodeResolve (n.symtab :: up) name ≠ none := by
  obtain ⟨hbuilt, env, env', heval⟩ := h
  have hinst := nodeInstantiate_instances hep
    ((kbnodeInstantiate_eq L ep all).trans (congrArg some hbuilt)) []
  have hread : ∀ q up' m, t.at? [] q = some (up', m) → ReadableTable m.symtab := by
    intro q up' m hm key vs hvs v hv
    obtain ⟨src, hsrc, hcopy⟩ := hinst q up' m hm
    exact (htemplates src hsrc key vs (hcopy.values key ▸ hvs) v hv).readable
  have hnode : t.Forall TemplateNode [] := fun q up' m hm =>
    ⟨kbtreeEval_srcdef heval rfl [] q up' m hm, hread q up' m hm⟩
  obtain ⟨-, hto⟩ := haltsWith_kbtreeEval (by simp) hnode heval
  obtain ⟨-, n', -, hR⟩ := (hto.nodes [] p).1 up n hat
  obtain ⟨s, k, hs⟩ := hR.nodeExpands key vs hvs v hv
  have hreadable : Readable v := hread p up n hat key vs hvs v hv
  have hmem : .ref name ∈ parse v :=
    hreadable.1.mem_of_refText_occurs hname.2.1 (by rwa [hreadable.2])
  obtain ⟨b, -, -, hb, -⟩ := hs.mem hmem
  intro hnone
  simp [table, hnone] at hb

/-! ### Defects -/

/-- The node has an ID and a MESSAGE. -/
def HasRequired (n : Kbnode) : Prop := ∀ key ∈ requiredKeys, kbnodeGetvalueAll n.symtab key ≠ []

instance : DecidablePred HasRequired := fun n =>
  inferInstanceAs (Decidable (∀ key ∈ requiredKeys, kbnodeGetvalueAll n.symtab key ≠ []))

/-- From the entrypoint a missing job, an unhandled signal or a cycle can be reached. -/
def RefersBadly (all : List Kbnode) (ep : Kbnode) : Prop :=
  (∃ n, ReflTransGen (RefersTo all) ep n ∧ Dangling all n) ∨ ReachesCycle (RefersTo all) ep

/-- What a configuration must not have: a parse error; two nodes with one ID; a node without a value
for ID or MESSAGE, or with none or several of EXEC, EMITS and JOBS; a periodic node without exactly
one period; a missing job, an unhandled signal or a cycle that an entrypoint reaches; or, in a
configuration of templates, a reference to a name that the node of a tree does not see. -/
inductive Defect (L : Libds) (files : List FileRead) : Prop
  | parse {f} : f ∈ files → f.nerrors ≠ 0 → Defect L files
  | sameId {pre n mid m post id} : readNodes files = pre ++ n :: mid ++ m :: post → HasId n id →
      HasId m id → Defect L files
  | missingKey {n} : n ∈ readNodes files → ¬ HasRequired n → Defect L files
  | actions {n} : n ∈ readNodes files → actionCount n.symtab ≠ 1 → Defect L files
  | period {n} : n ∈ readNodes files → n.type = .periodic →
      (kbnodeGetvalueAll n.symtab kbnodeKeyPeriod).length ≠ 1 → Defect L files
  | references {ep} : ep ∈ entrypoints (readNodes files) → RefersBadly (readNodes files) ep →
      Defect L files
  | undefinedName {ep t p up n key vs v name} :
      (∀ n ∈ readNodes files, ∀ key vs, kbsymtabGet n.symtab key = some vs →
        ∀ v ∈ vs, IsTemplate v) →
      ep ∈ entrypoints (readNodes files) →
      (kbnodeInstantiate L ep (kbtreeCoalesce L (readNodes files)).nodes).tree = some t →
      t.at? [] p = some (up, n) → kbsymtabGet n.symtab key = some vs → v ∈ vs → IsName name →
      refText name <:+: v → kbnodeResolve (n.symtab :: up) name = none → Defect L files

/-- A defect is hidden from an entrypoint that reaches it. -/
def HidesDefect (nodes : List Kbnode) : Prop := ∃ ep ∈ entrypoints nodes, Hides nodes ep

/-- Where the ID of every node has a value nothing is hidden. -/
theorem not_hidesDefect_of_required {nodes : List Kbnode} (h : ∀ n ∈ nodes, HasRequired n) :
    ¬ HidesDefect nodes := by
  rintro ⟨ep, -, n, m, -, ⟨hm, hid, -⟩, -⟩
  exact h m hm kbnodeKeyId (by simp [requiredKeys]) (by simp [kbnodeGetvalueAll, hid])

theorem Hides.refersBadly {ep : Kbnode} (h : Hides all ep) : RefersBadly all ep := by
  obtain ⟨n, m, hn, hconf, ⟨k, hk, hd⟩ | hc⟩ := h
  · exact .inl ⟨k, (hn.tail hconf.refersTo).trans hk, hd⟩
  · exact .inr (hc.of_path (hn.tail hconf.refersTo))

section Perm

variable {nodes : List Kbnode}

theorem refersTo_congr (h : ∀ m, m ∈ all ↔ m ∈ nodes) : RefersTo all = RefersTo nodes := by
  funext n m
  simp only [RefersTo, h]

theorem dangling_congr (h : ∀ m, m ∈ all ↔ m ∈ nodes) : Dangling all = Dangling nodes := by
  funext n
  simp only [Dangling, h]

theorem confused_congr (h : ∀ m, m ∈ all ↔ m ∈ nodes) : Confused all = Confused nodes := by
  funext n m
  simp only [Confused, h]

theorem hides_congr (h : ∀ m, m ∈ all ↔ m ∈ nodes) : Hides all = Hides nodes := by
  funext src
  simp only [Hides, refersTo_congr h, confused_congr h, dangling_congr h]

theorem mem_entrypoints_congr (h : ∀ m, m ∈ all ↔ m ∈ nodes) (ep : Kbnode) :
    ep ∈ entrypoints all ↔ ep ∈ entrypoints nodes := by
  simp only [entrypoints, kbnodeFilterTypes, List.mem_filter, h]

end Perm

/-! ### What has passed has no defect -/

theorem kbnodeCmp_ne_zero {n m : Kbnode} (h : kbnodeCmp n m ≠ 0) (id : CStr) (hn : HasId n id) :
    ¬ HasId m id := by
  rintro ⟨rs, hm⟩
  obtain ⟨ls, hn⟩ := hn
  exact h (kbnodeCmp_eq_zero.mpr ⟨id, ls, rs, hn, hm⟩)

instance : Std.Symm fun n m : Kbnode => kbnodeCmp n m ≠ 0 := ⟨fun _ _ h => mt kbnodeCmp_comm h⟩

theorem idsDistinct_of_pairwise (h : all.Pairwise fun n m => kbnodeCmp n m ≠ 0) :
    IdsDistinct all := by
  intro n hn m hm id hnid hmid
  by_contra hne
  exact kbnodeCmp_ne_zero (h.forall hn hm hne) id hnid hmid

theorem Passed.treeOf {files : List FileRead} {trees : List KbTree}
    (h : Passed L files all trees) {ep : Kbnode} (hep : ep ∈ entrypoints all) :
    ∃ t t', TreeOf L all ep t t' := by
  obtain ⟨t', -, -, t, ht⟩ := Lists.forall₂_right_of_mem h.built hep
  exact ⟨t, t', ht⟩

theorem TreeOf.builtWithin {ep : Kbnode} {t t' : KbTree} (h : TreeOf L all ep t t') :
    BuiltWithin L all (instantiateFuel all) ep := by
  refine ⟨[], _, kbnodeInstantiate_eq L ep all, ?_⟩
  rw [h.1]
  exact ⟨rfl, rfl⟩

section Coalesced

variable {files : List FileRead} {trees : List KbTree}

theorem Passed.requiredKeys_set (h : Passed L files all trees) {n : Kbnode} (hn : n ∈ all)
    {key : CStr} (hkey : key ∈ requiredKeys) : kbsymtabGet n.symtab key ≠ none := by
  obtain ⟨nul, hcheck⟩ := h.checked n hn
  exact Option.ne_none_iff_exists'.mpr (kbsymtabExists_iff.mp (kbnodeCheck_exists hcheck hkey))

/-- What an entrypoint refers to has neither a cycle nor a missing node but those that are
hidden. -/
theorem Passed.refersBadly_iff (h : Passed L files (kbtreeCoalesce L (readNodes files)).nodes trees)
    {ep : Kbnode} (hep : ep ∈ entrypoints (readNodes files)) :
    RefersBadly (readNodes files) ep ↔ Hides (readNodes files) ep := by
  refine ⟨fun hbad => ?_, Hides.refersBadly⟩
  have hmem : ∀ m, m ∈ (kbtreeCoalesce L (readNodes files)).nodes ↔ m ∈ readNodes files :=
    fun m => h.collected.mem_iff
  obtain ⟨t, t', htree⟩ := h.treeOf ((mem_entrypoints_congr hmem ep).mpr hep)
  have hcov := htree.builtWithin.covers
    (fun n hn => h.requiredKeys_set hn (by simp [requiredKeys])) (idsDistinct_of_pairwise h.distinct)
  rw [refersTo_congr hmem, dangling_congr hmem, hides_congr hmem] at hcov
  by_contra hhides
  obtain ⟨hterm, hres⟩ := hcov hhides
  rcases hbad with ⟨n, hn, hd⟩ | hcycle
  · exact hres n hn hd
  · exact hterm.not_reachesCycle hcycle

theorem Passed.not_defect (h : Passed L files (kbtreeCoalesce L (readNodes files)).nodes trees)
    (hrequired : ∀ n ∈ readNodes files, HasRequired n) : ¬ Defect L files := by
  have hmem : ∀ m, m ∈ (kbtreeCoalesce L (readNodes files)).nodes ↔ m ∈ readNodes files :=
    fun m => h.collected.mem_iff
  intro hdefect
  cases hdefect with
  | parse hf hne => exact hne (h.read _ hf)
  | @sameId pre n mid m post id hnodes hn hm =>
    have hpair := (h.collected.pairwise_iff fun h => mt kbnodeCmp_comm h).mp h.distinct
    rw [hnodes] at hpair
    obtain ⟨-, -, hcross⟩ := List.pairwise_append.mp hpair
    exact kbnodeCmp_ne_zero (hcross n (by simp) m (by simp)) id hn hm
  | missingKey hn hmissing => exact hmissing (hrequired _ hn)
  | actions hn hne =>
    obtain ⟨nul, hcheck⟩ := h.checked _ ((hmem _).mpr hn)
    exact hne (kbnodeCheck_actionCount hcheck)
  | period hn htype hne =>
    obtain ⟨nul, hcheck⟩ := h.checked _ ((hmem _).mpr hn)
    exact hne (kbnodeCheck_period hcheck htype)
  | references hep hbad =>
    exact not_hidesDefect_of_required hrequired ⟨_, hep, (h.refersBadly_iff hep).mp hbad⟩
  | @undefinedName ep t p up n key vs v name htemplates hep htree hat hvs hv hname hin hnone =>
    obtain ⟨t₁, t', htreeOf⟩ := h.treeOf ((mem_entrypoints_congr hmem ep).mpr hep)
    obtain rfl : t₁ = t := by
      rw [htreeOf.1] at htree
      exact Option.some.inj htree
    refine resolve_of_treeOf htreeOf ?_ (fun n hn => htemplates n ((hmem n).mp hn)) hat hvs hv
      hname hin hnone
    exact (hmem ep).mpr (List.mem_of_mem_filter hep)

end Coalesced

/-- Something is run only after a lint that has counted no error. -/
theorem main_launches {nul : ℕ → Bool} {opts : Options} {files : List FileRead} {env : Env}
    {fuel : ℕ} {o : MainResult} (h : main L nul opts files env fuel = .ok o) (ho : o.Launches) :
    ∃ r, HaltsWith (lint L nul files env) r ∧ r.nerrors = 0 := by
  cases hr : lint L nul files env fuel with
  | error s => simp [main, hr, Bind.bind, Except.bind] at h
  | ok r =>
    refine ⟨r, ⟨fuel, hr⟩, ?_⟩
    simp only [main, hr, Bind.bind, Except.bind, Pure.pure, Except.pure, Except.ok.injEq] at h
    by_contra hne
    rw [gate, if_pos hne] at h
    rw [← h] at ho
    exact ho

/-- The trees that are run. -/
def MainResult.trees : MainResult → List KbTree
  | .exit _ => []
  | .launch _ trees | .threads trees => trees

theorem gate_launches {opts : Options} {r : Linted} (h : (gate opts r).Launches) :
    r.nerrors = 0 ∧ (gate opts r).trees = r.trees := by
  cases hentry : opts.entry with
  | some nodeId =>
    simp only [gate, hentry] at h ⊢
    split_ifs at h ⊢ with hn hw hl
    · exact h.elim
    · exact h.elim
    · exact h.elim
    · exact ⟨not_not.mp hn, rfl⟩
  | none =>
    simp only [gate, hentry] at h ⊢
    split_ifs at h ⊢ with hn hw hl hd ht
    · exact h.elim
    · exact h.elim
    · exact h.elim
    · exact h.elim
    · exact ⟨not_not.mp hn, rfl⟩
    · exact h.elim

/-- What is run has passed. -/
theorem main_passed {nul : ℕ → Bool} {opts : Options} {files : List FileRead} {env : Env}
    {fuel : ℕ} {o : MainResult} (h : main L nul opts files env fuel = .ok o) (ho : o.Launches) :
    Passed L files (kbtreeCoalesce L (readNodes files)).nodes o.trees := by
  cases hr : lint L nul files env fuel with
  | error s => simp [main, hr, Bind.bind, Except.bind] at h
  | ok r =>
    simp only [main, hr, Bind.bind, Except.bind, Pure.pure, Except.pure, Except.ok.injEq] at h
    subst h
    obtain ⟨hn, htrees⟩ := gate_launches ho
    rw [htrees]
    exact .of_lint ⟨fuel, hr⟩ hn

/-- A configuration that is launched has no defect just when every node has an ID and a MESSAGE; and
of its references it hides those behind a handler that is taken for another node. -/
theorem main_refuses_defects_iff (L : Libds) (nul : ℕ → Bool) (opts : Options)
    (files : List FileRead) (env : Env) (fuel : ℕ) (o : MainResult)
    (h : main L nul opts files env fuel = .ok o) (ho : o.Launches) :
    (¬ Defect L files ↔ ∀ n ∈ readNodes files, HasRequired n) ∧
      ((∃ ep ∈ entrypoints (readNodes files), RefersBadly (readNodes files) ep) ↔
        HidesDefect (readNodes files)) := by
  obtain ⟨r, hr, hn⟩ := main_launches h ho
  have hpassed := Passed.of_lint hr hn
  refine ⟨⟨fun hnone n hmem => ?_, hpassed.not_defect⟩, ?_⟩
  · by_contra hmissing
    exact hnone (.missingKey hmem hmissing)
  · exact exists_congr fun ep => and_congr_right fun hep => hpassed.refersBadly_iff hep

/-! ### A handler that is taken for another node -/

/-- The handler of `s` has `ID = []` and a job that does not exist; another node has `ID =`. -/
def confusedFile : FileRead :=
  fileOf [⟨.entrypoint, nodeVars "ep" [(kbnodeKeyEmits, ["s".toList])]⟩,
    ⟨.job, nodeVars "" [(kbnodeKeyExec, ["true".toList])]⟩,
    ⟨.job, (nodeVars "" [(kbnodeKeyHandles, ["s".toList]),
      (kbnodeKeyJobs, ["nowhere".toList])]).insert kbnodeKeyId []⟩]

/-- `--job ep` -/
def jobOptions : Options :=
  { entry := some "ep".toList, lint := false, daemon := false, werror := false }

theorem dangling_of_nodeId {n : Kbnode} (id : CStr)
    (hid : id ∈ kbnodeGetvalueAll n.symtab kbnodeKeyJobs) (h : ∀ m ∈ all, nodeId m.symtab ≠ id) :
    Dangling all n :=
  .inl ⟨id, hid, fun m hm hmid => h m hm hmid.nodeId⟩

theorem mem_entrypoints {n : Kbnode} (hn : n ∈ all) (htype : n.type ∈ [.periodic, .entrypoint]) :
    n ∈ entrypoints all := List.mem_filter.mpr ⟨hn, decide_eq_true htype⟩

theorem confusedFile_defect : Defect .ordered [confusedFile] := by
  let nodes := readNodes [confusedFile]
  have hep : nodes[0] ∈ entrypoints nodes := mem_entrypoints (List.getElem_mem _) (by decide)
  have hsignal : "s".toList ∈ kbnodeGetvalueAll nodes[0].symtab kbnodeKeyEmits ∧
      "s".toList ∈ kbnodeGetvalueAll nodes[2].symtab kbnodeKeyHandles := by decide +kernel
  have hhandler : RefersTo nodes nodes[0] nodes[2] := ⟨List.getElem_mem _, .inr ⟨_, hsignal⟩⟩
  exact .references hep (.inl ⟨_, .single hhandler,
    dangling_of_nodeId "nowhere".toList (by decide +kernel) (by decide +kernel)⟩)

/-- The missing job is not noticed, and the entrypoint is launched. -/
theorem main_launches_confused : Defect .ordered [confusedFile] ∧
    ∃ o, HaltsWith (main .ordered (fun _ => false) jobOptions [confusedFile] fun _ => none) o ∧
      o.Launches := by
  obtain ⟨o, ho, hlaunch⟩ := exists_haltsWith
    (f := main .ordered (fun _ => false) jobOptions [confusedFile] fun _ => none) 2
    (fun o => o.Launches) (by decide +kernel)
  exact ⟨confusedFile_defect, o, ho, of_decide_eq_true hlaunch⟩

theorem main_launches_command :
    ∃ o, HaltsWith (main .ordered (fun _ => false) jobOptions [commandFile "true"] fun _ => none) o ∧
      o.Launches ∧ ¬ Defect .ordered [commandFile "true"] := by
  obtain ⟨o, ⟨fuel, ho⟩, hlaunch⟩ := exists_haltsWith
    (f := main .ordered (fun _ => false) jobOptions [commandFile "true"] fun _ => none) 2
    (fun o => o.Launches) (by decide +kernel)
  have hl : o.Launches := of_decide_eq_true hlaunch
  exact ⟨o, ⟨fuel, ho⟩, hl, (main_refuses_defects_iff .ordered _ jobOptions _ _ fuel o ho hl).1.mpr
    (by decide +kernel)⟩

end Kubeka
