import Kubeka.Config.Failures
import Kubeka.Config.References
import Kubeka.Heap.Build

/-!
# Building in memory

`nodeInstantiateHeap` follows `nodeInstantiate`: where that builds a tree, the
tree lies in the heap below the parent that it was attached to. Where it fails,
the node made is deleted again, unless a call for a handler has failed before:
then the handler, which is still in its list, is deleted a second time.
-/

namespace Kubeka

open Placed

variable {L : Libds} {all : List Kbnode} {h h' h₁ : Heap} {up : List Symtab} {st : Symtab}
  {r : Ref} {cell : NodeCell}

/-! ### The loop over the children -/

/-- What the loop does, next to what `instantiateChildren` says. -/
inductive LoopSpec (L : Libds) (h : Heap) (r : Ref) (cell : NodeCell) (byJobs : Prop) (c : Children)
    (run : Except Fault (Heap × Bool × ℕ)) : Prop
  | done {h' : Heap} {k : Kids} (ok : c.ok = true) (erases : k.Erases c)
      (ran : run = .ok (h', true, c.nerrors)) (extended : Extended h h' r k (cell.extend k)) :
      LoopSpec L h r cell byJobs c run
  | stopped {h' : Heap} {k : Kids} (notOk : c.ok = false) (jobs : byJobs)
      (ran : run = .ok (h', false, c.nerrors)) (extended : Extended h h' r k (cell.extend k)) :
      LoopSpec L h r cell byJobs c run
  /-- the handler at `d` was deleted and is still in the list of handlers -/
  | dangling {h' : Heap} {k : Kids} {d : Ref} (notOk : c.ok = false) (notJobs : ¬ byJobs)
      (ran : run = .ok (h', false, c.nerrors)) (new : h.next ≤ d ∧ d < h'.next)
      (gone : h'.cells d = none) (apart : d ∉ k.both.flatMap refs)
      (extended : Extended h h' r k (((cell.extend k).attach .handler d).detach L d)) :
      LoopSpec L h r cell byJobs c run
  | undefined (notOk : c.ok = false) (notJobs : ¬ byJobs) (ran : run = .error .undefined) :
      LoopSpec L h r cell byJobs c run

/-- The first entry refers to no node. -/
theorem LoopSpec.missing {byJobs byJobs' : Prop} {c : Children}
    {run : Except Fault (Heap × Bool × ℕ)} (hl : LoopSpec L h r cell byJobs c run)
    (hby : byJobs' ↔ byJobs) :
    LoopSpec L h r cell byJobs' { c with nerrors := 1 + c.nerrors }
      (run >>= fun x => .ok (x.1, x.2.1, 1 + x.2.2)) := by
  cases hl with
  | done ok erases ran extended =>
    exact .done ok ⟨erases.jobs, erases.handlers⟩ (by rw [ran]; rfl) extended
  | stopped notOk jobs ran extended => exact .stopped notOk (hby.mpr jobs) (by rw [ran]; rfl) extended
  | dangling notOk notJobs ran new gone apart extended =>
    exact .dangling notOk (mt hby.mp notJobs) (by rw [ran]; rfl) new gone apart extended
  | undefined notOk notJobs ran => exact .undefined notOk (mt hby.mp notJobs) (by rw [ran]; rfl)

/-- The first entry is built. -/
theorem LoopSpec.built {byJobs byJobs' : Prop} {c : Children} {run : Except Fault (Heap × Bool × ℕ)}
    {childtype : Childtype} {t : Placed} {n : ℕ} (hg : Grown h h₁ (some (r, childtype)) t)
    (hr : r < h.next) (hl : LoopSpec L h₁ r (cell.attach childtype t.ref) byJobs c run)
    (hby : byJobs' ↔ byJobs) :
    LoopSpec L h r cell byJobs' (c.insert childtype t.erase n)
      (run >>= fun x => .ok (x.1, x.2.1, n + x.2.2)) := by
  have hok := Children.insert_ok c childtype t.erase n
  have hn := Children.insert_nerrors c childtype t.erase n
  cases hl with
  | done ok erases ran extended =>
    rw [← NodeCell.extend_insert] at extended
    exact .done (hok.trans ok) (erases.insert childtype t n) (by rw [ran, hn]; rfl)
      (extended.insert hg hr)
  | stopped notOk jobs ran extended =>
    rw [← NodeCell.extend_insert] at extended
    exact .stopped (hok.trans notOk) (hby.mpr jobs) (by rw [ran, hn]; rfl) (extended.insert hg hr)
  | @dangling h' k d notOk notJobs ran new gone apart extended =>
    rw [← NodeCell.extend_insert] at extended
    refine .dangling (hok.trans notOk) (mt hby.mp notJobs) (by rw [ran, hn]; rfl)
      ⟨hg.next_le.trans new.1, new.2⟩ gone (fun hmem => ?_) (extended.insert hg hr)
    rcases List.mem_append.mp ((k.refs_insert_perm childtype t).subset hmem) with hd | hd
    · exact absurd new.1 (hg.fresh d hd).2.not_ge
    · exact apart hd
  | undefined notOk notJobs ran =>
    exact .undefined (hok.trans notOk) (mt hby.mp notJobs) (by rw [ran]; rfl)

/-- A job that was attached last is detached. -/
theorem attach_job_detach {q : Ref} (hq : q ∉ cell.jobs ++ cell.handlers) :
    (cell.attach .job q).detach L q = cell := by
  rw [List.mem_append, not_or] at hq
  have hdetach : (cell.attach .job q).detach L q = { cell with jobs := cell.jobs ++ [] } :=
    NodeCell.detach_job cell.jobs q [] hq.1 hq.2 rfl
  rw [hdetach, List.append_nil]

theorem AtNode.dropped {childtype : Childtype} (hat : AtNode h r cell st up)
    (hd : Dropped L h h' (some (r, childtype))) :
    h'.cells r = some ((cell.attach childtype h.next).detach L h.next) := by
  rw [hd.frame r hat.next, onParent_self, hat.alive, Option.map_some]

/-- The first entry cannot be built. -/
theorem LoopSpec.failed {fails byJobs : Kbnode → Prop} {d : Djob} {ds : List Djob} {ref : Kbnode}
    {n : ℕ} {run : Except Fault (Heap × Option Ref × ℕ)} (hat : AtNode h r cell st up)
    (href : nodeFindbyid all d.id = some ref) (hnew : nodeFindparent up d.id = none)
    (hfails : fails ref)
    (hcall : CallSpec L h (some (r, d.childtype)) ref (byJobs ref) ⟨none, n⟩ run)
    (rest : Heap × Option Ref × ℕ → Except Fault (Heap × Bool × ℕ))
    (hrest : ∀ h' n, rest (h', none, n) = .ok (h', false, n + 1)) :
    LoopSpec L h r cell (StopsByJobs all up fails byJobs (d :: ds))
      { jobs := [], handlers := [], nerrors := n + 1, ok := false } (run >>= rest) := by
  have hby : StopsByJobs all up fails byJobs (d :: ds) ↔ d.childtype = .job ∧ byJobs ref := by
    rw [stopsByJobs_cons_of_stops ⟨ref, href, .inr hfails⟩ href]
    exact or_iff_right (not_not.mpr hnew)
  cases hcall with
  | built tree => simp at tree
  | undefined _ notJobs ran => exact .undefined rfl (fun h => notJobs (hby.mp h).2) (by rw [ran]; rfl)
  | @dropped h' _ jobs ran dropped =>
    have hran : run >>= rest = .ok (h', false, n + 1) := by rw [ran, ok_bind, hrest]
    have hfresh : h.next ∉ cell.jobs ++ cell.handlers := fun hmem => (hat.lists _ hmem).ne rfl
    have hframe : ∀ q < h.next, q ≠ r → h'.cells q = h.cells q := fun q hq hqr => by
      rw [dropped.frame q hq]
      exact if_neg hqr
    have hown := hat.dropped dropped
    cases hd : d.childtype with
    | job =>
      rw [hd, attach_job_detach hfresh] at hown
      refine .stopped (k := ⟨[], []⟩) rfl (hby.mpr ⟨hd, jobs⟩) hran (.none hframe ?_ dropped.next.le)
      rw [hown, cell.extend_nil]
    | handler =>
      rw [hd] at hown
      refine .dangling (k := ⟨[], []⟩) (d := h.next) rfl (fun h => ?_) hran ⟨le_rfl, dropped.next⟩
        dropped.gone (by simp [Kids.both]) (.none hframe ?_ dropped.next.le)
      · simp [hd] at hby
        exact hby h
      · rw [hown, cell.extend_nil]

theorem instantiateChildrenHeap_spec {build : Kbnode → Option Instantiated}
    {buildHeap : Heap → Childtype → Kbnode → Except Fault (Heap × Option Ref × ℕ)}
    {fails byJobs : Kbnode → Prop} {ds : List Djob} {c : Children} (hat : AtNode h r cell st up)
    (hfails : ∀ ref result, build ref = some result → (result.tree = none ↔ fails ref))
    (hsub : ∀ ref, byJobs ref → fails ref)
    (hbuild : ∀ (h : Heap) (childtype : Childtype) (ref : Kbnode) (result : Instantiated),
      Callable h (some (r, childtype)) (st :: up) → build ref = some result →
        CallSpec L h (some (r, childtype)) ref (byJobs ref) result (buildHeap h childtype ref))
    (hc : instantiateChildren all up build ds = some c) :
    LoopSpec L h r cell (StopsByJobs all up fails byJobs ds) c
      (instantiateChildrenHeap all cell.parent buildHeap ds h) := by
  induction ds generalizing h cell c with
  | nil =>
    obtain rfl := Option.some.inj hc
    exact .done (k := ⟨[], []⟩) rfl ⟨rfl, rfl⟩ rfl
      (.none (fun _ _ _ => rfl) (by rw [cell.extend_nil, hat.alive]) le_rfl)
  | cons d ds ih =>
    have hlen : up.length ≤ h.next := (hat.ancestors.length_le hat.older).trans hat.next.le
    obtain ⟨above, habove, hnone⟩ := nodeFindparentHeap_spec hat.ancestors hlen d.id
    rw [instantiateChildrenHeap]
    cases instantiateChildren_cons hc with
    | missing found rest =>
      simp only [found]
      exact (ih hat rest).missing (stopsByJobs_cons_of_not hsub (Djob.not_stops_of_missing found))
    | @cycle ref found cycle =>
      obtain ⟨q, rfl⟩ := Option.ne_none_iff_exists'.mp (mt hnone.mp cycle)
      simp only [found, habove, ok_bind]
      refine .stopped (k := ⟨[], []⟩) rfl ((stopsByJobs_cons_of_stops ⟨ref, found, .inl cycle⟩
        found).mpr (.inl cycle)) rfl (.none (fun _ _ _ => rfl) ?_ le_rfl)
      rw [cell.extend_nil, hat.alive]
    | failed found fresh failed =>
      obtain rfl := hnone.mpr fresh
      simp only [found, habove, ok_bind]
      exact .failed hat found fresh ((hfails _ _ failed).mp rfl)
        (hbuild h d.childtype _ _ (.child hat) failed) _ fun _ _ => rfl
    | @built ref t n c found fresh built rest =>
      obtain rfl := hnone.mpr fresh
      simp only [found, habove, ok_bind]
      have hok : ¬ fails ref := fun hfail => by simpa using (hfails ref _ built).mpr hfail
      have hskip := Djob.not_stops_of_built found fresh hok
      cases hbuild h d.childtype ref _ (.child hat) built with
      | dropped tree => simp at tree
      | undefined tree => simp at tree
      | @built t' h₁ tree _ ran grown =>
        obtain rfl : t = t'.erase := Option.some.inj tree
        have hrest := ih (hat.grown grown) rest
        rw [(attach_same cell d.childtype t'.ref).2.1] at hrest
        rw [ran, ok_bind]
        exact .built grown hat.next hrest (stopsByJobs_cons_of_not hsub hskip)

/-! ### A whole call -/

variable {parent : Option (Ref × Childtype)}

/-- The table of a new node is there to be replaced. -/
theorem nodeNewSymtab_empty : ∃ st, nodeNewSymtab L Alloc.all Alloc.all [] 0 = some st :=
  ⟨_, rfl⟩

theorem nodeNewHeap_spec (hc : Callable h parent up) (type : KbnodeType) :
    ∃ h₁, nodeNewHeap L h parent type = .ok (h₁, h.next) ∧
      h₁.cells h.next = some
        (.childless type (nodeNewSymtab L Alloc.all Alloc.all [] 0) (parent.map Prod.fst)) ∧
      h₁.next = h.next + 1 ∧
      ∀ q < h.next, h₁.cells q = onParent h parent (fun ct cell => cell.attach ct h.next) q := by
  cases hc with
  | root => exact ⟨_, rfl, Store.alloc_cells_self _ _, rfl, fun q hq => Store.alloc_cells_of_ne _ _ hq.ne⟩
  | @child r cell st up childtype hat =>
    simp only [nodeNewHeap, Option.map_some]
    generalize NodeCell.childless type (nodeNewSymtab L Alloc.all Alloc.all [] 0) (some r) = new
    have halive : (h.alloc new).1.cells r = some cell :=
      (Store.alloc_cells_of_ne h new hat.next.ne).trans hat.alive
    refine ⟨(h.alloc new).1.set r (cell.attach childtype h.next), ?_, ?_, rfl, fun q hq => ?_⟩
    · rw [Store.read_of_cells halive]
      rfl
    · rw [Store.set_cells_of_ne _ _ hat.next.ne', Store.alloc_cells_self]
    · by_cases hqr : q = r
      · rw [hqr, Store.set_cells_self, onParent_self, hat.alive, Option.map_some]
      · rw [Store.set_cells_of_ne _ _ hqr, Store.alloc_cells_of_ne _ _ hq.ne]
        exact (if_neg hqr).symm

/-- The heap when the node has been made and has got its table. -/
structure Made (h h₀ : Heap) (parent : Option (Ref × Childtype)) (type : KbnodeType)
    (symtab : Option Symtab) : Prop where
  own : h₀.cells h.next = some (.childless type symtab (parent.map Prod.fst))
  next : h₀.next = h.next + 1
  frame : ∀ q < h.next, h₀.cells q = onParent h parent (fun ct cell => cell.attach ct h.next) q

theorem Made.next_lt {h₀ : Heap} {type : KbnodeType} {symtab : Option Symtab}
    (hm : Made h h₀ parent type symtab) : h.next < h₀.next := by
  rw [hm.next]
  exact Nat.lt_succ_self _

theorem Made.parent_alive {h₀ : Heap} {type : KbnodeType} {symtab : Option Symtab}
    (hm : Made h h₀ parent type symtab) (hc : Callable h parent up) :
    ∀ p, parent.map Prod.fst = some p → p < h.next ∧ h₀.cells p ≠ none := by
  intro p hp
  have hlt := hc.ancestors.2 p hp
  refine ⟨hlt, ?_⟩
  cases hc with
  | root => simp at hp
  | child hat =>
    obtain rfl := Option.some.inj hp
    rw [hm.frame _ hlt, onParent_self, hat.alive]
    simp

theorem Made.atNode {h₀ : Heap} {type : KbnodeType} (hm : Made h h₀ parent type (some st))
    (hc : Callable h parent up) :
    AtNode h₀ h.next (.childless type (some st) (parent.map Prod.fst)) st up where
  alive := hm.own
  symtab := rfl
  older := hc.ancestors.2
  ancestors := by
    refine hc.ancestors.1.congr hc.ancestors.2 fun q hq qcell hqcell => ?_
    rw [hm.frame q hq]
    cases hc with
    | root => exact ⟨qcell, hqcell, rfl, rfl⟩
    | @child r cell st up childtype hat =>
      by_cases hqr : q = r
      · obtain ⟨hsymtab, hparent, -⟩ := attach_same qcell childtype h.next
        subst hqr
        exact ⟨_, by rw [onParent_self, hqcell, Option.map_some], hsymtab, hparent⟩
      · exact ⟨qcell, (if_neg hqr).trans hqcell, rfl, rfl⟩
  next := hm.next_lt
  lists := by simp [NodeCell.childless]

/-- The node with the children that were built. -/
theorem Made.grown {h₀ : Heap} {src : Kbnode} {k : Kids} (hm : Made h h₀ parent src.type (some st))
    (he : Extended h₀ h' h.next k
      ((NodeCell.childless src.type (some st) (parent.map Prod.fst)).extend k)) :
    Grown h h' parent (.node h.next src st k.jobs k.handlers) := by
  refine ⟨.node he.own he.rep, ?_, ?_, fun q hq => ?_⟩
  · rw [refs_node]
    intro q hq
    rcases List.mem_cons.mp hq with rfl | hq
    · exact ⟨le_rfl, hm.next_lt.trans_le he.next⟩
    · exact ⟨hm.next_lt.le.trans (he.fresh q hq).1, (he.fresh q hq).2⟩
  · rw [refs_node]
    exact he.root_nodup hm.next_lt
  · rw [he.frame q (hq.trans hm.next_lt) hq.ne, hm.frame q hq]
    rfl

/-- A tree that was built is deleted again with its root. -/
theorem Grown.dropped {t : Placed} (hc : Callable h parent up) (hg : Grown h h' parent t)
    (href : t.ref = h.next) :
    ∃ h'', nodeDel L h'.next h' h.next = .ok h'' ∧ Dropped L h h'' parent := by
  have hold : ∀ q < h.next, q ∉ t.refs := fun q hq hmem => absurd (hg.fresh q hmem).1 hq.not_ge
  have hparent : ∀ p, parent.map Prod.fst = some p → p ∉ t.refs ∧ h'.cells p ≠ none := by
    intro p hp
    have hlt := hc.ancestors.2 p hp
    refine ⟨hold p hlt, ?_⟩
    rw [hg.frame p hlt]
    cases hc with
    | root => simp at hp
    | child hat =>
      obtain rfl := Option.some.inj hp
      simp [hat.alive]
  obtain ⟨h'', hrun, hdel⟩ := deletes_of_length_le t
    (Lists.length_le_of_forall_lt hg.nodup fun q hq => (hg.fresh q hq).2) h' _ hg.rep hg.nodup hparent
  refine ⟨h'', href ▸ hrun, ?_, href ▸ hdel.gone, fun q hq => ?_⟩
  · rw [hdel.next, ← href]
    exact (hg.fresh _ t.ref_mem_refs).2
  · by_cases hp : parent.map Prod.fst = some q
    · cases hc with
      | root => simp at hp
      | @child r cell st up childtype hat =>
        obtain rfl := Option.some.inj hp
        have hcell := hg.frame r hq
        rw [onParent_self, hat.alive, Option.map_some] at hcell
        rw [hdel.detached r _ rfl hcell, onParent_self, hat.alive, href]
        rfl
    · rw [hdel.frame q (hold q hq) hp, hg.frame q hq, onParent_of_ne hp, onParent_of_ne hp]

/-- With a handler that is already gone the node cannot be deleted. -/
theorem Made.deletedTwice {h₀ : Heap} {src : Kbnode} {k : Kids} {d : Ref}
    (hm : Made h h₀ parent src.type (some st)) (hc : Callable h parent up)
    (hnew : h₀.next ≤ d ∧ d < h'.next) (hgone : h'.cells d = none)
    (hapart : d ∉ k.both.flatMap refs)
    (he : Extended h₀ h' h.next k ((((NodeCell.childless src.type (some st)
      (parent.map Prod.fst)).extend k).attach .handler d).detach L d)) :
    nodeDel L h'.next h' h.next = .error .undefined := by
  obtain ⟨hsame, hsub⟩ := NodeCell.detach_sublist (((NodeCell.childless src.type (some st)
    (parent.map Prod.fst)).extend k).attach .handler d) d
  obtain ⟨js, hjs, hjobs⟩ := List.sublist_map_iff.mp hsub
  have hsub' : (js ++ k.handlers).Sublist k.both := hjs.append_right k.handlers
  obtain ⟨fuel, hfuel⟩ : ∃ n, h'.next = n + 2 := by
    have hle : h.next + 1 < h'.next := hm.next ▸ hnew.1.trans_lt hnew.2
    exact Nat.exists_eq_add_of_le' ((Nat.succ_le_succ (Nat.le_add_left 1 _)).trans hle)
  have hd : Doomed L (fuel + 1) h' h.next (js ++ k.handlers) :=
    (he.doomed hm.next_lt hfuel.le).sublist hsub'
  have hlists : (js.map Placed.ref ++ (k.handlers.map Placed.ref ++ [d])).Nodup := by
    rw [← List.append_assoc, ← List.map_append]
    refine ((hsub'.map Placed.ref).append_right [d]).nodup ?_
    refine List.nodup_append.mpr ⟨he.nodup.sublist (map_ref_sublist _), by simp, ?_⟩
    rintro q hq q' hq' rfl
    rw [List.mem_singleton.mp hq'] at hq
    exact hapart ((map_ref_sublist _).subset hq)
  rw [hfuel]
  refine nodeDel_dangling he.own hjobs rfl (hjobs ▸ hlists) hd (fun p hp => ?_) hgone
    fun hmem => hapart ((hsub'.flatMap refs).subset hmem)
  obtain ⟨hlt, halive⟩ := hm.parent_alive hc p hp
  refine ⟨fun hmem => ?_, ?_⟩
  · rcases List.mem_cons.mp hmem with rfl | hmem
    · exact hlt.ne rfl
    · exact absurd (he.fresh p ((hsub'.flatMap refs).subset hmem)).1
        (hlt.trans hm.next_lt).not_ge
  · rw [he.frame p (hlt.trans hm.next_lt) hlt.ne]
    exact halive

/-- Every call makes its node and gives it its table. -/
theorem nodeInstantiateHeap_made (hc : Callable h parent up) (L : Libds) (all : List Kbnode)
    (fuel : ℕ) (src : Kbnode) :
    ∃ h₀, Made h h₀ parent src.type (kbsymtabCopy L src.symtab) ∧
      nodeInstantiateHeap L all (fuel + 1) h parent src =
        match kbsymtabCopy L src.symtab with
        | none => nodeDel L h₀.next h₀ h.next >>= fun h' => .ok (h', none, 1)
        | some _ => instantiateRefsHeap L all (parent.map Prod.fst)
            (fun h' childtype ref => nodeInstantiateHeap L all fuel h' (some (h.next, childtype)) ref)
            src h.next h₀ := by
  obtain ⟨h₁, hnew, hown, hnext, hframe⟩ := nodeNewHeap_spec (L := L) hc src.type
  obtain ⟨st, hst⟩ := nodeNewSymtab_empty (L := L)
  refine ⟨h₁.set h.next (.childless src.type (kbsymtabCopy L src.symtab) (parent.map Prod.fst)),
    ⟨Store.set_cells_self _ _ _, hnext, fun q hq => ?_⟩, ?_⟩
  · rw [Store.set_cells_of_ne _ _ hq.ne, hframe q hq]
  · simp only [nodeInstantiateHeap, hnew, ok_bind, Store.read_of_cells hown]
    rw [NodeCell.childless, hst]
    rfl

/-- The rest of a call, after its loop. -/
theorem LoopSpec.call {h₀ : Heap} {src : Kbnode} {byJobs byJobs' : Prop} {c : Children} {n : ℕ}
    {run : Except Fault (Heap × Bool × ℕ)} (hc : Callable h parent up)
    (hm : Made h h₀ parent src.type (some st))
    (hl : LoopSpec L h₀ h.next (.childless src.type (some st) (parent.map Prod.fst)) byJobs c run)
    (hby : byJobs' ↔ byJobs)
    (rest : Heap × Bool × ℕ → Except Fault (Heap × Option Ref × ℕ))
    (hdone : ∀ h' m, rest (h', true, m) = .ok (h', some h.next, n + m))
    (hstopped : ∀ h' m, rest (h', false, m) =
      (nodeDel L h'.next h' h.next >>= fun h'' => .ok (h'', none, n + m))) :
    CallSpec L h parent src byJobs'
      { tree := if c.ok then some (.node src.type st c.jobs c.handlers) else none,
        nerrors := n + c.nerrors } (run >>= rest) := by
  cases hl with
  | @done h' k ok erases ran extended =>
    refine .built (t := .node h.next src st k.jobs k.handlers) ?_ rfl ?_ (hm.grown extended)
    · rw [if_pos ok, erase_node, erases.jobs, erases.handlers]
    · rw [ran, ok_bind, hdone]
      rfl
  | @stopped h' k notOk jobs ran extended =>
    obtain ⟨h'', hdel, hdropped⟩ := (hm.grown extended).dropped hc rfl
    refine .dropped (by simp [notOk]) (hby.mpr jobs) ?_ hdropped
    rw [ran, ok_bind, hstopped, hdel, ok_bind]
  | dangling notOk notJobs ran new gone apart extended =>
    refine .undefined (by simp [notOk]) (mt hby.mp notJobs) ?_
    rw [ran, ok_bind, hstopped, hm.deletedTwice hc new gone apart extended, error_bind]
  | undefined notOk notJobs ran =>
    exact .undefined (by simp [notOk]) (mt hby.mp notJobs) (by rw [ran, error_bind])

/-- In memory a tree is built, dropped or lost as `nodeInstantiate` and the kinds of the calls that
fail have it. -/
theorem nodeInstantiateHeap_spec {fuel : ℕ} {src : Kbnode} {result : Instantiated}
    (hc : Callable h parent up) (hresult : nodeInstantiate L all fuel up src = some result) :
    CallSpec L h parent src (FailsByJobs L all up src) result
      (nodeInstantiateHeap L all fuel h parent src) := by
  induction fuel generalizing h parent up src result with
  | zero => simp [nodeInstantiate] at hresult
  | succ fuel ih =>
    obtain ⟨h₀, hm, hrun⟩ := nodeInstantiateHeap_made hc L all fuel src
    rw [hrun]
    cases nodeInstantiate_succ hresult with
    | noTable hcopy =>
      rw [hcopy] at hm
      refine .undefined rfl (fun hby => ?_) ?_
      · cases hby with
        | ancestor copy => simp [hcopy] at copy
        | job copy => simp [hcopy] at copy
      · have hdel : nodeDel L (h.next + 1) h₀ h.next = .error .undefined :=
          nodeDel_noSymtab hm.own rfl rfl rfl fun p hp =>
            ⟨(hm.parent_alive hc p hp).1.ne, (hm.parent_alive hc p hp).2⟩
        simp only [hcopy, hm.next, hdel, error_bind]
    | noChildren hcopy htable =>
      rw [hcopy] at hm
      simp only [hcopy, instantiateRefsHeap, htable]
      have hnone : Extended h₀ h₀ h.next ⟨[], []⟩
          ((NodeCell.childless src.type (some _) (parent.map Prod.fst)).extend ⟨[], []⟩) :=
        .none (fun _ _ _ => rfl) (by rw [NodeCell.extend_nil, hm.own]) le_rfl
      exact .built (by simp) rfl rfl (hm.grown hnone)
    | children hcopy htable hchildren =>
      rw [hcopy] at hm
      simp only [hcopy, instantiateRefsHeap, htable]
      have hloop := instantiateChildrenHeap_spec (hm.atNode hc)
        (fun _ _ hbuilt => nodeInstantiate_fails_iff hbuilt) (fun _ hby => hby.fails)
        (fun _ _ _ _ hcall hbuilt => ih hcall hbuilt) hchildren
      exact hloop.call hc hm (failsByJobs_iff hcopy htable) _ (fun _ _ => rfl) fun _ _ => rfl

/-- `kbnode_instantiate` in memory follows `kbnode_instantiate` on trees, from every heap. -/
theorem kbnodeInstantiateHeap_spec (L : Libds) (h : Heap) (src : Kbnode) (all : List Kbnode) :
    CallSpec L h none src (FailsByJobs L all [] src)
      (kbnodeInstantiate L src all) (kbnodeInstantiateHeap L h src all) :=
  nodeInstantiateHeap_spec .root (kbnodeInstantiate_eq L src all)

/-- What it returns lies in the heap. -/
theorem kbnodeInstantiateHeap_grown {src : Kbnode} {n : ℕ}
    (hrun : kbnodeInstantiateHeap L h src all = .ok (h', some r, n)) :
    ∃ t, kbnodeInstantiate L src all = { tree := some t.erase, nerrors := n } ∧ t.src = src ∧
      t.ref = r ∧ Grown h h' none t := by
  cases kbnodeInstantiateHeap_spec L h src all with
  | @built t h₁ tree copied ran grown =>
    obtain ⟨rfl, hrest⟩ := Prod.mk.inj (Except.ok.inj (hrun.symm.trans ran))
    obtain ⟨href, rfl⟩ := Prod.mk.inj hrest
    refine ⟨t, ?_, copied, (Option.some.inj href).symm, grown⟩
    rw [← tree]
  | dropped _ _ ran => simp [hrun] at ran
  | undefined _ _ ran => simp [hrun] at ran

end Kubeka
