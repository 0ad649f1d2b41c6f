import Kubeka.Heap.Layout

/-!
# Deleting a tree

A job that is deleted takes itself out of the list that its parent goes
through, so that the next one is passed over; a handler stays in its list. From
this it follows by induction over the tree which nodes `node_del` releases, and
that no other cell is changed but that of the parent.
-/

namespace Kubeka

open Kubeka.Lists Placed

/-! ### What is released -/

namespace Placed

mutual

/-- The references released by `node_del`, in order. -/
def deleted : Placed → List Ref
  | .node r _ _ jobs handlers => deletedJobs jobs ++ deletedAll handlers ++ [r]

def deletedJobs : List Placed → List Ref
  | [] => []
  | [t] => deleted t
  | t :: _ :: ts => deleted t ++ deletedJobs ts

def deletedAll : List Placed → List Ref
  | [] => []
  | t :: ts => deleted t ++ deletedAll ts

end

theorem deletedJobs_eq (ts : List Placed) : deletedJobs ts = (everyOther ts).flatMap deleted :=
  eq_flatMap_everyOther rfl (fun _ => rfl) (fun _ _ _ => rfl) ts

theorem deletedAll_eq (ts : List Placed) : deletedAll ts = ts.flatMap deleted :=
  eq_flatMap rfl (fun _ _ => rfl) ts

theorem deleted_node (r : Ref) (src : Kbnode) (st : Symtab) (js hs : List Placed) :
    (node r src st js hs).deleted = (everyOther js ++ hs).flatMap deleted ++ [r] := by
  rw [deleted, deletedJobs_eq, deletedAll_eq, List.flatMap_append]

end Placed

/-! ### Detaching -/

theorem Libds.arrayRm_eq (L : Libds) (ptrs : List ℕ) (i : ℕ) :
    L.arrayRm ptrs i = ptrs.eraseIdx i := by
  by_cases hi : i < ptrs.length
  · exact L.arrayRm_lt ptrs i hi
  · rw [L.arrayRm_past ptrs i (Nat.le_of_not_lt hi), List.eraseIdx_of_length_le (Nat.le_of_not_lt hi)]

variable {L : Libds}

theorem NodeCell.rmJob_eq (cell : NodeCell) (me : ℕ) :
    cell.rmJob L (some me) = { cell with jobs := cell.jobs.eraseIdx me } := by
  rw [NodeCell.rmJob, Libds.arrayRm_eq]

theorem NodeCell.rmJob_sublist (cell : NodeCell) (me : Option ℕ) :
    (cell.rmJob L me).jobs.Sublist cell.jobs := by
  cases me with
  | none => exact List.Sublist.refl _
  | some me =>
    rw [NodeCell.rmJob_eq]
    exact List.eraseIdx_sublist _ _

theorem NodeCell.rmJob_find (cell : NodeCell) (c : Ref) :
    cell.rmJob L (nodeFindJob cell c) = { cell with jobs := cell.jobs.erase c } := by
  rw [List.erase_eq_eraseIdx, nodeFindJob]
  cases List.idxOf? c cell.jobs with
  | none => rfl
  | some i => exact NodeCell.rmJob_eq cell i

/-- Whatever is detached, only the list of jobs gets shorter. -/
theorem NodeCell.detach_sublist (cell : NodeCell) (c : Ref) :
    cell.detach L c = { cell with jobs := (cell.detach L c).jobs } ∧
      (cell.detach L c).jobs.Sublist cell.jobs :=
  ⟨rfl, (NodeCell.rmJob_sublist _ _).trans (NodeCell.rmJob_sublist _ _)⟩

/-- A job is taken out of the jobs. -/
theorem NodeCell.detach_job {cell : NodeCell} (pre : List Ref) (c : Ref) (post : List Ref)
    (hpre : c ∉ pre) (hhandlers : c ∉ cell.handlers) (hjobs : cell.jobs = pre ++ c :: post) :
    cell.detach L c = { cell with jobs := pre ++ post } := by
  have hnone : nodeFindHandler { cell with jobs := pre ++ post } c = none :=
    List.idxOf?_eq_none_iff.mpr hhandlers
  rw [NodeCell.detach, NodeCell.rmJob_find, hjobs, List.erase_append_right _ hpre,
    List.erase_cons_head, hnone]
  rfl

/-- A handler stays where it is, and its index is used for the jobs. -/
theorem NodeCell.detach_handler {cell : NodeCell} (pre : List Ref) (c : Ref) (post : List Ref)
    (hpre : c ∉ pre) (hjobs : c ∉ cell.jobs) (hhandlers : cell.handlers = pre ++ c :: post) :
    cell.detach L c = { cell with jobs := cell.jobs.eraseIdx pre.length } := by
  have hfound : nodeFindHandler { cell with jobs := cell.jobs } c = some pre.length := by
    rw [nodeFindHandler, hhandlers, List.idxOf?_eq_some_iff]
    refine ⟨by simp, by simp, fun i hi => ?_⟩
    rw [List.getElem_append_left hi]
    exact fun heq => hpre (heq ▸ List.getElem_mem hi)
  rw [NodeCell.detach, NodeCell.rmJob_find, List.erase_of_not_mem hjobs, hfound,
    NodeCell.rmJob_eq]

theorem notMem_of_nodup_lists {cell : NodeCell} {pre post : List Ref} {c : Ref}
    (hlists : (cell.jobs ++ cell.handlers).Nodup) (hjobs : cell.jobs = pre ++ c :: post) :
    c ∉ pre ∧ c ∉ cell.handlers := by
  rw [hjobs, List.append_assoc, List.cons_append, List.nodup_middle, List.nodup_cons,
    List.mem_append, List.mem_append, not_or, not_or] at hlists
  exact ⟨hlists.1.1, hlists.1.2.2⟩

/-! ### The loops over the children -/

variable {fuel : ℕ} {h : Heap} {r : Ref} {cell : NodeCell}

/-- The heap after a tree was deleted. -/
structure Deleted (L : Libds) (h h' : Heap) (parent : Option Ref) (t : Placed) : Prop where
  released : h'.released = h.released ++ t.deleted
  next : h'.next = h.next
  frame : ∀ q, q ∉ t.refs → parent ≠ some q → h'.cells q = h.cells q
  detached : ∀ p cell, parent = some p → h.cells p = some cell →
    h'.cells p = some (cell.detach L t.ref)
  gone : h'.cells t.ref = none

/-- A tree that lies in a heap is deleted. -/
def Deletes (L : Libds) (fuel : ℕ) (t : Placed) : Prop :=
  ∀ (h : Heap) (parent : Option Ref), Rep h parent t → t.refs.Nodup →
    (∀ p, parent = some p → p ∉ t.refs ∧ h.cells p ≠ none) →
    ∃ h', nodeDel L fuel h t.ref = .ok h' ∧ Deleted L h h' parent t

/-- Children to be deleted from the node at `r`. -/
structure Doomed (L : Libds) (fuel : ℕ) (h : Heap) (r : Ref) (ts : List Placed) : Prop where
  deletes : ∀ c ∈ ts, Deletes L fuel c
  rep : ∀ c ∈ ts, Rep h (some r) c
  nodup : (r :: ts.flatMap refs).Nodup

theorem Doomed.sublist {ts us : List Placed} (hd : Doomed L fuel h r us) (hsub : ts.Sublist us) :
    Doomed L fuel h r ts where
  deletes c hc := hd.deletes c (hsub.subset hc)
  rep c hc := hd.rep c (hsub.subset hc)
  nodup := hd.nodup.sublist ((hsub.flatMap refs).cons_cons r)

theorem Doomed.congr {h' : Heap} {ts : List Placed} (hd : Doomed L fuel h r ts)
    (hcells : ∀ q ∈ ts.flatMap refs, h'.cells q = h.cells q) : Doomed L fuel h' r ts where
  deletes := hd.deletes
  rep c hc := (hd.rep c hc).congr fun q hq => hcells q (Placed.mem_flatMap_refs hc hq)
  nodup := hd.nodup

/-- From `h` to `h'` the children `ts` of the node at `r` are gone through: no other cell is changed
but that of the node. -/
structure Swept (h h' : Heap) (r : Ref) (ts : List Placed) (gone : List Ref) : Prop where
  released : h'.released = h.released ++ gone
  next : h'.next = h.next
  frame : ∀ q, q ∉ ts.flatMap refs → q ≠ r → h'.cells q = h.cells q

theorem Swept.nil (h : Heap) (r : Ref) : Swept h h r [] [] where
  released := (List.append_nil _).symm
  next := rfl
  frame _ _ _ := rfl

theorem Swept.append {h₁ h₂ : Heap} {ts us : List Placed} {gone gone' : List Ref}
    (h₁₁ : Swept h h₁ r ts gone) (h₁₂ : Swept h₁ h₂ r us gone') :
    Swept h h₂ r (ts ++ us) (gone ++ gone') where
  released := by rw [h₁₂.released, h₁₁.released, List.append_assoc]
  next := h₁₂.next.trans h₁₁.next
  frame q hq hqr := by
    rw [List.flatMap_append, List.mem_append, not_or] at hq
    rw [h₁₂.frame q hq.2 hqr, h₁₁.frame q hq.1 hqr]

/-- The children may be more than those that are deleted. -/
theorem Swept.mono {h' : Heap} {ts us : List Placed} {gone : List Ref} (hs : Swept h h' r ts gone)
    (hsub : ts.Sublist us) : Swept h h' r us gone where
  released := hs.released
  next := hs.next
  frame q hq hqr := hs.frame q (mt (fun hmem => (hsub.flatMap refs).subset hmem) hq) hqr

/-- The children that are not reached yet are left. -/
theorem Swept.doomed {h' : Heap} {ts us : List Placed} {gone : List Ref}
    (hs : Swept h h' r ts gone) (hd : Doomed L fuel h r (ts ++ us)) : Doomed L fuel h' r us := by
  have hnodup := hd.nodup
  rw [List.flatMap_append, List.nodup_cons, List.nodup_append, List.mem_append, not_or] at hnodup
  obtain ⟨⟨-, hrus⟩, -, -, hdisj⟩ := hnodup
  refine (hd.sublist (List.sublist_append_right ts us)).congr fun q hq => ?_
  exact hs.frame q (fun hqt => hdisj q hqt q hq rfl) fun heq => hrus (heq ▸ hq)

/-- One child is deleted. -/
theorem Doomed.delete_head {c : Placed} {ts : List Placed} (hd : Doomed L fuel h r (c :: ts))
    (hcell : h.cells r = some cell) :
    ∃ h', nodeDel L fuel h c.ref = .ok h' ∧ h'.cells r = some (cell.detach L c.ref) ∧
      Swept h h' r [c] c.deleted := by
  have hnodup := hd.nodup
  rw [List.flatMap_cons, List.nodup_cons, List.nodup_append, List.mem_append, not_or] at hnodup
  obtain ⟨⟨hrc, -⟩, hcnodup, -⟩ := hnodup
  obtain ⟨h', hrun, hdel⟩ := hd.deletes c List.mem_cons_self h (some r)
    (hd.rep c List.mem_cons_self) hcnodup (by rintro p ⟨⟩; exact ⟨hrc, by simp [hcell]⟩)
  refine ⟨h', hrun, hdel.detached r cell rfl hcell, hdel.released, hdel.next, fun q hq hqr => ?_⟩
  exact hdel.frame q (by simpa using hq) fun heq => hqr (Option.some.inj heq).symm

/-- The loop over the jobs, from the position after `pre` on. -/
theorem visit_jobs (steps : ℕ) (ts : List Placed) (pre : List Ref) (hd : Doomed L fuel h r ts)
    (hcell : h.cells r = some cell) (hjobs : cell.jobs = pre ++ ts.map Placed.ref)
    (hlists : (cell.jobs ++ cell.handlers).Nodup) (hsteps : ts.length ≤ steps) :
    ∃ h', Store.visit NodeCell.jobs (nodeDel L fuel) r steps pre.length h = .ok h' ∧
      h'.cells r = some { cell with jobs := pre ++ (passedOver ts).map Placed.ref } ∧
      Swept h h' r ts ((everyOther ts).flatMap deleted) := by
  induction ts using everyOther.induct generalizing pre steps h cell with
  | case1 =>
    refine ⟨h, Store.visit_done hcell (by simp [hjobs]), ?_, .nil h r⟩
    rw [hcell, passedOver, ← hjobs]
  | case2 c =>
    obtain ⟨h', hrun, hcell', hswept⟩ := hd.delete_head hcell
    obtain ⟨hpre, hhandlers⟩ := notMem_of_nodup_lists hlists hjobs
    rw [NodeCell.detach_job pre c.ref [] hpre hhandlers hjobs] at hcell'
    obtain ⟨steps, rfl⟩ : ∃ k, steps = k + 1 := Nat.exists_eq_add_of_le' hsteps
    refine ⟨h', ?_, hcell', by simpa [everyOther] using hswept⟩
    rw [Store.visit_step hcell (by simp [hjobs]) hrun, Store.visit_done hcell' (by simp)]
  | case3 c d ts ih =>
    obtain ⟨h₁, hrun, hcell₁, hswept₁⟩ := hd.delete_head hcell
    obtain ⟨hpre, hhandlers⟩ := notMem_of_nodup_lists hlists hjobs
    rw [NodeCell.detach_job pre c.ref ((d :: ts).map Placed.ref) hpre hhandlers hjobs] at hcell₁
    obtain ⟨steps, rfl⟩ : ∃ k, steps = k + 1 :=
      Nat.exists_eq_add_of_le' ((Nat.le_add_left 1 _).trans hsteps)
    have hlists₁ : (pre ++ (d :: ts).map Placed.ref ++ cell.handlers).Nodup := by
      refine hlists.sublist (List.Sublist.append_right ?_ _)
      rw [hjobs]
      exact (List.sublist_cons_self _ _).append_left pre
    have hd₁ : Doomed L fuel h₁ r ts := (hswept₁.doomed hd).sublist (List.sublist_cons_self d ts)
    -- `d` moves to the position of `c` and is passed over
    obtain ⟨h₂, hrun₂, hcell₂, hswept₂⟩ := ih steps (pre ++ [d.ref]) hd₁ hcell₁ (by simp) hlists₁
      (by simp only [List.length_cons] at hsteps; omega)
    refine ⟨h₂, ?_, by simpa [passedOver] using hcell₂, ?_⟩
    · rw [Store.visit_step hcell (by simp [hjobs]) hrun]
      simpa using hrun₂
    · rw [everyOther, List.flatMap_cons]
      exact (hswept₁.append hswept₂).mono ((List.sublist_cons_self d ts).cons_cons c)

/-- The loop over the handlers comes past those that are placed. -/
theorem visit_handlers (steps : ℕ) (ts : List Placed) (pre tail : List Ref) (hd : Doomed L fuel h r ts)
    (hcell : h.cells r = some cell) (hhandlers : cell.handlers = pre ++ ts.map Placed.ref ++ tail) :
    ∃ h' jobs, Store.visit NodeCell.handlers (nodeDel L fuel) r (ts.length + steps) pre.length h =
        Store.visit NodeCell.handlers (nodeDel L fuel) r steps (pre.length + ts.length) h' ∧
      h'.cells r = some { cell with jobs := jobs } ∧ Swept h h' r ts (ts.flatMap deleted) := by
  induction ts generalizing pre h cell with
  | nil => exact ⟨h, cell.jobs, by simp, hcell, .nil h r⟩
  | cons c ts ih =>
    obtain ⟨h₁, hrun, hcell₁, hswept₁⟩ := hd.delete_head hcell
    rw [(NodeCell.detach_sublist cell c.ref).1] at hcell₁
    obtain ⟨h₂, jobs, hrun₂, hcell₂, hswept₂⟩ := ih (pre ++ [c.ref]) (hswept₁.doomed hd) hcell₁
      (by simp [hhandlers])
    refine ⟨h₂, jobs, ?_, hcell₂, hswept₁.append hswept₂⟩
    have hsteps : (c :: ts).length + steps = ts.length + steps + 1 := by
      simp only [List.length_cons]
      omega
    rw [hsteps, Store.visit_step hcell (by simp [hhandlers]) hrun]
    simpa [Nat.add_assoc, Nat.add_comm 1] using hrun₂

/-! ### A whole node -/

theorem detachFromParent_spec (h : Heap) (r : Ref) {parent : Option Ref}
    (hparent : ∀ p, parent = some p → h.cells p ≠ none) :
    ∃ h', detachFromParent L h r parent = .ok h' ∧ h'.released = h.released ∧ h'.next = h.next ∧
      (∀ q, parent ≠ some q → h'.cells q = h.cells q) ∧
      ∀ p cell, parent = some p → h.cells p = some cell → h'.cells p = some (cell.detach L r) := by
  cases parent with
  | none => exact ⟨h, rfl, rfl, rfl, fun _ _ => rfl, by simp⟩
  | some p =>
    obtain ⟨cell, hcell⟩ := Option.ne_none_iff_exists'.mp (hparent p rfl)
    refine ⟨h.set p (cell.detach L r), ?_, rfl, rfl, fun q hq => ?_, ?_⟩
    · rw [detachFromParent, Store.read_of_cells hcell, ok_bind]
    · exact Store.set_cells_of_ne _ _ fun heq => hq (congrArg some heq.symm)
    · intro p' cell' hp hcell'
      obtain rfl := Option.some.inj hp
      obtain rfl := Option.some.inj (hcell.symm.trans hcell')
      exact Store.set_cells_self _ _ _

/-- Up to the handlers in `tail`, which are not placed, `node_del` deletes the children. -/
theorem nodeDel_children (js hs : List Placed) (tail : List Ref) (hcell : h.cells r = some cell)
    (hjobs : cell.jobs = js.map Placed.ref) (hhandlers : cell.handlers = hs.map Placed.ref ++ tail)
    (hlists : (cell.jobs ++ cell.handlers).Nodup) (hd : Doomed L fuel h r (js ++ hs))
    (hparent : ∀ p, cell.parent = some p →
      p ∉ r :: (js ++ hs).flatMap refs ∧ h.cells p ≠ none) :
    ∃ h' jobs, nodeDel L (fuel + 1) h r = (do
        let h ← Store.visit NodeCell.handlers (nodeDel L fuel) r tail.length hs.length h'
        let node ← h.read r
        kbsymtabDel node.symtab
        .ok (h.release r)) ∧
      h'.cells r = some { cell with jobs := jobs } ∧
      h'.released = h.released ++ (everyOther js ++ hs).flatMap deleted ∧ h'.next = h.next ∧
      (∀ q, q ∉ r :: (js ++ hs).flatMap refs → cell.parent ≠ some q → h'.cells q = h.cells q) ∧
      ∀ p pcell, cell.parent = some p → h.cells p = some pcell →
        h'.cells p = some (pcell.detach L r) := by
  obtain ⟨h₁, hrun₁, hreleased₁, hnext₁, hframe₁, hdetach₁⟩ :=
    detachFromParent_spec h r fun p hp => (hparent p hp).2
  have hkept : ∀ q ∈ r :: (js ++ hs).flatMap refs, h₁.cells q = h.cells q := fun q hq =>
    hframe₁ q fun hp => (hparent q hp).1 hq
  have hcell₁ : h₁.cells r = some cell := (hkept r List.mem_cons_self).trans hcell
  have hd₁ : Doomed L fuel h₁ r (js ++ hs) := hd.congr fun q hq => hkept q (List.mem_cons_of_mem _ hq)
  obtain ⟨h₂, hrun₂, hcell₂, hswept₂⟩ := visit_jobs cell.jobs.length js []
    (hd₁.sublist (List.sublist_append_left js hs)) hcell₁ (by simp [hjobs]) hlists (by simp [hjobs])
  obtain ⟨h₃, jobs, hrun₃, hcell₃, hswept₃⟩ :=
    visit_handlers tail.length hs [] tail (hswept₂.doomed hd₁) hcell₂ (by simpa using hhandlers)
  have hswept := hswept₂.append hswept₃
  have hkeep : ∀ q, q ∉ r :: (js ++ hs).flatMap refs → h₃.cells q = h₁.cells q := fun q hq =>
    hswept.frame q (mt (List.mem_cons_of_mem r) hq) (List.ne_of_not_mem_cons hq)
  refine ⟨h₃, jobs, ?_, hcell₃, ?_, hswept.next.trans hnext₁, fun q hq hp => ?_,
    fun p pcell hp hpcell => ?_⟩
  · have hlen : cell.handlers.length = hs.length + tail.length := by simp [hhandlers]
    simp only [List.length_nil, Nat.zero_add] at hrun₂ hrun₃
    rw [nodeDel, Store.read_of_cells hcell, ok_bind, hrun₁, ok_bind, hrun₂, ok_bind, hlen, hrun₃]
  · rw [hswept.released, hreleased₁, List.flatMap_append]
  · rw [hkeep q hq, hframe₁ q hp]
  · rw [hkeep p (hparent p hp).1, hdetach₁ p pcell hp hpcell]

/-- Every tree is deleted, with as much fuel as it has nodes. -/
theorem deletes_of_length_le (t : Placed) (hfuel : t.refs.length ≤ fuel) : Deletes L fuel t := by
  induction t using Placed.inductionOn generalizing fuel with
  | node r src st js hs ih =>
    intro h parent hrep hnodup hparent
    rw [refs_node] at hfuel hnodup hparent
    obtain ⟨fuel, rfl⟩ : ∃ k, fuel = k + 1 :=
      Nat.exists_eq_add_of_le' ((Nat.le_add_left 1 _).trans hfuel)
    have hd : Doomed L fuel h r (js ++ hs) :=
      ⟨fun c hc => ih c hc ((refs_length_le hc).trans (Nat.le_of_succ_le_succ hfuel)),
        fun c hc => hrep.child hc, hnodup⟩
    have hlists : ((js ++ hs).map Placed.ref).Nodup :=
      (List.nodup_cons.mp hnodup).2.sublist (map_ref_sublist _)
    rw [List.map_append] at hlists
    have hcell₀ : h.cells r = some (.of src st parent js hs) := hrep.cell
    obtain ⟨h', jobs, hrun, hcell, hreleased, hnext, hframe, hdetached⟩ :=
      nodeDel_children js hs [] hcell₀ rfl (List.append_nil _).symm hlists hd hparent
    refine ⟨h'.release r, ?_, ?_, hnext, fun q hq hp => ?_, fun p pcell hp hpcell => ?_,
      Store.release_cells_self _ _⟩
    · show nodeDel L (fuel + 1) h r = _
      rw [hrun, Store.visit_done hcell (by simp [NodeCell.of]), ok_bind,
        Store.read_of_cells hcell, ok_bind]
      rfl
    · rw [Store.release_released, hreleased, deleted_node, List.append_assoc]
    · rw [refs_node] at hq
      rw [Store.release_cells_of_ne _ (List.ne_of_not_mem_cons hq), hframe q hq hp]
    · have hne : p ≠ r := List.ne_of_not_mem_cons (hparent p hp).1
      exact (Store.release_cells_of_ne _ hne).trans (hdetached p pcell hp hpcell)

/-- A handler whose cell is gone is deleted once more. -/
theorem nodeDel_dangling {js hs : List Placed} {d : Ref} (hcell : h.cells r = some cell)
    (hjobs : cell.jobs = js.map Placed.ref) (hhandlers : cell.handlers = hs.map Placed.ref ++ [d])
    (hlists : (cell.jobs ++ cell.handlers).Nodup) (hd : Doomed L (fuel + 1) h r (js ++ hs))
    (hparent : ∀ p, cell.parent = some p →
      p ∉ r :: (js ++ hs).flatMap refs ∧ h.cells p ≠ none)
    (hgone : h.cells d = none) (hdr : d ∉ (js ++ hs).flatMap refs) :
    nodeDel L (fuel + 2) h r = .error .undefined := by
  obtain ⟨h', jobs, hrun, hcell', -, -, hframe, -⟩ :=
    nodeDel_children js hs [d] hcell hjobs hhandlers hlists hd hparent
  have hne : d ≠ r := by
    rintro rfl
    simp [hcell] at hgone
  have hgone' : h'.cells d = none := by
    rw [hframe d (List.not_mem_cons_of_ne_of_not_mem hne hdr) fun hp => (hparent d hp).2 hgone, hgone]
  have hagain : nodeDel L (fuel + 1) h' d = .error .undefined := by
    rw [nodeDel, Store.read_of_none hgone', error_bind]
  rw [hrun, List.length_singleton, Store.visit_fault hcell' (by simp [hhandlers]) hagain,
    error_bind]

/-- Without a symbol table the deletion ends with a look into it. -/
theorem nodeDel_noSymtab (hcell : h.cells r = some cell) (hjobs : cell.jobs = [])
    (hhandlers : cell.handlers = []) (hsymtab : cell.symtab = none)
    (hparent : ∀ p, cell.parent = some p → p ≠ r ∧ h.cells p ≠ none) :
    nodeDel L (fuel + 1) h r = .error .undefined := by
  have hd : Doomed L fuel h r ([] ++ []) := ⟨by simp, by simp, by simp⟩
  obtain ⟨h', jobs, hrun, hcell', -⟩ := nodeDel_children [] [] [] hcell hjobs hhandlers
    (by simp [hjobs, hhandlers]) hd (by simpa using hparent)
  rw [hrun, Store.visit_done hcell' (by simp [hhandlers]), ok_bind, Store.read_of_cells hcell',
    ok_bind, hsymtab]
  rfl

end Kubeka
