import Kubeka.Heap.Simulation

/-!
# Which nodes are released

`node_del` releases what it comes to, each node once. What it does not come to
are the jobs that are passed over, with everything below them: every second job
of a node. So a whole tree is released exactly when no node has two jobs.
-/

namespace Kubeka

open Kubeka.Lists Placed

variable {L : Libds} {all : List Kbnode} {h h' : Heap} {r : Ref}

namespace Placed

mutual

/-- The references that `node_del` does not come to. -/
def leaked : Placed → List Ref
  | .node _ _ _ jobs handlers =>
    (passedOver jobs).flatMap refs ++ (leakedJobs jobs ++ leakedAll handlers)

def leakedJobs : List Placed → List Ref
  | [] => []
  | [t] => leaked t
  | t :: _ :: ts => leaked t ++ leakedJobs ts

def leakedAll : List Placed → List Ref
  | [] => []
  | t :: ts => leaked t ++ leakedAll ts

end

theorem leakedJobs_eq (ts : List Placed) : leakedJobs ts = (everyOther ts).flatMap leaked :=
  eq_flatMap_everyOther rfl (fun _ => rfl) (fun _ _ _ => rfl) ts

theorem leakedAll_eq (ts : List Placed) : leakedAll ts = ts.flatMap leaked :=
  eq_flatMap rfl (fun _ _ => rfl) ts

theorem leaked_node (r : Ref) (src : Kbnode) (st : Symtab) (js hs : List Placed) :
    (node r src st js hs).leaked =
      (passedOver js).flatMap refs ++ (everyOther js ++ hs).flatMap leaked := by
  rw [leaked, leakedJobs_eq, leakedAll_eq, List.flatMap_append]

/-- Every reference is either released or leaked. -/
theorem refs_perm (t : Placed) : t.refs.Perm (t.deleted ++ t.leaked) := by
  induction t using Placed.inductionOn with
  | node r src st js hs ih =>
    have hmet : ∀ c ∈ everyOther js ++ hs, c.refs.Perm (c.deleted ++ c.leaked) := fun c hc =>
      ih c (((everyOther_sublist js).append_right hs).subset hc)
    have hsplit : (js ++ hs).Perm (passedOver js ++ (everyOther js ++ hs)) := by
      rw [← List.append_assoc]
      exact (everyOther_perm js).append_right hs
    have hchildren : ((js ++ hs).flatMap refs).Perm ((passedOver js).flatMap refs ++
        ((everyOther js ++ hs).flatMap deleted ++ (everyOther js ++ hs).flatMap leaked)) := by
      refine (hsplit.flatMap_right refs).trans ?_
      rw [List.flatMap_append]
      exact ((List.Perm.flatMap_left _ hmet).trans
        (List.flatMap_append_perm _ _ _).symm).append_left _
    rw [refs_node, deleted_node, leaked_node]
    refine (hchildren.cons r).trans (List.perm_iff_count.mpr fun q => ?_)
    simp only [List.count_cons, List.count_append, List.count_nil]
    omega

theorem leaked_eq_nil_iff (parent : Option Ref) {t : Placed} :
    t.leaked = [] ↔ ∀ p n, Below parent t p n → n.jobs.length ≤ 1 := by
  induction t using Placed.inductionOn generalizing parent with
  | node r src st js hs ih =>
    have hpassed : (passedOver js).flatMap refs = [] ↔ js.length ≤ 1 := by
      rw [← passedOver_eq_nil_iff, List.flatMap_eq_nil_iff, List.eq_nil_iff_forall_not_mem]
      exact forall₂_congr fun c _ => by simp [c.refs_children]
    rw [forall_below_iff, leaked_node, List.append_eq_nil_iff, hpassed]
    refine and_congr_right fun hone => ?_
    rw [everyOther_of_length_le_one hone, List.flatMap_eq_nil_iff]
    exact forall₂_congr fun c hc => ih c hc (some r)

end Placed

/-! ### In memory -/

/-- Deleting the node releases it and what it points to, everything once. -/
def ReleasesOnce (L : Libds) (h : Heap) (r : Ref) : Prop :=
  ∃ h' released, kbnodeDel L h r = .ok h' ∧ h'.released = h.released ++ released ∧
    released.Nodup ∧ ∀ q, q ∈ released ↔ Descends h r q

/-- No node that is pointed to has two jobs. -/
def SingleJobs (h : Heap) (r : Ref) : Prop :=
  ∀ q cell, Descends h r q → h.cells q = some cell → cell.jobs.length ≤ 1

theorem singleJobs_iff {parent : Option Ref} {t : Placed} (hrep : Rep h parent t) :
    SingleJobs h t.ref ↔ t.leaked = [] := by
  rw [leaked_eq_nil_iff parent]
  constructor
  · intro hsingle p n hn
    have hle := hsingle n.ref _ ((descends_iff hrep).mpr ⟨p, n, hn, rfl⟩) (hn.rep hrep).cell
    simpa [NodeCell.of] using hle
  · intro hone q cell hq hcell
    obtain ⟨p, n, hn, rfl⟩ := (descends_iff hrep).mp hq
    obtain rfl := Option.some.inj (hcell.symm.trans (hn.rep hrep).cell)
    simpa [NodeCell.of] using hone p n hn

/-- A whole tree is deleted, up to what is leaked. -/
theorem Grown.deleted {t : Placed} (hg : Grown h h' none t) :
    ∃ h'', kbnodeDel L h' t.ref = .ok h'' ∧ h''.released = h'.released ++ t.deleted := by
  obtain ⟨h'', hrun, hdel⟩ := deletes_of_length_le t
    (length_le_of_forall_lt hg.nodup fun q hq => (hg.fresh q hq).2) h' none hg.rep hg.nodup
    (by simp)
  exact ⟨h'', hrun, hdel.released⟩

/-- A tree that was built is released node by node, each of them once, exactly where no node has two
jobs. -/
theorem kbnodeDel_releasesOnce_iff {src : Kbnode} {n : ℕ}
    (hrun : kbnodeInstantiateHeap L h src all = .ok (h', some r, n)) :
    ReleasesOnce L h' r ↔ SingleJobs h' r := by
  obtain ⟨t, -, -, rfl, hgrown⟩ := kbnodeInstantiateHeap_grown hrun
  obtain ⟨h'', hdel, hreleased⟩ := hgrown.deleted
  have hnodup : (t.deleted ++ t.leaked).Nodup := t.refs_perm.nodup_iff.mp hgrown.nodup
  have hall : ∀ q, Descends h' t.ref q ↔ q ∈ t.deleted ∨ q ∈ t.leaked := fun q => by
    rw [descends_iff hgrown.rep, ← mem_refs_iff, t.refs_perm.mem_iff, List.mem_append]
  rw [singleJobs_iff hgrown.rep]
  constructor
  · rintro ⟨h₁, released, hdel₁, hreleased₁, -, hmem⟩
    obtain rfl := Except.ok.inj (hdel.symm.trans hdel₁)
    obtain rfl := List.append_cancel_left (hreleased.symm.trans hreleased₁)
    refine List.eq_nil_iff_forall_not_mem.mpr fun q hq => ?_
    exact (List.nodup_append.mp hnodup).2.2 q ((hmem q).mpr ((hall q).mpr (.inr hq))) q hq rfl
  · intro hnone
    rw [hnone, List.append_nil] at hnodup
    exact ⟨h'', t.deleted, hdel, hreleased, hnodup, fun q => by rw [hall, hnone]; simp⟩

/-- The heap after the tree of the first node was built. -/
def builtHeap (all : List Kbnode) (hne : all ≠ []) : Heap :=
  match kbnodeInstantiateHeap .ordered .empty (all.head hne) all with
  | .ok (h, _) => h
  | .error _ => .empty

/-- The second job of the entrypoint is leaked, with its own job. -/
theorem sharedJob_not_releasesOnce :
    kbnodeInstantiateHeap .ordered .empty (sharedJob.head (by decide)) sharedJob =
        .ok (builtHeap sharedJob (by decide), some 0, 0) ∧
      ¬ ReleasesOnce .ordered (builtHeap sharedJob (by decide)) 0 := by
  refine ⟨rfl, ?_⟩
  rintro ⟨h', released, hdel, hreleased, -, hmem⟩
  obtain ⟨h₁, hdel₁, hreleased₁⟩ :
      ∃ h₁, kbnodeDel .ordered (builtHeap sharedJob (by decide)) 0 = .ok h₁ ∧
        h₁.released = [] ++ [2, 1, 0] := ⟨_, rfl, rfl⟩
  obtain rfl := Except.ok.inj (hdel₁.symm.trans hdel)
  obtain rfl := List.append_cancel_left (hreleased₁.symm.trans hreleased)
  have hjob : Descends (builtHeap sharedJob (by decide)) 0 3 :=
    .child .here rfl (List.mem_of_getElem? (i := 1) rfl)
  simpa using (hmem 3).mpr hjob

/-- An entrypoint with one job. -/
def onlyJob : List Kbnode :=
  let vars (id : String) : List (CStr × List CStr) := [(kbnodeKeyId, [id.toList]),
    (kbnodeKeyFname, ["f".toList]), (kbnodeKeyLine, ["1".toList])]
  [⟨.entrypoint, symtabOf (vars "ep" ++ [(kbnodeKeyJobs, ["a".toList])])⟩,
    ⟨.job, symtabOf (vars "a")⟩]

theorem onlyJob_releasesOnce : ReleasesOnce .ordered (builtHeap onlyJob (by decide)) 0 := by
  have hrun : kbnodeInstantiateHeap .ordered .empty (onlyJob.head (by decide)) onlyJob =
      .ok (builtHeap onlyJob (by decide), some 0, 0) := rfl
  refine (kbnodeDel_releasesOnce_iff hrun).mpr fun q cell _ hcell => ?_
  match q with
  | 0 =>
    obtain rfl := Option.some.inj hcell
    decide
  | 1 =>
    obtain rfl := Option.some.inj hcell
    decide
  | q + 2 =>
    have hnone : (builtHeap onlyJob (by decide)).cells (q + 2) = none := rfl
    simp [hnone] at hcell

end Kubeka
