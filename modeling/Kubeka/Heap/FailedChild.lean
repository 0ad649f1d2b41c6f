import Kubeka.Heap.Simulation

/-!
# A child that cannot be built

When `node_instantiate` fails for a child, the child is taken out of its parent
again by `node_del`. For a job this works. For a handler the index found among
the handlers is used for the jobs: the handler stays in its list after it was
freed, and a job that stands at the same place is lost. And where a table
cannot be copied, or a handler below has failed, the deletion itself is
undefined.
-/

namespace Kubeka

variable {L : Libds} {all : List Kbnode} {h h' : Heap} {p : Ref} {cell : NodeCell} {st : Symtab}
  {up : List Symtab}

/-- The call returns, and where it returns NULL the parent has the same lists as before. -/
def KeepsLists (p : Ref) (cell : NodeCell) (run : Except Fault (Heap × Option Ref × ℕ)) : Prop :=
  ∃ h' made n, run = .ok (h', made, n) ∧ (made = none →
    ∃ cell', h'.cells p = some cell' ∧ cell'.jobs = cell.jobs ∧ cell'.handlers = cell.handlers)

/-- A handler that was attached last stays, and a job is taken out instead. -/
theorem attach_handler_detach {q : Ref} (hq : q ∉ cell.jobs ++ cell.handlers) :
    (cell.attach .handler q).detach L q = { cell with
      jobs := cell.jobs.eraseIdx cell.handlers.length, handlers := cell.handlers ++ [q] } := by
  rw [List.mem_append, not_or] at hq
  exact NodeCell.detach_handler cell.handlers q [] hq.2 hq.1 rfl

/-- After a call for a child has failed and returned, a job is gone from its parent and a handler is
not. -/
theorem Dropped.keepsLists_iff {childtype : Childtype} (hat : AtNode h p cell st up)
    (hd : Dropped L h h' (some (p, childtype))) (n : ℕ) :
    KeepsLists p cell (.ok (h', none, n)) ↔ childtype = .job := by
  have hfresh : h.next ∉ cell.jobs ++ cell.handlers := fun hmem => (hat.lists _ hmem).ne rfl
  have hcell := hat.dropped hd
  cases childtype with
  | job =>
    rw [attach_job_detach hfresh] at hcell
    exact iff_of_true ⟨h', none, n, rfl, fun _ => ⟨cell, hcell, rfl, rfl⟩⟩ rfl
  | handler =>
    rw [attach_handler_detach hfresh] at hcell
    refine iff_of_false ?_ (by simp)
    rintro ⟨h₁, made, m, hrun, hkept⟩
    obtain ⟨rfl, hmade⟩ := Prod.mk.inj (Except.ok.inj hrun)
    obtain ⟨cell', hcell', -, hhandlers⟩ := hkept (Prod.mk.inj hmade).1.symm
    obtain rfl := Option.some.inj (hcell.symm.trans hcell')
    simp at hhandlers

/-- The lists of a parent survive the failure of a child exactly where the child is a job and fails
by jobs alone. -/
theorem nodeInstantiateHeap_keepsLists_iff (L : Libds) (all : List Kbnode) (childtype : Childtype)
    (src : Kbnode) (hat : AtNode h p cell st up) :
    KeepsLists p cell
        (nodeInstantiateHeap L all (instantiateFuel all) h (some (p, childtype)) src) ↔
      (Fails L all (st :: up) src → childtype = .job ∧ FailsByJobs L all (st :: up) src) := by
  obtain ⟨result, hresult⟩ :=
    Option.isSome_iff_exists.mp (nodeInstantiate_isSome_below L all (st :: up) src)
  have hfails := nodeInstantiate_fails_iff hresult
  have hcall : Callable h (some (p, childtype)) (st :: up) := .child hat
  cases nodeInstantiateHeap_spec hcall hresult with
  | @built t h' tree _ ran _ =>
    refine iff_of_true ⟨h', some t.ref, _, ran, by simp⟩ fun hfail => ?_
    simp [tree] at hfails
    exact absurd hfail hfails
  | dropped tree jobs ran dropped =>
    rw [ran, dropped.keepsLists_iff hat]
    exact ⟨fun hjob _ => ⟨hjob, jobs⟩, fun hkeep => (hkeep (hfails.mp tree)).1⟩
  | undefined tree notJobs ran =>
    refine iff_of_false ?_ fun hkeep => notJobs (hkeep (hfails.mp tree)).2
    rintro ⟨h', made, n, hrun, -⟩
    simp [ran] at hrun

/-- A handler that has the entrypoint among its jobs. -/
def cyclicHandler : List Kbnode :=
  let vars (id : String) : List (CStr × List CStr) := [(kbnodeKeyId, [id.toList]),
    (kbnodeKeyFname, ["f".toList]), (kbnodeKeyLine, ["1".toList])]
  [⟨.entrypoint, symtabOf (vars "ep" ++ [(kbnodeKeyJobs, ["a".toList]),
      (kbnodeKeyEmits, ["s".toList])])⟩,
    ⟨.job, symtabOf (vars "a")⟩,
    ⟨.job, symtabOf (vars "b" ++ [(kbnodeKeyHandles, ["s".toList]),
      (kbnodeKeyJobs, ["ep".toList])])⟩]

/-- The copy of the entrypoint when its job is built. -/
def epCell : NodeCell :=
  .of cyclicHandler[0] cyclicHandler[0].symtab none
    [.node 1 cyclicHandler[1] cyclicHandler[1].symtab [] []] []

def epHeap : Heap :=
  ((Store.empty.alloc epCell).1.alloc
    (.of cyclicHandler[1] cyclicHandler[1].symtab (some 0) [] [])).1

theorem epHeap_atNode : AtNode epHeap 0 epCell cyclicHandler[0].symtab [] where
  alive := rfl
  symtab := rfl
  older := by rintro q ⟨⟩
  ancestors := .root
  next := by decide
  lists := by decide

/-- The handler fails, the entrypoint keeps it and loses its job. -/
theorem cyclicHandler_takes_job : ∃ h' cell', nodeInstantiateHeap .ordered cyclicHandler
      (instantiateFuel cyclicHandler) epHeap (some (0, .handler)) cyclicHandler[2] =
        .ok (h', none, 1) ∧
    epCell.jobs = [1] ∧ epCell.handlers = [] ∧
    h'.cells 0 = some cell' ∧ cell'.jobs = [] ∧ cell'.handlers = [2] ∧ h'.cells 2 = none :=
  ⟨_, _, rfl, rfl, rfl, rfl, rfl, rfl, rfl⟩

theorem cyclicHandler_not_keepsLists : AtNode epHeap 0 epCell cyclicHandler[0].symtab [] ∧
    ¬ KeepsLists 0 epCell (nodeInstantiateHeap .ordered cyclicHandler
      (instantiateFuel cyclicHandler) epHeap (some (0, .handler)) cyclicHandler[2]) := by
  refine ⟨epHeap_atNode, ?_⟩
  rintro ⟨h', made, n, hrun, hkept⟩
  obtain ⟨h₁, cell₁, hrun₁, hjobs, -, hcell₁, hnone, -⟩ := cyclicHandler_takes_job
  obtain ⟨rfl, hmade⟩ := Prod.mk.inj (Except.ok.inj (hrun₁.symm.trans hrun))
  obtain ⟨cell', hcell', hsame, -⟩ := hkept (Prod.mk.inj hmade).1.symm
  obtain rfl := Option.some.inj (hcell₁.symm.trans hcell')
  simp [hnone, hjobs] at hsame

/-- As a job the same node is taken out again. -/
theorem cyclicJob_keepsLists : KeepsLists 0 epCell (nodeInstantiateHeap .ordered cyclicHandler
    (instantiateFuel cyclicHandler) epHeap (some (0, .job)) cyclicHandler[2]) := by
  have htable : nodeFindDependentJobs cyclicHandler[2].symtab cyclicHandler =
      (some ([] ++ ⟨.job, "ep".toList⟩ :: []), 0) := rfl
  exact (nodeInstantiateHeap_keepsLists_iff .ordered cyclicHandler .job cyclicHandler[2]
    epHeap_atNode).mpr fun _ => ⟨rfl, .ancestor rfl htable (by simp) rfl (by decide)⟩

/-- Deleting the entrypoint then comes to the handler once more. -/
example : kbnodeInstantiateHeap .ordered .empty cyclicHandler[0] cyclicHandler =
    .error .undefined := rfl

end Kubeka
