import Kubeka.Library.Lists
import Kubeka.Library.Table
import Kubeka.Config.References

/-!
# The table of children in memory

`node_find_dependent_jobs` allocates a slot for each name in JOBS and for each
signal in EMITS, and stores the handlers of all signals. The table holds them
exactly as long as no signal fans out; then what `node_instantiate` scans are
the children of `nodeFindDependentJobs`.
-/

namespace Kubeka

variable {all : List Kbnode} {st : Symtab}

/-- The table allocated, if it comes to that, with what was stored in it; `kept` when it is returned
and not freed. -/
structure DependentJobs where
  mem : Option (ZeroTable Djob)
  kept : Bool
  nerrors : ℕ

/-- `node_find_dependent_jobs` with its table: `calloc` counts the jobs and the signals. -/
def nodeFindDependentJobsTable (st : Symtab) (all : List Kbnode) : DependentJobs :=
  match kbnodeGetSrcdef st with
  | none => { mem := none, kept := false, nerrors := 1 }
  | some _ =>
    let jobs := kbnodeGetvalueAll st kbnodeKeyJobs
    let signals := kbnodeGetvalueAll st kbnodeKeyEmits
    let ret := (ZeroTable.new (signals.length + jobs.length + 1)).storeAll (jobs.map (Djob.mk .job))
    match signalHandlers all signals with
    | none => { mem := some ret, kept := false, nerrors := 1 }
    | some handlers =>
      { mem := some (ret.storeAll
          (handlers.map fun h => Djob.mk .handler (kbnodeGetvalueFirst h.symtab kbnodeKeyId)))
        kept := true, nerrors := 0 }

/-- The children that `node_instantiate` reads in the returned table. -/
def DependentJobs.scan (r : DependentJobs) : Option (List Djob) :=
  if r.kept then r.mem.bind fun table => ZeroTable.scan table.slots else none

/-! ### Entries and slots -/

/-- One handler is stored for each pair of a signal and a node that handles it. -/
theorem signalHandlers_length {signals : List CStr} {handlers : List Kbnode}
    (h : signalHandlers all signals = some handlers) :
    handlers.length = (signals.map fun s => (kbnodeFilterHandlers all [s]).length).sum := by
  induction signals generalizing handlers with
  | nil =>
    obtain rfl : [] = handlers := by simpa [signalHandlers] using h
    rfl
  | cons s signals ih =>
    obtain ⟨-, rest, hrest, rfl⟩ := signalHandlers_cons_eq_some h
    rw [List.length_append, ih hrest, List.map_cons, List.sum_cons]

theorem kbnodeFilterHandlers_pos {s : CStr} :
    1 ≤ (kbnodeFilterHandlers all [s]).length ↔
      ∃ m ∈ all, s ∈ kbnodeGetvalueAll m.symtab kbnodeKeyHandles := by
  rw [Nat.one_le_iff_ne_zero, Nat.ne_zero_iff_zero_lt, List.length_pos_iff_exists_mem]
  simp only [mem_kbnodeFilterHandlers]

theorem storeAll_new_terminated_iff {k : ℕ} {djobs : List Djob} :
    ((ZeroTable.new (k + 1)).storeAll djobs).Terminated ↔ djobs.length ≤ k := by
  rw [ZeroTable.storeAll_terminated_iff (Nat.succ_pos k)]
  omega

/-- The table of a node has room for all its children and a zero entry behind them. -/
def TableSuffices (all : List Kbnode) (st : Symtab) : Prop :=
  ∀ table, (nodeFindDependentJobsTable st all).mem = some table → table.Terminated

/-- That is so when the children are not looked for to the end, or every signal has one handler. -/
theorem tableSuffices_iff : TableSuffices all st ↔
    kbnodeGetSrcdef st = none ∨
      (∃ s ∈ kbnodeGetvalueAll st kbnodeKeyEmits,
        ∀ m ∈ all, s ∉ kbnodeGetvalueAll m.symtab kbnodeKeyHandles) ∨
      ∀ s ∈ kbnodeGetvalueAll st kbnodeKeyEmits, (kbnodeFilterHandlers all [s]).length = 1 := by
  rw [TableSuffices]
  cases hsrc : kbnodeGetSrcdef st with
  | none => simp [nodeFindDependentJobsTable, hsrc]
  | some srcdef =>
    simp only [reduceCtorEq, false_or]
    cases hsig : signalHandlers all (kbnodeGetvalueAll st kbnodeKeyEmits) with
    | none =>
      simp only [nodeFindDependentJobsTable, hsrc, hsig, Option.some.injEq, forall_eq']
      refine iff_of_true (storeAll_new_terminated_iff.mpr ?_) (.inl (signalHandlers_none hsig))
      rw [List.length_map]
      omega
    | some handlers =>
      have hres := (signalHandlers_some hsig).1
      have hhandled : ¬ ∃ s ∈ kbnodeGetvalueAll st kbnodeKeyEmits,
          ∀ m ∈ all, s ∉ kbnodeGetvalueAll m.symtab kbnodeKeyHandles := by
        rintro ⟨s, hs, hno⟩
        obtain ⟨m, hm, hsm⟩ := hres s hs
        exact hno m hm hsm
      have hone : ∀ n ∈ (kbnodeGetvalueAll st kbnodeKeyEmits).map fun s =>
          (kbnodeFilterHandlers all [s]).length, 1 ≤ n := by
        rw [List.forall_mem_map]
        exact fun s hs => kbnodeFilterHandlers_pos.mpr (hres s hs)
      have hsum := Lists.sum_le_length_iff hone
      rw [List.forall_mem_map, List.length_map, ← signalHandlers_length hsig] at hsum
      simp only [nodeFindDependentJobsTable, hsrc, hsig, Option.some.injEq, forall_eq',
        ← ZeroTable.storeAll_append]
      rw [or_iff_right hhandled, ← hsum, storeAll_new_terminated_iff, List.length_append,
        List.length_map, List.length_map]
      omega

/-- The order of the nodes has no part in it. -/
theorem TableSuffices.perm {all' : List Kbnode} (h : all.Perm all') (hst : TableSuffices all st) :
    TableSuffices all' st := by
  have hlen : ∀ s, (kbnodeFilterHandlers all' [s]).length = (kbnodeFilterHandlers all [s]).length :=
    fun s => (h.symm.filter _).length_eq
  rw [tableSuffices_iff] at hst ⊢
  simpa only [hlen, h.symm.mem_iff] using hst

/-- All writes of `node_find_dependent_jobs` are in bounds and leave a zero entry exactly when no
handler is stored, or every signal has a single one. -/
theorem nodeFindDependentJobsTable_terminated_iff (st : Symtab) (all : List Kbnode) :
    (∀ table, (nodeFindDependentJobsTable st all).mem = some table → table.Terminated) ↔
      kbnodeGetSrcdef st = none ∨
      (∃ s ∈ kbnodeGetvalueAll st kbnodeKeyEmits,
        ∀ m ∈ all, s ∉ kbnodeGetvalueAll m.symtab kbnodeKeyHandles) ∨
      ∀ s ∈ kbnodeGetvalueAll st kbnodeKeyEmits, (kbnodeFilterHandlers all [s]).length = 1 :=
  tableSuffices_iff

/-- One job and one signal, which two nodes handle. -/
def fanOut : List Kbnode :=
  let vars (id : String) : List (CStr × List CStr) := [(kbnodeKeyId, [id.toList]),
    (kbnodeKeyFname, ["f".toList]), (kbnodeKeyLine, ["1".toList])]
  [⟨.job, symtabOf (vars "src" ++ [(kbnodeKeyEmits, ["s".toList])])⟩,
    ⟨.job, symtabOf (vars "a" ++ [(kbnodeKeyHandles, ["s".toList])])⟩,
    ⟨.job, symtabOf (vars "b" ++ [(kbnodeKeyHandles, ["s".toList])])⟩]

/-- Two entries fill both slots. -/
theorem fanOut_not_terminated : ∃ n ∈ fanOut, ∃ table,
    (nodeFindDependentJobsTable n.symtab fanOut).mem = some table ∧ ¬ table.Terminated := by
  refine ⟨fanOut.head (by decide), List.head_mem _, _, rfl, fun h => ?_⟩
  have hroom := h.room
  revert hroom
  decide

/-! ### What is scanned -/

/-- What is scanned in the table of a node are the children of the abstract search. -/
def ScansChildren (all : List Kbnode) (st : Symtab) : Prop :=
  nodeFindDependentJobs st all =
    ((nodeFindDependentJobsTable st all).scan, (nodeFindDependentJobsTable st all).nerrors)

theorem TableSuffices.scansChildren (h : TableSuffices all st) : ScansChildren all st := by
  rw [TableSuffices] at h
  rw [ScansChildren]
  cases hsrc : kbnodeGetSrcdef st with
  | none => simp [nodeFindDependentJobs, nodeFindDependentJobsTable, hsrc, DependentJobs.scan]
  | some srcdef =>
    cases hsig : signalHandlers all (kbnodeGetvalueAll st kbnodeKeyEmits) with
    | none =>
      simp [nodeFindDependentJobs, nodeFindDependentJobsTable, hsrc, hsig, DependentJobs.scan]
    | some handlers =>
      simp only [nodeFindDependentJobsTable, hsrc, hsig, Option.some.injEq, forall_eq',
        ← ZeroTable.storeAll_append] at h
      have hlen := (ZeroTable.storeAll_terminated_iff (Nat.succ_pos _)).mp h
      simp only [nodeFindDependentJobs, nodeFindDependentJobsTable, hsrc, hsig, DependentJobs.scan,
        if_true, Option.bind_some, ← ZeroTable.storeAll_append, ZeroTable.scan_storeAll_new hlen]

end Kubeka
