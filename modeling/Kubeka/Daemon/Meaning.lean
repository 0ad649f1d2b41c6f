import Kubeka.Config.Meaning
import Kubeka.Daemon.Linted
import Kubeka.Run.WriteBack

/-!
# What a linted daemon runs

The thread of a periodic node counts its runs down in a variable of its tree,
and runs the same tree again and again. The plan of the tree has nothing to do
with that variable, so each run is what the configuration says of the node.
-/

namespace Kubeka

open Fuel Transition

variable {L : Libds} {all : List Kbnode} {files : List FileRead} {trees : List KbTree}
  {period : Kbperiod} {t c : KbTree}

/-! ### Counting down -/

/-- The same tree but for the variable of the counter. -/
structure CountedDown (t c : KbTree) : Prop where
  jobs : c.jobs = t.jobs
  handlers : c.handlers = t.handlers
  values : ∀ key, key ≠ kbnodeKeyCounter → kbsymtabGet c.symtab key = kbsymtabGet t.symtab key

theorem kbnodeSetSingle_other (st : Symtab) (key newvalue : CStr) (index : ℕ) {k : CStr}
    (hk : k ≠ key) : kbsymtabGet (kbnodeSetSingle st key index newvalue).2 k = kbsymtabGet st k := by
  unfold kbnodeSetSingle
  split
  · rfl
  · rfl
  · split_ifs
    · rfl
    · rw [kbsymtabGet_insert, if_neg hk]

theorem CountedDown.withSymtab {st : Symtab} (h : CountedDown t c)
    (hst : ∀ key, key ≠ kbnodeKeyCounter → kbsymtabGet st key = kbsymtabGet c.symtab key) :
    CountedDown t (c.withSymtab st) := by
  cases c
  exact ⟨h.jobs, h.handlers, fun key hkey => (hst key hkey).trans (h.values key hkey)⟩

theorem CountedDown.countDown {s : Periodic} (h : CountedDown t s.root) :
    CountedDown t (countDown s).root := by
  unfold Kubeka.countDown
  split_ifs
  · exact h
  · exact h.withSymtab fun key hkey => kbnodeSetSingle_other _ _ _ _ hkey

/-- The run of an iteration is one of the tree counted down, and the tree stays that. -/
theorem periodicStep_countedDown (period : Kbperiod) {s : Periodic} (h : CountedDown t s.root) (tick : Tick) :
    CountedDown t (periodicStep period s tick).1.root ∧
      ∀ run, (periodicStep period s tick).2 = some run →
        CountedDown t run.1 ∧ run.2 = kbbiRun tick.shell [] run.1 := by
  have hdown : CountedDown t (countDown { s with expTime := kbperiodReset period tick.reset }).root :=
    CountedDown.countDown (s := { s with expTime := kbperiodReset period tick.reset }) h
  unfold periodicStep
  dsimp only
  split_ifs
  · exact ⟨h, by simp⟩
  · exact ⟨h, by simp⟩
  · exact ⟨h, by simp⟩
  · exact ⟨hdown, by rintro _ ⟨⟩; exact ⟨hdown, rfl⟩⟩
  · exact ⟨hdown, by rintro _ ⟨⟩; exact ⟨hdown, rfl⟩⟩

theorem periodicLoop_countedDown {s : Periodic} (h : CountedDown t s.root) (ticks : List Tick) :
    ∀ run ∈ runsOf (periodicLoop period s ticks),
      CountedDown t run.1 ∧ ∃ shell, run.2 = kbbiRun shell [] run.1 := by
  induction ticks generalizing s with
  | nil => simp [periodicLoop, runsOf]
  | cons tick ticks ih =>
    cases hdone : s.done with
    | true => simp [periodicLoop_done hdone, runsOf]
    | false =>
      obtain ⟨hkept, hrun⟩ := periodicStep_countedDown period h tick
      rw [periodicLoop_cons hdone]
      intro run hmem
      obtain ⟨it, hit, hsome⟩ := List.mem_filterMap.mp hmem
      rcases List.mem_cons.mp hit with rfl | hit
      · exact ⟨(hrun run hsome).1, tick.shell, (hrun run hsome).2⟩
      · exact ih hkept run (List.mem_filterMap.mpr ⟨it, hit, hsome⟩)

theorem thPeriodic_countedDown (nul : Bool) (root : KbTree) (now : ℕ) (ticks : List Tick) :
    ∀ run ∈ runsOf (thPeriodic nul root now ticks),
      CountedDown root run.1 ∧ ∃ shell, run.2 = kbbiRun shell [] run.1 := by
  unfold thPeriodic
  cases hstart : thPeriodicStart nul root now with
  | none => simp [runsOf]
  | some start =>
    have hroot : start.2.root = root := (thPeriodicStart_hasCounter hstart).1
    refine periodicLoop_countedDown ?_ ticks
    rw [hroot]
    exact ⟨rfl, rfl, fun _ _ => rfl⟩

/-- The counter has no part in a run. -/
theorem CountedDown.kbbiRun (h : CountedDown t c) (hsrc : kbnodeGetSrcdef t.symtab ≠ none)
    (shell : Shell) (p : Path) : kbbiRun shell p c = Kubeka.kbbiRun shell p t := by
  have hvalues : ∀ key, key ≠ kbnodeKeyCounter →
      kbnodeGetvalueAll c.symtab key = kbnodeGetvalueAll t.symtab key := fun key hkey => by
    rw [kbnodeGetvalueAll, kbnodeGetvalueAll, h.values key hkey]
  have hsrc' : kbnodeGetSrcdef c.symtab ≠ none := by
    rw [ne_eq, kbnodeGetSrcdef_eq_none] at hsrc ⊢
    rwa [hvalues kbnodeKeyFname (by decide), hvalues kbnodeKeyLine (by decide),
      hvalues kbnodeKeyId (by decide)]
  rw [kbbiRun_eq_finishNode shell p hsrc, kbbiRun_eq_finishNode shell p hsrc', h.jobs, h.handlers,
    hvalues kbnodeKeyEmits (by decide)]
  simp only [finishNode, runCommands_eq shell p hsrc, runCommands_eq shell p hsrc',
    hvalues kbnodeKeyExec (by decide)]

/-! ### Every run -/

/-- The run is what the configuration says of the node when the commands have some results. -/
def RunsAsSaid (all : List Kbnode) (ep : Kbnode) (r : Ran) : Prop :=
  ∃ shell, ∀ ret trace, Does (configPlan all) shell [] ⟨ep, []⟩ ret trace ↔
    r.ret = ret ∧ r.trace = trace

/-- In every interleaving the threads of a linted daemon are those of the entrypoints, and each run
of a thread is what the configuration says of its entrypoint. -/
theorem daemonRun_runsAsSaid {nul : ℕ → Bool} {opts : Options} {env : Env} {fuel : ℕ}
    {d : Daemon} {es : List DaemonEvent} {out : List NodeRun} (hreg : Regular (readNodes files))
    (hmain : main L nul opts files env fuel = .ok (.threads trees)) (h : DaemonRun trees es d out) :
    d.threads.length = (entrypoints (nodeSet L files)).length ∧
      ∀ i ep, (entrypoints (nodeSet L files))[i]? = some ep →
        ∀ run ∈ runsBy i out, RunsAsSaid (nodeSet L files) ep run.2 := by
  have hpassed : Passed L files (nodeSet L files) trees := main_passed hmain trivial
  obtain ⟨hreg', hids⟩ := hpassed.regular hreg
  refine ⟨?_, fun i ep hi run hrun => ?_⟩
  · rw [hpassed.built.length_eq, ← h.allAlone.ordered.roots, List.length_map]
  · obtain ⟨t', ht', hep, t, htree⟩ := Lists.forall₂_getElem? hpassed.built hi
    obtain ⟨th, hth, rfl⟩ := h.allAlone.ordered.getElem?_root ht'
    obtain ⟨nul', now, ticks, hruns, -⟩ := (h.allAlone.alone i th hth).runsAlone.alone
    rw [hruns] at hrun
    obtain ⟨hdown, shell, heq⟩ := thPeriodic_countedDown nul' th.root now ticks run hrun
    refine ⟨shell, fun ret trace => ?_⟩
    rw [heq, hdown.kbbiRun (htree.srcdef [] _ _ rfl)]
    exact htree.does_iff hreg' hids hep shell ret trace

theorem periodicFile_regular : Regular (readNodes [periodicFile]) := by
  have hplain : ∀ s, IsPlain s → IsTemplate s := fun _ => .plain
  refine ⟨by decide, ?_, by decide, ?_⟩
  swap
  · simp only [tableSuffices_iff]
    decide
  simp only [readNodes, periodicFile, fileOf, List.flatMap_singleton, List.forall_mem_singleton]
  refine forall_values_symtabOf ?_
  simp only [List.forall_mem_cons]
  refine ⟨⟨hplain _ (by decide), ?_⟩, ⟨hplain _ (by decide), ?_⟩, ⟨hplain _ (by decide), ?_⟩,
    ⟨hplain _ (by decide), ?_⟩, ⟨hplain _ (by decide), ?_⟩, ⟨hplain _ (by decide), ?_⟩, ?_⟩ <;> simp

/-- The thread is created and runs its node once. -/
def oneRun : List DaemonEvent :=
  [.main true, .thread 0 (readsAt 0), .thread 0 (readsAt 0), .thread 0 (readsAt 1)]

theorem periodicFile_runsAsSaid : ∃ trees d out run ep,
    DaemonRun trees oneRun d out ∧ runsBy 0 out = [run] ∧
      (entrypoints (nodeSet .ordered [periodicFile]))[0]? = some ep ∧
      RunsAsSaid (nodeSet .ordered [periodicFile]) ep run.2 := by
  obtain ⟨o, ⟨fuel, ho⟩, hruns⟩ := exists_haltsWith
    (f := main .ordered (fun _ => false) daemonOptions [periodicFile] fun _ => none) 2
    (fun o => o.IsThreads && (exec Daemon.step (startDaemon o.trees) oneRun).any
      fun r => (runsBy 0 r.2).length = 1) (by decide +kernel)
  cases o with
  | exit success => simp [MainResult.IsThreads] at hruns
  | launch nodeId trees => simp [MainResult.IsThreads] at hruns
  | threads trees =>
    obtain ⟨d, out, hrun, hone⟩ := exists_run Daemon.step (startDaemon trees) oneRun
      (fun r => (runsBy 0 r.2).length = 1) hruns
    obtain ⟨run, hout⟩ := List.length_eq_one_iff.mp (of_decide_eq_true hone)
    obtain ⟨-, hsaid⟩ := daemonRun_runsAsSaid periodicFile_regular ho hrun
    exact ⟨trees, d, out, run, _, hrun, hout, rfl, hsaid 0 _ rfl run (by simp [hout])⟩

end Kubeka
