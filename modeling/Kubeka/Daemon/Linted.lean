import Kubeka.Config.Gate
import Kubeka.Config.Sound
import Kubeka.Config.Threads
import Kubeka.Daemon.Release

/-!
# A daemon that has been linted

What `main` hands to the threads are the evaluated trees of the periodic nodes
and of the entrypoints. When all of them are periodic and every period has a
unit, the lint has established all that the threads need: none of them returns
before its loop, so the daemon can always be shut down, and it frees nothing
that is in use.
-/

namespace Kubeka

open Fuel Transition

variable {L : Libds} {all : List Kbnode} {files : List FileRead} {trees : List KbTree}
  {d : Daemon} {es : List DaemonEvent} {out : List NodeRun}

/-- The thread of a periodic node that was linted gets to its loop. -/
theorem TreeOf.accepted {n : Kbnode} {t t' : KbTree} (h : TreeOf L all n t t') (hcheck : Checked n)
    (htype : n.type = .periodic) (hunit : HasUnit n) : Accepted t' := by
  obtain ⟨hbuilt, env, env', heval⟩ := h
  obtain ⟨nul, hcheck⟩ := hcheck
  have hper : (ncPeriodic nul n.symtab).nerrors = 0 := by
    simp only [kbnodeCheck, htype] at hcheck
    omega
  obtain ⟨⟨period, hperiod, hparse⟩, hcounter⟩ := ncPeriodic_accepts hper
  rw [HasUnit, kbnodeGetvalueFirst, kbsymtabGetString_of_cons hperiod] at hunit
  have hinst := kbnodeInstantiate_eq L n all
  rw [hbuilt] at hinst
  have hcopy := kbsymtabCopy_get (nodeInstantiate_root hinst).2
  have hkept := kbtreeEval_keepsFronts heval
  have hsame : kbnodeGetvalueFirst t'.symtab kbnodeKeyPeriod = period :=
    (kept_first hkept ((hcopy _).trans hperiod)).whole fun hin =>
      dollar_notMem_of_period hunit hparse (hin.subset List.mem_cons_self)
  have hsrc : kbnodeGetSrcdef t'.symtab ≠ none := by
    rw [ne_eq, srcdef_congr (kbtreeEval_root_arrays heval)]
    exact kbtreeEval_srcdef heval rfl [] [] [] t rfl
  intro nul' now
  have hparse' : (kbperiodParse nul' (kbnodeGetvalueFirst t'.symtab kbnodeKeyPeriod)).isSome =
      true := by
    rw [hsame, kbperiodParse_isSome_iff nul' hunit]
    exact (kbperiodParse_isSome_iff nul hunit).mp hparse
  obtain ⟨kbp, s, hstart, -⟩ := thPeriodicStart_of_values now hsrc hparse'
    (counter_accepted hkept (kbtreeEval_root_arrays heval _) (by rwa [hcopy]))
  simp [hstart]

theorem TreeOf.type {n : Kbnode} {t t' : KbTree} (h : TreeOf L all n t t') : t'.type = n.type := by
  obtain ⟨hbuilt, env, env', heval⟩ := h
  have hinst := kbnodeInstantiate_eq L n all
  rw [hbuilt] at hinst
  obtain ⟨up, n', hat, hshape⟩ := (kbtreeEval_shape heval [] []).1 [] t rfl
  obtain ⟨-, rfl⟩ := Prod.mk.inj (Option.some.inj hat)
  exact hshape.type.trans (nodeInstantiate_root hinst).1

/-- What a periodic configuration makes of a daemon. -/
structure ServesWell (n : ℕ) (es : List DaemonEvent) (d : Daemon) : Prop where
  shutsDown : d.endflag ≠ 0 → ShutsDown n d
  succeeds : Creates es → ∀ success, d.main = .exited success → success = true
  freesUnused : Creates es → ∀ success, d.main = .freed success →
    ∀ th ∈ d.threads, ¬ th.place.UsesTree

/-- A linted daemon whose entrypoints are all periodic and have periods with units exits after the
signal in a bounded number of steps and in any order of them, with success if every thread could be
created, and then frees nothing that a thread uses. -/
theorem main_servesWell {nul : ℕ → Bool} {opts : Options} {env : Env} {fuel : ℕ}
    (hmain : main L nul opts files env fuel = .ok (.threads trees))
    (hperiodic : ∀ n ∈ entrypoints (readNodes files), n.type = .periodic ∧ HasUnit n)
    (h : DaemonRun trees es d out) :
    ServesWell (8 * (entrypoints (readNodes files)).length + 5) es d := by
  have hpassed : Passed L files (kbtreeCoalesce L (readNodes files)).nodes trees :=
    main_passed hmain trivial
  have hmem : ∀ m, m ∈ (kbtreeCoalesce L (readNodes files)).nodes ↔ m ∈ readNodes files :=
    fun m => hpassed.collected.mem_iff
  have htrees : ∀ root ∈ trees, Accepted root ∧ root.type = .periodic := by
    intro root hroot
    obtain ⟨ep, hep, hall, t, htree⟩ := Lists.forall₂_left_of_mem hpassed.built hroot
    obtain ⟨htype, hunit⟩ := hperiodic ep ((mem_entrypoints_congr hmem ep).mp hep)
    exact ⟨htree.accepted (hpassed.checked ep hall) htype hunit, htree.type.trans htype⟩
  have hlength : trees.length = (entrypoints (readNodes files)).length := by
    rw [← hpassed.built.length_eq]
    exact (hpassed.collected.filter _).length_eq
  constructor
  · intro hflag
    rw [← hlength]
    exact ⟨h.changes_le hflag, fun _ _ _ hrun =>
      h.exitsOrGoesOn (fun root hroot => (htrees root hroot).1) hflag hrun⟩
  · intro hcreates success hexit
    cases success with
    | true => rfl
    | false => exact absurd hexit (h.healthy hcreates fun root hroot => (htrees root hroot).2).2.2
  · exact fun hcreates success hfreed =>
      h.freesUnused hcreates (fun root hroot => (htrees root hroot).2) hfreed

/-- A periodic node with a command. -/
def periodicFile : FileRead :=
  fileOf [⟨.periodic, nodeVars "p" [(kbnodeKeyExec, ["true".toList]),
    (kbnodeKeyPeriod, ["10sec".toList])]⟩]

/-- `--daemon` -/
def daemonOptions : Options := { entry := none, lint := false, daemon := true, werror := false }

/-- The threads are started. -/
def MainResult.IsThreads : MainResult → Bool
  | .threads _ => true
  | _ => false

theorem periodicFile_servesWell : ∃ fuel trees,
    main .ordered (fun _ => false) daemonOptions [periodicFile] (fun _ => none) fuel =
      .ok (.threads trees) ∧
    ServesWell 13 [.signal sigint] { startDaemon trees with endflag := 1 } := by
  obtain ⟨o, ⟨fuel, ho⟩, hthreads⟩ := exists_haltsWith
    (f := main .ordered (fun _ => false) daemonOptions [periodicFile] fun _ => none) 2
    MainResult.IsThreads (by decide +kernel)
  cases o with
  | exit success => simp [MainResult.IsThreads] at hthreads
  | launch nodeId trees => simp [MainResult.IsThreads] at hthreads
  | threads trees =>
    refine ⟨fuel, trees, ho, main_servesWell ho ?_ (.single (daemonStep_iff.mpr ⟨by simp [startDaemon],
      .signal sigint⟩))⟩
    decide +kernel

end Kubeka
