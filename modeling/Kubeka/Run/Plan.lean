import Kubeka.Library.Lists
import Kubeka.Run.Trace

/-!
# What it means to run a node

A node is run by the handlers of its signals, or else by its commands, or else
by its jobs. A plan keeps of nodes of any kind just what a run looks at, and
`Does` is the rule for running by a plan. What is done is fixed by the plan, and
it is the same by plans that agree along a relation. `kbbi_run` goes by the rule.
-/

namespace Kubeka

/-- What a run looks at in a node: the handlers of its signals and its commands, with their
positions, its jobs, and the actions that roll it back. -/
structure Plan (σ : Type*) where
  reacting : σ → List (σ × ℕ)
  commands : σ → List (CStr × ℕ)
  jobs : σ → List σ
  undo : σ → List CStr

variable {σ τ : Type*}

/-- The events of a node from its start to its end. -/
def framed (p : Path) (ret : CInt) (mid : List Event) : List Event :=
  .start p :: mid ++ [.finish p ret]

/-- The events of rolling a node back; nothing is executed when the first action is empty. -/
def undone (shell : Shell) (p : Path) (actions : List CStr) : List Event :=
  .rollback p :: if actions.head? = some [] then []
    else actions.mapIdx fun i a => .action p i a (shell p kbnodeKeyRollback i)

/-- The status and the events of the node at a place. -/
inductive Does (P : Plan σ) (shell : Shell) : Path → σ → CInt → List Event → Prop
  | handlers {p s} {status : ℕ → CInt} {trace : ℕ → List Event} (reacts : P.reacting s ≠ [])
      (each : ∀ h ∈ P.reacting s,
        Does P shell (p ++ [.handler h.2]) h.1 (status h.2) (trace h.2)) :
      Does P shell p s ((P.reacting s).map fun h => status h.2).sum
        (framed p ((P.reacting s).map fun h => status h.2).sum
          ((P.reacting s).flatMap fun h => trace h.2))
  | commands {p s} (silent : P.reacting s = []) (acts : P.commands s ≠ []) :
      Does P shell p s (orAll ((P.commands s).map fun c => shell p kbnodeKeyExec c.2))
        (framed p (orAll ((P.commands s).map fun c => shell p kbnodeKeyExec c.2))
          ((P.commands s).map (commandEvent shell p)))
  | jobs {p s} {trace : ℕ → List Event} (silent : P.reacting s = []) (idle : P.commands s = [])
      (named : P.jobs s ≠ [])
      (each : ∀ j ∈ (P.jobs s).zipIdx, Does P shell (p ++ [.job j.2]) j.1 0 (trace j.2)) :
      Does P shell p s 0 (framed p 0 ((P.jobs s).zipIdx.flatMap fun j => trace j.2))
  | jobFailed {p s k job ret} {trace : ℕ → List Event} (silent : P.reacting s = [])
      (idle : P.commands s = []) (place : (job, k) ∈ (P.jobs s).zipIdx)
      (before : ∀ j ∈ (P.jobs s).zipIdx, j.2 < k →
        Does P shell (p ++ [.job j.2]) j.1 0 (trace j.2))
      (fails : Does P shell (p ++ [.job k]) job ret (trace k)) (ret_ne : ret ≠ 0) :
      Does P shell p s ret (framed p ret
        (((P.jobs s).take (k + 1)).zipIdx.flatMap (fun j => trace j.2) ++
          ((P.jobs s).take (k + 1)).zipIdx.reverse.flatMap fun j =>
            undone shell (p ++ [.job j.2]) (P.undo j.1)))
  | nothing {p s} (silent : P.reacting s = []) (idle : P.commands s = []) (empty : P.jobs s = []) :
      Does P shell p s 0 (framed p 0 [.noAction p])

variable {P : Plan σ} {Q : Plan τ} {shell : Shell} {p : Path}

/-! ### One behaviour -/

theorem mem_zipIdx_take {l : List σ} {k : ℕ} {j : σ × ℕ} (h : j ∈ (l.take (k + 1)).zipIdx) :
    j ∈ l.zipIdx ∧ (j.2 < k ∨ j.2 = k) := by
  rw [List.mem_zipIdx_iff_getElem?] at h ⊢
  have hlt : j.2 < k + 1 := by
    by_contra hge
    rw [List.getElem?_eq_none (by simp; omega)] at h
    simp at h
  rw [List.getElem?_take_of_lt hlt] at h
  exact ⟨h, by omega⟩

/-- The plan fixes what is done. -/
theorem Does.unique {s : σ} {ret ret' : CInt} {trace trace' : List Event}
    (h : Does P shell p s ret trace) (h' : Does P shell p s ret' trace') :
    ret = ret' ∧ trace = trace' := by
  induction h generalizing ret' trace' with
  | @handlers p s status trace reacts each ih =>
    cases h' with
    | @handlers _ _ status' trace' _ each' =>
      have hstatus : ((P.reacting s).map fun h => status h.2) =
          (P.reacting s).map fun h => status' h.2 :=
        List.map_congr_left fun h hh => (ih h hh (each' h hh)).1
      have htrace : ((P.reacting s).flatMap fun h => trace h.2) =
          (P.reacting s).flatMap fun h => trace' h.2 :=
        List.flatMap_congr fun h hh => (ih h hh (each' h hh)).2
      rw [hstatus, htrace]
      exact ⟨rfl, rfl⟩
    | _ => exact absurd ‹P.reacting s = []› reacts
  | @commands p s silent acts =>
    cases h' with
    | handlers reacts _ => exact absurd silent reacts
    | commands _ _ => exact ⟨rfl, rfl⟩
    | _ => exact absurd ‹P.commands s = []› acts
  | @jobs p s trace silent idle named each ih =>
    cases h' with
    | handlers reacts _ => exact absurd silent reacts
    | commands _ acts => exact absurd idle acts
    | @jobs _ _ trace' _ _ _ each' =>
      have htrace : ((P.jobs s).zipIdx.flatMap fun j => trace j.2) =
          (P.jobs s).zipIdx.flatMap fun j => trace' j.2 :=
        List.flatMap_congr fun j hj => (ih j hj (each' j hj)).2
      rw [htrace]
      exact ⟨rfl, rfl⟩
    | jobFailed _ _ place _ fails ret_ne => exact absurd (ih _ place fails).1.symm ret_ne
    | nothing _ _ empty => exact absurd empty named
  | @jobFailed p s k job ret trace silent idle place before fails ret_ne ihbefore ihfails =>
    cases h' with
    | handlers reacts _ => exact absurd silent reacts
    | commands _ acts => exact absurd idle acts
    | jobs _ _ _ each' => exact absurd (ihfails (each' _ place)).1 ret_ne
    | @jobFailed _ _ k' job' _ trace' _ _ place' before' fails' ret_ne' =>
      rcases Nat.lt_trichotomy k k' with hlt | rfl | hgt
      · exact absurd (ihfails (before' _ place hlt)).1 ret_ne
      · obtain rfl : job = job' := Option.some.inj
          ((List.mem_zipIdx_iff_getElem?.mp place).symm.trans (List.mem_zipIdx_iff_getElem?.mp place'))
        obtain ⟨rfl, hlast⟩ := ihfails fails'
        have htrace : (((P.jobs s).take (k + 1)).zipIdx.flatMap fun j => trace j.2) =
            ((P.jobs s).take (k + 1)).zipIdx.flatMap fun j => trace' j.2 := by
          refine List.flatMap_congr fun j hj => ?_
          obtain ⟨hmem, hlt | heq⟩ := mem_zipIdx_take hj
          · exact (ihbefore j hmem hlt (before' j hmem hlt)).2
          · rw [heq, hlast]
        rw [htrace]
        exact ⟨rfl, rfl⟩
      · exact absurd (ihbefore _ place' hgt fails').1.symm ret_ne'
    | nothing _ _ empty => simp [empty] at place
  | nothing silent idle empty =>
    cases h' with
    | handlers reacts _ => exact absurd silent reacts
    | commands _ acts => exact absurd idle acts
    | jobs _ _ named _ => exact absurd empty named
    | jobFailed _ _ place _ _ _ => simp [empty] at place
    | nothing _ _ _ => exact ⟨rfl, rfl⟩

/-! ### Plans that agree -/

/-- Related nodes have the same commands and actions, and related children in the same places. -/
structure Agree (P : Plan σ) (Q : Plan τ) (R : σ → τ → Prop) : Prop where
  reacting : ∀ s t, R s t →
    List.Forall₂ (fun a b => a.2 = b.2 ∧ R a.1 b.1) (P.reacting s) (Q.reacting t)
  commands : ∀ s t, R s t → P.commands s = Q.commands t
  jobs : ∀ s t, R s t → List.Forall₂ R (P.jobs s) (Q.jobs t)
  undo : ∀ s t, R s t → P.undo s = Q.undo t

theorem Agree.silent {R : σ → τ → Prop} (hR : Agree P Q R) {s : σ} {t : τ} (h : R s t)
    (hs : P.reacting s = []) : Q.reacting t = [] := by
  have hall := hR.reacting s t h
  rw [hs] at hall
  exact List.forall₂_nil_left_iff.mp hall

/-- By plans that agree the same is done. -/
theorem Does.agree {R : σ → τ → Prop} (hR : Agree P Q R) {s : σ} {t : τ} {ret : CInt}
    {trace : List Event} (h : Does P shell p s ret trace) (hst : R s t) :
    Does Q shell p t ret trace := by
  induction h generalizing t with
  | @handlers p s status trace reacts each ih =>
    have hall := hR.reacting s t hst
    rw [Lists.map_eq_of_forall₂ hall (g := fun h => status h.2) fun a b hab => by rw [hab.1],
      Lists.flatMap_eq_of_forall₂ hall (g := fun h => trace h.2) fun a b hab => by rw [hab.1]]
    refine .handlers (fun hnil => reacts ?_) fun b hb => ?_
    · rw [hnil] at hall
      exact List.forall₂_nil_right_iff.mp hall
    · obtain ⟨a, ha, hplace, hab⟩ := Lists.forall₂_left_of_mem hall hb
      rw [← hplace]
      exact ih a ha hab
  | @commands p s silent acts =>
    rw [hR.commands s t hst] at acts ⊢
    exact .commands (hR.silent hst silent) acts
  | @jobs p s trace silent idle named each ih =>
    have hall := hR.jobs s t hst
    have hplaces := Lists.forall₂_zipIdx hall 0
    rw [Lists.flatMap_eq_of_forall₂ hplaces (g := fun j => trace j.2) fun a b hab => by rw [hab.1]]
    refine .jobs (hR.silent hst silent) (hR.commands s t hst ▸ idle) (fun hnil => named ?_)
      fun b hb => ?_
    · rw [hnil] at hall
      exact List.forall₂_nil_right_iff.mp hall
    · obtain ⟨a, ha, hplace, hab⟩ := Lists.forall₂_left_of_mem hplaces hb
      rw [← hplace]
      exact ih a ha hab
  | @jobFailed p s k job ret trace silent idle place before fails ret_ne ihbefore ihfails =>
    have hall := hR.jobs s t hst
    have hplaces := Lists.forall₂_zipIdx hall 0
    have hstarted := Lists.forall₂_zipIdx (List.forall₂_take (k + 1) hall) 0
    obtain ⟨⟨job', k'⟩, place', rfl, hjob⟩ := Lists.forall₂_right_of_mem hplaces place
    rw [Lists.flatMap_eq_of_forall₂ hstarted (g := fun j => trace j.2) fun a b hab => by rw [hab.1],
      Lists.flatMap_eq_of_forall₂ (List.forall₂_reverse_iff.mpr hstarted)
        (g := fun j => undone shell (p ++ [.job j.2]) (Q.undo j.1)) fun a b hab => by
          rw [hab.1, hR.undo a.1 b.1 hab.2]]
    refine .jobFailed (hR.silent hst silent) (hR.commands s t hst ▸ idle) place' (fun b hb hlt => ?_)
      (ihfails hjob) ret_ne
    obtain ⟨a, ha, hplace, hab⟩ := Lists.forall₂_left_of_mem hplaces hb
    rw [← hplace] at hlt ⊢
    exact ihbefore a ha hlt hab
  | @nothing p s silent idle empty =>
    have hall := hR.jobs s t hst
    rw [empty] at hall
    exact .nothing (hR.silent hst silent) (hR.commands s t hst ▸ idle)
      (List.forall₂_nil_left_iff.mp hall)

/-! ### Trees -/

/-- What `kbbi_run` looks at. -/
def treePlan : Plan KbTree where
  reacting := matching
  commands := fun t => commandsOf t.symtab
  jobs := KbTree.jobs
  undo := fun t => kbnodeGetvalueAll t.symtab kbnodeKeyRollback

theorem rollbackTrace_undone {j : KbTree × ℕ} (hsrc : kbnodeGetSrcdef j.1.symtab ≠ none) :
    rollbackTrace shell p j = undone shell (p ++ [.job j.2]) (treePlan.undo j.1) := by
  obtain ⟨d, hd⟩ := Option.ne_none_iff_exists'.mp hsrc
  simp only [rollbackTrace, kbbiRollback, undone, treePlan, hd]
  split
  · next hnil => simp [hnil]
  · next hempty => simp [hempty]
  · next hnil hempty =>
    have hhead : (kbnodeGetvalueAll j.1.symtab kbnodeKeyRollback).head? ≠ some [] := by
      intro hhead
      obtain ⟨rest, heq⟩ := List.head?_eq_some_iff.mp hhead
      exact hempty rest heq
    simp [hhead, kbexecShell, hd]

/-- In a tree whose nodes have origins `kbbi_run` goes by the rule. -/
theorem kbbiRun_does (shell : Shell) {up : List Symtab} {t : KbTree}
    (ht : t.Forall (fun _ n => kbnodeGetSrcdef n.symtab ≠ none) up) (p : Path) :
    Does treePlan shell p t (exitStatus shell p t) (kbbiRun shell p t).trace := by
  induction t using KbTree.inductionOn generalizing p up with
  | node type st js hs ihj ihh =>
    obtain ⟨hsrc, hj, hh⟩ := KbTree.forall_node.mp ht
    generalize htree : KbTree.node type st js hs = t at hsrc
    have hjobs : t.jobs = js := by rw [← htree]; rfl
    obtain ⟨mid, hran, htrace⟩ := kbbiRun_spec shell p t
    -- what the children do, by their positions
    let status : ℕ → CInt := fun i => exitStatus shell (p ++ [.handler i]) (hs[i]?.getD t)
    let handled : ℕ → List Event := fun i =>
      (kbbiRun shell (p ++ [.handler i]) (hs[i]?.getD t)).trace
    let trace : ℕ → List Event := fun i => (kbbiRun shell (p ++ [.job i]) (js[i]?.getD t)).trace
    have hhandler : ∀ h ∈ matching t, status h.2 = handlerStatus shell p h ∧
        handled h.2 = handlerTrace shell p h ∧
          Does treePlan shell (p ++ [.handler h.2]) h.1 (status h.2) (handled h.2) := by
      intro h hmem
      rw [← htree] at hmem
      have hget : hs[h.2]? = some h.1 := child?_of_mem_matching hmem
      have hin := List.mem_of_getElem? hget
      simp only [status, handled, handlerStatus, handlerTrace, hget, Option.getD_some]
      exact ⟨trivial, trivial, ihh h.1 hin (hh h.1 hin) _⟩
    have hjob : ∀ j ∈ t.jobs.zipIdx, trace j.2 = jobTrace shell p j ∧
        Does treePlan shell (p ++ [.job j.2]) j.1 (jobStatus shell p j) (trace j.2) := by
      intro j hmem
      rw [hjobs] at hmem
      have hget := List.mem_zipIdx_iff_getElem?.mp hmem
      have hsame : trace j.2 = jobTrace shell p j := by simp only [trace, jobTrace, hget, Option.getD_some]
      rw [hsame]
      exact ⟨rfl, ihj j.1 (List.fst_mem_of_mem_zipIdx hmem) (hj j.1 (List.fst_mem_of_mem_zipIdx hmem)) _⟩
    have hjobsrc : ∀ j ∈ t.jobs.zipIdx, kbnodeGetSrcdef j.1.symtab ≠ none := by
      intro j hmem
      rw [hjobs] at hmem
      exact hj j.1 (List.fst_mem_of_mem_zipIdx hmem) [] _ j.1 rfl
    rw [htrace]
    generalize exitStatus shell p t = ret at hran
    cases hran with
    | noSrcdef hnone => exact absurd hnone hsrc
    | handlers _ hm =>
      rw [List.map_congr_left fun h hmem => (hhandler h hmem).1.symm,
        List.flatMap_congr fun h hmem => (hhandler h hmem).2.1.symm]
      exact .handlers hm fun h hmem => (hhandler h hmem).2.2
    | commands _ hm hc => exact .commands hm hc
    | jobs _ hm hc hne hzero =>
      rw [List.flatMap_congr fun j hmem => (hjob j hmem).1.symm]
      refine .jobs hm hc hne fun j hmem => ?_
      rw [← hzero j hmem]
      exact (hjob j hmem).2
    | @jobFailed pre job post _ hm hc heq hzero hne =>
      have hplace : (job, pre.length) ∈ t.jobs.zipIdx :=
        List.mem_zipIdx_iff_getElem?.mpr (by simp [heq])
      have hstarted : (treePlan.jobs t).take (pre.length + 1) = pre ++ [job] := by
        simp [treePlan, heq, List.take_append]
      have hof : ∀ j ∈ (pre ++ [job]).zipIdx, j ∈ t.jobs.zipIdx := by
        intro j hmem
        rw [← hstarted] at hmem
        exact (mem_zipIdx_take hmem).1
      rw [List.flatMap_congr fun j hmem => (hjob j (hof j hmem)).1.symm,
        List.flatMap_congr fun j hmem => rollbackTrace_undone (p := p)
          (hjobsrc j (hof j (List.mem_reverse.mp hmem))), ← hstarted]
      refine .jobFailed hm hc hplace (fun j hmem hlt => ?_) (hjob _ hplace).2 hne
      rw [← hzero j (mem_zipIdx_left heq hmem hlt)]
      exact (hjob j hmem).2
    | nothing _ hm hc hnil => exact .nothing hm hc hnil

end Kubeka
