import Kubeka.Eval.Clean
import Kubeka.Eval.Expansion
import Kubeka.Run.Rollback

/-!
# Runs of evaluated trees

What a run hands to the shell are values of the nodes it gets to. In a tree
evaluated without errors no value has a reference left, so neither has a command
or a rollback action.
-/

namespace Kubeka

open Fuel

/-- The text that is handed to `kbexec_shell`. -/
def Event.executes : Event → Option CStr
  | .command _ _ cmd _ | .action _ _ cmd _ => some cmd
  | _ => none

variable {shell : Shell}

/-- What is executed is a value of a node of the tree. -/
theorem executes_mem_values {t : KbTree} {e : Event} {cmd : CStr}
    (h : e ∈ (kbbiRun shell [] t).trace) (hcmd : e.executes = some cmd) :
    ∃ p up n key, t.at? [] p = some (up, n) ∧ cmd ∈ kbnodeGetvalueAll n.symtab key := by
  cases e with
  | command q i text rc =>
    obtain rfl : text = cmd := Option.some.inj hcmd
    obtain ⟨n, hn, -, -, hc, -⟩ := command_mem_trace.mp h
    obtain ⟨up, hat⟩ := hn.exists_at
    exact ⟨q, up, n, kbnodeKeyExec, hat,
      List.takeWhile_subset _ (List.fst_mem_of_mem_zipIdx hc)⟩
  | action q i text rc =>
    obtain rfl : text = cmd := Option.some.inj hcmd
    obtain ⟨q', m, k, c, hm, hc, -, -, hmem⟩ := Visited.of_action h
    obtain ⟨up, hat⟩ := (hm.trans (.child hc .here)).exists_at
    obtain ⟨j, hj, heq⟩ := List.mem_mapIdx.mp hmem
    simp only [Event.action.injEq] at heq
    exact ⟨_, up, c, kbnodeKeyRollback, hat, heq.2.2.1 ▸ List.getElem_mem hj⟩
  | start | noAction | finish | rollback => simp [Event.executes] at hcmd

theorem CleanNode.clean {up : List Symtab} {n : KbTree} (h : CleanNode up n) {key v : CStr}
    (hv : v ∈ kbnodeGetvalueAll n.symtab key) : Clean v := by
  cases hvs : kbsymtabGet n.symtab key with
  | none => simp [kbnodeGetvalueAll, hvs] at hv
  | some vs => exact h key vs hvs v (by simpa [kbnodeGetvalueAll, hvs] using hv)

/-- After an evaluation without errors no value of the tree has a reference left, and nothing with
a reference is ever executed. -/
theorem kbtreeEval_leaves_no_reference (L : Libds) (t : KbTree) (env : Env) (r : TreeEval KbTree)
    (h : HaltsWith (kbtreeEval L [] t env) r) (hn : r.nerrors = 0) :
    (∀ p up n, r.tree.at? [] p = some (up, n) →
      ∀ key vs, kbsymtabGet n.symtab key = some vs → ∀ v ∈ vs, ¬ refOpen <:+: v) ∧
    ∀ shell, ∀ e ∈ (kbbiRun shell [] r.tree).trace, ∀ cmd, e.executes = some cmd →
      ¬ refOpen <:+: cmd := by
  have hclean := kbtreeEval_clean h hn []
  refine ⟨hclean, fun shell e he cmd hcmd => ?_⟩
  obtain ⟨p, up, n, key, hat, hmem⟩ := executes_mem_values he hcmd
  exact (hclean p up n hat).clean hmem

theorem kbtreeEval_leaves_no_reference_greeting :
    ∃ r, HaltsWith (kbtreeEval .ordered [] greeting fun _ => none) r ∧
      ∀ shell, ∀ e ∈ (kbbiRun shell [] r.tree).trace, ∀ cmd, e.executes = some cmd →
        ¬ refOpen <:+: cmd := by
  obtain ⟨r, hhalts, hr⟩ := exists_haltsWith (f := kbtreeEval .ordered [] greeting fun _ => none) 4
    (fun r => r.nerrors = 0) (by decide)
  have hn : r.nerrors = 0 := of_decide_eq_true hr
  exact ⟨r, hhalts,
    (kbtreeEval_leaves_no_reference .ordered greeting (fun _ => none) r hhalts hn).2⟩

end Kubeka
