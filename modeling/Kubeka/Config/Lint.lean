import Kubeka.Config.Instances
import Kubeka.Eval.Shape
import Kubeka.Model.Lint

/-!
# What a lint without errors has established

The totals at the end of the passes are 0 only when every pass has found
nothing. `Passed` collects what that says about the files, about the nodes and
about the trees that are handed on.
-/

namespace Kubeka

open Fuel

/-- A node without errors in its check. -/
def Checked (n : Kbnode) : Prop := ∃ nul, (kbnodeCheck nul n).nerrors = 0

/-- The tree of a node, built and then evaluated, both without errors. -/
def TreeOf (L : Libds) (all : List Kbnode) (ep : Kbnode) (t t' : KbTree) : Prop :=
  kbnodeInstantiate L ep all = { tree := some t, nerrors := 0 } ∧
    ∃ env env', HaltsWith (kbtreeEval L [] t env) { tree := t', env := env', nerrors := 0 }

/-- No node of the configuration has errors in its check, and `t'` is the evaluated tree of one of
them, built and evaluated without errors. -/
structure LintedTree (L : Libds) (all : List Kbnode) (t' : KbTree) : Prop where
  checked : ∀ n ∈ all, Checked n
  tree : ∃ ep ∈ all, ∃ t, TreeOf L all ep t t'

/-- What holds of the files and the evaluated trees when no error was counted; `all` are the nodes
of the set. -/
structure Passed (L : Libds) (files : List FileRead) (all : List Kbnode) (trees : List KbTree) :
    Prop where
  read : ∀ f ∈ files, f.nerrors = 0
  collected : all.Perm (readNodes files)
  distinct : all.Pairwise fun n m => kbnodeCmp n m ≠ 0
  checked : ∀ n ∈ all, Checked n
  built : List.Forall₂ (fun ep t' => ep ∈ all ∧ ∃ t, TreeOf L all ep t t') (entrypoints all) trees

/-! ### One pass after the other -/

theorem readCounts_nerrors {files : List FileRead} (h : (readCounts files).nerrors = 0) :
    ∀ f ∈ files, f.nerrors = 0 := by
  induction files with
  | nil => simp
  | cons f files ih =>
    simp only [readCounts] at h
    split at h
    · next hok =>
      have hf : f.nerrors = 0 ∧ f.nwarnings = 0 := by simpa [FileRead.ok] using hok
      exact List.forall_mem_cons.mpr ⟨hf.1, ih h⟩
    · simp only [Nat.add_eq_zero_iff] at h
      exact List.forall_mem_cons.mpr ⟨h.1, ih h.2⟩

theorem kbnodeCmp_comm {n m : Kbnode} (h : kbnodeCmp n m = 0) : kbnodeCmp m n = 0 := by
  obtain ⟨id, ls, rs, hn, hm⟩ := kbnodeCmp_eq_zero.mp h
  exact kbnodeCmp_eq_zero.mpr ⟨id, rs, ls, hm, hn⟩

/-- Without duplicates the set has the nodes in their order. -/
theorem coalesceNodes_distinct {set nodes set' : List Kbnode}
    (hset : set.Pairwise fun n m => kbnodeCmp n m ≠ 0)
    (h : coalesceNodes set nodes = (some set', 0)) :
    set' = set ++ nodes ∧ set'.Pairwise fun n m => kbnodeCmp n m ≠ 0 := by
  induction nodes generalizing set with
  | nil =>
    obtain rfl : set = set' := by simpa [coalesceNodes] using h
    exact ⟨by simp, hset⟩
  | cons node nodes ih =>
    simp only [coalesceNodes] at h
    split at h
    · next hfind =>
      have hnew : ∀ e ∈ set, kbnodeCmp e node ≠ 0 := by simpa using List.find?_eq_none.mp hfind
      have hset' : (set ++ [node]).Pairwise fun n m => kbnodeCmp n m ≠ 0 := by
        refine List.pairwise_append.mpr ⟨hset, List.pairwise_singleton _ _, fun e he m hm => ?_⟩
        rw [List.mem_singleton.mp hm]
        exact hnew e he
      obtain ⟨rfl, hpair⟩ := ih hset' h
      exact ⟨by simp, hpair⟩
    · split at h
      · simp at h
      · simp only [Prod.mk.injEq] at h
        omega

theorem kbtreeCoalesce_distinct {L : Libds} {nodes : List Kbnode}
    (h : (kbtreeCoalesce L nodes).nerrors = 0) :
    (kbtreeCoalesce L nodes).nodes.Perm nodes ∧
      (kbtreeCoalesce L nodes).nodes.Pairwise fun n m => kbnodeCmp n m ≠ 0 := by
  by_cases hnil : nodes = []
  · simp [kbtreeCoalesce, hnil]
  · rcases hc : coalesceNodes [] nodes with ⟨_ | set, n⟩
    · simp [kbtreeCoalesce, hnil, hc] at h
    · simp only [kbtreeCoalesce, if_neg hnil, hc] at h ⊢
      obtain ⟨hset, hpair⟩ := coalesceNodes_distinct List.Pairwise.nil (h ▸ hc)
      have hperm := L.setIterate_perm set
      rw [List.nil_append] at hset
      refine ⟨hset ▸ hperm, ?_⟩
      exact (hperm.symm.pairwise_iff fun h => mt kbnodeCmp_comm h).mp hpair

theorem checkNodes_nerrors {nul : ℕ → Bool} {nodes : List Kbnode}
    (h : (checkNodes nul nodes).nerrors = 0) : ∀ n ∈ nodes, Checked n := by
  intro n hn
  obtain ⟨i, hi, rfl⟩ := List.mem_iff_getElem.mp hn
  refine ⟨nul i, ?_⟩
  simp only [checkNodes, List.sum_eq_zero_iff, List.mem_map] at h
  refine h _ ⟨_, List.mem_mapIdx.mpr ⟨i, hi, rfl⟩, rfl⟩

/-- Without errors every node has a tree. -/
theorem instantiateAll_built {L : Libds} {all eps : List Kbnode}
    (h : (instantiateAll L all eps).2 = 0) :
    List.Forall₂ (fun ep t => kbnodeInstantiate L ep all = { tree := some t, nerrors := 0 }) eps
      (instantiateAll L all eps).1 := by
  induction eps with
  | nil => exact .nil
  | cons ep eps ih =>
    simp only [instantiateAll, Nat.add_eq_zero_iff] at h ⊢
    obtain ⟨hep, heps⟩ := h
    cases htree : (kbnodeInstantiate L ep all).tree with
    | none => exact absurd hep (nodeInstantiate_none (kbnodeInstantiate_eq L ep all) htree)
    | some t =>
      refine .cons ?_ (ih heps)
      rw [← htree, ← hep]

/-! ### All passes -/

theorem Passed.of_lint {L : Libds} {nul : ℕ → Bool} {files : List FileRead} {env : Env} {r : Linted}
    (h : HaltsWith (lint L nul files env) r) (hn : r.nerrors = 0) :
    Passed L files (kbtreeCoalesce L (readNodes files)).nodes r.trees := by
  obtain ⟨fuel, h⟩ := h
  cases heval : kbtreeEvalAll L []
      (instantiateAll L (kbtreeCoalesce L (readNodes files)).nodes
        (entrypoints (kbtreeCoalesce L (readNodes files)).nodes)).1 env fuel with
  | error s => simp [lint, heval, Bind.bind, Except.bind] at h
  | ok ev =>
    simp only [lint, heval, Bind.bind, Except.bind, Pure.pure, Except.pure, Except.ok.injEq] at h
    subst h
    simp only [Nat.add_eq_zero_iff] at hn
    obtain ⟨⟨⟨⟨⟨hread, -⟩, hdedup⟩, hcheck⟩, hbuilt⟩, hev⟩ := hn
    obtain ⟨hperm, hdistinct⟩ := kbtreeCoalesce_distinct hdedup
    refine ⟨readCounts_nerrors hread, hperm, hdistinct, checkNodes_nerrors hcheck, ?_⟩
    refine (List.forall₂_and_left _ _).mpr ⟨fun ep hep => List.mem_of_mem_filter hep, ?_⟩
    have hpasses := Lists.forall₂_comp (instantiateAll_built hbuilt)
      (kbtreeEvalAll_forall₂ ⟨fuel, heval⟩)
    refine hpasses.imp ?_
    rintro ep t' ⟨t, ht, -, env, env', n, hle, hr⟩
    obtain rfl : n = 0 := Nat.le_zero.mp (hev ▸ hle)
    exact ⟨t, ht, env, env', hr⟩

theorem Passed.lintedTree {L : Libds} {files : List FileRead} {all : List Kbnode}
    {trees : List KbTree} (h : Passed L files all trees) {t : KbTree} (ht : t ∈ trees) :
    LintedTree L all t := by
  obtain ⟨ep, -, hep, t, htree⟩ := Lists.forall₂_left_of_mem h.built ht
  exact ⟨h.checked, ep, hep, t, htree⟩

end Kubeka
