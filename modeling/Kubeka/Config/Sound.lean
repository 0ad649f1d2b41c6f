import Kubeka.Config.DependentJobs
import Kubeka.Config.Gate
import Kubeka.Config.Threads
import Kubeka.Config.Ways
import Kubeka.Eval.Expansion

/-!
# What the linter accepts

The passes of the linter work on sets, trees and tables that change. What they
accept can be said of the configuration alone: nodes with IDs of their own that
pass their checks, references that have targets and no cycles, and values that
have expansions along every way to their node. The linter ends without errors
on exactly these configurations, so nothing else has a say in the verdict: not
the order in which files and nodes come, nor that of sets and tables, nor the
environment.
-/

namespace Kubeka

open Relation FiniteGraph Fuel Templates

variable {L : Libds} {all : List Kbnode} {files : List FileRead}

/-- What a configuration has to be. -/
structure Sound (files : List FileRead) : Prop where
  read : ∀ f ∈ files, f.nerrors = 0
  ids : ((readNodes files).map fun n => nodeId n.symtab).Nodup
  checked : ∀ n ∈ readNodes files, Checked n
  resolves : ∀ ep ∈ entrypoints (readNodes files), ∀ n,
    ReflTransGen (PointsTo (readNodes files)) ep n → ReferencesResolve (readNodes files) n
  acyclic : ∀ ep ∈ entrypoints (readNodes files), ¬ ReachesCycle (PointsTo (readNodes files)) ep
  expands : ∀ ep ∈ entrypoints (readNodes files), ∀ ns, Way (readNodes files) ep ns → WayExpands ns

/-- The period of the node does not end with its digits. -/
def HasUnit (n : Kbnode) : Prop :=
  (kbnodeGetvalueFirst n.symtab kbnodeKeyPeriod).dropWhile Char.isDigit ≠ []

instance : DecidablePred HasUnit := fun _ => inferInstanceAs (Decidable (_ ≠ _))

/-- Nodes with origins, values that are templates, periods with units, and tables of children that
are large enough. -/
structure Regular (nodes : List Kbnode) : Prop where
  srcdef : ∀ n ∈ nodes, kbnodeGetSrcdef n.symtab ≠ none
  templates : ∀ n ∈ nodes, ∀ key vs, kbsymtabGet n.symtab key = some vs → ∀ v ∈ vs, IsTemplate v
  units : ∀ n ∈ nodes, n.type = .periodic → HasUnit n
  tables : ∀ n ∈ nodes, TableSuffices nodes n.symtab

/-! ### Nodes in another order -/

section Congr

variable {nodes : List Kbnode}

theorem pointsTo_congr (h : ∀ m, m ∈ all ↔ m ∈ nodes) : PointsTo all = PointsTo nodes := by
  funext n m
  simp only [PointsTo, h]

theorem referencesResolve_congr (h : ∀ m, m ∈ all ↔ m ∈ nodes) :
    ReferencesResolve all = ReferencesResolve nodes := by
  funext n
  simp only [ReferencesResolve, h]

theorem way_congr (h : ∀ m, m ∈ all ↔ m ∈ nodes) {ep : Kbnode} {ns : List Kbnode}
    (hway : Way all ep ns) : Way nodes ep ns := by
  induction hway with
  | start => exact .start
  | step _ hpoints ih => exact ih.step (pointsTo_congr h ▸ hpoints)

end Congr

/-- A configuration with the same nodes in another order is as sound. -/
theorem Sound.perm {files' : List FileRead} (hperm : (readNodes files).Perm (readNodes files'))
    (hread : ∀ f ∈ files', f.nerrors = 0) (h : Sound files) : Sound files' := by
  have hmem : ∀ m, m ∈ readNodes files ↔ m ∈ readNodes files' := fun m => hperm.mem_iff
  have hep : ∀ ep, ep ∈ entrypoints (readNodes files') → ep ∈ entrypoints (readNodes files) :=
    fun ep => (mem_entrypoints_congr hmem ep).mpr
  refine ⟨hread, (hperm.map _).nodup_iff.mp h.ids, fun n hn => h.checked n ((hmem n).mpr hn),
    fun ep hep' => ?_, fun ep hep' => ?_, fun ep hep' ns hway => ?_⟩
  · rw [← pointsTo_congr hmem, ← referencesResolve_congr hmem]
    exact h.resolves ep (hep ep hep')
  · rw [← pointsTo_congr hmem]
    exact h.acyclic ep (hep ep hep')
  · exact h.expands ep (hep ep hep') ns (way_congr (fun m => (hmem m).symm) hway)

/-! ### The single passes -/

theorem nodeId_ne_of_cmp {n m : Kbnode} (hn : kbnodeGetSrcdef n.symtab ≠ none)
    (hm : kbnodeGetSrcdef m.symtab ≠ none) :
    kbnodeCmp n m ≠ 0 ↔ nodeId n.symtab ≠ nodeId m.symtab := by
  have hnid := hasId_of_srcdef hn
  have hmid := hasId_of_srcdef hm
  constructor
  · intro hne heq
    exact kbnodeCmp_ne_zero hne _ hnid (heq ▸ hmid)
  · intro hne hzero
    obtain ⟨id, ls, rs, hnget, hmget⟩ := kbnodeCmp_eq_zero.mp hzero
    exact hne ((HasId.nodeId ⟨ls, hnget⟩).trans (HasId.nodeId ⟨rs, hmget⟩).symm)

/-- Nodes are told apart by IDs when none equals another. -/
theorem pairwise_cmp_iff {nodes : List Kbnode}
    (hsrc : ∀ n ∈ nodes, kbnodeGetSrcdef n.symtab ≠ none) :
    nodes.Pairwise (fun n m => kbnodeCmp n m ≠ 0) ↔ (nodes.map fun n => nodeId n.symtab).Nodup := by
  rw [List.Nodup, List.pairwise_map]
  exact List.Pairwise.iff_of_mem fun hn hm => nodeId_ne_of_cmp (hsrc _ hn) (hsrc _ hm)

/-- Nodes that differ are all taken into the set. -/
theorem coalesceNodes_of_pairwise {set nodes : List Kbnode}
    (h : (set ++ nodes).Pairwise fun n m => kbnodeCmp n m ≠ 0) :
    coalesceNodes set nodes = (some (set ++ nodes), 0) := by
  induction nodes generalizing set with
  | nil => simp [coalesceNodes]
  | cons node nodes ih =>
    have hnew : set.find? (fun e => kbnodeCmp e node = 0) = none := by
      refine List.find?_eq_none.mpr fun e he => ?_
      have hne := (List.pairwise_append.mp h).2.2 e he node List.mem_cons_self
      simpa using hne
    have hsplit : set ++ node :: nodes = (set ++ [node]) ++ nodes := by simp
    rw [hsplit] at h
    rw [coalesceNodes, hnew, hsplit]
    exact ih h

theorem kbtreeCoalesce_of_pairwise (L : Libds) {nodes : List Kbnode}
    (h : nodes.Pairwise fun n m => kbnodeCmp n m ≠ 0) :
    (kbtreeCoalesce L nodes).ndups = 0 ∧ (kbtreeCoalesce L nodes).nerrors = 0 := by
  by_cases hnil : nodes = []
  · simp [kbtreeCoalesce, hnil]
  · have hloop : coalesceNodes [] nodes = (some nodes, 0) := coalesceNodes_of_pairwise h
    simp [kbtreeCoalesce, hnil, hloop]

theorem readCounts_of_forall {fs : List FileRead} (h : ∀ f ∈ fs, f.nerrors = 0) :
    (readCounts fs).nerrors = 0 := by
  induction fs with
  | nil => rfl
  | cons f fs ih =>
    obtain ⟨hf, hfs⟩ := List.forall_mem_cons.mp h
    simp only [readCounts]
    split
    · exact ih hfs
    · simp [hf, ih hfs]

/-- What stands behind the end of a text is not looked at when the period has a unit. -/
theorem kbperiodParse_nul {text : CStr} (hunit : text.dropWhile Char.isDigit ≠ [])
    (nul nul' : Bool) : kbperiodParse nul text = kbperiodParse nul' text := by
  have hparse : parseUnit nul (text.dropWhile Char.isDigit) =
      parseUnit nul' (text.dropWhile Char.isDigit) := by
    cases hdrop : text.dropWhile Char.isDigit with
    | nil => exact absurd hdrop hunit
    | cons c rest => cases rest <;> rfl
  simp only [kbperiodParse, hparse]

theorem kbnodeCheck_nul {n : Kbnode} (hunit : n.type = .periodic → HasUnit n) (nul nul' : Bool) :
    kbnodeCheck nul n = kbnodeCheck nul' n := by
  cases htype : n.type with
  | job | entrypoint => simp only [kbnodeCheck, htype]
  | periodic =>
    have hper : ncPeriodic nul n.symtab = ncPeriodic nul' n.symtab := by
      unfold ncPeriodic
      cases hget : kbsymtabGet n.symtab kbnodeKeyPeriod with
      | none => rfl
      | some periods =>
        cases periods with
        | nil => rfl
        | cons period periods =>
          have hunit' := hunit htype
          rw [HasUnit, kbnodeGetvalueFirst, kbsymtabGetString_of_cons hget] at hunit'
          simp only [Option.getD_some, kbperiodParse_nul hunit' nul nul']
    simp only [kbnodeCheck, htype, hper]

theorem checkNodes_of_checked {nodes : List Kbnode} (h : ∀ n ∈ nodes, Checked n)
    (hunits : ∀ n ∈ nodes, n.type = .periodic → HasUnit n) (nul : ℕ → Bool) :
    (checkNodes nul nodes).nerrors = 0 := by
  simp only [checkNodes, List.sum_eq_zero_iff, List.mem_map]
  rintro _ ⟨counts, hcounts, rfl⟩
  obtain ⟨i, hi, rfl⟩ := List.mem_mapIdx.mp hcounts
  obtain ⟨nul', hcheck⟩ := h _ (List.getElem_mem hi)
  rw [kbnodeCheck_nul (hunits _ (List.getElem_mem hi)) (nul i) nul']
  exact hcheck

/-- Where references have targets and there is no cycle, a tree is built. -/
theorem instantiate_of_resolves (hall : WellIdentified all) {ep : Kbnode} (hep : ep ∈ all)
    (hres : ∀ n, ReflTransGen (PointsTo all) ep n → ReferencesResolve all n)
    (hacyclic : ¬ ReachesCycle (PointsTo all) ep) :
    ∃ t, kbnodeInstantiate L ep all = { tree := some t, nerrors := 0 } := by
  have hterm : Terminates (PointsTo all) ep :=
    terminates_of_not_reachesCycle (List.finite_toSet all)
      (fun n hn => mem_of_path (s := {n | n ∈ all}) (fun _ _ h => h.1) hep hn) hacyclic
  let ids : Finset CStr := (all.map fun n => nodeId n.symtab).toFinset
  have hids : ∀ n ∈ all, nodeId n.symtab ∈ ids :=
    fun n hn => List.mem_toFinset.mpr (List.mem_map_of_mem hn)
  have hcard : ids.card ≤ all.length := (List.toFinset_card_le _).trans (by simp)
  have hdepth : depthBound ids [] (nodeId ep.symtab) < instantiateFuel all := by
    rw [depthBound_root, instantiateFuel]
    omega
  obtain ⟨htree, hzero⟩ := succeeds_of_terminates hall hids hep hterm hres (by simp) hdepth
    (kbnodeInstantiate_eq L ep all)
  obtain ⟨t, ht⟩ := Option.isSome_iff_exists.mp htree
  exact ⟨t, by rw [← ht, ← hzero]⟩

theorem instantiateAll_of_forall {eps : List Kbnode} (h : ∀ ep ∈ eps,
    ∃ t, kbnodeInstantiate L ep all = { tree := some t, nerrors := 0 }) :
    (instantiateAll L all eps).2 = 0 := by
  induction eps with
  | nil => rfl
  | cons ep eps ih =>
    obtain ⟨⟨t, ht⟩, hrest⟩ := List.forall_mem_cons.mp h
    simp [instantiateAll, ht, ih hrest]

/-! ### Evaluation -/

theorem Regular.perm {nodes : List Kbnode} (h : all.Perm nodes) (hreg : Regular nodes) :
    Regular all where
  srcdef n hn := hreg.srcdef n (h.mem_iff.mp hn)
  templates n hn := hreg.templates n (h.mem_iff.mp hn)
  units n hn := hreg.units n (h.mem_iff.mp hn)
  tables n hn := (hreg.tables n (h.mem_iff.mp hn)).perm h.symm

theorem Regular.wellIdentified (h : Regular all) (hids : (all.map fun n => nodeId n.symtab).Nodup) :
    WellIdentified all := ⟨hids, h.srcdef⟩

/-- A tree that is built has an origin and templates everywhere. -/
theorem Regular.templateNode (h : Regular all) {ep : Kbnode} (hep : ep ∈ all) {t : KbTree}
    (hbuilt : kbnodeInstantiate L ep all = { tree := some t, nerrors := 0 }) :
    t.Forall TemplateNode [] := by
  intro p up n hn
  obtain ⟨m, hm, hunfolds⟩ := unfolds_at hep hbuilt hn
  refine ⟨?_, fun key vs hvs v hv => ?_⟩
  · have hsrc := h.srcdef m hm
    simpa only [kbnodeGetSrcdef, hunfolds.values] using hsrc
  · rw [hunfolds.values] at hvs
    exact (h.templates m hm key vs hvs v hv).readable

theorem NodeExpands.nodeSettles {up : List Symtab} {n : KbTree} (h : NodeExpands up n) :
    NodeSettles up n := by
  intro key vs hvs
  refine exists_valuesEval_iff.mpr fun pre v post heq _ => ?_
  obtain ⟨s, k, hs⟩ := h key vs hvs v (by simp [heq])
  exact ⟨k, _, hs⟩

/-- A tree of templates is evaluated without errors exactly when all its values have expansions. -/
theorem kbtreeEval_accepts_iff {t : KbTree} {env : Env} (ht : t.Forall TemplateNode []) :
    (∃ r, HaltsWith (kbtreeEval L [] t env) r ∧ r.nerrors = 0) ↔ t.Forall NodeExpands [] := by
  constructor
  · rintro ⟨r, hr, hzero⟩ p up n hn
    obtain ⟨-, hto⟩ := haltsWith_kbtreeEval (by simp) ht hr
    obtain ⟨-, n', -, hR⟩ := (hto.nodes [] p).1 up n hn
    rw [hzero] at hR
    exact hR.nodeExpands
  · intro h
    obtain ⟨r, hr⟩ : Halts (kbtreeEval L [] t env) :=
      (halts_kbtreeEval_iff (by simp) ht).mpr fun p up n hn => (h p up n hn).nodeSettles
    refine ⟨r, hr, ?_⟩
    by_contra hne
    exact (haltsWith_kbtreeEval (by simp) ht hr).2.errors hne h

theorem kbtreeEvalAll_accepts {ts : List KbTree} {env : Env} (ht : ∀ t ∈ ts, t.Forall TemplateNode [])
    (h : ∀ t ∈ ts, t.Forall NodeExpands []) :
    ∃ r, HaltsWith (kbtreeEvalAll L [] ts env) r ∧ r.nerrors = 0 := by
  have hone : ∀ t ∈ ts, ∀ env r, HaltsWith (kbtreeEval L [] t env) r →
      r.env = env ∧ EvaluatesTo [] t r.tree r.nerrors :=
    fun t hmem env r hr => haltsWith_kbtreeEval (by simp) (ht t hmem) hr
  obtain ⟨r, hr⟩ : Halts (kbtreeEvalAll L [] ts env) :=
    (halts_kbtreeEvalAll_iff fun t hmem env r hr => (hone t hmem env r hr).1).mpr fun t hmem =>
      (halts_kbtreeEval_iff (by simp) (ht t hmem)).mpr fun p up n hn =>
        (h t hmem p up n hn).nodeSettles
  refine ⟨r, hr, ?_⟩
  by_contra hne
  obtain ⟨t, hmem, t', n, hto, hn⟩ := (haltsWith_kbtreeEvalAll hone hr).2.2 hne
  exact hto.errors hn (h t hmem)

/-! ### The verdict -/

theorem Passed.sound {trees : List KbTree}
    (h : Passed L files (kbtreeCoalesce L (readNodes files)).nodes trees)
    (hreg : Regular (readNodes files)) : Sound files := by
  have hmem : ∀ m, m ∈ (kbtreeCoalesce L (readNodes files)).nodes ↔ m ∈ readNodes files :=
    fun m => h.collected.mem_iff
  have hreg' := hreg.perm h.collected
  have hids := (pairwise_cmp_iff hreg'.srcdef).mp h.distinct
  have htree : ∀ ep ∈ entrypoints (readNodes files), ∃ t t',
      ep ∈ (kbtreeCoalesce L (readNodes files)).nodes ∧
        TreeOf L (kbtreeCoalesce L (readNodes files)).nodes ep t t' := by
    intro ep hep
    obtain ⟨t, t', ht⟩ := h.treeOf ((mem_entrypoints_congr hmem ep).mpr hep)
    exact ⟨t, t', (hmem ep).mpr (List.mem_of_mem_filter hep), ht⟩
  have hcovers : ∀ ep ∈ entrypoints (readNodes files),
      Terminates (PointsTo (readNodes files)) ep ∧ ∀ n,
        ReflTransGen (PointsTo (readNodes files)) ep n → ReferencesResolve (readNodes files) n := by
    intro ep hep
    obtain ⟨t, t', hepAll, ht⟩ := htree ep hep
    rw [← pointsTo_congr hmem, ← referencesResolve_congr hmem]
    exact resolves_of_builtWithin (hreg'.wellIdentified hids) hepAll ht.builtWithin
  refine ⟨h.read, (h.collected.map _).nodup_iff.mp hids, fun n hn => h.checked n ((hmem n).mpr hn),
    fun ep hep => (hcovers ep hep).2, fun ep hep => (hcovers ep hep).1.not_reachesCycle,
    fun ep hep ns hway => ?_⟩
  obtain ⟨t, t', hepAll, hbuilt, env, env', heval⟩ := htree ep hep
  have hexpands := (kbtreeEval_accepts_iff (hreg'.templateNode hepAll hbuilt)).mp ⟨_, heval, rfl⟩
  exact (forall_nodeExpands_iff hids hepAll hbuilt).mp hexpands ns
    (way_congr (fun m => (hmem m).symm) hway)

theorem Sound.lint (h : Sound files) (hreg : Regular (readNodes files)) (L : Libds)
    (nul : ℕ → Bool) (env : Env) : ∃ r, HaltsWith (Kubeka.lint L nul files env) r ∧ r.nerrors = 0 := by
  have hdistinct := (pairwise_cmp_iff hreg.srcdef).mpr h.ids
  obtain ⟨hndups, hdedup⟩ := kbtreeCoalesce_of_pairwise L hdistinct
  have hperm := (kbtreeCoalesce_distinct hdedup).1
  generalize hset : kbtreeCoalesce L (readNodes files) = dedup at hndups hdedup hperm
  have hmem : ∀ m, m ∈ dedup.nodes ↔ m ∈ readNodes files := fun m => hperm.mem_iff
  have hreg' := hreg.perm hperm
  have hids : (dedup.nodes.map fun n => nodeId n.symtab).Nodup := (hperm.map _).nodup_iff.mpr h.ids
  have heps : ∀ ep ∈ entrypoints dedup.nodes, ep ∈ dedup.nodes ∧
      ∃ t, kbnodeInstantiate L ep dedup.nodes = { tree := some t, nerrors := 0 } := by
    intro ep hep
    have hepAll : ep ∈ dedup.nodes := List.mem_of_mem_filter hep
    have hep' := (mem_entrypoints_congr hmem ep).mp hep
    refine ⟨hepAll, instantiate_of_resolves (hreg'.wellIdentified hids) hepAll ?_ ?_⟩
    · rw [pointsTo_congr hmem, referencesResolve_congr hmem]
      exact h.resolves ep hep'
    · rw [pointsTo_congr hmem]
      exact h.acyclic ep hep'
  have hbuilt := instantiateAll_of_forall fun ep hep => (heps ep hep).2
  have htrees : ∀ t ∈ (instantiateAll L dedup.nodes (entrypoints dedup.nodes)).1,
      t.Forall TemplateNode [] ∧ t.Forall NodeExpands [] := by
    intro t ht
    obtain ⟨ep, hep, hinst⟩ := Lists.forall₂_left_of_mem (instantiateAll_built hbuilt) ht
    have hepAll := (heps ep hep).1
    refine ⟨hreg'.templateNode hepAll hinst, (forall_nodeExpands_iff hids hepAll hinst).mpr ?_⟩
    exact fun ns hway => h.expands ep ((mem_entrypoints_congr hmem ep).mp hep) ns
      (way_congr hmem hway)
  obtain ⟨r, ⟨fuel, hr⟩, hzero⟩ : ∃ r, HaltsWith (kbtreeEvalAll L []
      (instantiateAll L dedup.nodes (entrypoints dedup.nodes)).1 env) r ∧ r.nerrors = 0 :=
    kbtreeEvalAll_accepts (fun t ht => (htrees t ht).1) fun t ht => (htrees t ht).2
  have hchecks := checkNodes_of_checked (fun n hn => h.checked n ((hmem n).mp hn)) hreg'.units nul
  have hlint : ∃ r, Kubeka.lint L nul files env fuel = .ok r ∧ r.nerrors = 0 := by
    simp only [Kubeka.lint, hset, hr, Bind.bind, Except.bind, Pure.pure, Except.pure]
    exact ⟨_, rfl, by simp [readCounts_of_forall h.read, hndups, hdedup, hchecks, hbuilt, hzero]⟩
  obtain ⟨r, hr, hzero⟩ := hlint
  exact ⟨r, ⟨fuel, hr⟩, hzero⟩

/-- In any order of the nodes the linter scans the children that it has stored, and it ends without
errors exactly on the sound configurations. -/
theorem lint_accepts_iff (L : Libds) (nul : ℕ → Bool) (files : List FileRead) (env : Env)
    (hreg : Regular (readNodes files)) :
    (∀ all, all.Perm (readNodes files) → ∀ n ∈ all, ScansChildren all n.symtab) ∧
      ((∃ r, HaltsWith (Kubeka.lint L nul files env) r ∧ r.nerrors = 0) ↔ Sound files) := by
  refine ⟨fun all hall n hn => ((hreg.perm hall).tables n hn).scansChildren, ?_, ?_⟩
  · rintro ⟨r, hr, hzero⟩
    exact (Passed.of_lint hr hzero).sound hreg
  · exact fun h => h.lint hreg L nul env

/-- An entrypoint with a job that uses a variable of it. -/
def greetingNodes : List Kbnode :=
  [⟨.entrypoint, nodeVars "ep" [(kbnodeKeyJobs, ["hi".toList]), ("who".toList, ["you".toList])]⟩,
    ⟨.job, nodeVars "hi" [(kbnodeKeyExec, ["echo $<who>".toList])]⟩]

theorem greetingNodes_regular : Regular greetingNodes := by
  have hplain : ∀ s, IsPlain s → IsTemplate s := fun _ => .plain
  have hexec : IsTemplate ("echo ".toList ++ refText "who".toList ++ "".toList) :=
    .ref (by decide) (by decide) (.plain (by decide))
  refine ⟨by decide, ?_, by decide, ?_⟩
  swap
  · simp only [tableSuffices_iff]
    decide
  simp only [greetingNodes, List.forall_mem_cons]
  refine ⟨forall_values_symtabOf ?_, forall_values_symtabOf ?_, by simp⟩
  · simp only [List.forall_mem_cons]
    refine ⟨⟨hplain _ (by decide), ?_⟩, ⟨hplain _ (by decide), ?_⟩, ⟨hplain _ (by decide), ?_⟩,
      ⟨hplain _ (by decide), ?_⟩, ⟨hplain _ (by decide), ?_⟩, ⟨hplain _ (by decide), ?_⟩, ?_⟩ <;> simp
  · simp only [List.forall_mem_cons]
    refine ⟨⟨hplain _ (by decide), ?_⟩, ⟨hplain _ (by decide), ?_⟩, ⟨hplain _ (by decide), ?_⟩,
      ⟨hplain _ (by decide), ?_⟩, ⟨hexec, ?_⟩, ?_⟩ <;> simp

theorem greetingNodes_accepted : ∃ r, HaltsWith (lint .ordered (fun _ => false)
    [fileOf greetingNodes] fun _ => none) r ∧ r.nerrors = 0 := by
  obtain ⟨r, hr, hzero⟩ := exists_haltsWith
    (f := lint .ordered (fun _ => false) [fileOf greetingNodes] fun _ => none) 3
    (fun r => r.nerrors = 0) (by decide +kernel)
  exact ⟨r, hr, of_decide_eq_true hzero⟩

theorem greetingNodes_sound : Sound [fileOf greetingNodes] :=
  (lint_accepts_iff .ordered (fun _ => false) [fileOf greetingNodes] (fun _ => none)
    greetingNodes_regular).2.mp greetingNodes_accepted

/-- The verdict is the same for the same nodes in any order, from any files, whatever order sets and
tables have, and in any environment. -/
theorem lint_verdict_perm (L L' : Libds) (nul nul' : ℕ → Bool) (files files' : List FileRead)
    (env env' : Env) (hreg : Regular (readNodes files))
    (hperm : (readNodes files).Perm (readNodes files'))
    (hread : (∀ f ∈ files, f.nerrors = 0) ↔ ∀ f ∈ files', f.nerrors = 0) :
    (∃ r, HaltsWith (lint L nul files env) r ∧ r.nerrors = 0) ↔
      ∃ r, HaltsWith (lint L' nul' files' env') r ∧ r.nerrors = 0 := by
  have hreg' : Regular (readNodes files') := hreg.perm hperm.symm
  constructor
  · rintro ⟨r, hr, hzero⟩
    have hsound := (Passed.of_lint hr hzero).sound hreg
    exact (hsound.perm hperm (hread.mp hsound.read)).lint hreg' L' nul' env'
  · rintro ⟨r, hr, hzero⟩
    have hsound := (Passed.of_lint hr hzero).sound hreg'
    exact (hsound.perm hperm.symm (hread.mpr hsound.read)).lint hreg L nul env

theorem greetingNodes_verdict_reversed : ∃ r, HaltsWith (lint .ordered (fun _ => true)
    (greetingNodes.reverse.map fun n => fileOf [n]) fun _ => some []) r ∧ r.nerrors = 0 :=
  (lint_verdict_perm .ordered .ordered (fun _ => false) _ [fileOf greetingNodes]
    (greetingNodes.reverse.map fun n => fileOf [n]) (fun _ => none) _ greetingNodes_regular
    (List.Perm.swap _ _ _) (by simp [fileOf])).mp greetingNodes_accepted

end Kubeka
