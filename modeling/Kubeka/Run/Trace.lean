import Kubeka.Run.Node

/-!
# The trace of a run

The events of a run of a node are those of its children, one block a child,
between its own. From this it follows by induction over the nodes run which
nodes a run gets to, that no event happens twice, and where in the trace of a
run the part of one node stands.
-/

namespace Kubeka

variable (shell : Shell)

/-! ### The children that are run -/

/-- `kbbi_run` at `p` runs the child `c` at the step `s`: a handler of its signals, or, where there
is neither such a handler nor a command, a job with only successful jobs before it. -/
inductive RunsChild (p : Path) (t : KbTree) : Step → KbTree → Prop
  | handler {h i} : kbnodeGetSrcdef t.symtab ≠ none → (h, i) ∈ matching t →
      RunsChild p t (.handler i) h
  | job {job i} : kbnodeGetSrcdef t.symtab ≠ none → matching t = [] → commandsOf t.symtab = [] →
      (job, i) ∈ t.jobs.zipIdx → (∀ j ∈ t.jobs.zipIdx, j.2 < i → jobStatus shell p j = 0) →
      RunsChild p t (.job i) job

/-- A run of `t` at `p` gets to the node `n` at `q`. -/
inductive Visited : Path → KbTree → Path → KbTree → Prop
  | here {p t} : Visited p t p t
  | child {p t s c q n} : RunsChild shell p t s c → Visited (p ++ [s]) c q n → Visited p t q n

variable {shell}

theorem child?_of_mem_jobs {t : KbTree} {j : KbTree × ℕ} (h : j ∈ t.jobs.zipIdx) :
    t.child? (.job j.2) = some j.1 :=
  List.mem_zipIdx_iff_getElem?.mp h

theorem child?_of_mem_matching {t : KbTree} {h : KbTree × ℕ} (hm : h ∈ matching t) :
    t.child? (.handler h.2) = some h.1 :=
  List.mem_zipIdx_iff_getElem?.mp (List.mem_of_mem_filter hm)

theorem RunsChild.child? {p : Path} {t c : KbTree} {s : Step} (h : RunsChild shell p t s c) :
    t.child? s = some c := by
  cases h with
  | handler _ hm => exact child?_of_mem_matching hm
  | job _ _ _ hj _ => exact child?_of_mem_jobs hj

theorem RunsChild.mem {p : Path} {t c : KbTree} {s : Step} (h : RunsChild shell p t s c) :
    c ∈ t.jobs ∨ c ∈ t.handlers := by
  have hc := h.child?
  cases s with
  | job i => exact .inl (List.mem_of_getElem? hc)
  | handler i => exact .inr (List.mem_of_getElem? hc)

/-- What holds of a node once it holds of the children run holds of every node. -/
theorem run_induction (shell : Shell) {P : Path → KbTree → Prop}
    (node : ∀ p t, (∀ s c, RunsChild shell p t s c → P (p ++ [s]) c) → P p t) (p : Path)
    (t : KbTree) : P p t := by
  induction t using KbTree.inductionOn generalizing p with
  | node type st jobs handlers hjobs hhandlers =>
    refine node p _ fun s c hc => ?_
    rcases hc.mem with hmem | hmem
    · exact hjobs c hmem (p ++ [s])
    · exact hhandlers c hmem (p ++ [s])

theorem Visited.at? {p q : Path} {t n : KbTree} (h : Visited shell p t q n) (up : List Symtab) :
    ∃ r up', q = p ++ r ∧ t.at? up r = some (up', n) := by
  induction h generalizing up with
  | here => exact ⟨[], up, by simp, rfl⟩
  | @child p t s c q n hc _ ih =>
    obtain ⟨r, up', hq, hat⟩ := ih (t.symtab :: up)
    refine ⟨s :: r, up', by simp [hq], ?_⟩
    rw [KbTree.at?_cons, hc.child?]
    exact hat

theorem Visited.path_le {p q : Path} {t n : KbTree} (h : Visited shell p t q n) : p <+: q := by
  obtain ⟨r, _, hq, _⟩ := h.at? []
  exact ⟨r, hq.symm⟩

theorem Visited.trans {p q r : Path} {t n m : KbTree} (h : Visited shell p t q n)
    (h' : Visited shell q n r m) : Visited shell p t r m := by
  induction h with
  | here => exact h'
  | child hc _ ih => exact .child hc (ih h')

/-- Every node visited but the first is the child of one. -/
theorem Visited.parent {p q : Path} {t n : KbTree} (h : Visited shell p t q n) :
    (q = p ∧ n = t) ∨ ∃ q' m s, Visited shell p t q' m ∧ RunsChild shell q' m s n ∧ q = q' ++ [s] := by
  induction h with
  | here => exact .inl ⟨rfl, rfl⟩
  | @child p t s c q n hc _ ih =>
    rcases ih with ⟨rfl, rfl⟩ | ⟨q', m, s', hm, hchild, hq⟩
    · exact .inr ⟨p, t, s, .here, hc, rfl⟩
    · exact .inr ⟨q', m, s', .child hc hm, hchild, hq⟩

/-! ### The blocks of a node -/

/-- The trace of a child. -/
def childTrace (shell : Shell) (p : Path) (k : Step × KbTree) : List Event :=
  (kbbiRun shell (p ++ [k.1]) k.2).trace

/-- The events of a rollback. -/
def Event.isRollback : Event → Bool
  | .rollback _ | .action _ _ _ _ => true
  | _ => false

/-- What is between the start and the end of a node: events of its own, the blocks of the children
run and the rollbacks of the jobs among them. -/
structure Blocks (shell : Shell) (p : Path) (t : KbTree) (own : List Event)
    (kids : List (Step × KbTree)) (rolled : List (KbTree × ℕ)) : Prop where
  mem_kids : ∀ s c, (s, c) ∈ kids ↔ RunsChild shell p t s c
  kids_nodup : (kids.map Prod.fst).Nodup
  mem_own : ∀ e, e ∈ own ↔ (kbnodeGetSrcdef t.symtab ≠ none ∧ matching t = []) ∧
    ((∃ c ∈ commandsOf t.symtab, e = commandEvent shell p c) ∨
      (e = .noAction p ∧ commandsOf t.symtab = [] ∧ t.jobs = []))
  own_nodup : own.Nodup
  rolled_kids : ∀ j ∈ rolled, RunsChild shell p t (.job j.2) j.1
  rolled_nodup : (rolled.map Prod.snd).Nodup

/-- Images that tell the positions of a list with distinct positions apart. -/
theorem nodup_map_of_snd {α β : Type} {cs : List (α × ℕ)} (hcs : (cs.map Prod.snd).Nodup)
    {f : α × ℕ → β} (hf : ∀ c d, f c = f d → c.2 = d.2) : (cs.map f).Nodup :=
  (List.Nodup.of_map _ hcs).map_on fun c hc d hd heq =>
    List.inj_on_of_nodup_map hcs hc hd (hf c d heq)

theorem zipIdx_snd_nodup {α : Type} (cs : List α) : (cs.zipIdx.map Prod.snd).Nodup := by
  rw [List.zipIdx_map_snd]
  exact List.nodup_range'

theorem jobs_steps_nodup {cs : List (KbTree × ℕ)} (hcs : (cs.map Prod.snd).Nodup) :
    ((cs.map fun j => (Step.job j.2, j.1)).map Prod.fst).Nodup := by
  rw [List.map_map]
  exact nodup_map_of_snd hcs fun _ _ => Step.job.inj

theorem handlers_steps_nodup {cs : List (KbTree × ℕ)} (hcs : (cs.map Prod.snd).Nodup) :
    ((cs.map fun h => (Step.handler h.2, h.1)).map Prod.fst).Nodup := by
  rw [List.map_map]
  exact nodup_map_of_snd hcs fun _ _ => Step.handler.inj

theorem commands_nodup (p : Path) (st : Symtab) :
    ((commandsOf st).map (commandEvent shell p)).Nodup :=
  nodup_map_of_snd (zipIdx_snd_nodup _) fun _ _ heq => (Event.command.inj heq).2.1

/-- Without handlers and commands, the children run are the jobs up to a first that fails. -/
theorem runsChild_jobs_iff {p : Path} {t : KbTree} (hsrc : kbnodeGetSrcdef t.symtab ≠ none)
    (hm : matching t = []) (hc : commandsOf t.symtab = []) {ran rest : List KbTree}
    (hjobs : t.jobs = ran ++ rest) (s : Step) (c : KbTree)
    (hran : ∀ j ∈ ran.zipIdx, ∀ k ∈ t.jobs.zipIdx, k.2 < j.2 → jobStatus shell p k = 0)
    (hrest : rest ≠ [] → ∃ j ∈ ran.zipIdx, jobStatus shell p j ≠ 0) :
    (s, c) ∈ ran.zipIdx.map (fun j => (Step.job j.2, j.1)) ↔ RunsChild shell p t s c := by
  have hsub : ∀ {j : KbTree × ℕ}, j ∈ ran.zipIdx → j ∈ t.jobs.zipIdx := by
    intro j hj
    rw [hjobs, List.zipIdx_append]
    exact List.mem_append_left _ hj
  constructor
  · intro h
    obtain ⟨j, hj, heq⟩ := List.mem_map.mp h
    obtain ⟨rfl, rfl⟩ := Prod.mk.inj heq
    exact .job hsrc hm hc (hsub hj) fun k hk hlt => hran j hj k hk hlt
  · intro h
    cases h with
    | handler _ hmem => simp [hm] at hmem
    | @job job i _ _ _ hmem hzero =>
      refine List.mem_map.mpr ⟨(c, i), ?_, rfl⟩
      have hget := List.mem_zipIdx_iff_getElem?.mp hmem
      by_cases hi : i < ran.length
      · rw [List.mem_zipIdx_iff_getElem?]
        rwa [hjobs, List.getElem?_append_left hi] at hget
      · -- a job of the rest is run after a job that failed
        have hne : rest ≠ [] := by
          rintro rfl
          simp [hjobs, List.getElem?_eq_none (not_lt.mp hi)] at hget
        obtain ⟨j, hj, hbad⟩ := hrest hne
        have hlt : j.2 < ran.length := by simpa using List.snd_lt_of_mem_zipIdx hj
        exact absurd (hzero j (hsub hj) (lt_of_lt_of_le hlt (not_lt.mp hi))) hbad

theorem RunsChild.srcdef {p : Path} {t : KbTree} {s : Step} {c : KbTree}
    (h : RunsChild shell p t s c) : kbnodeGetSrcdef t.symtab ≠ none := by
  cases h with
  | handler hsrc _ => exact hsrc
  | job hsrc _ _ _ _ => exact hsrc

/-- Where no handler is run, the children run are jobs of a node without commands. -/
theorem RunsChild.jobs {p : Path} {t : KbTree} {s : Step} {c : KbTree}
    (h : RunsChild shell p t s c) (hm : matching t = []) :
    commandsOf t.symtab = [] ∧ t.jobs ≠ [] := by
  cases h with
  | handler _ hmem => simp [hm] at hmem
  | job _ _ hc hmem _ =>
    refine ⟨hc, fun hj => ?_⟩
    simp [hj] at hmem

/-- A node that runs no child has only events of its own. -/
theorem Blocks.of_no_child {p : Path} {t : KbTree} {own : List Event}
    (hno : ∀ s c, ¬ RunsChild shell p t s c)
    (hmem : ∀ e, e ∈ own ↔ (kbnodeGetSrcdef t.symtab ≠ none ∧ matching t = []) ∧
      ((∃ c ∈ commandsOf t.symtab, e = commandEvent shell p c) ∨
        (e = .noAction p ∧ commandsOf t.symtab = [] ∧ t.jobs = [])))
    (hnodup : own.Nodup) : Blocks shell p t own [] [] where
  mem_kids s c := iff_of_false List.not_mem_nil (hno s c)
  kids_nodup := List.nodup_nil
  mem_own := hmem
  own_nodup := hnodup
  rolled_kids := by simp
  rolled_nodup := List.nodup_nil

/-- A node that runs handlers has no events of its own. -/
theorem Blocks.of_handlers {p : Path} {t : KbTree} (hsrc : kbnodeGetSrcdef t.symtab ≠ none)
    (hm : matching t ≠ []) :
    Blocks shell p t [] ((matching t).map fun h => (.handler h.2, h.1)) [] where
  mem_kids s c := by
    constructor
    · intro h
      obtain ⟨⟨h, i⟩, hmem, heq⟩ := List.mem_map.mp h
      obtain ⟨rfl, rfl⟩ := Prod.mk.inj heq
      exact .handler hsrc hmem
    · intro h
      cases h with
      | handler _ hmem => exact List.mem_map.mpr ⟨_, hmem, rfl⟩
      | job _ hnone => exact absurd hnone hm
  kids_nodup := handlers_steps_nodup
    ((List.filter_sublist.map _).nodup (zipIdx_snd_nodup t.handlers))
  mem_own := by simp [hm]
  own_nodup := List.nodup_nil
  rolled_kids := by simp
  rolled_nodup := List.nodup_nil

/-- A node that runs jobs, up to a first that fails, and may then roll some of them back. -/
theorem Blocks.of_jobs {p : Path} {t : KbTree} (hsrc : kbnodeGetSrcdef t.symtab ≠ none)
    (hm : matching t = []) (hc : commandsOf t.symtab = []) {ran rest : List KbTree}
    (hjobs : t.jobs = ran ++ rest) (hne : t.jobs ≠ [])
    (hran : ∀ j ∈ ran.zipIdx, ∀ k ∈ t.jobs.zipIdx, k.2 < j.2 → jobStatus shell p k = 0)
    (hrest : rest ≠ [] → ∃ j ∈ ran.zipIdx, jobStatus shell p j ≠ 0) {rolled : List (KbTree × ℕ)}
    (hrolled : ∀ j ∈ rolled, j ∈ ran.zipIdx) (hnodup : (rolled.map Prod.snd).Nodup) :
    Blocks shell p t [] (ran.zipIdx.map fun j => (.job j.2, j.1)) rolled where
  mem_kids s c := runsChild_jobs_iff hsrc hm hc hjobs s c hran hrest
  kids_nodup := jobs_steps_nodup (zipIdx_snd_nodup ran)
  mem_own := by simp [hc, hne]
  own_nodup := List.nodup_nil
  rolled_kids j hj := (runsChild_jobs_iff hsrc hm hc hjobs _ _ hran hrest).mp
    (List.mem_map.mpr ⟨j, hrolled j hj, rfl⟩)
  rolled_nodup := hnodup

theorem NodeRan.blocks {p : Path} {t : KbTree} {ret : CInt} {mid : List Event}
    (h : NodeRan shell p t ret mid) : ∃ own kids rolled, Blocks shell p t own kids rolled ∧
      mid = own ++ kids.flatMap (childTrace shell p) ++ rolled.flatMap (rollbackTrace shell p) := by
  cases h with
  | noSrcdef hsrc =>
    have hno : ∀ s c, ¬ RunsChild shell p t s c := fun _ _ h => h.srcdef hsrc
    exact ⟨[], [], [], .of_no_child hno (by simp [hsrc]) List.nodup_nil, rfl⟩
  | handlers hsrc hm =>
    refine ⟨[], _, [], .of_handlers hsrc hm, ?_⟩
    simp only [List.nil_append, List.flatMap_nil, List.append_nil, List.flatMap_map]
    rfl
  | commands hsrc hm hc =>
    have hno : ∀ s c, ¬ RunsChild shell p t s c := fun _ _ h => hc (h.jobs hm).1
    refine ⟨(commandsOf t.symtab).map (commandEvent shell p), [], [],
      .of_no_child hno (fun e => ?_) (commands_nodup p t.symtab), by simp⟩
    simp only [List.mem_map, hsrc, hm, hc, ne_eq, not_false_eq_true, true_and, false_and, and_false,
      or_false]
    exact exists_congr fun c => and_congr Iff.rfl eq_comm
  | jobs hsrc hm hc hj hzero =>
    refine ⟨[], _, [], .of_jobs hsrc hm hc (List.append_nil _).symm hj
      (fun _ _ k hk _ => hzero k hk) (absurd rfl) (by simp) List.nodup_nil, ?_⟩
    simp only [List.nil_append, List.flatMap_nil, List.append_nil, List.flatMap_map]
    rfl
  | @jobFailed pre job post hsrc hm hc hj hzero hbad =>
    have hsplit : t.jobs = (pre ++ [job]) ++ post := by simp [hj]
    have hbefore : ∀ j ∈ (pre ++ [job]).zipIdx, ∀ k ∈ t.jobs.zipIdx, k.2 < j.2 →
        jobStatus shell p k = 0 := by
      intro j hmem k hk hlt
      have hle : j.2 < pre.length + 1 := by simpa using List.snd_lt_of_mem_zipIdx hmem
      exact hzero k (mem_zipIdx_left hj hk (by omega))
    have hrolled : ((pre ++ [job]).zipIdx.reverse.map Prod.snd).Nodup := by
      rw [List.map_reverse, List.nodup_reverse]
      exact zipIdx_snd_nodup _
    refine ⟨[], _, _, .of_jobs hsrc hm hc hsplit (by simp [hj]) hbefore
      (fun _ => ⟨(job, pre.length), by simp [List.zipIdx_append], hbad⟩)
      (fun _ => List.mem_reverse.mp) hrolled, ?_⟩
    simp only [List.nil_append, List.flatMap_map]
    rfl
  | nothing hsrc hm hc hj =>
    have hno : ∀ s c, ¬ RunsChild shell p t s c := fun _ _ h => (h.jobs hm).2 hj
    exact ⟨[.noAction p], [], [],
      .of_no_child hno (by simp [hsrc, hm, hc, hj]) (List.nodup_singleton _), by simp⟩

theorem Blocks.own_eq {p : Path} {t : KbTree} {own : List Event} {kids : List (Step × KbTree)}
    {rolled : List (KbTree × ℕ)} (h : Blocks shell p t own kids rolled) :
    ∀ e ∈ own, (∃ i cmd rc, e = .command p i cmd rc) ∨ e = .noAction p := by
  intro e he
  rcases ((h.mem_own e).mp he).2 with ⟨c, -, rfl⟩ | ⟨rfl, -⟩
  · exact .inl ⟨_, _, _, rfl⟩
  · exact .inr rfl

theorem kbbiRun_blocks (shell : Shell) (p : Path) (t : KbTree) :
    ∃ own kids rolled, Blocks shell p t own kids rolled ∧ (kbbiRun shell p t).trace =
      .start p :: (own ++ kids.flatMap (childTrace shell p) ++
        rolled.flatMap (rollbackTrace shell p)) ++ [.finish p (exitStatus shell p t)] := by
  obtain ⟨mid, hran, htrace⟩ := kbbiRun_spec shell p t
  obtain ⟨own, kids, rolled, hblocks, rfl⟩ := hran.blocks
  exact ⟨own, kids, rolled, hblocks, htrace⟩

theorem rollbackTrace_eq (shell : Shell) (p : Path) (j : KbTree × ℕ) : rollbackTrace shell p j =
      .rollback (p ++ [.job j.2]) :: (rollbackTrace shell p j).tail ∧
    ∀ e ∈ (rollbackTrace shell p j).tail, ∃ i cmd rc, e = .action (p ++ [.job j.2]) i cmd rc := by
  rw [rollbackTrace, kbbiRollback]
  split
  · simp
  · split
    · simp
    · simp
    · refine ⟨rfl, fun e he => ?_⟩
      obtain ⟨i, hi, rfl⟩ := List.mem_mapIdx.mp he
      exact ⟨_, _, _, rfl⟩

theorem mem_rollbackTrace {p : Path} {j : KbTree × ℕ} {e : Event}
    (h : e ∈ rollbackTrace shell p j) : e.path = p ++ [.job j.2] ∧ e.isRollback = true := by
  obtain ⟨heq, htail⟩ := rollbackTrace_eq shell p j
  rw [heq] at h
  rcases List.mem_cons.mp h with rfl | h
  · exact ⟨rfl, rfl⟩
  · obtain ⟨i, cmd, rc, rfl⟩ := htail e h
    exact ⟨rfl, rfl⟩

theorem rollbackTrace_nodup (p : Path) (j : KbTree × ℕ) : (rollbackTrace shell p j).Nodup := by
  rw [rollbackTrace, kbbiRollback]
  split
  · simp
  · split
    · simp
    · simp
    · refine List.nodup_cons.mpr ⟨by simp [List.mem_mapIdx], ?_⟩
      rw [List.mapIdx_eq_zipIdx_map]
      exact nodup_map_of_snd (zipIdx_snd_nodup _) fun _ _ heq => (Event.action.inj heq).2.1

/-! ### Places of the events -/

theorem step_unique {p r : Path} {s s' : Step} (h : p ++ [s] <+: r) (h' : p ++ [s'] <+: r) :
    s = s' := by
  have heq := (List.prefix_of_prefix_length_le h h' (by simp)).eq_of_length (by simp)
  simpa using heq

theorem not_step_below (p : Path) (s : Step) : ¬ p ++ [s] <+: p := by
  intro h
  simpa using h.length_le

/-- An event of a run is one of the node itself, of a child or of the rollback of a job. -/
theorem trace_cases {p : Path} {t : KbTree} {e : Event} (h : e ∈ (kbbiRun shell p t).trace) :
    (e.path = p ∧ e.isRollback = false) ∨
      (∃ s c, RunsChild shell p t s c ∧ e ∈ (kbbiRun shell (p ++ [s]) c).trace) ∨
      ∃ i c, RunsChild shell p t (.job i) c ∧ e ∈ rollbackTrace shell p (c, i) := by
  obtain ⟨own, kids, rolled, hblocks, htrace⟩ := kbbiRun_blocks shell p t
  simp only [htrace, List.cons_append, List.mem_cons, List.mem_append, List.mem_flatMap,
    List.not_mem_nil, or_false] at h
  rcases h with rfl | ((hown | ⟨⟨s, c⟩, hk, he⟩) | ⟨⟨c, i⟩, hj, he⟩) | rfl
  · exact .inl ⟨rfl, rfl⟩
  · rcases hblocks.own_eq e hown with ⟨i, cmd, rc, rfl⟩ | rfl <;> exact .inl ⟨rfl, rfl⟩
  · exact .inr (.inl ⟨s, c, (hblocks.mem_kids s c).mp hk, he⟩)
  · exact .inr (.inr ⟨i, c, hblocks.rolled_kids _ hj, he⟩)
  · exact .inl ⟨rfl, rfl⟩

/-- The events of a run are about the node and those below; its rollback is up to its parent. -/
theorem trace_path (shell : Shell) (p : Path) (t : KbTree) :
    ∀ e ∈ (kbbiRun shell p t).trace, p <+: e.path ∧ (e.isRollback = true → e.path ≠ p) := by
  induction p, t using run_induction shell with
  | node p t ih =>
    intro e he
    rcases trace_cases he with ⟨rfl, hnot⟩ | ⟨s, c, hc, hmem⟩ | ⟨i, c, hc, hmem⟩
    · exact ⟨List.prefix_refl _, fun h => absurd h (by simp [hnot])⟩
    · obtain ⟨hpre, -⟩ := ih s c hc e hmem
      refine ⟨(List.prefix_append p [s]).trans hpre, fun _ heq => ?_⟩
      rw [heq] at hpre
      exact not_step_below p s hpre
    · obtain ⟨hpath, -⟩ := mem_rollbackTrace hmem
      rw [hpath]
      exact ⟨List.prefix_append _ _, fun _ heq => by simpa using congrArg List.length heq⟩

/-- The events between the start and the end of a node that are not its own are about nodes
below. -/
theorem Blocks.below {p : Path} {t : KbTree} {own : List Event} {kids : List (Step × KbTree)}
    {rolled : List (KbTree × ℕ)} (_ : Blocks shell p t own kids rolled) {e : Event}
    (h : e ∈ kids.flatMap (childTrace shell p) ++ rolled.flatMap (rollbackTrace shell p)) :
    p <+: e.path ∧ e.path ≠ p := by
  rcases List.mem_append.mp h with h | h
  · obtain ⟨k, -, hmem⟩ := List.mem_flatMap.mp h
    have hpre := (trace_path shell (p ++ [k.1]) k.2 e hmem).1
    exact ⟨(List.prefix_append p _).trans hpre, fun heq => not_step_below p k.1 (heq ▸ hpre)⟩
  · obtain ⟨j, -, hmem⟩ := List.mem_flatMap.mp h
    rw [(mem_rollbackTrace hmem).1]
    exact ⟨List.prefix_append p _, by simp⟩

/-- The block of a child: before it nothing is about the nodes it runs, and after it only the
rollback of the child is. -/
theorem RunsChild.block {p : Path} {t c : KbTree} {s : Step} (h : RunsChild shell p t s c) :
    ∃ a b, (kbbiRun shell p t).trace = a ++ (kbbiRun shell (p ++ [s]) c).trace ++ b ∧
      (∀ e ∈ a, ¬ p ++ [s] <+: e.path) ∧
      (∀ e ∈ b, p ++ [s] <+: e.path → e.path = p ++ [s] ∧ e.isRollback = true) ∧
      .start p ∈ a ∧ .finish p (exitStatus shell p t) ∈ b := by
  obtain ⟨own, kids, rolled, hblocks, htrace⟩ := kbbiRun_blocks shell p t
  obtain ⟨k₁, k₂, hkids⟩ := List.append_of_mem ((hblocks.mem_kids s c).mpr h)
  have hnodup := hblocks.kids_nodup
  rw [hkids, List.map_append, List.map_cons, List.nodup_middle, List.nodup_cons] at hnodup
  have hother : ∀ k, k ∈ k₁ ∨ k ∈ k₂ → ∀ e ∈ childTrace shell p k, ¬ p ++ [s] <+: e.path := by
    intro k hk e he hpre
    have hs := step_unique hpre (trace_path shell _ k.2 e he).1
    apply hnodup.1
    rw [← List.map_append]
    exact List.mem_map.mpr ⟨k, List.mem_append.mpr hk, hs.symm⟩
  refine ⟨.start p :: own ++ k₁.flatMap (childTrace shell p),
    k₂.flatMap (childTrace shell p) ++ rolled.flatMap (rollbackTrace shell p) ++
      [.finish p (exitStatus shell p t)], ?_, ?_, ?_, by simp, by simp⟩
  · rw [htrace, hkids]
    simp [childTrace]
  · intro e he hpre
    simp only [List.cons_append, List.mem_cons, List.mem_append, List.mem_flatMap] at he
    rcases he with rfl | hown | ⟨k, hk, he⟩
    · exact not_step_below p s hpre
    · rcases hblocks.own_eq e hown with ⟨i, cmd, rc, rfl⟩ | rfl <;> exact not_step_below p s hpre
    · exact hother k (.inl hk) e he hpre
  · intro e he hpre
    simp only [List.mem_append, List.mem_flatMap, List.mem_singleton] at he
    rcases he with (⟨k, hk, he⟩ | ⟨j, hj, he⟩) | rfl
    · exact absurd hpre (hother k (.inr hk) e he)
    · obtain ⟨hpath, hrb⟩ := mem_rollbackTrace he
      rw [hpath] at hpre ⊢
      exact ⟨by rw [step_unique hpre (List.prefix_refl _)], hrb⟩
    · exact absurd hpre (not_step_below p s)

/-- The block of a node that a run gets to. -/
theorem Visited.block {p q : Path} {t n : KbTree} (h : Visited shell p t q n) :
    ∃ a b, (kbbiRun shell p t).trace = a ++ (kbbiRun shell q n).trace ++ b ∧
      (∀ e ∈ a, ¬ q <+: e.path) ∧
      ∀ e ∈ b, q <+: e.path → e.path = q ∧ e.isRollback = true := by
  induction h with
  | here => exact ⟨[], [], by simp, by simp, by simp⟩
  | @child p t s c q n hc hv ih =>
    obtain ⟨a, b, htrace, ha, hb, -, -⟩ := hc.block
    obtain ⟨a', b', htrace', ha', hb'⟩ := ih
    refine ⟨a ++ a', b' ++ b, by simp [htrace, htrace'], ?_, ?_⟩
    · intro e he hpre
      rcases List.mem_append.mp he with he | he
      · exact ha e he (hv.path_le.trans hpre)
      · exact ha' e he hpre
    · intro e he hpre
      rcases List.mem_append.mp he with he | he
      · exact hb' e he hpre
      · obtain ⟨hpath, hrb⟩ := hb e he (hv.path_le.trans hpre)
        rw [hpath] at hpre ⊢
        exact ⟨(hv.path_le.eq_of_length_le hpre.length_le), hrb⟩

theorem Visited.subset {p q : Path} {t n : KbTree} (h : Visited shell p t q n) :
    (kbbiRun shell q n).trace ⊆ (kbbiRun shell p t).trace := by
  obtain ⟨a, b, htrace, -, -⟩ := h.block
  rw [htrace]
  intro e he
  simp [he]

theorem start_mem_trace (p : Path) (t : KbTree) : .start p ∈ (kbbiRun shell p t).trace := by
  obtain ⟨own, kids, rolled, -, htrace⟩ := kbbiRun_blocks shell p t
  simp [htrace]

/-- The events of a run other than rollbacks are those of the nodes it gets to. -/
theorem Visited.of_mem_trace {p : Path} {t : KbTree} {e : Event}
    (h : e ∈ (kbbiRun shell p t).trace) (hrb : e.isRollback = false) :
    ∃ n, Visited shell p t e.path n := by
  induction p, t using run_induction shell with
  | node p t ih =>
    rcases trace_cases h with ⟨rfl, -⟩ | ⟨s, c, hc, hmem⟩ | ⟨i, c, hc, hmem⟩
    · exact ⟨t, .here⟩
    · obtain ⟨n, hn⟩ := ih s c hc hmem
      exact ⟨n, .child hc hn⟩
    · simp [(mem_rollbackTrace hmem).2] at hrb

/-- A rollback is one of a job that the run got to. -/
theorem Visited.of_mem_rollback {p : Path} {t : KbTree} {e : Event}
    (h : e ∈ (kbbiRun shell p t).trace) (hrb : e.isRollback = true) :
    ∃ q n i c, Visited shell p t q n ∧ RunsChild shell q n (.job i) c ∧
      e ∈ rollbackTrace shell q (c, i) := by
  induction p, t using run_induction shell with
  | node p t ih =>
    rcases trace_cases h with ⟨-, hnot⟩ | ⟨s, c, hc, hmem⟩ | ⟨i, c, hc, hmem⟩
    · simp [hnot] at hrb
    · obtain ⟨q, n, i, d, hn, hd, he⟩ := ih s c hc hmem
      exact ⟨q, n, i, d, .child hc hn, hd, he⟩
    · exact ⟨p, t, i, c, .here, hc, hmem⟩

/-- What a run says about a node it gets to, the run of that node says. -/
theorem Visited.mem_trace_iff {p : Path} {t n : KbTree} {e : Event}
    (h : Visited shell p t e.path n) (hrb : e.isRollback = false) :
    e ∈ (kbbiRun shell p t).trace ↔ e ∈ (kbbiRun shell e.path n).trace := by
  obtain ⟨a, b, htrace, ha, hb⟩ := h.block
  refine ⟨fun he => ?_, fun he => h.subset he⟩
  rw [htrace] at he
  rcases List.mem_append.mp he with he | he
  · rcases List.mem_append.mp he with he | he
    · exact absurd (List.prefix_refl _) (ha e he)
    · exact he
  · simp [(hb e he (List.prefix_refl _)).2] at hrb

/-- The events of its own in the run of a node. -/
theorem own_event_iff {p : Path} {t : KbTree} {e : Event} (hpath : e.path = p)
    (hstart : e ≠ .start p) (hfinish : ∀ ret, e ≠ .finish p ret) :
    e ∈ (kbbiRun shell p t).trace ↔ (kbnodeGetSrcdef t.symtab ≠ none ∧ matching t = []) ∧
      ((∃ c ∈ commandsOf t.symtab, e = commandEvent shell p c) ∨
        (e = .noAction p ∧ commandsOf t.symtab = [] ∧ t.jobs = [])) := by
  obtain ⟨own, kids, rolled, hblocks, htrace⟩ := kbbiRun_blocks shell p t
  have hbelow : e ∉ kids.flatMap (childTrace shell p) ++ rolled.flatMap (rollbackTrace shell p) :=
    fun h => (hblocks.below h).2 hpath
  rw [← hblocks.mem_own, htrace, List.append_assoc own]
  generalize kids.flatMap (childTrace shell p) ++ _ = below at hbelow
  simp [hstart, hfinish, hbelow]

theorem command_mem_trace {p q : Path} {t : KbTree} {i : ℕ} {cmd : CStr} {rc : CInt} :
    .command q i cmd rc ∈ (kbbiRun shell p t).trace ↔ ∃ n, Visited shell p t q n ∧
      kbnodeGetSrcdef n.symtab ≠ none ∧ matching n = [] ∧ (cmd, i) ∈ commandsOf n.symtab ∧
      rc = shell q kbnodeKeyExec i := by
  have hown : ∀ n : KbTree, .command q i cmd rc ∈ (kbbiRun shell q n).trace ↔
      kbnodeGetSrcdef n.symtab ≠ none ∧ matching n = [] ∧ (cmd, i) ∈ commandsOf n.symtab ∧
        rc = shell q kbnodeKeyExec i := by
    intro n
    rw [own_event_iff (p := q) rfl (by simp) (by simp)]
    constructor
    · rintro ⟨⟨hsrc, hm⟩, ⟨c, hc, heq⟩ | ⟨heq, -⟩⟩
      · simp only [commandEvent, Event.command.injEq, true_and] at heq
        obtain ⟨rfl, rfl, rfl⟩ := heq
        exact ⟨hsrc, hm, hc, rfl⟩
      · simp at heq
    · rintro ⟨hsrc, hm, hc, rfl⟩
      exact ⟨⟨hsrc, hm⟩, .inl ⟨_, hc, rfl⟩⟩
  constructor
  · intro h
    obtain ⟨n, hn⟩ := Visited.of_mem_trace h rfl
    exact ⟨n, hn, (hown n).mp ((Visited.mem_trace_iff hn rfl).mp h)⟩
  · rintro ⟨n, hn, h⟩
    exact hn.subset ((hown n).mpr h)

/-- A run gets to one node at a place. -/
theorem Visited.unique {p q : Path} {t n m : KbTree} (h : Visited shell p t q n)
    (h' : Visited shell p t q m) : n = m := by
  obtain ⟨r, up, hq, hat⟩ := h.at? []
  obtain ⟨r', up', hq', hat'⟩ := h'.at? []
  obtain rfl : r = r' := List.append_cancel_left (hq.symm.trans hq')
  exact (Prod.mk.inj (Option.some.inj (hat.symm.trans hat'))).2

theorem Visited.exists_at {q : Path} {t n : KbTree} (h : Visited shell [] t q n) :
    ∃ up, t.at? [] q = some (up, n) := by
  obtain ⟨r, up, hq, hat⟩ := h.at? []
  obtain rfl : r = q := by simpa using hq.symm
  exact ⟨up, hat⟩

/-- The node at a place that a run gets to. -/
theorem Visited.eq_of_at? {q : Path} {t n m : KbTree} {up : List Symtab}
    (h : Visited shell [] t q n) (hat : t.at? [] q = some (up, m)) : n = m := by
  obtain ⟨up', hat'⟩ := h.exists_at
  exact (Prod.mk.inj (Option.some.inj (hat'.symm.trans hat))).2

/-- A child that a run starts is run by its node. -/
theorem Visited.of_child_start {p q : Path} {t : KbTree} {s : Step} (hp : p <+: q)
    (h : .start (q ++ [s]) ∈ (kbbiRun shell p t).trace) :
    ∃ n c, Visited shell p t q n ∧ RunsChild shell q n s c := by
  obtain ⟨n, hn⟩ := Visited.of_mem_trace h rfl
  rcases hn.parent with ⟨heq, -⟩ | ⟨q', m, s', hm, hc, heq⟩
  · have hlen := hp.length_le
    rw [← heq] at hlen
    simp [Event.path] at hlen
  · obtain ⟨rfl, hs⟩ := List.append_inj' heq (by simp)
    obtain rfl := (List.cons.inj hs).1
    exact ⟨m, n, hm, hc⟩

theorem Visited.start_child_iff {p q : Path} {t n : KbTree} {s : Step}
    (h : Visited shell p t q n) :
    .start (q ++ [s]) ∈ (kbbiRun shell p t).trace ↔ ∃ c, RunsChild shell q n s c := by
  constructor
  · intro hmem
    obtain ⟨m, c, hm, hc⟩ := Visited.of_child_start h.path_le hmem
    obtain rfl := hm.unique h
    exact ⟨c, hc⟩
  · rintro ⟨c, hc⟩
    exact (h.trans (.child hc .here)).subset (start_mem_trace _ c)

theorem Visited.noAction_mem_iff {p q : Path} {t n : KbTree} (h : Visited shell p t q n) :
    .noAction q ∈ (kbbiRun shell p t).trace ↔ kbnodeGetSrcdef n.symtab ≠ none ∧
      matching n = [] ∧ commandsOf n.symtab = [] ∧ n.jobs = [] := by
  have hown : .noAction q ∈ (kbbiRun shell p t).trace ↔ .noAction q ∈ (kbbiRun shell q n).trace :=
    Visited.mem_trace_iff h rfl
  rw [hown, own_event_iff (p := q) rfl (by simp) (by simp)]
  simp [commandEvent, and_assoc]

/-! ### Nothing happens twice -/

theorem Blocks.kids_traces_nodup {p : Path} {t : KbTree} {own : List Event}
    {kids : List (Step × KbTree)} {rolled : List (KbTree × ℕ)}
    (h : Blocks shell p t own kids rolled)
    (ih : ∀ k ∈ kids, (childTrace shell p k).Nodup) :
    (kids.flatMap (childTrace shell p)).Nodup := by
  refine List.nodup_flatMap.mpr ⟨ih, (List.pairwise_map.mp h.kids_nodup).imp fun {k l} hne => ?_⟩
  intro e hk hl
  exact hne (step_unique (trace_path shell _ k.2 e hk).1 (trace_path shell _ l.2 e hl).1)

theorem Blocks.rolled_traces_nodup {p : Path} {t : KbTree} {own : List Event}
    {kids : List (Step × KbTree)} {rolled : List (KbTree × ℕ)}
    (h : Blocks shell p t own kids rolled) : (rolled.flatMap (rollbackTrace shell p)).Nodup := by
  refine List.nodup_flatMap.mpr ⟨fun j _ => rollbackTrace_nodup p j,
    (List.pairwise_map.mp h.rolled_nodup).imp fun {j k} hne => ?_⟩
  intro e hj hk
  have hpath := (mem_rollbackTrace hj).1.symm.trans (mem_rollbackTrace hk).1
  exact hne (by simpa using hpath)

theorem trace_nodup (shell : Shell) (p : Path) (t : KbTree) : (kbbiRun shell p t).trace.Nodup := by
  induction p, t using run_induction shell with
  | node p t ih =>
    obtain ⟨own, kids, rolled, hblocks, htrace⟩ := kbbiRun_blocks shell p t
    have hkid : ∀ k ∈ kids, ∀ e ∈ childTrace shell p k, p ++ [k.1] <+: e.path ∧
        (e.isRollback = true → e.path ≠ p ++ [k.1]) :=
      fun k _ e he => trace_path shell (p ++ [k.1]) k.2 e he
    have hparts : (kids.flatMap (childTrace shell p) ++
        rolled.flatMap (rollbackTrace shell p)).Nodup := by
      refine List.nodup_append.mpr ⟨hblocks.kids_traces_nodup fun k hk =>
        ih _ _ ((hblocks.mem_kids _ _).mp hk), hblocks.rolled_traces_nodup, ?_⟩
      rintro e he _ hr rfl
      obtain ⟨k, hk, hmem⟩ := List.mem_flatMap.mp he
      obtain ⟨j, hj, hrb⟩ := List.mem_flatMap.mp hr
      obtain ⟨hpre, hnot⟩ := hkid k hk e hmem
      obtain ⟨hpath, htrue⟩ := mem_rollbackTrace hrb
      rw [hpath] at hpre hnot
      exact hnot htrue (by rw [step_unique hpre (List.prefix_refl _)])
    have hmid : (own ++ (kids.flatMap (childTrace shell p) ++
        rolled.flatMap (rollbackTrace shell p))).Nodup := by
      refine List.nodup_append.mpr ⟨hblocks.own_nodup, hparts, ?_⟩
      rintro e he _ hr rfl
      rcases hblocks.own_eq e he with ⟨i, cmd, rc, rfl⟩ | rfl <;> exact (hblocks.below hr).2 rfl
    have hend : ∀ e, e ∈ own ++ (kids.flatMap (childTrace shell p) ++
        rolled.flatMap (rollbackTrace shell p)) → e ≠ .start p ∧
          e ≠ .finish p (exitStatus shell p t) := by
      intro e he
      rcases List.mem_append.mp he with he | he
      · rcases hblocks.own_eq e he with ⟨i, cmd, rc, rfl⟩ | rfl <;> simp
      · have hne := (hblocks.below he).2
        exact ⟨fun h => hne (by rw [h]; rfl), fun h => hne (by rw [h]; rfl)⟩
    rw [htrace, List.append_assoc, List.cons_append, List.nodup_cons, List.nodup_append]
    refine ⟨?_, hmid, by simp, ?_⟩
    · intro h
      rcases List.mem_append.mp h with h | h
      · exact (hend _ h).1 rfl
      · simp at h
    · rintro e he _ hf rfl
      exact (hend e he).2 (List.mem_singleton.mp hf)

theorem Visited.sublist {p q : Path} {t n : KbTree} (h : Visited shell p t q n) :
    (kbbiRun shell q n).trace.Sublist (kbbiRun shell p t).trace := by
  obtain ⟨a, b, htrace, -, -⟩ := h.block
  rw [htrace, List.append_assoc]
  exact (List.sublist_append_left _ b).trans (List.sublist_append_right a _)

/-- What is rolled back has been started before. -/
theorem rollback_after_start {p q : Path} {t : KbTree}
    (h : .rollback q ∈ (kbbiRun shell p t).trace) :
    [.start q, .rollback q].Sublist (kbbiRun shell p t).trace := by
  induction p, t using run_induction shell with
  | node p t ih =>
    obtain ⟨own, kids, rolled, hblocks, htrace⟩ := kbbiRun_blocks shell p t
    have hmem := h
    simp only [htrace, List.cons_append, List.mem_cons, List.mem_append, List.mem_flatMap,
      List.not_mem_nil, or_false, reduceCtorEq, false_or] at hmem
    rcases hmem with (hown | ⟨⟨s, c⟩, hk, he⟩) | ⟨j, hj, he⟩
    · rcases hblocks.own_eq _ hown with ⟨i, cmd, rc, heq⟩ | heq <;> simp at heq
    · have hc := (hblocks.mem_kids s c).mp hk
      exact (ih s c hc he).trans (Visited.child hc .here).sublist
    · have hq : q = p ++ [.job j.2] := (mem_rollbackTrace he).1
      have hstart : .start q ∈ own ++ kids.flatMap (childTrace shell p) := by
        refine List.mem_append_right _ (List.mem_flatMap.mpr ⟨(.job j.2, j.1), ?_, ?_⟩)
        · exact (hblocks.mem_kids _ _).mpr (hblocks.rolled_kids j hj)
        · rw [hq]
          exact start_mem_trace _ j.1
      have hroll : .rollback q ∈ rolled.flatMap (rollbackTrace shell p) :=
        List.mem_flatMap.mpr ⟨j, hj, he⟩
      rw [htrace]
      exact (((List.singleton_sublist.mpr hstart).append (List.singleton_sublist.mpr hroll)).cons
        _).trans (List.sublist_append_left _ _)

end Kubeka
