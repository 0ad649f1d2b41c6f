import Kubeka.Config.Actions
import Kubeka.Eval.Reading

/-!
# Signals between the lint and the run

A handler is attached to a node when their values match as they were read, and
it is run when they match after evaluation, each in the scope of its own node.
The handlers run are all that were attached just when the second match never
fails.
-/

namespace Kubeka

open Fuel

variable {shell : Shell}

/-! ### The handlers of a run -/

def isHandlerOf (q p : Path) : Bool :=
  match p.getLast? with
  | some (.handler _) => p.dropLast = q
  | _ => false

theorem isHandlerOf_iff {q p : Path} : isHandlerOf q p = true ↔ ∃ i, p = q ++ [.handler i] := by
  induction p using List.reverseRecOn with
  | nil => simp [isHandlerOf]
  | append_singleton p s _ =>
    cases s with
    | job i => simp [isHandlerOf]
    | handler i => simp [isHandlerOf]

/-- The start of a handler of the node at `q`. -/
def Event.startsHandler (q : Path) : Event → Bool
  | .start p => isHandlerOf q p
  | _ => false

def handlerStart (q : Path) (h : KbTree × ℕ) : Event := .start (q ++ [.handler h.2])

theorem Event.startsHandler_iff {q : Path} {e : Event} :
    e.startsHandler q = true ↔ ∃ i, e = .start (q ++ [.handler i]) := by
  cases e with
  | start p => simp [startsHandler, isHandlerOf_iff]
  | command | noAction | finish | rollback | action => simp [startsHandler]

/-- Of the run of a handler only its start is one. -/
theorem handlerTrace_startsHandler (q : Path) (h : KbTree × ℕ) :
    (handlerTrace shell q h).filter (Event.startsHandler q) = [handlerStart q h] := by
  obtain ⟨mid, -, htrace⟩ := kbbiRun_spec shell (q ++ [.handler h.2]) h.1
  have hnodup := trace_nodup shell (q ++ [.handler h.2]) h.1
  have hpath := trace_path shell (q ++ [.handler h.2]) h.1
  rw [htrace, List.cons_append] at hnodup hpath
  have hrest : (mid ++ [Event.finish (q ++ [.handler h.2])
      (exitStatus shell (q ++ [.handler h.2]) h.1)]).filter (Event.startsHandler q) = [] := by
    refine List.filter_eq_nil_iff.mpr fun e he hstart => ?_
    obtain ⟨i, rfl⟩ := Event.startsHandler_iff.mp hstart
    have hpre := (hpath _ (List.mem_cons_of_mem _ he)).1
    have hstep : Step.handler h.2 = .handler i := step_unique hpre (List.prefix_refl _)
    exact (List.nodup_cons.mp hnodup).1 (hstep ▸ he)
  have hhead : Event.startsHandler q (.start (q ++ [.handler h.2])) = true :=
    Event.startsHandler_iff.mpr ⟨_, rfl⟩
  rw [handlerTrace, htrace, List.cons_append, List.filter_cons_of_pos hhead, hrest]
  rfl

/-- Neither the start nor the end of a node starts a handler of it. -/
theorem startsHandler_node (q : Path) (mid : List Event) (ret : CInt) :
    (Event.start q :: mid ++ [Event.finish q ret]).filter (Event.startsHandler q) =
      mid.filter (Event.startsHandler q) := by
  have hself : isHandlerOf q q = false := by
    rw [← Bool.not_eq_true, isHandlerOf_iff]
    rintro ⟨i, hi⟩
    simp at hi
  simp [Event.startsHandler, hself]

/-- At a node the handlers of its signals are started, one after the other. -/
theorem Visited.handlerStarts {q : Path} {t n : KbTree} (h : Visited shell [] t q n)
    (hsrc : kbnodeGetSrcdef n.symtab ≠ none) :
    (kbbiRun shell [] t).trace.filter (Event.startsHandler q) =
      (matching n).map (handlerStart q) := by
  by_cases hm : matching n = []
  · rw [hm, List.map_nil]
    refine List.filter_eq_nil_iff.mpr fun e he hstart => ?_
    obtain ⟨i, rfl⟩ := Event.startsHandler_iff.mp hstart
    obtain ⟨c, hc⟩ := h.start_child_iff.mp he
    cases hc with
    | handler _ hmem => simp [hm] at hmem
  · obtain ⟨a, b, htrace, ha, hb⟩ := h.block
    have houtside : ∀ l : List Event, (∀ e ∈ l, q <+: e.path → e.path = q) →
        l.filter (Event.startsHandler q) = [] := by
      intro l hl
      refine List.filter_eq_nil_iff.mpr fun e he hstart => ?_
      obtain ⟨i, rfl⟩ := Event.startsHandler_iff.mp hstart
      simpa [Event.path] using hl _ he (List.prefix_append _ _)
    obtain ⟨mid, hran, hnode⟩ := kbbiRun_spec shell q n
    generalize exitStatus shell q n = ret at hran hnode
    have hmid : mid = (matching n).flatMap (handlerTrace shell q) := by
      cases hran with
      | noSrcdef hnone => exact absurd hnone hsrc
      | handlers => rfl
      | commands _ hnone | jobs _ hnone | jobFailed _ hnone | nothing _ hnone =>
        exact absurd hnone hm
    rw [htrace, List.filter_append, List.filter_append,
      houtside a fun e he hpre => absurd hpre (ha e he),
      houtside b fun e he hpre => (hb e he hpre).1, hnode, startsHandler_node, hmid,
      List.filter_flatMap]
    simp only [handlerTrace_startsHandler, List.nil_append, List.append_nil, List.map_eq_flatMap]

/-! ### No signal is lost -/

/-- The handlers attached to the node at `q` are started in their order, each exactly once, and no
other handler of the node is. -/
def HandlersRun (q : Path) (n : KbTree) (trace : List Event) : Prop :=
  trace.filter (Event.startsHandler q) = n.handlers.zipIdx.map (handlerStart q)

/-- Wherever a run gets to a node, it runs the handlers attached to it. -/
def SignalsKept (t : KbTree) (trace : List Event) : Prop :=
  ∀ q up n, t.at? [] q = some (up, n) → .start q ∈ trace → HandlersRun q n trace

/-- As evaluated, every handler attached to the node handles one of its signals. -/
def HandlersMatch (n : KbTree) : Prop :=
  ∀ h ∈ n.handlers, nodeFilterHandlers h.symtab (kbnodeGetvalueAll n.symtab kbnodeKeyEmits) = true

theorem Visited.handlersRun_iff {q : Path} {t n : KbTree} (h : Visited shell [] t q n)
    (hsrc : kbnodeGetSrcdef n.symtab ≠ none) :
    HandlersRun q n (kbbiRun shell [] t).trace ↔ HandlersMatch n := by
  rw [HandlersRun, h.handlerStarts hsrc, HandlersMatch, ← Lists.forall_mem_zipIdx_fst]
  constructor
  · intro heq
    have hlen := congrArg List.length heq
    rw [List.length_map, List.length_map] at hlen
    exact List.length_filter_eq_length_iff.mp hlen
  · intro hall
    rw [matching, List.filter_eq_self.mpr hall]

theorem signalsKept_iff {t : KbTree}
    (hsrc : t.Forall (fun _ n => kbnodeGetSrcdef n.symtab ≠ none) []) :
    SignalsKept t (kbbiRun shell [] t).trace ↔
      ∀ q n, Visited shell [] t q n → HandlersMatch n := by
  constructor
  · intro h q n hn
    obtain ⟨up, hat⟩ := hn.exists_at
    exact (hn.handlersRun_iff (hsrc q up n hat)).mp
      (h q up n hat (hn.subset (start_mem_trace q n)))
  · intro h q up n hat hstart
    obtain ⟨m, hm⟩ := Visited.of_mem_trace hstart rfl
    obtain rfl : m = n := Visited.eq_of_at? hm hat
    exact (Visited.handlersRun_iff hm (hsrc q up m hat)).mpr (h q m hm)

/-! ### Every node is reached -/

/-- A node with jobs has neither signals nor commands. -/
theorem LintedNode.only_jobs {n : KbTree} (h : LintedNode n) (hjobs : n.jobs ≠ []) :
    matching n = [] ∧ commandsOf n.symtab = [] := by
  have hne : kbnodeGetvalueAll n.symtab kbnodeKeyJobs ≠ [] := by
    rw [← List.length_pos_iff, ← h.jobs, List.length_pos_iff]
    exact hjobs
  rcases actionCount_eq_one h.actions with ⟨-, -, hj⟩ | ⟨-, -, hj⟩ | ⟨hx, he, -⟩
  · exact absurd (getvalue_of_not_exists hj).1 hne
  · exact absurd (getvalue_of_not_exists hj).1 hne
  · refine ⟨matching_eq_nil_iff.mpr fun k _ => ?_, commandsOf_eq_nil_iff.mpr ?_⟩
    · simp [(getvalue_of_not_exists he).1, nodeFilterHandlers]
    · exact (getvalue_of_not_exists hx).2

/-- Where the handlers of every node that can be reached match, every node can be reached. -/
theorem reaches_of_handlersMatch {t : KbTree} {up₀ : List Symtab}
    (ht : t.Forall (fun _ n => LintedNode n) up₀)
    (h : ∀ q n, Reaches t q n → HandlersMatch n) {p : Path} {up : List Symtab} {n : KbTree}
    (hat : t.at? up₀ p = some (up, n)) : Reaches t p n := by
  induction p generalizing t up₀ with
  | nil =>
    obtain ⟨-, rfl⟩ := Prod.mk.inj (Option.some.inj hat)
    exact .here
  | cons s p ih =>
    rw [KbTree.at?_cons] at hat
    obtain ⟨c, hc, hat⟩ := Option.bind_eq_some_iff.mp hat
    have hroot : LintedNode t := ht [] up₀ t rfl
    have hmay : MayRun t s c := by
      cases s with
      | handler i =>
        have hmem : (c, i) ∈ t.handlers.zipIdx := List.mem_zipIdx_iff_getElem?.mpr hc
        have hmatch := h [] t .here c (List.mem_of_getElem? hc)
        exact .handler hroot.srcdef (List.mem_filter.mpr ⟨hmem, hmatch⟩)
      | job i =>
        have hmem : (c, i) ∈ t.jobs.zipIdx := List.mem_zipIdx_iff_getElem?.mpr hc
        obtain ⟨hm, hcmd⟩ := hroot.only_jobs (List.ne_nil_of_mem (List.mem_of_getElem? hc))
        exact .job hroot.srcdef hm hcmd hmem
    exact .child hmay (ih (forall_child ht hc) (fun q m hm => h (s :: q) m (.child hmay hm)) hat)

/-- All runs of a tree that has passed the lint keep the signals just when all handlers match as
evaluated. -/
theorem LintedTree.signalsKept_iff {L : Libds} {all : List Kbnode} {t : KbTree}
    (h : LintedTree L all t) :
    (∀ shell, SignalsKept t (kbbiRun shell [] t).trace) ↔
      t.Forall (fun _ n => HandlersMatch n) [] := by
  have hsrc : t.Forall (fun _ n => kbnodeGetSrcdef n.symtab ≠ none) [] :=
    fun p up n hat => (h.nodes p up n hat).srcdef
  simp only [Kubeka.signalsKept_iff hsrc]
  rw [forall_visited_iff hsrc]
  constructor
  · intro hall p up n hat
    exact hall p n (reaches_of_handlersMatch h.nodes hall hat)
  · intro hall q n hn
    obtain ⟨shell, hv⟩ := (reaches_iff_visited hsrc).mp hn
    obtain ⟨up, hat⟩ := hv.exists_at
    exact hall q up n hat

/-! ### Signals as they are written -/

/-- For every handler attached to the node, one of the signals of the node and one of those that the
handler handles stand for the same text, each in its own node as it is written. -/
def KeepsSignals (up : List Symtab) (n : KbTree) : Prop :=
  ∀ k ∈ n.handlers, ∃ e ∈ kbnodeGetvalueAll n.symtab kbnodeKeyEmits,
    ∃ h ∈ kbnodeGetvalueAll k.symtab kbnodeKeyHandles,
      ∃ s, StandsFor (n.symtab :: up) e s ∧ StandsFor (k.symtab :: n.symtab :: up) h s

/-- The signals of the node and those that its handlers handle stand for some text. -/
def SignalsStand (up : List Symtab) (n : KbTree) : Prop :=
  ∀ k ∈ n.handlers,
    (∀ e ∈ kbnodeGetvalueAll n.symtab kbnodeKeyEmits, ∃ s, StandsFor (n.symtab :: up) e s) ∧
    ∀ h ∈ kbnodeGetvalueAll k.symtab kbnodeKeyHandles,
      ∃ s, StandsFor (k.symtab :: n.symtab :: up) h s

theorem AsRead.getvalueAll {up : List Symtab} {n n' : KbTree} (h : AsRead up n n') (key : CStr) :
    List.Forall₂ (fun v v' => ∀ s, StandsFor (n.symtab :: up) v s → v' = s)
      (kbnodeGetvalueAll n.symtab key) (kbnodeGetvalueAll n'.symtab key) := by
  have hrel := h key
  rw [kbnodeGetvalueAll, kbnodeGetvalueAll]
  generalize kbsymtabGet n.symtab key = o, kbsymtabGet n'.symtab key = o' at hrel ⊢
  cases hrel with
  | none => exact .nil
  | some hvs => exact hvs

/-- The handlers of a node in the two trees. -/
theorem KbTree.Related.handlers {R : List Symtab → KbTree → KbTree → Prop} {t t' : KbTree}
    (h : KbTree.Related R [] [] t t') {p : Path} {up up' : List Symtab} {n n' : KbTree}
    (hat : t.at? [] p = some (up, n)) (hat' : t'.at? [] p = some (up', n')) :
    List.Forall₂ (R (n.symtab :: up)) n.handlers n'.handlers := by
  have hchild : ∀ (up : List Symtab) (n : KbTree) (i : ℕ),
      n.at? up [.handler i] = (n.handlers[i]?).map fun k => (n.symtab :: up, k) := by
    intro up n i
    rw [KbTree.at?_cons, KbTree.child?]
    cases n.handlers[i]? <;> rfl
  refine Lists.forall₂_of_getElem? (fun i k hk => ?_) fun i hi => ?_
  · have hkat : t.at? [] (p ++ [.handler i]) = some (n.symtab :: up, k) := by
      simp [KbTree.at?_append, hat, hchild, hk]
    obtain ⟨up₂, k', hkat', hR⟩ := (h (p ++ [.handler i])).1 _ _ hkat
    rw [KbTree.at?_append, hat', Option.bind_some, hchild] at hkat'
    obtain ⟨k₂, hk₂, heq⟩ := Option.map_eq_some_iff.mp hkat'
    obtain ⟨-, rfl⟩ := Prod.mk.inj heq
    exact ⟨k₂, hk₂, hR⟩
  · have hnone : t.at? [] (p ++ [.handler i]) = none := by
      simp [KbTree.at?_append, hat, hchild, hi]
    have hnone' := (h (p ++ [.handler i])).2 hnone
    rw [KbTree.at?_append, hat', Option.bind_some, hchild] at hnone'
    exact Option.map_eq_none_iff.mp hnone'

section

variable {up : List Symtab} {n n' : KbTree} (hn : AsRead up n n')
  (hhandlers : List.Forall₂ (AsRead (n.symtab :: up)) n.handlers n'.handlers)

include hn hhandlers

/-- Signals that stand for the same text still match when they are evaluated. -/
theorem KeepsSignals.handlersMatch (h : KeepsSignals up n) : HandlersMatch n' := by
  intro k' hk'
  obtain ⟨k, hk, hread⟩ := Lists.forall₂_left_of_mem hhandlers hk'
  obtain ⟨e, he, v, hv, s, hes, hvs⟩ := h k hk
  obtain ⟨e', he', hevale⟩ := Lists.forall₂_right_of_mem (hn.getvalueAll kbnodeKeyEmits) he
  obtain ⟨v', hv', hevalv⟩ := Lists.forall₂_right_of_mem (hread.getvalueAll kbnodeKeyHandles) hv
  obtain rfl := hevale s hes
  obtain rfl := hevalv _ hvs
  exact nodeFilterHandlers_iff.mpr ⟨_, he', hv'⟩

theorem HandlersMatch.keepsSignals (h : HandlersMatch n') (hstand : SignalsStand up n) :
    KeepsSignals up n := by
  intro k hk
  obtain ⟨hemits, hhandles⟩ := hstand k hk
  obtain ⟨k', hk', hread⟩ := Lists.forall₂_right_of_mem hhandlers hk
  obtain ⟨s, he', hv'⟩ := nodeFilterHandlers_iff.mp (h k' hk')
  obtain ⟨e, he, hevale⟩ := Lists.forall₂_left_of_mem (hn.getvalueAll kbnodeKeyEmits) he'
  obtain ⟨v, hv, hevalv⟩ := Lists.forall₂_left_of_mem (hread.getvalueAll kbnodeKeyHandles) hv'
  obtain ⟨s₁, hs₁⟩ := hemits e he
  obtain ⟨s₂, hs₂⟩ := hhandles v hv
  obtain rfl := hevale s₁ hs₁
  obtain rfl := hevalv s₂ hs₂
  exact ⟨e, he, v, hv, _, hs₁, hs₂⟩

end

/-- In a configuration that lints without errors no signal is lost in any run of a tree when, in the
tree before its evaluation, each attached handler handles a signal that stands for the same text as
one of its node. Where all signals stand for a text, this is the only case. -/
theorem kbbiRun_signalsKept_iff (L : Libds) (all : List Kbnode) (hall : ∀ n ∈ all, Checked n)
    {ep : Kbnode} (hep : ep ∈ all) {t t' : KbTree} (h : TreeOf L all ep t t') :
    (t.Forall KeepsSignals [] → ∀ shell, SignalsKept t' (kbbiRun shell [] t').trace) ∧
      (t.Forall SignalsStand [] →
        ((∀ shell, SignalsKept t' (kbbiRun shell [] t').trace) ↔ t.Forall KeepsSignals [])) := by
  have hlinted : LintedTree L all t' := ⟨hall, ep, hep, t, h⟩
  obtain ⟨-, env, env', heval⟩ := h
  have hread : KbTree.Related AsRead [] [] t t' := kbtreeEval_asRead heval rfl []
  have hkept : t.Forall KeepsSignals [] → ∀ shell, SignalsKept t' (kbbiRun shell [] t').trace := by
    intro hkeeps
    refine hlinted.signalsKept_iff.mpr (hread.forall_imp hkeeps ?_)
    intro p up n up' n' hat hat' hn hk
    exact hk.handlersMatch hn (hread.handlers hat hat')
  refine ⟨hkept, fun hstand => ⟨fun hall p up n hat => ?_, hkept⟩⟩
  obtain ⟨up', n', hat', hn⟩ := (hread p).1 up n hat
  have hmatch := hlinted.signalsKept_iff.mp hall p up' n' hat'
  exact hmatch.keepsSignals hn (hread.handlers hat hat') (hstand p up n hat)

/-! ### A signal that is lost -/

def emitterVars (sig : String) : Symtab :=
  nodeVars "ep" [("sig".toList, [sig.toList]), (kbnodeKeyEmits, ["$<sig>".toList])]

def handlerVars (sig : String) : Symtab :=
  nodeVars "h" [("sig".toList, [sig.toList]), (kbnodeKeyHandles, ["$<sig>".toList]),
    (kbnodeKeyExec, ["true".toList])]

/-- An emitter and a handler of `$<sig>`, with a value of `sig` for each. -/
def signalFile (emitted handled : String) : FileRead :=
  fileOf [⟨.entrypoint, emitterVars emitted⟩, ⟨.job, handlerVars handled⟩]

/-- The handler is attached and not run, and the emitter returns 0. -/
theorem kbbiRun_signalLost :
    ∃ r, HaltsWith (lint .ordered (fun _ => false) [signalFile "b" "a"] fun _ => none) r ∧
      r.nerrors = 0 ∧ ∃ t ∈ r.trees, (kbbiRun succeeding [] t).ret = 0 ∧
        ¬ ∀ shell, SignalsKept t (kbbiRun shell [] t).trace := by
  obtain ⟨r, hr, hP⟩ := exists_haltsWith
    (f := lint .ordered (fun _ => false) [signalFile "b" "a"] fun _ => none) 3
    (fun r => r.nerrors = 0 && r.trees.any fun t => (kbbiRun succeeding [] t).ret = 0 &&
      (t.handlers.length = 1 &&
        .start [.handler 0] ∉ (kbbiRun succeeding [] t).trace)) (by decide +kernel)
  simp only [Bool.and_eq_true, decide_eq_true_eq, List.any_eq_true] at hP
  obtain ⟨hn, t, ht, hret, hlen, hmem⟩ := hP
  refine ⟨r, hr, hn, t, ht, hret, fun h => hmem ?_⟩
  obtain ⟨k, hk⟩ := List.length_eq_one_iff.mp hlen
  have hrun : HandlersRun [] t (kbbiRun succeeding [] t).trace :=
    h succeeding [] [] t rfl (start_mem_trace [] t)
  have hstart : .start [.handler 0] ∈
      (kbbiRun succeeding [] t).trace.filter (Event.startsHandler []) := by
    rw [hrun, hk]
    simp [handlerStart]
  exact List.mem_of_mem_filter hstart

/-- The handler is attached to the emitter. -/
def signalTree (emitted handled : String) : KbTree :=
  .node .entrypoint (emitterVars emitted) [] [.node .job (handlerVars handled) [] []]

/-- With the same value for `$<sig>` in both the handler is run. -/
theorem kbbiRun_signalsKept_sameValue : ∃ t',
    TreeOf .ordered (signalFile "a" "a").nodes ⟨.entrypoint, emitterVars "a"⟩ (signalTree "a" "a") t' ∧
      ∀ shell, SignalsKept t' (kbbiRun shell [] t').trace := by
  have hchecked : ∀ n ∈ (signalFile "a" "a").nodes, Checked n := by
    have hall : (signalFile "a" "a").nodes.all (fun n => (kbnodeCheck false n).nerrors = 0) = true := by
      decide +kernel
    exact fun n hn => ⟨false, of_decide_eq_true (List.all_eq_true.mp hall n hn)⟩
  obtain ⟨⟨t', env', n⟩, hr, hn⟩ := exists_haltsWith
    (f := kbtreeEval .ordered [] (signalTree "a" "a") fun _ => none) 3 (fun r => r.nerrors = 0)
    (by decide +kernel)
  obtain rfl : n = 0 := of_decide_eq_true hn
  have htree : TreeOf .ordered (signalFile "a" "a").nodes ⟨.entrypoint, emitterVars "a"⟩
      (signalTree "a" "a") t' := ⟨rfl, _, env', hr⟩
  refine ⟨t', htree, (kbbiRun_signalsKept_iff .ordered _ hchecked List.mem_cons_self htree).1 ?_⟩
  refine KbTree.forall_node.mpr ⟨fun k hk => ?_, by simp, ?_⟩
  · obtain rfl := List.mem_singleton.mp hk
    exact ⟨"$<sig>".toList, by decide +kernel, "$<sig>".toList, by decide +kernel, "a".toList,
      .inr ⟨2, by decide +kernel⟩, .inr ⟨2, by decide +kernel⟩⟩
  · intro c hc
    obtain rfl := List.mem_singleton.mp hc
    exact KbTree.forall_node.mpr ⟨by simp [KeepsSignals], by simp, by simp⟩

end Kubeka
