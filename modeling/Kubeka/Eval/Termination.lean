import Kubeka.Eval.Closed
import Kubeka.Eval.Expansion
import Kubeka.Eval.Pieces

/-!
# When evaluation ends

Nothing in the substitution loop notices that a reference comes back to itself,
so a ring of references keeps it busy for ever. Where no value runs into a
ring, evaluation of a tree ends, and when something is circular all the same it
counts an error. On trees of templates this is the only way for it to end.
-/

namespace Kubeka

open Templates Fuel FiniteGraph Relation

variable {L : Libds} {up scope : List Symtab} {t n : KbTree} {env : Env}

/-- `P` holds of every value of the node. -/
def EveryValue (P : CStr → Prop) (n : KbTree) : Prop :=
  ∀ key vs, kbsymtabGet n.symtab key = some vs → ∀ v ∈ vs, P v

/-- The values of the variable that is nearest. -/
def variableValues (scope : List Symtab) (name : CStr) : List CStr :=
  (kbnodeResolve scope name).getD []

/-- Some value of the node leads to a ring of references to variables, wherever they stand. -/
def NodeCircular (up : List Symtab) (n : KbTree) : Prop :=
  ¬ EveryValue (fun v =>
    ¬ ReachesCycle (Brings NamesVariable (variableValues (n.symtab :: up))) v) n

/-- A value runs into a ring only behind a value of its array that has no expansion. -/
def RingsUnreached (up : List Symtab) (n : KbTree) : Prop :=
  ∀ key pre v post, kbsymtabGet n.symtab key = some (pre ++ v :: post) →
    (∀ w ∈ pre, ∃ s, Expands (table (n.symtab :: up)) (parse w) s) →
    ¬ Ring (table (n.symtab :: up)) (parse v)

/-- No value that evaluation starts on comes back to a text by replacing references: the values are
templates of which none that is reached runs into a ring, or no chain of texts is infinite that lead
to each other by references, be it those that are written out or all that a `>` may close. -/
def NoCircle (env : Env) (t : KbTree) : Prop :=
  EveryEvaluated (fun up n => HasTemplates up n ∧ RingsUnreached up n) [] t ∨
  EveryEvaluated (fun up n => EveryValue (WrittenOut (n.symtab :: up) env) n) [] t ∨
  EveryEvaluated (fun up n =>
    EveryValue (Terminates (Brings MayClose (sources (n.symtab :: up) env))) n) [] t

/-! ### Trees of templates -/

theorem table_finite (scope : List Symtab) : {x | (table scope x).isSome}.Finite := by
  induction scope with
  | nil => simp [table, kbnodeResolve]
  | cons st up ih =>
    refine ((List.finite_toSet st.keys).union ih).subset fun x hx => ?_
    cases hget : kbsymtabGet st x with
    | none =>
      refine .inr ?_
      simpa [table, kbnodeResolve, hget] using hx
    | some vs =>
      exact .inl (AList.mem_keys.mp (AList.lookup_isSome.mp (Option.isSome_iff_exists.mpr ⟨vs, hget⟩)))

/-- An array is evaluated to its end, or to an undefined name, when each value that is reached
settles. -/
theorem exists_valuesEval_iff {ρ : Table CStr Char} {vs : List CStr} :
    (∃ ss e, ValuesEval ρ vs ss e) ↔ ∀ pre v post, vs = pre ++ v :: post →
      (∀ w ∈ pre, ∃ s, Expands ρ (parse w) s) → Settles ρ (parse v) := by
  induction vs with
  | nil =>
    refine ⟨fun _ pre v post h => by simp at h, fun _ => ⟨[], 0, .nil⟩⟩
  | cons v vs ih =>
    constructor
    · rintro ⟨ss, e, hss⟩ pre w post hvs hpre
      cases hss with
      | @done _ s _ ss e hv hss =>
        cases pre with
        | nil =>
          obtain ⟨rfl, -⟩ := List.cons.inj hvs
          obtain ⟨n, hn⟩ := hv
          exact ⟨n, _, hn⟩
        | cons u pre =>
          obtain ⟨-, rfl⟩ := List.cons.inj hvs
          exact ih.mp ⟨ss, e, hss⟩ pre w post rfl fun x hx => hpre x (List.mem_cons_of_mem _ hx)
      | @undefined _ _ n x hv =>
        cases pre with
        | nil =>
          obtain ⟨rfl, -⟩ := List.cons.inj hvs
          exact ⟨n, _, hv⟩
        | cons u pre =>
          obtain ⟨rfl, -⟩ := List.cons.inj hvs
          obtain ⟨s, m, hs⟩ := hpre v List.mem_cons_self
          cases (hv.unique hs).2
    · intro h
      obtain ⟨n, o, ho⟩ := h [] v vs rfl (by simp)
      cases o with
      | error x => exact ⟨v :: vs, 1, .undefined ho⟩
      | ok s =>
        obtain ⟨ss, e, hss⟩ := ih.mpr fun pre w post hvs hpre =>
          h (v :: pre) w post (by simp [hvs]) (List.forall_mem_cons.mpr ⟨⟨s, n, ho⟩, hpre⟩)
        exact ⟨s :: ss, e, .done ⟨n, ho⟩ hss⟩

theorem nodeSettles_iff {n : KbTree} : NodeSettles up n ↔ RingsUnreached up n := by
  have hring : ∀ t, Settles (table (n.symtab :: up)) t ↔ ¬ Ring (table (n.symtab :: up)) t :=
    fun t => settles_iff_not_ring (table_finite _)
  simp only [NodeSettles, exists_valuesEval_iff, RingsUnreached, ← hring]
  exact ⟨fun h key pre v post hvs hpre => h key _ hvs pre v post rfl hpre,
    fun h key vs hvs pre v post heq hpre => h key pre v post (heq ▸ hvs) hpre⟩

/-- The tables in scope of a node that evaluation gets to in a tree of templates. -/
theorem readable_inScope (h : EveryEvaluated HasTemplates [] t) :
    EveryEvaluated (fun up n => ∀ st ∈ n.symtab :: up, ReadableTable st) [] t :=
  EveryEvaluated.inScope (by simp) (by simp)
    (h.imp fun _ _ ht key vs hvs v hv => (ht key vs hvs v hv).readable)

theorem halts_of_ringsUnreached
    (h : EveryEvaluated (fun up n => HasTemplates up n ∧ RingsUnreached up n) [] t) :
    Halts (kbtreeEval L [] t env) := by
  have hread := readable_inScope (h.imp fun _ _ ht => ht.1)
  have hnode : ∀ up n env, Evaluated up n →
      (∀ st ∈ n.symtab :: up, ReadableTable st) ∧ RingsUnreached up n → True →
      ∃ r, HaltsWith (evalKeys L up n.symtab.keys n.symtab env) r ∧ True := by
    rintro up n env he ⟨hscope, hrings⟩ -
    have hself : KeysAt up n.symtab n.symtab.keys n.symtab := keysAt_self (he _ List.mem_cons_self)
    obtain ⟨r, hr⟩ : Halts (evalKeys L up n.symtab.keys n.symtab env) :=
      (halts_evalKeys_iff hscope hself).mpr fun key _ => nodeSettles_iff.mpr hrings key
    exact ⟨r, hr, trivial⟩
  have hevaluated : EveryEvaluated
      (fun up n => (∀ st ∈ n.symtab :: up, ReadableTable st) ∧ RingsUnreached up n) [] t :=
    hread.and (h.imp fun _ _ ht => ht.2)
  obtain ⟨r, hr, -⟩ := exists_kbtreeEval hnode (by simp) hevaluated trivial
  exact ⟨r, hr⟩

theorem ringsUnreached_of_haltsWith {r : TreeEval KbTree} (ht : EveryEvaluated HasTemplates [] t)
    (h : HaltsWith (kbtreeEval L [] t env) r) : EveryEvaluated RingsUnreached [] t := by
  have hnode : ∀ up n env r, HaltsWith (evalKeys L up n.symtab.keys n.symtab env) r →
      (∀ st ∈ n.symtab :: up, ReadableTable st) → Evaluated up n → RingsUnreached up n := by
    intro up n env r hr hscope he
    refine nodeSettles_iff.mp fun key vs hvs => ?_
    have hself : KeysAt up n.symtab n.symtab.keys n.symtab := keysAt_self (he _ List.mem_cons_self)
    have hkey : key ∈ n.symtab.keys :=
      AList.mem_keys.mp (AList.lookup_isSome.mp (Option.isSome_iff_exists.mpr ⟨vs, hvs⟩))
    exact (halts_evalKeys_iff hscope hself).mp ⟨r, hr⟩ key hkey vs hvs
  intro p up n hn he
  exact everyEvaluated_of_haltsWith hnode (by simp) h p up n hn he
    (readable_inScope ht p up n hn he) he

/-! ### Circles -/

theorem TreeEvaluated.nodeExpands {n n' : KbTree} (h : TreeEvaluated 0 up n n') :
    NodeExpands up n := by
  intro key vs hvs
  obtain ⟨ss, -, hss⟩ := h.expands hvs
  clear hvs
  induction hss with
  | nil => simp
  | cons hs _ ih => exact List.forall_mem_cons.mpr ⟨⟨_, hs⟩, ih⟩

theorem infix_formatTemplate {ts : List (Template CStr Char)} {u : Template CStr Char}
    (h : u ∈ ts) : u <:+: formatTemplate ts := by
  have htail : ∀ ts : List (Template CStr Char), u ∈ ts → u <:+: formatTemplateTail ts := by
    intro ts h
    induction ts with
    | nil => simp at h
    | cons t ts ih =>
      rcases List.mem_cons.mp h with rfl | h
      · exact ⟨ofText ",".toList, ofText " ".toList ++ formatTemplateTail ts,
          by simp [formatTemplateTail]⟩
      · exact (ih h).trans (List.suffix_append _ _).isInfix
  cases ts with
  | nil => simp at h
  | cons t ts =>
    cases ts with
    | nil =>
      obtain rfl : u = t := by simpa using h
      exact List.infix_rfl
    | cons t' ts =>
      rcases List.mem_cons.mp h with rfl | h
      · exact ⟨ofText "[ ".toList, ofText " ".toList ++ formatTemplateTail (t' :: ts),
          by simp [formatTemplate]⟩
      · exact (htail _ h).trans (List.suffix_append _ _).isInfix

theorem evaluates_of_infix {ρ : Table CStr Char} {m : ℕ} {u b : Template CStr Char} {s : CStr}
    (hu : u <:+: b) (h : Evaluates ρ m b (.ok s)) : ∃ k ≤ m, ∃ s', Evaluates ρ k u (.ok s') := by
  have hsplit : ∀ {m t t' s}, Evaluates ρ m (t ++ t') (.ok s) →
      ∃ k l s₁ s₂, Evaluates ρ k t (.ok s₁) ∧ Evaluates ρ l t' (.ok s₂) ∧ m = k + l := by
    intro m t t' s h
    rcases evaluates_append_iff.mp h with ⟨y, -, he⟩ | ⟨k, l, s₁, o, hk, hl, rfl, ho⟩
    · cases he
    · cases o with
      | error x => cases ho
      | ok s₂ => exact ⟨k, l, s₁, s₂, hk, hl, rfl⟩
  obtain ⟨a, c, rfl⟩ := hu
  obtain ⟨k, l, s₁, s₂, hk, -, rfl⟩ := hsplit h
  obtain ⟨i, j, s₃, s₄, -, hj, rfl⟩ := hsplit hk
  exact ⟨j, by omega, s₄, hj⟩

/-- A value with an expansion leads to no infinite chain of variables. -/
theorem terminates_of_expands (hscope : ∀ st ∈ scope, ReadableTable st) {v s : CStr}
    (hv : Readable v) (h : Expands (table scope) (parse v) s) :
    Terminates (Brings NamesVariable (variableValues scope)) v := by
  obtain ⟨m, h⟩ := h
  induction m using Nat.strong_induction_on generalizing v s with
  | _ m ih =>
    refine Acc.intro _ fun w hw => ?_
    obtain ⟨name, ⟨-, hclose, hin⟩, hmem⟩ := hw
    have href : .ref name ∈ parse v := hv.1.mem_of_refText_occurs hclose (by rwa [hv.2])
    obtain ⟨b, k, s', hb, hk, he⟩ := h.mem href
    obtain ⟨vs, hvs, rfl⟩ := Option.map_eq_some_iff.mp hb
    have hw : w ∈ vs := by simpa [variableValues, hvs] using hmem
    have hpart : parse w <:+: formatTemplate (vs.map parse) :=
      infix_formatTemplate (List.mem_map_of_mem hw)
    obtain ⟨j, hj, s'', hwe⟩ := evaluates_of_infix hpart he
    exact ih j (by omega) (kbnodeResolve_readable hscope hvs w hw) hwe

theorem NamesVariable.sources_eq {v name : CStr} (h : NamesVariable v name) (scope : List Symtab)
    (env : Env) : sources scope env name = variableValues scope name := by
  simp [sources, variableValues, strchr_eq_none h.1]

theorem NamesVariable.mayClose {v name : CStr} (h : NamesVariable v name) : MayClose v name := by
  have hopen : '>' ∉ refOpen ++ name := by simp [refOpen, h.2.1]
  obtain ⟨p, hp, hsuf⟩ := Text.exists_segment (l := []) hopen (by simpa [refText] using h.2.2)
  exact ⟨p, hp, .inl hsuf⟩

theorem WrittenOut.terminates_variables {v : CStr} (h : WrittenOut scope env v) :
    Terminates (Brings NamesVariable (variableValues scope)) v := by
  have hends := h.ends
  induction hends with
  | intro v _ ih =>
    refine Acc.intro _ fun w hw => ?_
    obtain ⟨name, hname, hmem⟩ := hw
    rw [← hname.sources_eq scope env] at hmem
    have hclosed : Closed v := h.closed v .refl
    have href : HasRef v name :=
      hclosed.1.mem_of_refText_occurs hname.2.1 (by rw [hclosed.2]; exact hname.2.2)
    exact ih w ⟨name, href, hmem⟩ (h.of_brings href hmem)

theorem terminates_variables_of_mayClose {v : CStr}
    (h : Terminates (Brings MayClose (sources scope env)) v) :
    Terminates (Brings NamesVariable (variableValues scope)) v := by
  refine Subrelation.accessible ?_ h
  rintro w v ⟨name, hname, hmem⟩
  exact ⟨name, hname.mayClose, by rwa [hname.sources_eq]⟩

/-- Where no value comes back to a text, evaluation without errors has found nothing circular. -/
theorem NoCircle.not_circular (h : NoCircle env t) {r : TreeEval KbTree}
    (hr : HaltsWith (kbtreeEval L [] t env) r) (hzero : r.nerrors = 0) {p : Path}
    (hn : t.at? [] p = some (up, n)) : ¬ NodeCircular up n := by
  have hsrc := kbtreeEval_srcdef hr hzero []
  have hall : t.Forall Evaluated [] := forall_evaluated (by simp) hsrc
  have he : Evaluated up n := hall p up n hn
  rw [NodeCircular, not_not]
  intro key vs hvs v hv
  refine Terminates.not_reachesCycle ?_
  rcases h with h | h | h
  · have hscope := readable_inScope (h.imp fun _ _ ht => ht.1) p up n hn he
    have hnode : t.Forall TemplateNode [] := fun p up n hn =>
      templateNode_of (hsrc p up n hn) (h p up n hn (hall p up n hn)).1
    obtain ⟨-, hto⟩ := haltsWith_kbtreeEval (by simp) hnode hr
    obtain ⟨up', n', _, hR⟩ := (hto.nodes [] p).1 up n hn
    rw [hzero] at hR
    obtain ⟨s, hs⟩ := hR.nodeExpands key vs hvs v hv
    exact terminates_of_expands hscope (hscope _ List.mem_cons_self key vs hvs v hv) hs
  · exact (h p up n hn he key vs hvs v hv).terminates_variables
  · exact terminates_variables_of_mayClose (h p up n hn he key vs hvs v hv)

/-! ### Every tree -/

/-- Evaluation ends wherever no value comes back to a text. -/
theorem NoCircle.halts (h : NoCircle env t) : Halts (kbtreeEval L [] t env) := by
  rcases h with h | h | h
  · exact halts_of_ringsUnreached h
  · have hnode : ∀ up n env', Evaluated up n → EveryValue (WrittenOut (n.symtab :: up) env) n →
        EnvFrom ['$', '>'] env env' →
        ∃ r, HaltsWith (evalKeys L up n.symtab.keys n.symtab env') r ∧
          EnvFrom ['$', '>'] env r.env := by
      intro up n env' _ hn henv
      have hloops := loopsEnd_closed L (n.symtab :: up) env
      exact hloops.evalKeys hn _ (tableRel_self hloops.refl _) henv
    obtain ⟨r, hr, -⟩ := exists_kbtreeEval hnode (by simp) h (.refl _ env)
    exact ⟨r, hr⟩
  · have hnode : ∀ up n env', Evaluated up n →
        EveryValue (Terminates (Brings MayClose (sources (n.symtab :: up) env))) n →
        EnvFrom ['>'] env env' →
        ∃ r, HaltsWith (evalKeys L up n.symtab.keys n.symtab env') r ∧ EnvFrom ['>'] env r.env := by
      intro up n env' _ hn henv
      have hloops := loopsEnd_pieces L (n.symtab :: up) env
      exact hloops.evalKeys hn _ (tableRel_self hloops.refl _) henv
    obtain ⟨r, hr, -⟩ := exists_kbtreeEval hnode (by simp) h (.refl _ env)
    exact ⟨r, hr⟩

theorem greeting_noCircle (env : Env) : NoCircle env greeting := by
  refine .inl fun p up n hn _ => ⟨greeting_templates p up n hn, ?_⟩
  exact nodeSettles_iff.mp (greeting_expansions p up n hn).nodeSettles

/-- `A = $<A>` -/
def selfNamedVars : List (CStr × List CStr) :=
  [(kbnodeKeyId, ["ep".toList]), (kbnodeKeyFname, ["f".toList]), (kbnodeKeyLine, ["1".toList]),
    ("A".toList, ["$<A>".toList])]

def selfNamed : KbTree := .node .entrypoint (symtabOf selfNamedVars) [] []

theorem selfNamed_templateNode : selfNamed.Forall TemplateNode [] := by
  have href : IsTemplate ("".toList ++ refText "A".toList ++ "".toList) :=
    .ref (by decide) (by decide) (.plain (by decide))
  simp only [selfNamed, KbTree.forall_node, TemplateNode, KbTree.symtab_node]
  refine ⟨⟨by decide, forall_values_symtabOf ?_⟩, by simp, by simp⟩
  simp only [selfNamedVars, List.forall_mem_cons]
  have hplain : ∀ s, IsPlain s → Readable s := fun _ h => (IsTemplate.plain h).readable
  refine ⟨⟨hplain _ (by decide), ?_⟩, ⟨hplain _ (by decide), ?_⟩, ⟨hplain _ (by decide), ?_⟩,
    ⟨href.readable, ?_⟩, ?_⟩ <;> simp

theorem selfNamed_ring : Ring (table [symtabOf selfNamedVars]) (parse "$<A>".toList) := by
  have hlive : Live (table [symtabOf selfNamedVars]) (parse "$<A>".toList) "A".toList :=
    ⟨[], [], rfl, [], 0, .nil⟩
  have hself : Refers (table [symtabOf selfNamedVars]) "A".toList "A".toList := ⟨_, rfl, hlive⟩
  exact ⟨_, hlive, _, .refl, .single hself⟩

end Kubeka
