import Kubeka.Eval.Substitution

/-!
# Evaluation of trees of templates

While a node is evaluated its own table is a mixture of raw and expanded
values, and the tables of its ancestors are raw. The mixture is invisible to a
further look-up, since it is a partly evaluated form of the table as written;
that is the invariant here. Every value that is reached gets its expansion in
the raw table, in whatever order the keys come.
-/

namespace Kubeka

open Templates Fuel

/-! ### Tables of templates -/

def ReadableTable (st : Symtab) : Prop :=
  ∀ key vs, kbsymtabGet st key = some vs → ∀ v ∈ vs, Readable v

/-- The names as a node sees them: the array of the nearest definition, formatted. -/
def table (scope : List Symtab) : Table CStr Char := fun name =>
  (kbnodeResolve scope name).map fun vs => formatTemplate (vs.map parse)

theorem kbnodeResolve_readable {scope : List Symtab} (hscope : ∀ st ∈ scope, ReadableTable st)
    {name : CStr} {vs : List CStr} (h : kbnodeResolve scope name = some vs) :
    ∀ v ∈ vs, Readable v := by
  induction scope with
  | nil => simp [kbnodeResolve] at h
  | cons st up ih =>
    cases hget : kbsymtabGet st name with
    | none =>
      rw [kbnodeResolve, hget] at h
      exact ih (fun st hst => hscope st (List.mem_cons_of_mem _ hst)) h
    | some ws =>
      rw [kbnodeResolve, hget] at h
      obtain rfl := Option.some.inj h
      exact hscope st List.mem_cons_self name ws hget

theorem wellFormed_formatTemplate {N : CStr → Prop} {ts : List (Template CStr Char)}
    (h : ∀ t ∈ ts, WellFormed N t) : WellFormed N (formatTemplate ts) := by
  refine formatTemplate_of (R := fun t _ => WellFormed N t) ?_ .nil
    (fun ht hu => ht.append hu) (List.forall₂_same.mpr h)
  intro s hs
  refine wellFormed_ofText ?_
  fin_cases hs <;> decide

theorem map_render_parse {N : CStr → Prop} {vs : List CStr} (h : ∀ v ∈ vs, ReadableWith N v) :
    (vs.map parse).map render = vs := by
  rw [List.map_map]
  conv_rhs => rw [← List.map_id vs]
  exact List.map_congr_left fun v hv => (h v hv).2

variable {scope : List Symtab}

theorem table_wellFormed (hscope : ∀ st ∈ scope, ReadableTable st) {x : CStr}
    {b : Template CStr Char} (h : table scope x = some b) : WellFormed IsVariable b := by
  obtain ⟨vs, hvs, rfl⟩ := Option.map_eq_some_iff.mp h
  refine wellFormed_formatTemplate fun t ht => ?_
  obtain ⟨v, hv, rfl⟩ := List.mem_map.mp ht
  exact (kbnodeResolve_readable hscope hvs v hv).1

/-! ### One value -/

/-- What the loop returns for an outcome of the template. -/
def Outcome (env : Env) : Except CStr CStr → Substituted → Prop
  | .ok s, r => r = { nerrors := 0, env := env, newvalue := s }
  | .error _, r => r.nerrors = 1 ∧ r.env = env

/-- The loop rewrites the template round by round. -/
theorem substLoop_render (L : Libds) (hscope : ∀ st ∈ scope, ReadableTable st) (env : Env)
    (fuel : ℕ) {t : Template CStr Char} (ht : WellFormed IsVariable t) :
    Option.Rel (Outcome env) (rewrite (table scope) fuel t)
      (substLoop L scope fuel env (render t)) := by
  induction fuel generalizing t with
  | zero => exact .none
  | succ fuel ih =>
    have hfind := findNextRef_render ht
    cases hf : firstRef t with
    | none =>
      simp only [rewrite, substLoop, hfind, hf, Option.map_none, letters_eq_render hf]
      exact .some rfl
    | some x =>
      have hx : IsName x := ht.isName (firstRef_mem hf)
      have hres := resolve_refText hx.1 hx.2.1 scope env
      cases hvs : kbnodeResolve scope x with
      | none =>
        have htab : table scope x = none := by simp [table, hvs]
        simp only [rewrite, substLoop, hfind, hf, Option.map_some, htab, hres, hvs]
        exact .some ⟨rfl, rfl⟩
      | some vs =>
        have htab : table scope x = some (formatTemplate (vs.map parse)) := by simp [table, hvs]
        have hb : WellFormed IsVariable (formatTemplate (vs.map parse)) :=
          table_wellFormed hscope htab
        have hsubst : L.strsubst (render t) (refText x) (kbutilStrarrayFormat vs) =
            render (substAll x (formatTemplate (vs.map parse)) t) := by
          rw [L.strsubst_eq _ _ _ (by simp [refText, refOpen]), ← replaceAll_render hx.2.1 _ ht,
            render_formatTemplate, map_render_parse (kbnodeResolve_readable hscope hvs)]
        simp only [rewrite, substLoop, hfind, hf, Option.map_some, htab, hres, hvs, hsubst]
        exact ih (hb.substAll ht)

theorem haltsWith_substitute {L : Libds} (hscope : ∀ st ∈ scope, ReadableTable st) {env : Env}
    {v : CStr} (hv : Readable v) {r : Substituted} (h : HaltsWith (substitute L scope env v) r) :
    ∃ n o, Evaluates (table scope) n (parse v) o ∧ Outcome env o r := by
  obtain ⟨fuel, h⟩ := h
  have hrel := substLoop_render L hscope env fuel hv.1
  rw [hv.2] at hrel
  cases hs : substLoop L scope fuel env v with
  | none => simp [substitute, hs] at h
  | some r' =>
    obtain rfl : r' = r := by simpa [substitute, hs] using h
    rw [hs] at hrel
    generalize hw : rewrite (table scope) fuel (parse v) = w at hrel
    cases hrel with
    | some ho =>
      obtain ⟨n, hn⟩ := evaluates_of_rewrite hw
      exact ⟨n, _, hn, ho⟩

theorem halts_substitute_iff {L : Libds} (hscope : ∀ st ∈ scope, ReadableTable st) {env : Env}
    {v : CStr} (hv : Readable v) :
    Halts (substitute L scope env v) ↔ Settles (table scope) (parse v) := by
  constructor
  · rintro ⟨r, h⟩
    obtain ⟨n, o, ho, _⟩ := haltsWith_substitute hscope hv h
    exact ⟨n, o, ho⟩
  · rintro ⟨n, o, h⟩
    have hrel := substLoop_render L hscope env (n + 1) hv.1
    rw [rewrite_of_evaluates h (Nat.lt_succ_self n), hv.2] at hrel
    generalize hw : substLoop L scope (n + 1) env v = w at hrel
    cases hrel with
    | @some _ r _ => exact ⟨r, n + 1, by simp [substitute, hw]⟩

/-! ### Partly evaluated nodes -/

/-- The value is still as written, or has its expansion. -/
def RawOrDone (ρ : Table CStr Char) (v v' : CStr) : Prop := v' = v ∨ Expands ρ (parse v) v'

/-- The table of a node during its evaluation, from the table `st₀` as written. -/
def PartlyEvaluated (up : List Symtab) (st₀ st : Symtab) : Prop :=
  ∀ key, Option.Rel (List.Forall₂ (RawOrDone (table (st₀ :: up)))) (kbsymtabGet st₀ key)
    (kbsymtabGet st key)

theorem wellFormed_of_evaluates {ρ : Table CStr Char}
    (hρ : ∀ x b, ρ x = some b → WellFormed IsVariable b) {n : ℕ} {t : Template CStr Char}
    {s : CStr} (ht : WellFormed IsVariable t) (h : Evaluates ρ n t (.ok s)) :
    WellFormed IsVariable (ofText s) := by
  generalize ho : Except.ok s = o at h
  induction h generalizing s with
  | nil =>
    cases ho
    exact .nil
  | @lit a n t o h ih =>
    cases o with
    | error y => cases ho
    | ok s' =>
      cases ho
      have hs := ih ht.tail rfl
      cases ht with
      | lit hc _ => exact .lit hc hs
      | @dollar c t hc _ =>
        obtain ⟨o, _, hs'⟩ := evaluates_lit_iff.mp h
        cases o with
        | error y => cases hs'
        | ok s₂ =>
          cases hs'
          exact .dollar hc hs
  | undefined _ => cases ho
  | inside _ _ _ => cases ho
  | @after x b m s₁ n t o hx _ _ ihb iht =>
    cases o with
    | error y => cases ho
    | ok s₂ =>
      cases ho
      have happ := (ihb (hρ x b hx) rfl).append (iht ht.tail rfl)
      simpa [ofText] using happ

theorem RawOrDone.readable {ρ : Table CStr Char}
    (hρ : ∀ x b, ρ x = some b → WellFormed IsVariable b) {v v' : CStr} (hv : Readable v)
    (h : RawOrDone ρ v v') :
    Readable v' ∧ Partial ρ (parse v) (parse v') := by
  rcases h with rfl | h
  · exact ⟨hv, .refl _⟩
  · obtain ⟨n, hn⟩ := h
    have hw := wellFormed_of_evaluates hρ hv.1 hn
    have hp : parse v' = ofText v' := by simpa using parse_render hw
    refine ⟨by simpa using hw.readable, ?_⟩
    rw [hp]
    simpa using Partial.done ⟨n, hn⟩ Partial.nil

variable {up : List Symtab} {st₀ st : Symtab}

theorem PartlyEvaluated.refl : PartlyEvaluated up st₀ st₀ := by
  intro key
  cases kbsymtabGet st₀ key with
  | none => exact .none
  | some vs => exact .some (List.forall₂_same.mpr fun v _ => .inl rfl)

/-- The values of a partly evaluated node, beside the values as written. -/
theorem PartlyEvaluated.values (hscope : ∀ st ∈ st₀ :: up, ReadableTable st)
    (h : PartlyEvaluated up st₀ st) {key : CStr} {vs vs' : List CStr}
    (h₀ : kbsymtabGet st₀ key = some vs) (hget : kbsymtabGet st key = some vs') :
    List.Forall₂ (fun v v' => Readable v' ∧ Partial (table (st₀ :: up)) (parse v) (parse v'))
      vs vs' := by
  have hrel := h key
  rw [h₀, hget, Option.rel_some_some] at hrel
  have hread := (List.forall₂_and_left vs vs').mpr ⟨hscope st₀ List.mem_cons_self key vs h₀, hrel⟩
  exact hread.imp fun v v' hv => hv.2.readable (fun _ _ => table_wellFormed hscope) hv.1

theorem PartlyEvaluated.none_iff (h : PartlyEvaluated up st₀ st) {key : CStr} :
    kbsymtabGet st₀ key = none ↔ kbsymtabGet st key = none := by
  have hrel := h key
  generalize kbsymtabGet st₀ key = o, kbsymtabGet st key = o' at hrel
  cases hrel <;> simp

theorem PartlyEvaluated.readable (hscope : ∀ st ∈ st₀ :: up, ReadableTable st)
    (h : PartlyEvaluated up st₀ st) : ∀ st' ∈ st :: up, ReadableTable st' := by
  intro st' hst'
  rcases List.mem_cons.mp hst' with rfl | hst'
  · intro key vs' hget
    cases h₀ : kbsymtabGet st₀ key with
    | none => simp [h.none_iff.mp h₀] at hget
    | some vs =>
      have hflip : List.Forall₂ (fun v' v => Readable v' ∧
          Partial (table (st₀ :: up)) (parse v) (parse v')) vs' vs := (h.values hscope h₀ hget).flip
      exact ((List.forall₂_and_left vs' vs).mp hflip).1
  · exact hscope st' (List.mem_cons_of_mem _ hst')

/-- To a look-up the node is a partly evaluated form of the node as written. -/
theorem PartlyEvaluated.partialTable (hscope : ∀ st ∈ st₀ :: up, ReadableTable st)
    (h : PartlyEvaluated up st₀ st) : PartialTable (table (st₀ :: up)) (table (st :: up)) := by
  intro x
  cases h₀ : kbsymtabGet st₀ x with
  | none =>
    have heq : table (st :: up) x = table (st₀ :: up) x := by
      simp [table, kbnodeResolve, h₀, h.none_iff.mp h₀]
    rw [heq]
    cases table (st₀ :: up) x with
    | none => exact .none
    | some b => exact .some (.refl b)
  | some vs =>
    cases hget : kbsymtabGet st x with
    | none => simp [h.none_iff.mpr hget] at h₀
    | some vs' =>
      simp only [table, kbnodeResolve, h₀, hget, Option.map_some]
      refine .some (formatTemplate_of (fun s _ => .refl _) .nil (fun ht hu => ht.append hu) ?_)
      rw [List.forall₂_map_left_iff, List.forall₂_map_right_iff]
      exact (h.values hscope h₀ hget).imp fun _ _ hv => hv.2

/-- A raw value has the same outcome in the partly evaluated node as in the node as written. -/
theorem PartlyEvaluated.evaluates_iff (hscope : ∀ st ∈ st₀ :: up, ReadableTable st)
    (h : PartlyEvaluated up st₀ st) {t : Template CStr Char} {o : Except CStr CStr} :
    (∃ n, Evaluates (table (st₀ :: up)) n t o) ↔ ∃ n, Evaluates (table (st :: up)) n t o :=
  evaluates_iff_of_partial (h.partialTable hscope) (.refl t)

theorem PartlyEvaluated.settles_iff (hscope : ∀ st ∈ st₀ :: up, ReadableTable st)
    (h : PartlyEvaluated up st₀ st) {t : Template CStr Char} :
    Settles (table (st₀ :: up)) t ↔ Settles (table (st :: up)) t := by
  simp only [Settles]
  rw [exists_comm, exists_comm (α := ℕ)]
  exact exists_congr fun o => h.evaluates_iff hscope

/-- The origin of a node is not lost, whatever its values have become. -/
theorem PartlyEvaluated.srcdef (h : PartlyEvaluated up st₀ st)
    (hsrc : kbnodeGetSrcdef st₀ ≠ none) : kbnodeGetSrcdef st ≠ none := by
  have hnil : ∀ key, kbnodeGetvalueAll st key = [] → kbnodeGetvalueAll st₀ key = [] := by
    intro key hkey
    have hrel := h key
    rw [kbnodeGetvalueAll] at hkey ⊢
    generalize kbsymtabGet st₀ key = o, kbsymtabGet st key = o' at hrel hkey
    cases hrel with
    | none => rfl
    | some hrel =>
      obtain rfl := hkey
      exact List.forall₂_nil_right_iff.mp hrel
  intro hnone
  rw [kbnodeGetSrcdef_eq_none] at hnone
  rw [Ne, kbnodeGetSrcdef_eq_none] at hsrc
  exact hsrc (hnone.imp (hnil _) (Or.imp (hnil _) (hnil _)))

/-! ### One array of values -/

/-- The values become their expansions up to the first one that has none because of an undefined
name; `e` counts the error that it makes. -/
inductive ValuesEval (ρ : Table CStr Char) : List CStr → List CStr → ℕ → Prop
  | nil : ValuesEval ρ [] [] 0
  | done {v s vs ss e} : Expands ρ (parse v) s → ValuesEval ρ vs ss e →
      ValuesEval ρ (v :: vs) (s :: ss) e
  | undefined {v vs n x} : Evaluates ρ n (parse v) (.error x) →
      ValuesEval ρ (v :: vs) (v :: vs) 1

theorem ValuesEval.rawOrDone {ρ : Table CStr Char} {vs ss : List CStr} {e : ℕ}
    (h : ValuesEval ρ vs ss e) : List.Forall₂ (RawOrDone ρ) vs ss := by
  induction h with
  | nil => exact .nil
  | done hv _ ih => exact .cons (.inr hv) ih
  | undefined _ => exact List.forall₂_same.mpr fun v _ => .inl rfl

theorem ValuesEval.expands {ρ : Table CStr Char} {vs ss : List CStr} {e : ℕ}
    (h : ValuesEval ρ vs ss e) (he : e = 0) :
    List.Forall₂ (fun v s => Expands ρ (parse v) s) vs ss := by
  induction h with
  | nil => exact .nil
  | done hv _ ih => exact .cons hv (ih he)
  | undefined _ => simp at he

theorem ValuesEval.not_expands {ρ : Table CStr Char} {vs ss : List CStr} {e : ℕ}
    (h : ValuesEval ρ vs ss e) (he : e ≠ 0) : ∃ v ∈ vs, ¬ ∃ s, Expands ρ (parse v) s := by
  induction h with
  | nil => exact absurd rfl he
  | done _ _ ih =>
    obtain ⟨v, hv, hno⟩ := ih he
    exact ⟨v, List.mem_cons_of_mem _ hv, hno⟩
  | @undefined v vs n x hv =>
    refine ⟨v, List.mem_cons_self, ?_⟩
    rintro ⟨s, m, hs⟩
    cases (hv.unique hs).2

/-- The loop over an array: `pre` is behind it and has become `pre'`, `vs` is still to come. -/
structure ValuesAt (up : List Symtab) (st₀ : Symtab) (key : CStr) (pre pre' vs : List CStr)
    (st : Symtab) : Prop where
  part : PartlyEvaluated up st₀ st
  raw : kbsymtabGet st₀ key = some (pre ++ vs)
  current : kbsymtabGet st key = some (pre' ++ vs)
  before : List.Forall₂ (RawOrDone (table (st₀ :: up))) pre pre'

variable {key v s : CStr} {pre pre' vs : List CStr}

theorem ValuesAt.set_get (h : ValuesAt up st₀ key pre pre' (v :: vs) st) (s k : CStr) :
    kbsymtabGet (kbnodeSetSingle st key pre.length s).2 k =
      if k = key then some (pre' ++ s :: vs) else kbsymtabGet st k := by
  have hlen : pre.length = pre'.length := h.before.length_eq
  rw [kbnodeSetSingle_get h.current (by simp [hlen]), hlen, List.set_append_right _ _ le_rfl]
  simp

/-- Storing the expansion of a value moves the loop on. -/
theorem ValuesAt.next (h : ValuesAt up st₀ key pre pre' (v :: vs) st)
    (hs : Expands (table (st₀ :: up)) (parse v) s) :
    ValuesAt up st₀ key (pre ++ [v]) (pre' ++ [s]) vs
      (kbnodeSetSingle st key pre.length s).2 := by
  have hbefore : List.Forall₂ (RawOrDone (table (st₀ :: up))) (pre ++ [v]) (pre' ++ [s]) :=
    List.rel_append h.before (.cons (.inr hs) .nil)
  refine ⟨fun k => ?_, by simpa using h.raw, by simp [h.set_get], hbefore⟩
  rw [h.set_get]
  split_ifs with hk
  · have hrest : List.Forall₂ (RawOrDone (table (st₀ :: up))) vs vs :=
      List.forall₂_same.mpr fun w _ => .inl rfl
    rw [hk, h.raw]
    simpa using List.rel_append hbefore hrest
  · exact h.part k

variable {L : Libds} (hscope : ∀ st ∈ st₀ :: up, ReadableTable st)

include hscope

theorem ValuesAt.readable (h : ValuesAt up st₀ key pre pre' (v :: vs) st) : Readable v :=
  hscope st₀ List.mem_cons_self key _ h.raw v (by simp)

/-- The loop over the next value, by its outcome in the table as written. -/
theorem ValuesAt.haltsWith_substitute (h : ValuesAt up st₀ key pre pre' (v :: vs) st) {env : Env}
    {r : Substituted} (hr : HaltsWith (substitute L (st :: up) env v) r) :
    ∃ n o, Evaluates (table (st₀ :: up)) n (parse v) o ∧ Outcome env o r := by
  obtain ⟨n, o, ho, hout⟩ :=
    Kubeka.haltsWith_substitute (h.part.readable hscope) (h.readable hscope) hr
  obtain ⟨m, ho⟩ := (h.part.evaluates_iff hscope).mpr ⟨n, ho⟩
  exact ⟨m, o, ho, hout⟩

theorem ValuesAt.halts_substitute (h : ValuesAt up st₀ key pre pre' (v :: vs) st) (env : Env)
    {n : ℕ} {o : Except CStr CStr} (ho : Evaluates (table (st₀ :: up)) n (parse v) o) :
    ∃ r, HaltsWith (substitute L (st :: up) env v) r ∧ Outcome env o r := by
  have hset : Settles (table (st :: up)) (parse v) := (h.part.settles_iff hscope).mp ⟨n, o, ho⟩
  obtain ⟨r, hr⟩ : Halts (substitute L (st :: up) env v) :=
    (halts_substitute_iff (h.part.readable hscope) (h.readable hscope)).mpr hset
  obtain ⟨m, o', ho', hout⟩ := h.haltsWith_substitute hscope hr
  obtain rfl := (ho'.unique ho).2
  exact ⟨r, hr, hout⟩

/-- The evaluation of one array in the partly evaluated node. -/
theorem haltsWith_evalValues (h : ValuesAt up st₀ key pre pre' vs st) {env : Env} {r : NodeEval}
    (hr : HaltsWith (evalValues L up key pre.length vs st env) r) :
    r.env = env ∧ ∃ ss, ValuesEval (table (st₀ :: up)) vs ss r.nerrors ∧
      ∀ k, kbsymtabGet r.symtab k = if k = key then some (pre' ++ ss) else kbsymtabGet st k := by
  induction vs generalizing pre pre' st env with
  | nil =>
    obtain rfl := haltsWith_pure_iff.mp hr
    refine ⟨rfl, [], .nil, fun k => ?_⟩
    split_ifs with hk
    · rw [hk, h.current]
    · rfl
  | cons v vs ih =>
    obtain ⟨r₁, hr₁, hr⟩ := haltsWith_evalValues_cons.mp hr
    obtain ⟨m, o, ho, hout⟩ := h.haltsWith_substitute hscope hr₁
    cases o with
    | error x =>
      obtain ⟨he, henv⟩ := hout
      simp only [he, one_ne_zero, if_false] at hr
      subst hr
      refine ⟨henv, v :: vs, .undefined ho, fun k => ?_⟩
      split_ifs with hk
      · rw [hk, h.current]
      · rfl
    | ok s =>
      obtain rfl := hout
      have hlen : pre.length + 1 = (pre ++ [v]).length := by simp
      simp only [if_true, hlen] at hr
      obtain ⟨henv, ss, hss, hlook⟩ := ih (h.next ⟨m, ho⟩) hr
      refine ⟨henv, s :: ss, .done ⟨m, ho⟩ hss, fun k => ?_⟩
      rw [hlook k, h.set_get]
      split_ifs <;> simp

theorem halts_evalValues_iff (h : ValuesAt up st₀ key pre pre' vs st) (env : Env) :
    Halts (evalValues L up key pre.length vs st env) ↔
      ∃ ss e, ValuesEval (table (st₀ :: up)) vs ss e := by
  constructor
  · rintro ⟨r, hr⟩
    obtain ⟨_, ss, hss, _⟩ := haltsWith_evalValues hscope h hr
    exact ⟨ss, _, hss⟩
  · rintro ⟨ss, e, hss⟩
    induction hss generalizing pre pre' st env with
    | nil => exact ⟨_, haltsWith_pure_iff.mpr rfl⟩
    | @done v s vs ss e hv _ ih =>
      obtain ⟨r₁, hr₁, hout⟩ := h.halts_substitute (L := L) hscope env hv.choose_spec
      obtain rfl : r₁ = _ := hout
      have hlen : pre.length + 1 = (pre ++ [v]).length := by simp
      obtain ⟨r, hr⟩ := ih (h.next hv) env
      refine ⟨r, haltsWith_evalValues_cons.mpr ⟨_, hr₁, ?_⟩⟩
      simpa only [if_true, hlen] using hr
    | @undefined v vs n x hv =>
      obtain ⟨r₁, hr₁, hout⟩ := h.halts_substitute (L := L) hscope env hv
      refine ⟨{ symtab := st, env := r₁.env, nerrors := r₁.nerrors },
        haltsWith_evalValues_cons.mpr ⟨r₁, hr₁, ?_⟩⟩
      rw [if_neg (by simp [hout.1])]

/-! ### One node -/

omit hscope

/-- The loop over the keys of a node: those still to come have their values as written. -/
structure KeysAt (up : List Symtab) (st₀ : Symtab) (keys : List CStr) (st : Symtab) : Prop where
  part : PartlyEvaluated up st₀ st
  raw : ∀ key ∈ keys, kbsymtabGet st key = kbsymtabGet st₀ key
  bound : ∀ key ∈ keys, ∃ vs, kbsymtabGet st₀ key = some vs
  nodup : keys.Nodup
  srcdef : kbnodeGetSrcdef st₀ ≠ none

variable {keys : List CStr}

theorem KeysAt.valuesAt (h : KeysAt up st₀ (key :: keys) st) :
    ValuesAt up st₀ key [] [] (kbnodeGetvalueAll st key) st := by
  obtain ⟨vs, hvs⟩ := h.bound key List.mem_cons_self
  have hraw := h.raw key List.mem_cons_self
  have hall : kbnodeGetvalueAll st key = vs := by simp [kbnodeGetvalueAll, hraw, hvs]
  exact ⟨h.part, by rw [hall]; exact hvs, by rw [hall, hraw]; exact hvs, .nil⟩

/-- Evaluating one key moves the loop on. -/
theorem KeysAt.next (h : KeysAt up st₀ (key :: keys) st) {st' : Symtab} {ss : List CStr} {e : ℕ}
    (hss : ValuesEval (table (st₀ :: up)) (kbnodeGetvalueAll st key) ss e)
    (hget : ∀ k, kbsymtabGet st' k = if k = key then some ss else kbsymtabGet st k) :
    KeysAt up st₀ keys st' := by
  refine ⟨fun k => ?_, fun k hk => ?_, fun k hk => h.bound k (List.mem_cons_of_mem _ hk),
    (List.nodup_cons.mp h.nodup).2, h.srcdef⟩
  · rw [hget]
    split_ifs with hk
    · rw [hk, h.valuesAt.raw]
      exact .some hss.rawOrDone
    · exact h.part k
  · have hne : k ≠ key := by
      rintro rfl
      exact (List.nodup_cons.mp h.nodup).1 hk
    rw [hget, if_neg hne]
    exact h.raw k (List.mem_cons_of_mem _ hk)

/-- What became of the values of a node when `n` errors were counted. -/
structure NodeEvaluated (up : List Symtab) (st₀ : Symtab) (n : ℕ) (st : Symtab) : Prop where
  values : ∀ key, Option.Rel
    (fun vs ss => ∃ e ≤ n, ValuesEval (table (st₀ :: up)) vs ss e)
    (kbsymtabGet st₀ key) (kbsymtabGet st key)
  errors : n ≠ 0 → ∃ key vs ss e, kbsymtabGet st₀ key = some vs ∧
    ValuesEval (table (st₀ :: up)) vs ss e ∧ e ≠ 0

include hscope

theorem haltsWith_evalKeys (h : KeysAt up st₀ keys st) {env : Env} {r : NodeEval}
    (hr : HaltsWith (evalKeys L up keys st env) r) :
    r.env = env ∧
      (∀ key ∈ keys, ∀ vs, kbsymtabGet st₀ key = some vs → ∃ ss, ∃ e ≤ r.nerrors,
        kbsymtabGet r.symtab key = some ss ∧ ValuesEval (table (st₀ :: up)) vs ss e) ∧
      (∀ key, key ∉ keys → kbsymtabGet r.symtab key = kbsymtabGet st key) ∧
      (r.nerrors ≠ 0 → ∃ key vs ss e, kbsymtabGet st₀ key = some vs ∧
        ValuesEval (table (st₀ :: up)) vs ss e ∧ e ≠ 0) := by
  induction keys generalizing st env r with
  | nil =>
    obtain rfl := haltsWith_pure_iff.mp hr
    exact ⟨rfl, by simp, fun _ _ => rfl, fun hne => absurd rfl hne⟩
  | cons key keys ih =>
    rcases haltsWith_evalKeys_cons.mp hr with ⟨hno, _⟩ | ⟨_, r₁, r₂, hr₁, hr₂, rfl⟩
    · exact absurd hno (h.part.srcdef h.srcdef)
    obtain ⟨henv₁, ss, hss, hget⟩ := haltsWith_evalValues hscope h.valuesAt hr₁
    obtain ⟨henv₂, hdone, hkeep, herr⟩ := ih (h.next hss hget) hr₂
    have hkey : key ∉ keys := (List.nodup_cons.mp h.nodup).1
    refine ⟨henv₂.trans henv₁, fun k hk vs hvs => ?_, fun k hk => ?_, fun hne => ?_⟩
    · rcases List.mem_cons.mp hk with rfl | hk
      · obtain rfl := Option.some.inj (hvs.symm.trans h.valuesAt.raw)
        exact ⟨ss, r₁.nerrors, Nat.le_add_right _ _, by rw [hkeep k hkey, hget, if_pos rfl]; rfl, hss⟩
      · obtain ⟨ss', e, he, hget', hss'⟩ := hdone k hk vs hvs
        exact ⟨ss', e, he.trans (Nat.le_add_left _ _), hget', hss'⟩
    · obtain ⟨hne, hk⟩ := List.ne_and_not_mem_of_not_mem_cons hk
      exact (hkeep k hk).trans ((hget k).trans (if_neg hne))
    · by_cases he : r₁.nerrors = 0
      · exact herr (by simpa [he] using hne)
      · exact ⟨key, _, ss, _, h.valuesAt.raw, hss, he⟩

theorem halts_evalKeys_iff (h : KeysAt up st₀ keys st) {env : Env} :
    Halts (evalKeys L up keys st env) ↔ ∀ key ∈ keys, ∀ vs, kbsymtabGet st₀ key = some vs →
      ∃ ss e, ValuesEval (table (st₀ :: up)) vs ss e := by
  constructor
  · rintro ⟨r, hr⟩ key hkey vs hvs
    obtain ⟨_, hdone, _⟩ := haltsWith_evalKeys hscope h hr
    obtain ⟨ss, e, _, _, hss⟩ := hdone key hkey vs hvs
    exact ⟨ss, e, hss⟩
  · intro hall
    induction keys generalizing st env with
    | nil => exact ⟨_, haltsWith_pure_iff.mpr rfl⟩
    | cons key keys ih =>
      have hsrc := h.part.srcdef h.srcdef
      obtain ⟨r₁, hr₁⟩ := (halts_evalValues_iff (L := L) hscope h.valuesAt env).mpr
        (hall key List.mem_cons_self _ h.valuesAt.raw)
      obtain ⟨_, ss, hss, hget⟩ := haltsWith_evalValues hscope h.valuesAt hr₁
      obtain ⟨r₂, hr₂⟩ : Halts (evalKeys L up keys r₁.symtab r₁.env) := ih (h.next hss hget)
        fun k hk => hall k (List.mem_cons_of_mem _ hk)
      exact ⟨_, haltsWith_evalKeys_cons.mpr (.inr ⟨hsrc, r₁, r₂, hr₁, hr₂, rfl⟩)⟩

/-! ### The whole tree -/

omit hscope

/-- A node that has its origin and only templates as values. -/
def TemplateNode (_ : List Symtab) (t : KbTree) : Prop :=
  kbnodeGetSrcdef t.symtab ≠ none ∧ ReadableTable t.symtab

/-- No array of the node gets to a value whose expansion does not end. -/
def NodeSettles (up : List Symtab) (t : KbTree) : Prop :=
  ∀ key vs, kbsymtabGet t.symtab key = some vs →
    ∃ ss e, ValuesEval (table (t.symtab :: up)) vs ss e

def NodeExpands (up : List Symtab) (t : KbTree) : Prop :=
  ∀ key vs, kbsymtabGet t.symtab key = some vs →
    ∀ v ∈ vs, ∃ s, Expands (table (t.symtab :: up)) (parse v) s

/-- A node and what evaluation made of it, with `n` errors in the whole tree. -/
def TreeEvaluated (n : ℕ) (up : List Symtab) (t t' : KbTree) : Prop :=
  t'.type = t.type ∧ ∀ key, Option.Rel
    (fun vs ss => ∃ e ≤ n, ValuesEval (table (t.symtab :: up)) vs ss e)
    (kbsymtabGet t.symtab key) (kbsymtabGet t'.symtab key)

theorem rel_imp {α β : Type} {R S : α → β → Prop} (hRS : ∀ a b, R a b → S a b) {o : Option α}
    {o' : Option β} (h : Option.Rel R o o') : Option.Rel S o o' := by
  cases h with
  | none => exact .none
  | some h => exact .some (hRS _ _ h)

theorem TreeEvaluated.mono {n m : ℕ} (hnm : n ≤ m) {t t' : KbTree}
    (h : TreeEvaluated n up t t') : TreeEvaluated m up t t' :=
  ⟨h.1, fun key => rel_imp (fun _ _ ⟨e, he, hss⟩ => ⟨e, he.trans hnm, hss⟩) (h.2 key)⟩

/-- A tree and what evaluation made of it, with `n` errors. -/
structure EvaluatesTo (up : List Symtab) (t t' : KbTree) (n : ℕ) : Prop where
  nodes : ∀ up₂, KbTree.Related (TreeEvaluated n) up up₂ t t'
  errors : n ≠ 0 → ¬ t.Forall NodeExpands up

theorem keysAt_self (hsrc : kbnodeGetSrcdef st ≠ none) : KeysAt up st st.keys st where
  part := .refl
  raw _ _ := rfl
  bound _ hkey := Option.isSome_iff_exists.mp (AList.lookup_isSome.mpr (AList.mem_keys.mpr hkey))
  nodup := st.nodupKeys
  srcdef := hsrc

/-- All keys of a node. -/
theorem haltsWith_evalKeys_self (hscope : ∀ st' ∈ st :: up, ReadableTable st')
    (hsrc : kbnodeGetSrcdef st ≠ none) {env : Env} {r : NodeEval}
    (hr : HaltsWith (evalKeys L up st.keys st env) r) :
    r.env = env ∧ NodeEvaluated up st r.nerrors r.symtab := by
  obtain ⟨henv, hdone, hkeep, herr⟩ := haltsWith_evalKeys hscope (keysAt_self hsrc) hr
  refine ⟨henv, fun key => ?_, herr⟩
  by_cases hkey : key ∈ st.keys
  · have hself : KeysAt up st st.keys st := keysAt_self hsrc
    obtain ⟨vs, hvs⟩ := hself.bound key hkey
    obtain ⟨ss, e, he, hget, hss⟩ := hdone key hkey vs hvs
    rw [hvs, hget]
    exact .some ⟨e, he, hss⟩
  · have hnone : kbsymtabGet st key = none := AList.lookup_eq_none.mpr (mt AList.mem_keys.mp hkey)
    rw [hkeep key hkey, hnone]
    exact .none

theorem haltsWith_kbtreeEvalAll {P : KbTree → KbTree → ℕ → Prop} {ts : List KbTree}
    (h : ∀ t ∈ ts, ∀ env r, HaltsWith (kbtreeEval L up t env) r →
      r.env = env ∧ P t r.tree r.nerrors)
    {env : Env} {r : TreeEval (List KbTree)} (hr : HaltsWith (kbtreeEvalAll L up ts env) r) :
    r.env = env ∧
      List.Forall₂ (fun t t' => ∃ n ≤ r.nerrors, P t t' n) ts r.tree ∧
      (r.nerrors ≠ 0 → ∃ t ∈ ts, ∃ t' n, P t t' n ∧ n ≠ 0) := by
  induction ts generalizing env r with
  | nil =>
    obtain rfl := haltsWith_pure_iff.mp hr
    exact ⟨rfl, .nil, fun hne => absurd rfl hne⟩
  | cons t ts ih =>
    obtain ⟨r₁, rs, hr₁, hrs, rfl⟩ := haltsWith_kbtreeEvalAll_cons.mp hr
    obtain ⟨henv, hP⟩ := h t List.mem_cons_self env r₁ hr₁
    rw [henv] at hrs
    obtain ⟨henvs, hrest, herr⟩ := ih (fun u hu => h u (List.mem_cons_of_mem _ hu)) hrs
    refine ⟨henvs, .cons ⟨r₁.nerrors, Nat.le_add_right _ _, hP⟩
      (hrest.imp fun _ _ ⟨n, hn, hP⟩ => ⟨n, hn.trans (Nat.le_add_left _ _), hP⟩), fun hne => ?_⟩
    by_cases he : r₁.nerrors = 0
    · obtain ⟨u, hu, u', n, hP', hn⟩ := herr (by simpa [he] using hne)
      exact ⟨u, List.mem_cons_of_mem _ hu, u', n, hP', hn⟩
    · exact ⟨t, List.mem_cons_self, r₁.tree, r₁.nerrors, hP, he⟩

/-- What evaluation makes of a tree of templates. -/
theorem haltsWith_kbtreeEval {t : KbTree} {env : Env} {r : TreeEval KbTree}
    (hup : ∀ st ∈ up, ReadableTable st) (ht : t.Forall TemplateNode up)
    (hr : HaltsWith (kbtreeEval L up t env) r) :
    r.env = env ∧ EvaluatesTo up t r.tree r.nerrors := by
  induction t using KbTree.inductionOn generalizing up env r with
  | node ty st js hs ihj ihh =>
    obtain ⟨⟨hsrc, hread⟩, hj, hh⟩ := KbTree.forall_node.mp ht
    have hscope : ∀ st' ∈ st :: up, ReadableTable st' := List.forall_mem_cons.mpr ⟨hread, hup⟩
    rcases haltsWith_kbtreeEval_node.mp hr with ⟨hno, _⟩ | ⟨_, rh, rj, rk, hrh, hrj, hrk, rfl⟩
    · exact absurd hno hsrc
    obtain ⟨henvh, hallh, herrh⟩ := haltsWith_kbtreeEvalAll (P := EvaluatesTo (st :: up))
      (fun t ht env r hr => ihh t ht hscope (hh t ht) hr) hrh
    obtain ⟨henvj, hallj, herrj⟩ := haltsWith_kbtreeEvalAll (P := EvaluatesTo (st :: up))
      (fun t ht env r hr => ihj t ht hscope (hj t ht) hr) hrj
    obtain ⟨henvk, hvals⟩ := haltsWith_evalKeys_self hscope hsrc hrk
    refine ⟨henvk.trans (henvj.trans henvh), fun up₂ => ?_, fun hne hexp => ?_⟩
    · refine KbTree.related_node ⟨rfl, fun key => ?_⟩ ?_ ?_
      · exact rel_imp (fun _ _ ⟨e, he, hss⟩ => ⟨e, he.trans (Nat.le_add_left _ _), hss⟩)
          (hvals.values key)
      · refine hallj.imp fun t t' ⟨n, hn, hto⟩ => (hto.nodes _).imp fun _ _ _ hR => ?_
        exact hR.mono (by dsimp only at hn ⊢; omega)
      · refine hallh.imp fun t t' ⟨n, hn, hto⟩ => (hto.nodes _).imp fun _ _ _ hR => ?_
        exact hR.mono (by dsimp only at hn ⊢; omega)
    · obtain ⟨hroot, hexpj, hexph⟩ := KbTree.forall_node.mp hexp
      by_cases hkn : rk.nerrors = 0
      · by_cases hjn : rj.nerrors = 0
        · obtain ⟨t, ht, _, n, hto, hn⟩ := herrh (by simpa [hkn, hjn] using hne)
          exact hto.errors hn (hexph t ht)
        · obtain ⟨t, ht, _, n, hto, hn⟩ := herrj hjn
          exact hto.errors hn (hexpj t ht)
      · obtain ⟨key, vs, ss, e, hvs, hss, he⟩ := hvals.errors hkn
        obtain ⟨v, hv, hno⟩ := hss.not_expands he
        exact hno (hroot key vs hvs v hv)

theorem halts_kbtreeEvalAll_iff {ts : List KbTree}
    (h : ∀ t ∈ ts, ∀ env r, HaltsWith (kbtreeEval L up t env) r → r.env = env) {env : Env} :
    Halts (kbtreeEvalAll L up ts env) ↔ ∀ t ∈ ts, Halts (kbtreeEval L up t env) := by
  induction ts generalizing env with
  | nil => simpa using ⟨_, haltsWith_pure_iff.mpr rfl⟩
  | cons t ts ih =>
    have ih' : ∀ env, Halts (kbtreeEvalAll L up ts env) ↔ ∀ t ∈ ts, Halts (kbtreeEval L up t env) :=
      fun _ => ih fun u hu => h u (List.mem_cons_of_mem _ hu)
    rw [List.forall_mem_cons]
    constructor
    · rintro ⟨r, hr⟩
      obtain ⟨r₁, rs, hr₁, hrs, _⟩ := haltsWith_kbtreeEvalAll_cons.mp hr
      rw [h t List.mem_cons_self env r₁ hr₁] at hrs
      exact ⟨⟨r₁, hr₁⟩, (ih' env).mp ⟨rs, hrs⟩⟩
    · rintro ⟨⟨r₁, hr₁⟩, hrest⟩
      have henv := h t List.mem_cons_self env r₁ hr₁
      obtain ⟨rs, hrs⟩ := (ih' env).mpr hrest
      exact ⟨_, haltsWith_kbtreeEvalAll_cons.mpr ⟨r₁, rs, hr₁, by rwa [henv], rfl⟩⟩

/-- Evaluation of a tree of templates ends when no array of it gets to an expansion without end. -/
theorem halts_kbtreeEval_iff {t : KbTree} {env : Env} (hup : ∀ st ∈ up, ReadableTable st)
    (ht : t.Forall TemplateNode up) :
    Halts (kbtreeEval L up t env) ↔ t.Forall NodeSettles up := by
  induction t using KbTree.inductionOn generalizing up env with
  | node ty st js hs ihj ihh =>
    obtain ⟨⟨hsrc, hread⟩, hj, hh⟩ := KbTree.forall_node.mp ht
    have hscope : ∀ st' ∈ st :: up, ReadableTable st' := List.forall_mem_cons.mpr ⟨hread, hup⟩
    have henvh : ∀ t ∈ hs, ∀ env r, HaltsWith (kbtreeEval L (st :: up) t env) r → r.env = env :=
      fun t ht env r hr => (haltsWith_kbtreeEval hscope (hh t ht) hr).1
    have henvj : ∀ t ∈ js, ∀ env r, HaltsWith (kbtreeEval L (st :: up) t env) r → r.env = env :=
      fun t ht env r hr => (haltsWith_kbtreeEval hscope (hj t ht) hr).1
    have hkeys : ∀ env, Halts (evalKeys L up st.keys st env) ↔
        NodeSettles up (.node ty st js hs) := by
      intro env
      rw [halts_evalKeys_iff hscope (keysAt_self hsrc)]
      refine ⟨fun h key vs hvs => h key ?_ vs hvs, fun h key _ => h key⟩
      exact AList.mem_keys.mp (AList.lookup_isSome.mp (Option.isSome_iff_exists.mpr ⟨vs, hvs⟩))
    have hjobs : ∀ env, Halts (kbtreeEvalAll L (st :: up) js env) ↔
        ∀ c ∈ js, c.Forall NodeSettles (st :: up) := fun env =>
      (halts_kbtreeEvalAll_iff henvj).trans
        (forall₂_congr fun t ht => ihj t ht hscope (hj t ht))
    have hhandlers : ∀ env, Halts (kbtreeEvalAll L (st :: up) hs env) ↔
        ∀ c ∈ hs, c.Forall NodeSettles (st :: up) := fun env =>
      (halts_kbtreeEvalAll_iff henvh).trans
        (forall₂_congr fun t ht => ihh t ht hscope (hh t ht))
    rw [KbTree.forall_node]
    constructor
    · rintro ⟨r, hr⟩
      rcases haltsWith_kbtreeEval_node.mp hr with ⟨hno, _⟩ | ⟨_, rh, rj, rk, hrh, hrj, hrk, _⟩
      · exact absurd hno hsrc
      · exact ⟨(hkeys _).mp ⟨rk, hrk⟩, (hjobs _).mp ⟨rj, hrj⟩, (hhandlers _).mp ⟨rh, hrh⟩⟩
    · rintro ⟨hk, hj', hh'⟩
      obtain ⟨rh, hrh⟩ := (hhandlers env).mpr hh'
      obtain ⟨rj, hrj⟩ := (hjobs rh.env).mpr hj'
      obtain ⟨rk, hrk⟩ := (hkeys rj.env).mpr hk
      exact ⟨_, haltsWith_kbtreeEval_node.mpr (.inr ⟨hsrc, rh, rj, rk, hrh, hrj, hrk, rfl⟩)⟩

end Kubeka
