import Kubeka.Eval.Clean
import Kubeka.Eval.Expansion
import Kubeka.Eval.Halting
import Kubeka.Eval.Shape

/-!
# Values that can be read

A value has a reading when it and all that it leads to are templates whose names
are bound. The reading is its expansion, and it can be told before anything is
evaluated. Whatever the other values of a tree are, with calls of builtin
functions or with references that only come together later, evaluation makes of
such a value its reading.
-/

namespace Kubeka

open Templates Fuel

/-! ### Readings -/

theorem wellFormed_lit_iff {c : Char} {t : Template CStr Char} :
    WellFormed IsVariable (.lit c :: t) ↔
      (c = '$' → ∃ d u, t = .lit d :: u ∧ d ≠ '<') ∧ WellFormed IsVariable t := by
  constructor
  · intro h
    cases h with
    | lit hc ht => exact ⟨fun h => absurd h hc, ht⟩
    | dollar hd ht => exact ⟨fun _ => ⟨_, _, rfl, hd⟩, ht⟩
  · rintro ⟨hc, ht⟩
    by_cases hdollar : c = '$'
    · obtain ⟨d, u, rfl, hd⟩ := hc hdollar
      rw [hdollar]
      exact .dollar hd ht
    · exact .lit hdollar ht

theorem wellFormed_ref_iff {name : CStr} {t : Template CStr Char} :
    WellFormed IsVariable (.ref name :: t) ↔ IsName name ∧ WellFormed IsVariable t := by
  constructor
  · intro h
    cases h with
    | ref hr hn ht => exact ⟨isName_iff.mpr ⟨hr, hn⟩, ht⟩
  · rintro ⟨hn, ht⟩
    exact .ref hn.2 hn.1 ht

/-- The template starts with a letter that makes no reference with a `$` before it. -/
def closesDollar : Template CStr Char → Bool
  | .lit d :: _ => d ≠ '<'
  | _ => false

theorem closesDollar_iff {t : Template CStr Char} :
    closesDollar t = true ↔ ∃ d u, t = .lit d :: u ∧ d ≠ '<' := by
  cases t with
  | nil => simp [closesDollar]
  | cons g t => cases g <;> simp [closesDollar]

def wellFormed : Template CStr Char → Bool
  | [] => true
  | .lit c :: t => (c ≠ '$' || closesDollar t) && wellFormed t
  | .ref name :: t => decide (IsName name) && wellFormed t

theorem wellFormed_iff {t : Template CStr Char} :
    wellFormed t = true ↔ WellFormed IsVariable t := by
  induction t with
  | nil => exact iff_of_true rfl .nil
  | cons g t ih =>
    cases g with
    | lit c =>
      rw [wellFormed_lit_iff, wellFormed, Bool.and_eq_true, ih, Bool.or_eq_true, closesDollar_iff,
        decide_eq_true_eq, ← Decidable.imp_iff_not_or]
    | ref name => rw [wellFormed_ref_iff, wellFormed, Bool.and_eq_true, ih, decide_eq_true_eq]

instance (t : Template CStr Char) : Decidable (WellFormed IsVariable t) :=
  decidable_of_iff (wellFormed t = true) wellFormed_iff

instance (s : CStr) : Decidable (Readable s) := inferInstanceAs (Decidable (_ ∧ _))

/-- What a text in a node and its ancestors stands for, when it and all texts that it leads to, less
than `depth` references away, are templates whose names are bound. -/
def reading (scope : List Symtab) : ℕ → CStr → Option CStr
  | 0, _ => none
  | depth + 1, text =>
    if Readable text then
      expandWith (fun name =>
        (kbnodeResolve scope name).bind fun values =>
          (values.mapM (reading scope depth)).map kbutilStrarrayFormat) (parse text)
    else none

def ReadsAs (scope : List Symtab) (text s : CStr) : Prop :=
  ∃ depth, reading scope depth text = some s

variable {scope : List Symtab} {text s : CStr}

theorem ReadsAs.readable (h : ReadsAs scope text s) : Readable text := by
  obtain ⟨depth, h⟩ := h
  cases depth with
  | zero => simp [reading] at h
  | succ depth =>
    rw [reading] at h
    split_ifs at h with hread
    exact hread

/-- The nearest definition of the name has a reading for each of its values. -/
def NameReads (scope : List Symtab) (name : CStr) : Prop :=
  ∃ vs, kbnodeResolve scope name = some vs ∧ ∀ v ∈ vs, ∃ s, ReadsAs scope v s

open Classical in
/-- The names with readings in the scope `raw`, bound as in `scope`. -/
noncomputable def readTable (raw scope : List Symtab) : Table CStr Char := fun name =>
  if NameReads raw name then table scope name else none

theorem readTable_some {raw : List Symtab} {name : CStr} (h : NameReads raw name) :
    readTable raw scope name = table scope name := if_pos h

theorem readTable_none {raw : List Symtab} {name : CStr} (h : ¬ NameReads raw name) :
    readTable raw scope name = none := if_neg h

/-- A reading is the value of the template among the names that have readings. -/
theorem expands_of_reading {depth : ℕ} (h : reading scope depth text = some s) :
    Expands (readTable scope scope) (parse text) s := by
  induction depth generalizing text s with
  | zero => simp [reading] at h
  | succ depth ih =>
    rw [reading] at h
    split_ifs at h with hread
    refine expands_of_expandWith (fun name s' hs' => ?_) h
    obtain ⟨values, hvalues, hs'⟩ := Option.bind_eq_some_iff.mp hs'
    obtain ⟨ss, hss, rfl⟩ := Option.map_eq_some_iff.mp hs'
    have hall := mapM_eq_some_iff.mp hss
    have hname : NameReads scope name := by
      refine ⟨values, hvalues, fun v hv => ?_⟩
      obtain ⟨s, -, hs⟩ := Lists.forall₂_right_of_mem hall hv
      exact ⟨s, depth, hs⟩
    refine ⟨formatTemplate (values.map parse), ?_, ?_⟩
    · rw [readTable_some hname]
      simp [table, hvalues]
    · refine expands_formatTemplate (List.forall₂_map_left_iff.mpr ?_)
      exact hall.imp fun v s hv => ih hv

theorem ReadsAs.expands (h : ReadsAs scope text s) :
    Expands (readTable scope scope) (parse text) s := by
  obtain ⟨depth, h⟩ := h
  exact expands_of_reading h

theorem ReadsAs.unique {s' : CStr} (h : ReadsAs scope text s) (h' : ReadsAs scope text s') :
    s = s' := h.expands.unique h'.expands

theorem readTable_wellFormed {name : CStr} {b : Template CStr Char}
    (h : readTable scope scope name = some b) : WellFormed IsVariable b := by
  by_cases hname : NameReads scope name
  · rw [readTable_some hname] at h
    obtain ⟨vs, hvs, rfl⟩ := Option.map_eq_some_iff.mp h
    obtain ⟨vs', hvs', hread⟩ := hname
    obtain rfl : vs' = vs := Option.some.inj (hvs'.symm.trans hvs)
    refine wellFormed_formatTemplate fun t ht => ?_
    obtain ⟨v, hv, rfl⟩ := List.mem_map.mp ht
    obtain ⟨s, hs⟩ := hread v hv
    exact hs.readable.1
  · rw [readTable_none hname] at h
    contradiction

/-- A text without references reads as itself. -/
theorem ReadsAs.eq_of_clean (h : ReadsAs scope text s) (hclean : Clean text) : s = text := by
  have hread := h.readable
  have hnone : firstRef (parse text) = none := by
    by_contra hne
    obtain ⟨x, hx⟩ := Option.ne_none_iff_exists'.mp hne
    obtain ⟨b, r, hcut⟩ := cut_refOpen_render_some hread.1 hx
    rw [hread.2] at hcut
    rw [Clean, ← Text.cut_eq_none_iff, hcut] at hclean
    contradiction
  have hself : Expands (readTable scope scope) (parse text) (letters (parse text)) :=
    ⟨0, evaluates_of_firstRef_none hnone⟩
  rw [h.expands.unique hself, letters_eq_render hnone, hread.2]

/-! ### Substitution -/

variable {L : Libds} {env : Env}

/-- A loop that rewrites a template in a table of names bound in the scope comes to its text. -/
theorem substLoop_of_rewrite {ρ : Table CStr Char}
    (hρ : ∀ x b, ρ x = some b → WellFormed IsVariable b ∧
      ∃ vs, kbnodeResolve scope x = some vs ∧ render b = kbutilStrarrayFormat vs)
    {fuel : ℕ} {t : Template CStr Char} (ht : WellFormed IsVariable t)
    (h : rewrite ρ fuel t = some (.ok s)) :
    substLoop L scope fuel env (render t) = some { nerrors := 0, env := env, newvalue := s } := by
  induction fuel generalizing t with
  | zero => simp [rewrite] at h
  | succ fuel ih =>
    have hfind := findNextRef_render ht
    cases hf : firstRef t with
    | none =>
      obtain rfl : letters t = s := by simpa [rewrite, hf] using h
      simp only [substLoop, hfind, hf, Option.map_none, letters_eq_render hf]
    | some x =>
      have hx : IsName x := ht.isName (firstRef_mem hf)
      cases hb : ρ x with
      | none => simp [rewrite, hf, hb] at h
      | some b =>
        obtain ⟨hwell, vs, hvs, hrender⟩ := hρ x b hb
        have hsubst : L.strsubst (render t) (refText x) (kbutilStrarrayFormat vs) =
            render (substAll x b t) := by
          rw [L.strsubst_eq _ _ _ (by simp [refText, refOpen]), ← replaceAll_render hx.2.1 _ ht,
            hrender]
        simp only [substLoop, hfind, hf, Option.map_some, resolve_refText hx.1 hx.2.1, hvs, hsubst]
        exact ih (hwell.substAll ht) (by simpa [rewrite, hf, hb] using h)

/-- What a value stands for: the text itself when it has no reference, or its reading. -/
def StandsFor (scope : List Symtab) (text s : CStr) : Prop :=
  (Clean text ∧ s = text) ∨ ReadsAs scope text s

theorem StandsFor.eq_of_clean (h : StandsFor scope text s) (hclean : Clean text) : s = text := by
  rcases h with ⟨-, h⟩ | h
  · exact h
  · exact h.eq_of_clean hclean

/-- The value is as written, or what it stands for. -/
def Kept (raw : List Symtab) (v v' : CStr) : Prop := ∀ s, StandsFor raw v s → v' = v ∨ v' = s

theorem kept_self (raw : List Symtab) (v : CStr) : Kept raw v v := fun _ _ => .inl rfl

section

variable {raw cur : List Symtab} {v v' : CStr}

theorem Kept.partial (h : Kept raw v v') (hv : ReadsAs raw v s) :
    Readable v' ∧ Partial (readTable raw raw) (parse v) (parse v') := by
  have hdone : RawOrDone (readTable raw raw) v v' := by
    rcases h s (.inr hv) with rfl | rfl
    · exact .inl rfl
    · exact .inr hv.expands
  exact hdone.readable (fun _ _ => readTable_wellFormed) hv.readable

/-- The current values of a name with readings. -/
theorem values_of_scopeRel (h : ScopeRel (Kept raw) raw cur) {name : CStr} (hname : NameReads raw name) :
    ∃ vs vs', kbnodeResolve raw name = some vs ∧ kbnodeResolve cur name = some vs' ∧
      List.Forall₂ (fun v v' => Readable v' ∧ Partial (readTable raw raw) (parse v) (parse v'))
        vs vs' := by
  obtain ⟨vs, hvs, hread⟩ := hname
  have hrel := h name
  rw [hvs] at hrel
  generalize kbnodeResolve cur name = o at hrel ⊢
  cases hrel with
  | @some _ vs' hkept =>
    refine ⟨vs, vs', hvs, rfl, ?_⟩
    refine ((List.forall₂_and_left vs vs').mpr ⟨hread, hkept⟩).imp ?_
    rintro v v' ⟨⟨s, hs⟩, hk⟩
    exact hk.partial hs

theorem partialTable_of_scopeRel (h : ScopeRel (Kept raw) raw cur) :
    PartialTable (readTable raw raw) (readTable raw cur) := by
  intro name
  by_cases hname : NameReads raw name
  · obtain ⟨vs, vs', hvs, hvs', hall⟩ := values_of_scopeRel h hname
    rw [readTable_some hname, readTable_some hname]
    simp only [table, hvs, hvs', Option.map_some]
    refine .some (formatTemplate_of (fun s _ => .refl _) .nil (fun ht hu => ht.append hu) ?_)
    rw [List.forall₂_map_left_iff, List.forall₂_map_right_iff]
    exact hall.imp fun _ _ hv => hv.2
  · rw [readTable_none hname, readTable_none hname]
    exact .none

theorem bound_of_scopeRel (h : ScopeRel (Kept raw) raw cur) {name : CStr} {b : Template CStr Char}
    (hb : readTable raw cur name = some b) : WellFormed IsVariable b ∧
      ∃ vs, kbnodeResolve cur name = some vs ∧ render b = kbutilStrarrayFormat vs := by
  by_cases hname : NameReads raw name
  · obtain ⟨vs, vs', -, hvs', hall⟩ := values_of_scopeRel h hname
    have hread : ∀ v' ∈ vs', Readable v' := fun v' hv' => by
      obtain ⟨v, -, hv⟩ := Lists.forall₂_left_of_mem hall hv'
      exact hv.1
    rw [readTable_some hname] at hb
    obtain rfl : formatTemplate (vs'.map parse) = b := by simpa [table, hvs'] using hb
    refine ⟨wellFormed_formatTemplate fun t ht => ?_, vs', hvs', ?_⟩
    · obtain ⟨v', hv', rfl⟩ := List.mem_map.mp ht
      exact (hread v' hv').1
    · rw [render_formatTemplate, map_render_parse hread]
  · rw [readTable_none hname] at hb
    contradiction

/-- The loop comes from a value, or what it stands for, to what it stands for. -/
theorem substitute_standsFor (hcur : ScopeRel (Kept raw) raw cur) (hv : StandsFor raw v s)
    (hv' : v' = v ∨ v' = s) {r : Substituted} (h : HaltsWith (substitute L cur env v') r) :
    r.newvalue = s := by
  obtain ⟨fuel, hloop⟩ := substLoop_of_haltsWith h
  suffices hdone : ∃ m, substLoop L cur m env v' =
      some { nerrors := 0, env := env, newvalue := s } by
    obtain ⟨m, hm⟩ := hdone
    have hboth := (substLoop_mono hloop (Nat.le_add_right fuel m)).symm.trans
      (substLoop_mono hm (Nat.le_add_left m fuel))
    rw [Option.some.inj hboth]
  rcases hv with ⟨hclean, rfl⟩ | hv
  · obtain rfl : v' = s := hv'.elim id id
    have hcut : Text.cut refOpen v' = none := Text.cut_eq_none_iff.mpr hclean
    exact ⟨1, by simp [substLoop, findNextRef, strstr, hcut]⟩
  · have hkept : Kept raw v v' := fun s' hs' => by
      rcases hs' with ⟨hclean, rfl⟩ | hs'
      · exact .inl (hv'.elim id fun h => h.trans (hv.eq_of_clean hclean))
      · rwa [hs'.unique hv]
    obtain ⟨hread, hpart⟩ := hkept.partial hv
    obtain ⟨n, hn⟩ := hv.expands
    obtain ⟨m, hm⟩ := hn.toPartial (partialTable_of_scopeRel hcur) hpart
    have hrewrite := rewrite_of_evaluates hm (Nat.lt_succ_self m)
    have hdone : substLoop L cur (m + 1) env (render (parse v')) =
        some { nerrors := 0, env := env, newvalue := s } :=
      substLoop_of_rewrite (fun _ _ => bound_of_scopeRel hcur) hread.1 hrewrite
    rw [hread.2] at hdone
    exact ⟨m + 1, hdone⟩

end

/-! ### Nodes and trees -/

variable {up : List Symtab} {st₀ st : Symtab}

/-- The table of a node during its evaluation, from the table `st₀` as written. -/
def TableKept (up : List Symtab) (st₀ st : Symtab) : Prop := TableRel (Kept (st₀ :: up)) st₀ st

theorem tableKept_self (up : List Symtab) (st : Symtab) : TableKept up st st :=
  tableRel_self (kept_self _) st

/-- Storing the result of a loop keeps the values. -/
theorem TableKept.set (h : TableKept up st₀ st) {key v : CStr} {pre rest : List CStr}
    (hget : kbsymtabGet st key = some (pre ++ v :: rest)) {r : Substituted}
    (hr : HaltsWith (substitute L (st :: up) env v) r) :
    TableKept up st₀ (kbnodeSetSingle st key pre.length r.newvalue).2 := by
  have hscope : ScopeRel (Kept (st₀ :: up)) (st₀ :: up) (st :: up) := h.scopeRel (kept_self _) up
  obtain ⟨_, v₀, -, -, hv₀, hset⟩ := TableRel.set h hget
  exact hset _ fun s hs => .inr (substitute_standsFor hscope hs (hv₀ s hs) hr)

theorem evalKeys_kept {keys : List CStr} {r : NodeEval}
    (h : HaltsWith (evalKeys L up keys st env) r) : TableKept up st r.symtab := by
  refine evalKeys_preserves (R := fun st st' => ∀ st₀, TableKept up st₀ st → TableKept up st₀ st')
    (fun _ _ h => h) (fun _ _ _ h h' st₀ hst => h' st₀ (h st₀ hst)) ?_ h st (tableKept_self up st)
  intro st env key pre v rest r hget hr st₀ hst
  exact hst.set hget hr

/-- Every value that stands for a text in the node as written has become it. -/
def AsRead (up : List Symtab) (n n' : KbTree) : Prop :=
  ∀ key, Option.Rel (List.Forall₂ fun v v' => ∀ s, StandsFor (n.symtab :: up) v s → v' = s)
    (kbsymtabGet n.symtab key) (kbsymtabGet n'.symtab key)

theorem AsRead.of_kept {n n' : KbTree} (h : TableKept up n.symtab n'.symtab)
    (hclean : ∀ key vs, kbsymtabGet n'.symtab key = some vs → ∀ v ∈ vs, Clean v) :
    AsRead up n n' := by
  intro key
  have hrel := h key
  have hkey := hclean key
  generalize kbsymtabGet n.symtab key = o, kbsymtabGet n'.symtab key = o' at hrel hkey
  cases hrel with
  | none => exact .none
  | @some vs vs' hvs =>
    refine .some (((List.forall₂_and_left vs' vs).mpr ⟨hkey vs' rfl, hvs.flip⟩).flip.imp ?_)
    rintro v v' ⟨hv', hk⟩ s hs
    rcases hk s hs with rfl | rfl
    · exact (hs.eq_of_clean hv').symm
    · rfl

/-- Evaluation without errors makes of every value what it stands for, wherever this can be told
from the tree as written. -/
theorem kbtreeEval_asRead {t : KbTree} {r : TreeEval KbTree}
    (h : HaltsWith (kbtreeEval L up t env) r) (hn : r.nerrors = 0) (up₂ : List Symtab) :
    KbTree.Related AsRead up up₂ t r.tree := by
  have hkept : KbTree.Related (fun up n n' => TableKept up n.symtab n'.symtab) up up₂ t r.tree := by
    refine kbtreeEval_related (fun up n => tableKept_self up n.symtab) ?_ h up₂
    intro up env ty st js hs js' hs' r hr _ _
    exact evalKeys_kept hr
  intro p
  refine ⟨fun up' n hat => ?_, (hkept p).2⟩
  obtain ⟨up₂', n', hat', hkeep⟩ := (hkept p).1 up' n hat
  exact ⟨up₂', n', hat', .of_kept hkeep (kbtreeEval_clean h hn up₂ p up₂' n' hat')⟩

end Kubeka
