import Kubeka.Eval.TemplateTree

/-!
# Evaluation is dynamically scoped expansion

`expand` says what a value stands for: each reference is replaced by the
formatted array of the expanded values of the nearest definition, as written.
Evaluation in place computes it, for every order of the keys.
-/

namespace Kubeka

open Templates Fuel

/-! ### Expansion -/

/-- The expansion of a text in a node and its ancestors, when references nest less than `depth`
deep and all names are defined. -/
def expand (scope : List Symtab) : ℕ → CStr → Option CStr
  | 0, _ => none
  | depth + 1, text =>
    expandWith (fun name =>
      (kbnodeResolve scope name).bind fun values =>
        (values.mapM (expand scope depth)).map kbutilStrarrayFormat) (parse text)

/-- Every name that the text reaches is defined, the nesting ends, and `s` is the expansion. -/
def ExpandsTo (scope : List Symtab) (text s : CStr) : Prop :=
  ∃ depth, expand scope depth text = some s

theorem mapM_eq_some_iff {α β : Type} {f : α → Option β} {l : List α} {l' : List β} :
    l.mapM f = some l' ↔ List.Forall₂ (fun a b => f a = some b) l l' := by
  induction l generalizing l' with
  | nil => simp [eq_comm]
  | cons a l ih =>
    simp only [List.mapM_cons, List.forall₂_cons_left_iff, ← ih]
    cases f a with
    | none => simp
    | some b => cases l.mapM f <;> simp [eq_comm]

variable {scope : List Symtab}

theorem expands_formatTemplate {ρ : Table CStr Char} {ts : List (Template CStr Char)}
    {ss : List CStr} (h : List.Forall₂ (fun t s => Expands ρ t s) ts ss) :
    Expands ρ (formatTemplate ts) (kbutilStrarrayFormat ss) := by
  have hformat : Expands ρ (formatTemplate ts) (render (formatTemplate (ss.map ofText))) :=
    formatTemplate_of (R := fun t u => Expands ρ t (render u))
      (fun s _ => by simpa using expands_ofText s) ⟨0, .nil⟩
      (fun ht hu => by simpa using ht.append hu)
      (List.forall₂_map_right_iff.mpr (h.imp fun t s hs => by simpa using hs))
  rw [render_formatTemplate, List.map_map] at hformat
  have hid : List.map (render ∘ ofText) ss = ss := by
    simp [Function.comp_def]
  rwa [hid] at hformat

/-- The expansion is the value of the template in the table of the node. -/
theorem expands_of_expand {depth : ℕ} {text s : CStr} (h : expand scope depth text = some s) :
    Expands (table scope) (parse text) s := by
  induction depth generalizing text s with
  | zero => simp [expand] at h
  | succ depth ih =>
    refine expands_of_expandWith (fun name s' hs' => ?_) h
    obtain ⟨values, hvalues, hs'⟩ := Option.bind_eq_some_iff.mp hs'
    obtain ⟨ss, hss, rfl⟩ := Option.map_eq_some_iff.mp hs'
    refine ⟨formatTemplate (values.map parse), by simp [table, hvalues], ?_⟩
    refine expands_formatTemplate (List.forall₂_map_left_iff.mpr ?_)
    exact (mapM_eq_some_iff.mp hss).imp fun v s hv => ih hv

theorem ExpandsTo.expands {text s : CStr} (h : ExpandsTo scope text s) :
    Expands (table scope) (parse text) s := by
  obtain ⟨depth, h⟩ := h
  exact expands_of_expand h

theorem ExpandsTo.unique {text s s' : CStr} (h : ExpandsTo scope text s)
    (h' : ExpandsTo scope text s') : s = s' :=
  h.expands.unique h'.expands

/-! ### Trees -/

def HasSrcdef (_ : List Symtab) (n : KbTree) : Prop := kbnodeGetSrcdef n.symtab ≠ none

def HasTemplates (_ : List Symtab) (n : KbTree) : Prop :=
  ∀ key vs, kbsymtabGet n.symtab key = some vs → ∀ v ∈ vs, IsTemplate v

def HasExpansions (up : List Symtab) (n : KbTree) : Prop :=
  ∀ key vs, kbsymtabGet n.symtab key = some vs → ∀ v ∈ vs, ∃ s, ExpandsTo (n.symtab :: up) v s

/-- Every value of `n'` is the expansion of the value of `n` in its place. -/
def Expanded (up : List Symtab) (n n' : KbTree) : Prop :=
  n'.type = n.type ∧ ∀ key, Option.Rel (List.Forall₂ (ExpandsTo (n.symtab :: up)))
    (kbsymtabGet n.symtab key) (kbsymtabGet n'.symtab key)

/-- The same variables, listed by the table in another order. -/
def Reordered (_ : List Symtab) (n n₂ : KbTree) : Prop :=
  n₂.type = n.type ∧ n.symtab.entries.Perm n₂.symtab.entries

def SameValues (_ : List Symtab) (n n₂ : KbTree) : Prop :=
  n₂.type = n.type ∧ ∀ key, kbsymtabGet n₂.symtab key = kbsymtabGet n.symtab key

theorem templateNode_of {up : List Symtab} {n : KbTree} (hsrc : HasSrcdef up n)
    (htemplate : HasTemplates up n) : TemplateNode up n :=
  ⟨hsrc, fun key vs hvs v hv => (htemplate key vs hvs v hv).readable⟩

theorem HasExpansions.nodeExpands {up : List Symtab} {n : KbTree} (h : HasExpansions up n) :
    NodeExpands up n := by
  intro key vs hvs v hv
  obtain ⟨s, hs⟩ := h key vs hvs v hv
  exact ⟨s, hs.expands⟩

theorem HasExpansions.nodeSettles {up : List Symtab} {n : KbTree} (h : HasExpansions up n) :
    NodeSettles up n := by
  intro key vs hvs
  have hall := h key vs hvs
  clear hvs
  induction vs with
  | nil => exact ⟨[], 0, .nil⟩
  | cons v vs ih =>
    obtain ⟨s, hs⟩ := hall v List.mem_cons_self
    obtain ⟨ss, e, hss⟩ := ih fun w hw => hall w (List.mem_cons_of_mem _ hw)
    exact ⟨s :: ss, e, .done hs.expands hss⟩

/-- Evaluated without error, every value expands. -/
theorem TreeEvaluated.expands {up : List Symtab} {n n' : KbTree} (h : TreeEvaluated 0 up n n')
    {key : CStr} {vs : List CStr} (hvs : kbsymtabGet n.symtab key = some vs) :
    ∃ ss, kbsymtabGet n'.symtab key = some ss ∧
      List.Forall₂ (fun v s => Expands (table (n.symtab :: up)) (parse v) s) vs ss := by
  have hrel := h.2 key
  rw [hvs] at hrel
  generalize kbsymtabGet n'.symtab key = o at hrel ⊢
  cases hrel with
  | @some _ ss hss =>
    obtain ⟨e, he, hss⟩ := hss
    exact ⟨ss, rfl, hss.expands (Nat.le_zero.mp he)⟩

/-- Values evaluated without error are the expansions. -/
theorem TreeEvaluated.expanded {up : List Symtab} {n n' : KbTree} (h : TreeEvaluated 0 up n n')
    (hexp : HasExpansions up n) : Expanded up n n' := by
  refine ⟨h.1, fun key => ?_⟩
  have hrel := h.2 key
  cases hvs : kbsymtabGet n.symtab key with
  | none =>
    rw [hvs] at hrel
    generalize kbsymtabGet n'.symtab key = o at hrel
    cases hrel
    exact .none
  | some vs =>
    obtain ⟨ss, hget, hss⟩ := h.expands hvs
    have hboth := (List.forall₂_and_left vs ss).mpr ⟨hexp key vs hvs, hss⟩
    rw [hget]
    refine .some (hboth.imp fun v s hv => ?_)
    obtain ⟨⟨s', hs'⟩, hs⟩ := hv
    rwa [← hs'.expands.unique hs]

/-- Evaluation ends without errors and every value has become its expansion. -/
theorem kbtreeEval_expanded (L : Libds) {t : KbTree} (env : Env) (hsrc : t.Forall HasSrcdef [])
    (htemplate : t.Forall HasTemplates []) (hexp : t.Forall HasExpansions []) :
    ∃ t', HaltsWith (kbtreeEval L [] t env) { tree := t', env := env, nerrors := 0 } ∧
      KbTree.Related Expanded [] [] t t' := by
  have ht : t.Forall TemplateNode [] := fun p up n hn =>
    templateNode_of (hsrc p up n hn) (htemplate p up n hn)
  obtain ⟨⟨t', env', nerrors⟩, hr⟩ : Halts (kbtreeEval L [] t env) :=
    (halts_kbtreeEval_iff (by simp) ht).mpr fun p up n hn => (hexp p up n hn).nodeSettles
  obtain ⟨rfl, hnodes, herrors⟩ := haltsWith_kbtreeEval (by simp) ht hr
  obtain rfl : nerrors = 0 := by
    by_contra hne
    exact herrors hne fun p up n hn => (hexp p up n hn).nodeExpands
  refine ⟨t', hr, fun p => ⟨fun up n hn => ?_, (hnodes [] p).2⟩⟩
  obtain ⟨up', n', hn', hR⟩ := (hnodes [] p).1 up n hn
  exact ⟨up', n', hn', hR.expanded (hexp p up n hn)⟩

/-! ### The order of the keys -/

theorem kbnodeResolve_congr {scope scope₂ : List Symtab}
    (h : List.Forall₂ (fun st st₂ : Symtab => st.entries.Perm st₂.entries) scope scope₂)
    (name : CStr) : kbnodeResolve scope name = kbnodeResolve scope₂ name := by
  induction h with
  | nil => rfl
  | cons h _ ih => simp only [kbnodeResolve, kbsymtabGet, AList.perm_lookup h, ih]

theorem expand_congr {scope scope₂ : List Symtab}
    (h : List.Forall₂ (fun st st₂ : Symtab => st.entries.Perm st₂.entries) scope scope₂)
    (depth : ℕ) : expand scope depth = expand scope₂ depth := by
  induction depth with
  | zero => rfl
  | succ depth ih =>
    funext text
    simp only [expand, kbnodeResolve_congr h, ih]

theorem expandsTo_congr {scope scope₂ : List Symtab}
    (h : List.Forall₂ (fun st st₂ : Symtab => st.entries.Perm st₂.entries) scope scope₂) :
    ExpandsTo scope = ExpandsTo scope₂ := by
  funext text s
  simp only [ExpandsTo, expand_congr h]

/-- In corresponding places of a tree and a reordered one the expansions are the same. -/
theorem expandsTo_reordered {t t₂ : KbTree} (h : KbTree.Related Reordered [] [] t t₂) {p : Path}
    {up up₂ : List Symtab} {n n₂ : KbTree} (hn : t.at? [] p = some (up, n))
    (hn₂ : t₂.at? [] p = some (up₂, n₂)) :
    ExpandsTo (n.symtab :: up) = ExpandsTo (n₂.symtab :: up₂) := by
  obtain ⟨_, _, hn₂', hR⟩ := (h p).1 up n hn
  obtain ⟨-, rfl⟩ := Prod.mk.inj (Option.some.inj (hn₂.symm.trans hn₂'))
  exact expandsTo_congr (.cons hR.2 (h.ancestors (fun _ _ _ hR => hR.2) .nil hn hn₂))

theorem Reordered.get_eq {up : List Symtab} {n n₂ : KbTree} (h : Reordered up n n₂) (key : CStr) :
    kbsymtabGet n₂.symtab key = kbsymtabGet n.symtab key := (AList.perm_lookup h.2).symm

theorem Reordered.hasSrcdef {up up₂ : List Symtab} {n n₂ : KbTree} (h : Reordered up n n₂)
    (hsrc : HasSrcdef up n) : HasSrcdef up₂ n₂ := by
  rw [HasSrcdef] at hsrc ⊢
  simpa only [kbnodeGetSrcdef, h.get_eq] using hsrc

/-- Expansions of the same arrays are the same. -/
theorem Expanded.sameValues {up up₂ : List Symtab} {n n₂ n' n₂' : KbTree}
    (hR : Reordered up n n₂) (hexpand : ExpandsTo (n.symtab :: up) = ExpandsTo (n₂.symtab :: up₂))
    (h : Expanded up n n') (h₂ : Expanded up₂ n₂ n₂') (up' : List Symtab) :
    SameValues up' n' n₂' := by
  refine ⟨by rw [h₂.1, hR.1, h.1], fun key => ?_⟩
  have hrel := h.2 key
  have hrel₂ := h₂.2 key
  rw [hR.get_eq, ← hexpand] at hrel₂
  generalize kbsymtabGet n.symtab key = o, kbsymtabGet n'.symtab key = o',
    kbsymtabGet n₂'.symtab key = o₂ at hrel hrel₂
  cases hrel with
  | none =>
    cases hrel₂
    rfl
  | some hss =>
    cases hrel₂ with
    | some hss₂ =>
      have huniq : Relator.RightUnique (ExpandsTo (n.symtab :: up)) := fun _ _ _ h h' => h.unique h'
      rw [List.right_unique_forall₂' huniq hss₂ hss]

/-- Evaluation of a tree of templates whose references all resolve ends without errors, gives every
value its expansion, and gives the same values for every order of the keys. -/
theorem kbtreeEval_computes_expand (L : Libds) (t : KbTree) (env : Env)
    (hsrc : t.Forall HasSrcdef []) (htemplate : t.Forall HasTemplates [])
    (hexp : t.Forall HasExpansions []) :
    ∃ t', HaltsWith (kbtreeEval L [] t env) { tree := t', env := env, nerrors := 0 } ∧
      KbTree.Related Expanded [] [] t t' ∧
      ∀ (L₂ : Libds) (t₂ : KbTree) (env₂ : Env), KbTree.Related Reordered [] [] t t₂ →
        ∃ t₂', HaltsWith (kbtreeEval L₂ [] t₂ env₂) { tree := t₂', env := env₂, nerrors := 0 } ∧
          KbTree.Related SameValues [] [] t' t₂' := by
  obtain ⟨t', hr, hrel⟩ := kbtreeEval_expanded L env hsrc htemplate hexp
  refine ⟨t', hr, hrel, fun L₂ t₂ env₂ hR => ?_⟩
  have hsrc₂ : t₂.Forall HasSrcdef [] := hR.forall_imp hsrc fun _ _ _ _ _ _ _ h => h.hasSrcdef
  have htemplate₂ : t₂.Forall HasTemplates [] := hR.forall_imp htemplate
    fun _ _ _ _ _ _ _ h hn key vs hvs => hn key vs (h.get_eq key ▸ hvs)
  have hexp₂ : t₂.Forall HasExpansions [] := by
    refine hR.forall_imp hexp fun p up n up₂ n₂ hn hn₂ h hexp key vs hvs => ?_
    rw [← expandsTo_reordered hR hn hn₂]
    exact hexp key vs (h.get_eq key ▸ hvs)
  obtain ⟨t₂', hr₂, hrel₂⟩ := kbtreeEval_expanded L₂ env₂ hsrc₂ htemplate₂ hexp₂
  refine ⟨t₂', hr₂, ?_⟩
  have hboth : KbTree.Related (fun up n n₂' => ∃ up₂ n₂, Reordered up n n₂ ∧
      ExpandsTo (n.symtab :: up) = ExpandsTo (n₂.symtab :: up₂) ∧ Expanded up₂ n₂ n₂')
      [] [] t t₂' := hR.trans hrel₂ fun _ _ _ up₂ n₂ _ hn hn₂ hre hex =>
    ⟨up₂, n₂, hre, expandsTo_reordered hR hn hn₂, hex⟩
  exact hrel.comp hboth fun _ up n _ n' _ n₂' _ _ _ h h₂ => by
    obtain ⟨up₂, n₂, hR, hexpand, h₂⟩ := h₂
    exact h.sameValues hR hexpand h₂ _

/-- An entrypoint with an array and a job that uses it, one reference inside another. -/
def greetingVars : List (CStr × List CStr) :=
  [(kbnodeKeyId, ["ep".toList]), (kbnodeKeyFname, ["f".toList]), (kbnodeKeyLine, ["1".toList]),
    ("who".toList, ["you".toList, "me".toList])]

def greetingJobVars : List (CStr × List CStr) :=
  [(kbnodeKeyId, ["hi".toList]), (kbnodeKeyFname, ["f".toList]), (kbnodeKeyLine, ["5".toList]),
    ("text".toList, ["hi $<who>!".toList]), (kbnodeKeyExec, ["echo $<text>".toList])]

def greeting : KbTree :=
  .node .entrypoint (symtabOf greetingVars) [.node .job (symtabOf greetingJobVars) [] []] []

theorem greeting_srcdef : greeting.Forall HasSrcdef [] := by
  simp only [greeting, KbTree.forall_node, HasSrcdef, KbTree.symtab_node, List.forall_mem_cons]
  exact ⟨by decide, ⟨⟨by decide, by simp, by simp⟩, by simp⟩, by simp⟩

theorem greeting_templates : greeting.Forall HasTemplates [] := by
  have hplain : ∀ s, IsPlain s → IsTemplate s := fun _ => .plain
  have htext : IsTemplate ("hi ".toList ++ refText "who".toList ++ "!".toList) :=
    .ref (by decide) (by decide) (.plain (by decide))
  have hexec : IsTemplate ("echo ".toList ++ refText "text".toList ++ "".toList) :=
    .ref (by decide) (by decide) (.plain (by decide))
  simp only [greeting, KbTree.forall_node, List.forall_mem_cons]
  refine ⟨forall_values_symtabOf ?_, ⟨⟨forall_values_symtabOf ?_, by simp, by simp⟩, by simp⟩,
    by simp⟩
  · simp only [greetingVars, List.forall_mem_cons]
    refine ⟨⟨hplain _ (by decide), ?_⟩, ⟨hplain _ (by decide), ?_⟩, ⟨hplain _ (by decide), ?_⟩,
      ⟨hplain _ (by decide), hplain _ (by decide), ?_⟩, ?_⟩ <;> simp
  · simp only [greetingJobVars, List.forall_mem_cons]
    refine ⟨⟨hplain _ (by decide), ?_⟩, ⟨hplain _ (by decide), ?_⟩, ⟨hplain _ (by decide), ?_⟩,
      ⟨htext, ?_⟩, ⟨hexec, ?_⟩, ?_⟩ <;> simp

theorem greeting_expansions : greeting.Forall HasExpansions [] := by
  simp only [greeting, KbTree.forall_node, List.forall_mem_cons]
  refine ⟨forall_values_symtabOf ?_, ⟨⟨forall_values_symtabOf ?_, by simp, by simp⟩, by simp⟩,
    by simp⟩
  · simp only [greetingVars, List.forall_mem_cons]
    refine ⟨⟨⟨_, 1, rfl⟩, ?_⟩, ⟨⟨_, 1, rfl⟩, ?_⟩, ⟨⟨_, 1, rfl⟩, ?_⟩,
      ⟨⟨_, 1, rfl⟩, ⟨_, 1, rfl⟩, ?_⟩, ?_⟩ <;> simp
  · simp only [greetingJobVars, List.forall_mem_cons]
    refine ⟨⟨⟨_, 1, rfl⟩, ?_⟩, ⟨⟨_, 1, rfl⟩, ?_⟩, ⟨⟨_, 1, rfl⟩, ?_⟩,
      ⟨⟨_, 2, rfl⟩, ?_⟩, ⟨⟨_, 3, rfl⟩, ?_⟩, ?_⟩ <;> simp

theorem kbtreeEval_computes_expand_greeting :
    ∃ t', HaltsWith (kbtreeEval .ordered [] greeting fun _ => none)
        { tree := t', env := fun _ => none, nerrors := 0 } ∧
      KbTree.Related Expanded [] [] greeting t' := by
  obtain ⟨t', hr, hrel, _⟩ := kbtreeEval_computes_expand .ordered greeting (fun _ => none)
    greeting_srcdef greeting_templates greeting_expansions
  exact ⟨t', hr, hrel⟩

end Kubeka
