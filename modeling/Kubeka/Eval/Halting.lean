import Kubeka.Eval.Clean
import Kubeka.Eval.Shape
import Kubeka.Library.FiniteGraph

/-!
# Evaluation of a tree whose loops end

Whether the loop over a value ends depends on the other values of the node, which
may have been evaluated already, and on the environment, which may have been
changed. When a relation between the values as written and those that came of
them is kept by every loop, and every loop ends as long as it is kept, then
evaluation of the tree ends.
-/

namespace Kubeka

open Fuel FiniteGraph Relation

variable {L : Libds} {scope up : List Symtab} {env : Env} {value : CStr}

/-! ### One loop -/

theorem biSetenv_env_of_error {params : CStr} (h : (biSetenv params env).nerrors ≠ 0) :
    (biSetenv params env).env = env := by
  unfold biSetenv setenv at h ⊢
  split at h
  · split_ifs at h ⊢
    · rfl
    · simp at h
  · rfl

/-- A reference that is not resolved leaves the environment as it is. -/
theorem resolve_env_of_error {ref : CStr}
    (h : (resolve scope ref env).nerrors ≠ 0) : (resolve scope ref env).env = env := by
  unfold resolve at h ⊢
  split_ifs at h ⊢
  · unfold execBuiltin at h ⊢
    split at h <;> [rfl; skip]
    split at h <;> [rfl; skip]
    split at h <;> [rfl; skip]
    next fptr hf =>
      obtain ⟨f, hfind, rfl⟩ := Option.map_eq_some_iff.mp hf
      have hmem := List.mem_of_find?_eq_some hfind
      simp only [builtinFunctions, List.mem_cons, List.not_mem_nil, or_false] at hmem
      rcases hmem with rfl | rfl
      · exact biSetenv_env_of_error h
      · rfl
  · split at h <;> [rfl; skip]
    split at h <;> simp_all

/-- A loop ends when each of its rounds goes down in a relation without infinite chains. -/
theorem exists_substitute {σ : Type*} {R : σ → σ → Prop} {Inv : σ → Env × CStr → Prop}
    (hstep : ∀ a c c', Inv a c → SubstStep L scope c c' → ∃ b, R a b ∧ Inv b c')
    {a : σ} (ha : Terminates R a) (hc : Inv a (env, value)) :
    ∃ r b, HaltsWith (substitute L scope env value) r ∧ ReflTransGen R a b ∧
      Inv b (r.env, r.newvalue) := by
  induction ha generalizing env value with
  | intro a _ ih =>
    rcases substLoop_succ L scope env value with ⟨c, hround, hfuel⟩ | ⟨r, hleave, hr⟩
    · obtain ⟨b, hab, hb⟩ := hstep a _ c hc hround
      obtain ⟨r, d, hr, hbd, hd⟩ := ih b hab hb
      obtain ⟨fuel, hloop⟩ := substLoop_of_haltsWith hr
      refine ⟨r, d, ⟨fuel + 1, ?_⟩, .head hab hbd, hd⟩
      simp [substitute, hfuel, hloop]
    · refine ⟨r, a, ⟨1, by simp [substitute, hr]⟩, .refl, ?_⟩
      cases hleave with
      | none _ => exact hc
      | @failed _ _ ref _ resolved _ hres herr =>
        have hne : resolved.nerrors ≠ 0 := by
          by_cases htext : resolved.text = none
          · subst hres
            exact resolve_error htext
          · exact herr htext
        subst hres
        rwa [resolve_env_of_error hne]

/-! ### A node -/

section

variable {F : CStr → CStr → Prop} {st₀ st : Symtab} {key : CStr}

/-- Each value of the table is related to the one that has come of it. -/
def TableRel (F : CStr → CStr → Prop) (st₀ st : Symtab) : Prop :=
  ∀ key, Option.Rel (List.Forall₂ F) (kbsymtabGet st₀ key) (kbsymtabGet st key)

def ScopeRel (F : CStr → CStr → Prop) (raw cur : List Symtab) : Prop :=
  ∀ name, Option.Rel (List.Forall₂ F) (kbnodeResolve raw name) (kbnodeResolve cur name)

theorem tableRel_self (hF : ∀ v, F v v) (st : Symtab) : TableRel F st st := by
  intro key
  cases kbsymtabGet st key with
  | none => exact .none
  | some vs => exact .some (List.forall₂_same.mpr fun v _ => hF v)

/-- The values that those of a variable have come of. -/
theorem ScopeRel.exists_values {raw cur : List Symtab} (h : ScopeRel F raw cur) {name : CStr}
    {vs : List CStr} (hvs : kbnodeResolve cur name = some vs) :
    ∃ vs₀, kbnodeResolve raw name = some vs₀ ∧ List.Forall₂ F vs₀ vs := by
  have hrel := h name
  rw [hvs] at hrel
  generalize kbnodeResolve raw name = o at hrel ⊢
  cases hrel with
  | some hrel => exact ⟨_, rfl, hrel⟩

theorem TableRel.scopeRel (hF : ∀ v, F v v) (h : TableRel F st₀ st) (up : List Symtab) :
    ScopeRel F (st₀ :: up) (st :: up) := by
  intro name
  have hrel := h name
  simp only [kbnodeResolve]
  generalize kbsymtabGet st₀ name = o, kbsymtabGet st name = o' at hrel
  cases hrel with
  | some hvs => exact .some hvs
  | none =>
    dsimp only
    cases kbnodeResolve up name with
    | none => exact .none
    | some vs => exact .some (List.forall₂_same.mpr fun v _ => hF v)

/-- A value has come of one of the table, and another that can have come of it may be stored in its
place. -/
theorem TableRel.set (h : TableRel F st₀ st) {pre rest : List CStr} {v' : CStr}
    (hget : kbsymtabGet st key = some (pre ++ v' :: rest)) :
    ∃ vs v, kbsymtabGet st₀ key = some vs ∧ v ∈ vs ∧ F v v' ∧
      ∀ new, F v new → TableRel F st₀ (kbnodeSetSingle st key pre.length new).2 := by
  have hrel := h key
  rw [hget] at hrel
  cases hvs : kbsymtabGet st₀ key with
  | none =>
    rw [hvs] at hrel
    cases hrel
  | some vs =>
    rw [hvs] at hrel
    have hvalues : List.Forall₂ F vs (pre ++ v' :: rest) := by
      cases hrel with
      | some hvalues => exact hvalues
    obtain ⟨v, hv, hF, hset⟩ := Lists.forall₂_middle hvalues
    refine ⟨vs, v, rfl, hv, hF, fun new hnew k => ?_⟩
    rw [kbnodeSetSingle_get hget (by simp)]
    split_ifs with hk
    · subst hk
      rw [hvs]
      exact .some (by simpa using hset new hnew)
    · exact h k

/-- Every loop over a value in `Good` ends while the values are in `F` and the environment in
`EnvOk`, and keeps both. -/
structure LoopsEnd (L : Libds) (raw : List Symtab) (Good : CStr → Prop) (F : CStr → CStr → Prop)
    (EnvOk : Env → Prop) : Prop where
  refl : ∀ v, F v v
  loop : ∀ {cur env v v'}, ScopeRel F raw cur → EnvOk env → Good v → F v v' →
    ∃ r, HaltsWith (substitute L cur env v') r ∧ EnvOk r.env ∧
      (r.nerrors = 0 → F v r.newvalue)

variable {Good : CStr → Prop} {EnvOk : Env → Prop}

theorem LoopsEnd.evalValues (h : LoopsEnd L (st₀ :: up) Good F EnvOk)
    (hgood : ∀ key vs, kbsymtabGet st₀ key = some vs → ∀ v ∈ vs, Good v) {pre vs : List CStr}
    (hget : kbsymtabGet st key = some (pre ++ vs)) (hst : TableRel F st₀ st) (henv : EnvOk env) :
    ∃ r, HaltsWith (evalValues L up key pre.length vs st env) r ∧ TableRel F st₀ r.symtab ∧
      EnvOk r.env := by
  induction vs generalizing pre st env with
  | nil => exact ⟨_, haltsWith_pure_iff.mpr rfl, hst, henv⟩
  | cons v' vs ih =>
    obtain ⟨vs₀, v, hvs₀, hv, hF, hset⟩ := hst.set hget
    obtain ⟨r, hr, henv', hF'⟩ := h.loop (hst.scopeRel h.refl up) henv (hgood key vs₀ hvs₀ v hv) hF
    by_cases he : r.nerrors = 0
    · have hlt : pre.length < (pre ++ v' :: vs).length := by simp
      have hnew := kbnodeSetSingle_get hget hlt r.newvalue key
      rw [if_pos rfl] at hnew
      have hget' : kbsymtabGet (kbnodeSetSingle st key pre.length r.newvalue).2 key =
          some ((pre ++ [r.newvalue]) ++ vs) := by simpa using hnew
      obtain ⟨r', hr', hst', henv'⟩ := ih hget' (hset _ (hF' he)) henv'
      refine ⟨r', haltsWith_evalValues_cons.mpr ⟨r, hr, ?_⟩, hst', henv'⟩
      rw [if_pos he]
      simpa using hr'
    · exact ⟨_, haltsWith_evalValues_cons.mpr ⟨r, hr, by rw [if_neg he]⟩, hst, henv'⟩

theorem LoopsEnd.evalKeys (h : LoopsEnd L (st₀ :: up) Good F EnvOk)
    (hgood : ∀ key vs, kbsymtabGet st₀ key = some vs → ∀ v ∈ vs, Good v) (keys : List CStr)
    (hst : TableRel F st₀ st) (henv : EnvOk env) :
    ∃ r, HaltsWith (evalKeys L up keys st env) r ∧ EnvOk r.env := by
  induction keys generalizing st env with
  | nil => exact ⟨_, haltsWith_pure_iff.mpr rfl, henv⟩
  | cons key keys ih =>
    by_cases hsrc : kbnodeGetSrcdef st = none
    · exact ⟨_, haltsWith_evalKeys_cons.mpr (.inl ⟨hsrc, rfl⟩), henv⟩
    have hkey : ∃ r, HaltsWith (Kubeka.evalValues L up key 0 (kbnodeGetvalueAll st key) st env) r ∧
        TableRel F st₀ r.symtab ∧ EnvOk r.env := by
      cases hget : kbsymtabGet st key with
      | none =>
        rw [kbnodeGetvalueAll, hget]
        exact ⟨_, haltsWith_pure_iff.mpr rfl, hst, henv⟩
      | some vs =>
        have hget' : kbsymtabGet st key = some ([] ++ vs) := hget
        rw [kbnodeGetvalueAll, hget]
        exact h.evalValues hgood hget' hst henv
    obtain ⟨r, hr, hst', henv'⟩ := hkey
    obtain ⟨r', hr', henv''⟩ := ih hst' henv'
    exact ⟨_, haltsWith_evalKeys_cons.mpr (.inr ⟨hsrc, r, r', hr, hr', rfl⟩), henv''⟩

end

/-! ### A tree -/

/-- Evaluation gets to a node when the node and its ancestors have their origins. -/
def Evaluated (up : List Symtab) (n : KbTree) : Prop :=
  ∀ st ∈ n.symtab :: up, kbnodeGetSrcdef st ≠ none

/-- `P` holds of every node that evaluation gets to. -/
def EveryEvaluated (P : List Symtab → KbTree → Prop) (up : List Symtab) (t : KbTree) : Prop :=
  t.Forall (fun up n => Evaluated up n → P up n) up

variable {EnvOk : Env → Prop} {P Q : List Symtab → KbTree → Prop} {t : KbTree}

theorem not_evaluated_below {st : Symtab} (hst : st ∈ up) (hsrc : kbnodeGetSrcdef st = none) :
    EveryEvaluated P up t := by
  induction t using KbTree.inductionOn generalizing up with
  | node ty st' js hs ihj ihh =>
    have hbelow : st ∈ st' :: up := List.mem_cons_of_mem _ hst
    refine KbTree.forall_node.mpr ⟨fun h => absurd hsrc (h st hbelow), fun c hc => ?_,
      fun c hc => ?_⟩
    · exact ihj c hc hbelow
    · exact ihh c hc hbelow

theorem everyEvaluated_node {ty : KbnodeType} {st : Symtab} {js hs : List KbTree}
    (hup : ∀ st ∈ up, kbnodeGetSrcdef st ≠ none) :
    EveryEvaluated P up (.node ty st js hs) ↔ (kbnodeGetSrcdef st ≠ none →
      P up (.node ty st js hs) ∧ (∀ c ∈ js, EveryEvaluated P (st :: up) c) ∧
        ∀ c ∈ hs, EveryEvaluated P (st :: up) c) := by
  rw [EveryEvaluated, KbTree.forall_node]
  constructor
  · rintro ⟨hroot, hj, hh⟩ hsrc
    exact ⟨hroot (List.forall_mem_cons.mpr ⟨hsrc, hup⟩), hj, hh⟩
  · intro h
    by_cases hsrc : kbnodeGetSrcdef st = none
    · exact ⟨fun hroot => absurd hsrc (hroot st List.mem_cons_self),
        fun c _ => not_evaluated_below List.mem_cons_self hsrc,
        fun c _ => not_evaluated_below List.mem_cons_self hsrc⟩
    · obtain ⟨hroot, hj, hh⟩ := h hsrc
      exact ⟨fun _ => hroot, hj, hh⟩

/-- Evaluation gets to every node of a tree in which all have their origins. -/
theorem forall_evaluated (hup : ∀ st ∈ up, kbnodeGetSrcdef st ≠ none)
    (h : t.Forall (fun _ n => kbnodeGetSrcdef n.symtab ≠ none) up) : t.Forall Evaluated up := by
  induction t using KbTree.inductionOn generalizing up with
  | node ty st js hs ihj ihh =>
    obtain ⟨hroot, hj, hh⟩ := KbTree.forall_node.mp h
    have hup' : ∀ st' ∈ st :: up, kbnodeGetSrcdef st' ≠ none :=
      List.forall_mem_cons.mpr ⟨hroot, hup⟩
    exact KbTree.forall_node.mpr
      ⟨hup', fun c hc => ihj c hc hup' (hj c hc), fun c hc => ihh c hc hup' (hh c hc)⟩

/-- What holds of the table of every node that evaluation gets to holds of all tables in scope. -/
theorem EveryEvaluated.inScope {Q : Symtab → Prop} (hup : ∀ st ∈ up, kbnodeGetSrcdef st ≠ none)
    (hQ : ∀ st ∈ up, Q st) (h : EveryEvaluated (fun _ n => Q n.symtab) up t) :
    EveryEvaluated (fun up n => ∀ st ∈ n.symtab :: up, Q st) up t := by
  induction t using KbTree.inductionOn generalizing up with
  | node ty st js hs ihj ihh =>
    refine (everyEvaluated_node hup).mpr fun hsrc => ?_
    obtain ⟨hroot, hj, hh⟩ := (everyEvaluated_node hup).mp h hsrc
    have hup' : ∀ st' ∈ st :: up, kbnodeGetSrcdef st' ≠ none :=
      List.forall_mem_cons.mpr ⟨hsrc, hup⟩
    have hQ' : ∀ st' ∈ st :: up, Q st' := List.forall_mem_cons.mpr ⟨hroot, hQ⟩
    exact ⟨hQ', fun c hc => ihj c hc hup' hQ' (hj c hc), fun c hc => ihh c hc hup' hQ' (hh c hc)⟩

theorem EveryEvaluated.and (h : EveryEvaluated P up t) (h' : EveryEvaluated Q up t) :
    EveryEvaluated (fun up n => P up n ∧ Q up n) up t :=
  fun p up n hn he => ⟨h p up n hn he, h' p up n hn he⟩

theorem EveryEvaluated.imp (hPQ : ∀ up n, P up n → Q up n) (h : EveryEvaluated P up t) :
    EveryEvaluated Q up t := fun p up n hn he => hPQ up n (h p up n hn he)

theorem exists_kbtreeEvalAll {ts : List KbTree}
    (h : ∀ t ∈ ts, ∀ env, EnvOk env → ∃ r, HaltsWith (kbtreeEval L up t env) r ∧ EnvOk r.env)
    (henv : EnvOk env) : ∃ r, HaltsWith (kbtreeEvalAll L up ts env) r ∧ EnvOk r.env := by
  induction ts generalizing env with
  | nil => exact ⟨_, haltsWith_pure_iff.mpr rfl, henv⟩
  | cons t ts ih =>
    obtain ⟨r, hr, henv'⟩ := h t List.mem_cons_self env henv
    obtain ⟨rs, hrs, henv''⟩ := ih (fun u hu => h u (List.mem_cons_of_mem _ hu)) henv'
    exact ⟨_, haltsWith_kbtreeEvalAll_cons.mpr ⟨r, rs, hr, hrs, rfl⟩, henv''⟩

/-- Evaluation of a tree ends when that of every node it gets to does. -/
theorem exists_kbtreeEval
    (hnode : ∀ up n env, Evaluated up n → P up n → EnvOk env →
      ∃ r, HaltsWith (evalKeys L up n.symtab.keys n.symtab env) r ∧ EnvOk r.env)
    (hup : ∀ st ∈ up, kbnodeGetSrcdef st ≠ none) (ht : EveryEvaluated P up t) (henv : EnvOk env) :
    ∃ r, HaltsWith (kbtreeEval L up t env) r ∧ EnvOk r.env := by
  induction t using KbTree.inductionOn generalizing up env with
  | node ty st js hs ihj ihh =>
    by_cases hsrc : kbnodeGetSrcdef st = none
    · exact ⟨_, haltsWith_kbtreeEval_node.mpr (.inl ⟨hsrc, rfl⟩), henv⟩
    obtain ⟨hroot, hj, hh⟩ := (everyEvaluated_node hup).mp ht hsrc
    have hscope : ∀ st' ∈ st :: up, kbnodeGetSrcdef st' ≠ none :=
      List.forall_mem_cons.mpr ⟨hsrc, hup⟩
    obtain ⟨rh, hrh, henvh⟩ := exists_kbtreeEvalAll
      (fun c hc env henv => ihh c hc hscope (hh c hc) henv) henv
    obtain ⟨rj, hrj, henvj⟩ := exists_kbtreeEvalAll
      (fun c hc env henv => ihj c hc hscope (hj c hc) henv) henvh
    obtain ⟨rk, hrk, henvk⟩ := hnode up (.node ty st js hs) rj.env hscope hroot henvj
    exact ⟨_, haltsWith_kbtreeEval_node.mpr (.inr ⟨hsrc, rh, rj, rk, hrh, hrj, hrk, rfl⟩), henvk⟩

/-- When evaluation of a tree ends, that of every node it gets to has ended. -/
theorem everyEvaluated_of_haltsWith {r : TreeEval KbTree}
    (hnode : ∀ up n env r, HaltsWith (evalKeys L up n.symtab.keys n.symtab env) r → P up n)
    (hup : ∀ st ∈ up, kbnodeGetSrcdef st ≠ none) (h : HaltsWith (kbtreeEval L up t env) r) :
    EveryEvaluated P up t := by
  induction t using KbTree.inductionOn generalizing up env r with
  | node ty st js hs ihj ihh =>
    refine (everyEvaluated_node hup).mpr fun hsrc => ?_
    rcases haltsWith_kbtreeEval_node.mp h with ⟨hno, -⟩ | ⟨-, rh, rj, rk, hrh, hrj, hrk, -⟩
    · exact absurd hno hsrc
    have hup' : ∀ st' ∈ st :: up, kbnodeGetSrcdef st' ≠ none :=
      List.forall_mem_cons.mpr ⟨hsrc, hup⟩
    have hchild : ∀ {ts : List KbTree} {env : Env} {r : TreeEval (List KbTree)},
        HaltsWith (kbtreeEvalAll L (st :: up) ts env) r → ∀ t ∈ ts, ∃ env r,
          HaltsWith (kbtreeEval L (st :: up) t env) r := by
      intro ts env r hr t ht
      obtain ⟨t', -, -, env, env', n, -, hr⟩ :=
        Lists.forall₂_right_of_mem (kbtreeEvalAll_forall₂ hr) ht
      exact ⟨env, _, hr⟩
    refine ⟨hnode up (.node ty st js hs) rj.env rk hrk, fun c hc => ?_, fun c hc => ?_⟩
    · obtain ⟨env, r, hr⟩ := hchild hrj c hc
      exact ihj c hc hup' hr
    · obtain ⟨env, r, hr⟩ := hchild hrh c hc
      exact ihh c hc hup' hr

end Kubeka
