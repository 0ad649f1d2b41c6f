import Kubeka.Eval.Substitution
import Kubeka.Library.Lists

/-!
# What evaluation leaves alone

Evaluation only replaces single values. Whatever the values are, a tree keeps
its nodes, and each node its type, its variables and the lengths of their
arrays. Evaluated without errors, every node has its origin.
-/

namespace Kubeka

open Fuel

/-- The length of the array of a variable, when it is bound. -/
def arrayLength (st : Symtab) (key : CStr) : Option ℕ := (kbsymtabGet st key).map List.length

/-- Two nodes with the same children and arrays of the same lengths. -/
structure SameShape (_ : List Symtab) (n n' : KbTree) : Prop where
  type : n'.type = n.type
  arrays : ∀ key, arrayLength n'.symtab key = arrayLength n.symtab key
  jobs : n'.jobs.length = n.jobs.length
  handlers : n'.handlers.length = n.handlers.length

theorem kbsymtabExists_iff_arrayLength {st : Symtab} {key : CStr} :
    kbsymtabExists st key = true ↔ arrayLength st key ≠ none := by
  rw [kbsymtabExists_iff, arrayLength, ne_eq, Option.map_eq_none_iff, ← ne_eq,
    Option.ne_none_iff_exists']

theorem getvalueAll_eq_nil_iff {st : Symtab} {key : CStr} :
    kbnodeGetvalueAll st key = [] ↔ arrayLength st key = none ∨ arrayLength st key = some 0 := by
  rw [kbnodeGetvalueAll, arrayLength]
  cases kbsymtabGet st key <;> simp

theorem srcdef_congr {st st' : Symtab} (h : ∀ key, arrayLength st' key = arrayLength st key) :
    kbnodeGetSrcdef st' = none ↔ kbnodeGetSrcdef st = none := by
  simp only [kbnodeGetSrcdef_eq_none, getvalueAll_eq_nil_iff, h]

variable {L : Libds} {up : List Symtab}

/-! ### What every single replacement preserves -/

section

variable {R : Symtab → Symtab → Prop} (hrefl : ∀ st, R st st)
  (htrans : ∀ st st' st'', R st st' → R st' st'' → R st st'')
  (hset : ∀ st env key pre v rest r, kbsymtabGet st key = some (pre ++ v :: rest) →
    HaltsWith (substitute L (st :: up) env v) r →
    R st (kbnodeSetSingle st key pre.length r.newvalue).2)

include hrefl htrans hset

theorem evalValues_preserves {key : CStr} {pre vs : List CStr} {st : Symtab} {env : Env}
    {r : NodeEval} (h : HaltsWith (evalValues L up key pre.length vs st env) r)
    (hget : kbsymtabGet st key = some (pre ++ vs)) : R st r.symtab := by
  induction vs generalizing pre st env with
  | nil =>
    obtain rfl := haltsWith_pure_iff.mp h
    exact hrefl st
  | cons v vs ih =>
    obtain ⟨r₁, hr₁, h⟩ := haltsWith_evalValues_cons.mp h
    split_ifs at h with he
    · have hlt : pre.length < (pre ++ v :: vs).length := by simp
      have hnew := kbnodeSetSingle_get hget hlt r₁.newvalue key
      have hlen : pre.length + 1 = (pre ++ [r₁.newvalue]).length := by simp
      rw [if_pos rfl] at hnew
      rw [hlen] at h
      refine htrans _ _ _ (hset st env key pre v vs r₁ hget hr₁) (ih h ?_)
      rw [hnew]
      simp
    · rw [h]
      exact hrefl st

theorem evalKeys_preserves {keys : List CStr} {st : Symtab} {env : Env} {r : NodeEval}
    (h : HaltsWith (evalKeys L up keys st env) r) : R st r.symtab := by
  induction keys generalizing st env r with
  | nil =>
    obtain rfl := haltsWith_pure_iff.mp h
    exact hrefl st
  | cons key keys ih =>
    rcases haltsWith_evalKeys_cons.mp h with ⟨-, rfl⟩ | ⟨-, r₁, r₂, hr₁, hr₂, rfl⟩
    · exact hrefl st
    · have hrest : R r₁.symtab r₂.symtab := ih hr₂
      refine htrans _ _ _ ?_ hrest
      rcases haltsWith_evalValues_key hr₁ with ⟨-, rfl⟩ | ⟨vs, hget, hr₁⟩
      · exact hrefl st
      · exact evalValues_preserves hrefl htrans hset hr₁ hget

end

/-! ### Shapes -/

theorem evalKeys_shape {keys : List CStr} {st : Symtab} {env : Env} {r : NodeEval}
    (h : HaltsWith (evalKeys L up keys st env) r) (k : CStr) :
    arrayLength r.symtab k = arrayLength st k := by
  refine evalKeys_preserves (R := fun st st' => arrayLength st' k = arrayLength st k)
    (fun _ => rfl) (fun _ _ _ h h' => h'.trans h) ?_ h
  intro st env key pre v rest r hget _
  rw [arrayLength, kbnodeSetSingle_get hget (by simp), arrayLength]
  split_ifs with hk
  · simp [hk, hget]
  · rfl

/-- The trees of a list are evaluated one by one, each with some of the errors counted. -/
theorem kbtreeEvalAll_forall₂ {ts : List KbTree} {env : Env} {r : TreeEval (List KbTree)}
    (hr : HaltsWith (kbtreeEvalAll L up ts env) r) :
    List.Forall₂ (fun t t' => t ∈ ts ∧ ∃ env env' n, n ≤ r.nerrors ∧
      HaltsWith (kbtreeEval L up t env) { tree := t', env := env', nerrors := n }) ts r.tree := by
  induction ts generalizing env r with
  | nil =>
    obtain rfl := haltsWith_pure_iff.mp hr
    exact .nil
  | cons t ts ih =>
    obtain ⟨r₁, rs, hr₁, hrs, rfl⟩ := haltsWith_kbtreeEvalAll_cons.mp hr
    refine .cons ⟨List.mem_cons_self, env, r₁.env, r₁.nerrors, Nat.le_add_right _ _, hr₁⟩ ?_
    refine (ih hrs).imp fun _ _ ⟨hmem, env, env', n, hn, h⟩ => ?_
    exact ⟨List.mem_cons_of_mem _ hmem, env, env', n, hn.trans (Nat.le_add_left _ _), h⟩

theorem related_refl {R : List Symtab → KbTree → KbTree → Prop} (hR : ∀ up n, R up n n) (t : KbTree)
    (up up₂ : List Symtab) : KbTree.Related R up up₂ t t := by
  induction t using KbTree.inductionOn generalizing up up₂ with
  | node ty st js hs ihj ihh =>
    exact KbTree.related_node (hR _ _) (List.forall₂_same.mpr fun c hc => ihj c hc _ _)
      (List.forall₂_same.mpr fun c hc => ihh c hc _ _)

/-- What the evaluation of its keys does to a node is what that of a tree does to each of its
nodes. -/
theorem kbtreeEval_related {R : List Symtab → KbTree → KbTree → Prop} (hrefl : ∀ up n, R up n n)
    (hnode : ∀ (up : List Symtab) (env : Env) (ty : KbnodeType) (st : Symtab)
      (js hs js' hs' : List KbTree) (r : NodeEval),
      HaltsWith (evalKeys L up st.keys st env) r → js'.length = js.length →
      hs'.length = hs.length → R up (.node ty st js hs) (.node ty r.symtab js' hs'))
    {t : KbTree} {env : Env} {r : TreeEval KbTree}
    (h : HaltsWith (kbtreeEval L up t env) r) (up₂ : List Symtab) :
    KbTree.Related R up up₂ t r.tree := by
  induction t using KbTree.inductionOn generalizing up env r up₂ with
  | node ty st js hs ihj ihh =>
    rcases haltsWith_kbtreeEval_node.mp h with ⟨-, rfl⟩ | ⟨-, rh, rj, rk, hrh, hrj, hrk, rfl⟩
    · exact related_refl hrefl _ _ _
    have hjobs := kbtreeEvalAll_forall₂ hrj
    have hhandlers := kbtreeEvalAll_forall₂ hrh
    refine KbTree.related_node (hnode up _ ty st js hs _ _ rk hrk hjobs.length_eq.symm
      hhandlers.length_eq.symm) ?_ ?_
    · exact hjobs.imp fun _ _ ⟨hmem, _, _, _, _, hr⟩ => ihj _ hmem hr _
    · exact hhandlers.imp fun _ _ ⟨hmem, _, _, _, _, hr⟩ => ihh _ hmem hr _

/-- Evaluation keeps the shape of a tree. -/
theorem kbtreeEval_shape {t : KbTree} {env : Env} {r : TreeEval KbTree}
    (h : HaltsWith (kbtreeEval L up t env) r) (up₂ : List Symtab) :
    KbTree.Related SameShape up up₂ t r.tree := by
  refine kbtreeEval_related (fun _ _ => ⟨rfl, fun _ => rfl, rfl, rfl⟩) ?_ h up₂
  intro up env ty st js hs js' hs' r hr hjobs hhandlers
  exact ⟨rfl, evalKeys_shape hr, hjobs, hhandlers⟩

/-- A tree evaluated without errors has an origin in every node. -/
theorem kbtreeEval_srcdef {t : KbTree} {env : Env} {r : TreeEval KbTree}
    (h : HaltsWith (kbtreeEval L up t env) r) (hn : r.nerrors = 0) (up₂ : List Symtab) :
    t.Forall (fun _ n => kbnodeGetSrcdef n.symtab ≠ none) up₂ := by
  induction t using KbTree.inductionOn generalizing up env r up₂ with
  | node ty st js hs ihj ihh =>
    rcases haltsWith_kbtreeEval_node.mp h with ⟨-, rfl⟩ | ⟨hsrc, rh, rj, rk, hrh, hrj, hrk, rfl⟩
    · simp at hn
    obtain ⟨⟨hh0, hj0⟩, -⟩ : (rh.nerrors = 0 ∧ rj.nerrors = 0) ∧ rk.nerrors = 0 := by
      simpa using hn
    have hchild : ∀ {ts : List KbTree} {env : Env} {r : TreeEval (List KbTree)},
        HaltsWith (kbtreeEvalAll L (st :: up) ts env) r → r.nerrors = 0 → ∀ t ∈ ts, ∃ env r,
          HaltsWith (kbtreeEval L (st :: up) t env) r ∧ r.nerrors = 0 := by
      intro ts env r hr h0 t ht
      obtain ⟨t', -, -, env, env', n, hle, hr⟩ :=
        Lists.forall₂_right_of_mem (kbtreeEvalAll_forall₂ hr) ht
      exact ⟨env, _, hr, Nat.le_zero.mp (h0 ▸ hle)⟩
    refine KbTree.forall_node.mpr ⟨hsrc, fun c hc => ?_, fun c hc => ?_⟩
    · obtain ⟨_, _, hr, h0⟩ := hchild hrj hj0 c hc
      exact ihj c hc hr h0 _
    · obtain ⟨_, _, hr, h0⟩ := hchild hrh hh0 c hc
      exact ihh c hc hr h0 _

end Kubeka
