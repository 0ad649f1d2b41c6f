import Kubeka.Eval.TemplateText
import Kubeka.Library.Fuel

/-!
# The substitution loop

A round of the loop replaces the first reference, or leaves the loop. More fuel
changes nothing about an evaluation that has finished, so what the evaluation of
a tree comes to is put together of what its parts come to.
-/

namespace Kubeka

open Text Templates Fuel

/-! ### Rounds of the loop -/

/-- One more round of the loop: a reference is found, resolved and replaced. -/
inductive SubstStep (L : Libds) (scope : List Symtab) : Env × CStr → Env × CStr → Prop
  | mk {env env' newvalue ref resolved n} : findNextRef newvalue = (some ref, n) →
      resolve scope ref env = { text := some resolved, nerrors := 0, env := env' } →
      SubstStep L scope (env, newvalue) (env', L.strsubst newvalue ref resolved)

/-- The loop is left: no reference is found, or the one that is found counts an error. -/
inductive SubstLeave (scope : List Symtab) : Env × CStr → Substituted → Prop
  | none {env newvalue n} : findNextRef newvalue = (none, n) →
      SubstLeave scope (env, newvalue) { nerrors := n, env := env, newvalue := newvalue }
  | failed {env newvalue ref n resolved} : findNextRef newvalue = (some ref, n) →
      resolve scope ref env = resolved → (resolved.text ≠ none → resolved.nerrors ≠ 0) →
      SubstLeave scope (env, newvalue)
        { nerrors := resolved.nerrors, env := resolved.env, newvalue := newvalue }

/-- A round either continues the loop or leaves it. -/
theorem substLoop_succ (L : Libds) (scope : List Symtab) (env : Env) (newvalue : CStr) :
    (∃ c, SubstStep L scope (env, newvalue) c ∧
      ∀ fuel, substLoop L scope (fuel + 1) env newvalue = substLoop L scope fuel c.1 c.2) ∨
    (∃ r, SubstLeave scope (env, newvalue) r ∧
      ∀ fuel, substLoop L scope (fuel + 1) env newvalue = some r) := by
  rcases hf : findNextRef newvalue with ⟨_ | ref, n⟩
  · exact .inr ⟨⟨n, env, newvalue⟩, .none hf, fun fuel => by simp only [substLoop, hf]⟩
  · rcases hres : resolve scope ref env with ⟨text, errors, env'⟩
    by_cases hgo : text.isSome ∧ errors = 0
    · obtain ⟨htext, rfl⟩ := hgo
      obtain ⟨resolved, rfl⟩ := Option.isSome_iff_exists.mp htext
      exact .inl ⟨_, .mk hf hres, fun fuel => by simp only [substLoop, hf, hres]⟩
    · refine .inr ⟨⟨errors, env', newvalue⟩, .failed hf hres fun htext => ?_, fun fuel => ?_⟩
      · exact fun herr => hgo ⟨Option.isSome_iff_ne_none.mpr htext, herr⟩
      · rw [substLoop, hf]
        cases text <;> cases errors <;> simp_all

theorem substLoop_mono {L : Libds} {scope : List Symtab} {k m : ℕ} {env : Env} {newvalue : CStr}
    {r : Substituted} (h : substLoop L scope k env newvalue = some r) (hkm : k ≤ m) :
    substLoop L scope m env newvalue = some r := by
  induction k generalizing m env newvalue with
  | zero => simp [substLoop] at h
  | succ k ih =>
    obtain ⟨m, rfl⟩ := Nat.exists_eq_add_of_le' (Nat.lt_of_lt_of_le (Nat.succ_pos k) hkm)
    rcases substLoop_succ L scope env newvalue with ⟨c, -, hc⟩ | ⟨r', -, hr⟩
    · rw [hc] at h ⊢
      exact ih h (by omega)
    · rw [hr] at h ⊢
      exact h

/-! ### What a loop leaves -/

section

variable {L : Libds} {scope : List Symtab} {env : Env} {value : CStr} {r : Substituted}

/-- What holds when the loop is left, and is carried back over a round, holds of all that a loop
leaves. -/
theorem substLoop_induction {P : CStr → Substituted → Prop}
    (hstep : ∀ c c' r, SubstStep L scope c c' → P c'.2 r → P c.2 r)
    (hleave : ∀ c r, SubstLeave scope c r → P c.2 r) {fuel : ℕ}
    (h : substLoop L scope fuel env value = some r) : P value r := by
  induction fuel generalizing env value with
  | zero => cases h
  | succ fuel ih =>
    rcases substLoop_succ L scope env value with ⟨c, hround, hfuel⟩ | ⟨r', hr', hfuel⟩
    · rw [hfuel] at h
      exact hstep _ _ r hround (ih h)
    · obtain rfl : r' = r := Option.some.inj ((hfuel fuel).symm.trans h)
      exact hleave _ _ hr'

theorem substLoop_of_haltsWith (h : HaltsWith (substitute L scope env value) r) :
    ∃ fuel, substLoop L scope fuel env value = some r := by
  obtain ⟨fuel, h⟩ := h
  cases hs : substLoop L scope fuel env value with
  | none => simp [substitute, hs] at h
  | some r' =>
    obtain rfl : r' = r := by simpa [substitute, hs] using h
    exact ⟨fuel, hs⟩

end

/-! ### More fuel -/

variable (L : Libds)

theorem steady_substitute (scope : List Symtab) (env : Env) (value : CStr) :
    Steady (substitute L scope env value) where
  mono {k m r} h hkm := by
    cases hk : substLoop L scope k env value with
    | none => simp [substitute, hk] at h
    | some r' =>
      obtain rfl : r' = r := by simpa [substitute, hk] using h
      simp [substitute, substLoop_mono hk hkm]

theorem steady_evalValues (up : List Symtab) (key : CStr) (j : ℕ) (values : List CStr) (st : Symtab)
    (env : Env) : Steady (evalValues L up key j values st env) := by
  induction values generalizing j st env with
  | nil => exact steady_pure _
  | cons value values ih =>
    simp only [evalValues]
    refine (steady_substitute L (st :: up) env value).bind fun r => ?_
    split_ifs
    · exact ih _ _ _
    · exact steady_pure _

variable {L} in
/-- An array is evaluated by evaluating its first value and, when that has no error, the rest. -/
theorem haltsWith_evalValues_cons {up : List Symtab} {key value : CStr} {j : ℕ}
    {values : List CStr} {st : Symtab} {env : Env} {r : NodeEval} :
    HaltsWith (evalValues L up key j (value :: values) st env) r ↔
      ∃ r₁, HaltsWith (substitute L (st :: up) env value) r₁ ∧
        if r₁.nerrors = 0 then
          HaltsWith (evalValues L up key (j + 1) values
            (kbnodeSetSingle st key j r₁.newvalue).2 r₁.env) r
        else r = { symtab := st, env := r₁.env, nerrors := r₁.nerrors } := by
  simp only [evalValues]
  rw [(steady_substitute L (st :: up) env value).haltsWith_bind_iff]
  · refine exists_congr fun r₁ => and_congr_right fun _ => ?_
    split_ifs
    · exact Iff.rfl
    · rw [haltsWith_pure_iff, eq_comm]
  · intro r₁
    split_ifs
    · exact steady_evalValues L _ _ _ _ _ _
    · exact steady_pure _

variable {L} in
/-- The values of a key are those that it is bound to. -/
theorem haltsWith_evalValues_key {up : List Symtab} {key : CStr} {st : Symtab} {env : Env}
    {r : NodeEval} (h : HaltsWith (evalValues L up key 0 (kbnodeGetvalueAll st key) st env) r) :
    (kbsymtabGet st key = none ∧ r = { symtab := st, env := env, nerrors := 0 }) ∨
      ∃ vs, kbsymtabGet st key = some ([] ++ vs) ∧
        HaltsWith (evalValues L up key ([] : List CStr).length vs st env) r := by
  rw [kbnodeGetvalueAll] at h
  cases hget : kbsymtabGet st key with
  | none =>
    rw [hget] at h
    exact .inl ⟨rfl, (haltsWith_pure_iff.mp h).symm⟩
  | some vs =>
    rw [hget] at h
    exact .inr ⟨vs, rfl, h⟩

theorem steady_evalKeys (up : List Symtab) (keys : List CStr) (st : Symtab) (env : Env) :
    Steady (evalKeys L up keys st env) := by
  induction keys generalizing st env with
  | nil => exact steady_pure _
  | cons key keys ih =>
    simp only [evalKeys]
    cases kbnodeGetSrcdef st with
    | none => exact steady_pure _
    | some _ =>
      refine (steady_evalValues L up key 0 (kbnodeGetvalueAll st key) st env).bind fun r => ?_
      exact (ih r.symtab r.env).bind fun _ => steady_pure _

variable {L} in
theorem haltsWith_evalKeys_cons {up : List Symtab} {key : CStr} {keys : List CStr} {st : Symtab}
    {env : Env} {r : NodeEval} :
    HaltsWith (evalKeys L up (key :: keys) st env) r ↔
      (kbnodeGetSrcdef st = none ∧ r = { symtab := st, env := env, nerrors := 1 }) ∨
      (kbnodeGetSrcdef st ≠ none ∧ ∃ r₁ r₂,
        HaltsWith (evalValues L up key 0 (kbnodeGetvalueAll st key) st env) r₁ ∧
        HaltsWith (evalKeys L up keys r₁.symtab r₁.env) r₂ ∧
        r = { r₂ with nerrors := r₁.nerrors + r₂.nerrors }) := by
  simp only [evalKeys]
  cases kbnodeGetSrcdef st with
  | none =>
    dsimp only
    rw [haltsWith_pure_iff]
    simp [eq_comm]
  | some _ =>
    dsimp only
    rw [(steady_evalValues L up key 0 _ st env).haltsWith_bind_iff]
    · simp only [ne_eq, reduceCtorEq, false_and, false_or, not_false_eq_true, true_and]
      refine exists_congr fun r₁ => ?_
      rw [(steady_evalKeys L up keys r₁.symtab r₁.env).haltsWith_bind_iff fun _ => steady_pure _]
      simp only [haltsWith_pure_iff, exists_and_left, eq_comm]
    · exact fun r₁ => (steady_evalKeys L up keys r₁.symtab r₁.env).bind fun _ => steady_pure _

theorem steady_kbtreeEvalAll {up : List Symtab} {ts : List KbTree}
    (h : ∀ t ∈ ts, ∀ env, Steady (kbtreeEval L up t env)) (env : Env) :
    Steady (kbtreeEvalAll L up ts env) := by
  induction ts generalizing env with
  | nil => exact steady_pure _
  | cons t ts ih =>
    simp only [kbtreeEvalAll]
    refine (h t List.mem_cons_self env).bind fun r => ?_
    exact (ih (fun u hu => h u (List.mem_cons_of_mem _ hu)) r.env).bind fun _ => steady_pure _

theorem steady_kbtreeEval (up : List Symtab) (t : KbTree) (env : Env) :
    Steady (kbtreeEval L up t env) := by
  induction t using KbTree.inductionOn generalizing up env with
  | node ty st js hs ihj ihh =>
    simp only [kbtreeEval]
    split
    · refine (steady_kbtreeEvalAll L (fun t ht env => ihh t ht _ env) env).bind fun rh => ?_
      refine (steady_kbtreeEvalAll L (fun t ht env => ihj t ht _ env) rh.env).bind fun rj => ?_
      exact (steady_evalKeys L up _ st rj.env).bind fun _ => steady_pure _
    · exact steady_pure _

variable {L} in
theorem haltsWith_kbtreeEvalAll_cons {up : List Symtab} {t : KbTree} {ts : List KbTree}
    {env : Env} {r : TreeEval (List KbTree)} :
    HaltsWith (kbtreeEvalAll L up (t :: ts) env) r ↔
      ∃ r₁ rs, HaltsWith (kbtreeEval L up t env) r₁ ∧
        HaltsWith (kbtreeEvalAll L up ts r₁.env) rs ∧
        r = { tree := r₁.tree :: rs.tree, env := rs.env, nerrors := r₁.nerrors + rs.nerrors } := by
  have hall : ∀ env, Steady (kbtreeEvalAll L up ts env) := fun env =>
    steady_kbtreeEvalAll L (fun t _ env => steady_kbtreeEval L up t env) env
  simp only [kbtreeEvalAll]
  rw [(steady_kbtreeEval L up t env).haltsWith_bind_iff fun r₁ =>
    (hall r₁.env).bind fun _ => steady_pure _]
  refine exists_congr fun r₁ => ?_
  rw [(hall r₁.env).haltsWith_bind_iff fun _ => steady_pure _]
  simp only [haltsWith_pure_iff, exists_and_left, eq_comm]

variable {L} in
/-- A node without origin is left alone, every other one is evaluated after its children. -/
theorem haltsWith_kbtreeEval_node {up : List Symtab} {type : KbnodeType} {st : Symtab}
    {jobs handlers : List KbTree} {env : Env} {r : TreeEval KbTree} :
    HaltsWith (kbtreeEval L up (.node type st jobs handlers) env) r ↔
      (kbnodeGetSrcdef st = none ∧
        r = { tree := .node type st jobs handlers, env := env, nerrors := 1 }) ∨
      (kbnodeGetSrcdef st ≠ none ∧ ∃ hs js rk,
        HaltsWith (kbtreeEvalAll L (st :: up) handlers env) hs ∧
        HaltsWith (kbtreeEvalAll L (st :: up) jobs hs.env) js ∧
        HaltsWith (evalKeys L up st.keys st js.env) rk ∧
        r = { tree := .node type rk.symtab js.tree hs.tree, env := rk.env,
              nerrors := hs.nerrors + js.nerrors + rk.nerrors }) := by
  have hall : ∀ ts env, Steady (kbtreeEvalAll L (st :: up) ts env) :=
    fun ts env => steady_kbtreeEvalAll L (fun t _ env => steady_kbtreeEval L (st :: up) t env) env
  cases hsrc : kbnodeGetSrcdef st with
  | none =>
    simp only [kbtreeEval, hsrc]
    rw [haltsWith_pure_iff]
    simp [eq_comm]
  | some d =>
    have hkeys : kbsymtabKeys st = some st.keys := kbsymtabKeys_of_srcdef (by simp [hsrc])
    simp only [kbtreeEval, hsrc, hkeys, ne_eq, reduceCtorEq, false_and, false_or,
      not_false_eq_true, true_and]
    have hkey : ∀ env, Steady (evalKeys L up st.keys st env) :=
      steady_evalKeys L up st.keys st
    rw [(hall handlers env).haltsWith_bind_iff fun hs =>
      (hall jobs hs.env).bind fun js => (hkey js.env).bind fun _ => steady_pure _]
    refine exists_congr fun hs => ?_
    rw [(hall jobs hs.env).haltsWith_bind_iff fun js => (hkey js.env).bind fun _ => steady_pure _,
      ← exists_and_left]
    simp only [exists_and_left]
    refine and_congr_right fun _ => exists_congr fun js => and_congr_right fun _ => ?_
    rw [(hkey js.env).haltsWith_bind_iff fun _ => steady_pure _]
    simp only [haltsWith_pure_iff, eq_comm]

end Kubeka
