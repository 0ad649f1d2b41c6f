import Kubeka.Eval.Substitution

/-!
# No reference survives a clean evaluation

Every exit of the substitution loop counts an error or leaves a text in which
`$<` does not occur, so evaluation without errors leaves no reference in any
value of the tree.
-/

namespace Kubeka

open Text Fuel

/-- No reference starts in the text. -/
def Clean (s : CStr) : Prop := ¬ refOpen <:+: s

def CleanNode (_ : List Symtab) (n : KbTree) : Prop :=
  ∀ key vs, kbsymtabGet n.symtab key = some vs → ∀ v ∈ vs, Clean v

/-! ### Exits of the loop -/

theorem biSetenv_error {params : CStr} {env : Env} (h : (biSetenv params env).text = none) :
    (biSetenv params env).nerrors ≠ 0 := by
  unfold biSetenv at h ⊢
  split at h
  · simp at h
  · simp

/-- A reference that resolves to NULL is counted as an error. -/
theorem resolve_error {scope : List Symtab} {ref : CStr} {env : Env}
    (h : (resolve scope ref env).text = none) : (resolve scope ref env).nerrors ≠ 0 := by
  unfold resolve at h ⊢
  split_ifs at h ⊢
  · unfold execBuiltin at h ⊢
    split at h <;> [simp; skip]
    split at h <;> [simp; skip]
    split at h <;> [simp; skip]
    next fptr hf =>
      obtain ⟨f, hfind, rfl⟩ := Option.map_eq_some_iff.mp hf
      have hmem := List.mem_of_find?_eq_some hfind
      simp only [builtinFunctions, List.mem_cons, List.not_mem_nil, or_false] at hmem
      rcases hmem with rfl | rfl
      · exact biSetenv_error h
      · simp [biGetenv] at h
  · split at h <;> [simp; skip]
    split at h <;> simp_all

/-- Where no reference is found and no error counted, `$<` does not occur. -/
theorem findNextRef_clean {src : CStr} (h : findNextRef src = (none, 0)) : Clean src := by
  unfold findNextRef at h
  split at h
  · next hcut => exact cut_eq_none_iff.mp hcut
  · split at h <;> simp at h

theorem substitute_clean {L : Libds} {scope : List Symtab} {env : Env} {value : CStr}
    {r : Substituted} (h : HaltsWith (substitute L scope env value) r) (hr : r.nerrors = 0) :
    Clean r.newvalue := by
  obtain ⟨fuel, h⟩ := substLoop_of_haltsWith h
  refine substLoop_induction (P := fun _ r => r.nerrors = 0 → Clean r.newvalue)
    (fun _ _ _ _ hnext => hnext) ?_ h hr
  rintro c r hleave hr
  cases hleave with
  | none hf =>
    subst hr
    exact findNextRef_clean hf
  | failed hf hres herr =>
    subst hres
    have htext : (resolve scope _ _).text = none := not_imp_not.mp herr hr
    exact absurd hr (resolve_error htext)

/-! ### Values, keys and trees -/

/-- Evaluated without errors, the values of one key are clean and the other keys unchanged. -/
theorem evalValues_clean {L : Libds} {up : List Symtab} {key : CStr} {pre vs : List CStr}
    {st : Symtab} {env : Env} {r : NodeEval}
    (h : HaltsWith (evalValues L up key pre.length vs st env) r) (hr : r.nerrors = 0)
    (hget : kbsymtabGet st key = some (pre ++ vs)) :
    (∃ ss, kbsymtabGet r.symtab key = some (pre ++ ss) ∧ ∀ s ∈ ss, Clean s) ∧
      ∀ k, k ≠ key → kbsymtabGet r.symtab k = kbsymtabGet st k := by
  induction vs generalizing pre st env with
  | nil =>
    obtain rfl := haltsWith_pure_iff.mp h
    exact ⟨⟨[], hget, by simp⟩, fun _ _ => rfl⟩
  | cons v vs ih =>
    obtain ⟨r₁, hr₁, h⟩ := haltsWith_evalValues_cons.mp h
    split_ifs at h with he
    · have hlen : pre.length + 1 = (pre ++ [r₁.newvalue]).length := by simp
      have hset : ∀ k, kbsymtabGet (kbnodeSetSingle st key pre.length r₁.newvalue).2 k =
          if k = key then some ((pre ++ v :: vs).set pre.length r₁.newvalue)
          else kbsymtabGet st k := kbnodeSetSingle_get hget (by simp) r₁.newvalue
      rw [hlen] at h
      obtain ⟨⟨ss, hss, hclean⟩, hkeep⟩ := ih h (by rw [hset, if_pos rfl]; simp)
      refine ⟨⟨r₁.newvalue :: ss, by simpa using hss, ?_⟩, fun k hk => ?_⟩
      · exact List.forall_mem_cons.mpr ⟨substitute_clean hr₁ he, hclean⟩
      · rw [hkeep k hk, hset, if_neg hk]
    · subst h
      exact absurd hr he

theorem evalKeys_clean {L : Libds} {up : List Symtab} {keys : List CStr} {st : Symtab} {env : Env}
    {r : NodeEval} (h : HaltsWith (evalKeys L up keys st env) r) (hr : r.nerrors = 0)
    (hnodup : keys.Nodup) :
    (∀ key ∈ keys, ∀ vs, kbsymtabGet r.symtab key = some vs → ∀ v ∈ vs, Clean v) ∧
      ∀ k, k ∉ keys → kbsymtabGet r.symtab k = kbsymtabGet st k := by
  induction keys generalizing st env r with
  | nil =>
    obtain rfl := haltsWith_pure_iff.mp h
    exact ⟨by simp, fun _ _ => rfl⟩
  | cons key keys ih =>
    obtain ⟨hkey, hnodup⟩ := List.nodup_cons.mp hnodup
    rcases haltsWith_evalKeys_cons.mp h with ⟨_, rfl⟩ | ⟨_, r₁, r₂, hr₁, hr₂, rfl⟩
    · simp at hr
    obtain ⟨hr₁0, hr₂0⟩ : r₁.nerrors = 0 ∧ r₂.nerrors = 0 := by simpa using hr
    obtain ⟨hclean₂, hkeep₂⟩ := ih hr₂ hr₂0 hnodup
    have hfirst : (∀ vs, kbsymtabGet r₁.symtab key = some vs → ∀ v ∈ vs, Clean v) ∧
        ∀ k, k ≠ key → kbsymtabGet r₁.symtab k = kbsymtabGet st k := by
      rcases haltsWith_evalValues_key hr₁ with ⟨hget, rfl⟩ | ⟨vs, hget, hr₁⟩
      · exact ⟨by simp [hget], fun _ _ => rfl⟩
      · obtain ⟨⟨ss, hss, hclean⟩, hkeep⟩ := evalValues_clean hr₁ hr₁0 hget
        refine ⟨fun ws hws => ?_, hkeep⟩
        obtain rfl : ss = ws := by simpa [hss] using hws
        exact hclean
    refine ⟨fun k hk => ?_, fun k hk => ?_⟩
    · rcases List.mem_cons.mp hk with rfl | hk
      · rw [hkeep₂ k hkey]
        exact hfirst.1
      · exact hclean₂ k hk
    · obtain ⟨hne, hk⟩ := List.ne_and_not_mem_of_not_mem_cons hk
      exact (hkeep₂ k hk).trans (hfirst.2 k hne)

theorem kbtreeEvalAll_clean {L : Libds} {up up₂ : List Symtab} {ts : List KbTree}
    (h : ∀ t ∈ ts, ∀ env r, HaltsWith (kbtreeEval L up t env) r → r.nerrors = 0 →
      r.tree.Forall CleanNode up₂) {env : Env} {r : TreeEval (List KbTree)}
    (hr : HaltsWith (kbtreeEvalAll L up ts env) r) (hn : r.nerrors = 0) :
    ∀ t ∈ r.tree, t.Forall CleanNode up₂ := by
  induction ts generalizing env r with
  | nil =>
    obtain rfl := haltsWith_pure_iff.mp hr
    simp
  | cons t ts ih =>
    obtain ⟨r₁, rs, hr₁, hrs, rfl⟩ := haltsWith_kbtreeEvalAll_cons.mp hr
    obtain ⟨hn₁, hns⟩ : r₁.nerrors = 0 ∧ rs.nerrors = 0 := by simpa using hn
    refine List.forall_mem_cons.mpr ⟨h t List.mem_cons_self env r₁ hr₁ hn₁, ?_⟩
    exact ih (fun u hu => h u (List.mem_cons_of_mem _ hu)) hrs hns

/-- Evaluation without errors leaves only clean values. -/
theorem kbtreeEval_clean {L : Libds} {up : List Symtab} {t : KbTree} {env : Env}
    {r : TreeEval KbTree} (h : HaltsWith (kbtreeEval L up t env) r) (hn : r.nerrors = 0)
    (up₂ : List Symtab) : r.tree.Forall CleanNode up₂ := by
  induction t using KbTree.inductionOn generalizing up env r up₂ with
  | node ty st js hs ihj ihh =>
    rcases haltsWith_kbtreeEval_node.mp h with ⟨_, rfl⟩ | ⟨_, rh, rj, rk, hrh, hrj, hrk, rfl⟩
    · simp at hn
    obtain ⟨⟨hh0, hj0⟩, hk0⟩ : (rh.nerrors = 0 ∧ rj.nerrors = 0) ∧ rk.nerrors = 0 := by
      simpa using hn
    obtain ⟨hclean, hkeep⟩ := evalKeys_clean hrk hk0 st.nodupKeys
    refine KbTree.forall_node.mpr ⟨fun key vs hvs => ?_, ?_, ?_⟩
    · by_cases hkey : key ∈ st.keys
      · exact hclean key hkey vs hvs
      · have hnone : kbsymtabGet st key = none :=
          AList.lookup_eq_none.mpr (mt AList.mem_keys.mp hkey)
        rw [KbTree.symtab_node, hkeep key hkey, hnone] at hvs
        simp at hvs
    · exact kbtreeEvalAll_clean (fun t ht env r hr hn => ihj t ht hr hn _) hrj hj0
    · exact kbtreeEvalAll_clean (fun t ht env r hr hn => ihh t ht hr hn _) hrh hh0

end Kubeka
