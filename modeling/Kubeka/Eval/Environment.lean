import Kubeka.Eval.Substitution

/-!
# The environment read back

`$<setenv NAME=VALUE>` stores a value in the environment and stands for nothing,
and `$<getenv NAME>` stands for the value that is stored. The reference is cut
out of the text by searches for a blank and `>`, and its parameters are split
at every `=`, so only what stands before the next `=` is stored.
-/

namespace Kubeka

open Text

/-- The text `$<setenv NAME=VALUE>`. -/
def setenvText (name value : CStr) : CStr :=
  refText ("setenv".toList ++ ' ' :: (name ++ '=' :: value))

/-- The text `$<getenv NAME>`. -/
def getenvText (name : CStr) : CStr := refText ("getenv".toList ++ ' ' :: name)

/-- Evaluating a value that holds the setting adds no error, leaves nothing in place of it, and
reading the name next gives the value. Both are said of the round of the loop that gets to the
reference, with any text around it, and of the evaluation of a text without other references. -/
structure ReadsBack (L : Libds) (env env' : Env) (name value : CStr) : Prop where
  wrote : ∀ scope before after, ¬ refOpen <:+: before →
    SubstStep L scope (env, before ++ (setenvText name value ++ after))
      (env', replaceAll (setenvText name value) [] (before ++ (setenvText name value ++ after)))
  read : ∀ scope before after, ¬ refOpen <:+: before →
    SubstStep L scope (env', before ++ (getenvText name ++ after))
      (env', replaceAll (getenvText name) value (before ++ (getenvText name ++ after)))
  wroteAll : ∀ scope before after fuel, ¬ refOpen <:+: before ++ after →
    substitute L scope env (before ++ (setenvText name value ++ after)) (fuel + 2) =
      .ok { nerrors := 0, env := env', newvalue := before ++ after }
  readAll : ∀ scope before after fuel, ¬ refOpen <:+: before ++ (value ++ after) →
    substitute L scope env' (before ++ (getenvText name ++ after)) (fuel + 2) =
      .ok { nerrors := 0, env := env', newvalue := before ++ (value ++ after) }

/-! ### References with text around them -/

/-- No reference starts in text without one, whatever reference follows. -/
theorem not_refOpen_starts {before v w : CStr} (h : ¬ refOpen <:+: before) (heq : before = v ++ w)
    (hw : w ≠ []) (rest : CStr) : ¬ refOpen <+: w ++ (refOpen ++ rest) := by
  have hopen : refOpen = ['$', '<'] := rfl
  intro hpre
  rw [hopen] at h hpre
  match w, hw with
  | [c], _ =>
    have hc := (List.cons_prefix_cons.mp (List.cons_prefix_cons.mp hpre).2).1
    exact absurd hc (by decide)
  | c :: d :: w, _ =>
    obtain ⟨hc, hpre⟩ := List.cons_prefix_cons.mp hpre
    obtain ⟨hd, -⟩ := List.cons_prefix_cons.mp hpre
    exact h ⟨v, w, by rw [heq, hc, hd]; simp⟩

theorem not_refText_starts_of {before v w : CStr} (h : ¬ refOpen <:+: before)
    (heq : before = v ++ w) (hw : w ≠ []) (body after : CStr) :
    ¬ refText body <+: w ++ (refText body ++ after) := by
  intro hpre
  have hopen : refOpen <+: w ++ (refText body ++ after) :=
    (List.prefix_append refOpen (body ++ ['>'])).trans (by simpa [refText] using hpre)
  apply not_refOpen_starts h heq hw (body ++ ['>'] ++ after)
  simpa [refText] using hopen

theorem findNextRef_around {before body : CStr} (after : CStr) (h : ¬ refOpen <:+: before)
    (hbody : '>' ∉ body) :
    findNextRef (before ++ (refText body ++ after)) = (some (refText body), 0) := by
  have hopen : strstr (before ++ (refText body ++ after)) refOpen =
      some (before, body ++ '>' :: after) := by
    have hcut := cut_append (body ++ '>' :: after) (by decide)
      fun v w heq hw => not_refOpen_starts h heq hw (body ++ '>' :: after)
    simpa [strstr, refText] using hcut
  have hclose : strchr (body ++ '>' :: after) '>' = some (body, after) := cut_singleton after hbody
  simp only [findNextRef, hopen, hclose]
  rfl

/-- The only reference of a text is replaced where it stands. -/
theorem replaceAll_around {before after : CStr} (body new : CStr) (hbefore : ¬ refOpen <:+: before)
    (hafter : ¬ refOpen <:+: after) :
    replaceAll (refText body) new (before ++ (refText body ++ after)) = before ++ (new ++ after) := by
  have hrest : ¬ refText body <:+: after := by
    intro hin
    exact hafter ((List.prefix_append refOpen (body ++ ['>'])).isInfix.trans
      (by simpa [refText] using hin))
  rw [replaceAll_append _ _ _ fun v w heq hw => not_refText_starts_of hbefore heq hw body after,
    replaceAll_pat new after (by simp [refText, refOpen]), replaceAll_eq_self new hrest]

/-- What a round does with the reference that it finds. -/
theorem SubstStep.resolved {L : Libds} {scope : List Symtab} {env : Env} {newvalue ref : CStr}
    {n : ℕ} {c : Env × CStr} (h : SubstStep L scope (env, newvalue) c)
    (hf : findNextRef newvalue = (some ref, n)) :
    ∃ resolved, resolve scope ref env = { text := some resolved, nerrors := 0, env := c.1 } ∧
      c.2 = L.strsubst newvalue ref resolved := by
  obtain ⟨hf', hr⟩ := h
  obtain ⟨rfl, rfl⟩ : ref = _ ∧ n = _ := by simpa [hf] using hf'
  exact ⟨_, hr, rfl⟩

theorem substStep_around (L : Libds) (scope : List Symtab) {env env' : Env} {before body : CStr}
    (after : CStr) {resolved : CStr} (h : ¬ refOpen <:+: before) (hbody : '>' ∉ body)
    (hres : resolve scope (refText body) env = { text := some resolved, nerrors := 0, env := env' }) :
    SubstStep L scope (env, before ++ (refText body ++ after))
      (env', replaceAll (refText body) resolved (before ++ (refText body ++ after))) := by
  rw [← L.strsubst_eq _ _ _ (by simp [refText, refOpen])]
  exact .mk (findNextRef_around after h hbody) hres

/-- A text with one reference is evaluated in one round. -/
theorem substitute_around (L : Libds) (scope : List Symtab) {env env' : Env}
    {before body after resolved : CStr} (fuel : ℕ)
    (h : ¬ refOpen <:+: before ++ (resolved ++ after)) (hbody : '>' ∉ body)
    (hres : resolve scope (refText body) env = { text := some resolved, nerrors := 0, env := env' }) :
    substitute L scope env (before ++ (refText body ++ after)) (fuel + 2) =
      .ok { nerrors := 0, env := env', newvalue := before ++ (resolved ++ after) } := by
  have hbefore : ¬ refOpen <:+: before := fun hin => h (hin.trans (List.prefix_append _ _).isInfix)
  have hafter : ¬ refOpen <:+: after := fun hin =>
    h (hin.trans ((List.suffix_append resolved after).isInfix.trans
      (List.suffix_append before _).isInfix))
  have hnone : strstr (before ++ (resolved ++ after)) refOpen = none := cut_eq_none_iff.mpr h
  have hstrsubst : L.strsubst (before ++ (refText body ++ after)) (refText body) resolved =
      before ++ (resolved ++ after) := by
    rw [L.strsubst_eq _ _ _ (by simp [refText, refOpen]), replaceAll_around _ _ hbefore hafter]
  have hloop : substLoop L scope (fuel + 2) env (before ++ (refText body ++ after)) =
      some { nerrors := 0, env := env', newvalue := before ++ (resolved ++ after) } := by
    rw [substLoop, findNextRef_around after hbefore hbody]
    simp only [hres, hstrsubst]
    rw [substLoop, findNextRef, hnone]
  rw [substitute, hloop]

/-! ### The two builtin functions -/

section

variable {name value : CStr}

theorem kbbiFptr_setenv : kbbiFptr "setenv".toList = some biSetenv := by
  simp only [kbbiFptr, builtinFunctions, List.find?_cons, decide_true, Option.map_some]

theorem kbbiFptr_getenv : kbbiFptr "getenv".toList = some biGetenv := by
  have hfirst : builtinFunctions.find? (fun f => "getenv".toList = f.1) =
      [("getenv".toList, biGetenv)].find? (fun f => "getenv".toList = f.1) :=
    List.find?_cons_of_neg (by decide)
  have hsecond : [("getenv".toList, biGetenv)].find? (fun f => "getenv".toList = f.1) =
      some ("getenv".toList, biGetenv) :=
    List.find?_cons_of_pos (decide_eq_true_iff.mpr rfl)
  rw [kbbiFptr, hfirst, hsecond, Option.map_some]

/-- A reference with a blank calls the function before it with all that stands behind it. -/
theorem resolve_call (scope : List Symtab) (env : Env) {func params : CStr} (hfunc : ' ' ∉ func)
    (hparams : '>' ∉ params) :
    resolve scope (refText (func ++ ' ' :: params)) env =
      match kbbiFptr func with
      | none => { text := none, nerrors := 1, env := env }
      | some fptr => fptr params env := by
  have hspace : ' ' ∈ refText (func ++ ' ' :: params) := by simp [refText]
  have hdrop : (refText (func ++ ' ' :: params)).drop 2 = func ++ ' ' :: (params ++ '>' :: []) := by
    simp [refText, refOpen]
  have hcut : strchr ((refText (func ++ ' ' :: params)).drop 2) ' ' =
      some (func, params ++ '>' :: []) := by
    rw [hdrop]
    exact cut_singleton _ hfunc
  have hend : strchr (params ++ '>' :: []) '>' = some (params, []) := cut_singleton [] hparams
  rw [resolve, if_pos hspace, execBuiltin]
  cases hf : kbbiFptr func <;> simp only [hcut, hend, hf]

theorem resolve_builtin (scope : List Symtab) (env : Env) {func params : CStr}
    {builtin : CStr → Env → Resolved} (hfptr : kbbiFptr func = some builtin) (hfunc : ' ' ∉ func)
    (hparams : '>' ∉ params) :
    resolve scope (refText (func ++ ' ' :: params)) env = builtin params env := by
  rw [resolve_call scope env hfunc hparams, hfptr]

theorem resolve_setenvText (scope : List Symtab) (env : Env) (hname : '>' ∉ name)
    (hvalue : '>' ∉ value) :
    resolve scope (setenvText name value) env = biSetenv (name ++ '=' :: value) env :=
  resolve_builtin scope env kbbiFptr_setenv (by decide) (by simp [hname, hvalue])

theorem resolve_getenvText (scope : List Symtab) (env : Env) (hname : '>' ∉ name) :
    resolve scope (getenvText name) env =
      { text := some ((env name).getD []), nerrors := 0, env := env } :=
  resolve_builtin scope env kbbiFptr_getenv (by decide) hname

/-- The tokens of a setting: the name, and those of the value. -/
theorem kbutilStrsplit_setting (hname : name ≠ []) (heq : '=' ∉ name) :
    kbutilStrsplit (name ++ '=' :: value) '=' = name :: strtok value '=' := by
  have hsplit : (name ++ '=' :: value).splitOn '=' = name :: value.splitOn '=' := by
    have hjoin : ['='].intercalate (name :: value.splitOn '=') = name ++ '=' :: value := by
      obtain ⟨piece, pieces, hpieces⟩ := List.exists_cons_of_ne_nil (List.splitOn_ne_nil '=' value)
      rw [hpieces, List.intercalate_cons_cons, ← hpieces, List.intercalate_splitOn]
      simp
    rw [← hjoin]
    refine List.splitOn_intercalate '=' (fun piece hpiece => ?_) (by simp)
    rcases List.mem_cons.mp hpiece with rfl | hpiece
    · exact heq
    · exact not_mem_of_mem_splitOn hpiece
  rw [kbutilStrsplit, strtok, hsplit, List.filter_cons_of_pos (by simpa using hname)]
  rfl

/-- A setting stores the first token of the value. -/
theorem biSetenv_setting (env : Env) (hname : name ≠ []) (heq : '=' ∉ name) :
    biSetenv (name ++ '=' :: value) env =
      match strtok value '=' with
      | [] => { text := none, nerrors := 1, env := env }
      | token :: _ => { text := some [], nerrors := 0, env := (setenv env name token).2 } := by
  rw [biSetenv, kbutilStrsplit_setting hname heq]
  cases strtok value '=' with
  | nil => rfl
  | cons token tokens => simp [setenv, hname, heq]

/-- The first token is the whole value when the value has no `=`, and has no `=` itself. -/
theorem strtok_value (hvalue : value ≠ []) (heq : '=' ∉ value) : strtok value '=' = [value] := by
  have hsplit : value.splitOn '=' = [value] := by
    have hpieces : ∀ piece ∈ [value], '=' ∉ piece := by simpa using heq
    simpa using List.splitOn_intercalate '=' hpieces (by simp)
  rw [strtok, hsplit, List.filter_cons_of_pos (by simpa using hvalue), List.filter_nil]

theorem eq_notMem_of_strtok {token : CStr} {tokens : List CStr}
    (h : strtok value '=' = token :: tokens) : '=' ∉ token := by
  have hmem : token ∈ strtok value '=' := by simp [h]
  exact not_mem_of_mem_splitOn (List.mem_filter.mp hmem).1

end

/-- The environment after a setting holds the first token. -/
theorem ReadsBack.env_eq {L : Libds} {env env' : Env} {name value : CStr}
    (h : ReadsBack L env env' name value) (hname : name ≠ []) (hnameEq : '=' ∉ name)
    (hnameEnd : '>' ∉ name) (hvalueEnd : '>' ∉ value) :
    ∃ token tokens, strtok value '=' = token :: tokens ∧ env' = (setenv env name token).2 := by
  obtain ⟨resolved, hres, -⟩ := (h.wrote [] [] [] (by decide)).resolved
    (findNextRef_around [] (by decide) (by simp [hnameEnd, hvalueEnd]))
  rw [← setenvText, resolve_setenvText [] env hnameEnd hvalueEnd,
    biSetenv_setting env hname hnameEq] at hres
  cases hstrtok : strtok value '=' with
  | nil => simp [hstrtok] at hres
  | cons token tokens =>
    simp only [hstrtok, Resolved.mk.injEq] at hres
    exact ⟨token, tokens, rfl, hres.2.2.symm⟩

/-- What a setting stores is read back exactly when the value has no `=`. -/
theorem setenv_readsBack_iff (L : Libds) (env : Env) (name value : CStr) (hname : name ≠ [])
    (hnameEq : '=' ∉ name) (hnameEnd : '>' ∉ name) (hvalue : value ≠ [])
    (hvalueEnd : '>' ∉ value) : (∃ env', ReadsBack L env env' name value) ↔ '=' ∉ value := by
  constructor
  · rintro ⟨env', h⟩
    obtain ⟨token, tokens, htoken, rfl⟩ := ReadsBack.env_eq h hname hnameEq hnameEnd hvalueEnd
    have hround := h.read [] [] [] (by decide)
    obtain ⟨resolved, hres, hnew⟩ := hround.resolved
      (findNextRef_around [] (by decide) (by simp [hnameEnd]))
    -- The name stands for the token that was stored, so the token is the value.
    rw [← getenvText, resolve_getenvText [] _ hnameEnd] at hres
    obtain rfl : token = resolved := by simpa [setenv, hname, hnameEq] using hres
    have hvalueToken : value = token := by
      rw [L.strsubst_eq _ _ _ (by simp [refText, refOpen]), getenvText,
        replaceAll_around _ _ (by decide) (by decide),
        replaceAll_around _ _ (by decide) (by decide)] at hnew
      simpa using hnew
    rw [hvalueToken]
    exact eq_notMem_of_strtok htoken
  · intro heq
    have hset : ∀ scope, resolve scope (setenvText name value) env =
        { text := some [], nerrors := 0, env := (setenv env name value).2 } := by
      intro scope
      rw [resolve_setenvText scope env hnameEnd hvalueEnd, biSetenv_setting env hname hnameEq,
        strtok_value hvalue heq]
    have hget : ∀ scope, resolve scope (getenvText name) (setenv env name value).2 =
        { text := some value, nerrors := 0, env := (setenv env name value).2 } := by
      intro scope
      rw [resolve_getenvText scope _ hnameEnd]
      simp [setenv, hname, hnameEq]
    have hsetEnd : '>' ∉ "setenv".toList ++ ' ' :: (name ++ '=' :: value) := by
      simp [hnameEnd, hvalueEnd]
    have hgetEnd : '>' ∉ "getenv".toList ++ ' ' :: name := by simp [hnameEnd]
    exact ⟨(setenv env name value).2,
      fun scope before after h => substStep_around L scope after h hsetEnd (hset scope),
      fun scope before after h => substStep_around L scope after h hgetEnd (hget scope),
      fun scope before after fuel h => substitute_around L scope fuel h hsetEnd (hset scope),
      fun scope before after fuel h => substitute_around L scope fuel h hgetEnd (hget scope)⟩

theorem path_readsBack : ∃ env', ReadsBack Libds.ordered (fun _ => none) env' "DIR".toList
    "/srv/a b".toList :=
  (setenv_readsBack_iff Libds.ordered (fun _ => none) "DIR".toList "/srv/a b".toList (by decide)
    (by decide) (by decide) (by decide) (by decide)).mpr (by decide)

/-- A query string ends at its `=`. -/
theorem url_notReadBack : ¬ ∃ env', ReadsBack Libds.ordered (fun _ => none) env' "URL".toList
    "http://x?a=b".toList := by
  rintro ⟨env', h⟩
  obtain ⟨token, tokens, htoken, rfl⟩ := h.env_eq (by decide) (by decide) (by decide) (by decide)
  have hurl : strtok "http://x?a=b".toList '=' = ["http://x?a".toList, "b".toList] := by decide
  obtain ⟨rfl, -⟩ := List.cons.inj (htoken.symm.trans hurl)
  have hread := congrArg (fun r => r.toOption.map Substituted.newvalue)
    (h.readAll [] [] [] 0 (by decide))
  exact absurd hread (by decide +kernel)

end Kubeka
