import Kubeka.Eval.Environment
import Kubeka.Eval.Shape
import Kubeka.Library.Closers

/-!
# What a text brings in

A reference is replaced by the values of a variable, or by what `getenv` reads,
and these texts bring references of their own with them. Which references a
text has depends on how it is written: one that is closed where it is opened
can be read off the text, but a `>` may also close a reference that began in
the text around it.
-/

namespace Kubeka

open Text Templates FiniteGraph

/-- The texts that come in place of a reference. -/
def sources (scope : List Symtab) (env : Env) (name : CStr) : List CStr :=
  match strchr name ' ' with
  | none => (kbnodeResolve scope name).getD []
  | some (func, params) => if func = "getenv".toList then [(env params).getD []] else []

/-- A text brings in all that may come in place of a reference that it mentions. -/
def Brings (mentions : CStr → CStr → Prop) (src : CStr → List CStr) (v w : CStr) : Prop :=
  ∃ name, mentions v name ∧ w ∈ src name

/-- The reference can be read off the text. -/
def HasRef (v name : CStr) : Prop := .ref name ∈ parse v

/-- The reference may be closed by a `>` of the text, with some text before it. -/
def MayClose (v name : CStr) : Prop :=
  ∃ p ∈ segments '>' [] v, refOpen ++ name <:+ p ∨ p <:+ refOpen ++ name

/-- The reference to a variable stands in the text. -/
def NamesVariable (v name : CStr) : Prop := ' ' ∉ name ∧ '>' ∉ name ∧ refText name <:+: v

/-- Along the names that the texts mention there is no infinite chain either. -/
theorem terminates_names {mentions : CStr → CStr → Prop} {src : CStr → List CStr} {v name : CStr}
    (h : Terminates (Brings mentions src) v) (hname : mentions v name) :
    Terminates (fun x y => ∃ w ∈ src x, mentions w y) name := by
  induction h generalizing name with
  | intro v _ ih =>
    refine Acc.intro _ fun y hy => ?_
    obtain ⟨w, hw, hwy⟩ := hy
    exact ih w ⟨name, hname, hw⟩ hwy

/-! ### A reference and what comes for it -/

variable {scope : List Symtab} {env env' : Env} {name resolved : CStr}

theorem strchr_eq_none {s : CStr} {c : Char} (h : c ∉ s) : strchr s c = none :=
  cut_eq_none_iff.mpr fun hin => h (hin.subset (by simp))

theorem kbbiFptr_eq_some {func : CStr} {builtin : CStr → Env → Resolved}
    (h : kbbiFptr func = some builtin) :
    (func = "setenv".toList ∧ builtin = biSetenv) ∨
      (func = "getenv".toList ∧ builtin = biGetenv) := by
  obtain ⟨f, hf, rfl⟩ := Option.map_eq_some_iff.mp h
  have hname := List.find?_some hf
  obtain rfl : func = f.1 := by simpa using hname
  have hmem := List.mem_of_find?_eq_some hf
  simp only [builtinFunctions, List.mem_cons, List.not_mem_nil, or_false] at hmem
  rcases hmem with rfl | rfl
  · exact .inl ⟨rfl, rfl⟩
  · exact .inr ⟨rfl, rfl⟩

/-- A reference stands for the text of a variable, for what is read from the environment, or for
nothing where a part of it is stored there. -/
inductive ComesFor (scope : List Symtab) (env : Env) (name : CStr) : CStr → Env → Prop
  | values {vs} : strchr name ' ' = none → kbnodeResolve scope name = some vs →
      ComesFor scope env name (kbutilStrarrayFormat vs) env
  | read {params} : strchr name ' ' = some ("getenv".toList, params) →
      ComesFor scope env name ((env params).getD []) env
  | stored {var value} : (∀ c ∈ value, c ∈ name) →
      ComesFor scope env name [] (fun n => if n = var then some value else env n)

theorem mem_of_mem_strtok {s token : CStr} {delim c : Char} (h : token ∈ strtok s delim)
    (hc : c ∈ token) : c ∈ s := by
  have hpiece : token ∈ s.splitOn delim := (List.mem_filter.mp h).1
  have hne : c ≠ delim := by
    rintro rfl
    exact not_mem_of_mem_splitOn hpiece hc
  have hjoin : [delim].intercalate (s.splitOn delim) = s := List.intercalate_splitOn delim
  rw [← hjoin]
  exact (mem_intercalate_iff hne).mpr ⟨token, hpiece, hc⟩

theorem biSetenv_stores {params : CStr}
    (h : biSetenv params env = { text := some resolved, nerrors := 0, env := env' }) :
    resolved = [] ∧ ∃ var value, (∀ c ∈ value, c ∈ params) ∧
      env' = fun n => if n = var then some value else env n := by
  rw [biSetenv] at h
  cases hsplit : kbutilStrsplit params '=' with
  | nil => simp [hsplit] at h
  | cons var rest =>
    cases rest with
    | nil => simp [hsplit] at h
    | cons value rest =>
      have hvalue : ∀ c ∈ value, c ∈ params := fun c hc =>
        mem_of_mem_strtok (by rw [← kbutilStrsplit, hsplit]; simp) hc
      by_cases hvar : var = [] ∨ '=' ∈ var
      · simp [hsplit, setenv, hvar] at h
      · obtain ⟨rfl, rfl⟩ : [] = resolved ∧ _ = env' := by simpa [hsplit, setenv, hvar] using h
        exact ⟨rfl, var, value, hvalue, rfl⟩

theorem resolve_comes (hname : '>' ∉ name)
    (h : resolve scope (refText name) env = { text := some resolved, nerrors := 0, env := env' }) :
    ComesFor scope env name resolved env' := by
  by_cases hspace : ' ' ∈ name
  · obtain ⟨func, params, rfl, hfunc⟩ := List.eq_append_cons_of_mem hspace
    have hcut : strchr (func ++ ' ' :: params) ' ' = some (func, params) :=
      cut_singleton params hfunc
    have hparams : '>' ∉ params := fun hc => hname (by simp [hc])
    rw [resolve_call scope env hfunc hparams] at h
    cases hf : kbbiFptr func with
    | none => simp [hf] at h
    | some builtin =>
      simp only [hf] at h
      rcases kbbiFptr_eq_some hf with ⟨rfl, rfl⟩ | ⟨rfl, rfl⟩
      · obtain ⟨rfl, var, value, hvalue, rfl⟩ := biSetenv_stores h
        exact .stored fun c hc => by simp [hvalue c hc]
      · obtain ⟨rfl, -, rfl⟩ : (env params).getD [] = resolved ∧ 0 = 0 ∧ env = env' := by
          simpa [biGetenv] using h
        exact .read hcut
  · rw [resolve_refText hspace hname] at h
    cases hvs : kbnodeResolve scope name with
    | none => simp [hvs] at h
    | some vs =>
      obtain ⟨rfl, rfl⟩ : kbutilStrarrayFormat vs = resolved ∧ env = env' := by simpa [hvs] using h
      exact .values (strchr_eq_none hspace) hvs

/-- The environment, but for values without the characters. -/
def EnvFrom (chars : List Char) (env₀ env : Env) : Prop :=
  ∀ name, env name = env₀ name ∨ ∃ value, env name = some value ∧ ∀ c ∈ chars, c ∉ value

theorem EnvFrom.refl (chars : List Char) (env : Env) : EnvFrom chars env env := fun _ => .inl rfl

variable {chars : List Char} {env₀ : Env}

/-- Storing a part of a reference without the characters. -/
theorem EnvFrom.store (h : EnvFrom chars env₀ env) (hname : ∀ c ∈ chars, c ∉ name)
    {var value : CStr} (hvalue : ∀ c ∈ value, c ∈ name) :
    EnvFrom chars env₀ fun n => if n = var then some value else env n := by
  intro n
  dsimp only
  split_ifs
  · exact .inr ⟨value, rfl, fun c hc hin => hname c hc (hvalue c hin)⟩
  · exact h n

/-- What is read is what was there at the start, or a text without the characters. -/
theorem EnvFrom.read (h : EnvFrom chars env₀ env) (scope : List Symtab) {params : CStr}
    (hcall : strchr name ' ' = some ("getenv".toList, params)) :
    (env params).getD [] ∈ sources scope env₀ name ∨ ∀ c ∈ chars, c ∉ (env params).getD [] := by
  rcases h params with heq | ⟨value, hvalue, hchars⟩
  · exact .inl (by simp [sources, hcall, heq])
  · exact .inr (by simpa [hvalue] using hchars)

end Kubeka
