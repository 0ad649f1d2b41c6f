import Kubeka.Eval.Halting
import Kubeka.Eval.Leads
import Kubeka.Eval.TemplateTree

/-!
# References that are closed where they are opened

When every text that can come into a value has its references written out, the
loop over the value rewrites a template, and it ends when no chain of texts
that lead to each other is infinite. Builtin functions may be called.
-/

namespace Kubeka

open Text Templates FiniteGraph Relation Fuel

/-- Every reference of the text is closed where it is opened. -/
abbrev Closed (s : CStr) : Prop := ReadableWith (fun _ => True) s

/-- All texts that can come into `v` have closed references, and no chain of them is infinite. -/
structure WrittenOut (scope : List Symtab) (env : Env) (v : CStr) : Prop where
  closed : ∀ w, ReflTransGen (Brings HasRef (sources scope env)) v w → Closed w
  ends : Terminates (Brings HasRef (sources scope env)) v

variable {L : Libds} {raw cur : List Symtab} {env₀ env : Env} {v w name : CStr}

theorem WrittenOut.of_brings (h : WrittenOut raw env₀ v) (hname : HasRef v name)
    (hw : w ∈ sources raw env₀ name) : WrittenOut raw env₀ w where
  closed u hu := h.closed u (.head ⟨name, hname, hw⟩ hu)
  ends := h.ends.of_step ⟨name, hname, hw⟩

/-- A value that is written out has come to one that is closed and spells no more. -/
def FewerRefs (raw : List Symtab) (env₀ : Env) (v v' : CStr) : Prop :=
  WrittenOut raw env₀ v → Closed v' ∧ ∀ name, HasRef v' name → HasRef v name

/-! ### What comes in place of a reference -/

theorem ref_of_formatTemplate {ts : List (Template CStr Char)} (h : .ref name ∈ formatTemplate ts) :
    ∃ t ∈ ts, .ref name ∈ t := by
  refine formatTemplate_of (R := fun t _ => .ref name ∈ t → ∃ t ∈ ts, .ref name ∈ t) ?_ (by simp)
    (fun ht hu hmem => (List.mem_append.mp hmem).elim ht hu)
    (List.forall₂_same.mpr fun t ht hmem => ⟨t, ht, hmem⟩) h
  simp [ofText]

/-- A text for the reference `name` of a text that is written out. -/
structure ComesClosed (raw : List Symtab) (env₀ : Env) (name : CStr) (b : Template CStr Char) :
    Prop where
  wellFormed : WellFormed (fun _ => True) b
  names : ∀ y, .ref y ∈ b → ∃ w ∈ sources raw env₀ name, HasRef w y

theorem comesClosed_plain {s : CStr} (h : ∀ c ∈ ['$', '>'], c ∉ s) :
    ComesClosed raw env₀ name (ofText s) where
  wellFormed := by
    have hdollar : '$' ∉ s := h '$' (by simp)
    exact wellFormed_ofText ⟨fun hin => hdollar (hin.subset (by simp [refOpen])),
      fun hlast => hdollar (List.mem_of_getLast? hlast)⟩
  names := by simp [ofText]

/-- The values of a variable, of which some have been evaluated. -/
theorem comesClosed_values (hgood : ∀ w ∈ sources raw env₀ name, WrittenOut raw env₀ w)
    (hcur : ScopeRel (FewerRefs raw env₀) raw cur) (hspace : strchr name ' ' = none)
    {vs : List CStr} (hvs : kbnodeResolve cur name = some vs) :
    ∃ b, render b = kbutilStrarrayFormat vs ∧ ComesClosed raw env₀ name b := by
  obtain ⟨vs₀, hvs₀, hrel⟩ := hcur.exists_values hvs
  have hsrc : sources raw env₀ name = vs₀ := by simp [sources, hspace, hvs₀]
  have hall : ∀ v' ∈ vs, Closed v' ∧
      ∀ y, HasRef v' y → ∃ w ∈ sources raw env₀ name, HasRef w y := by
    intro v' hv'
    obtain ⟨v, hv, hless⟩ := Lists.forall₂_left_of_mem hrel hv'
    rw [← hsrc] at hv
    obtain ⟨hclosed, hnames⟩ := hless (hgood v hv)
    exact ⟨hclosed, fun y hy => ⟨v, hv, hnames y hy⟩⟩
  refine ⟨formatTemplate (vs.map parse), ?_, wellFormed_formatTemplate fun t ht => ?_,
    fun y hy => ?_⟩
  · rw [render_formatTemplate, map_render_parse fun v' hv' => (hall v' hv').1]
  · obtain ⟨v', hv', rfl⟩ := List.mem_map.mp ht
    exact (hall v' hv').1.1
  · obtain ⟨t, ht, hyt⟩ := ref_of_formatTemplate hy
    obtain ⟨v', hv', rfl⟩ := List.mem_map.mp ht
    exact (hall v' hv').2 y hyt

/-- What comes in place of a reference is a text with names that the reference leads to. -/
theorem comes_closed {resolved : CStr} {env' : Env} (hname : IsRef name)
    (hgood : ∀ w ∈ sources raw env₀ name, WrittenOut raw env₀ w)
    (hcur : ScopeRel (FewerRefs raw env₀) raw cur) (henv : EnvFrom ['$', '>'] env₀ env)
    (h : ComesFor cur env name resolved env') :
    (∃ b, render b = resolved ∧ ComesClosed raw env₀ name b) ∧ EnvFrom ['$', '>'] env₀ env' := by
  cases h with
  | values hspace hvs => exact ⟨comesClosed_values hgood hcur hspace hvs, henv⟩
  | @read params hcall =>
    refine ⟨?_, henv⟩
    rcases henv.read raw hcall with hmem | hplain
    · have hclosed : Closed ((env params).getD []) := (hgood _ hmem).closed _ .refl
      exact ⟨_, hclosed.2, hclosed.1, fun _ hy => ⟨_, hmem, hy⟩⟩
    · exact ⟨_, render_ofText _, comesClosed_plain hplain⟩
  | stored hvalue =>
    have hchars : ∀ c ∈ ['$', '>'], c ∉ name := by simp [hname.1, hname.2]
    exact ⟨⟨[], rfl, .nil, by simp⟩, henv.store hchars hvalue⟩

/-! ### The loop -/

theorem mem_substAll {x y : CStr} {b t : Template CStr Char}
    (h : .ref y ∈ substAll x b t) : .ref y ∈ t ∨ .ref y ∈ b := by
  induction t with
  | nil => simp [substAll] at h
  | cons g t ih =>
    cases g with
    | lit c =>
      have hmem : .ref y ∈ substAll x b t := by simpa [substAll] using h
      exact (ih hmem).imp_left (List.mem_cons_of_mem _)
    | ref z =>
      rw [substAll] at h
      split_ifs at h
      · rcases List.mem_append.mp h with h | h
        · exact .inr h
        · exact (ih h).imp_left (List.mem_cons_of_mem _)
      · rcases List.mem_cons.mp h with h | h
        · exact .inl (h ▸ List.mem_cons_self)
        · exact (ih h).imp_left (List.mem_cons_of_mem _)

theorem refOpen_occurs {t : Template CStr Char} (h : .ref name ∈ t) : refOpen <:+: render t := by
  obtain ⟨u, v, rfl⟩ := List.append_of_mem h
  exact ⟨render u, name ++ ['>'] ++ render v, by simp [render, refText]⟩

/-- The text that the loop has come to, as a template whose names lead to texts that are written
out. -/
structure Rewriting (raw : List Symtab) (env₀ : Env) (t : Template CStr Char) (c : Env × CStr) :
    Prop where
  text : render t = c.2
  wellFormed : WellFormed (fun _ => True) t
  good : ∀ y, .ref y ∈ t → ∀ w ∈ sources raw env₀ y, WrittenOut raw env₀ w
  env : EnvFrom ['$', '>'] env₀ c.1

theorem Rewriting.next {t : Template CStr Char} {c c' : Env × CStr}
    (hcur : ScopeRel (FewerRefs raw env₀) raw cur) (h : Rewriting raw env₀ t c)
    (hstep : SubstStep L cur c c') :
    ∃ t', TransGen (Replaces fun x y => ∃ w ∈ sources raw env₀ x, HasRef w y) t t' ∧
      Rewriting raw env₀ t' c' := by
  obtain ⟨htext, hwell, hgood, henv⟩ := h
  obtain @⟨env, env', value, ref, resolved, n, hf, hres⟩ := hstep
  obtain rfl : render t = value := htext
  dsimp only at hf henv
  rw [findNextRef_render hwell] at hf
  obtain ⟨⟨x, hx, rfl⟩, -⟩ : (∃ x, firstRef t = some x ∧ refText x = ref) ∧ 0 = n := by
    simpa using hf
  have hmem : .ref x ∈ t := firstRef_mem hx
  have hxref : IsRef x := (hwell.isRef hmem).1
  obtain ⟨⟨b, rfl, hb⟩, henv'⟩ :=
    comes_closed hxref (hgood x hmem) hcur henv (resolve_comes hxref.1 hres)
  refine ⟨substAll x b t, (replaces_substAll hb.names t).2 hmem, ?_, hb.wellFormed.substAll hwell,
    fun y hy => ?_, henv'⟩
  · rw [L.strsubst_eq _ _ _ (by simp [refText, refOpen]), replaceAll_render hxref.1 b hwell]
  · rcases mem_substAll hy with hy | hy
    · exact hgood y hy
    · obtain ⟨w, hw, hwy⟩ := hb.names y hy
      exact fun u hu => (hgood x hmem w hw).of_brings hwy hu

theorem loopsEnd_closed (L : Libds) (raw : List Symtab) (env₀ : Env) :
    LoopsEnd L raw (WrittenOut raw env₀) (FewerRefs raw env₀) (EnvFrom ['$', '>'] env₀) where
  refl v hv := ⟨hv.closed v .refl, fun _ h => h⟩
  loop {cur env v v'} hcur henv hv hless := by
    obtain ⟨hclosed, hnames⟩ := hless hv
    have hstart : Rewriting raw env₀ (parse v') (env, v') := by
      refine ⟨hclosed.2, hclosed.1, fun y hy w hw => hv.of_brings (hnames y hy) hw, henv⟩
    have hends : Terminates (Replaces fun x y => ∃ w ∈ sources raw env₀ x, HasRef w y)
        (parse v') :=
      terminates_of_refs fun y hy => terminates_names hv.ends (hnames y hy)
    obtain ⟨r, t, hr, -, htext, hwell, -, henv'⟩ :=
      exists_substitute (L := L) (fun _ _ _ => Rewriting.next hcur) hends.transGen hstart
    refine ⟨r, hr, henv', fun he => ?_⟩
    have hclean : ¬ refOpen <:+: render t := htext ▸ substitute_clean hr he
    have hdone : render t = r.newvalue := htext
    rw [← hdone]
    refine fun _ => ⟨hwell.readable, fun y hy => ?_⟩
    rw [HasRef, parse_render hwell] at hy
    exact absurd (refOpen_occurs hy) hclean

end Kubeka
