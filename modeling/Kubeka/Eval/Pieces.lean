import Kubeka.Eval.Halting
import Kubeka.Eval.Leads

/-!
# References that are put together from pieces

The `$<` of a reference, its name and its `>` may come from different texts. A
round of the loop takes at least one `>` away, and those that come for it stand
in texts to which the one taken away leads. So a loop ends when no chain of
texts is infinite in which each one may close a reference that is replaced by
the next.
-/

namespace Kubeka

open Text Templates FiniteGraph Relation Fuel

/-- Every reference that may end behind `l` may be closed by a `>` of the text `w`. -/
def ClosedBy (l w : CStr) : Prop :=
  ∀ name, refOpen ++ name <:+ l ∨ l <:+ refOpen ++ name → MayClose w name

theorem ClosedBy.extend (q l w : CStr) (h : ClosedBy l w) : ClosedBy (q ++ l) w := by
  rintro name (hname | hname)
  · exact h name (List.suffix_or_suffix_of_suffix hname (List.suffix_append q l))
  · exact h name (.inr ((List.suffix_append q l).trans hname))

/-- Each `>` of the text stands for one of the texts in `Q`. -/
def ClosersIn (Q : CStr → Prop) (s : CStr) : Prop :=
  ∃ ws, Labelled '>' ClosedBy [] s ws ∧ ∀ w ∈ ws, Q w

variable {Q : CStr → Prop} {s t : CStr}

theorem closersIn_self (h : Q s) : ClosersIn Q s := by
  have hmay : ∀ p ∈ segments '>' [] s, ClosedBy p s := fun p hp name hname => ⟨p, hp, hname⟩
  obtain ⟨ws, hws, hself⟩ := exists_labelled hmay
  exact ⟨ws, hws, fun w hw => hself w hw ▸ h⟩

theorem closersIn_of_notMem (h : '>' ∉ s) : ClosersIn Q s := ⟨[], labelled_of_notMem h, by simp⟩

theorem ClosersIn.append (hs : ClosersIn Q s) (ht : ClosersIn Q t) : ClosersIn Q (s ++ t) := by
  obtain ⟨ws, hws, hQ⟩ := hs
  obtain ⟨us, hus, hQ'⟩ := ht
  exact ⟨ws ++ us, hws.append ClosedBy.extend hus, List.forall_mem_append.mpr ⟨hQ, hQ'⟩⟩

theorem ClosersIn.imp {Q' : CStr → Prop} (hs : ClosersIn Q s) (h : ∀ w, Q w → Q' w) :
    ClosersIn Q' s := by
  obtain ⟨ws, hws, hQ⟩ := hs
  exact ⟨ws, hws, fun w hw => h w (hQ w hw)⟩

theorem closersIn_format {vs : List CStr} (h : ∀ v ∈ vs, ClosersIn Q v) :
    ClosersIn Q (kbutilStrarrayFormat vs) := by
  have hplain : ∀ s ∈ ["[ ".toList, " ".toList, ",".toList, "]".toList], ClosersIn Q s :=
    fun s hs => closersIn_of_notMem (by revert s; simp)
  have htail : ∀ vs : List CStr, (∀ v ∈ vs, ClosersIn Q v) →
      ClosersIn Q (kbutilStrarrayFormatTail vs) := by
    intro vs h
    induction vs with
    | nil => exact hplain "]".toList (by simp)
    | cons v vs ih =>
      obtain ⟨hv, hvs⟩ := List.forall_mem_cons.mp h
      exact (((hplain _ (by simp)).append hv).append (hplain _ (by simp))).append (ih hvs)
  match vs with
  | [] => exact closersIn_of_notMem (by simp [kbutilStrarrayFormat])
  | [v] => exact h v (by simp)
  | v :: u :: vs =>
    obtain ⟨hv, hrest⟩ := List.forall_mem_cons.mp h
    exact (((hplain _ (by simp)).append hv).append (hplain _ (by simp))).append (htail _ hrest)

/-! ### What comes in place of a reference -/

variable {L : Libds} {raw cur : List Symtab} {env₀ env : Env} {v v' w name : CStr}

/-- Each `>` of `v'` stands for a text to which `v` leads. -/
def Pieces (raw : List Symtab) (env₀ : Env) (v v' : CStr) : Prop :=
  ClosersIn (ReflTransGen (Brings MayClose (sources raw env₀)) v) v'

theorem pieces_self (raw : List Symtab) (env₀ : Env) (v : CStr) : Pieces raw env₀ v v :=
  closersIn_self .refl

/-- What comes in place of a reference has closers from the texts that the reference leads to. -/
theorem comes_pieces {resolved : CStr} {env' : Env} (hname : '>' ∉ name)
    (hcur : ScopeRel (Pieces raw env₀) raw cur) (henv : EnvFrom ['>'] env₀ env)
    (h : ComesFor cur env name resolved env') :
    ClosersIn (fun w => ∃ u ∈ sources raw env₀ name,
        ReflTransGen (Brings MayClose (sources raw env₀)) u w) resolved ∧
      EnvFrom ['>'] env₀ env' := by
  cases h with
  | @values vs hspace hvs =>
    obtain ⟨vs₀, hvs₀, hrel⟩ := hcur.exists_values hvs
    have hsrc : sources raw env₀ name = vs₀ := by simp [sources, hspace, hvs₀]
    refine ⟨closersIn_format fun v' hv' => ?_, henv⟩
    obtain ⟨v, hv, hpieces⟩ := Lists.forall₂_left_of_mem hrel hv'
    exact hpieces.imp fun w hw => ⟨v, by rwa [hsrc], hw⟩
  | @read params hcall =>
    refine ⟨?_, henv⟩
    rcases henv.read raw hcall with hmem | hplain
    · exact closersIn_self ⟨_, hmem, .refl⟩
    · exact closersIn_of_notMem (hplain '>' (by simp))
  | stored hvalue =>
    exact ⟨closersIn_of_notMem (by simp), henv.store (by simpa using hname) hvalue⟩

/-! ### The loop -/

/-- The closers of the text that the loop has come to, as a template of the texts they stand for. -/
def Closing (env₀ : Env) (t : Template CStr Char) (c : Env × CStr) : Prop :=
  ∃ ws, labels Char ws = t ∧ Labelled '>' ClosedBy [] c.2 ws ∧ EnvFrom ['>'] env₀ c.1

theorem Closing.next {t : Template CStr Char} {c c' : Env × CStr}
    (hcur : ScopeRel (Pieces raw env₀) raw cur) (h : Closing env₀ t c)
    (hstep : SubstStep L cur c c') :
    ∃ t', TransGen (Replaces (TransGen (Brings MayClose (sources raw env₀)))) t t' ∧
      Closing env₀ t' c' := by
  obtain ⟨ws, rfl, hws, henv⟩ := h
  obtain @⟨env, env', value, ref, resolved, n, hf, hres⟩ := hstep
  obtain ⟨name, rfl, hname, hin⟩ := findNextRef_some hf
  obtain ⟨⟨us, hus, hfrom⟩, henv'⟩ := comes_pieces hname hcur henv (resolve_comes hname hres)
  have hopen : '>' ∉ refOpen ++ name := by simp [refOpen, hname]
  -- A closer that is taken away stands for a text that may close the reference.
  have hnew : ∀ l w, ClosedBy (l ++ (refOpen ++ name)) w → ∃ ys,
      Labelled '>' ClosedBy [] resolved ys ∧
        ∀ y ∈ ys, TransGen (Brings MayClose (sources raw env₀)) w y := by
    intro l w hw
    have hmay : MayClose w name := hw name (.inl (List.suffix_append l _))
    refine ⟨us, hus, fun y hy => ?_⟩
    obtain ⟨u, hu, huy⟩ := hfrom y hy
    exact TransGen.head' ⟨name, hmay, hu⟩ huy
  obtain ⟨ys, hys, -, hoccurs⟩ := hws.replaceAll hopen ClosedBy.extend hnew
  refine ⟨labels Char ys, hoccurs (by simpa [refText] using hin), ys, rfl, ?_, henv'⟩
  rw [L.strsubst_eq _ _ _ (by simp [refText, refOpen])]
  exact hys

theorem loopsEnd_pieces (L : Libds) (raw : List Symtab) (env₀ : Env) :
    LoopsEnd L raw (Terminates (Brings MayClose (sources raw env₀))) (Pieces raw env₀)
      (EnvFrom ['>'] env₀) where
  refl := pieces_self raw env₀
  loop {cur env v v'} hcur henv hv hpieces := by
    obtain ⟨ws, hws, hfrom⟩ := hpieces
    have hstart : Closing env₀ (labels Char ws) (env, v') := ⟨ws, rfl, hws, henv⟩
    have hends : Terminates (Replaces (TransGen (Brings MayClose (sources raw env₀))))
        (labels Char ws) :=
      terminates_of_refs fun w hw => (hv.of_path (hfrom w (ref_mem_labels.mp hw))).transGen
    obtain ⟨r, t, hr, hrun, us, rfl, hus, henv'⟩ :=
      exists_substitute (L := L) (fun _ _ _ => Closing.next hcur) hends.transGen hstart
    refine ⟨r, hr, henv', fun _ => ⟨us, hus, fun u hu => ?_⟩⟩
    rw [reflTransGen_transGen] at hrun
    obtain ⟨w, hw, hwu⟩ := exists_ref_of_replaces hrun (ref_mem_labels.mpr hu)
    rw [reflTransGen_transGen] at hwu
    exact (hfrom w (ref_mem_labels.mp hw)).trans hwu

end Kubeka
