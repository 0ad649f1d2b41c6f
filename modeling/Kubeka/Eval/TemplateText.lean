import Kubeka.Library.Template
import Kubeka.Model.Eval

/-!
# Values that are templates

A value written as plain runs and references `$<name>` is the same thing as a
template over the characters. On such values the text functions of the
evaluator are the operations on templates: `find_next_ref` finds the leftmost
reference, `ds_str_strsubst` exchanges one name everywhere, and formatting an
array of templates is a template again.
-/

namespace Kubeka

open Text Templates

/-- Text without a reference that does not make one with what follows it. -/
def IsPlain (s : CStr) : Prop := ¬ refOpen <:+: s ∧ s.getLast? ≠ some '$'

def IsName (name : CStr) : Prop := ' ' ∉ name ∧ '>' ∉ name ∧ '$' ∉ name

/-- What can stand in a reference: the name of a variable, or the call of a builtin function. -/
def IsRef (name : CStr) : Prop := '>' ∉ name ∧ '$' ∉ name

def IsVariable (name : CStr) : Prop := ' ' ∉ name

theorem isName_iff {name : CStr} : IsName name ↔ IsRef name ∧ IsVariable name := and_comm

/-- The text of a reference. -/
def refText (name : CStr) : CStr := refOpen ++ name ++ ['>']

/-- Plain runs interleaved with references. -/
inductive IsTemplate : CStr → Prop
  | plain {s} : IsPlain s → IsTemplate s
  | ref {s name t} : IsPlain s → IsName name → IsTemplate t → IsTemplate (s ++ refText name ++ t)

instance (s : CStr) : Decidable (IsPlain s) := inferInstanceAs (Decidable (_ ∧ _))
instance (name : CStr) : Decidable (IsName name) := inferInstanceAs (Decidable (_ ∧ _ ∧ _))

/-! ### From text to templates and back -/

/-- Read a text, with the name read so far when inside a reference. -/
def scan : Option CStr → CStr → Template CStr Char
  | none, [] => []
  | none, '$' :: '<' :: s => scan (some []) s
  | none, c :: s => .lit c :: scan none s
  | some name, [] => ofText (refOpen ++ name)
  | some name, c :: s => if c = '>' then .ref name :: scan none s else scan (some (name ++ [c])) s

def parse (s : CStr) : Template CStr Char := scan none s

def render : Template CStr Char → CStr
  | [] => []
  | .lit c :: t => c :: render t
  | .ref name :: t => refText name ++ render t

/-- Templates whose text reads back as they are, with references of the kind `N` only: no `$` before
a `<`, a reference or the end. -/
inductive WellFormed (N : CStr → Prop) : Template CStr Char → Prop
  | nil : WellFormed N []
  | lit {c t} : c ≠ '$' → WellFormed N t → WellFormed N (.lit c :: t)
  | dollar {c t} : c ≠ '<' → WellFormed N (.lit c :: t) → WellFormed N (.lit '$' :: .lit c :: t)
  | ref {name t} : IsRef name → N name → WellFormed N t → WellFormed N (.ref name :: t)

variable {N : CStr → Prop}

theorem WellFormed.append {t u : Template CStr Char} (ht : WellFormed N t) (hu : WellFormed N u) :
    WellFormed N (t ++ u) := by
  induction ht with
  | nil => exact hu
  | lit hc _ ih => exact .lit hc ih
  | dollar hc _ ih => exact .dollar hc ih
  | ref hr hn _ ih => exact .ref hr hn ih

@[simp] theorem render_append (t u : Template CStr Char) : render (t ++ u) = render t ++ render u := by
  induction t with
  | nil => rfl
  | cons g t ih => cases g <;> simp [render, ih]

@[simp] theorem render_ofText (s : CStr) : render (ofText s) = s := by
  induction s with
  | nil => rfl
  | cons c s ih => simpa [ofText, render] using ih

theorem wellFormed_ofText {s : CStr} (h : IsPlain s) : WellFormed N (ofText s) := by
  induction s with
  | nil => exact .nil
  | cons c s ih =>
    have htail : s ≠ [] → IsPlain s := by
      intro hs
      refine ⟨fun hin => h.1 (hin.trans (List.suffix_cons c s).isInfix), ?_⟩
      rw [← List.getLast?_cons_of_ne_nil (x := c) hs]
      exact h.2
    by_cases hc : c = '$'
    · subst hc
      cases s with
      | nil => exact absurd rfl h.2
      | cons d s =>
        refine .dollar ?_ (ih (htail (by simp)))
        rintro rfl
        exact h.1 ⟨[], s, rfl⟩
    · refine .lit hc ?_
      by_cases hs : s = []
      · subst hs
        exact .nil
      · exact ih (htail hs)

theorem scan_name {name : CStr} (acc s : CStr) (hn : '>' ∉ name) :
    scan (some acc) (name ++ '>' :: s) = .ref (acc ++ name) :: scan none s := by
  induction name generalizing acc with
  | nil => simp [scan]
  | cons c name ih =>
    obtain ⟨hc, hn⟩ := List.ne_and_not_mem_of_not_mem_cons hn
    simp [scan, hc.symm, ih (acc ++ [c]) hn]

/-- Reading the text of a well-formed template gives it back. -/
theorem parse_render {t : Template CStr Char} (h : WellFormed N t) : parse (render t) = t := by
  induction h with
  | nil => rfl
  | @lit c t hc _ ih =>
    rw [parse] at ih ⊢
    rw [render, scan, ih]
    exact fun _ h _ => hc h
  | @dollar c t hc _ ih =>
    rw [parse] at ih ⊢
    rw [render, scan, ih]
    exact fun _ _ h => hc (List.cons.inj h).1
  | @ref name t hr _ _ ih =>
    rw [parse] at ih ⊢
    simpa [render, refText, refOpen, scan, ih] using scan_name [] (render t) hr.1

theorem IsTemplate.exists_render {s : CStr} (h : IsTemplate s) :
    ∃ t, WellFormed IsVariable t ∧ render t = s := by
  induction h with
  | @plain s hs => exact ⟨ofText s, wellFormed_ofText hs, render_ofText s⟩
  | @ref s name u hs hn _ ih =>
    obtain ⟨t, ht, rfl⟩ := ih
    refine ⟨ofText s ++ .ref name :: t, (wellFormed_ofText hs).append (.ref hn.2 hn.1 ht), ?_⟩
    simp [render]

/-! ### The text functions of the evaluator on templates -/

theorem WellFormed.tail {g : Seg CStr Char} {t : Template CStr Char} (h : WellFormed N (g :: t)) :
    WellFormed N t := by
  cases h with
  | lit _ ht => exact ht
  | dollar _ ht => exact ht
  | ref _ _ ht => exact ht

/-- No reference starts at a letter of a well-formed template. -/
theorem WellFormed.not_refOpen {c : Char} {t : Template CStr Char} (h : WellFormed N (.lit c :: t))
    (r : CStr) : ¬ refOpen ++ r <+: c :: render t := by
  rintro ⟨s, hs⟩
  cases h with
  | lit hc _ => exact hc (List.cons.inj hs).1.symm
  | dollar hc _ => exact hc (List.cons.inj (List.cons.inj hs).2).1.symm

theorem WellFormed.isRef {t : Template CStr Char} (h : WellFormed N t) {x : CStr}
    (hx : .ref x ∈ t) : IsRef x ∧ N x := by
  induction h with
  | nil => simp at hx
  | lit _ _ ih => exact ih (by simpa using hx)
  | dollar _ _ ih => exact ih (by simpa using hx)
  | ref hr hn _ ih =>
    rcases List.mem_cons.mp hx with hx | hx
    · obtain rfl := Seg.ref.inj hx
      exact ⟨hr, hn⟩
    · exact ih hx

theorem WellFormed.isName {t : Template CStr Char} (h : WellFormed IsVariable t) {x : CStr}
    (hx : .ref x ∈ t) : IsName x := isName_iff.mpr (h.isRef hx)

theorem cut_refOpen_render_none {t : Template CStr Char} (h : WellFormed N t)
    (hf : firstRef t = none) : cut refOpen (render t) = none := by
  induction t with
  | nil => rfl
  | cons g t ih =>
    cases g with
    | lit c =>
      have hpre : ¬ refOpen <+: c :: render t := by simpa using h.not_refOpen []
      rw [render, cut_cons hpre, ih h.tail hf, Option.map_none]
    | ref x => simp [firstRef] at hf

/-- `$<` first occurs in a rendered template where its leftmost reference is. -/
theorem cut_refOpen_render_some {t : Template CStr Char} (h : WellFormed N t) {x : CStr}
    (hf : firstRef t = some x) : ∃ b r, cut refOpen (render t) = some (b, x ++ '>' :: r) := by
  induction t with
  | nil => simp [firstRef] at hf
  | cons g t ih =>
    cases g with
    | lit c =>
      have hpre : ¬ refOpen <+: c :: render t := by simpa using h.not_refOpen []
      obtain ⟨b, r, hb⟩ := ih h.tail hf
      exact ⟨c :: b, r, by rw [render, cut_cons hpre, hb, Option.map_some]⟩
    | ref y =>
      obtain rfl := Option.some.inj hf
      refine ⟨[], render t, ?_⟩
      have hcut : cut refOpen (refOpen ++ (y ++ '>' :: render t)) = some ([], y ++ '>' :: render t) :=
        cut_prefix _ (by simp [refOpen])
      simpa [render, refText] using hcut

theorem firstRef_mem {t : Template CStr Char} {x : CStr} (h : firstRef t = some x) :
    .ref x ∈ t := by
  induction t with
  | nil => simp [firstRef] at h
  | cons g t ih =>
    cases g with
    | lit c => exact List.mem_cons_of_mem _ (ih h)
    | ref y =>
      obtain rfl := Option.some.inj h
      exact List.mem_cons_self

theorem findNextRef_render {t : Template CStr Char} (h : WellFormed N t) :
    findNextRef (render t) = ((firstRef t).map refText, 0) := by
  cases hf : firstRef t with
  | none => simp [findNextRef, strstr, cut_refOpen_render_none h hf]
  | some x =>
    obtain ⟨b, r, hb⟩ := cut_refOpen_render_some h hf
    have hx : '>' ∉ x := (h.isRef (firstRef_mem hf)).1.1
    simp [findNextRef, strstr, strchr, hb, cut_singleton r hx, refText]

/-- What is found is a reference that stands in the text. -/
theorem findNextRef_some {src ref : CStr} {n : ℕ} (h : findNextRef src = (some ref, n)) :
    ∃ name, ref = refText name ∧ '>' ∉ name ∧ refText name <:+: src := by
  unfold findNextRef at h
  split at h
  · simp at h
  · next a start hopen =>
    split at h
    · simp at h
    · next name rest hclose =>
      obtain ⟨rfl, hname⟩ := cut_singleton_eq_some_iff.mp hclose
      refine ⟨name, (Option.some.inj (Prod.mk.inj h).1).symm, hname, a, rest, ?_⟩
      rw [eq_of_cut hopen, refText]
      simp

theorem letters_eq_render {t : Template CStr Char} (h : firstRef t = none) :
    letters t = render t := by
  induction t with
  | nil => rfl
  | cons g t ih =>
    cases g with
    | lit c => simp [letters, render, ih h]
    | ref x => simp [firstRef] at h

/-- A reference to a name is resolved from the tables of the node and its ancestors. -/
theorem resolve_refText {name : CStr} (hspace : ' ' ∉ name) (hclose : '>' ∉ name)
    (scope : List Symtab) (env : Env) :
    resolve scope (refText name) env =
      match kbnodeResolve scope name with
      | none => { text := none, nerrors := 1, env := env }
      | some values => { text := some (kbutilStrarrayFormat values), nerrors := 0, env := env } := by
  have hspace : ' ' ∉ refText name := by
    simp [refText, refOpen, hspace]
  have hcut : strchr ((refText name).drop 2) '>' = some (name, []) := by
    have hdrop : (refText name).drop 2 = name ++ '>' :: [] := rfl
    rw [hdrop, strchr, cut_singleton [] hclose]
  cases hvalues : kbnodeResolve scope name with
  | none => simp only [resolve, if_neg hspace, hcut, hvalues]
  | some values => simp only [resolve, if_neg hspace, hcut, hvalues]

theorem refText_prefix_iff {x y s : CStr} (hx : '>' ∉ x) (hy : '>' ∉ y) :
    refText x <+: refText y ++ s ↔ x = y := by
  constructor
  · rintro ⟨r, h⟩
    have h' : x ++ '>' :: r = y ++ '>' :: s := by simpa [refText, refOpen] using h
    have hcut := congrArg (cut ['>']) h'
    rw [cut_singleton r hx, cut_singleton s hy] at hcut
    exact (Prod.mk.inj (Option.some.inj hcut)).1
  · rintro rfl
    exact List.prefix_append _ _

/-- Behind its first character a reference has no place where another one starts. -/
theorem not_refText_starts {x y v w s : CStr} (hy : '$' ∉ y) (hv : v ≠ []) (hw : w ≠ [])
    (hvw : refText y = v ++ w) : ¬ refText x <+: w ++ s := by
  cases v with
  | nil => exact absurd rfl hv
  | cons c v =>
    cases w with
    | nil => exact absurd rfl hw
    | cons d w =>
      have hsuf : d :: w <:+ '<' :: (y ++ ['>']) := ⟨v, (List.cons.inj hvw).2.symm⟩
      rintro ⟨r, hr⟩
      obtain rfl : '$' = d := (List.cons.inj hr).1
      have hmem := hsuf.subset List.mem_cons_self
      simp [hy] at hmem

/-- No reference starts at a character. -/
theorem WellFormed.not_refText {x : CStr} {c : Char} {t : Template CStr Char}
    (h : WellFormed N (.lit c :: t)) : ¬ refText x <+: c :: render t := by
  rw [refText, List.append_assoc]
  exact h.not_refOpen _

/-- A reference that occurs in the text of a well-formed template is one of the template. -/
theorem WellFormed.mem_of_refText_occurs {x : CStr} (hx : '>' ∉ x) {t : Template CStr Char}
    (h : WellFormed N t) (hin : refText x <:+: render t) : .ref x ∈ t := by
  induction t with
  | nil => simp [render, refText, refOpen] at hin
  | cons g t ih =>
    cases g with
    | lit c =>
      have hrest := (List.infix_cons_iff.mp hin).resolve_left h.not_refText
      exact List.mem_cons_of_mem _ (ih h.tail hrest)
    | ref y =>
      have hy : IsRef y := (h.isRef List.mem_cons_self).1
      obtain ⟨a, b, heq⟩ := hin
      rw [List.append_assoc, render] at heq
      rcases List.append_eq_append_iff.mp heq with ⟨w, hw, hrest⟩ | ⟨w, rfl, hrest⟩
      · by_cases ha : a = []
        · subst ha
          obtain rfl : refText y = w := hw
          obtain rfl := (refText_prefix_iff hx hy.1).mp ⟨b, hrest⟩
          exact List.mem_cons_self
        · by_cases hw' : w = []
          · subst hw'
            exact List.mem_cons_of_mem _ (ih h.tail ⟨[], b, by simpa using hrest⟩)
          · exact absurd ⟨b, hrest⟩ (not_refText_starts hy.2 ha hw' hw)
      · exact List.mem_cons_of_mem _ (ih h.tail ⟨w, b, by simp [hrest]⟩)

/-- Replacing the text of a reference replaces the name in the template. -/
theorem replaceAll_render {x : CStr} (hx : '>' ∉ x) (b : Template CStr Char)
    {t : Template CStr Char} (h : WellFormed N t) :
    replaceAll (refText x) (render b) (render t) = render (substAll x b t) := by
  induction t with
  | nil => rfl
  | cons g t ih =>
    cases g with
    | lit c =>
      rw [render, replaceAll_cons _ h.not_refText, ih h.tail, substAll, render]
    | ref y =>
      have hy : IsRef y := (h.isRef List.mem_cons_self).1
      by_cases hxy : y = x
      · subst hxy
        rw [render, replaceAll_pat _ _ (by simp [refText, refOpen]), ih h.tail, substAll,
          if_pos rfl, render_append]
      · rw [render, replaceAll_append, ih h.tail, substAll, if_neg hxy, render]
        intro v w hvw hw
        by_cases hv : v = []
        · subst hv
          obtain rfl : refText y = w := hvw
          rw [refText_prefix_iff hx hy.1]
          exact fun h => hxy h.symm
        · exact not_refText_starts hy.2 hv hw hvw

theorem WellFormed.substAll {x : CStr} {b t : Template CStr Char} (hb : WellFormed N b)
    (ht : WellFormed N t) : WellFormed N (Templates.substAll x b t) := by
  induction ht with
  | nil => exact .nil
  | lit hc _ ih => exact .lit hc ih
  | dollar hc _ ih => exact .dollar hc ih
  | @ref y t hy hn _ ih =>
    rw [Templates.substAll]
    split_ifs
    · exact hb.append ih
    · exact .ref hy hn ih

/-- A value that is the text of the template it reads as, with references of the kind `N`. -/
def ReadableWith (N : CStr → Prop) (s : CStr) : Prop :=
  WellFormed N (parse s) ∧ render (parse s) = s

abbrev Readable (s : CStr) : Prop := ReadableWith IsVariable s

theorem WellFormed.readable {t : Template CStr Char} (h : WellFormed N t) :
    ReadableWith N (render t) := by
  rw [ReadableWith, parse_render h]
  exact ⟨h, rfl⟩

theorem IsTemplate.readable {s : CStr} (h : IsTemplate s) : Readable s := by
  obtain ⟨t, ht, rfl⟩ := h.exists_render
  exact ht.readable

/-! ### Arrays of templates -/

def formatTemplateTail : List (Template CStr Char) → Template CStr Char
  | [] => ofText "]".toList
  | t :: ts => ofText ",".toList ++ t ++ ofText " ".toList ++ formatTemplateTail ts

/-- The template that `kbutil_strarray_format` makes of an array of templates. -/
def formatTemplate : List (Template CStr Char) → Template CStr Char
  | [] => []
  | [t] => t
  | t :: ts => ofText "[ ".toList ++ t ++ ofText " ".toList ++ formatTemplateTail ts

theorem render_formatTemplate (ts : List (Template CStr Char)) :
    render (formatTemplate ts) = kbutilStrarrayFormat (ts.map render) := by
  have htail : ∀ ts : List (Template CStr Char),
      render (formatTemplateTail ts) = kbutilStrarrayFormatTail (ts.map render) := by
    intro ts
    induction ts with
    | nil => rfl
    | cons t ts ih => simp [formatTemplateTail, kbutilStrarrayFormatTail, ih]
  match ts with
  | [] => rfl
  | [t] => rfl
  | t :: u :: ts => simp [formatTemplate, kbutilStrarrayFormat, htail]

/-- Formatting keeps a property of templates that concatenation and plain text have. -/
theorem formatTemplate_of {R : Template CStr Char → Template CStr Char → Prop}
    (htext : ∀ s, s ∈ ["[ ".toList, " ".toList, ",".toList, "]".toList] →
      R (ofText s) (ofText s)) (hnil : R [] [])
    (happ : ∀ {t t' u u'}, R t t' → R u u' → R (t ++ u) (t' ++ u'))
    {ts ts' : List (Template CStr Char)} (h : List.Forall₂ R ts ts') :
    R (formatTemplate ts) (formatTemplate ts') := by
  have htail : ∀ {ts ts'}, List.Forall₂ R ts ts' →
      R (formatTemplateTail ts) (formatTemplateTail ts') := by
    intro ts ts' h
    induction h with
    | nil => exact htext _ (by simp)
    | cons h _ ih => exact happ (happ (happ (htext _ (by simp)) h) (htext _ (by simp))) ih
  cases h with
  | nil => exact hnil
  | cons h hs =>
    cases hs with
    | nil => exact h
    | cons h' hs =>
      exact happ (happ (happ (htext _ (by simp)) h) (htext _ (by simp))) (htail (.cons h' hs))

end Kubeka
