import Kubeka.Model.Assign

/-!
# The grammar of values

A value is a text, or an array `[e1, ..., en]`. `parse_value` takes what stands
before the first closing bracket and hands it to `strtok_r`. So it drops what
follows the bracket, and it merges commas that stand side by side.
-/

namespace Kubeka

open Text

/-- The text is the array of these elements, as they are written. An array with a single empty
element is written as the empty array, and taken as this one. -/
structure Writes (elements : List CStr) (text : CStr) : Prop where
  plain : ∀ e ∈ elements, ',' ∉ e ∧ ']' ∉ e
  ne_blank : elements ≠ [[]]
  text_eq : text = '[' :: ([','].intercalate elements ++ [']'])

/-- The grammar says what becomes of a text: an element, an array, or a refusal. -/
structure ParsedByGrammar (L : Libds) (text : CStr) : Prop where
  single : text.head? ≠ some '[' → parseValue L .all text = some [text]
  array : ∀ elements, Writes elements text →
    parseValue L .all text = some (elements.map trim)
  refused : text.head? = some '[' → (∀ elements, ¬ Writes elements text) →
    parseValue L .all text = none

/-! ### What the parser does -/

variable {L : Libds} {text body rest : CStr}

theorem parseValue_single (h : text.head? ≠ some '[') : parseValue L .all text = some [text] := by
  cases text with
  | nil => rfl
  | cons c text =>
    have hc : c ≠ '[' := by simpa using h
    simp [parseValue, Alloc.all, hc]

theorem parseValue_open (h : ']' ∉ text) : parseValue L .all ('[' :: text) = none := by
  have hnone : strchr text ']' = none :=
    cut_eq_none_iff.mpr fun hin => h (hin.subset List.mem_cons_self)
  simp [parseValue, Alloc.all, hnone]

/-- What the elements without memory leave of an array. -/
theorem parseValue_array_alloc {alloc : Alloc} (rest : CStr) (h : ']' ∉ body) :
    parseValue L alloc ('[' :: (body ++ ']' :: rest)) =
      if alloc .value = true ∧ alloc .tokens = true ∧ alloc .varray = true then
        some (((strtok body ',').zipIdx.takeWhile fun tok => alloc (.element tok.2)).map
          fun tok => trim tok.1)
      else none := by
  have hcut : strchr (body ++ ']' :: rest) ']' = some (body, rest) := cut_singleton rest h
  cases hvalue : alloc .value <;> cases htokens : alloc .tokens <;> cases hvarray : alloc .varray <;>
    simp [parseValue, hvalue, htokens, hvarray, hcut, L.strTrim_eq]

/-- Everything up to the first closing bracket counts. -/
theorem parseValue_array (rest : CStr) (h : ']' ∉ body) :
    parseValue L .all ('[' :: (body ++ ']' :: rest)) = some ((strtok body ',').map trim) := by
  have hall : ∀ l : List (CStr × ℕ), l.takeWhile (fun tok => Alloc.all (.element tok.2)) = l := by
    intro l
    rw [List.takeWhile_eq_self_iff]
    intro tok _
    rfl
  rw [parseValue_array_alloc rest h, if_pos ⟨rfl, rfl, rfl⟩, hall]
  calc some ((strtok body ',').zipIdx.map fun tok => trim tok.1)
      = some (((strtok body ',').zipIdx.map Prod.fst).map trim) := by rw [List.map_map]; rfl
    _ = some ((strtok body ',').map trim) := by rw [List.zipIdx_map_fst]

/-! ### What the grammar says -/

/-- The text up to the first closing bracket is that of an array only if nothing follows. -/
theorem writes_iff {elements : List CStr} (h : ']' ∉ body) :
    Writes elements ('[' :: (body ++ ']' :: rest)) ↔
      rest = [] ∧ elements = if body = [] then [] else body.splitOn ',' := by
  constructor
  · intro hw
    have hjoin : ']' ∉ [','].intercalate elements := by
      intro hmem
      obtain ⟨e, he, hc⟩ := (mem_intercalate_iff (by decide)).mp hmem
      exact (hw.plain e he).2 hc
    obtain ⟨hbody, hrest⟩ := eq_of_append_singleton h hjoin (List.cons.inj hw.text_eq).2
    refine ⟨hrest, ?_⟩
    by_cases helements : elements = []
    · rw [if_pos (by simp [hbody, helements]), helements]
    · have hsplit : body.splitOn ',' = elements := by
        rw [hbody]
        exact List.splitOn_intercalate ',' (fun e he => (hw.plain e he).1) helements
      have hne : body ≠ [] := by
        intro hnil
        apply hw.ne_blank
        rw [← hsplit, hnil, List.splitOn_nil]
      rw [if_neg hne, hsplit]
  · rintro ⟨rfl, rfl⟩
    by_cases hbody : body = []
    · rw [if_pos hbody, hbody]
      exact ⟨by simp, by simp, rfl⟩
    · rw [if_neg hbody]
      refine ⟨fun e he => ⟨not_mem_of_mem_splitOn he, fun hc => ?_⟩,
        mt splitOn_eq_singleton_nil_iff.mp hbody, by rw [List.intercalate_splitOn]⟩
      apply h
      have hmem : ']' ∈ [','].intercalate (body.splitOn ',') :=
        (mem_intercalate_iff (by decide)).mpr ⟨e, he, hc⟩
      rwa [List.intercalate_splitOn] at hmem

/-- Without a closing bracket there is no array. -/
theorem not_writes_open {elements : List CStr} (h : ']' ∉ text) :
    ¬ Writes elements ('[' :: text) := by
  intro hw
  apply h
  rw [(List.cons.inj hw.text_eq).2]
  simp

theorem strtok_eq_splitOn_iff {s : CStr} {delim : Char} :
    ((strtok s delim).map trim = (s.splitOn delim).map trim) ↔ [] ∉ s.splitOn delim := by
  constructor
  · intro h hmem
    have hlen := congrArg List.length h
    rw [List.length_map, List.length_map, strtok, List.length_filter_eq_length_iff] at hlen
    simpa using hlen [] hmem
  · intro h
    rw [strtok, List.filter_eq_self.mpr]
    intro e he
    simpa using fun hnil : e = [] => h (hnil ▸ he)

/-! ### The parser and the grammar -/

/-- A value is parsed by the grammar exactly when nothing follows its first closing bracket, and no
two commas, nor a comma and a bracket, stand side by side before it. -/
theorem parseValue_grammar_iff (L : Libds) (text : CStr) : ParsedByGrammar L text ↔
    ∀ body rest, text = '[' :: (body ++ ']' :: rest) → ']' ∉ body →
      rest = [] ∧ (body = [] ∨ [] ∉ body.splitOn ',') := by
  constructor
  · rintro h body rest rfl hbody
    have hparse := parseValue_array (L := L) rest hbody
    have hrest : rest = [] := by
      by_contra hne
      have hrefused := h.refused rfl fun elements hw => hne ((writes_iff hbody).mp hw).1
      simp [hparse] at hrefused
    refine ⟨hrest, ?_⟩
    by_cases hnil : body = []
    · exact .inl hnil
    · have hw : Writes (body.splitOn ',') ('[' :: (body ++ ']' :: rest)) :=
        (writes_iff hbody).mpr ⟨hrest, by rw [if_neg hnil]⟩
      have harray := h.array _ hw
      rw [hparse, Option.some.injEq, strtok_eq_splitOn_iff] at harray
      exact .inr harray
  · intro h
    by_cases hhead : text.head? = some '['
    · obtain ⟨tail, rfl⟩ : ∃ tail, text = '[' :: tail := by
        cases text with
        | nil => simp at hhead
        | cons c tail => exact ⟨tail, by simpa using hhead⟩
      by_cases hclose : ']' ∈ tail
      · obtain ⟨body, rest, rfl, hbody⟩ := List.eq_append_cons_of_mem hclose
        obtain ⟨rfl, hplain⟩ := h body rest rfl hbody
        have hwrites : Writes (if body = [] then [] else body.splitOn ',')
            ('[' :: (body ++ [']'])) := (writes_iff hbody).mpr ⟨rfl, rfl⟩
        refine ⟨fun hne => absurd hhead hne, fun elements hw => ?_,
          fun _ hno => absurd hwrites (hno _)⟩
        rw [parseValue_array [] hbody, ((writes_iff hbody).mp hw).2, Option.some.injEq]
        by_cases hnil : body = []
        · rw [if_pos hnil, hnil]
          rfl
        · rw [if_neg hnil]
          exact strtok_eq_splitOn_iff.mpr (hplain.resolve_left hnil)
      · exact ⟨fun hne => absurd hhead hne, fun elements hw => absurd hw (not_writes_open hclose),
          fun _ _ => parseValue_open hclose⟩
    · refine ⟨parseValue_single, ?_, fun hh => absurd hh hhead⟩
      intro elements hw
      rw [hw.text_eq] at hhead
      exact absurd rfl hhead

/-- A shell test is taken for an array, and the rest of the command is dropped. -/
theorem shellTest_not_parsedByGrammar :
    parseValue .ordered .all "[ -d x ] || mkdir x".toList = some ["-d x".toList] ∧
      ¬ ParsedByGrammar .ordered "[ -d x ] || mkdir x".toList := by
  refine ⟨by decide, fun h => ?_⟩
  have hsplit : "[ -d x ] || mkdir x".toList =
      '[' :: (" -d x ".toList ++ ']' :: " || mkdir x".toList) := by decide
  have hrefused := h.refused (by decide) fun elements hw => by
    rw [hsplit, writes_iff (by decide)] at hw
    exact absurd hw.1 (by decide)
  exact absurd hrefused (by decide)

end Kubeka
