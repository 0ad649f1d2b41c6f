import Kubeka.Assign.Values
import Kubeka.Read.Lines

/-!
# Arrays written and read back

`kbutil_strarray_format` writes a blank behind every element and a comma before
all but the first, so that no two commas and no comma and bracket stand side by
side, and an empty element is a token of a blank. A single element is written
as it is.
-/

namespace Kubeka

/-- The pieces between the commas of a written array. -/
def formatPieces : List CStr → List CStr
  | [] => []
  | v :: vs => (' ' :: (v ++ [' '])) :: vs.map (· ++ [' '])

theorem kbutilStrarrayFormatTail_eq (vs : List CStr) :
    kbutilStrarrayFormatTail vs = vs.flatMap (fun v => ',' :: (v ++ [' '])) ++ [']'] := by
  induction vs with
  | nil => rfl
  | cons v vs ih => simp [kbutilStrarrayFormatTail, ih]

theorem intercalate_cons_eq (piece : CStr) (pieces : List CStr) :
    [','].intercalate (piece :: pieces) = piece ++ pieces.flatMap (',' :: ·) := by
  induction pieces generalizing piece with
  | nil => simp
  | cons next pieces ih =>
    rw [List.intercalate_cons_cons, ih]
    simp

/-- An array of several elements is written as the grammar has it. -/
theorem kbutilStrarrayFormat_eq {vs : List CStr} (h : 2 ≤ vs.length) :
    kbutilStrarrayFormat vs = '[' :: ([','].intercalate (formatPieces vs) ++ [']']) := by
  match vs with
  | [] => simp at h
  | [v] => simp at h
  | v :: w :: vs =>
    rw [formatPieces, intercalate_cons_eq]
    simp [kbutilStrarrayFormat, kbutilStrarrayFormatTail_eq, List.flatMap_map]

theorem trim_blanks {v : CStr} (h : trim v = v) : trim (v ++ [' ']) = v := by
  by_cases hv : v = []
  · subst hv
    decide
  · exact trim_append_blank h hv (by decide)

theorem map_trim_formatPieces {vs : List CStr} (h : ∀ v ∈ vs, trim v = v) :
    (formatPieces vs).map trim = vs := by
  cases vs with
  | nil => rfl
  | cons v vs =>
    obtain ⟨hv, hvs⟩ := List.forall_mem_cons.mp h
    have hfirst : trim (' ' :: (v ++ [' '])) = v := by
      rw [trim_cons_blank (by decide), trim_blanks hv]
    have hrest : vs.map (trim ∘ (· ++ [' '])) = vs.map id :=
      List.map_congr_left fun w hw => trim_blanks (hvs w hw)
    rw [formatPieces, List.map_cons, hfirst, List.map_map, hrest, List.map_id]

/-- A piece is never empty, and holds what its element holds. -/
theorem of_mem_formatPieces {vs : List CStr} {piece : CStr} (h : piece ∈ formatPieces vs) :
    piece ≠ [] ∧ ∃ v ∈ vs, ∀ c ∈ piece, c ∈ v ∨ c = ' ' := by
  cases vs with
  | nil => simp [formatPieces] at h
  | cons v vs =>
    rcases List.mem_cons.mp h with rfl | h
    · refine ⟨by simp, v, List.mem_cons_self, fun c hc => ?_⟩
      simp only [List.mem_cons, List.mem_append, List.not_mem_nil, or_false] at hc
      tauto
    · obtain ⟨w, hw, rfl⟩ := List.mem_map.mp h
      refine ⟨by simp, w, List.mem_cons_of_mem v hw, fun c hc => ?_⟩
      simpa using hc

/-- Reading the text of an array gives its elements, the empty ones included. -/
theorem parseValue_kbutilStrarrayFormat (xs : List CStr) (htrim : ∀ v ∈ xs, trim v = v)
    (hplain : ∀ v ∈ xs, ',' ∉ v ∧ ']' ∉ v)
    (hshape : 2 ≤ xs.length ∨ ∃ v, xs = [v] ∧ v.head? ≠ some '[') :
    parseValue L .all (kbutilStrarrayFormat xs) = some xs := by
  rcases hshape with hlen | ⟨v, rfl, hhead⟩
  · have hnot : ∀ c, c ≠ ' ' → (∀ v ∈ xs, c ∉ v) → ∀ piece ∈ formatPieces xs, c ∉ piece := by
      intro c hc hxs piece hpiece hmem
      obtain ⟨-, v, hv, hholds⟩ := of_mem_formatPieces hpiece
      exact (hholds c hmem).elim (hxs v hv) hc
    have hclose : ']' ∉ [','].intercalate (formatPieces xs) := by
      intro hmem
      obtain ⟨piece, hpiece, hc⟩ := (Text.mem_intercalate_iff (by decide)).mp hmem
      exact hnot ']' (by decide) (fun v hv => (hplain v hv).2) piece hpiece hc
    have hne : formatPieces xs ≠ [] := by
      cases xs with
      | nil => simp at hlen
      | cons v vs => simp [formatPieces]
    have htokens : strtok ([','].intercalate (formatPieces xs)) ',' = formatPieces xs := by
      rw [strtok, List.splitOn_intercalate ','
        (hnot ',' (by decide) fun v hv => (hplain v hv).1) hne, List.filter_eq_self]
      intro piece hpiece
      simpa using (of_mem_formatPieces hpiece).1
    rw [kbutilStrarrayFormat_eq hlen, parseValue_array [] hclose, htokens,
      map_trim_formatPieces htrim]
  · exact parseValue_single hhead

theorem parseValue_kbutilStrarrayFormat_three :
    parseValue .ordered .all (kbutilStrarrayFormat ["a b".toList, [], "c".toList]) =
      some ["a b".toList, [], "c".toList] :=
  parseValue_kbutilStrarrayFormat ["a b".toList, [], "c".toList] (by simp; decide) (by simp)
    (.inl (by decide))

end Kubeka
