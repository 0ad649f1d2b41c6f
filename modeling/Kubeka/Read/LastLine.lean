import Kubeka.Read.Delivered

/-!
# The last line

A line is taken to be too long when it comes without a newline. So does the
last line of a file that does not end with one, however short it is: when the
reader comes to it, it reports an error. It does not when it has stopped
before.
-/

namespace Kubeka

variable {L : Libds} {fname text : CStr} {old : List (Option Kbnode)}

/-- Every line fits into the buffer together with a newline. -/
def LinesFit (text : CStr) : Prop :=
  ∀ line, line <:+: text → '\n' ∉ line → line.length + 1 ≤ lineLen - 1

/-- The text comes to its end after a newline. -/
def Terminated (text : CStr) : Prop := text = [] ∨ text.getLast? = some '\n'

/-- No line is reported as too long, and a newline at the end of the file makes no difference. -/
structure EndsAnyway (L : Libds) (fname : CStr) (old : List (Option Kbnode))
    (text : CStr) : Prop where
  noLengthError : ∀ file ∈ [text, text ++ ['\n']], ∀ before buffer,
    Comes L fname (.start old) (fileLines file) before buffer → classify L buffer ≠ .unterminated
  dst : (kbnodeReadFile L old fname (some text)).dst =
    (kbnodeReadFile L old fname (some (text ++ ['\n']))).dst
  nerrors : (kbnodeReadFile L old fname (some text)).nerrors =
    (kbnodeReadFile L old fname (some (text ++ ['\n']))).nerrors
  nwarnings : (kbnodeReadFile L old fname (some text)).nwarnings =
    (kbnodeReadFile L old fname (some (text ++ ['\n']))).nwarnings

/-! ### Lines and their newlines -/

theorem LinesFit.within {s t : CStr} (h : LinesFit t) (hs : s <:+: t) : LinesFit s :=
  fun line hline hno => h line (hline.trans hs) hno

theorem linesFit_of_length (h : text.length + 1 ≤ lineLen - 1) : LinesFit text := by
  intro line hline _
  have hle := hline.length_le
  omega

/-- What stands in front of the last line, and the last line without its newline. -/
theorem exists_lastLine (text : CStr) :
    ∃ front last, text = front ++ last ∧ Terminated front ∧ '\n' ∉ last := by
  refine ⟨text.rdropWhile (· ≠ '\n'), text.rtakeWhile (· ≠ '\n'),
    List.rdropWhile_append_rtakeWhile.symm, ?_, ?_⟩
  · by_cases hne : text.rdropWhile (· ≠ '\n') = []
    · exact .inl hne
    · have hlast := List.rdropWhile_last_not (· ≠ '\n') text hne
      refine .inr ?_
      rw [List.getLast?_eq_getLast_of_ne_nil hne]
      simpa using hlast
  · intro hmem
    simpa using List.mem_rtakeWhile_imp hmem

/-- In a file whose lines all fit and that ends with a newline, every line has one. -/
theorem newline_mem_of_terminated (hfit : LinesFit text) (hend : Terminated text) :
    ∀ line ∈ fileLines text, '\n' ∈ line := by
  induction text using fileLines_induction with
  | nil => simp
  | line s hs ih =>
    have hlast := hend.resolve_left hs
    obtain ⟨line, rest, rfl, hline⟩ := List.eq_append_cons_of_mem (List.mem_of_getLast? hlast)
    have hlt : line.length < lineLen - 1 := hfit line (List.prefix_append _ _).isInfix hline
    rw [fileLines_cons hs, List.forall_mem_cons]
    rw [fgets_line hline hlt] at ih ⊢
    have hrest : rest <:+: line ++ '\n' :: rest :=
      ((List.suffix_cons _ _).trans (List.suffix_append _ _)).isInfix
    refine ⟨by simp, ih (hfit.within hrest) ?_⟩
    by_cases hblank : rest = []
    · exact .inl hblank
    · refine .inr ?_
      rwa [List.getLast?_append_of_ne_nil _ (List.cons_ne_nil _ _),
        List.getLast?_cons_of_ne_nil hblank] at hlast

/-- A last line without a newline is one line, with or without it. -/
theorem fileLines_lastLine {front last : CStr} (hfit : LinesFit (front ++ last))
    (hfront : Terminated front) (hlast : '\n' ∉ last) (hne : last ≠ []) :
    fileLines (front ++ last) = fileLines front ++ [last] ∧
      fileLines (front ++ last ++ ['\n']) = fileLines front ++ [last ++ ['\n']] := by
  have hlines := newline_mem_of_terminated (hfit.within (List.prefix_append _ _).isInfix) hfront
  have hlt := hfit last (List.suffix_append _ _).isInfix hlast
  have hwith : fileLines (last ++ ['\n']) = [last ++ ['\n']] := by
    rw [fileLines_cons (by simp), fgets_line hlast hlt, fileLines_nil]
  rw [List.append_assoc, fileLines_append hlines, fileLines_append hlines,
    fileLines_last hlast hne (by omega), hwith]
  exact ⟨rfl, rfl⟩

/-! ### The end of a run -/

variable {s : Reader}

/-- The number of lines is not seen in what the reader leaves behind. -/
theorem finish_lc (s : Reader) (lc : ℕ) : ({ s with lc := lc } : Reader).finish.dst = s.finish.dst ∧
    ({ s with lc := lc } : Reader).finish.nerrors = s.finish.nerrors ∧
      ({ s with lc := lc } : Reader).finish.nwarnings = s.finish.nwarnings := by
  unfold Reader.finish
  by_cases herr : s.nerrors = 0
  · simp [herr]
  · simp only [herr, if_false]
    cases s.current with
    | none => simp
    | some i =>
      simp only
      split <;> simp

theorem classify_newline : classify L ['\n'] = .blank :=
  (classify_eq_ordered _).trans (by decide)

theorem readLine_blank : readLine L fname s ['\n'] = .next { s with lc := s.lc + 1 } := by
  simp only [readLine, classify_newline]

theorem kbnodeReadFile_some (old : List (Option Kbnode))
    (fname text : CStr) :
    kbnodeReadFile L old fname (some text) =
      (readLines L fname (.start old) (fileLines text)).result := rfl

/-- A reader that has read all lines of a file does not stop at an empty line behind it. -/
theorem endsAnyway_of_terminated (hnul : '\x00' ∉ text) (hfit : LinesFit text)
    (hend : Terminated text) : EndsAnyway L fname old text := by
  have hlines := newline_mem_of_terminated hfit hend
  have hwith : fileLines (text ++ ['\n']) = fileLines text ++ [['\n']] := by
    rw [fileLines_append hlines]
    rfl
  have hsame : (kbnodeReadFile L old fname (some (text ++ ['\n']))).dst =
        (kbnodeReadFile L old fname (some text)).dst ∧
      (kbnodeReadFile L old fname (some (text ++ ['\n']))).nerrors =
        (kbnodeReadFile L old fname (some text)).nerrors ∧
      (kbnodeReadFile L old fname (some (text ++ ['\n']))).nwarnings =
        (kbnodeReadFile L old fname (some text)).nwarnings := by
    rw [kbnodeReadFile_some, kbnodeReadFile_some, hwith, readLines_append]
    cases readLines L fname (.start old) (fileLines text) with
    | next s =>
      simp only [readLines_singleton, readLine_blank]
      exact finish_lc s (s.lc + 1)
    | cleanup s => exact ⟨rfl, rfl, rfl⟩
    | undefined s => exact ⟨rfl, rfl, rfl⟩
  refine ⟨?_, hsame.1.symm, hsame.2.1.symm, hsame.2.2.symm⟩
  rintro file hfile before buffer ⟨s', after, hsplit, -⟩ hkind
  have hbuffer : buffer ∈ fileLines text ∨ buffer = ['\n'] := by
    have hmem : buffer ∈ fileLines file := by simp [hsplit]
    rcases List.mem_pair.mp hfile with rfl | rfl
    · exact .inl hmem
    · rw [hwith] at hmem
      simpa using hmem
  rcases hbuffer with hbuffer | rfl
  · exact mem_of_unterminated (mt (mem_of_mem_fileLines hbuffer) hnul) hkind (hlines buffer hbuffer)
  · simp [classify_newline] at hkind

/-- A reader that stops on `lines` does not come to what follows. -/
theorem mem_of_comes_concat {lines before : List CStr} {last buffer : CStr}
    (hstop : ∀ s', readLines L fname s lines ≠ .next s')
    (h : Comes L fname s (lines ++ [last]) before buffer) : buffer ∈ lines := by
  obtain ⟨s', after, hsplit, hrun⟩ := h
  rcases List.eq_nil_or_concat after with rfl | ⟨after, x, rfl⟩
  · obtain ⟨rfl, -⟩ := List.append_inj' hsplit rfl
    exact absurd hrun (hstop s')
  · have hsplit' : lines ++ [last] = before ++ buffer :: after ++ [x] := by
      rw [hsplit]
      simp
    obtain ⟨rfl, -⟩ := List.append_inj' hsplit' rfl
    simp

/-- A reader that stops before the last line does not see whether it ends. -/
theorem endsAnyway_of_stop {front last : CStr} (hnul : '\x00' ∉ front ++ last)
    (hfit : LinesFit (front ++ last)) (hfront : Terminated front) (hlast : '\n' ∉ last)
    (hne : last ≠ [])
    (hstop : ∀ s', readLines L fname (.start old) (fileLines front) ≠ .next s') :
    EndsAnyway L fname old (front ++ last) := by
  obtain ⟨hwithout, hwith⟩ := fileLines_lastLine hfit hfront hlast hne
  have hrun (x : CStr) : readLines L fname (.start old) (fileLines front ++ [x]) =
      readLines L fname (.start old) (fileLines front) := by
    rw [readLines_append]
    cases hread : readLines L fname (.start old) (fileLines front) with
    | next s' => exact absurd hread (hstop s')
    | cleanup s' => rfl
    | undefined s' => rfl
  have hsame : kbnodeReadFile L old fname (some (front ++ last)) =
      kbnodeReadFile L old fname (some (front ++ last ++ ['\n'])) := by
    rw [kbnodeReadFile_some, kbnodeReadFile_some, hwithout, hwith, hrun, hrun]
  refine ⟨?_, by rw [hsame], by rw [hsame], by rw [hsame]⟩
  intro file hfile before buffer hcomes hkind
  have hbuffer : buffer ∈ fileLines front := by
    rcases List.mem_pair.mp hfile with rfl | rfl
    · rw [hwithout] at hcomes
      exact mem_of_comes_concat hstop hcomes
    · rw [hwith] at hcomes
      exact mem_of_comes_concat hstop hcomes
  have hnul' : '\x00' ∉ buffer := fun hc =>
    hnul (List.mem_append_left _ (mem_of_mem_fileLines hbuffer hc))
  exact mem_of_unterminated hnul' hkind (newline_mem_of_terminated
    (hfit.within (List.prefix_append _ _).isInfix) hfront buffer hbuffer)

/-- No line is reported as too long, and a final newline makes no difference, exactly when the text
ends with one or the reader stops before the last line. -/
theorem endsAnyway_iff (fname : CStr) (old : List (Option Kbnode))
    (hcr : '\r' ∉ text) (hnul : '\x00' ∉ text) (hfit : LinesFit text) :
    EndsAnyway L fname old text ↔
      ((∃ s, readLines L fname (.start old) (fileLines text).dropLast = .next s) →
        Terminated text) := by
  constructor
  · rintro h ⟨s, hrun⟩
    obtain ⟨front, last, rfl, hfront, hlast⟩ := exists_lastLine text
    by_cases hne : last = []
    · rwa [hne, List.append_nil]
    · obtain ⟨hwithout, -⟩ := fileLines_lastLine hfit hfront hlast hne
      rw [hwithout, List.dropLast_concat] at hrun
      have hcomes : Comes L fname (.start old) (fileLines (front ++ last)) (fileLines front)
          last := ⟨s, [], hwithout, hrun⟩
      have hreturn : '\r' ∉ cstring last := fun hc =>
        hcr (List.mem_append_right _ (mem_of_cstring hc))
      refine absurd ?_ (h.noLengthError _ List.mem_cons_self _ _ hcomes)
      rw [classify_of_not_mem hlast, if_neg hreturn]
  · intro h
    obtain ⟨front, last, rfl, hfront, hlast⟩ := exists_lastLine text
    by_cases hne : last = []
    · rw [hne, List.append_nil] at hnul hfit ⊢
      exact endsAnyway_of_terminated hnul hfit hfront
    · by_cases hend : Terminated (front ++ last)
      · exact endsAnyway_of_terminated hnul hfit hend
      · refine endsAnyway_of_stop hnul hfit hfront hlast hne fun s' hrun => hend (h ⟨s', ?_⟩)
        rwa [(fileLines_lastLine hfit hfront hlast hne).1, List.dropLast_concat]

/-- The only line of a short file is reported as too long. -/
theorem shortFile_not_endsAnyway :
    (kbnodeReadFile .ordered [] "f".toList (some "[job]".toList)).nerrors = 1 ∧
      ¬ EndsAnyway .ordered "f".toList [] "[job]".toList := by
  refine ⟨by decide +kernel, fun h => ?_⟩
  exact h.noLengthError "[job]".toList (by decide) [] "[job]".toList
    ⟨.start [], [], by decide +kernel, rfl⟩ (by decide)

theorem terminatedFile_endsAnyway :
    EndsAnyway .ordered "f".toList [] "[job]\n".toList := by
  refine (endsAnyway_iff "f".toList [] (by decide) (by decide)
    (linesFit_of_length (by decide))).mpr ?_
  exact fun _ => .inr (by decide)

end Kubeka
