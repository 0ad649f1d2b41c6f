import Kubeka.Model.Read

/-!
# Lines

`fgets` gives a file line by line, each with its newline as long as the buffer
can hold it. A line without one is taken for a line that is too long. What is
left of a line after its comment is trimmed and searched for operators, first
for `+=` and then for `=`.
-/

namespace Kubeka

open Text

/-! ### Trimmed text -/

variable {L : Libds} {s t : CStr}

/-- No blank is in front of the text or at its end. -/
theorem trim_eq_self (h : trim s = s) :
    s.dropWhile isspace = s ∧ s.rdropWhile isspace = s := by
  have hdrop : s.dropWhile isspace = s := by
    refine (List.dropWhile_suffix isspace).eq_of_length_le ?_
    have hfront := (List.rdropWhile_prefix isspace (s.dropWhile isspace)).length_le
    rw [← trim, h] at hfront
    exact hfront
  refine ⟨hdrop, ?_⟩
  rwa [trim, hdrop] at h

theorem dropWhile_isspace_append (h : trim s = s) (hs : s ≠ []) (t : CStr) :
    (s ++ t).dropWhile isspace = s ++ t := by
  obtain ⟨c, rest, rfl⟩ := List.exists_cons_of_ne_nil hs
  have hc : ¬ isspace c := by
    simpa using List.dropWhile_eq_self_iff.mp (trim_eq_self h).1
  rw [List.cons_append, List.dropWhile_cons_of_neg hc]

/-- A blank behind a text is taken off. -/
theorem trim_append_blank (h : trim s = s) (hs : s ≠ []) {c : Char} (hc : isspace c) :
    trim (s ++ [c]) = s := by
  rw [trim, dropWhile_isspace_append h hs, List.rdropWhile_concat_pos _ _ _ hc,
    (trim_eq_self h).2]

theorem trim_cons_blank {c : Char} (hc : isspace c) (s : CStr) :
    trim (c :: s) = trim s := by
  rw [trim, List.dropWhile_cons_of_pos hc, trim]

/-- Nothing but blanks is taken off. -/
theorem mem_trim {c : Char} (hmem : c ∈ s) (hc : isspace c = false) : c ∈ trim s := by
  have hdrop : c ∈ s.dropWhile isspace := by
    rw [← List.takeWhile_append_dropWhile (p := isspace) (l := s), List.mem_append] at hmem
    refine hmem.resolve_left fun htake => ?_
    have hblank := List.mem_takeWhile_imp htake
    simp [hc] at hblank
  rw [← List.rdropWhile_append_rtakeWhile (p := isspace) (l := s.dropWhile isspace),
    List.mem_append] at hdrop
  refine hdrop.resolve_right fun htake => ?_
  have hblank := List.mem_rtakeWhile_imp htake
  simp [hc] at hblank

/-! ### What `fgets` gives -/

/-- A line that fits comes with its newline. -/
theorem fgets_line {n : ℕ} (h : '\n' ∉ s) (hn : s.length < n) (rest : CStr) :
    fgets n (s ++ '\n' :: rest) = (s ++ ['\n'], rest) := by
  induction s generalizing n with
  | nil =>
    obtain ⟨n, rfl⟩ := Nat.exists_eq_succ_of_ne_zero (Nat.ne_of_gt hn)
    simp [fgets]
  | cons c s ih =>
    obtain ⟨n, rfl⟩ := Nat.exists_eq_succ_of_ne_zero (Nat.ne_of_gt (Nat.zero_lt_of_lt hn))
    obtain ⟨hc, hs⟩ := List.ne_and_not_mem_of_not_mem_cons h
    have hline := ih hs (Nat.lt_of_succ_lt_succ hn)
    simp [fgets, hc.symm, hline]

/-- A line that does not fit is cut. -/
theorem fgets_long {n : ℕ} (h : '\n' ∉ s) (hn : n ≤ s.length) (rest : CStr) :
    fgets n (s ++ rest) = (s.take n, s.drop n ++ rest) := by
  induction s generalizing n with
  | nil =>
    obtain rfl := Nat.le_zero.mp hn
    cases rest <;> rfl
  | cons c s ih =>
    cases n with
    | zero => rfl
    | succ n =>
      obtain ⟨hc, hs⟩ := List.ne_and_not_mem_of_not_mem_cons h
      have hline := ih hs (Nat.le_of_succ_le_succ hn)
      simp [fgets, hc.symm, hline]

theorem fgets_last (n : ℕ) (h : '\n' ∉ s) : fgets n s = (s.take n, s.drop n) := by
  induction s generalizing n with
  | nil => simp [fgets]
  | cons c s ih =>
    cases n with
    | zero => rfl
    | succ n =>
      obtain ⟨hc, hs⟩ := List.ne_and_not_mem_of_not_mem_cons h
      simp [fgets, hc.symm, ih n hs]

/-- A line ends with its newline at the latest. -/
theorem fgets_upTo (n : ℕ) (h : '\n' ∉ s) (rest : CStr) :
    (fgets n (s ++ '\n' :: rest)).1 <+: s ++ ['\n'] := by
  by_cases hn : s.length < n
  · rw [fgets_line h hn]
  · rw [fgets_long h (not_lt.mp hn)]
    exact (List.take_prefix n s).trans (List.prefix_append s _)

theorem fgets_append (n : ℕ) (s : CStr) : (fgets n s).1 ++ (fgets n s).2 = s := by
  induction s generalizing n with
  | nil => simp [fgets]
  | cons c s ih =>
    cases n with
    | zero => rfl
    | succ n =>
      unfold fgets
      split_ifs
      · rfl
      · rw [List.cons_append, ih]

/-- A line that has its newline does not depend on what follows. -/
theorem fgets_append_right {n : ℕ} (h : '\n' ∈ (fgets n s).1) (t : CStr) :
    fgets n (s ++ t) = ((fgets n s).1, (fgets n s).2 ++ t) := by
  induction s generalizing n with
  | nil => simp [fgets] at h
  | cons c s ih =>
    cases n with
    | zero => simp [fgets] at h
    | succ n =>
      rw [List.cons_append]
      unfold fgets at h ⊢
      split_ifs at h ⊢ with hc
      · rfl
      · have htail : '\n' ∈ (fgets n s).1 := (List.mem_cons.mp h).resolve_left (Ne.symm hc)
        rw [ih htail]

/-! ### All lines of a file -/

theorem lineLen_eq : lineLen - 1 = 1048574 + 1 := by decide

theorem length_fgets_lt (h : s ≠ []) : (fgets (lineLen - 1) s).2.length < s.length := by
  have hsplit := congrArg List.length (fgets_append (lineLen - 1) s)
  have hpos : 0 < (fgets (lineLen - 1) s).1.length := by
    obtain ⟨c, s, rfl⟩ := List.exists_cons_of_ne_nil h
    rw [lineLen_eq]
    unfold fgets
    split_ifs <;> simp
  rw [List.length_append] at hsplit
  omega

theorem fileLines_fuel {fuel fuel' : ℕ} (h : s.length ≤ fuel) (h' : s.length ≤ fuel') :
    fileLines.go fuel s = fileLines.go fuel' s := by
  induction fuel generalizing s fuel' with
  | zero =>
    obtain rfl := List.length_eq_zero_iff.mp (Nat.le_zero.mp h)
    cases fuel' <;> rfl
  | succ fuel ih =>
    cases s with
    | nil => cases fuel' <;> rfl
    | cons c s =>
      cases fuel' with
      | zero => simp at h'
      | succ fuel' =>
        have hlt := length_fgets_lt (List.cons_ne_nil c s)
        exact congrArg _ (ih (by omega) (by omega))

@[simp] theorem fileLines_nil : fileLines [] = [] := rfl

theorem fileLines_cons (h : s ≠ []) : fileLines s =
    (fgets (lineLen - 1) s).1 :: fileLines (fgets (lineLen - 1) s).2 := by
  obtain ⟨c, s, rfl⟩ := List.exists_cons_of_ne_nil h
  have hlt := length_fgets_lt (List.cons_ne_nil c s)
  rw [List.length_cons] at hlt
  exact congrArg _ (fileLines_fuel (by omega) le_rfl)

/-- A file is empty, or a line and what is left of the file. -/
theorem fileLines_induction {P : CStr → Prop} (nil : P [])
    (line : ∀ s, s ≠ [] → P (fgets (lineLen - 1) s).2 → P s) (s : CStr) : P s := by
  induction hn : s.length using Nat.strongRecOn generalizing s with
  | ind n ih =>
    by_cases hs : s = []
    · rwa [hs]
    · exact line s hs (ih _ (hn ▸ length_fgets_lt hs) _ rfl)

theorem mem_of_mem_fileLines {line : CStr} (h : line ∈ fileLines s) {c : Char} (hc : c ∈ line) :
    c ∈ s := by
  induction s using fileLines_induction with
  | nil => simp at h
  | line s hs ih =>
    rw [← fgets_append (lineLen - 1) s, List.mem_append]
    rw [fileLines_cons hs] at h
    rcases List.mem_cons.mp h with rfl | h
    · exact .inl hc
    · exact .inr (ih h)

/-- When every line has its newline, the next file starts with a new line. -/
theorem fileLines_append (h : ∀ line ∈ fileLines s, '\n' ∈ line) (t : CStr) :
    fileLines (s ++ t) = fileLines s ++ fileLines t := by
  induction s using fileLines_induction with
  | nil => rfl
  | line s hs ih =>
    rw [fileLines_cons hs, List.forall_mem_cons] at h
    have hne : s ++ t ≠ [] := List.append_ne_nil_of_left_ne_nil hs t
    rw [fileLines_cons hs, fileLines_cons hne, fgets_append_right h.1, ih h.2, List.cons_append]

/-- The last line of a file that does not end with a newline. -/
theorem fileLines_last (h : '\n' ∉ s) (hs : s ≠ []) (hn : s.length < lineLen) :
    fileLines s = [s] := by
  have hline : fgets (lineLen - 1) s = (s, []) := by
    rw [fgets_last _ h, List.take_of_length_le (by omega), List.drop_of_length_le (by omega)]
  rw [fileLines_cons hs, hline, fileLines_nil]

/-! ### What is made of a line -/

theorem cstring_of_not_mem (h : '\x00' ∉ s) : cstring s = s := by
  refine List.takeWhile_eq_self_iff.mpr fun c hc => ?_
  simpa using fun heq : c = '\x00' => h (heq ▸ hc)

theorem cstring_append (h : '\x00' ∉ s) (rest : CStr) : cstring (s ++ '\x00' :: rest) = s := by
  have hall : ∀ c ∈ s, decide (c ≠ '\x00') = true := by
    intro c hc
    simpa using fun heq : c = '\x00' => h (heq ▸ hc)
  rw [cstring, List.takeWhile_append_of_pos hall, List.takeWhile_cons_of_neg (by simp),
    List.append_nil]

theorem mem_of_cstring {c : Char} (h : c ∈ cstring s) : c ∈ s :=
  (List.takeWhile_prefix _).subset h

theorem strchr_of_not_mem {c : Char} (h : c ∉ s) : strchr s c = none :=
  cut_eq_none_iff.mpr fun hin => h (hin.subset List.mem_cons_self)

/-- The characters that end a line, its text or the reading. -/
def TextOfLine (s : CStr) : Prop := ∀ c ∈ ['\r', '\n', '\x00', '#'], c ∉ s

variable {c : Char} {text name value : CStr}

/-- Every library trims a line in the same way. -/
theorem classify_eq_ordered (buffer : CStr) : classify L buffer = classify .ordered buffer := by
  have hnv (line delim : CStr) : parseNv L line delim = parseNv .ordered line delim := by
    simp only [parseNv, Libds.strTrim_eq]
  simp only [classify, hnv, Libds.strTrim_eq]

/-- A line that is neither blank nor a header is searched for the operators. -/
theorem classify_line (h : TextOfLine s) (htext : trim s = c :: text) (hc : c ≠ '[') :
    (∀ nv, parseNv L (c :: text) "+=".toList = some nv →
        classify L (s ++ ['\n']) = .append nv.1 nv.2) ∧
      ∀ nv, parseNv L (c :: text) "+=".toList = none → parseNv L (c :: text) "=".toList = some nv →
        classify L (s ++ ['\n']) = .assign nv.1 nv.2 := by
  simp only [TextOfLine, List.forall_mem_cons] at h
  obtain ⟨hcr, hlf, hnul, hhash, -⟩ := h
  have hcstring : cstring (s ++ ['\n']) = s ++ ['\n'] := cstring_of_not_mem (by simp [hnul])
  have hnewline : strchr (s ++ ['\n']) '\n' = some (s, []) := cut_singleton [] hlf
  have hreturn : '\r' ∉ s ++ ['\n'] := by simp [hcr]
  constructor
  · intro nv happend
    unfold classify
    simp only [hcstring, hnewline, strchr_of_not_mem hhash, L.strTrim_eq, htext, if_neg hreturn,
      happend]
    simp [hc]
  · intro nv hno hassign
    unfold classify
    simp only [hcstring, hnewline, strchr_of_not_mem hhash, L.strTrim_eq, htext, if_neg hreturn,
      hno, hassign]
    simp [hc]

theorem mem_of_parseNv {delim : CStr} {nv : CStr × CStr} (h : parseNv L s delim = some nv)
    (hc : c ∈ delim) : c ∈ s := by
  obtain ⟨⟨a, b⟩, hcut, -⟩ := Option.map_eq_some_iff.mp h
  rw [eq_of_cut hcut]
  simp [hc]

theorem mem_of_trim (h : c ∈ trim s) : c ∈ s :=
  (List.dropWhile_suffix isspace).subset ((List.rdropWhile_prefix isspace _).subset h)

/-- What is left of a line without its comment is in the line. -/
theorem mem_of_mem_uncommented {line : CStr} {c : Char} (hc : c ∈ trim
    (match strchr line '#' with
    | some (text, _) => text
    | none => line)) : c ∈ line := by
  have hmem := mem_of_trim hc
  split at hmem
  next text rest htext =>
    rw [eq_of_cut htext]
    exact List.mem_append_left _ hmem
  · exact hmem

/-- An assignment is found before the newline, and it has an operator. -/
theorem text_of_assignment {buffer : CStr}
    (h : classify L buffer = .assign name value ∨ classify L buffer = .append name value) :
    '\r' ∉ cstring buffer ∧
      ∃ text rest, cstring buffer = text ++ '\n' :: rest ∧ '=' ∈ text := by
  generalize hkind : classify L buffer = kind at h
  simp only [classify, L.strTrim_eq] at hkind
  split at hkind
  · subst hkind
    simp at h
  next hreturn =>
    refine ⟨hreturn, ?_⟩
    split at hkind
    · subst hkind
      simp at h
    next line rest hnewline =>
      refine ⟨line, rest, eq_of_cut hnewline, ?_⟩
      -- the operator stands before the comment, if there is one
      generalize htext : trim _ = text at hkind
      have hcomment {c : Char} (hc : c ∈ text) : c ∈ line := mem_of_mem_uncommented (htext ▸ hc)
      split at hkind
      · subst hkind
        simp at h
      split at hkind
      · split at hkind
        all_goals
          subst hkind
          simp at h
      split at hkind
      · next happend => exact hcomment (mem_of_parseNv happend (by decide))
      split at hkind
      · next hassign => exact hcomment (mem_of_parseNv hassign (by decide))
      · subst hkind
        simp at h

/-- Without a newline, the reader does not look at a line. -/
theorem classify_of_not_mem {buffer : CStr} (h : '\n' ∉ buffer) : classify L buffer =
    if '\r' ∈ cstring buffer then .carriageReturn else .unterminated := by
  unfold classify
  simp only [strchr_of_not_mem (mt mem_of_cstring h)]

/-- Only a missing newline is reported, when no NUL hides one. -/
theorem mem_of_unterminated {buffer : CStr} (hnul : '\x00' ∉ buffer)
    (h : classify L buffer = .unterminated) : '\n' ∉ buffer := by
  intro hmem
  obtain ⟨line, rest, hline, hfirst⟩ := List.eq_append_cons_of_mem hmem
  have hnewline : strchr (cstring buffer) '\n' = some (line, rest) := by
    rw [cstring_of_not_mem hnul, hline]
    exact cut_singleton rest hfirst
  simp only [classify, hnewline] at h
  split_ifs at h
  · split at h <;> simp at h
  · split at h
    · simp at h
    · split at h <;> simp at h

/-! ### Runs over lines -/

theorem readLines_append (fname : CStr) (s : Reader)
    (lines lines' : List CStr) :
    readLines L fname s (lines ++ lines') = match readLines L fname s lines with
      | .next s => readLines L fname s lines'
      | r => r := by
  induction lines generalizing s with
  | nil => rfl
  | cons buffer lines ih =>
    rw [List.cons_append, readLines, readLines]
    cases readLine L fname s buffer with
    | next s => exact ih s
    | cleanup s => rfl
    | undefined s => rfl

theorem readLines_singleton (fname : CStr) (s : Reader) (buffer : CStr) :
    readLines L fname s [buffer] = readLine L fname s buffer := by
  rw [readLines]
  cases readLine L fname s buffer <;> rfl

/-! ### The current node -/

variable {r : Reader} {i : ℕ} {node : Kbnode}

/-- The node that assignments go to. -/
structure IsCurrent (s : Reader) (i : ℕ) (node : Kbnode) : Prop where
  current : s.current = some i
  node : s.dst[i]? = some (some node)

theorem IsCurrent.nextLine (h : IsCurrent r i node) :
    IsCurrent { r with lc := r.lc + 1 } i node := ⟨h.current, h.node⟩

theorem IsCurrent.getElem?_set (h : IsCurrent r i node) (place : Option Kbnode) :
    (r.dst.set i place)[i]? = some place :=
  List.getElem?_set_self (List.getElem?_eq_some_iff.mp h.node).1

section
variable {f : Symtab → Option (Bool × Symtab)}

theorem IsCurrent.assign_some (h : IsCurrent r i node) {result : Bool × Symtab}
    (hf : f node.symtab = some result) :
    r.assign f = if result.1 then
        .next { r with dst := r.dst.set i (some { node with symtab := result.2 }) }
      else .cleanup { r with
        dst := r.dst.set i (some { node with symtab := result.2 })
        nerrors := r.nerrors + 1
        current := none } := by
  simp only [Reader.assign, h.current, h.node, hf]

theorem IsCurrent.assign_none (h : IsCurrent r i node) (hf : f node.symtab = none) :
    r.assign f = .undefined r := by
  simp only [Reader.assign, h.current, h.node, hf]

end

/-- Without a node to assign to, or a result for it, nothing is assigned. -/
theorem assign_cases (r : Reader) (f : Symtab → Option (Bool × Symtab)) :
    r.assign f = .cleanup { r with nerrors := r.nerrors + 1 } ∨ r.assign f = .undefined r ∨
      ∃ i node result, IsCurrent r i node ∧ f node.symtab = some result := by
  unfold Reader.assign
  cases hcur : r.current with
  | none => exact .inl rfl
  | some i =>
    simp only
    cases hplace : r.dst[i]? with
    | none => exact .inr (.inl rfl)
    | some place =>
      cases place with
      | none => exact .inr (.inl rfl)
      | some node =>
        simp only
        cases hf : f node.symtab with
        | none => exact .inr (.inl rfl)
        | some result => exact .inr (.inr ⟨i, node, result, ⟨hcur, hplace⟩, hf⟩)

/-- A line leads on only with its newline, and to the cleanup only with an error. -/
inductive Counted (buffer : CStr) (r : Reader) : Read → Prop
  | next {t : Reader} (newline : '\n' ∈ buffer) (lc : t.lc = r.lc + 1)
      (nerrors : t.nerrors = r.nerrors) : Counted buffer r (.next t)
  | cleanup {t : Reader} (nerrors : t.nerrors = r.nerrors + 1) : Counted buffer r (.cleanup t)
  | undefined {t : Reader} : Counted buffer r (.undefined t)

theorem counted_readLine (fname : CStr) (r : Reader) (buffer : CStr) :
    Counted buffer r (readLine L fname r buffer) := by
  unfold readLine
  by_cases hnewline : '\n' ∈ buffer
  · have hassign (f : Symtab → Option (Bool × Symtab)) :
        Counted buffer r (Reader.assign { r with lc := r.lc + 1 } f) := by
      rcases assign_cases { r with lc := r.lc + 1 } f with h | h | ⟨i, node, result, h, hf⟩
      · rw [h]
        exact .cleanup rfl
      · rw [h]
        exact .undefined
      · rw [h.assign_some hf]
        split_ifs
        · exact .next hnewline rfl rfl
        · exact .cleanup rfl
    cases classify L buffer with
    | append name value => exact hassign _
    | assign name value => exact hassign _
    | header typename =>
      simp only
      cases nodeNew L fname (r.lc + 1) typename with
      | none => exact .cleanup rfl
      | some node => exact .next hnewline rfl rfl
    | blank => exact .next hnewline rfl rfl
    | unrecognised => exact .next hnewline rfl rfl
    | _ => exact .cleanup rfl
  · rw [classify_of_not_mem hnewline]
    by_cases hreturn : '\r' ∈ cstring buffer
    · rw [if_pos hreturn]
      exact .cleanup rfl
    · rw [if_neg hreturn]
      exact .cleanup rfl

end Kubeka
