import Kubeka.Assign.Arrays
import Kubeka.Read.Lines

/-!
# Assignment lines

A line `name = value` is taken apart at its first operator. As the whole line
is searched for `+=` before it is searched for `=`, a value that holds `+=`
makes an append of the line, to a variable whose name is all that stands in
front of it.
-/

namespace Kubeka

open Text

variable {L : Libds} {fname name value : CStr} {s : Reader} {i : ℕ} {node : Kbnode}

/-- A name and a value that a line may assign to a new variable. -/
structure Assignable (st : Symtab) (name value : CStr) : Prop where
  name_ne_nil : name ≠ []
  name_trimmed : trim name = name
  name_head : name.head? ≠ some '_'
  name_free : ∀ c ∈ ['=', '+', '#', '['], c ∉ name
  unbound : kbsymtabGet st name = none
  value_trimmed : trim value = value
  value_head : value.head? ≠ some '['
  value_free : ∀ c ∈ ['#', '\r', '\n', '\x00'], c ∉ value

def assignmentLine (name value : CStr) : CStr := name ++ (" = ".toList ++ value)

/-- The reading goes on, with `name` bound to `value` alone and all else as it was. -/
def Binds (s : Reader) (i : ℕ) (node : Kbnode) (name value : CStr) (r : Read) : Prop :=
  ∃ s' symtab, r = .next s' ∧ s'.dst = s.dst.set i (some { node with symtab := symtab }) ∧
    kbsymtabGet symtab name = some [value] ∧ ChangesOnly name node.symtab symtab

theorem detectKeyclass_ne_ro (h : name.head? ≠ some '_') : detectKeyclass name ≠ .ro := by
  unfold detectKeyclass
  rw [if_neg h]
  split_ifs <;> simp

/-- A new variable gets a single value. -/
theorem Assignable.kbsymtabSet {st : Symtab} (h : Assignable st name value) :
    kbsymtabSet L .all false st name value = (true, st.insert name [value]) := by
  have hplain : '[' ∉ name := h.name_free '[' (by decide)
  have hbase := normaliseKey_of_plain hplain
  have haccepts : Accepts .all false name :=
    ⟨rfl, rfl, .inr (by rw [hbase]; exact detectKeyclass_ne_ro h.name_head)⟩
  rw [kbsymtabSet_accepted haccepts (parseValue_single h.value_head),
    storeValue_unbound h.unbound, hbase]
  rfl

/-! ### Lines that do not bind -/

/-- Only an assignment changes a variable. -/
theorem Binds.isAssignment {buffer : CStr} (hcur : IsCurrent s i node)
    (hunbound : kbsymtabGet node.symtab name = none)
    (h : Binds s i node name value (readLine L fname s buffer)) :
    ∃ key v, classify L buffer = .assign key v ∨ classify L buffer = .append key v := by
  obtain ⟨s', symtab, hread, hdst, hget, -⟩ := h
  -- the node is still the old one, in which the name is not bound
  have hsame (h : s'.dst = s.dst) : False := by
    have hnode := congrArg (fun l : List (Option Kbnode) => l[i]?) (hdst.symm.trans h)
    simp only [hcur.getElem?_set, hcur.node, Option.some.injEq] at hnode
    rw [← hnode, hget] at hunbound
    contradiction
  unfold readLine at hread
  cases hkind : classify L buffer with
  | assign key v => exact ⟨key, v, .inl rfl⟩
  | append key v => exact ⟨key, v, .inr rfl⟩
  | header typename =>
    simp only [hkind] at hread
    cases hnode : nodeNew L fname (s.lc + 1) typename with
    | none => simp [hnode] at hread
    | some new =>
      simp only [hnode, Read.next.injEq] at hread
      have hlength := congrArg List.length hdst
      simp [← hread] at hlength
  | blank =>
    simp only [hkind, Read.next.injEq] at hread
    exact absurd (by rw [← hread]) hsame
  | unrecognised =>
    simp only [hkind, Read.next.injEq] at hread
    exact absurd (by rw [← hread]) hsame
  | _ => simp [hkind] at hread

/-- The variable of an append is the one that changes. -/
theorem Binds.base_of_append {buffer key v : CStr} (hcur : IsCurrent s i node)
    (hunbound : kbsymtabGet node.symtab name = none) (hkind : classify L buffer = .append key v)
    (h : Binds s i node name value (readLine L fname s buffer)) : normaliseKey key = name := by
  obtain ⟨s', symtab, hread, hdst, hget, -⟩ := h
  simp only [readLine, hkind] at hread
  let f (st : Symtab) := kbsymtabAppend .all false st key v
  cases hrun : f node.symtab with
  | none => simp [f, hcur.nextLine.assign_none hrun] at hread
  | some r =>
    have honly : ChangesOnly (normaliseKey key) node.symtab r.2 := changesOnly_kbsymtabAppend hrun
    rw [hcur.nextLine.assign_some hrun] at hread
    split_ifs at hread
    obtain rfl := Read.next.inj hread
    have hsymtab := congrArg (fun l : List (Option Kbnode) => l[i]?) hdst
    simp only [hcur.getElem?_set, Option.some.injEq, Kbnode.mk.injEq, true_and] at hsymtab
    by_contra hne
    have hkept := honly name (Ne.symm hne)
    simp [hsymtab, hget, hunbound] at hkept

/-! ### What is read of the line -/

theorem not_mem_assignmentLine {c : Char} (hname : c ∉ name) (hop : c ∉ " = ".toList)
    (hvalue : c ∉ value) : c ∉ assignmentLine name value := by
  unfold assignmentLine
  rw [List.mem_append, List.mem_append, not_or, not_or]
  exact ⟨hname, hop, hvalue⟩

/-- A newline in the name would end the line before its operator. -/
theorem newline_not_mem_name (hequals : '=' ∉ name) {n : ℕ} {rest : CStr}
    (hop : '=' ∈ (fgets n (assignmentLine name value ++ rest)).1) : '\n' ∉ name := by
  intro hmem
  obtain ⟨u, w, rfl, hu⟩ := List.eq_append_cons_of_mem hmem
  have hline : assignmentLine (u ++ '\n' :: w) value ++ rest =
      u ++ '\n' :: (w ++ (" = ".toList ++ value) ++ rest) := by simp [assignmentLine]
  rw [hline] at hop
  rcases List.mem_append.mp ((fgets_upTo n hu _).subset hop) with hin | hin
  · exact hequals (List.mem_append_left _ hin)
  · simp at hin

/-- A NUL in the name would end the text before its operator. -/
theorem nul_not_mem_name (hequals : '=' ∉ name) {rest : CStr}
    (hop : '=' ∈ cstring (assignmentLine name value ++ rest)) : '\x00' ∉ name := by
  intro hmem
  obtain ⟨u, w, rfl, hu⟩ := List.eq_append_cons_of_mem hmem
  have hline : assignmentLine (u ++ '\x00' :: w) value ++ rest =
      u ++ '\x00' :: (w ++ (" = ".toList ++ value) ++ rest) := by simp [assignmentLine]
  rw [hline, cstring_append hu] at hop
  exact hequals (List.mem_append_left _ hop)

/-- A line that binds is read up to its newline, and without a cut. -/
theorem Binds.line_fits (h : Assignable node.symtab name value) (hcur : IsCurrent s i node)
    {rest : CStr} (hbinds : Binds s i node name value (readLine L fname s
      (fgets (lineLen - 1) (assignmentLine name value ++ '\n' :: rest)).1)) :
    (∀ c ∈ ['\r', '\n', '\x00'], c ∉ name) ∧
      (assignmentLine name value).length + 1 ≤ lineLen - 1 := by
  obtain ⟨key, v, hkind⟩ := hbinds.isAssignment hcur h.unbound
  obtain ⟨hreturn, text, after, hstring, htext⟩ := text_of_assignment hkind
  have hop :
      '=' ∈ cstring (fgets (lineLen - 1) (assignmentLine name value ++ '\n' :: rest)).1 := by
    rw [hstring]
    exact List.mem_append_left _ htext
  have hequals : '=' ∉ name := h.name_free '=' (by decide)
  have hnewline : '\n' ∉ name := newline_not_mem_name hequals (mem_of_cstring hop)
  have hline : '\n' ∉ assignmentLine name value :=
    not_mem_assignmentLine hnewline (by decide) (h.value_free '\n' (by decide))
  have hfits : (assignmentLine name value).length < lineLen - 1 := by
    by_contra hlong
    rw [fgets_long hline (not_lt.mp hlong)] at hstring
    have hmem : '\n' ∈ cstring ((assignmentLine name value).take (lineLen - 1)) := by
      simp [hstring]
    exact hline (List.mem_of_mem_take (mem_of_cstring hmem))
  rw [fgets_line hline hfits] at hop hreturn
  have hnul : '\x00' ∉ name := nul_not_mem_name hequals hop
  have hclean : '\x00' ∉ assignmentLine name value ++ ['\n'] := by
    rw [List.mem_append, not_or]
    exact ⟨not_mem_assignmentLine hnul (by decide) (h.value_free '\x00' (by decide)), by decide⟩
  have hcr : '\r' ∉ name := by
    intro hmem
    rw [cstring_of_not_mem hclean] at hreturn
    exact hreturn (by simp [assignmentLine, hmem])
  refine ⟨?_, hfits⟩
  simp [hcr, hnewline, hnul]

/-- What is left of the line: without a value there is a blank at its end. -/
theorem trim_assignmentLine (hname : trim name = name) (hne : name ≠ [])
    (hvalue : trim value = value) :
    ∃ tail, trim (assignmentLine name value) = name ++ (" =".toList ++ tail) ∧
      trim tail = value ∧ (tail = [] ∧ value = [] ∨ tail = ' ' :: value) := by
  have hdrop := dropWhile_isspace_append hname hne (" = ".toList ++ value)
  by_cases hblank : value = []
  · refine ⟨[], ?_, by rw [hblank]; rfl, .inl ⟨rfl, hblank⟩⟩
    have hsplit : assignmentLine name value = (name ++ [' ']) ++ ['='] ++ [' '] := by
      simp [assignmentLine, hblank]
    rw [trim, assignmentLine, hdrop, ← assignmentLine, hsplit,
      List.rdropWhile_concat_pos _ _ _ (by decide), List.rdropWhile_concat_neg _ _ _ (by decide)]
    simp
  · refine ⟨' ' :: value, ?_, by rw [trim_cons_blank (by decide), hvalue], .inr rfl⟩
    have hlast := List.rdropWhile_eq_self_iff.mp (trim_eq_self hvalue).2 hblank
    have hself : (assignmentLine name value).rdropWhile isspace = assignmentLine name value := by
      refine List.rdropWhile_eq_self_iff.mpr fun hl => ?_
      have hend : (assignmentLine name value).getLast hl = value.getLast hblank := by
        simp [assignmentLine, List.getLast_append_of_ne_nil, hblank]
      rwa [hend]
    rw [trim, assignmentLine, hdrop, ← assignmentLine, hself]
    simp [assignmentLine]

/-- What stands in front of a later operator is not the name. -/
theorem normaliseKey_ne_name (hname : trim name = name) (hne : name ≠ [])
    (hequals : '=' ∉ name) (rest : CStr) :
    normaliseKey (trim (name ++ (" =".toList ++ rest))) ≠ name := by
  intro hbase
  have hop : '=' ∈ trim (name ++ (" =".toList ++ rest)) :=
    mem_trim (by simp) (by decide)
  have hstart : trim (name ++ (" =".toList ++ rest)) <+: name ++ (" =".toList ++ rest) := by
    rw [trim, dropWhile_isspace_append hname hne]
    exact List.rdropWhile_prefix isspace _
  generalize trim (name ++ (" =".toList ++ rest)) = key at hbase hop hstart
  have hkey : key = name ++ key.dropWhile (· ≠ '[') := by
    conv_lhs => rw [← List.takeWhile_append_dropWhile (p := (· ≠ '[')) (l := key)]
    rw [← normaliseKey, hbase]
  have hbracket := List.head?_dropWhile_not (· ≠ '[') key
  cases hrest : key.dropWhile (· ≠ '[') with
  | nil =>
    rw [hrest, List.append_nil] at hkey
    exact hequals (hkey ▸ hop)
  | cons c after =>
    rw [hrest] at hkey hbracket
    rw [hkey, List.prefix_append_right_inj] at hstart
    have hc : c = ' ' := (List.cons_prefix_cons.mp hstart).1
    simp [hc] at hbracket

/-! ### Assignment lines -/

theorem textOfLine_assignmentLine {st : Symtab} (h : Assignable st name value)
    (hclean : ∀ c ∈ ['\r', '\n', '\x00'], c ∉ name) : TextOfLine (assignmentLine name value) := by
  have hfree := h.name_free
  have hvalue := h.value_free
  simp only [List.forall_mem_cons] at hfree hvalue hclean
  simp only [TextOfLine, List.forall_mem_cons]
  refine ⟨?_, ?_, ?_, ?_, by simp⟩
  · exact not_mem_assignmentLine hclean.1 (by decide) hvalue.2.1
  · exact not_mem_assignmentLine hclean.2.1 (by decide) hvalue.2.2.1
  · exact not_mem_assignmentLine hclean.2.2.1 (by decide) hvalue.2.2.2.1
  · exact not_mem_assignmentLine hfree.2.2.1 (by decide) hvalue.1

/-- The first `+=` of a line whose name has no `+` is that of its value. -/
theorem plus_isInfix_iff (hplus : '+' ∉ name) {tail : CStr}
    (htail : tail = [] ∧ value = [] ∨ tail = ' ' :: value) :
    "+=".toList <:+: name ++ (" =".toList ++ tail) ↔ "+=".toList <:+: value := by
  have hfront : '+' ∉ name ++ " =".toList := by simp [hplus]
  rw [← List.append_assoc]
  refine (isInfix_append_iff hfront tail).trans ?_
  rcases htail with ⟨rfl, rfl⟩ | rfl
  · rfl
  · exact isInfix_append_iff (l := [' ']) (by decide) value

/-- The name and the value stand on the two sides of the first `=`. -/
theorem parseNv_assignmentLine (hname : trim name = name) (hne : name ≠ [])
    (hequals : '=' ∉ name) (tail : CStr) :
    parseNv L (name ++ (" =".toList ++ tail)) "=".toList = some (name, trim tail) := by
  have hblank : '=' ∉ name ++ [' '] := by simp [hequals]
  have hcut : strstr (name ++ (" =".toList ++ tail)) "=".toList = some (name ++ [' '], tail) := by
    simpa [strstr] using cut_singleton tail hblank
  rw [parseNv, hcut, Option.map_some, L.strTrim_eq, L.strTrim_eq,
    trim_append_blank hname hne (by decide)]

/-- What stands in front of a `+=` of the value is not the name. -/
theorem parseNv_plus (hname : trim name = name) (hne : name ≠ []) (hequals : '=' ∉ name)
    (hplus : '+' ∉ name) {tail : CStr} (hop : "+=".toList <:+: name ++ (" =".toList ++ tail)) :
    ∃ key v, parseNv L (name ++ (" =".toList ++ tail)) "+=".toList = some (key, v) ∧
      normaliseKey key ≠ name := by
  have hsome : strstr (name ++ (" =".toList ++ tail)) "+=".toList ≠ none :=
    fun hnone => cut_eq_none_iff.mp hnone hop
  obtain ⟨⟨a, b⟩, hcut⟩ := Option.ne_none_iff_exists'.mp hsome
  have hfront : '+' ∉ name ++ " =".toList := by simp [hplus]
  obtain ⟨a', rfl⟩ : name ++ " =".toList <+: a := by
    refine isPrefix_of_append_cons hfront (r := tail) (b := '=' :: b) ?_
    rw [List.append_assoc, eq_of_cut hcut]
    rfl
  refine ⟨trim (name ++ " =".toList ++ a'), trim b, ?_, ?_⟩
  · rw [parseNv, hcut, Option.map_some, L.strTrim_eq, L.strTrim_eq]
  · rw [List.append_assoc]
    exact normaliseKey_ne_name hname hne hequals a'

/-- What the reader makes of a line that it can read whole. -/
theorem classify_assignmentLine {st : Symtab} (h : Assignable st name value)
    (hclean : ∀ c ∈ ['\r', '\n', '\x00'], c ∉ name) :
    (¬ "+=".toList <:+: value →
        classify L (assignmentLine name value ++ ['\n']) = .assign name value) ∧
      ("+=".toList <:+: value → ∃ key v,
        classify L (assignmentLine name value ++ ['\n']) = .append key v ∧
          normaliseKey key ≠ name) := by
  have hequals : '=' ∉ name := h.name_free '=' (by decide)
  have hplus : '+' ∉ name := h.name_free '+' (by decide)
  obtain ⟨tail, htrim, htail, hcases⟩ :=
    trim_assignmentLine h.name_trimmed h.name_ne_nil h.value_trimmed
  obtain ⟨c, name', hname⟩ := List.exists_cons_of_ne_nil h.name_ne_nil
  have hc : c ≠ '[' := by
    intro heq
    exact h.name_free '[' (by decide) (by simp [hname, heq])
  have hsplit : name ++ (" =".toList ++ tail) = c :: (name' ++ (" =".toList ++ tail)) := by
    rw [hname, List.cons_append]
  obtain ⟨happend, hassign⟩ :=
    classify_line (textOfLine_assignmentLine h hclean) (htrim.trans hsplit) hc
  rw [← hsplit] at happend hassign
  constructor
  · intro hno
    have hnone : parseNv L (name ++ (" =".toList ++ tail)) "+=".toList = none := by
      rw [parseNv, strstr, cut_eq_none_iff.mpr (mt (plus_isInfix_iff hplus hcases).mp hno),
        Option.map_none]
    have hsome := parseNv_assignmentLine (L := L) h.name_trimmed h.name_ne_nil hequals tail
    rw [htail] at hsome
    exact hassign _ hnone hsome
  · intro hop
    obtain ⟨key, v, hparse, hne⟩ := parseNv_plus h.name_trimmed h.name_ne_nil hequals hplus
      ((plus_isInfix_iff hplus hcases).mpr hop)
    exact ⟨key, v, happend _ hparse, hne⟩

/-- A line makes its assignment exactly when it fits into the buffer, the name can stand in a line,
and the value does not hold `+=`. -/
theorem assignmentLine_binds_iff (fname : CStr)
    (h : Assignable node.symtab name value) (hcur : IsCurrent s i node) (rest : CStr) :
    Binds s i node name value (readLine L fname s
        (fgets (lineLen - 1) (assignmentLine name value ++ '\n' :: rest)).1) ↔
      ¬ "+=".toList <:+: value ∧ (∀ c ∈ ['\r', '\n', '\x00'], c ∉ name) ∧
        (assignmentLine name value).length + 1 ≤ lineLen - 1 := by
  have hread (hclean : ∀ c ∈ ['\r', '\n', '\x00'], c ∉ name)
      (hfits : (assignmentLine name value).length + 1 ≤ lineLen - 1) :
      (fgets (lineLen - 1) (assignmentLine name value ++ '\n' :: rest)).1 =
        assignmentLine name value ++ ['\n'] := by
    have hline : '\n' ∉ assignmentLine name value := not_mem_assignmentLine
      (hclean '\n' (by decide)) (by decide) (h.value_free '\n' (by decide))
    rw [fgets_line hline hfits]
  constructor
  · intro hbinds
    obtain ⟨hclean, hfits⟩ := hbinds.line_fits h hcur
    refine ⟨fun hop => ?_, hclean, hfits⟩
    rw [hread hclean hfits] at hbinds
    obtain ⟨key, v, hkind, hne⟩ := (classify_assignmentLine (L := L) h hclean).2 hop
    exact hne (hbinds.base_of_append hcur h.unbound hkind)
  · rintro ⟨hop, hclean, hfits⟩
    have hkind := (classify_assignmentLine (L := L) h hclean).1 hop
    have hset : readLine L fname s (assignmentLine name value ++ ['\n']) = .next
        { s with
          lc := s.lc + 1
          dst := s.dst.set i (some { node with symtab := node.symtab.insert name [value] }) } := by
      have hassign := hcur.nextLine.assign_some (f := fun st =>
        some (Kubeka.kbsymtabSet L .all false st name value)) (congrArg some h.kbsymtabSet)
      simp only [readLine, hkind, hassign, if_true]
    rw [hread hclean hfits]
    refine ⟨_, _, hset, rfl, ?_, changesOnly_insert _ _ _⟩
    rw [kbsymtabGet_insert, if_pos rfl]

/-- A job without variables. -/
def blankJob : Kbnode := { type := .job, symtab := ∅ }

def blankReader : Reader := { Reader.start [some blankJob] with current := some 0, nnodes := 1 }

/-- A command that holds `+=` is appended to a variable with half of it as its name. -/
theorem plusCommand_not_binds :
    Assignable blankJob.symtab "EXEC".toList "n+=1".toList ∧
      classify .ordered (assignmentLine "EXEC".toList "n+=1".toList ++ ['\n']) =
        .append "EXEC = n".toList "1".toList ∧
      ¬ Binds blankReader 0 blankJob "EXEC".toList "n+=1".toList
        (readLine .ordered "f".toList blankReader (fgets (lineLen - 1)
          (assignmentLine "EXEC".toList "n+=1".toList ++ ['\n'])).1) := by
  have hassign : Assignable blankJob.symtab "EXEC".toList "n+=1".toList :=
    ⟨by decide, by decide, by decide, by simp, by decide, by decide, by decide, by simp⟩
  have hkind : classify .ordered (assignmentLine "EXEC".toList "n+=1".toList ++ ['\n']) =
      .append "EXEC = n".toList "1".toList := by decide
  refine ⟨hassign, hkind, fun h => ?_⟩
  rw [fgets_line (by decide) (by decide)] at h
  exact absurd (h.base_of_append ⟨rfl, rfl⟩ hassign.unbound hkind) (by decide)

theorem command_binds :
    Binds blankReader 0 blankJob "EXEC".toList "n=$<N>".toList
      (readLine .ordered "f".toList blankReader (fgets (lineLen - 1)
        (assignmentLine "EXEC".toList "n=$<N>".toList ++ ['\n'])).1) := by
  have hassign : Assignable blankJob.symtab "EXEC".toList "n=$<N>".toList :=
    ⟨by decide, by decide, by decide, by simp, by decide, by decide, by decide, by simp⟩
  refine (assignmentLine_binds_iff "f".toList hassign ⟨rfl, rfl⟩ []).mpr ?_
  exact ⟨by decide, by simp, by decide⟩

end Kubeka
