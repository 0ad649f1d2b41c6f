import Kubeka.Assign.Format
import Kubeka.Read.AssignmentLine
import Kubeka.Read.Concat

/-!
# Files written and read back

A file that is written section by section, with a header and an assignment for
each variable, is read as just these nodes, whatever comments and blank lines
stand between. What a line cannot carry is excluded by the fields of the
structures: a value with `+=` in it would be an append, and a name that is bound
twice an assignment to an element.
-/

namespace Kubeka

open Text

variable {L : Libds} {fname : CStr}

/-! ### What is written -/

/-- A line with blanks and perhaps a comment. -/
structure Filler where
  blanks : CStr
  comment : CStr
  blank : ∀ c ∈ blanks, c = ' ' ∨ c = '\t'
  head : ∀ c ∈ comment.head?, c = '#'
  free : ∀ c ∈ ['\r', '\n', '\x00'], c ∉ comment
  fits : blanks.length + comment.length < lineLen - 1

def Filler.text (f : Filler) : CStr := f.blanks ++ f.comment

/-- A variable with its values, as one line can assign them. -/
structure Variable where
  name : CStr
  values : List CStr
  name_ne_nil : name ≠ []
  name_trimmed : trim name = name
  name_head : name.head? ≠ some '_'
  name_free : ∀ c ∈ ['=', '+', '#', '[', '\r', '\n', '\x00'], c ∉ name
  trimmed : ∀ v ∈ values, trim v = v
  free : ∀ v ∈ values, ∀ c ∈ ['#', '\r', '\n', '\x00'], c ∉ v
  shape : (2 ≤ values.length ∧ ∀ v ∈ values, ',' ∉ v ∧ ']' ∉ v) ∨
    ∃ v, values = [v] ∧ v.head? ≠ some '['
  operator : ¬ "+=".toList <:+: kbutilStrarrayFormat values
  fits : (assignmentLine name (kbutilStrarrayFormat values)).length < lineLen - 1

def Variable.text (v : Variable) : CStr := assignmentLine v.name (kbutilStrarrayFormat v.values)

/-- A variable with the lines in front of it. -/
structure Entry where
  fillers : List Filler
  var : Variable

def Entry.name (e : Entry) : CStr := e.var.name

/-- A node as it is written; its names are bound once. -/
structure Section where
  fillers : List Filler
  type : KbnodeType
  vars : List Entry
  distinct : (vars.map Entry.name).Nodup

def typeName : KbnodeType → CStr
  | .periodic => "periodic".toList
  | .job => "job".toList
  | .entrypoint => "entrypoint".toList

def headerLine (type : KbnodeType) : CStr := '[' :: (typeName type ++ [']'])

def varLines (vars : List Entry) : List CStr :=
  vars.flatMap fun e => e.fillers.map Filler.text ++ [e.var.text]

def Section.lines (s : Section) : List CStr :=
  s.fillers.map Filler.text ++ headerLine s.type :: varLines s.vars

def joinLines (lines : List CStr) : CStr := lines.flatMap (· ++ ['\n'])

/-- The text of a file, with some lines behind the last section. -/
def writtenText (sections : List Section) (rest : List Filler) : CStr :=
  joinLines (sections.flatMap Section.lines ++ rest.map Filler.text)

/-! ### What is read -/

/-- The node that is read of a section, with its header in the given line. -/
structure Section.IsRead (L : Libds) (fname : CStr) (line : ℕ) (s : Section) (n : Kbnode) :
    Prop where
  type : n.type = s.type
  fname : kbsymtabGet n.symtab kbnodeKeyFname = parseValue L .all fname
  line : kbsymtabGet n.symtab kbnodeKeyLine = some [Nat.toDigits 10 line]
  vars : ∀ key, key ≠ kbnodeKeyFname → key ≠ kbnodeKeyLine →
    kbsymtabGet n.symtab key = (s.vars.find? fun e => e.name = key).map fun e => e.var.values

/-- The nodes that are read of the sections behind line `lc`, in their order. -/
inductive ReadAs (L : Libds) (fname : CStr) : ℕ → List Section → List Kbnode → Prop
  | nil (lc : ℕ) : ReadAs L fname lc [] []
  | cons {lc : ℕ} {s : Section} {n : Kbnode} {ss : List Section} {ns : List Kbnode}
      (first : s.IsRead L fname (lc + s.fillers.length + 1) n)
      (rest : ReadAs L fname (lc + s.lines.length) ss ns) : ReadAs L fname lc (s :: ss) (n :: ns)

/-- The lines are read without leaving the loop. -/
def ReadsTo (L : Libds) (fname : CStr) (s : Reader) (lines : List CStr) (t : Reader) : Prop :=
  readLines L fname s (lines.map (· ++ ['\n'])) = .next t

variable {s t u : Reader}

theorem ReadsTo.append {lines lines' : List CStr} (h : ReadsTo L fname s lines t)
    (h' : ReadsTo L fname t lines' u) : ReadsTo L fname s (lines ++ lines') u := by
  rw [ReadsTo] at h h' ⊢
  rw [List.map_append, readLines_append, h]
  exact h'

theorem ReadsTo.single {line : CStr} (h : readLine L fname s (line ++ ['\n']) = .next t) :
    ReadsTo L fname s [line] t := by
  rw [ReadsTo, List.map_singleton, readLines_singleton]
  exact h

/-! ### Lines of a file -/

/-- A line that the buffer can hold. -/
def Fits (line : CStr) : Prop := '\n' ∉ line ∧ line.length < lineLen - 1

theorem fileLines_joinLines {lines : List CStr} (h : ∀ line ∈ lines, Fits line) :
    fileLines (joinLines lines) = lines.map (· ++ ['\n']) := by
  induction lines with
  | nil => rfl
  | cons line lines ih =>
    obtain ⟨⟨hnewline, hlen⟩, hlines⟩ := List.forall_mem_cons.mp h
    have hline : joinLines (line :: lines) = line ++ '\n' :: joinLines lines := by
      simp [joinLines]
    have hne : joinLines (line :: lines) ≠ [] := by simp [hline]
    rw [fileLines_cons hne, hline, fgets_line hnewline hlen, ih hlines, List.map_cons]

/-! ### Fillers and headers -/

theorem Filler.isspace (f : Filler) : ∀ c ∈ f.blanks, isspace c = true := by
  intro c hc
  rcases f.blank c hc with rfl | rfl <;> decide

/-- Neither blanks nor the comment end the line or its text. -/
theorem Filler.not_mem (f : Filler) {c : Char} (hc : c ∈ ['\r', '\n', '\x00']) : c ∉ f.text := by
  rw [Filler.text, List.mem_append, not_or]
  refine ⟨fun hmem => ?_, f.free c hc⟩
  rcases f.blank c hmem with rfl | rfl <;> simp at hc

theorem Filler.fits_text (f : Filler) : Fits f.text :=
  ⟨f.not_mem (by simp), by rw [Filler.text, List.length_append]; exact f.fits⟩

theorem trim_of_isspace {s : CStr} (h : ∀ c ∈ s, isspace c = true) : trim s = [] := by
  rw [trim, List.dropWhile_eq_nil_iff.mpr h]
  rfl

/-- What stands before the comment is blank. -/
theorem Filler.uncommented (f : Filler) : strchr f.text '#' = none ∧ trim f.text = [] ∨
    ∃ rest, strchr f.text '#' = some (f.blanks, rest) := by
  have hhash : '#' ∉ f.blanks := fun hmem => by
    rcases f.blank _ hmem with h | h <;> simp at h
  cases hcomment : f.comment with
  | nil =>
    have htext : f.text = f.blanks := by rw [Filler.text, hcomment, List.append_nil]
    rw [htext]
    exact .inl ⟨strchr_of_not_mem hhash, trim_of_isspace f.isspace⟩
  | cons c rest =>
    have hc : c = '#' := f.head c (by simp [hcomment])
    rw [Filler.text, hcomment, hc]
    exact .inr ⟨rest, cut_singleton rest hhash⟩

theorem Filler.classify (f : Filler) : classify L (f.text ++ ['\n']) = .blank := by
  have hcstring : cstring (f.text ++ ['\n']) = f.text ++ ['\n'] :=
    cstring_of_not_mem (by simpa using f.not_mem (c := '\x00') (by simp))
  have hnewline : strchr (f.text ++ ['\n']) '\n' = some (f.text, []) :=
    cut_singleton [] (f.not_mem (by simp))
  have hreturn : '\r' ∉ f.text ++ ['\n'] := by simpa using f.not_mem (c := '\r') (by simp)
  have hblanks := trim_of_isspace f.isspace
  unfold Kubeka.classify
  rcases f.uncommented with ⟨hnone, htrim⟩ | ⟨rest, hsome⟩
  · simp only [hcstring, hnewline, if_neg hreturn, hnone, L.strTrim_eq, htrim, if_true]
  · simp only [hcstring, hnewline, if_neg hreturn, hsome, L.strTrim_eq, hblanks, if_true]

variable (fname) in
/-- Fillers are counted as lines. -/
theorem reads_fillers (fs : List Filler) (s : Reader) :
    ReadsTo L fname s (fs.map Filler.text) { s with lc := s.lc + fs.length } := by
  induction fs generalizing s with
  | nil => rfl
  | cons f fs ih =>
    have hline : readLine L fname s (f.text ++ ['\n']) = .next { s with lc := s.lc + 1 } := by
      simp only [readLine, f.classify]
    have hrest := (ReadsTo.single hline).append (ih { s with lc := s.lc + 1 })
    simpa [Nat.add_assoc, Nat.add_comm 1] using hrest

theorem nodeTypeType_typeName (type : KbnodeType) : nodeTypeType (typeName type) = some type := by
  cases type <;> decide

theorem fits_headerLine (type : KbnodeType) : Fits (headerLine type) := by
  cases type <;> exact ⟨by decide, by decide⟩

theorem classify_headerLine (type : KbnodeType) :
    classify L (headerLine type ++ ['\n']) = .header (typeName type) := by
  rw [classify_eq_ordered]
  cases type <;> decide +kernel

/-- The variables that a new node has. -/
def originVars (vs : List CStr) (line : ℕ) : Symtab :=
  ((∅ : Symtab).insert kbnodeKeyFname vs).insert kbnodeKeyLine [Nat.toDigits 10 line]

/-- A header makes a node with its origin, and this becomes the current one. -/
theorem reads_header {vs : List CStr} (hfname : parseValue L .all fname = some vs)
    (type : KbnodeType) (s : Reader) : ReadsTo L fname s [headerLine type] { s with
      dst := s.dst ++ [some ⟨type, originVars vs (s.lc + 1)⟩]
      current := some s.dst.length
      lc := s.lc + 1
      nnodes := s.nnodes + 1 } := by
  refine ReadsTo.single ?_
  simp only [readLine, classify_headerLine, nodeNew, nodeTypeType_typeName, Option.map_some,
    nodeNewSymtab_of_parse hfname, originVars]

/-! ### Assignments -/

theorem Variable.not_mem_format (v : Variable) {c : Char} (hc : c ∈ ['#', '\r', '\n', '\x00']) :
    c ∉ kbutilStrarrayFormat v.values := by
  rcases v.shape with ⟨hlen, -⟩ | ⟨w, hw, -⟩
  · rw [kbutilStrarrayFormat_eq hlen]
    intro hmem
    have hin : c ∈ [','].intercalate (formatPieces v.values) := by
      fin_cases hc <;> simpa using hmem
    obtain ⟨piece, hpiece, hcp⟩ := (mem_intercalate_iff (by fin_cases hc <;> decide)).mp hin
    obtain ⟨-, w, hw, hholds⟩ := of_mem_formatPieces hpiece
    rcases hholds c hcp with hcw | rfl
    · exact v.free w hw c hc hcw
    · simp at hc
  · rw [hw]
    exact v.free w (by simp [hw]) c hc

theorem Variable.trimmed_format (v : Variable) :
    trim (kbutilStrarrayFormat v.values) = kbutilStrarrayFormat v.values := by
  rcases v.shape with ⟨hlen, -⟩ | ⟨w, hw, -⟩
  · rw [kbutilStrarrayFormat_eq hlen, trim, List.dropWhile_cons_of_neg (by decide),
      ← List.cons_append, List.rdropWhile_concat_neg _ _ _ (by decide)]
  · rw [hw]
    exact v.trimmed w (by simp [hw])

/-- The text of the values is read as the values. -/
theorem Variable.parseValue (v : Variable) :
    parseValue L .all (kbutilStrarrayFormat v.values) = some v.values := by
  rcases v.shape with ⟨hlen, hplain⟩ | ⟨w, hw, hhead⟩
  · have hnot : ∀ c, c ≠ ' ' → (∀ w ∈ v.values, c ∉ w) → ∀ piece ∈ formatPieces v.values,
        c ∉ piece := by
      intro c hc hvalues piece hpiece hmem
      obtain ⟨-, w, hw, hholds⟩ := of_mem_formatPieces hpiece
      exact (hholds c hmem).elim (hvalues w hw) hc
    have hclose : ']' ∉ [','].intercalate (formatPieces v.values) := by
      rw [mem_intercalate_iff (by decide)]
      rintro ⟨piece, hpiece, hc⟩
      exact hnot ']' (by decide) (fun w hw => (hplain w hw).2) piece hpiece hc
    have hne : formatPieces v.values ≠ [] := by
      intro hnil
      cases hvalues : v.values with
      | nil => simp [hvalues] at hlen
      | cons w ws => simp [hvalues, formatPieces] at hnil
    have htokens : strtok ([','].intercalate (formatPieces v.values)) ',' =
        formatPieces v.values := by
      rw [strtok, List.splitOn_intercalate ','
        (hnot ',' (by decide) fun w hw => (hplain w hw).1) hne, List.filter_eq_self]
      exact fun piece hpiece => by simpa using (of_mem_formatPieces hpiece).1
    rw [kbutilStrarrayFormat_eq hlen, parseValue_array [] hclose, htokens,
      map_trim_formatPieces v.trimmed]
  · rw [hw]
    exact parseValue_single hhead

theorem Variable.textOfLine (v : Variable) : TextOfLine v.text := by
  intro c hc
  refine not_mem_assignmentLine (v.name_free c ?_) ?_ (v.not_mem_format ?_) <;>
    fin_cases hc <;> simp

theorem Variable.fits_text (v : Variable) : Fits v.text :=
  ⟨v.textOfLine '\n' (by simp), v.fits⟩

/-- The line is an assignment, as no `+=` stands in it. -/
theorem Variable.classify (v : Variable) :
    classify L (v.text ++ ['\n']) = .assign v.name (kbutilStrarrayFormat v.values) := by
  have hequals : '=' ∉ v.name := v.name_free '=' (by simp)
  obtain ⟨tail, htrim, htail, hcases⟩ :=
    trim_assignmentLine v.name_trimmed v.name_ne_nil v.trimmed_format
  obtain ⟨c, name, hname⟩ := List.exists_cons_of_ne_nil v.name_ne_nil
  have hc : c ≠ '[' := by
    rintro rfl
    exact v.name_free '[' (by simp) (by simp [hname])
  have hsplit : v.name ++ (" =".toList ++ tail) = c :: (name ++ (" =".toList ++ tail)) := by
    rw [hname, List.cons_append]
  have hnone : parseNv L (v.name ++ (" =".toList ++ tail)) "+=".toList = none := by
    rw [parseNv, strstr, cut_eq_none_iff.mpr
      (mt (plus_isInfix_iff (v.name_free '+' (by simp)) hcases).mp v.operator), Option.map_none]
  have hsome := parseNv_assignmentLine (L := L) v.name_trimmed v.name_ne_nil hequals tail
  rw [htail, hsplit] at hsome
  rw [hsplit] at hnone
  exact (classify_line v.textOfLine (htrim.trans hsplit) hc).2 _ hnone hsome

/-- A variable that is not bound yet gets its values. -/
theorem Variable.kbsymtabSet (v : Variable) {st : Symtab} (h : kbsymtabGet st v.name = none) :
    kbsymtabSet L .all false st v.name (kbutilStrarrayFormat v.values) =
      (true, st.insert v.name v.values) := by
  have hbase := normaliseKey_of_plain (v.name_free '[' (by simp))
  have haccepts : Accepts .all false v.name :=
    accepts_all (.inr (by rw [hbase]; exact detectKeyclass_ne_ro v.name_head))
  rw [kbsymtabSet_accepted haccepts v.parseValue, storeValue_unbound h, hbase]
  rfl

theorem reads_variable (v : Variable) {i : ℕ} {node : Kbnode} (hcur : IsCurrent s i node)
    (h : kbsymtabGet node.symtab v.name = none) : ReadsTo L fname s [v.text] { s with
      dst := s.dst.set i (some { node with symtab := node.symtab.insert v.name v.values })
      lc := s.lc + 1 } := by
  refine ReadsTo.single ?_
  have hassign := hcur.nextLine.assign_some (f := fun st => some
    (Kubeka.kbsymtabSet L .all false st v.name (kbutilStrarrayFormat v.values)))
    (congrArg some (v.kbsymtabSet h))
  simp only [readLine, v.classify, hassign, if_true]

/-! ### Sections -/

/-- The table with the variables of a section. -/
def bindAll (st : Symtab) (vars : List Entry) : Symtab :=
  vars.foldl (fun st e => st.insert e.name e.var.values) st

theorem bindAll_get {vars : List Entry} (h : (vars.map Entry.name).Nodup) (st : Symtab)
    (key : CStr) : kbsymtabGet (bindAll st vars) key =
      ((vars.find? fun e => e.name = key).map fun e => e.var.values).or (kbsymtabGet st key) := by
  induction vars generalizing st with
  | nil => rfl
  | cons e vars ih =>
    obtain ⟨hnew, hrest⟩ := List.nodup_cons.mp h
    have hbind : bindAll st (e :: vars) = bindAll (st.insert e.name e.var.values) vars := rfl
    rw [hbind, ih hrest, kbsymtabGet_insert]
    by_cases hkey : e.name = key
    · have hnone : vars.find? (fun w => w.name = key) = none := by
        refine List.find?_eq_none.mpr fun w hw hwkey => hnew ?_
        rw [hkey, ← of_decide_eq_true hwkey]
        exact List.mem_map_of_mem hw
      simp [hnone, hkey]
    · simp [hkey, Ne.symm hkey]

theorem reads_vars {vars : List Entry} {i : ℕ} {node : Kbnode} (hcur : IsCurrent s i node)
    (hnodup : (vars.map Entry.name).Nodup)
    (hnew : ∀ e ∈ vars, kbsymtabGet node.symtab e.name = none) :
    ReadsTo L fname s (varLines vars) { s with
      dst := s.dst.set i (some { node with symtab := bindAll node.symtab vars })
      lc := s.lc + (varLines vars).length } := by
  induction vars generalizing s node with
  | nil =>
    obtain ⟨hlt, heq⟩ := List.getElem?_eq_some_iff.mp hcur.node
    have hself : s.dst.set i (some node) = s.dst := by rw [← heq, List.set_getElem_self]
    simp only [bindAll, List.foldl_nil, hself]
    rfl
  | cons e vars ih =>
    obtain ⟨hname, hrest⟩ := List.nodup_cons.mp hnodup
    obtain ⟨he, hvars⟩ := List.forall_mem_cons.mp hnew
    have hfillers := reads_fillers (L := L) fname e.fillers s
    have hline : ReadsTo L fname { s with lc := s.lc + e.fillers.length } [e.var.text] _ :=
      reads_variable e.var ⟨hcur.current, hcur.node⟩ he
    have hbelow : ReadsTo L fname { s with
        dst := s.dst.set i (some { node with symtab := node.symtab.insert e.name e.var.values })
        lc := s.lc + e.fillers.length + 1 } (varLines vars) _ :=
      ih ⟨hcur.current, hcur.getElem?_set _⟩ hrest fun w hw => by
        have hne : w.name ≠ e.name := fun heq => hname (heq ▸ List.mem_map_of_mem hw)
        rw [kbsymtabGet_insert, if_neg hne]
        exact hvars w hw
    have hlines : varLines (e :: vars) =
        e.fillers.map Filler.text ++ [e.var.text] ++ varLines vars := by simp [varLines]
    have hcount : s.lc + (varLines (e :: vars)).length =
        s.lc + e.fillers.length + 1 + (varLines vars).length := by
      simp only [hlines, List.length_append, List.length_map, List.length_singleton]
      omega
    rw [hcount, hlines]
    simpa [List.set_set, bindAll] using (hfillers.append hline).append hbelow

theorem originVars_get (vs : List CStr) (line : ℕ) (key : CStr) :
    kbsymtabGet (originVars vs line) key = if key = kbnodeKeyLine then some [Nat.toDigits 10 line]
      else if key = kbnodeKeyFname then some vs else none := by
  rw [originVars, kbsymtabGet_insert, kbsymtabGet_insert]
  rfl

/-- Names of variables are not those of the origin. -/
theorem Entry.ne_origin (e : Entry) : e.name ≠ kbnodeKeyLine ∧ e.name ≠ kbnodeKeyFname := by
  constructor
  all_goals
    intro heq
    exact e.var.name_head (by rw [← Entry.name, heq]; rfl)

theorem Section.isRead {vs : List CStr} (hfname : parseValue L .all fname = some vs) (sec : Section)
    (line : ℕ) : sec.IsRead L fname line ⟨sec.type, bindAll (originVars vs line) sec.vars⟩ := by
  have horigin {key : CStr} (hkey : key = kbnodeKeyFname ∨ key = kbnodeKeyLine) :
      sec.vars.find? (fun e => e.name = key) = none := by
    refine List.find?_eq_none.mpr fun e _ he => ?_
    have hname := of_decide_eq_true he
    rcases hkey with rfl | rfl
    · exact e.ne_origin.2 hname
    · exact e.ne_origin.1 hname
  refine ⟨rfl, ?_, ?_, fun key hkf hkl => ?_⟩
  · rw [bindAll_get sec.distinct, horigin (.inl rfl), originVars_get, if_neg (by decide), if_pos rfl,
      hfname]
    rfl
  · rw [bindAll_get sec.distinct, horigin (.inr rfl), originVars_get, if_pos rfl]
    rfl
  · rw [bindAll_get sec.distinct, originVars_get, if_neg hkl, if_neg hkf, Option.or_none]

/-- A section is read as one node more. -/
theorem reads_section {vs : List CStr} (hfname : parseValue L .all fname = some vs) (sec : Section)
    (s : Reader) : ReadsTo L fname s sec.lines { s with
      dst := s.dst ++ [some ⟨sec.type,
        bindAll (originVars vs (s.lc + sec.fillers.length + 1)) sec.vars⟩]
      current := some s.dst.length
      lc := s.lc + sec.lines.length
      nnodes := s.nnodes + 1 } := by
  have hfillers := reads_fillers (L := L) fname sec.fillers s
  have hheader : ReadsTo L fname { s with lc := s.lc + sec.fillers.length }
      [headerLine sec.type] _ := reads_header hfname sec.type _
  have hvars : ReadsTo L fname { s with
      dst := s.dst ++ [some ⟨sec.type, originVars vs (s.lc + sec.fillers.length + 1)⟩]
      current := some s.dst.length
      lc := s.lc + sec.fillers.length + 1
      nnodes := s.nnodes + 1 } (varLines sec.vars) _ :=
    reads_vars ⟨rfl, List.getElem?_concat_length⟩ sec.distinct fun e _ => by
      rw [originVars_get, if_neg e.ne_origin.1, if_neg e.ne_origin.2]
  have hlines : sec.lines =
      sec.fillers.map Filler.text ++ [headerLine sec.type] ++ varLines sec.vars := by
    simp [Section.lines]
  have hcount : s.lc + sec.lines.length =
      s.lc + sec.fillers.length + 1 + (varLines sec.vars).length := by
    simp only [hlines, List.length_append, List.length_map, List.length_singleton]
    omega
  rw [hcount, hlines]
  simpa using (hfillers.append hheader).append hvars

/-- What the sections of a file make of a reader. -/
structure Delivers (L : Libds) (fname : CStr) (s : Reader) (sections : List Section)
    (t : Reader) : Prop where
  nodes : ∃ ns, t.dst = s.dst ++ ns.map some ∧ ReadAs L fname s.lc sections ns
  nnodes : t.nnodes = s.nnodes + sections.length
  nerrors : t.nerrors = s.nerrors
  nwarnings : t.nwarnings = s.nwarnings

theorem reads_sections {vs : List CStr} (hfname : parseValue L .all fname = some vs)
    (sections : List Section) (s : Reader) :
    ∃ t, ReadsTo L fname s (sections.flatMap Section.lines) t ∧ Delivers L fname s sections t := by
  induction sections generalizing s with
  | nil => exact ⟨s, rfl, ⟨[], by simp, .nil _⟩, rfl, rfl, rfl⟩
  | cons sec sections ih =>
    have hfirst := reads_section hfname sec s
    obtain ⟨t, hrest, ⟨ns, hdst, hns⟩, hnnodes, hnerrors, hnwarnings⟩ := ih { s with
      dst := s.dst ++ [some ⟨sec.type,
        bindAll (originVars vs (s.lc + sec.fillers.length + 1)) sec.vars⟩]
      current := some s.dst.length
      lc := s.lc + sec.lines.length
      nnodes := s.nnodes + 1 }
    refine ⟨t, hfirst.append hrest, ⟨_ :: ns, ?_, .cons (sec.isRead hfname _) hns⟩, ?_, hnerrors,
      hnwarnings⟩
    · rw [hdst]
      simp
    · rw [hnnodes, List.length_cons]
      simp only
      omega

/-! ### Whole files -/

theorem Entry.fits_lines (e : Entry) : ∀ line ∈ e.fillers.map Filler.text ++ [e.var.text],
    Fits line := by
  intro line hline
  rcases List.mem_append.mp hline with hline | hline
  · obtain ⟨f, -, rfl⟩ := List.mem_map.mp hline
    exact f.fits_text
  · rw [List.mem_singleton.mp hline]
    exact e.var.fits_text

theorem Section.fits_lines (sec : Section) : ∀ line ∈ sec.lines, Fits line := by
  intro line hline
  rcases List.mem_append.mp hline with hline | hline
  · obtain ⟨f, -, rfl⟩ := List.mem_map.mp hline
    exact f.fits_text
  · rcases List.mem_cons.mp hline with rfl | hline
    · exact fits_headerLine sec.type
    · obtain ⟨e, -, hline⟩ := List.mem_flatMap.mp hline
      exact e.fits_lines line hline

/-- `HANDLES = [ a ,b ]` -/
def handlesVariable : Variable where
  name := kbnodeKeyHandles
  values := ["a".toList, "b".toList]
  name_ne_nil := by decide
  name_trimmed := by decide
  name_head := by decide
  name_free := by simp [kbnodeKeyHandles]
  trimmed := by decide
  free := by simp
  shape := .inl (by decide)
  operator := by decide
  fits := by decide

/-- A line that says what follows. -/
def jobComment : Filler where
  blanks := [' ']
  comment := "# a job".toList
  blank := by simp
  head := by simp
  free := by simp
  fits := by decide

def emptyLine : Filler where
  blanks := []
  comment := []
  blank := by simp
  head := by simp
  free := by simp
  fits := by decide

/-- A job behind a comment. -/
def handlesSection : Section where
  fillers := [jobComment]
  type := .job
  vars := [⟨[emptyLine], handlesVariable⟩]
  distinct := by simp

example : writtenText [handlesSection] [] =
    " # a job\n[job]\n\nHANDLES = [ a ,b ]\n".toList := by decide +kernel

end Kubeka
