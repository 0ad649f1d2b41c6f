import Kubeka.Assign.Arrays
import Kubeka.Library.Lists
import Kubeka.Read.Lines

/-!
# Nodes that the reader has delivered

Every exit of `kbnode_read_file` but one forgets the current node before the
cleanup deletes it. The exit for a header without a closing bracket keeps it,
so the last node delivered is deleted there. A node whose file name cannot be
stored is deleted by `node_new` and delivered nevertheless. Apart from these
two, and from an append behind the end of an array, after which nothing is
defined, `dst` receives the nodes of the accepted headers and keeps them.
-/

namespace Kubeka

variable {L : Libds} {fname : CStr} {old : List (Option Kbnode)}

/-- The type of the node that a header line makes. -/
def acceptedHeader (L : Libds) (buffer : CStr) : Option KbnodeType :=
  match classify L buffer with
  | .header typename => nodeTypeType typename
  | _ => none

/-- The accepted headers among some lines, each with its line number. -/
def acceptedHeaders (L : Libds) (lines : List CStr) : List (ℕ × KbnodeType) :=
  (lines.zipIdx 1).filterMap fun line => (acceptedHeader L line.1).map fun type => (line.2, type)

/-- The node that was created for a header, whatever has been assigned to it. -/
structure HeaderNode (L : Libds) (fname : CStr) (header : ℕ × KbnodeType) (node : Kbnode) :
    Prop where
  type : node.type = header.2
  origin : ∃ st, nodeNewSymtab L .all .all fname header.1 = some st ∧
    ∀ k, k.head? = some '_' → kbsymtabGet node.symtab k = kbsymtabGet st k
  plain : PlainKeys node.symtab

/-- The old nodes are followed by those of the accepted headers before the stop, all of them alive. -/
structure Delivered (L : Libds) (fname : CStr) (old : List (Option Kbnode)) (lines : List CStr)
    (r : ReadFile) : Prop where
  defined : r.defined = true
  dst : ∃ created, r.dst = old ++ created.map some ∧
    List.Forall₂ (HeaderNode L fname) (acceptedHeaders L (lines.take r.lc)) created

/-- An append to this key makes an array and goes on behind its end. -/
def AppendsBehind (st : Symtab) (key : CStr) : Prop :=
  detectKeyclass (normaliseKey key) ≠ .ro ∧
    ∃ i, detectKeytype .all key = .index i ∧ i ≠ 0 ∧ nexisting st key = 0

/-- An append to this key makes an array in the current node and goes on behind its end. -/
def Reader.AppendsBehind (s : Reader) (key : CStr) : Prop :=
  ∃ i node, IsCurrent s i node ∧ Kubeka.AppendsBehind node.symtab key

/-- A line to which the reader comes with the state `s`, after the lines `before`, and that leads to
no deletion and no undefined append. -/
structure Harmless (L : Libds) (fname : CStr) (before : List CStr) (s : Reader) (buffer : CStr) :
    Prop where
  mangled : classify L buffer = .mangled → acceptedHeaders L before = []
  header : acceptedHeader L buffer ≠ none → parseValue L .all fname ≠ none
  append : ∀ key value, classify L buffer = .append key value → ¬ s.AppendsBehind key

/-! ### New nodes -/

theorem acceptedHeaders_concat (lines : List CStr) (buffer : CStr) :
    acceptedHeaders L (lines ++ [buffer]) = acceptedHeaders L lines ++
      ((acceptedHeader L buffer).map fun type => (lines.length + 1, type)).toList := by
  rw [acceptedHeaders, List.zipIdx_append, List.filterMap_append, acceptedHeaders]
  cases h : acceptedHeader L buffer <;> simp [h, add_comm]

theorem acceptedHeaders_concat_none {lines : List CStr} {buffer : CStr}
    (h : acceptedHeader L buffer = none) :
    acceptedHeaders L (lines ++ [buffer]) = acceptedHeaders L lines := by
  rw [acceptedHeaders_concat, h, Option.map_none, Option.toList_none, List.append_nil]

/-- With memory, a variable that is not bound is created when its value can be parsed. -/
theorem kbsymtabSet_unbound {st : Symtab} {key : CStr} (hkey : '[' ∉ key)
    (hget : kbsymtabGet st key = none) (value : CStr) :
    kbsymtabSet L .all true st key value = match parseValue L .all value with
      | none => (false, st)
      | some varray => (true, st.insert key varray) := by
  have hname := normaliseKey_of_plain hkey
  have halloc : Alloc.all .keytype = true := rfl
  have htype := detectKeytype_plain halloc hkey
  cases hparse : parseValue L .all value with
  | none => simp [kbsymtabSet, hname, htype, hparse, Alloc.all]
  | some varray => simp [kbsymtabSet, hname, htype, hparse, hget, Alloc.all]

theorem parseValue_toDigits (n : ℕ) :
    parseValue L .all (Nat.toDigits 10 n) = some [Nat.toDigits 10 n] := by
  cases hdigits : Nat.toDigits 10 n with
  | nil => exact absurd hdigits Nat.toDigits_ne_nil
  | cons c cs =>
    have hc : c.isDigit := Nat.isDigit_of_mem_toDigits (b := 10) (n := n) (by decide) (by decide)
      (by simp [hdigits])
    have hne : c ≠ '[' := by
      rintro rfl
      simp at hc
    simp [parseValue, Alloc.all, hne]

/-- With memory, the variables of a new node are its file name and its line. -/
theorem nodeNewSymtab_of_parse {values : List CStr} (h : parseValue L .all fname = some values)
    (line : ℕ) : nodeNewSymtab L .all .all fname line =
      some (((∅ : Symtab).insert kbnodeKeyFname values).insert kbnodeKeyLine
        [Nat.toDigits 10 line]) := by
  have hne : kbnodeKeyLine ≠ kbnodeKeyFname := by decide
  have hnone : kbsymtabGet ((∅ : Symtab).insert kbnodeKeyFname values) kbnodeKeyLine = none := by
    rw [kbsymtabGet_insert, if_neg hne]
    rfl
  rw [nodeNewSymtab, kbsymtabSet_unbound (by decide) rfl, h]
  simp only [kbsymtabSet_unbound (by decide : '[' ∉ kbnodeKeyLine) hnone, parseValue_toDigits]

/-- With memory, the only value of a new node that can be refused is the file name. -/
theorem nodeNewSymtab_eq_none (line : ℕ) :
    nodeNewSymtab L .all .all fname line = none ↔ parseValue L .all fname = none := by
  cases hparse : parseValue L .all fname with
  | none =>
    rw [nodeNewSymtab, kbsymtabSet_unbound (by decide) rfl, hparse]
    simp
  | some values => simp [nodeNewSymtab_of_parse hparse]

/-- With memory, an append has a result unless it goes behind the end of an array. -/
theorem kbsymtabAppend_none_iff {st : Symtab} {key value : CStr} :
    kbsymtabAppend .all false st key value = none ↔ AppendsBehind st key := by
  have haccepts : Accepts .all false key ↔ detectKeyclass (normaliseKey key) ≠ .ro :=
    ⟨fun h => h.writable.resolve_left Bool.false_ne_true, fun h => accepts_all (.inr h)⟩
  rw [kbsymtabAppend_eq_none_iff, haccepts, AppendsBehind]
  simp [Alloc.all]

/-! ### The invariant of the reader -/

/-- After the lines `before`: their nodes have been appended, and the last one is the current. -/
structure ReaderInv (L : Libds) (fname : CStr) (old : List (Option Kbnode)) (before : List CStr)
    (created : List Kbnode) (s : Reader) : Prop where
  dst : s.dst = old ++ created.map some
  headers : List.Forall₂ (HeaderNode L fname) (acceptedHeaders L before) created
  current : s.current = if created = [] then none else some (old.length + (created.length - 1))
  lc : s.lc = before.length
  nerrors : s.nerrors = 0

theorem readerInv_start : ReaderInv L fname old [] [] (.start old) where
  dst := by simp [Reader.start]
  headers := .nil
  current := rfl
  lc := rfl
  nerrors := rfl

/-- The cleanup without a current node leaves `dst` as it is. -/
theorem finish_of_no_current {s : Reader} (h : s.nerrors = 0 ∨ s.current = none) :
    s.finish.dst = s.dst ∧ s.finish.lc = s.lc ∧ s.finish.defined = true := by
  unfold Reader.finish
  by_cases herr : s.nerrors = 0
  · simp [herr]
  · simp [herr, h.resolve_left herr]

/-- A read-only variable is not among those that a file assigns. -/
theorem HeaderNode.assign {header : ℕ × KbnodeType} {node : Kbnode}
    (h : HeaderNode L fname header node) {o : Assignment} {r : Bool × Symtab}
    (hr : o.apply L node.symtab = some r) :
    HeaderNode L fname header { node with symtab := r.2 } where
  type := h.type
  origin := by
    obtain ⟨st, hst, hro⟩ := h.origin
    exact ⟨st, hst, fun k hk => (Assignment.get_apply_of_ro hr h.plain hk).trans (hro k hk)⟩
  plain := Assignment.plainKeys_apply hr h.plain

/-- How a line that deletes nothing leads on: to the next one with the invariant, or to the cleanup
without a current node. -/
inductive Leads (L : Libds) (fname : CStr) (old : List (Option Kbnode)) (lines : List CStr) :
    Read → Prop
  | next {s : Reader} {created : List Kbnode} (inv : ReaderInv L fname old lines created s) :
      Leads L fname old lines (.next s)
  | cleanup {s : Reader} {created : List Kbnode} (dst : s.dst = old ++ created.map some)
      (headers : List.Forall₂ (HeaderNode L fname) (acceptedHeaders L lines) created)
      (current : s.current = none) (lc : s.lc = lines.length) : Leads L fname old lines (.cleanup s)

variable {before : List CStr} {buffer : CStr} {created : List Kbnode} {s : Reader}

/-- Once a header was accepted, the current node is the last one of `dst`. -/
theorem ReaderInv.current_last (h : ReaderInv L fname old before created s) (hne : created ≠ []) :
    ∃ node, created[created.length - 1]? = some node ∧
      IsCurrent s (old.length + (created.length - 1)) node := by
  have hpos := List.length_pos_iff.mpr hne
  obtain ⟨node, hnode⟩ : ∃ node, created[created.length - 1]? = some node :=
    ⟨_, List.getElem?_eq_getElem (by omega)⟩
  refine ⟨node, hnode, h.current.trans (if_neg hne), ?_⟩
  rw [h.dst, List.getElem?_append_right (by omega), Nat.add_sub_cancel_left, List.getElem?_map,
    hnode, Option.map_some]

/-- An assignment changes the current node, or there is none. -/
theorem ReaderInv.assign (h : ReaderInv L fname old before created s)
    (hline : acceptedHeader L buffer = none) (o : Assignment)
    (hdefined : ∀ i node, IsCurrent s i node → o.apply L node.symtab ≠ none) :
    Leads L fname old (before ++ [buffer])
      (Reader.assign { s with lc := s.lc + 1 } fun st => o.apply L st) := by
  have hlc : s.lc + 1 = (before ++ [buffer]).length := by simp [h.lc]
  have hheaders : acceptedHeaders L (before ++ [buffer]) = acceptedHeaders L before :=
    acceptedHeaders_concat_none hline
  by_cases hcreated : created = []
  · have hcur : s.current = none := by rw [h.current, if_pos hcreated]
    simp only [Reader.assign, hcur]
    exact .cleanup h.dst (hheaders ▸ h.headers) rfl hlc
  · obtain ⟨node, hnode, hcur⟩ := h.current_last hcreated
    have hset (n : Kbnode) : s.dst.set (old.length + (created.length - 1)) (some n) =
        old ++ (created.set (created.length - 1) n).map some := by
      rw [h.dst, List.set_append_right _ _ (by omega), Nat.add_sub_cancel_left, List.map_set]
    obtain ⟨r, hr⟩ := Option.ne_none_iff_exists'.mp (hdefined _ node hcur)
    have hrel := Lists.forall₂_set h.headers hnode fun _ ha => ha.assign hr
    rw [← hheaders] at hrel
    simp only [hcur.nextLine.assign_some (f := fun st => o.apply L st) hr, hset]
    split
    · refine .next ⟨rfl, hrel, ?_, hlc, h.nerrors⟩
      rw [List.length_set, if_neg (mt (List.set_eq_nil_iff _ _).mp hcreated)]
      exact hcur.current
    · exact .cleanup rfl hrel rfl hlc

/-- A harmless line. -/
theorem ReaderInv.leads (h : ReaderInv L fname old before created s)
    (hline : Harmless L fname before s buffer) :
    Leads L fname old (before ++ [buffer]) (readLine L fname s buffer) := by
  have hlc : s.lc + 1 = (before ++ [buffer]).length := by simp [h.lc]
  have hsame (hno : acceptedHeader L buffer = none) :
      List.Forall₂ (HeaderNode L fname) (acceptedHeaders L (before ++ [buffer])) created := by
    rw [acceptedHeaders_concat_none hno]
    exact h.headers
  unfold readLine
  cases hkind : classify L buffer with
  | carriageReturn => exact .cleanup h.dst (hsame (by simp [acceptedHeader, hkind])) rfl hlc
  | unterminated => exact .cleanup h.dst (hsame (by simp [acceptedHeader, hkind])) rfl hlc
  | blank =>
    exact .next ⟨h.dst, hsame (by simp [acceptedHeader, hkind]), h.current, hlc, h.nerrors⟩
  | unrecognised =>
    exact .next ⟨h.dst, hsame (by simp [acceptedHeader, hkind]), h.current, hlc, h.nerrors⟩
  | mangled =>
    have hnone : created = [] := by
      have hheaders := h.headers
      rw [hline.mangled hkind] at hheaders
      cases hheaders
      rfl
    refine .cleanup h.dst (hsame (by simp [acceptedHeader, hkind])) ?_ hlc
    exact h.current.trans (if_pos hnone)
  | append name value =>
    refine h.assign (by simp [acceptedHeader, hkind]) (.append .all name value) ?_
    intro i node hcur hnone
    exact hline.append name value hkind ⟨i, node, hcur, kbsymtabAppend_none_iff.mp hnone⟩
  | assign name value =>
    refine h.assign (by simp [acceptedHeader, hkind]) (.set .all name value) ?_
    simp [Assignment.apply]
  | header typename =>
    have haccept : acceptedHeader L buffer = nodeTypeType typename := by simp [acceptedHeader, hkind]
    cases htype : nodeTypeType typename with
    | none =>
      simp only [nodeNew, htype, Option.map_none]
      exact .cleanup h.dst (hsame (by rw [haccept, htype])) rfl hlc
    | some type =>
      have hparse := hline.header (by simp [haccept, htype])
      obtain ⟨st, hst⟩ := Option.ne_none_iff_exists'.mp
        (mt (nodeNewSymtab_eq_none (s.lc + 1)).mp hparse)
      simp only [nodeNew, htype, hst, Option.map_some]
      refine @Leads.next _ _ _ _ _ (created ++ [{ type := type, symtab := st }])
        ⟨by simp [h.dst], ?_, by simp [h.dst], hlc, h.nerrors⟩
      rw [acceptedHeaders_concat, haccept, htype]
      refine List.rel_append h.headers (.cons ⟨rfl, ⟨st, ?_, fun _ _ => rfl⟩, ?_⟩ .nil)
      · rw [← h.lc, hst]
      · exact plainKeys_nodeNewSymtab hst

/-! ### Deleted nodes -/

/-- A pointer behind the first `n` dangles. -/
def Dangles (n : ℕ) (dst : List (Option Kbnode)) : Prop := ∃ j, n ≤ j ∧ dst[j]? = some none

theorem Dangles.set {n i : ℕ} {dst : List (Option Kbnode)} (h : Dangles n dst) {node : Kbnode}
    (hi : dst[i]? = some (some node)) (e : Option Kbnode) : Dangles n (dst.set i e) := by
  obtain ⟨j, hj, hget⟩ := h
  refine ⟨j, hj, ?_⟩
  have hne : i ≠ j := by
    rintro rfl
    simp [hi] at hget
  rw [List.getElem?_set_ne hne, hget]

theorem Dangles.append {n : ℕ} {dst : List (Option Kbnode)} (h : Dangles n dst)
    (e : List (Option Kbnode)) : Dangles n (dst ++ e) := by
  obtain ⟨j, hj, hget⟩ := h
  refine ⟨j, hj, ?_⟩
  rw [List.getElem?_append_left (List.getElem?_eq_some_iff.mp hget).1, hget]

theorem Dangles.finish {n : ℕ} (h : Dangles n s.dst) : Dangles n s.finish.dst := by
  unfold Reader.finish
  dsimp only
  split
  · exact h
  · split
    · exact h
    · split
      · next hget => exact h.set hget none
      · exact h

theorem Dangles.after_assign {n : ℕ} (h : Dangles n s.dst) (f : Symtab → Option (Bool × Symtab)) :
    Dangles n (s.assign f).state.dst := by
  rcases assign_cases s f with hassign | hassign | ⟨i, node, r, hcur, hr⟩
  · rw [hassign]
    exact h
  · rw [hassign]
    exact h
  · rw [hcur.assign_some hr]
    split_ifs
    · exact h.set hcur.node _
    · exact h.set hcur.node _

theorem Dangles.after_line {n : ℕ} (h : Dangles n s.dst) (buffer : CStr) :
    Dangles n (readLine L fname s buffer).state.dst := by
  unfold readLine
  cases classify L buffer with
  | append name value => exact Dangles.after_assign (s := { s with lc := s.lc + 1 }) h _
  | assign name value => exact Dangles.after_assign (s := { s with lc := s.lc + 1 }) h _
  | header typename =>
    dsimp only
    cases nodeNew L fname (s.lc + 1) typename with
    | none => exact h
    | some node => exact h.append [node]
  | _ => exact h

/-- No further line and no cleanup takes a dangling pointer out of `dst`. -/
theorem Dangles.after_lines {n : ℕ} (h : Dangles n s.dst) (lines : List CStr) :
    Dangles n (readLines L fname s lines).result.dst := by
  induction lines generalizing s with
  | nil => exact h.finish
  | cons buffer lines ih =>
    have hline : Dangles n (readLine L fname s buffer).state.dst := h.after_line buffer
    rw [readLines]
    cases hread : readLine L fname s buffer with
    | next s' =>
      rw [hread] at hline
      exact ih hline
    | cleanup s' =>
      rw [hread] at hline
      exact hline.finish
    | undefined s' =>
      rw [hread] at hline
      exact hline.finish

theorem Dangles.not_delivered {lines : List CStr} {r : ReadFile} (h : Dangles old.length r.dst) :
    ¬ Delivered L fname old lines r := by
  rintro ⟨-, created, hdst, -⟩
  obtain ⟨j, hj, hget⟩ := h
  rw [hdst, List.getElem?_append_right hj, List.getElem?_map] at hget
  simp at hget

/-- A line that is not harmless leaves a dangling pointer, or nothing defined. -/
theorem ReaderInv.not_delivered (h : ReaderInv L fname old before created s)
    (hline : ¬ Harmless L fname before s buffer) (lines : List CStr) {all : List CStr} :
    ¬ Delivered L fname old all (readLines L fname s (buffer :: lines)).result := by
  have hcases : (classify L buffer = .mangled ∧ acceptedHeaders L before ≠ []) ∨
      (acceptedHeader L buffer ≠ none ∧ parseValue L .all fname = none) ∨
      ∃ key value, classify L buffer = .append key value ∧ s.AppendsBehind key := by
    by_contra hno
    rw [not_or, not_or] at hno
    refine hline ⟨fun hm => ?_, fun ha hp => hno.2.1 ⟨ha, hp⟩, fun key value hkind hbehind => ?_⟩
    · by_contra hne
      exact hno.1 ⟨hm, hne⟩
    · exact hno.2.2 ⟨key, value, hkind, hbehind⟩
  rw [readLines, readLine]
  rcases hcases with ⟨hmangled, hheaders⟩ | ⟨haccept, hparse⟩ | ⟨key, value, hkind, i, node, hcur, hb⟩
  · have hne : created ≠ [] := by
      rintro rfl
      exact hheaders (List.forall₂_nil_right_iff.mp h.headers)
    obtain ⟨node, -, hcur⟩ := h.current_last hne
    have herr : s.nerrors + 1 ≠ 0 := by omega
    refine Dangles.not_delivered ?_
    simp only [hmangled, Read.result, Reader.finish, if_neg herr, hcur.current, hcur.node]
    exact ⟨old.length + (created.length - 1), by omega, hcur.getElem?_set none⟩
  · cases hkind : classify L buffer with
    | header typename =>
      simp only [acceptedHeader, hkind] at haccept
      obtain ⟨type, htype⟩ := Option.ne_none_iff_exists'.mp haccept
      have hnone := (nodeNewSymtab_eq_none (s.lc + 1)).mpr hparse
      simp only [nodeNew, htype, hnone, Option.map_some, Option.map_none]
      refine (Dangles.after_lines ⟨s.dst.length, by simp [h.dst], ?_⟩ lines).not_delivered
      simp
    | _ => simp [acceptedHeader, hkind] at haccept
  · rintro ⟨hdefined, -⟩
    have hnone := hcur.nextLine.assign_none (f := fun st => kbsymtabAppend .all false st key value)
      (kbsymtabAppend_none_iff.mpr hb)
    simp [hkind, hnone, Read.result] at hdefined

/-! ### Whole files -/

/-- The reader comes to `buffer` after the lines `before`, with the state `s'`. -/
def ComesWith (L : Libds) (fname : CStr) (s : Reader) (lines before : List CStr) (s' : Reader)
    (buffer : CStr) : Prop :=
  ∃ after, lines = before ++ buffer :: after ∧ readLines L fname s before = .next s'

/-- The reader comes to `buffer` after the lines `before`. -/
def Comes (L : Libds) (fname : CStr) (s : Reader) (lines before : List CStr) (buffer : CStr) :
    Prop :=
  ∃ s', ComesWith L fname s lines before s' buffer

/-- The first line is come to, and the others from where it leads. -/
theorem forall_comesWith_cons {P : List CStr → Reader → CStr → Prop} {buffer : CStr}
    {lines : List CStr} :
    (∀ before' u b, ComesWith L fname s (buffer :: lines) before' u b → P before' u b) ↔
      P [] s buffer ∧ ∀ s', readLine L fname s buffer = .next s' →
        ∀ before' u b, ComesWith L fname s' lines before' u b → P (buffer :: before') u b := by
  constructor
  · refine fun h => ⟨h [] s buffer ⟨lines, rfl, rfl⟩, ?_⟩
    rintro s' hread before' u b ⟨after, hsplit, hrun⟩
    refine h _ u b ⟨after, by rw [hsplit]; rfl, ?_⟩
    rw [readLines, hread]
    exact hrun
  · rintro ⟨hfirst, hrest⟩ before' u b ⟨after, hsplit, hrun⟩
    cases before' with
    | nil =>
      obtain ⟨rfl, -⟩ := List.cons.inj hsplit
      obtain rfl := Read.next.inj hrun
      exact hfirst
    | cons b' before' =>
      obtain ⟨rfl, hsplit'⟩ := List.cons.inj hsplit
      cases hread : readLine L fname s buffer with
      | next s' =>
        rw [readLines, hread] at hrun
        exact hrest s' hread before' u b ⟨after, hsplit', hrun⟩
      | cleanup s' => simp [readLines, hread] at hrun
      | undefined s' => simp [readLines, hread] at hrun

/-- The lines still to be read decide what becomes of the nodes. -/
theorem ReaderInv.delivered_iff {lines : List CStr} (h : ReaderInv L fname old before created s) :
    Delivered L fname old (before ++ lines) (readLines L fname s lines).result ↔
      ∀ before' u buffer, ComesWith L fname s lines before' u buffer →
        Harmless L fname (before ++ before') u buffer := by
  induction lines generalizing before created s with
  | nil =>
    obtain ⟨hdst, hlc, hdef⟩ := finish_of_no_current (.inl h.nerrors)
    refine iff_of_true ⟨hdef, created, by rw [readLines, Read.result, hdst, h.dst], ?_⟩ ?_
    · rw [readLines, Read.result, hlc, h.lc, List.append_nil, List.take_length]
      exact h.headers
    · rintro before' u buffer ⟨after, hsplit, -⟩
      simp at hsplit
  | cons buffer lines ih =>
    have hsplit : before ++ buffer :: lines = (before ++ [buffer]) ++ lines := by simp
    rw [forall_comesWith_cons, List.append_nil]
    by_cases hline : Harmless L fname before s buffer
    · have hleads : Leads L fname old (before ++ [buffer]) (readLine L fname s buffer) :=
        h.leads hline
      rw [and_iff_right hline, readLines]
      cases hread : readLine L fname s buffer with
      | undefined s' =>
        rw [hread] at hleads
        cases hleads
      | cleanup s' =>
        rw [hread] at hleads
        cases hleads with
        | cleanup dst headers current lc =>
          obtain ⟨hdst, hlc, hdef⟩ := finish_of_no_current (.inr current)
          refine iff_of_true ⟨hdef, _, by rw [Read.result, hdst, dst], ?_⟩ (by simp)
          rw [Read.result, hlc, hsplit, lc, List.take_left]
          exact headers
      | next s' =>
        rw [hread] at hleads
        cases hleads with
        | next inv =>
          rw [hsplit, ih inv]
          simp only [List.append_assoc, List.singleton_append, Read.next.injEq, forall_eq']
    · exact iff_of_false (h.not_delivered hline lines) fun hall => hline hall.1

/-- On return `dst` is its old content followed by the live nodes of the accepted headers, exactly
when the reader comes to no header without a closing bracket after an accepted one, if its name
cannot be stored as a value, to no header of a known type, and to no append behind the end of an
array. -/
theorem kbnodeReadFile_delivered_iff (old : List (Option Kbnode))
    (fname : CStr) (content : Option CStr) :
    Delivered L fname old (fileLines (content.getD [])) (kbnodeReadFile L old fname content) ↔
      ∀ before s buffer,
        ComesWith L fname (.start old) (fileLines (content.getD [])) before s buffer →
          (classify L buffer = .mangled → acceptedHeaders L before = []) ∧
            (acceptedHeader L buffer ≠ none → parseValue L .all fname ≠ none) ∧
              ∀ key value, classify L buffer = .append key value → ¬ s.AppendsBehind key := by
  have hharmless (before : List CStr) (s : Reader) (buffer : CStr) :
      Harmless L fname before s buffer ↔
        (classify L buffer = .mangled → acceptedHeaders L before = []) ∧
          (acceptedHeader L buffer ≠ none → parseValue L .all fname ≠ none) ∧
            ∀ key value, classify L buffer = .append key value → ¬ s.AppendsBehind key :=
    ⟨fun h => ⟨h.mangled, h.header, h.append⟩, fun h => ⟨h.1, h.2.1, h.2.2⟩⟩
  simp only [← hharmless]
  cases content with
  | none =>
    refine iff_of_true ⟨rfl, [], by simp [kbnodeReadFile, Reader.finish, Reader.start], ?_⟩ ?_
    · exact .nil
    · rintro before s buffer ⟨after, hsplit, -⟩
      simp [fileLines, fileLines.go] at hsplit
  | some content =>
    have hiff : Delivered L fname old ([] ++ fileLines content)
        (readLines L fname (.start old) (fileLines content)).result ↔
          ∀ before u buffer, ComesWith L fname (.start old) (fileLines content) before u buffer →
            Harmless L fname ([] ++ before) u buffer :=
      readerInv_start.delivered_iff
    simpa [kbnodeReadFile] using hiff

/-- A node, and a header that is not closed. -/
def openHeader : CStr := "[job]\n[job\n".toList

/-- The node of the first line is deleted at the second one. -/
theorem openHeader_not_delivered : ¬ Delivered .ordered "f".toList [] (fileLines openHeader)
    (kbnodeReadFile .ordered [] "f".toList (some openHeader)) := by
  rintro ⟨-, created, hdst, -⟩
  have hdead : (kbnodeReadFile .ordered [] "f".toList (some openHeader)).dst.map
      Option.isSome = [false] := by decide +kernel
  rw [hdst] at hdead
  cases created <;> simp at hdead

end Kubeka
