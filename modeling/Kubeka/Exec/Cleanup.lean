import Kubeka.Model.Exec

/-!
# What the cleanup removes

Every way through `kbexec_shell` but the first error ends by giving `rm -rf`
and the directory name to a shell, in the parent and in a child that could not
start its command. The name is the user's directory as well as a temporary one,
and it is not quoted. Which paths such a line names is decided by the shell;
of a line without special characters it is known that its words are the paths.
-/

namespace Kubeka

/-- The characters that a shell splits an argument list at. -/
def isBlank (c : Char) : Bool := c = ' ' || c = '\t'

/-- A character that stands for itself in a line of a shell. -/
def isPlain (c : Char) : Bool := c.isAlphanum || c ∈ "/._-+,:@".toList || isBlank c

/-- The words of a text, split at blanks. -/
def shellWords (text : CStr) : List CStr := (text.splitOnP isBlank).filter (· ≠ [])

/-- The shell that `system` runs: the paths that a line gives to `rm`. -/
structure Sh where
  removes : CStr → List CStr
  removes_plain : ∀ text, text.all isPlain = true →
    (∀ word ∈ shellWords text, word.head? ≠ some '-') → removes (rmLine text) = shellWords text

/-- A shell to which no character is special. -/
def Sh.plain : Sh where
  removes line := shellWords (line.drop rmRf.length)
  removes_plain text _ _ := by rw [rmLine, List.drop_left]

/-- All that is removed by the lines of a call, in any of its processes, is the directory that its
`mkdtemp` made. -/
def RemovesOnlyMade (sh : Sh) (r : ExecRun) : Prop :=
  ∀ p, (p = r.parent ∨ r.child = some p) → ∀ line, .system line ∈ p.acts →
    ∀ path ∈ sh.removes line, r.made = some path

/-! ### The lines of a call -/

theorem forall_eq_none_iff {paths : List CStr} :
    (∀ path ∈ paths, none = some path) ↔ paths = [] := by
  simp [List.eq_nil_iff_forall_not_mem]

theorem forall_eq_made_iff {paths : List CStr} {temp : CStr} :
    (∀ path ∈ paths, some temp = some path) ↔ ∀ path ∈ paths, path = temp :=
  forall₂_congr fun path _ => by rw [Option.some.injEq, eq_comm]

theorem mem_cleanup {wdir line : CStr} {acts : List Act} {ret : CInt} (hacts : NoLine acts) :
    .system line ∈ (cleanup wdir acts ret).acts ↔ line = rmLine wdir := by
  simp only [cleanup, List.mem_append, List.mem_singleton, Act.system.injEq]
  exact or_iff_right (hacts line)

/-- The parent gives its directory to the shell, and no process gives it another. -/
theorem ForkedRun.removesOnlyMade_iff {sys : Syscalls} {wdir : CStr} {made : Option CStr}
    {forks starts : Prop} {r : ExecRun} (h : ForkedRun sys wdir made forks starts r) (sh : Sh) :
    RemovesOnlyMade sh r ↔ ∀ path ∈ sh.removes (rmLine wdir), made = some path := by
  obtain ⟨acts, ret, hacts, hparent⟩ := h.parent
  constructor
  · intro hr path hpath
    rw [← h.made]
    refine hr r.parent (.inl rfl) (rmLine wdir) ?_ path hpath
    rw [hparent]
    exact (mem_cleanup hacts).mpr rfl
  · rintro hr p hp line hline path hpath
    rw [h.made]
    suffices hrm : line = rmLine wdir by
      rw [hrm] at hpath
      exact hr path hpath
    rcases hp with rfl | hp
    · rw [hparent] at hline
      exact (mem_cleanup hacts).mp hline
    · by_cases hforks : forks
      · by_cases hstarts : starts
        · obtain ⟨acts', hacts', hchild⟩ := h.exits hforks hstarts
          obtain rfl := Option.some.inj (hp.symm.trans hchild)
          exact absurd hline (hacts' line)
        · obtain ⟨acts', hacts', hchild⟩ := h.returns hforks hstarts
          obtain rfl := Option.some.inj (hp.symm.trans hchild)
          exact (mem_cleanup hacts').mp hline
      · simp [h.noChild hforks] at hp

/-! ### Directories of plain text -/

theorem shellWords_eq_nil_iff {text : CStr} :
    shellWords text = [] ↔ ∀ c ∈ text, isBlank c = true := by
  induction text with
  | nil => simp [shellWords]
  | cons c text ih =>
    rw [shellWords] at ih ⊢
    rw [List.splitOnP_cons_eq_if_modifyHead]
    by_cases hc : isBlank c = true
    · rw [if_pos hc, List.filter_cons_of_neg (by simp), ih]
      simp [hc]
    · obtain ⟨first, rest, hsplit⟩ := List.exists_cons_of_ne_nil (List.splitOnP_ne_nil isBlank text)
      simp [hc, hsplit]

/-- The words of a text are the text alone, or nothing. -/
theorem forall_mem_shellWords_iff {text : CStr} : (∀ word ∈ shellWords text, word = text) ↔
    (∀ c ∈ text, isBlank c = true) ∨ ∀ c ∈ text, isBlank c = false := by
  constructor
  · intro h
    by_cases hnil : shellWords text = []
    · exact .inl (shellWords_eq_nil_iff.mp hnil)
    · obtain ⟨word, hword⟩ := List.exists_mem_of_ne_nil _ hnil
      obtain rfl := h word hword
      exact .inr (Text.of_mem_splitOnP (List.mem_filter.mp hword).1)
  · rintro (h | h) word hword
    · rw [shellWords_eq_nil_iff.mpr h] at hword
      simp at hword
    · rw [shellWords, List.splitOnP_eq_singleton h] at hword
      exact List.mem_singleton.mp (List.mem_filter.mp hword).1

theorem madeDir_eq_execDir {sys : Syscalls} {st : Symtab} {temp : CStr}
    (h : madeDir sys st = some temp) : temp = execDir sys st := by
  unfold madeDir at h
  split at h
  · next hmade =>
    rw [execDir, if_neg (by simp [hmade.1, hmade.2.1])]
    exact (Option.some.inj h).symm
  · simp at h

/-- With a plain directory name only a temporary directory without blanks in its name, or nothing
but blanks, is safe. -/
theorem kbexecShellRun_removesOnlyMade_plain (sh : Sh) (sys : Syscalls) {st : Symtab}
    (hsrc : kbnodeGetSrcdef st ≠ none) (command : CStr) (hplain : (execDir sys st).all isPlain = true)
    (hword : ∀ word ∈ shellWords (execDir sys st), word.head? ≠ some '-') :
    RemovesOnlyMade sh (kbexecShellRun sys st command) ↔
      (∀ c ∈ execDir sys st, isBlank c = true) ∨
      (madeDir sys st ≠ none ∧ ∀ c ∈ execDir sys st, isBlank c = false) := by
  rw [(kbexecShellRun_spec sys hsrc command).removesOnlyMade_iff sh, sh.removes_plain _ hplain hword]
  cases hmade : madeDir sys st with
  | none =>
    rw [forall_eq_none_iff, shellWords_eq_nil_iff]
    simp
  | some temp =>
    obtain rfl := madeDir_eq_execDir hmade
    rw [forall_eq_made_iff, forall_mem_shellWords_iff]
    simp

/-! ### All directories -/

theorem kbexecShellRun_noSrcdef_removesOnlyMade (sh : Sh) (sys : Syscalls) {st : Symtab}
    (hsrc : kbnodeGetSrcdef st = none) (command : CStr) :
    RemovesOnlyMade sh (kbexecShellRun sys st command) := by
  have hacts : (kbexecShellRun sys st command).parent.acts = [] := by simp [kbexecShellRun, hsrc]
  have hchild : (kbexecShellRun sys st command).child = none := by simp [kbexecShellRun, hsrc]
  rintro p (rfl | hp) line hline
  · simp [hacts] at hline
  · simp [hchild] at hp

theorem kbexecShellRun_removesOnlyMade_named (sh : Sh) (sys : Syscalls) (st : Symtab)
    (command : CStr) :
    let dir := kbnodeGetvalueFirst st kbnodeKeyWdir
    let temp := tempDir sys (kbnodeGetvalueFirst st kbnodeKeyId)
    let found := execIds sys (kbnodeGetvalueFirst st kbnodeKeyWuser) ≠ none
    RemovesOnlyMade sh (kbexecShellRun sys st command) ↔
      kbnodeGetSrcdef st = none ∨
      ((¬ found ∨ dir ≠ []) ∧ sh.removes (rmLine dir) = []) ∨
      (found ∧ dir = [] ∧ sys.mkdtemp = true ∧ ∀ path ∈ sh.removes (rmLine temp), path = temp) ∨
      (found ∧ dir = [] ∧ sys.mkdtemp = false ∧ sh.removes (rmLine temp) = []) := by
  intro dir temp found
  by_cases hsrc : kbnodeGetSrcdef st = none
  · exact iff_of_true (kbexecShellRun_noSrcdef_removesOnlyMade sh sys hsrc command) (.inl hsrc)
  · rw [(kbexecShellRun_spec sys hsrc command).removesOnlyMade_iff sh, or_iff_right hsrc]
    by_cases hfound : found
    · by_cases hdir : dir = []
      · have hexec : execDir sys st = temp := if_neg (by simp [hdir, hfound, dir, found])
        cases hmk : sys.mkdtemp with
        | false =>
          have hmade : madeDir sys st = none := if_neg (by simp [hmk])
          rw [hexec, hmade, forall_eq_none_iff]
          simp [hfound, hdir]
        | true =>
          have hmade : madeDir sys st = some temp := if_pos ⟨hfound, hdir, hmk⟩
          rw [hexec, hmade, forall_eq_made_iff]
          simp [hfound, hdir]
      · have hexec : execDir sys st = dir := if_pos (.inr hdir)
        have hmade : madeDir sys st = none := if_neg fun h => hdir h.2.1
        rw [hexec, hmade, forall_eq_none_iff]
        simp [hdir]
    · have hexec : execDir sys st = dir := if_pos (.inl (not_not.mp hfound))
      have hmade : madeDir sys st = none := if_neg fun h => hfound h.1
      rw [hexec, hmade, forall_eq_none_iff]
      simp [hfound]

/-- Only what the call made is removed exactly when no line is given to the shell, or the line with
the configured DIRECTORY names nothing, or the line with the name of a temporary directory names
nothing else, and nothing at all when that directory was not made. For a plain directory name this
is: it is nothing but blanks, or it was made and has no blank. -/
theorem kbexecShellRun_removesOnlyMade_iff (sh : Sh) (sys : Syscalls) (st : Symtab)
    (command : CStr) :
    let dir := kbnodeGetvalueFirst st kbnodeKeyWdir
    let temp := tempDir sys (kbnodeGetvalueFirst st kbnodeKeyId)
    let found := execIds sys (kbnodeGetvalueFirst st kbnodeKeyWuser) ≠ none
    (RemovesOnlyMade sh (kbexecShellRun sys st command) ↔
      kbnodeGetSrcdef st = none ∨
      ((¬ found ∨ dir ≠ []) ∧ sh.removes (rmLine dir) = []) ∨
      (found ∧ dir = [] ∧ sys.mkdtemp = true ∧ ∀ path ∈ sh.removes (rmLine temp), path = temp) ∨
      (found ∧ dir = [] ∧ sys.mkdtemp = false ∧ sh.removes (rmLine temp) = [])) ∧
    (kbnodeGetSrcdef st ≠ none → (execDir sys st).all isPlain = true →
      (∀ word ∈ shellWords (execDir sys st), word.head? ≠ some '-') →
      (RemovesOnlyMade sh (kbexecShellRun sys st command) ↔
        (∀ c ∈ execDir sys st, isBlank c = true) ∨
        (madeDir sys st ≠ none ∧ ∀ c ∈ execDir sys st, isBlank c = false))) :=
  ⟨kbexecShellRun_removesOnlyMade_named sh sys st command,
    fun hsrc => kbexecShellRun_removesOnlyMade_plain sh sys hsrc command⟩

/-- A node without DIRECTORY. -/
def undirected : Symtab :=
  symtabOf [(kbnodeKeyId, ["n".toList]), (kbnodeKeyFname, ["f".toList]), (kbnodeKeyLine, ["1".toList])]

theorem undirected_removesOnlyMade :
    RemovesOnlyMade Sh.plain (kbexecShellRun allSucceed undirected "true".toList) := by
  have hsrc : kbnodeGetSrcdef undirected ≠ none := by decide +kernel
  have hplain : (execDir allSucceed undirected).all isPlain = true := by decide +kernel
  have hword : ∀ word ∈ shellWords (execDir allSucceed undirected), word.head? ≠ some '-' := by
    decide +kernel
  have hblank : (execDir allSucceed undirected).all (fun c => isBlank c = false) = true := by
    decide +kernel
  refine ((kbexecShellRun_removesOnlyMade_iff Sh.plain allSucceed undirected "true".toList).2 hsrc
    hplain hword).mpr (.inr ⟨by decide +kernel, fun c hc => ?_⟩)
  exact of_decide_eq_true (List.all_eq_true.mp hblank c hc)

def configuredDir : Symtab :=
  symtabOf [(kbnodeKeyId, ["n".toList]), (kbnodeKeyFname, ["f".toList]),
    (kbnodeKeyLine, ["1".toList]), (kbnodeKeyWdir, ["/srv/data".toList])]

/-- A command that succeeds in the configured directory `/srv/data` loses the directory. -/
theorem configuredDir_removed : (kbexecShellRun allSucceed configuredDir "true".toList).made = none ∧
    (kbexecShellRun allSucceed configuredDir "true".toList).ret = 0 ∧
    ¬ RemovesOnlyMade Sh.plain (kbexecShellRun allSucceed configuredDir "true".toList) := by
  have hsrc : kbnodeGetSrcdef configuredDir ≠ none := by decide +kernel
  have hspec := kbexecShellRun_spec allSucceed hsrc "true".toList
  refine ⟨by decide +kernel, by decide +kernel, ?_⟩
  rw [hspec.removesOnlyMade_iff]
  decide +kernel

end Kubeka
