import Kubeka.Config.Gate
import Kubeka.Paths.Walk
import Kubeka.Read.Concat
import Mathlib.Data.List.Duplicate

/-!
# A file that is found twice

Nothing keeps the paths apart: with a path below another one, or with the
default path given once more, the same file is found twice and read twice. Its
nodes then meet themselves in the set, and are counted as duplicates, so that
nothing is launched.
-/

namespace Kubeka

open Fuel

variable {L : Libds} {fname : CStr}

/-- A file that is read without errors is read with the same values behind other nodes. -/
theorem ReadsClean.again {dst : List (Option Kbnode)} {nodes : List Kbnode} {content : CStr}
    (h : ReadsClean dst nodes (kbnodeReadFile L dst fname (some content)))
    (dst' : List (Option Kbnode)) : ∃ nodes',
      (kbnodeReadFile L dst' fname (some content)).dst = dst' ++ nodes'.map some ∧
        List.Forall₂ (SameNode 0) nodes nodes' := by
  have hlc : (Reader.start dst').lc = 0 := rfl
  obtain ⟨-, t, nodes', hread, hdst, hsame, -, herr, -⟩ := h.joins h.fname_stored hlc rfl
  refine ⟨nodes', ?_, hsame⟩
  rw [kbnodeReadFile, hread]
  exact (finish_of_no_errors herr).2.1.trans hdst

theorem SameNode.hasId {n n' : Kbnode} {id : CStr} (h : SameNode 0 n n') (hid : HasId n id) :
    HasId n' id := by
  obtain ⟨rest, hget⟩ := hid
  exact ⟨rest, (h.symtab.others kbnodeKeyId (by decide) (by decide)).trans hget⟩

/-! ### The files in turn -/

/-- What is read of a file behind the nodes of others. -/
def ReadOf (L : Libds) (content : CStr → Option CStr) (fname : CStr) (f : FileRead) : Prop :=
  ∃ dst, f.nodes =
    ((kbnodeReadFile L dst fname (content fname)).dst.drop dst.length).reduceOption

theorem readFiles_readOf {content : CStr → Option CStr} {dst : List (Option Kbnode)}
    {fnames : List CStr} {files : List FileRead}
    (h : readFiles L content dst fnames = some files) :
    List.Forall₂ (ReadOf L content) fnames files := by
  induction fnames generalizing dst files with
  | nil =>
    obtain rfl := Option.some.inj h
    exact .nil
  | cons fname fnames ih =>
    simp only [readFiles] at h
    split_ifs at h
    obtain ⟨rest, hrest, rfl⟩ := Option.map_eq_some_iff.mp h
    exact .cons ⟨dst, rfl⟩ (ih hrest)

theorem ReadsClean.readOf {content : CStr → Option CStr}
    {nodes : List Kbnode} {text : CStr} (hcontent : content fname = some text)
    (h : ReadsClean [] nodes (kbnodeReadFile L [] fname (some text))) {f : FileRead}
    (hf : ReadOf L content fname f) : List.Forall₂ (SameNode 0) nodes f.nodes := by
  obtain ⟨dst, hnodes⟩ := hf
  obtain ⟨nodes', hdst, hsame⟩ := h.again dst
  have hsome : (nodes'.map some).reduceOption = nodes' := by
    simp [List.reduceOption, List.filterMap_map]
  rw [hcontent, hdst, List.drop_left, hsome] at hnodes
  rwa [hnodes]

/-- What stands twice in a list has two counterparts in another one. -/
theorem exists_pair_of_duplicate {α β : Type*} {R : α → β → Prop} {as : List α} {bs : List β}
    (h : List.Forall₂ R as bs) {a : α} (ha : List.Duplicate a as) :
    ∃ b b', R a b ∧ R a b' ∧ [b, b'].Sublist bs := by
  induction h with
  | nil => exact absurd ha (by simp)
  | @cons _ b _ bs hab hrest ih =>
    rcases List.duplicate_cons_iff.mp ha with ⟨rfl, hmem⟩ | hdup
    · obtain ⟨b', hb', hab'⟩ := Lists.forall₂_right_of_mem hrest hmem
      exact ⟨b, b', hab, hab', (List.singleton_sublist.mpr hb').cons_cons b⟩
    · obtain ⟨c, c', hac, hac', hsub⟩ := ih hdup
      exact ⟨c, c', hac, hac', hsub.cons b⟩

/-- A file with the ID of a node that is found twice keeps everything from being run. -/
theorem program_refuses_twice (L : Libds) (o : Outside) (argv : List CStr) (fuel : ℕ)
    (paths : Paths) (opts : Options) (r : MainResult) (file text : CStr) (nodes : List Kbnode)
    (n : Kbnode) (id : CStr)
    (hopts : readOptions o.null argv = .ok (paths, opts))
    (hrun : program L o argv fuel = .main r)
    (hcontent : o.content file = some text)
    (hclean : ReadsClean [] nodes (kbnodeReadFile L [] file (some text)))
    (hn : n ∈ nodes) (hid : HasId n id) (htwice : List.Duplicate file (processPaths o.fs paths)) :
    ¬ r.Launches := by
  intro hlaunch
  simp only [program, hopts] at hrun
  split at hrun
  · simp at hrun
  · next files hfiles =>
    split at hrun
    · simp at hrun
    · next r' hmain =>
      obtain rfl := ProgramResult.main.inj hrun
      obtain ⟨l, hl, hzero⟩ := main_launches hmain hlaunch
      have hpassed := Passed.of_lint hl hzero
      obtain ⟨f, f', hf, hf', hsub⟩ := exists_pair_of_duplicate (readFiles_readOf hfiles) htwice
      obtain ⟨m, hm, hsame⟩ := Lists.forall₂_right_of_mem (hclean.readOf hcontent hf) hn
      obtain ⟨m', hm', hsame'⟩ := Lists.forall₂_right_of_mem (hclean.readOf hcontent hf') hn
      -- both copies are among the nodes that the set has kept apart
      have hpair := (hpassed.collected.pairwise_iff fun h => mt kbnodeCmp_comm h).mp hpassed.distinct
      have hboth : (f.nodes ++ f'.nodes).Pairwise fun n m => kbnodeCmp n m ≠ 0 := by
        have hnodes := hpair.sublist (hsub.flatMap FileRead.nodes)
        simpa using hnodes
      exact kbnodeCmp_ne_zero ((List.pairwise_append.mp hboth).2.2 m hm m' hm') id
        (hsame.hasId hid) (hsame'.hasId hid)

def etcText : CStr := "[entrypoint]\nID = e\nMESSAGE = m\nEXEC = true\n".toList

/-- A directory with one file. -/
def etcOutside : Outside where
  fs := fun _ => .entries [.other "a.kubeka".toList]
  content := fun _ => some etcText
  nul := fun _ => false
  env := fun _ => none
  null := ⟨none, false⟩

/-- The default path is given once more. -/
def etcTwice : List CStr := ["kubeka".toList, "--path=/etc/kubeka".toList, "-d".toList]

theorem etcText_readsClean : ∃ nodes, ReadsClean [] nodes
    (kbnodeReadFile .ordered [] "/etc/kubeka/a.kubeka".toList (some etcText)) ∧
      ∃ n ∈ nodes, HasId n "e".toList := by
  refine ⟨_, ⟨by decide +kernel, by decide +kernel, rfl, by simp⟩, _, List.mem_singleton_self _, [],
    by decide +kernel⟩

theorem etcTwice_read : ∃ opts, readOptions etcOutside.null etcTwice =
    .ok ([some "/etc/kubeka".toList, some "/etc/kubeka".toList], opts) := by
  have hpaths : (readOptions etcOutside.null etcTwice).toOption.map Prod.fst =
      some [some "/etc/kubeka".toList, some "/etc/kubeka".toList] := by decide +kernel
  rcases hread : readOptions etcOutside.null etcTwice with e | ⟨paths, opts⟩
  · simp [hread, Except.toOption] at hpaths
  · rw [hread] at hpaths
    obtain rfl : paths = _ := Option.some.inj hpaths
    exact ⟨opts, rfl⟩

theorem etcTwice_refused : ∃ r, program .ordered etcOutside etcTwice 3 = .main r ∧
    ¬ r.Launches := by
  obtain ⟨opts, hopts⟩ := etcTwice_read
  obtain ⟨nodes, hclean, n, hn, hid⟩ := etcText_readsClean
  have hmain : (program .ordered etcOutside etcTwice 3).isMain = true := by decide +kernel
  cases hrun : program .ordered etcOutside etcTwice 3 with
  | main r =>
    exact ⟨r, rfl, program_refuses_twice .ordered etcOutside etcTwice 3 _ opts r
      "/etc/kubeka/a.kubeka".toList etcText nodes n _ hopts hrun rfl hclean hn hid
      (by decide +kernel)⟩
  | _ => simp [hrun, ProgramResult.isMain] at hmain

end Kubeka
