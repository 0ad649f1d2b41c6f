import Kubeka.Library.Text
import Kubeka.Model.Paths
import Mathlib.Data.List.ReduceOption

/-!
# What the walk through the directories lists

A path below a directory is a list of names. The walk lists those that go
through directories, are nowhere hidden and end in a name with the extension,
directories among them, and each of them once as long as the names in a
directory differ. As a name has no slash, different lists of names are
different paths.
-/

namespace Kubeka

open Text

/-! ### Paths as lists of names -/

/-- The path of what is found along these names. -/
def joinPath (path : CStr) (names : List CStr) : CStr := path ++ names.flatMap ('/' :: ·)

@[simp] theorem joinPath_nil (path : CStr) : joinPath path [] = path := List.append_nil path

theorem joinPath_cons (path name : CStr) (names : List CStr) :
    joinPath path (name :: names) = joinPath (entryPath path name) names := by
  simp [joinPath, entryPath]

/-- An entry with this path is passed over. -/
def Hidden (name : CStr) : Prop := name.head? = some '.'

instance : DecidablePred Hidden := fun _ => inferInstanceAs (Decidable (_ = _))

mutual

/-- The names that lead to what is listed. -/
def Listing.found : Listing → List (List CStr)
  | .notDir => [[]]
  | .failed => []
  | .entries es => foundAll es

def foundAll : List Dirent → List (List CStr)
  | [] => []
  | de :: es => de.found ++ foundAll es

def Dirent.found : Dirent → List (List CStr)
  | .subdir name sub =>
    if Hidden name then []
    else sub.found.map (name :: ·) ++ if hasExt name then [[name]] else []
  | .other name => if Hidden name then [] else if hasExt name then [[name]] else []

end

mutual

theorem processPath_eq (files : List CStr) (path : CStr) :
    ∀ l, processPath files path l = files ++ l.found.map (joinPath path)
  | .notDir => by simp [processPath, Listing.found]
  | .failed => by simp [processPath, Listing.found]
  | .entries es => by rw [processPath, Listing.found, processEntries_eq files path es]

theorem processEntries_eq (files : List CStr) (path : CStr) :
    ∀ es, processEntries files path es = files ++ (foundAll es).map (joinPath path)
  | [] => by simp [processEntries, foundAll]
  | de :: es => by
    rw [processEntries, processEntries_eq _ path es, processEntry_eq files path de, foundAll,
      List.map_append, List.append_assoc]

theorem processEntry_eq (files : List CStr) (path : CStr) :
    ∀ de, processEntry files path de = files ++ de.found.map (joinPath path)
  | .subdir name sub => by
    have hsub : (sub.found.map (name :: ·)).map (joinPath path) =
        sub.found.map (joinPath (entryPath path name)) := by
      rw [List.map_map]
      exact List.map_congr_left fun names _ => joinPath_cons path name names
    by_cases hhidden : name.head? = some '.'
    · simp [processEntry, Dirent.found, Hidden, hhidden]
    · have hwalk := processPath_eq files (entryPath path name) sub
      by_cases hext : hasExt name
      · simp [processEntry, Dirent.found, Hidden, hhidden, hext, hwalk, hsub, joinPath_cons]
      · simp [processEntry, Dirent.found, Hidden, hhidden, hext, hwalk, hsub]
  | .other name => by
    by_cases hhidden : name.head? = some '.'
    · simp [processEntry, Dirent.found, Hidden, hhidden]
    · by_cases hext : hasExt name
      · simp [processEntry, Dirent.found, Hidden, hhidden, hext, joinPath_cons]
      · simp [processEntry, Dirent.found, Hidden, hhidden, hext]

end

/-! ### What is found -/

/-- The names lead through directories to an entry. -/
inductive LeadsTo : Listing → List CStr → Prop
  | entry {es de} : de ∈ es → LeadsTo (.entries es) [de.name]
  | through {es name sub names} : Dirent.subdir name sub ∈ es → LeadsTo sub names →
      LeadsTo (.entries es) (name :: names)

/-- No name is hidden and the last one has the extension. -/
def Listed (names : List CStr) : Prop :=
  (∀ name ∈ names, ¬ Hidden name) ∧ ∃ name, names.getLast? = some name ∧ hasExt name = true

theorem mem_foundAll {es : List Dirent} {names : List CStr} :
    names ∈ foundAll es ↔ ∃ de ∈ es, names ∈ de.found := by
  induction es with
  | nil => simp [foundAll]
  | cons de es ih => simp [foundAll, ih]

theorem mem_found_subdir {name : CStr} {sub : Listing} {names : List CStr} :
    names ∈ (Dirent.subdir name sub).found ↔ ¬ Hidden name ∧
      ((∃ below ∈ sub.found, names = name :: below) ∨ hasExt name = true ∧ names = [name]) := by
  by_cases hhidden : Hidden name
  · simp [Dirent.found, hhidden]
  · by_cases hext : hasExt name <;> simp [Dirent.found, hhidden, hext, eq_comm]

theorem mem_found_other {name : CStr} {names : List CStr} :
    names ∈ (Dirent.other name).found ↔
      ¬ Hidden name ∧ hasExt name = true ∧ names = [name] := by
  by_cases hhidden : Hidden name
  · simp [Dirent.found, hhidden]
  · by_cases hext : hasExt name <;> simp [Dirent.found, hhidden, hext]

theorem listed_singleton {name : CStr} : Listed [name] ↔ ¬ Hidden name ∧ hasExt name = true := by
  simp [Listed]

theorem listed_cons {name : CStr} {names : List CStr} (h : names ≠ []) :
    Listed (name :: names) ↔ ¬ Hidden name ∧ Listed names := by
  simp [Listed, List.getLast?_cons_of_ne_nil h, and_assoc]

/-- The names in a directory differ and have no slash, and a subdirectory is opened as one. -/
inductive Listing.Valid : Listing → Prop
  | notDir : Valid .notDir
  | failed : Valid .failed
  | entries {es : List Dirent} (distinct : (es.map Dirent.name).Nodup)
      (plain : ∀ de ∈ es, '/' ∉ de.name)
      (dirs : ∀ name sub, Dirent.subdir name sub ∈ es → sub ≠ .notDir)
      (subs : ∀ name sub, Dirent.subdir name sub ∈ es → Valid sub) : Valid (.entries es)

theorem LeadsTo.ne_nil {l : Listing} {names : List CStr} (h : LeadsTo l names) : names ≠ [] := by
  cases h <;> simp

/-- What is found is what the names lead to that is listed, or a path that is no directory itself. -/
theorem mem_found {l : Listing} (h : l.Valid) (names : List CStr) :
    names ∈ l.found ↔ (l = .notDir ∧ names = []) ∨ LeadsTo l names ∧ Listed names := by
  induction h generalizing names with
  | notDir =>
    have hno : ¬ LeadsTo .notDir names := fun h => by cases h
    simp [Listing.found, hno]
  | failed =>
    have hno : ¬ LeadsTo .failed names := fun h => by cases h
    simp [Listing.found, hno]
  | @entries es _ _ hdirs _ ih =>
    rw [Listing.found, mem_foundAll]
    constructor
    · rintro ⟨de, hde, hfound⟩
      right
      cases de with
      | subdir name sub =>
        obtain ⟨hhidden, ⟨below, hbelow, rfl⟩ | ⟨hext, rfl⟩⟩ := mem_found_subdir.mp hfound
        · obtain ⟨hleads, hlisted⟩ :=
            ((ih name sub hde below).mp hbelow).resolve_left fun h => hdirs name sub hde h.1
          exact ⟨.through hde hleads, (listed_cons hleads.ne_nil).mpr ⟨hhidden, hlisted⟩⟩
        · exact ⟨.entry hde, listed_singleton.mpr ⟨hhidden, hext⟩⟩
      | other name =>
        obtain ⟨hhidden, hext, rfl⟩ := mem_found_other.mp hfound
        exact ⟨.entry hde, listed_singleton.mpr ⟨hhidden, hext⟩⟩
    · rintro (⟨hno, -⟩ | ⟨hleads, hlisted⟩)
      · simp at hno
      · cases hleads with
        | @entry _ de hde =>
          obtain ⟨hhidden, hext⟩ := listed_singleton.mp hlisted
          refine ⟨de, hde, ?_⟩
          cases de with
          | subdir name sub => exact mem_found_subdir.mpr ⟨hhidden, .inr ⟨hext, rfl⟩⟩
          | other name => exact mem_found_other.mpr ⟨hhidden, hext, rfl⟩
        | @through _ name sub below hde hbelow =>
          obtain ⟨hhidden, hrest⟩ := (listed_cons hbelow.ne_nil).mp hlisted
          exact ⟨_, hde, mem_found_subdir.mpr ⟨hhidden, .inl ⟨below,
            (ih name sub hde below).mpr (.inr ⟨hbelow, hrest⟩), rfl⟩⟩⟩

/-! ### Each path once -/

/-- The names of what is found in an entry start with that of the entry. -/
theorem head_of_mem_found {de : Dirent} {names : List CStr} (h : names ∈ de.found) :
    names.head? = some de.name := by
  cases de with
  | subdir name sub =>
    obtain ⟨-, ⟨below, -, rfl⟩ | ⟨-, rfl⟩⟩ := mem_found_subdir.mp h <;> rfl
  | other name =>
    obtain ⟨-, -, rfl⟩ := mem_found_other.mp h
    rfl

theorem nodup_foundAll {es : List Dirent} (hnames : (es.map Dirent.name).Nodup)
    (h : ∀ de ∈ es, de.found.Nodup) : (foundAll es).Nodup := by
  induction es with
  | nil => exact List.nodup_nil
  | cons de es ih =>
    obtain ⟨hnew, hnames⟩ := List.nodup_cons.mp hnames
    obtain ⟨hde, hes⟩ := List.forall_mem_cons.mp h
    refine hde.append (ih hnames hes) fun names hin hrest => hnew ?_
    obtain ⟨de', hde', hfound⟩ := mem_foundAll.mp hrest
    have hsame : de.name = de'.name :=
      Option.some.inj ((head_of_mem_found hin).symm.trans (head_of_mem_found hfound))
    rw [hsame]
    exact List.mem_map_of_mem hde'

theorem Listing.Valid.nodup_found {l : Listing} (h : l.Valid) : l.found.Nodup := by
  induction h with
  | notDir => simp [Listing.found]
  | failed => simp [Listing.found]
  | @entries es hdistinct _ hdirs hsubs ih =>
    refine nodup_foundAll hdistinct fun de hde => ?_
    cases de with
    | other name => simp only [Dirent.found]; split_ifs <;> simp
    | subdir name sub =>
      simp only [Dirent.found]
      split_ifs with hhidden
      · exact List.nodup_nil
      all_goals
        have hsub : (sub.found.map (name :: ·)).Nodup :=
          (ih name sub hde).map List.cons_injective
      · refine hsub.append (List.nodup_singleton _) fun names hin hself => ?_
        obtain ⟨below, hbelow, rfl⟩ := List.mem_map.mp hin
        obtain ⟨-, rfl⟩ := List.cons.inj (List.mem_singleton.mp hself)
        -- a subdirectory is not listed as a path that is no directory
        rcases (mem_found (hsubs name sub hde) []).mp hbelow with ⟨hno, -⟩ | ⟨hleads, -⟩
        · exact hdirs name sub hde hno
        · exact hleads.ne_nil rfl
      · rwa [List.append_nil]

theorem Listing.Valid.plain_found {l : Listing} (h : l.Valid) :
    ∀ names ∈ l.found, ∀ name ∈ names, '/' ∉ name := by
  induction h with
  | notDir => simp [Listing.found]
  | failed => simp [Listing.found]
  | @entries es _ hplain _ _ ih =>
    intro names hnames
    obtain ⟨de, hde, hfound⟩ := mem_foundAll.mp hnames
    have hname := hplain de hde
    cases de with
    | subdir name sub =>
      obtain ⟨-, ⟨below, hbelow, rfl⟩ | ⟨-, rfl⟩⟩ := mem_found_subdir.mp hfound
      · exact List.forall_mem_cons.mpr ⟨hname, ih name sub hde below hbelow⟩
      · exact List.forall_mem_singleton.mpr hname
    | other name =>
      obtain ⟨-, -, rfl⟩ := mem_found_other.mp hfound
      exact List.forall_mem_singleton.mpr hname

theorem Listing.Valid.nodup_map {l : Listing} (h : l.Valid) (path : CStr) :
    (l.found.map (joinPath path)).Nodup := by
  refine h.nodup_found.map_on fun names hnames names' hnames' heq => ?_
  exact flatMap_cons_inj (h.plain_found names hnames) (h.plain_found names' hnames')
    (List.append_cancel_left heq)

/-! ### Several paths -/

theorem processPathsFrom_eq (fs : CStr → Listing) (files : List CStr) (paths : Paths) :
    processPathsFrom fs files paths = files ++
      paths.reduceOption.flatMap fun path => (fs path).found.map (joinPath path) := by
  induction paths generalizing files with
  | nil => simp [processPathsFrom, List.reduceOption_nil]
  | cons path paths ih =>
    cases path with
    | none => rw [processPathsFrom, ih, List.reduceOption_cons_of_none]
    | some path =>
      rw [processPathsFrom, ih, processPath_eq, List.reduceOption_cons_of_some, List.flatMap_cons,
        List.append_assoc]

/-- Neither path is the other one or leads to it. -/
structure Apart (p q : CStr) : Prop where
  ne : p ≠ q
  left : ¬ p ++ ['/'] <+: q
  right : ¬ q ++ ['/'] <+: p

/-- Where one path starts with another, it is that one or goes on behind a slash. -/
theorem prefix_of_joinPath {p q : CStr} {names names' : List CStr}
    (h : joinPath p names = joinPath q names') (hpq : p <+: q) : p = q ∨ p ++ ['/'] <+: q := by
  obtain ⟨r, rfl⟩ := hpq
  cases r with
  | nil => exact .inl (List.append_nil p).symm
  | cons c r =>
    rw [joinPath, joinPath, List.append_assoc, List.append_cancel_left_eq] at h
    cases names with
    | nil => simp at h
    | cons name names =>
      obtain ⟨rfl, -⟩ := List.cons.inj h
      exact .inr ⟨r, by simp⟩

theorem Apart.joinPath_ne {p q : CStr} (h : Apart p q) (names names' : List CStr) :
    joinPath p names ≠ joinPath q names' := by
  intro heq
  have hp : p <+: joinPath p names := List.prefix_append _ _
  have hq : q <+: joinPath p names := heq ▸ List.prefix_append _ _
  rcases List.prefix_or_prefix_of_prefix hp hq with hpq | hqp
  · rcases prefix_of_joinPath heq hpq with heq | hslash
    · exact h.ne heq
    · exact h.left hslash
  · rcases prefix_of_joinPath heq.symm hqp with heq | hslash
    · exact h.ne heq.symm
    · exact h.right hslash

/-- The files that are read: a path that is no directory, and below a directory what the names of
entries lead to, none of them hidden and the last with the extension. Where no path leads to another
one each of them is read once. -/
theorem processPaths_lists (fs : CStr → Listing) (paths : Paths)
    (hvalid : ∀ path ∈ paths.reduceOption, (fs path).Valid) :
    (∀ file, file ∈ processPaths fs paths ↔ ∃ path ∈ paths.reduceOption, ∃ names,
        file = joinPath path names ∧
          (fs path = .notDir ∧ names = [] ∨ LeadsTo (fs path) names ∧ Listed names)) ∧
      (paths.reduceOption.Pairwise Apart → (processPaths fs paths).Nodup) := by
  rw [processPaths, processPathsFrom_eq, List.nil_append]
  constructor
  · intro file
    simp only [List.mem_flatMap, List.mem_map]
    refine exists_congr fun path => and_congr_right fun hpath => exists_congr fun names => ?_
    rw [mem_found (hvalid path hpath), eq_comm (a := joinPath path names), and_comm]
  · intro hapart
    rw [List.nodup_flatMap]
    refine ⟨fun path hpath => (hvalid path hpath).nodup_map path, hapart.imp fun h => ?_⟩
    rintro _ hfile hfile'
    obtain ⟨names, -, rfl⟩ := List.mem_map.mp hfile
    obtain ⟨names', -, heq⟩ := List.mem_map.mp hfile'
    exact h.joinPath_ne names names' heq.symm

/-- A file and a directory with the extension that holds one. -/
def nestedListing : Listing :=
  .entries [.other "a.kubeka".toList, .other ".b.kubeka".toList,
    .subdir "d.kubeka".toList (.entries [.other "c.kubeka".toList, .other ".kubeka".toList])]

example : processPaths (fun _ => nestedListing) [some "/etc".toList] =
    ["/etc/a.kubeka".toList, "/etc/d.kubeka/c.kubeka".toList, "/etc/d.kubeka".toList] := by
  decide +kernel

theorem nestedListing_valid : nestedListing.Valid := by
  refine .entries (by decide) ?_ ?_ ?_
  · simp [Dirent.name]
  · simp
  · simp only [List.mem_cons, reduceCtorEq, Dirent.subdir.injEq, false_or, List.not_mem_nil,
      or_false, and_imp]
    rintro _ _ rfl rfl
    exact .entries (by decide) (by simp [Dirent.name]) (by simp) (by simp)

theorem nestedListing_once :
    (processPaths (fun _ => nestedListing) [some "/etc".toList, some "/opt".toList]).Nodup :=
  (processPaths_lists (fun _ => nestedListing) [some "/etc".toList, some "/opt".toList]
    fun _ _ => nestedListing_valid).2
    (List.pairwise_pair.mpr ⟨by decide, by decide, by decide⟩)

end Kubeka
