import Kubeka.Config.Lint
import Kubeka.Library.Lists
import Kubeka.Model.Read

/-!
# What `kbtree_coalesce` keeps

The set compares nodes by ID, and a node without an ID equals none of them. A
node that equals one of the set is left out and counted, but only when the
origin of both can be shown: otherwise the loop is aborted, and what is handed
back is empty.
-/

namespace Kubeka

open Kubeka.Lists

/-- The ID that `kbnode_cmp` looks at. -/
def idOf (n : Kbnode) : Option CStr := (kbsymtabGet n.symtab kbnodeKeyId).bind List.head?

theorem kbnodeCmp_eq_zero_iff {m n : Kbnode} : kbnodeCmp m n = 0 ↔ SameKey idOf m n := by
  have hid (a : Kbnode) (id : CStr) :
      idOf a = some id ↔ ∃ rest, kbsymtabGet a.symtab kbnodeKeyId = some (id :: rest) := by
    rcases h : kbsymtabGet a.symtab kbnodeKeyId with _ | _ | ⟨v, vs⟩ <;> simp [idOf, h]
  rw [kbnodeCmp_eq_zero]
  constructor
  · rintro ⟨id, ls, rs, hm, hn⟩
    exact ⟨id, (hid m id).mpr ⟨ls, hm⟩, (hid n id).mpr ⟨rs, hn⟩⟩
  · rintro ⟨id, hm, hn⟩
    obtain ⟨ls, hm⟩ := (hid m id).mp hm
    obtain ⟨rs, hn⟩ := (hid n id).mp hn
    exact ⟨id, ls, rs, hm, hn⟩

/-- Of every ID the first node is kept, and every node without an ID; the others are counted. -/
structure Deduplicates (nodes : List Kbnode) (r : Coalesced) : Prop where
  kept : r.nodes.Perm (firsts idOf [] nodes)
  counted : r.ndups + (firsts idOf [] nodes).length = nodes.length
  distinct : r.ndups = 0 ↔ nodes.Pairwise fun m n => ¬ SameKey idOf m n

/-- Two nodes with one ID both have an origin. -/
def Traced (m n : Kbnode) : Prop :=
  SameKey idOf m n → kbnodeGetSrcdef m.symtab ≠ none ∧ kbnodeGetSrcdef n.symtab ≠ none

theorem Traced.symm {m n : Kbnode} (h : Traced m n) : Traced n m := fun hkey =>
  (h hkey.symm).symm

instance : Std.Symm Traced := ⟨fun _ _ => Traced.symm⟩

/-! ### The loop -/

/-- The set after the nodes `before`: some of them, with every ID that occurs there. -/
structure Seen (set before : List Kbnode) : Prop where
  mem : ∀ e ∈ set, e ∈ before
  covers : ∀ b ∈ before, ∀ n, SameKey idOf b n → ∃ e ∈ set, SameKey idOf e n

theorem Seen.find_none {set before : List Kbnode} {node : Kbnode} (h : Seen set before)
    (hfind : set.find? (fun e => kbnodeCmp e node = 0) = none) :
    ∀ b ∈ before, ¬ SameKey idOf b node := by
  intro b hb hkey
  obtain ⟨e, he, hkey⟩ := h.covers b hb node hkey
  have hne : ¬ kbnodeCmp e node = 0 := by simpa using List.find?_eq_none.mp hfind e he
  exact hne (kbnodeCmp_eq_zero_iff.mpr hkey)

theorem Seen.find_some {set before : List Kbnode} {node e : Kbnode} (h : Seen set before)
    (hfind : set.find? (fun e => kbnodeCmp e node = 0) = some e) :
    e ∈ before ∧ SameKey idOf e node := by
  refine ⟨h.mem e (List.mem_of_find?_eq_some hfind), kbnodeCmp_eq_zero_iff.mp ?_⟩
  simpa using List.find?_some hfind

/-- The set with a new node. -/
theorem Seen.add {set before : List Kbnode} (h : Seen set before) (node : Kbnode) :
    Seen (set ++ [node]) (before ++ [node]) where
  mem e he := by
    rcases List.mem_append.mp he with he | he
    · exact List.mem_append_left _ (h.mem e he)
    · exact List.mem_append_right _ he
  covers b hb n hkey := by
    rcases List.mem_append.mp hb with hb | hb
    · obtain ⟨e, he, hkey⟩ := h.covers b hb n hkey
      exact ⟨e, List.mem_append_left _ he, hkey⟩
    · exact ⟨b, List.mem_append_right _ hb, hkey⟩

/-- The set stays as it is at a duplicate. -/
theorem Seen.skip {set before : List Kbnode} {node e : Kbnode} (h : Seen set before)
    (he : e ∈ before) (hkey : SameKey idOf e node) : Seen set (before ++ [node]) where
  mem e he := List.mem_append_left _ (h.mem e he)
  covers b hb n hbn := by
    rcases List.mem_append.mp hb with hb | hb
    · exact h.covers b hb n hbn
    · obtain rfl := List.mem_singleton.mp hb
      exact h.covers e he n (hkey.trans hbn)

theorem coalesceNodes_traced {set before nodes : List Kbnode} (hseen : Seen set before)
    (h : (before ++ nodes).Pairwise Traced) :
    coalesceNodes set nodes = (some (set ++ firsts idOf before nodes),
      nodes.length - (firsts idOf before nodes).length) := by
  induction nodes generalizing set before with
  | nil => simp [coalesceNodes, firsts]
  | cons node nodes ih =>
    have hsplit : before ++ node :: nodes = (before ++ [node]) ++ nodes := by simp
    have hbefore := (List.pairwise_append.mp h).2.2
    rw [hsplit] at h
    rw [coalesceNodes, firsts]
    split
    · next hfind =>
      have hnew : ¬ ∃ b ∈ before, SameKey idOf b node := by
        rintro ⟨b, hb, hkey⟩
        exact hseen.find_none hfind b hb hkey
      rw [ih (hseen.add node) h, if_neg hnew]
      simp
    · next e hfind =>
      obtain ⟨he, hkey⟩ := hseen.find_some hfind
      obtain ⟨hsrc, hsrc'⟩ := hbefore e he node List.mem_cons_self hkey
      have hle := (firsts_sublist idOf (before ++ [node]) nodes).length_le
      rw [if_neg (not_or.mpr ⟨hsrc, hsrc'⟩), ih (hseen.skip he hkey) h, if_pos ⟨e, he, hkey⟩]
      simp only [List.length_cons, Prod.mk.injEq, true_and]
      omega

theorem coalesceNodes_untraced {set before nodes : List Kbnode} (hseen : Seen set before)
    (hbefore : before.Pairwise Traced) (h : ¬ (before ++ nodes).Pairwise Traced) :
    (coalesceNodes set nodes).1 = none := by
  induction nodes generalizing set before with
  | nil => exact absurd hbefore (by simpa using h)
  | cons node nodes ih =>
    have hsplit : before ++ node :: nodes = (before ++ [node]) ++ nodes := by simp
    have hgrow (hnode : ∀ b ∈ before, Traced b node) : (before ++ [node]).Pairwise Traced := by
      refine List.pairwise_append.mpr ⟨hbefore, List.pairwise_singleton _ _, fun b hb n hn => ?_⟩
      rw [List.mem_singleton.mp hn]
      exact hnode b hb
    rw [hsplit] at h
    rw [coalesceNodes]
    split
    · next hfind =>
      refine ih (hseen.add node) (hgrow fun b hb hkey => ?_) h
      exact absurd hkey (hseen.find_none hfind b hb)
    · next e hfind =>
      obtain ⟨he, hkey⟩ := hseen.find_some hfind
      split_ifs with hsrc
      · rfl
      · obtain ⟨hsrc, hsrc'⟩ := not_or.mp hsrc
        refine ih (hseen.skip he hkey) (hgrow fun b hb hbn => ⟨?_, hsrc'⟩) h
        -- an earlier duplicate was compared with the same node of the set
        by_cases heq : e = b
        · exact heq ▸ hsrc
        · exact (hbefore.forall he hb heq (hkey.trans hbn.symm)).2

/-! ### The whole list -/

/-- Duplicates that all have an origin are left out and counted; with one that has none, every node
is lost, an error is counted, and no duplicate is reported. -/
theorem kbtreeCoalesce_deduplicates (L : Libds) (nodes : List Kbnode) :
    (nodes.Pairwise Traced → Deduplicates nodes (kbtreeCoalesce L nodes)) ∧
      (¬ nodes.Pairwise Traced →
        (kbtreeCoalesce L nodes).nodes = [] ∧ (kbtreeCoalesce L nodes).ndups = 0 ∧
          0 < (kbtreeCoalesce L nodes).nerrors) := by
  have hseen : Seen [] [] := ⟨by simp, by simp⟩
  constructor
  · intro h
    by_cases hnil : nodes = []
    · subst hnil
      exact ⟨by simp [kbtreeCoalesce, firsts], by simp [kbtreeCoalesce, firsts],
        by simp [kbtreeCoalesce]⟩
    · have hle := (firsts_sublist idOf [] nodes).length_le
      have hrun := coalesceNodes_traced hseen h
      have hr : kbtreeCoalesce L nodes = {
          nodes := L.setIterate (some (firsts idOf [] nodes))
          ndups := nodes.length - (firsts idOf [] nodes).length
          nerrors := nodes.length - (firsts idOf [] nodes).length
          nwarnings := nodes.length - (firsts idOf [] nodes).length } := by
        rw [kbtreeCoalesce, if_neg hnil, hrun, List.nil_append]
      rw [hr]
      refine ⟨L.setIterate_perm _, by simp only; omega, ?_⟩
      have hall := @firsts_length_eq_iff _ _ idOf _ [] nodes
      simp only [List.not_mem_nil, false_implies, implies_true, true_and] at hall
      rw [← hall]
      simp only
      omega
  · intro h
    have hnil : nodes ≠ [] := by
      rintro rfl
      exact h List.Pairwise.nil
    have hrun := coalesceNodes_untraced hseen List.Pairwise.nil h
    rcases hc : coalesceNodes [] nodes with ⟨set, n⟩
    rw [hc] at hrun
    obtain rfl : set = none := hrun
    simp [kbtreeCoalesce, if_neg hnil, hc, L.setIterate_null]

/-- Two nodes of one ID, read from a file whose name is taken for an empty array. -/
def unnamedFile : List Kbnode :=
  (kbnodeReadFile .ordered [] "[].kubeka".toList
    (some "[job]\nID = a\n[job]\nID = a\n".toList)).dst.reduceOption

theorem unnamedFile_lost : unnamedFile.length = 2 ∧
    ¬ Deduplicates unnamedFile (kbtreeCoalesce .ordered unnamedFile) := by
  have hread : unnamedFile.length = 2 := by decide +kernel
  have hlost : (kbtreeCoalesce .ordered unnamedFile).nodes = [] := by decide +kernel
  have hfirsts : firsts idOf [] unnamedFile ≠ [] := by decide +kernel
  refine ⟨hread, fun h => ?_⟩
  have hkept := h.kept
  rw [hlost] at hkept
  exact hfirsts hkept.nil_eq.symm

end Kubeka
