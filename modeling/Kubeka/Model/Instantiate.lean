import Kubeka.Model.Node

/-!
# Instantiation of nodes (`kbnode.c`)

`node_instantiate` copies a node and, one after the other, the nodes it refers
to, each as a child of the copy. The recursion is stopped by the test that a
child is not among the ancestors of the node that refers to it. An ID can
therefore stand at most twice on a path, so the recursion is run with as much
fuel as there are such paths and never runs out of it (`nodeInstantiate_isSome`).

The functions are pure here: a child that cannot be built is dropped with its
parent. That `node_del` is called on it, and what this does to the lists of its
parent, is in `Kubeka.Model.Heap`, and the size of the table of children in
`Kubeka.Config.DependentJobs`.
-/

namespace Kubeka

/-! ### Looking for nodes -/

def nodeId (st : Symtab) : CStr := kbsymtabGetString st kbnodeKeyId

def nodeFindbyid (all : List Kbnode) (id : CStr) : Option Kbnode :=
  all.find? fun n => nodeId n.symtab = id

/-- The nearest node with an ID, from a parent upwards. -/
def nodeFindparent (up : List Symtab) (id : CStr) : Option Symtab :=
  up.find? fun st => nodeId st = id

inductive Childtype where
  | job
  | handler
  deriving DecidableEq, Repr

/-- `struct djobs_t` -/
structure Djob where
  childtype : Childtype
  id : CStr
  deriving DecidableEq

/-- The handlers of each signal in turn; NULL when a signal has none. -/
def signalHandlers (all : List Kbnode) : List CStr → Option (List Kbnode)
  | [] => some []
  | s :: signals =>
    match kbnodeFilterHandlers all [s] with
    | [] => none
    | h :: hs => (signalHandlers all signals).map ((h :: hs) ++ ·)

theorem signalHandlers_cons_eq_some {all : List Kbnode} {s : CStr} {signals : List CStr}
    {handlers : List Kbnode} (h : signalHandlers all (s :: signals) = some handlers) :
    kbnodeFilterHandlers all [s] ≠ [] ∧ ∃ rest, signalHandlers all signals = some rest ∧
      handlers = kbnodeFilterHandlers all [s] ++ rest := by
  simp only [signalHandlers] at h
  split at h
  · cases h
  · next m ms hfilter =>
    obtain ⟨rest, hrest, rfl⟩ := Option.map_eq_some_iff.mp h
    exact ⟨by simp [hfilter], rest, hrest, by rw [hfilter]⟩

/-- The children of a node, its jobs first, or NULL; with the errors counted. The table that holds
them is taken to be large enough. -/
def nodeFindDependentJobs (st : Symtab) (all : List Kbnode) : Option (List Djob) × ℕ :=
  match kbnodeGetSrcdef st with
  | none => (none, 1)
  | some _ =>
    match signalHandlers all (kbnodeGetvalueAll st kbnodeKeyEmits) with
    | none => (none, 1)
    | some handlers =>
      ((kbnodeGetvalueAll st kbnodeKeyJobs).map (Djob.mk .job) ++
        handlers.map fun h => Djob.mk .handler (kbnodeGetvalueFirst h.symtab kbnodeKeyId), 0)

/-- A table without keys cannot be copied. -/
def kbsymtabCopy (L : Libds) (st : Symtab) : Option Symtab :=
  match kbsymtabKeys st with
  | none => none
  | some _ => some (L.hmapCopy st)

/-! ### Building trees -/

/-- The tree built, or NULL, and the errors counted. -/
structure Instantiated where
  tree : Option KbTree
  nerrors : ℕ

/-- The children built so far; `ok` is false when the loop was left on an error. -/
structure Children where
  jobs : List KbTree
  handlers : List KbTree
  nerrors : ℕ
  ok : Bool

def Children.insert (c : Children) (childtype : Childtype) (t : KbTree) (nerrors : ℕ) : Children :=
  match childtype with
  | .job => { c with jobs := t :: c.jobs, nerrors := nerrors + c.nerrors }
  | .handler => { c with handlers := t :: c.handlers, nerrors := nerrors + c.nerrors }

/-- The loop over the children, each of them made by `build`: a reference to no node is counted and
passed over, a reference to one of the ancestors `up`, or a child that cannot be built, ends it. -/
def instantiateChildren (all : List Kbnode) (up : List Symtab)
    (build : Kbnode → Option Instantiated) : List Djob → Option Children
  | [] => some { jobs := [], handlers := [], nerrors := 0, ok := true }
  | d :: ds =>
    match nodeFindbyid all d.id with
    | none =>
      (instantiateChildren all up build ds).map fun c => { c with nerrors := 1 + c.nerrors }
    | some ref =>
      match nodeFindparent up d.id with
      | some _ => some { jobs := [], handlers := [], nerrors := 1, ok := false }
      | none =>
        match build ref with
        | none => none
        | some { tree := none, nerrors := n } =>
          some { jobs := [], handlers := [], nerrors := n + 1, ok := false }
        | some { tree := some t, nerrors := n } =>
          (instantiateChildren all up build ds).map fun c => c.insert d.childtype t n

/-- Build the tree of `src` below the ancestors `up`; `none` only for lack of fuel. What is left of a
tree that failed is not looked at again (but see `nodeInstantiateHeap`). -/
def nodeInstantiate (L : Libds) (all : List Kbnode) :
    ℕ → List Symtab → Kbnode → Option Instantiated
  | 0, _, _ => none
  | fuel + 1, up, src =>
    match kbsymtabCopy L src.symtab with
    | none => some { tree := none, nerrors := 1 }
    | some st =>
      match nodeFindDependentJobs src.symtab all with
      | (none, n) => some { tree := some (.node src.type st [] []), nerrors := n }
      | (some djobs, n) =>
        (instantiateChildren all up (nodeInstantiate L all fuel (st :: up)) djobs).map fun c =>
          { tree := if c.ok then some (.node src.type st c.jobs c.handlers) else none,
            nerrors := n + c.nerrors }

/-! ### How deep the recursion is -/

/-- What is left of the IDs when those of the ancestors are taken away. -/
def freshIds (ids : Finset CStr) (up : List Symtab) : Finset CStr :=
  ids \ (up.map nodeId).toFinset

/-- A bound for the depth below a node: twice the IDs not yet used, one more below a node that
already has the ID of an ancestor. -/
def depthBound (ids : Finset CStr) (up : List Symtab) (id : CStr) : ℕ :=
  2 * (freshIds ids up).card + if id ∈ up.map nodeId then 1 else 0

variable {L : Libds} {all : List Kbnode} {up : List Symtab} {st : Symtab}

theorem hmapCopy_get (L : Libds) (st : Symtab) (key : CStr) :
    kbsymtabGet (L.hmapCopy st) key = kbsymtabGet st key :=
  AList.perm_lookup (L.hmapCopy_perm st)

theorem kbsymtabCopy_get {st st' : Symtab} (h : kbsymtabCopy L st = some st') (key : CStr) :
    kbsymtabGet st' key = kbsymtabGet st key := by
  unfold kbsymtabCopy at h
  split at h
  · simp at h
  · obtain rfl := Option.some.inj h
    exact hmapCopy_get L st key

/-- A node with its origin has variables to copy. -/
theorem exists_kbsymtabCopy (L : Libds) {st : Symtab} (h : kbnodeGetSrcdef st ≠ none) :
    ∃ st', kbsymtabCopy L st = some st' :=
  ⟨_, by rw [kbsymtabCopy, kbsymtabKeys_of_srcdef h]⟩

theorem kbsymtabCopy_nodeId {st st' : Symtab} (h : kbsymtabCopy L st = some st') :
    nodeId st' = nodeId st := by
  simp [nodeId, kbsymtabGetString, kbsymtabCopy_get h]

theorem nodeFindbyid_some {id : CStr} {n : Kbnode} (h : nodeFindbyid all id = some n) :
    n ∈ all ∧ nodeId n.symtab = id :=
  ⟨List.mem_of_find?_eq_some h, by simpa using List.find?_some h⟩

theorem nodeFindparent_none {id : CStr} :
    nodeFindparent up id = none ↔ id ∉ up.map nodeId := by
  simp [nodeFindparent]

@[simp] theorem Children.insert_ok (c : Children) (childtype : Childtype) (t : KbTree) (n : ℕ) :
    (c.insert childtype t n).ok = c.ok := by
  cases childtype <;> rfl

@[simp] theorem Children.insert_nerrors (c : Children) (childtype : Childtype) (t : KbTree)
    (n : ℕ) : (c.insert childtype t n).nerrors = n + c.nerrors := by
  cases childtype <;> rfl

theorem Children.mem_insert {c : Children} {childtype : Childtype} {t u : KbTree} {n : ℕ} :
    (u ∈ (c.insert childtype t n).jobs ∨ u ∈ (c.insert childtype t n).handlers) ↔
      u = t ∨ u ∈ c.jobs ∨ u ∈ c.handlers := by
  cases childtype with
  | job => simp [Children.insert, or_assoc]
  | handler => simp [Children.insert, or_left_comm]

/-! ### What one step can do -/

/-- What the loop over the children does with its first entry. -/
inductive ChildrenStep (all : List Kbnode) (up : List Symtab) (build : Kbnode → Option Instantiated)
    (d : Djob) (ds : List Djob) : Children → Prop
  | missing {c : Children} (found : nodeFindbyid all d.id = none)
      (rest : instantiateChildren all up build ds = some c) :
      ChildrenStep all up build d ds { c with nerrors := 1 + c.nerrors }
  | cycle {ref : Kbnode} (found : nodeFindbyid all d.id = some ref)
      (cycle : nodeFindparent up d.id ≠ none) :
      ChildrenStep all up build d ds { jobs := [], handlers := [], nerrors := 1, ok := false }
  | failed {ref : Kbnode} {n : ℕ} (found : nodeFindbyid all d.id = some ref)
      (fresh : nodeFindparent up d.id = none) (failed : build ref = some ⟨none, n⟩) :
      ChildrenStep all up build d ds { jobs := [], handlers := [], nerrors := n + 1, ok := false }
  | built {ref : Kbnode} {t : KbTree} {n : ℕ} {c : Children}
      (found : nodeFindbyid all d.id = some ref) (fresh : nodeFindparent up d.id = none)
      (built : build ref = some ⟨some t, n⟩) (rest : instantiateChildren all up build ds = some c) :
      ChildrenStep all up build d ds (c.insert d.childtype t n)

theorem instantiateChildren_cons {build : Kbnode → Option Instantiated} {d : Djob} {ds : List Djob}
    {c : Children} (h : instantiateChildren all up build (d :: ds) = some c) :
    ChildrenStep all up build d ds c := by
  simp only [instantiateChildren] at h
  split at h
  · next found =>
    obtain ⟨c', rest, rfl⟩ := Option.map_eq_some_iff.mp h
    exact .missing found rest
  · next ref found =>
    split at h
    · next hcycle =>
      obtain rfl := Option.some.inj h
      exact .cycle found (by simp [hcycle])
    · next fresh =>
      split at h
      · simp at h
      · next n failed =>
        obtain rfl := Option.some.inj h
        exact .failed found fresh failed
      · next t n built =>
        obtain ⟨c', rest, rfl⟩ := Option.map_eq_some_iff.mp h
        exact .built found fresh built rest

/-- What a call of `nodeInstantiate` does before and after the loop. -/
inductive InstantiateStep (L : Libds) (all : List Kbnode) (fuel : ℕ) (up : List Symtab)
    (src : Kbnode) : Instantiated → Prop
  | noTable (copy : kbsymtabCopy L src.symtab = none) :
      InstantiateStep L all fuel up src { tree := none, nerrors := 1 }
  | noChildren {st : Symtab} {n : ℕ} (copy : kbsymtabCopy L src.symtab = some st)
      (table : nodeFindDependentJobs src.symtab all = (none, n)) :
      InstantiateStep L all fuel up src { tree := some (.node src.type st [] []), nerrors := n }
  | children {st : Symtab} {djobs : List Djob} {n : ℕ} {c : Children}
      (copy : kbsymtabCopy L src.symtab = some st)
      (table : nodeFindDependentJobs src.symtab all = (some djobs, n))
      (loop : instantiateChildren all up (nodeInstantiate L all fuel (st :: up)) djobs = some c) :
      InstantiateStep L all fuel up src
        { tree := if c.ok then some (.node src.type st c.jobs c.handlers) else none,
          nerrors := n + c.nerrors }

theorem nodeInstantiate_succ {fuel : ℕ} {src : Kbnode} {r : Instantiated}
    (h : nodeInstantiate L all (fuel + 1) up src = some r) : InstantiateStep L all fuel up src r := by
  simp only [nodeInstantiate] at h
  split at h
  · next copy =>
    obtain rfl := Option.some.inj h
    exact .noTable copy
  · next st copy =>
    split at h
    · next n table =>
      obtain rfl := Option.some.inj h
      exact .noChildren copy table
    · next djobs n table =>
      obtain ⟨c, loop, rfl⟩ := Option.map_eq_some_iff.mp h
      exact .children copy table loop

/-! ### Enough fuel -/

/-- Only children that pass the test for ancestors are built. -/
theorem instantiateChildren_isSome {build : Kbnode → Option Instantiated}
    (h : ∀ ref ∈ all, nodeId ref.symtab ∉ up.map nodeId → (build ref).isSome) (ds : List Djob) :
    (instantiateChildren all up build ds).isSome := by
  induction ds with
  | nil => rfl
  | cons d ds ih =>
    simp only [instantiateChildren]
    cases hfind : nodeFindbyid all d.id with
    | none => simpa using ih
    | some ref =>
      obtain ⟨hmem, hid⟩ := nodeFindbyid_some hfind
      dsimp only
      cases hpar : nodeFindparent up d.id with
      | some _ => rfl
      | none =>
        have hbuild := h ref hmem (by rw [hid]; exact nodeFindparent_none.mp hpar)
        obtain ⟨⟨tree, n⟩, hr⟩ := Option.isSome_iff_exists.mp hbuild
        dsimp only
        rw [hr]
        cases tree with
        | none => rfl
        | some t => simpa using ih

theorem depthBound_root (ids : Finset CStr) (id : CStr) :
    depthBound ids [] id = 2 * ids.card := by
  simp [depthBound, freshIds]

theorem depthBound_le {ids : Finset CStr} (up : List Symtab) {id : CStr} (hid : id ∈ ids) :
    depthBound ids up id ≤ 2 * ids.card := by
  have hle : (freshIds ids up).card ≤ ids.card := Finset.card_le_card Finset.sdiff_subset
  rw [depthBound]
  split_ifs with hup
  · have hlt : (freshIds ids up).card < ids.card := by
      refine Finset.card_lt_card (Finset.ssubset_iff_subset_ne.mpr ⟨Finset.sdiff_subset, ?_⟩)
      rintro heq
      rw [← heq, freshIds, Finset.mem_sdiff, List.mem_toFinset] at hid
      exact hid.2 hup
    omega
  · omega

/-- Below a child the bound is smaller. -/
theorem depthBound_child {ids : Finset CStr} {id : CStr} (hid : nodeId st ∈ ids)
    (hup : id ∉ up.map nodeId) :
    depthBound ids (st :: up) id < depthBound ids up (nodeId st) := by
  by_cases hst : nodeId st ∈ up.map nodeId
  · have hne : id ≠ nodeId st := by
      rintro rfl
      exact hup hst
    have hsame : freshIds ids (st :: up) = freshIds ids up := by
      ext x
      simp only [freshIds, List.map_cons, List.toFinset_cons, Finset.mem_sdiff, Finset.mem_insert,
        List.mem_toFinset, not_or]
      refine ⟨fun h => ⟨h.1, h.2.2⟩, fun h => ⟨h.1, ?_, h.2⟩⟩
      rintro rfl
      exact h.2 hst
    have hnew : id ∉ (st :: up).map nodeId := by simpa [hne] using hup
    rw [depthBound, depthBound, hsame, if_neg hnew, if_pos hst]
    omega
  · have hmem : nodeId st ∈ freshIds ids up := by simpa [freshIds, hid] using hst
    have herase : freshIds ids (st :: up) = (freshIds ids up).erase (nodeId st) := by
      ext x
      simp [freshIds, not_or, and_left_comm, and_comm]
    have hcard : (freshIds ids (st :: up)).card + 1 = (freshIds ids up).card := by
      rw [herase, Finset.card_erase_add_one hmem]
    rw [depthBound, depthBound, if_neg hst]
    split_ifs <;> omega

theorem nodeInstantiate_isSome_of_lt {ids : Finset CStr} (hall : ∀ n ∈ all, nodeId n.symtab ∈ ids)
    {fuel : ℕ} {src : Kbnode} (hsrc : nodeId src.symtab ∈ ids)
    (hfuel : depthBound ids up (nodeId src.symtab) < fuel) :
    (nodeInstantiate L all fuel up src).isSome := by
  induction fuel generalizing up src with
  | zero => omega
  | succ fuel ih =>
    simp only [nodeInstantiate]
    cases hcopy : kbsymtabCopy L src.symtab with
    | none => rfl
    | some st =>
      have hst := kbsymtabCopy_nodeId hcopy
      dsimp only
      rcases nodeFindDependentJobs src.symtab all with ⟨_ | djobs, n⟩
      · rfl
      · rw [Option.isSome_map]
        refine instantiateChildren_isSome (fun ref href hup => ih (hall ref href) ?_) djobs
        have hlt := depthBound_child (by rwa [hst]) hup
        rw [hst] at hlt
        omega

/-- Fuel for every path of IDs in which none stands more than twice. -/
def instantiateFuel (all : List Kbnode) : ℕ := 2 * (all.length + 1) + 1

theorem nodeInstantiate_isSome_below (L : Libds) (all : List Kbnode) (up : List Symtab)
    (src : Kbnode) : (nodeInstantiate L all (instantiateFuel all) up src).isSome := by
  let ids : Finset CStr := ((src :: all).map fun n => nodeId n.symtab).toFinset
  have hids : ∀ n ∈ src :: all, nodeId n.symtab ∈ ids :=
    fun n hn => List.mem_toFinset.mpr (List.mem_map_of_mem hn)
  refine nodeInstantiate_isSome_of_lt (fun n hn => hids n (List.mem_cons_of_mem _ hn))
    (hids src List.mem_cons_self) ?_
  have hcard : ids.card ≤ all.length + 1 := (List.toFinset_card_le _).trans (by simp)
  have hbound := depthBound_le up (hids src List.mem_cons_self)
  rw [instantiateFuel]
  omega

theorem nodeInstantiate_isSome (L : Libds) (all : List Kbnode) (src : Kbnode) :
    (nodeInstantiate L all (instantiateFuel all) [] src).isSome :=
  nodeInstantiate_isSome_below L all [] src

def kbnodeInstantiate (L : Libds) (src : Kbnode) (all : List Kbnode) : Instantiated :=
  (nodeInstantiate L all (instantiateFuel all) [] src).get (nodeInstantiate_isSome L all src)

end Kubeka
