import Kubeka.Model.Symtab

/-!
# Nodes and instantiated trees (`kbnode.c`)

A configuration node has a type and a symbol table. An instantiated node has
its jobs and handlers as children; its `parent` pointer is represented by its
place in the tree, so functions that walk up the parents take the symbol tables
of the ancestors, the nearest first.
-/

namespace Kubeka

open Text

/-- `enum kbnode_type_t`; `kbnode_type_UNKNOWN` never gets into a node, `node_new` refuses it. -/
inductive KbnodeType where
  | periodic
  | job
  | entrypoint
  deriving DecidableEq, Repr

/-- A node as read from a file. -/
structure Kbnode where
  type : KbnodeType
  symtab : Symtab
  deriving DecidableEq

/-- A node made by `node_instantiate`, with its children. -/
inductive KbTree where
  | node (type : KbnodeType) (symtab : Symtab) (jobs handlers : List KbTree)

namespace KbTree

def type : KbTree → KbnodeType
  | .node type _ _ _ => type

def symtab : KbTree → Symtab
  | .node _ symtab _ _ => symtab

def jobs : KbTree → List KbTree
  | .node _ _ jobs _ => jobs

def handlers : KbTree → List KbTree
  | .node _ _ _ handlers => handlers

@[simp] theorem type_node (ty : KbnodeType) (st : Symtab) (js hs : List KbTree) :
    (node ty st js hs).type = ty := rfl
@[simp] theorem symtab_node (ty : KbnodeType) (st : Symtab) (js hs : List KbTree) :
    (node ty st js hs).symtab = st := rfl
@[simp] theorem jobs_node (ty : KbnodeType) (st : Symtab) (js hs : List KbTree) :
    (node ty st js hs).jobs = js := rfl
@[simp] theorem handlers_node (ty : KbnodeType) (st : Symtab) (js hs : List KbTree) :
    (node ty st js hs).handlers = hs := rfl

/-- Induction over a tree with a hypothesis for every child. -/
@[elab_as_elim]
theorem inductionOn {P : KbTree → Prop} (t : KbTree)
    (node : ∀ ty st js hs, (∀ c ∈ js, P c) → (∀ c ∈ hs, P c) → P (.node ty st js hs)) : P t :=
  KbTree.rec (motive_1 := P) (motive_2 := fun ts => ∀ c ∈ ts, P c)
    (fun ty st js hs hj hh => node ty st js hs hj hh) (by simp)
    (fun t ts ht hts c hc => by
      rcases List.mem_cons.mp hc with rfl | hc
      · exact ht
      · exact hts c hc) t

end KbTree

/-! ### Places in a tree -/

/-- From a node to one of its children. -/
inductive Step where
  | job (i : ℕ)
  | handler (i : ℕ)
  deriving DecidableEq, Repr

abbrev Path := List Step

def KbTree.child? (t : KbTree) : Step → Option KbTree
  | .job i => t.jobs[i]?
  | .handler i => t.handlers[i]?

/-- The node at a place below `t`, with the tables of its ancestors; `up` are those of `t`. -/
def KbTree.at? : List Symtab → KbTree → Path → Option (List Symtab × KbTree)
  | up, t, [] => some (up, t)
  | up, t, s :: p =>
    match t.child? s with
    | none => none
    | some c => c.at? (t.symtab :: up) p

/-- `P` holds of every node of the tree, given the tables of its ancestors. -/
def KbTree.Forall (P : List Symtab → KbTree → Prop) (up : List Symtab) (t : KbTree) : Prop :=
  ∀ p up' n, t.at? up p = some (up', n) → P up' n

/-- `R` relates the nodes of two trees of the same shape, given the tables of the ancestors in the
first one. -/
def KbTree.Related (R : List Symtab → KbTree → KbTree → Prop) (up up₂ : List Symtab)
    (t t₂ : KbTree) : Prop :=
  ∀ p, (∀ up' n, t.at? up p = some (up', n) → ∃ up₂' n₂, t₂.at? up₂ p = some (up₂', n₂) ∧
    R up' n n₂) ∧ (t.at? up p = none → t₂.at? up₂ p = none)

/-! ### Access to the variables of a node -/

/-- ID, file name and line of a node; NULL when one of them has no value. -/
def kbnodeGetSrcdef (st : Symtab) : Option (CStr × CStr × ℕ) :=
  match kbsymtabGet st kbnodeKeyFname, kbsymtabGet st kbnodeKeyLine,
    kbsymtabGet st kbnodeKeyId with
  | some (f :: _), some (l :: _), some (i :: _) => some (i, f, (sscanfUnsigned 64 l).getD 0)
  | _, _, _ => none

def kbnodeGetvalueFirst (st : Symtab) (key : CStr) : CStr := kbsymtabGetString st key

/-- All values of a key, the empty array when it is not bound. -/
def kbnodeGetvalueAll (st : Symtab) (key : CStr) : List CStr := (kbsymtabGet st key).getD []

/-- Replace one value of a key. The bound lets `index` reach the number of values; that write lands
on the terminating NULL, which a list of strings does not have. -/
def kbnodeSetSingle (st : Symtab) (key : CStr) (index : ℕ) (newvalue : CStr) : Bool × Symtab :=
  match kbsymtabGet st key with
  | none | some [] => (false, st)
  | some values =>
    if index > values.length then (false, st)
    else (true, st.insert key (values.set index newvalue))

/-- The values of the nearest definition of `symbol` in a node or its ancestors. -/
def kbnodeResolve : List Symtab → CStr → Option (List CStr)
  | [], _ => none
  | st :: up, symbol =>
    match kbsymtabGet st symbol with
    | some values => some values
    | none => kbnodeResolve up symbol

/-- Does a node handle one of the signals? -/
def nodeFilterHandlers (st : Symtab) (signals : List CStr) : Bool :=
  signals.any fun s => (kbnodeGetvalueAll st kbnodeKeyHandles).any fun h => s = h

def kbnodeFilterHandlers (nodes : List Kbnode) (signals : List CStr) : List Kbnode :=
  nodes.filter fun n => nodeFilterHandlers n.symtab signals

/-- `strcmp`, by its sign. -/
def strcmp : CStr → CStr → ℤ
  | [], [] => 0
  | [], _ :: _ => -1
  | _ :: _, [] => 1
  | a :: s, b :: t => if a = b then strcmp s t else if a.toNat < b.toNat then -1 else 1

/-- Nodes are compared by ID; a node without ID is different from every node. -/
def kbnodeCmp (lhs rhs : Kbnode) : ℤ :=
  match kbsymtabGet lhs.symtab kbnodeKeyId, kbsymtabGet rhs.symtab kbnodeKeyId with
  | some (l :: _), some (r :: _) => strcmp l r
  | _, _ => 1

/-! ### The container library -/

/-- What the program relies on of the `ds_*` library: `ds_str_trim` takes white space off both ends,
`ds_str_strsubst` replaces occurrences, a copied table has the same entries, iterating a set visits
each element once and a NULL set has none, and `ds_array_rm` removes one pointer, or nothing behind
the end. -/
structure Libds where
  strTrim : CStr → CStr
  strTrim_eq : ∀ s, strTrim s = trim s
  strsubst : CStr → CStr → CStr → CStr
  strsubst_eq : ∀ src ref new, ref ≠ [] → strsubst src ref new = replaceAll ref new src
  hmapCopy : Symtab → Symtab
  hmapCopy_perm : ∀ st, (hmapCopy st).entries.Perm st.entries
  setIterate : Option (List Kbnode) → List Kbnode
  setIterate_perm : ∀ nodes, (setIterate (some nodes)).Perm nodes
  setIterate_null : setIterate none = []
  arrayRm : List ℕ → ℕ → List ℕ
  arrayRm_lt : ∀ ptrs i, i < ptrs.length → arrayRm ptrs i = ptrs.eraseIdx i
  arrayRm_past : ∀ ptrs i, ptrs.length ≤ i → arrayRm ptrs i = ptrs

/-- A library that keeps insertion order. -/
def Libds.ordered : Libds where
  strTrim := trim
  strTrim_eq _ := rfl
  strsubst src ref new := replaceAll ref new src
  strsubst_eq _ _ _ _ := rfl
  hmapCopy st := st
  hmapCopy_perm _ := List.Perm.refl _
  setIterate nodes := nodes.getD []
  setIterate_perm _ := List.Perm.refl _
  setIterate_null := rfl
  arrayRm ptrs i := ptrs.eraseIdx i
  arrayRm_lt _ _ _ := rfl
  arrayRm_past _ _ h := List.eraseIdx_of_length_le h

/-! ### Basic facts -/

@[simp] theorem KbTree.at?_nil (up : List Symtab) (t : KbTree) : t.at? up [] = some (up, t) := rfl

theorem KbTree.at?_cons (up : List Symtab) (t : KbTree) (s : Step) (p : Path) :
    t.at? up (s :: p) = (t.child? s).bind fun c => c.at? (t.symtab :: up) p := by
  rw [KbTree.at?]
  cases t.child? s <;> rfl

theorem KbTree.at?_append (up : List Symtab) (t : KbTree) (p q : Path) :
    t.at? up (p ++ q) = (t.at? up p).bind fun r => r.2.at? r.1 q := by
  induction p generalizing up t with
  | nil => rfl
  | cons s p ih =>
    rw [List.cons_append, KbTree.at?_cons, KbTree.at?_cons, Option.bind_assoc]
    exact congrArg _ (funext fun c => ih _ c)

theorem KbTree.forall_node {P : List Symtab → KbTree → Prop} {up : List Symtab} {ty : KbnodeType}
    {st : Symtab} {js hs : List KbTree} :
    KbTree.Forall P up (.node ty st js hs) ↔ P up (.node ty st js hs) ∧
      (∀ c ∈ js, c.Forall P (st :: up)) ∧ ∀ c ∈ hs, c.Forall P (st :: up) := by
  constructor
  · intro h
    refine ⟨h [] up _ rfl, ?_, ?_⟩
    · intro c hc p up' n hn
      obtain ⟨i, hi⟩ := List.mem_iff_getElem?.mp hc
      exact h (.job i :: p) up' n (by simp [KbTree.at?_cons, KbTree.child?, hi, hn])
    · intro c hc p up' n hn
      obtain ⟨i, hi⟩ := List.mem_iff_getElem?.mp hc
      exact h (.handler i :: p) up' n (by simp [KbTree.at?_cons, KbTree.child?, hi, hn])
  · rintro ⟨hroot, hj, hh⟩ p up' n hn
    cases p with
    | nil =>
      obtain ⟨rfl, rfl⟩ := Prod.mk.inj (Option.some.inj hn)
      exact hroot
    | cons s p =>
      rw [KbTree.at?_cons] at hn
      obtain ⟨c, hc, hcn⟩ := Option.bind_eq_some_iff.mp hn
      cases s with
      | job i => exact hj c (List.mem_of_getElem? hc) p up' n hcn
      | handler i => exact hh c (List.mem_of_getElem? hc) p up' n hcn

theorem KbTree.related_node {R : List Symtab → KbTree → KbTree → Prop} {up up₂ : List Symtab}
    {ty ty₂ : KbnodeType} {st st₂ : Symtab} {js hs js₂ hs₂ : List KbTree}
    (hroot : R up (.node ty st js hs) (.node ty₂ st₂ js₂ hs₂))
    (hj : List.Forall₂ (KbTree.Related R (st :: up) (st₂ :: up₂)) js js₂)
    (hh : List.Forall₂ (KbTree.Related R (st :: up) (st₂ :: up₂)) hs hs₂) :
    KbTree.Related R up up₂ (.node ty st js hs) (.node ty₂ st₂ js₂ hs₂) := by
  have hchild : ∀ {cs cs₂ : List KbTree},
      List.Forall₂ (KbTree.Related R (st :: up) (st₂ :: up₂)) cs cs₂ → ∀ (i : ℕ) (p : Path),
      (∀ up' n, (cs[i]?.bind fun c => c.at? (st :: up) p) = some (up', n) →
        ∃ up₂' n₂, (cs₂[i]?.bind fun c => c.at? (st₂ :: up₂) p) = some (up₂', n₂) ∧ R up' n n₂) ∧
      ((cs[i]?.bind fun c => c.at? (st :: up) p) = none →
        (cs₂[i]?.bind fun c => c.at? (st₂ :: up₂) p) = none) := by
    intro cs cs₂ h i p
    induction h generalizing i with
    | nil => simp
    | cons h _ ih =>
      cases i with
      | zero => simpa using h p
      | succ i => simpa using ih i
  intro p
  cases p with
  | nil => simpa using hroot
  | cons s p =>
    simp only [KbTree.at?_cons]
    cases s with
    | job i => exact hchild hj i p
    | handler i => exact hchild hh i p

theorem KbTree.Related.imp {R S : List Symtab → KbTree → KbTree → Prop} {up up₂ : List Symtab}
    {t t₂ : KbTree} (hRS : ∀ up n n₂, R up n n₂ → S up n n₂) (h : KbTree.Related R up up₂ t t₂) :
    KbTree.Related S up up₂ t t₂ := by
  refine fun p => ⟨fun up' n hn => ?_, (h p).2⟩
  obtain ⟨up₂', n₂, hn₂, hR⟩ := (h p).1 up' n hn
  exact ⟨up₂', n₂, hn₂, hRS _ _ _ hR⟩

/-- Nodes in the same place of related trees, with their ancestors. -/
theorem KbTree.Related.ancestors {S : Symtab → Symtab → Prop}
    {R : List Symtab → KbTree → KbTree → Prop} (hRS : ∀ up n n₂, R up n n₂ → S n.symtab n₂.symtab)
    {up up₂ : List Symtab} {t t₂ : KbTree} (h : KbTree.Related R up up₂ t t₂)
    (hup : List.Forall₂ S up up₂) {p : Path} {up' up₂' : List Symtab} {n n₂ : KbTree}
    (hn : t.at? up p = some (up', n)) (hn₂ : t₂.at? up₂ p = some (up₂', n₂)) :
    List.Forall₂ S up' up₂' := by
  induction p generalizing up up₂ t t₂ with
  | nil =>
    obtain ⟨rfl, -⟩ := Prod.mk.inj (Option.some.inj hn)
    obtain ⟨rfl, -⟩ := Prod.mk.inj (Option.some.inj hn₂)
    exact hup
  | cons s p ih =>
    rw [KbTree.at?_cons] at hn hn₂
    obtain ⟨c, hc, hcn⟩ := Option.bind_eq_some_iff.mp hn
    obtain ⟨c₂, hc₂, hcn₂⟩ := Option.bind_eq_some_iff.mp hn₂
    obtain ⟨_, _, hroot, hR⟩ := (h []).1 _ _ (KbTree.at?_nil up t)
    obtain ⟨-, rfl⟩ := Prod.mk.inj (Option.some.inj hroot)
    have hrel : KbTree.Related R (t.symtab :: up) (t₂.symtab :: up₂) c c₂ := by
      intro q
      have hq := h (s :: q)
      rwa [KbTree.at?_cons, KbTree.at?_cons, hc, hc₂] at hq
    exact ih hrel (.cons (hRS _ _ _ hR) hup) hcn hcn₂

/-- What holds of every node is carried over to the nodes of a related tree. -/
theorem KbTree.Related.forall_imp {R : List Symtab → KbTree → KbTree → Prop}
    {P Q : List Symtab → KbTree → Prop} {up up₂ : List Symtab} {t t₂ : KbTree}
    (h : KbTree.Related R up up₂ t t₂) (hP : t.Forall P up)
    (hR : ∀ p up' n up₂' n₂, t.at? up p = some (up', n) → t₂.at? up₂ p = some (up₂', n₂) →
      R up' n n₂ → P up' n → Q up₂' n₂) : t₂.Forall Q up₂ := by
  intro p up₂' n₂ hn₂
  cases hn : t.at? up p with
  | none => simp [(h p).2 hn] at hn₂
  | some m =>
    obtain ⟨_, _, hm, hRm⟩ := (h p).1 m.1 m.2 hn
    obtain ⟨rfl, rfl⟩ := Prod.mk.inj (Option.some.inj (hn₂.symm.trans hm))
    exact hR p _ _ _ _ hn hn₂ hRm (hP p m.1 m.2 hn)

theorem KbTree.Related.trans {R R₂ R₃ : List Symtab → KbTree → KbTree → Prop}
    {up up₂ up₃ : List Symtab} {t t₂ t₃ : KbTree} (h : KbTree.Related R up up₂ t t₂)
    (h₂ : KbTree.Related R₂ up₂ up₃ t₂ t₃)
    (hR : ∀ p up' n up₂' n₂ n₃, t.at? up p = some (up', n) → t₂.at? up₂ p = some (up₂', n₂) →
      R up' n n₂ → R₂ up₂' n₂ n₃ → R₃ up' n n₃) :
    KbTree.Related R₃ up up₃ t t₃ := by
  refine fun p => ⟨fun up' n hn => ?_, fun hn => (h₂ p).2 ((h p).2 hn)⟩
  obtain ⟨up₂', n₂, hn₂, hR₁⟩ := (h p).1 up' n hn
  obtain ⟨up₃', n₃, hn₃, hR₂⟩ := (h₂ p).1 up₂' n₂ hn₂
  exact ⟨up₃', n₃, hn₃, hR p up' n up₂' n₂ n₃ hn hn₂ hR₁ hR₂⟩

/-- Trees related to one tree are related to each other. -/
theorem KbTree.Related.comp {R R₂ R₃ : List Symtab → KbTree → KbTree → Prop}
    {up up₂ up₃ : List Symtab} {t t₂ t₃ : KbTree} (h₂ : KbTree.Related R₂ up up₂ t t₂)
    (h₃ : KbTree.Related R₃ up up₃ t t₃)
    (hR : ∀ p up' n up₂' n₂ up₃' n₃, t.at? up p = some (up', n) → t₂.at? up₂ p = some (up₂', n₂) →
      t₃.at? up₃ p = some (up₃', n₃) → R₂ up' n n₂ → R₃ up' n n₃ → R up₂' n₂ n₃) :
    KbTree.Related R up₂ up₃ t₂ t₃ := by
  intro p
  cases hn : t.at? up p with
  | none => simp [(h₂ p).2 hn, (h₃ p).2 hn]
  | some m =>
    obtain ⟨up', n⟩ := m
    obtain ⟨up₂', n₂, hn₂, hR₂⟩ := (h₂ p).1 up' n hn
    obtain ⟨up₃', n₃, hn₃, hR₃⟩ := (h₃ p).1 up' n hn
    simpa [hn₂, hn₃] using hR p up' n up₂' n₂ up₃' n₃ hn hn₂ hn₃ hR₂ hR₃

theorem strcmp_eq_zero {s t : CStr} : strcmp s t = 0 ↔ s = t := by
  induction s generalizing t with
  | nil => cases t <;> simp [strcmp]
  | cons a s ih =>
    cases t with
    | nil => simp [strcmp]
    | cons b t =>
      by_cases hab : a = b
      · simp [strcmp, hab, ih]
      · by_cases hlt : a.toNat < b.toNat <;> simp [strcmp, hab, hlt]

theorem kbnodeCmp_eq_zero {lhs rhs : Kbnode} :
    kbnodeCmp lhs rhs = 0 ↔ ∃ id ls rs, kbsymtabGet lhs.symtab kbnodeKeyId = some (id :: ls) ∧
      kbsymtabGet rhs.symtab kbnodeKeyId = some (id :: rs) := by
  unfold kbnodeCmp
  split
  · next l ls r rs hl hr => simp [hl, hr, strcmp_eq_zero, eq_comm]
  · next h =>
    simp only [one_ne_zero, false_iff, not_exists, not_and]
    intro id ls rs hl hr
    exact h _ _ _ _ hl hr

theorem kbnodeGetSrcdef_eq_none {st : Symtab} : kbnodeGetSrcdef st = none ↔
    kbnodeGetvalueAll st kbnodeKeyFname = [] ∨ kbnodeGetvalueAll st kbnodeKeyLine = [] ∨
      kbnodeGetvalueAll st kbnodeKeyId = [] := by
  unfold kbnodeGetSrcdef kbnodeGetvalueAll
  rcases kbsymtabGet st kbnodeKeyFname with _ | _ | _ <;>
    rcases kbsymtabGet st kbnodeKeyLine with _ | _ | _ <;>
    rcases kbsymtabGet st kbnodeKeyId with _ | _ | _ <;> simp

/-- A node with an ID, an origin and these variables. -/
def KbTree.ofVars (id : CStr) (vars : List (CStr × List CStr)) (jobs handlers : List KbTree) :
    KbTree :=
  .node .job (symtabOf ((kbnodeKeyId, [id]) :: (kbnodeKeyFname, ["f".toList]) ::
    (kbnodeKeyLine, ["1".toList]) :: vars)) jobs handlers

theorem kbsymtabKeys_of_srcdef {st : Symtab} (h : kbnodeGetSrcdef st ≠ none) :
    kbsymtabKeys st = some st.keys := by
  cases hf : kbsymtabGet st kbnodeKeyFname with
  | none => simp [kbnodeGetSrcdef, hf] at h
  | some vs => exact kbsymtabKeys_eq_some hf

theorem nodeFilterHandlers_iff {st : Symtab} {signals : List CStr} :
    nodeFilterHandlers st signals = true ↔
      ∃ s ∈ signals, s ∈ kbnodeGetvalueAll st kbnodeKeyHandles := by
  simp [nodeFilterHandlers]

theorem kbnodeSetSingle_refused {st : Symtab} {key : CStr} {values : List CStr} {index : ℕ}
    (hget : kbsymtabGet st key = some values) (h : values = [] ∨ values.length < index)
    (newvalue : CStr) : kbnodeSetSingle st key index newvalue = (false, st) := by
  cases values with
  | nil => simp only [kbnodeSetSingle, hget]
  | cons v vs =>
    have hgt : index > (v :: vs).length := h.resolve_left (List.cons_ne_nil v vs)
    simp only [kbnodeSetSingle, hget, if_pos hgt]

theorem kbnodeSetSingle_stored {st : Symtab} {key : CStr} {values : List CStr} {index : ℕ}
    (hget : kbsymtabGet st key = some values) (hne : values ≠ []) (hle : index ≤ values.length)
    (newvalue : CStr) :
    kbnodeSetSingle st key index newvalue = (true, st.insert key (values.set index newvalue)) := by
  obtain ⟨v, vs, rfl⟩ := List.exists_cons_of_ne_nil hne
  simp only [kbnodeSetSingle, hget, if_neg (not_lt.mpr hle)]

/-- Within the array a single value is replaced and nothing else changes. -/
theorem kbnodeSetSingle_get {st : Symtab} {key : CStr} {values : List CStr} {index : ℕ}
    (hget : kbsymtabGet st key = some values) (hlt : index < values.length) (newvalue k : CStr) :
    kbsymtabGet (kbnodeSetSingle st key index newvalue).2 k =
      if k = key then some (values.set index newvalue) else kbsymtabGet st k := by
  rw [kbnodeSetSingle_stored hget (List.ne_nil_of_length_pos (Nat.zero_lt_of_lt hlt)) hlt.le]
  exact kbsymtabGet_insert st key k _

end Kubeka
