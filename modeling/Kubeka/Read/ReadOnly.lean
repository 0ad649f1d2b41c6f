import Kubeka.Assign.Keys

/-!
# Read-only variables

Whatever a file assigns, one call changes one variable, whose name has no
bracket and does not start with an underscore. So the variables that `node_new`
has set keep their values, and every variable stands in the table under the
name by which it is looked up.
-/

namespace Kubeka

variable {L : Libds} {st st' : Symtab}

/-- A line `key = value` or `key += value` of a file; the program never forces it. -/
inductive Assignment where
  | set (alloc : Alloc) (key value : CStr)
  | append (alloc : Alloc) (key value : CStr)

namespace Assignment

def key : Assignment → CStr
  | set _ key _ => key
  | append _ key _ => key

/-- The base name that is assigned to. -/
def name (o : Assignment) : CStr := normaliseKey o.key

/-- `none` where the call has no defined result. -/
def apply (L : Libds) (st : Symtab) : Assignment → Option (Bool × Symtab)
  | set alloc key value => some (kbsymtabSet L alloc false st key value)
  | append alloc key value => kbsymtabAppend alloc false st key value

end Assignment

/-- One assignment after the other, also after one that failed. -/
def assignAll (L : Libds) (st : Symtab) : List Assignment → Option Symtab
  | [] => some st
  | o :: ops => (o.apply L st).bind fun r => assignAll L r.2 ops

/-! ### Names and tables -/

theorem kbsymtabGet_erase (st : Symtab) (k k' : CStr) :
    kbsymtabGet (st.erase k) k' = if k' = k then none else kbsymtabGet st k' := by
  split_ifs with h
  · rw [h]
    exact AList.lookup_erase _ _
  · exact AList.lookup_erase_ne h

theorem mem_keys_iff {key : CStr} : key ∈ st.keys ↔ ∃ vs, kbsymtabGet st key = some vs := by
  rw [← AList.mem_keys, ← AList.lookup_isSome, Option.isSome_iff_exists, kbsymtabGet]

/-- No key of the table has a bracket. -/
def PlainKeys (st : Symtab) : Prop := ∀ k ∈ st.keys, '[' ∉ k

/-- Only the variable `name` is changed. -/
def ChangesOnly (name : CStr) (st st' : Symtab) : Prop :=
  ∀ k, k ≠ name → kbsymtabGet st' k = kbsymtabGet st k

theorem changesOnly_insert (st : Symtab) (name : CStr) (vs : List CStr) :
    ChangesOnly name st (st.insert name vs) :=
  fun k hk => by rw [kbsymtabGet_insert, if_neg hk]

theorem changesOnly_erase (st : Symtab) (name : CStr) : ChangesOnly name st (st.erase name) :=
  fun k hk => by rw [kbsymtabGet_erase, if_neg hk]

theorem ChangesOnly.plainKeys {name : CStr} (h : ChangesOnly name st st') (hname : '[' ∉ name)
    (hst : PlainKeys st) : PlainKeys st' := by
  intro k hk
  by_cases hkn : k = name
  · rwa [hkn]
  · rw [mem_keys_iff, h k hkn, ← mem_keys_iff] at hk
    exact hst k hk

/-! ### What one call can do -/

theorem forced_or_writable {force : Bool} {name : CStr}
    (h : ¬ (force = false ∧ detectKeyclass name = .ro)) :
    force = true ∨ detectKeyclass name ≠ .ro := by
  cases force
  · exact .inr fun hro => h ⟨rfl, hro⟩
  · exact .inl rfl

/-- A value is stored under the normalised name, or nothing is changed. -/
theorem kbsymtabSet_cases (hst : PlainKeys st) (alloc : Alloc) (force : Bool) (key value : CStr) :
    kbsymtabSet L alloc force st key value = (false, st) ∨
      (force = true ∨ detectKeyclass (normaliseKey key) ≠ .ro) ∧
        ∃ ok vs,
          kbsymtabSet L alloc force st key value = (ok, st.insert (normaliseKey key) vs) := by
  generalize hr : kbsymtabSet L alloc force st key value = r
  simp only [kbsymtabSet] at hr
  split at hr
  · exact .inl hr.symm
  split at hr
  · exact .inl hr.symm
  next hro =>
    have hforce := forced_or_writable hro
    split at hr
    · exact .inl hr.symm
    split at hr
    · exact .inl hr.symm
    split at hr
    · -- an unbound variable is created
      split at hr
      · exact .inl hr.symm
      split at hr
      · exact .inl hr.symm
      · exact .inr ⟨hforce, _, _, hr.symm⟩
    · next existing hget =>
      -- a bound key has no bracket, so it is its own normalised name
      have hname : normaliseKey key = key :=
        normaliseKey_of_plain (hst key (mem_keys_iff.mpr ⟨existing, hget⟩))
      rw [hname] at hforce ⊢
      split at hr
      · exact .inl hr.symm
      split at hr
      · exact .inl hr.symm
      · exact .inr ⟨hforce, _, _, hr.symm⟩
      · split at hr
        · exact .inr ⟨hforce, _, _, hr.symm⟩
        · exact .inr ⟨hforce, _, _, hr.symm⟩

theorem replaceValue_cases {alloc : Alloc} {name value : CStr} {keytype : Keytype}
    {r : Bool × Symtab} (h : replaceValue alloc st name keytype value = some r) :
    r.2 = st.erase name ∨ ∃ vs, r.2 = (st.erase name).insert name vs := by
  unfold replaceValue at h
  split at h
  · contradiction
  · obtain rfl := Option.some.inj h
    exact .inl rfl
  · split at h
    · obtain rfl := Option.some.inj h
      exact .inl rfl
    · split at h
      · obtain rfl := Option.some.inj h
        exact .inl rfl
      · obtain rfl := Option.some.inj h
        exact .inr ⟨_, rfl⟩

/-- An array is stored under the normalised name, or the variable is lost, or nothing is changed. -/
theorem kbsymtabAppend_cases {alloc : Alloc} {force : Bool} {key value : CStr} {r : Bool × Symtab}
    (h : kbsymtabAppend alloc force st key value = some r) : r = (false, st) ∨
      (force = true ∨ detectKeyclass (normaliseKey key) ≠ .ro) ∧
        (r.2 = st.erase (normaliseKey key) ∨
          ∃ vs, r.2 = (st.erase (normaliseKey key)).insert (normaliseKey key) vs) := by
  simp only [kbsymtabAppend] at h
  split at h
  · exact .inl (Option.some.inj h).symm
  split at h
  · exact .inl (Option.some.inj h).symm
  next hro =>
    have hforce := forced_or_writable hro
    split at h
    · split at h
      · exact .inl (Option.some.inj h).symm
      · exact .inr ⟨hforce, replaceValue_cases h⟩
    · exact .inr ⟨hforce, replaceValue_cases h⟩
    · exact .inl (Option.some.inj h).symm

namespace Assignment

variable {o : Assignment} {r : Bool × Symtab}

/-- An assignment changes nothing, or only a variable that may be written. -/
theorem apply_cases (h : o.apply L st = some r) (hst : PlainKeys st) :
    r = (false, st) ∨ detectKeyclass o.name ≠ .ro ∧ ChangesOnly o.name st r.2 := by
  cases o with
  | set alloc key value =>
    obtain rfl := Option.some.inj h
    rcases kbsymtabSet_cases hst alloc false key value with hset | ⟨hro, ok, vs, hset⟩
    · exact .inl hset
    · rw [hset]
      exact .inr ⟨hro.resolve_left Bool.false_ne_true, changesOnly_insert _ _ _⟩
  | append alloc key value =>
    rcases kbsymtabAppend_cases h with rfl | ⟨hro, happend⟩
    · exact .inl rfl
    · refine .inr ⟨hro.resolve_left Bool.false_ne_true, ?_⟩
      rcases happend with happend | ⟨vs, happend⟩
      · rw [happend]
        exact changesOnly_erase _ _
      · rw [happend]
        intro k hk
        exact (changesOnly_insert _ _ _ k hk).trans (changesOnly_erase _ _ k hk)

theorem plainKeys_apply (h : o.apply L st = some r) (hst : PlainKeys st) : PlainKeys r.2 := by
  rcases apply_cases h hst with rfl | ⟨-, honly⟩
  · exact hst
  · exact honly.plainKeys (normaliseKey_plain _) hst

/-- A read-only variable is not changed. -/
theorem get_apply_of_ro (h : o.apply L st = some r) (hst : PlainKeys st) {key : CStr}
    (hkey : key.head? = some '_') : kbsymtabGet r.2 key = kbsymtabGet st key := by
  rcases apply_cases h hst with rfl | ⟨hro, honly⟩
  · rfl
  · refine honly key fun heq => hro ?_
    rw [← heq, detectKeyclass, if_pos hkey]

end Assignment

/-! ### Whole runs -/

theorem assignAll_append (st : Symtab) (ops ops' : List Assignment) :
    assignAll L st (ops ++ ops') = (assignAll L st ops).bind fun st' => assignAll L st' ops' := by
  induction ops generalizing st with
  | nil => rfl
  | cons o ops ih =>
    rw [List.cons_append, assignAll, assignAll, Option.bind_assoc]
    simp only [ih]

/-- What every call preserves is preserved by all of them. -/
theorem assignAll_induction {P : Symtab → Prop}
    (hstep : ∀ {st o r}, P st → Assignment.apply L st o = some r → P r.2) {ops : List Assignment}
    (hst : P st) (h : assignAll L st ops = some st') : P st' := by
  induction ops generalizing st with
  | nil =>
    obtain rfl := Option.some.inj h
    exact hst
  | cons o ops ih =>
    obtain ⟨r, hr, hrest⟩ := Option.bind_eq_some_iff.mp h
    exact ih (hstep hst hr) hrest

theorem plainKeys_assignAll (hst : PlainKeys st) {ops : List Assignment}
    (h : assignAll L st ops = some st') : PlainKeys st' :=
  assignAll_induction (fun hst hr => Assignment.plainKeys_apply hr hst) hst h

theorem get_assignAll_of_ro (hst : PlainKeys st) {ops : List Assignment}
    (h : assignAll L st ops = some st') {key : CStr} (hkey : key.head? = some '_') :
    kbsymtabGet st' key = kbsymtabGet st key := by
  have hkept : PlainKeys st' ∧ kbsymtabGet st' key = kbsymtabGet st key := by
    refine assignAll_induction (P := fun s => PlainKeys s ∧ kbsymtabGet s key = kbsymtabGet st key)
      (fun hs hr => ?_) ⟨hst, rfl⟩ h
    exact ⟨Assignment.plainKeys_apply hr hs.1, (Assignment.get_apply_of_ro hr hs.1 hkey).trans hs.2⟩
  exact hkept.2

theorem plainKeys_nodeNewSymtab {allocFname allocLine : Alloc} {fname : CStr} {line : ℕ}
    (h : nodeNewSymtab L allocFname allocLine fname line = some st) : PlainKeys st := by
  have hset : ∀ {st st' : Symtab} {alloc : Alloc} {ok : Bool} {key value : CStr}, PlainKeys st →
      kbsymtabSet L alloc true st key value = (ok, st') → PlainKeys st' := by
    intro st st' alloc ok key value hst h
    rcases kbsymtabSet_cases hst alloc true key value with h' | ⟨-, _, vs, h'⟩
    · obtain ⟨-, rfl⟩ := Prod.mk.inj (h.symm.trans h')
      exact hst
    · obtain ⟨-, rfl⟩ := Prod.mk.inj (h.symm.trans h')
      exact (changesOnly_insert _ _ _).plainKeys (normaliseKey_plain _) hst
  have hempty : PlainKeys ∅ := by simp [PlainKeys]
  unfold nodeNewSymtab at h
  split at h
  · simp at h
  · next st₁ hfname =>
    split at h
    · simp at h
    · next st₂ hline =>
      obtain rfl := Option.some.inj h
      exact hset (hset hempty hfname) hline

end Kubeka
