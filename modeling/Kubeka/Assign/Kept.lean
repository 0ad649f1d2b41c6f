import Kubeka.Assign.Atomic

/-!
# Variables that are kept

Read-only variables keep their values whatever a file assigns, and every
variable stands under its base name. It is found there from the call on that
has set it, as long as no append takes it out for lack of memory, and no append
goes behind the end of an array, after which nothing is defined.
-/

namespace Kubeka

variable {L : Libds} {st st' : Symtab} {alloc : Alloc} {key value : CStr}

/-- A lookup by the base name finds the variable. -/
def Bound (st : Symtab) (name : CStr) : Prop := ∃ vs, kbsymtabGet st name = some vs

/-- What the table `st` of a new node has become after these calls: the read-only variables have
their values and no other one has come up, every key is a base name that occurs once, and every
variable that a call has set is found. -/
structure KeepsReadOnly (L : Libds) (st : Symtab) (ops : List Assignment) (st' : Symtab) :
    Prop where
  readOnly : ∀ k, k.head? = some '_' → kbsymtabGet st' k = kbsymtabGet st k
  plain : PlainKeys st'
  once : st'.keys.Nodup
  found : ∀ before o after st₁ st₂, ops = before ++ o :: after → assignAll L st before = some st₁ →
    o.apply L st₁ = some (true, st₂) → Bound st' o.name

/-- This holds of every state that the calls come to, and they all have a result. -/
def ReadOnlyKept (L : Libds) (st : Symtab) (ops : List Assignment) : Prop :=
  ∀ before after, ops = before ++ after → ∃ st', assignAll L st before = some st' ∧
    KeepsReadOnly L st before st'

/-- Nothing that the append allocates is refused, but for the larger array of a variable that is
there, and it does not go behind the end of an array; or what is lost was not there. -/
def AppendKeeps (alloc : Alloc) (st : Symtab) (key : CStr) : Prop :=
  (∀ site ∈ appendSites (nexisting st key) (detectKeytype .all key),
      alloc site = true ∨ site = .grown ∧ Bound st (normaliseKey key)) ∧
      (∀ i, detectKeytype .all key = .index i → nexisting st key = 0 → i = 0) ∨
    kbsymtabGet st (normaliseKey key) = none ∧
      ∃ site ∈ appendSites (nexisting st key) (detectKeytype .all key),
        site ≠ .grown ∧ alloc site = false

/-- The call is refused, or keeps the variable. A set takes no variable out of the table. -/
def Assignment.Keeps (st : Symtab) : Assignment → Prop
  | set _ _ _ => True
  | append alloc key _ => Accepts alloc false key →
      (detectKeytype .all key).Fits (nexisting st key) → AppendKeeps alloc st key

/-- The call has a result, the variable is found when it was found before, and when the call says
that it was set. -/
def KeepsBound (st : Symtab) (name : CStr) (run : Option (Bool × Symtab)) : Prop :=
  ∃ r, run = some r ∧ (Bound st name → Bound r.2 name) ∧ (r.1 = true → Bound r.2 name)

/-! ### One call -/

theorem bound_insert (st : Symtab) (name : CStr) (vs : List CStr) :
    Bound (st.insert name vs) name := ⟨vs, by rw [kbsymtabGet_insert, if_pos rfl]⟩

theorem not_bound_iff {name : CStr} : ¬ Bound st name ↔ kbsymtabGet st name = none := by
  rw [Bound, ← Option.ne_none_iff_exists', not_not]

theorem not_bound_erase (st : Symtab) (name : CStr) : ¬ Bound (st.erase name) name :=
  not_bound_iff.mpr (by rw [kbsymtabGet_erase, if_pos rfl])

theorem keepsBound_refused (st : Symtab) (name : CStr) : KeepsBound st name (some (false, st)) :=
  ⟨_, rfl, id, by simp⟩

theorem keepsBound_stored {name : CStr} (ok : Bool) (st₁ : Symtab) (vs : List CStr) :
    KeepsBound st name (some (ok, st₁.insert name vs)) :=
  ⟨_, rfl, fun _ => bound_insert _ _ _, fun _ => bound_insert _ _ _⟩

/-- An append that has failed has taken the variable out. -/
theorem keepsBound_lost_iff {name : CStr} :
    KeepsBound st name (some (false, st.erase name)) ↔ kbsymtabGet st name = none := by
  rw [← not_bound_iff]
  constructor
  · rintro ⟨r, hr, hkept, -⟩ hbound
    obtain rfl := Option.some.inj hr
    exact not_bound_erase st name (hkept hbound)
  · exact fun hnone => ⟨_, rfl, fun hbound => absurd hbound hnone, by simp⟩

variable {keytype : Keytype} {name : CStr}

/-- Only the larger array is missing, and the old one is stored again: a variable that was not there
is said to be set. -/
theorem replaceValue_ungrown (hentry : alloc .entry = true) (hnewval : alloc .newval = true)
    (hgrown : alloc .grown = false) :
    KeepsBound st name (replaceValue alloc st name .array value) ↔ Bound st name := by
  have hkept : appendValue alloc (kbsymtabGet st name) .array value =
      .array (kbsymtabGet st name) := by simp [appendValue, hnewval, hgrown]
  rw [replaceValue, hkept]
  cases hget : kbsymtabGet st name with
  | none =>
    simp only [hentry, not_true_eq_false, if_false]
    refine iff_of_false ?_ (not_bound_iff.mpr hget)
    rintro ⟨r, hr, -, hset⟩
    obtain rfl := Option.some.inj hr
    exact not_bound_erase st name (hset rfl)
  | some vs =>
    simp only [hentry, not_true_eq_false, if_false]
    exact iff_of_true (keepsBound_stored _ _ _) ⟨vs, hget⟩

theorem replaceValue_keepsBound_iff (hfits : keytype.Fits ((kbsymtabGet st name).getD []).length) :
    KeepsBound st name (replaceValue alloc st name keytype value) ↔
      (∀ site ∈ appendSites ((kbsymtabGet st name).getD []).length keytype,
          alloc site = true ∨ site = .grown ∧ Bound st name) ∧
          (∀ i, keytype = .index i → ((kbsymtabGet st name).getD []).length = 0 → i = 0) ∨
        kbsymtabGet st name = none ∧
          ∃ site ∈ appendSites ((kbsymtabGet st name).getD []).length keytype,
            site ≠ .grown ∧ alloc site = false := by
  by_cases hfail : ∃ site ∈ appendSites ((kbsymtabGet st name).getD []).length keytype,
      site ≠ .grown ∧ alloc site = false
  · rw [replaceValue_fails value hfail, keepsBound_lost_iff, and_iff_left hfail]
    refine (or_iff_right fun h => ?_).symm
    obtain ⟨site, hsite, hgrown, hno⟩ := hfail
    rcases h.1 site hsite with hyes | ⟨heq, -⟩
    · simp [hyes] at hno
    · exact hgrown heq
  · rw [or_iff_left fun h => hfail h.2]
    push Not at hfail
    by_cases hall : ∀ site ∈ appendSites ((kbsymtabGet st name).getD []).length keytype,
        alloc site = true
    · rw [and_iff_right fun site hsite => .inl (hall site hsite),
        ← appendRequest_isSome_iff value hfits, replaceValue, appendValue_of_sites value hfits hall]
      cases hrequest : appendRequest (kbsymtabGet st name) keytype value with
      | none => simp [KeepsBound]
      | some new =>
        have hfresh := (appendRequest_isSome_iff value hfits).mp ⟨new, hrequest⟩
        have hentry := hall _ (entry_mem_appendSites hfits hfresh)
        simp only [hentry, not_true_eq_false, if_false]
        exact iff_of_true (keepsBound_stored _ _ _) ⟨new, rfl⟩
    · obtain ⟨site, hsite, hno⟩ := not_forall₂.mp hall
      have hgrown : site = .grown := by
        by_contra hne
        exact hno (by simpa using hfail site hsite hne)
      subst hgrown
      obtain rfl := array_of_grown hsite
      have hnewval : alloc .newval = true := by
        simpa using hfail .newval (by simp [appendSites]) (by simp)
      have hentry : alloc .entry = true := by
        simpa using hfail .entry (by simp [appendSites]) (by simp)
      rw [replaceValue_ungrown hentry hnewval (by simpa using hno)]
      simp [appendSites, hnewval, hentry, hno]

theorem kbsymtabSet_keepsBound (hst : PlainKeys st) (alloc : Alloc) (key value : CStr) :
    KeepsBound st (normaliseKey key) (some (kbsymtabSet L alloc false st key value)) := by
  rcases kbsymtabSet_cases hst alloc false key value with h | ⟨-, ok, vs, h⟩
  · rw [h]
    exact keepsBound_refused _ _
  · rw [h]
    exact keepsBound_stored _ _ _

theorem Assignment.keeps_iff (hst : PlainKeys st) (o : Assignment) :
    o.Keeps st ↔ KeepsBound st o.name (o.apply L st) := by
  cases o with
  | set alloc key value => exact iff_of_true trivial (kbsymtabSet_keepsBound hst alloc key value)
  | append alloc key value =>
    rw [Keeps, apply]
    by_cases h : Accepts alloc false key ∧ (detectKeytype .all key).Fits (nexisting st key)
    · rw [kbsymtabAppend_accepted h.1 h.2]
      exact ⟨fun hkeeps => (replaceValue_keepsBound_iff h.2).mpr (hkeeps h.1 h.2),
        fun hbound _ _ => (replaceValue_keepsBound_iff h.2).mp hbound⟩
    · rw [kbsymtabAppend_refused (not_and_or.mp h)]
      exact iff_of_true (fun haccepts hfits => absurd ⟨haccepts, hfits⟩ h)
        (keepsBound_refused _ _)

/-! ### Who has set a variable -/

theorem storeValue_failed (hst : PlainKeys st) {varray : List CStr}
    (h : storeValue alloc st key varray = (false, st')) (hbound : Bound st' (normaliseKey key)) :
    Bound st (normaliseKey key) := by
  cases hget : kbsymtabGet st key with
  | none =>
    rw [storeValue_unbound hget] at h
    split_ifs at h
    · simp at h
    · rwa [(Prod.mk.inj h).2]
  | some existing =>
    rw [normaliseKey_of_plain (hst key (mem_keys_iff.mpr ⟨existing, hget⟩))]
    exact ⟨existing, hget⟩

theorem replaceValue_failed (h : replaceValue alloc st name keytype value = some (false, st')) :
    st' = st.erase name := by
  unfold replaceValue at h
  split at h
  · contradiction
  · exact (Prod.mk.inj (Option.some.inj h)).2.symm
  · split_ifs at h
    · split at h
      · simp at h
      · simp at h
    · exact (Prod.mk.inj (Option.some.inj h)).2.symm

/-- A call that fails binds nothing. -/
theorem Assignment.bound_of_failed (hst : PlainKeys st) {o : Assignment}
    (h : o.apply L st = some (false, st')) (hbound : Bound st' o.name) : Bound st o.name := by
  cases o with
  | set alloc key value =>
    have hset : kbsymtabSet L alloc false st key value = (false, st') := Option.some.inj h
    by_cases haccepts : Accepts alloc false key
    · cases hparse : parseValue L alloc value with
      | none =>
        rw [kbsymtabSet_refused (.inr hparse)] at hset
        rwa [(Prod.mk.inj hset).2]
      | some varray =>
        rw [kbsymtabSet_accepted haccepts hparse] at hset
        exact storeValue_failed hst hset hbound
    · rw [kbsymtabSet_refused (.inl haccepts)] at hset
      rwa [(Prod.mk.inj hset).2]
  | append alloc key value =>
    rw [apply] at h
    by_cases hok : Accepts alloc false key ∧ (detectKeytype .all key).Fits (nexisting st key)
    · rw [kbsymtabAppend_accepted hok.1 hok.2] at h
      rw [replaceValue_failed h] at hbound
      exact absurd hbound (not_bound_erase st _)
    · rw [kbsymtabAppend_refused (not_and_or.mp hok)] at h
      rwa [(Prod.mk.inj (Option.some.inj h)).2]

/-- Other variables stay bound, or unbound. -/
theorem Assignment.bound_apply_iff (hst : PlainKeys st) {o : Assignment} {r : Bool × Symtab}
    (h : o.apply L st = some r) {k : CStr} (hk : k ≠ o.name) : Bound r.2 k ↔ Bound st k := by
  rcases apply_cases h hst with rfl | ⟨-, honly⟩
  · exact Iff.rfl
  · rw [Bound, Bound, honly k hk]

theorem assignAll_concat (st : Symtab) (ops : List Assignment) (o : Assignment) :
    assignAll L st (ops ++ [o]) =
      (assignAll L st ops).bind fun st₁ => (o.apply L st₁).map Prod.snd := by
  rw [assignAll_append]
  refine congrArg (Option.bind (assignAll L st ops)) (funext fun st₁ => ?_)
  rw [assignAll]
  cases o.apply L st₁ <;> rfl

/-- A variable that is found was there from the start, or a call has set it. -/
theorem setBefore_of_bound (hst : PlainKeys st) {ops : List Assignment} {k : CStr}
    (h : assignAll L st ops = some st') (hbound : Bound st' k) : Bound st k ∨
      ∃ before o after st₁ st₂, ops = before ++ o :: after ∧ assignAll L st before = some st₁ ∧
        o.apply L st₁ = some (true, st₂) ∧ o.name = k := by
  induction ops using List.reverseRecOn generalizing st' with
  | nil =>
    obtain rfl := Option.some.inj h
    exact .inl hbound
  | append_singleton ops o ih =>
    rw [assignAll_concat] at h
    obtain ⟨st₁, hst₁, hlast⟩ := Option.bind_eq_some_iff.mp h
    obtain ⟨⟨ok, st₂⟩, hr, rfl⟩ := Option.map_eq_some_iff.mp hlast
    have hplain := plainKeys_assignAll hst hst₁
    by_cases hset : ok = true ∧ o.name = k
    · obtain ⟨rfl, hname⟩ := hset
      exact .inr ⟨ops, o, [], st₁, st₂, rfl, hst₁, hr, hname⟩
    · have hbefore : Bound st₁ k := by
        by_cases hname : k = o.name
        · subst hname
          obtain rfl : ok = false := by simpa using hset
          exact Assignment.bound_of_failed hplain hr hbound
        · exact (Assignment.bound_apply_iff hplain hr hname).mp hbound
      rcases ih hst₁ hbefore with hstart | ⟨before, o', after, s₁, s₂, rfl, hrest⟩
      · exact .inl hstart
      · exact .inr ⟨before, o', after ++ [o], s₁, s₂, by simp, hrest⟩

/-- The variables of a new node are read-only. -/
theorem ro_of_nodeNewSymtab {allocFname allocLine : Alloc} {fname : CStr} {line : ℕ}
    (h : nodeNewSymtab L allocFname allocLine fname line = some st) {k : CStr} (hk : Bound st k) :
    k.head? = some '_' := by
  have honly : ∀ {st st' : Symtab} {alloc : Alloc} {ok : Bool} {key value : CStr}, PlainKeys st →
      kbsymtabSet L alloc true st key value = (ok, st') → PlainKeys st' ∧
        (k ≠ normaliseKey key → kbsymtabGet st' k = kbsymtabGet st k) := by
    intro st st' alloc ok key value hst hset
    have honly := changesOnly_kbsymtabSet (L := L) hst alloc true key value
    rw [hset] at honly
    exact ⟨honly.plainKeys (normaliseKey_plain _) hst, honly k⟩
  have hempty : PlainKeys ∅ := by simp [PlainKeys]
  by_contra hro
  have hfname : k ≠ normaliseKey kbnodeKeyFname := by
    rintro rfl
    exact hro (by decide)
  have hline : k ≠ normaliseKey kbnodeKeyLine := by
    rintro rfl
    exact hro (by decide)
  unfold nodeNewSymtab at h
  split at h
  · simp at h
  · next st₁ hset₁ =>
    split at h
    · simp at h
    · next st₂ hset₂ =>
      obtain rfl := Option.some.inj h
      obtain ⟨hplain, hget₁⟩ := honly hempty hset₁
      obtain ⟨-, hget₂⟩ := honly hplain hset₂
      obtain ⟨vs, hvs⟩ := hk
      rw [hget₂ hline, hget₁ hfname] at hvs
      exact absurd hvs (by simp [kbsymtabGet])

/-! ### Whole runs -/

/-- Calls that keep their variables come to a state in which all are found. -/
theorem keepsReadOnly_of_keeps (hst : PlainKeys st) (ops : List Assignment)
    (hkeeps : ∀ before o after st₁, ops = before ++ o :: after → assignAll L st before = some st₁ →
      o.Keeps st₁) : ∃ st', assignAll L st ops = some st' ∧ KeepsReadOnly L st ops st' := by
  induction ops using List.reverseRecOn with
  | nil =>
    refine ⟨st, rfl, fun _ _ => rfl, hst, AList.keys_nodup _, ?_⟩
    intro before o after st₁ st₂ hsplit
    simp at hsplit
  | append_singleton ops o ih =>
    obtain ⟨st₁, hst₁, hkept⟩ := ih fun before o' after s hsplit hs =>
      hkeeps before o' (after ++ [o]) s (by simp [hsplit]) hs
    obtain ⟨r, hr, hbound, hset⟩ :=
      (o.keeps_iff hkept.plain).mp (hkeeps ops o [] st₁ rfl hst₁)
    have hrun : assignAll L st (ops ++ [o]) = some r.2 := by
      rw [assignAll_concat, hst₁, Option.bind_some, hr, Option.map_some]
    have hstays {k : CStr} (hk : Bound st₁ k) : Bound r.2 k := by
      by_cases hname : k = o.name
      · exact hname ▸ hbound (hname ▸ hk)
      · exact (Assignment.bound_apply_iff hkept.plain hr hname).mpr hk
    refine ⟨r.2, hrun, fun k hk => get_assignAll_of_ro hst hrun hk,
      Assignment.plainKeys_apply hr hkept.plain, AList.keys_nodup _, ?_⟩
    intro before o' after s₁ s₂ hsplit hs₁ hs₂
    rcases List.eq_nil_or_concat' after with rfl | ⟨after, o'', rfl⟩
    · obtain ⟨rfl, ho⟩ := List.append_inj' hsplit rfl
      obtain rfl := List.singleton_injective ho
      obtain rfl := Option.some.inj (hst₁.symm.trans hs₁)
      obtain rfl := Option.some.inj (hr.symm.trans hs₂)
      exact hset rfl
    · rw [← List.cons_append, ← List.append_assoc] at hsplit
      obtain ⟨hsplit, -⟩ := List.append_inj' hsplit rfl
      exact hstays (hkept.found before o' after s₁ s₂ hsplit hs₁ hs₂)

/-- Whatever is assigned in a file and whether it succeeds: in every state the read-only variables of
a new node have their values and no other one has come up, every key is a base name that occurs
once, and all variables that were set are found, exactly when no append goes behind the end of an
array or loses its variable for lack of memory. -/
theorem assignAll_readOnly_iff {allocFname allocLine : Alloc} {fname : CStr} {line : ℕ}
    (h : nodeNewSymtab L allocFname allocLine fname line = some st) (ops : List Assignment) :
    ReadOnlyKept L st ops ↔ ∀ before o after st₁, ops = before ++ o :: after →
      assignAll L st before = some st₁ → o.Keeps st₁ := by
  have hst := plainKeys_nodeNewSymtab h
  constructor
  · intro hkept before o after st₁ hsplit hst₁
    obtain ⟨st₂, hst₂, hfound⟩ := hkept (before ++ [o]) after (by simp [hsplit])
    obtain ⟨st₁', hst₁', hplain⟩ := hkept before (o :: after) hsplit
    obtain rfl := Option.some.inj (hst₁.symm.trans hst₁')
    have hrun := hst₂
    rw [assignAll_concat, hst₁, Option.bind_some] at hrun
    obtain ⟨r, hr, rfl⟩ := Option.map_eq_some_iff.mp hrun
    refine (o.keeps_iff hplain.plain).mpr ⟨r, hr, fun hbound => ?_, fun hset => ?_⟩
    · rcases setBefore_of_bound hst hst₁ hbound with hstart | ⟨pre, o', post, s₁, s₂, rfl, hs, hname⟩
      · obtain ⟨vs, hvs⟩ := hstart
        exact ⟨vs, by rw [hfound.readOnly _ (ro_of_nodeNewSymtab h ⟨vs, hvs⟩), hvs]⟩
      · rw [← hname.2]
        exact hfound.found pre o' (post ++ [o]) s₁ s₂ (by simp) hs hname.1
    · obtain ⟨ok, st₂⟩ := r
      obtain rfl : ok = true := hset
      exact hfound.found before o [] st₁ st₂ rfl hst₁ hr
  · rintro hkeeps before after rfl
    refine keepsReadOnly_of_keeps hst before fun pre o post st₁ hsplit hst₁ => ?_
    exact hkeeps pre o (post ++ after) st₁ (by simp [hsplit]) hst₁

/-- An index behind the first one into a variable that is not there. -/
def appendBehind : List Assignment := [.append .all "x[1]".toList "v".toList]

/-- A variable, and an append to it that gets no entry. -/
def appendLost : List Assignment :=
  [.set .all "x".toList "a".toList, .append (.allBut .entry) "x[]".toList "v".toList]

/-- One run has no result, and after the other `x` is not found. -/
theorem appendBehind_not_kept : ∃ st, nodeNewSymtab .ordered .all .all "f".toList 7 = some st ∧
    assignAll .ordered st appendBehind = none ∧ ¬ ReadOnlyKept .ordered st appendBehind ∧
      ¬ ReadOnlyKept .ordered st appendLost := by
  obtain ⟨st, hst⟩ : ∃ st, nodeNewSymtab .ordered .all .all "f".toList 7 = some st := ⟨_, rfl⟩
  have hnone : assignAll .ordered st appendBehind = none := by
    obtain rfl := Option.some.inj hst
    decide
  refine ⟨st, hst, hnone, fun h => ?_, fun h => ?_⟩
  · obtain ⟨st', hrun, -⟩ := h appendBehind [] (by simp)
    simp [hnone] at hrun
  · obtain ⟨st', hrun, hkept⟩ := h appendLost [] (by simp)
    have hset : ∃ st₂,
        (Assignment.set .all "x".toList "a".toList).apply .ordered st = some (true, st₂) := by
      obtain rfl := Option.some.inj hst
      exact ⟨_, rfl⟩
    obtain ⟨st₂, hset⟩ := hset
    have hbound := hkept.found [] _ _ st st₂ rfl rfl hset
    have hlost : kbsymtabGet st' "x".toList = none := by
      obtain rfl := Option.some.inj hst
      obtain rfl := Option.some.inj hrun
      rfl
    exact not_bound_iff.mpr hlost hbound

/-- A read-only variable is refused in every form, and an array is started. -/
def lineAssignments : List Assignment :=
  [.set .all "_LINE".toList "9".toList, .append .all "_LINE[0]".toList "9".toList,
    .append .all "x[]".toList "v".toList]

theorem lineAssignments_kept : ∃ st, nodeNewSymtab .ordered .all .all "f".toList 7 = some st ∧
    ReadOnlyKept .ordered st lineAssignments := by
  obtain ⟨st, hst⟩ : ∃ st, nodeNewSymtab .ordered .all .all "f".toList 7 = some st := ⟨_, rfl⟩
  refine ⟨st, hst, (assignAll_readOnly_iff hst lineAssignments).mpr ?_⟩
  intro before o after st₁ hsplit hst₁
  have hmem : o ∈ lineAssignments := by simp [hsplit]
  simp only [lineAssignments, List.mem_cons, List.not_mem_nil, or_false] at hmem
  rcases hmem with rfl | rfl | rfl
  · trivial
  · exact fun haccepts => absurd haccepts.writable (by decide)
  · intro _ _
    refine .inl ⟨fun site _ => .inl rfl, fun i hkey _ => ?_⟩
    have harray : detectKeytype .all "x[]".toList = .array := by decide
    exact absurd (harray.symm.trans hkey) (by simp)

end Kubeka
