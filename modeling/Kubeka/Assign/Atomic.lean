import Kubeka.Assign.Arrays

/-!
# Failed updates

An update that fails has to leave every variable as it was. `kbsymtab_set`
frees the element before it has the new one, and `kbsymtab_append` takes the
variable out of the table first of all, so both can lose values when memory
runs out.
-/

namespace Kubeka

variable {L : Libds} {st : Symtab} {alloc : Alloc} {force : Bool} {key value : CStr}

/-! ### What is asked for -/

/-- What a parsed value puts into one element: an empty array clears it, and no array goes into
another one. -/
def elementText : List CStr → Option CStr
  | [] => some []
  | [v] => some v
  | _ => none

/-- The values that a set asks for, given what the variable is bound to. -/
def setRequest (before : Option (List CStr)) (keytype : Keytype) (vs : List CStr) :
    Option (List CStr) :=
  match keytype, before with
  | .array, _ => some vs
  | .index i, none => if i = 0 then some vs else none
  | .index i, some xs => if i < xs.length then (elementText vs).map fun v => xs.set i v else none
  | _, _ => none

/-- The values that an append asks for. -/
def appendRequest (before : Option (List CStr)) (keytype : Keytype) (value : CStr) :
    Option (List CStr) :=
  match keytype with
  | .array => some (before.getD [] ++ [value])
  | .index i =>
    if i < (before.getD []).length then
      some ((before.getD []).modify i fun old => old ++ " ".toList ++ value)
    else if before.getD [] = [] ∧ i = 0 then some [" ".toList ++ value]
    else none
  | _ => none

/-- All or nothing: a failed update leaves every variable bound to the same values, and one that
succeeds has done what was asked for, and only this. -/
structure Atomic (st : Symtab) (name : CStr) (request : Option (List CStr))
    (r : Bool × Symtab) : Prop where
  failed : r.1 = false → ∀ k, kbsymtabGet r.2 k = kbsymtabGet st k
  made : r.1 = true → ∃ new, request = some new ∧ kbsymtabGet r.2 name = some new ∧
    ChangesOnly name st r.2

theorem Atomic.refused (st : Symtab) (name : CStr) (request : Option (List CStr)) :
    Atomic st name request (false, st) :=
  ⟨fun _ _ => rfl, fun h => absurd h Bool.false_ne_true⟩

variable {st' : Symtab} {name : CStr} {request : Option (List CStr)}

theorem atomic_success_iff (h : ChangesOnly name st st') :
    Atomic st name request (true, st') ↔
      ∃ new, request = some new ∧ kbsymtabGet st' name = some new := by
  constructor
  · intro hatomic
    obtain ⟨new, hnew, hget, -⟩ := hatomic.made rfl
    exact ⟨new, hnew, hget⟩
  · rintro ⟨new, hnew, hget⟩
    exact ⟨fun hf => absurd hf.symm Bool.false_ne_true, fun _ => ⟨new, hnew, hget, h⟩⟩

theorem atomic_failure_iff (h : ChangesOnly name st st') :
    Atomic st name request (false, st') ↔ kbsymtabGet st' name = kbsymtabGet st name := by
  constructor
  · intro hatomic
    exact hatomic.failed rfl name
  · intro hget
    refine ⟨fun _ k => ?_, fun hf => absurd hf Bool.false_ne_true⟩
    by_cases hk : k = name
    · rw [hk, hget]
    · exact h k hk

/-- A stored array has to be the right one. -/
theorem atomic_insert_iff {vs : List CStr} :
    Atomic st name request (true, st.insert name vs) ↔ request = some vs := by
  rw [atomic_success_iff (changesOnly_insert st name vs), kbsymtabGet_insert, if_pos rfl]
  simp

/-! ### Setting -/

/-- Elements that get no memory are missing at the end of the array. -/
theorem parseValue_taken {taken : List CStr} (h : parseValue L alloc value = some taken) :
    ∃ vs, parseValue L .all value = some vs ∧ taken <+: vs := by
  by_cases hhead : value.head? = some '['
  · obtain ⟨tail, rfl⟩ : ∃ tail, value = '[' :: tail := by
      cases value with
      | nil => simp at hhead
      | cons c tail => exact ⟨tail, by simpa using hhead⟩
    by_cases hclose : ']' ∈ tail
    · obtain ⟨body, rest, rfl, hbody⟩ := List.eq_append_cons_of_mem hclose
      rw [parseValue_array_alloc rest hbody] at h
      split_ifs at h with halloc
      refine ⟨_, parseValue_array rest hbody, ?_⟩
      rw [← Option.some.inj h]
      have htokens : (strtok body ',').map trim =
          (strtok body ',').zipIdx.map fun tok => trim tok.1 := by
        conv_lhs => rw [← List.zipIdx_map_fst 0 (strtok body ',')]
        rw [List.map_map]
        rfl
      rw [htokens]
      exact (List.takeWhile_prefix _).map _
    · have hcut : strchr tail ']' = none :=
        Text.cut_eq_none_iff.mpr fun hin => hclose (hin.subset List.mem_cons_self)
      simp [parseValue, hcut] at h
  · have hsingle : taken = [value] ∨ taken = [] := by
      unfold parseValue at h
      split at h
      · contradiction
      split at h
      · simp at hhead
      split_ifs at h
      · exact .inl (Option.some.inj h).symm
      · exact .inr (Option.some.inj h).symm
    refine ⟨[value], parseValue_single hhead, ?_⟩
    rcases hsingle with rfl | rfl
    · exact List.prefix_rfl
    · exact List.nil_prefix

/-- The update that a set makes of these values, of which it has got memory for `taken`. -/
structure SetWhole (alloc : Alloc) (st : Symtab) (key : CStr) (taken vs : List CStr) : Prop where
  /-- The key is that of no variable, and the base name is bound anew. -/
  fresh : kbsymtabGet st key = none → alloc .entry = true → taken = vs ∧
    (detectKeytype .all key = .array ∨ detectKeytype .all key = .index 0 ∧
      ∀ xs, kbsymtabGet st (normaliseKey key) = some xs → xs.length = 1 ∧ vs.length = 1)
  /-- The first element is replaced. -/
  element : ∀ x rest, kbsymtabGet st key = some (x :: rest) →
    elementText taken = elementText vs ∧ (taken.length = 1 → alloc .replacement = true)

theorem elementText_eq_some {vs : List CStr} {v : CStr} (h : elementText vs = some v) :
    vs.length ≤ 1 := by
  match vs with
  | [] => simp
  | [_] => simp
  | _ :: _ :: _ => simp [elementText] at h

/-- The array that a set stores anew is the one that is asked for only if it has a single element
or nothing is there. -/
theorem setRequest_eq_some_iff {before : Option (List CStr)} {keytype : Keytype}
    {taken vs : List CStr} (hfront : taken <+: vs) :
    setRequest before keytype vs = some taken ↔ taken = vs ∧ (keytype = .array ∨
      keytype = .index 0 ∧ ∀ xs, before = some xs → xs.length = 1 ∧ vs.length = 1) := by
  cases keytype with
  | array => simp [setRequest, eq_comm]
  | index i =>
    cases before with
    | none => simp [setRequest, eq_comm, and_comm]
    | some xs =>
      constructor
      · intro h
        simp only [setRequest] at h
        split_ifs at h with hlt
        obtain ⟨v, hv, hset⟩ := Option.map_eq_some_iff.mp h
        have hvs := elementText_eq_some hv
        have htaken : taken.length = xs.length := by rw [← hset, List.length_set]
        have hle := hfront.length_le
        refine ⟨hfront.eq_of_length (by omega), .inr ⟨by congr 1; omega, ?_⟩⟩
        rintro _ ⟨⟩
        omega
      · rintro ⟨rfl, h⟩
        obtain ⟨hi, hxs⟩ := h.resolve_left (by simp)
        obtain rfl := Keytype.index.inj hi
        obtain ⟨hxs, htaken⟩ := hxs xs rfl
        obtain ⟨x, rfl⟩ := List.length_eq_one_iff.mp hxs
        obtain ⟨v, rfl⟩ := List.length_eq_one_iff.mp htaken
        simp [setRequest, elementText]
  | _ => simp [setRequest]

/-- An array that is bound anew, or not at all. -/
theorem storeValue_unbound_atomic_iff {taken vs : List CStr} (hfront : taken <+: vs)
    (hget : kbsymtabGet st key = none) :
    Atomic st (normaliseKey key)
        (setRequest (kbsymtabGet st (normaliseKey key)) (detectKeytype .all key) vs)
        (storeValue alloc st key taken) ↔ SetWhole alloc st key taken vs := by
  have hwhole : SetWhole alloc st key taken vs ↔ (alloc .entry = true → taken = vs ∧
      (detectKeytype .all key = .array ∨ detectKeytype .all key = .index 0 ∧
        ∀ xs, kbsymtabGet st (normaliseKey key) = some xs → xs.length = 1 ∧ vs.length = 1)) :=
    ⟨fun h => h.fresh hget, fun h => ⟨fun _ => h, by simp [hget]⟩⟩
  rw [hwhole, storeValue_unbound hget]
  by_cases hentry : alloc .entry = true
  · rw [if_pos hentry, atomic_insert_iff, setRequest_eq_some_iff hfront]
    exact ⟨fun h _ => h, fun h => h hentry⟩
  · rw [if_neg hentry]
    exact iff_of_true (.refused st _ _) (absurd · hentry)

/-- What becomes of the first element, for a name by itself. -/
theorem storeValue_element_atomic_iff {x : CStr} {rest taken vs : List CStr}
    (hfront : taken <+: vs) (hget : kbsymtabGet st key = some (x :: rest)) :
    Atomic st key (setRequest (some (x :: rest)) (.index 0) vs) (storeValue alloc st key taken) ↔
      SetWhole alloc st key taken vs := by
  have hwhole : SetWhole alloc st key taken vs ↔
      elementText taken = elementText vs ∧ (taken.length = 1 → alloc .replacement = true) :=
    ⟨fun h => h.element x rest hget, fun h => ⟨by simp [hget], fun _ _ _ => h⟩⟩
  have hrequest : setRequest (some (x :: rest)) (.index 0) vs =
      (elementText vs).map fun v => v :: rest := by simp [setRequest]
  have hstored (v : CStr) : ((elementText vs).map fun v => v :: rest) = some (v :: rest) ↔
      some v = elementText vs := by
    rw [Option.map_eq_some_iff]
    constructor
    · rintro ⟨w, hw, hcons⟩
      rw [← (List.cons.inj hcons).1, hw]
    · intro hv
      exact ⟨v, hv.symm, rfl⟩
  rw [hwhole, hrequest, storeValue_bound hget]
  match taken with
  | [] =>
    rw [atomic_insert_iff, hstored]
    exact ⟨fun h => ⟨h, by simp⟩, fun h => h.1⟩
  | [v] =>
    by_cases hreplacement : alloc .replacement = true
    · simp only [hreplacement, if_true]
      rw [atomic_insert_iff, hstored]
      exact ⟨fun h => ⟨h, fun _ => trivial⟩, fun h => h.1⟩
    · -- the old element has been freed, and the array ends in front of it
      simp only [hreplacement]
      refine iff_of_false (fun h => ?_) (by simp)
      have hlost := h.failed rfl key
      rw [hget] at hlost
      simp [kbsymtabGet_insert] at hlost
  | v :: w :: more =>
    obtain ⟨tail, rfl⟩ := hfront
    exact iff_of_true (.refused st _ _) ⟨rfl, by simp⟩

theorem storeValue_atomic_iff (hst : PlainKeys st) {taken vs : List CStr} (hfront : taken <+: vs) :
    Atomic st (normaliseKey key)
        (setRequest (kbsymtabGet st (normaliseKey key)) (detectKeytype .all key) vs)
        (storeValue alloc st key taken) ↔ SetWhole alloc st key taken vs := by
  cases hget : kbsymtabGet st key with
  | none => exact storeValue_unbound_atomic_iff hfront hget
  | some existing =>
    have hplain : '[' ∉ key := hst key (mem_keys_iff.mpr ⟨existing, hget⟩)
    have hkey : detectKeytype .all key = .index 0 := detectKeytype_plain rfl hplain
    rw [normaliseKey_of_plain hplain, hget, hkey]
    cases existing with
    | nil =>
      rw [storeValue_blank hget]
      exact iff_of_true (.refused st _ _) ⟨by simp [hget], by simp [hget]⟩
    | cons x rest => exact storeValue_element_atomic_iff hfront hget

/-! ### Appending -/

/-- What an append has to allocate once it has accepted the key, before it works behind the end of
its array or is done. -/
def appendSites (n : ℕ) : Keytype → List AllocSite
  | .array => [.newval, .grown, .entry]
  | .index i =>
    if n ≠ 0 then [.newval, .entry]
    else if i = 0 then [.fresh, .empty, .newval, .entry]
    else [.fresh, .empty]
  | _ => []

/-- The append has all its memory and an element to work on, or what is lost was not there. -/
def AppendWhole (alloc : Alloc) (st : Symtab) (key : CStr) : Prop :=
  (∀ site ∈ appendSites (nexisting st key) (detectKeytype .all key), alloc site = true) ∧
      (∀ i, detectKeytype .all key = .index i → nexisting st key = 0 → i = 0) ∨
    kbsymtabGet st (normaliseKey key) = none ∧
      ∃ site ∈ appendSites (nexisting st key) (detectKeytype .all key),
        site ≠ .grown ∧ alloc site = false

variable {keytype : Keytype} {before : Option (List CStr)}

/-- An append that does not get its memory has no array to store, unless it only failed to make the
array larger or to enter it. -/
theorem appendValue_noMemory (value : CStr)
    (h : ∃ site ∈ appendSites (before.getD []).length keytype,
      site ≠ .grown ∧ site ≠ .entry ∧ alloc site = false) :
    appendValue alloc before keytype value = .noMemory := by
  obtain ⟨site, hsite, hgrown, hentry, hfail⟩ := h
  cases keytype with
  | array =>
    have hnewval : alloc .newval = false := by simp_all [appendSites]
    simp [appendValue, hnewval]
  | index i =>
    cases hvs : before.getD [] with
    | nil =>
      have hfails : alloc .fresh = false ∨ alloc .empty = false ∨
          i = 0 ∧ alloc .newval = false := by
        by_cases hi : i = 0 <;> simp [appendSites, hvs, hi, hentry] at hsite
        · rcases hsite with rfl | rfl | rfl
          · exact .inl hfail
          · exact .inr (.inl hfail)
          · exact .inr (.inr ⟨hi, hfail⟩)
        · rcases hsite with rfl | rfl
          · exact .inl hfail
          · exact .inr (.inl hfail)
      simp only [appendValue, hvs]
      rcases hfails with hfail | hfail | ⟨hi, hfail⟩
      · simp [hfail]
      · simp [hfail]
      · simp [hfail, hi]
    | cons x rest =>
      have hnewval : alloc .newval = false := by simp_all [appendSites]
      simp [appendValue, hvs, hnewval]
  | _ => simp [appendSites] at hsite

/-- It has then taken the variable out. -/
theorem replaceValue_fails (value : CStr)
    (h : ∃ site ∈ appendSites ((kbsymtabGet st name).getD []).length keytype,
      site ≠ .grown ∧ alloc site = false) :
    replaceValue alloc st name keytype value = some (false, st.erase name) := by
  obtain ⟨site, hsite, hgrown, hfail⟩ := h
  by_cases hentry : site = .entry
  · have hdefined : appendValue alloc (kbsymtabGet st name) keytype value ≠ .undefined := by
      intro hundefined
      obtain ⟨i, rfl, hi, hblank, -⟩ := appendValue_undefined_iff.mp hundefined
      simp [appendSites, hblank, hi, hentry] at hsite
    subst hentry
    unfold replaceValue
    split
    · contradiction
    · rfl
    · simp [hfail]
  · rw [replaceValue, appendValue_noMemory value ⟨site, hsite, hgrown, hentry, hfail⟩]

/-- With its memory, an append has the array that is asked for, or works behind its end. -/
theorem appendValue_of_sites (value : CStr)
    (hfits : keytype.Fits (before.getD []).length)
    (hsites : ∀ site ∈ appendSites (before.getD []).length keytype, alloc site = true) :
    appendValue alloc before keytype value =
      match appendRequest before keytype value with
      | some new => .array (some new)
      | none => .undefined := by
  cases keytype with
  | array =>
    simp only [appendSites, List.forall_mem_cons] at hsites
    simp [appendValue, appendRequest, hsites]
  | index i =>
    cases hvs : before.getD [] with
    | nil =>
      by_cases hi : i = 0
      · simp [hvs, appendSites, hi] at hsites
        simp [appendValue, appendRequest, hvs, hsites, hi]
      · simp [hvs, appendSites, hi] at hsites
        simp [appendValue, appendRequest, hvs, hsites, hi]
    | cons x rest =>
      rw [hvs] at hsites hfits
      have hi : i < (x :: rest).length := hfits.resolve_left (by simp)
      simp [appendSites] at hsites
      rw [appendRequest, hvs, if_pos hi]
      simp [appendValue, hvs, hsites]
  | _ => exact absurd hfits id

/-- An array can be asked for unless it is an element that an array without values has not. -/
theorem appendRequest_isSome_iff (value : CStr) (hfits : keytype.Fits (before.getD []).length) :
    (∃ new, appendRequest before keytype value = some new) ↔
      ∀ i, keytype = .index i → (before.getD []).length = 0 → i = 0 := by
  cases keytype with
  | array => simp [appendRequest]
  | index i =>
    cases hvs : before.getD [] with
    | nil => simp [appendRequest, hvs]
    | cons x rest =>
      rw [hvs] at hfits
      have hi : i < (x :: rest).length := hfits.resolve_left (by simp)
      rw [appendRequest, hvs, if_pos hi]
      simp
  | _ => exact absurd hfits id

theorem entry_mem_appendSites {n : ℕ} (hfits : keytype.Fits n)
    (hfresh : ∀ i, keytype = .index i → n = 0 → i = 0) : .entry ∈ appendSites n keytype := by
  cases keytype with
  | array => simp [appendSites]
  | index i =>
    by_cases hn : n = 0
    · simp [appendSites, hn, hfresh i rfl hn]
    · simp [appendSites, hn]
  | _ => exact absurd hfits id

/-- An array is made larger only for a new element. -/
theorem array_of_grown {n : ℕ} (h : .grown ∈ appendSites n keytype) : keytype = .array := by
  cases keytype with
  | array => rfl
  | index i =>
    simp only [appendSites] at h
    split_ifs at h <;> simp at h
  | _ => simp [appendSites] at h

/-- The call has a result, which is all or nothing. -/
def AtomicRun (st : Symtab) (name : CStr) (request : Option (List CStr))
    (run : Option (Bool × Symtab)) : Prop := ∃ r, run = some r ∧ Atomic st name request r

theorem atomicRun_some {r : Bool × Symtab} :
    AtomicRun st name request (some r) ↔ Atomic st name request r := by
  simp [AtomicRun]

theorem atomicRun_none : ¬ AtomicRun st name request none := by
  simp [AtomicRun]

/-- When only the larger array is missing, nothing is appended to the old one, and the call
succeeds. -/
theorem replaceValue_without_growth (st : Symtab) (name value : CStr)
    (hentry : alloc .entry = true) (hnewval : alloc .newval = true)
    (hgrown : alloc .grown = false) :
    ¬ AtomicRun st name (appendRequest (kbsymtabGet st name) .array value)
      (replaceValue alloc st name .array value) := by
  have hkept : appendValue alloc (kbsymtabGet st name) .array value =
      .array (kbsymtabGet st name) := by simp [appendValue, hnewval, hgrown]
  have hrun : ∃ st', replaceValue alloc st name .array value = some (true, st') ∧
      kbsymtabGet st' name = kbsymtabGet st name := by
    rw [replaceValue, hkept]
    cases kbsymtabGet st name <;> simp [hentry, kbsymtabGet_insert, kbsymtabGet_erase]
  obtain ⟨st', hrun, hget⟩ := hrun
  rw [hrun, atomicRun_some]
  intro h
  obtain ⟨new, hrequest, hnew, -⟩ := h.made rfl
  rw [hget] at hnew
  have hlength := congrArg List.length (Option.some.inj hrequest)
  simp [hnew] at hlength

theorem replaceValue_atomic_iff (value : CStr)
    (hfits : keytype.Fits ((kbsymtabGet st name).getD []).length) :
    AtomicRun st name (appendRequest (kbsymtabGet st name) keytype value)
        (replaceValue alloc st name keytype value) ↔
      (∀ site ∈ appendSites ((kbsymtabGet st name).getD []).length keytype, alloc site = true) ∧
          (∀ i, keytype = .index i → ((kbsymtabGet st name).getD []).length = 0 → i = 0) ∨
        kbsymtabGet st name = none ∧
          ∃ site ∈ appendSites ((kbsymtabGet st name).getD []).length keytype,
            site ≠ .grown ∧ alloc site = false := by
  by_cases hfail : ∃ site ∈ appendSites ((kbsymtabGet st name).getD []).length keytype,
      site ≠ .grown ∧ alloc site = false
  · rw [replaceValue_fails value hfail, atomicRun_some,
      atomic_failure_iff (changesOnly_erase st name), kbsymtabGet_erase, if_pos rfl]
    obtain ⟨site, hsite, -, hsite'⟩ := id hfail
    constructor
    · intro h
      exact .inr ⟨h.symm, hfail⟩
    · rintro (⟨hall, -⟩ | ⟨hnone, -⟩)
      · rw [hall site hsite] at hsite'
        contradiction
      · exact hnone.symm
  · rw [or_iff_left fun h => hfail h.2]
    push Not at hfail
    by_cases hall : ∀ site ∈ appendSites ((kbsymtabGet st name).getD []).length keytype,
        alloc site = true
    · rw [and_iff_right hall, ← appendRequest_isSome_iff value hfits, replaceValue,
        appendValue_of_sites value hfits hall]
      cases hrequest : appendRequest (kbsymtabGet st name) keytype value with
      | none => exact iff_of_false atomicRun_none (by simp)
      | some new =>
        have hfresh := (appendRequest_isSome_iff value hfits).mp ⟨new, hrequest⟩
        have hentry := hall _ (entry_mem_appendSites hfits hfresh)
        have honly : ChangesOnly name st ((st.erase name).insert name new) := fun k hk =>
          (changesOnly_insert _ _ _ k hk).trans (changesOnly_erase _ _ k hk)
        simp only [hentry, not_true_eq_false, if_false]
        rw [atomicRun_some, atomic_success_iff honly, kbsymtabGet_replaced]
        simp
    · obtain ⟨site, hsite, hno⟩ := not_forall₂.mp hall
      have hgrown : site = .grown := by
        by_contra hne
        exact hno (by simpa using hfail site hsite hne)
      subst hgrown
      obtain rfl := array_of_grown hsite
      have hnewval : alloc .newval = true := by
        simpa using hfail .newval (by simp [appendSites]) (by simp)
      have hentry : alloc .entry = true := by
        simpa using hfail .entry (by simp [appendSites]) (by simp)
      refine iff_of_false ?_ fun h => hall h.1
      exact replaceValue_without_growth st name value hentry hnewval (by simpa using hno)

theorem kbsymtabAppend_atomic_iff :
    AtomicRun st (normaliseKey key)
        (appendRequest (kbsymtabGet st (normaliseKey key)) (detectKeytype .all key) value)
        (kbsymtabAppend alloc force st key value) ↔
      (Accepts alloc force key → (detectKeytype .all key).Fits (nexisting st key) →
        AppendWhole alloc st key) := by
  by_cases h : Accepts alloc force key ∧ (detectKeytype .all key).Fits (nexisting st key)
  · rw [kbsymtabAppend_accepted h.1 h.2, replaceValue_atomic_iff value h.2]
    exact ⟨fun hwhole _ _ => hwhole, fun hwhole => hwhole h.1 h.2⟩
  · rw [kbsymtabAppend_refused (not_and_or.mp h), atomicRun_some]
    exact iff_of_true (.refused st _ _) fun haccepts hfits => absurd ⟨haccepts, hfits⟩ h

theorem kbsymtabSet_atomic_iff (hst : PlainKeys st) :
    Atomic st (normaliseKey key) ((parseValue L .all value).bind
        (setRequest (kbsymtabGet st (normaliseKey key)) (detectKeytype .all key)))
        (kbsymtabSet L alloc force st key value) ↔
      (Accepts alloc force key → ∀ taken vs, parseValue L alloc value = some taken →
        parseValue L .all value = some vs → SetWhole alloc st key taken vs) := by
  by_cases haccepts : Accepts alloc force key
  · cases htaken : parseValue L alloc value with
    | none =>
      rw [kbsymtabSet_refused (.inr htaken)]
      exact iff_of_true (.refused st _ _) (by simp)
    | some taken =>
      obtain ⟨vs, hvs, hfront⟩ := parseValue_taken htaken
      rw [kbsymtabSet_accepted haccepts htaken, hvs, Option.bind_some,
        storeValue_atomic_iff hst hfront]
      constructor
      · intro hwhole _ taken' vs' htaken' hvs'
        rwa [← Option.some.inj htaken', ← Option.some.inj hvs']
      · intro hwhole
        exact hwhole haccepts taken vs rfl rfl
  · rw [kbsymtabSet_refused (.inl haccepts)]
    exact iff_of_true (.refused st _ _) fun h => absurd h haccepts

/-! ### Both -/

/-- An update is all or nothing exactly when it is refused, or when the array that a set stores anew
is not one element among others and no memory is missing for values that are there. -/
theorem update_atomic_iff (hst : PlainKeys st) (alloc : Alloc) (force : Bool)
    (key value : CStr) :
    (Atomic st (normaliseKey key) ((parseValue L .all value).bind
        (setRequest (kbsymtabGet st (normaliseKey key)) (detectKeytype .all key)))
        (kbsymtabSet L alloc force st key value) ↔
      (Accepts alloc force key → ∀ taken vs, parseValue L alloc value = some taken →
        parseValue L .all value = some vs → SetWhole alloc st key taken vs)) ∧
    (AtomicRun st (normaliseKey key)
        (appendRequest (kbsymtabGet st (normaliseKey key)) (detectKeytype .all key) value)
        (kbsymtabAppend alloc force st key value) ↔
      (Accepts alloc force key → (detectKeytype .all key).Fits (nexisting st key) →
        AppendWhole alloc st key)) :=
  ⟨kbsymtabSet_atomic_iff hst, kbsymtabAppend_atomic_iff⟩

/-- Everything but one allocation succeeds. -/
def Alloc.allBut (site : AllocSite) : Alloc := fun s => s ≠ site

/-- Without an entry the array is lost, and without a larger array nothing is appended, but the
call succeeds. -/
theorem failedEntry_not_atomic :
    kbsymtabAppend (.allBut .entry) false (onlyX ["a".toList]) "x[]".toList "v".toList =
        some (false, (onlyX ["a".toList]).erase "x".toList) ∧
      ¬ AtomicRun (onlyX ["a".toList]) "x".toList (some ["a".toList, "v".toList])
        (kbsymtabAppend (.allBut .entry) false (onlyX ["a".toList]) "x[]".toList "v".toList) ∧
      ¬ AtomicRun (onlyX ["a".toList]) "x".toList (some ["a".toList, "v".toList])
        (kbsymtabAppend (.allBut .grown) false (onlyX ["a".toList]) "x[]".toList
          "v".toList) := by
  have hentry : kbsymtabAppend (.allBut .entry) false (onlyX ["a".toList]) "x[]".toList
      "v".toList = some (false, (onlyX ["a".toList]).erase "x".toList) := rfl
  have hgrown : kbsymtabAppend (.allBut .grown) false (onlyX ["a".toList]) "x[]".toList
      "v".toList = some (true, ((onlyX ["a".toList]).erase "x".toList).insert "x".toList
        ["a".toList]) := rfl
  refine ⟨hentry, ?_, ?_⟩
  · rw [hentry, atomicRun_some]
    intro h
    exact absurd (h.failed rfl "x".toList) (by decide)
  · rw [hgrown, atomicRun_some]
    intro h
    obtain ⟨new, hnew, hget, -⟩ := h.made rfl
    obtain rfl := Option.some.inj hnew
    exact absurd hget (by decide)

theorem update_atomic_onlyX :
    Atomic (onlyX ["a".toList]) "x".toList (some ["b".toList])
      (kbsymtabSet .ordered .all false (onlyX ["a".toList]) "x".toList "b".toList) := by
  have h := (update_atomic_iff (L := .ordered) (onlyX_plain ["a".toList]) .all false "x".toList
    "b".toList).1
  refine h.mpr fun _ taken vs htaken hvs => ?_
  obtain rfl : taken = vs := Option.some.inj (htaken.symm.trans hvs)
  exact ⟨fun hnone => absurd hnone (by decide), fun _ _ _ => ⟨rfl, fun _ => rfl⟩⟩

end Kubeka
