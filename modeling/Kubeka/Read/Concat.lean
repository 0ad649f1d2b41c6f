import Kubeka.Assign.Calls
import Kubeka.Read.Delivered

/-!
# Files one after the other

Two files that are read without errors can be joined. The reader comes to the
second part in another state: its nodes stand behind others, and its lines are
counted on. Nothing that a line does depends on this but for the two variables
that a node gets from its place, and these cannot be assigned to.
-/

namespace Kubeka

variable {alloc : Alloc} {force : Bool} {st st' : Symtab} {key value fname fname' : CStr}
variable {L : Libds} {shift : ℕ}

/-! ### Assignments to tables that agree -/

/-- The variable that a key means is the same one, with or without the key's own lookup. -/
theorem kbsymtabGet_key_congr (hst : PlainKeys st) (hst' : PlainKeys st')
    (h : kbsymtabGet st (normaliseKey key) = kbsymtabGet st' (normaliseKey key)) :
    kbsymtabGet st key = kbsymtabGet st' key := by
  by_cases hkey : '[' ∈ key
  · rw [kbsymtabGet_of_bracket hst hkey, kbsymtabGet_of_bracket hst' hkey]
  · rwa [normaliseKey_of_plain hkey] at h

theorem storeValue_congr (hst : PlainKeys st) (hst' : PlainKeys st')
    (h : kbsymtabGet st (normaliseKey key) = kbsymtabGet st' (normaliseKey key))
    (varray : List CStr) :
    (storeValue alloc st key varray).1 = (storeValue alloc st' key varray).1 ∧
      kbsymtabGet (storeValue alloc st key varray).2 (normaliseKey key) =
        kbsymtabGet (storeValue alloc st' key varray).2 (normaliseKey key) := by
  have hget := kbsymtabGet_key_congr hst hst' h
  cases hbound : kbsymtabGet st key with
  | none =>
    rw [storeValue_unbound hbound, storeValue_unbound (hget ▸ hbound)]
    split_ifs <;> simp [kbsymtabGet_insert, h]
  | some existing =>
    cases existing with
    | nil =>
      rw [storeValue_blank hbound, storeValue_blank (hget ▸ hbound)]
      exact ⟨rfl, h⟩
    | cons x rest =>
      rw [storeValue_bound hbound, storeValue_bound (hget ▸ hbound)]
      match varray with
      | [] => simp [kbsymtabGet_insert, h]
      | [v] =>
        simp only
        split_ifs <;> simp [kbsymtabGet_insert, h]
      | _ :: _ :: _ => exact ⟨rfl, h⟩

theorem kbsymtabSet_congr (hst : PlainKeys st) (hst' : PlainKeys st')
    (h : kbsymtabGet st (normaliseKey key) = kbsymtabGet st' (normaliseKey key)) :
    (kbsymtabSet L alloc force st key value).1 = (kbsymtabSet L alloc force st' key value).1 ∧
      kbsymtabGet (kbsymtabSet L alloc force st key value).2 (normaliseKey key) =
        kbsymtabGet (kbsymtabSet L alloc force st' key value).2 (normaliseKey key) := by
  by_cases haccepts : Accepts alloc force key
  · cases hparse : parseValue L alloc value with
    | none =>
      rw [kbsymtabSet_refused (.inr hparse), kbsymtabSet_refused (.inr hparse)]
      exact ⟨rfl, h⟩
    | some varray =>
      rw [kbsymtabSet_accepted haccepts hparse, kbsymtabSet_accepted haccepts hparse]
      exact storeValue_congr hst hst' h varray
  · rw [kbsymtabSet_refused (.inl haccepts), kbsymtabSet_refused (.inl haccepts)]
    exact ⟨rfl, h⟩

/-- The calls come to the same result, up to what they do to other variables. -/
def SameResult (name : CStr) (r r' : Bool × Symtab) : Prop :=
  r.1 = r'.1 ∧ kbsymtabGet r.2 name = kbsymtabGet r'.2 name

theorem replaceValue_congr {name : CStr} (h : kbsymtabGet st name = kbsymtabGet st' name)
    {keytype : Keytype} {r : Bool × Symtab} (hr : replaceValue alloc st name keytype value = some r) :
    ∃ r', replaceValue alloc st' name keytype value = some r' ∧ SameResult name r r' := by
  unfold replaceValue at hr ⊢
  rw [h] at hr
  cases happend : appendValue alloc (kbsymtabGet st' name) keytype value with
  | undefined => simp [happend] at hr
  | noMemory =>
    simp only [happend] at hr
    obtain rfl := Option.some.inj hr
    exact ⟨_, rfl, rfl, by simp [kbsymtabGet_erase]⟩
  | array values =>
    simp only [happend] at hr ⊢
    split_ifs at hr ⊢
    · cases values with
      | none =>
        obtain rfl := Option.some.inj hr
        exact ⟨_, rfl, rfl, by simp [kbsymtabGet_erase]⟩
      | some vs =>
        obtain rfl := Option.some.inj hr
        exact ⟨_, rfl, rfl, by simp [kbsymtabGet_insert]⟩
    · obtain rfl := Option.some.inj hr
      exact ⟨_, rfl, rfl, by simp [kbsymtabGet_erase]⟩

theorem kbsymtabAppend_congr
    (h : kbsymtabGet st (normaliseKey key) = kbsymtabGet st' (normaliseKey key))
    {r : Bool × Symtab} (hr : kbsymtabAppend alloc force st key value = some r) :
    ∃ r', kbsymtabAppend alloc force st' key value = some r' ∧ SameResult (normaliseKey key) r r' := by
  have hn : nexisting st key = nexisting st' key := by rw [nexisting, nexisting, h]
  by_cases haccepts : Accepts alloc force key ∧ (detectKeytype .all key).Fits (nexisting st key)
  · rw [kbsymtabAppend_accepted haccepts.1 haccepts.2] at hr
    rw [kbsymtabAppend_accepted haccepts.1 (hn ▸ haccepts.2)]
    exact replaceValue_congr h hr
  · have hrefused := not_and_or.mp haccepts
    rw [kbsymtabAppend_refused hrefused] at hr
    rw [kbsymtabAppend_refused (hn ▸ hrefused)]
    obtain rfl := Option.some.inj hr
    exact ⟨_, rfl, rfl, h⟩

namespace Assignment

variable {o : Assignment} {r : Bool × Symtab}

theorem apply_congr (hst : PlainKeys st) (hst' : PlainKeys st')
    (h : kbsymtabGet st o.name = kbsymtabGet st' o.name) (hr : o.apply L st = some r) :
    ∃ r', o.apply L st' = some r' ∧ SameResult o.name r r' := by
  cases o with
  | set alloc key value =>
    obtain rfl := Option.some.inj hr
    exact ⟨_, rfl, kbsymtabSet_congr hst hst' h⟩
  | append alloc key value => exact kbsymtabAppend_congr h hr

theorem changesOnly_apply (hr : o.apply L st = some r) (hst : PlainKeys st) :
    ChangesOnly o.name st r.2 := by
  rcases apply_cases hr hst with rfl | ⟨-, h⟩
  · exact fun _ _ => rfl
  · exact h

/-- A read-only variable is refused. -/
theorem apply_of_ro (hr : o.apply L st = some r) (hst : PlainKeys st)
    (h : detectKeyclass o.name = .ro) : r = (false, st) :=
  (apply_cases hr hst).resolve_right fun h' => h'.1 h

/-- Whether a read-only variable is assigned to is seen from the key alone. -/
theorem exists_apply_of_ro (h : detectKeyclass o.name = .ro) (st : Symtab) :
    ∃ r, o.apply L st = some r := by
  cases o with
  | set alloc key value => exact ⟨_, rfl⟩
  | append alloc key value =>
    refine ⟨_, kbsymtabAppend_refused (.inl fun haccepts => ?_)⟩
    exact haccepts.writable.resolve_left Bool.false_ne_true h

end Assignment

/-! ### Nodes that agree -/

/-- The same values but for the file name, and the line shifted. -/
structure SameTable (shift : ℕ) (st st' : Symtab) : Prop where
  line : ∃ n, kbsymtabGet st kbnodeKeyLine = some [Nat.toDigits 10 n] ∧
    kbsymtabGet st' kbnodeKeyLine = some [Nat.toDigits 10 (n + shift)]
  others : ∀ k, k ≠ kbnodeKeyFname → k ≠ kbnodeKeyLine → kbsymtabGet st' k = kbsymtabGet st k

/-- The node that the same lines make, further down in another file. -/
structure SameNode (shift : ℕ) (node node' : Kbnode) : Prop where
  type : node'.type = node.type
  symtab : SameTable shift node.symtab node'.symtab

theorem SameTable.apply (h : SameTable shift st st') (hst : PlainKeys st) (hst' : PlainKeys st')
    {o : Assignment} {r : Bool × Symtab} (hr : o.apply L st = some r) :
    ∃ r', o.apply L st' = some r' ∧ r.1 = r'.1 ∧ SameTable shift r.2 r'.2 := by
  by_cases hro : detectKeyclass o.name = .ro
  · obtain ⟨r', hr'⟩ := Assignment.exists_apply_of_ro hro st'
    obtain rfl := Assignment.apply_of_ro hr hst hro
    obtain rfl := Assignment.apply_of_ro hr' hst' hro
    exact ⟨_, hr', rfl, h⟩
  · have hfname : o.name ≠ kbnodeKeyFname := by
      intro heq
      rw [heq] at hro
      exact hro (by decide)
    have hline : o.name ≠ kbnodeKeyLine := by
      intro heq
      rw [heq] at hro
      exact hro (by decide)
    obtain ⟨r', hr', hok, hname⟩ :=
      Assignment.apply_congr hst hst' (h.others o.name hfname hline).symm hr
    have honly := Assignment.changesOnly_apply hr hst
    have honly' := Assignment.changesOnly_apply hr' hst'
    refine ⟨r', hr', hok, ?_, fun k hk hk' => ?_⟩
    · rw [honly _ (Ne.symm hline), honly' _ (Ne.symm hline)]
      exact h.line
    · by_cases hkn : k = o.name
      · rw [hkn, hname]
      · rw [honly k hkn, honly' k hkn, h.others k hk hk']

theorem sameTable_new {fname fname' : CStr} {line : ℕ}
    (h : nodeNewSymtab L .all .all fname line = some st)
    (h' : nodeNewSymtab L .all .all fname' (line + shift) = some st') : SameTable shift st st' := by
  have hparse {fname st : _} {line : ℕ} (h : nodeNewSymtab L .all .all fname line = some st) :
      ∃ values, st = ((∅ : Symtab).insert kbnodeKeyFname values).insert kbnodeKeyLine
        [Nat.toDigits 10 line] := by
    have hne : parseValue L .all fname ≠ none := fun hnone => by
      simp [(nodeNewSymtab_eq_none line).mpr hnone] at h
    obtain ⟨values, hvalues⟩ := Option.ne_none_iff_exists'.mp hne
    rw [nodeNewSymtab_of_parse hvalues, Option.some.injEq] at h
    exact ⟨values, h.symm⟩
  obtain ⟨values, rfl⟩ := hparse h
  obtain ⟨values', rfl⟩ := hparse h'
  refine ⟨⟨line, by simp [kbsymtabGet_insert], by simp [kbsymtabGet_insert]⟩, ?_⟩
  intro k hk hk'
  simp only [kbsymtabGet_insert, if_neg hk, if_neg hk']

/-- A node that can be made in one file can be made in the other. -/
theorem nodeNew_same {typename : CStr} {line : ℕ} {place : Option Kbnode}
    (hfname : parseValue L .all fname' ≠ none) (h : nodeNew L fname line typename = some place) :
    ∃ node', nodeNew L fname' (line + shift) typename = some (some node') ∧ PlainKeys node'.symtab ∧
      ∀ node, place = some node → SameNode shift node node' ∧ PlainKeys node.symtab := by
  obtain ⟨type, htype, hplace⟩ := Option.map_eq_some_iff.mp h
  obtain ⟨st', hst'⟩ := Option.ne_none_iff_exists'.mp
    (mt (nodeNewSymtab_eq_none (line + shift)).mp hfname)
  refine ⟨{ type := type, symtab := st' }, by simp [nodeNew, htype, hst'],
    plainKeys_nodeNewSymtab hst', ?_⟩
  rintro node rfl
  obtain ⟨st, hst, rfl⟩ := Option.map_eq_some_iff.mp hplace
  exact ⟨⟨rfl, sameTable_new hst hst'⟩, plainKeys_nodeNewSymtab hst⟩

/-! ### Readers in step -/

/-- A node that is alive has a counterpart. -/
def SamePlace (shift : ℕ) (place place' : Option Kbnode) : Prop :=
  ∀ node, place = some node → ∃ node', place' = some node' ∧ SameNode shift node node' ∧
    PlainKeys node.symtab ∧ PlainKeys node'.symtab

/-- One reader has come as far in its file as the other in a longer one, in which it started at line
`shift` after `n` nodes and `w` warnings. -/
structure InStep (shift n w : ℕ) (old old' places places' : List (Option Kbnode))
    (s s' : Reader) : Prop where
  dst : s.dst = old ++ places
  dst' : s'.dst = old' ++ places'
  same : List.Forall₂ (SamePlace shift) places places'
  current : s.current = none ∨ ∃ i < places.length,
    s.current = some (old.length + i) ∧ s'.current = some (old'.length + i)
  lc : s'.lc = s.lc + shift
  nnodes : s.nnodes = places.length ∧ s'.nnodes = n + places.length
  nerrors : s.nerrors = 0 ∧ s'.nerrors = 0
  nwarnings : s'.nwarnings = w + s.nwarnings

variable {n w : ℕ} {old old' places places' : List (Option Kbnode)} {s s' t : Reader}

theorem inStep_start (old : List (Option Kbnode)) (hlc : s'.lc = shift) (h : s'.nerrors = 0) :
    InStep shift s'.nnodes s'.nwarnings old s'.dst [] [] (.start old) s' where
  dst := by simp [Reader.start]
  dst' := by simp
  same := .nil
  current := .inl rfl
  lc := by simp [Reader.start, hlc]
  nnodes := ⟨rfl, rfl⟩
  nerrors := ⟨rfl, h⟩
  nwarnings := rfl

/-- An assignment that succeeds in one file does so in the other. -/
theorem InStep.assign (h : InStep shift n w old old' places places' s s') (o : Assignment)
    (hassign : s.assign (fun st => o.apply L st) = .next t) :
    ∃ t' placesT placesT', s'.assign (fun st => o.apply L st) = .next t' ∧
      InStep shift n w old old' placesT placesT' t t' := by
  rcases h.current with hnone | ⟨i, hi, hcur, hcur'⟩
  · simp [Reader.assign, hnone] at hassign
  · have hplace : s.dst[old.length + i]? = some places[i] := by
      rw [h.dst, List.getElem?_append_right (by omega), Nat.add_sub_cancel_left,
        List.getElem?_eq_getElem hi]
    cases hnode : places[i] with
    | none => simp [Reader.assign, hcur, hplace, hnode] at hassign
    | some node =>
      have hget : places[i]? = some (some node) := by rw [List.getElem?_eq_getElem hi, hnode]
      obtain ⟨place', hget', hsame⟩ := Lists.forall₂_getElem? h.same hget
      obtain ⟨node', rfl, hsame, hplain, hplain'⟩ := hsame node rfl
      have hthis : IsCurrent s (old.length + i) node := ⟨hcur, by rw [hplace, hnode]⟩
      have hthat : IsCurrent s' (old'.length + i) node' := by
        refine ⟨hcur', ?_⟩
        rw [h.dst', List.getElem?_append_right (by omega), Nat.add_sub_cancel_left, hget']
      obtain ⟨r, hr⟩ : ∃ r, o.apply L node.symtab = some r := by
        refine Option.ne_none_iff_exists'.mp fun hnone => ?_
        simp [hthis.assign_none (f := fun st => o.apply L st) hnone] at hassign
      obtain ⟨r', hr', hok, hsymtab⟩ := hsame.symtab.apply hplain hplain' hr
      rw [hthis.assign_some (f := fun st => o.apply L st) hr] at hassign
      split_ifs at hassign with hsuccess
      obtain rfl := Read.next.inj hassign
      rw [hthat.assign_some (f := fun st => o.apply L st) hr', if_pos (hok ▸ hsuccess)]
      refine ⟨_, places.set i (some { node with symtab := r.2 }),
        places'.set i (some { node' with symtab := r'.2 }), rfl, ?_⟩
      constructor
      · simp [h.dst]
      · simp [h.dst']
      · refine Lists.forall₂_set_set h.same i ?_
        rintro _ ⟨⟩
        exact ⟨_, rfl, ⟨hsame.type, hsymtab⟩, Assignment.plainKeys_apply hr hplain,
          Assignment.plainKeys_apply hr' hplain'⟩
      · exact .inr ⟨i, by rwa [List.length_set], hcur, hcur'⟩
      · exact h.lc
      · rw [List.length_set]
        exact h.nnodes
      · exact h.nerrors
      · exact h.nwarnings

/-- The next line is counted on both sides. -/
theorem InStep.count (h : InStep shift n w old old' places places' s s') :
    InStep shift n w old old' places places' { s with lc := s.lc + 1 }
      { s' with lc := s'.lc + 1 } where
  dst := h.dst
  dst' := h.dst'
  same := h.same
  current := h.current
  lc := by
    have hlc := h.lc
    simp only
    omega
  nnodes := h.nnodes
  nerrors := h.nerrors
  nwarnings := h.nwarnings

/-- A new node is the last one on both sides, and the current one. -/
theorem InStep.deliver (h : InStep shift n w old old' places places' s s')
    {place place' : Option Kbnode} (hplace : SamePlace shift place place') :
    InStep shift n w old old' (places ++ [place]) (places' ++ [place'])
      { s with dst := s.dst ++ [place], current := some s.dst.length, nnodes := s.nnodes + 1 }
      { s' with
        dst := s'.dst ++ [place']
        current := some s'.dst.length
        nnodes := s'.nnodes + 1 } where
  dst := by simp [h.dst]
  dst' := by simp [h.dst']
  same := List.rel_append h.same (.cons hplace .nil)
  current := by
    refine .inr ⟨places.length, by simp, by simp [h.dst], ?_⟩
    simp [h.dst', h.same.length_eq]
  lc := h.lc
  nnodes := by
    obtain ⟨hn, hn'⟩ := h.nnodes
    simp only [List.length_append, List.length_singleton]
    omega
  nerrors := h.nerrors
  nwarnings := h.nwarnings

/-- A line that leads on in one file leads on in the other. -/
theorem InStep.line (h : InStep shift n w old old' places places' s s')
    (hfname : parseValue L .all fname' ≠ none) {buffer : CStr}
    (hread : readLine L fname s buffer = .next t) :
    ∃ t' placesT placesT', readLine L fname' s' buffer = .next t' ∧
      InStep shift n w old old' placesT placesT' t t' := by
  have hcount := h.count
  have hlc : s'.lc + 1 = s.lc + 1 + shift := by
    have hlc := h.lc
    omega
  unfold readLine at hread ⊢
  cases hkind : classify L buffer with
  | blank =>
    simp only [hkind, Read.next.injEq] at hread ⊢
    obtain rfl := hread
    exact ⟨_, places, places', rfl, hcount⟩
  | unrecognised =>
    simp only [hkind, Read.next.injEq] at hread ⊢
    obtain rfl := hread
    refine ⟨_, places, places', rfl, ?_⟩
    exact { hcount with nwarnings := by simp only; rw [h.nwarnings, Nat.add_assoc] }
  | header typename =>
    simp only [hkind] at hread ⊢
    cases hnew : nodeNew L fname (s.lc + 1) typename with
    | none => simp [hnew] at hread
    | some place =>
      simp only [hnew, Read.next.injEq] at hread
      obtain rfl := hread
      obtain ⟨node', hnew', hplain', hsame⟩ := nodeNew_same hfname hnew
      rw [hlc, hnew']
      refine ⟨_, places ++ [place], places' ++ [some node'], rfl, ?_⟩
      rw [← hlc]
      refine hcount.deliver fun node hnode => ?_
      exact ⟨node', rfl, (hsame node hnode).1, (hsame node hnode).2, hplain'⟩
  | append name value =>
    simp only [hkind] at hread ⊢
    exact hcount.assign (L := L) (.append .all name value) hread
  | assign name value =>
    simp only [hkind] at hread ⊢
    exact hcount.assign (L := L) (.set .all name value) hread
  | _ => simp [hkind] at hread

/-- A run that leads on over all lines leads on over them in the other file. -/
theorem InStep.run (h : InStep shift n w old old' places places' s s')
    (hfname : parseValue L .all fname' ≠ none) {lines : List CStr}
    (hread : readLines L fname s lines = .next t) :
    ∃ t' placesT placesT', readLines L fname' s' lines = .next t' ∧
      InStep shift n w old old' placesT placesT' t t' := by
  induction lines generalizing places places' s s' with
  | nil =>
    obtain rfl := Read.next.inj hread
    exact ⟨s', places, places', rfl, h⟩
  | cons buffer lines ih =>
    rw [readLines] at hread ⊢
    cases hline : readLine L fname s buffer with
    | next u =>
      rw [hline] at hread
      obtain ⟨u', placesU, placesU', hline', hstep⟩ := h.line hfname hline
      rw [hline']
      exact ih hstep hread
    | cleanup u => simp [hline] at hread
    | undefined u => simp [hline] at hread

/-! ### Files read without errors -/

/-- A run without errors that delivers these nodes, all of them alive. -/
structure ReadsClean (old : List (Option Kbnode)) (nodes : List Kbnode) (r : ReadFile) : Prop where
  defined : r.defined = true
  nerrors : r.nerrors = 0
  dst : r.dst = old ++ nodes.map some
  ne_nil : nodes ≠ []

variable {lines : List CStr} {nodes : List Kbnode}

theorem finish_nerrors (s : Reader) : s.finish.nerrors = s.nerrors := by
  unfold Reader.finish
  dsimp only
  split
  · rfl
  · split
    · rfl
    · split <;> rfl

/-- Without errors, the reader comes to the end of the file. -/
theorem next_of_clean (hdef : (readLines L fname s lines).result.defined = true)
    (herr : (readLines L fname s lines).result.nerrors = 0) :
    ∃ t, readLines L fname s lines = .next t := by
  induction lines generalizing s with
  | nil => exact ⟨s, rfl⟩
  | cons buffer lines ih =>
    rw [readLines] at hdef herr ⊢
    cases hline : readLine L fname s buffer with
    | next t =>
      rw [hline] at hdef herr
      exact ih hdef herr
    | cleanup t =>
      have hcount := counted_readLine (L := L) fname s buffer
      rw [hline] at hcount herr
      cases hcount with
      | cleanup hnerrors =>
        rw [Read.result, finish_nerrors, hnerrors] at herr
        exact absurd herr (Nat.succ_ne_zero _)
    | undefined t => simp [hline, Read.result] at hdef

/-- Lines that lead on have their newlines, and they are counted. -/
theorem readLines_next (h : readLines L fname s lines = .next t) :
    (∀ line ∈ lines, '\n' ∈ line) ∧ t.lc = s.lc + lines.length := by
  induction lines generalizing s with
  | nil =>
    obtain rfl := Read.next.inj h
    exact ⟨by simp, rfl⟩
  | cons buffer lines ih =>
    rw [readLines] at h
    cases hline : readLine L fname s buffer with
    | next u =>
      have hcount := counted_readLine (L := L) fname s buffer
      rw [hline] at h hcount
      cases hcount with
      | next hnewline hlc _ =>
        obtain ⟨hlines, hlc'⟩ := ih h
        refine ⟨List.forall_mem_cons.mpr ⟨hnewline, hlines⟩, ?_⟩
        rw [hlc', hlc, List.length_cons]
        omega
    | cleanup u => simp [hline] at h
    | undefined u => simp [hline] at h

/-- What a run without errors leaves behind. -/
theorem finish_of_no_errors (herr : s.nerrors = 0) : s.finish.defined = true ∧
    s.finish.dst = s.dst ∧ (s.nnodes ≠ 0 → s.finish.nwarnings = s.nwarnings) := by
  simp +contextual [Reader.finish, herr]

theorem exists_of_samePlace (h : List.Forall₂ (SamePlace shift) (nodes.map some) places') :
    ∃ nodes', places' = nodes'.map some ∧ List.Forall₂ (SameNode shift) nodes nodes' := by
  induction nodes generalizing places' with
  | nil =>
    cases h
    exact ⟨[], rfl, .nil⟩
  | cons node nodes ih =>
    cases h with
    | cons hplace hrest =>
      obtain ⟨node', rfl, hsame, -, -⟩ := hplace node rfl
      obtain ⟨nodes', rfl, hsames⟩ := ih hrest
      exact ⟨node' :: nodes', rfl, .cons hsame hsames⟩

/-! ### File names -/

/-- All nodes that the reader has made are deleted. -/
structure NoneLeft (old : List (Option Kbnode)) (s : Reader) : Prop where
  dst : ∃ n, s.dst = old ++ List.replicate n none
  current : ∀ i, s.current = some i → old.length ≤ i

theorem NoneLeft.not_isCurrent (h : NoneLeft old s) {i : ℕ} {node : Kbnode} :
    ¬ IsCurrent s i node := by
  intro hcur
  obtain ⟨n, hdst⟩ := h.dst
  have hnode := hcur.node
  rw [hdst, List.getElem?_append_right (h.current i hcur.current)] at hnode
  have hmem := List.mem_of_getElem? hnode
  simp at hmem

/-- A node whose file name cannot be stored is deleted, and nothing can be assigned to it. -/
theorem NoneLeft.line (h : NoneLeft old s) (hfname : parseValue L .all fname = none)
    {buffer : CStr} (hread : readLine L fname s buffer = .next t) : NoneLeft old t := by
  have hcount : NoneLeft old { s with lc := s.lc + 1 } := ⟨h.dst, h.current⟩
  have hassign (f : Symtab → Option (Bool × Symtab)) :
      Reader.assign { s with lc := s.lc + 1 } f ≠ .next t := by
    rcases assign_cases { s with lc := s.lc + 1 } f with hf | hf | ⟨i, node, r, hcur, -⟩
    · simp [hf]
    · simp [hf]
    · exact absurd hcur hcount.not_isCurrent
  unfold readLine at hread
  cases hkind : classify L buffer with
  | append name value =>
    simp only [hkind] at hread
    exact absurd hread (hassign _)
  | assign name value =>
    simp only [hkind] at hread
    exact absurd hread (hassign _)
  | header typename =>
    cases htype : nodeTypeType typename with
    | none => simp [hkind, nodeNew, htype] at hread
    | some type =>
      have hnone := (nodeNewSymtab_eq_none (s.lc + 1)).mpr hfname
      simp only [hkind, nodeNew, htype, hnone, Option.map_some, Option.map_none,
        Read.next.injEq] at hread
      obtain rfl := hread
      obtain ⟨n, hdst⟩ := h.dst
      refine ⟨⟨n + 1, ?_⟩, ?_⟩
      · rw [hdst, List.append_assoc, List.replicate_succ']
      · rintro i ⟨⟩
        simp [hdst]
  | blank =>
    simp only [hkind, Read.next.injEq] at hread
    rwa [← hread]
  | unrecognised =>
    simp only [hkind, Read.next.injEq] at hread
    obtain rfl := hread
    exact ⟨h.dst, h.current⟩
  | _ => simp [hkind] at hread

theorem NoneLeft.run (h : NoneLeft old s) (hfname : parseValue L .all fname = none)
    (hread : readLines L fname s lines = .next t) : NoneLeft old t := by
  induction lines generalizing s with
  | nil =>
    obtain rfl := Read.next.inj hread
    exact h
  | cons buffer lines ih =>
    rw [readLines] at hread
    cases hline : readLine L fname s buffer with
    | next u =>
      rw [hline] at hread
      exact ih (h.line hfname hline) hread
    | cleanup u => simp [hline] at hread
    | undefined u => simp [hline] at hread

/-- The name of a file that has been read with its nodes can be stored. -/
theorem ReadsClean.fname_stored {content : CStr}
    (h : ReadsClean old nodes (kbnodeReadFile L old fname (some content))) :
    parseValue L .all fname ≠ none := by
  intro hfname
  obtain ⟨t, hread⟩ := next_of_clean h.defined h.nerrors
  have hfile : kbnodeReadFile L old fname (some content) = t.finish := by
    simp only [kbnodeReadFile, hread, Read.result]
  have hstart : NoneLeft old (.start old) :=
    ⟨⟨0, by simp [Reader.start]⟩, by simp [Reader.start]⟩
  obtain ⟨n, hnone⟩ := (hstart.run hfname hread).dst
  have herr := h.nerrors
  rw [hfile, finish_nerrors] at herr
  have hdst := h.dst
  rw [hfile, (finish_of_no_errors herr).2.1, hnone] at hdst
  have hnodes := List.append_cancel_left hdst
  obtain ⟨node, hnode⟩ := List.exists_mem_of_ne_nil nodes h.ne_nil
  have hmem : some node ∈ List.replicate n (none : Option Kbnode) := by
    rw [hnodes]
    exact List.mem_map_of_mem hnode
  simp at hmem

/-! ### Two files -/

/-- A file that is read without errors is read in the same way as the next part of another one. -/
theorem ReadsClean.joins {content : CStr}
    (h : ReadsClean old nodes (kbnodeReadFile L old fname (some content)))
    (hfname : parseValue L .all fname' ≠ none) (hlc : s'.lc = shift) (herr : s'.nerrors = 0) :
    (∀ line ∈ fileLines content, '\n' ∈ line) ∧
      ∃ t' nodes', readLines L fname' s' (fileLines content) = .next t' ∧
        t'.dst = s'.dst ++ nodes'.map some ∧ List.Forall₂ (SameNode shift) nodes nodes' ∧
        t'.lc = shift + (fileLines content).length ∧ t'.nerrors = 0 ∧ t'.nnodes ≠ 0 ∧
        t'.nwarnings = s'.nwarnings + (kbnodeReadFile L old fname (some content)).nwarnings := by
  obtain ⟨t, hread⟩ := next_of_clean h.defined h.nerrors
  obtain ⟨t', places, places', hread', hstep⟩ :=
    (inStep_start old hlc herr).run hfname hread
  have hfile : kbnodeReadFile L old fname (some content) = t.finish := by
    simp only [kbnodeReadFile, hread, Read.result]
  obtain ⟨-, hdst, hwarnings⟩ := finish_of_no_errors hstep.nerrors.1
  have hplaces : places = nodes.map some := by
    have heq := h.dst
    rw [hfile, hdst, hstep.dst] at heq
    exact List.append_cancel_left heq
  subst hplaces
  obtain ⟨nodes', rfl, hsame⟩ := exists_of_samePlace hstep.same
  obtain ⟨hnnodes, hnnodes'⟩ := hstep.nnodes
  have hpos := List.length_pos_iff.mpr h.ne_nil
  rw [List.length_map] at hnnodes hnnodes'
  refine ⟨(readLines_next hread).1, t', nodes', hread', hstep.dst', hsame, ?_, hstep.nerrors.2,
    by omega, ?_⟩
  · rw [(readLines_next hread').2, hlc]
  · rw [hfile, hwarnings (by omega), hstep.nwarnings]

/-- Two files that are read without errors can be read as one: it has no errors, the warnings of
both, and the nodes of both with their values, except for the name of the file and the lines of the
second part. The file must have a name that a node can store, as those of the parts have. -/
theorem kbnodeReadFile_concat {old₁ old₂ : List (Option Kbnode)}
    {fname₁ fname₂ content₁ content₂ : CStr} {nodes₁ nodes₂ : List Kbnode}
    (h₁ : ReadsClean old₁ nodes₁ (kbnodeReadFile L old₁ fname₁ (some content₁)))
    (h₂ : ReadsClean old₂ nodes₂ (kbnodeReadFile L old₂ fname₂ (some content₂)))
    (old : List (Option Kbnode)) {fname : CStr} (hfname : parseValue L .all fname ≠ none) :
    ∃ nodes₁' nodes₂',
      ReadsClean old (nodes₁' ++ nodes₂')
        (kbnodeReadFile L old fname (some (content₁ ++ content₂))) ∧
      (kbnodeReadFile L old fname (some (content₁ ++ content₂))).nwarnings =
        (kbnodeReadFile L old₁ fname₁ (some content₁)).nwarnings +
          (kbnodeReadFile L old₂ fname₂ (some content₂)).nwarnings ∧
      List.Forall₂ (SameNode 0) nodes₁ nodes₁' ∧
      List.Forall₂ (SameNode (fileLines content₁).length) nodes₂ nodes₂' := by
  have hstart : (Reader.start old).lc = 0 ∧ (Reader.start old).nerrors = 0 := ⟨rfl, rfl⟩
  obtain ⟨hlines, s, nodes₁', hread₁, hdst₁, hsame₁, hlc₁, herr₁, -, hwarnings₁⟩ :=
    h₁.joins hfname hstart.1 hstart.2
  rw [Nat.zero_add] at hlc₁
  obtain ⟨-, t, nodes₂', hread₂, hdst₂, hsame₂, -, herr₂, hnnodes, hwarnings₂⟩ :=
    ReadsClean.joins h₂ hfname hlc₁ herr₁
  have hread : kbnodeReadFile L old fname (some (content₁ ++ content₂)) = t.finish := by
    simp only [kbnodeReadFile, fileLines_append hlines, readLines_append, hread₁, hread₂,
      Read.result]
  obtain ⟨hdef, hdst, hwarnings⟩ := finish_of_no_errors herr₂
  refine ⟨nodes₁', nodes₂', ⟨?_, ?_, ?_, ?_⟩, ?_, hsame₁, hsame₂⟩
  · rw [hread, hdef]
  · rw [hread, finish_nerrors, herr₂]
  · rw [hread, hdst, hdst₂, hdst₁]
    simp [Reader.start]
  · intro hnil
    have hlength := hsame₁.length_eq
    rw [(List.append_eq_nil_iff.mp hnil).1] at hlength
    exact h₁.ne_nil (List.length_eq_zero_iff.mp hlength)
  · rw [hread, hwarnings hnnodes, hwarnings₂, hwarnings₁]
    simp [Reader.start]

/-- A file with a job of one variable, and the node that it makes. -/
def oneJob : CStr := "[job]\nx = 1\n".toList

def oneJobNode : Kbnode where
  type := .job
  symtab := ((((∅ : Symtab).insert kbnodeKeyFname ["f".toList]).insert kbnodeKeyLine
    ["1".toList]).insert "x".toList ["1".toList])

theorem oneJob_readsClean : ReadsClean [] [oneJobNode]
    (kbnodeReadFile .ordered [] "f".toList (some oneJob)) := by
  constructor
  · decide +kernel
  · decide +kernel
  · rfl
  · simp

theorem oneJob_concat : ∃ nodes₁ nodes₂, ReadsClean [] (nodes₁ ++ nodes₂)
    (kbnodeReadFile .ordered [] "g".toList (some (oneJob ++ oneJob))) ∧
      List.Forall₂ (SameNode 0) [oneJobNode] nodes₁ ∧
        List.Forall₂ (SameNode (fileLines oneJob).length) [oneJobNode] nodes₂ := by
  have hfname : parseValue .ordered .all "g".toList ≠ none := by decide
  obtain ⟨nodes₁, nodes₂, hclean, -, hsame₁, hsame₂⟩ :=
    kbnodeReadFile_concat oneJob_readsClean oneJob_readsClean [] hfname
  exact ⟨nodes₁, nodes₂, hclean, hsame₁, hsame₂⟩

end Kubeka
