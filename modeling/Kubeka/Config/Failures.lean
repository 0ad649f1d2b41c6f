import Kubeka.Model.Instantiate

/-!
# When a node cannot be built

An instantiation fails when the table of a node cannot be copied, or when one
of the children is an ancestor or fails itself; a child that is missing is
passed over. The calls that fail one inside the other may all be those of jobs,
which is told apart because jobs and handlers are not taken back alike.
-/

namespace Kubeka

variable {L : Libds} {all : List Kbnode} {up : List Symtab} {st : Symtab} {src : Kbnode}
  {djobs : List Djob} {n : ℕ}

/-- The loop over the children ends at this entry when it comes to it; `fails` are the nodes that
cannot be built. -/
def Djob.Stops (all : List Kbnode) (up : List Symtab) (fails : Kbnode → Prop) (d : Djob) : Prop :=
  ∃ ref, nodeFindbyid all d.id = some ref ∧ (nodeFindparent up d.id ≠ none ∨ fails ref)

/-- The node cannot be built below these ancestors. -/
inductive Fails (L : Libds) (all : List Kbnode) : List Symtab → Kbnode → Prop
  | table {up : List Symtab} {src : Kbnode} (copy : kbsymtabCopy L src.symtab = none) :
      Fails L all up src
  | ancestor {up : List Symtab} {src ref : Kbnode} {st : Symtab} {djobs : List Djob} {n : ℕ}
      {d : Djob} (copy : kbsymtabCopy L src.symtab = some st)
      (table : nodeFindDependentJobs src.symtab all = (some djobs, n)) (entry : d ∈ djobs)
      (found : nodeFindbyid all d.id = some ref) (cycle : nodeFindparent up d.id ≠ none) :
      Fails L all up src
  | child {up : List Symtab} {src ref : Kbnode} {st : Symtab} {djobs : List Djob} {n : ℕ}
      {d : Djob} (copy : kbsymtabCopy L src.symtab = some st)
      (table : nodeFindDependentJobs src.symtab all = (some djobs, n)) (entry : d ∈ djobs)
      (found : nodeFindbyid all d.id = some ref) (fails : Fails L all (st :: up) ref) :
      Fails L all up src

/-- The first child that ends the loop is an ancestor, or a job of which the same holds. -/
inductive FailsByJobs (L : Libds) (all : List Kbnode) : List Symtab → Kbnode → Prop
  | ancestor {up : List Symtab} {src ref : Kbnode} {st : Symtab} {pre post : List Djob} {n : ℕ}
      {d : Djob} (copy : kbsymtabCopy L src.symtab = some st)
      (table : nodeFindDependentJobs src.symtab all = (some (pre ++ d :: post), n))
      (passed : ∀ e ∈ pre, ¬ e.Stops all up (Fails L all (st :: up)))
      (found : nodeFindbyid all d.id = some ref) (cycle : nodeFindparent up d.id ≠ none) :
      FailsByJobs L all up src
  | job {up : List Symtab} {src ref : Kbnode} {st : Symtab} {pre post : List Djob} {n : ℕ}
      {d : Djob} (copy : kbsymtabCopy L src.symtab = some st)
      (table : nodeFindDependentJobs src.symtab all = (some (pre ++ d :: post), n))
      (passed : ∀ e ∈ pre, ¬ e.Stops all up (Fails L all (st :: up)))
      (found : nodeFindbyid all d.id = some ref) (job : d.childtype = .job)
      (fails : FailsByJobs L all (st :: up) ref) : FailsByJobs L all up src

/-! ### One node -/

theorem fails_iff (hcopy : kbsymtabCopy L src.symtab = some st)
    (htable : nodeFindDependentJobs src.symtab all = (some djobs, n)) :
    Fails L all up src ↔ ∃ d ∈ djobs, d.Stops all up (Fails L all (st :: up)) := by
  constructor
  · intro hfails
    cases hfails with
    | table copy => simp [hcopy] at copy
    | ancestor copy table entry found cycle =>
      obtain rfl := Option.some.inj (Prod.mk.inj (htable.symm.trans table)).1
      exact ⟨_, entry, _, found, .inl cycle⟩
    | child copy table entry found fails =>
      obtain rfl := Option.some.inj (hcopy.symm.trans copy)
      obtain rfl := Option.some.inj (Prod.mk.inj (htable.symm.trans table)).1
      exact ⟨_, entry, _, found, .inr fails⟩
  · rintro ⟨d, hd, ref, href, hcycle | hfails⟩
    · exact .ancestor hcopy htable hd href hcycle
    · exact .child hcopy htable hd href hfails

theorem FailsByJobs.fails (h : FailsByJobs L all up src) : Fails L all up src := by
  induction h with
  | ancestor copy table _ found cycle => exact .ancestor copy table (by simp) found cycle
  | job copy table _ found _ _ ih => exact .child copy table (by simp) found ih

/-- The loop over the children ends in this way. -/
def StopsByJobs (all : List Kbnode) (up : List Symtab) (fails byJobs : Kbnode → Prop)
    (ds : List Djob) : Prop :=
  ∃ pre d post ref, ds = pre ++ d :: post ∧ (∀ e ∈ pre, ¬ e.Stops all up fails) ∧
    nodeFindbyid all d.id = some ref ∧
      (nodeFindparent up d.id ≠ none ∨ d.childtype = .job ∧ byJobs ref)

theorem failsByJobs_iff (hcopy : kbsymtabCopy L src.symtab = some st)
    (htable : nodeFindDependentJobs src.symtab all = (some djobs, n)) :
    FailsByJobs L all up src ↔
      StopsByJobs all up (Fails L all (st :: up)) (FailsByJobs L all (st :: up)) djobs := by
  constructor
  · intro hfails
    cases hfails with
    | ancestor copy table passed found cycle =>
      obtain rfl := Option.some.inj (hcopy.symm.trans copy)
      obtain rfl := Option.some.inj (Prod.mk.inj (htable.symm.trans table)).1
      exact ⟨_, _, _, _, rfl, passed, found, .inl cycle⟩
    | job copy table passed found job fails =>
      obtain rfl := Option.some.inj (hcopy.symm.trans copy)
      obtain rfl := Option.some.inj (Prod.mk.inj (htable.symm.trans table)).1
      exact ⟨_, _, _, _, rfl, passed, found, .inr ⟨job, fails⟩⟩
  · rintro ⟨pre, d, post, ref, rfl, hpassed, href, hcycle | ⟨hjob, hfails⟩⟩
    · exact .ancestor hcopy htable hpassed href hcycle
    · exact .job hcopy htable hpassed href hjob hfails

section
variable {fails byJobs : Kbnode → Prop} {d : Djob} {ds : List Djob} {ref : Kbnode}

theorem stopsByJobs_cons_of_not (hsub : ∀ ref, byJobs ref → fails ref)
    (hd : ¬ d.Stops all up fails) :
    StopsByJobs all up fails byJobs (d :: ds) ↔ StopsByJobs all up fails byJobs ds := by
  constructor
  · rintro ⟨pre, e, post, ref, heq, hpassed, href, hstop⟩
    cases pre with
    | nil =>
      obtain ⟨rfl, -⟩ := List.cons.inj heq
      exact absurd ⟨ref, href, hstop.imp_right fun h => hsub ref h.2⟩ hd
    | cons e' pre =>
      exact ⟨pre, e, post, ref, (List.cons.inj heq).2, fun x hx => hpassed x (by simp [hx]), href,
        hstop⟩
  · rintro ⟨pre, e, post, ref, rfl, hpassed, href, hstop⟩
    exact ⟨d :: pre, e, post, ref, rfl, List.forall_mem_cons.mpr ⟨hd, hpassed⟩, href, hstop⟩

theorem stopsByJobs_cons_of_stops (hd : d.Stops all up fails)
    (href : nodeFindbyid all d.id = some ref) : StopsByJobs all up fails byJobs (d :: ds) ↔
      nodeFindparent up d.id ≠ none ∨ d.childtype = .job ∧ byJobs ref := by
  constructor
  · rintro ⟨pre, e, post, ref', heq, hpassed, href', hstop⟩
    cases pre with
    | nil =>
      obtain ⟨rfl, -⟩ := List.cons.inj heq
      obtain rfl := Option.some.inj (href.symm.trans href')
      exact hstop
    | cons e' pre =>
      obtain ⟨rfl, -⟩ := List.cons.inj heq
      exact absurd hd (hpassed d List.mem_cons_self)
  · exact fun hstop => ⟨[], d, ds, ref, rfl, by simp, href, hstop⟩

end

/-! ### The recursion -/

section
variable {fails : Kbnode → Prop} {d : Djob} {ref : Kbnode}

theorem Djob.not_stops_of_missing (href : nodeFindbyid all d.id = none) :
    ¬ d.Stops all up fails := by
  rintro ⟨ref, hfound, -⟩
  simp [href] at hfound

theorem Djob.not_stops_of_built (href : nodeFindbyid all d.id = some ref)
    (hnew : nodeFindparent up d.id = none) (hbuilt : ¬ fails ref) : ¬ d.Stops all up fails := by
  rintro ⟨ref', href', hcycle | hfails⟩
  · exact hcycle hnew
  · obtain rfl := Option.some.inj (href.symm.trans href')
    exact hbuilt hfails

end

theorem instantiateChildren_stops_iff {build : Kbnode → Option Instantiated}
    {fails : Kbnode → Prop} {ds : List Djob} {c : Children}
    (hbuild : ∀ ref r, build ref = some r → (r.tree = none ↔ fails ref))
    (h : instantiateChildren all up build ds = some c) :
    c.ok = false ↔ ∃ d ∈ ds, d.Stops all up fails := by
  induction ds generalizing c with
  | nil =>
    obtain rfl := Option.some.inj h
    simp
  | cons d ds ih =>
    rw [List.exists_mem_cons_iff]
    cases instantiateChildren_cons h with
    | missing found rest => exact (ih rest).trans (or_iff_right (Djob.not_stops_of_missing found)).symm
    | cycle found cycle => exact iff_of_true rfl (.inl ⟨_, found, .inl cycle⟩)
    | failed found _ failed =>
      exact iff_of_true rfl (.inl ⟨_, found, .inr ((hbuild _ _ failed).mp rfl)⟩)
    | @built ref t n c found fresh built rest =>
      have hok : ¬ fails ref := fun hfails => by simpa using (hbuild ref _ built).mpr hfails
      rw [Children.insert_ok, ih rest, or_iff_right (Djob.not_stops_of_built found fresh hok)]

/-- No tree is returned exactly for the nodes that cannot be built. -/
theorem nodeInstantiate_fails_iff {fuel : ℕ} {result : Instantiated}
    (h : nodeInstantiate L all fuel up src = some result) :
    result.tree = none ↔ Fails L all up src := by
  induction fuel generalizing up src result with
  | zero => simp [nodeInstantiate] at h
  | succ fuel ih =>
    cases nodeInstantiate_succ h with
    | noTable copy => exact iff_of_true rfl (.table copy)
    | noChildren hcopy htable =>
      refine iff_of_false (by simp) fun hfails => ?_
      cases hfails with
      | table copy => simp [hcopy] at copy
      | ancestor _ table => simp [htable] at table
      | child _ table => simp [htable] at table
    | @children st djobs n c copy table loop =>
      rw [fails_iff copy table, ← instantiateChildren_stops_iff (fun _ _ hr => ih hr) loop]
      cases c.ok <;> simp

end Kubeka
