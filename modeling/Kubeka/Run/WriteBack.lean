import Kubeka.Assign.SetSingle
import Kubeka.Eval.Expansion
import Kubeka.Eval.Shape
import Kubeka.Run.Counter
import Mathlib.Logic.Relation

/-!
# Writing values back

Evaluation stores a value in the slot that it was read from, and the thread of a
periodic node stores its counter in the first slot of a COUNTER that has a
value. So what they do to the arrays in memory is a run of calls of
`kbnode_set_single` that replace elements, and all arrays keep their lengths.
-/

namespace Kubeka

open Fuel Relation

/-! ### Calls one after the other -/

/-- A call of `kbnode_set_single` that replaces an element. -/
def Replaces (m m' : Option SlotTable) : Prop :=
  ∃ alloc key index newvalue r, kbnodeSetSingleSlots alloc m key index newvalue = .ok r ∧
    SetsSingle m key index newvalue r ∧ r.ret = true ∧ r.symtab = m'

theorem Replaces.keepsLength {m m' : Option SlotTable} (h : Replaces m m') (key : CStr) :
    kbutilStrarrayLength (kbsymtabGetSlots m' key) =
      kbutilStrarrayLength (kbsymtabGetSlots m key) := by
  obtain ⟨alloc, key', index, newvalue, r, -, hsets, -, rfl⟩ := h
  exact hsets.keepsLength key

/-- In memory, `st` becomes `st'` by replacing one element after the other, and all arrays keep their
lengths. -/
def WrittenBack (st st' : Symtab) : Prop :=
  ∀ m, Represents m st → ∃ m', ReflTransGen Replaces m m' ∧ Represents m' st' ∧
    ∀ key, kbutilStrarrayLength (kbsymtabGetSlots m' key) =
      kbutilStrarrayLength (kbsymtabGetSlots m key)

theorem WrittenBack.refl (st : Symtab) : WrittenBack st st := fun m h => ⟨m, .refl, h, fun _ => rfl⟩

theorem WrittenBack.trans {st st' st'' : Symtab} (h : WrittenBack st st')
    (h' : WrittenBack st' st'') : WrittenBack st st'' := by
  intro m hm
  obtain ⟨m', hm', hrep, hlength⟩ := h m hm
  obtain ⟨m'', hm'', hrep', hlength'⟩ := h' m' hrep
  exact ⟨m'', hm'.trans hm'', hrep', fun key => (hlength' key).trans (hlength key)⟩

/-- A call for an element that is there. -/
theorem setSingle_writtenBack {st : Symtab} {key : CStr} {xs : List CStr} {index : ℕ}
    (hget : kbsymtabGet st key = some xs) (hlt : index < xs.length) (newvalue : CStr) :
    WrittenBack st (kbnodeSetSingle st key index newvalue).2 := by
  intro m hm
  have hwithin : ∀ ys, kbsymtabGet st key = some ys → ys ≠ [] → index ≠ ys.length := by
    intro ys hys _
    obtain rfl := Option.some.inj (hget.symm.trans hys)
    exact hlt.ne
  have hcopy : Alloc.all .replacement = true := rfl
  obtain ⟨r, hr, hret, hrep⟩ := setSingleSlots_represents hm hcopy hwithin newvalue
  have hne : xs ≠ [] := List.ne_nil_of_length_pos (Nat.zero_lt_of_lt hlt)
  rw [kbnodeSetSingle_stored hget hne hlt.le] at hret
  obtain ⟨sa, hslots, hscan⟩ := hm.bound hget
  have hsets : SetsSingle m key index newvalue r := by
    cases m with
    | none => simp [kbsymtabGetSlots] at hslots
    | some table =>
      rw [setSingleSlots_stored hslots hscan hne hlt.le] at hr
      obtain rfl := Except.ok.inj hr
      exact (setsSingle_stored_iff hslots hscan hlt.le true).mpr ⟨hlt, rfl⟩
  have hstep : Replaces m r.symtab := ⟨.all, key, index, newvalue, r, hr, hsets, hret, rfl⟩
  exact ⟨r.symtab, .single hstep, hrep, hstep.keepsLength⟩

/-! ### Evaluation -/

variable {L : Libds} {up : List Symtab}

theorem evalKeys_writtenBack {keys : List CStr} {st : Symtab} {env : Env} {r : NodeEval}
    (h : HaltsWith (evalKeys L up keys st env) r) : WrittenBack st r.symtab := by
  refine evalKeys_preserves .refl (fun _ _ _ h h' => h.trans h') ?_ h
  intro st env key pre v rest r hget _
  exact setSingle_writtenBack hget (by simp) r.newvalue

/-- Evaluation writes to elements only, in every node of a tree. -/
theorem kbtreeEval_writtenBack {t : KbTree} {env : Env} {r : TreeEval KbTree}
    (h : HaltsWith (kbtreeEval L up t env) r) (up₂ : List Symtab) :
    KbTree.Related (fun _ n n' => WrittenBack n.symtab n'.symtab) up up₂ t r.tree :=
  kbtreeEval_related (fun _ n => .refl n.symtab)
    (fun _ _ _ _ _ _ _ _ _ hr _ _ => evalKeys_writtenBack hr) h up₂

/-! ### The counter of a periodic node -/

variable {period : Kbperiod}

/-- The thread counts only when there is a COUNTER to write to. -/
def HasCounter (s : Periodic) : Prop :=
  s.counter ≠ noCounter → ∃ v vs, kbsymtabGet s.root.symtab kbnodeKeyCounter = some (v :: vs)

theorem countDown_writtenBack {s : Periodic} (h : HasCounter s) :
    HasCounter (countDown s) ∧ WrittenBack s.root.symtab (countDown s).root.symtab := by
  unfold countDown
  split_ifs with hcounter
  · exact ⟨h, .refl _⟩
  · obtain ⟨v, vs, hget⟩ := h hcounter
    have hlt : 0 < (v :: vs).length := Nat.succ_pos vs.length
    simp only [KbTree.withSymtab_symtab, HasCounter]
    refine ⟨fun _ => ?_, setSingle_writtenBack hget hlt _⟩
    rw [kbnodeSetSingle_get hget hlt, if_pos rfl]
    exact ⟨_, vs, rfl⟩

/-- An iteration changes the tree and the counter at most by counting down. -/
theorem periodicStep_countsDown (period : Kbperiod) (s : Periodic) (tick : Tick) :
    (periodicStep period s tick).1.root = s.root ∧
        (periodicStep period s tick).1.counter = s.counter ∨
      (periodicStep period s tick).1.root = (countDown s).root ∧
        (periodicStep period s tick).1.counter = (countDown s).counter := by
  have hexp : ∀ n, (countDown { s with expTime := n }).root = (countDown s).root ∧
      (countDown { s with expTime := n }).counter = (countDown s).counter := by
    intro n
    unfold countDown
    split_ifs <;> exact ⟨rfl, rfl⟩
  unfold periodicStep
  split_ifs
  · exact .inl ⟨rfl, rfl⟩
  · exact .inl ⟨rfl, rfl⟩
  · exact .inl ⟨rfl, rfl⟩
  · dsimp only
    split_ifs <;> exact .inr (hexp _)

theorem periodicStep_writtenBack {s : Periodic} (h : HasCounter s) (tick : Tick) :
    HasCounter (periodicStep period s tick).1 ∧
      WrittenBack s.root.symtab (periodicStep period s tick).1.root.symtab := by
  rcases periodicStep_countsDown period s tick with ⟨hroot, hcounter⟩ | ⟨hroot, hcounter⟩
  · rw [HasCounter, hroot, hcounter]
    exact ⟨h, .refl _⟩
  · rw [HasCounter, hroot, hcounter]
    exact countDown_writtenBack h

/-- The tree that an iteration runs is the one that it leaves. -/
theorem periodicStep_ran {s : Periodic} {tick : Tick} {run : KbTree × Ran}
    (h : (periodicStep period s tick).2 = some run) :
    (periodicStep period s tick).1.root = run.1 := by
  unfold periodicStep at h ⊢
  split_ifs at h ⊢
  dsimp only at h ⊢
  split_ifs at h ⊢ <;> exact congrArg Prod.fst (Option.some.inj h)

/-- The trees of an iteration, before it and in its run, hold what was written to elements of this
table. -/
def Iteration.WrittenBack (st : Symtab) (it : Iteration) : Prop :=
  Kubeka.WrittenBack st it.before.root.symtab ∧
    ∀ run, it.run = some run → Kubeka.WrittenBack st run.1.symtab

theorem periodicLoop_writtenBack {s : Periodic} (h : HasCounter s) (ticks : List Tick) :
    ∀ it ∈ periodicLoop period s ticks, it.WrittenBack s.root.symtab := by
  induction ticks generalizing s with
  | nil => simp [periodicLoop]
  | cons tick ticks ih =>
    rw [periodicLoop]
    split_ifs
    · simp
    · obtain ⟨hcounter, hstep⟩ : HasCounter (periodicStep period s tick).1 ∧ _ :=
        periodicStep_writtenBack h tick
      intro it hit
      rcases List.mem_cons.mp hit with rfl | hit
      · refine ⟨.refl _, fun run hrun => ?_⟩
        rwa [← periodicStep_ran hrun]
      · obtain ⟨hbefore, hrun⟩ := ih hcounter it hit
        exact ⟨hstep.trans hbefore, fun run hr => hstep.trans (hrun run hr)⟩

theorem thPeriodicStart_hasCounter {nul : Bool} {root : KbTree} {now : ℕ} {s : Periodic}
    (h : thPeriodicStart nul root now = some (period, s)) : s.root = root ∧ HasCounter s := by
  unfold thPeriodicStart at h
  split at h
  · contradiction
  · dsimp only at h
    split_ifs at h with hperiod hgiven
    · -- without COUNTER nothing is counted
      obtain ⟨kbp, -, heq⟩ := Option.map_eq_some_iff.mp h
      obtain ⟨-, rfl⟩ := Prod.mk.inj heq
      exact ⟨rfl, fun hcounter => absurd rfl hcounter⟩
    · split at h
      · contradiction
      · obtain ⟨kbp, -, heq⟩ := Option.map_eq_some_iff.mp h
        obtain ⟨-, rfl⟩ := Prod.mk.inj heq
        exact ⟨rfl, fun _ => bound_of_getvalueFirst hgiven⟩

/-- The thread of a periodic node writes to elements only. -/
theorem thPeriodic_writtenBack (nul : Bool) (root : KbTree) (now : ℕ) (ticks : List Tick) :
    ∀ it ∈ thPeriodic nul root now ticks, it.WrittenBack root.symtab := by
  rw [thPeriodic]
  split
  · simp
  · next period s hstart =>
    obtain ⟨rfl, hcounter⟩ := thPeriodicStart_hasCounter hstart
    exact periodicLoop_writtenBack hcounter ticks

/-- The two callers of `kbnode_set_single` replace elements only: an evaluation that ends, in every
node of its tree, and the thread of a periodic node, in all its iterations. -/
theorem callers_writtenBack {t : KbTree} {env : Env} {r : TreeEval KbTree}
    (h : HaltsWith (kbtreeEval L [] t env) r) :
    KbTree.Related (fun _ n n' => WrittenBack n.symtab n'.symtab) [] [] t r.tree ∧
      ∀ nul now ticks, ∀ it ∈ thPeriodic nul r.tree now ticks, it.WrittenBack r.tree.symtab :=
  ⟨kbtreeEval_writtenBack h [], fun nul now ticks => thPeriodic_writtenBack nul r.tree now ticks⟩

/-- A greeting is put together in the array that it was read from. -/
theorem greeting_writtenBack : ∃ r m m', HaltsWith (kbtreeEval .ordered [] greeting fun _ => none) r ∧
    Represents m greeting.symtab ∧ ReflTransGen Replaces m m' ∧ Represents m' r.tree.symtab ∧
    r.tree.symtab.entries ≠ greeting.symtab.entries := by
  obtain ⟨r, hhalts, hchanged⟩ :=
    exists_haltsWith (f := kbtreeEval .ordered [] greeting fun _ => none) 4
      (fun r => r.tree.symtab.entries ≠ greeting.symtab.entries) (by decide)
  obtain ⟨table, hrep⟩ := exists_represents greeting.symtab
  have hroot := ((callers_writtenBack hhalts).1 []).1 [] greeting rfl
  obtain ⟨up', n', hn', hback⟩ := hroot
  rw [KbTree.at?_nil] at hn'
  obtain ⟨rfl, rfl⟩ := Prod.mk.inj (Option.some.inj hn')
  obtain ⟨m', hrun, hrep', -⟩ := hback (some table) hrep
  exact ⟨r, some table, m', hhalts, hrep, hrun, hrep', of_decide_eq_true hchanged⟩

end Kubeka
