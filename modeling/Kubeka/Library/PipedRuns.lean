import Kubeka.Library.Piped

/-!
# Runs of threads with pipes

What was read for a call, what is in its pipe and what its child has still to
write are together the message of the child; a process has only ends open of
calls that are not answered; and every step leaves less to do. From these three
facts about one step it follows that every thread gets the answers that it gets
alone, that something can go on until all threads are done, and that a call
waits for every process that has its end open.
-/

namespace Kubeka.Piped

open Interaction Kubeka.Lists

variable {κ ι ρ α β : Type*} {P : Protocol κ ι ρ β} {s s' : State κ ι ρ α β}
  {th th' : Thread κ ι ρ α β} {i : ℕ} {out : List (Answered ι ρ)}

/-! ### One thread -/

/-- The program from the call on that is being answered. -/
def Place.prog : Place ι ρ α β → Prog ι ρ α
  | .ready m | .tidying m => m
  | .piped c rest | .forked c rest | .reading c rest _ => .call c rest

/-- The thread has a pipe. -/
def Place.inCall : Place ι ρ α β → Bool
  | .piped _ _ | .forked _ _ | .reading _ _ _ => true
  | .ready _ | .tidying _ => false

/-- The call that a child was forked for, with what was read for it. -/
def Place.got : Place ι ρ α β → Option (ι × List β)
  | .forked c _ => some (c, [])
  | .reading c _ bufs => some (c, bufs.flatten)
  | .ready _ | .piped _ _ | .tidying _ => none

variable (P) in
/-- All that the child of a call writes. -/
def Protocol.message (who : κ) (c : ι) : List β := ((P.writes who c).getD []).flatten

variable (P) in
/-- The answer to a call that is alone. -/
def Protocol.reply (who : κ) (c : ι) : ρ := P.answer who c ((P.writes who c).getD [])

theorem Protocol.answer_of_message {who : κ} {c : ι} {bufs : List (List β)}
    (h : bufs.flatten = P.message who c) : P.answer who c bufs = P.reply who c :=
  P.answer_flatten who c _ _ h

/-- What the child has still to write. -/
def Thread.unwritten (th : Thread κ ι ρ α β) : List β :=
  match th.child with
  | none => []
  | some ch => ch.pending.flatten

/-- What was read, what is in the pipe and what is still to be written are the message. -/
structure Thread.Ok (P : Protocol κ ι ρ β) (i : ℕ) (th : Thread κ ι ρ α β) : Prop where
  stream : ∀ c got, th.place.got = some (c, got) →
    got ++ th.pipe ++ th.unwritten = P.message th.who c
  quiet : th.place.got = none → th.pipe = [] ∧ th.child = none
  own : ∀ ch, th.child = some ch → i ∈ ch.inherited
  fits : ∀ ch, th.child = some ch → ∀ w ∈ ch.pending, w.length ≤ P.room

theorem Thread.Ok.of_quiet (hgot : th.place.got = none) (hpipe : th.pipe = [])
    (hchild : th.child = none) : th.Ok P i := by
  refine ⟨fun c got h => ?_, fun _ => ⟨hpipe, hchild⟩, fun ch h => ?_, fun ch h => ?_⟩
  · rw [hgot] at h
    contradiction
  · rw [hchild] at h
    contradiction
  · rw [hchild] at h
    contradiction

theorem Protocol.length_le_room_getD (P : Protocol κ ι ρ β) {who : κ} {c : ι} {w : List β}
    (hw : w ∈ (P.writes who c).getD []) : w.length ≤ P.room := by
  cases hwrites : P.writes who c with
  | none => simp [hwrites] at hw
  | some ws =>
    rw [hwrites] at hw
    exact P.length_le_room who c ws hwrites w hw

theorem finish_spec {c : ι} {rest : ρ → Prog ι ρ α} {bufs : List (List β)}
    (h : th.finish P s i c rest bufs = (th', out)) :
    (th'.who = th.who ∧ th'.pipe = th.pipe ∧ th'.child = th.child) ∧
      (th'.place.prog = rest (P.answer th.who c bufs) ∧ th'.place.inCall = false ∧
        th'.place.got = none) ∧
      (th'.helper = th.helper ∨ th'.helper = some (openEnds s)) ∧
      out = [(i, c, P.answer th.who c bufs)] := by
  obtain ⟨rfl, rfl⟩ := Prod.mk.inj h
  split_ifs
  · exact ⟨⟨rfl, rfl, rfl⟩, ⟨rfl, rfl, rfl⟩, .inr rfl, rfl⟩
  · exact ⟨⟨rfl, rfl, rfl⟩, ⟨rfl, rfl, rfl⟩, .inl rfl, rfl⟩

theorem mem_openEnds {j : ℕ} : j ∈ openEnds s ↔ ∃ th, s[j]? = some th ∧ th.place.isOpen = true := by
  simp only [openEnds, List.mem_filter, List.mem_range, Option.any_eq_true]
  constructor
  · rintro ⟨-, th, hth, hopen⟩
    exact ⟨th, hth, hopen⟩
  · rintro ⟨th, hth, hopen⟩
    exact ⟨(List.getElem?_eq_some_iff.mp hth).1, th, hth, hopen⟩

theorem Place.inCall_of_isOpen {p : Place ι ρ α β} (h : p.isOpen = true) : p.inCall = true := by
  cases p with
  | ready m => contradiction
  | piped c rest => rfl
  | forked c rest => rfl
  | reading c rest bufs => contradiction
  | tidying m => contradiction

theorem Thread.holds_of_child {ch : Child β} (h : th.child = some ch) {j : ℕ}
    (hj : j ∈ ch.inherited) : th.holds j = true := by
  simp [Thread.holds, h, hj]

/-- When nobody can write any more, all of the message was read. -/
theorem Thread.Ok.complete (hok : th.Ok P i) (hth : s[i]? = some th) {c : ι}
    {rest : ρ → Prog ι ρ α} {bufs : List (List β)} (hplace : th.place = .reading c rest bufs)
    (hpipe : th.pipe = []) (hnone : ∀ x ∈ s, x.holds i = false) :
    th.child = none ∧ bufs.flatten = P.message th.who c := by
  have hchild : th.child = none := by
    by_contra hsome
    obtain ⟨ch, hch⟩ := Option.ne_none_iff_exists'.mp hsome
    have hholds := Thread.holds_of_child hch (hok.own ch hch)
    rw [hnone th (List.mem_of_getElem? hth)] at hholds
    contradiction
  have hstream := hok.stream c bufs.flatten (by rw [hplace]; rfl)
  rw [hpipe, Thread.unwritten, hchild, List.append_nil, List.append_nil] at hstream
  exact ⟨hchild, hstream⟩

theorem Moves.who (h : Moves P s i th th' out) : th'.who = th.who := by
  cases h with
  | refused _ _ hfinish => exact (finish_spec hfinish).1.1
  | answered _ _ _ hfinish => exact (finish_spec hfinish).1.1
  | _ => rfl

/-- What a step does to the message on its way. -/
theorem Moves.ok (h : Moves P s i th th' out) (hok : th.Ok P i) (hth : s[i]? = some th) :
    th'.Ok P i := by
  cases h with
  | refused hplace _ hfinish =>
    obtain ⟨⟨-, hpipe, hchild⟩, ⟨-, -, hgot⟩, -, -⟩ := finish_spec hfinish
    have hquiet := hok.quiet (by rw [hplace]; rfl)
    exact .of_quiet hgot (hpipe.trans hquiet.1) (hchild.trans hquiet.2)
  | opened hplace =>
    have hquiet := hok.quiet (by rw [hplace]; rfl)
    exact .of_quiet rfl hquiet.1 hquiet.2
  | forked hplace =>
    have hquiet := hok.quiet (by rw [hplace]; rfl)
    refine ⟨?_, fun h => by contradiction, ?_, ?_⟩
    · rintro c got h
      obtain ⟨rfl, rfl⟩ := Prod.mk.inj (Option.some.inj h)
      simp only [hquiet.1, List.nil_append]
      rfl
    · rintro ch h
      obtain rfl := Option.some.inj h
      exact mem_openEnds.mpr ⟨th, hth, by rw [hplace]; rfl⟩
    · rintro ch h w hw
      obtain rfl := Option.some.inj h
      exact P.length_le_room_getD hw
  | closed hplace =>
    refine ⟨?_, fun h => by contradiction, hok.own, hok.fits⟩
    rintro c got h
    obtain ⟨rfl, rfl⟩ := Prod.mk.inj (Option.some.inj h)
    exact hok.stream _ [] (by rw [hplace]; rfl)
  | @read c rest bufs n hplace hpos hle =>
    refine ⟨?_, fun h => by contradiction, hok.own, hok.fits⟩
    rintro c' got h
    obtain ⟨rfl, rfl⟩ := Prod.mk.inj (Option.some.inj h)
    have hstream := hok.stream c bufs.flatten (by rw [hplace]; rfl)
    rw [List.flatten_append, List.flatten_singleton, List.append_assoc _ (th.pipe.take n),
      List.take_append_drop]
    exact hstream
  | answered hplace hpipe hnone hfinish =>
    obtain ⟨⟨-, hpipe', hchild'⟩, ⟨-, -, hgot⟩, -, -⟩ := finish_spec hfinish
    obtain ⟨hchild, -⟩ := hok.complete hth hplace hpipe hnone
    exact .of_quiet hgot (hpipe'.trans hpipe) (hchild'.trans hchild)
  | tidied hplace =>
    have hquiet := hok.quiet (by rw [hplace]; rfl)
    exact .of_quiet rfl hquiet.1 hquiet.2
  | @wrote w ws inherited hchild =>
    refine ⟨fun c got h => ?_, fun h => ?_, ?_, ?_⟩
    · have hstream := hok.stream c got h
      rw [Thread.unwritten, hchild] at hstream
      simp only [List.flatten_cons] at hstream
      simp only [Thread.unwritten, ← hstream, List.append_assoc]
    · rw [(hok.quiet h).2] at hchild
      contradiction
    · rintro ch h
      obtain rfl := Option.some.inj h
      exact hok.own ⟨w :: ws, inherited⟩ hchild
    · rintro ch h v hv
      obtain rfl := Option.some.inj h
      exact hok.fits ⟨w :: ws, inherited⟩ hchild v (List.mem_cons_of_mem w hv)
  | exited hchild =>
    refine ⟨fun c got h => ?_, fun h => ⟨(hok.quiet h).1, rfl⟩, fun ch h => by contradiction,
      fun ch h => by contradiction⟩
    have hstream := hok.stream c got h
    rw [Thread.unwritten, hchild] at hstream
    exact hstream
  | helped _ => exact ⟨hok.stream, hok.quiet, hok.own, hok.fits⟩

/-- The answers that the program gets from here on when it is alone. -/
def Protocol.answers (P : Protocol κ ι ρ β) (who : κ) (m : Prog ι ρ α) : List (ι × ρ) :=
  (m.run (P.reply who)).2.map fun c => (c, P.reply who c)

/-- A step answers the next call as it is answered alone, or leaves the program as it is. -/
theorem Moves.answers (h : Moves P s i th th' out) (hok : th.Ok P i) (hth : s[i]? = some th) :
    (th.place.prog.run (P.reply th.who)).1 = (th'.place.prog.run (P.reply th.who)).1 ∧
      P.answers th.who th.place.prog = out.map Prod.snd ++ P.answers th.who th'.place.prog ∧
        ∀ a ∈ out, a.1 = i := by
  have hanswered : ∀ {c rest bufs}, th.place.prog = .call c rest →
      P.answer th.who c bufs = P.reply th.who c → th.finish P s i c rest bufs = (th', out) →
      (th.place.prog.run (P.reply th.who)).1 = (th'.place.prog.run (P.reply th.who)).1 ∧
        P.answers th.who th.place.prog = out.map Prod.snd ++ P.answers th.who th'.place.prog ∧
          ∀ a ∈ out, a.1 = i := by
    intro c rest bufs hprog hreply hfinish
    obtain ⟨-, ⟨hprog', -, -⟩, -, rfl⟩ := finish_spec hfinish
    rw [hprog, hprog', hreply]
    exact ⟨rfl, rfl, by simp⟩
  cases h with
  | @refused c rest _ _ hplace hwrites hfinish =>
    refine hanswered (by rw [hplace]; rfl) ?_ hfinish
    rw [Protocol.reply, hwrites]
    rfl
  | answered hplace hpipe hnone hfinish =>
    refine hanswered (by rw [hplace]; rfl) ?_ hfinish
    exact P.answer_of_message (hok.complete hth hplace hpipe hnone).2
  | opened hplace => exact ⟨by rw [hplace]; rfl, by rw [hplace]; rfl, by simp⟩
  | forked hplace => exact ⟨by rw [hplace]; rfl, by rw [hplace]; rfl, by simp⟩
  | closed hplace => exact ⟨by rw [hplace]; rfl, by rw [hplace]; rfl, by simp⟩
  | read n hplace => exact ⟨by rw [hplace]; rfl, by rw [hplace]; rfl, by simp⟩
  | tidied hplace => exact ⟨by rw [hplace]; rfl, by rw [hplace]; rfl, by simp⟩
  | wrote _ => exact ⟨rfl, rfl, by simp⟩
  | exited _ => exact ⟨rfl, rfl, by simp⟩
  | helped _ => exact ⟨rfl, rfl, by simp⟩

/-! ### Inherited ends -/

/-- Every end that a process has open belongs to a call that is not answered yet. -/
def EndsInCall (s : State κ ι ρ α β) : Prop :=
  ∀ x ∈ s, ∀ i, x.holds i = true → ∃ th, s[i]? = some th ∧ th.place.inCall = true

/-- What a process has open it had open before, or it has just inherited it. -/
theorem Moves.holds (h : Moves P s i th th' out) {j : ℕ} (hj : th'.holds j = true) :
    th.holds j = true ∨ j ∈ openEnds s := by
  have hfinish : ∀ {c rest bufs}, th.finish P s i c rest bufs = (th', out) →
      th.holds j = true ∨ j ∈ openEnds s := by
    intro c rest bufs h
    obtain ⟨⟨-, -, hchild⟩, -, hhelper | hhelper, -⟩ := finish_spec h
    · rw [Thread.holds, hchild, hhelper] at hj
      exact .inl hj
    · rw [Thread.holds, hchild, hhelper] at hj
      rcases Bool.or_eq_true_iff.mp hj with hj | hj
      · exact .inl (by rw [Thread.holds, hj, Bool.true_or])
      · exact .inr (by simpa using hj)
  cases h with
  | refused _ _ h => exact hfinish h
  | answered _ _ _ h => exact hfinish h
  | forked _ =>
    rcases Bool.or_eq_true_iff.mp hj with hj | hj
    · exact .inr (by simpa using hj)
    · exact .inl (by rw [Thread.holds, hj, Bool.or_true])
  | wrote hchild =>
    rcases Bool.or_eq_true_iff.mp hj with hj | hj
    · exact .inl (Thread.holds_of_child hchild (by simpa using hj))
    · exact .inl (by rw [Thread.holds, hj, Bool.or_true])
  | exited _ =>
    rcases Bool.or_eq_true_iff.mp hj with hj | hj
    · contradiction
    · exact .inl (by rw [Thread.holds, hj, Bool.or_true])
  | helped _ =>
    rcases Bool.or_eq_true_iff.mp hj with hj | hj
    · exact .inl (by rw [Thread.holds, hj, Bool.true_or])
    · contradiction
  | opened _ => exact .inl hj
  | closed _ => exact .inl hj
  | read _ _ => exact .inl hj
  | tidied _ => exact .inl hj

/-- A thread leaves its call when no process has the end of it open. -/
theorem Moves.inCall (h : Moves P s i th th' out) (hin : th.place.inCall = true) :
    th'.place.inCall = true ∨ th.place.isOpen = false ∧ ∀ x ∈ s, x.holds i = false := by
  cases h with
  | answered hplace _ hnone _ => exact .inr ⟨by rw [hplace]; rfl, hnone⟩
  | refused hplace _ _ =>
    rw [hplace] at hin
    contradiction
  | tidied hplace =>
    rw [hplace] at hin
    contradiction
  | opened _ => exact .inl rfl
  | forked _ => exact .inl rfl
  | closed _ => exact .inl rfl
  | read _ _ => exact .inl rfl
  | wrote _ => exact .inl hin
  | exited _ => exact .inl hin
  | helped _ => exact .inl hin

theorem Moves.endsInCall (h : Moves P s i th th' out) (hth : s[i]? = some th)
    (hends : EndsInCall s) : EndsInCall (s.set i th') := by
  -- an end that is open stays in its call, unless it is the one of the call that is answered
  have hkept : ∀ j, (∃ x ∈ s, x.holds j = true) ∨ j ∈ openEnds s →
      ∃ y, (s.set i th')[j]? = some y ∧ y.place.inCall = true := by
    intro j hj
    obtain ⟨y, hy, hin, hheld⟩ : ∃ y, s[j]? = some y ∧ y.place.inCall = true ∧
        ((∃ x ∈ s, x.holds j = true) ∨ y.place.isOpen = true) := by
      rcases hj with ⟨x, hx, hxj⟩ | hopen
      · obtain ⟨y, hy, hin⟩ := hends x hx j hxj
        exact ⟨y, hy, hin, .inl ⟨x, hx, hxj⟩⟩
      · obtain ⟨y, hy, hopen⟩ := mem_openEnds.mp hopen
        exact ⟨y, hy, Place.inCall_of_isOpen hopen, .inr hopen⟩
    by_cases hij : i = j
    · subst hij
      obtain rfl : th = y := Option.some.inj (hth.symm.trans hy)
      have hlt : i < s.length := (List.getElem?_eq_some_iff.mp hth).1
      refine ⟨th', List.getElem?_set_self hlt, (h.inCall hin).resolve_right ?_⟩
      rintro ⟨hclosed, hnone⟩
      rcases hheld with ⟨x, hx, hxj⟩ | hopen
      · rw [hnone x hx] at hxj
        contradiction
      · rw [hclosed] at hopen
        contradiction
    · exact ⟨y, by rw [List.getElem?_set_ne hij, hy], hin⟩
  intro x hx j hj
  rcases List.mem_or_eq_of_mem_set hx with hmem | rfl
  · exact hkept j (.inl ⟨x, hmem, hj⟩)
  · rcases h.holds hj with hold | hopen
    · exact hkept j (.inl ⟨th, List.mem_of_getElem? hth, hold⟩)
    · exact hkept j (.inr hopen)

/-! ### What is left to do -/

/-- The steps of one call at most, without those of the thread after its child was forked. -/
def Protocol.load (P : Protocol κ ι ρ β) (who : κ) (c : ι) : ℕ :=
  (((P.writes who c).getD []).map fun w => 2 * w.length + 1).sum

def Protocol.work (P : Protocol κ ι ρ β) (who : κ) (m : Prog ι ρ α) : ℕ :=
  ((m.run (P.reply who)).2.map fun c => P.load who c + 7).sum

def Child.rank (ch : Child β) : ℕ := (ch.pending.map fun w => 2 * w.length + 1).sum + 1

def Place.rank (P : Protocol κ ι ρ β) (who : κ) : Place ι ρ α β → ℕ
  | .ready m => P.work who m
  | .tidying m => P.work who m + 1
  | .piped c rest => P.work who (rest (P.reply who c)) + P.load who c + 6
  | .forked c rest => P.work who (rest (P.reply who c)) + 4
  | .reading c rest _ => P.work who (rest (P.reply who c)) + 3

def Thread.rank (P : Protocol κ ι ρ β) (th : Thread κ ι ρ α β) : ℕ :=
  th.place.rank P th.who + th.child.elim 0 Child.rank + th.pipe.length +
    th.helper.elim 0 fun _ => 1

theorem work_call (who : κ) (c : ι) (rest : ρ → Prog ι ρ α) :
    P.work who (.call c rest) = P.load who c + 7 + P.work who (rest (P.reply who c)) := by
  simp [Protocol.work]

theorem finish_rank {c : ι} {rest : ρ → Prog ι ρ α} {bufs : List (List β)}
    (h : th.finish P s i c rest bufs = (th', out)) :
    th'.rank P ≤ P.work th.who (rest (P.answer th.who c bufs)) + 2 +
      th.child.elim 0 Child.rank + th.pipe.length + th.helper.elim 0 fun _ => 1 := by
  obtain ⟨rfl, rfl⟩ := Prod.mk.inj h
  split_ifs
  · simp only [Thread.rank, Place.rank, Option.elim_some]
    omega
  · simp only [Thread.rank, Place.rank]
    omega

/-- Every step makes less of what is left. -/
theorem Moves.rank_lt (h : Moves P s i th th' out) (hok : th.Ok P i) (hth : s[i]? = some th) :
    th'.rank P < th.rank P := by
  cases h with
  | @refused c rest _ _ hplace hwrites hfinish =>
    have hle := finish_rank hfinish
    have hreply : P.answer th.who c [] = P.reply th.who c := by
      rw [Protocol.reply, hwrites]
      rfl
    rw [hreply] at hle
    simp only [Thread.rank, hplace, Place.rank, work_call] at hle ⊢
    omega
  | @answered c rest bufs _ _ hplace hpipe hnone hfinish =>
    have hle := finish_rank hfinish
    rw [P.answer_of_message (hok.complete hth hplace hpipe hnone).2] at hle
    simp only [Thread.rank, hplace, Place.rank] at hle ⊢
    omega
  | @opened c rest hplace =>
    simp only [Thread.rank, hplace, Place.rank, work_call]
    omega
  | @forked c rest hplace =>
    have hload : Child.rank ⟨(P.writes th.who c).getD [], openEnds s⟩ = P.load th.who c + 1 := rfl
    simp only [Thread.rank, hplace, Place.rank, Option.elim_some, hload]
    omega
  | closed hplace =>
    simp only [Thread.rank, hplace, Place.rank]
    omega
  | read n hplace hpos hle =>
    simp only [Thread.rank, hplace, Place.rank, List.length_drop]
    omega
  | tidied hplace =>
    simp only [Thread.rank, hplace, Place.rank]
    omega
  | wrote hchild =>
    simp only [Thread.rank, hchild, Option.elim_some, Child.rank, List.map_cons, List.sum_cons,
      List.length_append]
    omega
  | exited hchild =>
    simp only [Thread.rank, hchild, Option.elim_some, Option.elim_none, Child.rank]
    omega
  | helped hhelper =>
    simp only [Thread.rank, hhelper, Option.elim_some, Option.elim_none]
    omega

/-! ### Runs -/

/-- The calls of the thread `i` that were answered, in order. -/
def answeredBy (i : ℕ) (out : List (Answered ι ρ)) : List (ι × ρ) :=
  (out.filter fun a => a.1 = i).map Prod.snd

theorem answeredBy_append (i : ℕ) (out out' : List (Answered ι ρ)) :
    answeredBy i (out ++ out') = answeredBy i out ++ answeredBy i out' := by
  simp [answeredBy]

theorem answeredBy_self (h : ∀ a ∈ out, a.1 = i) : answeredBy i out = out.map Prod.snd := by
  rw [answeredBy, List.filter_eq_self.mpr]
  simpa using h

theorem answeredBy_other {j : ℕ} (h : ∀ a ∈ out, a.1 = i) (hij : j ≠ i) :
    answeredBy j out = [] := by
  rw [answeredBy, List.filter_eq_nil_iff.mpr, List.map_nil]
  intro a ha
  simp [h a ha, hij.symm]

/-- The thread has got the answers that it gets alone, and goes on as it does alone. -/
structure Follows (P : Protocol κ ι ρ β) (m : κ × Prog ι ρ α) (got : List (ι × ρ))
    (th : Thread κ ι ρ α β) : Prop where
  who : th.who = m.1
  result : (th.place.prog.run (P.reply m.1)).1 = (m.2.run (P.reply m.1)).1
  answers : got ++ P.answers m.1 th.place.prog = P.answers m.1 m.2

structure Invariant (P : Protocol κ ι ρ β) (ms : List (κ × Prog ι ρ α)) (s : State κ ι ρ α β)
    (out : List (Answered ι ρ)) : Prop where
  length : s.length = ms.length
  ok : ∀ (i : ℕ) (th : Thread κ ι ρ α β), s[i]? = some th → th.Ok P i
  ends : EndsInCall s
  follows : ∀ i th m, s[i]? = some th → ms[i]? = some m → Follows P m (answeredBy i out) th

variable {ms : List (κ × Prog ι ρ α)} {es : List Event}

theorem inv_start (P : Protocol κ ι ρ β) (ms : List (κ × Prog ι ρ α)) :
    Invariant P ms (start ms) [] := by
  have hstart : ∀ (i : ℕ) (th : Thread κ ι ρ α β), (start ms)[i]? = some th →
      ∃ m, ms[i]? = some m ∧
        th = { who := m.1, place := .ready m.2, pipe := [], child := none, helper := none } := by
    intro i th h
    rw [start, List.getElem?_map] at h
    obtain ⟨m, hm, rfl⟩ := Option.map_eq_some_iff.mp h
    exact ⟨m, hm, rfl⟩
  refine ⟨by simp [start], fun i th h => ?_, fun x hx i hi => ?_, fun i th m h hm => ?_⟩
  · obtain ⟨m, -, rfl⟩ := hstart i th h
    exact .of_quiet rfl rfl rfl
  · obtain ⟨j, hj⟩ := List.mem_iff_getElem?.mp hx
    obtain ⟨m, -, rfl⟩ := hstart j x hj
    contradiction
  · obtain ⟨m', hm', rfl⟩ := hstart i th h
    obtain rfl : m = m' := Option.some.inj (hm.symm.trans hm')
    exact ⟨rfl, rfl, rfl⟩

theorem Follows.moves {m : κ × Prog ι ρ α} {before : List (Answered ι ρ)}
    (hf : Follows P m (answeredBy i before) th) (h : Moves P s i th th' out) (hok : th.Ok P i)
    (hth : s[i]? = some th) : Follows P m (answeredBy i (before ++ out)) th' := by
  obtain ⟨hresult, hanswers, hout⟩ := h.answers hok hth
  rw [hf.who] at hresult hanswers
  refine ⟨h.who.trans hf.who, hresult.symm.trans hf.result, ?_⟩
  rw [answeredBy_append, answeredBy_self hout, List.append_assoc, ← hanswers]
  exact hf.answers

theorem Invariant.step {before : List (Answered ι ρ)} (h : Invariant P ms s before) {e : Event}
    (hstep : step P s e = some (s', out)) : Invariant P ms s' (before ++ out) := by
  obtain ⟨th, th', hth, hmoves, rfl⟩ := moves_of_some hstep
  have hok := h.ok _ _ hth
  refine ⟨by rw [List.length_set, h.length], fun j x hx => ?_, hmoves.endsInCall hth h.ends,
    fun j x m hx hm => ?_⟩
  · rcases getElem?_set_cases hx with ⟨rfl, rfl⟩ | ⟨-, hold⟩
    · exact hmoves.ok hok hth
    · exact h.ok j x hold
  · rcases getElem?_set_cases hx with ⟨rfl, rfl⟩ | ⟨hne, hold⟩
    · exact (h.follows _ _ m hth hm).moves hmoves hok hth
    · rw [answeredBy_append, answeredBy_other (hmoves.answers hok hth).2.2 hne, List.append_nil]
      exact h.follows j x m hold hm

theorem Runs.inv (h : Runs P ms es s out) : Invariant P ms s out :=
  h.invariant (fun _ _ _ _ _ hinv hstep => hinv.step hstep) (inv_start P ms)

/-- The thread has come to the end of its program. -/
def Thread.result (th : Thread κ ι ρ α β) : Option α :=
  match th.place with
  | .ready (.done a) => some a
  | _ => none

/-- A thread gets the answers that it gets alone, in order, and when it is done it has all of them
and the result. -/
theorem Runs.follows (h : Runs P ms es s out) {m : κ × Prog ι ρ α} (hth : s[i]? = some th)
    (hm : ms[i]? = some m) :
    answeredBy i out <+: P.answers m.1 m.2 ∧ ∀ a, th.result = some a →
      a = (m.2.run (P.reply m.1)).1 ∧ answeredBy i out = P.answers m.1 m.2 := by
  have hf := h.inv.follows i th m hth hm
  refine ⟨⟨_, hf.answers⟩, fun a ha => ?_⟩
  unfold Thread.result at ha
  split at ha
  · next b hplace =>
    obtain rfl := Option.some.inj ha
    have hresult := hf.result
    have hanswers := hf.answers
    rw [hplace] at hresult hanswers
    rw [← hanswers]
    exact ⟨hresult, (List.append_nil _).symm⟩
  · contradiction

/-! ### The end of a run -/

def rank (P : Protocol κ ι ρ β) (s : State κ ι ρ α β) : ℕ := (s.map (Thread.rank P)).sum

theorem Invariant.rank_lt {before : List (Answered ι ρ)} (h : Invariant P ms s before) {e : Event}
    (hstep : Piped.step P s e = some (s', out)) : rank P s' < rank P s := by
  obtain ⟨th, th', hth, hmoves, rfl⟩ := moves_of_some hstep
  have hlt := hmoves.rank_lt (h.ok _ _ hth) hth
  have hsum := sum_map_set (Thread.rank P) hth th'
  unfold rank
  omega

theorem rank_start (P : Protocol κ ι ρ β) (ms : List (κ × Prog ι ρ α)) :
    rank P (start ms) = (ms.map fun m => P.work m.1 m.2).sum := by
  rw [rank, start, List.map_map]
  rfl

/-- The steps of a run are bounded by the work of the programs. -/
theorem Runs.length_le (h : Runs P ms es s out) :
    es.length + rank P s ≤ (ms.map fun m => P.work m.1 m.2).sum := by
  rw [← rank_start]
  exact h.length_add_rank_le (P := fun s => ∃ before, Invariant P ms s before)
    (fun _ _ _ _ ⟨_, hinv⟩ hstep => ⟨_, hinv.step hstep⟩)
    (fun _ _ _ _ ⟨_, hinv⟩ hstep => hinv.rank_lt hstep) ⟨[], inv_start P ms⟩

/-- An event about the thread `i` is possible. -/
def CanStep (P : Protocol κ ι ρ β) (s : State κ ι ρ α β) : Prop :=
  ∃ e s' out, step P s e = some (s', out)

theorem canStep_of_event {e : Event} (hth : s[e.index]? = some th)
    (h : (th.event P s e).isSome = true) : CanStep P s := by
  obtain ⟨r, hr⟩ := Option.isSome_iff_exists.mp h
  exact ⟨e, s.set e.index r.1, r.2, by rw [step, hth, Option.bind_some, hr, Option.map_some]⟩

/-- A child can write, or end, or its thread can make room for it. -/
theorem canStep_of_child (hok : th.Ok P i) (hth : s[i]? = some th)
    {ch : Child β} (hchild : th.child = some ch) : CanStep P s := by
  obtain ⟨pending, inherited⟩ := ch
  cases pending with
  | nil =>
    refine canStep_of_event (e := .child i) hth ?_
    simp [Thread.event, Thread.childStep, hchild]
  | cons w ws =>
    by_cases hroom : th.pipe.length + w.length ≤ P.room
    · refine canStep_of_event (e := .child i) hth ?_
      simp [Thread.event, Thread.childStep, hchild, hroom]
    · have hpipe : th.pipe ≠ [] := by
        intro hnil
        have hle := hok.fits _ hchild w List.mem_cons_self
        rw [hnil, List.length_nil] at hroom
        omega
      refine canStep_of_event (e := .thread i 1) hth ?_
      cases hplace : th.place with
      | forked c rest => simp [Thread.event, Thread.step, hplace]
      | reading c rest bufs =>
        have hlen := List.length_pos_iff.mpr hpipe
        have hwidth := P.width_pos
        simp [Thread.event, Thread.step, hplace, hpipe, Nat.succ_le_of_lt hlen,
          Nat.succ_le_of_lt hwidth]
      | ready m => exact absurd (hok.quiet (by rw [hplace]; rfl)).1 hpipe
      | piped c rest => exact absurd (hok.quiet (by rw [hplace]; rfl)).1 hpipe
      | tidying m => exact absurd (hok.quiet (by rw [hplace]; rfl)).1 hpipe

theorem canStep_of_helper (hth : s[i]? = some th) (hhelper : th.helper.isSome = true) :
    CanStep P s := by
  refine canStep_of_event (e := .helper i) hth ?_
  obtain ⟨ends, hends⟩ := Option.isSome_iff_exists.mp hhelper
  simp [Thread.event, Thread.helperStep, hends]

theorem canStep_of_holds (hok : ∀ (i : ℕ) (th : Thread κ ι ρ α β), s[i]? = some th → th.Ok P i)
    (h : s.any (Thread.holds · i) = true) : CanStep P s := by
  obtain ⟨x, hx, hholds⟩ := List.any_eq_true.mp h
  obtain ⟨j, hj⟩ := List.mem_iff_getElem?.mp hx
  rcases Bool.or_eq_true_iff.mp hholds with hchild | hhelper
  · obtain ⟨ch, hch, -⟩ := (Option.any_eq_true _ _).mp hchild
    exact canStep_of_child (hok j x hj) hj hch
  · obtain ⟨ends, hends, -⟩ := (Option.any_eq_true _ _).mp hhelper
    exact canStep_of_helper hj (Option.isSome_iff_exists.mpr ⟨ends, hends⟩)

/-- As long as a thread is not done, something can go on. -/
theorem Runs.canStep (h : Runs P ms es s out) (hth : s[i]? = some th) (hresult : th.result = none) :
    CanStep P s := by
  have hok := h.inv.ok
  by_cases hstep : (th.event P s (.thread i 1)).isSome = true
  · exact canStep_of_event (e := .thread i 1) hth hstep
  cases hplace : th.place with
  | ready m =>
    cases m with
    | done a => simp [Thread.result, hplace] at hresult
    | call c rest =>
      refine absurd ?_ hstep
      cases hwrites : P.writes th.who c <;> simp [Thread.event, Thread.step, hplace, hwrites]
  | piped c rest => simp [Thread.event, Thread.step, hplace] at hstep
  | forked c rest => simp [Thread.event, Thread.step, hplace] at hstep
  | reading c rest bufs =>
    by_cases hpipe : th.pipe = []
    · refine canStep_of_holds (i := i) hok ?_
      by_contra hnone
      simp [Thread.event, Thread.step, hplace, hpipe, hnone] at hstep
    · have hlen := Nat.succ_le_of_lt (List.length_pos_iff.mpr hpipe)
      have hwidth := Nat.succ_le_of_lt P.width_pos
      simp [Thread.event, Thread.step, hplace, hpipe, hlen, hwidth] at hstep
  | tidying m =>
    by_cases hhelper : th.helper.isSome = true
    · exact canStep_of_helper hth hhelper
    · simp [Thread.event, Thread.step, hplace, hhelper] at hstep

/-! ### Waiting for a child of another thread -/

/-- The child of the thread `j` has the end of the thread `i` open. -/
def Waits (s : State κ ι ρ α β) (i j : ℕ) : Prop :=
  ∃ x ch, s[j]? = some x ∧ x.child = some ch ∧ i ∈ ch.inherited

/-- A thread starts a child only at its fork. -/
theorem child_of_step {n : ℕ} (h : th.step P s i n = some (th', out))
    (hgot : th.place.got ≠ none) : th'.child = th.child := by
  unfold Thread.step at h
  split at h
  · contradiction
  · next hplace => exact absurd (by rw [hplace]; rfl) hgot
  · next hplace => exact absurd (by rw [hplace]; rfl) hgot
  · obtain ⟨rfl, -⟩ := Prod.mk.inj (Option.some.inj h)
    rfl
  · split_ifs at h
    · exact (finish_spec (Option.some.inj h)).1.2.2
    · obtain ⟨rfl, -⟩ := Prod.mk.inj (Option.some.inj h)
      rfl
  · next hplace => exact absurd (by rw [hplace]; rfl) hgot

/-- A child stays until it takes a step itself, and until then there is no answer. -/
theorem Waits.step {j : ℕ} {before : List (Answered ι ρ)} (h : Waits s i j)
    (hinv : Invariant P ms s before) {e : Event} (he : e ≠ .child j)
    (hstep : Piped.step P s e = some (s', out)) : Waits s' i j ∧ answeredBy i out = [] := by
  obtain ⟨x, ch, hx, hch, hi⟩ := h
  obtain ⟨th, hth, hstep⟩ := Option.bind_eq_some_iff.mp hstep
  obtain ⟨⟨th', out'⟩, hevent, heq⟩ := Option.map_eq_some_iff.mp hstep
  obtain ⟨rfl, rfl⟩ := Prod.mk.inj heq
  have hlt : e.index < s.length := (List.getElem?_eq_some_iff.mp hth).1
  have hheld : x.holds i = true := Thread.holds_of_child hch hi
  refine ⟨?_, ?_⟩
  · by_cases hj : e.index = j
    · subst hj
      obtain rfl : th = x := Option.some.inj (hth.symm.trans hx)
      refine ⟨th', ch, List.getElem?_set_self hlt, ?_, hi⟩
      have hgot : th.place.got ≠ none := fun hnone => by
        rw [((hinv.ok _ _ hth).quiet hnone).2] at hch
        contradiction
      cases e with
      | thread k n => exact (child_of_step hevent hgot).trans hch
      | child k => exact absurd rfl he
      | helper k =>
        obtain ⟨th₁, hhelper, heq⟩ := Option.map_eq_some_iff.mp hevent
        obtain ⟨rfl, -⟩ := Prod.mk.inj heq
        obtain ⟨ends, -, rfl⟩ := Option.map_eq_some_iff.mp hhelper
        exact hch
    · exact ⟨x, ch, by rw [List.getElem?_set_ne hj, hx], hch, hi⟩
  · have hmoves := moves_of_event hevent
    by_cases hi' : i = e.index
    · subst hi'
      obtain ⟨y, hy, hin⟩ := hinv.ends x (List.mem_of_getElem? hx) _ hheld
      obtain rfl : th = y := Option.some.inj (hth.symm.trans hy)
      cases hmoves with
      | refused hplace _ _ =>
        rw [hplace] at hin
        contradiction
      | answered _ _ hnone _ =>
        rw [hnone x (List.mem_of_getElem? hx)] at hheld
        contradiction
      | _ => rfl
    · exact answeredBy_other (hmoves.answers (hinv.ok _ _ hth) hth).2.2 hi'

/-- Without a step of the child that inherited its end a thread gets no answer. -/
theorem Waits.run {j : ℕ} {before : List (Answered ι ρ)} (h : Waits s i j)
    (hinv : Invariant P ms s before) (hrun : Transition.Run (Piped.step P) s es s' out)
    (hes : ∀ e ∈ es, e ≠ .child j) : answeredBy i out = [] := by
  induction hrun generalizing before with
  | nil s => rfl
  | cons hstep hrest ih =>
    obtain ⟨he, hes⟩ := List.forall_mem_cons.mp hes
    obtain ⟨hwaits, hnone⟩ := h.step hinv he hstep
    rw [answeredBy_append, hnone, ih hwaits (hinv.step hstep) hes, List.append_nil]

/-- A child that is forked while a thread has its end open keeps that thread waiting. -/
theorem waits_of_fork {j n : ℕ} {x : Thread κ ι ρ α β} (hx : s[j]? = some x)
    (hplace : x.place.atFork = true) (hi : i ∈ openEnds s)
    (hstep : Piped.step P s (.thread j n) = some (s', out)) : Waits s' i j ∧ out = [] := by
  obtain ⟨th, hth, hstep⟩ := Option.bind_eq_some_iff.mp hstep
  obtain ⟨⟨th', out'⟩, hevent, heq⟩ := Option.map_eq_some_iff.mp hstep
  obtain ⟨rfl, rfl⟩ := Prod.mk.inj heq
  obtain rfl : th = x := Option.some.inj (hth.symm.trans hx)
  cases hpiped : th.place with
  | piped c rest =>
    simp only [Thread.event, Thread.step, hpiped] at hevent
    obtain ⟨rfl, rfl⟩ := Prod.mk.inj (Option.some.inj hevent)
    exact ⟨⟨_, _, List.getElem?_set_self (List.getElem?_eq_some_iff.mp hth).1, rfl, hi⟩, rfl⟩
  | _ =>
    rw [hpiped] at hplace
    contradiction

/-- In a run that begins with this fork the thread gets no answer before the child takes a step. -/
theorem Runs.unanswered {j n : ℕ} {x : Thread κ ι ρ α β} {es' : List Event}
    {out' : List (Answered ι ρ)} (h : Runs P ms es s out) (hx : s[j]? = some x)
    (hplace : x.place.atFork = true) (hi : i ∈ openEnds s)
    (hrun : Transition.Run (step P) s (.thread j n :: es') s' out')
    (hes : ∀ e ∈ es', e ≠ .child j) : answeredBy i out' = [] := by
  cases hrun with
  | cons hstep hrest =>
    obtain ⟨hwaits, rfl⟩ := waits_of_fork hx hplace hi hstep
    exact hwaits.run (h.inv.step hstep) hrest hes

end Kubeka.Piped
