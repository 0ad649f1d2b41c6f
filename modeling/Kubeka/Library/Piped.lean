import Kubeka.Library.Interaction
import Kubeka.Library.Lists
import Kubeka.Library.Transition

/-!
# Calls that are answered through pipes

Several threads of one process run programs. For a call a thread opens a pipe
and forks a child, which writes into the pipe and ends; the thread closes its
own end for writing, reads until nobody has that end open any more, and takes
the answer from what it has read. A process that is forked in the meantime by
another thread inherits the end and keeps it open, so that the threads may wait
for each other's children.
-/

namespace Kubeka.Piped

open Interaction Kubeka.Lists

variable {κ ι ρ α β : Type*}

/-- How calls are answered, for threads of several kinds. The answer depends on the bytes that were
read and not on the pieces, and every piece that is written fits into an empty pipe. -/
structure Protocol (κ ι ρ β : Type*) where
  /-- the pieces that the child writes; `none` when no child is made -/
  writes : κ → ι → Option (List (List β))
  answer : κ → ι → List (List β) → ρ
  /-- another process is started and waited for when the answer is known -/
  tidies : ι → Bool
  /-- what a pipe holds at most -/
  room : ℕ
  /-- what is read at once at most -/
  width : ℕ
  answer_flatten : ∀ who c bufs bufs', bufs.flatten = bufs'.flatten →
    answer who c bufs = answer who c bufs'
  length_le_room : ∀ who c ws, writes who c = some ws → ∀ w ∈ ws, w.length ≤ room
  width_pos : 0 < width

/-! ### States -/

/-- Where a thread stands in its program. -/
inductive Place (ι ρ α β : Type*) where
  | ready (m : Prog ι ρ α)
  /-- both ends of the pipe are open -/
  | piped (c : ι) (rest : ρ → Prog ι ρ α)
  /-- and the child was forked -/
  | forked (c : ι) (rest : ρ → Prog ι ρ α)
  /-- the end for writing is closed -/
  | reading (c : ι) (rest : ρ → Prog ι ρ α) (bufs : List (List β))
  /-- the call was answered and the helper is waited for -/
  | tidying (m : Prog ι ρ α)

/-- A process with the ends for writing that it has inherited, by the threads they belong to. -/
structure Child (β : Type*) where
  pending : List (List β)
  inherited : List ℕ

structure Thread (κ ι ρ α β : Type*) where
  who : κ
  place : Place ι ρ α β
  /-- what was written into the pipe and not read yet -/
  pipe : List β
  child : Option (Child β)
  helper : Option (List ℕ)

abbrev State (κ ι ρ α β : Type*) := List (Thread κ ι ρ α β)

def start (ms : List (κ × Prog ι ρ α)) : State κ ι ρ α β :=
  ms.map fun m =>
    { who := m.1, place := .ready m.2, pipe := [], child := none, helper := none }

/-- The process has the end for writing open. -/
def Place.isOpen : Place ι ρ α β → Bool
  | .piped _ _ | .forked _ _ => true
  | .ready _ | .reading _ _ _ | .tidying _ => false

/-- The thread forks next. -/
def Place.atFork : Place ι ρ α β → Bool
  | .piped _ _ => true
  | .ready _ | .forked _ _ | .reading _ _ _ | .tidying _ => false

/-- The ends that a process inherits that is forked now. -/
def openEnds (s : State κ ι ρ α β) : List ℕ :=
  (List.range s.length).filter fun i => s[i]?.any fun th => th.place.isOpen

/-- A process that the thread has started has the end of the thread `i` open. -/
def Thread.holds (th : Thread κ ι ρ α β) (i : ℕ) : Bool :=
  (th.child.any fun ch => decide (i ∈ ch.inherited)) || th.helper.any fun ends => decide (i ∈ ends)

/-! ### Steps -/

/-- The step of a thread, the next write of its child or the end of the child, and the end of its
helper. A thread that reads gets `n` elements. -/
inductive Event where
  | thread (i n : ℕ)
  | child (i : ℕ)
  | helper (i : ℕ)

def Event.index : Event → ℕ
  | .thread i _ | .child i | .helper i => i

/-- A call with its answer, by the number of the thread. -/
abbrev Answered (ι ρ : Type*) := ℕ × ι × ρ

variable (P : Protocol κ ι ρ β)

/-- The call is answered from what was read. -/
def Thread.finish (s : State κ ι ρ α β) (i : ℕ) (th : Thread κ ι ρ α β) (c : ι)
    (rest : ρ → Prog ι ρ α) (bufs : List (List β)) : Thread κ ι ρ α β × List (Answered ι ρ) :=
  let r := P.answer th.who c bufs
  (if P.tidies c then { th with place := .tidying (rest r), helper := some (openEnds s) }
    else { th with place := .ready (rest r) }, [(i, c, r)])

def Thread.step (s : State κ ι ρ α β) (i n : ℕ) (th : Thread κ ι ρ α β) :
    Option (Thread κ ι ρ α β × List (Answered ι ρ)) :=
  match th.place with
  | .ready (.done _) => none
  | .ready (.call c rest) =>
    match P.writes th.who c with
    | none => some (th.finish P s i c rest [])
    | some _ => some ({ th with place := .piped c rest }, [])
  | .piped c rest =>
    let child := { pending := (P.writes th.who c).getD [], inherited := openEnds s }
    some ({ th with place := .forked c rest, child := some child }, [])
  | .forked c rest => some ({ th with place := .reading c rest [] }, [])
  | .reading c rest bufs =>
    if th.pipe = [] then
      -- the end of the file, as soon as nobody can write any more
      if s.any (Thread.holds · i) then none else some (th.finish P s i c rest bufs)
    else if 0 < n ∧ n ≤ P.width ∧ n ≤ th.pipe.length then
      some ({ th with place := .reading c rest (bufs ++ [th.pipe.take n])
                      pipe := th.pipe.drop n }, [])
    else none
  | .tidying m => if th.helper.isSome then none else some ({ th with place := .ready m }, [])

def Thread.childStep (th : Thread κ ι ρ α β) : Option (Thread κ ι ρ α β) :=
  match th.child with
  | none => none
  | some ⟨[], _⟩ => some { th with child := none }
  | some ⟨w :: ws, inherited⟩ =>
    if th.pipe.length + w.length ≤ P.room then
      some { th with pipe := th.pipe ++ w, child := some ⟨ws, inherited⟩ }
    else none

def Thread.helperStep (th : Thread κ ι ρ α β) : Option (Thread κ ι ρ α β) :=
  th.helper.map fun _ => { th with helper := none }

/-- What an event does to the thread that it is about. -/
def Thread.event (s : State κ ι ρ α β) (th : Thread κ ι ρ α β) :
    Event → Option (Thread κ ι ρ α β × List (Answered ι ρ))
  | .thread i n => th.step P s i n
  | .child _ => (th.childStep P).map fun th' => (th', [])
  | .helper _ => th.helperStep.map fun th' => (th', [])

def step (s : State κ ι ρ α β) (e : Event) : Option (State κ ι ρ α β × List (Answered ι ρ)) :=
  s[e.index]?.bind fun th => (th.event P s e).map fun r => (s.set e.index r.1, r.2)

/-- A run of threads from their start. -/
abbrev Runs (ms : List (κ × Prog ι ρ α)) (es : List Event) (s : State κ ι ρ α β)
    (out : List (Answered ι ρ)) : Prop :=
  Transition.Run (step P) (start ms) es s out

/-! ### What a step can do -/

variable {P} {s s' : State κ ι ρ α β} {th th' : Thread κ ι ρ α β} {i : ℕ}
  {out : List (Answered ι ρ)}

/-- Everything that can happen to the thread `i`, with its child and its helper. -/
inductive Moves (P : Protocol κ ι ρ β) (s : State κ ι ρ α β) (i : ℕ) (th : Thread κ ι ρ α β) :
    Thread κ ι ρ α β → List (Answered ι ρ) → Prop
  | refused {c rest th' out} : th.place = .ready (.call c rest) → P.writes th.who c = none →
      th.finish P s i c rest [] = (th', out) → Moves P s i th th' out
  | opened {c rest} : th.place = .ready (.call c rest) →
      Moves P s i th { th with place := .piped c rest } []
  | forked {c rest} : th.place = .piped c rest →
      Moves P s i th { th with place := .forked c rest
                               child := some { pending := (P.writes th.who c).getD []
                                               inherited := openEnds s } } []
  | closed {c rest} : th.place = .forked c rest →
      Moves P s i th { th with place := .reading c rest [] } []
  | read {c rest bufs} (n : ℕ) : th.place = .reading c rest bufs → 0 < n → n ≤ th.pipe.length →
      Moves P s i th { th with place := .reading c rest (bufs ++ [th.pipe.take n])
                               pipe := th.pipe.drop n } []
  | answered {c rest bufs th' out} : th.place = .reading c rest bufs → th.pipe = [] →
      (∀ x ∈ s, x.holds i = false) → th.finish P s i c rest bufs = (th', out) →
      Moves P s i th th' out
  | tidied {m} : th.place = .tidying m → Moves P s i th { th with place := .ready m } []
  | wrote {w ws inherited} : th.child = some ⟨w :: ws, inherited⟩ →
      Moves P s i th { th with pipe := th.pipe ++ w, child := some ⟨ws, inherited⟩ } []
  | exited {inherited} : th.child = some ⟨[], inherited⟩ →
      Moves P s i th { th with child := none } []
  | helped {ends} : th.helper = some ends → Moves P s i th { th with helper := none } []

theorem moves_of_step {n : ℕ} (h : th.step P s i n = some (th', out)) :
    Moves P s i th th' out := by
  unfold Thread.step at h
  split at h
  · contradiction
  · next c rest hplace =>
    split at h
    · next hwrites => exact .refused hplace hwrites (Option.some.inj h)
    · obtain ⟨rfl, rfl⟩ := Prod.mk.inj (Option.some.inj h)
      exact .opened hplace
  · next c rest hplace =>
    obtain ⟨rfl, rfl⟩ := Prod.mk.inj (Option.some.inj h)
    exact .forked hplace
  · next c rest hplace =>
    obtain ⟨rfl, rfl⟩ := Prod.mk.inj (Option.some.inj h)
    exact .closed hplace
  · next c rest bufs hplace =>
    split_ifs at h with hempty hheld hn
    · refine .answered hplace hempty (fun x hx => ?_) (Option.some.inj h)
      simpa using fun hx' => hheld (List.any_eq_true.mpr ⟨x, hx, hx'⟩)
    · obtain ⟨rfl, rfl⟩ := Prod.mk.inj (Option.some.inj h)
      exact .read n hplace hn.1 hn.2.2
  · next m hplace =>
    split_ifs at h
    obtain ⟨rfl, rfl⟩ := Prod.mk.inj (Option.some.inj h)
    exact .tidied hplace

theorem moves_of_childStep (h : th.childStep P = some th') : Moves P s i th th' [] := by
  unfold Thread.childStep at h
  split at h
  · contradiction
  · next hchild =>
    obtain rfl := Option.some.inj h
    exact .exited hchild
  · next hchild =>
    split_ifs at h
    obtain rfl := Option.some.inj h
    exact .wrote hchild

theorem moves_of_event {e : Event} (h : th.event P s e = some (th', out)) :
    Moves P s e.index th th' out := by
  cases e with
  | thread i n => exact moves_of_step h
  | child i =>
    obtain ⟨th₁, hstep, heq⟩ := Option.map_eq_some_iff.mp h
    obtain ⟨rfl, rfl⟩ := Prod.mk.inj heq
    exact moves_of_childStep hstep
  | helper i =>
    obtain ⟨th₁, hstep, heq⟩ := Option.map_eq_some_iff.mp h
    obtain ⟨rfl, rfl⟩ := Prod.mk.inj heq
    obtain ⟨ends, hhelper, rfl⟩ := Option.map_eq_some_iff.mp hstep
    exact .helped hhelper

/-- A step changes one thread. -/
theorem moves_of_some {e : Event} (h : step P s e = some (s', out)) :
    ∃ th th', s[e.index]? = some th ∧ Moves P s e.index th th' out ∧ s' = s.set e.index th' := by
  obtain ⟨th, hth, hstep⟩ := Option.bind_eq_some_iff.mp h
  obtain ⟨⟨th', out'⟩, hevent, heq⟩ := Option.map_eq_some_iff.mp hstep
  obtain ⟨rfl, rfl⟩ := Prod.mk.inj heq
  exact ⟨th, th', hth, moves_of_event hevent, rfl⟩

end Kubeka.Piped
