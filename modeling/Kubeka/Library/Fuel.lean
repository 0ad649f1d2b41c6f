import Mathlib.Tactic

/-!
# Computations whose loops have a bound

A program with unbounded loops is run with `fuel`, the number of rounds allowed
to each loop; when a loop needs more, the run stops and names that loop. A
finished run is `Steady` when more fuel does not change it. This is closed
under sequencing, so it holds of a whole program as soon as it holds of its
loops.
-/

namespace Kubeka.Fuel

variable {σ α β : Type}

abbrev Bounded (σ α : Type) := ℕ → Except σ α

/-- The computation finishes with result `a` when given enough fuel. -/
def HaltsWith (f : Bounded σ α) (a : α) : Prop := ∃ fuel, f fuel = .ok a

def Halts (f : Bounded σ α) : Prop := ∃ a, HaltsWith f a

/-- More fuel never changes a finished run. -/
structure Steady (f : Bounded σ α) : Prop where
  mono : ∀ {k m a}, f k = .ok a → k ≤ m → f m = .ok a

variable {f : Bounded σ α}

theorem steady_pure (a : α) : Steady (fun _ => (pure a : Except σ α)) where
  mono h _ := h

/-- One program after another. -/
theorem Steady.bind {g : α → Bounded σ β} (hf : Steady f) (hg : ∀ a, Steady (g a)) :
    Steady (fun fuel => f fuel >>= fun a => g a fuel) where
  mono {k m b} h hkm := by
    cases hk : f k with
    | error s => simp [hk, Bind.bind, Except.bind] at h
    | ok a =>
      rw [hk] at h
      rw [hf.mono hk hkm]
      exact (hg a).mono h hkm

/-- A sequence finishes exactly when its parts do, one after the other. -/
theorem Steady.haltsWith_bind_iff {g : α → Bounded σ β} (hf : Steady f) (hg : ∀ a, Steady (g a))
    {b : β} :
    HaltsWith (fun fuel => f fuel >>= fun a => g a fuel) b ↔
      ∃ a, HaltsWith f a ∧ HaltsWith (g a) b := by
  constructor
  · rintro ⟨k, h⟩
    cases hk : f k with
    | error s => simp [hk, Bind.bind, Except.bind] at h
    | ok a =>
      dsimp only at h
      rw [hk] at h
      exact ⟨a, ⟨k, hk⟩, k, h⟩
  · rintro ⟨a, ⟨k, ha⟩, m, hb⟩
    refine ⟨max k m, ?_⟩
    dsimp only
    rw [hf.mono ha (le_max_left k m)]
    exact (hg a).mono hb (le_max_right k m)

theorem haltsWith_pure_iff {a b : α} : HaltsWith (fun _ => (pure a : Except σ α)) b ↔ a = b :=
  ⟨fun ⟨_, h⟩ => Except.ok.inj h, fun h => ⟨0, congrArg Except.ok h⟩⟩

/-- A finished run that is checked by evaluation. -/
theorem exists_haltsWith (fuel : ℕ) (P : α → Bool) (h : (f fuel).toOption.any P = true) :
    ∃ a, HaltsWith f a ∧ P a = true := by
  cases hf : f fuel with
  | error s => simp [hf, Except.toOption] at h
  | ok a => exact ⟨a, ⟨fuel, hf⟩, by simpa [hf, Except.toOption] using h⟩

end Kubeka.Fuel
