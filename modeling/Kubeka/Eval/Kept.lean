import Kubeka.Eval.Shape

/-!
# What evaluation keeps of a value

A value changes from its first `$` on and not before it, and a value without
references does not change at all. So every value that evaluation leaves has the
front of the value that was configured, whether there were errors or not.
-/

namespace Kubeka

open Text Fuel

/-- `after` may be what evaluation has made of `before`. -/
structure KeepsFront (before after : CStr) : Prop where
  front : ∀ front, '$' ∉ front → front <+: before → front <+: after
  whole : ¬ refOpen <:+: before → after = before

theorem KeepsFront.refl (v : CStr) : KeepsFront v v := ⟨fun _ _ h => h, fun _ => rfl⟩

theorem KeepsFront.trans {a b c : CStr} (hab : KeepsFront a b) (hbc : KeepsFront b c) :
    KeepsFront a c where
  front front hfront h := hbc.front front hfront (hab.front front hfront h)
  whole h := by
    have hb := hab.whole h
    rw [hbc.whole (by rwa [hb]), hb]

/-- The values of `st` and what evaluation may have made of them. -/
def KeepsFronts (st st' : Symtab) : Prop :=
  ∀ key vs, kbsymtabGet st key = some vs →
    ∃ vs', kbsymtabGet st' key = some vs' ∧ List.Forall₂ KeepsFront vs vs'

theorem KeepsFronts.refl (st : Symtab) : KeepsFronts st st :=
  fun _ vs h => ⟨vs, h, List.forall₂_same.mpr fun v _ => .refl v⟩

theorem KeepsFronts.trans {st₁ st₂ st₃ : Symtab} (h : KeepsFronts st₁ st₂)
    (h' : KeepsFronts st₂ st₃) : KeepsFronts st₁ st₃ := by
  intro key vs hvs
  obtain ⟨vs₂, hvs₂, h₂⟩ := h key vs hvs
  obtain ⟨vs₃, hvs₃, h₃⟩ := h' key vs₂ hvs₂
  refine ⟨vs₃, hvs₃, (Lists.forall₂_comp h₂ h₃).imp ?_⟩
  rintro a c ⟨b, hab, hbc⟩
  exact hab.trans hbc

/-! ### One value -/

/-- A reference is never replaced in front of the first `$`. -/
theorem front_replaceAll {front name value : CStr} (new : CStr) (hfront : '$' ∉ front)
    (h : front <+: value) : front <+: replaceAll (refOpen ++ name) new value := by
  obtain ⟨rest, rfl⟩ := h
  rw [replaceAll_append]
  · exact List.prefix_append _ _
  · rintro v w rfl hw hpre
    obtain ⟨c, w, rfl⟩ := List.exists_cons_of_ne_nil hw
    obtain rfl : '$' = c := (List.cons_prefix_cons.mp hpre).1
    simp at hfront

theorem substitute_keepsFront {L : Libds} {scope : List Symtab} {env : Env} {value : CStr}
    {r : Substituted} (h : HaltsWith (substitute L scope env value) r) :
    KeepsFront value r.newvalue := by
  obtain ⟨fuel, h⟩ := substLoop_of_haltsWith h
  refine substLoop_induction (P := fun value r => KeepsFront value r.newvalue) ?_ ?_ h
  · rintro c c' r ⟨hf, -⟩ hnext
    obtain ⟨name, rfl, -, hin⟩ := findNextRef_some hf
    have hopen : refOpen <:+: refText name := ⟨[], name ++ ['>'], by simp [refText]⟩
    rw [L.strsubst_eq _ _ _ (by simp [refText, refOpen]), refText, List.append_assoc] at hnext
    refine ⟨fun front hfront hv => ?_, fun hno => absurd (hopen.trans hin) hno⟩
    exact hnext.front front hfront (front_replaceAll _ hfront hv)
  · rintro c r (_ | _) <;> exact .refl _

/-! ### A node -/

variable {L : Libds} {up : List Symtab}

theorem setSingle_keepsFronts {st : Symtab} {key v v' : CStr} {front rest : List CStr}
    (hget : kbsymtabGet st key = some (front ++ v :: rest)) (h : KeepsFront v v') :
    KeepsFronts st (kbnodeSetSingle st key front.length v').2 := by
  intro k vs hvs
  have hlt : front.length < (front ++ v :: rest).length := by simp
  have hset := kbnodeSetSingle_get hget hlt v' k
  by_cases hk : k = key
  · subst hk
    obtain rfl : front ++ v :: rest = vs := Option.some.inj (hget.symm.trans hvs)
    rw [if_pos rfl] at hset
    refine ⟨_, hset, ?_⟩
    have hsame : ∀ l : List CStr, List.Forall₂ KeepsFront l l :=
      fun l => List.forall₂_same.mpr fun v _ => .refl v
    simpa using List.rel_append (hsame front) (List.Forall₂.cons h (hsame rest))
  · rw [if_neg hk] at hset
    exact ⟨vs, hset.trans hvs, List.forall₂_same.mpr fun v _ => .refl v⟩

theorem evalKeys_keepsFronts {keys : List CStr} {st : Symtab} {env : Env} {r : NodeEval}
    (h : HaltsWith (evalKeys L up keys st env) r) : KeepsFronts st r.symtab := by
  refine evalKeys_preserves .refl (fun _ _ _ h h' => h.trans h') ?_ h
  intro st env key front v rest r hget hr
  exact setSingle_keepsFronts hget (substitute_keepsFront hr)

/-- The root of a tree keeps the fronts of its values. -/
theorem kbtreeEval_keepsFronts {t : KbTree} {env : Env} {r : TreeEval KbTree}
    (h : HaltsWith (kbtreeEval L up t env) r) : KeepsFronts t.symtab r.tree.symtab := by
  obtain ⟨type, st, jobs, handlers⟩ := t
  rcases haltsWith_kbtreeEval_node.mp h with ⟨-, rfl⟩ | ⟨-, rh, rj, rk, -, -, hrk, rfl⟩
  · exact .refl st
  · exact evalKeys_keepsFronts hrk

end Kubeka
