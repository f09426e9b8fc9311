import Mathlib.Tactic.Common

/-!
# Steps with a state

How a step that ended well came about, for any kind of fault and state.
-/

namespace Tabc

variable {ε σ α β : Type} {s s' s1 : σ}

/-- A step that ends well leads to a related state. -/
def Along (R : σ → σ → Prop) (x : EStateM ε σ α) : Prop := ∀ ⦃s a s'⦄, x.run s = .ok a s' → R s s'

namespace Core

theorem of_run_bind {x : EStateM ε σ α}
    (h : (x >>= f).run s = .ok b s') : ∃ a s1, x.run s = .ok a s1 ∧ (f a).run s1 = .ok b s' := by
  cases hx : x.run s with
  | ok a s1 => exact ⟨a, s1, rfl, by simpa [hx] using h⟩
  | error e s1 => simp [hx] at h

theorem of_run_bind_ok {x : EStateM ε σ α}
    (h : (x >>= f).run s = .ok b s') (hx : x.run s = .ok a s1) : (f a).run s1 = .ok b s' := by
  rwa [EStateM.run_bind, hx] at h

theorem run_bind_of_ok {x : EStateM ε σ α}
    (h : x.run s = .ok a s1) : (x >>= f).run s = (f a).run s1 := by rw [EStateM.run_bind, h]

theorem eq_of_run_ofExcept (h : (MonadExcept.ofExcept x : EStateM ε σ α).run s = .ok a s') : x = .ok a ∧ s' = s := by
  cases x with
  | ok b => cases h; exact ⟨rfl, rfl⟩
  | error e => cases h

theorem of_run_ofExcept (h : ((MonadExcept.ofExcept x : EStateM ε σ α) >>= f).run s = .ok b s') :
    ∃ a, x = .ok a ∧ (f a).run s = .ok b s' := by
  obtain ⟨a, s1, hrun, h1⟩ := of_run_bind h
  obtain ⟨hx, rfl⟩ := eq_of_run_ofExcept hrun
  exact ⟨a, hx, h1⟩

theorem run_tryCatch_ok (h : act.run s = .ok a s') (f : ε → EStateM ε σ α) : (tryCatch act f).run s = .ok a s' := by
  simp only [EStateM.run, tryCatch, tryCatchThe, MonadExceptOf.tryCatch, EStateM.tryCatch] at h ⊢
  rw [h]

theorem bind_eq_some_iff : (x >>= f) = some b ↔ ∃ a, x = some a ∧ f a = some b := Option.bind_eq_some_iff

theorem of_ite {P : α → Prop} {c : Prop} [Decidable c] (hx : P x) (hy : P y) : P (if c then x else y) := by
  split
  · exact hx
  · exact hy

theorem exists_of_outcome (outcome : EStateM.Result ε σ α) (good : σ → Bool)
    (h : (match outcome with | .ok _ s => good s | .error .. => false) = true) :
    ∃ a s, outcome = .ok a s ∧ good s = true := by
  cases outcome with
  | ok a s => exact ⟨a, s, rfl, h⟩
  | error _ _ => cases h

end Core

namespace Along

variable {R S T : σ → σ → Prop} {x : EStateM ε σ α}

theorem throw (e : ε) : Along R (throw e : EStateM ε σ α) := fun _ _ _ h => by cases h

theorem comp (hRS : ∀ ⦃s s1 s'⦄, R s s1 → S s1 s' → T s s') (hx : Along R x) (hf : ∀ a, Along S (f a)) :
    Along T (x >>= f) := by
  intro s b s' h
  obtain ⟨a, s1, h1, h2⟩ := Core.of_run_bind h
  exact hRS (hx h1) (hf a h2)

theorem bind [IsTrans σ R] (hx : Along R x) (hf : ∀ a, Along R (f a)) : Along R (x >>= f) :=
  comp (S := R) (fun _ _ _ => trans_of R) hx hf

theorem mono (hRS : ∀ ⦃s s'⦄, R s s' → S s s') (h : Along R x) : Along S x := fun _ _ _ hx => hRS (h hx)

variable [Std.Refl R]

theorem pure (a : α) : Along R (pure a : EStateM ε σ α) := by
  rintro s _ _ ⟨⟩
  exact Std.Refl.refl s

theorem get : Along R (get : EStateM ε σ σ) := by
  rintro s _ _ ⟨⟩
  exact Std.Refl.refl s

theorem ofExcept (x : Except ε α) : Along R (MonadExcept.ofExcept x : EStateM ε σ α) := by
  cases x with
  | ok a => exact .pure a
  | error e => exact .throw e

theorem map [IsTrans σ R] (hx : Along R x) (f : α → β) : Along R (f <$> x) := by
  exact hx.bind fun a => .pure _

theorem mapM [IsTrans σ R] {f : α → EStateM ε σ β} (hf : ∀ a, Along R (f a)) (l : List α) : Along R (l.mapM f) := by
  induction l with
  | nil => exact .pure _
  | cons a l ih =>
    rw [List.mapM_cons]
    exact (hf a).bind fun _ => ih.bind fun _ => .pure _

end Along

end Tabc
