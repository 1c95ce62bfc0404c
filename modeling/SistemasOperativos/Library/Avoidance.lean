import SistemasOperativos.Library.Inversion

/-!
# Computations that avoid an exception

A computation with exceptions avoids one of them if it never ends with it, from any state. The rules go
by the constructors of the monad, and the rule for sequences lets the second part assume what the first
one returned.
-/

namespace SistemasOperativos.Library

variable {σ ε α β : Type} {bad : ε}

namespace Except

/-- The computation does not end with the exception `bad`. -/
def Avoids (bad : ε) (x : Except ε α) : Prop := x ≠ .error bad

theorem Avoids.ok (a : α) : Avoids bad (.ok a) := nofun

theorem Avoids.pure (a : α) : Avoids bad (Pure.pure a : Except ε α) := nofun

theorem Avoids.error {e : ε} (h : e ≠ bad) : Avoids bad (.error e : Except ε α) :=
  fun heq ↦ h (Except.error.inj heq)

theorem Avoids.bind {x : Except ε α} {f : α → Except ε β} (hx : Avoids bad x)
    (hf : ∀ a, x = .ok a → Avoids bad (f a)) : Avoids bad (x >>= f) := by
  cases x with
  | error e => exact .error fun he ↦ hx (congrArg Except.error he)
  | ok a => exact hf a rfl

theorem avoids_bind_error {x : Except ε α} {f : α → Except ε β} (h : x = .error bad) :
    ¬ Avoids bad (x >>= f) := by
  rw [h]
  exact fun hno ↦ hno rfl

end Except

namespace StateT

/-- The computation does not end with the exception `bad`, from any state. -/
def Avoids (bad : ε) (x : StateT σ (Except ε) α) : Prop := ∀ s, Except.Avoids bad (x s)

theorem Avoids.pure (a : α) : Avoids bad (Pure.pure a : StateT σ (Except ε) α) := fun _ ↦ nofun

theorem Avoids.throw {e : ε} (h : e ≠ bad) :
    Avoids bad (MonadExcept.throw e : StateT σ (Except ε) α) := fun _ ↦ .error h

theorem Avoids.lift {x : Except ε α} (h : Except.Avoids bad x) :
    Avoids bad (liftM x : StateT σ (Except ε) α) := by
  intro s
  cases x with
  | error e => exact .error fun he ↦ h (congrArg Except.error he)
  | ok a => exact .ok (a, s)

theorem Avoids.bind {x : StateT σ (Except ε) α} {f : α → StateT σ (Except ε) β} (hx : Avoids bad x)
    (hf : ∀ a s s', x s = .ok (a, s') → Avoids bad (f a)) : Avoids bad (x >>= f) := by
  intro s
  cases h : x s with
  | error e =>
    rw [bind_of_error h]
    exact .error fun he ↦ hx s (h.trans (congrArg Except.error he))
  | ok r =>
    rw [bind_of_ok h]
    exact hf r.1 s r.2 h r.2

theorem Avoids.map {x : StateT σ (Except ε) α} (f : α → β) (hx : Avoids bad x) :
    Avoids bad (f <$> x) := by
  intro s
  change Except.Avoids bad (x s >>= fun p ↦ Pure.pure (f p.1, p.2))
  exact (hx s).bind fun _ _ ↦ .pure _

end StateT

end SistemasOperativos.Library
