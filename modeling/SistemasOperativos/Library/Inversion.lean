import Mathlib.Tactic.Common

/-!
# Inverting computations that return

A computation with a state and exceptions, seen from a run of it that returned: every part of it
returned too. The lemmas take such a run apart, one constructor of the monad at a time, so that a
proof about a function of a program never unfolds the monad.
-/

namespace SistemasOperativos.Library

variable {σ ε α β : Type}

theorem Except.bind_ok {x : Except ε α} {f : α → Except ε β} {b : β} :
    (x >>= f) = .ok b ↔ ∃ a, x = .ok a ∧ f a = .ok b := by
  cases x with
  | error e => simp [bind, Except.bind]
  | ok a => simp [bind, Except.bind]

theorem Except.pure_ok {a b : α} : (pure a : Except ε α) = .ok b ↔ a = b := by
  simp [pure, Except.pure]

theorem Except.map_ok {x : Except ε α} {f : α → β} {b : β} :
    (f <$> x) = .ok b ↔ ∃ a, x = .ok a ∧ f a = b := by
  cases x with
  | error e => simp [Functor.map, Except.map]
  | ok a => simp [Functor.map, Except.map]

theorem Except.throw_ok {e : ε} {b : α} : (throw e : Except ε α) = .ok b ↔ False := by
  simp [throw, throwThe, MonadExceptOf.throw]

namespace StateT

theorem bind_ok {x : StateT σ (Except ε) α} {f : α → StateT σ (Except ε) β} {s : σ} {r : β × σ} :
    (x >>= f) s = .ok r ↔ ∃ a s', x s = .ok (a, s') ∧ f a s' = .ok r := by
  change (x s >>= fun p ↦ f p.1 p.2) = .ok r ↔ _
  rw [Except.bind_ok]
  exact ⟨fun ⟨p, hx, hf⟩ ↦ ⟨p.1, p.2, hx, hf⟩, fun ⟨a, s', hx, hf⟩ ↦ ⟨(a, s'), hx, hf⟩⟩

theorem pure_ok {a : α} {s : σ} {r : α × σ} :
    (pure a : StateT σ (Except ε) α) s = .ok r ↔ (a, s) = r := by
  change (pure (a, s) : Except ε (α × σ)) = .ok r ↔ _
  exact Except.pure_ok

theorem throw_ok {e : ε} {s : σ} {r : α × σ} :
    (throw e : StateT σ (Except ε) α) s = .ok r ↔ False := by
  change (Except.error e >>= fun a : α ↦ pure (a, s)) = .ok r ↔ False
  simp [bind, Except.bind]

theorem lift_ok {x : Except ε α} {s : σ} {r : α × σ} :
    (liftM x : StateT σ (Except ε) α) s = .ok r ↔ ∃ a, x = .ok a ∧ (a, s) = r := by
  change (x >>= fun a ↦ pure (a, s)) = .ok r ↔ _
  rw [Except.bind_ok]
  simp only [Except.pure_ok]

/-- The next two take a run apart from its beginning, where the first part is known. -/
theorem bind_of_ok {x : StateT σ (Except ε) α} {f : α → StateT σ (Except ε) β} {s s' : σ} {a : α}
    (h : x s = .ok (a, s')) : (x >>= f) s = f a s' := by
  change (x s >>= fun p ↦ f p.1 p.2) = _
  rw [h]
  rfl

theorem bind_of_error {x : StateT σ (Except ε) α} {f : α → StateT σ (Except ε) β} {s : σ} {e : ε}
    (h : x s = .error e) : (x >>= f) s = .error e := by
  change (x s >>= fun p ↦ f p.1 p.2) = _
  rw [h]
  rfl

theorem throw_eq (e : ε) (s : σ) : (throw e : StateT σ (Except ε) α) s = .error e := rfl

theorem lift_of_ok {x : Except ε α} {s : σ} {a : α} (h : x = .ok a) :
    (liftM x : StateT σ (Except ε) α) s = .ok (a, s) := by
  rw [h]
  rfl

theorem lift_of_error {x : Except ε α} {s : σ} {e : ε} (h : x = .error e) :
    (liftM x : StateT σ (Except ε) α) s = .error e := by
  rw [h]
  rfl

theorem map_ok {x : StateT σ (Except ε) α} {f : α → β} {s : σ} {r : β × σ} :
    (f <$> x) s = .ok r ↔ ∃ a s', x s = .ok (a, s') ∧ (f a, s') = r := by
  change (x s >>= fun p ↦ pure (f p.1, p.2)) = .ok r ↔ _
  rw [Except.bind_ok]
  simp only [Except.pure_ok]
  exact ⟨fun ⟨p, hx, hf⟩ ↦ ⟨p.1, p.2, hx, hf⟩, fun ⟨a, s', hx, hf⟩ ↦ ⟨(a, s'), hx, hf⟩⟩

end StateT

end SistemasOperativos.Library
