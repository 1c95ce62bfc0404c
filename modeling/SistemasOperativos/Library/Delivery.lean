import SistemasOperativos.Library.Inversion

/-!
# Computations that deliver a value or report a failure

A computation asks its environment for resources. In a lucky state every request is served and the
computation delivers one known value without changing the state. In any other state it may also
fail, and then whatever it returns is marked as a failure.
-/

namespace SistemasOperativos.Library

variable {σ ε α β : Type}

/-- The computation delivers `x`, or some request is refused and every result is a failure. -/
def Delivers (lucky : σ → Prop) (f : StateT σ (Except ε) α) (x : α) (fail : α → Prop) (s : σ) :
    Prop :=
  (∃ s', f s = .ok (x, s') ∧ (lucky s → s' = s)) ∨
    (¬ lucky s ∧ ∀ y s', f s = .ok (y, s') → fail y)

namespace Delivers

variable {lucky : σ → Prop} {f : StateT σ (Except ε) α} {g : α → StateT σ (Except ε) β}
  {x : α} {y : β} {fail : α → Prop} {fail' : β → Prop} {s : σ}

theorem pure (x : α) (fail : α → Prop) (s : σ) :
    Delivers lucky (pure x : StateT σ (Except ε) α) x fail s :=
  .inl ⟨s, rfl, fun _ ↦ rfl⟩

/-- In a lucky state the value is delivered. -/
theorem of_lucky (h : Delivers lucky f x fail s) (hs : lucky s) : f s = .ok (x, s) := by
  obtain ⟨s', hf, hlucky⟩ | ⟨hunlucky, -⟩ := h
  · rw [hf, hlucky hs]
  · exact absurd hs hunlucky

/-- A result that is not a failure is the value. -/
theorem eq_of_ok (h : Delivers lucky f x fail s) {y : α} {s' : σ} (hf : f s = .ok (y, s'))
    (hy : ¬ fail y) : y = x := by
  obtain ⟨s₁, hx, -⟩ | ⟨-, hall⟩ := h
  · rw [hx] at hf
    cases hf
    rfl
  · exact absurd (hall y s' hf) hy

/-- Sequencing, where a failure of the first part becomes a failure of the whole. -/
theorem bind (hf : Delivers lucky f x fail s) (hg : ∀ s', Delivers lucky (g x) y fail' s')
    (hfail : ∀ z s₁ w s₂, fail z → g z s₁ = .ok (w, s₂) → fail' w) :
    Delivers lucky (f >>= g) y fail' s := by
  obtain ⟨s₁, hx, hlucky⟩ | ⟨hunlucky, hall⟩ := hf
  · have hbind : (f >>= g) s = g x s₁ := by
      change (f s >>= fun p ↦ g p.1 p.2) = _
      rw [hx]
      rfl
    obtain ⟨s₂, hy, hlucky'⟩ | ⟨hunlucky, hall⟩ := hg s₁
    · refine .inl ⟨s₂, hbind ▸ hy, fun hs ↦ ?_⟩
      have hs₁ := hlucky hs
      rw [hlucky' (hs₁ ▸ hs), hs₁]
    · exact .inr ⟨fun hs ↦ hunlucky (hlucky hs ▸ hs), fun w s' h ↦ hall w s' (hbind ▸ h)⟩
  · refine .inr ⟨hunlucky, fun w s' h ↦ ?_⟩
    obtain ⟨z, s₁, hz, hw⟩ := StateT.bind_ok.mp h
    exact hfail z s₁ w s' (hall z s₁ hz) hw

end Delivers

end SistemasOperativos.Library
