import SistemasOperativos.Library.Inversion

/-!
# Functions that leave an observation alone

A function on states may raise an exception. What it keeps, wherever it returns, is kept along the
constructors of the monad: the rules below have one for each of them, for functions with a result
beside the state and for those without.
-/

namespace SistemasOperativos.Library

variable {σ ε α β γ : Type} {f : σ → γ} {s s₁ : σ}

/-- Where the computation returns, the observation `f` of the state is what it was in `s`. -/
def Keeps (f : σ → γ) (s : σ) (x : Except ε (α × σ)) : Prop := ∀ r, x = .ok r → f r.2 = f s

/-- The same for a computation that only returns a state. -/
def KeepsState (f : σ → γ) (s : σ) (x : Except ε σ) : Prop := ∀ s', x = .ok s' → f s' = f s

namespace Keeps

theorem pure {a : α} (h : f s₁ = f s) : Keeps f s (.ok (a, s₁) : Except ε (α × σ)) := by
  intro r hr
  rw [← Except.ok.inj hr]
  exact h

theorem error {e : ε} : Keeps f s (.error e : Except ε (α × σ)) := by
  intro r hr
  cases hr

theorem bind {x : Except ε (α × σ)} {g : α × σ → Except ε (β × σ)} (hx : Keeps f s x)
    (hg : ∀ a s₁, f s₁ = f s → Keeps f s (g (a, s₁))) : Keeps f s (x >>= g) := by
  intro r hr
  obtain ⟨⟨a, s₁⟩, hok, hr⟩ := Except.bind_ok.mp hr
  exact hg a s₁ (hx _ hok) r hr

/-- A part that only reads. -/
theorem read {x : Except ε β} {g : β → Except ε (α × σ)} (hg : ∀ b, Keeps f s (g b)) :
    Keeps f s (x >>= g) := by
  intro r hr
  obtain ⟨b, -, hr⟩ := Except.bind_ok.mp hr
  exact hg b r hr

theorem of_state {x : Except ε σ} {g : σ → Except ε (α × σ)} (hx : KeepsState f s x)
    (hg : ∀ s₁, f s₁ = f s → Keeps f s (g s₁)) : Keeps f s (x >>= g) := by
  intro r hr
  obtain ⟨s₁, hok, hr⟩ := Except.bind_ok.mp hr
  exact hg s₁ (hx _ hok) r hr

/-- A computation from another state with the same observation. -/
theorem from_state {x : Except ε (α × σ)} (h : Keeps f s₁ x) (hs : f s₁ = f s) : Keeps f s x :=
  fun r hr ↦ (h r hr).trans hs

end Keeps

namespace KeepsState

theorem pure (h : f s₁ = f s) : KeepsState f s (.ok s₁ : Except ε σ) := by
  intro s' hs'
  rw [← Except.ok.inj hs']
  exact h

theorem error {e : ε} : KeepsState f s (.error e) := by
  intro s' hs'
  cases hs'

theorem bind {x : Except ε σ} {g : σ → Except ε σ} (hx : KeepsState f s x)
    (hg : ∀ s₁, f s₁ = f s → KeepsState f s (g s₁)) : KeepsState f s (x >>= g) := by
  intro s' hs'
  obtain ⟨s₁, hok, hs'⟩ := Except.bind_ok.mp hs'
  exact hg s₁ (hx _ hok) s' hs'

theorem read {x : Except ε β} {g : β → Except ε σ} (hg : ∀ b, KeepsState f s (g b)) :
    KeepsState f s (x >>= g) := by
  intro s' hs'
  obtain ⟨b, -, hs'⟩ := Except.bind_ok.mp hs'
  exact hg b s' hs'

theorem of_result {x : Except ε (α × σ)} {g : α × σ → Except ε σ} (hx : Keeps f s x)
    (hg : ∀ a s₁, f s₁ = f s → KeepsState f s (g (a, s₁))) : KeepsState f s (x >>= g) := by
  intro s' hs'
  obtain ⟨⟨a, s₁⟩, hok, hs'⟩ := Except.bind_ok.mp hs'
  exact hg a s₁ (hx _ hok) s' hs'

theorem from_state {x : Except ε σ} (h : KeepsState f s₁ x) (hs : f s₁ = f s) : KeepsState f s x :=
  fun s' hs' ↦ (h s' hs').trans hs

end KeepsState

end SistemasOperativos.Library
