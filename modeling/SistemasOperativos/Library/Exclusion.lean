import Mathlib.Logic.Function.Basic

/-!
# Mutual exclusion

Processes of which each is at a program point, and a region of these points that only one process at a
time may be in. A flag says whether a process is in it. A step of one process stays on its side of the
border of the region, enters it where the flag is down, or leaves it.
-/

namespace SistemasOperativos.Library

variable {ι π : Type*} {Region : π → Prop} {point : ι → π} {flag flag' : Prop} {i j : ι} {p : π}

structure Exclusion (Region : π → Prop) (point : ι → π) (flag : Prop) : Prop where
  unique : ∀ i j, Region (point i) → Region (point j) → i = j
  flag_iff : flag ↔ ∃ i, Region (point i)

namespace Exclusion

variable [DecidableEq ι] (h : Exclusion Region point flag)

include h in
/-- A step that does not cross the border. -/
theorem move (hsame : Region p ↔ Region (point i)) :
    Exclusion Region (Function.update point i p) flag := by
  have hregion : ∀ j, Region (Function.update point i p j) ↔ Region (point j) := by
    intro j
    by_cases hj : j = i
    · rw [hj, Function.update_self]
      exact hsame
    · rw [Function.update_of_ne hj]
  constructor
  · intro j j' hj hj'
    exact h.unique j j' ((hregion j).mp hj) ((hregion j').mp hj')
  · exact h.flag_iff.trans (exists_congr fun j ↦ (hregion j).symm)

include h in
theorem enter (hfree : ¬ flag) (hp : Region p) (hflag : flag') :
    Exclusion Region (Function.update point i p) flag' := by
  have hnone : ∀ j, ¬ Region (point j) := fun j hj ↦ hfree (h.flag_iff.mpr ⟨j, hj⟩)
  have honly : ∀ j, Region (Function.update point i p j) → j = i := by
    intro j hj
    by_contra hne
    rw [Function.update_of_ne hne] at hj
    exact hnone j hj
  constructor
  · intro j j' hj hj'
    rw [honly j hj, honly j' hj']
  · refine iff_of_true hflag ⟨i, ?_⟩
    rw [Function.update_self]
    exact hp

include h in
theorem leave (hin : Region (point i)) (hp : ¬ Region p) (hflag : ¬ flag') :
    Exclusion Region (Function.update point i p) flag' := by
  have hnone : ∀ j, ¬ Region (Function.update point i p j) := by
    intro j hj
    by_cases hne : j = i
    · rw [hne, Function.update_self] at hj
      exact hp hj
    · rw [Function.update_of_ne hne] at hj
      exact hne (h.unique j i hj hin)
  constructor
  · intro j j' hj
    exact absurd hj (hnone j)
  · exact iff_of_false hflag fun ⟨j, hj⟩ ↦ hnone j hj

end Exclusion

end SistemasOperativos.Library
