import Mathlib.Data.List.Basic

/-!
# Replacing one element of a list

What counting and selecting elements see of the replacement of a single one.
-/

namespace SistemasOperativos.Library

variable {α β : Type} {l : List α} {i : ℕ} {x : α}

theorem countP_set_add (p : α → Bool) (h : l[i]? = some x) (y : α) :
    (l.set i y).countP p + (if p x then 1 else 0) = l.countP p + (if p y then 1 else 0) := by
  induction l generalizing i with
  | nil => simp at h
  | cons z l ih =>
    cases i with
    | zero =>
      obtain rfl : z = x := by simpa using h
      simp only [List.set_cons_zero, List.countP_cons]
      omega
    | succ i =>
      have hl := ih (by simpa using h)
      simp only [List.set_cons_succ, List.countP_cons]
      omega

/-- An element that a selection sees as the one before it. -/
theorem filterMap_set {f : α → Option β} {y : α} (h : l[i]? = some x) (hy : f y = f x) :
    (l.set i y).filterMap f = l.filterMap f := by
  induction l generalizing i with
  | nil => cases h
  | cons z l ih =>
    cases i with
    | zero =>
      cases h
      rw [List.set_cons_zero, List.filterMap_cons, List.filterMap_cons, hy]
    | succ i => rw [List.set_cons_succ, List.filterMap_cons, List.filterMap_cons, ih h]

/-- Where at most one place holds an element with a property, the count is at most one. -/
theorem countP_le_one {p : α → Bool}
    (h : ∀ (j k : ℕ) (a b : α), l[j]? = some a → l[k]? = some b → p a = true → p b = true → j = k) :
    l.countP p ≤ 1 := by
  induction l with
  | nil => exact Nat.zero_le 1
  | cons z l ih =>
    rw [List.countP_cons]
    by_cases hz : p z = true
    · have hrest : l.countP p = 0 := by
        rw [List.countP_eq_zero]
        intro b hb hpb
        obtain ⟨k, hk⟩ := List.mem_iff_getElem?.mp hb
        cases h 0 (k + 1) z b rfl hk hz hpb
      exact Nat.le_of_eq (by rw [if_pos hz, hrest])
    · rw [if_neg hz]
      exact ih fun j k a b ha hb hpa hpb ↦ Nat.succ.inj (h (j + 1) (k + 1) a b ha hb hpa hpb)

end SistemasOperativos.Library
