import Mathlib.Algebra.BigOperators.Group.Finset.Basic
import Mathlib.Data.Fintype.BigOperators

/-!
# Reference counts

Holders, each of which refers to one object or to none, and the number of holders of an object. When
one holder lets go of an object and takes another, only the counts of these two change, by one.
-/

namespace SistemasOperativos.Library

variable {ι κ : Type*} [Fintype ι] [DecidableEq ι] [DecidableEq κ] {held held' : ι → Option κ}
  {i j : ι} {k : κ}

/-- The number of holders that refer to `k`. -/
def refCount (held : ι → Option κ) (k : κ) : ℕ := (Finset.univ.filter fun i ↦ held i = some k).card

omit [DecidableEq ι] in
theorem refCount_eq_sum (held : ι → Option κ) (k : κ) :
    refCount held k = ∑ i, if held i = some k then 1 else 0 :=
  Finset.card_filter _ _

omit [DecidableEq ι] in
theorem refCount_pos_iff : 0 < refCount held k ↔ ∃ i, held i = some k := by
  simp [refCount, Finset.card_pos, Finset.Nonempty]

omit [DecidableEq ι] in
theorem refCount_pos (h : held i = some k) : 0 < refCount held k := refCount_pos_iff.mpr ⟨i, h⟩

omit [DecidableEq ι] in
theorem refCount_eq_zero_iff : refCount held k = 0 ↔ ∀ i, held i ≠ some k := by
  simp [refCount, Finset.filter_eq_empty_iff]

omit [DecidableEq ι] in
/-- One holder. -/
theorem refCount_eq_one {held : ι → Option κ} (hi : held i = some k)
    (honly : ∀ j, held j = some k → j = i) : refCount held k = 1 := by
  refine Finset.card_eq_one.mpr ⟨i, ?_⟩
  ext j
  rw [Finset.mem_filter, Finset.mem_singleton]
  constructor
  · exact fun hj ↦ honly j hj.2
  · rintro rfl
    exact ⟨Finset.mem_univ _, hi⟩

omit [DecidableEq ι] in
/-- Two kinds of holders of an object that correspond to each other. -/
theorem refCount_eq_of_bij {ι' : Type*} [Fintype ι'] {held' : ι' → Option κ} (f : ι → ι')
    (hmaps : ∀ i, held i = some k → held' (f i) = some k)
    (hinj : ∀ i j, held i = some k → held j = some k → f i = f j → i = j)
    (hsurj : ∀ i', held' i' = some k → ∃ i, held i = some k ∧ f i = i') :
    refCount held k = refCount held' k := by
  refine Finset.card_bij (fun i _ ↦ f i) ?_ ?_ ?_
  · exact fun i hi ↦ Finset.mem_filter.mpr ⟨Finset.mem_univ _, hmaps i (Finset.mem_filter.mp hi).2⟩
  · exact fun i hi j hj ↦ hinj i j (Finset.mem_filter.mp hi).2 (Finset.mem_filter.mp hj).2
  · intro i' hi'
    obtain ⟨i, hi, rfl⟩ := hsurj i' (Finset.mem_filter.mp hi').2
    exact ⟨i, Finset.mem_filter.mpr ⟨Finset.mem_univ _, hi⟩, rfl⟩

/-- A holder takes another object: what it lets go of, and what it takes. -/
theorem refCount_update (held : ι → Option κ) (i : ι) (new : Option κ) (k : κ) :
    refCount (Function.update held i new) k + (if held i = some k then 1 else 0) =
      refCount held k + if new = some k then 1 else 0 := by
  have hothers : ∑ j ∈ Finset.univ.erase i,
      (if Function.update held i new j = some k then 1 else 0) =
        ∑ j ∈ Finset.univ.erase i, if held j = some k then 1 else 0 := by
    apply Finset.sum_congr rfl
    intro j hj
    rw [Function.update_of_ne (Finset.ne_of_mem_erase hj)]
  have hnew := Finset.add_sum_erase Finset.univ
    (fun j ↦ if Function.update held i new j = some k then 1 else 0) (Finset.mem_univ i)
  have hold := Finset.add_sum_erase Finset.univ
    (fun j ↦ if held j = some k then 1 else 0) (Finset.mem_univ i)
  rw [refCount_eq_sum, refCount_eq_sum, ← hnew, ← hold, Function.update_self, hothers]
  omega

end SistemasOperativos.Library
