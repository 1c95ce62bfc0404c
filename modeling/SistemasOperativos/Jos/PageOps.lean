import SistemasOperativos.Jos.Pmap
import SistemasOperativos.Library.Inversion

/-!
# What the functions on pages do

One lemma for each function of `kern/pmap.c`, which reads off a call that returned how the memory
changed.
-/

namespace SistemasOperativos.Jos.Memory

open Library Library.Except

variable {m m' : Memory} {pp page : Ppn} {pte : PtePtr} {w : Word}

/-! ## The allocator -/

/-- Memory without the first page of the free list. -/
def take (m : Memory) (pp : Ppn) : Memory :=
  { m with pageFreeList := (m.pages pp).ppLink }.setPage pp { m.pages pp with ppLink := none }

theorem pageAlloc_none {zero : Bool} (h : m.pageAlloc zero = .ok (none, m')) :
    m.pageFreeList = none ∧ m' = m := by
  unfold pageAlloc at h
  split at h
  · rename_i hnull
    simp only [Except.ok.injEq, Prod.mk.injEq, true_and] at h
    exact ⟨hnull, h.symm⟩
  · cases zero with
    | false => simp [pure_ok] at h
    | true =>
      obtain ⟨_, -, h⟩ := bind_ok.mp h
      simp [pure_ok] at h

theorem pageAlloc_some (h : m.pageAlloc false = .ok (some pp, m')) :
    m.pageFreeList = some pp ∧ m' = m.take pp := by
  unfold pageAlloc at h
  split at h
  · simp at h
  · rename_i first hfirst
    simp only [Bool.false_eq_true, if_false, pure_ok, Prod.mk.injEq, Option.some.injEq] at h
    obtain ⟨rfl, rfl⟩ := h
    exact ⟨hfirst, rfl⟩

theorem pageAlloc_zeroed (h : m.pageAlloc true = .ok (some pp, m')) :
    m.pageFreeList = some pp ∧ m' = (m.take pp).zeroPage pp := by
  unfold pageAlloc at h
  split at h
  · simp at h
  · rename_i first hfirst
    obtain ⟨_, -, h⟩ := bind_ok.mp h
    simp only [pure_ok, Prod.mk.injEq, Option.some.injEq] at h
    obtain ⟨rfl, rfl⟩ := h
    exact ⟨hfirst, rfl⟩

end SistemasOperativos.Jos.Memory
