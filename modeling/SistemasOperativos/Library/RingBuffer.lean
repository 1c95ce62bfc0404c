import Mathlib

/-!
# Ring buffers

An array with a position to read at and one to write at, each of which goes around. It is a queue with
room for one element less than the array has. Nothing stops a writer that does not look at the reader:
one element more than there is room for makes the buffer look empty.
-/

namespace SistemasOperativos.Library

/-- Both positions lie in the array. -/
structure RingBuffer (α : Type) (N : ℕ) where
  buf : Fin N → α
  rpos : Fin N
  wpos : Fin N

namespace RingBuffer

variable {α : Type} {N : ℕ} [NeZero N] {r : RingBuffer α N} {buf : Fin N → α} {p q : Fin N} {a : α}

/-- So many elements from a position on. -/
def slice (buf : Fin N → α) : Fin N → ℕ → List α
  | _, 0 => []
  | p, m + 1 => buf p :: slice buf (p + 1) m

/-- How many elements have been written and not read. -/
def count (r : RingBuffer α N) : ℕ := (r.wpos - r.rpos).val

/-- The queue, its oldest element first. -/
def contents (r : RingBuffer α N) : List α := slice r.buf r.rpos r.count

def push (a : α) (r : RingBuffer α N) : RingBuffer α N :=
  { r with buf := Function.update r.buf r.wpos a, wpos := r.wpos + 1 }

def pop (r : RingBuffer α N) : RingBuffer α N := { r with rpos := r.rpos + 1 }

/-! ## Positions -/

theorem add_ofNat_zero (p : Fin N) : p + Fin.ofNat N 0 = p := add_zero p

/-- A step that comes first or last. -/
theorem add_ofNat_succ (p : Fin N) (m : ℕ) : p + Fin.ofNat N (m + 1) = p + 1 + Fin.ofNat N m := by
  have hlast : Fin.ofNat N (m + 1) = Fin.ofNat N m + 1 := by
    apply Fin.ext
    rw [Fin.val_add]
    simp
  calc p + Fin.ofNat N (m + 1) = p + (Fin.ofNat N m + 1) := by rw [hlast]
    _ = p + Fin.ofNat N m + 1 := (add_assoc _ _ _).symm
    _ = p + 1 + Fin.ofNat N m := add_right_comm _ _ _

/-- The next position is the first one again after the last one. -/
theorem val_succ (p : Fin N) : (p + 1).val = if p.val + 1 = N then 0 else p.val + 1 := by
  have hone : (p + 1).val = (p.val + 1) % N := by
    rw [Fin.val_add]
    simp
  rw [hone]
  split
  · rename_i hlast
    rw [hlast, Nat.mod_self]
  · rename_i hinner
    have hlt := p.isLt
    exact Nat.mod_eq_of_lt (by omega)

@[simp] theorem length_slice (p : Fin N) (m : ℕ) : (slice buf p m).length = m := by
  induction m generalizing p with
  | zero => rfl
  | succ m ih => rw [slice, List.length_cons, ih]

@[simp] theorem length_contents : r.contents.length = r.count := length_slice _ _

omit [NeZero N] in
theorem count_lt : r.count < N := (r.wpos - r.rpos).isLt

theorem slice_succ (p : Fin N) (m : ℕ) :
    slice buf p (m + 1) = slice buf p m ++ [buf (p + Fin.ofNat N m)] := by
  induction m generalizing p with
  | zero =>
    rw [add_ofNat_zero]
    rfl
  | succ m ih =>
    rw [slice, ih, add_ofNat_succ]
    rfl

/-- A write outside of the slice. -/
theorem slice_update (m : ℕ) (hout : ∀ i < m, p + Fin.ofNat N i ≠ q) :
    slice (Function.update buf q a) p m = slice buf p m := by
  induction m generalizing p with
  | zero => rfl
  | succ m ih =>
    have hfirst : p ≠ q := by
      have hzero := hout 0 (Nat.succ_pos m)
      rwa [add_ofNat_zero] at hzero
    rw [slice, slice, Function.update_of_ne hfirst, ih]
    intro i hi
    have hnext := hout (i + 1) (Nat.succ_lt_succ hi)
    rwa [add_ofNat_succ] at hnext

/-! ## Reading and writing -/

/-- The writer is ahead of the reader by the elements of the queue. -/
theorem rpos_add_count : r.rpos + Fin.ofNat N r.count = r.wpos := by
  have hcast : Fin.ofNat N r.count = r.wpos - r.rpos := by
    apply Fin.ext
    exact Nat.mod_eq_of_lt count_lt
  rw [hcast, add_sub_cancel]

theorem count_push : (r.push a).count = if r.count + 1 = N then 0 else r.count + 1 := by
  have hshift : r.wpos + 1 - r.rpos = r.wpos - r.rpos + 1 := sub_add_eq_add_sub _ _ _ |>.symm
  change (r.wpos + 1 - r.rpos).val = _
  rw [hshift, val_succ]
  rfl

/-- Where there is room the element comes last. -/
theorem contents_push (hroom : r.count + 1 < N) : (r.push a).contents = r.contents ++ [a] := by
  have hcount : (r.push a).count = r.count + 1 := by
    rw [count_push, if_neg (Nat.ne_of_lt hroom)]
  have hout : ∀ i < r.count, r.rpos + Fin.ofNat N i ≠ r.wpos := by
    intro i hi heq
    rw [← rpos_add_count (r := r), add_right_inj] at heq
    have hval := congrArg Fin.val heq
    have hlt := count_lt (r := r)
    rw [Fin.val_ofNat, Fin.val_ofNat, Nat.mod_eq_of_lt (by omega), Nat.mod_eq_of_lt hlt] at hval
    omega
  rw [contents, hcount]
  change slice (Function.update r.buf r.wpos a) r.rpos (r.count + 1) = _
  rw [slice_succ, rpos_add_count, Function.update_self, slice_update _ hout]
  rfl

/-- Where there is none the whole queue is lost. -/
theorem contents_push_full (hfull : r.count + 1 = N) : (r.push a).contents = [] := by
  rw [contents, count_push, if_pos hfull]
  rfl

theorem count_eq_zero : r.count = 0 ↔ r.rpos = r.wpos := by
  constructor
  · intro hzero
    have hsame := rpos_add_count (r := r)
    rw [hzero, add_ofNat_zero] at hsame
    exact hsame
  · intro hsame
    rw [count, hsame, sub_self]
    rfl

theorem contents_eq_nil : r.contents = [] ↔ r.rpos = r.wpos := by
  rw [← count_eq_zero, ← length_contents, List.length_eq_zero_iff]

/-- The reader takes the first element. -/
theorem contents_pop (hsome : r.rpos ≠ r.wpos) : r.contents = r.buf r.rpos :: r.pop.contents := by
  have hcount : r.count = r.pop.count + 1 := by
    have hback : r.wpos - r.rpos = r.wpos - (r.rpos + 1) + 1 := by
      rw [← sub_sub, sub_add_cancel]
    have hne : r.count ≠ 0 := fun hzero ↦ hsome (count_eq_zero.mp hzero)
    unfold count at hne ⊢
    rw [hback, val_succ] at hne ⊢
    split at hne
    · exact absurd rfl hne
    · rename_i hinner
      rw [if_neg hinner]
      rfl
  rw [contents, hcount]
  rfl

end RingBuffer

end SistemasOperativos.Library
