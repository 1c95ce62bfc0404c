import Mathlib.Algebra.Group.Nat.Defs
import Mathlib.Data.List.Basic
import Mathlib.Data.Nat.Notation
import Mathlib.Tactic.Common

/-!
# Consecutive pieces of a list

A list cut into pieces of a given length. Only the last piece may be shorter, and no piece is empty.
-/

namespace SistemasOperativos.Library

variable {α : Type} {n : ℕ} {c l : List α}

/-- The consecutive pieces of `n` elements, of which the last one holds what remains. -/
def chunks (n : ℕ) (l : List α) : List (List α) :=
  (List.range ((l.length + n - 1) / n)).map fun j ↦ (l.drop (n * j)).take n

@[simp]
theorem chunks_nil (hn : 0 < n) : chunks n ([] : List α) = [] := by
  rw [chunks, List.length_nil, Nat.zero_add, Nat.div_eq_of_lt (Nat.sub_one_lt_of_lt hn)]
  rfl

/-- A piece of full length comes off the front. -/
theorem chunks_append (hn : 0 < n) (hc : c.length = n) : chunks n (c ++ l) = c :: chunks n l := by
  have hcount : ((c ++ l).length + n - 1) / n = (l.length + n - 1) / n + 1 := by
    rw [List.length_append, hc, ← Nat.add_div_right _ hn]
    congr 1
    omega
  rw [chunks, hcount, List.range_succ_eq_map, List.map_cons, List.map_map]
  congr 1
  · rw [Nat.mul_zero, List.drop_zero, ← hc, List.take_left]
  · apply List.map_congr_left
    intro j _
    change List.take n ((c ++ l).drop (n * (j + 1))) = _
    rw [Nat.mul_succ, Nat.add_comm, ← List.drop_drop, ← hc, List.drop_left]

/-- What is too short for two pieces is one. -/
theorem chunks_short (hne : l ≠ []) (hlen : l.length ≤ n) : chunks n l = [l] := by
  have hpos : 0 < l.length := List.length_pos_iff.mpr hne
  have hcount : (l.length + n - 1) / n = 1 :=
    Nat.div_eq_of_lt_le (by omega) (by omega)
  rw [chunks, hcount]
  change [(l.drop (n * 0)).take n] = [l]
  rw [Nat.mul_zero, List.drop_zero, List.take_of_length_le hlen]

/-- The pieces hold every element once, in order. -/
theorem flatten_chunks (hn : 0 < n) (l : List α) : (chunks n l).flatten = l := by
  induction h : l.length using Nat.strongRecOn generalizing l with
  | ind m ih =>
    by_cases hne : l = []
    · rw [hne, chunks_nil hn, List.flatten_nil]
    by_cases hlen : l.length ≤ n
    · rw [chunks_short hne hlen, List.flatten_cons, List.flatten_nil, List.append_nil]
    · have htake : (l.take n).length = n := List.length_take_of_le (Nat.le_of_not_le hlen)
      have hdrop : (l.drop n).length < m := by
        rw [List.length_drop]
        omega
      calc (chunks n l).flatten
          = (chunks n (l.take n ++ l.drop n)).flatten := by rw [List.take_append_drop]
        _ = l.take n ++ (chunks n (l.drop n)).flatten := by
          rw [chunks_append hn htake, List.flatten_cons]
        _ = l := by rw [ih _ hdrop _ rfl, List.take_append_drop]

end SistemasOperativos.Library
