import Mathlib.NumberTheory.PrimeCounting

/-!
# The sieve by successive filters

Each round takes the head of a list and drops its multiples. Started on `2, 3, …, n`, the heads are
the primes in order, and the round that finds the list empty is the one after the last of them.
-/

namespace SistemasOperativos.Library

open Nat (nth)
open scoped Nat.Prime

/-- One round: what the head does not divide. -/
def sift : List ℕ → List ℕ
  | [] => []
  | p :: vs => vs.filter fun v ↦ ¬p ∣ v

/-- The list after `k` rounds. -/
def sifted (vs : List ℕ) : ℕ → List ℕ
  | 0 => vs
  | k + 1 => sift (sifted vs k)

theorem sift_eq_filter {p : ℕ} {vs : List ℕ} (h : vs.head? = some p) :
    sift vs = vs.filter fun v ↦ ¬p ∣ v := by
  cases vs with
  | nil => simp at h
  | cons q vs =>
    obtain rfl : q = p := by simpa using h
    simp [sift]

theorem sift_sublist (vs : List ℕ) : (sift vs).Sublist vs := by
  cases vs with
  | nil => exact .slnil
  | cons p vs => exact List.filter_sublist.cons p

/-! ## Rounds over the numbers up to `n` -/

/-- The numbers from 2 to `n`. -/
def candidates (n : ℕ) : List ℕ := List.range' 2 (n - 1)

@[simp]
theorem mem_candidates {n v : ℕ} : v ∈ candidates n ↔ 2 ≤ v ∧ v ≤ n := by
  simp only [candidates, List.mem_range'_1]
  omega

theorem sifted_sorted (n k : ℕ) : (sifted (candidates n) k).Pairwise (· < ·) := by
  induction k with
  | zero => exact List.pairwise_lt_range'
  | succ k ih => exact ih.sublist (sift_sublist _)

/-- A number that none of the first `k` primes divides is at least the next prime. -/
theorem nth_prime_le_of_not_dvd {k v : ℕ} (hv : 2 ≤ v) (h : ∀ j < k, ¬nth Nat.Prime j ∣ v) :
    nth Nat.Prime k ≤ v := by
  have hprime : v.minFac.Prime := Nat.minFac_prime (by omega)
  have hnth : nth Nat.Prime (Nat.count Nat.Prime v.minFac) = v.minFac := Nat.nth_count hprime
  have hk : k ≤ Nat.count Nat.Prime v.minFac := by
    by_contra hlt
    apply h _ (not_le.mp hlt)
    rw [hnth]
    exact v.minFac_dvd
  calc
    nth Nat.Prime k ≤ nth Nat.Prime (Nat.count Nat.Prime v.minFac) :=
      Nat.nth_monotone Nat.infinite_setOfPred_prime hk
    _ = v.minFac := hnth
    _ ≤ v := Nat.minFac_le (by omega)

theorem not_nth_prime_dvd {j k : ℕ} (h : j < k) : ¬nth Nat.Prime j ∣ nth Nat.Prime k := by
  intro hdvd
  have heq := (Nat.prime_dvd_prime_iff_eq (Nat.prime_nth_prime j) (Nat.prime_nth_prime k)).mp hdvd
  exact h.ne (Nat.nth_injective Nat.infinite_setOfPred_prime heq)

theorem nth_prime_le_iff {n k : ℕ} : nth Nat.Prime k ≤ n ↔ k < π n := by
  rw [Nat.primeCounting, Nat.primeCounting', Nat.lt_nth_iff_count_lt Nat.infinite_setOfPred_prime]
  exact Nat.lt_succ_iff.symm

/-- In a sorted list the least member is the head. -/
theorem head?_of_sorted {vs : List ℕ} {p : ℕ} (hsorted : vs.Pairwise (· < ·)) (hp : p ∈ vs)
    (hle : ∀ v ∈ vs, p ≤ v) : vs.head? = some p := by
  cases vs with
  | nil => cases hp
  | cons q vs =>
    have hpq : p ≤ q := hle q List.mem_cons_self
    rcases List.mem_cons.mp hp with rfl | hrest
    · rfl
    · have hqp : q < p := List.rel_of_pairwise_cons hsorted hrest
      omega

/-- What `k` rounds leave of the numbers up to `n`. -/
def Left (n k v : ℕ) : Prop := (2 ≤ v ∧ v ≤ n) ∧ ∀ j < k, ¬nth Nat.Prime j ∣ v

theorem left_nth_prime {n k : ℕ} (h : k < π n) : Left n k (nth Nat.Prime k) :=
  ⟨⟨(Nat.prime_nth_prime k).two_le, nth_prime_le_iff.mpr h⟩, fun _ ↦ not_nth_prime_dvd⟩

theorem Left.lt {n k v : ℕ} (h : Left n k v) : k < π n :=
  nth_prime_le_iff.mp ((nth_prime_le_of_not_dvd h.1.1 h.2).trans h.1.2)

theorem left_succ {n k v : ℕ} : Left n (k + 1) v ↔ Left n k v ∧ ¬nth Nat.Prime k ∣ v := by
  simp only [Left, Nat.forall_lt_succ_right, and_assoc]

/-- The round after the members are known: it takes the next prime, or finds nothing left. -/
theorem head?_of_mem_iff {n k : ℕ} {vs : List ℕ} (hsorted : vs.Pairwise (· < ·))
    (hmem : ∀ v, v ∈ vs ↔ Left n k v) :
    vs.head? = if k < π n then some (nth Nat.Prime k) else none := by
  split
  · next hk =>
    apply head?_of_sorted hsorted ((hmem _).mpr (left_nth_prime hk))
    intro v hv
    have hleft := (hmem v).mp hv
    exact nth_prime_le_of_not_dvd hleft.1.1 hleft.2
  · next hk =>
    rw [List.head?_eq_none_iff, List.eq_nil_iff_forall_not_mem]
    intro v hv
    exact hk ((hmem v).mp hv).lt

theorem mem_sifted {n k v : ℕ} : v ∈ sifted (candidates n) k ↔ Left n k v := by
  induction k generalizing v with
  | zero => simp [sifted, Left]
  | succ k ih =>
    have hhead := head?_of_mem_iff (sifted_sorted n k) fun _ ↦ ih
    rw [left_succ, ← ih, sifted]
    split at hhead
    · rw [sift_eq_filter hhead]
      simp
    · rw [List.head?_eq_none_iff.mp hhead]
      simp [sift]

/-- The round after `k` others takes the prime number `k`, counted from 0. -/
theorem head?_sifted (n k : ℕ) :
    (sifted (candidates n) k).head? = if k < π n then some (nth Nat.Prime k) else none :=
  head?_of_mem_iff (sifted_sorted n k) fun _ ↦ mem_sifted

theorem sifted_eq_nil_iff {n k : ℕ} : sifted (candidates n) k = [] ↔ π n ≤ k := by
  rw [← List.head?_eq_none_iff, head?_sifted]
  simp

end SistemasOperativos.Library
