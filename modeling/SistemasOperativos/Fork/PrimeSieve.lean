import SistemasOperativos.Fork.Progress
import SistemasOperativos.Fork.Simulation

/-!
# What `primes.c` prints

From the start every run is finite, whatever the order of the steps and however small the pipes, and
where it can go no further the processes have printed the primes up to `n`, a filter for each.
-/

namespace SistemasOperativos.Fork

open Library (Run nth_prime_le_iff)
open scoped Nat.Prime

variable {n : ℤ} {fs : List Phase} {s s' : State} {k cap : ℕ}

/-! ## Runs -/

theorem represents_initial (n : ℤ) : Represents n [.mainPipe] .initial := by
  refine ⟨fun k ↦ ?_, fun k ↦ ?_, fun k ↦ ?_⟩
  all_goals cases k <;> rfl

theorem coherent_initial (n : ℤ) : Coherent n [.mainPipe] := by
  refine ⟨by simp, fun k f hf ↦ ?_, fun k f hf ↦ ?_, fun k f g _ hg ↦ ?_⟩
  · cases k with
    | zero => cases hf; rfl
    | succ k => cases hf
  · cases k with
    | zero => cases hf; simp [Phase.forked]
    | succ k => cases hf
  · cases hg

theorem Represents.step (hn : n < intMax) (h : Represents n fs s) (hc : Coherent n fs)
    (hstep : Step cap n s k s') :
    Represents n (advance n fs k) s' ∧ Coherent n (advance n fs k) ∧
      remainingSteps n (advance n fs k) < remainingSteps n fs := by
  cases hf : fs[k]? with
  | none =>
    have hnone : s.step cap n k = none := by simp [State.step, h.processes, hf]
    rw [Step, hnone] at hstep
    cases hstep
  | some f =>
    rcases h.simulates hn hc hf cap with ⟨hready, s₁, hs₁, h₁⟩ | ⟨-, hnone⟩
    · obtain rfl : s₁ = s' := Option.some.inj (hs₁.symm.trans hstep)
      have hne : f ≠ .exited := by
        rintro rfl
        exact hready
      exact ⟨h₁, hc.advance hf hready, remainingSteps_advance hc hf hne⟩
    · rw [Step, hnone] at hstep
      cases hstep

/-- A state that some chain represents, with the steps that are left. -/
def Chained (n : ℤ) (m : ℕ) (s : State) : Prop :=
  ∃ fs, Represents n fs s ∧ Coherent n fs ∧ remainingSteps n fs = m

theorem Chained.initial (n : ℤ) : Chained n (remainingSteps n [.mainPipe]) .initial :=
  ⟨_, represents_initial n, coherent_initial n, rfl⟩

theorem Chained.step {m : ℕ} (hn : n < intMax) (h : Chained n m s) (hstep : Step cap n s k s') :
    ∃ m' < m, Chained n m' s' := by
  obtain ⟨fs, hrep, hc, rfl⟩ := h
  obtain ⟨hrep', hc', hlt⟩ := hrep.step hn hc hstep
  exact ⟨_, hlt, _, hrep', hc', rfl⟩

theorem run_chained (hn : n < intMax) {ls : List ℕ} (h : Run (Step cap n) .initial ls s) :
    ∃ m, ls.length + m ≤ remainingSteps n [.mainPipe] ∧ Chained n m s :=
  @Run.bounded _ _ _ (Chained n) (fun _ _ _ _ ↦ Chained.step hn) _ _ _ h _ (Chained.initial n)

/-! ## The end of a run -/

/-- What the processes have done in the end. The generator is process 0 and the filter number `k` is
process `k + 1`, which reads pipe `k`. -/
structure Sieved (n : ℤ) (s : State) : Prop where
  exited : ∀ p ∈ s.processes, p.point = .exited
  /-- One filter for each prime and a last one. -/
  length_processes : s.processes.length = π n.toNat + 2
  /-- The generator prints nothing and sends every number from 2 to `n`. -/
  generator : s.printedBy 0 = [] ∧
    ∃ taken, s.pipes[0]? = some ⟨(List.range' 2 (n.toNat - 1)).map Nat.cast, taken⟩
  /-- A filter prints its prime once, and of all the numbers that it receives it forwards those that
  the prime does not divide. -/
  filter : ∀ k < π n.toNat, s.printedBy (k + 1) = [(Nat.nth Nat.Prime k : ℤ)] ∧
    ∃ received taken, s.pipes[k]? = some ⟨received, received.length⟩ ∧
      s.pipes[k + 1]? = some ⟨received.filter fun v ↦ ¬(Nat.nth Nat.Prime k : ℤ) ∣ v, taken⟩
  /-- The last filter receives nothing, prints nothing and forks no other. -/
  last : s.printedBy (π n.toNat + 1) = [] ∧ s.pipes[π n.toNat]? = some ⟨[], 0⟩
  printed_iff : ∀ v : ℤ, (∃ k, v ∈ s.printedBy k) ↔ ∃ p : ℕ, p.Prime ∧ (p : ℤ) ≤ n ∧ v = p
  printed_once : ∀ (v : ℤ) (j k : ℕ), v ∈ s.printedBy j → v ∈ s.printedBy k → j = k

section Final

theorem getElem?_exited {m : ℕ} (hk : k < m) :
    (List.replicate m Phase.exited)[k]? = some .exited := by simp [hk]

variable (h : Represents n (List.replicate (π n.toNat + 2) .exited) s)
include h

theorem printedBy_filter (hk : k < π n.toNat) :
    s.printedBy (k + 1) = [(Nat.nth Nat.Prime k : ℤ)] := by
  rw [h.printedBy_self (getElem?_exited (by omega)), Phase.prints, head?_input_succ, if_pos hk]
  rfl

theorem mem_printedBy {v : ℤ} :
    v ∈ s.printedBy k ↔ ∃ j < π n.toNat, k = j + 1 ∧ v = Nat.nth Nat.Prime j := by
  rw [h.printed]
  constructor
  · intro hv
    by_cases hk : k < π n.toNat + 2
    · rw [getElem?_exited hk] at hv
      cases k with
      | zero => simp [Phase.prints, input] at hv
      | succ j =>
        simp only [Option.elim_some, Phase.prints, head?_input_succ] at hv
        split at hv
        · next hj => exact ⟨j, hj, rfl, by simpa using hv⟩
        · simp at hv
    · simp [hk] at hv
  · rintro ⟨j, hj, rfl, rfl⟩
    rw [← h.printed, printedBy_filter h hj]
    exact List.mem_singleton_self _

theorem pipes_exited (hk : k < π n.toNat + 2) :
    s.pipes[k]? = some ⟨stream n k, if k < π n.toNat + 1 then (stream n k).length else 0⟩ := by
  rw [h.pipes, pipeOf_of (getElem?_exited hk) rfl]
  split
  · next hlt =>
    rw [takenBy_of (getElem?_exited (Nat.succ_lt_succ hlt))]
    rfl
  · next hge => simp [takenBy, Phase.sent, show k = π n.toNat + 1 by omega]

theorem printed_iff_prime {v : ℤ} :
    (∃ k, v ∈ s.printedBy k) ↔ ∃ p : ℕ, p.Prime ∧ (p : ℤ) ≤ n ∧ v = p := by
  simp only [mem_printedBy h]
  constructor
  · rintro ⟨-, j, hj, -, rfl⟩
    have hle : Nat.nth Nat.Prime j ≤ n.toNat := nth_prime_le_iff.mpr hj
    have hprime := Nat.prime_nth_prime j
    have htwo := hprime.two_le
    exact ⟨_, hprime, by omega, rfl⟩
  · rintro ⟨p, hprime, hle, rfl⟩
    have hnth : Nat.nth Nat.Prime (Nat.count Nat.Prime p) = p := Nat.nth_count hprime
    have hlt : Nat.count Nat.Prime p < π n.toNat := nth_prime_le_iff.mp (by omega)
    exact ⟨_, _, hlt, rfl, by rw [hnth]⟩

theorem sieved_of_exited : Sieved n s := by
  have hlast : stream n (π n.toNat) = [] :=
    not_ne_iff.mp (mt input_ne_nil_iff.mp (lt_irrefl (π n.toNat)))
  refine ⟨fun p hp ↦ ?_, ?_, ⟨?_, _, pipes_exited h (by omega)⟩,
    fun k hk ↦ ⟨printedBy_filter h hk, stream n k, ?_⟩, ⟨?_, ?_⟩, fun v ↦ printed_iff_prime h,
    fun v j k hj hk ↦ ?_⟩
  · obtain ⟨k, hk⟩ := List.mem_iff_getElem?.mp hp
    rw [h.processes, Option.map_eq_some_iff] at hk
    obtain ⟨f, hf, rfl⟩ := hk
    obtain rfl := List.eq_of_mem_replicate (List.mem_of_getElem? hf)
    rfl
  · rw [h.length_eq, List.length_replicate]
  · rw [h.printedBy_self (getElem?_exited (by omega))]
    rfl
  · have hthis := pipes_exited h (show k < π n.toNat + 2 by omega)
    have hnext := pipes_exited h (show k + 1 < π n.toNat + 2 by omega)
    rw [if_pos (by omega)] at hthis
    rw [stream_succ, primoOf_succ hk] at hnext
    exact ⟨_, hthis, hnext⟩
  · rw [h.printedBy_self (getElem?_exited (by omega)), Phase.prints, head?_input_succ,
      if_neg (lt_irrefl _)]
    rfl
  · rw [pipes_exited h (by omega), hlast]
    simp
  · obtain ⟨i, -, rfl, rfl⟩ := (mem_printedBy h).mp hj
    obtain ⟨i', -, rfl, heq⟩ := (mem_printedBy h).mp hk
    rw [Nat.nth_injective Nat.infinite_setOfPred_prime (Nat.cast_injective heq)]

end Final

/-- The sieve of `primes.c`: the runs are finite, and where one can go no further the filters have
printed the primes up to `n`. -/
theorem primes_sieved (cap : ℕ) (n : ℤ) (hcap : 0 < cap) (hn : n < intMax) :
    (∃ bound, ∀ ls s, Run (Step cap n) .initial ls s → ls.length ≤ bound) ∧
      ∀ ls s, Run (Step cap n) .initial ls s → (∀ k s', ¬Step cap n s k s') → Sieved n s := by
  constructor
  · refine ⟨remainingSteps n [.mainPipe], fun ls s h ↦ ?_⟩
    obtain ⟨m, hle, -⟩ := run_chained hn h
    omega
  · intro ls s h hstuck
    obtain ⟨m, -, fs, hrep, hc, -⟩ := run_chained hn h
    have hchain : Stuck n cap fs := fun k f hf hready ↦ by
      rcases hrep.simulates hn hc hf cap with ⟨-, s', hs', -⟩ | ⟨hnot, -⟩
      · exact hstuck k s' hs'
      · exact hnot hready
    rw [hc.eq_replicate_of_stuck hcap hchain] at hrep
    exact sieved_of_exited hrep

/-- With `n = 3` and room for a single number in each pipe. -/
theorem primes_sieved_three :
    ∃ ls s, Run (Step 1 3) .initial ls s ∧ s.printed = [(1, 2), (2, 3)] ∧ Sieved 3 s := by
  let ls := [0, 0, 1, 1, 0, 0, 1, 1, 1, 2, 2, 2, 2, 1, 0, 1, 1, 2, 2, 2, 3, 3, 3, 3, 2, 0, 0, 1, 1,
    1, 2, 2, 2, 3, 3, 3, 3, 3, 3, 3, 3, 3, 3, 2, 2, 2, 2, 1, 1, 0]
  let last : Process := ⟨.exited, ⟨⟨0, 1⟩, ⟨1, 2⟩, 2⟩, [], none, []⟩
  let s : State :=
    { processes := [⟨.exited, .call ⟨0, 1⟩, [], none, []⟩, last, last, last]
      pipes := [⟨[2, 3], 2⟩, ⟨[3], 1⟩, ⟨[], 0⟩, ⟨[], 0⟩]
      printed := [(1, 2), (2, 3)] }
  have hrun : Run (Step 1 3) .initial ls s := run_of_follow (by decide +kernel)
  have hstuck : ∀ k s', ¬Step 1 3 s k s' := by
    intro k s' hstep
    match k with
    | 0 | 1 | 2 | 3 => cases hstep
    | k + 4 => cases hstep
  exact ⟨ls, s, hrun, rfl, (primes_sieved 1 3 (by decide) (by decide)).2 ls s hrun hstuck⟩

end SistemasOperativos.Fork
