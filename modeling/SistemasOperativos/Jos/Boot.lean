import SistemasOperativos.Jos.Machine
import SistemasOperativos.Library.Inversion

/-!
# Runs on a small machine

The machine as a program: it takes a list of events and ends in the state after them, where all of them
are enabled and the kernel does not stop. With it a run on a small machine is computed.
-/

namespace SistemasOperativos.Jos

open Library Library.Except

variable {n : ℕ} {s : Scheduler} {k k' : Kernel n}

namespace Kernel

instance (k : Kernel n) (c : Fin n) : Decidable (k.UserMode c) :=
  inferInstanceAs (Decidable ((k.cpus c).cpuStatus = .started))

instance (binary : Elf) : Decidable binary.Linked :=
  inferInstanceAs (Decidable (∀ ph ∈ binary.phdrs, ph.pType = elfProgLoad →
    ph.pVa.toNat + ph.pMemsz.toNat ≤ utop.toNat ∧ ph.bytes.length ≤ ph.pMemsz.toNat))

instance (trapno : Word) : Decidable (Interrupt trapno) :=
  inferInstanceAs (Decidable (irqOffset ≤ trapno ∧ trapno ≠ tSyscall))

instance (k : Kernel n) : (ev : Event n) → Decidable (k.Enabled ev)
  | .create _ binary =>
    inferInstanceAs (Decidable ((∀ c, (k.cpus c).cpuStatus = .unused) ∧ binary.Linked))
  | .start c => inferInstanceAs (Decidable ((k.cpus c).cpuStatus = .unused))
  | .trap c tf _ _ => inferInstanceAs (Decidable (k.UserMode c ∧ tf.tfCs &&& 3 = 3 ∨
      (k.cpus c).cpuStatus = .halted ∧ tf.tfCs = gdKt ∧ Interrupt tf.tfTrapno))
  | .store c _ _ => inferInstanceAs (Decidable (k.UserMode c))

/-- The state after some events. -/
def after (s : Scheduler) : List (Event n) → Kernel n → Option (Kernel n)
  | [], k => some k
  | ev :: evs, k =>
    if k.Enabled ev then
      match k.exec s ev with
      | .ok k' => after s evs k'
      | .error _ => none
    else none

theorem run_of_after {evs : List (Event n)} (h : k.after s evs = some k') :
    Run (Step s) k evs k' := by
  induction evs generalizing k with
  | nil =>
    obtain rfl := Option.some.inj h
    exact .nil k
  | cons ev evs ih =>
    unfold after at h
    split at h
    · rename_i henabled
      split at h
      · rename_i k₁ hexec
        exact .cons ⟨henabled, hexec⟩ (ih h)
      · cases h
    · cases h

theorem run_of_any {evs : List (Event n)} {p : Kernel n → Bool}
    (h : (k.after s evs).any p = true) : ∃ k', Run (Step s) k evs k' ∧ p k' = true := by
  obtain ⟨k', hk', hp⟩ := (Option.any_eq_true _ _).mp h
  exact ⟨k', run_of_after hk', hp⟩

theorem step_of_any {ev : Event n} {p : Kernel n → Bool} (h : (k.after s [ev]).any p = true) :
    ∃ k', k.Step s ev k' ∧ p k' = true := by
  obtain ⟨k', hrun, hp⟩ := run_of_any h
  cases hrun with
  | cons hstep hnil =>
    cases hnil
    exact ⟨k', hstep, hp⟩

end Kernel

/-! ## A small machine -/

/-- The memory of a machine with `pages` free pages after the first one, which is the page directory
of the kernel. -/
def smallMemory (pages : ℕ) : Memory where
  npages := pages + 1
  word _ _ := 0
  pages pp := ⟨if pp.toNat < pages then some (pp + 1) else none, 0⟩
  pageFreeList := if pages = 0 then none else some 1
  kernPgdir := 0

/-- A machine on which the first environment is about to be created. -/
def smallKernel (n pages : ℕ) : Kernel n :=
  Kernel.envInit {
    memory := smallMemory pages
    envs := fun _ ↦ Env.zero
    envFreeList := none
    cpus := fun _ ↦ ⟨.unused, none, 0⟩
    boostTimeSlices := 0
    totalSchedCalls := 0 }

/-- A program without segments: only its stack is mapped. -/
def smallBinary : Elf := ⟨elfMagic, 0x800020, []⟩

/-- The trap frame of a system call. -/
def callFrame (no a1 a2 a3 a4 a5 : Word) : Trapframe :=
  { Trapframe.zero with
    tfCs := userText
    tfTrapno := tSyscall
    tfRegs := ⟨a4, a5, 0, 0, a3, a1, a2, no⟩ }

/-- The trap frame of a timer interrupt in user mode, and on a halted CPU. -/
def timerFrame (cs : BitVec 16) : Trapframe :=
  { Trapframe.zero with tfCs := cs, tfTrapno := irqOffset + irqTimer }

/-- A system call that reads nothing from outside. -/
def Event.call {n : ℕ} (c : Fin n) (no a1 a2 a3 a4 a5 : Word) : Event n :=
  .trap c (callFrame no a1 a2 a3 a4 a5) 0 ⟨0, none⟩

def Event.timer {n : ℕ} (c : Fin n) (cs : BitVec 16) : Event n :=
  .trap c (timerFrame cs) 0 ⟨0, none⟩

theorem smallMemory_chain (pages : ℕ) (hpages : pages < 2 ^ 20) (m i : ℕ)
    (h : i + m = pages + 1) (hi : 0 < i) :
    Chain (fun pp ↦ ((smallMemory pages).pages pp).ppLink)
      (if m = 0 then none else some (BitVec.ofNat 20 i))
      ((List.range' i m).map (BitVec.ofNat 20)) := by
  induction m generalizing i with
  | zero => rfl
  | succ m ih =>
    refine ⟨by simp, ?_⟩
    have htoNat : (BitVec.ofNat 20 i).toNat = i := by
      rw [BitVec.toNat_ofNat]
      omega
    have hsucc : BitVec.ofNat 20 i + 1 = BitVec.ofNat 20 (i + 1) := by
      rw [BitVec.ofNat_add]
      rfl
    have hlink : (if m = 0 then none else some (BitVec.ofNat 20 (i + 1))) =
        ((smallMemory pages).pages (BitVec.ofNat 20 i)).ppLink := by
      simp only [smallMemory, htoNat, hsucc]
      by_cases hm : m = 0
      · rw [if_pos hm, if_neg (by omega)]
      · rw [if_neg hm, if_pos (by omega)]
    have hnext := ih (i + 1) (by omega) (by omega)
    rw [hlink] at hnext
    exact hnext

/-- The free pages of the small machine. -/
def smallFree (pages : ℕ) : List Ppn := (List.range' 1 pages).map (BitVec.ofNat 20)

theorem smallKernel_booted (n pages : ℕ) (hpages : pages < 2 ^ 20) :
    (smallKernel n pages).Booted (smallFree pages) := by
  have hmem : ∀ pp ∈ smallFree pages, 1 ≤ pp.toNat ∧ pp.toNat ≤ pages := by
    intro pp hpp
    obtain ⟨i, hi, rfl⟩ := List.mem_map.mp hpp
    rw [List.mem_range'_1] at hi
    rw [BitVec.toNat_ofNat]
    omega
  refine ⟨⟨?_, fun pp hpp ↦ ?_, fun _ _ ↦ rfl, fun h0 ↦ ?_, fun _ _ ↦ rfl, ?_⟩, ?_, fun _ ↦ rfl⟩
  · exact smallMemory_chain pages hpages pages 1 (by omega) (by omega)
  · have := (hmem pp hpp).2
    change pp.toNat < pages + 1
    omega
  · have hpos : 1 ≤ (0 : Ppn).toNat := (hmem _ h0).1
    exact absurd hpos (by decide)
  · rintro d - pde rfl hbits
    change (0 : Word) &&& Memory.userWrite = Memory.userWrite at hbits
    exact absurd hbits (by decide)
  · exact ⟨_, fun _ ↦ rfl, rfl⟩

end SistemasOperativos.Jos
