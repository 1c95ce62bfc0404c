import Mathlib.Data.List.Nodup
import SistemasOperativos.Jos.Trap
import SistemasOperativos.Library.LinkedList
import SistemasOperativos.Library.Runs

/-!
# The machine

The kernel with its CPUs as a transition system. A step is a whole section of the kernel, which runs
under the big kernel lock, or one write of a user program. Any CPU that can take a step may take the
next one, so the runs are all the interleavings. Where the kernel stops there is no step.
-/

namespace SistemasOperativos.Jos

open Library

variable {n : ℕ}

inductive Event (n : ℕ) where
  /-- `ENV_CREATE` on the CPU that boots, before the first environment runs. -/
  | create (c : Fin n) (binary : Elf)
  /-- A CPU calls `sched_yield` for the first time, from `i386_init` or `mp_main`. -/
  | start (c : Fin n)
  | trap (c : Fin n) (tf : Trapframe) (faultVa : Word) (inp : Input)
  /-- The program that runs on the CPU writes a byte. -/
  | store (c : Fin n) (va : Word) (b : BitVec 8)

/-- What the linker promises about the programs in the kernel image: the segments to load lie below
`UTOP`, and the file has no more bytes for a segment than there is room in memory. -/
def Elf.Linked (binary : Elf) : Prop :=
  ∀ ph ∈ binary.phdrs, ph.pType = elfProgLoad →
    ph.pVa.toNat + ph.pMemsz.toNat ≤ utop.toNat ∧ ph.bytes.length ≤ ph.pMemsz.toNat

/-- The interrupts that reach a halted CPU. -/
def Interrupt (trapno : Word) : Prop := irqOffset ≤ trapno ∧ trapno ≠ tSyscall

namespace Kernel

/-- Outside the kernel a CPU that is neither unused nor halted is in user mode. -/
def UserMode (k : Kernel n) (c : Fin n) : Prop := (k.cpus c).cpuStatus = .started

def Enabled (k : Kernel n) : Event n → Prop
  | .create _ binary => (∀ c, (k.cpus c).cpuStatus = .unused) ∧ binary.Linked
  | .start c => (k.cpus c).cpuStatus = .unused
  | .trap c tf _ _ =>
    k.UserMode c ∧ tf.tfCs &&& 3 = 3 ∨
      (k.cpus c).cpuStatus = .halted ∧ tf.tfCs = gdKt ∧ Interrupt tf.tfTrapno
  | .store c _ _ => k.UserMode c

def exec (s : Scheduler) (k : Kernel n) : Event n → Except Fault (Kernel n)
  | .create _ binary => k.envCreate binary
  | .start c => (k.start c).schedYield s c
  | .trap c tf faultVa inp => k.trap s c tf faultVa inp
  | .store c va b => do
    let memory ← k.memory.storeByte (k.cpus c).cr3 Memory.userWrite va b
    return { k with memory }

def Step (s : Scheduler) (k : Kernel n) (ev : Event n) (k' : Kernel n) : Prop :=
  k.Enabled ev ∧ k.exec s ev = .ok k'

theorem Step.deterministic {s : Scheduler} (k : Kernel n) (ev : Event n) (k₁ k₂ : Kernel n)
    (h₁ : k.Step s ev k₁) (h₂ : k.Step s ev k₂) : k₁ = k₂ := by
  have hexec := h₁.2
  rw [h₂.2] at hexec
  exact (Except.ok.inj hexec).symm

end Kernel

/-! ## The state after the kernel has started -/

/-- The contents of `envs` before `env_init`. -/
def Env.zero : Env where
  envTf := Trapframe.zero
  envLink := none
  envId := 0
  envParentId := 0
  envStatus := .free
  envRuns := 0
  envCpunum := 0
  priority := 0
  timeSlices := 0
  envPgdir := none
  envPgfaultUpcall := 0
  envIpcRecving := false
  envIpcDstva := 0
  envIpcValue := 0
  envIpcFrom := 0
  envIpcPerm := 0

/-- What `mem_init` leaves in memory: the pages `free` are on the free list, nothing is mapped below
`UTOP`, and from there on no page is mapped that a user program may write, through page tables that
are not themselves on the free list. -/
structure Memory.Booted (m : Memory) (free : List Ppn) : Prop where
  chain : Chain (fun pp ↦ (m.pages pp).ppLink) m.pageFreeList free
  bound : ∀ pp ∈ free, pp.toNat < m.npages
  unreferenced : ∀ pp ∈ free, (m.pages pp).ppRef = 0
  kernPgdir : m.kernPgdir ∉ free
  below : ∀ d : Slot, d < pdx utop → m.word m.kernPgdir d = 0
  above : ∀ d : Slot, pdx utop ≤ d → ∀ pde, m.word m.kernPgdir d = pde →
    pde &&& userWrite = userWrite →
      pgnum pde ∉ free ∧ ∀ t, m.word (pgnum pde) t &&& userWrite ≠ userWrite

/-- The state in which the first environment is created. -/
structure Kernel.Booted (k : Kernel n) (free : List Ppn) : Prop where
  memory : k.memory.Booted free
  table : ∃ k₀ : Kernel n, (∀ e, k₀.envs e = Env.zero) ∧ k₀.envInit = k
  cpus : ∀ c, k.cpus c = ⟨.unused, none, k.memory.kernPgdir⟩

/-- The runs of the machine from its start. -/
def Reaches (s : Scheduler) (free : List Ppn) (evs : List (Event n)) (k : Kernel n) : Prop :=
  ∃ k₀ : Kernel n, k₀.Booted free ∧ Run (Kernel.Step s) k₀ evs k

end SistemasOperativos.Jos
