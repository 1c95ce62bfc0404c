import Mathlib.Algebra.Group.Int.Defs
import Mathlib.Algebra.Group.Nat.Defs
import Mathlib.Data.Int.Notation
import Mathlib.Data.Nat.Notation
import Mathlib.Logic.Function.Basic

/-!
# Data model of the kernel

Machine words, the layout of an address space, and the global variables of the kernel: physical
memory with its page descriptors, the table of environments, and one record for each CPU. A pointer
into one of the arrays of the kernel is its index there, and a NULL pointer is `none`.

Physical memory is a function from pages to their 1024 words, so that page directories, page tables
and the pages of user programs are all ordinary pages, as they are on the machine.
-/

namespace SistemasOperativos.Jos

abbrev Word := BitVec 32

/-- The number of a physical page, which is also the index of its descriptor in `pages`. -/
abbrev Ppn := BitVec 20

/-- The index of an entry of a page directory or of a page table. -/
abbrev Slot := BitVec 10

/-- A pointer into the array `envs`. -/
abbrev EnvPtr := BitVec 10

/-! ## Addresses -/

def pgsize : Word := 4096

def pdx (la : Word) : Slot := la.extractLsb' 22 10

def ptx (la : Word) : Slot := la.extractLsb' 12 10

/-- The page number of an address, also of the one in a page table entry. -/
def pgnum (la : Word) : Ppn := la.extractLsb' 12 20

/-- `PGADDR(d, t, 0)`. -/
def pgaddr (d t : Slot) : Word := d ++ t ++ (0 : BitVec 12)

def page2pa (pp : Ppn) : Word := pp ++ (0 : BitVec 12)

def rounddown (a : Word) : Word := a - a % pgsize

def roundup (a : Word) : Word := rounddown (a + pgsize - 1)

def nenv : ℕ := 1024

def utop : Word := 0xeec00000
def uxstacktop : Word := utop
def ustacktop : Word := utop - 2 * pgsize
def uvpt : Word := 0xef400000
def utemp : Word := 0x400000
def pftemp : Word := utemp + 0x400000 - pgsize

/-! ## Bits of a page table entry -/

def pteP : Word := 0x001
def pteW : Word := 0x002
def pteU : Word := 0x004
def ptePwt : Word := 0x008
def ptePcd : Word := 0x010
def pteAvail : Word := 0xe00
def pteSyscall : Word := pteAvail ||| pteP ||| pteW ||| pteU

/-! ## Error codes -/

def eBadEnv : ℤ := 2
def eInval : ℤ := 3
def eNoMem : ℤ := 4
def eNoFreeEnv : ℤ := 5
def eFault : ℤ := 6
def eIpcNotRecv : ℤ := 7

/-! ## Physical memory -/

structure PageInfo where
  ppLink : Option Ppn
  ppRef : BitVec 16
deriving DecidableEq

/-- Physical memory, with what `kern/pmap.c` keeps about it. -/
structure Memory where
  npages : ℕ
  word : Ppn → Slot → Word
  pages : Ppn → PageInfo
  pageFreeList : Option Ppn
  kernPgdir : Ppn

/-! ## Environments -/

structure PushRegs where
  regEdi : Word
  regEsi : Word
  regEbp : Word
  regOesp : Word
  regEbx : Word
  regEdx : Word
  regEcx : Word
  regEax : Word
deriving DecidableEq

structure Trapframe where
  tfRegs : PushRegs
  tfEs : BitVec 16
  tfDs : BitVec 16
  tfTrapno : Word
  tfErr : Word
  tfEip : Word
  tfCs : BitVec 16
  tfEflags : Word
  tfEsp : Word
  tfSs : BitVec 16
deriving DecidableEq

def Trapframe.zero : Trapframe where
  tfRegs := ⟨0, 0, 0, 0, 0, 0, 0, 0⟩
  tfEs := 0
  tfDs := 0
  tfTrapno := 0
  tfErr := 0
  tfEip := 0
  tfCs := 0
  tfEflags := 0
  tfEsp := 0
  tfSs := 0

/-- The values of `env_status`. -/
inductive EnvStatus where
  | free
  | dying
  | runnable
  | running
  | notRunnable
deriving DecidableEq

structure Env where
  envTf : Trapframe
  envLink : Option EnvPtr
  envId : Word
  envParentId : Word
  envStatus : EnvStatus
  envRuns : Word
  envCpunum : ℕ
  priority : ℤ
  timeSlices : ℤ
  envPgdir : Option Ppn
  envPgfaultUpcall : Word
  envIpcRecving : Bool
  envIpcDstva : Word
  envIpcValue : Word
  envIpcFrom : Word
  envIpcPerm : Word
deriving DecidableEq

/-- `ENVX(envid)`. -/
def envx (envid : Word) : EnvPtr := envid.setWidth 10

/-! ## CPUs -/

inductive CpuStatus where
  | unused
  | started
  | halted
deriving DecidableEq

/-- A CPU: the members of `struct CpuInfo` that change, and its register `cr3`. -/
structure CpuInfo where
  cpuStatus : CpuStatus
  cpuEnv : Option EnvPtr
  cr3 : Ppn
deriving DecidableEq

/-- The CPU of a machine that has only one is `0`. -/
instance neZero_oneCpu : @NeZero ℕ Zero.ofOfNat0 1 := ⟨Nat.one_ne_zero⟩

/-- The global variables of the kernel, on a machine with `n` CPUs. -/
structure Kernel (n : ℕ) where
  memory : Memory
  envs : EnvPtr → Env
  envFreeList : Option EnvPtr
  cpus : Fin n → CpuInfo
  boostTimeSlices : ℤ
  totalSchedCalls : ℕ

/-- The ways in which the kernel stops. -/
inductive Fault where
  /-- A call of `panic`, or a page fault in kernel mode. -/
  | panic
  /-- A NULL pointer is dereferenced. -/
  | nullPointer
  /-- `sched_halt` finds nothing that could ever run and enters the kernel monitor. -/
  | monitor
deriving DecidableEq

/-- How a function that may not return ends: it returns a value, or it leaves the kernel. -/
inductive Control (α : Type) where
  | returns (a : α)
  | leaves

variable {n : ℕ}

namespace Kernel

/-- `curenv` on the CPU `c`. -/
def curenv (k : Kernel n) (c : Fin n) : Option EnvPtr := (k.cpus c).cpuEnv

def setEnv (k : Kernel n) (e : EnvPtr) (env : Env) : Kernel n :=
  { k with envs := Function.update k.envs e env }

def setCpu (k : Kernel n) (c : Fin n) (cpu : CpuInfo) : Kernel n :=
  { k with cpus := Function.update k.cpus c cpu }

/-- `curenv = e` on the CPU `c`. -/
def setCurenv (k : Kernel n) (c : Fin n) (e : Option EnvPtr) : Kernel n :=
  k.setCpu c { k.cpus c with cpuEnv := e }

/-- `lcr3(PADDR(pgdir))` on the CPU `c`. -/
def lcr3 (k : Kernel n) (c : Fin n) (pgdir : Ppn) : Kernel n :=
  k.setCpu c { k.cpus c with cr3 := pgdir }

section Updates

variable {k : Kernel n} {e e' : EnvPtr} {env : Env} {c c' : Fin n} {cpu : CpuInfo}
  {cur : Option EnvPtr} {pgdir : Ppn}

@[simp] theorem setEnv_self : (k.setEnv e env).envs e = env := Function.update_self ..
theorem setEnv_of_ne (h : e' ≠ e) : (k.setEnv e env).envs e' = k.envs e' :=
  Function.update_of_ne h ..
@[simp] theorem setEnv_memory : (k.setEnv e env).memory = k.memory := rfl
@[simp] theorem setEnv_cpus : (k.setEnv e env).cpus = k.cpus := rfl
@[simp] theorem setEnv_envFreeList : (k.setEnv e env).envFreeList = k.envFreeList := rfl
@[simp] theorem setEnv_curenv : (k.setEnv e env).curenv = k.curenv := rfl

@[simp] theorem setEnv_setEnv {env' : Env} : (k.setEnv e env).setEnv e env' = k.setEnv e env' := by
  simp [setEnv]

theorem setEnv_envs : (k.setEnv e env).envs e' = if e' = e then env else k.envs e' :=
  Function.update_apply ..

@[simp] theorem setCpu_self : (k.setCpu c cpu).cpus c = cpu := Function.update_self ..
theorem setCpu_of_ne (h : c' ≠ c) : (k.setCpu c cpu).cpus c' = k.cpus c' :=
  Function.update_of_ne h ..
@[simp] theorem setCpu_memory : (k.setCpu c cpu).memory = k.memory := rfl
@[simp] theorem setCpu_envs : (k.setCpu c cpu).envs = k.envs := rfl
@[simp] theorem setCpu_envFreeList : (k.setCpu c cpu).envFreeList = k.envFreeList := rfl

@[simp] theorem setCurenv_memory : (k.setCurenv c cur).memory = k.memory := rfl
@[simp] theorem setCurenv_envs : (k.setCurenv c cur).envs = k.envs := rfl
@[simp] theorem setCurenv_envFreeList : (k.setCurenv c cur).envFreeList = k.envFreeList := rfl
@[simp] theorem setCurenv_self : (k.setCurenv c cur).curenv c = cur := by
  simp [setCurenv, curenv]
theorem setCurenv_of_ne (h : c' ≠ c) : (k.setCurenv c cur).cpus c' = k.cpus c' := setCpu_of_ne h

@[simp] theorem lcr3_memory : (k.lcr3 c pgdir).memory = k.memory := rfl
@[simp] theorem lcr3_envs : (k.lcr3 c pgdir).envs = k.envs := rfl
@[simp] theorem lcr3_envFreeList : (k.lcr3 c pgdir).envFreeList = k.envFreeList := rfl
theorem lcr3_of_ne (h : c' ≠ c) : (k.lcr3 c pgdir).cpus c' = k.cpus c' := setCpu_of_ne h
@[simp] theorem lcr3_curenv : (k.lcr3 c pgdir).curenv = k.curenv := by
  funext c'
  by_cases h : c' = c
  · subst h
    simp [lcr3, curenv]
  · simp [curenv, lcr3_of_ne h]

end Updates

/-- Dereferencing `curenv` on the CPU `c`. -/
def theCurenv (k : Kernel n) (c : Fin n) : Except Fault EnvPtr :=
  match k.curenv c with
  | some e => .ok e
  | none => .error .nullPointer

end Kernel

end SistemasOperativos.Jos
