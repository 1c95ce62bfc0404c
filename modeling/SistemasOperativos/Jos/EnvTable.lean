import SistemasOperativos.Jos.Pmap

/-!
# The table of environments

The functions of `kern/env.c` that create, load and free environments. Those that switch to another
environment are in the next module.
-/

namespace SistemasOperativos.Jos

variable {n : ℕ}

/-- `GD_UD | 3` and `GD_UT | 3`: the selectors of the user segments. -/
def userData : BitVec 16 := 0x23
def userText : BitVec 16 := 0x1b

/-- `FL_IF`: interrupts are enabled. -/
def flIf : Word := 0x200

/-- `1 << ENVGENSHIFT`. -/
def envGen : Word := 4096

namespace Kernel

/-- The environment that `envid2env` finds for the CPU `c`, or none where it returns an error. With
`envid` zero it is `curenv`, whatever its status. -/
def envid2env (c : Fin n) (envid : Word) (checkperm : Bool) (k : Kernel n) :
    Except Fault (Option EnvPtr) := do
  if envid = 0 then return k.curenv c
  let e := envx envid
  if (k.envs e).envStatus = .free ∨ (k.envs e).envId ≠ envid then return none
  if checkperm = true ∧ some e ≠ k.curenv c then
    let cur ← k.theCurenv c
    if (k.envs e).envParentId ≠ (k.envs cur).envId then return none
  return some e

/-- The state of the table after `env_init`. -/
def envInit (k : Kernel n) : Kernel n :=
  { k with
    envs := fun i ↦ { k.envs i with
      envId := 0
      envStatus := .free
      envLink := if i.toNat + 1 < nenv then some (i + 1) else none }
    envFreeList := some 0 }

/-- The new page directory, or none where there is no memory for it. -/
def envSetupVm (m : Memory) : Except Fault (Option Ppn × Memory) := do
  match ← m.pageAlloc true with
  | (none, m) => return (none, m)
  | (some p, m) =>
    let m := { m with word := Function.update m.word p (m.word m.kernPgdir) }.incref p
    return (some p, m.writePte (p, pdx uvpt) (page2pa p ||| pteP ||| pteU))

/-- The id of the next environment in the slot `e`, after the one with the id `old`. -/
def nextEnvId (e : EnvPtr) (old : Word) : Word :=
  let generation := (old + envGen) &&& ~~~(1023 : Word)
  let generation := if generation.toInt ≤ 0 then envGen else generation
  generation ||| e.setWidth 32

/-- The new environment, or the negative error that `env_alloc` returns. -/
def envAlloc (parentId : Word) (k : Kernel n) : Except Fault (Except ℤ EnvPtr × Kernel n) :=
  match k.envFreeList with
  | none => .ok (.error (-eNoFreeEnv), k)
  | some e => do
    match ← envSetupVm k.memory with
    | (none, memory) => return (.error (-eNoMem), { k with memory })
    | (some pgdir, memory) =>
      let env := k.envs e
      let tf := { Trapframe.zero with
        tfDs := userData
        tfEs := userData
        tfSs := userData
        tfEsp := ustacktop
        tfCs := userText
        tfEflags := flIf }
      let k := { k with memory, envFreeList := env.envLink }
      return (.ok e, k.setEnv e { env with
        envPgdir := some pgdir
        envId := nextEnvId e env.envId
        envParentId := parentId
        envStatus := .runnable
        envRuns := 0
        envTf := tf
        envPgfaultUpcall := 0
        envIpcRecving := false })

end Kernel

/-! ## Loading a program -/

/-- A program header, with the bytes of the file that it places in memory. -/
structure Proghdr where
  pType : Word
  pVa : Word
  pMemsz : Word
  bytes : List (BitVec 8)
deriving DecidableEq

structure Elf where
  eMagic : Word
  eEntry : Word
  phdrs : List Proghdr
deriving DecidableEq

def elfMagic : Word := 0x464c457f
def elfProgLoad : Word := 1

/-- The turns of the loop of `region_alloc` from the page of `va` on. -/
def regionAllocFrom (pgdir : Ppn) : Word → ℕ → Memory → Except Fault Memory
  | _, 0, m => .ok m
  | va, turns + 1, m => do
    match ← m.pageAlloc false with
    | (none, _) => throw .panic
    | (some p, m) =>
      let (r, m) ← m.pageInsert (some pgdir) p va (pteU ||| pteW)
      if r ≠ 0 then throw .panic
      regionAllocFrom pgdir (va + pgsize) turns m

def regionAlloc (pgdir : Ppn) (va len : Word) (m : Memory) : Except Fault Memory :=
  let vaLo := rounddown va
  let vaHi := roundup (va + len)
  if utop < vaHi then .error .panic
  else regionAllocFrom pgdir vaLo ((vaHi.toNat - vaLo.toNat) / pgsize.toNat) m

/-- One turn of the loop of `load_icode` over the program headers. -/
def loadSegment (pgdir : Ppn) (ph : Proghdr) (m : Memory) : Except Fault Memory := do
  if ph.pType ≠ elfProgLoad then return m
  let m ← regionAlloc pgdir ph.pVa ph.pMemsz m
  let m ← m.storeBytes pgdir ph.pVa (List.replicate ph.pMemsz.toNat 0)
  m.storeBytes pgdir ph.pVa ph.bytes

def loadSegments (pgdir : Ppn) : List Proghdr → Memory → Except Fault Memory
  | [], m => .ok m
  | ph :: phs, m => do
    let m ← loadSegment pgdir ph m
    loadSegments pgdir phs m

namespace Kernel

def loadIcode (e : EnvPtr) (binary : Elf) (k : Kernel n) : Except Fault (Kernel n) := do
  if binary.eMagic ≠ elfMagic then throw .panic
  let env := k.envs e
  match env.envPgdir with
  | none => throw .nullPointer
  | some pgdir =>
    let memory ← loadSegments pgdir binary.phdrs k.memory
    let memory ← regionAlloc pgdir (ustacktop - pgsize) pgsize memory
    return { k with memory }.setEnv e
      { env with envTf := { env.envTf with tfEip := binary.eEntry } }

def envCreate (binary : Elf) (k : Kernel n) : Except Fault (Kernel n) := do
  match ← k.envAlloc 0 with
  | (.error _, _) => throw .panic
  | (.ok e, k) =>
    let k ← k.loadIcode e binary
    return k.setEnv e { k.envs e with priority := 1 }

/-! ## Freeing an environment -/

end Kernel

/-- The loop of `env_free` over the entries of one page table, from `pteno` on. -/
def unmapTable (pgdir : Option Ppn) (pt : Ppn) (pdeno : Slot) :
    ℕ → ℕ → Memory → Except Fault Memory
  | _, 0, m => .ok m
  | pteno, turns + 1, m => do
    let slot : Slot := BitVec.ofNat 10 pteno
    let m ← if m.readPte (pt, slot) &&& pteP ≠ 0 then m.pageRemove pgdir (pgaddr pdeno slot)
      else pure m
    unmapTable pgdir pt pdeno (pteno + 1) turns m

/-- One turn of the loop of `env_free` over the page directory. -/
def unmapDirEntry (pgdir : Ppn) (pdeno : Slot) (m : Memory) : Except Fault Memory := do
  let pde := m.readPte (pgdir, pdeno)
  if pde &&& pteP = 0 then return m
  let pt ← m.kaddr pde
  let m ← unmapTable (some pgdir) pt pdeno 0 1024 m
  let m := m.writePte (pgdir, pdeno) 0
  m.pageDecref pt

/-- The loop of `env_free` over the page directory, from `pdeno` on. -/
def unmapDir (pgdir : Ppn) : ℕ → ℕ → Memory → Except Fault Memory
  | _, 0, m => .ok m
  | pdeno, turns + 1, m => do
    let m ← unmapDirEntry pgdir (BitVec.ofNat 10 pdeno) m
    unmapDir pgdir (pdeno + 1) turns m

namespace Kernel

/-- The CPU leaves the page directory of its current environment before it is freed. -/
def leavePgdir (c : Fin n) (e : EnvPtr) (k : Kernel n) : Kernel n :=
  if some e = k.curenv c then k.lcr3 c k.memory.kernPgdir else k

def envFree (c : Fin n) (e : EnvPtr) (k : Kernel n) : Except Fault (Kernel n) := do
  let k := k.leavePgdir c e
  match (k.envs e).envPgdir with
  | none => throw .nullPointer
  | some pgdir =>
    let memory ← unmapDir pgdir 0 (pdx utop).toNat k.memory
    let memory ← memory.pageDecref pgdir
    return { k with memory, envFreeList := some e }.setEnv e { k.envs e with
      envPgdir := none
      envStatus := .free
      envLink := k.envFreeList }

section LeavePgdir

variable {k : Kernel n} {c : Fin n} {e : EnvPtr}

@[simp] theorem leavePgdir_memory : (k.leavePgdir c e).memory = k.memory := by
  unfold leavePgdir
  split <;> rfl

@[simp] theorem leavePgdir_envs : (k.leavePgdir c e).envs = k.envs := by
  unfold leavePgdir
  split <;> rfl

@[simp] theorem leavePgdir_envFreeList : (k.leavePgdir c e).envFreeList = k.envFreeList := by
  unfold leavePgdir
  split <;> rfl

@[simp] theorem leavePgdir_calls : (k.leavePgdir c e).totalSchedCalls = k.totalSchedCalls := by
  unfold leavePgdir
  split <;> rfl

@[simp] theorem leavePgdir_curenv : (k.leavePgdir c e).curenv = k.curenv := by
  unfold leavePgdir
  split
  · exact lcr3_curenv
  · rfl

theorem leavePgdir_cpus : ∃ cpu, (k.leavePgdir c e).cpus = Function.update k.cpus c cpu ∧
    cpu.cpuStatus = (k.cpus c).cpuStatus ∧ cpu.cpuEnv = (k.cpus c).cpuEnv := by
  unfold leavePgdir
  split
  · exact ⟨_, rfl, rfl, rfl⟩
  · exact ⟨k.cpus c, by rw [Function.update_eq_self], rfl, rfl⟩

end LeavePgdir

end Kernel

end SistemasOperativos.Jos
