import SistemasOperativos.Jos.Sched

/-!
# System calls

The functions of `kern/syscall.c`. Every one of them runs on a CPU `c` for its current environment.
What it returns is an `int`, which the dispatcher puts into the register `eax` of the caller.
-/

namespace SistemasOperativos.Jos

variable {n : ℕ}

/-- What a system call reads from outside the state: the next character of the console, and what an
uninitialised pointer on the stack of the kernel leads to, where it can be read at all. -/
structure Input where
  getc : Word
  stale : Option Word
deriving DecidableEq

/-- The numbers of the system calls. -/
inductive Sysno where
  | cputs
  | cgetc
  | getenvid
  | envDestroy
  | pageAlloc
  | pageMap
  | pageUnmap
  | exofork
  | envSetStatus
  | envSetPgfaultUpcall
  | yield
  | ipcTrySend
  | ipcRecv
  | incPriority
  | redPriority
  | getPriority
deriving DecidableEq

def Sysno.ofWord (w : Word) : Option Sysno :=
  match w.toNat with
  | 0 => some .cputs
  | 1 => some .cgetc
  | 2 => some .getenvid
  | 3 => some .envDestroy
  | 4 => some .pageAlloc
  | 5 => some .pageMap
  | 6 => some .pageUnmap
  | 7 => some .exofork
  | 8 => some .envSetStatus
  | 9 => some .envSetPgfaultUpcall
  | 10 => some .yield
  | 11 => some .ipcTrySend
  | 12 => some .ipcRecv
  | 13 => some .incPriority
  | 14 => some .redPriority
  | 15 => some .getPriority
  | _ => none

def maxPrio : ℤ := 10

def checkPerm (perm : Word) (pte : Option Word) : ℤ :=
  if perm &&& ~~~pteSyscall ≠ 0 then -eInval
  else if perm &&& pteP = 0 ∨ perm &&& pteU = 0 then -eInval
  else match pte with
    | none => 0
    | some pte =>
      if pte ≠ 0 ∧ pte &&& pteP = 0 then -eInval
      else if perm &&& pteW ≠ 0 ∧ pte &&& pteW = 0 then -eInval
      else 0

/-- The two tests of an address that the page system calls make. -/
def badVa (va : Word) : Bool := utop ≤ va || va % pgsize ≠ 0

namespace Kernel

def envPageAlloc (e : EnvPtr) (va perm : Word) (k : Kernel n) : Except Fault (ℤ × Kernel n) := do
  let err := checkPerm perm none
  if err < 0 then return (err, k)
  match ← k.memory.pageAlloc true with
  | (none, memory) => return (-eNoMem, { k with memory })
  | (some p, memory) =>
    let (r, memory) ← memory.pageInsert (k.envs e).envPgdir p va perm
    return (r, { k with memory })

def envPageMap (srcenv : EnvPtr) (srcva : Word) (dstenv : EnvPtr) (dstva perm : Word)
    (k : Kernel n) : Except Fault (ℤ × Kernel n) := do
  match ← k.memory.pageLookup (k.envs srcenv).envPgdir srcva with
  | none => return (-eInval, k)
  | some (page, srcpte) =>
    if perm &&& pteW &&& ~~~(pteW &&& k.memory.readPte srcpte) ≠ 0 then return (-eInval, k)
    let (r, memory) ← k.memory.pageInsert (k.envs dstenv).envPgdir page dstva perm
    return (r, { k with memory })

def sysCputs (s : Scheduler) (c : Fin n) (va len : Word) (k : Kernel n) :
    Except Fault (Control ℤ × Kernel n) := do
  let cur ← k.theCurenv c
  match ← k.userMemAssert s c cur va len (pteP ||| pteW ||| pteU) with
  | (.leaves, k) => return (.leaves, k)
  | (.returns (), k) => return (.returns 0, k)

def sysGetenvid (c : Fin n) (k : Kernel n) : Except Fault ℤ := do
  let cur ← k.theCurenv c
  return (k.envs cur).envId.toInt

def sysEnvDestroy (s : Scheduler) (c : Fin n) (envid : Word) (k : Kernel n) :
    Except Fault (Control ℤ × Kernel n) := do
  match ← k.envid2env c envid true with
  | none => return (.returns (-eBadEnv), k)
  | some e =>
    match ← k.envDestroy s c e with
    | (.leaves, k) => return (.leaves, k)
    | (.returns (), k) => return (.returns 0, k)

def sysGetPriority (c : Fin n) (envid : Word) (k : Kernel n) : Except Fault ℤ := do
  match ← k.envid2env c envid false with
  | none => return -1
  | some e => return (k.envs e).priority

def sysExofork (c : Fin n) (k : Kernel n) : Except Fault (ℤ × Kernel n) := do
  let cur ← k.theCurenv c
  match ← k.envAlloc (k.envs cur).envId with
  | (.error r, k) => return (r, k)
  | (.ok e, k) =>
    let tf := (k.envs cur).envTf
    let k := k.setEnv e { k.envs e with
      envStatus := .notRunnable
      envTf := { tf with tfRegs := { tf.tfRegs with regEax := 0 } } }
    let priority ← k.sysGetPriority c (k.envs e).envParentId
    let k := k.setEnv e { k.envs e with priority, timeSlices := 0 }
    return ((k.envs e).envId.toInt, k)

/-- The value of `ENV_RUNNABLE` and the one of `ENV_NOT_RUNNABLE`, for a status that user code may
set. -/
def settable (status : Word) : Option EnvStatus :=
  if status = 2 then some .runnable else if status = 4 then some .notRunnable else none

def sysEnvSetStatus (c : Fin n) (envid status : Word) (k : Kernel n) :
    Except Fault (ℤ × Kernel n) :=
  match settable status with
  | none => .ok (-eInval, k)
  | some status => do
    match ← k.envid2env c envid true with
    | none => return (-eBadEnv, k)
    | some e => return (0, k.setEnv e { k.envs e with envStatus := status })

def sysEnvSetPgfaultUpcall (s : Scheduler) (c : Fin n) (envid func : Word) (k : Kernel n) :
    Except Fault (Control ℤ × Kernel n) := do
  match ← k.envid2env c envid true with
  | none => return (.returns (-eBadEnv), k)
  | some e =>
    match ← k.userMemAssert s c e func pgsize (pteP ||| pteU) with
    | (.leaves, k) => return (.leaves, k)
    | (.returns (), k) =>
      return (.returns 0, k.setEnv e { k.envs e with envPgfaultUpcall := func })

def sysPageAlloc (c : Fin n) (envid va perm : Word) (k : Kernel n) :
    Except Fault (ℤ × Kernel n) := do
  if badVa va then return (-eInval, k)
  match ← k.envid2env c envid true with
  | none => return (-eBadEnv, k)
  | some e => k.envPageAlloc e va (perm ||| pteU ||| pteP)

/-- Unlike `sys_page_alloc`, it checks no bit of `perm`. -/
def sysPageMap (c : Fin n) (srcenvid srcva dstenvid dstva perm : Word) (k : Kernel n) :
    Except Fault (ℤ × Kernel n) := do
  if badVa srcva then return (-eInval, k)
  if badVa dstva then return (-eInval, k)
  match ← k.envid2env c srcenvid true with
  | none => return (-eBadEnv, k)
  | some srcenv =>
    match ← k.envid2env c dstenvid true with
    | none => return (-eBadEnv, k)
    | some dstenv => k.envPageMap srcenv srcva dstenv dstva (pteP ||| pteU ||| perm)

def sysPageUnmap (c : Fin n) (envid va : Word) (k : Kernel n) : Except Fault (ℤ × Kernel n) := do
  if badVa va then return (-eInval, k)
  match ← k.envid2env c envid true with
  | none => return (-eBadEnv, k)
  | some e =>
    let memory ← k.memory.pageRemove (k.envs e).envPgdir va
    return (0, { k with memory })

/-- What `*srcpte` is after the lookup of `sys_ipc_try_send`: the pointer stays uninitialised where
nothing is mapped at `srcva`. -/
def ipcSrcpte (inp : Input) (cur : EnvPtr) (srcva : Word) (k : Kernel n) : Except Fault Word := do
  match ← k.memory.pageLookup (k.envs cur).envPgdir srcva with
  | some (_, pte) => return k.memory.readPte pte
  | none =>
    match inp.stale with
    | some w => return w
    | none => throw .panic

/-- The label `bail` of `sys_ipc_try_send`: the message is delivered. -/
def ipcDeliver (cur dst : EnvPtr) (value : Word) (k : Kernel n) : Kernel n :=
  let env := k.envs dst
  k.setEnv dst { env with
    envIpcFrom := (k.envs cur).envId
    envIpcRecving := false
    envIpcValue := value
    envTf := { env.envTf with tfRegs := { env.envTf.tfRegs with regEax := 0 } }
    envStatus := .runnable }

/-- The part of `sys_ipc_try_send` for a page, with the error that it returns, if any. A fresh page
is mapped at the receiver first, and then replaced by the page of the sender. -/
def ipcSendPage (inp : Input) (cur dst : EnvPtr) (srcva perm : Word) (k : Kernel n) :
    Except Fault (ℤ × Kernel n) := do
  if srcva % pgsize ≠ 0 then return (-eInval, k)
  let srcpte ← k.ipcSrcpte inp cur srcva
  if srcpte ≠ 0 ∧ srcpte &&& pteP = 0 then return (-eInval, k)
  if perm &&& pteW ≠ 0 ∧ srcpte &&& pteW = 0 then return (-eInval, k)
  let perm := perm ||| pteU ||| pteP
  let dstva := (k.envs dst).envIpcDstva
  if dstva = 0 then return (0, k)
  let (r, k) ← k.envPageAlloc dst dstva perm
  if r < 0 then return (r, k)
  let (r, k) ← k.envPageMap cur srcva dst dstva perm
  if r < 0 then return (r, k)
  return (0, k.setEnv dst { k.envs dst with envIpcPerm := perm })

def sysIpcTrySend (c : Fin n) (inp : Input) (envid value srcva perm : Word) (k : Kernel n) :
    Except Fault (ℤ × Kernel n) := do
  match ← k.envid2env c envid false with
  | none => return (-eBadEnv, k)
  | some dst =>
    if (k.envs dst).envIpcRecving = false then return (-eIpcNotRecv, k)
    let cur ← k.theCurenv c
    if utop ≤ srcva then
      let k := k.setEnv dst { k.envs dst with envIpcPerm := 0 }
      return (0, k.ipcDeliver cur dst value)
    let (r, k) ← k.ipcSendPage inp cur dst srcva perm
    if r < 0 then return (r, k)
    return (0, k.ipcDeliver cur dst value)

/-- It only returns where `dstva` is refused, and then the flag `env_ipc_recving` stays set. -/
def sysIpcRecv (s : Scheduler) (c : Fin n) (dstva : Word) (k : Kernel n) :
    Except Fault (Control ℤ × Kernel n) := do
  let cur ← k.theCurenv c
  let k := k.setEnv cur { k.envs cur with envIpcRecving := true }
  if badVa dstva then return (.returns (-eInval), k)
  let k := k.setEnv cur { k.envs cur with envIpcDstva := dstva, envStatus := .notRunnable }
  return (.leaves, ← k.schedYield s c)

def sysIncPriority (c : Fin n) (envid : Word) (k : Kernel n) : Except Fault (ℤ × Kernel n) := do
  match ← k.envid2env c envid false with
  | none => return (-1, k)
  | some e =>
    let cur ← k.theCurenv c
    let env := k.envs e
    if e = cur ∨ env.envParentId = (k.envs cur).envId then return (-1, k)
    if env.priority ≠ 1 then return (0, k.setEnv e { env with priority := env.priority - 1 })
    return (0, k)

def sysRedPriority (c : Fin n) (envid : Word) (k : Kernel n) : Except Fault (ℤ × Kernel n) := do
  match ← k.envid2env c envid false with
  | none => return (-1, k)
  | some e =>
    let env := k.envs e
    if env.priority < maxPrio then return (0, k.setEnv e { env with priority := env.priority + 1 })
    return (0, k)

/-- A system call that always returns. -/
def returning (r : Except Fault (ℤ × Kernel n)) : Except Fault (Control ℤ × Kernel n) := do
  let (r, k) ← r
  return (.returns r, k)

/-- The dispatcher. The case of `SYS_yield` does not return. -/
def syscall (s : Scheduler) (c : Fin n) (inp : Input) (syscallno a1 a2 a3 a4 a5 : Word)
    (k : Kernel n) : Except Fault (Control ℤ × Kernel n) :=
  match Sysno.ofWord syscallno with
  | some .cputs => k.sysCputs s c a1 a2
  | some .cgetc => .ok (.returns inp.getc.toInt, k)
  | some .getenvid => returning ((·, k) <$> k.sysGetenvid c)
  | some .envDestroy => k.sysEnvDestroy s c a1
  | some .pageAlloc => returning (k.sysPageAlloc c a1 a2 a3)
  | some .pageMap => returning (k.sysPageMap c a1 a2 a3 a4 a5)
  | some .pageUnmap => returning (k.sysPageUnmap c a1 a2)
  | some .exofork => returning (k.sysExofork c)
  | some .envSetStatus => returning (k.sysEnvSetStatus c a1 a2)
  | some .envSetPgfaultUpcall => k.sysEnvSetPgfaultUpcall s c a1 a2
  | some .yield => (Control.leaves, ·) <$> k.schedYield s c
  | some .ipcTrySend => returning (k.sysIpcTrySend c inp a1 a2 a3 a4)
  | some .ipcRecv => k.sysIpcRecv s c a1
  | some .incPriority => returning (k.sysIncPriority c a1)
  | some .redPriority => returning (k.sysRedPriority c a1)
  | some .getPriority => returning ((·, k) <$> k.sysGetPriority c a1)
  | none => .ok (.returns (-eInval), k)

end Kernel

end SistemasOperativos.Jos
