import SistemasOperativos.Jos.Syscall

/-!
# Traps

The functions of `kern/trap.c`. A trap is a whole section of the kernel: it starts when the CPU
enters with the big kernel lock taken, and it ends where the CPU goes back to user mode or halts.
-/

namespace SistemasOperativos.Jos

variable {n : ℕ}

def tBrkpt : Word := 3
def tPgflt : Word := 14
def tSyscall : Word := 48
def irqOffset : Word := 32
def irqTimer : Word := 0
def irqSpurious : Word := 7

/-- The selector of the text segment of the kernel. -/
def gdKt : BitVec 16 := 0x08

/-- The frame that the kernel pushes on the exception stack of a program. -/
structure UTrapframe where
  utfFaultVa : Word
  utfErr : Word
  utfRegs : PushRegs
  utfEip : Word
  utfEflags : Word
  utfEsp : Word
deriving DecidableEq

/-- `sizeof(struct UTrapframe)`. -/
def utfSize : Word := 52

def PushRegs.words (r : PushRegs) : List Word :=
  [r.regEdi, r.regEsi, r.regEbp, r.regOesp, r.regEbx, r.regEdx, r.regEcx, r.regEax]

/-- The frame as it lies in memory. -/
def UTrapframe.bytes (utf : UTrapframe) : List (BitVec 8) :=
  ([utf.utfFaultVa, utf.utfErr] ++ utf.utfRegs.words ++
    [utf.utfEip, utf.utfEflags, utf.utfEsp]).flatMap wordBytes

def exstk : Word := uxstacktop - pgsize
def exstkTop : Word := uxstacktop - 1

/-- Where the frame goes, for the stack pointer of the program that faults. -/
def utfAddress (esp : Word) : Word :=
  if esp < exstk ∨ exstkTop < esp then exstkTop - utfSize else esp - 4 - utfSize

/-- What the kernel writes at the exception stack: in the recursive case a word of scratch space,
and then the frame. -/
def pushUtf (cr3 : Ppn) (utf : UTrapframe) (m : Memory) : Except Fault Memory := do
  let esp := utf.utfEsp
  let m ← if esp < exstk ∨ exstkTop < esp then pure m else m.storeBytes cr3 (esp - 4) (wordBytes 0)
  m.storeBytes cr3 (utfAddress esp) utf.bytes

namespace Kernel

/-- Writes the trap frame that the handler works on: the one of the environment `at`, or, where there
is none, the one on the stack of the kernel, which is ignored afterwards. -/
def setTf (frame : Option EnvPtr) (tf : Trapframe) (k : Kernel n) : Kernel n :=
  match frame with
  | some e => k.setEnv e { k.envs e with envTf := tf }
  | none => k

/-- The value that a system call returns goes into the frame. -/
def setEax (frame : Option EnvPtr) (r : ℤ) (k : Kernel n) : Kernel n :=
  match frame with
  | some e =>
    let tf := (k.envs e).envTf
    k.setTf frame { tf with tfRegs := { tf.tfRegs with regEax := .ofInt 32 r } }
  | none => k

def pageFaultHandler (s : Scheduler) (c : Fin n) (frame : Option EnvPtr) (tf : Trapframe)
    (faultVa : Word) (k : Kernel n) : Except Fault (Control Unit × Kernel n) := do
  if tf.tfCs &&& 3 = 0 then throw .panic
  let cur ← k.theCurenv c
  let upcall := (k.envs cur).envPgfaultUpcall
  if upcall = 0 then return ← k.envDestroy s c cur
  match ← k.userMemAssert s c cur exstk pgsize (pteU ||| pteW) with
  | (.leaves, k) => return (.leaves, k)
  | (.returns (), k) =>
    let utf : UTrapframe := {
      utfFaultVa := faultVa
      utfErr := tf.tfErr
      utfRegs := tf.tfRegs
      utfEip := tf.tfEip
      utfEflags := tf.tfEflags
      utfEsp := tf.tfEsp }
    let memory ← pushUtf (k.cpus c).cr3 utf k.memory
    let tmp := utfAddress utf.utfEsp
    if tmp < exstk ∨ exstkTop < tmp then throw .panic
    let k := { k with memory }.setTf frame { tf with tfEsp := tmp, tfEip := upcall }
    return (.leaves, k.envRun c cur)

/-- Where it returns, `trap` goes on. -/
def trapDispatch (s : Scheduler) (c : Fin n) (frame : Option EnvPtr) (tf : Trapframe)
    (faultVa : Word) (inp : Input) (k : Kernel n) : Except Fault (Control Unit × Kernel n) := do
  if tf.tfTrapno = tBrkpt then return (.returns (), k)
  if tf.tfTrapno = tPgflt then return ← k.pageFaultHandler s c frame tf faultVa
  if tf.tfTrapno = tSyscall then
    let regs := tf.tfRegs
    match ← k.syscall s c inp regs.regEax regs.regEdx regs.regEcx regs.regEbx regs.regEdi
      regs.regEsi with
    | (.leaves, k) => return (.leaves, k)
    | (.returns r, k) => return (.returns (), k.setEax frame r)
  if tf.tfTrapno = irqOffset + irqSpurious then return (.returns (), k)
  if tf.tfTrapno = irqOffset + irqTimer then
    return (.leaves, ← (k.updatePriority c).schedYield s c)
  if tf.tfCs = gdKt then throw .panic
  let cur ← k.theCurenv c
  k.envDestroy s c cur

/-- The end of `trap`, after `trap_dispatch`. -/
def trapReturn (s : Scheduler) (c : Fin n) :
    Control Unit × Kernel n → Except Fault (Kernel n)
  | (.leaves, k) => .ok k
  | (.returns (), k) =>
    match k.curenv c with
    | none => k.schedYield s c
    | some cur =>
      if (k.envs cur).envStatus = .running then .ok (k.envRun c cur) else k.schedYield s c

/-- `cpu_status = CPU_STARTED` on the CPU `c`. -/
def start (c : Fin n) (k : Kernel n) : Kernel n :=
  k.setCpu c { k.cpus c with cpuStatus := .started }

/-- The state in which a trap from user mode is handled: the frame is saved in `curenv`. -/
def saveTf (c : Fin n) (cur : EnvPtr) (tf : Trapframe) (k : Kernel n) : Kernel n :=
  (k.start c).setTf (some cur) tf

def trap (s : Scheduler) (c : Fin n) (tf : Trapframe) (faultVa : Word) (inp : Input)
    (k : Kernel n) : Except Fault (Kernel n) := do
  if tf.tfCs &&& 3 = 3 then
    match k.curenv c with
    | none => throw .panic
    | some cur =>
      if (k.envs cur).envStatus = .dying then
        let k ← (k.start c).envFree c cur
        (k.setCurenv c none).schedYield s c
      else
        (k.saveTf c cur tf).trapDispatch s c (some cur) tf faultVa inp >>= trapReturn s c
  else (k.start c).trapDispatch s c none tf faultVa inp >>= trapReturn s c

end Kernel

end SistemasOperativos.Jos
