import SistemasOperativos.Jos.Machine
import SistemasOperativos.Library.Inversion

/-!
# Sections of the kernel

What a section of the kernel can do, said once: it is a sequence of actions on the table of
environments and on memory, and it ends with the CPU running an environment or halted. Every function
of the kernel is taken apart into its actions here, together with the system call that each of them
comes from, and the invariants of the later modules are checked on the actions alone.
-/

namespace SistemasOperativos.Jos

open Library

variable {n : ℕ} {s : Scheduler} {c : Fin n}

/-! ## System calls as data -/

structure Call where
  no : Sysno
  a1 : Word
  a2 : Word
  a3 : Word
  a4 : Word
  a5 : Word
deriving DecidableEq

/-- The system call that a trap frame asks for. -/
def Trapframe.call (tf : Trapframe) : Option Call :=
  let regs := tf.tfRegs
  if tf.tfTrapno = tSyscall then
    (Sysno.ofWord regs.regEax).map fun no ↦
      ⟨no, regs.regEdx, regs.regEcx, regs.regEbx, regs.regEdi, regs.regEsi⟩
  else none

/-- The ways into the kernel: on the CPU `c` the event leads to the state `k₁`, from which the kernel
works on the system call `call`, if it is one. -/
inductive Kernel.Enters (k : Kernel n) :
    Event n → Fin n → Kernel n → Option Call → Prop where
  | first {c : Fin n} (unused : (k.cpus c).cpuStatus = .unused) :
      Kernel.Enters k (.start c) c (k.start c) none
  | user {c : Fin n} {tf : Trapframe} {faultVa : Word} {inp : Input} {cur : EnvPtr}
      (mode : k.UserMode c) (current : k.curenv c = some cur)
      (alive : (k.envs cur).envStatus ≠ .dying) :
      Kernel.Enters k (.trap c tf faultVa inp) c (k.saveTf c cur tf) tf.call
  | zombie {c : Fin n} {tf : Trapframe} {faultVa : Word} {inp : Input} {cur : EnvPtr}
      (mode : k.UserMode c) (current : k.curenv c = some cur)
      (dying : (k.envs cur).envStatus = .dying) :
      Kernel.Enters k (.trap c tf faultVa inp) c (k.start c) none
  | interrupt {c : Fin n} {tf : Trapframe} {faultVa : Word} {inp : Input}
      (halted : (k.cpus c).cpuStatus = .halted) :
      Kernel.Enters k (.trap c tf faultVa inp) c (k.start c) none

/-! ## Actions -/

inductive Action where
  /-- Counters, priorities and other members that neither the CPU nor the memory of an environment
  depends on. -/
  | tune
  | frame (e : EnvPtr) (tf : Trapframe)
  | write
  | pageAlloc (e : EnvPtr) (va perm : Word)
  | pageMap (src : EnvPtr) (srcva : Word) (dst : EnvPtr) (dstva perm : Word)
  | pageUnmap (e : EnvPtr) (va : Word)
  | spawn (e : EnvPtr)
  | load (e : EnvPtr) (binary : Elf)
  /-- `sys_env_set_status`, with the environment as it was. -/
  | setStatus (old : Env) (e : EnvPtr) (status : EnvStatus)
  | dying (e : EnvPtr)
  | free (e : EnvPtr)
  | exit (e : EnvPtr)
  | deliver (src dst : EnvPtr) (value : Word)
  | await (e : EnvPtr) (dstva : Word)
  | refuse (e : EnvPtr)
  | upcall (e : EnvPtr) (func : Word)

/-- The environment of which an action writes more than `Env.core` leaves out. -/
def Action.subject : Action → Option EnvPtr
  | .frame e _ | .spawn e | .load e _ | .setStatus _ e _ | .dying e | .free e | .exit e
  | .deliver _ e _ | .await e _ | .refuse e => some e
  | .tune | .write | .pageAlloc .. | .pageMap .. | .pageUnmap .. | .upcall .. => none

/-- The members of an environment that `Action.tune` and `Action.upcall` leave alone. -/
def Env.core (env : Env) : Env :=
  { env with
    envRuns := 0
    priority := 0
    timeSlices := 0
    envPgfaultUpcall := 0
    envIpcPerm := 0 }

/-- A member that is in the core is the same where the cores are. -/
theorem Env.eq_of_core {β : Type} {env env' : Env} (f : Env → β) (hf : ∀ env, f env.core = f env)
    (h : env.core = env'.core) : f env = f env' := by
  rw [← hf env, h, hf]

/-- A priority that `sched_pr` looks for. -/
def Ranged (priority : ℤ) : Prop := 1 ≤ priority ∧ priority ≤ maxPriority

instance (p : ℤ) : Decidable (Ranged p) := inferInstanceAs (Decidable (1 ≤ p ∧ p ≤ maxPriority))

namespace Ranged

variable {priority : ℤ}

theorem one : Ranged 1 := by decide

theorem succ (h : Ranged priority) (hlow : priority < maxPriority) : Ranged (priority + 1) :=
  ⟨by have := h.1; omega, by omega⟩

theorem pred (h : Ranged priority) (hone : priority ≠ 1) : Ranged (priority - 1) := by
  obtain ⟨hmin, hmax⟩ := h
  exact ⟨by omega, by omega⟩

end Ranged

/-- Nothing changes but what `Action.tune` may change. -/
structure Kernel.Tuned (k k' : Kernel n) : Prop where
  memory : k'.memory = k.memory
  envFreeList : k'.envFreeList = k.envFreeList
  cpus : k'.cpus = k.cpus
  calls : k'.totalSchedCalls = k.totalSchedCalls
  core : ∀ e, (k'.envs e).core = (k.envs e).core
  upcall : ∀ e, (k'.envs e).envPgfaultUpcall = (k.envs e).envPgfaultUpcall
  ranged : ∀ e, Ranged (k.envs e).priority → Ranged (k'.envs e).priority

namespace Kernel.Tuned

variable {k k' k'' : Kernel n}

theorem refl (k : Kernel n) : k.Tuned k := ⟨rfl, rfl, rfl, rfl, fun _ ↦ rfl, fun _ ↦ rfl, fun _ ↦ id⟩

theorem trans (h : k.Tuned k') (h' : k'.Tuned k'') : k.Tuned k'' where
  memory := h'.memory.trans h.memory
  envFreeList := h'.envFreeList.trans h.envFreeList
  cpus := h'.cpus.trans h.cpus
  calls := h'.calls.trans h.calls
  core e := (h'.core e).trans (h.core e)
  upcall e := (h'.upcall e).trans (h.upcall e)
  ranged e he := h'.ranged e (h.ranged e he)

theorem setEnv {e : EnvPtr} {env : Env} (h : env.core = (k.envs e).core)
    (hupcall : env.envPgfaultUpcall = (k.envs e).envPgfaultUpcall)
    (hranged : Ranged (k.envs e).priority → Ranged env.priority) : k.Tuned (k.setEnv e env) where
  memory := rfl
  envFreeList := rfl
  cpus := rfl
  calls := rfl
  core e' := by
    rw [setEnv_envs]
    split
    · rename_i he
      rw [h, he]
    · rfl
  upcall e' := by
    rw [setEnv_envs]
    split
    · rename_i he
      rw [hupcall, he]
    · rfl
  ranged e' he' := by
    rw [setEnv_envs]
    split
    · rename_i he
      exact hranged (he ▸ he')
    · exact he'

end Kernel.Tuned

namespace Memory

/-- Writes of single bytes below `UTOP`. -/
inductive Writes (cr3 : Ppn) (need : Word) : Memory → Memory → Prop where
  | nil (m : Memory) : Writes cr3 need m m
  | cons {m m' m'' : Memory} {va : Word} {b : BitVec 8} :
      va < utop → m.storeByte cr3 need va b = .ok m' → Writes cr3 need m' m'' →
        Writes cr3 need m m''

theorem Writes.trans {cr3 : Ppn} {need : Word} {m m' m'' : Memory} (h : Writes cr3 need m m')
    (h' : Writes cr3 need m' m'') : Writes cr3 need m m'' := by
  induction h with
  | nil => exact h'
  | cons hva hstore _ ih => exact .cons hva hstore (ih h')

end Memory

/-- Where the priority of a new environment comes from: `env_create` sets it, and `sys_exofork` asks for
the one of the parent, when the new environment is already in its slot. -/
inductive Origin (c : Fin n) (k k' : Kernel n) (e : EnvPtr) (env : Env) : Word → Prop where
  | create (first : env.priority = 1) : Origin c k k' e env 0
  | fork {cur : EnvPtr} (current : k.curenv c = some cur)
      (inherit : (k'.setEnv e { k'.envs e with
          envStatus := env.envStatus, envTf := env.envTf }).sysGetPriority c (k.envs cur).envId =
        .ok env.priority) :
      Origin c k k' e env (k.envs cur).envId

/-- The actions of the CPU `c` with what each of them does to the kernel. -/
inductive Effect (c : Fin n) : Kernel n → Action → Kernel n → Prop where
  | tune {k k' : Kernel n} (tuned : k.Tuned k') : Effect c k .tune k'
  | frame {k : Kernel n} {e : EnvPtr} (tf : Trapframe) (current : k.curenv c = some e) :
      Effect c k (.frame e tf) (k.setTf (some e) tf)
  | write {k : Kernel n} {memory : Memory}
      (writes : k.memory.Writes (k.cpus c).cr3 Memory.kernelWrite memory) :
      Effect c k .write { k with memory }
  | pageAlloc {k k' : Kernel n} {e : EnvPtr} {va perm : Word} {r : ℤ}
      (call : k.envPageAlloc e va perm = .ok (r, k')) : Effect c k (.pageAlloc e va perm) k'
  | pageMap {k k' : Kernel n} {src dst : EnvPtr} {srcva dstva perm : Word} {r : ℤ}
      (call : k.envPageMap src srcva dst dstva perm = .ok (r, k')) :
      Effect c k (.pageMap src srcva dst dstva perm) k'
  | pageUnmap {k : Kernel n} {e : EnvPtr} {va : Word} {memory : Memory}
      (call : k.memory.pageRemove (k.envs e).envPgdir va = .ok memory) :
      Effect c k (.pageUnmap e va) { k with memory }
  | spawn {k k' : Kernel n} {e : EnvPtr} {parent : Word} {env : Env}
      (alloc : k.envAlloc parent = .ok (.ok e, k'))
      (status : env.envStatus = .runnable ∨ env.envStatus = .notRunnable)
      (same : env.core = { k'.envs e with
        envStatus := env.envStatus, envTf := env.envTf }.core)
      (origin : Origin c k k' e env parent) :
      Effect c k (.spawn e) (k'.setEnv e env)
  | load {k k' : Kernel n} {e : EnvPtr} {binary : Elf}
      (fresh : (k.envs e).envIpcRecving = false) (call : k.loadIcode e binary = .ok k') :
      Effect c k (.load e binary) k'
  | setStatus {k : Kernel n} {old : Env} {e : EnvPtr} {status : EnvStatus}
      (was : old = k.envs e) (known : k.curenv c = some e ∨ (k.envs e).envStatus ≠ .free)
      (settable : status = .runnable ∨ status = .notRunnable) :
      Effect c k (.setStatus old e status) (k.setEnv e { k.envs e with envStatus := status })
  | dying {k : Kernel n} {e : EnvPtr} (running : (k.envs e).envStatus = .running)
      (other : k.curenv c ≠ some e) :
      Effect c k (.dying e) (k.setEnv e { k.envs e with envStatus := .dying })
  | free {k k' : Kernel n} {e : EnvPtr} (other : k.curenv c ≠ some e)
      (call : k.envFree c e = .ok k') : Effect c k (.free e) k'
  | exit {k k₁ : Kernel n} {e : EnvPtr} (current : k.curenv c = some e)
      (call : k.envFree c e = .ok k₁) : Effect c k (.exit e) (k₁.setCurenv c none)
  | deliver {k : Kernel n} {src dst : EnvPtr} {value : Word} (current : k.curenv c = some src)
      (known : k.curenv c = some dst ∨ (k.envs dst).envStatus ≠ .free)
      (recving : (k.envs dst).envIpcRecving = true) :
      Effect c k (.deliver src dst value) (k.ipcDeliver src dst value)
  | await {k : Kernel n} {e : EnvPtr} {dstva : Word} (current : k.curenv c = some e) :
      Effect c k (.await e dstva) (k.setEnv e { k.envs e with
        envIpcRecving := true, envIpcDstva := dstva, envStatus := .notRunnable })
  | refuse {k : Kernel n} {e : EnvPtr} (current : k.curenv c = some e) :
      Effect c k (.refuse e) (k.setEnv e { k.envs e with envIpcRecving := true })
  | upcall {k : Kernel n} {e : EnvPtr} {func : Word} :
      Effect c k (.upcall e func) (k.setEnv e { k.envs e with envPgfaultUpcall := func })

/-- The two ways out of the kernel: the CPU goes on with its environment, which is running if it was
so (`mode`) when the kernel was entered, or it asks the scheduler. -/
inductive Exit (s : Scheduler) (mode : Prop) (c : Fin n) (k : Kernel n) :
    Option EnvPtr → Kernel n → Prop where
  | resume {e : EnvPtr} (current : k.curenv c = some e)
      (running : mode → (k.envs e).envStatus = .running) :
      Exit s mode c k (some e) (k.envRun c e)
  | yield {k' : Kernel n} (call : k.schedYield s c = .ok k') : Exit s mode c k (k.select s c) k'

/-- How the CPU goes on after the kernel: with an environment that nobody else runs, or halted. -/
inductive Leave (c : Fin n) (k : Kernel n) : Option EnvPtr → Kernel n → Prop where
  | run {e : EnvPtr}
      (ready : (k.envs e).envStatus = .runnable ∨
        k.curenv c = some e ∧ (k.envs e).envStatus = .running) :
      Leave c k (some e) (k.envRun c e)
  | halt {k' : Kernel n} (call : k.schedHalt c = .ok k') : Leave c k none k'

/-- The actions that a section may take, where its system call, if any, is made in the state `k`. -/
def Permitted (k : Kernel n) (c : Fin n) (call : Option Call) : Action → Prop
  | .tune | .frame .. | .write => True
  | .load .. | .exit _ => False
  | .spawn _ => ∃ a ∈ call, a.no = .exofork
  | .pageAlloc e va _ => ∃ a ∈ call,
      (a.no = .pageAlloc ∧ k.envid2env c a.a1 true = .ok (some e) ∧ va = a.a2 ∧ badVa va = false) ∨
      (a.no = .ipcTrySend ∧ k.envid2env c a.a1 false = .ok (some e) ∧
        (k.envs e).envIpcRecving = true ∧ va = (k.envs e).envIpcDstva)
  | .pageMap src srcva dst dstva perm => ∃ a ∈ call, srcva < utop ∧ srcva % pgsize = 0 ∧
      ((a.no = .pageMap ∧ k.envid2env c a.a1 true = .ok (some src) ∧ srcva = a.a2 ∧
        k.envid2env c a.a3 true = .ok (some dst) ∧ dstva = a.a4 ∧ badVa dstva = false ∧
        perm = pteP ||| pteU ||| a.a5) ∨
      (a.no = .ipcTrySend ∧ k.curenv c = some src ∧ srcva = a.a3 ∧
        k.envid2env c a.a1 false = .ok (some dst) ∧ (k.envs dst).envIpcRecving = true ∧
        dstva = (k.envs dst).envIpcDstva ∧ checkPerm perm none = 0))
  | .pageUnmap e va => ∃ a ∈ call, a.no = .pageUnmap ∧
      k.envid2env c a.a1 true = .ok (some e) ∧ va = a.a2 ∧ badVa va = false
  | .setStatus old e status => ∃ a ∈ call, a.no = .envSetStatus ∧
      Kernel.settable a.a2 = some status ∧ k.envid2env c a.a1 true = .ok (some e) ∧ old = k.envs e
  | .dying e => ∃ a ∈ call, k.envid2env c a.a1 true = .ok (some e)
  | .free e => ∃ a ∈ call, k.envid2env c a.a1 true = .ok (some e) ∧
      (k.envs e).envStatus ≠ .running ∧
      (a.no = .envDestroy ∨ a.no = .envSetPgfaultUpcall ∧
        ∃ r < 0, k.memory.userMemCheck (k.envs e).envPgdir a.a2 pgsize (pteP ||| pteU) = .ok r)
  | .deliver src dst value => ∃ a ∈ call, a.no = .ipcTrySend ∧ k.curenv c = some src ∧
      k.envid2env c a.a1 false = .ok (some dst) ∧ (k.envs dst).envIpcRecving = true ∧ value = a.a2
  | .await e dstva => ∃ a ∈ call, a.no = .ipcRecv ∧ k.curenv c = some e ∧ dstva = a.a1 ∧
      badVa dstva = false
  | .refuse e => ∃ a ∈ call, a.no = .ipcRecv ∧ k.curenv c = some e ∧ badVa a.a1 = true
  | .upcall e func => ∃ a ∈ call, a.no = .envSetPgfaultUpcall ∧
      k.envid2env c a.a1 true = .ok (some e) ∧ func = a.a2

/-- The environment of the CPU may be destroyed, instead of any action before the kernel is left. -/
inductive Loses (c : Fin n) (k : Kernel n) : List Action → Kernel n → Prop where
  | keeps {acts : List Action} : Loses c k acts k
  | exit {e : EnvPtr} {k' : Kernel n} (effect : Effect c k (.exit e) k') : Loses c k [] k'

/-- A sequence of actions that all meet `P`. -/
abbrev Actions (c : Fin n) (P : Action → Prop) : Kernel n → List Action → Kernel n → Prop :=
  Run fun k a k' ↦ Effect c k a k' ∧ P a

/-- A function of the kernel that is called in the state `k` takes the actions `acts`. Where it
returns, the CPU still has the same environment; otherwise it goes on with the environment `next`,
or halts. -/
inductive Ends {α : Type} (s : Scheduler) (mode : Prop) (c : Fin n) (P : Action → Prop)
    (k : Kernel n) : List Action → Option EnvPtr → Control α × Kernel n → Prop where
  | returns {acts : List Action} {next : Option EnvPtr} {a : α} {k' : Kernel n}
      (run : Actions c P k acts k') (stays : k'.curenv c = k.curenv c) :
      Ends s mode c P k acts next (.returns a, k')
  | leaves {acts : List Action} {next : Option EnvPtr} {k₁ k₂ k' : Kernel n}
      (run : Actions c P k acts k₁) (loses : Loses c k₁ acts k₂) (exit : Exit s mode c k₂ next k') :
      Ends s mode c P k acts next (.leaves, k')

/-- The actions of `env_create`. -/
def Boots : Action → Prop
  | .tune | .spawn _ | .load .. => True
  | _ => False

/-- The environment that a CPU runs in user mode is running or a zombie. -/
def Kernel.Proper (k : Kernel n) (c : Fin n) : Prop :=
  ∀ e, k.curenv c = some e → (k.envs e).envStatus = .running ∨ (k.envs e).envStatus = .dying

/-- A step of the machine, with its actions and the environment that the CPU runs afterwards. -/
inductive Kernel.Section (s : Scheduler) (k : Kernel n) :
    Event n → List Action → Option EnvPtr → Kernel n → Prop where
  | create {c : Fin n} {binary : Elf} {acts : List Action} {k' : Kernel n}
      (boot : ∀ c, (k.cpus c).cpuStatus = .unused) (linked : binary.Linked)
      (run : Actions c Boots k acts k') :
      Kernel.Section s k (.create c binary) acts none k'
  | inside {ev : Event n} {c : Fin n} {call : Option Call} {acts : List Action}
      {next : Option EnvPtr} {k₁ k₂ k₃ k' : Kernel n} (enters : k.Enters ev c k₁ call)
      (run : Actions c (Permitted k₁ c call) k₁ acts k₂) (loses : Loses c k₂ acts k₃)
      (exit : Exit s (k.Proper c) c k₃ next k') :
      Kernel.Section s k ev acts next k'
  | store {c : Fin n} {va : Word} {b : BitVec 8} {memory : Memory} (mode : k.UserMode c)
      (write : k.memory.storeByte (k.cpus c).cr3 Memory.userWrite va b = .ok memory) :
      Kernel.Section s k (.store c va b) [] none { k with memory }

end SistemasOperativos.Jos
