import SistemasOperativos.Jos.EnvTable

/-!
# Scheduling

The two schedulers of `kern/sched.c`, and the functions of `kern/env.c` and `kern/pmap.c` that may
give up the CPU. A function that never returns to its caller leaves the kernel: its value is the
state in which the CPU goes on, in user mode or halted.
-/

namespace SistemasOperativos.Jos

variable {n : ℕ}

/-- The scheduler chosen when the kernel is compiled: `SCHED_RR` or `SCHED_PR`. -/
inductive Scheduler where
  | rr
  | pr
deriving DecidableEq

def maxPriority : ℤ := 10
def maxTimeslicesBoost : ℤ := 1000
def maxEnvTimeSlices : ℤ := 3

namespace Kernel

/-- The first step of `env_run`: the current environment gives up the CPU. -/
def park (c : Fin n) (k : Kernel n) : Kernel n :=
  match k.curenv c with
  | some cur =>
    if (k.envs cur).envStatus = .running then
      k.setEnv cur { k.envs cur with envStatus := .runnable }
    else k
  | none => k

/-- The CPU is in user mode afterwards. -/
def envRun (c : Fin n) (e : EnvPtr) (k : Kernel n) : Kernel n :=
  let k := (k.park c).setCurenv c (some e)
  let env := k.envs e
  let k := k.setEnv e
    { env with envStatus := .running, envRuns := env.envRuns + 1, envCpunum := c }
  match env.envPgdir with
  | some pgdir => k.lcr3 c pgdir
  | none => k

section EnvRun

variable {k : Kernel n} {c c' : Fin n} {e e' : EnvPtr}

theorem park_of_ne (h : k.curenv c ≠ some e) : (k.park c).envs e = k.envs e := by
  unfold park
  split
  · rename_i cur hcur
    have hne : e ≠ cur := by
      rintro rfl
      exact h hcur
    split
    · exact setEnv_of_ne hne
    · rfl
  · rfl

/-- Giving up the CPU only changes the status. -/
theorem park_envs (e : EnvPtr) :
    ∃ status, (k.park c).envs e = { k.envs e with envStatus := status } ∧
      (status = (k.envs e).envStatus ∨
        status = .runnable ∧ (k.envs e).envStatus = .running) := by
  unfold park
  split
  · rename_i cur hcur
    split
    · rename_i hrunning
      rw [setEnv_envs]
      split
      · rename_i heq
        subst heq
        exact ⟨.runnable, rfl, Or.inr ⟨rfl, hrunning⟩⟩
      · exact ⟨_, rfl, Or.inl rfl⟩
    · exact ⟨_, rfl, Or.inl rfl⟩
  · exact ⟨_, rfl, Or.inl rfl⟩

@[simp] theorem park_memory : (k.park c).memory = k.memory := by
  unfold park
  split
  · split <;> rfl
  · rfl

@[simp] theorem park_cpus : (k.park c).cpus = k.cpus := by
  unfold park
  split
  · split <;> rfl
  · rfl

@[simp] theorem park_envFreeList : (k.park c).envFreeList = k.envFreeList := by
  unfold park
  split
  · split <;> rfl
  · rfl

@[simp] theorem envRun_memory : (k.envRun c e).memory = k.memory := by
  unfold envRun
  simp only
  split <;> simp

@[simp] theorem envRun_envFreeList : (k.envRun c e).envFreeList = k.envFreeList := by
  unfold envRun
  simp only
  split <;> simp

@[simp] theorem park_calls : (k.park c).totalSchedCalls = k.totalSchedCalls := by
  unfold park
  split
  · split <;> rfl
  · rfl

@[simp] theorem envRun_calls : (k.envRun c e).totalSchedCalls = k.totalSchedCalls := by
  unfold envRun
  simp only
  split <;> exact park_calls

theorem envRun_cpus_of_ne (h : c' ≠ c) : (k.envRun c e).cpus c' = k.cpus c' := by
  unfold envRun
  simp only
  split
  · rw [lcr3_of_ne h, setEnv_cpus, setCurenv_of_ne h, park_cpus]
  · rw [setEnv_cpus, setCurenv_of_ne h, park_cpus]

theorem envRun_envs : (k.envRun c e).envs = ((k.park c).setEnv e { (k.park c).envs e with
    envStatus := .running
    envRuns := ((k.park c).envs e).envRuns + 1
    envCpunum := c }).envs := by
  unfold envRun
  simp only
  split <;> rfl

theorem envRun_self : (k.envRun c e).envs e = { k.envs e with
    envStatus := .running, envRuns := (k.envs e).envRuns + 1, envCpunum := c } := by
  rw [envRun_envs, setEnv_self]
  obtain ⟨status, hpark, -⟩ := park_envs (k := k) (c := c) e
  rw [hpark]

theorem envRun_of_ne (h : e' ≠ e) : (k.envRun c e).envs e' = (k.park c).envs e' := by
  rw [envRun_envs, setEnv_of_ne h]

theorem envRun_cpu {pgdir : Ppn} (h : (k.envs e).envPgdir = some pgdir) :
    (k.envRun c e).cpus c = ⟨(k.cpus c).cpuStatus, some e, pgdir⟩ := by
  have hpark : ((k.park c).envs e).envPgdir = some pgdir := by
    obtain ⟨status, hpark, -⟩ := park_envs (k := k) (c := c) e
    rw [hpark]
    exact h
  unfold envRun
  simp only [setCurenv_envs, hpark]
  simp [lcr3, setCurenv]

theorem envRun_curenv : (k.envRun c e).curenv c = some e := by
  unfold envRun
  simp only
  split
  · rw [lcr3_curenv, setEnv_curenv, setCurenv_self]
  · rw [setEnv_curenv, setCurenv_self]

theorem envRun_cpuStatus : ((k.envRun c e).cpus c).cpuStatus = (k.cpus c).cpuStatus := by
  unfold envRun
  simp only
  split <;> simp [lcr3, setCurenv]

end EnvRun

/-- The index in `envs` where the search for the next environment starts. -/
def nextCurenvInd (c : Fin n) (k : Kernel n) : ℕ :=
  match k.curenv c with
  | some cur => (envx (k.envs cur).envId).toNat + 1
  | none => 0

/-- The environments in the order in which the loops of the schedulers look at them. -/
def circular (start : ℕ) : List EnvPtr := (List.range nenv).map fun i ↦ BitVec.ofNat 10 (i + start)

/-- The test of both schedulers for going on with the current environment. -/
def keepsRunning (c : Fin n) (k : Kernel n) : Option EnvPtr :=
  match k.curenv c with
  | some cur =>
    if (k.envs cur).envStatus = .running ∧ (k.envs cur).envCpunum = c then some cur else none
  | none => none

/-- The environment that `sched_rr` runs, or none where it returns. -/
def schedRr (c : Fin n) (k : Kernel n) : Option EnvPtr :=
  match (circular (k.nextCurenvInd c)).find? fun e ↦ (k.envs e).envStatus == EnvStatus.runnable with
  | some e => some e
  | none => k.keepsRunning c

/-- The loop of `sched_pr`, which stops at the first runnable environment of priority 1. -/
def schedPrFrom (k : Kernel n) : List EnvPtr → ℤ → Option EnvPtr → Option EnvPtr
  | [], _, envToRun => envToRun
  | e :: es, bestPriority, envToRun =>
    let env := k.envs e
    if env.envStatus = .runnable ∧ env.priority = 1 then some e
    else if env.envStatus = .runnable ∧ env.priority < bestPriority then
      schedPrFrom k es env.priority (some e)
    else schedPrFrom k es bestPriority envToRun

/-- The environment that `sched_pr` runs, or none where it returns. -/
def schedPr (c : Fin n) (k : Kernel n) : Option EnvPtr :=
  match k.schedPrFrom (circular (k.nextCurenvInd c)) (maxPriority + 1) none with
  | some e => some e
  | none => k.keepsRunning c

def select (s : Scheduler) (c : Fin n) (k : Kernel n) : Option EnvPtr :=
  match s with
  | .rr => k.schedRr c
  | .pr => k.schedPr c

/-- Some environment keeps the machine going. -/
def someAlive (k : Kernel n) : Bool :=
  (circular 0).any fun e ↦
    (k.envs e).envStatus == EnvStatus.runnable || (k.envs e).envStatus == EnvStatus.running ||
      (k.envs e).envStatus == EnvStatus.dying

/-- The CPU is halted afterwards, until the next interrupt. -/
def schedHalt (c : Fin n) (k : Kernel n) : Except Fault (Kernel n) :=
  if k.someAlive then
    let k := (k.setCurenv c none).lcr3 c k.memory.kernPgdir
    .ok (k.setCpu c { k.cpus c with cpuStatus := .halted })
  else .error .monitor

def schedYield (s : Scheduler) (c : Fin n) (k : Kernel n) : Except Fault (Kernel n) :=
  let k := { k with totalSchedCalls := k.totalSchedCalls + 1 }
  match k.select s c with
  | some e => .ok (k.envRun c e)
  | none => k.schedHalt c

/-! ## Priorities -/

def boost (k : Kernel n) : Kernel n :=
  let slices := k.boostTimeSlices + 1
  if slices = maxTimeslicesBoost then
    { k with envs := fun e ↦ { k.envs e with priority := 1 }, boostTimeSlices := 1 }
  else { k with boostTimeSlices := slices }

def updatePriority (c : Fin n) (k : Kernel n) : Kernel n :=
  match k.curenv c with
  | none => k
  | some cur =>
    let env := k.envs cur
    let slices := env.timeSlices + 1
    let priority := if slices.tmod maxEnvTimeSlices = 0 ∧ env.priority < maxPriority then
      env.priority + 1 else env.priority
    (k.setEnv cur { env with timeSlices := slices, priority }).boost

/-! ## Giving up an environment -/

def envDestroy (s : Scheduler) (c : Fin n) (e : EnvPtr) (k : Kernel n) :
    Except Fault (Control Unit × Kernel n) := do
  if (k.envs e).envStatus = .running ∧ k.curenv c ≠ some e then
    return (.returns (), k.setEnv e { k.envs e with envStatus := .dying })
  let k ← k.envFree c e
  if k.curenv c = some e then
    return (.leaves, ← (k.setCurenv c none).schedYield s c)
  return (.returns (), k)

def userMemAssert (s : Scheduler) (c : Fin n) (e : EnvPtr) (va len perm : Word) (k : Kernel n) :
    Except Fault (Control Unit × Kernel n) := do
  let r ← k.memory.userMemCheck (k.envs e).envPgdir va len (perm ||| pteU)
  if r < 0 then k.envDestroy s c e
  else return (.returns (), k)

end Kernel

end SistemasOperativos.Jos
