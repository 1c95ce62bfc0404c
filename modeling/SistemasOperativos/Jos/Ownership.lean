import SistemasOperativos.Jos.Decomposition

/-!
# Which CPU runs which environment

The invariant that ties the CPUs to the table of environments. Outside the kernel every CPU in user
mode runs an environment of its own, which is running or dying and whose page directory the CPU uses.
Inside the kernel this holds of the other CPUs. An action keeps it unless it takes the status away from
an environment that another CPU runs, and the two ways out of the kernel restore it for the CPU that
was inside.
-/

namespace SistemasOperativos.Jos

open Library Library.Except

variable {n : ℕ} {s : Scheduler} {c c' : Fin n} {k k₁ k' : Kernel n}

namespace Kernel

/-- What holds of a CPU outside the kernel. -/
structure OnCpu (k : Kernel n) (c : Fin n) : Prop where
  occupied : k.UserMode c → ∃ e, k.curenv c = some e
  mode : ∀ e, k.curenv c = some e → k.UserMode c
  status : ∀ e, k.curenv c = some e →
    (k.envs e).envStatus = .running ∨ (k.envs e).envStatus = .dying
  pgdir : ∀ e, k.curenv c = some e → (k.envs e).envPgdir = some (k.cpus c).cr3
  only : ∀ e, k.curenv c = some e → ∀ c', k.curenv c' = some e → c' = c

/-- The free environments are linked from `env_free_list`, and they are those without a page
directory. -/
structure FreeEnvs (k : Kernel n) : Prop where
  chain : ∃ l, Chain (fun e ↦ (k.envs e).envLink) k.envFreeList l ∧
    ∀ e ∈ l, (k.envs e).envStatus = .free
  noPgdir : ∀ e, (k.envs e).envStatus = .free ↔ (k.envs e).envPgdir = none

/-- Outside the kernel. -/
structure Sound (k : Kernel n) : Prop where
  cpu : ∀ c, k.OnCpu c
  free : k.FreeEnvs

/-- Inside the kernel, on the CPU `c`. -/
structure Inside (c : Fin n) (k : Kernel n) : Prop where
  others : ∀ c' ≠ c, k.OnCpu c'
  current : ∀ e, k.curenv c = some e → (k.envs e).envStatus ≠ .free
  free : k.FreeEnvs

/-- Another CPU than `c` has the environment as its current one. -/
def Elsewhere (k : Kernel n) (c : Fin n) (e : EnvPtr) : Prop := ∃ c' ≠ c, k.curenv c' = some e

/-! ## Free environments -/

theorem FreeEnvs.congr (h : k.FreeEnvs) (hlist : k'.envFreeList = k.envFreeList)
    (hlink : ∀ e, (k'.envs e).envLink = (k.envs e).envLink)
    (hstatus : ∀ e, (k'.envs e).envStatus = (k.envs e).envStatus)
    (hpgdir : ∀ e, (k'.envs e).envPgdir = (k.envs e).envPgdir) : k'.FreeEnvs := by
  obtain ⟨l, hl, hfree⟩ := h.chain
  constructor
  · refine ⟨l, ?_, fun e he ↦ (hstatus e).trans (hfree e he)⟩
    rw [hlist]
    exact hl.congr fun e _ ↦ hlink e
  · intro e
    rw [hpgdir e, hstatus e]
    exact h.noPgdir e

/-- An environment that is not free stays so. -/
theorem FreeEnvs.setEnv {e : EnvPtr} {env : Env} (h : k.FreeEnvs)
    (hold : (k.envs e).envStatus ≠ .free) (hnew : env.envStatus ≠ .free)
    (hpgdir : env.envPgdir = (k.envs e).envPgdir) : (k.setEnv e env).FreeEnvs := by
  obtain ⟨l, hl, hfree⟩ := h.chain
  have hne : ∀ e' ∈ l, e' ≠ e := fun e' he' heq ↦ hold (heq ▸ hfree e' he')
  constructor
  · refine ⟨l, hl.congr fun e' he' ↦ ?_, fun e' he' ↦ ?_⟩
    · rw [setEnv_of_ne (hne e' he')]
    · rw [setEnv_of_ne (hne e' he')]
      exact hfree e' he'
  · intro e'
    by_cases heq : e' = e
    · subst heq
      rw [setEnv_self, hpgdir, ← h.noPgdir e']
      exact iff_of_false hnew hold
    · rw [setEnv_of_ne heq]
      exact h.noPgdir e'

/-- `env_alloc` takes the first environment off the list. -/
theorem FreeEnvs.pop {e : EnvPtr} {env : Env} {memory : Memory} (h : k.FreeEnvs)
    (hhead : k.envFreeList = some e) (hnew : env.envStatus ≠ .free)
    (hpgdir : env.envPgdir ≠ none) :
    ({ k with memory, envFreeList := (k.envs e).envLink }.setEnv e env).FreeEnvs := by
  obtain ⟨l, hl, hfree⟩ := h.chain
  rw [hhead] at hl
  obtain ⟨rest, rfl, hrest⟩ := hl.of_some
  have hnotin : e ∉ rest := (List.nodup_cons.mp hl.nodup).1
  have hne : ∀ e' ∈ rest, e' ≠ e := fun e' he' heq ↦ hnotin (heq ▸ he')
  constructor
  · refine ⟨rest, hrest.congr fun e' he' ↦ ?_, fun e' he' ↦ ?_⟩
    · rw [setEnv_of_ne (hne e' he')]
    · rw [setEnv_of_ne (hne e' he')]
      exact hfree e' (List.mem_cons_of_mem e he')
  · intro e'
    by_cases heq : e' = e
    · subst heq
      rw [setEnv_self]
      exact iff_of_false hnew hpgdir
    · rw [setEnv_of_ne heq]
      exact h.noPgdir e'

/-- The first environment of the list is free. -/
theorem FreeEnvs.head {e : EnvPtr} (h : k.FreeEnvs) (hhead : k.envFreeList = some e) :
    (k.envs e).envStatus = .free := by
  obtain ⟨l, hl, hfree⟩ := h.chain
  rw [hhead] at hl
  obtain ⟨rest, rfl, -⟩ := hl.of_some
  exact hfree e (by simp)

/-- `env_free` puts an environment in front of the list. -/
theorem FreeEnvs.push {e : EnvPtr} (h : k.FreeEnvs) (hold : (k.envs e).envStatus ≠ .free)
    (hfreed : k.envFree c e = .ok k') : k'.FreeEnvs := by
  obtain ⟨l, hl, hfree⟩ := h.chain
  have hne : ∀ e' ∈ l, e' ≠ e := fun e' he' heq ↦ hold (heq ▸ hfree e' he')
  constructor
  · refine ⟨e :: l, ⟨envFree_list hfreed, ?_⟩, fun e' he' ↦ ?_⟩
    · simp only [envFree_self hfreed]
      refine hl.congr fun e' he' ↦ ?_
      rw [envFree_of_ne hfreed (hne e' he')]
    · rcases List.mem_cons.mp he' with rfl | he'
      · rw [envFree_self hfreed]
      · rw [envFree_of_ne hfreed (hne e' he')]
        exact hfree e' he'
  · intro e'
    by_cases heq : e' = e
    · rw [heq, envFree_self hfreed]
      exact iff_of_true rfl rfl
    · rw [envFree_of_ne hfreed heq]
      exact h.noPgdir e'

/-! ## Actions -/

/-- A CPU that an action does not touch, and whose environment keeps running with its memory. -/
theorem OnCpu.congr (h : k.OnCpu c') (hcpu : k'.cpus c' = k.cpus c')
    (hcur : ∀ c'' e, k'.curenv c'' = some e → k.curenv c'' = some e)
    (hstatus : ∀ e, k.curenv c' = some e → (k'.envs e).envStatus = (k.envs e).envStatus ∨
      (k'.envs e).envStatus = .dying)
    (hpgdir : ∀ e, k.curenv c' = some e → (k'.envs e).envPgdir = (k.envs e).envPgdir) :
    k'.OnCpu c' := by
  have hmode : k'.UserMode c' ↔ k.UserMode c' := by rw [UserMode, UserMode, hcpu]
  have hsame : k'.curenv c' = k.curenv c' := congrArg CpuInfo.cpuEnv hcpu
  constructor
  · intro hc'
    rw [hsame]
    exact h.occupied (hmode.mp hc')
  · intro e he
    rw [hsame] at he
    exact hmode.mpr (h.mode e he)
  · intro e he
    rw [hsame] at he
    rcases hstatus e he with heq | heq
    · rw [heq]
      exact h.status e he
    · exact Or.inr heq
  · intro e he
    rw [hsame] at he
    rw [hpgdir e he, hcpu]
    exact h.pgdir e he
  · intro e he c'' hc''
    rw [hsame] at he
    exact h.only e he c'' (hcur c'' e hc'')

/-- Nothing that the invariant speaks of changes. -/
structure SameTable (k k' : Kernel n) : Prop where
  cpus : k'.cpus = k.cpus
  list : k'.envFreeList = k.envFreeList
  link : ∀ e, (k'.envs e).envLink = (k.envs e).envLink
  status : ∀ e, (k'.envs e).envStatus = (k.envs e).envStatus
  pgdir : ∀ e, (k'.envs e).envPgdir = (k.envs e).envPgdir

theorem SameTable.of_memory {memory : Memory} : k.SameTable { k with memory } :=
  ⟨rfl, rfl, fun _ ↦ rfl, fun _ ↦ rfl, fun _ ↦ rfl⟩

theorem SameTable.of_setEnv {e : EnvPtr} {env : Env} (hlink : env.envLink = (k.envs e).envLink)
    (hstatus : env.envStatus = (k.envs e).envStatus)
    (hpgdir : env.envPgdir = (k.envs e).envPgdir) : k.SameTable (k.setEnv e env) where
  cpus := rfl
  list := rfl
  link e' := by
    rw [setEnv_envs]
    split <;> simp [*]
  status e' := by
    rw [setEnv_envs]
    split <;> simp [*]
  pgdir e' := by
    rw [setEnv_envs]
    split <;> simp [*]

theorem SameTable.of_tuned (h : k.Tuned k') : k.SameTable k' where
  cpus := h.cpus
  list := h.envFreeList
  link e := Env.eq_of_core Env.envLink (fun _ ↦ rfl) (h.core e)
  status e := Env.eq_of_core Env.envStatus (fun _ ↦ rfl) (h.core e)
  pgdir e := Env.eq_of_core Env.envPgdir (fun _ ↦ rfl) (h.core e)

theorem Inside.of_same (h : Inside c k) (hsame : k.SameTable k') : Inside c k' := by
  have hcur : k'.curenv = k.curenv := by
    funext c'
    exact congrArg CpuInfo.cpuEnv (congrFun hsame.cpus c')
  constructor
  · intro c' hc'
    refine (h.others c' hc').congr (congrFun hsame.cpus c') (fun c'' e he ↦ ?_)
      (fun e _ ↦ Or.inl (hsame.status e)) (fun e _ ↦ hsame.pgdir e)
    rw [← hcur]
    exact he
  · intro e he
    rw [hsame.status e]
    rw [hcur] at he
    exact h.current e he
  · exact h.free.congr hsame.list hsame.link hsame.status hsame.pgdir

/-- The status of one environment changes, which is not taken away from another CPU. -/
theorem Inside.setEnv {e : EnvPtr} {env : Env} (h : Inside c k)
    (hold : (k.envs e).envStatus ≠ .free) (hnew : env.envStatus ≠ .free)
    (hpgdir : env.envPgdir = (k.envs e).envPgdir)
    (hspare : env.envStatus = .dying ∨ ¬ k.Elsewhere c e) : Inside c (k.setEnv e env) := by
  constructor
  · intro c' hc'
    refine (h.others c' hc').congr rfl (fun _ _ he ↦ he) (fun e' he' ↦ ?_) (fun e' _ ↦ ?_)
    · by_cases heq : e' = e
      · subst heq
        rw [setEnv_self]
        exact Or.inr (hspare.resolve_right fun hnot ↦ hnot ⟨c', hc', he'⟩)
      · rw [setEnv_of_ne heq]
        exact Or.inl rfl
    · rw [setEnv_envs]
      split
      · rename_i heq
        rw [hpgdir, heq]
      · rfl
  · intro e' he'
    rw [setEnv_envs]
    split
    · exact hnew
    · exact h.current e' he'
  · exact h.free.setEnv hold hnew hpgdir

/-- A new environment takes the place of a free one. -/
theorem Inside.spawn {e : EnvPtr} {parent : Word} {env : Env} (h : Inside c k)
    (halloc : k.envAlloc parent = .ok (.ok e, k₁)) (hnew : env.envStatus ≠ .free)
    (hpgdir : env.envPgdir = (k₁.envs e).envPgdir) :
    Inside c (k₁.setEnv e env) := by
  obtain ⟨pgdir, memory, hhead, -, rfl⟩ := envAlloc_ok halloc
  rw [setEnv_setEnv]
  have hfree := h.free.head hhead
  constructor
  · intro c' hc'
    have hne : ∀ e', k.curenv c' = some e' → e' ≠ e := by
      rintro e' he' rfl
      rcases (h.others c' hc').status e' he' with hstatus | hstatus
      · rw [hfree] at hstatus
        cases hstatus
      · rw [hfree] at hstatus
        cases hstatus
    refine (h.others c' hc').congr rfl (fun _ _ he ↦ he) (fun e' he' ↦ Or.inl ?_) fun e' he' ↦ ?_
    · rw [setEnv_of_ne (hne e' he')]
    · rw [setEnv_of_ne (hne e' he')]
  · intro e' he'
    rw [setEnv_envs]
    split
    · exact hnew
    · exact h.current e' he'
  · refine h.free.pop hhead hnew ?_
    rw [hpgdir, setEnv_self]
    simp

/-- An environment is freed that no other CPU runs. The CPU does not keep it as its current one. -/
theorem Inside.freed {e : EnvPtr} (h : Inside c k) (hold : (k.envs e).envStatus ≠ .free)
    (hspare : ¬ k.Elsewhere c e) (hfreed : k.envFree c e = .ok k₁)
    (hcpus : ∀ c' ≠ c, k'.cpus c' = k₁.cpus c')
    (hcur : ∀ e', k'.curenv c = some e' → k₁.curenv c = some e' ∧ e' ≠ e)
    (henvs : k'.envs = k₁.envs) (hlist : k'.envFreeList = k₁.envFreeList) : Inside c k' := by
  have hcurenv := envFree_curenv hfreed
  have hback : ∀ c' e', k'.curenv c' = some e' → k.curenv c' = some e' := by
    intro c' e' he'
    rw [← hcurenv]
    by_cases hc' : c' = c
    · subst hc'
      exact (hcur e' he').1
    · rw [curenv, hcpus c' hc'] at he'
      exact he'
  constructor
  · intro c' hc'
    have hne : ∀ e', k.curenv c' = some e' → e' ≠ e := by
      rintro e' he' rfl
      exact hspare ⟨c', hc', he'⟩
    refine (h.others c' hc').congr ?_ hback (fun e' he' ↦ Or.inl ?_) fun e' he' ↦ ?_
    · rw [hcpus c' hc', envFree_cpus_of_ne hfreed hc']
    · rw [henvs, envFree_of_ne hfreed (hne e' he')]
    · rw [henvs, envFree_of_ne hfreed (hne e' he')]
  · intro e' he'
    rw [henvs, envFree_of_ne hfreed (hcur e' he').2]
    exact h.current e' (hback c e' he')
  · refine (h.free.push hold hfreed).congr hlist ?_ ?_ ?_
    · exact fun e' ↦ by rw [henvs]
    · exact fun e' ↦ by rw [henvs]
    · exact fun e' ↦ by rw [henvs]

end Kernel

/-- The environment that an action may take away from the CPU that runs it. -/
def Action.target : Action → Option EnvPtr
  | .setStatus _ e _ | .free e | .deliver _ e _ => some e
  | _ => none

namespace Effect

open Kernel

variable {a : Action} {e : EnvPtr}

/-- An action keeps the CPUs, but the one that takes it may leave its page directory or lose its
environment. -/
theorem cpus (h : Effect c k a k') : ∃ cpu, k'.cpus = Function.update k.cpus c cpu ∧
    cpu.cpuStatus = (k.cpus c).cpuStatus ∧
      (cpu.cpuEnv = (k.cpus c).cpuEnv ∨ cpu.cpuEnv = none) := by
  have hsame : k'.cpus = k.cpus → ∃ cpu, k'.cpus = Function.update k.cpus c cpu ∧
      cpu.cpuStatus = (k.cpus c).cpuStatus ∧
        (cpu.cpuEnv = (k.cpus c).cpuEnv ∨ cpu.cpuEnv = none) := fun heq ↦
    ⟨k.cpus c, by rw [heq, Function.update_eq_self], rfl, Or.inl rfl⟩
  cases h with
  | tune tuned => exact hsame tuned.cpus
  | pageAlloc call =>
    obtain ⟨memory, rfl⟩ := envPageAlloc_memory call
    exact hsame rfl
  | pageMap call =>
    obtain ⟨memory, rfl⟩ := envPageMap_memory call
    exact hsame rfl
  | spawn alloc =>
    obtain ⟨pgdir, memory, -, -, rfl⟩ := envAlloc_ok alloc
    exact hsame rfl
  | load fresh call =>
    obtain ⟨pgdir, m₁, m₂, -, -, -, rfl⟩ := loadIcode_ok call
    exact hsame rfl
  | free other call =>
    obtain ⟨cpu, hcpus, hstatus, hcur⟩ := envFree_cpus call
    exact ⟨cpu, hcpus, hstatus, Or.inl hcur⟩
  | exit current call =>
    obtain ⟨cpu, hcpus, hstatus, hcur⟩ := envFree_cpus call
    refine ⟨{ cpu with cpuEnv := none }, ?_, hstatus, Or.inr rfl⟩
    simp [setCurenv, setCpu, hcpus]
  | _ => exact hsame rfl

theorem cpus_of_ne (h : Effect c k a k') (hc : c' ≠ c) : k'.cpus c' = k.cpus c' := by
  obtain ⟨cpu, hcpus, -, -⟩ := h.cpus
  rw [hcpus, Function.update_of_ne hc]

/-- Inside the kernel a CPU neither halts nor starts. -/
theorem cpuStatus (h : Effect c k a k') : (k'.cpus c').cpuStatus = (k.cpus c').cpuStatus := by
  by_cases hc : c' = c
  · obtain ⟨cpu, hcpus, hstatus, -⟩ := h.cpus
    rw [hc, hcpus, Function.update_self, hstatus]
  · rw [h.cpus_of_ne hc]

theorem keeps_curenv (h : Effect c k a k') (ha : ∀ e, a ≠ .exit e) : k'.curenv = k.curenv := by
  cases h with
  | tune tuned => exact funext fun c' ↦ congrArg (fun cpus ↦ (cpus c').cpuEnv) tuned.cpus
  | pageAlloc call =>
    obtain ⟨memory, rfl⟩ := envPageAlloc_memory call
    rfl
  | pageMap call =>
    obtain ⟨memory, rfl⟩ := envPageMap_memory call
    rfl
  | spawn alloc =>
    obtain ⟨pgdir, memory, -, -, rfl⟩ := envAlloc_ok alloc
    rfl
  | load fresh call =>
    obtain ⟨pgdir, m₁, m₂, -, -, -, rfl⟩ := loadIcode_ok call
    rfl
  | free other call => exact envFree_curenv call
  | exit => exact absurd rfl (ha _)
  | _ => rfl

/-- Only the scheduler counts its calls. -/
theorem calls (h : Effect c k a k') : k'.totalSchedCalls = k.totalSchedCalls := by
  cases h with
  | tune tuned => exact tuned.calls
  | pageAlloc call =>
    obtain ⟨memory, rfl⟩ := envPageAlloc_memory call
    rfl
  | pageMap call =>
    obtain ⟨memory, rfl⟩ := envPageMap_memory call
    rfl
  | spawn alloc =>
    obtain ⟨pgdir, memory, -, -, rfl⟩ := envAlloc_ok alloc
    rfl
  | load fresh call =>
    obtain ⟨pgdir, m₁, m₂, -, -, -, rfl⟩ := loadIcode_ok call
    rfl
  | free other call => exact envFree_calls call
  | exit current call =>
    have hcalls := envFree_calls call
    exact hcalls
  | _ => rfl

/-- The current environment of a CPU does not change inside the kernel, but it may be lost. -/
theorem curenv_of_some {e : EnvPtr} (h : Effect c k a k') (hcur : k'.curenv c' = some e) :
    k.curenv c' = some e := by
  by_cases hc : c' = c
  · subst hc
    obtain ⟨cpu, hcpus, -, hsame | hnone⟩ := h.cpus
    · rwa [curenv, hcpus, Function.update_self, hsame] at hcur
    · rw [curenv, hcpus, Function.update_self, hnone] at hcur
      cases hcur
  · rwa [curenv, h.cpus_of_ne hc] at hcur

/-- An action leaves an environment alone that it is not about. -/
theorem core_of_ne (h : Effect c k a k') (he : a.subject ≠ some e) :
    (k'.envs e).core = (k.envs e).core := by
  cases h with
  | tune tuned => exact tuned.core e
  | write => rfl
  | pageAlloc call =>
    obtain ⟨memory, rfl⟩ := envPageAlloc_memory call
    rfl
  | pageMap call =>
    obtain ⟨memory, rfl⟩ := envPageMap_memory call
    rfl
  | pageUnmap => rfl
  | spawn alloc =>
    have hne : e ≠ _ := fun heq ↦ he (congrArg some heq.symm)
    obtain ⟨pgdir, memory, -, -, rfl⟩ := envAlloc_ok alloc
    rw [setEnv_setEnv, setEnv_of_ne hne]
  | load fresh call =>
    have hne : e ≠ _ := fun heq ↦ he (congrArg some heq.symm)
    obtain ⟨pgdir, m₁, m₂, -, -, -, rfl⟩ := loadIcode_ok call
    rw [setEnv_of_ne hne]
  | free other call =>
    have hne : e ≠ _ := fun heq ↦ he (congrArg some heq.symm)
    rw [envFree_of_ne call hne]
  | exit current call =>
    have hne : e ≠ _ := fun heq ↦ he (congrArg some heq.symm)
    rw [setCurenv_envs, envFree_of_ne call hne]
  | upcall =>
    rw [setEnv_envs]
    split
    · rename_i heq
      rw [heq]
      rfl
    · rfl
  | frame | setStatus | dying | deliver | await | refuse =>
    have hne : e ≠ _ := fun heq ↦ he (congrArg some heq.symm)
    exact congrArg Env.core (setEnv_of_ne hne)

/-- The other CPUs keep their environments. -/
theorem elsewhere {e : EnvPtr} (h : Effect c k a k') :
    k'.Elsewhere c e ↔ k.Elsewhere c e := by
  have hsame : ∀ c' ≠ c, k'.curenv c' = k.curenv c' := fun c' hc' ↦
    congrArg CpuInfo.cpuEnv (h.cpus_of_ne hc')
  constructor
  · rintro ⟨c', hc', he⟩
    exact ⟨c', hc', (hsame c' hc').symm.trans he⟩
  · rintro ⟨c', hc', he⟩
    exact ⟨c', hc', (hsame c' hc').trans he⟩

/-- An action keeps the other CPUs sound. -/
theorem inside (h : Effect c k a k') (hin : Inside c k)
    (hspare : ∀ e ∈ a.target, ¬ k.Elsewhere c e) : Inside c k' := by
  have hlive : ∀ {e : EnvPtr}, k.curenv c = some e ∨ (k.envs e).envStatus ≠ .free →
      (k.envs e).envStatus ≠ .free := fun he ↦ he.elim (hin.current _) id
  cases h with
  | tune tuned => exact hin.of_same (.of_tuned tuned)
  | frame tf current => exact hin.of_same (.of_setEnv rfl rfl rfl)
  | write => exact hin.of_same .of_memory
  | pageAlloc call =>
    obtain ⟨memory, rfl⟩ := envPageAlloc_memory call
    exact hin.of_same .of_memory
  | pageMap call =>
    obtain ⟨memory, rfl⟩ := envPageMap_memory call
    exact hin.of_same .of_memory
  | pageUnmap => exact hin.of_same .of_memory
  | spawn alloc status same =>
    have hpgdir := Env.eq_of_core Env.envPgdir (fun _ ↦ rfl) same
    refine hin.spawn alloc ?_ hpgdir
    rcases status with hstatus | hstatus <;> simp [hstatus]
  | load fresh call =>
    obtain ⟨pgdir, m₁, m₂, -, -, -, rfl⟩ := loadIcode_ok call
    exact (hin.of_same .of_memory).of_same (.of_setEnv rfl rfl rfl)
  | setStatus was known settable =>
    refine hin.setEnv (hlive known) ?_ rfl (Or.inr (hspare _ rfl))
    rcases settable with rfl | rfl <;> simp
  | dying running other =>
    refine hin.setEnv ?_ (by simp) rfl (Or.inl rfl)
    rw [running]
    simp
  | free other call =>
    obtain ⟨pgdir, m₁, m₂, hpgdir, -⟩ := envFree_ok call
    have hold : ∀ e, (k.envs e).envPgdir = some pgdir → (k.envs e).envStatus ≠ .free := by
      intro e he hfree
      rw [(hin.free.noPgdir e).mp hfree] at he
      cases he
    refine hin.freed (hold _ hpgdir) (hspare _ rfl) call (fun _ _ ↦ rfl) ?_ rfl rfl
    intro e' he'
    refine ⟨he', ?_⟩
    rintro rfl
    rw [envFree_curenv call] at he'
    exact other he'
  | exit current call =>
    refine hin.freed (hin.current _ current) ?_ call (fun _ hc ↦ setCurenv_of_ne hc) ?_ rfl rfl
    · rintro ⟨c', hc', he⟩
      exact hc' ((hin.others c' hc').only _ he c current).symm
    · intro e' he'
      rw [setCurenv_self] at he'
      cases he'
  | deliver current known recving =>
    exact hin.setEnv (hlive known) (by simp) rfl (Or.inr (hspare _ rfl))
  | await current =>
    refine hin.setEnv (hin.current _ current) (by simp) rfl (Or.inr ?_)
    rintro ⟨c', hc', he⟩
    exact hc' ((hin.others c' hc').only _ he c current).symm
  | refuse current => exact hin.of_same (.of_setEnv rfl rfl rfl)
  | upcall => exact hin.of_same (.of_setEnv rfl rfl rfl)

end Effect

/-! ## Leaving the kernel -/

namespace Kernel

/-- Neither the page directory nor the link of an environment changes when another one runs. -/
theorem envRun_same (e e' : EnvPtr) : ((k.envRun c e).envs e').envPgdir = (k.envs e').envPgdir ∧
    ((k.envRun c e).envs e').envLink = (k.envs e').envLink := by
  by_cases h : e' = e
  · rw [h, envRun_self]
    exact ⟨rfl, rfl⟩
  · obtain ⟨status, hpark, -⟩ := park_envs (k := k) (c := c) e'
    rw [envRun_of_ne h, hpark]
    exact ⟨rfl, rfl⟩

theorem envRun_free {e : EnvPtr} (h : (k.envs e).envStatus ≠ .free) (e' : EnvPtr) :
    ((k.envRun c e).envs e').envStatus = .free ↔ (k.envs e').envStatus = .free := by
  by_cases heq : e' = e
  · rw [heq, envRun_self]
    exact iff_of_false (by simp) h
  · obtain ⟨status, hpark, hstatus⟩ := park_envs (k := k) (c := c) e'
    rw [envRun_of_ne heq, hpark]
    rcases hstatus with rfl | ⟨rfl, hrunning⟩
    · rfl
    · exact iff_of_false (by simp) (by simp [hrunning])

theorem FreeEnvs.envRun {e : EnvPtr} (h : k.FreeEnvs) (he : (k.envs e).envStatus ≠ .free) :
    (k.envRun c e).FreeEnvs := by
  obtain ⟨l, hl, hfree⟩ := h.chain
  constructor
  · refine ⟨l, ?_, fun e' he' ↦ (envRun_free he e').mpr (hfree e' he')⟩
    rw [envRun_envFreeList]
    exact hl.congr fun e' _ ↦ (envRun_same e e').2
  · intro e'
    rw [envRun_free he e', (envRun_same e e').1]
    exact h.noPgdir e'

/-- The environment that a CPU leaves the kernel with is not the one of another CPU. -/
theorem Inside.ready_spare {e : EnvPtr} (h : Inside c k)
    (hready : (k.envs e).envStatus = .runnable ∨
      k.curenv c = some e ∧ (k.envs e).envStatus = .running) : ¬ k.Elsewhere c e := by
  rintro ⟨c', hc', he⟩
  rcases hready with hrunnable | ⟨hcur, -⟩
  · rcases (h.others c' hc').status e he with hstatus | hstatus
    · rw [hrunnable] at hstatus
      cases hstatus
    · rw [hrunnable] at hstatus
      cases hstatus
  · exact hc' ((h.others c' hc').only e he c hcur).symm

theorem Inside.run {e : EnvPtr} (h : Inside c k) (hmode : k.UserMode c)
    (hready : (k.envs e).envStatus = .runnable ∨
      k.curenv c = some e ∧ (k.envs e).envStatus = .running) : (k.envRun c e).Sound := by
  have hspare := h.ready_spare hready
  have hlive : (k.envs e).envStatus ≠ .free := by
    rcases hready with hstatus | ⟨-, hstatus⟩ <;> simp [hstatus]
  obtain ⟨pgdir, hpgdir⟩ : ∃ pgdir, (k.envs e).envPgdir = some pgdir :=
    Option.ne_none_iff_exists'.mp fun hnone ↦ hlive ((h.free.noPgdir e).mpr hnone)
  have hcpu := envRun_cpu (c := c) hpgdir
  have hcur : (k.envRun c e).curenv c = some e := by rw [curenv, hcpu]
  have hcur_of_ne : ∀ c' ≠ c, (k.envRun c e).curenv c' = k.curenv c' := fun c' hc' ↦
    congrArg CpuInfo.cpuEnv (envRun_cpus_of_ne hc')
  refine ⟨fun c' ↦ ?_, h.free.envRun hlive⟩
  by_cases hc' : c' = c
  · subst hc'
    constructor
    · exact fun _ ↦ ⟨e, hcur⟩
    · intro _ _
      rw [UserMode, hcpu]
      exact hmode
    · intro e' he'
      obtain rfl : e = e' := by simpa [hcur] using he'
      rw [envRun_self]
      exact Or.inl rfl
    · intro e' he'
      obtain rfl : e = e' := by simpa [hcur] using he'
      rw [envRun_self, hcpu]
      exact hpgdir
    · intro e' he' c'' hc''
      obtain rfl : e = e' := by simpa [hcur] using he'
      by_contra hne
      rw [hcur_of_ne c'' hne] at hc''
      exact hspare ⟨c'', hne, hc''⟩
  · have hold := h.others c' hc'
    have hsame := hcur_of_ne c' hc'
    have hne : ∀ e', k.curenv c' = some e' → e' ≠ e := by
      rintro e' he' rfl
      exact hspare ⟨c', hc', he'⟩
    have hother : ∀ e', k.curenv c' = some e' → (k.envRun c e).envs e' = k.envs e' := by
      intro e' he'
      rw [envRun_of_ne (hne e' he'), park_of_ne]
      exact fun hc ↦ hc' (hold.only e' he' c hc).symm
    constructor
    · rw [UserMode, envRun_cpus_of_ne hc', hsame]
      exact hold.occupied
    · rw [UserMode, envRun_cpus_of_ne hc', hsame]
      exact hold.mode
    · intro e' he'
      rw [hsame] at he'
      rw [hother e' he']
      exact hold.status e' he'
    · intro e' he'
      rw [hsame] at he'
      rw [hother e' he', envRun_cpus_of_ne hc']
      exact hold.pgdir e' he'
    · intro e' he' c'' hc''
      rw [hsame] at he'
      by_cases heq : c'' = c
      · subst heq
        obtain rfl : e = e' := by simpa [hcur] using hc''
        exact absurd rfl (hne _ he')
      · rw [hcur_of_ne c'' heq] at hc''
        exact hold.only e' he' c'' hc''

/-- A CPU halts. -/
theorem schedHalt_ok (h : k.schedHalt c = .ok k') :
    k' = k.setCpu c ⟨.halted, none, k.memory.kernPgdir⟩ := by
  unfold schedHalt at h
  split at h
  · obtain rfl := Except.ok.inj h
    simp [setCurenv, lcr3, setCpu]
  · cases h

theorem Inside.halt (h : Inside c k) (hhalt : k.schedHalt c = .ok k') : k'.Sound := by
  obtain rfl := schedHalt_ok hhalt
  have hnone : (k.setCpu c ⟨.halted, none, k.memory.kernPgdir⟩).curenv c = none := by simp [curenv]
  have hcur_of_ne : ∀ c' ≠ c, (k.setCpu c ⟨.halted, none, k.memory.kernPgdir⟩).curenv c' =
      k.curenv c' := fun c' hc' ↦ congrArg CpuInfo.cpuEnv (setCpu_of_ne hc')
  refine ⟨fun c' ↦ ?_, h.free.congr rfl (fun _ ↦ rfl) (fun _ ↦ rfl) (fun _ ↦ rfl)⟩
  by_cases hc' : c' = c
  · subst hc'
    constructor
    · intro hmode
      simp [UserMode] at hmode
    · intro e he
      rw [hnone] at he
      cases he
    · intro e he
      rw [hnone] at he
      cases he
    · intro e he
      rw [hnone] at he
      cases he
    · intro e he
      rw [hnone] at he
      cases he
  · refine (h.others c' hc').congr (setCpu_of_ne hc') (fun c'' e he ↦ ?_) (fun e _ ↦ Or.inl rfl)
      (fun e _ ↦ rfl)
    by_cases heq : c'' = c
    · rw [heq, hnone] at he
      cases he
    · rw [hcur_of_ne c'' heq] at he
      exact he

end Kernel

theorem Kernel.SameTable.of_calls {calls : ℕ} : k.SameTable { k with totalSchedCalls := calls } :=
  ⟨rfl, rfl, fun _ ↦ rfl, fun _ ↦ rfl, fun _ ↦ rfl⟩

theorem Exit.sound {next : Option EnvPtr} {mode : Prop} (h : Exit s mode c k next k')
    (hproper : mode) (hin : Kernel.Inside c k) (hmode : k.UserMode c) : k'.Sound := by
  obtain ⟨calls, hleave⟩ := h.leave hproper
  have hin' : Kernel.Inside c { k with totalSchedCalls := calls } := hin.of_same .of_calls
  cases hleave with
  | run ready => exact hin'.run hmode ready
  | halt call => exact hin'.halt call

/-- Outside the kernel the CPU is in user mode if it has an environment, and halted otherwise. -/
theorem Exit.cpuStatus {next : Option EnvPtr} {mode : Prop} (h : Exit s mode c k next k')
    (hmode : k.UserMode c) :
    (k'.cpus c).cpuStatus = if next = none then .halted else .started := by
  cases h with
  | resume => rw [Kernel.envRun_cpuStatus, if_neg (by simp), hmode]
  | yield call =>
    obtain ⟨e, hselect, rfl⟩ | ⟨hselect, hhalt⟩ := Kernel.schedYield_cases call
    · rw [hselect, Kernel.envRun_cpuStatus, if_neg (by simp)]
      exact hmode
    · rw [hselect, Kernel.schedHalt_ok hhalt, Kernel.setCpu_self, if_pos rfl]

theorem Exit.cpus_of_ne {next : Option EnvPtr} {mode : Prop} (h : Exit s mode c k next k')
    (hc : c' ≠ c) : k'.cpus c' = k.cpus c' := by
  cases h with
  | resume => exact Kernel.envRun_cpus_of_ne hc
  | yield call =>
    obtain ⟨e, -, rfl⟩ | ⟨-, hhalt⟩ := Kernel.schedYield_cases call
    · exact Kernel.envRun_cpus_of_ne hc
    · rw [Kernel.schedHalt_ok hhalt]
      exact Kernel.setCpu_of_ne hc

/-- The environment of a CPU outside the kernel was its environment before, or it was runnable. -/
theorem Exit.curenv {next : Option EnvPtr} {mode : Prop} {e : EnvPtr}
    (h : Exit s mode c k next k') (he : k'.curenv c' = some e) :
    k.curenv c' = some e ∨ (k.envs e).envStatus = .runnable := by
  by_cases hc : c' = c
  · subst hc
    cases h with
    | resume current =>
      rw [Kernel.envRun_curenv] at he
      exact Or.inl (he ▸ current)
    | yield call =>
      obtain ⟨e', hselect, rfl⟩ | ⟨-, hhalt⟩ := Kernel.schedYield_cases call
      · rw [Kernel.envRun_curenv] at he
        obtain rfl := Option.some.inj he
        have hready := Kernel.select_ready hselect
        exact hready.symm.imp_left And.left
      · rw [Kernel.schedHalt_ok hhalt, Kernel.curenv, Kernel.setCpu_self] at he
        cases he
  · left
    rwa [Kernel.curenv, h.cpus_of_ne hc] at he

/-! ## Whole sections -/

namespace Kernel

theorem start_cpus_of_ne (hc : c' ≠ c) : (k.start c).cpus c' = k.cpus c' := setCpu_of_ne hc

@[simp] theorem start_curenv : (k.start c).curenv = k.curenv := by
  funext c'
  by_cases hc : c' = c
  · subst hc
    simp [start, curenv]
  · exact congrArg CpuInfo.cpuEnv (start_cpus_of_ne hc)

theorem start_userMode : (k.start c).UserMode c := by simp [start, UserMode]

theorem Sound.start (h : k.Sound)
    (hcur : ∀ e, k.curenv c = some e → (k.envs e).envStatus ≠ .free) :
    Inside c (k.start c) where
  others c' hc' := (h.cpu c').congr (start_cpus_of_ne hc')
    (fun c'' e he ↦ by rwa [start_curenv] at he) (fun _ _ ↦ Or.inl rfl) (fun _ _ ↦ rfl)
  current e he := by
    rw [start_curenv] at he
    exact hcur e he
  free := h.free.congr rfl (fun _ ↦ rfl) (fun _ ↦ rfl) (fun _ ↦ rfl)

theorem Enters.userMode {ev : Event n} {call : Option Call} (h : k.Enters ev c k₁ call) :
    k₁.UserMode c := by
  cases h with
  | user mode current alive => exact start_userMode
  | _ => exact start_userMode

theorem Enters.calls {ev : Event n} {call : Option Call} (h : k.Enters ev c k₁ call) :
    k₁.totalSchedCalls = k.totalSchedCalls := by
  cases h <;> rfl

theorem Enters.cpus_of_ne {ev : Event n} {call : Option Call} (h : k.Enters ev c k₁ call)
    (hc : c' ≠ c) : k₁.cpus c' = k.cpus c' := by
  cases h with
  | user mode current alive => exact start_cpus_of_ne hc
  | _ => exact start_cpus_of_ne hc

/-- Entering the kernel. -/
theorem Enters.inside {ev : Event n} {call : Option Call} (henters : k.Enters ev c k₁ call)
    (h : k.Sound) : Inside c k₁ ∧ k₁.UserMode c := by
  have hcur : ∀ e, k.curenv c = some e → (k.envs e).envStatus ≠ .free := by
    intro e he
    rcases (h.cpu c).status e he with hstatus | hstatus <;> simp [hstatus]
  cases henters with
  | first => exact ⟨h.start hcur, start_userMode⟩
  | user mode current alive =>
    refine ⟨(h.start hcur).of_same (.of_setEnv rfl rfl rfl), ?_⟩
    exact start_userMode
  | zombie => exact ⟨h.start hcur, start_userMode⟩
  | interrupt => exact ⟨h.start hcur, start_userMode⟩

/-- The actions of a section that take no environment away from another CPU. -/
theorem Actions.inside {P : Action → Prop} {acts : List Action} (hacts : Actions c P k acts k')
    (hin : Inside c k) (hmode : k.UserMode c)
    (hspare : ∀ a, P a → ∀ e ∈ a.target, ¬ k.Elsewhere c e) : Inside c k' ∧ k'.UserMode c := by
  let inv : Kernel n → Prop := fun k₁ ↦
    (Inside c k₁ ∧ k₁.UserMode c) ∧ ∀ c' ≠ c, k₁.cpus c' = k.cpus c'
  have hinv : inv k' := by
    refine hacts.invariant ?_ ⟨⟨hin, hmode⟩, fun _ _ ↦ rfl⟩
    rintro k₁ a k₂ ⟨⟨hin₁, hmode₁⟩, hsame⟩ ⟨heffect, hP⟩
    refine ⟨⟨heffect.inside hin₁ ?_, heffect.cpuStatus.trans hmode₁⟩, fun c' hc' ↦ ?_⟩
    · rintro e he ⟨c', hc', hcur⟩
      refine hspare a hP e he ⟨c', hc', ?_⟩
      rw [curenv, ← hsame c' hc']
      exact hcur
    · rw [heffect.cpus_of_ne hc', hsame c' hc']
  exact hinv.1

theorem Actions.userMode {P : Action → Prop} {acts : List Action} (h : Actions c P k acts k')
    (hmode : k.UserMode c) : k'.UserMode c :=
  h.invariant (fun _ _ _ hk hstep ↦ hstep.1.cpuStatus.trans hk) hmode

end Kernel

section Loses

variable {acts : List Action}

/-- The current environment may be destroyed, which concerns no other CPU. -/
theorem Loses.inside (h : Loses c k acts k') (hin : Kernel.Inside c k) (hmode : k.UserMode c) :
    Kernel.Inside c k' ∧ k'.UserMode c := by
  cases h with
  | keeps => exact ⟨hin, hmode⟩
  | exit effect => exact ⟨effect.inside hin (by simp [Action.target]), effect.cpuStatus.trans hmode⟩

/-- Who is not free afterwards has not been destroyed. -/
theorem Loses.core {e : EnvPtr} (h : Loses c k acts k') (hlive : (k'.envs e).envStatus ≠ .free) :
    (k'.envs e).core = (k.envs e).core := by
  cases h with
  | keeps => rfl
  | exit effect =>
    refine effect.core_of_ne fun he ↦ hlive ?_
    obtain rfl := Option.some.inj he
    cases effect with
    | exit current call => rw [Kernel.setCurenv_envs, Kernel.envFree_self call]

theorem Loses.core_of_ne {e : EnvPtr} (h : Loses c k acts k') (he : k.curenv c ≠ some e) :
    (k'.envs e).core = (k.envs e).core := by
  cases h with
  | keeps => rfl
  | exit effect =>
    refine effect.core_of_ne fun heq ↦ he ?_
    obtain rfl := Option.some.inj heq
    cases effect with
    | exit current => exact current

theorem Loses.curenv_of_some {e : EnvPtr} (h : Loses c k acts k') (he : k'.curenv c' = some e) :
    k.curenv c' = some e := by
  cases h with
  | keeps => exact he
  | exit effect => exact effect.curenv_of_some he

theorem Loses.userMode (h : Loses c k acts k') (hmode : k.UserMode c) : k'.UserMode c := by
  cases h with
  | keeps => exact hmode
  | exit effect => exact effect.cpuStatus.trans hmode

end Loses

end SistemasOperativos.Jos
