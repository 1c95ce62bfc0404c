import SistemasOperativos.Jos.PageOps
import SistemasOperativos.Jos.Sections

/-!
# The actions of the functions of the kernel

Every function that changes the kernel is taken apart into its actions.
-/

namespace SistemasOperativos.Jos

open Library Library.Except

variable {n : ℕ} {s : Scheduler} {mode : Prop} {c : Fin n} {k k₁ k' : Kernel n}
  {P : Action → Prop}

/-! ## The scheduler -/

namespace Kernel

theorem keepsRunning_ready {e : EnvPtr} (h : k.keepsRunning c = some e) :
    k.curenv c = some e ∧ (k.envs e).envStatus = .running := by
  unfold keepsRunning at h
  cases hcur : k.curenv c with
  | none => simp [hcur] at h
  | some cur =>
    simp only [hcur] at h
    split at h
    · obtain rfl : cur = e := by simpa using h
      rename_i hrunning
      exact ⟨rfl, hrunning.1⟩
    · simp at h

theorem schedRr_ready {e : EnvPtr} (h : k.schedRr c = some e) :
    (k.envs e).envStatus = .runnable ∨ k.curenv c = some e ∧ (k.envs e).envStatus = .running := by
  unfold schedRr at h
  split at h
  · rename_i found hfind
    obtain rfl : found = e := by simpa using h
    exact Or.inl (by simpa using List.find?_some hfind)
  · exact Or.inr (keepsRunning_ready h)

theorem schedPrFrom_ready {es : List EnvPtr} {best : ℤ} {found : Option EnvPtr} {e : EnvPtr}
    (h : k.schedPrFrom es best found = some e)
    (hfound : ∀ e ∈ found, (k.envs e).envStatus = .runnable) :
    (k.envs e).envStatus = .runnable := by
  induction es generalizing best found with
  | nil => exact hfound e (by simpa [schedPrFrom] using h)
  | cons e' es ih =>
    simp only [schedPrFrom] at h
    split at h
    · obtain rfl : e' = e := by simpa using h
      rename_i hready
      exact hready.1
    · split at h
      · rename_i hready
        refine ih h fun e'' he'' ↦ ?_
        obtain rfl : e' = e'' := by simpa using he''
        exact hready.1
      · exact ih h hfound

theorem schedPr_ready {e : EnvPtr} (h : k.schedPr c = some e) :
    (k.envs e).envStatus = .runnable ∨ k.curenv c = some e ∧ (k.envs e).envStatus = .running := by
  unfold schedPr at h
  split at h
  · rename_i found hfind
    obtain rfl : found = e := by simpa using h
    exact Or.inl (schedPrFrom_ready hfind (by simp))
  · exact Or.inr (keepsRunning_ready h)

theorem select_ready {e : EnvPtr} (h : k.select s c = some e) :
    (k.envs e).envStatus = .runnable ∨ k.curenv c = some e ∧ (k.envs e).envStatus = .running := by
  cases s with
  | rr => exact schedRr_ready h
  | pr => exact schedPr_ready h

theorem mem_circular (start : ℕ) (e : EnvPtr) : e ∈ circular start := by
  unfold circular nenv
  refine List.mem_map.mpr ⟨(e.toNat + 1024 - start % 1024) % 1024, ?_, ?_⟩
  · exact List.mem_range.mpr (Nat.mod_lt _ (by decide))
  · apply BitVec.eq_of_toNat_eq
    have he := e.isLt
    rw [BitVec.toNat_ofNat]
    omega

/-- The scheduler does not look at the number of its calls. -/
theorem select_calls (calls : ℕ) : { k with totalSchedCalls := calls }.select s c = k.select s c := by
  have hstart : { k with totalSchedCalls := calls }.nextCurenvInd c = k.nextCurenvInd c := rfl
  have hkeeps : { k with totalSchedCalls := calls }.keepsRunning c = k.keepsRunning c := rfl
  have hfrom : ∀ es best found, { k with totalSchedCalls := calls }.schedPrFrom es best found =
      k.schedPrFrom es best found := by
    intro es
    induction es with
    | nil => intro best found; rfl
    | cons e es ih =>
      intro best found
      simp only [schedPrFrom, ih]
  cases s with
  | rr =>
    unfold select schedRr
    rw [hstart, hkeeps]
  | pr =>
    unfold select schedPr
    rw [hstart, hkeeps, hfrom]

/-- The scheduler runs the environment that it selects, or it halts the CPU. -/
theorem schedYield_cases (h : k.schedYield s c = .ok k') :
    (∃ e, k.select s c = some e ∧
      k' = { k with totalSchedCalls := k.totalSchedCalls + 1 }.envRun c e) ∨
    k.select s c = none ∧ { k with totalSchedCalls := k.totalSchedCalls + 1 }.schedHalt c = .ok k' := by
  unfold schedYield at h
  simp only at h
  rw [select_calls] at h
  split at h
  · rename_i e he
    exact Or.inl ⟨e, he, (Except.ok.inj h).symm⟩
  · rename_i hnone
    exact Or.inr ⟨hnone, h⟩

theorem schedYield_calls (h : k.schedYield s c = .ok k') :
    k'.totalSchedCalls = k.totalSchedCalls + 1 := by
  obtain ⟨e, -, rfl⟩ | ⟨-, hhalt⟩ := schedYield_cases h
  · exact envRun_calls
  · unfold schedHalt at hhalt
    split at hhalt
    · obtain rfl := Except.ok.inj hhalt
      rfl
    · cases hhalt

end Kernel

theorem Exit.leave {next : Option EnvPtr} (h : Exit s mode c k next k') (hmode : mode) :
    ∃ calls, Leave c { k with totalSchedCalls := calls } next k' := by
  cases h with
  | resume current running => exact ⟨k.totalSchedCalls, .run (Or.inr ⟨current, running hmode⟩)⟩
  | yield call =>
    refine ⟨k.totalSchedCalls + 1, ?_⟩
    obtain ⟨e, hselect, rfl⟩ | ⟨hselect, hhalt⟩ := Kernel.schedYield_cases call
    · rw [hselect]
      have hready := Kernel.select_ready hselect
      exact .run hready
    · rw [hselect]
      exact .halt hhalt

namespace Kernel

theorem boost_tuned : k.Tuned k.boost := by
  unfold boost
  simp only
  split
  · exact ⟨rfl, rfl, rfl, rfl, fun _ ↦ rfl, fun _ ↦ rfl, fun _ _ ↦ Ranged.one⟩
  · exact ⟨rfl, rfl, rfl, rfl, fun _ ↦ rfl, fun _ ↦ rfl, fun _ ↦ id⟩

theorem updatePriority_tuned : k.Tuned (k.updatePriority c) := by
  unfold updatePriority
  split
  · exact .refl k
  · refine Tuned.trans ?_ boost_tuned
    refine Tuned.setEnv rfl rfl fun hranged ↦ ?_
    split
    · rename_i hlow
      exact hranged.succ hlow.2
    · exact hranged

/-! ## Functions and their actions -/

/-- A function takes some actions and returns to the same environment. -/
def Stays (c : Fin n) (P : Action → Prop) (k k' : Kernel n) : Prop :=
  ∃ acts, Actions c P k acts k' ∧ k'.curenv c = k.curenv c

theorem Stays.refl (k : Kernel n) : Stays c P k k := ⟨[], .nil k, rfl⟩

theorem Stays.trans (h : Stays c P k k₁) (h' : Stays c P k₁ k') : Stays c P k k' := by
  obtain ⟨acts, hacts, hcur⟩ := h
  obtain ⟨acts', hacts', hcur'⟩ := h'
  exact ⟨acts ++ acts', hacts.append hacts', hcur'.trans hcur⟩

theorem Stays.single {a : Action} (h : Effect c k a k') (ha : P a)
    (hcur : k'.curenv c = k.curenv c) : Stays c P k k' := ⟨[a], .single ⟨h, ha⟩, hcur⟩

/-- An early return. -/
theorem Stays.of_pure {α : Type} {a a' : α}
    (h : (pure (a, k) : Except Fault (α × Kernel n)) = .ok (a', k')) : Stays c P k k' := by
  obtain ⟨-, rfl⟩ := Prod.mk.inj (pure_ok.mp h)
  exact .refl k

/-- A function takes some actions and either returns or leaves the kernel. -/
def Finishes {α : Type} (s : Scheduler) (mode : Prop) (c : Fin n) (P : Action → Prop) (k : Kernel n)
    (r : Control α × Kernel n) : Prop :=
  ∃ acts next, Ends s mode c P k acts next r

theorem Stays.finishes {α : Type} {a : α} (h : Stays c P k k') :
    Finishes s mode c P k (.returns a, k') := by
  obtain ⟨acts, hacts, hcur⟩ := h
  exact ⟨acts, none, .returns hacts hcur⟩

theorem Finishes.stays {α : Type} {a : α} (h : Finishes s mode c P k (.returns a, k')) :
    Stays c P k k' := by
  obtain ⟨acts, next, hends⟩ := h
  cases hends with
  | returns hacts hcur => exact ⟨acts, hacts, hcur⟩

/-- A function that leaves the kernel does not care what its caller waits for. -/
theorem Finishes.cast {α β : Type} (h : Finishes s mode c P k ((.leaves, k') : Control α × Kernel n)) :
    Finishes s mode c P k ((.leaves, k') : Control β × Kernel n) := by
  obtain ⟨acts, next, hends⟩ := h
  cases hends with
  | leaves hacts hloses hexit => exact ⟨acts, next, .leaves hacts hloses hexit⟩

/-- The scheduler, where a CPU gives up its environment. -/
theorem yield_finishes {α : Type} {acts : List Action} (hacts : Actions c P k acts k₁)
    (h : k₁.schedYield s c = .ok k') :
    Finishes s mode c P k ((.leaves, k') : Control α × Kernel n) :=
  ⟨acts, _, .leaves hacts .keeps (.yield h)⟩

/-- The scheduler, where a CPU has lost its environment. -/
theorem exit_finishes {α : Type} {e : EnvPtr} (hexit : Effect c k (.exit e) k₁)
    (h : k₁.schedYield s c = .ok k') :
    Finishes s mode c P k ((.leaves, k') : Control α × Kernel n) :=
  ⟨[], _, .leaves (.nil k) (.exit hexit) (.yield h)⟩

/-! ## Giving up an environment -/

/-- What `env_free` does, where it finds a page directory. -/
theorem envFree_ok {e : EnvPtr} (h : k.envFree c e = .ok k') :
    ∃ pgdir m₁ m₂, (k.envs e).envPgdir = some pgdir ∧
      unmapDir pgdir 0 (pdx utop).toNat k.memory = .ok m₁ ∧ m₁.pageDecref pgdir = .ok m₂ ∧
      k' = { k.leavePgdir c e with memory := m₂, envFreeList := some e }.setEnv e { k.envs e with
        envPgdir := none, envStatus := .free, envLink := k.envFreeList } := by
  unfold envFree at h
  simp only [leavePgdir_envs, leavePgdir_memory, leavePgdir_envFreeList] at h
  split at h
  · exact (throw_ok.mp h).elim
  · rename_i pgdir hpgdir
    simp only [bind_ok, pure_ok] at h
    obtain ⟨m₁, hunmap, m₂, hdecref, rfl⟩ := h
    exact ⟨pgdir, m₁, m₂, hpgdir, hunmap, hdecref, by simp only [leavePgdir_envs]⟩

section EnvFree

variable {e e' : EnvPtr}

theorem envFree_curenv (h : k.envFree c e = .ok k') : k'.curenv = k.curenv := by
  obtain ⟨pgdir, m₁, m₂, -, -, -, rfl⟩ := envFree_ok h
  exact leavePgdir_curenv

theorem envFree_calls (h : k.envFree c e = .ok k') : k'.totalSchedCalls = k.totalSchedCalls := by
  obtain ⟨pgdir, m₁, m₂, -, -, -, rfl⟩ := envFree_ok h
  exact leavePgdir_calls

theorem envFree_self (h : k.envFree c e = .ok k') : k'.envs e = { k.envs e with
    envPgdir := none, envStatus := .free, envLink := k.envFreeList } := by
  obtain ⟨pgdir, m₁, m₂, -, -, -, rfl⟩ := envFree_ok h
  exact setEnv_self

theorem envFree_of_ne (h : k.envFree c e = .ok k') (he : e' ≠ e) : k'.envs e' = k.envs e' := by
  obtain ⟨pgdir, m₁, m₂, -, -, -, rfl⟩ := envFree_ok h
  exact (setEnv_of_ne he).trans (congrFun leavePgdir_envs e')

theorem envFree_list (h : k.envFree c e = .ok k') : k'.envFreeList = some e := by
  obtain ⟨pgdir, m₁, m₂, -, -, -, rfl⟩ := envFree_ok h
  rfl

theorem envFree_cpus (h : k.envFree c e = .ok k') :
    ∃ cpu, k'.cpus = Function.update k.cpus c cpu ∧ cpu.cpuStatus = (k.cpus c).cpuStatus ∧
      cpu.cpuEnv = (k.cpus c).cpuEnv := by
  obtain ⟨pgdir, m₁, m₂, -, -, -, rfl⟩ := envFree_ok h
  exact leavePgdir_cpus

theorem envFree_cpus_of_ne {c' : Fin n} (h : k.envFree c e = .ok k') (hc : c' ≠ c) :
    k'.cpus c' = k.cpus c' := by
  obtain ⟨cpu, hcpus, -, -⟩ := envFree_cpus h
  rw [hcpus, Function.update_of_ne hc]

end EnvFree

theorem envDestroy_finishes {e : EnvPtr} {r : Control Unit × Kernel n}
    (h : k.envDestroy s c e = .ok r)
    (hdying : (k.envs e).envStatus = .running → k.curenv c ≠ some e → P (.dying e))
    (hfree : (k.envs e).envStatus ≠ .running → k.curenv c ≠ some e → P (.free e)) :
    Finishes s mode c P k r := by
  unfold envDestroy at h
  by_cases hother : (k.envs e).envStatus = .running ∧ k.curenv c ≠ some e
  · rw [if_pos hother] at h
    obtain rfl := pure_ok.mp h
    exact (Stays.single (.dying hother.1 hother.2) (hdying hother.1 hother.2) rfl).finishes
  · rw [if_neg hother] at h
    obtain ⟨k₁, hk₁, h⟩ := bind_ok.mp h
    have hcur : k₁.curenv = k.curenv := envFree_curenv hk₁
    split at h
    · rename_i hcurrent
      rw [hcur] at hcurrent
      obtain ⟨k₂, hk₂, h⟩ := bind_ok.mp h
      obtain rfl := pure_ok.mp h
      exact exit_finishes (.exit hcurrent hk₁) hk₂
    · rename_i hcurrent
      rw [hcur] at hcurrent
      obtain rfl := pure_ok.mp h
      have hidle : (k.envs e).envStatus ≠ .running := fun hrunning ↦ hother ⟨hrunning, hcurrent⟩
      exact Stays.finishes
        ⟨[.free e], .single ⟨.free hcurrent hk₁, hfree hidle hcurrent⟩, congrFun hcur c⟩

theorem userMemAssert_ok {e : EnvPtr} {va len perm : Word} {r : Control Unit × Kernel n}
    (h : k.userMemAssert s c e va len perm = .ok r) :
    ∃ r₀, k.memory.userMemCheck (k.envs e).envPgdir va len (perm ||| pteU) = .ok r₀ ∧
      (r₀ < 0 ∧ k.envDestroy s c e = .ok r ∨ 0 ≤ r₀ ∧ r = (.returns (), k)) := by
  unfold userMemAssert at h
  obtain ⟨r₀, hr₀, h⟩ := bind_ok.mp h
  refine ⟨r₀, hr₀, ?_⟩
  split at h
  · rename_i hneg
    exact Or.inl ⟨hneg, h⟩
  · rename_i hneg
    exact Or.inr ⟨by omega, (pure_ok.mp h).symm⟩

/-- The environment that `envid2env` finds is the current one, or it exists with that id. -/
theorem envid2env_found {envid : Word} {checkperm : Bool} {e : EnvPtr}
    (h : k.envid2env c envid checkperm = .ok (some e)) :
    k.curenv c = some e ∨ (k.envs e).envStatus ≠ .free ∧ (k.envs e).envId = envid := by
  unfold envid2env at h
  split at h
  · exact Or.inl (pure_ok.mp h)
  simp only at h
  split at h
  · simp [pure_ok] at h
  rename_i hvalid
  rw [not_or, not_not] at hvalid
  have hfound : envx envid = e := by
    split at h
    · obtain ⟨cur, -, h⟩ := bind_ok.mp h
      split at h
      · simp [pure_ok] at h
      · simpa [pure_ok] using h
    · simpa [pure_ok] using h
  rw [hfound] at hvalid
  exact Or.inr hvalid

/-- An id that names no environment any more. -/
theorem envid2env_stale {envid : Word} {checkperm : Bool} (hid : envid ≠ 0)
    (h : (k.envs (envx envid)).envStatus = .free ∨ (k.envs (envx envid)).envId ≠ envid) :
    k.envid2env c envid checkperm = .ok none := by
  unfold envid2env
  rw [if_neg hid]
  simp only
  rw [if_pos h]
  rfl

theorem envid2env_live {envid : Word} (hid : envid ≠ 0)
    (hlive : (k.envs (envx envid)).envStatus ≠ .free)
    (hsame : (k.envs (envx envid)).envId = envid) :
    k.envid2env c envid false = .ok (some (envx envid)) := by
  unfold envid2env
  rw [if_neg hid]
  simp only
  rw [if_neg (not_or.mpr ⟨hlive, not_not.mpr hsame⟩), if_neg (by simp)]
  rfl

theorem envid2env_exists {envid : Word} {checkperm : Bool} {e : EnvPtr}
    (h : k.envid2env c envid checkperm = .ok (some e)) :
    k.curenv c = some e ∨ (k.envs e).envStatus ≠ .free :=
  (envid2env_found h).imp_right And.left

/-! ## System calls that return -/

theorem envPageAlloc_memory {e : EnvPtr} {va perm : Word} {r : ℤ}
    (h : k.envPageAlloc e va perm = .ok (r, k')) : ∃ memory, k' = { k with memory } := by
  unfold envPageAlloc at h
  simp only at h
  split at h
  · obtain ⟨-, rfl⟩ := Prod.mk.inj (pure_ok.mp h)
    exact ⟨k.memory, rfl⟩
  · obtain ⟨⟨page, m⟩, -, h⟩ := bind_ok.mp h
    cases page with
    | none =>
      obtain ⟨-, rfl⟩ := Prod.mk.inj (pure_ok.mp h)
      exact ⟨m, rfl⟩
    | some p =>
      obtain ⟨⟨r', m'⟩, -, h⟩ := bind_ok.mp h
      obtain ⟨-, rfl⟩ := Prod.mk.inj (pure_ok.mp h)
      exact ⟨m', rfl⟩

theorem envPageMap_memory {src dst : EnvPtr} {srcva dstva perm : Word} {r : ℤ}
    (h : k.envPageMap src srcva dst dstva perm = .ok (r, k')) : ∃ memory, k' = { k with memory } := by
  unfold envPageMap at h
  obtain ⟨found, -, h⟩ := bind_ok.mp h
  cases found with
  | none =>
    obtain ⟨-, rfl⟩ := Prod.mk.inj (pure_ok.mp h)
    exact ⟨k.memory, rfl⟩
  | some found =>
    simp only at h
    split at h
    · obtain ⟨-, rfl⟩ := Prod.mk.inj (pure_ok.mp h)
      exact ⟨k.memory, rfl⟩
    · obtain ⟨⟨r', m'⟩, -, h⟩ := bind_ok.mp h
      obtain ⟨-, rfl⟩ := Prod.mk.inj (pure_ok.mp h)
      exact ⟨m', rfl⟩

theorem envPageAlloc_stays {e : EnvPtr} {va perm : Word} {r : ℤ}
    (h : k.envPageAlloc e va perm = .ok (r, k')) (hP : P (.pageAlloc e va perm)) :
    Stays c P k k' := by
  refine .single (.pageAlloc h) hP ?_
  obtain ⟨m, rfl⟩ := envPageAlloc_memory h
  rfl

theorem envPageMap_stays {src dst : EnvPtr} {srcva dstva perm : Word} {r : ℤ}
    (h : k.envPageMap src srcva dst dstva perm = .ok (r, k'))
    (hP : P (.pageMap src srcva dst dstva perm)) : Stays c P k k' := by
  refine .single (.pageMap h) hP ?_
  obtain ⟨m, rfl⟩ := envPageMap_memory h
  rfl

variable {r : ℤ} (call : Call)

theorem sysPageAlloc_stays (hno : call.no = .pageAlloc)
    (h : k.sysPageAlloc c call.a1 call.a2 call.a3 = .ok (r, k')) :
    Stays c (Permitted k c (some call)) k k' := by
  unfold sysPageAlloc at h
  split at h
  · exact .of_pure h
  · rename_i hva
    obtain ⟨found, hfound, h⟩ := bind_ok.mp h
    cases found with
    | none =>
      exact .of_pure h
    | some e =>
      refine envPageAlloc_stays h ⟨call, rfl, Or.inl ⟨hno, hfound, rfl, ?_⟩⟩
      simpa using hva

theorem badVa_false {va : Word} (h : badVa va = false) : va < utop ∧ va % pgsize = 0 := by
  simpa [badVa, BitVec.not_le] using h

theorem sysPageMap_stays (hno : call.no = .pageMap)
    (h : k.sysPageMap c call.a1 call.a2 call.a3 call.a4 call.a5 = .ok (r, k')) :
    Stays c (Permitted k c (some call)) k k' := by
  unfold sysPageMap at h
  split at h
  · exact .of_pure h
  rename_i hsrcva
  split at h
  · exact .of_pure h
  rename_i hdstva
  obtain ⟨found, hsrc, h⟩ := bind_ok.mp h
  cases found with
  | none =>
    exact .of_pure h
  | some src =>
    obtain ⟨found, hdst, h⟩ := bind_ok.mp h
    cases found with
    | none =>
      exact .of_pure h
    | some dst =>
      have hbelow := badVa_false (by simpa using hsrcva)
      refine envPageMap_stays h ⟨call, rfl, hbelow.1, hbelow.2, Or.inl ?_⟩
      exact ⟨hno, hsrc, rfl, hdst, rfl, by simpa using hdstva, rfl⟩

theorem sysPageUnmap_stays (hno : call.no = .pageUnmap)
    (h : k.sysPageUnmap c call.a1 call.a2 = .ok (r, k')) :
    Stays c (Permitted k c (some call)) k k' := by
  unfold sysPageUnmap at h
  split at h
  · exact .of_pure h
  rename_i hva
  obtain ⟨found, hfound, h⟩ := bind_ok.mp h
  cases found with
  | none =>
    exact .of_pure h
  | some e =>
    obtain ⟨m, hm, h⟩ := bind_ok.mp h
    obtain ⟨-, rfl⟩ := Prod.mk.inj (pure_ok.mp h)
    exact .single (.pageUnmap hm) ⟨call, rfl, hno, hfound, rfl, by simpa using hva⟩ rfl

/-- What `env_alloc` does to the table, where it finds a free slot and memory for a page
directory. -/
theorem envAlloc_ok {parent : Word} {e : EnvPtr}
    (h : k.envAlloc parent = .ok (.ok e, k')) :
    ∃ pgdir memory, k.envFreeList = some e ∧
      envSetupVm k.memory = .ok (some pgdir, memory) ∧
      k' = { k with memory, envFreeList := (k.envs e).envLink }.setEnv e { k.envs e with
        envPgdir := some pgdir
        envId := nextEnvId e (k.envs e).envId
        envParentId := parent
        envStatus := .runnable
        envRuns := 0
        envTf := { Trapframe.zero with
          tfDs := userData
          tfEs := userData
          tfSs := userData
          tfEsp := ustacktop
          tfCs := userText
          tfEflags := flIf }
        envPgfaultUpcall := 0
        envIpcRecving := false } := by
  unfold envAlloc at h
  split at h
  · simp at h
  · rename_i e' hhead
    obtain ⟨⟨pgdir, memory⟩, hvm, h⟩ := bind_ok.mp h
    cases pgdir with
    | none => simp [pure_ok] at h
    | some pgdir =>
      simp only [pure_ok, Prod.mk.injEq, Except.ok.injEq] at h
      obtain ⟨rfl, rfl⟩ := h
      exact ⟨pgdir, memory, hhead, hvm, rfl⟩

theorem envSetupVm_none {m m' : Memory} (h : envSetupVm m = .ok (none, m')) :
    m.pageFreeList = none ∧ m' = m := by
  unfold envSetupVm at h
  obtain ⟨⟨page, m₁⟩, halloc, h⟩ := bind_ok.mp h
  cases page with
  | none =>
    simp only [pure_ok, Prod.mk.injEq, true_and] at h
    rw [← h]
    exact Memory.pageAlloc_none halloc
  | some p => simp [pure_ok] at h

/-- A new environment takes the first free slot, and a page. -/
theorem envAlloc_needs {parent : Word} {e : EnvPtr} (h : k.envAlloc parent = .ok (.ok e, k')) :
    k.envFreeList = some e ∧ k.memory.pageFreeList ≠ none := by
  obtain ⟨pgdir, memory, hhead, hvm, -⟩ := envAlloc_ok h
  refine ⟨hhead, fun hnone ↦ ?_⟩
  unfold envSetupVm Memory.pageAlloc at hvm
  rw [hnone] at hvm
  simp [bind, Except.bind, pure, Except.pure] at hvm

/-- Where `env_alloc` returns an error, a slot or a page is missing, and it changes nothing. -/
theorem envAlloc_error {parent : Word} {r : ℤ} (h : k.envAlloc parent = .ok (.error r, k')) :
    k' = k ∧ (k.envFreeList = none ∨ k.memory.pageFreeList = none) := by
  unfold envAlloc at h
  split at h
  · rename_i hnone
    simp only [Except.ok.injEq, Prod.mk.injEq] at h
    exact ⟨h.2.symm, Or.inl hnone⟩
  · obtain ⟨⟨pgdir, memory⟩, hvm, h⟩ := bind_ok.mp h
    cases pgdir with
    | none =>
      simp only [pure_ok, Prod.mk.injEq] at h
      obtain ⟨hnone, hsame⟩ := envSetupVm_none hvm
      exact ⟨by rw [← h.2, hsame], Or.inr hnone⟩
    | some pgdir => simp [pure_ok] at h

theorem theCurenv_ok {cur : EnvPtr} (h : k.theCurenv c = .ok cur) : k.curenv c = some cur := by
  unfold theCurenv at h
  split at h
  · rename_i e he
    rw [he, Except.ok.inj h]
  · simp at h

/-- `sys_exofork` makes a new environment, or a slot or a page for it is missing. -/
theorem sysExofork_ok (h : k.sysExofork c = .ok (r, k')) :
    k' = k ∧ (k.envFreeList = none ∨ k.memory.pageFreeList = none) ∨
    ∃ e cur k₁ env, k.curenv c = some cur ∧ k.envAlloc (k.envs cur).envId = .ok (.ok e, k₁) ∧
      env.envStatus = .notRunnable ∧
      env.core = { k₁.envs e with envStatus := env.envStatus, envTf := env.envTf }.core ∧
      (k₁.setEnv e { k₁.envs e with
          envStatus := env.envStatus, envTf := env.envTf }).sysGetPriority c (k.envs cur).envId =
        .ok env.priority ∧
      k' = k₁.setEnv e env := by
  unfold sysExofork at h
  obtain ⟨cur, hcur, h⟩ := bind_ok.mp h
  obtain ⟨⟨res, k₁⟩, halloc, h⟩ := bind_ok.mp h
  cases res with
  | error e =>
    obtain ⟨-, rfl⟩ := Prod.mk.inj (pure_ok.mp h)
    exact Or.inl (envAlloc_error halloc)
  | ok e =>
    obtain ⟨priority, hpriority, h⟩ := bind_ok.mp h
    obtain ⟨-, rfl⟩ := Prod.mk.inj (pure_ok.mp h)
    rw [setEnv_setEnv]
    refine Or.inr ⟨e, cur, k₁, _, theCurenv_ok hcur, halloc, ?_, ?_, ?_, rfl⟩
    · rw [setEnv_self]
    · rw [setEnv_self]
      rfl
    · obtain ⟨pgdir, memory, -, -, rfl⟩ := envAlloc_ok halloc
      simpa using hpriority

theorem sysExofork_stays (hno : call.no = .exofork) (h : k.sysExofork c = .ok (r, k')) :
    Stays c (Permitted k c (some call)) k k' := by
  obtain ⟨rfl, -⟩ | ⟨e, cur, k₁, env, hcur, halloc, hstatus, hcore, hpriority, rfl⟩ :=
    sysExofork_ok h
  · exact .refl k'
  · refine .single (.spawn halloc (Or.inr hstatus) hcore (.fork hcur hpriority)) ⟨call, rfl, hno⟩ ?_
    obtain ⟨pgdir, memory, -, -, rfl⟩ := envAlloc_ok halloc
    rfl

theorem sysEnvSetStatus_stays (hno : call.no = .envSetStatus)
    (h : k.sysEnvSetStatus c call.a1 call.a2 = .ok (r, k')) :
    Stays c (Permitted k c (some call)) k k' := by
  unfold sysEnvSetStatus at h
  split at h
  · exact .of_pure h
  rename_i status hstatus
  obtain ⟨found, hfound, h⟩ := bind_ok.mp h
  cases found with
  | none => exact .of_pure h
  | some e =>
    obtain ⟨-, rfl⟩ := Prod.mk.inj (pure_ok.mp h)
    refine .single (.setStatus rfl (envid2env_exists hfound) ?_) ⟨call, rfl, hno, hstatus, hfound, rfl⟩ rfl
    unfold settable at hstatus
    split at hstatus
    · exact Or.inl (by simpa using hstatus.symm)
    · split at hstatus
      · exact Or.inr (by simpa using hstatus.symm)
      · simp at hstatus

theorem sysIncPriority_stays {envid : Word} (hP : P .tune)
    (h : k.sysIncPriority c envid = .ok (r, k')) : Stays c P k k' := by
  unfold sysIncPriority at h
  obtain ⟨found, -, h⟩ := bind_ok.mp h
  cases found with
  | none => exact .of_pure h
  | some e =>
    obtain ⟨cur, -, h⟩ := bind_ok.mp h
    simp only at h
    split at h
    · exact .of_pure h
    · split at h
      · rename_i hnotOne
        obtain ⟨-, rfl⟩ := Prod.mk.inj (pure_ok.mp h)
        exact .single (.tune (.setEnv rfl rfl fun hranged ↦ hranged.pred hnotOne)) hP rfl
      · exact .of_pure h

theorem sysRedPriority_stays {envid : Word} (hP : P .tune)
    (h : k.sysRedPriority c envid = .ok (r, k')) : Stays c P k k' := by
  unfold sysRedPriority at h
  obtain ⟨found, -, h⟩ := bind_ok.mp h
  cases found with
  | none => exact .of_pure h
  | some e =>
    simp only at h
    split at h
    · rename_i hlow
      obtain ⟨-, rfl⟩ := Prod.mk.inj (pure_ok.mp h)
      exact .single (.tune (.setEnv rfl rfl fun hranged ↦ hranged.succ hlow)) hP rfl
    · exact .of_pure h

/-! ## Messages -/

theorem checkPerm_cases (perm : Word) (pte : Option Word) :
    checkPerm perm pte = 0 ∨ checkPerm perm pte = -eInval := by
  unfold checkPerm
  split_ifs
  · exact Or.inr rfl
  · exact Or.inr rfl
  · cases pte with
    | none => exact Or.inl rfl
    | some w =>
      simp only
      split_ifs <;> simp

theorem checkPerm_of_envPageAlloc {e : EnvPtr} {va perm : Word}
    (h : k.envPageAlloc e va perm = .ok (r, k')) (hr : 0 ≤ r) : checkPerm perm none = 0 := by
  rcases checkPerm_cases perm none with hcheck | hcheck
  · exact hcheck
  · unfold envPageAlloc at h
    simp only [hcheck] at h
    rw [if_pos (by decide)] at h
    obtain ⟨rfl, -⟩ := Prod.mk.inj (pure_ok.mp h)
    exact absurd hr (by decide)

/-- The message of `sys_ipc_try_send` may bring a page along. -/
theorem ipcSendPage_stays {inp : Input} {cur dst : EnvPtr} (hno : call.no = .ipcTrySend)
    (hdst : k.envid2env c call.a1 false = .ok (some dst))
    (hrecving : (k.envs dst).envIpcRecving = true) (hcur : k.curenv c = some cur)
    (hsrcva : call.a3 < utop)
    (h : k.ipcSendPage inp cur dst call.a3 call.a4 = .ok (r, k')) :
    Stays c (Permitted k c (some call)) k k' ∧ k'.cpus = k.cpus ∧
      ∀ e, (k'.envs e).core = (k.envs e).core := by
  unfold ipcSendPage at h
  split at h
  · obtain ⟨-, rfl⟩ := Prod.mk.inj (pure_ok.mp h)
    exact ⟨.refl k, rfl, fun _ ↦ rfl⟩
  rename_i haligned
  obtain ⟨srcpte, -, h⟩ := bind_ok.mp h
  split at h
  · obtain ⟨-, rfl⟩ := Prod.mk.inj (pure_ok.mp h)
    exact ⟨.refl k, rfl, fun _ ↦ rfl⟩
  split at h
  · obtain ⟨-, rfl⟩ := Prod.mk.inj (pure_ok.mp h)
    exact ⟨.refl k, rfl, fun _ ↦ rfl⟩
  simp only at h
  split at h
  · obtain ⟨-, rfl⟩ := Prod.mk.inj (pure_ok.mp h)
    exact ⟨.refl k, rfl, fun _ ↦ rfl⟩
  obtain ⟨⟨r₁, k₁⟩, halloc, h⟩ := bind_ok.mp h
  obtain ⟨m₁, rfl⟩ := envPageAlloc_memory halloc
  have hstays := envPageAlloc_stays (c := c) (P := Permitted k c (some call)) halloc
    ⟨call, rfl, Or.inr ⟨hno, hdst, hrecving, rfl⟩⟩
  simp only at h
  split at h
  · obtain ⟨-, rfl⟩ := Prod.mk.inj (pure_ok.mp h)
    exact ⟨hstays, rfl, fun _ ↦ rfl⟩
  rename_i hr₁
  obtain ⟨⟨r₂, k₂⟩, hmap, h⟩ := bind_ok.mp h
  obtain ⟨m₂, rfl⟩ := envPageMap_memory hmap
  have hstays' := envPageMap_stays (c := c) (P := Permitted k c (some call)) hmap
    ⟨call, rfl, hsrcva, by simpa using haligned, Or.inr ⟨hno, hcur, rfl, hdst, hrecving, rfl,
      checkPerm_of_envPageAlloc halloc (by omega)⟩⟩
  simp only at h
  split at h
  · obtain ⟨-, rfl⟩ := Prod.mk.inj (pure_ok.mp h)
    exact ⟨hstays.trans hstays', rfl, fun _ ↦ rfl⟩
  · obtain ⟨-, rfl⟩ := Prod.mk.inj (pure_ok.mp h)
    have htuned : Tuned { k with memory := m₂ } ({ k with memory := m₂ }.setEnv dst
        { k.envs dst with envIpcPerm := call.a4 ||| pteU ||| pteP }) := .setEnv rfl rfl id
    exact ⟨(hstays.trans hstays').trans (.single (.tune htuned) trivial rfl), rfl, htuned.core⟩

/-- Either the message is refused, or it is delivered to an environment that is receiving. -/
theorem sysIpcTrySend_cases {inp : Input} (hno : call.no = .ipcTrySend)
    (h : k.sysIpcTrySend c inp call.a1 call.a2 call.a3 call.a4 = .ok (r, k')) :
    r < 0 ∧ Stays c (Permitted k c (some call)) k k' ∨
    r = 0 ∧ ∃ k₁ cur dst, Stays c (Permitted k c (some call)) k k₁ ∧
      (k₁.cpus = k.cpus ∧ ∀ e, (k₁.envs e).core = (k.envs e).core) ∧
      Effect c k₁ (.deliver cur dst call.a2) k' ∧
      Permitted k c (some call) (.deliver cur dst call.a2) := by
  unfold sysIpcTrySend at h
  obtain ⟨found, hdst, h⟩ := bind_ok.mp h
  cases found with
  | none =>
    obtain ⟨rfl, rfl⟩ := Prod.mk.inj (pure_ok.mp h)
    exact Or.inl ⟨by decide, .refl k⟩
  | some dst =>
    simp only at h
    split at h
    · obtain ⟨rfl, rfl⟩ := Prod.mk.inj (pure_ok.mp h)
      exact Or.inl ⟨by decide, .refl k⟩
    rename_i hrecving
    rw [Bool.not_eq_false] at hrecving
    obtain ⟨cur, hcur, h⟩ := bind_ok.mp h
    have hcur := theCurenv_ok hcur
    have hpermitted : Permitted k c (some call) (.deliver cur dst call.a2) :=
      ⟨call, rfl, hno, hcur, hdst, hrecving, rfl⟩
    split at h
    · obtain ⟨rfl, rfl⟩ := Prod.mk.inj (pure_ok.mp h)
      have htuned : k.Tuned (k.setEnv dst { k.envs dst with envIpcPerm := 0 }) := .setEnv rfl rfl id
      refine Or.inr ⟨rfl, _, cur, dst, .single (.tune htuned) trivial rfl, ⟨rfl, htuned.core⟩,
        .deliver hcur ?_ ?_, hpermitted⟩
      · rw [setEnv_self]
        exact envid2env_exists hdst
      · rw [setEnv_self]
        exact hrecving
    · rename_i hsrcva
      obtain ⟨⟨r₁, k₁⟩, hsend, h⟩ := bind_ok.mp h
      obtain ⟨hstays, hcpus, hcore⟩ := ipcSendPage_stays call hno hdst hrecving hcur
        (BitVec.not_le.mp hsrcva) hsend
      simp only at h
      split at h
      · rename_i hneg
        obtain ⟨rfl, rfl⟩ := Prod.mk.inj (pure_ok.mp h)
        exact Or.inl ⟨hneg, hstays⟩
      · obtain ⟨rfl, rfl⟩ := Prod.mk.inj (pure_ok.mp h)
        have hcur₁ : k₁.curenv c = some cur := by rw [curenv, hcpus, ← curenv, hcur]
        have hstatus : (k₁.envs dst).envStatus = (k.envs dst).envStatus :=
          Env.eq_of_core Env.envStatus (fun _ ↦ rfl) (hcore dst)
        have hstill : (k₁.envs dst).envIpcRecving = true :=
          (Env.eq_of_core Env.envIpcRecving (fun _ ↦ rfl) (hcore dst)).trans hrecving
        refine Or.inr ⟨rfl, k₁, cur, dst, hstays, ⟨hcpus, hcore⟩, .deliver hcur₁ ?_ hstill,
          hpermitted⟩
        rw [hcur₁, ← hcur, hstatus]
        exact envid2env_exists hdst

theorem sysIpcTrySend_stays {inp : Input} (hno : call.no = .ipcTrySend)
    (h : k.sysIpcTrySend c inp call.a1 call.a2 call.a3 call.a4 = .ok (r, k')) :
    Stays c (Permitted k c (some call)) k k' := by
  rcases sysIpcTrySend_cases call hno h with ⟨-, hstays⟩ | ⟨-, k₁, cur, dst, hstays, -, hdeliver, hP⟩
  · exact hstays
  · refine hstays.trans (.single hdeliver hP ?_)
    cases hdeliver
    rfl

/-! ## System calls that may give up the CPU -/

theorem returning_ok {x : Except Fault (ℤ × Kernel n)} {res : Control ℤ × Kernel n}
    (h : returning x = .ok res) : ∃ r, res.1 = .returns r ∧ x = .ok (r, res.2) := by
  obtain ⟨⟨r, k₁⟩, hx, h⟩ := bind_ok.mp h
  obtain rfl := pure_ok.mp h
  exact ⟨r, rfl, hx⟩

theorem returning_finishes {x : Except Fault (ℤ × Kernel n)} {res : Control ℤ × Kernel n}
    (h : returning x = .ok res) (hstays : ∀ r k', x = .ok (r, k') → Stays c P k k') :
    Finishes s mode c P k res := by
  obtain ⟨control, k'⟩ := res
  obtain ⟨r, hreturn, hx⟩ := returning_ok h
  obtain rfl : control = .returns r := hreturn
  exact (hstays r k' hx).finishes

/-- A system call that only reads. -/
theorem reading_stays {x : Except Fault ℤ} {r : ℤ} (h : ((·, k) <$> x) = .ok (r, k')) :
    Stays c P k k' := by
  obtain ⟨_, -, heq⟩ := map_ok.mp h
  obtain ⟨-, rfl⟩ := Prod.mk.inj heq
  exact .refl k

theorem sysIpcRecv_finishes {res : Control ℤ × Kernel n} (hno : call.no = .ipcRecv)
    (h : k.sysIpcRecv s c call.a1 = .ok res) : Finishes s mode c (Permitted k c (some call)) k res := by
  unfold sysIpcRecv at h
  obtain ⟨cur, hcur, h⟩ := bind_ok.mp h
  have hcur := theCurenv_ok hcur
  simp only at h
  split at h
  · rename_i hva
    obtain rfl := pure_ok.mp h
    exact (Stays.single (.refuse hcur) ⟨call, rfl, hno, hcur, hva⟩ rfl).finishes
  · rename_i hva
    obtain ⟨k₁, hyield, h⟩ := bind_ok.mp h
    obtain rfl := pure_ok.mp h
    rw [setEnv_setEnv, setEnv_self] at hyield
    exact yield_finishes
      (.single ⟨.await hcur, call, rfl, hno, hcur, rfl, by simpa using hva⟩) hyield

/-- Destroying the current environment never returns. -/
theorem envDestroy_not_returns {e : EnvPtr} {u : Unit} (hcur : k.curenv c = some e) :
    k.envDestroy s c e ≠ .ok (.returns u, k') := by
  intro h
  unfold envDestroy at h
  rw [if_neg (by simp [hcur])] at h
  obtain ⟨k₁, hk₁, h⟩ := bind_ok.mp h
  rw [if_pos (by rw [envFree_curenv hk₁, hcur])] at h
  obtain ⟨k₂, -, h⟩ := bind_ok.mp h
  exact absurd (pure_ok.mp h) (by simp)

/-- The current environment is destroyed. -/
theorem envDestroy_current {e : EnvPtr} {r : Control Unit × Kernel n} {call : Option Call}
    (hcur : k.curenv c = some e) (h : k.envDestroy s c e = .ok r) :
    Finishes s mode c (Permitted k c call) k r :=
  envDestroy_finishes h (fun _ hother ↦ absurd hcur hother) fun _ hother ↦ absurd hcur hother

/-- A system call destroys the environment that its first argument names. -/
theorem envDestroy_named {e : EnvPtr} {r : Control Unit × Kernel n}
    (hfound : k.envid2env c call.a1 true = .ok (some e))
    (hno : call.no = .envDestroy ∨ call.no = .envSetPgfaultUpcall ∧ ∃ r < 0,
      k.memory.userMemCheck (k.envs e).envPgdir call.a2 pgsize (pteP ||| pteU) = .ok r)
    (h : k.envDestroy s c e = .ok r) : Finishes s mode c (Permitted k c (some call)) k r := by
  exact envDestroy_finishes h (fun _ _ ↦ ⟨call, rfl, hfound⟩)
    fun hidle _ ↦ ⟨call, rfl, hfound, hidle, hno⟩

theorem sysCputs_finishes {va len : Word} {res : Control ℤ × Kernel n} {call : Option Call}
    (h : k.sysCputs s c va len = .ok res) : Finishes s mode c (Permitted k c call) k res := by
  unfold sysCputs at h
  obtain ⟨cur, hcur, h⟩ := bind_ok.mp h
  have hcur := theCurenv_ok hcur
  obtain ⟨⟨control, k₁⟩, hassert, h⟩ := bind_ok.mp h
  obtain ⟨r₀, -, ⟨-, hdestroy⟩ | ⟨-, hpass⟩⟩ := userMemAssert_ok hassert
  · have hfin : Finishes s mode c (Permitted k c call) k (control, k₁) :=
      envDestroy_current hcur hdestroy
    cases control with
    | leaves =>
      obtain rfl := pure_ok.mp h
      exact hfin.cast
    | returns u =>
      obtain rfl := pure_ok.mp h
      exact hfin.stays.finishes
  · rw [Prod.mk.injEq] at hpass
    obtain ⟨hcontrol, rfl⟩ := hpass
    subst hcontrol
    obtain rfl := pure_ok.mp h
    exact (Stays.refl k₁).finishes

theorem sysEnvDestroy_finishes {res : Control ℤ × Kernel n} (hno : call.no = .envDestroy)
    (h : k.sysEnvDestroy s c call.a1 = .ok res) :
    Finishes s mode c (Permitted k c (some call)) k res := by
  unfold sysEnvDestroy at h
  obtain ⟨found, hfound, h⟩ := bind_ok.mp h
  cases found with
  | none =>
    obtain rfl := pure_ok.mp h
    exact (Stays.refl k).finishes
  | some e =>
    obtain ⟨⟨control, k₁⟩, hdestroy, h⟩ := bind_ok.mp h
    have hfin : Finishes s mode c (Permitted k c (some call)) k (control, k₁) :=
      envDestroy_named call hfound (Or.inl hno) hdestroy
    cases control with
    | leaves =>
      obtain rfl := pure_ok.mp h
      exact hfin.cast
    | returns u =>
      obtain rfl := pure_ok.mp h
      exact hfin.stays.finishes

theorem sysEnvSetPgfaultUpcall_finishes {res : Control ℤ × Kernel n}
    (hno : call.no = .envSetPgfaultUpcall)
    (h : k.sysEnvSetPgfaultUpcall s c call.a1 call.a2 = .ok res) :
    Finishes s mode c (Permitted k c (some call)) k res := by
  unfold sysEnvSetPgfaultUpcall at h
  obtain ⟨found, hfound, h⟩ := bind_ok.mp h
  cases found with
  | none =>
    obtain rfl := pure_ok.mp h
    exact (Stays.refl k).finishes
  | some e =>
    obtain ⟨⟨control, k₁⟩, hassert, h⟩ := bind_ok.mp h
    obtain ⟨r₀, hr₀, ⟨hneg, hdestroy⟩ | ⟨-, hpass⟩⟩ := userMemAssert_ok hassert
    · have hfin : Finishes s mode c (Permitted k c (some call)) k (control, k₁) :=
        envDestroy_named call hfound (Or.inr ⟨hno, r₀, hneg, hr₀⟩) hdestroy
      cases control with
      | leaves =>
        obtain rfl := pure_ok.mp h
        exact hfin.cast
      | returns u =>
        obtain rfl := pure_ok.mp h
        exact (hfin.stays.trans
          (.single .upcall ⟨call, rfl, hno, hfound, rfl⟩ rfl)).finishes
    · rw [Prod.mk.injEq] at hpass
      obtain ⟨hcontrol, rfl⟩ := hpass
      subst hcontrol
      obtain rfl := pure_ok.mp h
      exact (Stays.single .upcall ⟨call, rfl, hno, hfound, rfl⟩ rfl).finishes

/-- Every system call is a sequence of actions that its number permits. -/
theorem syscall_finishes {inp : Input} {no : Word} {a1 a2 a3 a4 a5 : Word}
    {res : Control ℤ × Kernel n} (h : k.syscall s c inp no a1 a2 a3 a4 a5 = .ok res) :
    Finishes s mode c
      (Permitted k c ((Sysno.ofWord no).map fun no ↦ ⟨no, a1, a2, a3, a4, a5⟩)) k res := by
  unfold syscall at h
  cases hno : Sysno.ofWord no with
  | none =>
    simp only [hno] at h
    obtain rfl := Except.ok.inj h
    exact (Stays.refl k).finishes
  | some no =>
    simp only [hno] at h
    rw [Option.map_some]
    cases no with
    | cputs => exact sysCputs_finishes h
    | cgetc =>
      obtain rfl := Except.ok.inj h
      exact (Stays.refl k).finishes
    | getenvid => exact returning_finishes h fun _ _ ↦ reading_stays
    | envDestroy => exact sysEnvDestroy_finishes ⟨_, a1, a2, a3, a4, a5⟩ rfl h
    | pageAlloc => exact returning_finishes h fun _ _ ↦ sysPageAlloc_stays ⟨_, a1, a2, a3, a4, a5⟩ rfl
    | pageMap => exact returning_finishes h fun _ _ ↦ sysPageMap_stays ⟨_, a1, a2, a3, a4, a5⟩ rfl
    | pageUnmap => exact returning_finishes h fun _ _ ↦ sysPageUnmap_stays ⟨_, a1, a2, a3, a4, a5⟩ rfl
    | exofork => exact returning_finishes h fun _ _ ↦ sysExofork_stays ⟨_, a1, a2, a3, a4, a5⟩ rfl
    | envSetStatus => exact returning_finishes h fun _ _ ↦ sysEnvSetStatus_stays ⟨_, a1, a2, a3, a4, a5⟩ rfl
    | envSetPgfaultUpcall => exact sysEnvSetPgfaultUpcall_finishes ⟨_, a1, a2, a3, a4, a5⟩ rfl h
    | yield =>
      obtain ⟨k', hyield, rfl⟩ := map_ok.mp h
      exact yield_finishes (.nil k) hyield
    | ipcTrySend => exact returning_finishes h fun _ _ ↦ sysIpcTrySend_stays ⟨_, a1, a2, a3, a4, a5⟩ rfl
    | ipcRecv => exact sysIpcRecv_finishes ⟨_, a1, a2, a3, a4, a5⟩ rfl h
    | incPriority => exact returning_finishes h fun _ _ ↦ sysIncPriority_stays trivial
    | redPriority => exact returning_finishes h fun _ _ ↦ sysRedPriority_stays trivial
    | getPriority => exact returning_finishes h fun _ _ ↦ reading_stays

/-! ## Traps -/

end Kernel

theorem Memory.storeBytes_writes {m m' : Memory} {cr3 : Ppn} {va : Word} {bs : List (BitVec 8)}
    (h : m.storeBytes cr3 va bs = .ok m') (hva : va.toNat + bs.length ≤ utop.toNat) :
    m.Writes cr3 kernelWrite m' := by
  induction bs generalizing m va with
  | nil =>
    obtain rfl := Except.ok.inj h
    exact .nil m
  | cons b bs ih =>
    obtain ⟨m₁, hstore, h⟩ := bind_ok.mp h
    rw [List.length_cons] at hva
    have hutop : utop.toNat = 0xeec00000 := rfl
    have hlt : va < utop := BitVec.lt_def.mpr (by omega)
    refine .cons hlt hstore (ih h ?_)
    rw [BitVec.toNat_add]
    have hone : (1 : Word).toNat = 1 := rfl
    omega

theorem UTrapframe.length_bytes (utf : UTrapframe) : utf.bytes.length = 52 := rfl

/-- The frame lies on the exception stack, where the kernel does not stop over it. -/
theorem pushUtf_writes {cr3 : Ppn} {utf : UTrapframe} {m m' : Memory}
    (h : pushUtf cr3 utf m = .ok m')
    (hlow : ¬ (utfAddress utf.utfEsp < exstk ∨ exstkTop < utfAddress utf.utfEsp)) :
    m.Writes cr3 Memory.kernelWrite m' := by
  unfold pushUtf at h
  rw [not_or, BitVec.not_lt, BitVec.not_lt] at hlow
  have hexstk : exstk.toNat = 0xeebff000 := rfl
  have htop : exstkTop.toNat = 0xeebfffff := rfl
  have hutop : utop.toNat = 0xeec00000 := rfl
  have hsize : utfSize.toNat = 52 := rfl
  have haddress : (utfAddress utf.utfEsp).toNat + utf.bytes.length ≤ utop.toNat := by
    rw [utf.length_bytes]
    unfold utfAddress at hlow ⊢
    split at hlow
    · rename_i hout
      rw [if_pos hout]
      decide
    · rename_i hin
      rw [if_neg hin]
      rw [not_or, BitVec.not_lt, BitVec.not_lt] at hin
      bv_omega
  simp only at h
  split at h
  · obtain ⟨m₁, hm₁, h⟩ := bind_ok.mp h
    obtain rfl := pure_ok.mp hm₁
    exact Memory.storeBytes_writes h haddress
  · rename_i hin
    obtain ⟨m₁, hscratch, h⟩ := bind_ok.mp h
    rw [not_or, BitVec.not_lt, BitVec.not_lt] at hin
    have hword : (wordBytes 0).length = 4 := rfl
    have hscratch_va : (utf.utfEsp - 4).toNat + (wordBytes 0).length ≤ utop.toNat := by
      rw [hword]
      bv_omega
    exact (Memory.storeBytes_writes hscratch hscratch_va).trans
      (Memory.storeBytes_writes h haddress)

namespace Kernel

/-- The kernel goes on from `k` by some actions and leaves. -/
def Leaves (s : Scheduler) (mode : Prop) (c : Fin n) (P : Action → Prop) (k k' : Kernel n) : Prop :=
  Finishes s mode c P k ((.leaves, k') : Control Unit × Kernel n)

theorem Stays.setTf {cur : EnvPtr} {tf : Trapframe} (hcur : k.curenv c = some cur)
    (hP : P (.frame cur tf)) : Stays c P k (k.setTf (some cur) tf) :=
  .single (.frame tf hcur) hP rfl

theorem pageFaultHandler_finishes {cur : EnvPtr} {tf : Trapframe} {faultVa : Word}
    {call : Option Call} {res : Control Unit × Kernel n} (hcur : k.curenv c = some cur)
    (hrunning : mode → (k.envs cur).envStatus = .running)
    (h : k.pageFaultHandler s c (some cur) tf faultVa = .ok res) :
    Finishes s mode c (Permitted k c call) k res := by
  unfold pageFaultHandler at h
  split at h
  · obtain ⟨_, h, -⟩ := bind_ok.mp h
    exact (throw_ok.mp h).elim
  obtain ⟨cur', hcur', h⟩ := bind_ok.mp h
  obtain rfl : cur = cur' := by simpa [hcur] using theCurenv_ok hcur'
  simp only at h
  split at h
  · exact envDestroy_current hcur h
  obtain ⟨⟨control, k₁⟩, hassert, h⟩ := bind_ok.mp h
  obtain ⟨r₀, -, ⟨-, hdestroy⟩ | ⟨-, hpass⟩⟩ := userMemAssert_ok hassert
  · cases control with
    | leaves =>
      obtain rfl := pure_ok.mp h
      exact envDestroy_current hcur hdestroy
    | returns u => exact absurd hdestroy (envDestroy_not_returns hcur)
  · rw [Prod.mk.injEq] at hpass
    obtain ⟨hcontrol, rfl⟩ := hpass
    subst hcontrol
    obtain ⟨m, hpush, h⟩ := bind_ok.mp h
    split at h
    · obtain ⟨_, h, -⟩ := bind_ok.mp h
      exact (throw_ok.mp h).elim
    rename_i hlow
    obtain rfl := pure_ok.mp h
    have hwrite : Stays c (Permitted k₁ c call) k₁ { k₁ with memory := m } :=
      .single (.write (pushUtf_writes hpush hlow)) trivial rfl
    obtain ⟨acts, hacts, hsame⟩ := hwrite.trans (.setTf hcur trivial)
    refine ⟨acts, some cur, .leaves hacts .keeps (.resume (hsame.trans hcur) fun hmode ↦ ?_)⟩
    simpa [setTf] using hrunning hmode

theorem trapDispatch_finishes {cur : EnvPtr} {tf : Trapframe} {faultVa : Word} {inp : Input}
    {res : Control Unit × Kernel n} (hcur : k.curenv c = some cur)
    (hrunning : mode → (k.envs cur).envStatus = .running)
    (h : k.trapDispatch s c (some cur) tf faultVa inp = .ok res) :
    Finishes s mode c (Permitted k c tf.call) k res := by
  unfold trapDispatch at h
  split at h
  · obtain rfl := pure_ok.mp h
    exact (Stays.refl k).finishes
  split at h
  · exact pageFaultHandler_finishes hcur hrunning h
  split at h
  · rename_i hsyscall
    obtain ⟨⟨control, k₁⟩, hcall, h⟩ := bind_ok.mp h
    have hfin : Finishes s mode c _ k (control, k₁) := syscall_finishes hcall
    have hpermitted : tf.call = (Sysno.ofWord tf.tfRegs.regEax).map fun no ↦
        ⟨no, tf.tfRegs.regEdx, tf.tfRegs.regEcx, tf.tfRegs.regEbx, tf.tfRegs.regEdi,
          tf.tfRegs.regEsi⟩ := by
      unfold Trapframe.call
      rw [if_pos hsyscall]
    rw [← hpermitted] at hfin
    cases control with
    | leaves =>
      obtain rfl := pure_ok.mp h
      exact hfin.cast
    | returns r =>
      obtain rfl := pure_ok.mp h
      have hcur₁ : k₁.curenv c = some cur := by
        obtain ⟨acts, -, hsame⟩ := hfin.stays
        rw [hsame, hcur]
      exact (hfin.stays.trans (.setTf hcur₁ trivial)).finishes
  split at h
  · obtain rfl := pure_ok.mp h
    exact (Stays.refl k).finishes
  split at h
  · obtain ⟨k₁, hyield, h⟩ := bind_ok.mp h
    obtain rfl := pure_ok.mp h
    exact yield_finishes (.single ⟨.tune updatePriority_tuned, trivial⟩) hyield
  split at h
  · obtain ⟨_, h, -⟩ := bind_ok.mp h
    exact (throw_ok.mp h).elim
  obtain ⟨cur', hcur', h⟩ := bind_ok.mp h
  obtain rfl : cur = cur' := by simpa [hcur] using theCurenv_ok hcur'
  exact envDestroy_current hcur h

/-- Where `trap_dispatch` returns, the CPU goes on with its environment if that is still running, and
otherwise with what the scheduler chooses. -/
theorem trapReturn_exit (mode : Prop) {u : Unit} (h : trapReturn s c (.returns u, k) = .ok k') :
    ∃ next, Exit s mode c k next k' := by
  simp only [trapReturn] at h
  split at h
  · exact ⟨_, .yield h⟩
  · rename_i cur hcur
    split at h
    · rename_i hrunning
      obtain rfl := Except.ok.inj h
      exact ⟨some cur, .resume hcur fun _ ↦ hrunning⟩
    · exact ⟨_, .yield h⟩

theorem trapReturn_leaves {res : Control Unit × Kernel n} (hfin : Finishes s mode c P k res)
    (h : trapReturn s c res = .ok k') : Leaves s mode c P k k' := by
  obtain ⟨control, k₁⟩ := res
  cases control with
  | leaves =>
    obtain rfl := Except.ok.inj h
    exact hfin
  | returns u =>
    obtain ⟨acts, hacts, -⟩ := hfin.stays
    obtain ⟨next, hexit⟩ := trapReturn_exit mode h
    exact ⟨acts, next, .leaves hacts .keeps hexit⟩

/-- The interrupt of a halted CPU. -/
theorem interrupt_finishes {tf : Trapframe} {faultVa : Word} {inp : Input}
    {res : Control Unit × Kernel n} {call : Option Call} (hcs : tf.tfCs = gdKt)
    (hinterrupt : Interrupt tf.tfTrapno)
    (h : k.trapDispatch s c none tf faultVa inp = .ok res) :
    Finishes s mode c (Permitted k c call) k res := by
  obtain ⟨hirq, hnot⟩ := hinterrupt
  have hbrkpt : tf.tfTrapno ≠ tBrkpt := fun heq ↦ absurd (heq ▸ hirq) (by decide)
  have hpgflt : tf.tfTrapno ≠ tPgflt := fun heq ↦ absurd (heq ▸ hirq) (by decide)
  unfold trapDispatch at h
  rw [if_neg hbrkpt, if_neg hpgflt, if_neg hnot] at h
  split at h
  · obtain rfl := pure_ok.mp h
    exact (Stays.refl k).finishes
  split at h
  · obtain ⟨k₁, hyield, h⟩ := bind_ok.mp h
    obtain rfl := pure_ok.mp h
    exact yield_finishes (.single ⟨.tune updatePriority_tuned, trivial⟩) hyield
  · obtain ⟨_, h, -⟩ := bind_ok.mp h
    exact (throw_ok.mp h).elim

theorem Leaves.section {ev : Event n} {call : Option Call} (henters : k.Enters ev c k₁ call)
    (h : Leaves s (k.Proper c) c (Permitted k₁ c call) k₁ k') :
    ∃ acts next, k.Section s ev acts next k' := by
  obtain ⟨acts, next, hends⟩ := h
  cases hends with
  | leaves hacts hloses hexit => exact ⟨acts, next, .inside henters hacts hloses hexit⟩

/-- A trap, taken apart. -/
theorem trap_section {tf : Trapframe} {faultVa : Word} {inp : Input}
    (henabled : k.Enabled (.trap c tf faultVa inp))
    (h : k.trap s c tf faultVa inp = .ok k') :
    ∃ acts next, k.Section s (.trap c tf faultVa inp) acts next k' := by
  unfold trap at h
  rcases henabled with ⟨huser, hcs⟩ | ⟨hhalted, hcs, hinterrupt⟩
  · rw [if_pos hcs] at h
    split at h
    · exact (throw_ok.mp h).elim
    · rename_i cur hcur
      split at h
      · rename_i hdying
        obtain ⟨k₁, hfree, h⟩ := bind_ok.mp h
        have hstart : (k.start c).curenv c = some cur := by
          simpa [start, curenv] using hcur
        exact Leaves.section (.zombie huser hcur hdying) (exit_finishes (.exit hstart hfree) h)
      · rename_i halive
        obtain ⟨res, hdispatch, h⟩ := bind_ok.mp h
        have hsave : (k.saveTf c cur tf).curenv c = some cur := by
          simpa [saveTf, setTf, start, curenv] using hcur
        have hrunning : k.Proper c → ((k.saveTf c cur tf).envs cur).envStatus = .running := by
          intro hproper
          simpa [saveTf, setTf, start] using (hproper cur hcur).resolve_right halive
        exact Leaves.section (.user huser hcur halive)
          (trapReturn_leaves (trapDispatch_finishes hsave hrunning hdispatch) h)
  · rw [if_neg (by rw [hcs]; decide)] at h
    obtain ⟨res, hdispatch, h⟩ := bind_ok.mp h
    exact Leaves.section (.interrupt hhalted)
      (trapReturn_leaves (interrupt_finishes hcs hinterrupt hdispatch) h)

/-- A trap that is a system call. -/
theorem trap_call {tf : Trapframe} {faultVa : Word} {inp : Input} {cur : EnvPtr} {call : Call}
    (hcs : tf.tfCs &&& 3 = 3) (hcur : k.curenv c = some cur)
    (halive : (k.envs cur).envStatus ≠ .dying) (hcall : tf.call = some call)
    (h : k.trap s c tf faultVa inp = .ok k') :
    ∃ no control k₁, Sysno.ofWord no = some call.no ∧
      (k.saveTf c cur tf).syscall s c inp no call.a1 call.a2 call.a3 call.a4 call.a5 =
        .ok (control, k₁) ∧
      trapReturn s c (match control with
        | .leaves => (.leaves, k₁)
        | .returns r => (.returns (), k₁.setEax (some cur) r)) = .ok k' := by
  unfold Trapframe.call at hcall
  split at hcall
  · rename_i hsyscall
    obtain ⟨no, hno, rfl⟩ := Option.map_eq_some_iff.mp hcall
    unfold trap at h
    rw [if_pos hcs, hcur] at h
    simp only [if_neg halive] at h
    obtain ⟨res, hdispatch, h⟩ := bind_ok.mp h
    unfold trapDispatch at hdispatch
    rw [if_neg (by rw [hsyscall]; decide), if_neg (by rw [hsyscall]; decide), if_pos hsyscall]
      at hdispatch
    obtain ⟨⟨control, k₁⟩, hreturns, hdispatch⟩ := bind_ok.mp hdispatch
    refine ⟨_, control, k₁, hno, hreturns, ?_⟩
    cases control with
    | leaves =>
      obtain rfl := pure_ok.mp hdispatch
      exact h
    | returns r =>
      obtain rfl := pure_ok.mp hdispatch
      exact h
  · cases hcall

/-- A system call is made by a trap. -/
theorem Enters.of_call {ev : Event n} {call : Call} (h : k.Enters ev c k₁ (some call)) :
    ∃ tf faultVa inp, ev = .trap c tf faultVa inp ∧ tf.call = some call := by
  generalize hmade : some call = made at h
  cases h with
  | first => cases hmade
  | zombie => cases hmade
  | interrupt => cases hmade
  | user => exact ⟨_, _, _, rfl, rfl⟩

theorem Enters.memory {ev : Event n} {call : Option Call} (h : k.Enters ev c k₁ call) :
    k₁.memory = k.memory := by
  cases h <;> rfl

/-- A step in which a system call is made. -/
theorem Step.of_call {tf : Trapframe} {faultVa : Word} {inp : Input} {call : Call}
    (hstep : k.Step s (.trap c tf faultVa inp) k')
    (henters : k.Enters (.trap c tf faultVa inp) c k₁ (some call)) :
    ∃ cur no control k₂, k.curenv c = some cur ∧ (k.envs cur).envStatus ≠ .dying ∧
      k₁ = k.saveTf c cur tf ∧ Sysno.ofWord no = some call.no ∧
      k₁.syscall s c inp no call.a1 call.a2 call.a3 call.a4 call.a5 = .ok (control, k₂) ∧
      trapReturn s c (match control with
        | .leaves => (.leaves, k₂)
        | .returns r => (.returns (), k₂.setEax (some cur) r)) = .ok k' := by
  generalize hmade : some call = made at henters
  cases henters with
  | zombie => cases hmade
  | interrupt => cases hmade
  | user mode current alive =>
    rename_i cur
    obtain ⟨henabled, htrap⟩ := hstep
    have hcs : tf.tfCs &&& 3 = 3 := by
      rcases henabled with ⟨-, hcs⟩ | ⟨hhalted, -⟩
      · exact hcs
      · rw [UserMode, hhalted] at mode
        cases mode
    obtain ⟨no, control, k₂, hno, hcall, hreturn⟩ := trap_call hcs current alive hmade.symm htrap
    exact ⟨cur, no, control, k₂, current, alive, rfl, hno, hcall, hreturn⟩

/-- Loading a program changes memory and the entry point. -/
theorem loadIcode_ok {e : EnvPtr} {binary : Elf} (h : k.loadIcode e binary = .ok k') :
    ∃ pgdir m₁ m₂, (k.envs e).envPgdir = some pgdir ∧
      loadSegments pgdir binary.phdrs k.memory = .ok m₁ ∧
      regionAlloc pgdir (ustacktop - pgsize) pgsize m₁ = .ok m₂ ∧
      k' = { k with memory := m₂ }.setEnv e
        { k.envs e with envTf := { (k.envs e).envTf with tfEip := binary.eEntry } } := by
  unfold loadIcode at h
  split at h
  · exact (throw_ok.mp h).elim
  simp only at h
  split at h
  · exact (throw_ok.mp h).elim
  · rename_i pgdir hpgdir
    obtain ⟨m₁, hsegments, h⟩ := bind_ok.mp h
    obtain ⟨m₂, hstack, h⟩ := bind_ok.mp h
    obtain rfl := pure_ok.mp h
    exact ⟨pgdir, m₁, m₂, hpgdir, hsegments, hstack, rfl⟩

theorem loadIcode_stays {e : EnvPtr} {binary : Elf} (hP : P (.load e binary))
    (hfresh : (k.envs e).envIpcRecving = false)
    (h : k.loadIcode e binary = .ok k') : Stays c P k k' := by
  refine .single (.load hfresh h) hP ?_
  obtain ⟨pgdir, m₁, m₂, -, -, -, rfl⟩ := loadIcode_ok h
  rfl

/-- Loading a program and setting the priority are independent. -/
theorem loadIcode_priority {e : EnvPtr} {binary : Elf} {priority : ℤ}
    (h : k.loadIcode e binary = .ok k') :
    (k.setEnv e { k.envs e with priority }).loadIcode e binary =
      .ok (k'.setEnv e { k'.envs e with priority }) := by
  obtain ⟨pgdir, m₁, m₂, hpgdir, hsegments, hstack, rfl⟩ := loadIcode_ok h
  have hmagic : binary.eMagic = elfMagic := by
    by_contra hbad
    unfold loadIcode at h
    rw [if_pos hbad] at h
    exact throw_ok.mp h
  unfold loadIcode
  rw [if_neg (not_not.mpr hmagic)]
  simp only [setEnv_self, hpgdir, setEnv_memory, hsegments]
  change (do let memory ← regionAlloc pgdir (ustacktop - pgsize) pgsize m₁; _) = _
  rw [hstack]
  simp [setEnv]

theorem envCreate_stays {binary : Elf} (h : k.envCreate binary = .ok k') :
    Stays c Boots k k' := by
  unfold envCreate at h
  obtain ⟨⟨res, k₁⟩, halloc, h⟩ := bind_ok.mp h
  cases res with
  | error r => exact (throw_ok.mp h).elim
  | ok e =>
    obtain ⟨k₂, hload, h⟩ := bind_ok.mp h
    obtain rfl := pure_ok.mp h
    have hnew := envAlloc_ok halloc
    have hspawn : Stays c Boots k (k₁.setEnv e { k₁.envs e with priority := 1 }) := by
      refine .single (.spawn halloc (Or.inl ?_) rfl (.create rfl)) trivial ?_
      · obtain ⟨pgdir, memory, -, -, rfl⟩ := hnew
        rw [setEnv_self]
      · obtain ⟨pgdir, memory, -, -, rfl⟩ := hnew
        rfl
    have hfresh : ((k₁.setEnv e { k₁.envs e with priority := 1 }).envs e).envIpcRecving =
        false := by
      obtain ⟨pgdir, memory, -, -, rfl⟩ := hnew
      simp
    exact hspawn.trans (loadIcode_stays trivial hfresh (loadIcode_priority hload))

/-- Every step of the machine is a section. -/
theorem Step.section {ev : Event n} (h : k.Step s ev k') :
    ∃ acts next, k.Section s ev acts next k' := by
  obtain ⟨henabled, hexec⟩ := h
  cases ev with
  | create c binary =>
    obtain ⟨acts, hacts, -⟩ := envCreate_stays (c := c) hexec
    exact ⟨acts, none, .create henabled.1 henabled.2 hacts⟩
  | start c => exact Leaves.section (.first henabled) (yield_finishes (.nil _) hexec)
  | trap c tf faultVa inp => exact trap_section henabled hexec
  | store c va b =>
    obtain ⟨memory, hstore, h⟩ := bind_ok.mp hexec
    obtain rfl := pure_ok.mp h
    exact ⟨[], none, .store henabled hstore⟩

end Kernel

end SistemasOperativos.Jos
