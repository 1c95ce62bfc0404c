import Mathlib.Algebra.BigOperators.Fin
import Mathlib.Algebra.Order.BigOperators.Group.Finset
import SistemasOperativos.Jos.BoostPeriod
import SistemasOperativos.Jos.Fairness
import SistemasOperativos.Jos.PageRuns
import SistemasOperativos.Jos.PriorityAuthority

/-!
# How long an environment waits

The scheduler by priorities passes over an environment as long as there are better ones. The boost ends
that: it gives all environments the priority 1, and from then on every CPU goes around the table, so
that the environment is selected after a bounded number of calls of the scheduler. Only a CPU whose
environment is destroyed starts over from the first slot.
-/

namespace SistemasOperativos.Jos

open Library Library.Except

variable {n : ℕ} {s : Scheduler} {c : Fin n} {k k₁ k' : Kernel n} {e g x : EnvPtr} {ev : Event n}

namespace Kernel

/-! ## The choice of `sched_pr` at priority 1 -/

/-- The environments at which the loop of `sched_pr` stops. -/
def Urgent (k : Kernel n) (e : EnvPtr) : Prop :=
  (k.envs e).envStatus = .runnable ∧ (k.envs e).priority = 1

instance (k : Kernel n) (e : EnvPtr) : Decidable (k.Urgent e) :=
  inferInstanceAs (Decidable ((k.envs e).envStatus = .runnable ∧ (k.envs e).priority = 1))

theorem schedPrFrom_urgent (es : List EnvPtr) {best : ℤ} {found : Option EnvPtr}
    (h : es.find? (fun e ↦ decide (k.Urgent e)) = some x) :
    k.schedPrFrom es best found = some x := by
  induction es generalizing best found with
  | nil => cases h
  | cons e es ih =>
    rw [List.find?_cons] at h
    rw [schedPrFrom]
    by_cases he : k.Urgent e
    · have hstops : (k.envs e).envStatus = .runnable ∧ (k.envs e).priority = 1 := he
      rw [decide_eq_true he] at h
      simp only [if_pos hstops]
      exact h
    · have hgoes : ¬((k.envs e).envStatus = .runnable ∧ (k.envs e).priority = 1) := he
      rw [decide_eq_false he] at h
      simp only [if_neg hgoes]
      split
      · exact ih h
      · exact ih h

/-- Where an environment waits with priority 1, `sched_pr` chooses one that is not behind it. -/
theorem select_urgent (hg : k.Urgent g) : ∃ x, k.select .pr c = some x ∧
    (x - BitVec.ofNat 10 (k.nextCurenvInd c)).toNat ≤
      (g - BitVec.ofNat 10 (k.nextCurenvInd c)).toNat := by
  cases hfind : (circular (k.nextCurenvInd c)).find? fun e ↦ decide (k.Urgent e) with
  | none =>
    have hnone := List.find?_eq_none.mp hfind g (mem_circular _ g)
    exact absurd (decide_eq_true hg) hnone
  | some x =>
    have horder := (find_circular hfind (decide_eq_true hg)).2
    refine ⟨x, ?_, horder⟩
    change k.schedPr c = some x
    unfold schedPr
    rw [schedPrFrom_urgent _ hfind]

/-! ## The way around the table -/

/-- How many environments the CPU may still select before it comes to `g`: after its environment, or,
where it has none, in the whole table. -/
def lag (g : EnvPtr) (k : Kernel n) (c : Fin n) : ℕ :=
  match k.curenv c with
  | some e => behind e g + 1
  | none => nenv

theorem lag_some (h : k.curenv c = some e) : k.lag g c = behind e g + 1 := by
  unfold lag
  rw [h]

theorem lag_none (h : k.curenv c = none) : k.lag g c = nenv := by
  unfold lag
  rw [h]

theorem lag_congr (h : k'.curenv c = k.curenv c) : k'.lag g c = k.lag g c := by
  unfold lag
  rw [h]

theorem behind_lt (hx : x ≠ g) : behind x g + 1 < nenv := by
  have hnenv : nenv = 1024 := rfl
  have hlt : behind x g < 1024 := (g - x - 1).isLt
  have hne : behind x g ≠ 1023 := by
    intro heq
    rw [← behind_self x] at heq
    exact hx (behind_injective heq).symm
  omega

theorem lag_le : k.lag g c ≤ nenv := by
  unfold lag
  split
  · rename_i e _
    have hlt : behind e g < 1024 := (g - e - 1).isLt
    exact hlt
  · exact le_rfl

/-- What is selected on the way from `e` to `g` is closer to `g`. -/
theorem behind_closer (hle : behind e x ≤ behind e g) (hx : x ≠ g) : behind x g < behind e g := by
  have hne : behind e x ≠ behind e g := fun heq ↦ hx (behind_injective heq)
  have hshift : g - x - 1 = (g - e - 1) - (x - e - 1) - 1 := by grind
  unfold behind at hle hne ⊢
  have hg := (g - e - 1).isLt
  have hone : (1 : EnvPtr).toNat = 1 := rfl
  rw [hshift]
  generalize g - e - 1 = bg at *
  generalize x - e - 1 = bx at *
  simp only [BitVec.toNat_sub, hone]
  omega

/-- A call of the scheduler that does not select `g` brings the CPU closer to it. -/
theorem schedYield_lag (hyield : k.schedYield .pr c = .ok k') (hnumbered : k.Numbered)
    (hg : k.Urgent g) (hwaits : (k'.envs g).envStatus = .runnable) :
    k'.lag g c < k.lag g c ∧ ∀ c' ≠ c, k'.curenv c' = k.curenv c' := by
  obtain ⟨x, hselect, horder⟩ := select_urgent (c := c) hg
  obtain ⟨x', hx', rfl⟩ | ⟨hnone, -⟩ := schedYield_cases hyield
  case inr =>
    rw [hselect] at hnone
    cases hnone
  obtain rfl : x' = x := Option.some.inj (hx'.symm.trans hselect)
  have hxg : x' ≠ g := by
    rintro rfl
    rw [envRun_self] at hwaits
    cases hwaits
  have hlag := lag_some (g := g) (envRun_curenv
    (k := { k with totalSchedCalls := k.totalSchedCalls + 1 }) (c := c) (e := x'))
  have hlt := behind_lt hxg
  rw [hlag]
  refine ⟨?_, fun c' hc' ↦ congrArg CpuInfo.cpuEnv (envRun_cpus_of_ne hc')⟩
  cases hcur : k.curenv c with
  | none =>
    rw [lag_none hcur]
    exact hlt
  | some e =>
    rw [lag_some hcur]
    rw [hnumbered.nextCurenvInd hcur] at horder
    have hstart : ∀ y : EnvPtr, y - (e + 1) = y - e - 1 := by
      intro y
      grind
    rw [hstart, hstart] at horder
    exact Nat.succ_lt_succ (behind_closer horder hxg)

/-! ## What changes the priority 1 -/

/-- The step makes the call `sys_red_priority` with the environment as its target. -/
def Reduces (k : Kernel n) (ev : Event n) (g : EnvPtr) : Prop :=
  ∃ c k₁ call, k.Enters ev c k₁ (some call) ∧ call.no = .redPriority ∧
    k₁.envid2env c call.a1 false = .ok (some g)

section PriorityOne

variable {frame : Option EnvPtr} {tf : Trapframe} {faultVa : Word} {inp : Input}
  {res : Control Unit × Kernel n}

theorem priority_of_standing (h : k'.standing = k.standing) :
    (k'.envs g).priority = (k.envs g).priority :=
  congrArg Prod.snd (congrFun h g)

/-- A fork sets the priority of a slot that was free. -/
theorem sysExofork_priority {r : ℤ} (hlist : k.envFreeList ≠ some g)
    (h : k.sysExofork c = .ok (r, k')) : (k'.envs g).priority = (k.envs g).priority := by
  obtain ⟨rfl, -⟩ | ⟨child, cur, k₁, env, -, halloc, -, -, -, rfl⟩ := sysExofork_ok h
  · rfl
  · obtain ⟨pgdir, memory, hhead, -, rfl⟩ := envAlloc_ok halloc
    have hne : g ≠ child := by
      rintro rfl
      exact hlist hhead
    rw [setEnv_of_ne hne, setEnv_of_ne hne]

theorem sysIncPriority_one {r : ℤ} {envid : Word} (hone : (k.envs g).priority = 1)
    (h : k.sysIncPriority c envid = .ok (r, k')) : (k'.envs g).priority = 1 := by
  unfold sysIncPriority at h
  obtain ⟨found, -, h⟩ := bind_ok.mp h
  cases found with
  | none =>
    obtain ⟨-, rfl⟩ := Prod.mk.inj (pure_ok.mp h)
    exact hone
  | some e =>
    obtain ⟨cur, -, h⟩ := bind_ok.mp h
    simp only at h
    split at h
    · obtain ⟨-, rfl⟩ := Prod.mk.inj (pure_ok.mp h)
      exact hone
    · split at h
      · rename_i hhigh
        obtain ⟨-, rfl⟩ := Prod.mk.inj (pure_ok.mp h)
        have hne : g ≠ e := by
          rintro rfl
          exact hhigh hone
        rw [setEnv_of_ne hne]
        exact hone
      · obtain ⟨-, rfl⟩ := Prod.mk.inj (pure_ok.mp h)
        exact hone

theorem sysRedPriority_other {r : ℤ} {envid : Word}
    (hother : k.envid2env c envid false ≠ .ok (some g))
    (h : k.sysRedPriority c envid = .ok (r, k')) :
    (k'.envs g).priority = (k.envs g).priority := by
  unfold sysRedPriority at h
  obtain ⟨found, hfound, h⟩ := bind_ok.mp h
  cases found with
  | none =>
    obtain ⟨-, rfl⟩ := Prod.mk.inj (pure_ok.mp h)
    rfl
  | some e =>
    simp only at h
    split at h
    · obtain ⟨-, rfl⟩ := Prod.mk.inj (pure_ok.mp h)
      have hne : g ≠ e := by
        rintro rfl
        exact hother hfound
      rw [setEnv_of_ne hne]
    · obtain ⟨-, rfl⟩ := Prod.mk.inj (pure_ok.mp h)
      rfl

/-- Of the system calls only `sys_red_priority` takes an environment that is not new away from
priority 1. -/
theorem syscall_one {no a1 a2 a3 a4 a5 : Word} {res : Control ℤ × Kernel n}
    (hone : (k.envs g).priority = 1) (hlist : k.envFreeList ≠ some g)
    (hother : Sysno.ofWord no = some .redPriority → k.envid2env c a1 false ≠ .ok (some g))
    (h : k.syscall s c inp no a1 a2 a3 a4 a5 = .ok res) : (res.2.envs g).priority = 1 := by
  have hreads : ∀ {x : Except Fault ℤ}, returning ((·, k) <$> x) = .ok res →
      (res.2.envs g).priority = 1 := by
    intro x hx
    obtain ⟨r, -, hr⟩ := returning_ok hx
    obtain ⟨a, -, heq⟩ := map_ok.mp hr
    rw [← congrArg Prod.snd heq]
    exact hone
  have hstands : res.2.standing = k.standing → (res.2.envs g).priority = 1 :=
    fun hstanding ↦ (priority_of_standing hstanding).trans hone
  unfold syscall at h
  cases hno : Sysno.ofWord no with
  | none =>
    rw [hno] at h
    obtain rfl := Except.ok.inj h
    exact hone
  | some call =>
    rw [hno] at h
    cases call with
    | cputs => exact hstands (sysCputs_standing h)
    | cgetc =>
      obtain rfl := Except.ok.inj h
      exact hone
    | getenvid => exact hreads h
    | envDestroy => exact hstands (sysEnvDestroy_standing h)
    | pageAlloc =>
      obtain ⟨r, -, hr⟩ := returning_ok h
      exact hstands (sysPageAlloc_standing hr)
    | pageMap =>
      obtain ⟨r, -, hr⟩ := returning_ok h
      exact hstands (sysPageMap_standing hr)
    | pageUnmap =>
      obtain ⟨r, -, hr⟩ := returning_ok h
      exact hstands (sysPageUnmap_standing hr)
    | exofork =>
      obtain ⟨r, -, hr⟩ := returning_ok h
      exact (sysExofork_priority hlist hr).trans hone
    | envSetStatus =>
      obtain ⟨r, -, hr⟩ := returning_ok h
      exact hstands (sysEnvSetStatus_standing hr)
    | envSetPgfaultUpcall => exact hstands (sysEnvSetPgfaultUpcall_standing h)
    | yield =>
      obtain ⟨k₁, hyield, rfl⟩ := map_ok.mp h
      exact hstands (schedYield_standing hyield)
    | ipcTrySend =>
      obtain ⟨r, -, hr⟩ := returning_ok h
      exact hstands (sysIpcTrySend_standing hr)
    | ipcRecv => exact hstands (sysIpcRecv_standing h)
    | incPriority =>
      obtain ⟨r, -, hr⟩ := returning_ok h
      exact sysIncPriority_one hone hr
    | redPriority =>
      obtain ⟨r, -, hr⟩ := returning_ok h
      exact (sysRedPriority_other (hother hno) hr).trans hone
    | getPriority => exact hreads h

theorem setTf_standing : (k.setTf frame tf).standing = k.standing := by
  cases frame with
  | none => rfl
  | some e => exact setEnv_standing rfl rfl

theorem envRun_standing : (k.envRun c e).standing = k.standing := by
  funext e'
  rw [standing, standing, (envRun_accounts e').1]
  refine Prod.ext ?_ rfl
  by_cases he : e' = e
  · rw [he, envRun_self]
  · obtain ⟨status, hpark, -⟩ := park_envs (k := k) (c := c) e'
    rw [envRun_of_ne he, hpark]

theorem pageFaultHandler_standing
    (h : k.pageFaultHandler s c frame tf faultVa = .ok res) : res.2.standing = k.standing := by
  unfold pageFaultHandler at h
  split at h
  · exact (throw_ok.mp h).elim
  obtain ⟨cur, -, h⟩ := bind_ok.mp h
  simp only at h
  split at h
  · exact envDestroy_standing h
  obtain ⟨⟨control, k₁⟩, hassert, h⟩ := bind_ok.mp h
  cases control with
  | leaves =>
    obtain rfl := pure_ok.mp h
    exact userMemAssert_standing hassert
  | returns u =>
    obtain ⟨memory, -, h⟩ := bind_ok.mp h
    split at h
    · exact (throw_ok.mp h).elim
    · obtain rfl := pure_ok.mp h
      change (envRun c cur (setTf frame _ _)).standing = _
      exact envRun_standing.trans (setTf_standing.trans
        ((standing_of_envs rfl).trans (userMemAssert_standing hassert)))

/-- An interrupt of the timer lowers the priority of the environment that it interrupts. -/
theorem updatePriority_one (hone : (k.envs g).priority = 1) (hcur : k.curenv c ≠ some g) :
    ((k.updatePriority c).envs g).priority = 1 := by
  cases hcur' : k.curenv c with
  | none =>
    rw [updatePriority_idle hcur']
    exact hone
  | some cur =>
    have hne : g ≠ cur := by
      rintro rfl
      exact hcur hcur'
    obtain ⟨priority, -, hupdate⟩ := updatePriority_eq hcur'
    rw [hupdate]
    unfold boost
    simp only
    split
    · rfl
    · change ((k.setEnv cur _).envs g).priority = 1
      rw [setEnv_of_ne hne]
      exact hone

/-- Every trap but a call of `sys_red_priority` on the environment leaves it the priority 1. -/
theorem trapDispatch_one (hone : (k.envs g).priority = 1) (hlist : k.envFreeList ≠ some g)
    (hcur : k.curenv c ≠ some g)
    (hother : tf.tfTrapno = tSyscall → Sysno.ofWord tf.tfRegs.regEax = some .redPriority →
      k.envid2env c tf.tfRegs.regEdx false ≠ .ok (some g))
    (h : k.trapDispatch s c frame tf faultVa inp = .ok res) : (res.2.envs g).priority = 1 := by
  have hstands : ∀ {k' : Kernel n}, k'.standing = k.standing → (k'.envs g).priority = 1 :=
    fun hstanding ↦ (priority_of_standing hstanding).trans hone
  unfold trapDispatch at h
  split at h
  · obtain rfl := pure_ok.mp h
    exact hone
  split at h
  · exact hstands (pageFaultHandler_standing h)
  split at h
  · rename_i hsyscall
    obtain ⟨⟨control, k₁⟩, hcall, h⟩ := bind_ok.mp h
    have hk₁ := syscall_one hone hlist (hother hsyscall) hcall
    cases control with
    | leaves =>
      obtain rfl := pure_ok.mp h
      exact hk₁
    | returns r =>
      obtain rfl := pure_ok.mp h
      exact (priority_of_standing (setEax_standing frame r)).trans hk₁
  split at h
  · obtain rfl := pure_ok.mp h
    exact hone
  split at h
  · obtain ⟨k₁, hyield, h⟩ := bind_ok.mp h
    obtain rfl := pure_ok.mp h
    exact (priority_of_standing (schedYield_standing hyield)).trans (updatePriority_one hone hcur)
  split at h
  · exact (throw_ok.mp h).elim
  obtain ⟨cur, -, h⟩ := bind_ok.mp h
  exact hstands (envDestroy_standing h)

theorem trapReturn_standing (h : trapReturn s c res = .ok k') : k'.standing = res.2.standing := by
  obtain ⟨control, k₁⟩ := res
  cases control with
  | leaves =>
    obtain rfl := Except.ok.inj h
    rfl
  | returns u =>
    obtain ⟨next, hexit⟩ := trapReturn_exit True h
    exact Exit.standing hexit

end PriorityOne

/-- Outside the kernel an environment that is runnable is nobody's current one. -/
theorem Sound.not_current (h : k.Sound) (hg : (k.envs g).envStatus = .runnable) :
    k.curenv c ≠ some g := by
  intro hcur
  rcases (h.cpu c).status g hcur with hrunning | hdying
  · rw [hg] at hrunning
    cases hrunning
  · rw [hg] at hdying
    cases hdying

/-- A new environment takes a free slot. -/
theorem envCreate_priority {binary : Elf} (hlist : k.envFreeList ≠ some g)
    (h : k.envCreate binary = .ok k') : (k'.envs g).priority = (k.envs g).priority := by
  unfold envCreate at h
  obtain ⟨⟨res, k₁⟩, halloc, h⟩ := bind_ok.mp h
  cases res with
  | error r => exact (throw_ok.mp h).elim
  | ok e =>
    obtain ⟨k₂, hload, h⟩ := bind_ok.mp h
    obtain ⟨pgdir, m₁, m₂, -, -, -, rfl⟩ := loadIcode_ok hload
    obtain ⟨pgdir', memory, hhead, -, rfl⟩ := envAlloc_ok halloc
    have hne : g ≠ e := by
      rintro rfl
      exact hlist hhead
    rw [← pure_ok.mp h, setEnv_of_ne hne, setEnv_of_ne hne, setEnv_of_ne hne]

/-- A trap, from user mode or on a CPU that was halted. -/
theorem trap_one {tf : Trapframe} {faultVa : Word} {inp : Input}
    (henabled : k.Enabled (.trap c tf faultVa inp)) (hone : (k.envs g).priority = 1)
    (hlist : k.envFreeList ≠ some g) (hcur : k.curenv c ≠ some g)
    (hreduces : ¬ k.Reduces (.trap c tf faultVa inp) g) (h : k.trap s c tf faultVa inp = .ok k') :
    (k'.envs g).priority = 1 := by
  unfold trap at h
  split at h
  · rename_i hcs
    have hmode : k.UserMode c := by
      rcases henabled with ⟨hmode, -⟩ | ⟨-, hgd, -⟩
      · exact hmode
      · rw [hgd] at hcs
        exact absurd hcs (by decide)
    split at h
    · exact (throw_ok.mp h).elim
    rename_i cur hcur'
    split at h
    · obtain ⟨k₁, hfree, h⟩ := bind_ok.mp h
      refine (priority_of_standing ?_).trans hone
      calc k'.standing = (k₁.setCurenv c none).standing := schedYield_standing h
        _ = k₁.standing := standing_of_envs rfl
        _ = (k.start c).standing := envFree_standing hfree
        _ = k.standing := standing_of_envs rfl
    · rename_i halive
      obtain ⟨r, hr, hreturn⟩ := bind_ok.mp h
      have hsaved : (k.saveTf c cur tf).standing = k.standing := setTf_standing
      have hcurenv : (k.saveTf c cur tf).curenv c ≠ some g := by
        intro hcur₁
        refine hcur ?_
        rw [← hcur₁]
        simp [saveTf, setTf, start, curenv]
      refine (priority_of_standing (trapReturn_standing hreturn)).trans ?_
      apply trapDispatch_one ((priority_of_standing hsaved).trans hone) hlist hcurenv _ hr
      intro hsyscall hno hfound
      have henters : k.Enters (.trap c tf faultVa inp) c _ _ := .user hmode hcur' halive
      unfold Trapframe.call at henters
      rw [if_pos hsyscall, hno] at henters
      exact hreduces ⟨c, _, _, henters, rfl, hfound⟩
  · rename_i hcs
    obtain ⟨r, hr, hreturn⟩ := bind_ok.mp h
    have hcurenv : (k.start c).curenv c ≠ some g := by
      rw [start_curenv]
      exact hcur
    refine (priority_of_standing (trapReturn_standing hreturn)).trans ?_
    apply trapDispatch_one (k := k.start c) hone hlist hcurenv _ hr
    intro hsyscall
    rcases henabled with ⟨-, huser⟩ | ⟨-, -, -, hno⟩
    · exact absurd huser hcs
    · exact absurd hsyscall hno

/-- An environment that waits with priority 1 keeps it, unless `sys_red_priority` takes it away. -/
theorem Step.priority_one (hstep : k.Step s ev k') (hsound : k.Sound) (hg : k.Urgent g)
    (hreduces : ¬ k.Reduces ev g) : (k'.envs g).priority = 1 := by
  obtain ⟨hready, hone⟩ := hg
  have hlist : k.envFreeList ≠ some g := by
    intro hhead
    have hfree := hsound.free.head hhead
    rw [hready] at hfree
    cases hfree
  obtain ⟨henabled, hexec⟩ := hstep
  cases ev with
  | create c binary => exact (envCreate_priority hlist hexec).trans hone
  | start c => exact (priority_of_standing (schedYield_standing hexec)).trans hone
  | store c va b =>
    obtain ⟨memory, -, h⟩ := bind_ok.mp hexec
    rw [← pure_ok.mp h]
    exact hone
  | trap c tf faultVa inp =>
    exact trap_one henabled hone hlist (hsound.not_current hready) hreduces hexec

/-! ## Runs -/

/-- An interrupt of the timer calls the scheduler once. -/
theorem Step.charged_calls (h : k.Step s ev k') (hcharged : k.charged ev ≠ none) :
    k'.totalSchedCalls = k.totalSchedCalls + 1 := by
  obtain ⟨-, hexec⟩ := h
  cases ev with
  | create c binary => exact absurd rfl hcharged
  | start c => exact absurd rfl hcharged
  | store c va b => exact absurd rfl hcharged
  | trap c tf faultVa inp =>
    have htimer : tf.tfTrapno = irqOffset + irqTimer := by
      by_contra hno
      exact hcharged (if_neg hno)
    have hyield : ∀ k₁ : Kernel n, ∀ frame, k₁.totalSchedCalls = k.totalSchedCalls →
        (k₁.trapDispatch s c frame tf faultVa inp >>= trapReturn s c) = .ok k' →
        k'.totalSchedCalls = k.totalSchedCalls + 1 := by
      intro k₁ frame hk₁ h
      rw [trapDispatch_timer htimer] at h
      obtain ⟨r, hr, hk'⟩ := bind_ok.mp h
      obtain ⟨k₂, hk₂, hr⟩ := bind_ok.mp hr
      rw [← pure_ok.mp hr] at hk'
      obtain rfl := Except.ok.inj hk'
      rw [schedYield_calls hk₂, updatePriority_tuned.calls, hk₁]
    change k.trap s c tf faultVa inp = .ok k' at hexec
    unfold trap at hexec
    split at hexec
    · split at hexec
      · exact (throw_ok.mp hexec).elim
      · split at hexec
        · obtain ⟨k₁, hfree, h⟩ := bind_ok.mp hexec
          have hfreed : k₁.totalSchedCalls = (k.start c).totalSchedCalls := envFree_calls hfree
          rw [schedYield_calls h]
          exact congrArg (· + 1) hfreed
        · exact hyield (k.saveTf c _ tf) _ rfl hexec
    · exact hyield (k.start c) none rfl hexec

/-- Every charged tick is a call of the scheduler. -/
theorem Step.calls_le (h : k.Step s ev k') :
    k.totalSchedCalls + chargedTicks s k [ev] ≤ k'.totalSchedCalls := by
  rw [chargedTicks_single h]
  cases hcharged : k.charged ev with
  | some cur =>
    have hne : k.charged ev ≠ none := by
      rw [hcharged]
      exact Option.some_ne_none cur
    rw [h.charged_calls hne]
    exact le_rfl
  | none =>
    obtain ⟨acts, next, hsection⟩ := h.section
    rcases hsection.schedules with ⟨hcalls, -⟩ | ⟨hcalls, -⟩
    · exact hcalls.ge
    · rw [hcalls]
      exact Nat.le_succ _

/-- The step destroys the environment of a CPU. -/
def Exits (k k' : Kernel n) : Prop := ∃ c, ∃ p ∈ k.curenv c, (k'.envs p).envStatus = .free

instance (k k' : Kernel n) : Decidable (k.Exits k') :=
  inferInstanceAs (Decidable (∃ c, ∃ p ∈ k.curenv c, (k'.envs p).envStatus = .free))

/-- How many of the events destroy the environment of a CPU, from the state `k` on. -/
def exits (s : Scheduler) : Kernel n → List (Event n) → ℕ
  | _, [] => 0
  | k, ev :: evs =>
    match k.exec s ev with
    | .ok k' => (if k.Exits k' then 1 else 0) + exits s k' evs
    | .error _ => 0

theorem exits_append {evs evs' : List (Event n)} (h : Run (Step s) k evs k') :
    exits s k (evs ++ evs') = exits s k evs + exits s k' evs' := by
  induction h with
  | nil k => rw [List.nil_append, exits, Nat.zero_add]
  | cons hstep hrest ih =>
    rw [List.cons_append, exits, exits, hstep.2]
    simp only
    rw [ih, Nat.add_assoc]

theorem exits_single (h : k.Step s ev k') : exits s k [ev] = if k.Exits k' then 1 else 0 := by
  rw [exits, h.2]
  rfl

theorem exits_step {evs : List (Event n)} (hrun : Run (Step s) k evs k₁)
    (hstep : k₁.Step s ev k') : nenv * exits s k (evs ++ [ev]) =
      nenv * exits s k evs + if k₁.Exits k' then nenv else 0 := by
  rw [exits_append hrun, exits_single hstep, Nat.mul_add]
  split
  · rfl
  · rfl

/-- A step of the scheduler by priorities after which the environment is runnable, and has not been
selected. -/
def PassesOver (g : EnvPtr) (k : Kernel n) (ev : Event n) (k' : Kernel n) : Prop :=
  k.Step .pr ev k' ∧ k.Undisturbing ev ∧ ¬ k.Reduces ev g ∧ (k'.envs g).envStatus = .runnable

/-- What holds in every state in which the environment waits. -/
structure Waiting (k : Kernel n) (g : EnvPtr) : Prop where
  sound : k.Sound
  numbered : k.Numbered
  ready : (k.envs g).envStatus = .runnable

theorem Waiting.step (h : k.Waiting g) (hstep : k.PassesOver g ev k') : k'.Waiting g := by
  obtain ⟨hstep, hok, -, hready⟩ := hstep
  obtain ⟨acts, next, hsection⟩ := hstep.section
  exact ⟨hsection.sound h.sound hok, h.numbered.section hsection, hready⟩

/-- An environment that is runnable after a run from boot waits. -/
theorem Waiting.of_run {free : List Ppn} {k₀ : Kernel n} {evs : List (Event n)}
    (hboot : k₀.Booted free)
    (hrun : Run (fun k ev k' ↦ k.Step .pr ev k' ∧ k.Undisturbing ev) k₀ evs k)
    (hready : (k.envs g).envStatus = .runnable) : k.Waiting g := by
  let inv : Kernel n → Prop := fun k ↦ k.Sound ∧ k.Numbered
  have hinv : inv k := by
    refine hrun.invariant ?_ ⟨hboot.sound, hboot.numbered⟩
    rintro k ev k' ⟨hsound, hnumbered⟩ ⟨hstep, hok⟩
    obtain ⟨acts, next, hsection⟩ := hstep.section
    exact ⟨hsection.sound hsound hok, hnumbered.section hsection⟩
  exact ⟨hinv.1, hinv.2, hready⟩

/-- How many environments the CPUs may still select before they come to `g`. -/
def distance (g : EnvPtr) (k : Kernel n) : ℕ := ∑ c, k.lag g c

theorem distance_le : k.distance g ≤ nenv * n := by
  have hle : k.distance g ≤ ∑ _c : Fin n, nenv := Finset.sum_le_sum fun c _ ↦ lag_le
  rw [Fin.sum_const, Nat.nsmul_eq_mul, Nat.mul_comm] at hle
  exact hle

theorem lag_pos : 0 < k.lag g c := by
  unfold lag
  split
  · exact Nat.succ_pos _
  · decide

/-- Where one CPU changes its environment, the distance changes by as much as its own lag. -/
theorem distance_update (hothers : ∀ c' ≠ c, k'.curenv c' = k.curenv c') :
    k'.distance g + k.lag g c = k.distance g + k'.lag g c := by
  unfold distance
  rw [← Finset.add_sum_erase Finset.univ _ (Finset.mem_univ c),
    ← Finset.add_sum_erase Finset.univ (k.lag g) (Finset.mem_univ c)]
  have hrest : ∑ c' ∈ Finset.univ.erase c, k'.lag g c' = ∑ c' ∈ Finset.univ.erase c, k.lag g c' := by
    apply Finset.sum_congr rfl
    intro c' hc'
    exact lag_congr (hothers c' (Finset.ne_of_mem_erase hc'))
  omega

/-- The scheduler takes the CPU away from nobody who is runnable afterwards. -/
theorem schedYield_ready (h : k.schedYield s c = .ok k') (hcur : k.curenv c ≠ some g)
    (hg : (k'.envs g).envStatus = .runnable) : (k.envs g).envStatus = .runnable := by
  obtain ⟨x, -, rfl⟩ | ⟨-, hhalt⟩ := schedYield_cases h
  · by_cases hgx : g = x
    · rw [hgx, envRun_self] at hg
      cases hg
    · have hparked : (park c { k with totalSchedCalls := k.totalSchedCalls + 1 }).envs g = k.envs g :=
        park_of_ne hcur
      rw [envRun_of_ne hgx, hparked] at hg
      exact hg
  · rw [schedHalt_ok hhalt] at hg
    exact hg

/-- The scheduler leaves a free slot alone. -/
theorem schedYield_free (h : k.schedYield s c = .ok k') (hnone : k.curenv c = none)
    (he : (k.envs e).envStatus = .free) : (k'.envs e).envStatus = .free := by
  obtain ⟨x, hselect, rfl⟩ | ⟨-, hhalt⟩ := schedYield_cases h
  · have hex : e ≠ x := by
      rintro rfl
      obtain hrunnable | ⟨hcur, -⟩ := select_ready hselect
      · rw [he] at hrunnable
        cases hrunnable
      · rw [hnone] at hcur
        cases hcur
    have hcur : k.curenv c ≠ some e := by
      rw [hnone]
      exact (Option.some_ne_none _).symm
    have hparked : (park c { k with totalSchedCalls := k.totalSchedCalls + 1 }).envs e = k.envs e :=
      park_of_ne hcur
    rw [envRun_of_ne hex, hparked]
    exact he
  · rw [schedHalt_ok hhalt]
    exact he

/-- A step changes the environment of its own CPU only. -/
theorem Section.curenv_of_ne {acts : List Action} {next : Option EnvPtr} {c' : Fin n}
    (h : k.Section s ev acts next k') (hc : c' ≠ ev.cpu) : k'.curenv c' = k.curenv c' := by
  cases h with
  | create boot linked run =>
    have hcpus : k'.cpus = k.cpus := by
      let inv : Kernel n → Prop := fun k₁ ↦ k₁.cpus = k.cpus
      have hinv : inv k' := by
        refine run.invariant ?_ rfl
        rintro k₁ a k₂ hsame ⟨heffect, hboots⟩
        exact (Boots.cpus hboots heffect).trans hsame
      exact hinv
    rw [curenv, hcpus]
    rfl
  | @inside _ c₁ call _ _ k₁ k₂ k₃ _ enters run loses exit =>
    have hc₁ : c' ≠ c₁ := by cases enters <;> exact hc
    rw [curenv, exit.cpus_of_ne hc₁, Loses.cpus_of_ne loses hc₁, Actions.cpus_of_ne run hc₁,
      enters.cpus_of_ne hc₁]
    rfl
  | store => rfl

/-- A step in which an environment waits at priority 1 brings the CPUs closer to it by as much as it
calls the scheduler, unless it destroys the environment of a CPU. -/
theorem Waiting.approach (h : k.Waiting g) (hstep : k.PassesOver g ev k')
    (hone : (k'.envs g).priority = 1) :
    k'.totalSchedCalls + k'.distance g ≤
      k.totalSchedCalls + k.distance g + if k.Exits k' then nenv else 0 := by
  obtain ⟨hstep, hok, -, hready⟩ := hstep
  obtain ⟨acts, next, hsection⟩ := hstep.section
  rcases hsection.schedules with ⟨hcalls, hsame⟩ | ⟨hcalls, c, k₂, hyield, hnumbered, hlost⟩
  · have hdistance : k'.distance g = k.distance g := by
      unfold distance
      apply Finset.sum_congr rfl
      intro c' _
      exact lag_congr (congrFun hsame c')
    rw [hcalls, hdistance]
    split <;> omega
  have hcur₂ : k₂.curenv c ≠ some g := by
    rcases hlost with hsame | ⟨p, -, hnone, -⟩
    · rw [hsame]
      exact h.sound.not_current h.ready
    · rw [hnone]
      exact (Option.some_ne_none _).symm
  have hurgent : k₂.Urgent g := by
    refine ⟨schedYield_ready hyield hcur₂ hready, ?_⟩
    rw [← (schedYield_accounts hyield g).1]
    exact hone
  obtain ⟨hlag, hothers⟩ := schedYield_lag hyield (hnumbered h.numbered) hurgent hready
  rcases hlost with hsame | ⟨p, hp, hnone, hfree, -⟩
  · have hlag₂ : k₂.lag g c = k.lag g c := lag_congr (congrFun hsame c)
    have hdistance : k'.distance g + k.lag g c = k.distance g + k'.lag g c :=
      distance_update fun c' hc' ↦ (hothers c' hc').trans (congrFun hsame c')
    rw [hcalls]
    split <;> omega
  · have hexits : k.Exits k' := ⟨c, p, hp, schedYield_free hyield hnone hfree⟩
    have hdistance := distance_update (g := g) (c := ev.cpu) fun c' hc' ↦ hsection.curenv_of_ne hc'
    have hpos := lag_pos (k := k) (g := g) (c := ev.cpu)
    have hle := lag_le (k := k') (g := g) (c := ev.cpu)
    rw [hcalls, if_pos hexits]
    omega

/-- Where the priority is 1 from the start, the calls of the scheduler are bounded. -/
theorem urgent_run {k₁ k₂ : Kernel n} {evs : List (Event n)} (hwaiting : k₁.Waiting g)
    (hone : (k₁.envs g).priority = 1) (hwaits : Run (PassesOver g) k₁ evs k₂) :
    k₂.Waiting g ∧ (k₂.envs g).priority = 1 ∧ k₂.totalSchedCalls + k₂.distance g ≤
      k₁.totalSchedCalls + k₁.distance g + nenv * exits .pr k₁ evs := by
  let inv : List (Event n) → Kernel n → Prop := fun evs k ↦
    k.Waiting g ∧ (k.envs g).priority = 1 ∧ k.totalSchedCalls + k.distance g ≤
      k₁.totalSchedCalls + k₁.distance g + nenv * exits .pr k₁ evs
  have hinv : inv evs k₂ := by
    refine hwaits.history ⟨hwaiting, hone, Nat.le_add_right _ _⟩ ?_
    rintro evs k ev k' hrun ⟨hk, hone, hle⟩ hpasses
    have hone' := hpasses.1.priority_one hk.sound ⟨hk.ready, hone⟩ hpasses.2.2.1
    have happroach := hk.approach hpasses hone'
    refine ⟨hk.step hpasses, hone', ?_⟩
    rw [exits_step (hrun.mono fun _ _ _ h ↦ h.1) hpasses.1]
    omega
  exact hinv

theorem counterAfter_bounds (ticks : ℕ) :
    0 ≤ counterAfter ticks ∧ counterAfter ticks < maxTimeslicesBoost := by
  unfold counterAfter maxTimeslicesBoost
  split <;> omega

/-- Either the boost is still to come, or the priority is 1 and the ticks so far are paid for by the
boost and by what the CPUs have come closer. -/
theorem waiting_run {k₁ k₂ : Kernel n} {evs : List (Event n)} (hlow : 0 ≤ k₁.boostTimeSlices)
    (hwaiting : k₁.Waiting g) (hwaits : Run (PassesOver g) k₁ evs k₂) :
    k₂.Waiting g ∧ (k₂.boostTimeSlices = k₁.boostTimeSlices + chargedTicks .pr k₁ evs ∨
      (k₂.envs g).priority = 1 ∧ chargedTicks .pr k₁ evs + k₂.distance g ≤
        1000 + nenv * n + nenv * exits .pr k₁ evs) := by
  have hmax : maxTimeslicesBoost = 1000 := rfl
  let inv : List (Event n) → Kernel n → Prop := fun evs k ↦
    k.Waiting g ∧ (k.boostTimeSlices = k₁.boostTimeSlices + chargedTicks .pr k₁ evs ∨
      (k.envs g).priority = 1 ∧ chargedTicks .pr k₁ evs + k.distance g ≤
        1000 + nenv * n + nenv * exits .pr k₁ evs)
  have hinv : inv evs k₂ := by
    refine hwaits.history ⟨hwaiting, Or.inl (Int.add_zero _).symm⟩ ?_
    rintro evs k ev k' hrun ⟨hk, hphase⟩ hpasses
    have hrun' : Run (Step .pr) k₁ evs k := hrun.mono fun _ _ _ h ↦ h.1
    refine ⟨hk.step hpasses, ?_⟩
    rw [chargedTicks_append hrun', exits_step hrun' hpasses.1]
    rcases hphase with hcounter | ⟨hone, hle⟩
    · rw [chargedTicks_single hpasses.1]
      cases hcharged : k.charged ev with
      | none =>
        left
        rw [hpasses.1.uncharged hcharged, hcounter]
        rfl
      | some cur =>
        rw [Option.isSome_some, if_pos rfl]
        by_cases hdue : k.BoostDue
        · -- The boost itself is the last tick that has to be waited for.
          right
          have hlast : k.boostTimeSlices + 1 = maxTimeslicesBoost := hdue
          have hdistance := distance_le (k := k') (g := g)
          refine ⟨(hpasses.1.boosts hcharged hdue).2 g, ?_⟩
          omega
        · left
          have hticks := (hpasses.1.ticks hcharged hdue).1
          omega
    · right
      have hone' := hpasses.1.priority_one hk.sound ⟨hk.ready, hone⟩ hpasses.2.2.1
      have happroach := hk.approach hpasses hone'
      have hcalls := hpasses.1.calls_le
      refine ⟨hone', ?_⟩
      omega
  exact hinv

end Kernel

open Kernel

/-- In every run of the scheduler by priorities whose system calls leave the environments of the other
CPUs to them: an environment that is runnable is selected at the latest when so many ticks have been
charged, whatever its priority is, if nobody calls `sys_red_priority` on it. Where its priority is 1,
so many calls of the scheduler are enough. -/
theorem waiting_is_bounded {free : List Ppn} {k₀ k₁ k₂ : Kernel n} {evs₁ evs₂ : List (Event n)}
    (hboot : k₀.Booted free) (hzero : k₀.boostTimeSlices = 0)
    (hrun : Run (fun k ev k' ↦ k.Step .pr ev k' ∧ k.Undisturbing ev) k₀ evs₁ k₁)
    (hready : (k₁.envs g).envStatus = .runnable) (hwaits : Run (Kernel.PassesOver g) k₁ evs₂ k₂) :
    (chargedTicks .pr k₁ evs₂ : ℤ) ≤
        maxTimeslicesBoost + (nenv * (n + exits .pr k₁ evs₂) : ℕ) ∧
      ((k₁.envs g).priority = 1 →
        k₂.totalSchedCalls ≤ k₁.totalSchedCalls + nenv * (n + exits .pr k₁ evs₂)) := by
  have hpaid : nenv * (n + exits .pr k₁ evs₂) = nenv * n + nenv * exits .pr k₁ evs₂ :=
    Nat.mul_add _ _ _
  have hwaiting := Waiting.of_run hboot hrun hready
  constructor
  · have hbefore : Run (Kernel.Step .pr) k₀ evs₁ k₁ := hrun.mono fun _ _ _ h ↦ h.1
    have hafter : Run (Kernel.Step .pr) k₁ evs₂ k₂ := hwaits.mono fun _ _ _ h ↦ h.1
    obtain ⟨hlow, -⟩ := counterAfter_bounds (chargedTicks .pr k₀ evs₁)
    rw [← counter_eq hzero hbefore] at hlow
    obtain ⟨-, hhigh⟩ := counterAfter_bounds (chargedTicks .pr k₀ (evs₁ ++ evs₂))
    rw [← counter_eq hzero (hbefore.append hafter)] at hhigh
    have hmax : maxTimeslicesBoost = 1000 := rfl
    obtain ⟨-, hcounter | ⟨-, hticks⟩⟩ := waiting_run hlow hwaiting hwaits
    · omega
    · omega
  · intro hone
    obtain ⟨-, -, hcalls⟩ := urgent_run hwaiting hone hwaits
    have hdistance := distance_le (k := k₁) (g := g)
    omega

/-- The third of three environments, while the CPU goes from the first to the second. -/
theorem waiting_is_bounded_small : ∃ k₁ k₂ : Kernel 1,
    Run (Kernel.PassesOver 2) k₁ [.timer 0 userText] k₂ ∧
      ((chargedTicks .pr k₁ [.timer 0 userText] : ℤ) ≤
          maxTimeslicesBoost + (nenv * (1 + exits .pr k₁ [.timer 0 userText]) : ℕ) ∧
        ((k₁.envs 2).priority = 1 → k₂.totalSchedCalls ≤
          k₁.totalSchedCalls + nenv * (1 + exits .pr k₁ [.timer 0 userText]))) := by
  have hresult : ((smallKernel 1 20).after .pr
      [.create 0 smallBinary, .create 0 smallBinary, .create 0 smallBinary, .start 0]).any (fun k₁ ↦
    (k₁.after .pr [.timer 0 userText]).any fun k₂ ↦
      (k₁.envs 2).envStatus = EnvStatus.runnable ∧
        (k₂.envs 2).envStatus = EnvStatus.runnable) = true := by
    decide +kernel
  obtain ⟨k₁, hk₁, h₁⟩ := (Option.any_eq_true _ _).mp hresult
  obtain ⟨k₂, hstep, h₂⟩ := Kernel.step_of_any h₁
  rw [decide_eq_true_eq] at h₂
  have hreduces : ¬ k₁.Reduces (.timer 0 userText) 2 := by
    rintro ⟨c, k', call, henters, -⟩
    obtain ⟨tf, faultVa, inp, hev, hcall⟩ := henters.of_call
    obtain ⟨-, rfl, -, -⟩ := Event.trap.inj hev
    have hnone : (timerFrame userText).call = none := by decide
    rw [hnone] at hcall
    cases hcall
  have hquiet : k₁.Undisturbing (.timer 0 userText) := Event.Quiet.undisturbing (by decide)
  have hpasses : Run (Kernel.PassesOver 2) k₁ [.timer 0 userText] k₂ :=
    .single ⟨hstep, hquiet, hreduces, h₂.2⟩
  exact ⟨k₁, k₂, hpasses, waiting_is_bounded (smallKernel_booted 1 20 (by decide)) rfl
    (quiet_run hk₁ (by decide)) h₂.1 hpasses⟩

end SistemasOperativos.Jos
