import SistemasOperativos.Jos.Boot
import SistemasOperativos.Jos.Decomposition
import SistemasOperativos.Library.Observation

/-!
# The period of the boost

Which ticks reset all priorities. The counter of the boost is written by the timer path alone, so in a
run of the machine its value is a function of the number of ticks charged so far.
-/

namespace SistemasOperativos.Jos

open Library Library.Except

variable {n : ℕ} {s : Scheduler} {c : Fin n} {k k₁ k' : Kernel n} {e e' : EnvPtr}

namespace Kernel

/-! ## What leaves the counter alone -/

section Counter

/-- The function returns with the counter as it was. -/
abbrev Uncounted {α : Type} (k : Kernel n) (x : Except Fault (α × Kernel n)) : Prop :=
  Keeps boostTimeSlices k x

abbrev UncountedState (k : Kernel n) (x : Except Fault (Kernel n)) : Prop :=
  KeepsState boostTimeSlices k x

theorem park_counter : (k.park c).boostTimeSlices = k.boostTimeSlices := by
  unfold park
  split
  · split <;> rfl
  · rfl

theorem envRun_counter : (k.envRun c e).boostTimeSlices = k.boostTimeSlices := by
  unfold envRun
  simp only
  split <;> exact park_counter

theorem schedYield_counter : k.UncountedState (k.schedYield s c) := by
  intro k' h
  obtain ⟨e, -, rfl⟩ | ⟨-, hhalt⟩ := schedYield_cases h
  · exact envRun_counter
  · unfold schedHalt at hhalt
    split at hhalt
    · obtain rfl := Except.ok.inj hhalt
      rfl
    · cases hhalt

theorem envFree_counter : k.UncountedState (k.envFree c e) := by
  intro k' h
  obtain ⟨pgdir, m₁, m₂, -, -, -, rfl⟩ := envFree_ok h
  change (k.leavePgdir c e).boostTimeSlices = k.boostTimeSlices
  unfold leavePgdir
  split <;> rfl

theorem envDestroy_counter : k.Uncounted (k.envDestroy s c e) := by
  unfold envDestroy
  split
  · exact .pure rfl
  · apply Keeps.of_state envFree_counter
    intro k₁ hk₁
    split
    · apply Keeps.of_state
      · apply KeepsState.from_state schedYield_counter
        exact hk₁
      · intro k₂ hk₂
        exact .pure hk₂
    · exact .pure hk₁

theorem userMemAssert_counter {va len perm : Word} :
    k.Uncounted (k.userMemAssert s c e va len perm) := by
  unfold userMemAssert
  apply Keeps.read
  intro r
  split
  · exact envDestroy_counter
  · exact .pure rfl

theorem envPageAlloc_counter {va perm : Word} : k.Uncounted (k.envPageAlloc e va perm) := by
  intro r h
  obtain ⟨m, hm⟩ := envPageAlloc_memory h
  rw [hm]

theorem envPageMap_counter {srcva dstva perm : Word} :
    k.Uncounted (k.envPageMap e srcva e' dstva perm) := by
  intro r h
  obtain ⟨m, hm⟩ := envPageMap_memory h
  rw [hm]

theorem sysCputs_counter {va len : Word} : k.Uncounted (k.sysCputs s c va len) := by
  unfold sysCputs
  apply Keeps.read
  intro cur
  apply Keeps.bind userMemAssert_counter
  intro control k₁ hk₁
  cases control with
  | leaves => exact .pure hk₁
  | returns u => exact .pure hk₁

theorem sysEnvDestroy_counter {envid : Word} : k.Uncounted (k.sysEnvDestroy s c envid) := by
  unfold sysEnvDestroy
  apply Keeps.read
  intro found
  cases found with
  | none => exact .pure rfl
  | some e =>
    apply Keeps.bind envDestroy_counter
    intro control k₁ hk₁
    cases control with
    | leaves => exact .pure hk₁
    | returns u => exact .pure hk₁

theorem sysExofork_counter : k.Uncounted (k.sysExofork c) := by
  intro r h
  obtain ⟨hsame, -⟩ | ⟨e, cur, k₁, env, -, halloc, -, -, -, hnew⟩ := sysExofork_ok h
  · rw [hsame]
  · obtain ⟨pgdir, memory, -, -, rfl⟩ := envAlloc_ok halloc
    rw [hnew]
    rfl

theorem sysEnvSetStatus_counter {envid status : Word} :
    k.Uncounted (k.sysEnvSetStatus c envid status) := by
  unfold sysEnvSetStatus
  split
  · exact .pure rfl
  · apply Keeps.read
    intro found
    cases found with
    | none => exact .pure rfl
    | some e => exact .pure rfl

theorem sysEnvSetPgfaultUpcall_counter {envid func : Word} :
    k.Uncounted (k.sysEnvSetPgfaultUpcall s c envid func) := by
  unfold sysEnvSetPgfaultUpcall
  apply Keeps.read
  intro found
  cases found with
  | none => exact .pure rfl
  | some e =>
    apply Keeps.bind userMemAssert_counter
    intro control k₁ hk₁
    cases control with
    | leaves => exact .pure hk₁
    | returns u => exact .pure hk₁

theorem sysPageAlloc_counter {envid va perm : Word} :
    k.Uncounted (k.sysPageAlloc c envid va perm) := by
  unfold sysPageAlloc
  split
  · exact .pure rfl
  · apply Keeps.read
    intro found
    cases found with
    | none => exact .pure rfl
    | some e => exact envPageAlloc_counter

theorem sysPageMap_counter {srcenvid srcva dstenvid dstva perm : Word} :
    k.Uncounted (k.sysPageMap c srcenvid srcva dstenvid dstva perm) := by
  unfold sysPageMap
  split
  · exact .pure rfl
  split
  · exact .pure rfl
  apply Keeps.read
  intro src
  cases src with
  | none => exact .pure rfl
  | some src =>
    apply Keeps.read
    intro dst
    cases dst with
    | none => exact .pure rfl
    | some dst => exact envPageMap_counter

theorem sysPageUnmap_counter {envid va : Word} : k.Uncounted (k.sysPageUnmap c envid va) := by
  unfold sysPageUnmap
  split
  · exact .pure rfl
  apply Keeps.read
  intro found
  cases found with
  | none => exact .pure rfl
  | some e =>
    apply Keeps.read
    intro memory
    exact .pure rfl

theorem ipcSendPage_counter {inp : Input} {srcva perm : Word} :
    k.Uncounted (k.ipcSendPage inp e e' srcva perm) := by
  unfold ipcSendPage
  split
  · exact .pure rfl
  apply Keeps.read
  intro srcpte
  split
  · exact .pure rfl
  split
  · exact .pure rfl
  simp only
  split
  · exact .pure rfl
  apply Keeps.bind envPageAlloc_counter
  intro r k₁ hk₁
  simp only
  split
  · exact .pure hk₁
  apply Keeps.bind (envPageMap_counter.from_state hk₁)
  intro r k₂ hk₂
  simp only
  split
  · exact .pure hk₂
  · exact .pure hk₂

theorem sysIpcTrySend_counter {inp : Input} {envid value srcva perm : Word} :
    k.Uncounted (k.sysIpcTrySend c inp envid value srcva perm) := by
  unfold sysIpcTrySend
  apply Keeps.read
  intro found
  cases found with
  | none => exact .pure rfl
  | some dst =>
    simp only
    split
    · exact .pure rfl
    apply Keeps.read
    intro cur
    split
    · exact .pure rfl
    apply Keeps.bind ipcSendPage_counter
    intro r k₁ hk₁
    simp only
    split
    · exact .pure hk₁
    · exact .pure hk₁

theorem sysIpcRecv_counter {dstva : Word} : k.Uncounted (k.sysIpcRecv s c dstva) := by
  unfold sysIpcRecv
  apply Keeps.read
  intro cur
  simp only
  split
  · exact .pure rfl
  apply Keeps.of_state
  · apply KeepsState.from_state schedYield_counter
    rfl
  · intro k₁ hk₁
    exact .pure hk₁

theorem sysIncPriority_counter {envid : Word} : k.Uncounted (k.sysIncPriority c envid) := by
  unfold sysIncPriority
  apply Keeps.read
  intro found
  cases found with
  | none => exact .pure rfl
  | some e =>
    apply Keeps.read
    intro cur
    simp only
    split
    · exact .pure rfl
    split
    · exact .pure rfl
    · exact .pure rfl

theorem sysRedPriority_counter {envid : Word} : k.Uncounted (k.sysRedPriority c envid) := by
  unfold sysRedPriority
  apply Keeps.read
  intro found
  cases found with
  | none => exact .pure rfl
  | some e =>
    simp only
    split
    · exact .pure rfl
    · exact .pure rfl

theorem returning_counter {x : Except Fault (ℤ × Kernel n)} (h : k.Uncounted x) :
    k.Uncounted (returning x) := by
  apply Keeps.bind h
  intro r k₁ hk₁
  exact .pure hk₁

theorem reading_counter {x : Except Fault ℤ} : k.Uncounted ((·, k) <$> x) := by
  intro r h
  obtain ⟨_, -, rfl⟩ := map_ok.mp h
  rfl

theorem syscall_counter {inp : Input} {no a1 a2 a3 a4 a5 : Word} :
    k.Uncounted (k.syscall s c inp no a1 a2 a3 a4 a5) := by
  unfold syscall
  cases Sysno.ofWord no with
  | none => exact .pure rfl
  | some no =>
    cases no with
    | cputs => exact sysCputs_counter
    | cgetc => exact .pure rfl
    | getenvid => exact returning_counter reading_counter
    | envDestroy => exact sysEnvDestroy_counter
    | pageAlloc => exact returning_counter sysPageAlloc_counter
    | pageMap => exact returning_counter sysPageMap_counter
    | pageUnmap => exact returning_counter sysPageUnmap_counter
    | exofork => exact returning_counter sysExofork_counter
    | envSetStatus => exact returning_counter sysEnvSetStatus_counter
    | envSetPgfaultUpcall => exact sysEnvSetPgfaultUpcall_counter
    | yield =>
      intro r h
      obtain ⟨k₁, hyield, rfl⟩ := map_ok.mp h
      exact schedYield_counter k₁ hyield
    | ipcTrySend => exact returning_counter sysIpcTrySend_counter
    | ipcRecv => exact sysIpcRecv_counter
    | incPriority => exact returning_counter sysIncPriority_counter
    | redPriority => exact returning_counter sysRedPriority_counter
    | getPriority => exact returning_counter reading_counter

theorem setEax_counter {frame : Option EnvPtr} {r : ℤ} :
    (k.setEax frame r).boostTimeSlices = k.boostTimeSlices := by
  cases frame <;> rfl

theorem setTf_counter {frame : Option EnvPtr} {tf : Trapframe} :
    (k.setTf frame tf).boostTimeSlices = k.boostTimeSlices := by
  cases frame <;> rfl

theorem pageFaultHandler_counter {frame : Option EnvPtr} {tf : Trapframe} {faultVa : Word} :
    k.Uncounted (k.pageFaultHandler s c frame tf faultVa) := by
  unfold pageFaultHandler
  split
  · exact .error
  apply Keeps.read
  intro cur
  simp only
  split
  · exact envDestroy_counter
  apply Keeps.bind userMemAssert_counter
  intro control k₁ hk₁
  cases control with
  | leaves => exact .pure hk₁
  | returns u =>
    apply Keeps.read
    intro memory
    split
    · exact .error
    · apply Keeps.pure
      rw [envRun_counter, setTf_counter]
      exact hk₁

/-- Only the timer writes the counter. -/
theorem trapDispatch_counter {frame : Option EnvPtr} {tf : Trapframe} {faultVa : Word} {inp : Input}
    (htimer : tf.tfTrapno ≠ irqOffset + irqTimer) :
    k.Uncounted (k.trapDispatch s c frame tf faultVa inp) := by
  unfold trapDispatch
  split
  · exact .pure rfl
  split
  · exact pageFaultHandler_counter
  split
  · apply Keeps.bind syscall_counter
    intro control k₁ hk₁
    cases control with
    | leaves => exact .pure hk₁
    | returns r => exact .pure (setEax_counter.trans hk₁)
  split
  · exact .pure rfl
  simp only
  split
  · exact .error
  apply Keeps.read
  intro cur
  exact envDestroy_counter

theorem trapReturn_counter {r : Control Unit × Kernel n} :
    r.2.UncountedState (trapReturn s c r) := by
  obtain ⟨control, k₁⟩ := r
  cases control with
  | leaves => exact .pure rfl
  | returns u =>
    simp only [trapReturn]
    split
    · exact schedYield_counter
    · split
      · exact .pure envRun_counter
      · exact schedYield_counter

theorem envCreate_counter {binary : Elf} : k.UncountedState (k.envCreate binary) := by
  intro k' h
  unfold envCreate at h
  obtain ⟨⟨res, k₁⟩, halloc, h⟩ := bind_ok.mp h
  cases res with
  | error r => exact (throw_ok.mp h).elim
  | ok e =>
    obtain ⟨k₂, hload, h⟩ := bind_ok.mp h
    obtain ⟨pgdir, m₁, m₂, -, -, -, rfl⟩ := loadIcode_ok hload
    obtain ⟨pgdir', memory, -, -, rfl⟩ := envAlloc_ok halloc
    rw [← pure_ok.mp h]
    rfl

end Counter

/-! ## The tick of the timer -/

/-- The environment to which a step charges a tick: the one that the timer interrupts. One that is
dying is freed before the interrupt is dispatched. -/
def charged (k : Kernel n) : Event n → Option EnvPtr
  | .trap c tf _ _ =>
    if tf.tfTrapno = irqOffset + irqTimer then
      (k.curenv c).filter fun cur ↦ ¬(tf.tfCs &&& 3 = 3 ∧ (k.envs cur).envStatus = .dying)
    else none
  | _ => none

theorem charged_timer {tf : Trapframe} (faultVa : Word) (inp : Input)
    (htimer : tf.tfTrapno = irqOffset + irqTimer) :
    k.charged (.trap c tf faultVa inp) =
      (k.curenv c).filter fun cur ↦ ¬(tf.tfCs &&& 3 = 3 ∧ (k.envs cur).envStatus = .dying) :=
  if_pos htimer

/-- The test of `boost`. -/
def BoostDue (k : Kernel n) : Prop := k.boostTimeSlices + 1 = maxTimeslicesBoost

instance (k : Kernel n) : Decidable k.BoostDue :=
  inferInstanceAs (Decidable (k.boostTimeSlices + 1 = maxTimeslicesBoost))

/-- The rule of `update_priority` for the environment that is charged. -/
def NextPriority (slices old new : ℤ) : Prop :=
  new = if maxEnvTimeSlices ∣ slices ∧ old < maxPriority then old + 1 else old

theorem trapDispatch_timer {frame : Option EnvPtr} {tf : Trapframe} {faultVa : Word} {inp : Input}
    (htimer : tf.tfTrapno = irqOffset + irqTimer) :
    k.trapDispatch s c frame tf faultVa inp =
      (do return (.leaves, ← (k.updatePriority c).schedYield s c)) := by
  unfold trapDispatch
  rw [if_neg (by rw [htimer]; decide), if_neg (by rw [htimer]; decide),
    if_neg (by rw [htimer]; decide), if_neg (by rw [htimer]; decide), if_pos htimer]

theorem updatePriority_idle (h : k.curenv c = none) : k.updatePriority c = k := by
  unfold updatePriority
  rw [h]

/-- A tick without an environment leaves the counter alone. -/
theorem trapDispatch_idle {frame : Option EnvPtr} {tf : Trapframe} {faultVa : Word} {inp : Input}
    (h : k.curenv c = none) : k.Uncounted (k.trapDispatch s c frame tf faultVa inp) := by
  by_cases htimer : tf.tfTrapno = irqOffset + irqTimer
  · rw [trapDispatch_timer htimer, updatePriority_idle h]
    apply Keeps.of_state schedYield_counter
    intro k₁ hk₁
    exact .pure hk₁
  · exact trapDispatch_counter htimer

theorem saveTf_counter {cur : EnvPtr} {tf : Trapframe} :
    (k.saveTf c cur tf).boostTimeSlices = k.boostTimeSlices := rfl

/-- The ticks that are charged are the only steps that move the counter. -/
theorem Step.uncharged {ev : Event n} (h : k.Step s ev k') (hnone : k.charged ev = none) :
    k'.boostTimeSlices = k.boostTimeSlices := by
  obtain ⟨-, hexec⟩ := h
  cases ev with
  | create c binary => exact envCreate_counter k' hexec
  | start c => exact (schedYield_counter (k := k.start c)) k' hexec
  | store c va b =>
    obtain ⟨memory, -, h⟩ := bind_ok.mp hexec
    rw [← pure_ok.mp h]
  | trap c tf faultVa inp =>
    have hreturn : ∀ k₁ : Kernel n, ∀ frame, k₁.boostTimeSlices = k.boostTimeSlices →
        k₁.Uncounted (k₁.trapDispatch s c frame tf faultVa inp) →
        (k₁.trapDispatch s c frame tf faultVa inp >>= trapReturn s c) = .ok k' →
        k'.boostTimeSlices = k.boostTimeSlices := by
      intro k₁ frame hk₁ hdispatch h
      obtain ⟨r, hr, hk'⟩ := bind_ok.mp h
      rw [trapReturn_counter k' hk', hdispatch r hr, hk₁]
    change k.trap s c tf faultVa inp = .ok k' at hexec
    unfold trap at hexec
    split at hexec
    · rename_i hcs
      split at hexec
      · exact (throw_ok.mp hexec).elim
      · rename_i cur hcur
        split at hexec
        · obtain ⟨k₁, hfree, h⟩ := bind_ok.mp hexec
          have hyield := schedYield_counter k' h
          have hk₁ := envFree_counter k₁ hfree
          exact hyield.trans hk₁
        · rename_i halive
          refine hreturn _ _ saveTf_counter (trapDispatch_counter fun htimer ↦ ?_) hexec
          rw [charged_timer faultVa inp htimer, hcur, Option.filter_some] at hnone
          simp [halive] at hnone
    · rename_i hcs
      by_cases htimer : tf.tfTrapno = irqOffset + irqTimer
      · rw [charged_timer faultVa inp htimer] at hnone
        have hidle : (k.start c).curenv c = none := by
          cases hcur : k.curenv c with
          | none => simpa [start, curenv] using hcur
          | some cur =>
            rw [hcur, Option.filter_some] at hnone
            exact absurd (by simpa using hnone : _ ∧ _).1 hcs
        exact hreturn (k.start c) none rfl (trapDispatch_idle hidle) hexec
      · exact hreturn (k.start c) none rfl (trapDispatch_counter htimer) hexec

/-- A step that charges a tick runs `update_priority` and then the scheduler. -/
theorem Step.charged {ev : Event n} {cur : EnvPtr} (h : k.Step s ev k')
    (hcharged : k.charged ev = some cur) :
    ∃ (c : Fin n) (k₁ : Kernel n), k₁.curenv c = some cur ∧ k₁.boostTimeSlices = k.boostTimeSlices ∧
      (∀ e, (k₁.envs e).priority = (k.envs e).priority ∧
        (k₁.envs e).timeSlices = (k.envs e).timeSlices) ∧
      (k₁.updatePriority c).schedYield s c = .ok k' := by
  obtain ⟨-, hexec⟩ := h
  cases ev with
  | create c binary => cases hcharged
  | start c => cases hcharged
  | store c va b => cases hcharged
  | trap c tf faultVa inp =>
    have htimer : tf.tfTrapno = irqOffset + irqTimer := by
      by_contra hno
      have hnone : k.charged (.trap c tf faultVa inp) = none := if_neg hno
      rw [hnone] at hcharged
      cases hcharged
    rw [charged_timer faultVa inp htimer, Option.filter_eq_some_iff] at hcharged
    obtain ⟨hcur, halive⟩ := hcharged
    have hyield : ∀ k₁ : Kernel n, ∀ frame,
        (k₁.trapDispatch s c frame tf faultVa inp >>= trapReturn s c) = .ok k' →
        (k₁.updatePriority c).schedYield s c = .ok k' := by
      intro k₁ frame h
      rw [trapDispatch_timer htimer] at h
      obtain ⟨r, hr, hk'⟩ := bind_ok.mp h
      obtain ⟨k₂, hk₂, hr⟩ := bind_ok.mp hr
      rw [← pure_ok.mp hr] at hk'
      rw [hk₂]
      exact hk'
    change k.trap s c tf faultVa inp = .ok k' at hexec
    unfold trap at hexec
    split at hexec
    · rename_i hcs
      have hlive : (k.envs cur).envStatus ≠ .dying :=
        fun hdying ↦ of_decide_eq_true halive ⟨hcs, hdying⟩
      rw [hcur] at hexec
      simp only [if_neg hlive] at hexec
      refine ⟨c, k.saveTf c cur tf, ?_, saveTf_counter, fun e ↦ ?_, hyield _ _ hexec⟩
      · simpa [saveTf, setTf, start, curenv] using hcur
      · unfold saveTf setTf
        rw [setEnv_envs]
        split
        · rename_i heq
          rw [heq]
          exact ⟨rfl, rfl⟩
        · exact ⟨rfl, rfl⟩
    · refine ⟨c, k.start c, ?_, rfl, fun e ↦ ⟨rfl, rfl⟩, hyield _ _ hexec⟩
      simpa [start, curenv] using hcur

theorem envRun_accounts (e' : EnvPtr) : ((k.envRun c e).envs e').priority = (k.envs e').priority ∧
    ((k.envRun c e).envs e').timeSlices = (k.envs e').timeSlices := by
  by_cases he : e' = e
  · rw [he, envRun_self]
    exact ⟨rfl, rfl⟩
  · obtain ⟨status, hpark, -⟩ := park_envs (k := k) (c := c) e'
    rw [envRun_of_ne he, hpark]
    exact ⟨rfl, rfl⟩

/-- The scheduler does no accounting. -/
theorem schedYield_accounts (h : k.schedYield s c = .ok k') (e : EnvPtr) :
    (k'.envs e).priority = (k.envs e).priority ∧
      (k'.envs e).timeSlices = (k.envs e).timeSlices := by
  obtain ⟨e₁, -, rfl⟩ | ⟨-, hhalt⟩ := schedYield_cases h
  · exact envRun_accounts (k := { k with totalSchedCalls := k.totalSchedCalls + 1 }) e
  · unfold schedHalt at hhalt
    split at hhalt
    · obtain rfl := Except.ok.inj hhalt
      exact ⟨rfl, rfl⟩
    · cases hhalt

/-- What `update_priority` does to the priority of the environment that it charges. -/
theorem updatePriority_eq {cur : EnvPtr} (h : k.curenv c = some cur) :
    ∃ priority, NextPriority ((k.envs cur).timeSlices + 1) (k.envs cur).priority priority ∧
      k.updatePriority c = (k.setEnv cur { k.envs cur with
        timeSlices := (k.envs cur).timeSlices + 1, priority }).boost := by
  have hdvd : ((k.envs cur).timeSlices + 1).tmod maxEnvTimeSlices = 0 ↔
      maxEnvTimeSlices ∣ (k.envs cur).timeSlices + 1 := Int.dvd_iff_tmod_eq_zero.symm
  unfold updatePriority
  rw [h]
  refine ⟨_, ?_, rfl⟩
  unfold NextPriority
  simp only [hdvd]

theorem boost_due (h : k.BoostDue) :
    k.boost = { k with envs := fun e ↦ { k.envs e with priority := 1 }, boostTimeSlices := 1 } :=
  if_pos h

theorem boost_not_due (h : ¬k.BoostDue) :
    k.boost = { k with boostTimeSlices := k.boostTimeSlices + 1 } :=
  if_neg h

/-- A tick at which the boost is due. -/
theorem Step.boosts {ev : Event n} {cur : EnvPtr} (h : k.Step s ev k')
    (hcharged : k.charged ev = some cur) (hdue : k.BoostDue) :
    k'.boostTimeSlices = 1 ∧ ∀ e, (k'.envs e).priority = 1 := by
  obtain ⟨c, k₁, hcur, hcounter, -, hyield⟩ := h.charged hcharged
  obtain ⟨priority, -, hupdate⟩ := updatePriority_eq hcur
  have hdue₁ : (k₁.setEnv cur { k₁.envs cur with
      timeSlices := (k₁.envs cur).timeSlices + 1, priority }).BoostDue := by
    change k₁.boostTimeSlices + 1 = maxTimeslicesBoost
    rw [hcounter]
    exact hdue
  rw [boost_due hdue₁] at hupdate
  rw [hupdate] at hyield
  exact ⟨schedYield_counter k' hyield, fun e ↦ (schedYield_accounts hyield e).1⟩

/-- A tick between two boosts. -/
theorem Step.ticks {ev : Event n} {cur : EnvPtr} (h : k.Step s ev k')
    (hcharged : k.charged ev = some cur) (hdue : ¬k.BoostDue) :
    k'.boostTimeSlices = k.boostTimeSlices + 1 ∧
      (k'.envs cur).timeSlices = (k.envs cur).timeSlices + 1 ∧
      NextPriority (k'.envs cur).timeSlices (k.envs cur).priority (k'.envs cur).priority ∧
      ∀ e, e ≠ cur → (k'.envs e).priority = (k.envs e).priority := by
  obtain ⟨c, k₁, hcur, hcounter, hsame, hyield⟩ := h.charged hcharged
  obtain ⟨priority, hnext, hupdate⟩ := updatePriority_eq hcur
  have hdue₁ : ¬(k₁.setEnv cur { k₁.envs cur with
      timeSlices := (k₁.envs cur).timeSlices + 1, priority }).BoostDue := by
    change ¬k₁.boostTimeSlices + 1 = maxTimeslicesBoost
    rw [hcounter]
    exact hdue
  rw [boost_not_due hdue₁] at hupdate
  rw [hupdate] at hyield
  have hslices : (k'.envs cur).timeSlices = (k.envs cur).timeSlices + 1 := by
    rw [(schedYield_accounts hyield cur).2]
    change ((k₁.setEnv cur _).envs cur).timeSlices = _
    rw [setEnv_self, ← (hsame cur).2]
  have hpriority : (k'.envs cur).priority = priority := by
    rw [(schedYield_accounts hyield cur).1]
    change ((k₁.setEnv cur _).envs cur).priority = _
    rw [setEnv_self]
  refine ⟨?_, hslices, ?_, fun e he ↦ ?_⟩
  · rw [schedYield_counter k' hyield, ← hcounter]
    rfl
  · rw [hslices, hpriority, ← (hsame cur).1, ← (hsame cur).2]
    exact hnext
  · rw [(schedYield_accounts hyield e).1, ← (hsame e).1]
    change ((k₁.setEnv cur _).envs e).priority = _
    rw [setEnv_of_ne he]

/-! ## Runs -/

/-- How many ticks the events charge, from the state `k` on. -/
def chargedTicks (s : Scheduler) : Kernel n → List (Event n) → ℕ
  | _, [] => 0
  | k, ev :: evs =>
    (if (k.charged ev).isSome then 1 else 0) +
      match k.exec s ev with
      | .ok k' => chargedTicks s k' evs
      | .error _ => 0

theorem chargedTicks_append {evs evs' : List (Event n)} (h : Run (Step s) k evs k') :
    chargedTicks s k (evs ++ evs') = chargedTicks s k evs + chargedTicks s k' evs' := by
  induction h with
  | nil k => rw [List.nil_append, chargedTicks, Nat.zero_add]
  | cons hstep hrest ih =>
    rw [List.cons_append, chargedTicks, chargedTicks, hstep.2]
    simp only
    rw [ih, Nat.add_assoc]

theorem chargedTicks_single {ev : Event n} (h : k.Step s ev k') :
    chargedTicks s k [ev] = if (k.charged ev).isSome then 1 else 0 := by
  rw [chargedTicks, h.2]
  rfl

/-- The counter after some charged ticks: the reset to 1 makes every period but the first one
shorter. -/
def counterAfter (ticks : ℕ) : ℤ :=
  if ticks < 1000 then ticks else 1 + ((ticks - 1000) % 999 : ℕ)

theorem counterAfter_due (ticks : ℕ) :
    counterAfter ticks + 1 = maxTimeslicesBoost ↔ 1000 ≤ ticks + 1 ∧ (ticks + 1 - 1000) % 999 = 0 := by
  unfold counterAfter maxTimeslicesBoost
  split <;> omega

theorem counterAfter_succ (ticks : ℕ) : counterAfter (ticks + 1) =
    if counterAfter ticks + 1 = maxTimeslicesBoost then 1 else counterAfter ticks + 1 := by
  by_cases hdue : counterAfter ticks + 1 = maxTimeslicesBoost
  · rw [if_pos hdue]
    rw [counterAfter_due] at hdue
    unfold counterAfter
    rw [if_neg (by omega), hdue.2]
    rfl
  · rw [if_neg hdue]
    rw [counterAfter_due] at hdue
    unfold counterAfter
    split <;> split <;> omega

/-- In a run the counter is determined by the ticks charged so far. -/
theorem counter_eq {k₀ : Kernel n} {evs : List (Event n)} (hzero : k₀.boostTimeSlices = 0)
    (h : Run (Step s) k₀ evs k) : k.boostTimeSlices = counterAfter (chargedTicks s k₀ evs) := by
  have hstep : ∀ evs₁ k₁ ev k₂, Run (Step s) k₀ evs₁ k₁ →
      k₁.boostTimeSlices = counterAfter (chargedTicks s k₀ evs₁) → k₁.Step s ev k₂ →
      k₂.boostTimeSlices = counterAfter (chargedTicks s k₀ (evs₁ ++ [ev])) := by
    intro evs₁ k₁ ev k₂ hrun hk₁ hstep
    rw [chargedTicks_append hrun, chargedTicks_single hstep]
    cases hcharged : k₁.charged ev with
    | none =>
      rw [hstep.uncharged hcharged, hk₁]
      rfl
    | some cur =>
      rw [Option.isSome_some, if_pos rfl, counterAfter_succ, ← hk₁]
      by_cases hdue : k₁.BoostDue
      · exact (hstep.boosts hcharged hdue).1.trans (if_pos hdue).symm
      · exact (hstep.ticks hcharged hdue).1.trans (if_neg hdue).symm
  exact @Run.history _ _ _ (fun evs k ↦ k.boostTimeSlices = counterAfter (chargedTicks s k₀ evs)) k₀
    hzero (fun evs₁ k₁ ev k₂ ↦ hstep evs₁ k₁ ev k₂) evs k h

/-- The schedule of the boost, at a step with which `ticks` have been charged: all priorities are reset
exactly at the multiples of `MAX_TIMESLICES_BOOST`, and between them the priority of the environment
that is charged follows its own time slices. -/
structure OnSchedule (ticks : ℕ) (k : Kernel n) (ev : Event n) (k' : Kernel n) : Prop where
  period : k.charged ev ≠ none → (k.BoostDue ↔ maxTimeslicesBoost ∣ ticks)
  resets : k.charged ev ≠ none → k.BoostDue → ∀ e, (k'.envs e).priority = 1
  rises : ∀ cur, k.charged ev = some cur → ¬k.BoostDue →
    (k'.envs cur).timeSlices = (k.envs cur).timeSlices + 1 ∧
      NextPriority (k'.envs cur).timeSlices (k.envs cur).priority (k'.envs cur).priority ∧
      ∀ e, e ≠ cur → (k'.envs e).priority = (k.envs e).priority

end Kernel

open Kernel

section Period

variable {k₀ : Kernel n} {evs : List (Event n)}

/-- At a charged tick everything but the period itself is always as it should be. -/
theorem onSchedule_iff {ev : Event n} {cur : EnvPtr} (hzero : k₀.boostTimeSlices = 0)
    (hrun : Run (Kernel.Step s) k₀ evs k) (hstep : k.Step s ev k') (hcharged : k.charged ev = some cur) :
    OnSchedule (chargedTicks s k₀ (evs ++ [ev])) k ev k' ↔
      (1000 ≤ chargedTicks s k₀ evs + 1 ∧ (chargedTicks s k₀ evs + 1 - 1000) % 999 = 0 ↔
        1000 ∣ chargedTicks s k₀ evs + 1) := by
  have hticks : chargedTicks s k₀ (evs ++ [ev]) = chargedTicks s k₀ evs + 1 := by
    rw [chargedTicks_append hrun, chargedTicks_single hstep, hcharged, Option.isSome_some,
      if_pos rfl]
  have hdue : k.BoostDue ↔
      1000 ≤ chargedTicks s k₀ evs + 1 ∧ (chargedTicks s k₀ evs + 1 - 1000) % 999 = 0 := by
    rw [← counterAfter_due, ← counter_eq hzero hrun]
    rfl
  have hdvd : maxTimeslicesBoost ∣ ((chargedTicks s k₀ evs + 1 : ℕ) : ℤ) ↔
      1000 ∣ chargedTicks s k₀ evs + 1 := Int.natCast_dvd_natCast
  rw [hticks, ← hdue, ← hdvd]
  constructor
  · intro h
    exact h.period (by rw [hcharged]; exact Option.some_ne_none cur)
  · intro h
    refine ⟨fun _ ↦ h, fun _ hboost ↦ (hstep.boosts hcharged hboost).2, fun cur' hcur' hboost ↦ ?_⟩
    obtain rfl := Option.some.inj (hcharged.symm.trans hcur')
    exact (hstep.ticks hcharged hboost).2

/-- A run that charges so many ticks has a step that charges the last of them. -/
theorem exists_tick (ticks : ℕ) (hrun : Run (Kernel.Step s) k₀ evs k)
    (hticks : ticks < chargedTicks s k₀ evs) :
    ∃ evs₁ ev k₁ k₂, evs₁ ++ [ev] <+: evs ∧ Run (Kernel.Step s) k₀ evs₁ k₁ ∧ k₁.Step s ev k₂ ∧
      k₁.charged ev ≠ none ∧ chargedTicks s k₀ evs₁ = ticks := by
  induction evs using List.reverseRecOn generalizing k with
  | nil => exact absurd hticks (Nat.not_lt_zero ticks)
  | append_singleton evs ev ih =>
    obtain ⟨k₁, hrun₁, hlast⟩ := hrun.split
    cases hlast with
    | cons hstep hnil =>
      by_cases hbefore : ticks < chargedTicks s k₀ evs
      · obtain ⟨evs₁, ev₁, k₂, k₃, hpre, hfound⟩ := ih hrun₁ hbefore
        exact ⟨evs₁, ev₁, k₂, k₃, hpre.trans (List.prefix_append _ _), hfound⟩
      · rw [chargedTicks_append hrun₁, chargedTicks_single hstep] at hticks
        refine ⟨evs, ev, k₁, _, List.prefix_rfl, hrun₁, hstep, fun hnone ↦ ?_, ?_⟩
        · rw [hnone, Option.isSome_none, if_neg Bool.false_ne_true] at hticks
          exact hbefore hticks
        · split at hticks <;> omega

/-- In a run of the machine the boost keeps its period, and priorities follow the time slices between
two boosts, if and only if the run ends before the second boost: that one comes a tick early. -/
theorem boost_period_iff (hzero : k₀.boostTimeSlices = 0) (hrun : Run (Kernel.Step s) k₀ evs k) :
    (∀ evs₁ ev k₁ k₂, evs₁ ++ [ev] <+: evs → Run (Kernel.Step s) k₀ evs₁ k₁ → k₁.Step s ev k₂ →
      OnSchedule (chargedTicks s k₀ (evs₁ ++ [ev])) k₁ ev k₂) ↔
    (chargedTicks s k₀ evs : ℤ) < 2 * maxTimeslicesBoost - 1 := by
  have hmax : maxTimeslicesBoost = 1000 := rfl
  constructor
  · intro hall
    by_contra hlong
    obtain ⟨evs₁, ev, k₁, k₂, hpre, hrun₁, hstep, hcharged, hticks⟩ :=
      exists_tick 1998 hrun (by omega)
    obtain ⟨cur, hcur⟩ := Option.ne_none_iff_exists'.mp hcharged
    have hschedule := (onSchedule_iff hzero hrun₁ hstep hcur).mp (hall evs₁ ev k₁ k₂ hpre hrun₁ hstep)
    rw [hticks] at hschedule
    omega
  · intro hshort evs₁ ev k₁ k₂ hpre hrun₁ hstep
    obtain ⟨rest, rfl⟩ := hpre
    rw [chargedTicks_append (hrun₁.append (.single hstep))] at hshort
    cases hcharged : k₁.charged ev with
    | none =>
      refine ⟨fun h ↦ absurd hcharged h, fun h ↦ absurd hcharged h, fun cur hcur ↦ ?_⟩
      rw [hcharged] at hcur
      cases hcur
    | some cur =>
      rw [onSchedule_iff hzero hrun₁ hstep hcharged]
      rw [chargedTicks_append hrun₁, chargedTicks_single hstep, hcharged, Option.isSome_some,
        if_pos rfl] at hshort
      omega

end Period

/-- One environment, interrupted once. -/
theorem boost_period_once :
    ∃ k, Run (Kernel.Step .pr) (smallKernel 1 12)
        [.create 0 smallBinary, .start 0, .timer 0 userText] k ∧
      ((∀ evs₁ ev k₁ k₂, evs₁ ++ [ev] <+: [.create 0 smallBinary, .start 0, .timer 0 userText] →
        Run (Kernel.Step .pr) (smallKernel 1 12) evs₁ k₁ → k₁.Step .pr ev k₂ →
        OnSchedule (chargedTicks .pr (smallKernel 1 12) (evs₁ ++ [ev])) k₁ ev k₂) ↔
      (chargedTicks .pr (smallKernel 1 12)
        [.create 0 smallBinary, .start 0, .timer 0 userText] : ℤ) < 2 * maxTimeslicesBoost - 1) := by
  have hresult : ((smallKernel 1 12).after .pr
      [.create 0 smallBinary, .start 0, .timer 0 userText]).isSome = true := by decide +kernel
  obtain ⟨k, hk⟩ := Option.isSome_iff_exists.mp hresult
  have hrun := Kernel.run_of_after hk
  exact ⟨k, hrun, boost_period_iff rfl hrun⟩

/-! ## One environment alone -/

/-- One CPU runs an environment, and no other is ready. -/
structure Kernel.Solo (k : Kernel 1) (e : EnvPtr) : Prop where
  current : k.curenv 0 = some e
  mode : (k.cpus 0).cpuStatus = .started
  running : (k.envs e).envStatus = .running
  here : (k.envs e).envCpunum = 0
  alone : ∀ e', (k.envs e').envStatus ≠ .runnable

namespace Kernel

section Solo

variable {k : Kernel 1}

theorem Solo.select (h : k.Solo e) : k.select .rr 0 = some e := by
  have hnone : (circular (k.nextCurenvInd 0)).find?
      (fun e ↦ (k.envs e).envStatus == EnvStatus.runnable) = none := by
    rw [List.find?_eq_none]
    intro e' _
    simpa using h.alone e'
  change k.schedRr 0 = some e
  unfold schedRr keepsRunning
  rw [hnone, h.current]
  exact if_pos ⟨h.running, h.here⟩

theorem Solo.of_same {k' : Kernel 1} (h : k.Solo e) (hcurenv : k'.curenv 0 = k.curenv 0)
    (hmode : (k'.cpus 0).cpuStatus = .started)
    (hsame : ∀ e, (k'.envs e).envStatus = (k.envs e).envStatus ∧
      (k'.envs e).envCpunum = (k.envs e).envCpunum) : k'.Solo e where
  current := hcurenv.trans h.current
  mode := hmode
  running := (hsame e).1.trans h.running
  here := (hsame e).2.trans h.here
  alone e' := by
    rw [(hsame e').1]
    exact h.alone e'

theorem Solo.saveTf (h : k.Solo e) (tf : Trapframe) : (k.saveTf 0 e tf).Solo e := by
  apply h.of_same
  · simp [Kernel.saveTf, setTf, start, curenv]
  · simp [Kernel.saveTf, setTf, start]
  · intro e'
    unfold Kernel.saveTf setTf
    rw [setEnv_envs]
    split
    · rename_i heq
      rw [heq]
      exact ⟨rfl, rfl⟩
    · exact ⟨rfl, rfl⟩

theorem Solo.updatePriority (h : k.Solo e) : (k.updatePriority 0).Solo e := by
  obtain ⟨priority, -, hupdate⟩ := updatePriority_eq h.current
  have hset : ∀ k₁ : Kernel 1, k₁.boost.cpus = k₁.cpus ∧ ∀ e,
      (k₁.boost.envs e).envStatus = (k₁.envs e).envStatus ∧
      (k₁.boost.envs e).envCpunum = (k₁.envs e).envCpunum := by
    intro k₁
    unfold boost
    simp only
    split
    · exact ⟨rfl, fun e ↦ ⟨rfl, rfl⟩⟩
    · exact ⟨rfl, fun e ↦ ⟨rfl, rfl⟩⟩
  rw [hupdate]
  obtain ⟨hcpus, henvs⟩ := hset (k.setEnv e { k.envs e with
    timeSlices := (k.envs e).timeSlices + 1, priority })
  apply h.of_same
  · rw [curenv, hcpus]
    rfl
  · rw [hcpus]
    exact h.mode
  · intro e'
    rw [(henvs e').1, (henvs e').2, setEnv_envs]
    split
    · rename_i heq
      rw [heq]
      exact ⟨rfl, rfl⟩
    · exact ⟨rfl, rfl⟩

theorem Solo.envRun (h : k.Solo e) : (k.envRun 0 e).Solo e where
  current := envRun_curenv
  mode := envRun_cpuStatus.trans h.mode
  running := by rw [envRun_self]
  here := by rw [envRun_self]; rfl
  alone e' := by
    by_cases he : e' = e
    · rw [he, envRun_self]
      exact EnvStatus.noConfusion
    · have hother : k.curenv 0 ≠ some e' := by
        rw [h.current]
        exact fun heq ↦ he (Option.some.inj heq).symm
      rw [envRun_of_ne he, park_of_ne hother]
      exact h.alone e'

theorem Solo.schedYield (h : k.Solo e) : ∃ k', k.schedYield .rr 0 = .ok k' ∧ k'.Solo e := by
  have hcalls : { k with totalSchedCalls := k.totalSchedCalls + 1 }.Solo e :=
    h.of_same rfl h.mode fun _ ↦ ⟨rfl, rfl⟩
  refine ⟨_, ?_, hcalls.envRun⟩
  unfold Kernel.schedYield
  simp only
  rw [select_calls, h.select]

/-- The timer charges the environment, and it goes on. -/
theorem Solo.tick (h : k.Solo e) :
    k.charged (.timer 0 userText) = some e ∧
      ∃ k', k.Step .rr (.timer 0 userText) k' ∧ k'.Solo e := by
  have htimer : (timerFrame userText).tfTrapno = irqOffset + irqTimer := rfl
  constructor
  · unfold Event.timer
    rw [charged_timer 0 ⟨0, none⟩ htimer, h.current, Option.filter_some, h.running]
    rfl
  · have hlive : (k.envs e).envStatus ≠ .dying := by
      rw [h.running]
      decide
    obtain ⟨k', hyield, hk'⟩ := (h.saveTf (timerFrame userText)).updatePriority.schedYield
    refine ⟨k', ⟨.inl ⟨h.mode, by decide⟩, ?_⟩, hk'⟩
    change k.trap .rr 0 (timerFrame userText) 0 ⟨0, none⟩ = _
    unfold trap
    rw [if_pos (by decide), h.current]
    simp only [if_neg hlive]
    rw [trapDispatch_timer htimer, hyield]
    rfl

/-- Any number of ticks in a row. -/
theorem Solo.ticks (h : k.Solo e) (ticks : ℕ) :
    ∃ k', Run (Step .rr) k (List.replicate ticks (.timer 0 userText)) k' ∧ k'.Solo e ∧
      chargedTicks .rr k (List.replicate ticks (.timer 0 userText)) = ticks := by
  induction ticks generalizing k with
  | zero => exact ⟨k, .nil k, h, rfl⟩
  | succ ticks ih =>
    obtain ⟨hcharged, k₁, hstep, hk₁⟩ := h.tick
    obtain ⟨k', hrun, hk', hticks⟩ := ih hk₁
    refine ⟨k', .cons hstep hrun, hk', ?_⟩
    rw [List.replicate_succ, chargedTicks, hcharged, hstep.2, Option.isSome_some, if_pos rfl,
      Nat.add_comm]
    exact congrArg (· + 1) hticks

end Solo

end Kernel

/-- A machine that creates one environment, and then takes so many timer interrupts in it. -/
def tickEvents (ticks : ℕ) : List (Event 1) :=
  [.create 0 smallBinary, .start 0] ++ List.replicate ticks (.timer 0 userText)

/-- Creating an environment leaves the other slots alone. -/
theorem envCreate_of_ne {k k' : Kernel 1} {binary : Elf} (h : k.envCreate binary = .ok k')
    (hfree : k.envFreeList = some e) (he : e' ≠ e) : k'.envs e' = k.envs e' := by
  unfold envCreate at h
  obtain ⟨⟨res, k₁⟩, halloc, h⟩ := bind_ok.mp h
  cases res with
  | error r => exact (throw_ok.mp h).elim
  | ok e₁ =>
    obtain ⟨k₂, hload, h⟩ := bind_ok.mp h
    obtain ⟨pgdir, m₁, m₂, -, -, -, rfl⟩ := loadIcode_ok hload
    obtain ⟨pgdir', memory, hhead, -, rfl⟩ := envAlloc_ok halloc
    obtain rfl := Option.some.inj (hhead.symm.trans hfree)
    rw [← pure_ok.mp h, setEnv_of_ne he, setEnv_of_ne he, setEnv_of_ne he]

theorem start_curenv {n : ℕ} (c : Fin n) (k : Kernel n) : (k.start c).curenv c = k.curenv c := by
  unfold start curenv
  rw [setCpu_self]

theorem schedRr_of_runnable {n : ℕ} {c : Fin n} {k : Kernel n} {g : EnvPtr}
    (hg : (k.envs g).envStatus = .runnable) : k.schedRr c ≠ none := by
  unfold schedRr
  cases hfind : (circular (k.nextCurenvInd c)).find?
      fun e ↦ (k.envs e).envStatus == EnvStatus.runnable with
  | some e => exact Option.some_ne_none e
  | none =>
    rw [List.find?_eq_none] at hfind
    exact absurd (beq_iff_eq.mpr hg) (hfind g (mem_circular _ g))

/-- A CPU starts the only environment there is. -/
theorem start_solo {k₁ k₂ : Kernel 1} (hstep : k₁.Step .rr (.start 0) k₂)
    (hready : (k₁.envs 0).envStatus = .runnable)
    (hothers : ∀ e, e ≠ 0 → (k₁.envs e).envStatus = .free) (hnone : k₁.curenv 0 = none) :
    k₂.Solo 0 := by
  have hsame : (k₁.start 0).envs = k₁.envs := rfl
  have hidle : ∀ e, (k₁.start 0).curenv 0 ≠ some e := by
    intro e h
    rw [start_curenv, hnone] at h
    cases h
  have hyield : (k₁.start 0).schedYield .rr 0 = .ok k₂ := hstep.2
  obtain ⟨e, hselect, rfl⟩ | ⟨hselect, -⟩ := schedYield_cases hyield
  · obtain rfl : e = 0 := by
      by_contra he
      obtain hrunnable | ⟨hcur, -⟩ := select_ready hselect
      · rw [hsame, hothers e he] at hrunnable
        cases hrunnable
      · exact hidle e hcur
    refine ⟨envRun_curenv, ?_, by rw [envRun_self], by rw [envRun_self]; rfl, fun e' ↦ ?_⟩
    · rw [envRun_cpuStatus]
      simp [start]
    · by_cases he : e' = 0
      · rw [he, envRun_self]
        exact EnvStatus.noConfusion
      · have hpark : ((Kernel.park 0 { k₁.start 0 with
            totalSchedCalls := (k₁.start 0).totalSchedCalls + 1 }).envs e') =
            (k₁.start 0).envs e' := park_of_ne (hidle e')
        rw [envRun_of_ne he, hpark, hsame, hothers e' he]
        exact EnvStatus.noConfusion
  · exact absurd hselect (@schedRr_of_runnable 1 0 (k₁.start 0) 0 hready)

theorem tickEvents_run (ticks : ℕ) :
    ∃ k : Kernel 1, Run (Kernel.Step .rr) (smallKernel 1 12) (tickEvents ticks) k ∧ k.Solo 0 ∧
      chargedTicks .rr (smallKernel 1 12) (tickEvents ticks) = ticks := by
  have hresult : ((smallKernel 1 12).after .rr [.create 0 smallBinary]).any (fun k₁ ↦
      (k₁.after .rr [.start 0]).any fun _ ↦
        (k₁.envs 0).envStatus = EnvStatus.runnable ∧ k₁.curenv 0 = none) = true := by
    decide +kernel
  obtain ⟨k₁, hcreate, h₁⟩ := Kernel.step_of_any hresult
  obtain ⟨k₂, hstart, h₂⟩ := Kernel.step_of_any h₁
  rw [decide_eq_true_eq] at h₂
  have hothers : ∀ e, e ≠ 0 → (k₁.envs e).envStatus = .free := by
    intro e he
    rw [envCreate_of_ne hcreate.2 rfl he]
    rfl
  obtain ⟨k, hrun, hsolo, hticks⟩ := (start_solo hstart h₂.1 hothers h₂.2).ticks ticks
  have hboth : Run (Kernel.Step .rr) (smallKernel 1 12) [.create 0 smallBinary, .start 0] k₂ :=
    .cons hcreate (.single hstart)
  refine ⟨k, hboth.append hrun, hsolo, ?_⟩
  have hnone : chargedTicks .rr (smallKernel 1 12) [.create 0 smallBinary, .start 0] = 0 := by
    rw [chargedTicks, hcreate.2]
    exact (Nat.zero_add _).trans (chargedTicks_single hstart)
  rw [tickEvents, chargedTicks_append hboth, hnone, hticks, Nat.zero_add]

/-- The second boost comes with the tick 1999. -/
theorem second_boost_early :
    (smallKernel 1 12).Booted (smallFree 12) ∧
    ∃ k₁ k₂ : Kernel 1, Run (Kernel.Step .rr) (smallKernel 1 12) (tickEvents 1998) k₁ ∧
      k₁.Step .rr (.timer 0 userText) k₂ ∧ k₁.charged (.timer 0 userText) ≠ none ∧
      chargedTicks .rr (smallKernel 1 12) (tickEvents 1998 ++ [.timer 0 userText]) = 1999 ∧
      k₁.BoostDue := by
  obtain ⟨k₁, hrun, hsolo, hticks⟩ := tickEvents_run 1998
  obtain ⟨hcharged, k₂, hstep, -⟩ := hsolo.tick
  refine ⟨smallKernel_booted 1 12 (by decide), k₁, k₂, hrun, hstep, ?_, ?_, ?_⟩
  · rw [hcharged]
    exact Option.some_ne_none 0
  · rw [chargedTicks_append hrun, hticks, chargedTicks_single hstep, hcharged]
    rfl
  · have hcounter := counter_eq rfl hrun
    rw [hticks] at hcounter
    rw [BoostDue, hcounter, counterAfter_due]
    decide

end SistemasOperativos.Jos
