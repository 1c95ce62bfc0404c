import SistemasOperativos.Jos.Boot
import SistemasOperativos.Jos.Ownership

/-!
# Identifiers of environments

An id is a generation followed by the ten bits of the slot. The generation of a slot counts up from 1
to `2 ^ 19 - 1` and starts over, so that an id comes back only after that many allocations of its slot.
-/

namespace SistemasOperativos.Jos

open Library Library.Except

variable {n : ℕ} {c : Fin n} {k k₀ k₁ k₂ k' : Kernel n} {e : EnvPtr}

namespace Kernel

/-! ## The arithmetic of one id -/

theorem toNat_append_slot (g : BitVec 22) (e : EnvPtr) :
    (g ++ e).toNat = g.toNat * 1024 + e.toNat := by
  rw [BitVec.toNat_append, ← Nat.shiftLeft_add_eq_or_of_lt e.isLt, Nat.shiftLeft_eq]

theorem eq_append_slot (w : Word) : w = w.extractLsb' 10 22 ++ envx w := by
  apply BitVec.eq_of_toNat_eq
  rw [toNat_append_slot]
  simp only [BitVec.extractLsb'_toNat, envx, BitVec.toNat_setWidth, Nat.shiftRight_eq_div_pow]
  omega

/-- Clearing the bits of the slot. -/
theorem and_not_1023 (w : Word) : w &&& ~~~(1023 : Word) = w.extractLsb' 10 22 ++ (0 : EnvPtr) := by
  have hmask : ~~~(1023 : Word) = BitVec.allOnes 22 ++ (0 : EnvPtr) := by decide
  calc w &&& ~~~(1023 : Word)
      = (w.extractLsb' 10 22 ++ envx w) &&& (BitVec.allOnes 22 ++ (0 : EnvPtr)) := by
        rw [← eq_append_slot, hmask]
    _ = w.extractLsb' 10 22 ++ (0 : EnvPtr) := by
        rw [BitVec.and_append, BitVec.and_allOnes]
        exact congrArg _ BitVec.and_zero

theorem append_or_slot (g : BitVec 22) (e : EnvPtr) :
    (g ++ (0 : EnvPtr)) ||| e.setWidth 32 = g ++ e := by
  have hset : e.setWidth 32 = (0 : BitVec 22) ++ e := by
    rw [BitVec.setWidth_eq_append (by decide)]
    rfl
  rw [hset, BitVec.or_append]
  simp

theorem envx_append (g : BitVec 22) (e : EnvPtr) : envx (g ++ e) = e := by
  apply BitVec.eq_of_toNat_eq
  rw [envx, BitVec.toNat_setWidth, toNat_append_slot]
  have := e.isLt
  omega

/-- The sign bit is the highest one of the generation. -/
theorem toInt_append_pos (g : BitVec 22) (e : EnvPtr) :
    0 < (g ++ e).toInt ↔ 0 < g.toNat * 1024 + e.toNat ∧ g.toNat < 2 ^ 21 := by
  have hnat := toNat_append_slot g e
  have he := e.isLt
  rw [BitVec.toInt_eq_toNat_cond, hnat]
  split <;> omega

/-- The id that follows in a slot, by the case in which the sign bit is reached. -/
theorem nextEnvId_eq (e : EnvPtr) (old : Word) :
    nextEnvId e old =
      (if 0 < (old + envGen).toNat / 1024 ∧ (old + envGen).toNat / 1024 < 2 ^ 21 then
        (old + envGen).extractLsb' 10 22 else 4) ++ e := by
  have hg : ((old + envGen).extractLsb' 10 22).toNat = (old + envGen).toNat / 1024 := by
    rw [BitVec.extractLsb'_toNat, Nat.shiftRight_eq_div_pow]
    have := (old + envGen).isLt
    omega
  have hpos := toInt_append_pos ((old + envGen).extractLsb' 10 22) 0
  rw [hg] at hpos
  have hzero : (0 : EnvPtr).toNat = 0 := rfl
  unfold nextEnvId
  simp only
  rw [and_not_1023]
  by_cases hgood : 0 < (old + envGen).toNat / 1024 ∧ (old + envGen).toNat / 1024 < 2 ^ 21
  · rw [if_pos hgood, if_neg]
    · exact append_or_slot _ e
    · exact Int.not_le.mpr (hpos.mpr ⟨by omega, hgood.2⟩)
  · rw [if_neg hgood, if_pos]
    · exact append_or_slot 4 e
    · refine Int.not_lt.mp fun hlt ↦ hgood ?_
      have hboth := hpos.mp hlt
      exact ⟨by omega, hboth.2⟩

theorem nextEnvId_spec (e : EnvPtr) (old : Word) :
    0 < (nextEnvId e old).toInt ∧ envx (nextEnvId e old) = e := by
  rw [nextEnvId_eq]
  refine ⟨(toInt_append_pos _ e).mpr ?_, envx_append _ e⟩
  split
  · rename_i hgood
    rw [BitVec.extractLsb'_toNat, Nat.shiftRight_eq_div_pow]
    omega
  · have hfour : (4 : BitVec 22).toNat = 4 := rfl
    omega

/-! ## The ids of one slot -/

/-- The number of ids that a slot has: `2 ^ 19 - 1`. -/
def generations : ℕ := 524287

/-- The id in a slot after it has been allocated `count` times. -/
def idAfter (e : EnvPtr) : ℕ → Word
  | 0 => 0
  | count + 1 => nextEnvId e (idAfter e count)

theorem toNat_idAfter (e : EnvPtr) (count : ℕ) :
    (idAfter e (count + 1)).toNat = (count % generations + 1) * 4096 + e.toNat := by
  have he := e.isLt
  have hgen : envGen.toNat = 4096 := rfl
  rw [generations]
  induction count with
  | zero =>
    change (nextEnvId e 0).toNat = _
    rw [nextEnvId_eq, toNat_append_slot]
    rfl
  | succ count ih =>
    change (nextEnvId e (idAfter e (count + 1))).toNat = _
    have hsum : (idAfter e (count + 1) + envGen).toNat =
        (count % 524287 + 2) * 4096 + e.toNat := by
      rw [BitVec.toNat_add, ih, hgen]
      omega
    rw [nextEnvId_eq, toNat_append_slot, hsum]
    -- the sign bit is reached where the generation before was the last one
    by_cases hlast : count % 524287 + 1 = 524287
    · rw [if_neg (by omega)]
      have hfour : (4 : BitVec 22).toNat = 4 := rfl
      omega
    · rw [if_pos (by omega), BitVec.extractLsb'_toNat, Nat.shiftRight_eq_div_pow, hsum]
      omega

/-- Two ids of a slot with less than a whole round of generations between them are different. -/
theorem idAfter_ne {count later : ℕ} (hlt : count < later)
    (hround : count = 0 ∨ later < count + generations) : idAfter e later ≠ idAfter e count := by
  intro heq
  have hnat := congrArg BitVec.toNat heq
  rw [generations] at hround
  obtain ⟨later, rfl⟩ : ∃ j, later = j + 1 := ⟨later - 1, by omega⟩
  rw [toNat_idAfter, generations] at hnat
  cases count with
  | zero =>
    have hzero : (idAfter e 0).toNat = 0 := rfl
    omega
  | succ count =>
    rw [toNat_idAfter, generations] at hnat
    omega

/-- The id in a slot changes whenever the slot is allocated. -/
theorem nextEnvId_ne (e : EnvPtr) (old : Word) : nextEnvId e old ≠ old := by
  intro heq
  have hnat := congrArg BitVec.toNat heq
  have hsum : (old + envGen).toNat = (old.toNat + 4096) % 2 ^ 32 := BitVec.toNat_add ..
  have hlt := old.isLt
  have he := e.isLt
  rw [nextEnvId_eq, toNat_append_slot] at hnat
  split at hnat
  · rw [BitVec.extractLsb'_toNat, Nat.shiftRight_eq_div_pow, hsum] at hnat
    omega
  · have hfour : (4 : BitVec 22).toNat = 4 := rfl
    omega

end Kernel

/-! ## Ids in the machine -/

namespace Effect

open Kernel

variable {a : Action}

/-- Only `env_alloc` changes the id of an environment. -/
theorem envId (h : Effect c k a k') (ha : a ≠ .spawn e) :
    (k'.envs e).envId = (k.envs e).envId := by
  by_cases he : a.subject = some e
  · cases h with
    | tune | write | pageAlloc | pageMap | pageUnmap | upcall => cases he
    | spawn => exact absurd (congrArg Action.spawn (Option.some.inj he)) ha
    | load fresh call =>
      obtain rfl := Option.some.inj he
      obtain ⟨pgdir, m₁, m₂, -, -, -, rfl⟩ := loadIcode_ok call
      rw [setEnv_self]
    | free other call =>
      obtain rfl := Option.some.inj he
      rw [envFree_self call]
    | exit current call =>
      obtain rfl := Option.some.inj he
      rw [setCurenv_envs, envFree_self call]
    | deliver =>
      obtain rfl := Option.some.inj he
      rw [ipcDeliver, setEnv_self]
    | frame | setStatus | dying | await | refuse =>
      obtain rfl := Option.some.inj he
      exact (congrArg Env.envId setEnv_self).trans rfl
  · exact Env.eq_of_core Env.envId (fun _ ↦ rfl) (h.core_of_ne he)

theorem envId_spawn (h : Effect c k (.spawn e) k') :
    (k'.envs e).envId = nextEnvId e (k.envs e).envId := by
  cases h with
  | spawn alloc status same =>
    have hid := Env.eq_of_core Env.envId (fun _ ↦ rfl) same
    rw [setEnv_self, hid]
    obtain ⟨pgdir, memory, -, -, rfl⟩ := envAlloc_ok alloc
    rw [setEnv_self]

/-- An environment that is not free after an action was not free before, or it is the one of the CPU,
or it is new. -/
theorem live (h : Effect c k a k') (hlive : (k'.envs e).envStatus ≠ .free) :
    (k.envs e).envStatus ≠ .free ∨ k.curenv c = some e ∨ a = .spawn e := by
  by_cases he : a.subject = some e
  · cases h with
    | tune | write | pageAlloc | pageMap | pageUnmap | upcall => cases he
    | frame tf current =>
      obtain rfl := Option.some.inj he
      exact Or.inr (Or.inl current)
    | spawn => exact Or.inr (Or.inr (congrArg Action.spawn (Option.some.inj he)))
    | load fresh call =>
      obtain rfl := Option.some.inj he
      obtain ⟨pgdir, m₁, m₂, -, -, -, rfl⟩ := loadIcode_ok call
      rw [setEnv_self] at hlive
      exact Or.inl hlive
    | setStatus was known =>
      obtain rfl := Option.some.inj he
      exact known.symm.imp_right Or.inl
    | dying running =>
      obtain rfl := Option.some.inj he
      exact Or.inl (by simp [running])
    | free other call =>
      obtain rfl := Option.some.inj he
      rw [envFree_self call] at hlive
      exact absurd rfl hlive
    | exit current call =>
      obtain rfl := Option.some.inj he
      exact Or.inr (Or.inl current)
    | deliver current known =>
      obtain rfl := Option.some.inj he
      exact known.symm.imp_right Or.inl
    | await current | refuse current =>
      obtain rfl := Option.some.inj he
      exact Or.inr (Or.inl current)
  · have hstatus := Env.eq_of_core Env.envStatus (fun _ ↦ rfl) (h.core_of_ne he)
    rw [hstatus] at hlive
    exact Or.inl hlive

end Effect

namespace Kernel

/-- What `env_run` writes to an environment. -/
theorem envRun_env (e e' : EnvPtr) : ∃ status runs cpunum, (k.envRun c e).envs e' =
      { k.envs e' with envStatus := status, envRuns := runs, envCpunum := cpunum } ∧
    (status = (k.envs e').envStatus ∨ status = .runnable ∧ (k.envs e').envStatus = .running ∨
      status = .running ∧ e' = e) := by
  by_cases heq : e' = e
  · subst heq
    exact ⟨_, _, _, envRun_self, Or.inr (Or.inr ⟨rfl, rfl⟩)⟩
  · obtain ⟨status, hpark, hstatus⟩ := park_envs (k := k) (c := c) e'
    refine ⟨status, _, _, (envRun_of_ne heq).trans hpark, ?_⟩
    exact hstatus.imp_right Or.inl

end Kernel

/-- What a CPU writes to an environment when it leaves the kernel. -/
theorem Exit.env {s : Scheduler} {mode : Prop} {next : Option EnvPtr}
    (h : Exit s mode c k next k') (e : EnvPtr) : ∃ status runs cpunum, k'.envs e =
      { k.envs e with envStatus := status, envRuns := runs, envCpunum := cpunum } ∧
    (status = (k.envs e).envStatus ∨ status = .runnable ∧ (k.envs e).envStatus = .running ∨
      status = .running ∧ ((k.envs e).envStatus = .runnable ∨ k.curenv c = some e)) := by
  have hrun : ∀ {e' : EnvPtr} {calls : ℕ},
      (k.envs e').envStatus = .runnable ∨ k.curenv c = some e' →
      ∃ status runs cpunum, ({ k with totalSchedCalls := calls }.envRun c e').envs e =
        { k.envs e with envStatus := status, envRuns := runs, envCpunum := cpunum } ∧
      (status = (k.envs e).envStatus ∨ status = .runnable ∧ (k.envs e).envStatus = .running ∨
        status = .running ∧ ((k.envs e).envStatus = .runnable ∨ k.curenv c = some e)) := by
    intro e' calls hready
    obtain ⟨status, runs, cpunum, henv, hstatus⟩ :=
      Kernel.envRun_env (k := { k with totalSchedCalls := calls }) (c := c) e' e
    refine ⟨status, runs, cpunum, henv, hstatus.imp_right (Or.imp_right ?_)⟩
    rintro ⟨hrunning, rfl⟩
    exact ⟨hrunning, hready⟩
  cases h with
  | resume current => exact hrun (Or.inr current)
  | yield call =>
    obtain ⟨e', hselect, rfl⟩ | ⟨-, hhalt⟩ := Kernel.schedYield_cases call
    · have hready := Kernel.select_ready hselect
      exact hrun (hready.imp_right And.left)
    · rw [Kernel.schedHalt_ok hhalt]
      exact ⟨_, _, _, rfl, Or.inl rfl⟩

namespace Kernel

/-- The ids of a machine, in any run: a slot without an id is free and on no CPU, and an id names its
slot. -/
structure Numbered (k : Kernel n) : Prop where
  unused : ∀ e, (k.envs e).envId = 0 → (k.envs e).envStatus = .free
  slot : ∀ e, (k.envs e).envId ≠ 0 → envx (k.envs e).envId = e
  current : ∀ c e, k.curenv c = some e → (k.envs e).envId ≠ 0

theorem nextEnvId_ne_zero (e : EnvPtr) (old : Word) : nextEnvId e old ≠ 0 := by
  intro hzero
  have hpos := (nextEnvId_spec e old).1
  rw [hzero] at hpos
  exact absurd hpos (by decide)

theorem Numbered.of_envs (h : k.Numbered) (hid : ∀ e, (k'.envs e).envId = (k.envs e).envId)
    (hlive : ∀ e, (k'.envs e).envStatus ≠ .free →
      (k.envs e).envStatus ≠ .free ∨ ∃ c, k.curenv c = some e)
    (hcur : ∀ c e, k'.curenv c = some e → (k.envs e).envStatus ≠ .free ∨
      ∃ c, k.curenv c = some e) : k'.Numbered := by
  have hused : ∀ e, (k.envs e).envStatus ≠ .free ∨ (∃ c, k.curenv c = some e) →
      (k.envs e).envId ≠ 0 := by
    rintro e (hlive | ⟨c, hc⟩) hzero
    · exact hlive (h.unused e hzero)
    · exact h.current c e hc hzero
  constructor
  · intro e hzero
    rw [hid e] at hzero
    by_contra hfree
    exact hused e (hlive e hfree) hzero
  · intro e he
    rw [hid e] at he ⊢
    exact h.slot e he
  · intro c e he
    rw [hid e]
    exact hused e (hcur c e he)

theorem Numbered.effect {a : Action} (h : k.Numbered) (heffect : Effect c k a k') :
    k'.Numbered := by
  have hcur : ∀ c' e, k'.curenv c' = some e → k.curenv c' = some e := fun _ _ he ↦
    heffect.curenv_of_some he
  by_cases hspawn : ∃ e, a = .spawn e
  · obtain ⟨e, rfl⟩ := hspawn
    have hnew := heffect.envId_spawn
    have hold : ∀ e' ≠ e, (k'.envs e').envId = (k.envs e').envId := fun e' he' ↦
      heffect.envId (by simpa using Ne.symm he')
    constructor
    · intro e' hzero
      have hne : e' ≠ e := by
        rintro rfl
        exact nextEnvId_ne_zero _ _ (hnew ▸ hzero)
      rw [hold e' hne] at hzero
      by_contra hlive
      rcases heffect.live hlive with hlive | hcurrent | hsame
      · exact hlive (h.unused e' hzero)
      · exact h.current c e' hcurrent hzero
      · exact hne (by simpa using hsame.symm)
    · intro e' hid
      by_cases heq : e' = e
      · rw [heq, hnew]
        exact (nextEnvId_spec e _).2
      · rw [hold e' heq] at hid ⊢
        exact h.slot e' hid
    · intro c' e' he'
      by_cases heq : e' = e
      · rw [heq, hnew]
        exact nextEnvId_ne_zero e _
      · rw [hold e' heq]
        exact h.current c' e' (hcur c' e' he')
  · refine h.of_envs (fun e ↦ heffect.envId fun ha ↦ hspawn ⟨e, ha⟩) (fun e hlive ↦ ?_) fun c' e he ↦
      Or.inr ⟨c', hcur c' e he⟩
    rcases heffect.live hlive with hlive | hcurrent | hsame
    · exact Or.inl hlive
    · exact Or.inr ⟨c, hcurrent⟩
    · exact absurd ⟨e, hsame⟩ hspawn

/-- Entering the kernel gives no environment to a CPU and wakes none. -/
theorem Enters.env {ev : Event n} {call : Option Call} (h : k.Enters ev c k₁ call) (e : EnvPtr) :
    ∃ tf, k₁.envs e = { k.envs e with envTf := tf } := by
  cases h with
  | user mode current alive =>
    rw [saveTf, setTf, setEnv_envs]
    split
    · rename_i heq
      rw [heq]
      exact ⟨_, rfl⟩
    · exact ⟨_, rfl⟩
  | _ => exact ⟨_, rfl⟩

theorem Enters.curenv {ev : Event n} {call : Option Call} (h : k.Enters ev c k₁ call) :
    k₁.curenv = k.curenv := by
  cases h with
  | user => exact start_curenv
  | _ => exact start_curenv

theorem Numbered.actions {P : Action → Prop} {acts : List Action} (h : k.Numbered)
    (hacts : Actions c P k acts k') : k'.Numbered :=
  hacts.invariant (fun _ _ _ hk hstep ↦ hk.effect hstep.1) h

theorem Numbered.loses {acts : List Action} (h : k.Numbered) (hloses : Loses c k acts k') :
    k'.Numbered := by
  cases hloses with
  | keeps => exact h
  | exit effect => exact h.effect effect

theorem Numbered.enters {ev : Event n} {call : Option Call} (h : k.Numbered)
    (henters : k.Enters ev c k₁ call) : k₁.Numbered := by
  refine h.of_envs (fun e ↦ ?_) (fun e hlive ↦ ?_) fun c' e he ↦ ?_
  · obtain ⟨tf, henv⟩ := henters.env e
    rw [henv]
  · obtain ⟨tf, henv⟩ := henters.env e
    rw [henv] at hlive
    exact Or.inl hlive
  · rw [henters.curenv] at he
    exact Or.inr ⟨c', he⟩

theorem Numbered.exit {s : Scheduler} {mode : Prop} {next : Option EnvPtr} (h : k.Numbered)
    (hexit : Exit s mode c k next k') : k'.Numbered := by
  refine h.of_envs (fun e ↦ ?_) (fun e hlive ↦ ?_) fun c' e he ↦ ?_
  · obtain ⟨status, runs, cpunum, henv, -⟩ := hexit.env e
    rw [henv]
  · obtain ⟨status, runs, cpunum, henv, hstatus⟩ := hexit.env e
    rw [henv] at hlive
    rcases hstatus with rfl | ⟨-, hrunning⟩ | ⟨-, hrunnable | hcur⟩
    · exact Or.inl hlive
    · exact Or.inl (by simp [hrunning])
    · exact Or.inl (by simp [hrunnable])
    · exact Or.inr ⟨c, hcur⟩
  · rcases hexit.curenv he with hcur | hrunnable
    · exact Or.inr ⟨c', hcur⟩
    · exact Or.inl (by simp [hrunnable])

theorem Numbered.section {s : Scheduler} {ev : Event n} {acts : List Action}
    {next : Option EnvPtr} (h : k.Numbered) (hsection : k.Section s ev acts next k') :
    k'.Numbered := by
  cases hsection with
  | create boot linked run => exact h.actions run
  | inside enters run loses exit => exact (((h.enters enters).actions run).loses loses).exit exit
  | store => exact ⟨h.unused, h.slot, h.current⟩

theorem Booted.numbered {free : List Ppn} (h : k.Booted free) : k.Numbered := by
  have hcur : ∀ c, k.curenv c = none := fun c ↦ by rw [curenv, h.cpus c]
  obtain ⟨k₀, -, rfl⟩ := h.table
  refine ⟨fun e _ ↦ rfl, fun e he ↦ absurd rfl he, fun c e he ↦ ?_⟩
  rw [hcur c] at he
  cases he

end Kernel

/-! ## Sequences of allocations -/

inductive TableEvent where
  | alloc (e : EnvPtr)
  | free (e : EnvPtr)
  /-- Any other code, which may change the environments, but neither their ids nor which of them are
  free. -/
  | other
deriving DecidableEq

inductive Kernel.TableStep : Kernel n → TableEvent → Kernel n → Prop where
  | alloc {k k' : Kernel n} {e : EnvPtr} {parent : Word}
      (call : k.envAlloc parent = .ok (.ok e, k')) : TableStep k (.alloc e) k'
  | free {c : Fin n} {k k' : Kernel n} {e : EnvPtr} (call : k.envFree c e = .ok k') :
      TableStep k (.free e) k'
  | other {k k' : Kernel n} (ids : ∀ e, (k'.envs e).envId = (k.envs e).envId)
      (live : ∀ e, (k'.envs e).envStatus = .free ↔ (k.envs e).envStatus = .free) :
      TableStep k .other k'

namespace Kernel.TableStep

variable {ev : TableEvent}

/-- Only an allocation of its slot changes the id of an environment. -/
theorem envId (h : k.TableStep ev k') (e : EnvPtr) : (k'.envs e).envId =
    if ev = .alloc e then nextEnvId e (k.envs e).envId else (k.envs e).envId := by
  cases h with
  | alloc call =>
    rename_i e' parent
    obtain ⟨pgdir, memory, -, -, rfl⟩ := envAlloc_ok call
    by_cases heq : e = e'
    · subst heq
      rw [setEnv_self, if_pos rfl]
    · rw [setEnv_of_ne heq, if_neg (by simpa using Ne.symm heq)]
  | free call =>
    rename_i e'
    rw [if_neg (by simp)]
    by_cases heq : e = e'
    · rw [heq, envFree_self call]
    · rw [envFree_of_ne call heq]
  | other ids =>
    rw [if_neg (by simp)]
    exact ids e

/-- An environment that comes to life has been allocated. -/
theorem live (h : k.TableStep ev k') (hlive : (k'.envs e).envStatus ≠ .free) :
    ev = .alloc e ∨ (k.envs e).envStatus ≠ .free ∧ ev ≠ .free e := by
  cases h with
  | alloc call =>
    rename_i e' parent
    by_cases heq : e = e'
    · rw [heq]
      exact Or.inl rfl
    · obtain ⟨pgdir, memory, -, -, rfl⟩ := envAlloc_ok call
      rw [setEnv_of_ne heq] at hlive
      exact Or.inr ⟨hlive, by simp⟩
  | free call =>
    rename_i e'
    by_cases heq : e = e'
    · subst heq
      rw [envFree_self call] at hlive
      exact absurd rfl hlive
    · rw [envFree_of_ne call heq] at hlive
      exact Or.inr ⟨hlive, by simpa using Ne.symm heq⟩
  | other ids same => exact Or.inr ⟨fun hfree ↦ hlive ((same e).mpr hfree), by simp⟩

end Kernel.TableStep

open Kernel

variable {evs evs₁ evs₂ : List TableEvent}

/-- The table after `env_init`. -/
def Kernel.FreshTable (k : Kernel n) : Prop :=
  ∀ e, (k.envs e).envId = 0 ∧ (k.envs e).envStatus = .free

theorem envId_eq_idAfter (hinit : k₀.FreshTable) (hrun : Run Kernel.TableStep k₀ evs k)
    (e : EnvPtr) : (k.envs e).envId = idAfter e (evs.count (.alloc e)) := by
  let inv : List TableEvent → Kernel n → Prop := fun evs k ↦
    (k.envs e).envId = idAfter e (evs.count (.alloc e))
  have hinv : inv evs k := by
    refine hrun.history (hinit e).1 fun evs k₁ ev k₂ _ hk₁ hstep ↦ ?_
    change (k₂.envs e).envId = idAfter e ((evs ++ [ev]).count (.alloc e))
    rw [hstep.envId e, show (k₁.envs e).envId = _ from hk₁, List.count_append, List.count_singleton]
    by_cases hev : ev = .alloc e
    · rw [if_pos hev, if_pos (by simpa using hev)]
      rfl
    · rw [if_neg hev, if_neg (by simpa using hev)]
      rfl
  exact hinv

/-- A live environment has been allocated. -/
theorem count_pos_of_live (hinit : k₀.FreshTable) (hrun : Run Kernel.TableStep k₀ evs k)
    (hlive : (k.envs e).envStatus ≠ .free) : 0 < evs.count (.alloc e) := by
  let inv : List TableEvent → Kernel n → Prop := fun evs k ↦
    (k.envs e).envStatus ≠ .free → 0 < evs.count (.alloc e)
  have hinv : inv evs k := by
    refine hrun.history (fun hlive ↦ absurd (hinit e).2 hlive) fun evs k₁ ev k₂ _ hk₁ hstep hk₂ ↦ ?_
    rw [List.count_append]
    rcases hstep.live hk₂ with rfl | ⟨hbefore, -⟩
    · simp
    · have := hk₁ hbefore
      omega
  exact hinv hlive

/-- Between a moment at which an environment is freed and one at which its slot is live there is an
allocation of the slot. -/
theorem count_pos_of_freed (hrun : Run Kernel.TableStep k₁ evs k) (hfreed : .free e ∈ evs)
    (hlive : (k.envs e).envStatus ≠ .free) : 0 < evs.count (.alloc e) := by
  let inv : List TableEvent → Kernel n → Prop := fun evs k ↦
    .free e ∈ evs → (k.envs e).envStatus ≠ .free → 0 < evs.count (.alloc e)
  have hinv : inv evs k := by
    refine hrun.history (fun hnil ↦ by cases hnil) fun evs k₁ ev k₂ _ hk₁ hstep hmem hk₂ ↦ ?_
    rw [List.count_append]
    rcases hstep.live hk₂ with rfl | ⟨hbefore, hnot⟩
    · simp
    · have hmem' : .free e ∈ evs := by
        rcases List.mem_append.mp hmem with h | h
        · exact h
        · exact absurd (List.mem_singleton.mp h).symm hnot
      have := hk₁ hmem' hbefore
      omega
  exact hinv hfreed hlive

/-- In every sequence of allocations and releases the ids of live environments are positive, name
their slots and are all different; fewer than `2 ^ 19 - 1` allocations later a slot has another id; and
as long as a slot has been reused fewer than `2 ^ 19 - 1` times, `envid2env` refuses the id of an
environment that has been freed. -/
theorem env_ids (hinit : k₀.FreshTable) (hrun : Run Kernel.TableStep k₀ evs₁ k₁) :
    (∀ e, (k₁.envs e).envStatus ≠ .free →
      0 < (k₁.envs e).envId.toInt ∧ envx (k₁.envs e).envId = e) ∧
    (∀ e e', (k₁.envs e).envStatus ≠ .free → (k₁.envs e').envStatus ≠ .free →
      (k₁.envs e).envId = (k₁.envs e').envId → e = e') ∧
    ∀ evs₂ k₂, Run Kernel.TableStep k₁ evs₂ k₂ → ∀ e,
      (0 < evs₂.count (.alloc e) → evs₂.count (.alloc e) < 2 ^ 19 - 1 →
        (k₂.envs e).envId ≠ (k₁.envs e).envId) ∧
      ((k₁.envs e).envStatus ≠ .free → .free e ∈ evs₂ →
        (evs₁ ++ evs₂).count (.alloc e) ≤ 2 ^ 19 - 1 →
        ∀ c checkperm, k₂.envid2env c (k₁.envs e).envId checkperm = .ok none) := by
  have hid := envId_eq_idAfter hinit hrun
  have hspec : ∀ e, (k₁.envs e).envStatus ≠ .free →
      0 < (k₁.envs e).envId.toInt ∧ envx (k₁.envs e).envId = e := by
    intro e hlive
    have hpos := count_pos_of_live hinit hrun hlive
    obtain ⟨count, hcount⟩ := Nat.exists_eq_succ_of_ne_zero (Nat.pos_iff_ne_zero.mp hpos)
    rw [hid e, hcount]
    exact nextEnvId_spec e _
  refine ⟨hspec, fun e e' he he' heq ↦ ?_, fun evs₂ k₂ hrun₂ e ↦ ⟨fun hpos hround ↦ ?_, ?_⟩⟩
  · rw [← (hspec e he).2, heq, (hspec e' he').2]
  · rw [hid e, envId_eq_idAfter hinit (hrun.append hrun₂) e, List.count_append]
    refine idAfter_ne (by omega) (Or.inr ?_)
    have hgenerations : generations = 2 ^ 19 - 1 := rfl
    omega
  · intro hlive hfreed hcount c checkperm
    obtain ⟨hpos, hslot⟩ := hspec e hlive
    have hne : (k₁.envs e).envId ≠ 0 := by
      intro hzero
      rw [hzero] at hpos
      exact absurd hpos (by decide)
    have hstale : (k₂.envs e).envStatus = .free ∨ (k₂.envs e).envId ≠ (k₁.envs e).envId := by
      by_contra hboth
      rw [not_or, not_not] at hboth
      have hagain := count_pos_of_freed hrun₂ hfreed hboth.1
      refine idAfter_ne (e := e) ?_ ?_ (hid e ▸ envId_eq_idAfter hinit (hrun.append hrun₂) e ▸ hboth.2)
      · rw [List.count_append]
        omega
      · have hgenerations : generations = 2 ^ 19 - 1 := rfl
        have := count_pos_of_live hinit hrun hlive
        omega
    exact envid2env_stale hne (by rwa [hslot])

/-- The table after some allocations and releases on the CPU `c`. -/
def Kernel.tableAfter (c : Fin n) : List TableEvent → Kernel n → Option (Kernel n)
  | [], k => some k
  | .alloc e :: evs, k =>
    match k.envAlloc 0 with
    | .ok (.ok e', k') => if e' = e then tableAfter c evs k' else none
    | _ => none
  | .free e :: evs, k =>
    match k.envFree c e with
    | .ok k' => tableAfter c evs k'
    | .error _ => none
  | .other :: evs, k => tableAfter c evs k

theorem run_of_tableAfter (h : k.tableAfter c evs = some k') : Run Kernel.TableStep k evs k' := by
  induction evs generalizing k with
  | nil =>
    obtain rfl := Option.some.inj h
    exact .nil k
  | cons ev evs ih =>
    cases ev with
    | alloc e =>
      unfold tableAfter at h
      split at h
      · rename_i e' k₁ halloc
        split at h
        · rename_i heq
          subst heq
          exact .cons (.alloc halloc) (ih h)
        · cases h
      · cases h
    | free e =>
      unfold tableAfter at h
      split at h
      · rename_i k₁ hfree
        exact .cons (.free hfree) (ih h)
      · cases h
    | other => exact .cons (.other (fun _ ↦ rfl) fun _ ↦ Iff.rfl) (ih h)

/-- The first slot is allocated, freed and allocated again: its first id is stale. -/
theorem env_ids_small : ∃ k₁ k₂ : Kernel 1,
    Run Kernel.TableStep (smallKernel 1 12) [.alloc 0] k₁ ∧
      Run Kernel.TableStep k₁ [.free 0, .alloc 0] k₂ ∧
      (k₁.envs 0).envId = 0x1000 ∧ (k₂.envs 0).envId = 0x2000 ∧
      k₂.envid2env 0 (k₁.envs 0).envId false = .ok none := by
  have hfirst : ((smallKernel 1 12).tableAfter 0 [.alloc 0]).any (fun k₁ ↦
      (k₁.envs 0).envId = 0x1000 ∧ (k₁.envs 0).envStatus = EnvStatus.runnable ∧
        (k₁.tableAfter 0 [.free 0, .alloc 0]).any fun k₂ ↦ (k₂.envs 0).envId = 0x2000) = true := by
    decide +kernel
  obtain ⟨k₁, hk₁, hcheck⟩ := (Option.any_eq_true _ _).mp hfirst
  rw [decide_eq_true_eq] at hcheck
  obtain ⟨hid₁, hstatus, hsecond⟩ := hcheck
  obtain ⟨k₂, hk₂, hid₂⟩ := (Option.any_eq_true _ _).mp hsecond
  have hrun₁ := run_of_tableAfter hk₁
  have hrun₂ := run_of_tableAfter hk₂
  obtain ⟨-, -, hlater⟩ := env_ids (fun _ ↦ ⟨rfl, rfl⟩) hrun₁
  refine ⟨k₁, k₂, hrun₁, hrun₂, hid₁, of_decide_eq_true hid₂, ?_⟩
  exact (hlater _ k₂ hrun₂ 0).2 (by rw [hstatus]; simp) (by simp) (by decide) 0 false

end SistemasOperativos.Jos
