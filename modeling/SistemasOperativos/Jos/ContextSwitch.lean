import SistemasOperativos.Jos.EnvIds
import SistemasOperativos.Jos.PageRuns
import SistemasOperativos.Jos.Priorities

/-!
# The end of `env_run`

`env_run` goes on after it has given the kernel lock back: it writes `curenv->env_cpunum`, and
`context_switch` loads the registers from `curenv->env_tf`. Other CPUs may take whole sections before it
comes to that. As long as their system calls leave the environments of the other CPUs to them, it finds
what it left.
-/

namespace SistemasOperativos.Jos

open Library

variable {n : ℕ} {s : Scheduler} {c c' : Fin n} {k k₁ k' : Kernel n} {a : Action} {e : EnvPtr}
  {acts : List Action} {call : Option Call} {ev : Event n}

namespace Kernel

theorem Inside.not_current (h : Inside c k) (helse : k.Elsewhere c e) : k.curenv c ≠ some e := by
  intro hcur
  obtain ⟨c', hc', hcur'⟩ := helse
  exact hc' ((h.others c' hc').only e hcur' c hcur).symm

/-- What `context_switch` loads, in the address space that is loaded. -/
def Spared (k k' : Kernel n) (e : EnvPtr) : Prop :=
  (k'.envs e).envTf = (k.envs e).envTf ∧ (k'.envs e).envPgdir = (k.envs e).envPgdir

theorem Spared.of_env {env : Env} (henv : k'.envs e = env) (htf : env.envTf = (k.envs e).envTf)
    (hpgdir : env.envPgdir = (k.envs e).envPgdir) : k.Spared k' e := by
  unfold Spared
  rw [henv]
  exact ⟨htf, hpgdir⟩

theorem Spared.trans (h : k.Spared k₁ e) (h' : k₁.Spared k' e) : k.Spared k' e :=
  ⟨h'.1.trans h.1, h'.2.trans h.2⟩

end Kernel

open Kernel

/-- An action keeps the environment of another CPU. -/
theorem Effect.spared (h : Effect c k a k') (hin : Inside c k)
    (hspare : ∀ e ∈ a.target, ¬ k.Elsewhere c e) (hload : ∀ e binary, a ≠ .load e binary)
    (helse : k.Elsewhere c e) : k.Spared k' e := by
  have hnot := hin.not_current helse
  by_cases hsubject : a.subject = some e
  · cases h with
    | tune | write | pageAlloc | pageMap | pageUnmap | upcall => cases hsubject
    | frame tf current =>
      obtain rfl := Option.some.inj hsubject
      exact absurd current hnot
    | spawn alloc =>
      obtain rfl := Option.some.inj hsubject
      obtain ⟨pgdir, memory, hhead, -, -⟩ := envAlloc_ok alloc
      have hfree := hin.free.head hhead
      obtain hstatus | hstatus := hin.elsewhere_status helse
      · rw [hfree] at hstatus
        cases hstatus
      · rw [hfree] at hstatus
        cases hstatus
    | load => exact absurd rfl (hload _ _)
    | setStatus =>
      obtain rfl := Option.some.inj hsubject
      exact absurd helse (hspare _ rfl)
    | dying =>
      obtain rfl := Option.some.inj hsubject
      exact .of_env setEnv_self rfl rfl
    | free =>
      obtain rfl := Option.some.inj hsubject
      exact absurd helse (hspare _ rfl)
    | exit current =>
      obtain rfl := Option.some.inj hsubject
      exact absurd current hnot
    | deliver =>
      obtain rfl := Option.some.inj hsubject
      exact absurd helse (hspare _ rfl)
    | await current =>
      obtain rfl := Option.some.inj hsubject
      exact absurd current hnot
    | refuse current =>
      obtain rfl := Option.some.inj hsubject
      exact absurd current hnot
  · have hcore := h.core_of_ne hsubject
    exact ⟨Env.eq_of_core Env.envTf (fun _ ↦ rfl) hcore, Env.eq_of_core Env.envPgdir (fun _ ↦ rfl) hcore⟩

namespace Kernel

/-- The actions of a section keep the environment of another CPU. -/
theorem Actions.spared {P : Action → Prop} (hacts : Actions c P k acts k') (hin : Inside c k)
    (hspare : ∀ a, P a → ∀ e ∈ a.target, ¬ k.Elsewhere c e)
    (hload : ∀ a, P a → ∀ e binary, a ≠ .load e binary) (helse : k.Elsewhere c e) :
    k.Spared k' e ∧ Inside c k' ∧ k'.Elsewhere c e := by
  let inv : Kernel n → Prop := fun k₁ ↦
    k.Spared k₁ e ∧ Inside c k₁ ∧ ∀ e, k₁.Elsewhere c e ↔ k.Elsewhere c e
  have hinv : inv k' := by
    refine hacts.invariant ?_ ⟨⟨rfl, rfl⟩, hin, fun _ ↦ Iff.rfl⟩
    rintro k₁ a k₂ ⟨hspared, hin₁, hsame⟩ ⟨heffect, hP⟩
    have hspare₁ : ∀ e ∈ a.target, ¬ k₁.Elsewhere c e :=
      fun e he helse₁ ↦ hspare a hP e he ((hsame e).mp helse₁)
    exact ⟨hspared.trans (heffect.spared hin₁ hspare₁ (hload a hP) ((hsame e).mpr helse)),
      heffect.inside hin₁ hspare₁, fun e ↦ heffect.elsewhere.trans (hsame e)⟩
  exact ⟨hinv.1, hinv.2.1, (hinv.2.2 e).mpr helse⟩

theorem Permitted.not_load (h : Permitted k c call a) (e : EnvPtr) (binary : Elf) :
    a ≠ .load e binary := by
  rintro rfl
  exact h

theorem Enters.spared (h : k.Enters ev c k₁ call) (hnot : k.curenv c ≠ some e) : k.Spared k₁ e := by
  cases h with
  | @user _ tf _ _ cur mode current alive =>
    refine .of_env (setEnv_of_ne ?_) rfl rfl
    rintro rfl
    exact hnot current
  | _ => exact ⟨rfl, rfl⟩

end Kernel

theorem Loses.spared (h : Loses c k acts k') (hnot : k.curenv c ≠ some e) : k.Spared k' e := by
  have hcore := h.core_of_ne hnot
  exact ⟨Env.eq_of_core Env.envTf (fun _ ↦ rfl) hcore, Env.eq_of_core Env.envPgdir (fun _ ↦ rfl) hcore⟩

theorem Exit.spared {mode : Prop} {next : Option EnvPtr} (h : Exit s mode c k next k') :
    k.Spared k' e := by
  obtain ⟨status, runs, cpunum, henv, -⟩ := h.env e
  exact .of_env henv rfl rfl

namespace Kernel

/-- A step of another CPU. -/
theorem Section.spared {next : Option EnvPtr} (h : k.Section s ev acts next k') (hsound : k.Sound)
    (hok : k.Undisturbing ev) (hcur : k.curenv c = some e) (hcpu : ev.cpu ≠ c) :
    k.Spared k' e ∧ k'.cpus c = k.cpus c := by
  cases h with
  | create boot =>
    have hmode := (hsound.cpu c).mode e hcur
    rw [UserMode, boot c] at hmode
    cases hmode
  | @inside _ c₁ call _ _ k₁ k₂ k₃ _ enters run loses exit =>
    have hc : c ≠ c₁ := by
      rintro rfl
      cases enters <;> exact hcpu rfl
    have hother : k.Elsewhere c₁ e := ⟨c, hc, hcur⟩
    obtain ⟨hin, -⟩ := enters.inside hsound
    have hcpus := enters.cpus_of_ne hc
    have helse : k₁.Elsewhere c₁ e := by
      refine ⟨c, hc, ?_⟩
      rw [curenv, hcpus]
      exact hcur
    have hnot : k.curenv c₁ ≠ some e := by
      rw [← enters.curenv]
      exact hin.not_current helse
    obtain ⟨hspared, hin₂, helse₂⟩ := Actions.spared run hin
      (fun a ha ↦ Permitted.spares ha hin fun call' hcall ↦
        hok _ _ call' (by rwa [Option.mem_def.mp hcall] at enters))
      (fun a ha ↦ Permitted.not_load ha) helse
    constructor
    · exact (((enters.spared hnot).trans hspared).trans (loses.spared (hin₂.not_current helse₂))).trans
        exit.spared
    · rw [exit.cpus_of_ne hc, Loses.cpus_of_ne loses hc, Actions.cpus_of_ne run hc, hcpus]
  | store => exact ⟨⟨rfl, rfl⟩, rfl⟩

end Kernel

/-- In every run whose system calls leave the environments of the other CPUs to them: whatever the other
CPUs do between the unlocking in `env_run` and the end of `context_switch`, the CPU still has the same
environment, which is still alive, in the same address space, and it loads the registers that were saved
when it unlocked. -/
theorem env_run_undisturbed {free : List Ppn} {k₀ : Kernel n} {evs evs' : List (Event n)}
    (hboot : k₀.Booted free) (hrun : Run (fun k ev k' ↦ k.Step s ev k' ∧ k.Undisturbing ev) k₀ evs k)
    (hcur : k.curenv c = some e)
    (hothers : Run (fun k ev k' ↦ k.Step s ev k' ∧ k.Undisturbing ev ∧ ev.cpu ≠ c) k evs' k') :
    k'.curenv c = some e ∧
      ((k'.envs e).envStatus = .running ∨ (k'.envs e).envStatus = .dying) ∧
      (k'.cpus c).cr3 = (k.cpus c).cr3 ∧ (k'.envs e).envPgdir = some (k.cpus c).cr3 ∧
      (k'.envs e).envTf = (k.envs e).envTf := by
  have hsound : k.Sound := by
    refine hrun.invariant ?_ hboot.sound
    rintro k₁ ev k₂ hsound ⟨hstep, hok⟩
    obtain ⟨acts, next, hsection⟩ := hstep.section
    exact hsection.sound hsound hok
  let inv : Kernel n → Prop := fun k₁ ↦ k₁.Sound ∧ k.Spared k₁ e ∧ k₁.cpus c = k.cpus c
  have hinv : inv k' := by
    refine hothers.invariant ?_ ⟨hsound, ⟨rfl, rfl⟩, rfl⟩
    rintro k₁ ev k₂ ⟨hsound₁, hspared, hcpus⟩ ⟨hstep, hok, hcpu⟩
    obtain ⟨acts, next, hsection⟩ := hstep.section
    have hcur₁ : k₁.curenv c = some e := by
      rw [Kernel.curenv, hcpus]
      exact hcur
    obtain ⟨hspared₁, hcpus₁⟩ := hsection.spared hsound₁ hok hcur₁ hcpu
    exact ⟨hsection.sound hsound₁ hok, hspared.trans hspared₁, hcpus₁.trans hcpus⟩
  obtain ⟨hsound', hspared, hcpus⟩ := hinv
  have hcur' : k'.curenv c = some e := by
    rw [Kernel.curenv, hcpus]
    exact hcur
  have hpgdir := (hsound'.cpu c).pgdir e hcur'
  rw [hcpus] at hpgdir
  exact ⟨hcur', (hsound'.cpu c).status e hcur', by rw [hcpus], hpgdir, hspared.1⟩

/-- The other CPU makes a fork and is interrupted. -/
theorem env_run_undisturbed_small : ∃ k k',
    Run (fun k ev k' ↦ k.Step .rr ev k' ∧ k.Undisturbing ev) (smallKernel 2 12)
      [.create 0 smallBinary, .create 0 smallBinary, .start 0, .start 1] k ∧
    Run (fun k ev k' ↦ k.Step .rr ev k' ∧ k.Undisturbing ev ∧ ev.cpu ≠ 0) k
      [.call 1 7 0 0 0 0 0, .timer 1 userText] k' ∧
    (k'.envs 1).envTf ≠ (k.envs 1).envTf ∧ k'.curenv 0 = some 0 ∧
    (k'.envs 0).envTf = (k.envs 0).envTf := by
  have hresult : (((smallKernel 2 12).after .rr [.create 0 smallBinary, .create 0 smallBinary,
      .start 0, .start 1]).any fun k ↦ k.curenv 0 == some 0 &&
        (k.after .rr [.call 1 7 0 0 0 0 0, .timer 1 userText]).any fun k' ↦
          decide ((k'.envs 1).envTf ≠ (k.envs 1).envTf)) = true := by
    decide +kernel
  obtain ⟨k, hfirst, hcheck⟩ := (Option.any_eq_true _ _).mp hresult
  rw [Bool.and_eq_true, beq_iff_eq] at hcheck
  obtain ⟨k', hlast, hchanged⟩ := (Option.any_eq_true _ _).mp hcheck.2
  have hrun := quiet_run hfirst (by decide)
  have hevs : ∀ ev ∈ [Event.call 1 7 0 0 0 0 0, .timer 1 userText], ev.Quiet ∧ ev.cpu ≠ (0 : Fin 2) := by
    decide
  have hothers : Run (fun k ev k' ↦ k.Step .rr ev k' ∧ k.Undisturbing ev ∧ ev.cpu ≠ 0) k
      [.call 1 7 0 0 0 0 0, .timer 1 userText] k' :=
    ((Kernel.run_of_after hlast).with_labels hevs).mono fun _ _ _ hstep ↦
      ⟨hstep.1, hstep.2.1.undisturbing, hstep.2.2⟩
  obtain ⟨hcur, -, -, -, htf⟩ := env_run_undisturbed (smallKernel_booted 2 12 (by decide)) hrun
    hcheck.1 hothers
  exact ⟨k, k', hrun, hothers, of_decide_eq_true hchanged, hcur, htf⟩

end SistemasOperativos.Jos
