import SistemasOperativos.Jos.Boot
import SistemasOperativos.Jos.Ownership

/-!
# One CPU for each environment

No environment is the current one of two CPUs, and none is freed while a CPU runs it, in every run in
which no system call takes the status away from an environment that another CPU runs.
-/

namespace SistemasOperativos.Jos

open Library Library.Except

variable {n : ℕ} {s : Scheduler} {c : Fin n} {k k₁ k' : Kernel n}

/-- A system call that leaves the environments of the other CPUs to them: `sys_env_set_status` and
`sys_ipc_try_send` write the status of their target without looking at who runs it, and a second
`env_destroy` frees an environment that the first one marked as dying. -/
structure Call.Undisturbing (k : Kernel n) (c : Fin n) (call : Call) : Prop where
  setStatus : call.no = .envSetStatus → Kernel.settable call.a2 ≠ none →
    ∀ e, k.envid2env c call.a1 true = .ok (some e) → ¬ k.Elsewhere c e
  destroy : call.no = .envDestroy → ∀ e, k.envid2env c call.a1 true = .ok (some e) →
    (k.envs e).envStatus = .dying → ¬ k.Elsewhere c e
  upcall : call.no = .envSetPgfaultUpcall → ∀ e, k.envid2env c call.a1 true = .ok (some e) →
    (k.envs e).envStatus = .dying →
    (∃ r < 0, k.memory.userMemCheck (k.envs e).envPgdir call.a2 pgsize (pteP ||| pteU) = .ok r) →
    ¬ k.Elsewhere c e
  send : call.no = .ipcTrySend → ∀ e, k.envid2env c call.a1 false = .ok (some e) →
    (k.envs e).envIpcRecving = true → ¬ k.Elsewhere c e

/-- The condition on a step, in the state in which its system call is made. -/
def Kernel.Undisturbing (k : Kernel n) (ev : Event n) : Prop :=
  ∀ c k₁ call, k.Enters ev c k₁ (some call) → call.Undisturbing k₁ c

namespace Kernel

theorem Inside.elsewhere_status {e : EnvPtr} (h : Inside c k) (he : k.Elsewhere c e) :
    (k.envs e).envStatus = .running ∨ (k.envs e).envStatus = .dying := by
  obtain ⟨c', hc', hcur⟩ := he
  exact (h.others c' hc').status e hcur

/-- The actions of an undisturbing system call spare the other CPUs. -/
theorem Permitted.spares {call : Option Call} {a : Action} (h : Permitted k c call a)
    (hin : Inside c k) (hok : ∀ call' ∈ call, call'.Undisturbing k c) :
    ∀ e ∈ a.target, ¬ k.Elsewhere c e := by
  intro e he
  cases a with
  | setStatus old e' status =>
    obtain rfl : e' = e := by simpa [Action.target] using he
    obtain ⟨call', hcall, hno, hstatus, hfound, -⟩ := h
    exact (hok call' hcall).setStatus hno (by simp [hstatus]) e' hfound
  | free e' =>
    obtain rfl : e' = e := by simpa [Action.target] using he
    obtain ⟨call', hcall, hfound, hidle, hno⟩ := h
    intro helse
    have hdying := (hin.elsewhere_status helse).resolve_left hidle
    rcases hno with hno | ⟨hno, hcheck⟩
    · exact (hok call' hcall).destroy hno e' hfound hdying helse
    · exact (hok call' hcall).upcall hno e' hfound hdying hcheck helse
  | deliver src dst value =>
    obtain rfl : dst = e := by simpa [Action.target] using he
    obtain ⟨call', hcall, hno, -, hfound, hrecving, -⟩ := h
    exact (hok call' hcall).send hno dst hfound hrecving
  | _ => simp [Action.target] at he

theorem Sound.unused (h : k.Sound) (hunused : (k.cpus c).cpuStatus = .unused) :
    k.curenv c = none := by
  by_contra hcur
  obtain ⟨e, he⟩ := Option.ne_none_iff_exists'.mp hcur
  have hmode := (h.cpu c).mode e he
  rw [UserMode, hunused] at hmode
  cases hmode

theorem Sound.inside_of_unused (h : k.Sound) (hunused : (k.cpus c).cpuStatus = .unused) :
    Inside c k where
  others c' _ := h.cpu c'
  current e he := by
    rw [h.unused hunused] at he
    cases he
  free := h.free

theorem Boots.cpus {a : Action} (h : Boots a) (heffect : Effect c k a k') : k'.cpus = k.cpus := by
  cases heffect with
  | tune tuned => exact tuned.cpus
  | spawn alloc =>
    obtain ⟨pgdir, memory, -, -, rfl⟩ := envAlloc_ok alloc
    rfl
  | load fresh call =>
    obtain ⟨pgdir, m₁, m₂, -, -, -, rfl⟩ := loadIcode_ok call
    rfl
  | _ => exact h.elim

theorem Boots.spares {a : Action} (h : Boots a) : ∀ e ∈ a.target, ¬ k.Elsewhere c e := by
  cases a with
  | setStatus | free | deliver => exact h.elim
  | _ => simp [Action.target]

/-- Creating an environment, before any CPU runs one. -/
theorem Sound.boot {acts : List Action} (h : k.Sound)
    (hunused : ∀ c, (k.cpus c).cpuStatus = .unused) (hacts : Actions c Boots k acts k') :
    k'.Sound ∧ k'.cpus = k.cpus := by
  let inv : Kernel n → Prop := fun k₁ ↦ Inside c k₁ ∧ k₁.cpus = k.cpus
  have hinv : inv k' := by
    refine hacts.invariant ?_ ⟨h.inside_of_unused (hunused c), rfl⟩
    rintro k₁ a k₂ ⟨hin, hsame⟩ ⟨heffect, hboots⟩
    exact ⟨heffect.inside hin (Boots.spares hboots), (Boots.cpus hboots heffect).trans hsame⟩
  obtain ⟨hin, hsame⟩ := hinv
  refine ⟨⟨fun c' ↦ ?_, hin.free⟩, hsame⟩
  have hnone : k'.curenv c' = none := by
    rw [curenv, hsame]
    exact h.unused (hunused c')
  refine ⟨fun hmode ↦ ?_, ?_, ?_, ?_, ?_⟩
  · rw [UserMode, hsame, hunused c'] at hmode
    cases hmode
  all_goals
    intro e he
    rw [hnone] at he
    cases he

theorem Sound.proper (h : k.Sound) : k.Proper c := (h.cpu c).status

theorem Section.sound {ev : Event n} {acts : List Action} {next : Option EnvPtr}
    (h : k.Section s ev acts next k') (hsound : k.Sound) (hok : k.Undisturbing ev) : k'.Sound := by
  cases h with
  | create boot linked run => exact (hsound.boot boot run).1
  | inside enters run loses exit =>
    obtain ⟨hin, hmode⟩ := enters.inside hsound
    obtain ⟨hin', hmode'⟩ := Actions.inside run hin hmode fun a ha ↦
      Permitted.spares ha hin fun call hcall ↦ hok _ _ call (by rwa [Option.mem_def.mp hcall] at enters)
    obtain ⟨hin₃, hmode₃⟩ := loses.inside hin' hmode'
    exact exit.sound hsound.proper hin₃ hmode₃
  | store mode write => 
    exact ⟨fun c ↦ (hsound.cpu c).congr rfl (fun _ _ he ↦ he) (fun _ _ ↦ Or.inl rfl) (fun _ _ ↦ rfl),
      hsound.free.congr rfl (fun _ ↦ rfl) (fun _ ↦ rfl) (fun _ ↦ rfl)⟩

/-- The link that `env_init` gives a slot. -/
theorem envInit_link (k₀ : Kernel n) (i : EnvPtr) : (k₀.envInit.envs i).envLink =
    if i.toNat + 1 < nenv then some (i + 1) else none := rfl

/-- The list that `env_init` makes, from one of its slots on. -/
theorem envInit_chain (k₀ : Kernel n) (m i : ℕ) (h : i + m = nenv) :
    Chain (fun e ↦ (k₀.envInit.envs e).envLink)
      (if m = 0 then none else some (BitVec.ofNat 10 i))
      ((List.range' i m).map (BitVec.ofNat 10)) := by
  induction m generalizing i with
  | zero => rfl
  | succ m ih =>
    have hnenv : nenv = 1024 := rfl
    refine ⟨by simp, ?_⟩
    have htoNat : (BitVec.ofNat 10 i).toNat = i := by
      rw [BitVec.toNat_ofNat]
      omega
    have hsucc : BitVec.ofNat 10 i + 1 = BitVec.ofNat 10 (i + 1) := by
      rw [BitVec.ofNat_add]
      rfl
    have hlink : (if m = 0 then none else some (BitVec.ofNat 10 (i + 1))) =
        (k₀.envInit.envs (BitVec.ofNat 10 i)).envLink := by
      rw [envInit_link, htoNat, hsucc]
      by_cases hm : m = 0
      · rw [if_pos hm, if_neg (by omega)]
      · rw [if_neg hm, if_pos (by omega)]
    have hnext := ih (i + 1) (by omega)
    rw [hlink] at hnext
    exact hnext

/-- The state in which the first environment is created. -/
theorem Booted.sound {free : List Ppn} (h : k.Booted free) : k.Sound := by
  obtain ⟨k₀, hzero, rfl⟩ := h.table
  have hnone : ∀ c, k₀.envInit.curenv c = none := fun c ↦ by rw [curenv, h.cpus c]
  constructor
  · intro c
    refine ⟨fun hmode ↦ ?_, ?_, ?_, ?_, ?_⟩
    · rw [UserMode, h.cpus c] at hmode
      cases hmode
    all_goals
      intro e he
      rw [hnone] at he
      cases he
  · constructor
    · exact ⟨_, envInit_chain k₀ nenv 0 (by simp), fun e _ ↦ rfl⟩
    · intro e
      refine iff_of_true rfl ?_
      change (k₀.envs e).envPgdir = none
      rw [hzero e]
      rfl

end Kernel

/-- In every run whose system calls leave the environments of the other CPUs to them, after every
step, no environment is the current one of two CPUs, and a CPU in user mode has an environment, which
is running or dying. -/
theorem envs_on_one_cpu {free : List Ppn} {k₀ : Kernel n} {evs : List (Event n)}
    (hboot : k₀.Booted free)
    (hrun : Run (fun k ev k' ↦ k.Step s ev k' ∧ k.Undisturbing ev) k₀ evs k) :
    (∀ c c' e, k.curenv c = some e → k.curenv c' = some e → c = c') ∧
    ∀ c, k.UserMode c → ∃ e, k.curenv c = some e ∧
      ((k.envs e).envStatus = .running ∨ (k.envs e).envStatus = .dying) := by
  have hsound : k.Sound := by
    refine hrun.invariant ?_ hboot.sound
    rintro k₁ ev k₂ hsound ⟨hstep, hok⟩
    obtain ⟨acts, next, hsection⟩ := hstep.section
    exact hsection.sound hsound hok
  refine ⟨fun c c' e he he' ↦ (hsound.cpu c').only e he' c he, fun c hmode ↦ ?_⟩
  obtain ⟨e, he⟩ := (hsound.cpu c).occupied hmode
  exact ⟨e, he, (hsound.cpu c).status e he⟩

/-- An event whose system call, if it makes one, is not among those that may disturb another CPU. -/
def Event.Quiet : Event n → Prop
  | .trap _ tf _ _ => ∀ call ∈ tf.call, call.no ≠ .envSetStatus ∧ call.no ≠ .envDestroy ∧
      call.no ≠ .envSetPgfaultUpcall ∧ call.no ≠ .ipcTrySend
  | _ => True

instance : (ev : Event n) → Decidable ev.Quiet
  | .trap _ tf _ _ => inferInstanceAs (Decidable (∀ call ∈ tf.call, call.no ≠ .envSetStatus ∧
      call.no ≠ .envDestroy ∧ call.no ≠ .envSetPgfaultUpcall ∧ call.no ≠ .ipcTrySend))
  | .create .. => inferInstanceAs (Decidable True)
  | .start .. => inferInstanceAs (Decidable True)
  | .store .. => inferInstanceAs (Decidable True)

theorem Event.Quiet.undisturbing {ev : Event n} (h : ev.Quiet) : k.Undisturbing ev := by
  intro c k₁ call henters
  generalize hcall : some call = made at henters
  cases henters with
  | first => cases hcall
  | zombie => cases hcall
  | interrupt => cases hcall
  | user =>
    obtain ⟨hstatus, hdestroy, hupcall, hsend⟩ := h call hcall.symm
    exact ⟨fun h ↦ absurd h hstatus, fun h ↦ absurd h hdestroy, fun h ↦ absurd h hupcall,
      fun h ↦ absurd h hsend⟩

theorem quiet_run {k₀ : Kernel n} {evs : List (Event n)} (h : k₀.after s evs = some k)
    (hquiet : ∀ ev ∈ evs, ev.Quiet) :
    Run (fun k ev k' ↦ k.Step s ev k' ∧ k.Undisturbing ev) k₀ evs k :=
  ((Kernel.run_of_after h).with_labels hquiet).mono fun _ _ _ hstep ↦
    ⟨hstep.1, hstep.2.undisturbing⟩

/-- Two environments on two CPUs: the second one is made by a fork. -/
theorem envs_on_one_cpu_small :
    ∃ k, (smallKernel 2 12).after .rr [.create 0 smallBinary, .create 0 smallBinary, .start 0,
        .start 1, .call 0 7 0 0 0 0 0, .timer 1 userText] = some k ∧
      k.curenv 0 = some 0 ∧ k.curenv 1 = some 1 ∧ k.UserMode 1 ∧
      (∀ c c' e, k.curenv c = some e → k.curenv c' = some e → c = c') ∧
      ∀ c, k.UserMode c → ∃ e, k.curenv c = some e ∧
        ((k.envs e).envStatus = .running ∨ (k.envs e).envStatus = .dying) := by
  have hresult : (((smallKernel 2 12).after .rr [.create 0 smallBinary, .create 0 smallBinary,
      .start 0, .start 1, .call 0 7 0 0 0 0 0, .timer 1 userText]).any fun k ↦
      k.curenv 0 = some 0 ∧ k.curenv 1 = some 1 ∧ k.UserMode 1) = true := by decide +kernel
  obtain ⟨k, hk, hcheck⟩ := (Option.any_eq_true _ _).mp hresult
  rw [decide_eq_true_eq] at hcheck
  refine ⟨k, hk, hcheck.1, hcheck.2.1, hcheck.2.2, ?_⟩
  refine envs_on_one_cpu (smallKernel_booted 2 12 (by decide)) (quiet_run hk ?_)
  decide

/-- A parent stops its child with `sys_env_set_status` while another CPU runs it: the CPU stays in
user mode with an environment that is not running. -/
theorem child_stopped_on_other_cpu :
    (smallKernel 2 12).Booted (smallFree 12) ∧
    ∃ k, Run (Kernel.Step .rr) (smallKernel 2 12) [.create 0 smallBinary, .start 0, .start 1,
        .call 0 7 0 0 0 0 0, .call 0 8 0x1001 2 0 0 0, .timer 1 gdKt, .call 0 8 0x1001 4 0 0 0] k ∧
      k.UserMode 1 ∧ k.curenv 1 = some 1 ∧ (k.envs 1).envStatus = .notRunnable := by
  refine ⟨smallKernel_booted 2 12 (by decide), ?_⟩
  have hresult : (((smallKernel 2 12).after .rr [.create 0 smallBinary, .start 0, .start 1,
      .call 0 7 0 0 0 0 0, .call 0 8 0x1001 2 0 0 0, .timer 1 gdKt,
      .call 0 8 0x1001 4 0 0 0]).any fun k ↦
      k.UserMode 1 ∧ k.curenv 1 = some 1 ∧ (k.envs 1).envStatus = EnvStatus.notRunnable) = true := by
    decide +kernel
  obtain ⟨k, hk, hcheck⟩ := (Option.any_eq_true _ _).mp hresult
  rw [decide_eq_true_eq] at hcheck
  exact ⟨k, Kernel.run_of_after hk, hcheck⟩

end SistemasOperativos.Jos
