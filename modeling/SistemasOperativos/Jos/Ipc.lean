import SistemasOperativos.Jos.OneCpu

/-!
# Messages between environments

`sys_ipc_recv` and `sys_ipc_try_send` as a rendezvous. An environment has the flag `env_ipc_recving`
only while it is blocked in `sys_ipc_recv`, so every message that is sent goes to an environment that
waits for one, and it stays there until the environment runs again.
-/

namespace SistemasOperativos.Jos

open Library Library.Except

variable {n : ℕ} {s : Scheduler} {c : Fin n} {k k₁ k₂ k' : Kernel n} {e : EnvPtr}

/-! ## The flag -/

/-- An environment that is receiving is not runnable. -/
def Kernel.Listening (k : Kernel n) : Prop :=
  ∀ e, (k.envs e).envStatus ≠ .free → (k.envs e).envIpcRecving = true →
    (k.envs e).envStatus = .notRunnable

namespace Effect

open Kernel

variable {a : Action}

/-- Which actions an environment can be receiving after. -/
theorem recving_cases (h : Effect c k a k') (hlive : (k'.envs e).envStatus ≠ .free)
    (hrecving : (k'.envs e).envIpcRecving = true) :
    (∃ dstva, a = .await e dstva) ∨ a = .refuse e ∨
      (k.envs e).envIpcRecving = true ∧ ((k'.envs e).core = (k.envs e).core ∨
        (∃ tf, a = .frame e tf ∧ k.curenv c = some e ∧
          (k'.envs e).envStatus = (k.envs e).envStatus) ∨
        (∃ status, a = .setStatus (k.envs e) e status ∧
          k'.envs e = { k.envs e with envStatus := status }) ∨
        a = .dying e ∧ (k.envs e).envStatus = .running) := by
  by_cases he : a.subject = some e
  · cases h with
    | tune | write | pageAlloc | pageMap | pageUnmap | upcall => cases he
    | frame tf current =>
      obtain rfl := Option.some.inj he
      rw [setTf, setEnv_self] at hrecving
      refine Or.inr (Or.inr ⟨hrecving, Or.inr (Or.inl ⟨tf, rfl, current, ?_⟩)⟩)
      rw [setTf, setEnv_self]
    | spawn alloc status same =>
      obtain rfl := Option.some.inj he
      have hnot := Env.eq_of_core Env.envIpcRecving (fun _ ↦ rfl) same
      rw [setEnv_self, hnot] at hrecving
      obtain ⟨pgdir, memory, -, -, rfl⟩ := envAlloc_ok alloc
      simp at hrecving
    | load fresh call =>
      obtain rfl := Option.some.inj he
      obtain ⟨pgdir, m₁, m₂, -, -, -, rfl⟩ := loadIcode_ok call
      rw [setEnv_self] at hrecving
      simp [fresh] at hrecving
    | setStatus was =>
      obtain rfl := Option.some.inj he
      rw [setEnv_self] at hrecving ⊢
      exact Or.inr (Or.inr ⟨hrecving, Or.inr (Or.inr (Or.inl ⟨_, by rw [was], rfl⟩))⟩)
    | dying running =>
      obtain rfl := Option.some.inj he
      rw [setEnv_self] at hrecving ⊢
      exact Or.inr (Or.inr ⟨hrecving, Or.inr (Or.inr (Or.inr ⟨rfl, running⟩))⟩)
    | free other call =>
      obtain rfl := Option.some.inj he
      rw [envFree_self call] at hlive
      exact absurd rfl hlive
    | exit current call =>
      obtain rfl := Option.some.inj he
      rw [setCurenv_envs, envFree_self call] at hlive
      exact absurd rfl hlive
    | deliver =>
      obtain rfl := Option.some.inj he
      simp [ipcDeliver] at hrecving
    | await =>
      obtain rfl := Option.some.inj he
      exact Or.inl ⟨_, rfl⟩
    | refuse =>
      obtain rfl := Option.some.inj he
      exact Or.inr (Or.inl rfl)
  · have hcore := h.core_of_ne he
    have hsame := Env.eq_of_core Env.envIpcRecving (fun _ ↦ rfl) hcore
    exact Or.inr (Or.inr ⟨hsame.symm.trans hrecving, Or.inl hcore⟩)

/-- An action keeps the flag and the status together, unless it unblocks a receiver or sets the flag
without blocking. -/
theorem listening (h : Effect c k a k') (hl : k.Listening)
    (hrefuse : ∀ e, a ≠ .refuse e)
    (hunblock : ∀ old e, a = .setStatus old e .runnable → old.envIpcRecving = false) :
    k'.Listening := by
  intro e hlive hrecving
  rcases h.recving_cases hlive hrecving with ⟨dstva, rfl⟩ | rfl |
    ⟨hwas, hcore | ⟨tf, rfl, hcur, hsame⟩ | ⟨status, rfl, henv⟩ | ⟨rfl, hrunning⟩⟩
  · cases h
    rw [setEnv_self]
  · exact absurd rfl (hrefuse e)
  · have hstatus := Env.eq_of_core Env.envStatus (fun _ ↦ rfl) hcore
    rw [hstatus] at hlive ⊢
    exact hl e hlive hwas
  · rw [hsame] at hlive ⊢
    exact hl e hlive hwas
  · rw [henv]
    cases h with
    | setStatus was known settable =>
      rcases settable with rfl | rfl
      · have hnot := hunblock _ e rfl
        rw [hwas] at hnot
        cases hnot
      · rfl
  · have hnot := hl e (by simp [hrunning]) hwas
    rw [hrunning] at hnot
    cases hnot

/-- An environment that is receiving after an action was it before, and nothing happened to it, or the
action is the one with which it blocked. -/
theorem blocked (h : Effect c k a k') (hl : k.Listening) (hrefuse : ∀ e, a ≠ .refuse e)
    (hunblock : ∀ old e, a = .setStatus old e .runnable → old.envIpcRecving = false)
    (hcur : k.curenv c = some e → (k.envs e).envIpcRecving = false)
    (hlive : (k'.envs e).envStatus ≠ .free) (hrecving : (k'.envs e).envIpcRecving = true) :
    (k'.envs e).core = (k.envs e).core ∨ ∃ dstva, a = .await e dstva := by
  rcases h.recving_cases hlive hrecving with hawait | rfl |
    ⟨hwas, hcore | ⟨tf, rfl, hcurrent, hsame⟩ | ⟨status, rfl, henv⟩ | ⟨rfl, hrunning⟩⟩
  · exact Or.inr hawait
  · exact absurd rfl (hrefuse e)
  · exact Or.inl hcore
  · rw [hcur hcurrent] at hwas
    cases hwas
  · cases h with
    | setStatus was known settable =>
      have hold : (k.envs e).envStatus = .notRunnable := by
        refine hl e ?_ hwas
        exact known.elim (fun hc ↦ by simp [hcur hc] at hwas) id
      rcases settable with rfl | rfl
      · have hnot := hunblock _ e rfl
        rw [hwas] at hnot
        cases hnot
      · left
        rw [henv, ← hold]
  · have hnot := hl e (by simp [hrunning]) hwas
    rw [hrunning] at hnot
    cases hnot

/-- An action sets the flag only for the environment that receives. -/
theorem recving_of_cur (h : Effect c k a k') (hawait : ∀ dstva, a ≠ .await e dstva)
    (hrefuse : a ≠ .refuse e) (hlive : (k'.envs e).envStatus ≠ .free)
    (hnot : (k.envs e).envIpcRecving = false) : (k'.envs e).envIpcRecving = false := by
  by_contra hrecving
  rw [Bool.not_eq_false] at hrecving
  rcases h.recving_cases hlive hrecving with ⟨dstva, ha⟩ | ha | ⟨hwas, -⟩
  · exact hawait dstva ha
  · exact hrefuse ha
  · rw [hnot] at hwas
    cases hwas

end Effect

/-- An action that neither sets the flag without blocking nor unblocks a receiver. -/
def Action.Courteous : Action → Prop
  | .refuse _ => False
  | .setStatus old _ status => status = .runnable → old.envIpcRecving = false
  | _ => True

namespace Kernel

variable {acts : List Action} {next : Option EnvPtr} {P : Action → Prop}

theorem Actions.listening (hacts : Actions c P k acts k') (hl : k.Listening)
    (hP : ∀ a, P a → a.Courteous) : k'.Listening := by
  refine hacts.invariant (fun k₁ a k₂ hl₁ ⟨heffect, ha⟩ ↦ heffect.listening hl₁ ?_ ?_) hl
  · rintro e rfl
    exact hP _ ha
  · rintro old e rfl
    exact hP _ ha rfl

/-- An environment that is receiving after some actions was it before, and nothing happened to it, or
it blocked in one of them. -/
theorem Actions.blocked (hacts : Actions c P k acts k') (hl : k.Listening) (hin : Inside c k)
    (hspare : ∀ a, P a → ∀ e ∈ a.target, ¬ k.Elsewhere c e) (hP : ∀ a, P a → a.Courteous)
    (hcur : k.curenv c = some e → (k.envs e).envIpcRecving = false)
    (hlive : (k'.envs e).envStatus ≠ .free) (hrecving : (k'.envs e).envIpcRecving = true) :
    (k'.envs e).core = (k.envs e).core ∨ ∃ dstva, .await e dstva ∈ acts ∧ P (.await e dstva) := by
  induction hacts with
  | nil => exact Or.inl rfl
  | @cons k k₁ k' a acts hfirst hrest ih =>
    obtain ⟨heffect, ha⟩ := hfirst
    by_cases hawait : ∃ dstva, a = .await e dstva
    · obtain ⟨dstva, rfl⟩ := hawait
      exact Or.inr ⟨dstva, List.mem_cons_self, ha⟩
    have hrefuse : ∀ e, a ≠ .refuse e := by
      rintro e rfl
      exact hP _ ha
    have hunblock : ∀ old e, a = .setStatus old e .runnable → old.envIpcRecving = false := by
      rintro old e rfl
      exact hP _ ha rfl
    have hin₁ := heffect.inside hin (hspare a ha)
    have hl₁ := heffect.listening hl hrefuse hunblock
    have hcur₁ : k₁.curenv c = some e → (k₁.envs e).envIpcRecving = false := fun hc ↦
      heffect.recving_of_cur (fun dstva h ↦ hawait ⟨dstva, h⟩) (hrefuse e) (hin₁.current e hc)
        (hcur (heffect.curenv_of_some hc))
    have hspare₁ : ∀ a, P a → ∀ e ∈ a.target, ¬ k₁.Elsewhere c e := fun a' ha' e' he' h ↦
      hspare a' ha' e' he' (heffect.elsewhere.mp h)
    rcases ih hl₁ hin₁ hspare₁ hcur₁ hlive hrecving with hsame | ⟨dstva, hmem, hpermitted⟩
    · have hstatus := Env.eq_of_core Env.envStatus (fun _ ↦ rfl) hsame
      have hflag := Env.eq_of_core Env.envIpcRecving (fun _ ↦ rfl) hsame
      rw [hstatus] at hlive
      rw [hflag] at hrecving
      exact Or.inl (hsame.trans
        ((heffect.blocked hl hrefuse hunblock hcur hlive hrecving).resolve_right hawait))
    · exact Or.inr ⟨dstva, List.mem_cons_of_mem a hmem, hpermitted⟩

theorem Loses.listening (h : Loses c k acts k') (hl : k.Listening) : k'.Listening := by
  cases h with
  | keeps => exact hl
  | exit effect => exact effect.listening hl (by simp) (by simp)

theorem Leave.listening (h : Leave c k next k') (hl : k.Listening) : k'.Listening := by
  cases h with
  | halt call =>
    obtain rfl := schedHalt_ok call
    exact hl
  | run ready =>
    rename_i e
    intro e' hlive hrecving
    by_cases heq : e' = e
    · subst heq
      rw [envRun_self] at hrecving
      have hwas : (k.envs e').envStatus = .notRunnable := by
        refine hl e' ?_ hrecving
        rcases ready with hstatus | ⟨-, hstatus⟩ <;> simp [hstatus]
      rcases ready with hstatus | ⟨-, hstatus⟩
      · rw [hwas] at hstatus
        cases hstatus
      · rw [hwas] at hstatus
        cases hstatus
    · obtain ⟨status, hpark, hstatus⟩ := park_envs (k := k) (c := c) e'
      rw [envRun_of_ne heq, hpark] at hlive hrecving ⊢
      rcases hstatus with rfl | ⟨rfl, hrunning⟩
      · exact hl e' hlive hrecving
      · have hwas := hl e' (by simp [hrunning]) hrecving
        rw [hrunning] at hwas
        cases hwas

/-- Leaving the kernel does nothing to an environment that is receiving. -/
theorem Leave.blocked (h : Leave c k next k') (hl : k.Listening)
    (hlive : (k'.envs e).envStatus ≠ .free) (hrecving : (k'.envs e).envIpcRecving = true) :
    (k'.envs e).core = (k.envs e).core := by
  cases h with
  | halt call =>
    obtain rfl := schedHalt_ok call
    rfl
  | run ready =>
    rename_i e'
    by_cases heq : e = e'
    · have hnot := Leave.listening (.run ready) hl e hlive hrecving
      rw [heq, envRun_self] at hnot
      cases hnot
    · obtain ⟨status, hpark, hstatus⟩ := park_envs (k := k) (c := c) e
      rw [envRun_of_ne heq, hpark] at hlive hrecving ⊢
      rcases hstatus with rfl | ⟨rfl, hrunning⟩
      · rfl
      · have hwas := hl e (by simp [hrunning]) hrecving
        rw [hrunning] at hwas
        cases hwas

end Kernel

/-! ## Courteous system calls -/

/-- A system call that leaves the other CPUs alone and keeps the flag and the status together:
`sys_ipc_recv` is called with an address that it accepts, since it sets the flag before it looks, and
`sys_env_set_status` does not unblock a receiver. -/
structure Call.Courteous (k : Kernel n) (c : Fin n) (call : Call) : Prop
    extends call.Undisturbing k c where
  recv : call.no = .ipcRecv → badVa call.a1 = false
  unblock : call.no = .envSetStatus → Kernel.settable call.a2 = some .runnable →
    ∀ e, k.envid2env c call.a1 true = .ok (some e) → (k.envs e).envIpcRecving = false

/-- The condition on a step, in the state in which its system call is made. -/
def Kernel.Courteous (k : Kernel n) (ev : Event n) : Prop :=
  ∀ c k₁ call, k.Enters ev c k₁ (some call) → call.Courteous k₁ c

/-- The step blocks the environment in `sys_ipc_recv`. -/
def Kernel.Receives (k : Kernel n) (ev : Event n) (e : EnvPtr) : Prop :=
  ∃ c k₁ call, k.Enters ev c k₁ (some call) ∧ call.no = .ipcRecv ∧ badVa call.a1 = false ∧
    k.curenv c = some e

/-- A system call that destroys the environment. -/
def Kernel.Destroys (k : Kernel n) (ev : Event n) (e : EnvPtr) : Prop :=
  ∃ c k₁ call, k.Enters ev c k₁ (some call) ∧ k₁.envid2env c call.a1 true = .ok (some e) ∧
    (call.no = .envDestroy ∨ call.no = .envSetPgfaultUpcall ∧ ∃ r < 0,
      k₁.memory.userMemCheck (k₁.envs e).envPgdir call.a2 pgsize (pteP ||| pteU) = .ok r)

namespace Kernel

variable {ev : Event n} {acts : List Action} {next : Option EnvPtr}

theorem Courteous.undisturbing (h : k.Courteous ev) : k.Undisturbing ev :=
  fun c k₁ call henters ↦ (h c k₁ call henters).toUndisturbing

theorem Permitted.courteous {call : Option Call} {a : Action} (h : Permitted k c call a)
    (hok : ∀ call' ∈ call, call'.Courteous k c) : a.Courteous := by
  cases a with
  | refuse e =>
    obtain ⟨call', hcall, hno, -, hbad⟩ := h
    rw [(hok call' hcall).recv hno] at hbad
    cases hbad
  | setStatus old e status =>
    obtain ⟨call', hcall, hno, hstatus, hfound, rfl⟩ := h
    rintro rfl
    exact (hok call' hcall).unblock hno hstatus e hfound
  | _ => trivial

theorem Boots.courteous {a : Action} (h : Boots a) : a.Courteous := by
  cases a with
  | refuse | setStatus => exact h.elim
  | _ => trivial

/-- Entering the kernel changes nothing but the frame of the current environment. -/
theorem Enters.core {call : Option Call} (h : k.Enters ev c k₁ call) :
    k₁.curenv = k.curenv ∧ ∀ e, (k.curenv c = some e ∧ ∃ tf, k₁.envs e = { k.envs e with envTf := tf })
      ∨ k₁.envs e = k.envs e := by
  cases h with
  | first => exact ⟨start_curenv, fun e ↦ Or.inr rfl⟩
  | zombie => exact ⟨start_curenv, fun e ↦ Or.inr rfl⟩
  | interrupt => exact ⟨start_curenv, fun e ↦ Or.inr rfl⟩
  | user mode current alive =>
    refine ⟨start_curenv, fun e ↦ ?_⟩
    rename_i tf _ _ cur
    by_cases he : e = cur
    · subst he
      exact Or.inl ⟨current, tf, setEnv_self⟩
    · exact Or.inr (setEnv_of_ne he)

theorem Enters.listening {call : Option Call} (h : k.Enters ev c k₁ call) (hl : k.Listening) :
    k₁.Listening := by
  intro e hlive hrecving
  rcases h.core.2 e with ⟨-, tf, henv⟩ | henv
  · rw [henv] at hlive hrecving ⊢
    exact hl e hlive hrecving
  · rw [henv] at hlive hrecving ⊢
    exact hl e hlive hrecving

/-- A courteous section. -/
theorem Section.listening (h : k.Section s ev acts next k') (hproper : ∀ c, k.Proper c)
    (hl : k.Listening) (hok : k.Courteous ev) : k'.Listening := by
  cases h with
  | create boot linked run => exact Actions.listening run hl fun a ha ↦ Boots.courteous ha
  | inside enters run loses exit =>
    have hl₂ := Actions.listening run (enters.listening hl) fun a ha ↦
      Permitted.courteous ha fun call hcall ↦
        hok _ _ call (by rwa [Option.mem_def.mp hcall] at enters)
    have hl₃ := Loses.listening loses hl₂
    obtain ⟨calls, hleave⟩ := exit.leave (hproper _)
    exact Leave.listening hleave hl₃
  | store => exact hl

/-- An environment on a CPU is not receiving. -/
theorem Sound.not_recving (h : k.Sound) (hl : k.Listening) (hcur : k.curenv c = some e) :
    (k.envs e).envIpcRecving = false := by
  by_contra hrecving
  rw [Bool.not_eq_false] at hrecving
  rcases (h.cpu c).status e hcur with hstatus | hstatus
  · have hnot := hl e (by simp [hstatus]) hrecving
    rw [hstatus] at hnot
    cases hnot
  · have hnot := hl e (by simp [hstatus]) hrecving
    rw [hstatus] at hnot
    cases hnot

/-- An environment that is receiving after a step was it before, and nothing happened to it, or it
blocked in this step. -/
theorem Section.blocked (h : k.Section s ev acts next k') (hsound : k.Sound) (hl : k.Listening)
    (hok : k.Courteous ev) (hlive : (k'.envs e).envStatus ≠ .free)
    (hrecving : (k'.envs e).envIpcRecving = true) :
    (k'.envs e).core = (k.envs e).core ∨ k.Receives ev e := by
  cases h with
  | create boot linked run =>
    rename_i c binary
    rcases Actions.blocked run hl (hsound.inside_of_unused (boot c)) (fun a ha ↦ Boots.spares ha) (fun a ha ↦ Boots.courteous ha)
      (fun hc ↦ hsound.not_recving hl hc) hlive hrecving with hsame | ⟨dstva, -, hboots⟩
    · exact Or.inl hsame
    · exact hboots.elim
  | store => exact Or.inl rfl
  | inside enters run loses exit =>
    rename_i c call k₁ k₂ k₃
    have hcall : ∀ call' ∈ call, call'.Courteous k₁ c := fun call' hcall' ↦
      hok _ _ call' (by rwa [Option.mem_def.mp hcall'] at enters)
    obtain ⟨hin, -⟩ := enters.inside hsound
    have hl₁ := enters.listening hl
    have hl₂ : k₂.Listening := Actions.listening run hl₁ fun a ha ↦ Permitted.courteous ha hcall
    obtain ⟨calls, hleave⟩ := exit.leave hsound.proper
    have hlost := Loses.listening loses hl₂
    have hl₃ : { k₃ with totalSchedCalls := calls }.Listening := hlost
    have hblocked := Leave.blocked hleave hl₃ hlive hrecving
    have hstatus₃ := Env.eq_of_core Env.envStatus (fun _ ↦ rfl) hblocked
    have hexit : (k'.envs e).core = (k₂.envs e).core :=
      hblocked.trans (loses.core (by rwa [hstatus₃] at hlive))
    have hstatus := Env.eq_of_core Env.envStatus (fun _ ↦ rfl) hexit
    have hflag := Env.eq_of_core Env.envIpcRecving (fun _ ↦ rfl) hexit
    rw [hstatus] at hlive
    rw [hflag] at hrecving
    have hcur : k₁.curenv c = some e → (k₁.envs e).envIpcRecving = false := by
      intro hc
      rw [enters.core.1] at hc
      have hnot := hsound.not_recving hl hc
      rcases enters.core.2 e with ⟨-, tf, henv⟩ | henv
      · rw [henv]
        exact hnot
      · rw [henv]
        exact hnot
    rcases Actions.blocked run hl₁ hin (fun a ha ↦ Permitted.spares ha hin fun call' hcall' ↦
        (hcall call' hcall').toUndisturbing) (fun a ha ↦ Permitted.courteous ha hcall) hcur hlive
        hrecving with hsame | ⟨dstva, -, hpermitted⟩
    · rcases enters.core.2 e with ⟨hc, tf, henv⟩ | henv
      · have hnot := hcur (by rw [enters.core.1]; exact hc)
        have hflag₁ := Env.eq_of_core Env.envIpcRecving (fun _ ↦ rfl) hsame
        rw [hflag₁, hnot] at hrecving
        cases hrecving
      · left
        rw [hexit, hsame, henv]
    · obtain ⟨call', hcall', hno, hc, rfl, hbad⟩ := hpermitted
      rw [enters.core.1] at hc
      exact Or.inr ⟨c, k₁, call', by rwa [Option.mem_def.mp hcall'] at enters, hno, hbad, hc⟩

end Kernel

/-! ## A message that waits for its receiver -/

/-- The message is in the members of the environment from which the receiver returns. -/
structure Kernel.Delivered (k : Kernel n) (e : EnvPtr) (value sender : Word) : Prop where
  recving : (k.envs e).envIpcRecving = false
  value : (k.envs e).envIpcValue = value
  sender : (k.envs e).envIpcFrom = sender
  eax : (k.envs e).envTf.tfRegs.regEax = 0

/-- The receiver has not run since. -/
structure Kernel.Pending (k : Kernel n) (e : EnvPtr) (value sender : Word) : Prop
    extends k.Delivered e value sender where
  status : (k.envs e).envStatus = .runnable ∨ (k.envs e).envStatus = .notRunnable

variable {value sender : Word}

namespace Kernel

variable {a : Action} {ev : Event n} {acts : List Action} {next : Option EnvPtr}
  {P : Action → Prop}

theorem Pending.of_core (h : k.Pending e value sender)
    (hcore : (k'.envs e).core = (k.envs e).core) : k'.Pending e value sender where
  recving := (Env.eq_of_core Env.envIpcRecving (fun _ ↦ rfl) hcore).trans h.recving
  value := (Env.eq_of_core Env.envIpcValue (fun _ ↦ rfl) hcore).trans h.value
  sender := (Env.eq_of_core Env.envIpcFrom (fun _ ↦ rfl) hcore).trans h.sender
  eax := (Env.eq_of_core (fun env ↦ env.envTf.tfRegs.regEax) (fun _ ↦ rfl) hcore).trans h.eax
  status := by
    rw [Env.eq_of_core Env.envStatus (fun _ ↦ rfl) hcore]
    exact h.status

/-- An action leaves the message alone, unless it destroys the receiver. -/
theorem Pending.effect (h : k.Pending e value sender) (heffect : Effect c k a k')
    (hfree : k.FreeEnvs) (hcur : k.curenv c ≠ some e) (hdestroy : a ≠ .free e)
    (hload : ∀ binary, a ≠ .load e binary) : k'.Pending e value sender := by
  by_cases he : a.subject = some e
  · cases heffect with
    | tune | write | pageAlloc | pageMap | pageUnmap | upcall => cases he
    | frame tf current =>
      obtain rfl := Option.some.inj he
      exact absurd current hcur
    | spawn alloc =>
      obtain rfl := Option.some.inj he
      obtain ⟨pgdir, memory, hhead, -⟩ := envAlloc_ok alloc
      have hstatus := hfree.head hhead
      rcases h.status with hs | hs
      · rw [hs] at hstatus
        cases hstatus
      · rw [hs] at hstatus
        cases hstatus
    | load =>
      obtain rfl := Option.some.inj he
      exact absurd rfl (hload _)
    | setStatus was known settable =>
      obtain rfl := Option.some.inj he
      constructor
      · constructor
        · rw [setEnv_self]
          exact h.recving
        · rw [setEnv_self]
          exact h.value
        · rw [setEnv_self]
          exact h.sender
        · rw [setEnv_self]
          exact h.eax
      · rw [setEnv_self]
        exact settable
    | dying running =>
      obtain rfl := Option.some.inj he
      rcases h.status with hs | hs
      · rw [hs] at running
        cases running
      · rw [hs] at running
        cases running
    | free =>
      obtain rfl := Option.some.inj he
      exact absurd rfl hdestroy
    | exit current =>
      obtain rfl := Option.some.inj he
      exact absurd current hcur
    | deliver current known recving =>
      obtain rfl := Option.some.inj he
      rw [h.recving] at recving
      cases recving
    | await current =>
      obtain rfl := Option.some.inj he
      exact absurd current hcur
    | refuse current =>
      obtain rfl := Option.some.inj he
      exact absurd current hcur
  · exact h.of_core (heffect.core_of_ne he)

theorem Pending.actions (h : k.Pending e value sender) (hacts : Actions c P k acts k')
    (hin : Inside c k) (hspare : ∀ a, P a → ∀ e ∈ a.target, ¬ k.Elsewhere c e)
    (hcur : k.curenv c ≠ some e) (hP : ∀ a, P a → a ≠ .free e ∧ ∀ binary, a ≠ .load e binary) :
    k'.Pending e value sender ∧ k'.curenv c ≠ some e := by
  induction hacts with
  | nil => exact ⟨h, hcur⟩
  | @cons k k₁ k' a acts hfirst hrest ih =>
    obtain ⟨heffect, ha⟩ := hfirst
    have hspare₁ : ∀ a, P a → ∀ e ∈ a.target, ¬ k₁.Elsewhere c e := fun a' ha' e' he' h ↦
      hspare a' ha' e' he' (heffect.elsewhere.mp h)
    exact ih (h.effect heffect hin.free hcur (hP a ha).1 (hP a ha).2)
      (heffect.inside hin (hspare a ha)) hspare₁ fun hc ↦ hcur (heffect.curenv_of_some hc)

/-- Where the CPU goes on with the receiver, the receiver finds the message. -/
theorem Pending.leave (h : k.Pending e value sender) (hexit : Leave c k next k')
    (hcur : k.curenv c ≠ some e) : k'.Delivered e value sender ∧
      (k'.curenv c ≠ some e → k'.Pending e value sender) := by
  cases hexit with
  | halt call =>
    rw [schedHalt_ok call]
    have hpending : (k.setCpu c ⟨.halted, none, k.memory.kernPgdir⟩).Pending e value sender :=
      h.of_core rfl
    exact ⟨hpending.toDelivered, fun _ ↦ hpending⟩
  | run ready =>
    rename_i e'
    by_cases heq : e = e'
    · subst heq
      have hself := envRun_self (k := k) (c := c) (e := e)
      refine ⟨⟨?_, ?_, ?_, ?_⟩, fun hc ↦ absurd (envRun_curenv ..) hc⟩
      · rw [hself]
        exact h.recving
      · rw [hself]
        exact h.value
      · rw [hself]
        exact h.sender
      · rw [hself]
        exact h.eax
    · have hsame : (k.envRun c e').envs e = k.envs e := by
        rw [envRun_of_ne heq, park_of_ne hcur]
      have hpending : (k.envRun c e').Pending e value sender := h.of_core (by rw [hsame])
      exact ⟨hpending.toDelivered, fun _ ↦ hpending⟩

/-- A step leaves the message alone, unless it destroys the receiver. -/
theorem Pending.section (h : k.Pending e value sender) (hsection : k.Section s ev acts next k')
    (hsound : k.Sound) (hok : k.Courteous ev) (hawake : ∃ c, (k.cpus c).cpuStatus ≠ .unused)
    (hdestroy : ¬ k.Destroys ev e) : k'.Delivered e value sender ∧
      ((∀ c, k'.curenv c ≠ some e) → k'.Pending e value sender) := by
  cases hsection with
  | create boot =>
    obtain ⟨c, hc⟩ := hawake
    exact absurd (boot c) hc
  | store =>
    rename_i memory _ _
    have hpending : { k with memory }.Pending e value sender := h.of_core rfl
    exact ⟨hpending.toDelivered, fun _ ↦ hpending⟩
  | inside enters run loses exit =>
    rename_i c call k₁ k₂ k₃
    have hcall : ∀ call' ∈ call, call'.Courteous k₁ c := fun call' hcall' ↦
      hok _ _ call' (by rwa [Option.mem_def.mp hcall'] at enters)
    obtain ⟨hin, -⟩ := enters.inside hsound
    have hcur : k.curenv c ≠ some e := by
      intro hc
      rcases (hsound.cpu c).status e hc with hstatus | hstatus
      · rcases h.status with hs | hs <;> simp [hs] at hstatus
      · rcases h.status with hs | hs <;> simp [hs] at hstatus
    have h₁ : k₁.Pending e value sender := by
      rcases enters.core.2 e with ⟨hc, -⟩ | henv
      · exact absurd hc hcur
      · exact h.of_core (by rw [henv])
    have hcur₁ : k₁.curenv c ≠ some e := by
      rw [enters.core.1]
      exact hcur
    obtain ⟨h₂, hcur₂⟩ := h₁.actions run hin (fun a ha ↦ Permitted.spares ha hin fun call' hc ↦
        (hcall call' hc).toUndisturbing) hcur₁ (by
      rintro a ha
      refine ⟨?_, ?_⟩
      · rintro rfl
        obtain ⟨call', hcall', hfound, -, hno⟩ := ha
        exact hdestroy ⟨c, k₁, call', by rwa [Option.mem_def.mp hcall'] at enters, hfound, hno⟩
      · rintro binary rfl
        exact ha)
    obtain ⟨calls, hleave⟩ := exit.leave hsound.proper
    have h₃ : { k₃ with totalSchedCalls := calls }.Pending e value sender :=
      h₂.of_core (loses.core_of_ne hcur₂)
    obtain ⟨hdelivered, hpending⟩ := h₃.leave hleave fun hc ↦ hcur₂ (loses.curenv_of_some hc)
    exact ⟨hdelivered, fun hc ↦ hpending (hc c)⟩

/-- Once a CPU has started it never becomes unused. -/
theorem Section.awake (h : k.Section s ev acts next k')
    (hawake : ∃ c, (k.cpus c).cpuStatus ≠ .unused) : ∃ c, (k'.cpus c).cpuStatus ≠ .unused := by
  cases h with
  | create boot =>
    obtain ⟨c, hc⟩ := hawake
    exact absurd (boot c) hc
  | store => exact hawake
  | inside enters run loses exit =>
    rename_i c call k₁ k₂ k₃
    refine ⟨c, ?_⟩
    have hstarted := loses.userMode (Actions.userMode run enters.userMode)
    rw [exit.cpuStatus hstarted]
    split <;> simp

end Kernel

/-! ## Runs -/

namespace Kernel

variable {ev : Event n}

/-- What holds in every state of a courteous run. -/
structure Orderly (k : Kernel n) : Prop where
  sound : k.Sound
  listening : k.Listening

theorem Booted.not_recving {free : List Ppn} (h : k.Booted free) (e : EnvPtr) :
    (k.envs e).envIpcRecving = false := by
  obtain ⟨k₀, hzero, rfl⟩ := h.table
  change (k₀.envs e).envIpcRecving = false
  rw [hzero e]
  rfl

theorem Booted.orderly {free : List Ppn} (h : k.Booted free) : k.Orderly := by
  refine ⟨h.sound, fun e _ hrecving ↦ ?_⟩
  rw [h.not_recving e] at hrecving
  cases hrecving

theorem Orderly.step (h : k.Orderly) (hstep : k.Step s ev k') (hok : k.Courteous ev) :
    k'.Orderly := by
  obtain ⟨acts, next, hsection⟩ := hstep.section
  exact ⟨hsection.sound h.sound hok.undisturbing,
    hsection.listening (fun _ ↦ h.sound.proper) h.listening hok⟩

end Kernel

/-- The environment has been blocked since a step of the run in which it called `sys_ipc_recv`: it has
not run since, and no message has come. -/
def BlockedSince (s : Scheduler) (k₀ : Kernel n) (evs : List (Event n)) (k : Kernel n)
    (e : EnvPtr) : Prop :=
  ∃ evs₁ ev evs₂ k₁ k₂, evs = evs₁ ++ ev :: evs₂ ∧ Run (Kernel.Step s) k₀ evs₁ k₁ ∧
    k₁.Step s ev k₂ ∧ k₁.Receives ev e ∧
    Run (fun a ev b ↦ a.Step s ev b ∧ (b.envs e).core = (a.envs e).core) k₂ evs₂ k

theorem blocked_since {k₀ : Kernel n} {evs : List (Event n)} (hstart : k₀.Orderly)
    (hnone : ∀ e, (k₀.envs e).envIpcRecving = false)
    (hrun : Run (fun k ev k' ↦ k.Step s ev k' ∧ k.Courteous ev) k₀ evs k)
    (hlive : (k.envs e).envStatus ≠ .free) (hrecving : (k.envs e).envIpcRecving = true) :
    BlockedSince s k₀ evs k e := by
  let inv : List (Event n) → Kernel n → Prop := fun evs k ↦ k.Orderly ∧
    ((k.envs e).envStatus ≠ .free → (k.envs e).envIpcRecving = true → BlockedSince s k₀ evs k e)
  have hinv : inv evs k := by
    have hfirst : inv [] k₀ := by
      refine ⟨hstart, fun _ hr ↦ ?_⟩
      rw [hnone e] at hr
      cases hr
    refine hrun.history hfirst ?_
    rintro evs k ev k' hpart ⟨hk, hblocked⟩ ⟨hstep, hok⟩
    refine ⟨hk.step hstep hok, fun hlive' hrecving' ↦ ?_⟩
    obtain ⟨acts, next, hsection⟩ := hstep.section
    rcases hsection.blocked hk.sound hk.listening hok hlive' hrecving' with hsame | hreceives
    · have hstatus := Env.eq_of_core Env.envStatus (fun _ ↦ rfl) hsame
      have hflag := Env.eq_of_core Env.envIpcRecving (fun _ ↦ rfl) hsame
      obtain ⟨evs₁, ev₁, evs₂, k₁, k₂, rfl, h₁, h₂, h₃, h₄⟩ :=
        hblocked (by rwa [← hstatus]) (by rwa [← hflag])
      exact ⟨evs₁, ev₁, evs₂ ++ [ev], k₁, k₂, by simp, h₁, h₂, h₃,
        h₄.append (.single ⟨hstep, hsame⟩)⟩
    · exact ⟨evs, ev, [], k, k', rfl, hpart.mono fun _ _ _ h ↦ h.1, hstep, hreceives, .nil k'⟩
  exact hinv.2 hlive hrecving

section Send

open Kernel

variable {tf : Trapframe} {faultVa : Word} {inp : Input} {call : Call} {r : ℤ} {dst : EnvPtr}

/-- A message to an environment that is not receiving is refused and changes nothing. -/
theorem send_refused (hno : k.envid2env c call.a1 false = .ok (some dst))
    (hnot : (k.envs dst).envIpcRecving = false)
    (hsend : k.sysIpcTrySend c inp call.a1 call.a2 call.a3 call.a4 = .ok (r, k₂)) :
    r = -eIpcNotRecv ∧ k₂ = k := by
  unfold sysIpcTrySend at hsend
  rw [hno] at hsend
  simp only [bind, Except.bind, hnot, if_true] at hsend
  obtain ⟨rfl, rfl⟩ := Prod.mk.inj (pure_ok.mp hsend)
  exact ⟨rfl, rfl⟩

/-- A message that is not refused is delivered to an environment that was blocked. -/
theorem send_delivers (hk : k.Orderly)
    (henters : k.Enters (.trap c tf faultVa inp) c k₁ (some call)) (hno : call.no = .ipcTrySend)
    (hfound : k₁.envid2env c call.a1 false = .ok (some dst))
    (hsend : k₁.sysIpcTrySend c inp call.a1 call.a2 call.a3 call.a4 = .ok (0, k₂))
    (hstep : k.Step s (.trap c tf faultVa inp) k') :
    ∃ cur, k.curenv c = some cur ∧ (k.envs dst).envIpcRecving = true ∧
      (k.envs dst).envStatus = .notRunnable ∧
      k'.Pending dst call.a2 (k.envs cur).envId := by
  obtain ⟨cur, no, control, k₃, current, alive, rfl, hofWord, hcall, hreturn⟩ :=
    hstep.of_call henters
  have hreturns : returning (Except.ok (0, k₂)) = .ok (control, k₃) := by
    rw [← hcall]
    unfold Kernel.syscall
    rw [hofWord, hno]
    simp only [hsend]
  obtain ⟨rfl, rfl⟩ : Control.returns 0 = control ∧ k₂ = k₃ :=
    Prod.mk.inj (Except.ok.inj hreturns)
  simp only at hreturn
  have hrunning : (k.envs cur).envStatus = .running :=
    ((hk.sound.cpu c).status cur current).resolve_right alive
  have hcur₁ : (k.saveTf c cur tf).curenv c = some cur := by
    rw [saveTf, setTf, setEnv_curenv, start_curenv, current]
  have hself : (k.saveTf c cur tf).envs cur = { k.envs cur with envTf := tf } := setEnv_self
  obtain ⟨hneg, -⟩ | ⟨-, kx, cur', dst', -, ⟨hcpus, hcore⟩, hdeliver, hpermitted⟩ :=
    sysIpcTrySend_cases call hno hsend
  · exact absurd hneg (by decide)
  obtain ⟨call', hcall', -, hcur', hfound', hrecving₁, -⟩ := hpermitted
  obtain rfl := Option.mem_some.mp hcall'
  obtain rfl : cur = cur' := by simpa [hcur₁] using hcur'
  obtain rfl : dst = dst' := by simpa [hfound] using hfound'
  -- The receiver is not the sender, which is running.
  have hne : dst ≠ cur := by
    rintro rfl
    rw [hself] at hrecving₁
    have hnot := hk.listening dst (by simp [hrunning]) hrecving₁
    rw [hrunning] at hnot
    cases hnot
  have hdst : (k.saveTf c cur tf).envs dst = k.envs dst := setEnv_of_ne hne
  rw [hdst] at hrecving₁
  have hlive : (k.envs dst).envStatus ≠ .free := by
    rcases envid2env_exists hfound with hc | hlive
    · rw [hcur₁] at hc
      exact absurd (Option.some.inj hc).symm hne
    · rwa [hdst] at hlive
  refine ⟨cur, current, hrecving₁, hk.listening dst hlive hrecving₁, ?_⟩
  cases hdeliver
  -- The sender goes on running.
  have hid : (kx.envs cur).envId = (k.envs cur).envId := by
    rw [Env.eq_of_core Env.envId (fun _ ↦ rfl) (hcore cur), hself]
  have hstill : ((kx.ipcDeliver cur dst call.a2).setEax (some cur) 0).curenv c = some cur := by
    change kx.curenv c = some cur
    rw [curenv, hcpus]
    exact hcur₁
  have hstatus : (((kx.ipcDeliver cur dst call.a2).setEax (some cur) 0).envs cur).envStatus =
      .running := by
    rw [setEax, setTf, setEnv_self]
    rw [ipcDeliver, setEnv_of_ne (Ne.symm hne), Env.eq_of_core Env.envStatus (fun _ ↦ rfl)
      (hcore cur), hself]
    exact hrunning
  have hmessage : ((kx.ipcDeliver cur dst call.a2).setEax (some cur) 0).Pending dst call.a2
      (k.envs cur).envId := by
    have henv : ((kx.ipcDeliver cur dst call.a2).setEax (some cur) 0).envs dst =
        (kx.ipcDeliver cur dst call.a2).envs dst := setEnv_of_ne hne
    refine ⟨⟨?_, ?_, ?_, ?_⟩, Or.inl ?_⟩
    · rw [henv, ipcDeliver, setEnv_self]
    · rw [henv, ipcDeliver, setEnv_self]
    · rw [henv, ipcDeliver, setEnv_self]
      exact hid
    · rw [henv, ipcDeliver, setEnv_self]
    · rw [henv, ipcDeliver, setEnv_self]
  simp only [trapReturn, hstill, hstatus, if_true] at hreturn
  obtain rfl := Except.ok.inj hreturn
  refine hmessage.of_core ?_
  rw [envRun_of_ne hne, park_of_ne]
  rw [hstill]
  exact fun heq ↦ hne (Option.some.inj heq).symm

end Send

/-- The message of a step stays with the receiver until it runs, unless a system call destroys it. -/
theorem delivered_stays {evs : List (Event n)} (hk : k.Orderly)
    (hawake : ∃ c, (k.cpus c).cpuStatus ≠ .unused) (h : k.Pending e value sender)
    (hrun : Run (fun k ev k' ↦ k.Step s ev k' ∧ k.Courteous ev ∧ ¬ k.Destroys ev e ∧
      ∀ c, k.curenv c ≠ some e) k evs k') : k'.Delivered e value sender := by
  let inv : Kernel n → Prop := fun k ↦ k.Orderly ∧ (∃ c, (k.cpus c).cpuStatus ≠ .unused) ∧
    k.Delivered e value sender ∧ ((∀ c, k.curenv c ≠ some e) → k.Pending e value sender)
  have hinv : inv k' := by
    have hfirst : inv k := ⟨hk, hawake, h.toDelivered, fun _ ↦ h⟩
    refine hrun.invariant ?_ hfirst
    rintro k₁ ev k₂ ⟨hk₁, hawake₁, -, hpending⟩ ⟨hstep, hok, hdestroy, hcur⟩
    obtain ⟨acts, next, hsection⟩ := hstep.section
    obtain ⟨hdelivered, hstays⟩ :=
      (hpending hcur).section hsection hk₁.sound hok hawake₁ hdestroy
    exact ⟨hk₁.step hstep hok, hsection.awake hawake₁, hdelivered, hstays⟩
  exact hinv.2.2.1

/-- The rendezvous, in every courteous run. An environment with the flag `env_ipc_recving` has been
blocked in `sys_ipc_recv` all the time. A system call `sys_ipc_try_send` to an environment without the
flag is refused and changes nothing; one that returns 0 finds its target blocked, and its value and the
id of its sender wait for the target, with the result 0 of `sys_ipc_recv`, until it runs. -/
theorem ipc_rendezvous {free : List Ppn} {k₀ : Kernel n} {evs : List (Event n)}
    (hboot : k₀.Booted free)
    (hrun : Run (fun k ev k' ↦ k.Step s ev k' ∧ k.Courteous ev) k₀ evs k) :
    (∀ e, (k.envs e).envStatus ≠ .free → (k.envs e).envIpcRecving = true →
      (k.envs e).envStatus = .notRunnable ∧ BlockedSince s k₀ evs k e) ∧
    ∀ c tf faultVa inp k' k₁ call dst r k₂,
      k.Step s (.trap c tf faultVa inp) k' → k.Courteous (.trap c tf faultVa inp) →
      k.Enters (.trap c tf faultVa inp) c k₁ (some call) → call.no = .ipcTrySend →
      k₁.envid2env c call.a1 false = .ok (some dst) →
      k₁.sysIpcTrySend c inp call.a1 call.a2 call.a3 call.a4 = .ok (r, k₂) →
      ((k₁.envs dst).envIpcRecving = false → r = -eIpcNotRecv ∧ k₂ = k₁) ∧
      (r = 0 → ∃ cur, k.curenv c = some cur ∧ (k.envs dst).envIpcRecving = true ∧
        (k.envs dst).envStatus = .notRunnable ∧
        ∀ evs' k'', Run (fun k ev k' ↦ k.Step s ev k' ∧ k.Courteous ev ∧ ¬ k.Destroys ev dst ∧
            ∀ c, k.curenv c ≠ some dst) k' evs' k'' →
          k''.Delivered dst call.a2 (k.envs cur).envId) := by
  have hk : k.Orderly := by
    refine hrun.invariant ?_ hboot.orderly
    exact fun k₁ ev k₂ hk₁ ⟨hstep, hok⟩ ↦ hk₁.step hstep hok
  constructor
  · intro e hlive hrecving
    exact ⟨hk.listening e hlive hrecving,
      blocked_since hboot.orderly hboot.not_recving hrun hlive hrecving⟩
  · intro c tf faultVa inp k' k₁ call dst r k₂ hstep hok henters hno hfound hsend
    refine ⟨fun hnot ↦ send_refused hfound hnot hsend, ?_⟩
    rintro rfl
    obtain ⟨cur, hcur, hrecving, hblocked, hpending⟩ :=
      send_delivers hk henters hno hfound hsend hstep
    refine ⟨cur, hcur, hrecving, hblocked, fun evs' k'' hrun' ↦ ?_⟩
    obtain ⟨acts, next, hsection⟩ := hstep.section
    have hawake : ∃ c, (k'.cpus c).cpuStatus ≠ .unused := by
      refine hsection.awake ⟨c, ?_⟩
      rw [show (k.cpus c).cpuStatus = .started from (hk.sound.cpu c).mode cur hcur]
      simp
    exact delivered_stays (hk.step hstep hok) hawake hpending hrun'

/-- An event whose system call, if it makes one, is courteous in every state. -/
def Event.Courteous : Event n → Prop
  | .trap _ tf _ _ => ∀ call ∈ tf.call, call.no ≠ .envSetStatus ∧ call.no ≠ .envDestroy ∧
      call.no ≠ .envSetPgfaultUpcall ∧ call.no ≠ .ipcTrySend ∧
      (call.no = .ipcRecv → badVa call.a1 = false)
  | _ => True

instance : (ev : Event n) → Decidable ev.Courteous
  | .trap _ tf _ _ => inferInstanceAs (Decidable (∀ call ∈ tf.call, call.no ≠ .envSetStatus ∧
      call.no ≠ .envDestroy ∧ call.no ≠ .envSetPgfaultUpcall ∧ call.no ≠ .ipcTrySend ∧
      (call.no = .ipcRecv → badVa call.a1 = false)))
  | .create .. => inferInstanceAs (Decidable True)
  | .start .. => inferInstanceAs (Decidable True)
  | .store .. => inferInstanceAs (Decidable True)

theorem Event.Courteous.kernel {ev : Event n} (h : ev.Courteous) : k.Courteous ev := by
  intro c k₁ call henters
  generalize hcall : some call = made at henters
  cases henters with
  | first => cases hcall
  | zombie => cases hcall
  | interrupt => cases hcall
  | user =>
    obtain ⟨hstatus, hdestroy, hupcall, hsend, hrecv⟩ := h call hcall.symm
    exact ⟨⟨fun h ↦ absurd h hstatus, fun h ↦ absurd h hdestroy, fun h ↦ absurd h hupcall,
      fun h ↦ absurd h hsend⟩, hrecv, fun h ↦ absurd h hstatus⟩

theorem courteous_run {k₀ : Kernel n} {evs : List (Event n)} (h : k₀.after s evs = some k)
    (hok : ∀ ev ∈ evs, ev.Courteous) :
    Run (fun k ev k' ↦ k.Step s ev k' ∧ k.Courteous ev) k₀ evs k :=
  ((Kernel.run_of_after h).with_labels hok).mono fun _ _ _ hstep ↦ ⟨hstep.1, hstep.2.kernel⟩

/-- An environment waits for a message while another one runs. -/
theorem ipc_rendezvous_small :
    ∃ k, (smallKernel 1 12).after .rr [.create 0 smallBinary, .create 0 smallBinary, .start 0,
        .call 0 12 0 0 0 0 0] = some k ∧ (k.envs 0).envIpcRecving = true ∧
      (k.envs 0).envStatus = .notRunnable ∧
      BlockedSince .rr (smallKernel 1 12) [.create 0 smallBinary, .create 0 smallBinary,
        .start 0, .call 0 12 0 0 0 0 0] k 0 := by
  have hresult : (((smallKernel 1 12).after .rr [.create 0 smallBinary, .create 0 smallBinary,
      .start 0, .call 0 12 0 0 0 0 0]).any fun k ↦
      (k.envs 0).envStatus ≠ EnvStatus.free ∧ (k.envs 0).envIpcRecving = true) = true := by
    decide +kernel
  obtain ⟨k, hk, hcheck⟩ := (Option.any_eq_true _ _).mp hresult
  rw [decide_eq_true_eq] at hcheck
  exact ⟨k, hk, hcheck.2, (ipc_rendezvous (smallKernel_booted 1 12 (by decide))
    (courteous_run hk (by decide))).1 0 hcheck.1 hcheck.2⟩

/-- A call of `sys_ipc_recv` that is refused leaves the flag behind: the environment goes on running
with it, and a message can be sent to it that nobody waits for. -/
theorem recving_while_running :
    (smallKernel 1 12).Booted (smallFree 12) ∧
    ∃ k, Run (Kernel.Step .rr) (smallKernel 1 12) [.create 0 smallBinary, .start 0,
        .call 0 12 1 0 0 0 0] k ∧
      (k.envs 0).envIpcRecving = true ∧ (k.envs 0).envStatus = .running := by
  refine ⟨smallKernel_booted 1 12 (by decide), ?_⟩
  have hresult : (((smallKernel 1 12).after .rr [.create 0 smallBinary, .start 0,
      .call 0 12 1 0 0 0 0]).any fun k ↦
      (k.envs 0).envIpcRecving = true ∧ (k.envs 0).envStatus = EnvStatus.running) = true := by
    decide +kernel
  obtain ⟨k, hk, hcheck⟩ := (Option.any_eq_true _ _).mp hresult
  rw [decide_eq_true_eq] at hcheck
  exact ⟨k, Kernel.run_of_after hk, hcheck⟩

end SistemasOperativos.Jos
