import SistemasOperativos.Jos.EnvIds
import SistemasOperativos.Jos.OneCpu

/-!
# Priorities

The scheduler by priorities looks for environments whose priority is between 1 and `MAX_PRIORITY`. All
environments that are not free have such a priority in exactly the runs in which no environment calls
`sys_exofork` after it has been freed: the child inherits its priority through the id of the parent,
which does not find the parent any more.
-/

namespace SistemasOperativos.Jos

open Library Library.Except

variable {n : ℕ} {s : Scheduler} {mode : Prop} {c : Fin n} {k k₀ k₁ k₂ k' : Kernel n}
  {e : EnvPtr} {ev : Event n} {next : Option EnvPtr}

/-! ## The choice of `sched_pr` -/

namespace Kernel

/-- The loop of `sched_pr` keeps what it has found, where nothing on the rest of the way is better, or
it finds a runnable environment of the least priority on the way. -/
theorem schedPrFrom_least (es : List EnvPtr) {best : ℤ} (found : Option EnvPtr) (hbest : 1 ≤ best)
    (hranged : ∀ e ∈ es, (k.envs e).envStatus = .runnable → 1 ≤ (k.envs e).priority) :
    k.schedPrFrom es best found = found ∧
      (∀ e ∈ es, (k.envs e).envStatus = .runnable → best ≤ (k.envs e).priority) ∨
    ∃ e, k.schedPrFrom es best found = some e ∧ (k.envs e).envStatus = .runnable ∧
      (k.envs e).priority ≤ best ∧
      ∀ e' ∈ es, (k.envs e').envStatus = .runnable → (k.envs e).priority ≤ (k.envs e').priority := by
  induction es generalizing best found with
  | nil => exact Or.inl ⟨rfl, by simp⟩
  | cons e es ih =>
    have hrest : ∀ e ∈ es, (k.envs e).envStatus = .runnable → 1 ≤ (k.envs e).priority :=
      fun e' he' ↦ hranged e' (List.mem_cons_of_mem e he')
    have hfirst := hranged e List.mem_cons_self
    simp only [schedPrFrom]
    split
    · rename_i hone
      refine Or.inr ⟨e, rfl, hone.1, by omega, fun e' he' hrunnable ↦ ?_⟩
      have := hranged e' he' hrunnable
      omega
    · split
      · rename_i hbetter
        right
        rcases ih (some e) (hfirst hbetter.1) hrest with
          ⟨hkeep, hleast⟩ | ⟨e', hfound, hrunnable, hle, hleast⟩
        · refine ⟨e, hkeep, hbetter.1, by omega, fun e' he' hrunnable ↦ ?_⟩
          rcases List.mem_cons.mp he' with rfl | he'
          · omega
          · exact hleast e' he' hrunnable
        · refine ⟨e', hfound, hrunnable, by omega, fun e'' he'' hrunnable' ↦ ?_⟩
          rcases List.mem_cons.mp he'' with rfl | he''
          · exact hle
          · exact hleast e'' he'' hrunnable'
      · rename_i hone hbetter
        have hworse : (k.envs e).envStatus = .runnable → best ≤ (k.envs e).priority := by
          intro hrunnable
          by_contra hlt
          exact hbetter ⟨hrunnable, by omega⟩
        rcases ih found hbest hrest with ⟨hkeep, hleast⟩ | ⟨e', hfound, hrunnable, hle, hleast⟩
        · refine Or.inl ⟨hkeep, fun e' he' hrunnable ↦ ?_⟩
          rcases List.mem_cons.mp he' with rfl | he'
          · exact hworse hrunnable
          · exact hleast e' he' hrunnable
        · refine Or.inr ⟨e', hfound, hrunnable, hle, fun e'' he'' hrunnable' ↦ ?_⟩
          rcases List.mem_cons.mp he'' with rfl | he''
          · have := hworse hrunnable'
            omega
          · exact hleast e'' he'' hrunnable'

/-- Every environment that is not free has a priority that `sched_pr` looks for. -/
def Graded (k : Kernel n) : Prop :=
  ∀ e, (k.envs e).envStatus ≠ .free → Ranged (k.envs e).priority

/-- Where there are runnable environments, `sched_pr` chooses one of them, and one of the least
priority. -/
def ServesLeast (k : Kernel n) (c : Fin n) : Prop :=
  (∃ e, (k.envs e).envStatus = .runnable) → ∃ e, k.schedPr c = some e ∧
    (k.envs e).envStatus = .runnable ∧
    ∀ e', (k.envs e').envStatus = .runnable → (k.envs e).priority ≤ (k.envs e').priority

theorem Graded.servesLeast (h : k.Graded) (c : Fin n) : k.ServesLeast c := by
  have hranged : ∀ e, (k.envs e).envStatus = .runnable → Ranged (k.envs e).priority :=
    fun e he ↦ h e (by simp [he])
  rintro ⟨e₀, he₀⟩
  have hbest : (1 : ℤ) ≤ maxPriority + 1 := by decide
  rcases schedPrFrom_least (circular (k.nextCurenvInd c)) none hbest
      fun e _ he ↦ (hranged e he).1 with ⟨-, hnone⟩ | ⟨e, hfound, hrunnable, -, hleast⟩
  · have hover := hnone e₀ (mem_circular _ e₀) he₀
    have hmax := (hranged e₀ he₀).2
    omega
  · refine ⟨e, ?_, hrunnable, fun e' he' ↦ hleast e' (mem_circular _ e') he'⟩
    unfold schedPr
    rw [hfound]

end Kernel

/-! ## Priorities inside the kernel -/

/-- An action keeps the priority of an environment in its range, if it is not a new one. -/
theorem Effect.ranged {a : Action} (h : Effect c k a k') (ha : a ≠ .spawn e)
    (hranged : Ranged (k.envs e).priority) : Ranged (k'.envs e).priority := by
  have hset : ∀ {k : Kernel n} {e' : EnvPtr} {env : Env}, env.priority = (k.envs e').priority →
      ((k.setEnv e' env).envs e).priority = (k.envs e).priority := by
    intro k e' env hsame
    rw [Kernel.setEnv_envs]
    split
    · rename_i heq
      rw [hsame, heq]
    · rfl
  suffices hsame : (∃ k'', k.Tuned k'' ∧ k' = k'') ∨
      (k'.envs e).priority = (k.envs e).priority by
    rcases hsame with ⟨k'', htuned, rfl⟩ | hsame
    · exact htuned.ranged e hranged
    · rwa [hsame]
  cases h with
  | tune tuned => exact Or.inl ⟨k', tuned, rfl⟩
  | pageAlloc call =>
    obtain ⟨memory, rfl⟩ := Kernel.envPageAlloc_memory call
    exact Or.inr rfl
  | pageMap call =>
    obtain ⟨memory, rfl⟩ := Kernel.envPageMap_memory call
    exact Or.inr rfl
  | spawn alloc =>
    have hne : e ≠ _ := fun heq ↦ ha (congrArg Action.spawn heq.symm)
    obtain ⟨pgdir, memory, -, -, rfl⟩ := Kernel.envAlloc_ok alloc
    rw [Kernel.setEnv_setEnv, Kernel.setEnv_of_ne hne]
    exact Or.inr rfl
  | load fresh call =>
    obtain ⟨pgdir, m₁, m₂, -, -, -, rfl⟩ := Kernel.loadIcode_ok call
    exact Or.inr (hset rfl)
  | free other call =>
    obtain ⟨pgdir, m₁, m₂, -, -, -, rfl⟩ := Kernel.envFree_ok call
    refine Or.inr ((hset ?_).trans (by rw [Kernel.leavePgdir_envs]))
    rw [Kernel.leavePgdir_envs]
  | exit current call =>
    obtain ⟨pgdir, m₁, m₂, -, -, -, rfl⟩ := Kernel.envFree_ok call
    refine Or.inr ((hset ?_).trans (by rw [Kernel.leavePgdir_envs]))
    rw [Kernel.leavePgdir_envs]
  | frame | setStatus | dying | deliver | await | refuse | upcall => exact Or.inr (hset rfl)
  | _ => exact Or.inr rfl

namespace Kernel

/-- What holds in every state of a run in which no freed environment forks: also the slots that have
been freed keep a priority in its range. -/
structure Ranked (k : Kernel n) : Prop extends k.Numbered where
  idle : ∀ c, (k.cpus c).cpuStatus = .unused → k.curenv c = none
  ranged : ∀ e, (k.envs e).envId ≠ 0 → Ranged (k.envs e).priority

theorem Ranked.graded (h : k.Ranked) : k.Graded := by
  intro e hlive
  exact h.ranged e fun hzero ↦ hlive (h.unused e hzero)

theorem Ranked.effect {a : Action} (h : k.Ranked) (heffect : Effect c k a k')
    (hnew : ∀ e, a = .spawn e → Ranged (k'.envs e).priority) : k'.Ranked where
  toNumbered := h.toNumbered.effect heffect
  idle c' hc' := by
    rw [heffect.cpuStatus] at hc'
    by_contra hcur
    obtain ⟨e, he⟩ := Option.ne_none_iff_exists'.mp hcur
    have hnone := h.idle c' hc'
    rw [heffect.curenv_of_some he] at hnone
    cases hnone
  ranged e he := by
    by_cases ha : a = .spawn e
    · exact hnew e ha
    · rw [heffect.envId ha] at he
      exact heffect.ranged ha (h.ranged e he)

theorem Ranked.actions {P : Action → Prop} {acts : List Action} (h : k.Ranked)
    (hacts : Actions c P k acts k') (hP : ∀ e, ¬ P (.spawn e)) : k'.Ranked := by
  refine hacts.invariant ?_ h
  rintro k₁ a k₂ hk₁ ⟨heffect, ha⟩
  exact hk₁.effect heffect fun e heq ↦ absurd (heq ▸ ha) (hP e)

theorem Ranked.loses (h : k.Ranked) {acts : List Action} (hloses : Loses c k acts k') : k'.Ranked := by
  cases hloses with
  | keeps => exact h
  | exit effect => exact h.effect effect (by simp)

theorem Ranked.enters {call : Option Call} (h : k.Ranked) (henters : k.Enters ev c k₁ call) :
    k₁.Ranked := by
  refine ⟨h.toNumbered.enters henters, fun c' hc' ↦ ?_, fun e he ↦ ?_⟩
  · rw [henters.curenv]
    by_cases heq : c' = c
    · rw [heq, henters.userMode] at hc'
      cases hc'
    · rw [henters.cpus_of_ne heq] at hc'
      exact h.idle c' hc'
  · obtain ⟨tf, henv⟩ := henters.env e
    rw [henv] at he ⊢
    exact h.ranged e he

theorem Ranked.exit (h : k.Ranked) (hexit : Exit s mode c k next k') (hmode : k.UserMode c) :
    k'.Ranked := by
  refine ⟨h.toNumbered.exit hexit, fun c' hc' ↦ ?_, fun e he ↦ ?_⟩
  · by_cases heq : c' = c
    · rw [heq, hexit.cpuStatus hmode] at hc'
      split at hc' <;> cases hc'
    · rw [curenv, hexit.cpus_of_ne heq]
      rw [hexit.cpus_of_ne heq] at hc'
      exact h.idle c' hc'
  · obtain ⟨status, runs, cpunum, henv, -⟩ := hexit.env e
    rw [henv] at he ⊢
    exact h.ranged e he

/-! ## The child of a fork -/

/-- The priority that `sys_exofork` gives to the environment in the slot `e`. -/
theorem inherit_priority {cur : EnvPtr} {status : EnvStatus} {tf : Trapframe} {priority : ℤ}
    (hid : (k.envs cur).envId ≠ 0) (hslot : envx (k.envs cur).envId = cur)
    (halloc : k.envAlloc (k.envs cur).envId = .ok (.ok e, k₁))
    (h : (k₁.setEnv e { k₁.envs e with envStatus := status, envTf := tf }).sysGetPriority c
      (k.envs cur).envId = .ok priority) :
    (if (k.envs cur).envStatus ≠ .free ∧ e ≠ cur then (k.envs cur).priority else -1) =
      priority := by
  obtain ⟨pgdir, memory, -, -, rfl⟩ := envAlloc_ok halloc
  unfold sysGetPriority at h
  by_cases heq : e = cur
  · subst heq
    rw [if_neg (by simp)]
    rw [envid2env_stale hid] at h
    · exact Except.ok.inj h
    · rw [hslot, setEnv_self, setEnv_self]
      exact Or.inr (nextEnvId_ne e _)
  · have hne : cur ≠ e := Ne.symm heq
    by_cases hfree : (k.envs cur).envStatus = .free
    · rw [if_neg (by simp [hfree])]
      rw [envid2env_stale hid] at h
      · exact Except.ok.inj h
      · rw [hslot, setEnv_of_ne hne, setEnv_of_ne hne]
        exact Or.inl hfree
    · rw [if_pos ⟨hfree, heq⟩]
      rw [envid2env_live hid] at h
      · rw [← Except.ok.inj h, hslot, setEnv_of_ne hne, setEnv_of_ne hne]
      · rwa [hslot, setEnv_of_ne hne, setEnv_of_ne hne]
      · rw [hslot, setEnv_of_ne hne, setEnv_of_ne hne]

/-- A system call `sys_exofork` that can make an environment comes from one that has not been freed:
its slot is neither free nor the next one that `env_alloc` takes. -/
def ForksAlive (k : Kernel n) (ev : Event n) : Prop :=
  ∀ c k₁ call cur, k.Enters ev c k₁ (some call) → call.no = .exofork → k₁.curenv c = some cur →
    k₁.envFreeList ≠ none → k₁.memory.pageFreeList ≠ none →
    (k₁.envs cur).envStatus ≠ .free ∧ k₁.envFreeList ≠ some cur

theorem Ranked.fork {r : ℤ} (h : k.Ranked) (hfork : k.sysExofork c = .ok (r, k'))
    (halive : ∀ cur, k.curenv c = some cur → k.envFreeList ≠ none →
      k.memory.pageFreeList ≠ none → (k.envs cur).envStatus ≠ .free ∧ k.envFreeList ≠ some cur) :
    k'.Ranked ∧ k'.cpus = k.cpus := by
  obtain ⟨rfl, -⟩ | ⟨e, cur, k₁, env, hcur, halloc, hstatus, hcore, hpriority, rfl⟩ :=
    sysExofork_ok hfork
  · exact ⟨h, rfl⟩
  · have hid := h.current c cur hcur
    obtain ⟨hhead, hpage⟩ := envAlloc_needs halloc
    obtain ⟨hlive, hne⟩ := halive cur hcur (by simp [hhead]) hpage
    rw [hhead] at hne
    have hinherit := inherit_priority hid (h.slot cur hid) halloc hpriority
    rw [if_pos ⟨hlive, fun heq ↦ hne (congrArg some heq)⟩] at hinherit
    refine ⟨h.effect (.spawn halloc (Or.inr hstatus) hcore (.fork hcur hpriority)) fun e' heq ↦ ?_, ?_⟩
    · obtain rfl := Action.spawn.inj heq
      rw [setEnv_self, ← hinherit]
      exact h.ranged cur hid
    · obtain ⟨pgdir, memory, -, -, rfl⟩ := envAlloc_ok halloc
      rfl

theorem setEax_env (frame : Option EnvPtr) (r : ℤ) (e : EnvPtr) :
    ∃ tf, (k.setEax frame r).envs e = { k.envs e with envTf := tf } := by
  cases frame with
  | none => exact ⟨_, rfl⟩
  | some e' =>
    simp only [setEax, setTf, setEnv_envs]
    split
    · rename_i heq
      rw [heq]
      exact ⟨_, rfl⟩
    · exact ⟨_, rfl⟩

@[simp] theorem setEax_cpus {frame : Option EnvPtr} {r : ℤ} :
    (k.setEax frame r).cpus = k.cpus := by
  cases frame <;> rfl

theorem Ranked.setEax {r : ℤ} {frame : Option EnvPtr} (h : k.Ranked) :
    (k.setEax frame r).Ranked := by
  refine ⟨h.toNumbered.of_envs (fun e ↦ ?_) (fun e hlive ↦ ?_) (fun c e he ↦ Or.inr ⟨c, ?_⟩),
    fun c hc ↦ ?_, fun e he ↦ ?_⟩
  · obtain ⟨tf, henv⟩ := setEax_env (k := k) frame r e
    rw [henv]
  · obtain ⟨tf, henv⟩ := setEax_env (k := k) frame r e
    rw [henv] at hlive
    exact Or.inl hlive
  · rwa [curenv, setEax_cpus] at he
  · rw [setEax_cpus] at hc
    rw [curenv, setEax_cpus]
    exact h.idle c hc
  · obtain ⟨tf, henv⟩ := setEax_env (k := k) frame r e
    rw [henv] at he ⊢
    exact h.ranged e he

end Kernel

/-- The CPU of an event. -/
def Event.cpu : Event n → Fin n
  | .create c _ | .start c | .trap c _ _ _ | .store c _ _ => c

namespace Kernel

/-- A step that enters the kernel leaves it with all priorities in their range, and so does one that
does not enter it. -/
theorem Ranked.before_exit (h : k.Ranked) (hstep : k.Step s ev k') (hok : k.ForksAlive ev) :
    (∃ k₂ next mode, k₂.Ranked ∧ k₂.UserMode ev.cpu ∧ Exit s mode ev.cpu k₂ next k') ∨
      k'.Ranked ∧ (k'.cpus ev.cpu).cpuStatus ≠ .halted := by
  obtain ⟨acts, next, hsection⟩ := hstep.section
  cases hsection with
  | create boot linked run =>
    rename_i c binary
    let inv : Kernel n → Prop := fun k₁ ↦ k₁.Ranked ∧ k₁.cpus = k.cpus
    have hinv : inv k' := by
      refine run.invariant ?_ ⟨h, rfl⟩
      rintro k₁ a k₂ ⟨hk₁, hcpus⟩ ⟨heffect, hboots⟩
      refine ⟨hk₁.effect heffect fun e heq ↦ ?_, (Boots.cpus hboots heffect).trans hcpus⟩
      subst heq
      cases heffect with
      | spawn alloc status same origin =>
        rw [setEnv_self]
        cases origin with
        | create first =>
          rw [first]
          exact Ranged.one
        | fork current =>
          rw [hk₁.idle c (by rw [hcpus]; exact boot c)] at current
          cases current
    refine Or.inr ⟨hinv.1, ?_⟩
    rw [hinv.2, boot]
    simp
  | store mode =>
    refine Or.inr ⟨⟨⟨h.unused, h.slot, h.current⟩, h.idle, h.ranged⟩, ?_⟩
    rw [UserMode] at mode
    simp [Event.cpu, mode]
  | inside enters run loses exit =>
    rename_i c call k₁ k₂ k₃
    by_cases hfork : ∃ a ∈ call, a.no = .exofork
    · obtain ⟨a, rfl, hno⟩ := hfork
      obtain ⟨tf, faultVa, inp, rfl, -⟩ := enters.of_call
      obtain ⟨cur, no, control, k₃, hcur, -, -, hofWord, hcall, hreturn⟩ := hstep.of_call enters
      unfold Kernel.syscall at hcall
      simp only [hofWord, hno] at hcall
      obtain ⟨⟨r, k₄⟩, hexofork, hcall⟩ := bind_ok.mp hcall
      obtain ⟨rfl, rfl⟩ := Prod.mk.inj (pure_ok.mp hcall)
      obtain ⟨hranked, hcpus⟩ := (h.enters enters).fork hexofork fun cur' hcur' ↦
        hok c k₁ a cur' enters hno hcur'
      obtain ⟨next, hexit⟩ := trapReturn_exit True hreturn
      refine Or.inl ⟨_, next, True, hranked.setEax, ?_, hexit⟩
      rw [UserMode, setEax_cpus, hcpus]
      exact enters.userMode
    · have hcpu : ev.cpu = c := by cases enters <;> rfl
      rw [hcpu]
      have hk₂ := (h.enters enters).actions run fun e hspawn ↦ hfork hspawn
      refine Or.inl ⟨k₃, next, _, hk₂.loses loses, ?_, exit⟩
      exact loses.userMode (Actions.userMode run enters.userMode)

theorem Ranked.step (h : k.Ranked) (hstep : k.Step s ev k') (hok : k.ForksAlive ev) : k'.Ranked := by
  rcases h.before_exit hstep hok with ⟨k₂, next, mode, hk₂, hmode, hexit⟩ | ⟨hk', -⟩
  · exact hk₂.exit hexit hmode
  · exact hk'

/-- A CPU that the kernel leaves halted has overlooked no runnable environment. -/
theorem Ranked.halted (h : k.Ranked) (hstep : k.Step .pr ev k') (hok : k.ForksAlive ev)
    (hhalted : (k'.cpus ev.cpu).cpuStatus = .halted) : (k'.envs e).envStatus ≠ .runnable := by
  rcases h.before_exit hstep hok with ⟨k₂, next, mode, hk₂, hmode, hexit⟩ | ⟨-, hnot⟩
  · intro hrunnable
    rw [hexit.cpuStatus hmode] at hhalted
    cases hexit with
    | resume => cases hhalted
    | yield call =>
      obtain ⟨e', hselect, rfl⟩ | ⟨hselect, hhalt⟩ := schedYield_cases call
      · rw [hselect, if_neg (by simp)] at hhalted
        cases hhalted
      · rw [schedHalt_ok hhalt] at hrunnable
        obtain ⟨e', hchosen, -⟩ := hk₂.graded.servesLeast ev.cpu ⟨e, hrunnable⟩
        have hnone : k₂.schedPr ev.cpu = none := hselect
        rw [hchosen] at hnone
        cases hnone
  · exact absurd hhalted hnot

/-- The child of an environment that has been freed gets the priority -1. -/
theorem Ranked.not_graded (h : k.Ranked) (hstep : k.Step s ev k') (hdead : ¬ k.ForksAlive ev) :
    ¬ k'.Graded := by
  unfold ForksAlive at hdead
  push Not at hdead
  obtain ⟨c, k₁, call, cur, henters, hno, hcur, hlist, hpages, hdead⟩ := hdead
  obtain ⟨tf, faultVa, inp, rfl, -⟩ := henters.of_call
  obtain ⟨_, no, control, k₃, -, -, -, hofWord, hcall, hreturn⟩ := hstep.of_call henters
  unfold Kernel.syscall at hcall
  simp only [hofWord, hno] at hcall
  obtain ⟨⟨r, k₄⟩, hexofork, hcall⟩ := bind_ok.mp hcall
  obtain ⟨rfl, rfl⟩ := Prod.mk.inj (pure_ok.mp hcall)
  obtain ⟨-, hfull⟩ | ⟨e, cur', k₂, env, hcur', halloc, hstatus, -, hpriority, rfl⟩ :=
    sysExofork_ok hexofork
  · rcases hfull with hnone | hnone
    · exact absurd hnone hlist
    · exact absurd hnone hpages
  · obtain rfl : cur = cur' := by simpa [hcur] using hcur'
    have hk₁ := h.enters henters
    have hid := hk₁.current c cur hcur
    have hinherit := inherit_priority hid (hk₁.slot cur hid) halloc hpriority
    rw [if_neg] at hinherit
    · obtain ⟨next, hexit⟩ := trapReturn_exit True hreturn
      obtain ⟨tf', heax⟩ := setEax_env (k := k₂.setEnv e env) (some _) r e
      obtain ⟨status, runs, cpunum, henv, hchange⟩ := hexit.env e
      intro hgraded
      have hranged := hgraded e
      rw [henv, heax, setEnv_self] at hranged
      rw [heax, setEnv_self] at hchange
      have hbad : Ranged env.priority := by
        refine hranged ?_
        rcases hchange with rfl | ⟨rfl, -⟩ | ⟨rfl, -⟩
        · simp [hstatus]
        · simp
        · simp
      rw [← hinherit] at hbad
      exact absurd hbad (by decide)
    · rintro ⟨hlive, hne⟩
      have hhead := (envAlloc_needs halloc).1
      rw [hdead hlive] at hhead
      exact hne (Option.some.inj hhead).symm

theorem Booted.ranked {free : List Ppn} (h : k.Booted free) : k.Ranked := by
  refine ⟨h.numbered, fun c _ ↦ by rw [curenv, h.cpus c], fun e he ↦ ?_⟩
  obtain ⟨k₀, -, rfl⟩ := h.table
  exact absurd rfl he

end Kernel

/-- In a run of the scheduler by priorities, whatever the number of CPUs, all environments that are not
free have a priority between 1 and `MAX_PRIORITY` in every state, and no runnable environment is
overlooked, if and only if no environment calls `sys_exofork` after it has been freed. -/
theorem priorities_in_range_iff {free : List Ppn} {evs : List (Event n)} (hboot : k₀.Booted free)
    (hrun : Run (Kernel.Step .pr) k₀ evs k) :
    ((∀ evs₁ k₁, evs₁ <+: evs → Run (Kernel.Step .pr) k₀ evs₁ k₁ →
        k₁.Graded ∧ ∀ c, k₁.ServesLeast c) ∧
      ∀ evs₁ ev k₁ k₂, evs₁ ++ [ev] <+: evs → Run (Kernel.Step .pr) k₀ evs₁ k₁ →
        k₁.Step .pr ev k₂ → (k₂.cpus ev.cpu).cpuStatus = .halted →
        ∀ e, (k₂.envs e).envStatus ≠ .runnable) ↔
    ∀ evs₁ ev k₁, evs₁ ++ [ev] <+: evs → Run (Kernel.Step .pr) k₀ evs₁ k₁ → k₁.ForksAlive ev := by
  constructor
  · rintro ⟨hgraded, -⟩ evs₁ ev k₁ hpre hrun₁
    have hranked : k₁.Ranked := by
      refine Run.along hboot.ranked (fun evs₂ ev a b hpre₂ hrun₂ ha hstep ↦ ?_)
        ((List.prefix_append evs₁ [ev]).trans hpre) hrun₁
      refine ha.step hstep (by_contra fun hdead ↦ ha.not_graded hstep hdead ?_)
      exact (hgraded _ b hpre₂ (hrun₂.append (.single hstep))).1
    obtain ⟨rest, rfl⟩ := hpre
    obtain ⟨k₂, hrun₂, -⟩ := hrun.split
    obtain ⟨k₁', hrun₁', hlast⟩ := hrun₂.split
    obtain rfl := Run.unique Kernel.Step.deterministic hrun₁' hrun₁
    cases hlast with
    | cons hstep hnil =>
      cases hnil
      by_contra hdead
      exact hranked.not_graded hstep hdead (hgraded _ k₂ (List.prefix_append _ _) hrun₂).1
  · intro hok
    have hranked : ∀ evs₁ k₁, evs₁ <+: evs → Run (Kernel.Step .pr) k₀ evs₁ k₁ → k₁.Ranked := by
      intro evs₁ k₁ hpre hrun₁
      refine Run.along hboot.ranked (fun evs₂ ev a b hpre₂ hrun₂ ha hstep ↦ ?_) hpre hrun₁
      exact ha.step hstep (hok evs₂ ev a hpre₂ hrun₂)
    refine ⟨fun evs₁ k₁ hpre hrun₁ ↦ ?_, fun evs₁ ev k₁ k₂ hpre hrun₁ hstep hhalted e ↦ ?_⟩
    · have hk₁ := (hranked evs₁ k₁ hpre hrun₁).graded
      exact ⟨hk₁, hk₁.servesLeast⟩
    · have hk₁ := hranked evs₁ k₁ ((List.prefix_append evs₁ [ev]).trans hpre) hrun₁
      exact hk₁.halted hstep (hok evs₁ ev k₁ hpre hrun₁) hhalted

/-- Two environments, of which one forks. -/
def forkEvents : List (Event 2) :=
  [.create 0 smallBinary, .create 0 smallBinary, .start 0, .start 1, .call 0 7 0 0 0 0 0]

theorem priorities_in_range_fork : ∃ k, Run (Kernel.Step .pr) (smallKernel 2 12) forkEvents k ∧
    (((∀ evs₁ k₁, evs₁ <+: forkEvents → Run (Kernel.Step .pr) (smallKernel 2 12) evs₁ k₁ →
        k₁.Graded ∧ ∀ c, k₁.ServesLeast c) ∧
      ∀ evs₁ ev k₁ k₂, evs₁ ++ [ev] <+: forkEvents →
        Run (Kernel.Step .pr) (smallKernel 2 12) evs₁ k₁ → k₁.Step .pr ev k₂ →
        (k₂.cpus ev.cpu).cpuStatus = .halted → ∀ e, (k₂.envs e).envStatus ≠ .runnable) ↔
    ∀ evs₁ ev k₁, evs₁ ++ [ev] <+: forkEvents →
      Run (Kernel.Step .pr) (smallKernel 2 12) evs₁ k₁ → k₁.ForksAlive ev) := by
  have hresult : ((smallKernel 2 12).after .pr forkEvents).isSome = true := by decide +kernel
  obtain ⟨k, hk⟩ := Option.isSome_iff_exists.mp hresult
  have hrun := Kernel.run_of_after hk
  exact ⟨k, hrun, priorities_in_range_iff (smallKernel_booted 2 12 (by decide)) hrun⟩

/-- A child that runs on another CPU is destroyed twice, and then it forks: its own child has the
priority -1. -/
theorem priority_after_double_destroy :
    (smallKernel 2 12).Booted (smallFree 12) ∧
    ∃ k, Run (Kernel.Step .pr) (smallKernel 2 12) [.create 0 smallBinary, .start 0, .start 1,
        .call 0 7 0 0 0 0 0, .call 0 8 0x1001 2 0 0 0, .timer 1 gdKt, .call 0 3 0x1001 0 0 0 0,
        .call 0 3 0x1001 0 0 0 0, .call 1 7 0 0 0 0 0] k ∧
      (k.envs 1).envStatus = .notRunnable ∧ (k.envs 1).priority = -1 := by
  refine ⟨smallKernel_booted 2 12 (by decide), ?_⟩
  have hresult : (((smallKernel 2 12).after .pr [.create 0 smallBinary, .start 0, .start 1,
      .call 0 7 0 0 0 0 0, .call 0 8 0x1001 2 0 0 0, .timer 1 gdKt, .call 0 3 0x1001 0 0 0 0,
      .call 0 3 0x1001 0 0 0 0, .call 1 7 0 0 0 0 0]).any fun k ↦
      (k.envs 1).envStatus = EnvStatus.notRunnable ∧ (k.envs 1).priority = -1) = true := by
    decide +kernel
  obtain ⟨k, hk, hcheck⟩ := (Option.any_eq_true _ _).mp hresult
  rw [decide_eq_true_eq] at hcheck
  exact ⟨k, Kernel.run_of_after hk, hcheck⟩

end SistemasOperativos.Jos
