import SistemasOperativos.Jos.Priorities

/-!
# Who may improve a priority

`sys_inc_priority` is meant to refuse the caller itself and its parent. The test of the source reads
the parent relation the other way round, so that it refuses the children of the caller. What the call
does is compared with the rule, target by target, and over runs with what the other system calls do:
none of them improves a priority.
-/

namespace SistemasOperativos.Jos

open Library Library.Except

variable {n : ℕ} {s : Scheduler} {c : Fin n} {k k₁ k₂ k' : Kernel n} {e cur : EnvPtr}

namespace Kernel

/-! ## One call -/

/-- The environment in the slot `e` is the parent of the one in the slot `cur`. -/
def IsParent (k : Kernel n) (e cur : EnvPtr) : Prop := (k.envs e).envId = (k.envs cur).envParentId

/-- The relation that the source tests instead. -/
def IsChild (k : Kernel n) (e cur : EnvPtr) : Prop := (k.envs e).envParentId = (k.envs cur).envId

instance (k : Kernel n) (e cur : EnvPtr) : Decidable (k.IsParent e cur) :=
  inferInstanceAs (Decidable (_ = _))

instance (k : Kernel n) (e cur : EnvPtr) : Decidable (k.IsChild e cur) :=
  inferInstanceAs (Decidable (_ = _))

/-- What the call should do: a target that does not exist, that is the caller `cur` or its parent is
refused, and any other priority is improved by one, stopping at 1. -/
def incPriorityRule (k : Kernel n) (c : Fin n) (cur : EnvPtr) (envid : Word) :
    Except Fault (ℤ × Kernel n) := do
  match ← k.envid2env c envid false with
  | none => return (-1, k)
  | some e =>
    if e = cur ∨ k.IsParent e cur then return (-1, k)
    let env := k.envs e
    if 1 < env.priority then return (0, k.setEnv e { env with priority := env.priority - 1 })
    return (0, k)

/-- The target is one for which the source meets the rule: none, the caller, or an environment that is
both parent and child of the caller or neither of them. In the last case its priority is not out of
range below. -/
def Judged (k : Kernel n) (c : Fin n) (cur : EnvPtr) (envid : Word) : Prop :=
  ∀ e, k.envid2env c envid false = .ok (some e) → e ≠ cur →
    (k.IsParent e cur ↔ k.IsChild e cur) ∧ (¬ k.IsParent e cur → 1 ≤ (k.envs e).priority)

theorem envid2env_returns (k : Kernel n) (c : Fin n) (envid : Word) :
    ∃ found, k.envid2env c envid false = .ok found := by
  unfold envid2env
  split
  · exact ⟨_, rfl⟩
  · simp only [Bool.false_eq_true, false_and, if_false]
    split
    · exact ⟨none, rfl⟩
    · exact ⟨_, rfl⟩

theorem sysIncPriority_of_none {envid : Word} (h : k.envid2env c envid false = .ok none) :
    k.sysIncPriority c envid = .ok (-1, k) := by
  unfold sysIncPriority
  rw [h]
  rfl

/-- The call on a target: the one it refuses is the caller or a child of the caller. -/
theorem sysIncPriority_of_some {envid : Word} (hcur : k.curenv c = some cur)
    (h : k.envid2env c envid false = .ok (some e)) :
    k.sysIncPriority c envid =
      if e = cur ∨ k.IsChild e cur then .ok (-1, k)
      else if (k.envs e).priority ≠ 1 then
        .ok (0, k.setEnv e { k.envs e with priority := (k.envs e).priority - 1 })
      else .ok (0, k) := by
  unfold sysIncPriority
  rw [h]
  simp only [theCurenv, hcur, bind, Except.bind, IsChild]
  rfl

theorem incPriorityRule_of_some {envid : Word} (h : k.envid2env c envid false = .ok (some e)) :
    k.incPriorityRule c cur envid =
      if e = cur ∨ k.IsParent e cur then .ok (-1, k)
      else if 1 < (k.envs e).priority then
        .ok (0, k.setEnv e { k.envs e with priority := (k.envs e).priority - 1 })
      else .ok (0, k) := by
  unfold incPriorityRule
  rw [h]
  rfl

theorem setEnv_priority_ne {priority : ℤ} (h : priority ≠ (k.envs e).priority) :
    k.setEnv e { k.envs e with priority } ≠ k := by
  intro heq
  have hself : (k.setEnv e { k.envs e with priority }).envs e = k.envs e := by rw [heq]
  rw [setEnv_self] at hself
  exact h (congrArg Env.priority hself)

/-- A target other than the caller: the source and the rule refuse different relatives. -/
theorem incPriority_of_some {envid : Word} (hcur : k.curenv c = some cur)
    (h : k.envid2env c envid false = .ok (some e)) (hne : e ≠ cur) :
    k.sysIncPriority c envid = k.incPriorityRule c cur envid ↔
      (k.IsParent e cur ↔ k.IsChild e cur) ∧
        (¬ k.IsParent e cur → 1 ≤ (k.envs e).priority) := by
  rw [sysIncPriority_of_some hcur h, incPriorityRule_of_some h]
  simp only [hne, false_or]
  by_cases hchild : k.IsChild e cur
  · by_cases hparent : k.IsParent e cur
    · simp [hchild, hparent]
    · rw [if_pos hchild, if_neg hparent]
      refine iff_of_false ?_ fun h ↦ hparent (h.1.mpr hchild)
      split
      · intro heq
        cases congrArg Prod.fst (Except.ok.inj heq)
      · intro heq
        cases congrArg Prod.fst (Except.ok.inj heq)
  · rw [if_neg hchild]
    by_cases hparent : k.IsParent e cur
    · rw [if_pos hparent]
      refine iff_of_false ?_ fun h ↦ hchild (h.1.mp hparent)
      split
      · intro heq
        cases congrArg Prod.fst (Except.ok.inj heq)
      · intro heq
        cases congrArg Prod.fst (Except.ok.inj heq)
    · rw [if_neg hparent]
      by_cases hlow : 1 ≤ (k.envs e).priority
      · have hsame : (k.envs e).priority ≠ 1 ↔ 1 < (k.envs e).priority := by omega
        simp [hchild, hparent, hlow, hsame]
      · rw [if_pos (by omega), if_neg (by omega)]
        refine iff_of_false ?_ fun h ↦ hlow (h.2 hparent)
        intro heq
        have hkernel := congrArg Prod.snd (Except.ok.inj heq)
        exact setEnv_priority_ne (by omega) hkernel

theorem sysIncPriority_eq_rule_iff (hcur : k.curenv c = some cur) (envid : Word) :
    k.sysIncPriority c envid = k.incPriorityRule c cur envid ↔ k.Judged c cur envid := by
  obtain ⟨found, hfound⟩ := envid2env_returns k c envid
  cases found with
  | none =>
    refine iff_of_true ?_ fun e he ↦ ?_
    · rw [sysIncPriority_of_none hfound]
      unfold incPriorityRule
      rw [hfound]
      rfl
    · rw [hfound] at he
      cases he
  | some e =>
    by_cases hne : e = cur
    · refine iff_of_true ?_ fun e' he' hne' ↦ ?_
      · rw [sysIncPriority_of_some hcur hfound, incPriorityRule_of_some hfound, if_pos (.inl hne),
          if_pos (.inl hne)]
      · rw [hfound] at he'
        cases he'
        exact absurd hne hne'
    · rw [incPriority_of_some hcur hfound hne]
      constructor
      · intro h e' he' _
        rw [hfound] at he'
        cases he'
        exact h
      · intro h
        exact h e hfound hne

/-! ## The other calls -/

/-- What identifies the environment in each slot, and its priority. -/
def standing (k : Kernel n) (e : EnvPtr) : Word × ℤ := ((k.envs e).envId, (k.envs e).priority)

section Standing

variable {env : Env} {r : ℤ}

theorem standing_of_envs (h : k'.envs = k.envs) : k'.standing = k.standing := by
  funext e
  rw [standing, standing, h]

theorem setEnv_standing (hid : env.envId = (k.envs e).envId)
    (hpriority : env.priority = (k.envs e).priority) : (k.setEnv e env).standing = k.standing := by
  funext e'
  rw [standing, standing, setEnv_envs]
  by_cases he : e' = e
  · rw [if_pos he, hid, hpriority, he]
  · rw [if_neg he]

theorem setEnv_standing_of (h : k₁.standing = k.standing) (hid : env.envId = (k₁.envs e).envId)
    (hpriority : env.priority = (k₁.envs e).priority) :
    (k₁.setEnv e env).standing = k.standing := by
  rw [setEnv_standing hid hpriority, h]

theorem Exit.standing {mode : Prop} {next : Option EnvPtr} (h : Exit s mode c k next k') :
    k'.standing = k.standing := by
  funext e
  obtain ⟨status, runs, cpunum, henv, -⟩ := h.env e
  rw [Kernel.standing, Kernel.standing, henv]

theorem schedYield_standing (h : k.schedYield s c = .ok k') : k'.standing = k.standing :=
  Exit.standing (.yield h : Exit s True c k _ k')

theorem setEax_standing (frame : Option EnvPtr) (r : ℤ) :
    (k.setEax frame r).standing = k.standing := by
  funext e
  obtain ⟨tf, henv⟩ := setEax_env (k := k) frame r e
  rw [standing, standing, henv]

theorem Enters.standing {ev : Event n} {call : Option Call} (h : k.Enters ev c k₁ call) :
    k₁.standing = k.standing := by
  funext e
  obtain ⟨tf, henv⟩ := h.env e
  rw [Kernel.standing, Kernel.standing, henv]

theorem envFree_standing (h : k.envFree c e = .ok k') : k'.standing = k.standing := by
  funext e'
  by_cases he : e' = e
  · rw [standing, standing, he, envFree_self h]
  · rw [standing, standing, envFree_of_ne h he]

theorem envDestroy_standing {res : Control Unit × Kernel n} (h : k.envDestroy s c e = .ok res) :
    res.2.standing = k.standing := by
  unfold envDestroy at h
  split at h
  · obtain rfl := pure_ok.mp h
    exact setEnv_standing rfl rfl
  · obtain ⟨k₁, hfree, h⟩ := bind_ok.mp h
    split at h
    · obtain ⟨k₂, hyield, h⟩ := bind_ok.mp h
      obtain rfl := pure_ok.mp h
      calc k₂.standing = (k₁.setCurenv c none).standing := schedYield_standing hyield
        _ = k₁.standing := standing_of_envs rfl
        _ = k.standing := envFree_standing hfree
    · obtain rfl := pure_ok.mp h
      exact envFree_standing hfree

theorem userMemAssert_standing {va len perm : Word} {res : Control Unit × Kernel n}
    (h : k.userMemAssert s c e va len perm = .ok res) : res.2.standing = k.standing := by
  obtain ⟨r₀, -, ⟨-, hdestroy⟩ | ⟨-, rfl⟩⟩ := userMemAssert_ok h
  · exact envDestroy_standing hdestroy
  · rfl

theorem envPageAlloc_standing {va perm : Word} (h : k.envPageAlloc e va perm = .ok (r, k')) :
    k'.standing = k.standing := by
  obtain ⟨memory, rfl⟩ := envPageAlloc_memory h
  exact standing_of_envs rfl

theorem envPageMap_standing {src dst : EnvPtr} {srcva dstva perm : Word}
    (h : k.envPageMap src srcva dst dstva perm = .ok (r, k')) : k'.standing = k.standing := by
  obtain ⟨memory, rfl⟩ := envPageMap_memory h
  exact standing_of_envs rfl

theorem ipcSendPage_standing {inp : Input} {dst : EnvPtr} {srcva perm : Word}
    (h : k.ipcSendPage inp cur dst srcva perm = .ok (r, k')) : k'.standing = k.standing := by
  unfold ipcSendPage at h
  split at h
  · obtain ⟨-, rfl⟩ := Prod.mk.inj (pure_ok.mp h)
    rfl
  obtain ⟨srcpte, -, h⟩ := bind_ok.mp h
  split at h
  · obtain ⟨-, rfl⟩ := Prod.mk.inj (pure_ok.mp h)
    rfl
  split at h
  · obtain ⟨-, rfl⟩ := Prod.mk.inj (pure_ok.mp h)
    rfl
  simp only at h
  split at h
  · obtain ⟨-, rfl⟩ := Prod.mk.inj (pure_ok.mp h)
    rfl
  obtain ⟨⟨r₁, k₁⟩, halloc, h⟩ := bind_ok.mp h
  simp only at h
  split at h
  · obtain ⟨-, rfl⟩ := Prod.mk.inj (pure_ok.mp h)
    exact envPageAlloc_standing halloc
  obtain ⟨⟨r₂, k₂⟩, hmap, h⟩ := bind_ok.mp h
  simp only at h
  have hboth : k₂.standing = k.standing :=
    (envPageMap_standing hmap).trans (envPageAlloc_standing halloc)
  split at h
  · obtain ⟨-, rfl⟩ := Prod.mk.inj (pure_ok.mp h)
    exact hboth
  · obtain ⟨-, rfl⟩ := Prod.mk.inj (pure_ok.mp h)
    exact setEnv_standing_of hboth rfl rfl

/-- The system calls that leave ids and priorities alone. -/
theorem sysIpcTrySend_standing {inp : Input} {envid value srcva perm : Word}
    (h : k.sysIpcTrySend c inp envid value srcva perm = .ok (r, k')) :
    k'.standing = k.standing := by
  unfold sysIpcTrySend at h
  obtain ⟨found, -, h⟩ := bind_ok.mp h
  cases found with
  | none =>
    obtain ⟨-, rfl⟩ := Prod.mk.inj (pure_ok.mp h)
    rfl
  | some dst =>
    simp only at h
    split at h
    · obtain ⟨-, rfl⟩ := Prod.mk.inj (pure_ok.mp h)
      rfl
    obtain ⟨cur, -, h⟩ := bind_ok.mp h
    split at h
    · obtain ⟨-, rfl⟩ := Prod.mk.inj (pure_ok.mp h)
      exact setEnv_standing_of (setEnv_standing rfl rfl) rfl rfl
    · obtain ⟨⟨r₁, k₁⟩, hsend, h⟩ := bind_ok.mp h
      simp only at h
      split at h
      · obtain ⟨-, rfl⟩ := Prod.mk.inj (pure_ok.mp h)
        exact ipcSendPage_standing hsend
      · obtain ⟨-, rfl⟩ := Prod.mk.inj (pure_ok.mp h)
        exact setEnv_standing_of (ipcSendPage_standing hsend) rfl rfl

theorem sysIpcRecv_standing {dstva : Word} {res : Control ℤ × Kernel n}
    (h : k.sysIpcRecv s c dstva = .ok res) : res.2.standing = k.standing := by
  unfold sysIpcRecv at h
  obtain ⟨cur, -, h⟩ := bind_ok.mp h
  simp only at h
  split at h
  · obtain rfl := pure_ok.mp h
    exact setEnv_standing rfl rfl
  · obtain ⟨k₂, hyield, h⟩ := bind_ok.mp h
    obtain rfl := pure_ok.mp h
    calc k₂.standing = _ := schedYield_standing hyield
      _ = k.standing := setEnv_standing_of (setEnv_standing rfl rfl) rfl rfl

theorem sysCputs_standing {va len : Word} {res : Control ℤ × Kernel n}
    (h : k.sysCputs s c va len = .ok res) : res.2.standing = k.standing := by
  unfold sysCputs at h
  obtain ⟨cur, -, h⟩ := bind_ok.mp h
  obtain ⟨⟨control, k₁⟩, hassert, h⟩ := bind_ok.mp h
  cases control with
  | leaves =>
    obtain rfl := pure_ok.mp h
    exact userMemAssert_standing hassert
  | returns _ =>
    obtain rfl := pure_ok.mp h
    exact userMemAssert_standing hassert

theorem sysEnvDestroy_standing {envid : Word} {res : Control ℤ × Kernel n}
    (h : k.sysEnvDestroy s c envid = .ok res) : res.2.standing = k.standing := by
  unfold sysEnvDestroy at h
  obtain ⟨found, -, h⟩ := bind_ok.mp h
  cases found with
  | none =>
    obtain rfl := pure_ok.mp h
    rfl
  | some e =>
    obtain ⟨⟨control, k₁⟩, hdestroy, h⟩ := bind_ok.mp h
    cases control with
    | leaves =>
      obtain rfl := pure_ok.mp h
      exact envDestroy_standing hdestroy
    | returns _ =>
      obtain rfl := pure_ok.mp h
      exact envDestroy_standing hdestroy

theorem sysEnvSetPgfaultUpcall_standing {envid func : Word} {res : Control ℤ × Kernel n}
    (h : k.sysEnvSetPgfaultUpcall s c envid func = .ok res) : res.2.standing = k.standing := by
  unfold sysEnvSetPgfaultUpcall at h
  obtain ⟨found, -, h⟩ := bind_ok.mp h
  cases found with
  | none =>
    obtain rfl := pure_ok.mp h
    rfl
  | some e =>
    obtain ⟨⟨control, k₁⟩, hassert, h⟩ := bind_ok.mp h
    cases control with
    | leaves =>
      obtain rfl := pure_ok.mp h
      exact userMemAssert_standing hassert
    | returns _ =>
      obtain rfl := pure_ok.mp h
      exact setEnv_standing_of (userMemAssert_standing hassert) rfl rfl

theorem sysEnvSetStatus_standing {envid status : Word}
    (h : k.sysEnvSetStatus c envid status = .ok (r, k')) : k'.standing = k.standing := by
  unfold sysEnvSetStatus at h
  cases hstatus : settable status with
  | none =>
    rw [hstatus] at h
    obtain ⟨-, rfl⟩ := Prod.mk.inj (Except.ok.inj h)
    rfl
  | some status =>
    rw [hstatus] at h
    obtain ⟨found, -, h⟩ := bind_ok.mp h
    cases found with
    | none =>
      obtain ⟨-, rfl⟩ := Prod.mk.inj (pure_ok.mp h)
      rfl
    | some e =>
      obtain ⟨-, rfl⟩ := Prod.mk.inj (pure_ok.mp h)
      exact setEnv_standing rfl rfl

theorem sysPageAlloc_standing {envid va perm : Word}
    (h : k.sysPageAlloc c envid va perm = .ok (r, k')) : k'.standing = k.standing := by
  unfold sysPageAlloc at h
  split at h
  · obtain ⟨-, rfl⟩ := Prod.mk.inj (pure_ok.mp h)
    rfl
  obtain ⟨found, -, h⟩ := bind_ok.mp h
  cases found with
  | none =>
    obtain ⟨-, rfl⟩ := Prod.mk.inj (pure_ok.mp h)
    rfl
  | some e => exact envPageAlloc_standing h

theorem sysPageMap_standing {srcenvid srcva dstenvid dstva perm : Word}
    (h : k.sysPageMap c srcenvid srcva dstenvid dstva perm = .ok (r, k')) :
    k'.standing = k.standing := by
  unfold sysPageMap at h
  split at h
  · obtain ⟨-, rfl⟩ := Prod.mk.inj (pure_ok.mp h)
    rfl
  split at h
  · obtain ⟨-, rfl⟩ := Prod.mk.inj (pure_ok.mp h)
    rfl
  obtain ⟨found, -, h⟩ := bind_ok.mp h
  cases found with
  | none =>
    obtain ⟨-, rfl⟩ := Prod.mk.inj (pure_ok.mp h)
    rfl
  | some src =>
    obtain ⟨found', -, h⟩ := bind_ok.mp h
    cases found' with
    | none =>
      obtain ⟨-, rfl⟩ := Prod.mk.inj (pure_ok.mp h)
      rfl
    | some dst => exact envPageMap_standing h

theorem sysPageUnmap_standing {envid va : Word} (h : k.sysPageUnmap c envid va = .ok (r, k')) :
    k'.standing = k.standing := by
  unfold sysPageUnmap at h
  split at h
  · obtain ⟨-, rfl⟩ := Prod.mk.inj (pure_ok.mp h)
    rfl
  obtain ⟨found, -, h⟩ := bind_ok.mp h
  cases found with
  | none =>
    obtain ⟨-, rfl⟩ := Prod.mk.inj (pure_ok.mp h)
    rfl
  | some e =>
    obtain ⟨memory, -, h⟩ := bind_ok.mp h
    obtain ⟨-, rfl⟩ := Prod.mk.inj (pure_ok.mp h)
    exact standing_of_envs rfl

end Standing

/-! ## No improvement -/

/-- The environment in the slot `e` is still the same, and has a better priority than before. -/
def Improves (k k' : Kernel n) (e : EnvPtr) : Prop :=
  (k'.envs e).envId = (k.envs e).envId ∧ (k'.envs e).priority < (k.envs e).priority

theorem not_improves_of_standing (h : k'.standing = k.standing) : ¬ k.Improves k' e := by
  rintro ⟨-, hlt⟩
  have hpriority : (k'.envs e).priority = (k.envs e).priority := congrArg Prod.snd (congrFun h e)
  omega

theorem improves_congr (h : k₁.standing = k.standing) (h' : k'.standing = k₂.standing) :
    k.Improves k' e ↔ k₁.Improves k₂ e := by
  have hid : (k₁.envs e).envId = (k.envs e).envId := congrArg Prod.fst (congrFun h e)
  have hid' : (k'.envs e).envId = (k₂.envs e).envId := congrArg Prod.fst (congrFun h' e)
  have hpriority : (k₁.envs e).priority = (k.envs e).priority := congrArg Prod.snd (congrFun h e)
  have hpriority' : (k'.envs e).priority = (k₂.envs e).priority :=
    congrArg Prod.snd (congrFun h' e)
  rw [Improves, Improves, hid, hid', hpriority, hpriority']

/-- A fork gives a new id to the only slot whose priority it sets. -/
theorem sysExofork_not_improves {r : ℤ} (h : k.sysExofork c = .ok (r, k')) :
    ¬ k.Improves k' e := by
  obtain ⟨rfl, -⟩ | ⟨child, cur, k₁, env, -, halloc, -, hcore, -, rfl⟩ := sysExofork_ok h
  · exact not_improves_of_standing rfl
  · obtain ⟨pgdir, memory, -, -, hk₁⟩ := envAlloc_ok halloc
    rintro ⟨hid, hlt⟩
    by_cases he : e = child
    · subst he
      have henv : env.envId = (k₁.envs e).envId := by
        have hsame := Env.eq_of_core Env.envId (fun _ ↦ rfl) hcore
        exact hsame
      rw [setEnv_self, henv, hk₁, setEnv_self] at hid
      exact nextEnvId_ne e _ hid
    · rw [setEnv_of_ne he, hk₁, setEnv_of_ne he] at hlt
      exact Int.lt_irrefl _ hlt

theorem sysRedPriority_not_improves {r : ℤ} {envid : Word}
    (h : k.sysRedPriority c envid = .ok (r, k')) : ¬ k.Improves k' e := by
  unfold sysRedPriority at h
  obtain ⟨found, -, h⟩ := bind_ok.mp h
  cases found with
  | none =>
    obtain ⟨-, rfl⟩ := Prod.mk.inj (pure_ok.mp h)
    exact not_improves_of_standing rfl
  | some target =>
    simp only at h
    split at h
    · obtain ⟨-, rfl⟩ := Prod.mk.inj (pure_ok.mp h)
      rintro ⟨-, hlt⟩
      rw [setEnv_envs] at hlt
      split at hlt
      · rename_i he
        rw [he] at hlt
        simp only at hlt
        omega
      · exact Int.lt_irrefl _ hlt
    · obtain ⟨-, rfl⟩ := Prod.mk.inj (pure_ok.mp h)
      exact not_improves_of_standing rfl

/-- Apart from `sys_inc_priority`, no system call improves a priority. -/
theorem syscall_not_improves {inp : Input} {no : Word} {call : Sysno} {a1 a2 a3 a4 a5 : Word}
    {res : Control ℤ × Kernel n} (hno : Sysno.ofWord no = some call) (hinc : call ≠ .incPriority)
    (h : k.syscall s c inp no a1 a2 a3 a4 a5 = .ok res) : ¬ k.Improves res.2 e := by
  have hreads : ∀ {x : Except Fault ℤ}, returning ((·, k) <$> x) = .ok res →
      ¬ k.Improves res.2 e := by
    intro x hx
    obtain ⟨r, -, hr⟩ := returning_ok hx
    obtain ⟨a, -, heq⟩ := map_ok.mp hr
    exact not_improves_of_standing (by rw [← congrArg Prod.snd heq])
  unfold syscall at h
  rw [hno] at h
  cases call with
  | cputs => exact not_improves_of_standing (sysCputs_standing h)
  | cgetc =>
    obtain rfl := Except.ok.inj h
    exact not_improves_of_standing rfl
  | getenvid => exact hreads h
  | envDestroy => exact not_improves_of_standing (sysEnvDestroy_standing h)
  | pageAlloc =>
    obtain ⟨r, -, hr⟩ := returning_ok h
    exact not_improves_of_standing (sysPageAlloc_standing hr)
  | pageMap =>
    obtain ⟨r, -, hr⟩ := returning_ok h
    exact not_improves_of_standing (sysPageMap_standing hr)
  | pageUnmap =>
    obtain ⟨r, -, hr⟩ := returning_ok h
    exact not_improves_of_standing (sysPageUnmap_standing hr)
  | exofork =>
    obtain ⟨r, -, hr⟩ := returning_ok h
    exact sysExofork_not_improves hr
  | envSetStatus =>
    obtain ⟨r, -, hr⟩ := returning_ok h
    exact not_improves_of_standing (sysEnvSetStatus_standing hr)
  | envSetPgfaultUpcall => exact not_improves_of_standing (sysEnvSetPgfaultUpcall_standing h)
  | yield =>
    obtain ⟨k₁, hyield, rfl⟩ := map_ok.mp h
    exact not_improves_of_standing (schedYield_standing hyield)
  | ipcTrySend =>
    obtain ⟨r, -, hr⟩ := returning_ok h
    exact not_improves_of_standing (sysIpcTrySend_standing hr)
  | ipcRecv => exact not_improves_of_standing (sysIpcRecv_standing h)
  | incPriority => exact absurd rfl hinc
  | redPriority =>
    obtain ⟨r, -, hr⟩ := returning_ok h
    exact sysRedPriority_not_improves hr
  | getPriority => exact hreads h

/-- The call improves its target, and only where the source neither refuses it nor finds it at 1. -/
theorem sysIncPriority_improves_iff {r : ℤ} {envid : Word} (hcur : k.curenv c = some cur)
    (h : k.sysIncPriority c envid = .ok (r, k')) :
    k.Improves k' e ↔ k.envid2env c envid false = .ok (some e) ∧ e ≠ cur ∧ ¬ k.IsChild e cur ∧
      (k.envs e).priority ≠ 1 := by
  obtain ⟨found, hfound⟩ := envid2env_returns k c envid
  cases found with
  | none =>
    rw [sysIncPriority_of_none hfound] at h
    obtain ⟨-, rfl⟩ := Prod.mk.inj (Except.ok.inj h)
    rw [hfound]
    exact iff_of_false (not_improves_of_standing rfl) nofun
  | some target =>
    rw [sysIncPriority_of_some hcur hfound] at h
    rw [hfound]
    split at h
    · rename_i hrefused
      obtain ⟨-, rfl⟩ := Prod.mk.inj (Except.ok.inj h)
      refine iff_of_false (not_improves_of_standing rfl) ?_
      rintro ⟨htarget, hne, hchild, -⟩
      cases htarget
      exact hrefused.elim hne hchild
    rename_i hgranted
    split at h
    · rename_i hhigh
      obtain ⟨-, rfl⟩ := Prod.mk.inj (Except.ok.inj h)
      by_cases he : e = target
      · subst he
        have hbetter : k.Improves
            (k.setEnv e { k.envs e with priority := (k.envs e).priority - 1 }) e := by
          rw [Improves, setEnv_self]
          exact ⟨rfl, Int.sub_lt_self _ Int.one_pos⟩
        refine iff_of_true hbetter ?_
        exact ⟨rfl, fun hcur ↦ hgranted (.inl hcur), fun hchild ↦ hgranted (.inr hchild), hhigh⟩
      · refine iff_of_false ?_ ?_
        · rintro ⟨-, hlt⟩
          rw [setEnv_of_ne he] at hlt
          exact Int.lt_irrefl _ hlt
        · rintro ⟨htarget, -⟩
          cases htarget
          exact he rfl
    · rename_i hone
      obtain ⟨-, rfl⟩ := Prod.mk.inj (Except.ok.inj h)
      refine iff_of_false (not_improves_of_standing rfl) ?_
      rintro ⟨htarget, -, -, hhigh⟩
      cases htarget
      exact hone hhigh

/-! ## Runs -/

/-- A step in which no system call improves the priority of the environment that makes it, or of the
parent of that environment. -/
def Modest (k : Kernel n) (ev : Event n) (k' : Kernel n) : Prop :=
  ∀ c k₁ call cur e, k.Enters ev c k₁ (some call) → k.curenv c = some cur →
    e = cur ∨ k.IsParent e cur → ¬ k.Improves k' e

/-- Where the target of `sys_inc_priority` is the parent of the caller, it is a child of the caller as
well, or has the best priority already. -/
def SparesParent (k : Kernel n) (ev : Event n) : Prop :=
  ∀ c k₁ call cur e, k.Enters ev c k₁ (some call) → call.no = .incPriority →
    k₁.curenv c = some cur → k₁.envid2env c call.a1 false = .ok (some e) → e ≠ cur →
    k₁.IsParent e cur → k₁.IsChild e cur ∨ (k₁.envs e).priority = 1

theorem Enters.isParent {ev : Event n} {call : Option Call} (h : k.Enters ev c k₁ call) :
    k₁.IsParent e cur ↔ k.IsParent e cur := by
  obtain ⟨tf, he⟩ := h.env e
  obtain ⟨tf', hcur⟩ := h.env cur
  rw [IsParent, IsParent, he, hcur]

/-- What a step with a system call improves is what the call improves. -/
theorem Step.improves_iff {ev : Event n} {call : Call} (hstep : k.Step s ev k')
    (henters : k.Enters ev c k₁ (some call)) :
    ∃ inp no control k₂, Sysno.ofWord no = some call.no ∧
      k₁.syscall s c inp no call.a1 call.a2 call.a3 call.a4 call.a5 = .ok (control, k₂) ∧
      ∀ e, k.Improves k' e ↔ k₁.Improves k₂ e := by
  obtain ⟨tf, faultVa, inp, rfl, -⟩ := henters.of_call
  obtain ⟨cur, no, control, k₂, -, -, -, hno, hcall, hreturn⟩ := hstep.of_call henters
  have hafter : k'.standing = k₂.standing := by
    cases control with
    | leaves =>
      obtain rfl := Except.ok.inj hreturn
      rfl
    | returns r =>
      obtain ⟨next, hexit⟩ := trapReturn_exit True hreturn
      exact (Exit.standing hexit).trans (setEax_standing (some cur) r)
  exact ⟨inp, no, control, k₂, hno, hcall, fun e ↦ improves_congr henters.standing hafter⟩

theorem Step.modest_iff {ev : Event n} (hstep : k.Step s ev k') :
    k.Modest ev k' ↔ k.SparesParent ev := by
  constructor
  · intro hmodest c k₁ call cur e henters hno hcur hfound hne hparent
    obtain ⟨inp, no, control, k₂, hofWord, hcall, himproves⟩ := hstep.improves_iff henters
    unfold syscall at hcall
    simp only [hofWord, hno] at hcall
    obtain ⟨r, -, hinc⟩ := returning_ok hcall
    by_contra hbad
    rw [not_or] at hbad
    refine hmodest c k₁ call cur e henters (henters.curenv ▸ hcur) ?_ ?_
    · exact .inr (henters.isParent.mp hparent)
    · rw [himproves, sysIncPriority_improves_iff hcur hinc]
      exact ⟨hfound, hne, hbad⟩
  · intro hspares c k₁ call cur e henters hcur hkin hbetter
    obtain ⟨inp, no, control, k₂, hofWord, hcall, himproves⟩ := hstep.improves_iff henters
    rw [himproves] at hbetter
    by_cases hno : call.no = .incPriority
    · unfold syscall at hcall
      simp only [hofWord, hno] at hcall
      obtain ⟨r, -, hinc⟩ := returning_ok hcall
      rw [← henters.curenv] at hcur
      obtain ⟨hfound, hne, hchild, hhigh⟩ := (sysIncPriority_improves_iff hcur hinc).mp hbetter
      have hparent : k₁.IsParent e cur := henters.isParent.mpr (hkin.resolve_left hne)
      rcases hspares c k₁ call cur e henters hno hcur hfound hne hparent with h | h
      · exact hchild h
      · exact hhigh h
    · exact syscall_not_improves hofWord hno hcall hbetter

end Kernel

/-- In every state `sys_inc_priority` follows the rule exactly for the targets that the wrong test
judges right, and a run improves neither a caller nor its parent exactly if each call in it that names
the parent can do no harm. -/
theorem priority_authority_iff (s : Scheduler) (k₀ k : Kernel n) (evs : List (Event n)) :
    (∀ c cur envid, k.curenv c = some cur →
      (k.sysIncPriority c envid = k.incPriorityRule c cur envid ↔ k.Judged c cur envid)) ∧
    (Run (fun k ev k' ↦ k.Step s ev k' ∧ k.Modest ev k') k₀ evs k ↔
      Run (fun k ev k' ↦ k.Step s ev k' ∧ k.SparesParent ev) k₀ evs k) := by
  refine ⟨fun c cur envid hcur ↦ Kernel.sysIncPriority_eq_rule_iff hcur envid, ?_⟩
  constructor
  · intro h
    exact h.mono fun k ev k' hstep ↦ ⟨hstep.1, hstep.1.modest_iff.mp hstep.2⟩
  · intro h
    exact h.mono fun k ev k' hstep ↦ ⟨hstep.1, hstep.1.modest_iff.mpr hstep.2⟩

/-- A parent has lowered its own priority and forked. -/
def familyEvents : List (Event 1) :=
  [.create 0 smallBinary, .start 0, .call 0 14 0 0 0 0 0, .call 0 7 0 0 0 0 0,
    .call 0 8 0x1001 2 0 0 0, .call 0 10 0 0 0 0 0]

/-- The child improves the priority of its parent. -/
theorem child_improves_parent :
    (smallKernel 1 12).Booted (smallFree 12) ∧
    ∃ k k', Run (Kernel.Step .pr) (smallKernel 1 12) familyEvents k ∧
      k.Step .pr (.call 0 13 0x1000 0 0 0 0) k' ∧ k.curenv 0 = some 1 ∧ k.IsParent 0 1 ∧
      k.Improves k' 0 := by
  refine ⟨smallKernel_booted 1 12 (by decide), ?_⟩
  have hresult : (((smallKernel 1 12).after .pr familyEvents).any fun k ↦
      k.curenv 0 == some 1 && decide (k.IsParent 0 1) &&
        ((k.after .pr [.call 0 13 0x1000 0 0 0 0]).any fun k' ↦
          (k'.envs 0).envId == (k.envs 0).envId && decide ((k'.envs 0).priority <
            (k.envs 0).priority))) = true := by
    decide +kernel
  obtain ⟨k, hrun, hcheck⟩ := Kernel.run_of_any hresult
  simp only [Bool.and_eq_true, beq_iff_eq, decide_eq_true_eq] at hcheck
  obtain ⟨⟨hcur, hparent⟩, hafter⟩ := hcheck
  obtain ⟨k', hstep, hbetter⟩ := Kernel.step_of_any hafter
  simp only [Bool.and_eq_true, beq_iff_eq, decide_eq_true_eq] at hbetter
  exact ⟨k, k', hrun, hstep, hcur, hparent, hbetter⟩

end SistemasOperativos.Jos
