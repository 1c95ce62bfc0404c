import SistemasOperativos.Jos.Confinement
import SistemasOperativos.Jos.PageContents
import SistemasOperativos.Jos.PriorityAuthority

/-!
# Isolation

An environment that does not run, and whose parent does not run, is as safe as its pages are from
being written: its registers, its entry point for page faults, its address space and the contents of
every page that no other environment can write stay what they are, whatever the other environments
do. A page that only one environment can write never becomes writable for another one.
-/

namespace SistemasOperativos.Jos

open Library Library.Except Memory

variable {n : ℕ} {s : Scheduler} {c : Fin n} {inp : Input} {k k₁ k₂ k' : Kernel n}
  {e t cur dst src : EnvPtr} {m₀ m m' memory : Memory} {managed free : List Ppn} {roots : Finset Ppn}
  {frugal : Prop} {pd pp p : Ppn} {va va' srcva dstva perm w : Word} {r : ℤ} {a : Action} {G H : Ppn → Prop}

/-- An environment without what says how it is scheduled, and without the permission of the last page
that it has received. -/
def Env.personal (env : Env) : Env :=
  { env with
    envStatus := .free
    envRuns := 0
    envCpunum := 0
    priority := 0
    timeSlices := 0
    envIpcPerm := 0 }

theorem Env.personal_of_core {env env' : Env} (h : env.core = env'.core)
    (hupcall : env.envPgfaultUpcall = env'.envPgfaultUpcall) : env.personal = env'.personal := by
  have hof : ∀ env : Env, env.personal = { env.core with
      envStatus := .free, envCpunum := 0, envPgfaultUpcall := env.envPgfaultUpcall } := fun _ ↦ rfl
  rw [hof env, hof env', h, hupcall]

namespace Kernel

/-- The environment has the page mapped below `UTOP`. -/
def Has (k : Kernel n) (e : EnvPtr) (p : Ppn) : Prop := ∃ va < utop, k.Maps e va p

/-- It has it mapped with an entry that allows writing. -/
def CanWrite (k : Kernel n) (e : EnvPtr) (p : Ppn) : Prop :=
  ∃ pd, (k.envs e).envPgdir = some pd ∧ k.memory.MapsWritable pd p

/-- No other environment can write the page. -/
def Sealed (k : Kernel n) (t : EnvPtr) (p : Ppn) : Prop := ∀ e ≠ t, ¬ k.CanWrite e p

/-- Nothing has happened to the environment but to its scheduling. -/
structure Isolated (k k' : Kernel n) (t : EnvPtr) : Prop where
  env : (k'.envs t).personal = (k.envs t).personal
  memory : ∀ pd, (k.envs t).envPgdir = some pd → k.memory.Spares k'.memory pd (k.Sealed t)
  sealed : ∀ p, k.Has t p → k.Sealed t p → k'.Sealed t p

/-- The CPU runs neither the environment nor its parent. -/
def Apart (k : Kernel n) (c : Fin n) (t : EnvPtr) : Prop :=
  ∀ cur, k.curenv c = some cur → cur ≠ t ∧ ¬ k.IsChild t cur

/-- The step is one of a CPU that is apart, and sends the environment no message that it waits for. -/
structure Foreign (k : Kernel n) (ev : Event n) (t : EnvPtr) : Prop where
  apart : k.Apart ev.cpu t
  silent : ∀ c k₁ call, k.Enters ev c k₁ (some call) → call.no = .ipcTrySend →
    k₁.envid2env c call.a1 false = .ok (some t) → (k₁.envs t).envIpcRecving = false

/-! ## Isolated environments -/

theorem pgdir_of_personal (h : (k'.envs t).personal = (k.envs t).personal) :
    (k'.envs t).envPgdir = (k.envs t).envPgdir := by
  change (k'.envs t).personal.envPgdir = (k.envs t).personal.envPgdir
  rw [h]

theorem exists_low (hva : pdx va < pdx utop) :
    ∃ va' < utop, pdx va' = pdx va ∧ ptx va' = ptx va := by
  refine ⟨pgaddr (pdx va) (ptx va), ?_, pdx_pgaddr _ _, ptx_pgaddr _ _⟩
  rw [BitVec.lt_def] at hva ⊢
  have hutop : utop.toNat = 955 * 2 ^ 22 := by decide
  have hslot : (pdx utop).toNat = 955 := by decide
  have ht := (ptx va).isLt
  rw [pgaddr, BitVec.toNat_append, BitVec.toNat_append, ← Nat.shiftLeft_add_eq_or_of_lt ht,
    ← Nat.shiftLeft_add_eq_or_of_lt (by decide), Nat.shiftLeft_eq, Nat.shiftLeft_eq]
  have hzero : (0 : BitVec 12).toNat = 0 := rfl
  rw [hzero]
  omega

theorem has_of_mapping (hpgdir : (k.envs t).envPgdir = some pd) (hva : pdx va < pdx utop)
    (hmapped : k.memory.mapping pd va ≠ 0) : k.Has t (pgnum (k.memory.mapping pd va)) := by
  obtain ⟨va', hlow, hpdx, hptx⟩ := exists_low hva
  have hsame : k.memory.mapping pd va' = k.memory.mapping pd va := by
    unfold Memory.mapping
    rw [hpdx, hptx]
  refine ⟨va', hlow, pd, hpgdir, ?_⟩
  rw [hsame]
  exact ⟨hmapped, rfl⟩

namespace Isolated

theorem refl (k : Kernel n) (t : EnvPtr) : k.Isolated k t :=
  ⟨rfl, fun pd _ ↦ .refl k.memory pd _, fun _ _ h ↦ h⟩

theorem has (h : k.Isolated k' t) : k'.Has t p ↔ k.Has t p := by
  have hpgdir := pgdir_of_personal h.env
  refine exists_congr fun va ↦ and_congr_right fun hva ↦ ?_
  unfold Maps
  rw [hpgdir]
  refine exists_congr fun pd ↦ and_congr_right fun hpd ↦ ?_
  rw [(h.memory pd hpd).mapping (pdx_lt_utop hva)]

theorem trans (h : k.Isolated k₁ t) (h' : k₁.Isolated k' t) : k.Isolated k' t where
  env := h'.env.trans h.env
  memory pd hpd := by
    have hfirst := h.memory pd hpd
    have hsecond := h'.memory pd ((pgdir_of_personal h.env).trans hpd)
    refine ⟨fun r hr hlow ↦ (hsecond.entries r hr hlow).trans (hfirst.entries r hr hlow),
      fun va hva hmapped hsealed ↦ ?_⟩
    have hcontents := hsecond.contents va hva
    rw [hfirst.mapping hva] at hcontents
    calc
      _ = k₁.memory.word _ := hcontents hmapped (h.sealed _ (has_of_mapping hpd hva hmapped) hsealed)
      _ = k.memory.word _ := hfirst.contents va hva hmapped hsealed
  sealed p hhas hsealed := h'.sealed p (h.has.mpr hhas) (h.sealed p hhas hsealed)

/-- Memory stays, and so do the directories. -/
theorem of_same (henv : (k'.envs t).personal = (k.envs t).personal) (hmemory : k'.memory = k.memory)
    (hpgdir : ∀ e, (k'.envs e).envPgdir = (k.envs e).envPgdir) : k.Isolated k' t where
  env := henv
  memory pd _ := by
    rw [hmemory]
    exact .refl k.memory pd _
  sealed p _ hsealed e he := by
    rintro ⟨pd, hpd, hwrite⟩
    rw [hmemory] at hwrite
    exact hsealed e he ⟨pd, (hpgdir e).symm.trans hpd, hwrite⟩

theorem setEnv {env : Env} (hne : e ≠ t) (hpgdir : env.envPgdir = (k.envs e).envPgdir) :
    k.Isolated (k.setEnv e env) t :=
  of_same (by rw [setEnv_of_ne hne.symm]) rfl (setEnv_pgdir hpgdir)

end Isolated

/-! ## Rights to write -/

/-- A right to write is an old one, or one to a page in `G`. -/
def Hands (k k' : Kernel n) (G : Ppn → Prop) : Prop :=
  ∀ e p, k'.CanWrite e p → k.CanWrite e p ∨ G p

namespace Hands

/-- The page that is given is no page of the environment, or somebody else can write it already. -/
theorem sealed (h : Hands k k' G) (hG : ∀ p, k.Has t p → G p → ¬ k.Sealed t p) :
    ∀ p, k.Has t p → k.Sealed t p → k'.Sealed t p := by
  intro p hhas hsealed e he hwrite
  rcases h e p hwrite with hold | hnew
  · exact hsealed e he hold
  · exact hG p hhas hnew hsealed

end Hands

theorem Gains.hands {P : EnvPtr → Ppn → Prop} (h : Gains k k' P) :
    Hands k k' fun p ↦ ∃ e, P e p := by
  rintro e p ⟨pd, hpd, va, hva, hwrite, rfl⟩
  have hmapped : k'.memory.mapping pd va ≠ 0 := by
    intro hzero
    rw [hzero] at hwrite
    exact hwrite BitVec.zero_and
  rcases h e pd hpd va hva hmapped with ⟨hpd', hentry⟩ | hgain
  · rw [hentry] at hwrite ⊢
    exact .inl ⟨pd, hpd', va, hva, hwrite, rfl⟩
  · exact .inr ⟨e, hgain⟩

theorem Shrinks.sealed (h : Shrinks k k') :
    ∀ p, k.Has t p → k.Sealed t p → k'.Sealed t p :=
  (h.gains (P := fun _ _ ↦ False)).hands.sealed fun _ _ ⟨_, hno⟩ ↦ hno.elim

end Kernel

/-! ## Actions -/

/-- The action is about other environments. -/
structure Action.Avoids (a : Action) (t : EnvPtr) : Prop where
  subject : a.subject ≠ some t
  unmap : ∀ va, a ≠ .pageUnmap t va
  upcall : ∀ func, a ≠ .upcall t func

theorem Effect.keepsUpcall (h : Effect c k a k') (ha : a.Avoids t) :
    (k'.envs t).envPgfaultUpcall = (k.envs t).envPgfaultUpcall := by
  cases h with
  | tune tuned => exact tuned.upcall t
  | pageAlloc call =>
    obtain ⟨memory, rfl⟩ := Kernel.envPageAlloc_memory call
    rfl
  | pageMap call =>
    obtain ⟨memory, rfl⟩ := Kernel.envPageMap_memory call
    rfl
  | spawn alloc =>
    have hne : t ≠ _ := fun heq ↦ ha.subject (congrArg some heq.symm)
    obtain ⟨pgdir, memory, -, -, rfl⟩ := Kernel.envAlloc_ok alloc
    rw [Kernel.setEnv_setEnv, Kernel.setEnv_of_ne hne]
  | load fresh call =>
    have hne : t ≠ _ := fun heq ↦ ha.subject (congrArg some heq.symm)
    obtain ⟨pgdir, m₁, m₂, -, -, -, rfl⟩ := Kernel.loadIcode_ok call
    rw [Kernel.setEnv_of_ne hne]
  | free other call =>
    have hne : t ≠ _ := fun heq ↦ ha.subject (congrArg some heq.symm)
    rw [Kernel.envFree_of_ne call hne]
  | exit current call =>
    have hne : t ≠ _ := fun heq ↦ ha.subject (congrArg some heq.symm)
    rw [Kernel.setCurenv_envs, Kernel.envFree_of_ne call hne]
  | @upcall e func =>
    have hne : t ≠ e := fun heq ↦ ha.upcall func (by rw [heq])
    rw [Kernel.setEnv_of_ne hne]
  | frame | setStatus | dying | await | refuse =>
    have hne : t ≠ _ := fun heq ↦ ha.subject (congrArg some heq.symm)
    exact congrArg Env.envPgfaultUpcall (Kernel.setEnv_of_ne hne)
  | deliver =>
    have hne : t ≠ _ := fun heq ↦ ha.subject (congrArg some heq.symm)
    exact congrArg Env.envPgfaultUpcall (Kernel.setEnv_of_ne hne)
  | write | pageUnmap => rfl

namespace Kernel

theorem Tidy.ne_of_pgdir (h : Tidy frugal m₀ managed k) (hpd : (k.envs t).envPgdir = some pd)
    (he : (k.envs e).envPgdir = some pp) (hne : e ≠ t) : pd ≠ pp := by
  rintro rfl
  exact hne (h.apart e t pd he hpd)

/-- The address space that is given up is another one. -/
theorem Tidy.spares_envFree (h : Tidy frugal m₀ managed k) (hp : m₀.Prepared managed)
    (hcall : k.envFree c e = .ok k') (hne : e ≠ t) (hpd : (k.envs t).envPgdir = some pd) :
    k.memory.Spares k'.memory pd G := by
  obtain ⟨pgdir, m₁, m₂, hpgdir, hunmap, hdecref, rfl⟩ := envFree_ok hcall
  obtain ⟨free, hkept⟩ := h.kept
  have hroot := root_of_pgdir hpgdir
  obtain ⟨⟨free₁, h₁⟩, hempty, -⟩ := hkept.unmapDir hp hroot (Nat.zero_add _)
    (fun d hd ↦ absurd hd (Nat.not_lt_zero _)) hunmap
  obtain ⟨-, hword⟩ := h₁.dropDirectory hp hroot hempty hdecref
  have hunmapped : k.memory.Spares m₁ pd G := hkept.spares_unmapDir hp (root_of_pgdir hpd) hroot
    (h.ne_of_pgdir hpd hpgdir hne) (Nat.zero_add _) hunmap
  have hdropped : m₁.Spares m₂ pd G :=
    ⟨fun r _ _ ↦ congrFun (entry_of_word hword) r, fun _ _ _ _ ↦ congrFun hword _⟩
  exact hunmapped.trans hdropped

/-- An action of a CPU that runs another environment, on other environments. -/
theorem Tidy.isolates (h : Tidy frugal m₀ managed k) (hp : m₀.Prepared managed)
    (hview : View m₀ c k) (hin : Inside c k) (hcur : k.curenv c ≠ some t)
    (heffect : Effect c k a k') (ha : Sure a) (havoids : a.Avoids t) : k.Isolated k' t where
  env := Env.personal_of_core (heffect.core_of_ne havoids.subject) (heffect.keepsUpcall havoids)
  sealed := (h.effect hp hview hin heffect ha).shrinks.sealed
  memory pd hpd := by
    obtain ⟨free, hkept⟩ := h.kept
    have hown := root_of_pgdir hpd
    cases heffect with
    | tune tuned =>
      rw [tuned.memory]
      exact .refl k.memory pd _
    | write writes =>
      rcases hview with hkern | ⟨e, he, hpgdir⟩
      · refine hkept.spares_writes hp (.inr hkern) hown (fun hroot ↦ ?_) writes
        rw [hkern, ← h.kernPgdir] at hroot
        exact absurd hroot (kernPgdir_not_root hkept hp)
      · refine hkept.spares_writes hp (.inl (root_of_pgdir hpgdir)) hown
          (fun _ q hsealed hwrite ↦ ?_) writes
        refine hsealed e ?_ ⟨_, hpgdir, hwrite⟩
        rintro rfl
        exact hcur he
    | pageAlloc | pageMap | load => exact ha.elim
    | @pageUnmap e va memory call =>
      have hne : e ≠ t := by
        rintro rfl
        exact havoids.unmap va rfl
      cases hpgdir : (k.envs e).envPgdir with
      | none =>
        rw [hpgdir] at call
        cases call
      | some pd' =>
        rw [hpgdir] at call
        exact hkept.spares_pageRemove hp hown (root_of_pgdir hpgdir) (h.ne_of_pgdir hpd hpgdir hne)
          (pdx_lt_utop ha) call
    | spawn alloc =>
      obtain ⟨pgdir, memory, -, hvm, rfl⟩ := envAlloc_ok alloc
      exact hkept.spares_envSetupVm hp hown hvm
    | free other call =>
      exact h.spares_envFree hp call (fun heq ↦ havoids.subject (congrArg some heq)) hpd
    | @exit k₁ e current call =>
      have hfreed : k.memory.Spares k₁.memory pd (k.Sealed t) :=
        h.spares_envFree hp call (fun heq ↦ havoids.subject (congrArg some heq)) hpd
      exact hfreed
    | _ => exact .refl k.memory pd _

/-- A sequence of actions, one after the other. -/
theorem Actions.isolates {P : Action → Prop} {acts : List Action} (hacts : Actions c P k acts k')
    (hP : ∀ k₁ a k₂, P a → Effect c k₁ a k₂ → k₁.curenv c ≠ some t → Inside c k₁ →
      (k₁.envs t).envStatus ≠ .free → a.Avoids t)
    (hspares : ∀ a, P a → Sure a ∧ ∀ e ∈ a.target, ¬ k.Elsewhere c e) (hp : m₀.Prepared managed)
    (h : Tidy frugal m₀ managed k) (hview : View m₀ c k) (hin : Inside c k)
    (hcur : k.curenv c ≠ some t) (halive : (k.envs t).envStatus ≠ .free) :
    k.Isolated k' t ∧ k'.curenv c ≠ some t := by
  let inv : Kernel n → Prop := fun k₁ ↦ (Upholds frugal m₀ managed c k k₁ ∧ Inside c k₁) ∧
    (∀ c' ≠ c, k₁.cpus c' = k.cpus c') ∧ k.Isolated k₁ t ∧ k₁.curenv c ≠ some t
  have hinv : inv k' := by
    refine hacts.invariant ?_ ⟨⟨.refl h hview, hin⟩, fun _ _ ↦ rfl, .refl k t, hcur⟩
    rintro k₁ a k₂ ⟨⟨hupholds, hin₁⟩, hsame, hisolated, hcur₁⟩ ⟨heffect, ha⟩
    have hspare : ∀ e ∈ a.target, ¬ k₁.Elsewhere c e := by
      rintro e he ⟨c', hc', hcur⟩
      refine (hspares a ha).2 e he ⟨c', hc', ?_⟩
      rw [curenv, ← hsame c' hc']
      exact hcur
    have halive₁ : (k₁.envs t).envStatus ≠ .free := by
      rw [ne_eq, hin₁.free.noPgdir, pgdir_of_personal hisolated.env, ← hin.free.noPgdir]
      exact halive
    have hsure := (hspares a ha).1
    have hstep := hupholds.tidy.isolates hp hupholds.view hin₁ hcur₁ heffect hsure
      (hP k₁ a k₂ ha heffect hcur₁ hin₁ halive₁)
    refine ⟨⟨hupholds.trans (hupholds.tidy.effect hp hupholds.view hin₁ heffect hsure),
      heffect.inside hin₁ hspare⟩, fun c' hc' ↦ ?_, hisolated.trans hstep, fun heq ↦ ?_⟩
    · rw [heffect.cpus_of_ne hc', hsame c' hc']
    · exact hcur₁ (heffect.curenv_of_some heq)
  exact ⟨hinv.2.2.1, hinv.2.2.2⟩

/-! ## Entering and leaving the kernel -/

theorem Enters.isolates {ev : Event n} {call : Option Call} (h : k.Enters ev c k₁ call)
    (hcur : k.curenv c ≠ some t) : k.Isolated k₁ t := by
  refine .of_same ?_ h.memory fun e ↦ ?_
  · cases h with
    | user mode current alive =>
      rw [saveTf, setTf, setEnv_of_ne]
      · rfl
      · rintro rfl
        exact hcur current
    | _ => rfl
  · obtain ⟨tf, henv⟩ := h.env e
    rw [henv]

theorem Enters.apart {ev : Event n} {call : Option Call} (h : k.Enters ev c k₁ call)
    (hapart : k.Apart c t) : k₁.Apart c t := by
  intro cur hcur
  rw [h.curenv] at hcur
  obtain ⟨hne, hchild⟩ := hapart cur hcur
  refine ⟨hne, fun hold ↦ hchild ?_⟩
  obtain ⟨tf, henv⟩ := h.env t
  obtain ⟨tf', henv'⟩ := h.env cur
  rwa [IsChild, henv, henv'] at hold

theorem Apart.not_current (h : k.Apart c t) : k.curenv c ≠ some t := fun hcur ↦ (h t hcur).1 rfl

theorem exit_memory {mode : Prop} {next : Option EnvPtr} (h : Exit s mode c k next k') :
    k'.memory = k.memory := by
  cases h with
  | resume => exact envRun_memory
  | yield call =>
    obtain ⟨e, -, rfl⟩ | ⟨-, hhalt⟩ := schedYield_cases call
    · exact envRun_memory
    · rw [schedHalt_ok hhalt]
      rfl

theorem exit_isolates {mode : Prop} {next : Option EnvPtr} (h : Exit s mode c k next k')
    (t : EnvPtr) : k.Isolated k' t := by
  refine .of_same ?_ (exit_memory h) fun e ↦ ?_
  · obtain ⟨status, runs, cpunum, henv, -⟩ := h.env t
    rw [henv]
    rfl
  · obtain ⟨status, runs, cpunum, henv, -⟩ := h.env e
    rw [henv]

/-! ## System calls that map pages -/

/-- With `checkperm`, `envid2env` finds the current environment or a child of it. -/
theorem envid2env_permitted {envid : Word} (h : k.envid2env c envid true = .ok (some e)) :
    k.curenv c = some e ∨ ∃ cur, k.curenv c = some cur ∧ k.IsChild e cur := by
  unfold envid2env at h
  split at h
  · exact .inl (pure_ok.mp h)
  simp only at h
  split at h
  · simp [pure_ok] at h
  split at h
  · obtain ⟨cur, hcur, h⟩ := bind_ok.mp h
    split at h
    · simp [pure_ok] at h
    · rename_i hchild
      obtain rfl := Option.some.inj (pure_ok.mp h)
      exact .inr ⟨cur, theCurenv_ok hcur, not_not.mp hchild⟩
  · rename_i hcurrent
    obtain rfl := Option.some.inj (pure_ok.mp h)
    rw [not_and, not_not] at hcurrent
    exact .inl (hcurrent trivial).symm

theorem Apart.ne_of_permitted {envid : Word} (h : k.Apart c t)
    (hfound : k.envid2env c envid true = .ok (some e)) : e ≠ t := by
  rintro rfl
  rcases envid2env_permitted hfound with hcur | ⟨cur, hcur, hchild⟩
  · exact h.not_current hcur
  · exact (h cur hcur).2 hchild

theorem Tidy.not_free_of_has (h : Tidy frugal m₀ managed k) (hhas : k.Has t p) : ¬ k.Free p := by
  rintro ⟨free, hchain, hmem⟩
  obtain ⟨free', hkept⟩ := h.kept
  obtain rfl := hkept.exact.chain.unique hchain
  obtain ⟨va, hva, pd, hpd, hmapped, rfl⟩ := hhas
  exact hkept.exact.not_free_of_refers
    (refers_mapping (root_of_pgdir hpd) (pdx_lt_utop hva) hmapped) hmem

/-- Pages are given away, but no page that belongs to the environment alone. -/
theorem Isolated.of_hands (henvs : k'.envs = k.envs)
    (hspares : ∀ pd, (k.envs t).envPgdir = some pd → k.memory.Spares k'.memory pd (k.Sealed t))
    (hands : Hands k k' G) (hG : ∀ p, k.Has t p → G p → ¬ k.Sealed t p) : k.Isolated k' t where
  env := by rw [henvs]
  memory := hspares
  sealed := hands.sealed hG

theorem Tidy.isolates_envPageAlloc (h : Tidy frugal m₀ managed k) (hp : m₀.Prepared managed)
    (hva : va < utop) (hne : e ≠ t) (hcall : k.envPageAlloc e va perm = .ok (r, k')) :
    k.Isolated k' t := by
  by_cases hperm : checkPerm perm none < 0
  · rw [envPageAlloc_of_bad_perm hperm] at hcall
    obtain ⟨-, rfl⟩ := Prod.mk.inj (Except.ok.inj hcall)
    exact .refl k t
  obtain ⟨free, hkept⟩ := h.kept
  cases free with
  | nil =>
    rw [envPageAlloc_of_empty hperm hkept.exact.chain] at hcall
    obtain ⟨-, rfl⟩ := Prod.mk.inj (Except.ok.inj hcall)
    exact .refl k t
  | cons pp rest =>
    rw [envPageAlloc_of_free hperm hkept.exact.pageFreeList_cons
      (hkept.exact.bound pp List.mem_cons_self)] at hcall
    obtain ⟨⟨r', m'⟩, hinsert, hcall⟩ := bind_ok.mp hcall
    obtain ⟨-, rfl⟩ := Prod.mk.inj (pure_ok.mp hcall)
    cases hpgdir : (k.envs e).envPgdir with
    | none =>
      rw [hpgdir] at hinsert
      cases hinsert
    | some pd =>
    rw [hpgdir] at hinsert
    have hpd := root_of_pgdir hpgdir
    have hfresh := hkept.fresh hp
    refine Isolated.of_hands (G := (· = pp)) rfl (fun own hown ↦ ?_) ?_ ?_
    · exact (hkept.spares_fresh hp (root_of_pgdir hown)).trans
        (hfresh.spares_pageInsert hp (root_of_pgdir hown) hpd (h.ne_of_pgdir hown hpgdir hne)
          (pdx_lt_utop hva) hinsert)
    · rintro e' p ⟨pd', hpd', va', hva', hwrite, rfl⟩
      have hold : (k.memory.fresh pp).mapping pd' va' = k.memory.mapping pd' va' :=
        entry_fresh (r := (pd', pdx va', some (ptx va'))) hkept.exact (hkept.forest hp)
          (root_of_pgdir hpd') hva'
      change m'.mapping pd' va' &&& pteW ≠ 0 at hwrite
      change _ ∨ pgnum (m'.mapping pd' va') = pp
      rcases hfresh.mapping_pageInsert hp hpd (pdx_lt_utop hva) hinsert with rfl | hentry
      · rw [hold] at hwrite ⊢
        exact .inl ⟨pd', hpd', va', hva', hwrite, rfl⟩
      · rw [hentry pd' (root_of_pgdir hpd') va' hva'] at hwrite ⊢
        split at hwrite
        · rename_i hhere
          rw [if_pos hhere, pgnum_entry (by rw [pgnum_of_checkPerm hperm]; exact BitVec.zero_or)]
          exact .inr rfl
        · rename_i hother
          rw [hold] at hwrite
          rw [if_neg hother, hold]
          exact .inl ⟨pd', hpd', va', hva', hwrite, rfl⟩
    · rintro p hhas rfl
      exact absurd ⟨_, hkept.exact.chain, List.mem_cons_self⟩ (h.not_free_of_has hhas)

/-- A page becomes writable only where it is writable at the source. -/
theorem write_of_write (hwrite : perm &&& pteW &&& ~~~(pteW &&& w) = 0) (h : perm &&& pteW ≠ 0) :
    w &&& pteW ≠ 0 := by
  intro hzero
  have hall : ~~~(0 : Word) = BitVec.allOnes 32 := by decide
  rw [BitVec.and_comm pteW w, hzero, hall, BitVec.and_allOnes] at hwrite
  exact h hwrite

theorem Tidy.isolates_envPageMap (h : Tidy frugal m₀ managed k) (hp : m₀.Prepared managed)
    (hsrcva : srcva < utop) (hva : dstva < utop) (hsrc : src ≠ t) (hne : dst ≠ t)
    (hperm : ∀ page pte, k.memory.pageLookup (k.envs src).envPgdir srcva = .ok (some (page, pte)) →
      perm &&& pteW &&& ~~~(pteW &&& k.memory.readPte pte) = 0 →
        k.Full dst dstva ∨ pgnum perm ||| page = page)
    (hcall : k.envPageMap src srcva dst dstva perm = .ok (r, k')) : k.Isolated k' t := by
  rcases h.envPageMap_cases hsrcva hcall with ⟨-, rfl⟩ | ⟨pdS, pd, m', hsource, hpgdir, hmapped,
    hwrite, hinsert, rfl⟩
  · exact .refl k' t
  obtain ⟨free, hkept⟩ := h.kept
  have hpdS := root_of_pgdir hsource
  have hpd := root_of_pgdir hpgdir
  have hlookup := pageLookup_eq hkept.exact hpdS (pdx_lt_utop hsrcva) hmapped
  rw [← hsource] at hlookup
  refine Isolated.of_hands (G := k.CanWrite src) rfl (fun own hown ↦ ?_) ?_ ?_
  · exact hkept.spares_pageInsert hp (root_of_pgdir hown) hpd (h.ne_of_pgdir hown hpgdir hne)
      (pdx_lt_utop hva) hinsert
  · rintro e' p ⟨pd', hpd', va', hva', hnew, rfl⟩
    change m'.mapping pd' va' &&& pteW ≠ 0 at hnew
    change _ ∨ k.CanWrite src (pgnum (m'.mapping pd' va'))
    rcases hperm _ _ hlookup (by rw [readPte_tableOf hmapped]; exact hwrite) with hfull | hpage
    · rw [pageInsert_of_full (hfull.2 pd hpgdir) hfull.1] at hinsert
      obtain ⟨-, rfl⟩ := Prod.mk.inj (Except.ok.inj hinsert)
      exact .inl ⟨pd', hpd', va', hva', hnew, rfl⟩
    rcases hkept.mapping_pageInsert hp hpd (pdx_lt_utop hva) hinsert with rfl | hentry
    · exact .inl ⟨pd', hpd', va', hva', hnew, rfl⟩
    · rw [hentry pd' (root_of_pgdir hpd') va' hva'] at hnew ⊢
      split at hnew
      · rename_i hhere
        rw [entry_and (by decide) (by decide)] at hnew
        rw [if_pos hhere, pgnum_entry hpage]
        exact .inr ⟨pdS, hsource, srcva, pdx_lt_utop hsrcva, write_of_write hwrite hnew, rfl⟩
      · rename_i hother
        rw [if_neg hother]
        exact .inl ⟨pd', hpd', va', hva', hnew, rfl⟩
  · exact fun p _ hsource hsealed ↦ hsealed src hsrc hsource

/-- The receiver of a page is another environment. -/
theorem Tidy.isolates_ipcSendPage (h : Tidy False m₀ managed k) (hp : m₀.Prepared managed)
    (hsrcva : srcva < utop) (hsrc : cur ≠ t) (hne : dst ≠ t)
    (hcall : k.ipcSendPage inp cur dst srcva perm = .ok (r, k')) : k.Isolated k' t := by
  unfold Kernel.ipcSendPage at hcall
  split at hcall
  · obtain ⟨-, rfl⟩ := Prod.mk.inj (pure_ok.mp hcall)
    exact .refl k t
  obtain ⟨w, -, hcall⟩ := bind_ok.mp hcall
  split at hcall
  · obtain ⟨-, rfl⟩ := Prod.mk.inj (pure_ok.mp hcall)
    exact .refl k t
  split at hcall
  · obtain ⟨-, rfl⟩ := Prod.mk.inj (pure_ok.mp hcall)
    exact .refl k t
  simp only at hcall
  split at hcall
  · obtain ⟨-, rfl⟩ := Prod.mk.inj (pure_ok.mp hcall)
    exact .refl k t
  obtain ⟨⟨r₁, k₁⟩, halloc, hcall⟩ := bind_ok.mp hcall
  simp only at hcall
  have hfirst := h.isolates_envPageAlloc hp (h.dstva dst) hne halloc
  split at hcall
  · obtain ⟨-, rfl⟩ := Prod.mk.inj (pure_ok.mp hcall)
    exact hfirst
  rename_i hreturned
  obtain ⟨htidy₁, hperm⟩ : Tidy False m₀ managed k₁ ∧ ¬ checkPerm (perm ||| pteU ||| pteP) none < 0 := by
    rcases h.envPageAlloc hp (h.dstva dst) False.elim halloc with
      ⟨hneg, -⟩ | ⟨-, hzero, pd, pp, rest, memory, hpgdir, hkept, rfl, hplaced⟩
    · exact absurd hneg hreturned
    · refine ⟨(h.allocated hp hzero hpgdir hkept hplaced).1.tidy, fun hbad ↦ hreturned ?_⟩
      rw [envPageAlloc_of_bad_perm hbad] at halloc
      rw [← (Prod.mk.inj (Except.ok.inj halloc)).1]
      decide
  obtain ⟨⟨r₂, k₂⟩, hmap, hcall⟩ := bind_ok.mp hcall
  simp only at hcall
  have hsecond := htidy₁.isolates_envPageMap hp hsrcva (h.dstva dst) hsrc hne (fun _ _ _ _ ↦ .inr (by
    rw [pgnum_of_checkPerm hperm]
    exact BitVec.zero_or)) hmap
  split at hcall
  · obtain ⟨-, rfl⟩ := Prod.mk.inj (pure_ok.mp hcall)
    exact hfirst.trans hsecond
  · obtain ⟨-, rfl⟩ := Prod.mk.inj (pure_ok.mp hcall)
    exact (hfirst.trans hsecond).trans (.setEnv hne rfl)

section Calls

variable {call : Call} (h : Tidy False m₀ managed k) (hp : m₀.Prepared managed)
  (hapart : k.Apart c t)

include h hp hapart in
theorem Tidy.isolates_sysPageAlloc
    (hcall : k.sysPageAlloc c call.a1 call.a2 call.a3 = .ok (r, k')) : k.Isolated k' t := by
  unfold Kernel.sysPageAlloc at hcall
  split at hcall
  · obtain ⟨-, rfl⟩ := Prod.mk.inj (pure_ok.mp hcall)
    exact .refl k t
  rename_i hva
  obtain ⟨found, hfound, hcall⟩ := bind_ok.mp hcall
  cases found with
  | none =>
    obtain ⟨-, rfl⟩ := Prod.mk.inj (pure_ok.mp hcall)
    exact .refl k t
  | some e => exact h.isolates_envPageAlloc hp (lt_of_badVa hva) (hapart.ne_of_permitted hfound) hcall

include h hp hapart in
theorem Tidy.isolates_sysPageMap (hok : call.Careful False k c inp) (hno : call.no = .pageMap)
    (hcall : k.sysPageMap c call.a1 call.a2 call.a3 call.a4 call.a5 = .ok (r, k')) :
    k.Isolated k' t := by
  unfold Kernel.sysPageMap at hcall
  split at hcall
  · obtain ⟨-, rfl⟩ := Prod.mk.inj (pure_ok.mp hcall)
    exact .refl k t
  rename_i hsrcva
  split at hcall
  · obtain ⟨-, rfl⟩ := Prod.mk.inj (pure_ok.mp hcall)
    exact .refl k t
  rename_i hdstva
  obtain ⟨found, hsource, hcall⟩ := bind_ok.mp hcall
  cases found with
  | none =>
    obtain ⟨-, rfl⟩ := Prod.mk.inj (pure_ok.mp hcall)
    exact .refl k t
  | some src =>
  obtain ⟨found, htarget, hcall⟩ := bind_ok.mp hcall
  cases found with
  | none =>
    obtain ⟨-, rfl⟩ := Prod.mk.inj (pure_ok.mp hcall)
    exact .refl k t
  | some dst =>
  refine h.isolates_envPageMap hp (lt_of_badVa hsrcva) (lt_of_badVa hdstva)
    (hapart.ne_of_permitted hsource) (hapart.ne_of_permitted htarget)
    (fun page pte hlookup hwrite ↦ ?_) hcall
  rw [write_flags] at hwrite
  rw [pgnum_or_flags]
  exact (hok.pageMap hno (Bool.not_eq_true _ ▸ hsrcva) (Bool.not_eq_true _ ▸ hdstva) src dst
    hsource htarget page pte hlookup hwrite).imp_right And.left

include h hp hapart in
theorem Tidy.isolates_sysIpcTrySend (hsilent : k.envid2env c call.a1 false = .ok (some t) →
      (k.envs t).envIpcRecving = false)
    (hcall : k.sysIpcTrySend c inp call.a1 call.a2 call.a3 call.a4 = .ok (r, k')) :
    k.Isolated k' t := by
  unfold Kernel.sysIpcTrySend at hcall
  obtain ⟨found, hfound, hcall⟩ := bind_ok.mp hcall
  cases found with
  | none =>
    obtain ⟨-, rfl⟩ := Prod.mk.inj (pure_ok.mp hcall)
    exact .refl k t
  | some dst =>
    simp only at hcall
    split at hcall
    · obtain ⟨-, rfl⟩ := Prod.mk.inj (pure_ok.mp hcall)
      exact .refl k t
    rename_i hrecving
    have hne : dst ≠ t := by
      rintro rfl
      exact hrecving (hsilent hfound)
    obtain ⟨cur, hcur, hcall⟩ := bind_ok.mp hcall
    split at hcall
    · obtain ⟨-, rfl⟩ := Prod.mk.inj (pure_ok.mp hcall)
      have hfirst : k.Isolated (k.setEnv dst { k.envs dst with envIpcPerm := 0 }) t :=
        .setEnv hne rfl
      exact hfirst.trans (.setEnv hne rfl)
    · rename_i hsrcva
      obtain ⟨⟨r', k₁⟩, hsend, hcall⟩ := bind_ok.mp hcall
      have hfirst := h.isolates_ipcSendPage hp (BitVec.not_le.mp hsrcva)
        (hapart cur (theCurenv_ok hcur)).1 hne hsend
      simp only at hcall
      split at hcall
      · obtain ⟨-, rfl⟩ := Prod.mk.inj (pure_ok.mp hcall)
        exact hfirst
      · obtain ⟨-, rfl⟩ := Prod.mk.inj (pure_ok.mp hcall)
        exact hfirst.trans (.setEnv hne rfl)

include h hp hapart in
theorem Tidy.isolates_call {no : Word} {control : Control ℤ} (hmaps : call.no.Maps)
    (hok : call.Careful False k c inp) (hno : Sysno.ofWord no = some call.no)
    (hsilent : call.no = .ipcTrySend → k.envid2env c call.a1 false = .ok (some t) →
      (k.envs t).envIpcRecving = false)
    (hcall : k.syscall s c inp no call.a1 call.a2 call.a3 call.a4 call.a5 = .ok (control, k')) :
    k.Isolated k' t := by
  unfold Kernel.syscall at hcall
  rw [hno] at hcall
  rcases hmaps with hkind | hkind | hkind
  · simp only [hkind] at hcall
    obtain ⟨r, -, hreturns⟩ := returning_ok hcall
    exact h.isolates_sysPageAlloc hp hapart hreturns
  · simp only [hkind] at hcall
    obtain ⟨r, -, hreturns⟩ := returning_ok hcall
    exact h.isolates_sysPageMap hp hapart hok hkind hreturns
  · simp only [hkind] at hcall
    obtain ⟨r, -, hreturns⟩ := returning_ok hcall
    exact h.isolates_sysIpcTrySend hp hapart (hsilent hkind) hreturns

end Calls

/-! ## Steps -/

/-- The actions of the other system calls are about other environments. -/
theorem Permitted.avoids {call : Option Call} (h : Permitted k c call a) (hapart : k.Apart c t)
    (hsure : ∀ call' ∈ call, ¬ call'.no.Maps) (heffect : Effect c k₁ a k₂)
    (hcur : k₁.curenv c ≠ some t) (hfree : k₁.FreeEnvs) (halive : (k₁.envs t).envStatus ≠ .free) :
    a.Avoids t := by
  have hfound : ∀ {envid : Word} {e : EnvPtr}, k.envid2env c envid true = .ok (some e) → e ≠ t :=
    fun hfound ↦ hapart.ne_of_permitted hfound
  cases a with
  | tune | write | pageAlloc | pageMap => exact ⟨by simp [Action.subject], by simp, by simp⟩
  | load e binary | exit e => exact h.elim
  | frame e tf =>
    cases heffect with
    | frame _ current =>
      refine ⟨fun heq ↦ hcur ?_, by simp, by simp⟩
      rw [← heq]
      exact current
  | pageUnmap e va =>
    obtain ⟨call', -, -, hnamed, -⟩ := h
    exact ⟨by simp [Action.subject], fun va' heq ↦ hfound hnamed (Action.pageUnmap.inj heq).1, by simp⟩
  | spawn e =>
    cases heffect with
    | spawn alloc =>
      refine ⟨fun heq ↦ halive ?_, by simp, by simp⟩
      rw [← Option.some.inj heq]
      exact hfree.head (envAlloc_needs alloc).1
  | setStatus old e status =>
    obtain ⟨call', -, -, -, hnamed, -⟩ := h
    exact ⟨fun heq ↦ hfound hnamed (Option.some.inj heq), by simp, by simp⟩
  | dying e =>
    obtain ⟨call', -, hnamed⟩ := h
    exact ⟨fun heq ↦ hfound hnamed (Option.some.inj heq), by simp, by simp⟩
  | free e =>
    obtain ⟨call', -, hnamed, -⟩ := h
    exact ⟨fun heq ↦ hfound hnamed (Option.some.inj heq), by simp, by simp⟩
  | deliver src dst value =>
    obtain ⟨call', hmem, hno, -⟩ := h
    exact absurd (.inr (.inr hno)) (hsure call' hmem)
  | await e dstva =>
    obtain ⟨call', -, -, hcurrent, -⟩ := h
    exact ⟨fun heq ↦ (hapart e hcurrent).1 (Option.some.inj heq), by simp, by simp⟩
  | refuse e =>
    obtain ⟨call', -, -, hcurrent, -⟩ := h
    exact ⟨fun heq ↦ (hapart e hcurrent).1 (Option.some.inj heq), by simp, by simp⟩
  | upcall e func =>
    obtain ⟨call', -, -, hnamed, -⟩ := h
    exact ⟨by simp [Action.subject], by simp, fun func' heq ↦ hfound hnamed (Action.upcall.inj heq).1⟩

/-- A program is loaded into another environment, from pages that were free. -/
theorem Tidy.isolates_envCreate {binary : Elf} (h : Tidy False m₀ managed k)
    (hp : m₀.Prepared managed) (hfree : k.FreeEnvs) (hlinked : binary.Linked)
    (halive : (k.envs t).envStatus ≠ .free) (hcall : k.envCreate binary = .ok k') :
    k.Isolated k' t := by
  obtain ⟨-, hgains⟩ := h.envCreate hp hfree hlinked hcall
  have hsealed := hgains.hands.sealed (t := t) fun p hhas ⟨_, _, hpage⟩ _ ↦
    h.not_free_of_has hhas hpage
  unfold Kernel.envCreate at hcall
  obtain ⟨⟨res, k₁⟩, halloc, hcall⟩ := bind_ok.mp hcall
  cases res with
  | error r => exact (throw_ok.mp hcall).elim
  | ok e =>
    obtain ⟨k₂, hload, hcall⟩ := bind_ok.mp hcall
    obtain rfl := pure_ok.mp hcall
    obtain ⟨free, hkept⟩ := h.kept
    have hne : t ≠ e := by
      rintro rfl
      exact halive (hfree.head (envAlloc_needs halloc).1)
    obtain ⟨htidy₁, -⟩ := h.envAlloc hp hfree halloc
    obtain ⟨pd', free₁, hpgdir, hkept₁, hsupply⟩ :=
      h.envAlloc_supplied hp hfree halloc hkept.exact.chain
    obtain ⟨pgdir, memory, -, hvm, hk₁⟩ := envAlloc_ok halloc
    have hsame₁ : k₁.envs t = k.envs t := by
      rw [hk₁, setEnv_of_ne hne]
    have hsame₂ : k₂.envs t = k₁.envs t := by
      obtain ⟨_, _, _, -, -, -, hk₂⟩ := loadIcode_ok hload
      rw [hk₂, setEnv_of_ne hne]
    refine ⟨by rw [setEnv_of_ne hne, hsame₂, hsame₁], fun pd hpd ↦ ?_, hsealed⟩
    have hmade : k.memory.Spares k₁.memory pd (· ∉ free) := by
      rw [hk₁]
      exact hkept.spares_envSetupVm hp (root_of_pgdir hpd) hvm
    obtain ⟨pd₂, m₁, m₂, hpgdir₂, hsegments, hstack, hk₂⟩ := loadIcode_ok hload
    obtain rfl := Option.some.inj (hpgdir.symm.trans hpgdir₂)
    have hpd₁ : (k₁.envs t).envPgdir = some pd := by
      rw [hsame₁]
      exact hpd
    have hown := root_of_pgdir hpd₁
    have hother := root_of_pgdir hpgdir
    have hapart := htidy₁.ne_of_pgdir hpd₁ hpgdir hne.symm
    obtain ⟨free₂, hkept₂, hsupply₂⟩ :=
      (hkept₁.loadSegments hp hother hsupply hlinked hsegments).kept
    have hloaded := Kept.spares_loadSegments hp hother hown hapart hkept₁ hsupply hlinked hsegments
    have hstacked : m₁.Spares m₂ pd (· ∉ free) :=
      Kept.spares_regionAlloc hp hother hown hapart hkept₂ hsupply₂ hstack
    obtain ⟨hentries, hcontents⟩ := (hmade.trans hloaded).trans hstacked
    rw [setEnv_memory, hk₂]
    exact ⟨hentries, fun va hva hmapped _ ↦ hcontents va hva hmapped
      (hkept.mappable_mapping (root_of_pgdir hpd) hva hmapped).allocated⟩

/-- A step of the others does not touch the environment. -/
theorem Settled.isolates {ev : Event n} (h : Settled False m₀ managed k) (hp : m₀.Prepared managed)
    (hstep : CarefulStep False s k ev k') (hforeign : k.Foreign ev t)
    (halive : (k.envs t).envStatus ≠ .free) : k.Isolated k' t := by
  obtain ⟨hstep, hquiet, hcareful⟩ := hstep
  obtain ⟨acts, next, hsection⟩ := hstep.section
  cases hsection with
  | create boot linked run => exact h.tidy.isolates_envCreate hp h.sound.free linked halive hstep.2
  | @inside _ c call _ _ k₁ k₂ k₃ _ enters run loses exit =>
    have hapart : k.Apart c t := by
      have hcpu := hforeign.apart
      cases enters <;> exact hcpu
    obtain ⟨htidy, hview, -⟩ := h.enter enters
    have hentered := enters.isolates hapart.not_current
    have hapart₁ := enters.apart hapart
    by_cases hmaps : ∃ call' ∈ call, call'.no.Maps
    · obtain ⟨call', hmem, hmaps⟩ := hmaps
      obtain rfl := Option.mem_def.mp hmem
      obtain ⟨tf, faultVa, inp, rfl, -⟩ := enters.of_call
      obtain ⟨cur, no, control, k₄, hcur, -, -, hno, hcall, hreturn⟩ := hstep.of_call enters
      have hmade := htidy.isolates_call hp hapart₁ hmaps
        (hcareful c tf faultVa inp k₁ call' rfl enters) hno
        (fun hkind hfound ↦ hforeign.silent c k₁ call' enters hkind hfound) hcall
      obtain ⟨r, rfl, -⟩ := htidy.call hp hmaps (hcareful c tf faultVa inp k₁ call' rfl enters) hno
        hcall
      obtain ⟨next, hexit⟩ := trapReturn_exit True hreturn
      have hset : k₄.Isolated (k₄.setEax (some cur) r) t := .setEnv (hapart cur hcur).1 rfl
      exact ((hentered.trans hmade).trans hset).trans (exit_isolates hexit t)
    · have hsure : ∀ call' ∈ call, ¬ call'.no.Maps := fun call' hmem hmaps' ↦
        hmaps ⟨call', hmem, hmaps'⟩
      have hin := (enters.inside h.sound).1
      have halive₁ : (k₁.envs t).envStatus ≠ .free := by
        obtain ⟨tf, henv⟩ := enters.env t
        rw [henv]
        exact halive
      have hspares : ∀ a, Permitted k₁ c call a → Sure a ∧ ∀ e ∈ a.target, ¬ k₁.Elsewhere c e :=
        fun a ha ↦ ⟨Permitted.sure ha hsure, Permitted.spares ha hin fun call' hmem ↦
          hquiet _ _ call' (by rwa [Option.mem_def.mp hmem] at enters)⟩
      obtain ⟨hacted, hcur₂⟩ := Actions.isolates run (fun k₂ a k₃ ha heffect hcur hin₂ ↦
        Permitted.avoids ha hapart₁ hsure heffect hcur hin₂.free) hspares hp htidy hview hin
        hapart₁.not_current halive₁
      obtain ⟨hupholds, hin₂⟩ := Actions.upholds run hspares hp htidy hview hin
      have hlost : k₂.Isolated k₃ t := by
        cases loses with
        | keeps => exact .refl k₂ t
        | exit effect =>
          refine hupholds.tidy.isolates hp hupholds.view hin₂ hcur₂ effect trivial
            ⟨fun heq ↦ hcur₂ ?_, by simp, by simp⟩
          cases effect with
          | exit current call =>
            rw [← heq]
            exact current
      exact ((hentered.trans hacted).trans hlost).trans (exit_isolates exit t)
  | @store c _ _ memory mode write =>
    obtain ⟨free, hkept⟩ := h.tidy.kept
    obtain ⟨e, hcur⟩ := (h.sound.cpu c).occupied mode
    have hpgdir := (h.sound.cpu c).pgdir e hcur
    have hne : e ≠ t := (hforeign.apart e hcur).1
    refine Isolated.of_hands (G := fun _ ↦ False) rfl (fun pd hpd ↦ ?_) ?_ fun _ _ hno ↦ hno.elim
    · exact hkept.spares_userStore hp (root_of_pgdir hpgdir) (root_of_pgdir hpd)
        (fun q hsealed hwrite ↦ hsealed e hne ⟨_, hpgdir, hwrite⟩) write
    · rintro e' p ⟨pd', hpd', hwrite⟩
      obtain ⟨-, hentry⟩ := hkept.userStore hp (root_of_pgdir hpgdir) write
      exact .inl ⟨pd', hpd', hwrite.congr fun va hva ↦
        hentry (pd', pdx va, some (ptx va)) (root_of_pgdir hpd') hva⟩

/-- The steps of the others. -/
def ForeignStep (s : Scheduler) (t : EnvPtr) (k : Kernel n) (ev : Event n) (k' : Kernel n) : Prop :=
  CarefulStep False s k ev k' ∧ k.Foreign ev t

theorem Settled.isolates_run {evs : List (Event n)} (h : Settled False m₀ managed k)
    (hp : m₀.Prepared managed) (halive : (k.envs t).envStatus ≠ .free)
    (hrun : Run (ForeignStep s t) k evs k') : k.Isolated k' t := by
  let inv : Kernel n → Prop := fun k₁ ↦ Settled False m₀ managed k₁ ∧ k.Isolated k₁ t
  have hinv : inv k' := by
    refine hrun.invariant ?_ ⟨h, .refl k t⟩
    rintro k₁ ev k₂ ⟨hsettled, hisolated⟩ ⟨hstep, hforeign⟩
    have halive₁ : (k₁.envs t).envStatus ≠ .free := by
      rw [ne_eq, hsettled.sound.free.noPgdir, pgdir_of_personal hisolated.env,
        ← h.sound.free.noPgdir]
      exact halive
    exact ⟨(hsettled.step hp hstep.1 hstep.2.1 hstep.2.2).1,
      hisolated.trans (hsettled.isolates hp hstep hforeign halive₁)⟩
  exact hinv.2

end Kernel

end SistemasOperativos.Jos
