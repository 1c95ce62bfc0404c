import SistemasOperativos.Jos.AddressSpaces
import SistemasOperativos.Jos.IpcTransfer
import SistemasOperativos.Jos.OneCpu

/-!
# Tidy kernels

The invariant of the kernel for its pages: memory has the layout of the directories of the
environments, no two environments share a directory, and a receiver waits for a page below `UTOP`. The
actions of a section keep it, but for those that map pages, which come in the next module.
-/

namespace SistemasOperativos.Jos

open Library Library.Except Memory

variable {n : ℕ} {s : Scheduler} {c : Fin n} {k k₁ k' : Kernel n} {e dst src : EnvPtr}
  {frugal : Prop} {m₀ memory : Memory} {managed free : List Ppn} {pd : Ppn} {va : Word}

namespace Kernel

/-- The page directories of the environments. -/
def roots (k : Kernel n) : Finset Ppn :=
  Finset.univ.filter fun pd ↦ ∃ e, (k.envs e).envPgdir = some pd

@[simp] theorem mem_roots : pd ∈ k.roots ↔ ∃ e, (k.envs e).envPgdir = some pd := by
  simp [roots]

theorem root_of_pgdir (h : (k.envs e).envPgdir = some pd) : pd ∈ k.roots := mem_roots.mpr ⟨e, h⟩

theorem roots_congr (h : ∀ e, (k'.envs e).envPgdir = (k.envs e).envPgdir) : k'.roots = k.roots := by
  ext pd
  simp only [mem_roots, h]

theorem setEnv_pgdir {env : Env} (h : env.envPgdir = (k.envs e).envPgdir) (e' : EnvPtr) :
    ((k.setEnv e env).envs e').envPgdir = (k.envs e').envPgdir := by
  rw [setEnv_envs]
  split
  · rename_i heq
    rw [h, heq]
  · rfl

/-- The address spaces of all environments but one are as they were. -/
def SameSpaces (k k' : Kernel n) (e : EnvPtr) : Prop :=
  ∀ e' ≠ e, (k'.envs e').envPgdir = (k.envs e').envPgdir ∧
    ∀ pd, (k.envs e').envPgdir = some pd → ∀ r : Ref, r.1 = pd → r.2.1 < pdx utop →
      k'.memory.entry r = k.memory.entry r

/-- Nothing is mapped that was not mapped before. -/
def Shrinks (k k' : Kernel n) : Prop :=
  ∀ e pd, (k'.envs e).envPgdir = some pd → ∀ r : Ref, r.1 = pd → r.2.1 < pdx utop →
    k'.memory.entry r ≠ 0 →
      (k.envs e).envPgdir = some pd ∧ k'.memory.entry r = k.memory.entry r

theorem Shrinks.trans (h : Shrinks k k₁) (h' : Shrinks k₁ k') : Shrinks k k' := by
  intro e pd hpgdir r hr hlow hne
  obtain ⟨hpgdir₁, hentry⟩ := h' e pd hpgdir r hr hlow hne
  rw [hentry] at hne ⊢
  exact h e pd hpgdir₁ r hr hlow hne

theorem Shrinks.of_same (hmemory : k'.memory = k.memory)
    (hpgdir : ∀ e, (k'.envs e).envPgdir = (k.envs e).envPgdir) : Shrinks k k' := by
  intro e pd he r _ _ _
  rw [hmemory]
  exact ⟨(hpgdir e).symm.trans he, rfl⟩

theorem Shrinks.setEnv {env : Env} (h : env.envPgdir = (k.envs e).envPgdir) :
    Shrinks k (k.setEnv e env) := Shrinks.of_same rfl (setEnv_pgdir h)

/-- The environments keep their directories, and an entry is what it was, or it is cleared. -/
theorem Shrinks.of_entry (h : ∀ r : Ref, r.1 ∈ k.roots → r.2.1 < pdx utop →
    memory.entry r ≠ 0 → memory.entry r = k.memory.entry r) : Shrinks k { k with memory } := by
  intro e pd he r hr hlow hne
  have hroot : r.1 ∈ k.roots := by
    rw [hr]
    exact root_of_pgdir he
  exact ⟨he, h r hroot hlow hne⟩

/-- One environment has an empty address space or none. -/
theorem Shrinks.of_sameSpaces (h : SameSpaces k k' e)
    (hempty : ∀ pd, (k'.envs e).envPgdir = some pd → ∀ r : Ref, r.1 = pd → r.2.1 < pdx utop →
      k'.memory.entry r = 0) : Shrinks k k' := by
  intro e' pd hpgdir r hr hlow hne
  by_cases hsame : e' = e
  · rw [hsame] at hpgdir
    exact absurd (hempty pd hpgdir r hr hlow) hne
  · obtain ⟨hkept, hentry⟩ := h e' hsame
    rw [hkept] at hpgdir
    exact ⟨hpgdir, hentry pd hpgdir r hr hlow⟩

theorem SameSpaces.refl (k : Kernel n) (e : EnvPtr) : SameSpaces k k e :=
  fun _ _ ↦ ⟨rfl, fun _ _ _ _ _ ↦ rfl⟩

structure Tidy (frugal : Prop) (m₀ : Memory) (managed : List Ppn) (k : Kernel n) : Prop where
  kept : ∃ free, Kept frugal m₀ k.memory managed k.roots free none
  apart : ∀ e e' pd, (k.envs e).envPgdir = some pd → (k.envs e').envPgdir = some pd → e = e'
  dstva : ∀ e, (k.envs e).envIpcDstva < utop

namespace Tidy

theorem congr (h : Tidy frugal m₀ managed k) (hmemory : k'.memory = k.memory)
    (hpgdir : ∀ e, (k'.envs e).envPgdir = (k.envs e).envPgdir)
    (hdstva : ∀ e, (k'.envs e).envIpcDstva = (k.envs e).envIpcDstva) :
    Tidy frugal m₀ managed k' where
  kept := by
    rw [hmemory, roots_congr hpgdir]
    exact h.kept
  apart e e' pd he he' := h.apart e e' pd ((hpgdir e).symm.trans he) ((hpgdir e').symm.trans he')
  dstva e := by
    rw [hdstva e]
    exact h.dstva e

theorem setEnv {env : Env} (h : Tidy frugal m₀ managed k)
    (hpgdir : env.envPgdir = (k.envs e).envPgdir) (hdstva : env.envIpcDstva < utop) :
    Tidy frugal m₀ managed (k.setEnv e env) := by
  have hsame := setEnv_pgdir hpgdir
  refine ⟨?_, ?_, fun e' ↦ ?_⟩
  · rw [setEnv_memory, roots_congr hsame]
    exact h.kept
  · intro e₁ e₂ pd h₁ h₂
    exact h.apart e₁ e₂ pd ((hsame e₁).symm.trans h₁) ((hsame e₂).symm.trans h₂)
  · rw [setEnv_envs]
    split
    · exact hdstva
    · exact h.dstva e'

theorem of_memory (h : Tidy frugal m₀ managed k)
    (hkept : ∃ free, Kept frugal m₀ memory managed k.roots free none) :
    Tidy frugal m₀ managed { k with memory } where
  kept := hkept
  apart := h.apart
  dstva := h.dstva

theorem kernPgdir (h : Tidy frugal m₀ managed k) : k.memory.kernPgdir = m₀.kernPgdir := by
  obtain ⟨free, hkept⟩ := h.kept
  exact hkept.kernPgdir

/-! ## New environments -/

/-- An environment without a directory gets a new one. -/
theorem adopt {env : Env} {list : Option EnvPtr} (h : Tidy frugal m₀ managed k)
    (hnone : (k.envs e).envPgdir = none) (hpd : pd ∉ k.roots)
    (hkept : ∃ free, Kept frugal m₀ memory managed (insert pd k.roots) free none)
    (henv : env.envPgdir = some pd) (hdstva : env.envIpcDstva < utop) :
    Tidy frugal m₀ managed ({ k with memory, envFreeList := list }.setEnv e env) := by
  have hpgdir : ∀ e', (({ k with memory, envFreeList := list }.setEnv e env).envs e').envPgdir =
      if e' = e then some pd else (k.envs e').envPgdir := by
    intro e'
    rw [setEnv_envs]
    split
    · exact henv
    · rfl
  have hroots : ({ k with memory, envFreeList := list }.setEnv e env).roots = insert pd k.roots := by
    ext p
    rw [mem_roots, Finset.mem_insert, mem_roots]
    constructor
    · rintro ⟨e', he'⟩
      rw [hpgdir] at he'
      split at he'
      · exact .inl (Option.some.inj he').symm
      · exact .inr ⟨e', he'⟩
    · rintro (rfl | ⟨e', he'⟩)
      · exact ⟨e, (hpgdir e).trans (if_pos rfl)⟩
      · refine ⟨e', (hpgdir e').trans ((if_neg ?_).trans he')⟩
        rintro rfl
        rw [hnone] at he'
        cases he'
  refine ⟨?_, fun e₁ e₂ p h₁ h₂ ↦ ?_, fun e' ↦ ?_⟩
  · rw [hroots]
    exact hkept
  · rw [hpgdir] at h₁ h₂
    by_cases hone : e₁ = e
    · by_cases htwo : e₂ = e
      · rw [hone, htwo]
      · rw [if_pos hone] at h₁
        rw [if_neg htwo] at h₂
        exact absurd (root_of_pgdir h₂) (Option.some.inj h₁ ▸ hpd)
    · rw [if_neg hone] at h₁
      by_cases htwo : e₂ = e
      · rw [if_pos htwo] at h₂
        exact absurd (root_of_pgdir h₁) (Option.some.inj h₂ ▸ hpd)
      · rw [if_neg htwo] at h₂
        exact h.apart e₁ e₂ p h₁ h₂
  · rw [setEnv_envs]
    split
    · exact hdstva
    · exact h.dstva e'

theorem envAlloc (h : Tidy frugal m₀ managed k) (hp : m₀.Prepared managed) (hfree : k.FreeEnvs)
    {parent : Word} (hcall : k.envAlloc parent = .ok (.ok e, k')) :
    Tidy frugal m₀ managed k' ∧ SameSpaces k k' e ∧ Shrinks k k' := by
  obtain ⟨pgdir, memory, hhead, hvm, rfl⟩ := envAlloc_ok hcall
  obtain ⟨free, hkept⟩ := h.kept
  obtain ⟨hnew, ⟨free', hkept', -⟩, hempty, hentry⟩ := hkept.envSetupVm hp hvm
  have hnone : (k.envs e).envPgdir = none := (hfree.noPgdir e).mp (hfree.head hhead)
  have hsame : ∀ env,
      SameSpaces k ({ k with memory, envFreeList := (k.envs e).envLink }.setEnv e env) e := by
    intro env e' he'
    rw [setEnv_of_ne he']
    refine ⟨rfl, fun pd hpd r hr hlow ↦ hentry r ?_ hlow⟩
    rw [hr]
    exact root_of_pgdir hpd
  refine ⟨h.adopt hnone hnew ⟨free', hkept'⟩ rfl (h.dstva e), hsame _,
    Shrinks.of_sameSpaces (hsame _) fun pd hpd r hr hlow ↦ hempty r ?_ hlow⟩
  rw [setEnv_self] at hpd
  rw [hr]
  exact (Option.some.inj hpd).symm

/-- The new environment maps nothing, and its page directory was free. -/
theorem envAlloc_supplied (h : Tidy frugal m₀ managed k) (hp : m₀.Prepared managed)
    (hfree : k.FreeEnvs) {parent : Word} (hcall : k.envAlloc parent = .ok (.ok e, k'))
    (hchain : Chain (fun p ↦ (k.memory.pages p).ppLink) k.memory.pageFreeList free) :
    ∃ pd free', (k'.envs e).envPgdir = some pd ∧
      Kept frugal m₀ k'.memory managed k'.roots free' none ∧ Supplied k'.memory pd free' free := by
  obtain ⟨⟨free', hkept'⟩, -, -⟩ := (h.envAlloc hp hfree hcall).1
  obtain ⟨pgdir, memory, hhead, hvm, rfl⟩ := envAlloc_ok hcall
  obtain ⟨old, hkept⟩ := h.kept
  obtain ⟨-, ⟨free₁, hkept₁, hfewer⟩, hempty, -⟩ := hkept.envSetupVm hp hvm
  obtain rfl := hkept.exact.chain.unique hchain
  obtain rfl : free' = free₁ := hkept'.exact.chain.unique hkept₁.exact.chain
  refine ⟨pgdir, free', by rw [setEnv_self], hkept', hfewer, fun va hva hmapped ↦ ?_⟩
  exact absurd (hempty (pgdir, pdx va, some (ptx va)) rfl hva) hmapped

/-! ## Giving up an environment -/

/-- An environment loses its directory. -/
theorem abandon {env : Env} {list : Option EnvPtr} (h : Tidy frugal m₀ managed k)
    (hpgdir : (k.envs e).envPgdir = some pd)
    (hkept : ∃ free, Kept frugal m₀ memory managed (k.roots.erase pd) free none)
    (henv : env.envPgdir = none) (hdstva : env.envIpcDstva < utop) :
    Tidy frugal m₀ managed ({ k with memory, envFreeList := list }.setEnv e env) := by
  have hsame : ∀ e', (({ k with memory, envFreeList := list }.setEnv e env).envs e').envPgdir =
      if e' = e then none else (k.envs e').envPgdir := by
    intro e'
    rw [setEnv_envs]
    split
    · exact henv
    · rfl
  have hroots : ({ k with memory, envFreeList := list }.setEnv e env).roots = k.roots.erase pd := by
    ext p
    rw [mem_roots, Finset.mem_erase, mem_roots]
    constructor
    · rintro ⟨e', he'⟩
      rw [hsame] at he'
      split at he'
      · cases he'
      · rename_i hne
        refine ⟨?_, e', he'⟩
        rintro rfl
        exact hne (h.apart e' e p he' hpgdir)
    · rintro ⟨hne, e', he'⟩
      refine ⟨e', (hsame e').trans ((if_neg ?_).trans he')⟩
      rintro rfl
      exact hne (Option.some.inj (he'.symm.trans hpgdir))
  refine ⟨?_, fun e₁ e₂ p h₁ h₂ ↦ ?_, fun e' ↦ ?_⟩
  · rw [hroots]
    exact hkept
  · rw [hsame] at h₁ h₂
    split at h₁
    · cases h₁
    · split at h₂
      · cases h₂
      · exact h.apart e₁ e₂ p h₁ h₂
  · rw [setEnv_envs]
    split
    · exact hdstva
    · exact h.dstva e'

theorem envFree (h : Tidy frugal m₀ managed k) (hp : m₀.Prepared managed)
    (hcall : k.envFree c e = .ok k') :
    Tidy frugal m₀ managed k' ∧ SameSpaces k k' e ∧ Shrinks k k' := by
  have hself := envFree_self hcall
  obtain ⟨pgdir, m₁, m₂, hpgdir, hunmap, hdecref, rfl⟩ := envFree_ok hcall
  obtain ⟨free, hkept⟩ := h.kept
  have hroot := root_of_pgdir hpgdir
  obtain ⟨⟨free₁, h₁⟩, hempty, hentry⟩ := hkept.unmapDir hp hroot (Nat.zero_add _)
    (fun d hd ↦ absurd hd (Nat.not_lt_zero _)) hunmap
  obtain ⟨h₂, hword⟩ := h₁.dropDirectory hp hroot hempty hdecref
  have hleave : Tidy frugal m₀ managed (k.leavePgdir c e) :=
    h.congr leavePgdir_memory (fun e' ↦ by rw [leavePgdir_envs]) fun e' ↦ by rw [leavePgdir_envs]
  have hroots : (k.leavePgdir c e).roots = k.roots := roots_congr fun e' ↦ by rw [leavePgdir_envs]
  have hsame : SameSpaces k ({ k.leavePgdir c e with
      memory := m₂, envFreeList := some e }.setEnv e { k.envs e with
        envPgdir := none, envStatus := .free, envLink := k.envFreeList }) e := by
    intro e' he'
    rw [setEnv_of_ne he']
    change ((k.leavePgdir c e).envs e').envPgdir = _ ∧ _
    rw [leavePgdir_envs]
    refine ⟨rfl, fun pd hpd r hr hlow ↦ ?_⟩
    have hne : r.1 ≠ pgdir := by
      intro heq
      rw [hr] at heq
      exact he' (h.apart e' e pd hpd (heq ▸ hpgdir))
    calc
      m₂.entry r = m₁.entry r := congrFun (entry_of_word hword) r
      _ = k.memory.entry r := hentry r (hr ▸ root_of_pgdir hpd) hlow hne
  refine ⟨hleave.abandon (by rw [leavePgdir_envs]; exact hpgdir) (by rw [hroots]; exact h₂) rfl
    (h.dstva e), hsame, Shrinks.of_sameSpaces hsame fun pd hpd ↦ ?_⟩
  rw [hself] at hpd
  cases hpd

end Tidy

/-! ## The actions of a section -/

/-- Where the CPU finds its addresses: in the directory of the kernel or of its environment. -/
def View (m₀ : Memory) (c : Fin n) (k : Kernel n) : Prop :=
  (k.cpus c).cr3 = m₀.kernPgdir ∨
    ∃ e, k.curenv c = some e ∧ (k.envs e).envPgdir = some (k.cpus c).cr3

theorem View.congr (h : View m₀ c k) (hcpus : k'.cpus c = k.cpus c)
    (hpgdir : ∀ e, k.curenv c = some e → (k'.envs e).envPgdir = (k.envs e).envPgdir) :
    View m₀ c k' := by
  unfold View curenv at *
  rw [hcpus]
  refine h.imp_right ?_
  rintro ⟨e, hcur, he⟩
  exact ⟨e, hcur, (hpgdir e hcur).trans he⟩

/-- What an action does to the pages. -/
structure Upholds (frugal : Prop) (m₀ : Memory) (managed : List Ppn) (c : Fin n) (k k' : Kernel n) :
    Prop where
  tidy : Tidy frugal m₀ managed k'
  view : View m₀ c k'
  shrinks : Shrinks k k'

namespace Upholds

theorem refl (h : Tidy frugal m₀ managed k) (hview : View m₀ c k) :
    Upholds frugal m₀ managed c k k :=
  ⟨h, hview, Shrinks.of_same rfl fun _ ↦ rfl⟩

theorem trans (h : Upholds frugal m₀ managed c k k₁) (h' : Upholds frugal m₀ managed c k₁ k') :
    Upholds frugal m₀ managed c k k' :=
  ⟨h'.tidy, h'.view, h.shrinks.trans h'.shrinks⟩

theorem setEnv {env : Env} (h : Tidy frugal m₀ managed k) (hview : View m₀ c k)
    (hpgdir : env.envPgdir = (k.envs e).envPgdir) (hdstva : env.envIpcDstva < utop) :
    Upholds frugal m₀ managed c k (k.setEnv e env) := by
  have hsame := setEnv_pgdir hpgdir
  exact ⟨h.setEnv hpgdir hdstva, hview.congr rfl fun e' _ ↦ hsame e', Shrinks.setEnv hpgdir⟩

end Upholds

/-- The actions that need no more than their system calls check. -/
def Sure : Action → Prop
  | .pageAlloc .. | .pageMap .. | .load .. => False
  | .pageUnmap _ va => va < utop
  | .await _ dstva => dstva < utop
  | _ => True

theorem Upholds.freed (h : Tidy frugal m₀ managed k) (hp : m₀.Prepared managed)
    (hcall : k.envFree c e = .ok k₁) (hsame : k'.memory = k₁.memory) (henvs : k'.envs = k₁.envs)
    (hview : View m₀ c k') : Upholds frugal m₀ managed c k k' := by
  obtain ⟨htidy, -, hshrinks⟩ := h.envFree hp hcall
  have hpgdir : ∀ e', (k'.envs e').envPgdir = (k₁.envs e').envPgdir := fun e' ↦ by rw [henvs]
  exact ⟨htidy.congr hsame hpgdir fun e' ↦ by rw [henvs], hview,
    hshrinks.trans (Shrinks.of_same hsame hpgdir)⟩

theorem Tidy.effect {a : Action} (h : Tidy frugal m₀ managed k) (hp : m₀.Prepared managed)
    (hview : View m₀ c k) (hin : Inside c k) (heffect : Effect c k a k') (ha : Sure a) :
    Upholds frugal m₀ managed c k k' := by
  cases heffect with
  | tune tuned =>
    have hpgdir := fun e ↦ Env.eq_of_core Env.envPgdir (fun _ ↦ rfl) (tuned.core e)
    have hdstva := fun e ↦ Env.eq_of_core Env.envIpcDstva (fun _ ↦ rfl) (tuned.core e)
    exact ⟨h.congr tuned.memory hpgdir hdstva, hview.congr (by rw [tuned.cpus]) fun e _ ↦ hpgdir e,
      Shrinks.of_same tuned.memory hpgdir⟩
  | frame tf current => exact Upholds.setEnv h hview rfl (h.dstva _)
  | write writes =>
    obtain ⟨free, hkept⟩ := h.kept
    have hcr3 : (k.cpus c).cr3 ∈ k.roots ∨ (k.cpus c).cr3 = m₀.kernPgdir := by
      rcases hview with hkern | ⟨e, -, he⟩
      · exact .inr hkern
      · exact .inl (root_of_pgdir he)
    obtain ⟨hkept', hentry⟩ := hkept.writes hp hcr3 writes
    exact ⟨h.of_memory ⟨free, hkept'⟩, hview.congr rfl fun _ _ ↦ rfl,
      Shrinks.of_entry fun r hr hlow _ ↦ hentry r hr hlow⟩
  | pageAlloc | pageMap | load => exact ha.elim
  | @pageUnmap e va memory call =>
    obtain ⟨free, hkept⟩ := h.kept
    cases hpgdir : (k.envs e).envPgdir with
    | none =>
      rw [hpgdir] at call
      cases call
    | some pd =>
      rw [hpgdir] at call
      obtain ⟨hkept', hentry⟩ := hkept.pageRemove hp (root_of_pgdir hpgdir) (pdx_lt_utop ha) call
      refine ⟨h.of_memory hkept', hview.congr rfl fun _ _ ↦ rfl,
        Shrinks.of_entry fun r hr hlow hne ↦ ?_⟩
      rw [hentry r hr hlow] at hne ⊢
      split at hne
      · exact absurd rfl hne
      · rename_i hother
        rw [if_neg hother]
  | @spawn k₁ e parent env alloc status same origin =>
    obtain ⟨htidy, -, hshrinks⟩ := h.envAlloc hp hin.free alloc
    have hfree := hin.free.head (envAlloc_needs alloc).1
    have hpgdir := Env.eq_of_core Env.envPgdir (fun _ ↦ rfl) same
    have hdstva := Env.eq_of_core Env.envIpcDstva (fun _ ↦ rfl) same
    have hview₁ : View m₀ c k₁ := by
      obtain ⟨pgdir, memory, -, -, rfl⟩ := envAlloc_ok alloc
      refine hview.congr rfl fun e' hcur ↦ ?_
      rw [setEnv_of_ne]
      rintro rfl
      exact hin.current e' hcur hfree
    have hset : Upholds frugal m₀ managed c k₁ (k₁.setEnv e env) :=
      Upholds.setEnv htidy hview₁ hpgdir (by rw [hdstva]; exact htidy.dstva e)
    exact ⟨hset.tidy, hset.view, hshrinks.trans hset.shrinks⟩
  | setStatus was known settable => exact Upholds.setEnv h hview rfl (h.dstva _)
  | dying running other => exact Upholds.setEnv h hview rfl (h.dstva _)
  | @free k' e other call =>
    refine Upholds.freed h hp call rfl rfl ?_
    have hcpus : k'.cpus c = k.cpus c := by
      obtain ⟨pgdir, m₁, m₂, -, -, -, rfl⟩ := envFree_ok call
      change (k.leavePgdir c e).cpus c = _
      rw [leavePgdir, if_neg fun heq ↦ other heq.symm]
    refine hview.congr hcpus fun e' hcur ↦ ?_
    rw [envFree_of_ne call]
    rintro rfl
    exact other hcur
  | @exit k₁ e current call =>
    refine Upholds.freed h hp call rfl rfl (.inl ?_)
    obtain ⟨pgdir, m₁, m₂, -, -, -, rfl⟩ := envFree_ok call
    change ((k.leavePgdir c e).setCurenv c none |>.cpus c).cr3 = _
    simp [leavePgdir, current, setCurenv, lcr3, h.kernPgdir]
  | deliver current known recving => exact Upholds.setEnv h hview rfl (h.dstva _)
  | await current => exact Upholds.setEnv h hview rfl ha
  | refuse current => exact Upholds.setEnv h hview rfl (h.dstva _)
  | upcall => exact Upholds.setEnv h hview rfl (h.dstva _)

end Kernel

end SistemasOperativos.Jos
