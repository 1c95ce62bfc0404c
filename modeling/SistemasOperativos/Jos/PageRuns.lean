import SistemasOperativos.Jos.PageCalls

/-!
# Runs that keep the pages in order

Every step of the machine keeps the kernel tidy, if its system call leaves the environments of the
other CPUs to them and finds the memory for the page that it maps.
-/

namespace SistemasOperativos.Jos

open Library Library.Except Memory

variable {n : ℕ} {s : Scheduler} {mode : Prop} {c c' : Fin n} {k k₁ k' : Kernel n} {e cur : EnvPtr}
  {frugal : Prop} {m₀ : Memory} {managed free supply : List Ppn} {pd : Ppn} {P : Action → Prop}

/-- The system calls that map pages. -/
def Sysno.Maps (no : Sysno) : Prop := no = .pageAlloc ∨ no = .pageMap ∨ no = .ipcTrySend

/-- The condition on a step, in the state in which its system call is made. -/
def Kernel.Careful (frugal : Prop) (k : Kernel n) (ev : Event n) : Prop :=
  ∀ c tf faultVa inp k₁ call, ev = .trap c tf faultVa inp → k.Enters ev c k₁ (some call) →
    call.Careful frugal k₁ c inp

/-- A page of the free list. -/
def Kernel.Free (k : Kernel n) (p : Ppn) : Prop :=
  ∃ free, Chain (fun q ↦ (k.memory.pages q).ppLink) k.memory.pageFreeList free ∧ p ∈ free

/-- The pages that a step gives to an environment: those of a new program, or the one of a system
call. -/
def Kernel.Gives (k : Kernel n) (ev : Event n) (e : EnvPtr) (p : Ppn) : Prop :=
  match ev with
  | .create _ _ => (k.envs e).envStatus = .free ∧ k.Free p
  | _ => ∃ c k₁ call, k.Enters ev c k₁ (some call) ∧ k₁.Grants c call e p

namespace Kernel

/-! ## Inside the kernel -/

theorem Actions.upholds {acts : List Action} (hacts : Actions c P k acts k')
    (hP : ∀ a, P a → Sure a ∧ ∀ e ∈ a.target, ¬ k.Elsewhere c e) (hp : m₀.Prepared managed)
    (h : Tidy frugal m₀ managed k) (hview : View m₀ c k) (hin : Inside c k) :
    Upholds frugal m₀ managed c k k' ∧ Inside c k' := by
  let inv : Kernel n → Prop := fun k₁ ↦
    (Upholds frugal m₀ managed c k k₁ ∧ Inside c k₁) ∧ ∀ c' ≠ c, k₁.cpus c' = k.cpus c'
  have hinv : inv k' := by
    refine hacts.invariant ?_ ⟨⟨.refl h hview, hin⟩, fun _ _ ↦ rfl⟩
    rintro k₁ a k₂ ⟨⟨hupholds, hin₁⟩, hsame⟩ ⟨heffect, ha⟩
    have hspare : ∀ e ∈ a.target, ¬ k₁.Elsewhere c e := by
      rintro e he ⟨c', hc', hcur⟩
      refine (hP a ha).2 e he ⟨c', hc', ?_⟩
      rw [curenv, ← hsame c' hc']
      exact hcur
    refine ⟨⟨hupholds.trans ?_, heffect.inside hin₁ hspare⟩, fun c' hc' ↦ ?_⟩
    · exact hupholds.tidy.effect hp hupholds.view hin₁ heffect (hP a ha).1
    · rw [heffect.cpus_of_ne hc', hsame c' hc']
  exact hinv.1

theorem Tidy.lose {acts : List Action} (h : Tidy frugal m₀ managed k)
    (hp : m₀.Prepared managed) (hloses : Loses c k acts k') (hview : View m₀ c k)
    (hin : Inside c k) :
    Upholds frugal m₀ managed c k k' := by
  cases hloses with
  | keeps => exact .refl h hview
  | exit effect => exact h.effect hp hview hin effect trivial

/-! ## Leaving the kernel -/

/-- A CPU without an environment uses the page directory of the kernel. -/
def Parked (m₀ : Memory) (k : Kernel n) (c : Fin n) : Prop :=
  k.curenv c = none → (k.cpus c).cr3 = m₀.kernPgdir

/-- What a part of a section leaves. -/
structure Left (frugal : Prop) (m₀ : Memory) (managed : List Ppn) (c : Fin n)
    (k k' : Kernel n) : Prop where
  tidy : Tidy frugal m₀ managed k'
  shrinks : Shrinks k k'
  parked : Parked m₀ k' c

theorem envRun_dstva (e e' : EnvPtr) :
    ((k.envRun c e).envs e').envIpcDstva = (k.envs e').envIpcDstva := by
  by_cases h : e' = e
  · rw [h, envRun_self]
  · obtain ⟨status, hpark, -⟩ := park_envs (k := k) (c := c) e'
    rw [envRun_of_ne h, hpark]

theorem Tidy.envRun (h : Tidy frugal m₀ managed k) (e : EnvPtr) :
    Left frugal m₀ managed c k (k.envRun c e) where
  tidy := h.congr envRun_memory (fun e' ↦ (envRun_same e e').1) (envRun_dstva e)
  shrinks := Shrinks.of_same envRun_memory fun e' ↦ (envRun_same e e').1
  parked hnone := by
    rw [envRun_curenv] at hnone
    cases hnone

theorem Tidy.leave {next : Option EnvPtr} (h : Tidy frugal m₀ managed k)
    (hexit : Exit s mode c k next k') : Left frugal m₀ managed c k k' := by
  cases hexit with
  | resume => exact h.envRun _
  | yield call =>
    have hcounted : Tidy frugal m₀ managed { k with totalSchedCalls := k.totalSchedCalls + 1 } :=
      h.congr rfl (fun _ ↦ rfl) fun _ ↦ rfl
    have hshrinks : Shrinks k { k with totalSchedCalls := k.totalSchedCalls + 1 } :=
      Shrinks.of_same rfl fun _ ↦ rfl
    obtain ⟨e, -, rfl⟩ | ⟨-, hhalt⟩ := schedYield_cases call
    · have hleft := hcounted.envRun (c := c) e
      exact ⟨hleft.tidy, hshrinks.trans hleft.shrinks, hleft.parked⟩
    · rw [schedHalt_ok hhalt]
      refine ⟨hcounted.congr rfl (fun _ ↦ rfl) fun _ ↦ rfl, Shrinks.of_same rfl fun _ ↦ rfl, ?_⟩
      intro _
      rw [setCpu_self]
      exact h.kernPgdir

/-- The kernel goes on by actions that are sure, and leaves. -/
theorem Leaves.left (hleaves : Leaves s mode c P k k')
    (hP : ∀ a, P a → Sure a ∧ ∀ e ∈ a.target, ¬ k.Elsewhere c e) (hp : m₀.Prepared managed)
    (h : Tidy frugal m₀ managed k) (hview : View m₀ c k) (hin : Inside c k) :
    Left frugal m₀ managed c k k' := by
  obtain ⟨acts, next, hends⟩ := hleaves
  cases hends with
  | leaves hacts hloses hexit =>
    obtain ⟨hupholds, hin₁⟩ := Actions.upholds hacts hP hp h hview hin
    have hlost := hupholds.tidy.lose hp hloses hupholds.view hin₁
    have hleft := hlost.tidy.leave hexit
    exact ⟨hleft.tidy, (hupholds.shrinks.trans hlost.shrinks).trans hleft.shrinks, hleft.parked⟩

/-! ## Outside the kernel -/

/-- Between two steps of the machine. -/
structure Settled (frugal : Prop) (m₀ : Memory) (managed : List Ppn) (k : Kernel n) : Prop where
  tidy : Tidy frugal m₀ managed k
  sound : k.Sound
  parked : ∀ c, Parked m₀ k c

theorem Settled.view (h : Settled frugal m₀ managed k) (c : Fin n) : View m₀ c k := by
  cases hcur : k.curenv c with
  | none => exact .inl (h.parked c hcur)
  | some e => exact .inr ⟨e, hcur, (h.sound.cpu c).pgdir e hcur⟩

theorem View.start (h : View m₀ c k) : View m₀ c (k.start c) := by
  have hcr3 : ((k.start c).cpus c).cr3 = (k.cpus c).cr3 := by
    unfold Kernel.start
    rw [setCpu_self]
  unfold View at h ⊢
  rw [hcr3, start_curenv]
  exact h

theorem Settled.start (h : Settled frugal m₀ managed k) :
    Tidy frugal m₀ managed (k.start c) ∧ View m₀ c (k.start c) ∧ Shrinks k (k.start c) :=
  ⟨h.tidy.congr rfl (fun _ ↦ rfl) fun _ ↦ rfl, (h.view c).start,
    Shrinks.of_same rfl fun _ ↦ rfl⟩

/-- Entering the kernel. -/
theorem Settled.enter {ev : Event n} {call : Option Call} (h : Settled frugal m₀ managed k)
    (henters : k.Enters ev c k₁ call) :
    Tidy frugal m₀ managed k₁ ∧ View m₀ c k₁ ∧ Shrinks k k₁ := by
  cases henters with
  | @user _ tf _ _ cur mode current alive =>
    obtain ⟨htidy, hview, hshrinks⟩ := h.start (c := c)
    have hset : Upholds frugal m₀ managed c (k.start c) (k.saveTf c cur tf) :=
      Upholds.setEnv htidy hview rfl (htidy.dstva _)
    exact ⟨hset.tidy, hset.view, hshrinks.trans hset.shrinks⟩
  | _ => exact h.start

/-- The other system calls need no more than they check. -/
theorem Permitted.sure {call : Option Call} {a : Action} (h : Permitted k c call a)
    (hcall : ∀ call' ∈ call, ¬ call'.no.Maps) : Sure a := by
  cases a with
  | pageAlloc e va perm =>
    obtain ⟨call', hmem, ⟨hno, -⟩ | ⟨hno, -⟩⟩ := h
    · exact (hcall call' hmem (by simp [Sysno.Maps, hno])).elim
    · exact (hcall call' hmem (by simp [Sysno.Maps, hno])).elim
  | pageMap src srcva dst dstva perm =>
    obtain ⟨call', hmem, -, -, ⟨hno, -⟩ | ⟨hno, -⟩⟩ := h
    · exact (hcall call' hmem (by simp [Sysno.Maps, hno])).elim
    · exact (hcall call' hmem (by simp [Sysno.Maps, hno])).elim
  | load e binary => exact h.elim
  | pageUnmap e va =>
    obtain ⟨call', -, -, -, -, hva⟩ := h
    exact lt_of_badVa (by simp [hva])
  | await e dstva =>
    obtain ⟨call', -, -, -, -, hva⟩ := h
    exact lt_of_badVa (by simp [hva])
  | _ => trivial

/-- A system call that maps a page. -/
theorem Tidy.call {call : Call} {no : Word} {inp : Input} {control : Control ℤ}
    (h : Tidy frugal m₀ managed k) (hp : m₀.Prepared managed) (hmaps : call.no.Maps)
    (hok : call.Careful frugal k c inp) (hno : Sysno.ofWord no = some call.no)
    (hcall : k.syscall s c inp no call.a1 call.a2 call.a3 call.a4 call.a5 = .ok (control, k')) :
    ∃ r, control = .returns r ∧ Tidy frugal m₀ managed k' ∧ Gains k k' (k.Grants c call) := by
  unfold Kernel.syscall at hcall
  rw [hno] at hcall
  rcases hmaps with hkind | hkind | hkind
  · simp only [hkind] at hcall
    obtain ⟨r, hreturn, hreturns⟩ := returning_ok hcall
    exact ⟨r, hreturn, h.sysPageAlloc hp hok hkind hreturns⟩
  · simp only [hkind] at hcall
    obtain ⟨r, hreturn, hreturns⟩ := returning_ok hcall
    exact ⟨r, hreturn, h.sysPageMap hp hok hkind hreturns⟩
  · simp only [hkind] at hcall
    obtain ⟨r, hreturn, hreturns⟩ := returning_ok hcall
    exact ⟨r, hreturn, h.sysIpcTrySend hp hok hkind hreturns⟩

/-- A step in which a system call maps a page. -/
theorem Settled.stepMaps {ev : Event n} {call : Call} (h : Settled frugal m₀ managed k)
    (hp : m₀.Prepared managed) (hstep : k.Step s ev k') (hcareful : k.Careful frugal ev)
    (henters : k.Enters ev c k₁ (some call)) (hmaps : call.no.Maps) :
    Tidy frugal m₀ managed k' ∧ Gains k k' (k.Gives ev) ∧ Parked m₀ k' c := by
  obtain ⟨tf, faultVa, inp, rfl, -⟩ := henters.of_call
  obtain ⟨cur, no, control, k₂, -, -, -, hno, hcall, hreturn⟩ := hstep.of_call henters
  obtain ⟨htidy, -, hshrinks⟩ := h.enter henters
  obtain ⟨r, rfl, htidy₂, hgains⟩ := htidy.call hp hmaps
    (hcareful c tf faultVa inp k₁ call rfl henters) hno hcall
  have hset : Tidy frugal m₀ managed (k₂.setEax (some cur) r) :=
    htidy₂.setEnv rfl (htidy₂.dstva cur)
  have hshrinks₂ : Shrinks k₂ (k₂.setEax (some cur) r) := Shrinks.setEnv rfl
  obtain ⟨next, hexit⟩ := trapReturn_exit True hreturn
  have hleft := hset.leave hexit
  refine ⟨hleft.tidy, ?_, hleft.parked⟩
  have hall := (hshrinks.trans_gains hgains).shrinks (hshrinks₂.trans hleft.shrinks)
  exact hall.mono fun e p hgrants ↦ ⟨c, k₁, call, henters, hgrants⟩

/-! ## The first environments -/

/-- Loading a program maps free pages, in its environment only. -/
theorem Tidy.loadIcode {binary : Elf} (h : Tidy frugal m₀ managed k) (hp : m₀.Prepared managed)
    (hlinked : binary.Linked) (hpgdir : (k.envs e).envPgdir = some pd)
    (hkept : Kept frugal m₀ k.memory managed k.roots free none)
    (hsupply : Supplied k.memory pd free supply) (hcall : k.loadIcode e binary = .ok k') :
    Tidy frugal m₀ managed k' ∧ Gains k k' fun e' p ↦ e' = e ∧ p ∈ supply := by
  obtain ⟨pd', m₁, m₂, hpgdir', hsegments, hstack, rfl⟩ := loadIcode_ok hcall
  obtain rfl := Option.some.inj (hpgdir.symm.trans hpgdir')
  have hpd := root_of_pgdir hpgdir
  have hfirst := hkept.loadSegments hp hpd hsupply hlinked hsegments
  obtain ⟨free₁, hkept₁, hsupply₁⟩ := hfirst.kept
  have hboth := hfirst.trans (hkept₁.regionAlloc hp hpd hsupply₁ hstack)
  obtain ⟨free₂, hkept₂, hsupply₂⟩ := hboth.kept
  have hmid : Tidy frugal m₀ managed { k with memory := m₂ } := h.of_memory ⟨free₂, hkept₂⟩
  refine ⟨hmid.setEnv rfl (hmid.dstva e), ?_⟩
  have hgains : Gains k { k with memory := m₂ } fun e' p ↦ e' = e ∧ p ∈ supply := by
    intro e' root hroot va hva hmapped
    by_cases hsame : root = pd
    · rw [hsame] at hroot hmapped ⊢
      exact .inr ⟨h.apart e' e pd hroot hpgdir, hsupply₂.mapped va hva hmapped⟩
    · exact .inl ⟨hroot, hboth.others (root, pdx va, some (ptx va)) (root_of_pgdir hroot) hva hsame⟩
  exact Gains.shrinks hgains (Shrinks.setEnv rfl)

theorem Tidy.envCreate {binary : Elf} (h : Tidy frugal m₀ managed k) (hp : m₀.Prepared managed)
    (hfree : k.FreeEnvs) (hlinked : binary.Linked) (hcall : k.envCreate binary = .ok k') :
    Tidy frugal m₀ managed k' ∧
      Gains k k' fun e' p ↦ (k.envs e').envStatus = .free ∧ k.Free p := by
  unfold Kernel.envCreate at hcall
  obtain ⟨⟨res, k₁⟩, halloc, hcall⟩ := bind_ok.mp hcall
  cases res with
  | error r => exact (throw_ok.mp hcall).elim
  | ok e =>
    obtain ⟨k₂, hload, hcall⟩ := bind_ok.mp hcall
    obtain rfl := pure_ok.mp hcall
    obtain ⟨free, hkept⟩ := h.kept
    obtain ⟨htidy₁, -, hshrinks⟩ := h.envAlloc hp hfree halloc
    obtain ⟨pd, free₁, hpgdir, hkept₁, hsupply⟩ :=
      h.envAlloc_supplied hp hfree halloc hkept.exact.chain
    obtain ⟨htidy₂, hgains⟩ := htidy₁.loadIcode hp hlinked hpgdir hkept₁ hsupply hload
    have hnew : (k.envs e).envStatus = .free := hfree.head (envAlloc_needs halloc).1
    refine ⟨htidy₂.setEnv rfl (htidy₂.dstva e), ?_⟩
    refine Gains.mono ((hshrinks.trans_gains hgains).shrinks (Shrinks.setEnv rfl)) ?_
    rintro e' p ⟨rfl, hmem⟩
    exact ⟨hnew, free, hkept.exact.chain, hmem⟩

/-! ## Steps -/

theorem Actions.cpus_of_ne {acts : List Action} (h : Actions c P k acts k') (hc : c' ≠ c) :
    k'.cpus c' = k.cpus c' := by
  let inv : Kernel n → Prop := fun k₁ ↦ k₁.cpus c' = k.cpus c'
  have hinv : inv k' :=
    h.invariant (fun _ _ _ hk hstep ↦ (hstep.1.cpus_of_ne hc).trans hk) rfl
  exact hinv

theorem Loses.cpus_of_ne {acts : List Action} (h : Loses c k acts k') (hc : c' ≠ c) :
    k'.cpus c' = k.cpus c' := by
  cases h with
  | keeps => rfl
  | exit effect => exact effect.cpus_of_ne hc

/-- A system call that maps no page, or a trap that is none. -/
theorem Settled.stepSure {ev : Event n} {call : Option Call} (h : Settled frugal m₀ managed k)
    (hp : m₀.Prepared managed) (hquiet : k.Undisturbing ev) (henters : k.Enters ev c k₁ call)
    (hsure : ∀ call' ∈ call, ¬ call'.no.Maps)
    (hleaves : Leaves s mode c (Permitted k₁ c call) k₁ k') :
    Tidy frugal m₀ managed k' ∧ Shrinks k k' ∧ Parked m₀ k' c := by
  obtain ⟨htidy, hview, hshrinks⟩ := h.enter henters
  have hin := (henters.inside h.sound).1
  have hactions : ∀ a, Permitted k₁ c call a → Sure a ∧ ∀ e ∈ a.target, ¬ k₁.Elsewhere c e :=
    fun a ha ↦ ⟨Permitted.sure ha hsure, Permitted.spares ha hin fun call' hmem ↦
      hquiet _ _ call' (by rwa [Option.mem_def.mp hmem] at henters)⟩
  have hleft := hleaves.left hactions hp htidy hview hin
  exact ⟨hleft.tidy, hshrinks.trans hleft.shrinks, hleft.parked⟩

/-- Every step keeps the pages in order, and it maps no pages but those that it gives. -/
theorem Settled.step {ev : Event n} (h : Settled frugal m₀ managed k) (hp : m₀.Prepared managed)
    (hstep : k.Step s ev k') (hquiet : k.Undisturbing ev) (hcareful : k.Careful frugal ev) :
    Settled frugal m₀ managed k' ∧ Gains k k' (k.Gives ev) := by
  obtain ⟨acts, next, hsection⟩ := hstep.section
  have hsound := hsection.sound h.sound hquiet
  cases hsection with
  | create boot linked run =>
    obtain ⟨htidy, hgains⟩ := h.tidy.envCreate hp h.sound.free linked hstep.2
    obtain ⟨-, hcpus⟩ := h.sound.boot boot run
    refine ⟨⟨htidy, hsound, fun c' ↦ ?_⟩, hgains⟩
    unfold Parked curenv
    rw [hcpus]
    exact h.parked c'
  | @inside _ c call _ _ k₁ k₂ k₃ _ enters run loses exit =>
    have hothers : ∀ c' ≠ c, k'.cpus c' = k.cpus c' := fun c' hc' ↦ by
      rw [exit.cpus_of_ne hc', Loses.cpus_of_ne loses hc', Actions.cpus_of_ne run hc',
        enters.cpus_of_ne hc']
    have hparked : Parked m₀ k' c → ∀ c', Parked m₀ k' c' := by
      intro hown c'
      by_cases hc' : c' = c
      · rw [hc']
        exact hown
      · unfold Parked curenv
        rw [hothers c' hc']
        exact h.parked c'
    by_cases hmaps : ∃ call' ∈ call, call'.no.Maps
    · obtain ⟨call', hmem, hmaps⟩ := hmaps
      obtain rfl := Option.mem_def.mp hmem
      obtain ⟨htidy, hgains, hown⟩ := h.stepMaps hp hstep hcareful enters hmaps
      exact ⟨⟨htidy, hsound, hparked hown⟩, hgains⟩
    · obtain ⟨htidy, hshrinks, hown⟩ := h.stepSure hp hquiet enters
        (fun call' hmem hmaps' ↦ hmaps ⟨call', hmem, hmaps'⟩)
        (s := s) ⟨_, _, .leaves run loses exit⟩
      exact ⟨⟨htidy, hsound, hparked hown⟩, hshrinks.gains⟩
  | @store c _ _ memory mode write =>
    obtain ⟨free, hkept⟩ := h.tidy.kept
    obtain ⟨e, hcur⟩ := (h.sound.cpu c).occupied mode
    have hroot := root_of_pgdir ((h.sound.cpu c).pgdir e hcur)
    obtain ⟨hkept', hentry⟩ := hkept.userStore hp hroot write
    exact ⟨⟨h.tidy.of_memory ⟨free, hkept'⟩, hsound, h.parked⟩,
      (Shrinks.of_entry fun r hr hlow _ ↦ hentry r hr hlow).gains⟩

end Kernel

end SistemasOperativos.Jos
