import SistemasOperativos.Jos.PageRuns

/-!
# Accounting for physical pages

Every page that was free when the kernel started is free, or it has as many references as its count
says, and one at least. This holds in every run whose system calls are careful and leave the
environments of the other CPUs to them. Where the memory runs out between a page and its page table,
`env_page_alloc` loses the page.
-/

namespace SistemasOperativos.Jos

open Library Library.Except Memory

variable {n : ℕ} {s : Scheduler} {k k' : Kernel n} {e : EnvPtr} {frugal : Prop} {m₀ : Memory}
  {managed free : List Ppn} {pd p q : Ppn}

/-- The page that a present entry of a page directory or of a page table refers to, below `UTOP`. -/
def Memory.present (m : Memory) : Ref → Option Ppn
  | (pd, d, none) =>
    let pde := m.word pd d
    if d < pdx utop ∧ pde &&& pteP ≠ 0 then some (pgnum pde) else none
  | (pd, d, some t) =>
    let pde := m.word pd d
    let pte := m.word (pgnum pde) t
    if d < pdx utop ∧ pde &&& pteP ≠ 0 ∧ pte &&& pteP ≠ 0 then some (pgnum pte) else none

/-- In the layout of the kernel the entries that are present are those that are not zero. -/
theorem Memory.Layout.present_eq {m : Memory} {roots : Finset Ppn} {d : Slot} {t : Option Slot}
    (h : Layout m₀ m managed roots) (hpd : pd ∈ roots) :
    m.present (pd, d, t) = m.refers roots (pd, d, t) := by
  have hnonzero : ∀ {w : Word}, w &&& pteP ≠ 0 → w ≠ 0 := by
    rintro _ hw rfl
    exact hw (by decide)
  cases t with
  | none =>
    by_cases hentry : d < pdx utop ∧ m.word pd d &&& pteP ≠ 0
    · exact (if_pos hentry).trans (refers_table hpd hentry.1 (hnonzero hentry.2)).symm
    · refine (if_neg hentry).trans (if_neg ?_).symm
      rintro ⟨-, hlow, hne⟩
      exact hentry ⟨hlow, h.present _ _ (refers_table hpd hlow hne)⟩
  | some t =>
    by_cases hentry : d < pdx utop ∧ m.word pd d &&& pteP ≠ 0 ∧
        m.word (pgnum (m.word pd d)) t &&& pteP ≠ 0
    · have htable : m.entry (pd, d, some t) = m.word (pgnum (m.word pd d)) t :=
        if_neg (hnonzero hentry.2.1)
      refine (if_pos hentry).trans ?_
      unfold refers
      rw [if_pos ⟨hpd, hentry.1, by rw [htable]; exact hnonzero hentry.2.2⟩, htable]
    · refine (if_neg hentry).trans (if_neg ?_).symm
      rintro ⟨-, hlow, hne⟩
      have htable : m.word pd d ≠ 0 := fun hzero ↦ hne (if_pos hzero)
      have hpte : m.entry (pd, d, some t) = m.word (pgnum (m.word pd d)) t := if_neg htable
      refine hentry ⟨hlow, h.present _ _ (refers_table hpd hlow htable), ?_⟩
      rw [← hpte]
      exact h.present _ _ (if_pos ⟨hpd, hlow, hne⟩)

namespace Kernel

/-! ## References -/

/-- The page directory of a live environment. -/
def directoryOf (k : Kernel n) (e : EnvPtr) : Option Ppn :=
  if (k.envs e).envStatus = .free then none else (k.envs e).envPgdir

/-- The page that an entry below `UTOP` of a live environment refers to: a page table, or a page that
is mapped. -/
def entryOf (k : Kernel n) : EnvPtr × Slot × Option Slot → Option Ppn
  | (e, d, t) => (k.directoryOf e).bind fun pd ↦ k.memory.present (pd, d, t)

/-- The number of references to a page from live environments: as a page directory, as a page table,
and as a page that is mapped. -/
def references (k : Kernel n) (p : Ppn) : ℕ := refCount k.directoryOf p + refCount k.entryOf p

/-- Every page of the allocator is free, or it is counted. -/
def PagesAccounted (k : Kernel n) (managed : List Ppn) : Prop :=
  ∃ free, Chain (fun p ↦ (k.memory.pages p).ppLink) k.memory.pageFreeList free ∧
    ∀ p ∈ managed,
      free.count p = 1 ∧ (k.memory.pages p).ppRef = 0 ∧ k.references p = 0 ∨
      p ∉ free ∧ (k.memory.pages p).ppRef.toNat = k.references p ∧ 1 ≤ k.references p

section References

variable (h : Tidy frugal m₀ managed k) (hfree : k.FreeEnvs)

include hfree in
theorem directoryOf_eq : k.directoryOf e = (k.envs e).envPgdir := by
  unfold directoryOf
  split
  · rename_i hnone
    exact ((hfree.noPgdir e).mp hnone).symm
  · rfl

include h hfree in
theorem refCount_directoryOf (p : Ppn) :
    refCount k.directoryOf p = if p ∈ k.roots then 1 else 0 := by
  split
  · rename_i hroot
    obtain ⟨e, he⟩ := mem_roots.mp hroot
    refine refCount_eq_one (i := e) ?_ fun e' he' ↦ ?_
    · rw [directoryOf_eq hfree]
      exact he
    · rw [directoryOf_eq hfree] at he'
      exact h.apart e' e p he' he
  · rename_i hroot
    refine refCount_eq_zero_iff.mpr fun e he ↦ hroot ?_
    rw [directoryOf_eq hfree] at he
    exact root_of_pgdir he

include h hfree in
theorem entryOf_iff {d : Slot} {t : Option Slot} : k.entryOf (e, d, t) = some q ↔
    ∃ pd, (k.envs e).envPgdir = some pd ∧ k.memory.refers k.roots (pd, d, t) = some q := by
  obtain ⟨free, hkept⟩ := h.kept
  unfold entryOf
  simp only [directoryOf_eq hfree, Option.bind_eq_some_iff]
  refine exists_congr fun pd ↦ and_congr_right fun hpgdir ↦ ?_
  rw [hkept.layout.present_eq (root_of_pgdir hpgdir)]

include h hfree in
/-- No two environments share a page directory, so that their entries are those of the directories. -/
theorem refCount_entryOf (p : Ppn) :
    refCount k.entryOf p = refCount (k.memory.refers k.roots) p := by
  refine refCount_eq_of_bij (fun x ↦ ((k.envs x.1).envPgdir.getD 0, x.2)) ?_ ?_ ?_
  · rintro ⟨e, d, t⟩ hx
    obtain ⟨pd, hpgdir, hrefers⟩ := (entryOf_iff h hfree).mp hx
    simp only [hpgdir, Option.getD_some]
    exact hrefers
  · rintro ⟨e, d, t⟩ ⟨e', d', t'⟩ hx hx' heq
    obtain ⟨pd, hpgdir, -⟩ := (entryOf_iff h hfree).mp hx
    obtain ⟨pd', hpgdir', -⟩ := (entryOf_iff h hfree).mp hx'
    simp only [hpgdir, hpgdir', Option.getD_some, Prod.mk.injEq] at heq
    obtain ⟨rfl, rfl, rfl⟩ := heq
    rw [h.apart e e' pd hpgdir hpgdir']
  · rintro ⟨pd, d, t⟩ hrefers
    obtain ⟨e, hpgdir⟩ := mem_roots.mp (refers_some hrefers).1
    refine ⟨(e, d, t), (entryOf_iff h hfree).mpr ⟨pd, hpgdir, hrefers⟩, ?_⟩
    simp only [hpgdir, Option.getD_some]

include h hfree in
theorem references_eq (p : Ppn) : k.references p =
    refCount (k.memory.refers k.roots) p + if p ∈ k.roots then 1 else 0 := by
  rw [references, refCount_directoryOf h hfree, refCount_entryOf h hfree, Nat.add_comm]

end References

/-- In a tidy kernel that loses no page the pages are accounted for. -/
theorem Tidy.pagesAccounted (h : Tidy True m₀ managed k) (hfree : k.FreeEnvs)
    (hp : m₀.Prepared managed) : k.PagesAccounted managed := by
  obtain ⟨free, hkept⟩ := h.kept
  refine ⟨free, hkept.exact.chain, fun p hmem ↦ ?_⟩
  have hbefore : (m₀.pages p).ppRef.toNat = 0 := by
    rw [hp.unreferenced p hmem]
    rfl
  have hcount : (k.memory.pages p).ppRef.toNat = k.references p := by
    rw [references_eq h hfree, hkept.exact.count p, held, hbefore, Nat.zero_add]
  by_cases hlist : p ∈ free
  · have hzero := hkept.exact.unused p hlist
    refine .inl ⟨List.count_eq_one_of_mem hkept.exact.chain.nodup hlist, hzero, ?_⟩
    rw [← hcount, hzero]
    rfl
  · have hpos : (k.memory.pages p).ppRef ≠ 0 := hkept.owned trivial p hmem hlist (by simp)
    refine .inr ⟨hlist, hcount, ?_⟩
    rw [← hcount]
    bv_omega

end Kernel

/-! ## The start -/

theorem Memory.Prepared.kept (hp : m₀.Prepared managed) :
    Kept frugal m₀ m₀ managed ∅ managed none := by
  have hnone : ∀ r, m₀.refers ∅ r = none :=
    fun r ↦ if_neg fun h ↦ absurd h.1 (Finset.notMem_empty _)
  have hrefers : ∀ r q, m₀.refers ∅ r ≠ some q := by
    intro r q
    rw [hnone]
    simp
  have hcount : ∀ p, refCount (m₀.refers ∅) p = 0 := fun p ↦
    refCount_eq_zero_iff.mpr fun r ↦ hrefers r p
  refine ⟨⟨hp.chain, hp.unlinked, hp.bound, fun p ↦ ?_, hp.unreferenced, ?_⟩,
    ⟨?_, ?_, ?_, ?_, ?_, ?_, fun _ _ ↦ rfl⟩, fun p hp ↦ hp, ?_, fun _ p hp hnot ↦ absurd hp hnot,
    rfl, rfl⟩
  · rw [hcount, held]
    simp
  · exact fun r q hr ↦ absurd hr (hrefers r q)
  · exact fun pd hpd ↦ absurd hpd (Finset.notMem_empty pd)
  · exact fun r q hr ↦ absurd hr (hrefers r q)
  · exact fun r q hr ↦ absurd hr (hrefers r q)
  · exact fun _ _ _ _ _ _ hr ↦ absurd hr (hrefers _ _)
  · exact fun _ _ _ _ _ hr ↦ absurd hr (hrefers _ _)
  · exact fun pd hpd ↦ absurd hpd (Finset.notMem_empty pd)
  · intro p hnone
    cases hnone

namespace Kernel

theorem Booted.noPgdir (h : k.Booted managed) (e : EnvPtr) : (k.envs e).envPgdir = none := by
  obtain ⟨k₀, hzero, rfl⟩ := h.table
  change (k₀.envs e).envPgdir = none
  rw [hzero e]
  rfl

theorem Booted.settled (h : k.Booted managed) (hp : k.memory.Prepared managed) :
    Settled frugal k.memory managed k := by
  have hroots : k.roots = ∅ := by
    ext pd
    simp [h.noPgdir]
  refine ⟨⟨⟨managed, ?_⟩, fun e e' pd he _ ↦ ?_, fun e ↦ ?_⟩, h.sound, fun c _ ↦ ?_⟩
  · rw [hroots]
    exact hp.kept
  · rw [h.noPgdir] at he
    cases he
  · obtain ⟨k₀, hzero, rfl⟩ := h.table
    change (k₀.envs e).envIpcDstva < utop
    rw [hzero e]
    decide
  · rw [h.cpus c]

/-- A step whose system call is careful and leaves the environments of the other CPUs to them. -/
def CarefulStep (frugal : Prop) (s : Scheduler) (k : Kernel n) (ev : Event n) (k' : Kernel n) :
    Prop :=
  k.Step s ev k' ∧ k.Undisturbing ev ∧ k.Careful frugal ev

theorem settled_of_run {k₀ : Kernel n} {evs : List (Event n)} (hboot : k₀.Booted managed)
    (hp : k₀.memory.Prepared managed) (hrun : Run (CarefulStep frugal s) k₀ evs k) :
    Settled frugal k₀.memory managed k :=
  hrun.invariant (fun _ _ _ h hstep ↦ (h.step hp hstep.1 hstep.2.1 hstep.2.2).1) (hboot.settled hp)

end Kernel

/-- Every page of the allocator is free or counted, in every run of careful steps. -/
theorem pages_accounted {k₀ : Kernel n} {evs : List (Event n)} (hboot : k₀.Booted managed)
    (hp : k₀.memory.Prepared managed) (hrun : Run (Kernel.CarefulStep True s) k₀ evs k) :
    k.PagesAccounted managed := by
  have hsettled := Kernel.settled_of_run hboot hp hrun
  exact hsettled.tidy.pagesAccounted hsettled.sound.free hp

/-! ## A small machine -/

/-- A small machine on which nothing is left of the page that is not on the free list. -/
def tidyKernel (n pages : ℕ) : Kernel n :=
  { smallKernel n pages with
    memory := (smallMemory pages).setPage 0 ⟨none, 0⟩ }

theorem tidyKernel_booted (n pages : ℕ) (hpages : pages < 2 ^ 20) :
    (tidyKernel n pages).Booted (smallFree pages) ∧
      (tidyKernel n pages).memory.Prepared (smallFree pages) := by
  have hsmall := smallKernel_booted n pages hpages
  have hpage : ∀ p ∈ smallFree pages, (tidyKernel n pages).memory.pages p =
      (smallMemory pages).pages p := by
    intro p hp
    refine Function.update_of_ne ?_ _ _
    rintro rfl
    exact hsmall.memory.kernPgdir hp
  have hmemory : (tidyKernel n pages).memory.Booted (smallFree pages) :=
    { chain := hsmall.memory.chain.congr fun p hp ↦ congrArg PageInfo.ppLink (hpage p hp)
      bound := hsmall.memory.bound
      unreferenced := fun p hp ↦
        (congrArg PageInfo.ppRef (hpage p hp)).trans (hsmall.memory.unreferenced p hp)
      kernPgdir := hsmall.memory.kernPgdir
      below := hsmall.memory.below
      above := hsmall.memory.above }
  have htable : ∃ k₀ : Kernel n, (∀ e, k₀.envs e = Env.zero) ∧ k₀.envInit = tidyKernel n pages :=
    ⟨⟨(tidyKernel n pages).memory, fun _ ↦ Env.zero, none, (smallKernel n pages).cpus, 0, 0⟩,
      fun _ ↦ rfl, rfl⟩
  refine ⟨⟨hmemory, htable, hsmall.cpus⟩, hmemory, fun p hp ↦ ?_,
    fun d _ _ hne ↦ absurd rfl hne⟩
  by_cases hzero : p = 0
  · have hself : (tidyKernel n pages).memory.pages 0 = ⟨none, 0⟩ := by
      simp [tidyKernel, setPage]
    rw [hzero, hself]
  · have hhigh : ¬ p.toNat < pages := by
      intro hlow
      refine hp (List.mem_map.mpr ⟨p.toNat, List.mem_range'_1.mpr ?_, BitVec.ofNat_toNat 20 p⟩)
      bv_omega
    have hother : (tidyKernel n pages).memory.pages p = (smallMemory pages).pages p :=
      Function.update_of_ne hzero _ _
    rw [hother]
    exact if_neg hhigh

/-- An event whose system call, if it makes one, maps no page. -/
def Event.MapsNothing : Event n → Prop
  | .trap _ tf _ _ => ∀ call ∈ tf.call, ¬ call.no.Maps
  | _ => True

instance : DecidablePred Sysno.Maps := fun _ ↦ inferInstanceAs (Decidable (_ ∨ _ ∨ _))

instance : (ev : Event n) → Decidable ev.MapsNothing
  | .trap _ tf _ _ => inferInstanceAs (Decidable (∀ call ∈ tf.call, ¬ call.no.Maps))
  | .create .. => inferInstanceAs (Decidable True)
  | .start .. => inferInstanceAs (Decidable True)
  | .store .. => inferInstanceAs (Decidable True)

theorem Event.MapsNothing.careful {ev : Event n} (h : ev.MapsNothing) : k.Careful frugal ev := by
  rintro c tf faultVa inp k₁ call rfl henters
  obtain ⟨tf', faultVa', inp', hev, hcall⟩ := henters.of_call
  obtain ⟨-, rfl, -, -⟩ := Event.trap.inj hev
  have hnot : ¬ (call.no = .pageAlloc ∨ call.no = .pageMap ∨ call.no = .ipcTrySend) := h call hcall
  simp only [not_or] at hnot
  exact ⟨fun _ hno ↦ absurd hno hnot.1, fun hno ↦ absurd hno hnot.2.1,
    fun hno ↦ absurd hno hnot.2.2⟩

/-- Where two pages are free, `sys_page_alloc` loses none. -/
theorem Kernel.Careful.of_pageAlloc {c : Fin n} {tf : Trapframe} {faultVa : Word} {inp : Input}
    (hno : ∀ call ∈ tf.call, call.no = .pageAlloc)
    (htwo : frugal → ∃ p, k.memory.pageFreeList = some p ∧ (k.memory.pages p).ppLink ≠ none) :
    k.Careful frugal (.trap c tf faultVa inp) := by
  rintro c' tf' faultVa' inp' k₁ call hev henters
  obtain ⟨tf'', faultVa'', inp'', hev', hcall⟩ := henters.of_call
  obtain ⟨-, rfl, -, -⟩ := Event.trap.inj hev'
  have hkind := hno call hcall
  refine ⟨fun hfrugal _ _ e _ _ hspent ↦ ?_, fun h ↦ ?_, fun h ↦ ?_⟩
  · obtain ⟨p, hhead, hmore⟩ := htwo hfrugal
    obtain ⟨⟨p', hhead', hlast⟩, -⟩ := hspent
    rw [henters.memory] at hhead' hlast
    obtain rfl := Option.some.inj (hhead.symm.trans hhead')
    exact hmore hlast
  · rw [hkind] at h
    cases h
  · rw [hkind] at h
    cases h

theorem Kernel.run_of_modest {k₀ : Kernel n} {evs : List (Event n)} (h : k₀.after s evs = some k)
    (hevs : ∀ ev ∈ evs, ev.Quiet ∧ ev.MapsNothing) : Run (Kernel.CarefulStep frugal s) k₀ evs k :=
  ((Kernel.run_of_after h).with_labels hevs).mono fun _ _ _ hstep ↦
    ⟨hstep.1, hstep.2.1.undisturbing, hstep.2.2.careful⟩

/-- A page is allocated for an address in a region of the address space without a page table. -/
theorem pages_accounted_small :
    ∃ k, Run (Kernel.CarefulStep True .rr) (tidyKernel 1 12)
        ([.create 0 smallBinary, .start 0, .call 0 7 0 0 0 0 0] ++
          [.call 0 4 0x1001 0x400000 7 0 0]) k ∧ k.PagesAccounted (smallFree 12) := by
  have hresult : (((tidyKernel 1 12).after .rr [.create 0 smallBinary, .start 0,
      .call 0 7 0 0 0 0 0]).any fun k ↦
      (k.memory.pageFreeList.any fun p ↦ (k.memory.pages p).ppLink ≠ none) &&
        (k.after .rr [.call 0 4 0x1001 0x400000 7 0 0]).isSome) = true := by
    decide +kernel
  obtain ⟨k₁, hfirst, hcheck⟩ := (Option.any_eq_true _ _).mp hresult
  rw [Bool.and_eq_true] at hcheck
  obtain ⟨htwo, hlast⟩ := hcheck
  obtain ⟨p, hhead, hmore⟩ := (Option.any_eq_true _ _).mp htwo
  obtain ⟨k, hk⟩ := Option.isSome_iff_exists.mp hlast
  have hcareful : k₁.Careful True (.call 0 4 0x1001 0x400000 7 0 0) :=
    .of_pageAlloc (by decide) fun _ ↦ ⟨p, hhead, of_decide_eq_true hmore⟩
  have hquiet : (Event.call 0 4 0x1001 0x400000 7 0 0 : Event 1).Quiet := by decide
  have hrun : Run (Kernel.CarefulStep True .rr) (tidyKernel 1 12)
      ([.create 0 smallBinary, .start 0, .call 0 7 0 0 0 0 0] ++
        [.call 0 4 0x1001 0x400000 7 0 0]) k := by
    refine (Kernel.run_of_modest hfirst (by decide)).append ?_
    cases Kernel.run_of_after hk with
    | cons hstep hnil =>
      cases hnil
      exact .single ⟨hstep, hquiet.undisturbing, hcareful⟩
  obtain ⟨hboot, hp⟩ := tidyKernel_booted 1 12 (by decide)
  exact ⟨k, hrun, pages_accounted hboot hp hrun⟩

/-- The last free page is allocated for an address without a page table, and lost. -/
theorem page_lost : (tidyKernel 1 4).Booted (smallFree 4) ∧
    (tidyKernel 1 4).memory.Prepared (smallFree 4) ∧
    ∃ k, Run (Kernel.Step .rr) (tidyKernel 1 4) [.create 0 smallBinary, .start 0,
        .call 0 4 0 0x400000 7 0 0] k ∧ ¬ k.PagesAccounted (smallFree 4) := by
  obtain ⟨hboot, hp⟩ := tidyKernel_booted 1 4 (by decide)
  refine ⟨hboot, hp, ?_⟩
  have hresult : (((tidyKernel 1 4).after .rr [.create 0 smallBinary, .start 0,
      .call 0 4 0 0x400000 7 0 0]).any fun k ↦
      k.memory.pageFreeList == none && (k.memory.pages 4).ppRef == 0) = true := by
    decide +kernel
  obtain ⟨k, hrun, hcheck⟩ := Kernel.run_of_any hresult
  simp only [Bool.and_eq_true, beq_iff_eq] at hcheck
  obtain ⟨hlist, hzero⟩ := hcheck
  refine ⟨k, hrun, ?_⟩
  rintro ⟨free, hchain, hall⟩
  rw [hlist] at hchain
  obtain rfl := hchain.of_none
  rcases hall 4 (by decide) with ⟨hone, -⟩ | ⟨-, hcount, hpos⟩
  · exact absurd hone (by decide)
  · rw [hzero] at hcount
    rw [← hcount] at hpos
    exact absurd hpos (by decide)

end SistemasOperativos.Jos
