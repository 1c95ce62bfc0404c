import SistemasOperativos.Jos.PageAccounting

/-!
# Confinement of page mappings

`sys_page_map` hands its permission to `page_insert`, which puts it into the entry next to the address
of the page: no test looks at the bits outside `PTE_SYSCALL`. Where they leave the page alone, an
environment maps no page that was not allocated for it or shared with it.
-/

namespace SistemasOperativos.Jos

open Library Library.Except Memory

variable {n : ℕ} {s : Scheduler} {c : Fin n} {k k₁ k' : Kernel n} {e dst src : EnvPtr}
  {frugal : Prop} {m m' m₀ : Memory} {managed : List Ppn} {pgdir : Option Ppn} {pd pp p : Ppn}
  {srcva dstva va perm w : Word} {r : ℤ} {call : Call}

namespace Kernel

/-! ## One call -/

/-- The call of `sys_page_map` that a system call makes. -/
def mapCall (k : Kernel n) (c : Fin n) (call : Call) : Except Fault (ℤ × Kernel n) :=
  k.sysPageMap c call.a1 call.a2 call.a3 call.a4 call.a5

/-- What a call of `sys_page_map` promises: no bit outside `PTE_SYSCALL` gets through, and a call that
succeeds makes the entry for `dstva` the one of the page at `srcva`, writable only if that is. -/
structure Confined (k : Kernel n) (c : Fin n) (call : Call) : Prop where
  refused : call.a5 &&& ~~~pteSyscall ≠ 0 → k.mapCall c call = .ok (-eInval, k)
  mapped : ∀ r k', k.mapCall c call = .ok (r, k') → 0 ≤ r → ∃ src dst pdS pd,
    k.envid2env c call.a1 true = .ok (some src) ∧ k.envid2env c call.a3 true = .ok (some dst) ∧
    (k.envs src).envPgdir = some pdS ∧ (k'.envs dst).envPgdir = some pd ∧
    k.memory.mapping pdS call.a2 &&& pteP ≠ 0 ∧ k'.memory.mapping pd call.a4 &&& pteP ≠ 0 ∧
    pgnum (k'.memory.mapping pd call.a4) = pgnum (k.memory.mapping pdS call.a2) ∧
    k'.memory.mapping pd call.a4 &&& (0xfff &&& ~~~pteSyscall) = 0 ∧
    (k'.memory.mapping pd call.a4 &&& pteW ≠ 0 → k.memory.mapping pdS call.a2 &&& pteW ≠ 0)

/-- The tests of `sys_page_map` that end in `-E_INVAL`. -/
def Refuses (k : Kernel n) (c : Fin n) (call : Call) : Prop :=
  badVa call.a2 = true ∨ badVa call.a4 = true ∨ ∃ src dst,
    k.envid2env c call.a1 true = .ok (some src) ∧ k.envid2env c call.a3 true = .ok (some dst) ∧
    (k.memory.pageLookup (k.envs src).envPgdir call.a2 = .ok none ∨
      ∃ page pte, k.memory.pageLookup (k.envs src).envPgdir call.a2 = .ok (some (page, pte)) ∧
        call.a5 &&& pteW &&& ~~~(pteW &&& k.memory.readPte pte) ≠ 0)

theorem pageInsert_result (h : m.pageInsert pgdir pp va perm = .ok (r, m')) :
    r = 0 ∨ r = -eNoMem := by
  unfold Memory.pageInsert at h
  obtain ⟨⟨found, m₁⟩, -, h⟩ := bind_ok.mp h
  cases found with
  | none =>
    obtain ⟨rfl, -⟩ := Prod.mk.inj (pure_ok.mp h)
    exact .inr rfl
  | some pte =>
    obtain ⟨m₂, -, h⟩ := bind_ok.mp h
    obtain ⟨rfl, -⟩ := Prod.mk.inj (pure_ok.mp h)
    exact .inl rfl

/-- The call ends in `-E_INVAL` by its tests only. -/
theorem mapCall_refused_iff : k.mapCall c call = .ok (-eInval, k) ↔ k.Refuses c call := by
  unfold mapCall Kernel.sysPageMap Refuses
  by_cases hsrcva : badVa call.a2 = true
  · simp [hsrcva, pure, Except.pure]
  by_cases hdstva : badVa call.a4 = true
  · simp [hdstva, pure, Except.pure]
  rw [if_neg hsrcva, if_neg hdstva, or_iff_right hsrcva, or_iff_right hdstva]
  constructor
  · intro h
    obtain ⟨found, hsource, h⟩ := bind_ok.mp h
    cases found with
    | none => exact absurd (Prod.mk.inj (pure_ok.mp h)).1 (by decide)
    | some src =>
    obtain ⟨found, htarget, h⟩ := bind_ok.mp h
    cases found with
    | none => exact absurd (Prod.mk.inj (pure_ok.mp h)).1 (by decide)
    | some dst =>
    refine ⟨src, dst, hsource, htarget, ?_⟩
    obtain ⟨found, hlookup, h⟩ := bind_ok.mp h
    cases found with
    | none => exact .inl hlookup
    | some found =>
    obtain ⟨page, pte⟩ := found
    simp only at h
    split at h
    · rename_i hwrite
      rw [write_flags] at hwrite
      exact .inr ⟨page, pte, hlookup, hwrite⟩
    · obtain ⟨⟨r, m'⟩, hinsert, h⟩ := bind_ok.mp h
      obtain ⟨rfl, -⟩ := Prod.mk.inj (pure_ok.mp h)
      rcases pageInsert_result hinsert with hr | hr
      · exact absurd hr (by decide)
      · exact absurd hr (by decide)
  · rintro ⟨src, dst, hsource, htarget, hrefused⟩
    refine bind_ok.mpr ⟨some src, hsource, bind_ok.mpr ⟨some dst, htarget, ?_⟩⟩
    rcases hrefused with hlookup | ⟨page, pte, hlookup, hwrite⟩
    · exact bind_ok.mpr ⟨none, hlookup, rfl⟩
    · refine bind_ok.mpr ⟨some (page, pte), hlookup, ?_⟩
      simp only
      rw [write_flags, if_pos hwrite]
      rfl

/-- The flags of the entry that `page_insert` writes. -/
theorem entry_and (hw : w.toNat < 4096) (hpteP : pteP &&& w = 0) :
    (page2pa pp ||| perm ||| pteP) &&& w = perm &&& w := by
  rw [BitVec.and_or_distrib_right, BitVec.and_or_distrib_right, page2pa_and hw, hpteP]
  simp

/-- The flags of `sys_page_map` are in `PTE_SYSCALL`. -/
theorem flags_and (h : perm &&& ~~~pteSyscall = 0) :
    (pteP ||| pteU ||| perm) &&& (0xfff &&& ~~~pteSyscall) = 0 := by
  have hfixed : (pteP ||| pteU) &&& (0xfff &&& ~~~pteSyscall) = 0 := by decide
  have hown : perm &&& (0xfff &&& ~~~pteSyscall) = 0 := by
    rw [BitVec.and_comm 0xfff, ← BitVec.and_assoc, h]
    exact BitVec.zero_and
  rw [BitVec.and_or_distrib_right, hfixed, hown]
  rfl

/-- A writable entry comes from a writable one. -/
theorem write_of_source (hwrite : (pteP ||| pteU ||| perm) &&& pteW &&& ~~~(pteW &&& w) = 0)
    (h : (pteP ||| pteU ||| perm) &&& pteW ≠ 0) : w &&& pteW ≠ 0 := by
  intro hzero
  have hall : ~~~(0 : Word) = BitVec.allOnes 32 := by decide
  rw [BitVec.and_comm pteW w, hzero, hall, BitVec.and_allOnes] at hwrite
  exact h hwrite

/-- In a tidy kernel `page_insert` leaves the entry that it is told to. -/
theorem Tidy.inserted (h : Tidy frugal m₀ managed k) (hp : m₀.Prepared managed)
    (hpd : pd ∈ k.roots) (hva : pdx va < pdx utop)
    (hcall : k.memory.pageInsert (some pd) pp va perm = .ok (r, m')) (hr : 0 ≤ r) :
    m'.mapping pd va = page2pa pp ||| perm ||| pteP := by
  obtain ⟨free, hkept⟩ := h.kept
  by_cases hroom : k.memory.word pd (pdx va) = 0 ∧ free = []
  · obtain ⟨hempty, rfl⟩ := hroom
    rw [pageInsert_of_full hempty hkept.exact.chain] at hcall
    obtain ⟨rfl, -⟩ := Prod.mk.inj (Except.ok.inj hcall)
    exact absurd hr (by decide)
  · obtain ⟨m₁, free₁, htabled, hreturns⟩ := pageInsert_returns hkept.exact (hkept.forest hp) hpd hva
      fun hempty hnone ↦ hroom ⟨hempty, hnone⟩
    rw [hreturns] at hcall
    obtain ⟨-, rfl⟩ := Prod.mk.inj (Except.ok.inj hcall)
    exact mapped_mapping pp htabled.forest hpd hva htabled.table

/-- In a tidy kernel a call keeps its promise if it asks for no bit outside `PTE_SYSCALL`. -/
theorem Tidy.confined (h : Tidy frugal m₀ managed k) (hp : m₀.Prepared managed)
    (hperm : call.a5 &&& ~~~pteSyscall = 0) : k.Confined c call where
  refused hne := absurd hperm hne
  mapped := by
    intro r k' hcall hr
    unfold mapCall Kernel.sysPageMap at hcall
    split at hcall
    · obtain ⟨rfl, -⟩ := Prod.mk.inj (pure_ok.mp hcall)
      exact absurd hr (by decide)
    rename_i hsrcva
    split at hcall
    · obtain ⟨rfl, -⟩ := Prod.mk.inj (pure_ok.mp hcall)
      exact absurd hr (by decide)
    rename_i hdstva
    obtain ⟨found, hsource, hcall⟩ := bind_ok.mp hcall
    cases found with
    | none =>
      obtain ⟨rfl, -⟩ := Prod.mk.inj (pure_ok.mp hcall)
      exact absurd hr (by decide)
    | some src =>
    obtain ⟨found, htarget, hcall⟩ := bind_ok.mp hcall
    cases found with
    | none =>
      obtain ⟨rfl, -⟩ := Prod.mk.inj (pure_ok.mp hcall)
      exact absurd hr (by decide)
    | some dst =>
    rcases h.envPageMap_cases (lt_of_badVa hsrcva) hcall with ⟨hneg, -⟩ | ⟨pdS, pd, m', hpdS, hpd,
      hmapped, hwrite, hinsert, rfl⟩
    · exact absurd hr (Int.not_le.mpr hneg)
    obtain ⟨free, hkept⟩ := h.kept
    have hsrc := pdx_lt_utop (lt_of_badVa hsrcva)
    have hentry := h.inserted hp (root_of_pgdir hpd) (pdx_lt_utop (lt_of_badVa hdstva)) hinsert hr
    have hpage : pgnum (pteP ||| pteU ||| call.a5) ||| pgnum (k.memory.mapping pdS call.a2) =
        pgnum (k.memory.mapping pdS call.a2) := by
      rw [pgnum_or_flags, pgnum_of_lt (toNat_of_flags hperm)]
      exact BitVec.zero_or
    refine ⟨src, dst, pdS, pd, hsource, htarget, hpdS, hpd, ?_, ?_, ?_, ?_, ?_⟩
    · exact hkept.layout.present _ _ (refers_mapping (root_of_pgdir hpdS) hsrc hmapped)
    · rw [hentry]
      exact or_pteP_and_pteP _
    · rw [hentry]
      exact pgnum_entry hpage
    · rw [hentry, entry_and (by decide) (by decide)]
      exact flags_and hperm
    · rw [hentry, entry_and (by decide) (by decide)]
      exact write_of_source hwrite

/-- Exactly the calls that ask for no such bit, or are refused by another test, keep their promise. -/
theorem Tidy.confined_iff (h : Tidy frugal m₀ managed k) (hp : m₀.Prepared managed) :
    k.Confined c call ↔ call.a5 &&& ~~~pteSyscall = 0 ∨ k.Refuses c call := by
  constructor
  · intro hconfined
    by_cases hperm : call.a5 &&& ~~~pteSyscall = 0
    · exact .inl hperm
    · exact .inr (mapCall_refused_iff.mp (hconfined.refused hperm))
  · rintro (hperm | hrefuses)
    · exact h.confined hp hperm
    · have hcall := mapCall_refused_iff.mpr hrefuses
      refine ⟨fun _ ↦ hcall, fun r k' hcall' hr ↦ ?_⟩
      rw [hcall] at hcall'
      obtain ⟨rfl, -⟩ := Prod.mk.inj (Except.ok.inj hcall')
      exact absurd hr (by decide)

/-! ## Runs -/

/-- The step gives the page to the environment, which has it mapped afterwards. -/
def Obtains (k : Kernel n) (ev : Event n) (k' : Kernel n) (e : EnvPtr) (p : Ppn) : Prop :=
  k.Gives ev e p ∧ ∃ va < utop, k'.Maps e va p

/-- The pages that the environments have been given after one more step. One that is freed has been
given none. -/
def record (k : Kernel n) (ev : Event n) (k' : Kernel n) (given : EnvPtr → Ppn → Prop) (e : EnvPtr)
    (p : Ppn) : Prop :=
  given e p ∧ (k'.envs e).envStatus ≠ .free ∨ k.Obtains ev k' e p

/-- A careful step, with the pages that the environments have been given. -/
def RecordedStep (s : Scheduler) (x : Kernel n × (EnvPtr → Ppn → Prop)) (ev : Event n)
    (x' : Kernel n × (EnvPtr → Ppn → Prop)) : Prop :=
  CarefulStep False s x.1 ev x'.1 ∧ x'.2 = x.1.record ev x'.1 x.2

/-- Every page that is mapped has been given to its environment. -/
def Covered (k : Kernel n) (given : EnvPtr → Ppn → Prop) : Prop :=
  ∀ e va p, va < utop → k.Maps e va p → given e p

theorem Covered.step {ev : Event n} {given : EnvPtr → Ppn → Prop} (h : k.Covered given)
    (hfree : k'.FreeEnvs) (hgains : Gains k k' (k.Gives ev)) :
    k'.Covered (k.record ev k' given) := by
  rintro e va p hva ⟨pd, hpgdir, hmapped, rfl⟩
  rcases hgains e pd hpgdir va (pdx_lt_utop hva) hmapped with ⟨hold, hsame⟩ | hgives
  · refine .inl ⟨?_, fun hnone ↦ ?_⟩
    · rw [hsame] at hmapped ⊢
      exact h e va _ hva ⟨pd, hold, hmapped, rfl⟩
    · rw [(hfree.noPgdir e).mp hnone] at hpgdir
      cases hpgdir
  · exact .inr ⟨hgives, va, hva, pd, hpgdir, hmapped, rfl⟩

theorem recorded_run {k₀ : Kernel n} {evs : List (Event n)} {x : Kernel n × (EnvPtr → Ppn → Prop)}
    (hboot : k₀.Booted managed) (hp : k₀.memory.Prepared managed)
    (hrun : Run (RecordedStep s) (k₀, fun _ _ ↦ False) evs x) :
    Settled False k₀.memory managed x.1 ∧ x.1.Covered x.2 := by
  let inv : Kernel n × (EnvPtr → Ppn → Prop) → Prop := fun x ↦
    Settled False k₀.memory managed x.1 ∧ x.1.Covered x.2
  have hstart : inv (k₀, fun _ _ ↦ False) := by
    refine ⟨hboot.settled hp, ?_⟩
    rintro e va p - ⟨pd, hpgdir, -⟩
    exact absurd hpgdir (by simp [hboot.noPgdir])
  have hinv : inv x := by
    refine hrun.invariant ?_ hstart
    rintro ⟨k, given⟩ ev ⟨k', given'⟩ ⟨hsettled, hcovered⟩ ⟨⟨hstep, hquiet, hcareful⟩, hrecord⟩
    obtain rfl : given' = k.record ev k' given := hrecord
    obtain ⟨hsettled', hgains⟩ := hsettled.step hp hstep hquiet hcareful
    exact ⟨hsettled', hcovered.step hsettled'.sound.free hgains⟩
  exact hinv

/-- Every careful run can be recorded. -/
theorem run_recorded {evs : List (Event n)} (h : Run (CarefulStep False s) k evs k')
    (given : EnvPtr → Ppn → Prop) :
    ∃ given', Run (RecordedStep s) (k, given) evs (k', given') := by
  induction h generalizing given with
  | nil k => exact ⟨given, .nil _⟩
  | @cons k k₁ _ ev _ hstep _ ih =>
    obtain ⟨given', hrun⟩ := ih (k.record ev k₁ given)
    exact ⟨given', .cons ⟨hstep, rfl⟩ hrun⟩

end Kernel

/-- In every run of careful steps each call of `sys_page_map` is confined if and only if its permission
has no bit outside `PTE_SYSCALL` or it is refused all the same, and no environment maps a page that it
has not been given. -/
theorem mappings_confined {k₀ k : Kernel n} {evs : List (Event n)} {given : EnvPtr → Ppn → Prop}
    (hboot : k₀.Booted managed) (hp : k₀.memory.Prepared managed)
    (hrun : Run (Kernel.RecordedStep s) (k₀, fun _ _ ↦ False) evs (k, given)) :
    (∀ ev c k₁ call, k.Enters ev c k₁ (some call) →
      (k₁.Confined c call ↔ call.a5 &&& ~~~pteSyscall = 0 ∨ k₁.Refuses c call)) ∧
    ∀ e va p, va < utop → k.Maps e va p → given e p := by
  obtain ⟨hsettled, hcovered⟩ := Kernel.recorded_run hboot hp hrun
  exact ⟨fun ev c k₁ call henters ↦ (hsettled.enter henters).1.confined_iff hp, hcovered⟩

/-- The page of `0x400000` has been given to the environment that has it mapped there. -/
theorem mappings_confined_small : ∃ k given p,
    Run (Kernel.RecordedStep .rr) (tidyKernel 1 12, fun _ _ ↦ False)
      ([.create 0 smallBinary, .start 0] ++ [.call 0 4 0 0x400000 7 0 0]) (k, given) ∧
      k.Maps 0 0x400000 p ∧ given 0 p := by
  have hresult : (((tidyKernel 1 12).after .rr [.create 0 smallBinary, .start 0]).any fun k ↦
      (k.after .rr [.call 0 4 0 0x400000 7 0 0]).any fun k' ↦
        (k'.envs 0).envPgdir.any fun pd ↦ k'.memory.mapping pd 0x400000 ≠ 0) = true := by
    decide +kernel
  obtain ⟨k₁, hfirst, hlast⟩ := (Option.any_eq_true _ _).mp hresult
  obtain ⟨k, hstep, hmaps⟩ := Kernel.step_of_any hlast
  obtain ⟨pd, hpgdir, hmapped⟩ := (Option.any_eq_true _ _).mp hmaps
  have hcareful : k₁.Careful False (.call 0 4 0 0x400000 7 0 0) :=
    .of_pageAlloc (by decide) False.elim
  have hquiet : (Event.call 0 4 0 0x400000 7 0 0 : Event 1).Quiet := by decide
  have hrun : Run (Kernel.CarefulStep False .rr) (tidyKernel 1 12)
      ([.create 0 smallBinary, .start 0] ++ [.call 0 4 0 0x400000 7 0 0]) k :=
    (Kernel.run_of_modest hfirst (by decide)).append
      (.single ⟨hstep, hquiet.undisturbing, hcareful⟩)
  obtain ⟨given, hrecorded⟩ := Kernel.run_recorded hrun fun _ _ ↦ False
  obtain ⟨hboot, hp⟩ := tidyKernel_booted 1 12 (by decide)
  have hmaps : k.Maps 0 0x400000 (pgnum (k.memory.mapping pd 0x400000)) :=
    ⟨pd, hpgdir, of_decide_eq_true hmapped, rfl⟩
  exact ⟨k, given, _, hrecorded, hmaps,
    (mappings_confined hboot hp hrecorded).2 0 _ _ (by decide) hmaps⟩

/-- An environment maps its stack once more and sets bits of the page number in the permission: it
gets a page that the allocator never had. -/
theorem mapping_escapes : (tidyKernel 1 12).Booted (smallFree 12) ∧
    (tidyKernel 1 12).memory.Prepared (smallFree 12) ∧
    ∃ k, Run (Kernel.Step .rr) (tidyKernel 1 12) [.create 0 smallBinary, .start 0] k ∧
      (∃ k₁ call, k.Enters (.call 0 5 0 0xeebfd000 0 0x400000 0x1f007) 0 k₁ (some call) ∧
        call.no = .pageMap ∧ ¬ k₁.Confined 0 call) ∧
      ∃ k', k.Step .rr (.call 0 5 0 0xeebfd000 0 0x400000 0x1f007) k' ∧
        ∃ p, p ∉ smallFree 12 ∧ k'.Maps 0 0x400000 p := by
  obtain ⟨hboot, hp⟩ := tidyKernel_booted 1 12 (by decide)
  refine ⟨hboot, hp, ?_⟩
  let tf := callFrame 5 0 0xeebfd000 0 0x400000 0x1f007
  let call : Call := ⟨.pageMap, 0, 0xeebfd000, 0, 0x400000, 0x1f007⟩
  have hresult : (((tidyKernel 1 12).after .rr [.create 0 smallBinary, .start 0]).any fun k ↦
      (decide (k.UserMode 0) && k.curenv 0 == some 0 && decide ((k.envs 0).envStatus ≠ .dying) &&
        match (k.saveTf 0 0 tf).mapCall 0 call with
        | .ok (r, _) => r == 0
        | .error _ => false) &&
      (k.after .rr [.trap 0 tf 0 ⟨0, none⟩]).any fun k' ↦
        (k'.envs 0).envPgdir.any fun pd ↦
          k'.memory.mapping pd 0x400000 ≠ 0 && pgnum (k'.memory.mapping pd 0x400000) == 31) =
      true := by
    decide +kernel
  obtain ⟨k, hrun, hcheck⟩ := Kernel.run_of_any hresult
  simp only [Bool.and_eq_true, beq_iff_eq, decide_eq_true_eq] at hcheck
  obtain ⟨⟨⟨⟨hmode, hcur⟩, halive⟩, hmapped⟩, hlast⟩ := hcheck
  refine ⟨k, hrun, ⟨k.saveTf 0 0 tf, call, .user hmode hcur halive, rfl, fun hconfined ↦ ?_⟩, ?_⟩
  · rw [hconfined.refused (by decide)] at hmapped
    have hzero : ((-eInval : ℤ) == 0) = true := hmapped
    exact absurd hzero (by decide)
  · obtain ⟨k', hstep, hmaps⟩ := Kernel.step_of_any hlast
    obtain ⟨pd, hpgdir, hentry⟩ := (Option.any_eq_true _ _).mp hmaps
    rw [Bool.and_eq_true, beq_iff_eq, decide_eq_true_eq] at hentry
    exact ⟨k', hstep, 31, by decide, pd, hpgdir, hentry.1, hentry.2.symm⟩

end SistemasOperativos.Jos
