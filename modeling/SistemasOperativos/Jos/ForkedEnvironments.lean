import SistemasOperativos.Jos.ForkedSpaces

/-!
# Forked environments

`fork` from its first system call to its last one. The child is a new environment that can read what its
parent could read, at the same addresses and in the same pages; neither of them can write these pages
any more, and those that the parent could write are marked to be copied first.
-/

namespace SistemasOperativos.Jos

open Library Library.Except Memory

variable {n : ℕ} {s : Scheduler} {c : Fin n} {k k₁ k' : Kernel n} {cur child e : EnvPtr} {pn : ℕ}
  {m₀ m m₁ m' : Memory} {managed free free' rest : List Ppn} {roots : Finset Ppn}
  {pd cpd pd' pp q : Ppn} {va func envid w : Word} {handler : Bool} {tf : Trapframe}

/-! ## The handler of the program -/

/-- The program can read the code of the upcall, which is not on its exception stack. -/
structure Callable (m : Memory) (pd : Ppn) (func : Word) : Prop where
  below : func.toNat + 4096 ≤ utop.toNat
  pages : ∀ i, func.toNat / 4096 ≤ i → i * 4096 < func.toNat + 4096 → Copies m pd i

theorem grants_of_read (hexact : m.Exact roots free other) (hpd : pd ∈ roots) (hpn : pn < 977920)
    (hread : m.mapping pd (pageStart pn) &&& userRead = userRead) :
    m.Grants (some pd) (pteP ||| pteU ||| pteU) pn := by
  have hmapped : m.mapping pd (pageStart pn) ≠ 0 := by
    intro hzero
    rw [hzero] at hread
    exact absurd hread (by decide)
  have htable := table_of_mapping hmapped
  have hva := pdx_lt_utop (pageStart_lt_utop hpn)
  have hbits : pteP ||| pteU ||| pteU ||| pteP = userRead := by decide
  refine ⟨_, pgdirWalk_of_table htable (hexact.target _ _ (refers_table hpd hva htable)), ?_⟩
  have hentry : m.readPte (pgnum (m.word pd (pdx (pageStart pn))), ptx (pageStart pn)) =
      m.mapping pd (pageStart pn) := (mapping_of_table htable).symm
  rw [hentry, hbits]
  exact hread

/-- `sys_env_set_pgfault_upcall` with code that the environment can read. -/
theorem sysEnvSetPgfaultUpcall_returns (hfound : k.envid2env c envid true = .ok (some e))
    (hpgdir : (k.envs e).envPgdir = some pd) (hexact : k.memory.Exact roots free other)
    (hpd : pd ∈ roots) (hbelow : func.toNat + 4096 ≤ utop.toNat)
    (hread : ∀ i, func.toNat / 4096 ≤ i → i * 4096 < func.toNat + 4096 →
      k.memory.mapping pd (pageStart i) &&& userRead = userRead) :
    k.sysEnvSetPgfaultUpcall s c envid func =
      .ok (.returns 0, k.setEnv e { k.envs e with envPgfaultUpcall := func }) := by
  have hsize : pgsize.toNat = 4096 := rfl
  have hutop : utop.toNat = 977920 * 4096 := rfl
  have hsum : (func + pgsize).toNat = func.toNat + 4096 := by
    rw [BitVec.toNat_add, hsize]
    omega
  have hcheck : k.memory.userMemCheck (some pd) func pgsize (pteP ||| pteU ||| pteU) = .ok 0 := by
    rw [userMemCheck_eq_zero (by omega)]
    refine ⟨by rw [BitVec.le_def, hsum]; exact hbelow, fun i hfrom hto ↦ ?_⟩
    rw [hsum] at hto
    exact grants_of_read hexact hpd (by omega) (hread i hfrom hto)
  have hassert : k.userMemAssert s c e func pgsize (pteP ||| pteU) = .ok (.returns (), k) := by
    unfold Kernel.userMemAssert
    rw [hpgdir, hcheck]
    rfl
  unfold Kernel.sysEnvSetPgfaultUpcall
  exact bind_ok.mpr ⟨_, hfound, bind_ok.mpr ⟨_, hassert, rfl⟩⟩

/-- `sys_page_alloc` of an exception stack. -/
theorem sysPageAlloc_exstk (hfound : k.envid2env c envid true = .ok (some e))
    (hpgdir : (k.envs e).envPgdir = some pd) (hp : m₀.Prepared managed)
    (hkept : Kept False m₀ k.memory managed k.roots free none) (hroom : 2 ≤ free.length) :
    ∃ pp m' free', k.sysPageAlloc c envid exstk (pteU ||| pteP ||| pteW) =
        .ok (0, { k with memory := m' }) ∧
      Renewed False m₀ k.memory m' managed k.roots free free' pd pp exstk
        (page2pa pp ||| userWrite ||| pteP) := by
  match free, hroom with
  | pp :: table :: rest, _ =>
    have hperm : ¬ checkPerm userWrite none < 0 := by decide
    have hzero : pgnum userWrite ||| pp = pp := by
      rw [pgnum_of_lt (by decide)]
      exact BitVec.zero_or
    obtain ⟨m', free', hinsert, hrenewed⟩ := Kept.pageInsert_renewed hp (Kernel.root_of_pgdir hpgdir)
      (by decide : pdx exstk < pdx utop) hkept hzero (List.cons_ne_nil table rest)
    refine ⟨pp, m', free', ?_, hrenewed⟩
    have hbad : badVa exstk = false := by decide
    have hflags : pteU ||| pteP ||| pteW ||| pteU ||| pteP = userWrite := by decide
    have halloc : k.envPageAlloc e exstk userWrite = .ok (0, { k with memory := m' }) := by
      rw [Kernel.envPageAlloc_of_free hperm hkept.exact.pageFreeList_cons
        (hkept.exact.bound pp List.mem_cons_self), hpgdir]
      exact bind_ok.mpr ⟨_, hinsert, rfl⟩
    unfold Kernel.sysPageAlloc
    simp only [hbad, Bool.false_eq_true, if_false, hflags]
    exact bind_ok.mpr ⟨_, hfound, halloc⟩

/-- The program has its handler and its exception stack. -/
structure Readied (m₀ : Memory) (managed : List Ppn) (k k₁ : Kernel n) (cur : EnvPtr) (pd : Ppn)
    (func : Word) (free free₁ : List Ppn) : Prop where
  envs : ∀ e, k₁.envs e = if e = cur then { k.envs cur with envPgfaultUpcall := func } else k.envs e
  cpus : k₁.cpus = k.cpus
  envFreeList : k₁.envFreeList = k.envFreeList
  kept : Kept False m₀ k₁.memory managed k.roots free₁ none
  mapping : ∀ pd' ∈ k.roots, ∀ va, pdx va < pdx utop → ¬ SamePage pd pd' exstk va →
    k₁.memory.mapping pd' va = k.memory.mapping pd' va
  tables : ∀ pd' ∈ k.roots, ∀ d,
    ¬ (pd' = pd ∧ d = pdx exstk ∧ k.memory.word pd (pdx exstk) = 0) →
      k₁.memory.word pd' d = k.memory.word pd' d
  contents : ∀ q, Mappable k.memory managed k.roots free q → k₁.memory.word q = k.memory.word q
  modest : ∀ va, pdx va < pdx utop → k₁.memory.mapping pd va ≠ 0 →
    (k₁.memory.pages (pgnum (k₁.memory.mapping pd va))).ppRef.toNat < 2 ^ 15
  supply : free.length ≤ free₁.length + 2

theorem setPgfaultHandler_returns (s : Scheduler) (handler : Bool) (func : Word)
    (hp : m₀.Prepared managed) (hcur : k.curenv c = some cur)
    (hpgdir : (k.envs cur).envPgdir = some pd)
    (hkept : Kept False m₀ k.memory managed k.roots free none) (hroom : 2 ≤ free.length)
    (hmodest : ∀ va, pdx va < pdx utop → k.memory.mapping pd va ≠ 0 →
      (k.memory.pages (pgnum (k.memory.mapping pd va))).ppRef.toNat < 2 ^ 15)
    (hcallable : handler = false → Callable k.memory pd func) :
    ∃ k₁ free₁, setPgfaultHandler s c handler func k = .ok (.returns (), k₁) ∧
      Readied m₀ managed k k₁ cur pd (if handler then (k.envs cur).envPgfaultUpcall else func)
        free free₁ := by
  cases handler with
  | true =>
    refine ⟨k, free, rfl, fun e ↦ ?_, rfl, rfl, hkept, fun _ _ _ _ _ ↦ rfl, fun _ _ _ _ ↦ rfl,
      fun _ _ ↦ rfl, hmodest, by omega⟩
    by_cases he : e = cur
    · rw [if_pos he, he]
      rfl
    · rw [if_neg he]
  | false =>
    have hpd := Kernel.root_of_pgdir hpgdir
    have hself : k.envid2env c 0 true = .ok (some cur) := envid2env_self hcur
    obtain ⟨pp, m', free', halloc, hrenewed⟩ := sysPageAlloc_exstk hself hpgdir hp hkept hroom
    obtain ⟨hbelow, hpages⟩ := hcallable rfl
    have hutop : utop.toNat = 977920 * 4096 := rfl
    have hother : ∀ i, Copies k.memory pd i → i < 977920 →
        ¬ SamePage pd pd exstk (pageStart i) := by
      intro i hcopies hi hsame
      refine hcopies.1 ?_
      have hstack : exstk = pageStart 977919 := by decide
      rw [hstack] at hsame
      exact pageStart_injective (by omega) (by decide) hsame.2.1 hsame.2.2
    have hread : ∀ i, func.toNat / 4096 ≤ i → i * 4096 < func.toNat + 4096 →
        m'.mapping pd (pageStart i) &&& userRead = userRead := by
      intro i hfrom hto
      have hi : i < 977920 := by omega
      have hcopies := hpages i hfrom hto
      rw [hrenewed.mapping pd hpd _ (pdx_lt_utop (pageStart_lt_utop hi)), if_neg (hother i hcopies hi)]
      exact hcopies.2.2
    have hset : { k with memory := m' }.sysEnvSetPgfaultUpcall s c 0 func = .ok (.returns 0, _) :=
      sysEnvSetPgfaultUpcall_returns hself hpgdir hrenewed.kept.exact hpd hbelow hread
    refine ⟨_, free', bind_ok.mpr ⟨_, halloc, bind_ok.mpr ⟨_, hset, rfl⟩⟩, fun e ↦ ?_, rfl, rfl,
      hrenewed.kept, fun pd' hpd' va hva hne ↦ ?_, hrenewed.tables, hrenewed.contents,
      fun va hva hmapped ↦ ?_, hrenewed.supply⟩
    · by_cases he : e = cur
      · rw [he, if_pos rfl, Kernel.setEnv_self]
        rfl
      · rw [if_neg he, Kernel.setEnv_of_ne he]
    · exact (hrenewed.mapping pd' hpd' va hva).trans (if_neg hne)
    · change m'.mapping pd va ≠ 0 at hmapped
      change (m'.pages (pgnum (m'.mapping pd va))).ppRef.toNat < 2 ^ 15
      have hentry := hrenewed.mapping pd hpd va hva
      by_cases hsame : SamePage pd pd exstk va
      · rw [if_pos hsame] at hentry
        rw [hentry, pgnum_page2pa_or (by decide), hrenewed.zeroed.2]
        decide
      · rw [if_neg hsame] at hentry
        rw [hentry] at hmapped ⊢
        have hused := hkept.exact.not_free_of_refers (refers_mapping hpd hva hmapped)
        exact Nat.lt_of_le_of_lt (hrenewed.counts _ hused) (hmodest va hva hmapped)

/-! ## The new environment -/

/-- The slot of the child after `sys_exofork`. -/
def Kernel.childEnv (k : Kernel n) (cur child : EnvPtr) (cpd : Ppn) : Env :=
  { k.envs child with
    envPgdir := some cpd
    envId := nextEnvId child (k.envs child).envId
    envParentId := (k.envs cur).envId
    envStatus := .notRunnable
    envRuns := 0
    envTf := { (k.envs cur).envTf with tfRegs := { (k.envs cur).envTf.tfRegs with regEax := 0 } }
    envPgfaultUpcall := 0
    envIpcRecving := false
    priority := (k.envs cur).priority
    timeSlices := 0 }

/-- The kernel after `sys_exofork`: the page `cpd` is the directory of the child. -/
def Kernel.spawned (k : Kernel n) (cur child : EnvPtr) (cpd : Ppn) : Kernel n :=
  { k with
    memory := (k.memory.fresh cpd).withDirectory cpd
    envFreeList := (k.envs child).envLink }.setEnv child (k.childEnv cur child cpd)

theorem sysGetPriority_of_live (hid : (k.envs cur).envId ≠ 0) (hindex : envx (k.envs cur).envId = cur)
    (hlive : (k.envs cur).envStatus ≠ .free) :
    k.sysGetPriority c (k.envs cur).envId = .ok (k.envs cur).priority := by
  have hfound : k.envid2env c (k.envs cur).envId false = .ok (some cur) := by
    unfold Kernel.envid2env
    simp only [hid, hindex, hlive, if_false, ne_eq, not_true_eq_false, or_self, Bool.false_eq_true,
      false_and]
    rfl
  exact bind_ok.mpr ⟨_, hfound, rfl⟩

section Spawning

variable (hcur : k.curenv c = some cur) (hslot : k.envFreeList = some child) (hne : cur ≠ child)
  (hid : (k.envs cur).envId ≠ 0) (hindex : envx (k.envs cur).envId = cur)
  (hlive : (k.envs cur).envStatus ≠ .free)

include hcur hslot hne hid hindex hlive in
theorem sysExofork_returns (hfree : k.memory.pageFreeList = some cpd)
    (hbound : cpd.toNat < k.memory.npages) : k.sysExofork c =
      .ok ((k.childEnv cur child cpd).envId.toInt, k.spawned cur child cpd) := by
  have hvm : Kernel.envSetupVm k.memory =
      .ok (some cpd, (k.memory.fresh cpd).withDirectory cpd) := by
    unfold Kernel.envSetupVm
    exact bind_ok.mpr ⟨_, pageAlloc_of_free hfree hbound, rfl⟩
  have hparent : k.theCurenv c = .ok cur := by
    unfold Kernel.theCurenv
    rw [hcur]
  have halloc : k.envAlloc (k.envs cur).envId = .ok (.ok child,
      { k with
        memory := (k.memory.fresh cpd).withDirectory cpd
        envFreeList := (k.envs child).envLink }.setEnv child { k.envs child with
          envPgdir := some cpd
          envId := Kernel.nextEnvId child (k.envs child).envId
          envParentId := (k.envs cur).envId
          envStatus := .runnable
          envRuns := 0
          envTf := { Trapframe.zero with
            tfDs := userData
            tfEs := userData
            tfSs := userData
            tfEsp := ustacktop
            tfCs := userText
            tfEflags := flIf }
          envPgfaultUpcall := 0
          envIpcRecving := false }) := by
    unfold Kernel.envAlloc
    rw [hslot]
    exact bind_ok.mpr ⟨_, hvm, rfl⟩
  have hpriority : ∀ k' : Kernel n, k'.curenv c = some cur → k'.envs cur = k.envs cur →
      k'.sysGetPriority c (k.envs cur).envId = .ok (k.envs cur).priority := by
    intro k' _ henv
    rw [← henv] at hid hindex hlive ⊢
    exact sysGetPriority_of_live hid hindex hlive
  refine bind_ok.mpr ⟨_, hparent, bind_ok.mpr ⟨_, halloc, bind_ok.mpr ⟨(k.envs cur).priority, ?_, ?_⟩⟩⟩
  · rw [Kernel.setEnv_self, Kernel.setEnv_self]
    apply hpriority
    · exact hcur
    · rw [Kernel.setEnv_of_ne hne, Kernel.setEnv_of_ne hne]
  · simp only [Kernel.setEnv_setEnv, Kernel.setEnv_self, Kernel.setEnv_of_ne hne]
    rfl

end Spawning

/-! ## The address space of the child -/

section Directory

variable (hp : m₀.Prepared managed) (h : Kept False m₀ m managed roots (cpd :: rest) none)

include hp h in
theorem spawned_mapping (hpd' : pd' ∈ roots) (hva : pdx va < pdx utop) :
    ((m.fresh cpd).withDirectory cpd).mapping pd' va = m.mapping pd' va := by
  have hfresh := h.fresh hp
  have hne : pd' ≠ cpd := fun heq ↦ hfresh.hand_unused.1 (heq ▸ hpd')
  have hentry := withDirectory_entry (r := (pd', pdx va, some (ptx va))) hfresh hp
    (Finset.mem_insert_of_mem hpd') hva
  rw [if_neg hne] at hentry
  exact hentry.trans (entry_fresh h.exact (h.forest hp) hpd' hva)

theorem spawned_word (hne : q ≠ cpd) : ((m.fresh cpd).withDirectory cpd).word q = m.word q := by
  funext t
  rw [withDirectory_word, if_neg hne, fresh_word, if_neg hne]

theorem spawned_ppRef (hne : q ≠ cpd) :
    (((m.fresh cpd).withDirectory cpd).pages q).ppRef = (m.pages q).ppRef := by
  rw [withDirectory_pages, if_neg hne, fresh_ppRef]

include hp h in
/-- The loop starts with a child that maps nothing. -/
theorem cloned_start (pd : Ppn) : Cloned m₀ ((m.fresh cpd).withDirectory cpd)
    ((m.fresh cpd).withDirectory cpd) managed (insert cpd roots) rest rest pd cpd 0 := by
  have hfresh := h.fresh hp
  have hempty : ∀ r : Ref, r.1 = cpd → r.2.1 < pdx utop →
      ((m.fresh cpd).withDirectory cpd).entry r = 0 := by
    intro r hr hlow
    rw [withDirectory_entry hfresh hp (hr ▸ Finset.mem_insert_self cpd roots) hlow, if_pos hr]
  refine ⟨hfresh.withDirectory hp, fun i _ ↦ ?_, fun i hi ↦ ?_, fun _ _ _ _ _ _ ↦ rfl,
    fun _ _ _ _ ↦ rfl, fun d hd hused ↦ ?_, fun q hq ↦ ⟨rfl, hq⟩, fun q _ ↦ ?_, ?_⟩
  · rw [if_neg fun hlt ↦ Nat.not_lt_zero i hlt.1]
  · rw [if_neg fun hlt ↦ Nat.not_lt_zero i hlt.1]
    exact hempty (cpd, pdx (pageStart i), some (ptx (pageStart i))) rfl
      (pdx_lt_utop (pageStart_lt_utop hi))
  · exact absurd (hempty (cpd, d, none) rfl hd) hused
  · have hnone : copyCount ((m.fresh cpd).withDirectory cpd) pd q 0 = 0 := rfl
    rw [hnone, Nat.add_zero]
  · exact Nat.le_add_right _ _

end Directory

theorem spawned_roots (hnone : (k.envs child).envPgdir = none) :
    (k.spawned cur child cpd).roots = insert cpd k.roots := by
  have hpgdir : ∀ e, ((k.spawned cur child cpd).envs e).envPgdir =
      if e = child then some cpd else (k.envs e).envPgdir := by
    intro e
    unfold Kernel.spawned
    rw [Kernel.setEnv_envs]
    split <;> rfl
  ext p
  rw [Kernel.mem_roots, Finset.mem_insert, Kernel.mem_roots]
  constructor
  · rintro ⟨e, he⟩
    rw [hpgdir] at he
    split at he
    · exact .inl (Option.some.inj he).symm
    · exact .inr ⟨e, he⟩
  · rintro (rfl | ⟨e, he⟩)
    · exact ⟨child, (hpgdir child).trans (if_pos rfl)⟩
    · refine ⟨e, (hpgdir e).trans ((if_neg ?_).trans he)⟩
      rintro rfl
      rw [hnone] at he
      cases he

/-! ## What a program can read -/

section Reading

theorem mapping_page (m : Memory) (pd : Ppn) (va : Word) :
    m.mapping pd va = m.mapping pd (pageStart (va.toNat / 4096)) := by
  rw [← rounddown_eq, mapping_rounddown]

theorem pdx_page (va : Word) : pdx (pageStart (va.toNat / 4096)) = pdx va := by
  rw [← rounddown_eq, pdx_rounddown]

theorem page_lt (h : va < exstk) : va.toNat / 4096 < 977919 := by
  have hstack : exstk.toNat = 977919 * 4096 := by decide
  rw [BitVec.lt_def, hstack] at h
  omega

theorem not_samePage_exstk (h : va < exstk) : ¬ SamePage pd pd' exstk va := by
  rintro ⟨-, hpdx, hptx⟩
  have hlt := page_lt h
  have hstack : exstk = pageStart 977919 := by decide
  have hslot : ptx (pageStart (va.toNat / 4096)) = ptx va := by
    rw [← rounddown_eq, ptx_rounddown]
  rw [hstack, ← pdx_page va] at hpdx
  rw [hstack, ← hslot] at hptx
  have hpage := pageStart_injective (by omega) (by decide) hpdx hptx
  omega

/-- Below its exception stack a program can read the pages that `fork` duplicates. -/
theorem translate_read (h : va < exstk) : m.translate pd userRead va =
    if Copies m pd (va.toNat / 4096) then some (pgnum (m.mapping pd va)) else none := by
  have hpage : va.toNat / 4096 ≠ uxstacktop.toNat / 4096 - 1 := Nat.ne_of_lt (page_lt h)
  by_cases hmapped : m.mapping pd va = 0
  · rw [translate_of_unmapped hmapped (by decide), if_neg]
    intro hcopies
    have hread := hcopies.2.2
    rw [← mapping_page, hmapped] at hread
    exact absurd hread (by decide)
  by_cases hcopies : Copies m pd (va.toNat / 4096)
  · have hpde := hcopies.2.1
    have hpte := hcopies.2.2
    rw [pdx_page] at hpde
    rw [← mapping_page] at hpte
    rw [if_pos hcopies, translate_of_mapping hmapped hpde hpte]
  · rw [if_neg hcopies]
    refine if_neg fun hboth ↦ hcopies ⟨hpage, ?_, ?_⟩
    · rw [pdx_page]
      exact hboth.1
    · rw [← mapping_page, mapping_of_table (table_of_mapping hmapped)]
      exact hboth.2

/-- Where the entry does not allow writing, nothing can be written. -/
theorem translate_write_none (h : m.mapping pd va &&& pteW = 0) :
    m.translate pd userWrite va = none := by
  by_cases hmapped : m.mapping pd va = 0
  · exact translate_of_unmapped hmapped (by decide)
  · refine if_neg fun hboth ↦ ?_
    have hbits : m.mapping pd va &&& userWrite = userWrite := by
      rw [mapping_of_table (table_of_mapping hmapped)]
      exact hboth.2
    have hbit := bits_of_bits (by decide : userWrite &&& pteW = pteW) hbits
    rw [h] at hbit
    exact absurd hbit (by decide)

theorem translate_write_of_read (h : m.translate pd userRead va = none) :
    m.translate pd userWrite va = none := by
  refine if_neg fun hboth ↦ ?_
  have hread : m.translate pd userRead va ≠ none := by
    have hsome : m.translate pd userRead va = some _ :=
      if_pos ⟨userRead_of_userWrite hboth.1, userRead_of_userWrite hboth.2⟩
    rw [hsome]
    exact Option.some_ne_none _
  exact hread h

end Reading

/-! ## The memory at the end -/

/-- The child has the address space of its parent, copy-on-write. -/
structure SharesCow (m m' : Memory) (pd cpd : Ppn) : Prop where
  readable : ∀ va < exstk, m'.translate cpd userRead va = m.translate pd userRead va ∧
    m'.translate pd userRead va = m.translate pd userRead va
  guarded : ∀ va < exstk, m'.translate cpd userWrite va = none ∧ m'.translate pd userWrite va = none
  marked : ∀ va < exstk, m.translate pd userRead va ≠ none →
    (m'.mapping cpd va &&& pteCow ≠ 0 ↔ m.mapping pd va &&& pteW ≠ 0 ∨ m.mapping pd va &&& pteCow ≠ 0) ∧
    (m'.mapping pd va &&& pteCow ≠ 0 ↔ m.mapping pd va &&& pteW ≠ 0 ∨ m.mapping pd va &&& pteCow ≠ 0)
  contents : ∀ va < exstk, ∀ p, m.translate pd userRead va = some p → m'.word p = m.word p
  stack : ∃ p, m'.translate cpd userWrite exstk = some p ∧ (∀ t, m'.word p t = 0) ∧
    (m'.pages p).ppRef = 1

section Sharing

variable {free₁ free₂ : List Ppn} {m₂ m₃ : Memory}
  (hpd : pd ∈ roots) (hcpd : cpd ∈ roots) (hne : pd ≠ cpd)
  (hcloned : Cloned m₀ m m₂ managed roots free free₂ pd cpd 977920)
  (hrenewed : Renewed False m₀ m₂ m₃ managed roots free₂ free₁ cpd pp exstk
    (page2pa pp ||| userWrite ||| pteP))

include hpd hcpd hne hcloned hrenewed in
theorem sharesCow (hkept : Kept False m₀ m managed roots free none) : SharesCow m m₃ pd cpd := by
  have hstack : pdx exstk < pdx utop := by decide
  have hlow : ∀ va < exstk, pdx va < pdx utop ∧ va.toNat / 4096 < 977920 := by
    intro va hva
    have hlt := page_lt hva
    have hbelow : exstk < utop := by decide
    exact ⟨pdx_lt_utop (BitVec.lt_trans hva hbelow), by omega⟩
  have hparent : ∀ va < exstk, m₃.mapping pd va =
      if Copies m pd (va.toNat / 4096) then parentPte (m.mapping pd va) else m.mapping pd va := by
    intro va hva
    obtain ⟨hdir, hpage⟩ := hlow va hva
    rw [hrenewed.mapping pd hpd va hdir, if_neg (not_samePage_exstk hva), mapping_page m₂,
      hcloned.parent _ hpage, ← mapping_page]
    simp only [hpage, true_and]
  have hchild : ∀ va < exstk, m₃.mapping cpd va =
      if Copies m pd (va.toNat / 4096) then sharedPte (m.mapping pd va) else 0 := by
    intro va hva
    obtain ⟨hdir, hpage⟩ := hlow va hva
    rw [hrenewed.mapping cpd hcpd va hdir, if_neg (not_samePage_exstk hva), mapping_page m₂,
      hcloned.child _ hpage, ← mapping_page]
    simp only [hpage, true_and]
  have htable : ∀ d, m₃.word pd d = m.word pd d := by
    intro d
    rw [hrenewed.tables pd hpd d fun hhere ↦ hne hhere.1, hcloned.tables pd hpd hne d]
  have hchildTable : ∀ d < pdx utop, m₃.word cpd d ≠ 0 →
      m₃.word cpd d &&& userWrite = userWrite := by
    intro d hd hused
    by_cases hnew : d = pdx exstk ∧ m₂.word cpd (pdx exstk) = 0
    · rw [hnew.1]
      exact hrenewed.table hnew.2
    · have hsame := hrenewed.tables cpd hcpd d fun hhere ↦ hnew hhere.2
      rw [hsame] at hused ⊢
      exact (hcloned.childTables d hd hused).1
  have hreadsParent : ∀ va < exstk, m₃.translate pd userRead va = m.translate pd userRead va := by
    intro va hva
    have hiff : Copies m₃ pd (va.toNat / 4096) ↔ Copies m pd (va.toNat / 4096) := by
      unfold Copies
      rw [htable, ← mapping_page, ← mapping_page, hparent va hva]
      split
      · rename_i hcopies
        have hread := hcopies.2.2
        rw [← mapping_page] at hread
        simp only [hread, parentPte_read hread]
      · rfl
    rw [translate_read hva, translate_read hva, if_congr hiff rfl rfl, hparent va hva]
    split
    · rw [pgnum_parentPte]
    · rfl
  have hreadsChild : ∀ va < exstk, m₃.translate cpd userRead va = m.translate pd userRead va := by
    intro va hva
    rw [translate_read (m := m) hva]
    have hentry := hchild va hva
    split
    · rename_i hcopies
      rw [if_pos hcopies] at hentry
      have hread : m₃.mapping cpd va &&& userRead = userRead := by
        rw [hentry]
        exact sharedPte_read
      have hmapped : m₃.mapping cpd va ≠ 0 := by
        intro hzero
        rw [hzero] at hread
        exact absurd hread (by decide)
      have hpde := hchildTable _ (hlow va hva).1 (table_of_mapping hmapped)
      rw [translate_of_mapping hmapped (userRead_of_userWrite hpde) hread, hentry, pgnum_sharedPte]
    · rename_i hcopies
      rw [if_neg hcopies] at hentry
      exact translate_of_unmapped hentry (by decide)
  constructor
  · exact fun va hva ↦ ⟨hreadsChild va hva, hreadsParent va hva⟩
  · intro va hva
    by_cases hcopies : Copies m pd (va.toNat / 4096)
    · refine ⟨translate_write_none ?_, translate_write_none ?_⟩
      · rw [hchild va hva, if_pos hcopies]
        exact sharedPte_write
      · rw [hparent va hva, if_pos hcopies]
        exact parentPte_write
    · have hnone : m.translate pd userRead va = none := by
        rw [translate_read hva, if_neg hcopies]
      exact ⟨translate_write_of_read ((hreadsChild va hva).trans hnone),
        translate_write_of_read ((hreadsParent va hva).trans hnone)⟩
  · intro va hva hsome
    have hcopies : Copies m pd (va.toNat / 4096) := by
      by_contra hno
      rw [translate_read hva, if_neg hno] at hsome
      exact hsome rfl
    rw [hchild va hva, hparent va hva, if_pos hcopies, if_pos hcopies]
    exact ⟨sharedPte_cow, parentPte_cow⟩
  · intro va hva p hsome
    rw [translate_read hva] at hsome
    split at hsome
    · rename_i hcopies
      obtain rfl := Option.some.inj hsome
      have hmapped : m.mapping pd va ≠ 0 := by
        intro hzero
        have hread := hcopies.2.2
        rw [← mapping_page, hzero] at hread
        exact absurd hread (by decide)
      obtain ⟨hword, hstill⟩ := hcloned.contents _ (hkept.mappable_mapping hpd (hlow va hva).1 hmapped)
      exact (hrenewed.contents _ hstill).trans hword
    · cases hsome
  · have hentry := hrenewed.mapping cpd hcpd exstk hstack
    rw [if_pos ⟨rfl, rfl, rfl⟩] at hentry
    have hmapped : m₃.mapping cpd exstk ≠ 0 := by
      rw [hentry]
      exact or_pteP_ne_zero _
    refine ⟨pp, ?_, hrenewed.zeroed.1, hrenewed.zeroed.2⟩
    rw [translate_of_mapping hmapped (hchildTable _ hstack (table_of_mapping hmapped))
      (by rw [hentry]; exact (pte_userWrite pp).1), hentry, pgnum_page2pa_or (by decide)]

end Sharing

theorem translate_congr {need : Word} (hneed : need ≠ 0) (hmapping : m'.mapping pd va = m.mapping pd va)
    (hword : m.mapping pd va ≠ 0 → m'.word pd (pdx va) = m.word pd (pdx va)) :
    m'.translate pd need va = m.translate pd need va := by
  by_cases hmapped : m.mapping pd va = 0
  · rw [translate_of_unmapped hmapped hneed, translate_of_unmapped (hmapping.trans hmapped) hneed]
  · have htable := table_of_mapping hmapped
    have hsame := hword hmapped
    have hentry := hmapping
    rw [mapping_of_table htable, mapping_of_table (by rw [hsame]; exact htable)] at hentry
    change m'.word (pgnum (m'.word pd (pdx va))) (ptx va) =
      m.word (pgnum (m.word pd (pdx va))) (ptx va) at hentry
    rw [hsame] at hentry
    unfold Memory.translate
    simp only [readPte]
    refine if_congr ?_ ?_ rfl
    · rw [hsame, hentry]
    · rw [hsame, hentry]

/-- What happens before the loop does not count. -/
theorem SharesCow.of_before (h : SharesCow m₁ m' pd cpd)
    (hmapping : ∀ va < exstk, m₁.mapping pd va = m.mapping pd va)
    (hword : ∀ va < exstk, m.mapping pd va ≠ 0 → m₁.word pd (pdx va) = m.word pd (pdx va))
    (hcontents : ∀ va < exstk, m.mapping pd va ≠ 0 →
      m₁.word (pgnum (m.mapping pd va)) = m.word (pgnum (m.mapping pd va))) :
    SharesCow m m' pd cpd := by
  have hread : ∀ va < exstk, m₁.translate pd userRead va = m.translate pd userRead va :=
    fun va hva ↦ translate_congr (by decide) (hmapping va hva) (hword va hva)
  refine ⟨fun va hva ↦ ?_, h.guarded, fun va hva hsome ↦ ?_, fun va hva p hsome ↦ ?_, h.stack⟩
  · rw [← hread va hva]
    exact h.readable va hva
  · rw [← hread va hva] at hsome
    rw [← hmapping va hva]
    exact h.marked va hva hsome
  · have hmapped : m.mapping pd va ≠ 0 := by
      intro hzero
      rw [translate_of_unmapped hzero (by decide)] at hsome
      cases hsome
    have hpage := hsome
    rw [translate_read hva] at hpage
    split at hpage
    · obtain rfl := Option.some.inj hpage
      rw [← hread va hva] at hsome
      exact (h.contents va hva _ hsome).trans (hcontents va hva hmapped)
    · cases hpage

/-! ## From the first call to the last one -/

theorem envid2env_child (hcur : k.curenv c = some cur) (hid : (k.envs child).envId ≠ 0)
    (hindex : envx (k.envs child).envId = child) (hlive : (k.envs child).envStatus ≠ .free)
    (hparent : (k.envs child).envParentId = (k.envs cur).envId) :
    k.envid2env c (k.envs child).envId true = .ok (some child) := by
  have htheCurenv : k.theCurenv c = .ok cur := by
    unfold Kernel.theCurenv
    rw [hcur]
  unfold Kernel.envid2env
  simp only [hid, hindex, hlive, if_false, ne_eq, not_true_eq_false, or_self, true_and]
  split
  · simp only [htheCurenv, bind, Except.bind, hparent, not_true_eq_false, if_false]
    rfl
  · rfl

/-- Another upcall does not change whom an id names. -/
theorem envid2env_withUpcall (hfound : k.envid2env c envid true = .ok (some e)) (e' : EnvPtr)
    (upcall : Word) : (k.setEnv e' { k.envs e' with envPgfaultUpcall := upcall }).envid2env c envid
      true = .ok (some e) := by
  set k' := k.setEnv e' { k.envs e' with envPgfaultUpcall := upcall } with hk'
  have hsame : ∀ i, (k'.envs i).envId = (k.envs i).envId ∧
      (k'.envs i).envStatus = (k.envs i).envStatus ∧
      (k'.envs i).envParentId = (k.envs i).envParentId := by
    intro i
    rw [hk', Kernel.setEnv_envs]
    split
    · rename_i heq
      rw [heq]
      exact ⟨rfl, rfl, rfl⟩
    · exact ⟨rfl, rfl, rfl⟩
  have hcurenv : k'.curenv c = k.curenv c := rfl
  have htheCurenv : k'.theCurenv c = k.theCurenv c := rfl
  unfold Kernel.envid2env at hfound ⊢
  simp only [hsame, hcurenv, htheCurenv] at hfound ⊢
  exact hfound

theorem sysEnvSetStatus_runnable (hfound : k.envid2env c envid true = .ok (some e)) :
    k.sysEnvSetStatus c envid 2 = .ok (0, k.setEnv e { k.envs e with envStatus := .runnable }) :=
  bind_ok.mpr ⟨_, hfound, rfl⟩

/-- What `fork` needs: a slot for the child, a page for its directory, for each of its page tables and
for its exception stack, as much again for the exception stack of its parent, and pages that can be
counted twice. -/
structure Kernel.MayFork (k : Kernel n) (c : Fin n) (cur : EnvPtr) (pd : Ppn) (func : Word) : Prop where
  current : k.curenv c = some cur
  running : (k.envs cur).envStatus = .running
  pgdir : (k.envs cur).envPgdir = some pd
  slot : k.envFreeList ≠ none
  pages : ∃ free, Chain (fun q ↦ (k.memory.pages q).ppLink) k.memory.pageFreeList free ∧
    (tableSlots k.memory pd).card + 6 ≤ free.length
  modest : ∀ va, pdx va < pdx utop → k.memory.mapping pd va ≠ 0 →
    (k.memory.pages (pgnum (k.memory.mapping pd va))).ppRef.toNat < 2 ^ 15
  callable : Callable k.memory pd func

/-- What `fork` leaves. -/
structure Kernel.Forked (k k' : Kernel n) (cur child : EnvPtr) (pd cpd : Ppn) (tf : Trapframe)
    (func : Word) : Prop where
  unused : (k.envs child).envStatus = .free
  made : k'.envs child = { k.envs child with
    envPgdir := some cpd
    envId := nextEnvId child (k.envs child).envId
    envParentId := (k.envs cur).envId
    envStatus := .runnable
    envRuns := 0
    envTf := { tf with tfRegs := { tf.tfRegs with regEax := 0 } }
    envPgfaultUpcall := func
    envIpcRecving := false
    priority := (k.envs cur).priority
    timeSlices := 0 }
  parent : k'.envs cur = { k.envs cur with envTf := tf, envPgfaultUpcall := func }
  bystanders : ∀ e, e ≠ cur → e ≠ child → k'.envs e = k.envs e
  shares : SharesCow k.memory k'.memory pd cpd
  others : ∀ e pd', e ≠ cur → (k.envs e).envPgdir = some pd' → ∀ va < utop,
    k'.memory.mapping pd' va = k.memory.mapping pd' va ∧ (k.memory.mapping pd' va ≠ 0 →
      k'.memory.word (pgnum (k.memory.mapping pd' va)) =
        k.memory.word (pgnum (k.memory.mapping pd' va)))

namespace Readied

variable (h : Readied m₀ managed k k₁ cur pd func free (cpd :: rest)) (hp : m₀.Prepared managed)
  (hkept : Kept False m₀ k.memory managed k.roots free none) (hpd' : pd' ∈ k.roots)
  (hva : pdx va < pdx utop) (hother : ¬ SamePage pd pd' exstk va)

include h hp hpd' hva hother in
theorem mapping_spawned :
    ((k₁.memory.fresh cpd).withDirectory cpd).mapping pd' va = k.memory.mapping pd' va :=
  (spawned_mapping hp h.kept hpd' hva).trans (h.mapping pd' hpd' va hva hother)

include h hp hpd' in
theorem word_spawned {d : Slot}
    (hold : ¬ (pd' = pd ∧ d = pdx exstk ∧ k.memory.word pd (pdx exstk) = 0)) :
    ((k₁.memory.fresh cpd).withDirectory cpd).word pd' d = k.memory.word pd' d := by
  have hne : pd' ≠ cpd := fun heq ↦ (h.kept.fresh hp).hand_unused.1 (heq ▸ hpd')
  rw [spawned_word hne, h.tables pd' hpd' d hold]

include h hp hkept hpd' hva hother in
/-- A page that was mapped is as it was, and can still be mapped. -/
theorem contents_spawned (hmapped : k.memory.mapping pd' va ≠ 0) :
    ((k₁.memory.fresh cpd).withDirectory cpd).word (pgnum (k.memory.mapping pd' va)) =
        k.memory.word (pgnum (k.memory.mapping pd' va)) ∧
      Mappable ((k₁.memory.fresh cpd).withDirectory cpd) managed (insert cpd k.roots) rest
        (pgnum (k.memory.mapping pd' va)) := by
  have hsame := h.mapping pd' hpd' va hva hother
  have hmappable := h.kept.mappable_mapping hpd' hva (hsame.symm ▸ hmapped)
  rw [hsame] at hmappable
  have hne := h.kept.ne_of_mappable hmappable
  have hspawned := h.mapping_spawned hp hpd' hva hother
  have hafter := ((h.kept.fresh hp).withDirectory hp).mappable_mapping
    (Finset.mem_insert_of_mem hpd') hva (hspawned.symm ▸ hmapped)
  rw [hspawned] at hafter
  refine ⟨?_, hafter⟩
  rw [spawned_word hne]
  exact h.contents _ (hkept.mappable_mapping hpd' hva hmapped)

include h hp in
/-- The parent may have got a table for its exception stack. -/
theorem card_tableSlots (hpd : pd ∈ k.roots) :
    (tableSlots ((k₁.memory.fresh cpd).withDirectory cpd) pd).card ≤
      (tableSlots k.memory pd).card + 1 := by
  have hsub : tableSlots ((k₁.memory.fresh cpd).withDirectory cpd) pd ⊆
      insert (pdx exstk) (tableSlots k.memory pd) := by
    intro d hd
    simp only [tableSlots, Finset.mem_insert, Finset.mem_filter, Finset.mem_univ, true_and] at hd ⊢
    by_cases hslot : d = pdx exstk
    · exact .inl hslot
    · rw [h.word_spawned hp hpd fun hhere ↦ hslot hhere.2.1] at hd
      exact .inr hd
  exact (Finset.card_le_card hsub).trans (Finset.card_insert_le _ _)

include h hp in
theorem modest_spawned (hpd : pd ∈ k.roots)
    (hmapped : ((k₁.memory.fresh cpd).withDirectory cpd).mapping pd va ≠ 0) (hva : pdx va < pdx utop) :
    (((k₁.memory.fresh cpd).withDirectory cpd).pages
      (pgnum (((k₁.memory.fresh cpd).withDirectory cpd).mapping pd va))).ppRef.toNat < 2 ^ 15 := by
  rw [spawned_mapping hp h.kept hpd hva] at hmapped ⊢
  rw [spawned_ppRef (h.kept.ne_of_mappable (h.kept.mappable_mapping hpd hva hmapped))]
  exact h.modest va hva hmapped

include h hp in
theorem callable_spawned {upcall : Word} (hpd : pd ∈ k.roots) (hcallable : Callable k.memory pd upcall) :
    Callable ((k₁.memory.fresh cpd).withDirectory cpd) pd upcall := by
  have hutop : utop.toNat = 977920 * 4096 := rfl
  have hbelow := hcallable.below
  refine ⟨hbelow, fun i hfrom hto ↦ ?_⟩
  have hi : i < 977920 := by omega
  obtain ⟨hstack, hpde, hpte⟩ := hcallable.pages i hfrom hto
  have hlow : pageStart i < exstk := by
    have htop : exstk.toNat = 977919 * 4096 := by decide
    have hlast : uxstacktop.toNat / 4096 - 1 = 977919 := rfl
    rw [BitVec.lt_def, toNat_pageStart (by omega), htop]
    omega
  refine ⟨hstack, ?_, ?_⟩
  · rw [h.word_spawned hp hpd fun hhere ↦ ?_]
    · exact hpde
    · rw [hhere.2.1, hhere.2.2] at hpde
      exact absurd hpde (by decide)
  · rw [h.mapping_spawned hp hpd (pdx_lt_utop (pageStart_lt_utop hi)) (not_samePage_exstk hlow)]
    exact hpte

section Cloning

variable {m₂ m₃ : Memory} {free₂ free₃ : List Ppn}
  (hcloned : Cloned m₀ ((k₁.memory.fresh cpd).withDirectory cpd) m₂ managed (insert cpd k.roots) rest
    free₂ pd cpd 977920)
  (hrenewed : Renewed False m₀ m₂ m₃ managed (insert cpd k.roots) free₂ free₃ cpd pp exstk
    (page2pa pp ||| userWrite ||| pteP))

include h hp hkept hcloned hrenewed in
theorem shares (hpd : pd ∈ k.roots) : SharesCow k.memory m₃ pd cpd := by
  have hfresh := h.kept.fresh hp
  have hne : pd ≠ cpd := fun heq ↦ hfresh.hand_unused.1 (heq ▸ hpd)
  have hshares := sharesCow (Finset.mem_insert_of_mem hpd) (Finset.mem_insert_self cpd k.roots) hne
    hcloned hrenewed (hfresh.withDirectory hp)
  have hlow : ∀ va < exstk, pdx va < pdx utop := by
    intro va hva
    have hbelow : exstk < utop := by decide
    exact pdx_lt_utop (BitVec.lt_trans hva hbelow)
  refine hshares.of_before (fun va hva ↦ ?_) (fun va hva hmapped ↦ ?_) fun va hva hmapped ↦ ?_
  · exact h.mapping_spawned hp hpd (hlow va hva) (not_samePage_exstk hva)
  · refine h.word_spawned hp hpd fun hhere ↦ table_of_mapping hmapped ?_
    rw [hhere.2.1, hhere.2.2]
  · exact (h.contents_spawned hp hkept hpd (hlow va hva) (not_samePage_exstk hva) hmapped).1

include h hp hkept hpd' hva hcloned hrenewed in
/-- Another environment maps what it mapped. -/
theorem spares (hother : pd' ≠ pd) : m₃.mapping pd' va = k.memory.mapping pd' va ∧
    (k.memory.mapping pd' va ≠ 0 → m₃.word (pgnum (k.memory.mapping pd' va)) =
      k.memory.word (pgnum (k.memory.mapping pd' va))) := by
  have hfresh := h.kept.fresh hp
  have hne : pd' ≠ cpd := fun heq ↦ hfresh.hand_unused.1 (heq ▸ hpd')
  have happart : ¬ SamePage pd pd' exstk va := fun hsame ↦ hother hsame.1
  refine ⟨?_, fun hmapped ↦ ?_⟩
  · rw [hrenewed.mapping pd' (Finset.mem_insert_of_mem hpd') va hva, if_neg fun hsame ↦ hne hsame.1,
      hcloned.others pd' (Finset.mem_insert_of_mem hpd') hother hne va hva,
      h.mapping_spawned hp hpd' hva happart]
  · obtain ⟨hword, hmappable⟩ := h.contents_spawned hp hkept hpd' hva happart hmapped
    obtain ⟨hsame, hstill⟩ := hcloned.contents _ hmappable
    exact (hrenewed.contents _ hstill).trans (hsame.trans hword)

end Cloning

end Readied

section Spawned

theorem spawned_envs (e : EnvPtr) : (k.spawned cur child cpd).envs e =
    if e = child then k.childEnv cur child cpd else k.envs e := by
  unfold Kernel.spawned
  exact Kernel.setEnv_envs ..

/-- The parent can work on its child. -/
theorem spawned_forking (hcur : k.curenv c = some cur) (hcr3 : (k.cpus c).cr3 = pd)
    (hpgdir : (k.envs cur).envPgdir = some pd) (hne : cur ≠ child) (hdir : pd ≠ cpd) :
    Forking (k.spawned cur child cpd) c cur child pd cpd := by
  have hchild : (k.spawned cur child cpd).envs child = k.childEnv cur child cpd := by
    rw [spawned_envs, if_pos rfl]
  have hself : (k.spawned cur child cpd).envs cur = k.envs cur := by
    rw [spawned_envs, if_neg hne]
  have hid : (k.childEnv cur child cpd).envId = Kernel.nextEnvId child (k.envs child).envId := rfl
  refine ⟨hcur, hcr3, ?_, ?_, envid2env_child hcur ?_ ?_ ?_ ?_, hdir⟩
  · rw [hself, hpgdir]
  · rw [hchild]
    rfl
  · rw [hchild, hid]
    exact Kernel.nextEnvId_ne_zero _ _
  · rw [hchild, hid]
    exact (Kernel.nextEnvId_spec _ _).2
  · rw [hchild]
    exact fun hfree ↦ nomatch hfree
  · rw [hchild, hself]
    rfl

end Spawned

section Child

variable {m₂ : Memory} {free₂ : List Ppn} (h : Forking k c cur child pd cpd)
  (hp : m₀.Prepared managed)
  (hcloned : Cloned m₀ m m₂ managed k.roots free free₂ pd cpd 977920)

include h hp hcloned in
/-- After the loop the child gets its exception stack and its upcall, and may run. -/
theorem child_readied (hroom : 2 ≤ free₂.length) (hcallable : Callable m pd func) :
    ∃ pp m₃ free₃, Renewed False m₀ m₂ m₃ managed k.roots free₂ free₃ cpd pp exstk
        (page2pa pp ||| userWrite ||| pteP) ∧
      { k with memory := m₂ }.sysPageAlloc c (k.envs child).envId exstk (pteU ||| pteP ||| pteW) =
        .ok (0, { k with memory := m₃ }) ∧
      { k with memory := m₃ }.sysEnvSetPgfaultUpcall s c (k.envs child).envId func =
        .ok (.returns 0, { k with memory := m₃ }.setEnv child
          { k.envs child with envPgfaultUpcall := func }) ∧
      ({ k with memory := m₃ }.setEnv child
          { k.envs child with envPgfaultUpcall := func }).sysEnvSetStatus c (k.envs child).envId 2 =
        .ok (0, { k with memory := m₃ }.setEnv child
          { k.envs child with envPgfaultUpcall := func, envStatus := .runnable }) := by
  have hcpd := Kernel.root_of_pgdir h.pgdir
  obtain ⟨pp, m₃, free₃, halloc, hrenewed⟩ := sysPageAlloc_exstk (k := { k with memory := m₂ })
    (h.of_memory m₂).found h.pgdir hp hcloned.kept hroom
  have hfound := envid2env_withUpcall (h.of_memory m₃).found child func
  have hstatus := sysEnvSetStatus_runnable hfound
  rw [Kernel.setEnv_setEnv, Kernel.setEnv_self] at hstatus
  refine ⟨pp, m₃, free₃, hrenewed, halloc, ?_, hstatus⟩
  have hutop : utop.toNat = 977920 * 4096 := rfl
  have hbelow := hcallable.below
  refine sysEnvSetPgfaultUpcall_returns (k := { k with memory := m₃ }) (h.of_memory m₃).found h.pgdir
    hrenewed.kept.exact hcpd hbelow fun i hfrom hto ↦ ?_
  have hi : i < 977920 := by omega
  have hcopies := hcallable.pages i hfrom hto
  have hother : ¬ SamePage cpd cpd exstk (pageStart i) := by
    intro hsame
    have hstack : exstk = pageStart 977919 := by decide
    rw [hstack] at hsame
    exact hcopies.1 (pageStart_injective (by omega) (by decide) hsame.2.1 hsame.2.2)
  change m₃.mapping cpd (pageStart i) &&& userRead = userRead
  rw [hrenewed.mapping cpd hcpd _ (pdx_lt_utop (pageStart_lt_utop hi)), if_neg hother,
    hcloned.child i hi, if_pos ⟨hi, hcopies⟩]
  exact sharedPte_read

end Child

/-- `sys_exofork` and the rest of `fork`, once the program has its handler. -/
theorem Readied.fork_returns (tf : Trapframe) (h : Readied m₀ managed k k₁ cur pd
      (if handler then (k.envs cur).envPgfaultUpcall else func) free (cpd :: rest))
    (hp : m₀.Prepared managed) (hsettled : k.Settled False m₀ managed) (hnumbered : k.Numbered)
    (hmay : k.MayFork c cur pd (if handler then (k.envs cur).envPgfaultUpcall else func))
    (hkept : Kept False m₀ k.memory managed k.roots free none)
    (hplenty : (tableSlots k.memory pd).card + 6 ≤ free.length)
    (hslot : k.envFreeList = some child)
    (hhandler : setPgfaultHandler s c handler func k = .ok (.returns (), k₁)) :
    ∃ k', fork s c handler func cur tf k = .ok (.returns (k'.envs child).envId.toInt, k') ∧
      k.Forked k' cur child pd cpd tf
        (if handler then (k.envs cur).envPgfaultUpcall else func) := by
  set upcall := if handler then (k.envs cur).envPgfaultUpcall else func
  have hsupply := h.supply
  rw [List.length_cons] at hsupply
  have hunused := hsettled.sound.free.head hslot
  have hnone := (hsettled.sound.free.noPgdir child).mp hunused
  have hne : cur ≠ child := by
    rintro rfl
    rw [hmay.pgdir] at hnone
    cases hnone
  have hpd := Kernel.root_of_pgdir hmay.pgdir
  have hdir : pd ≠ cpd := fun heq ↦ (h.kept.fresh hp).hand_unused.1 (heq ▸ hpd)
  have hcr3 : (k₁.cpus c).cr3 = pd := by
    have hsame := (hsettled.sound.cpu c).pgdir cur hmay.current
    rw [hmay.pgdir] at hsame
    rw [h.cpus]
    exact (Option.some.inj hsame).symm
  have hcurenv : k₁.curenv c = some cur := by
    rw [Kernel.curenv, h.cpus]
    exact hmay.current
  -- The registers of the trap are saved in the slot of the parent.
  set kt := k₁.setTf (some cur) tf with hkt
  have hparent : kt.envs cur = { k.envs cur with envTf := tf, envPgfaultUpcall := upcall } := by
    have hself := h.envs cur
    rw [if_pos rfl] at hself
    rw [hkt, Kernel.setTf, Kernel.setEnv_self, hself]
  have hothers : ∀ e, e ≠ cur → kt.envs e = k.envs e := by
    intro e he
    have hsame := h.envs e
    rw [if_neg he] at hsame
    rw [hkt, Kernel.setTf, Kernel.setEnv_of_ne he, hsame]
  have hchild : kt.envs child = k.envs child := hothers child hne.symm
  have hid : (kt.envs cur).envId = (k.envs cur).envId := by rw [hparent]
  have hnumber := hnumbered.current c cur hmay.current
  have hlive : (kt.envs cur).envStatus ≠ .free := by
    have hrunning : (kt.envs cur).envStatus = .running := by
      rw [hparent]
      exact hmay.running
    rw [hrunning]
    decide
  have hexofork := sysExofork_returns (k := kt) hcurenv (h.envFreeList.trans hslot) hne
    (by rw [hid]; exact hnumber) (by rw [hid]; exact hnumbered.slot cur hnumber) hlive
    h.kept.exact.pageFreeList_cons (h.kept.exact.bound cpd List.mem_cons_self)
  set ks := kt.spawned cur child cpd with hks
  have hmade : ks.envs child = kt.childEnv cur child cpd := by rw [hks, spawned_envs, if_pos rfl]
  have hroots : kt.roots = k.roots := by
    apply Kernel.roots_congr
    intro e
    by_cases he : e = cur
    · rw [he, hparent]
    · rw [hothers e he]
  have hspawned : ks.roots = insert cpd k.roots := by
    rw [hks, spawned_roots (by rw [hchild]; exact hnone), hroots]
  have hforking : Forking ks c cur child pd cpd :=
    spawned_forking (k := kt) hcurenv hcr3 (by rw [hparent]; exact hmay.pgdir) hne hdir
  -- The loop, and what the child still needs.
  have hslots := h.card_tableSlots hp hpd
  have hstart := cloned_start hp h.kept pd
  rw [← hspawned] at hstart
  obtain ⟨m₂, free₂, hloop, hcloned⟩ := forkFrom_returns hforking hp
    (fun va hva hmapped ↦ h.modest_spawned hp hpd hmapped hva) hstart.kept (by omega) hstart
    (by omega : 0 + 977920 ≤ 977920)
  rw [Nat.zero_add] at hcloned
  have hroom : 2 ≤ free₂.length := by
    have hsupply := hcloned.supply
    have hcard := Finset.card_le_card hcloned.tableSlots_subset
    omega
  obtain ⟨pp, m₃, free₃, hrenewed, halloc, hset, hstatus⟩ := child_readied (s := s) hforking hp hcloned
    hroom (h.callable_spawned hp hpd hmay.callable)
  set k' := { ks with memory := m₃ }.setEnv child
    { ks.envs child with envPgfaultUpcall := upcall, envStatus := .runnable } with hk'
  have hfinal : k'.envs child =
      { ks.envs child with envPgfaultUpcall := upcall, envStatus := .runnable } := by
    rw [hk', Kernel.setEnv_self]
  refine ⟨k', ?_, ?_⟩
  · have hpos : 0 < (ks.envs child).envId.toInt := by
      rw [hmade]
      exact (Kernel.nextEnvId_spec _ _).1
    have hword : BitVec.ofInt 32 (ks.envs child).envId.toInt = (ks.envs child).envId :=
      BitVec.ofInt_toInt
    have hcur : k₁.theCurenv c = .ok cur := by
      unfold Kernel.theCurenv
      rw [hcurenv]
    have hself : (ks.envs cur).envPgfaultUpcall = upcall := by
      rw [hks, spawned_envs, if_neg hne, hparent]
    have hreturned : (k'.envs child).envId = (ks.envs child).envId := by rw [hfinal]
    rw [← hself] at hset hstatus
    rw [← hmade] at hexofork
    rw [hreturned]
    refine bind_ok.mpr ⟨_, hhandler, bind_ok.mpr ⟨_, hcur, bind_ok.mpr ⟨_, hexofork, ?_⟩⟩⟩
    simp only [not_lt.mpr hpos.le, ne_of_gt hpos, if_false, hword]
    exact bind_ok.mpr ⟨_, hloop, bind_ok.mpr ⟨_, halloc, bind_ok.mpr ⟨_, hset,
      bind_ok.mpr ⟨_, hstatus, rfl⟩⟩⟩⟩
  · have hrest : ∀ e, e ≠ child → k'.envs e = kt.envs e := by
      intro e he
      rw [hk', Kernel.setEnv_of_ne he]
      change ks.envs e = kt.envs e
      rw [hks, spawned_envs, if_neg he]
    rw [hspawned] at hcloned hrenewed
    refine ⟨hunused, ?_, ?_, fun e he hother ↦ ?_, h.shares hp hkept hcloned hrenewed hpd,
      fun e pd' he hpgdir va hva ↦ ?_⟩
    · rw [hfinal, hmade, Kernel.childEnv, hparent, hchild]
    · rw [hrest cur hne, hparent]
    · rw [hrest e hother, hothers e he]
    · have hdistinct : pd' ≠ pd := by
        intro heq
        exact he (hsettled.tidy.apart e cur pd (heq ▸ hpgdir) hmay.pgdir)
      exact h.spares hp hkept (Kernel.root_of_pgdir hpgdir) (pdx_lt_utop hva) hcloned hrenewed
        hdistinct

end SistemasOperativos.Jos
