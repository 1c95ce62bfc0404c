import SistemasOperativos.Jos.CowFork

/-!
# The address space of a forked child

The loop of `fork` goes through the pages below `UTOP`. What it has gone through is mapped for the child
where the parent can read it, and neither of the two can write it any more without a page fault. With
enough memory for the page tables of the child nothing fails.
-/

namespace SistemasOperativos.Jos

open Library Library.Except Memory

variable {n : ℕ} {s : Scheduler} {c : Fin n} {k k' : Kernel n} {cur child e : EnvPtr} {pn : ℕ}
  {m₀ m m₁ m' : Memory} {managed free free' : List Ppn} {roots : Finset Ppn}
  {pd cpd pd' pp q : Ppn} {va va' perm envid w : Word} {other : Ppn → ℕ}

/-! ## The system calls -/

/-- The parent runs on the CPU, and may work on the child. -/
structure Forking (k : Kernel n) (c : Fin n) (cur child : EnvPtr) (pd cpd : Ppn) : Prop where
  current : k.curenv c = some cur
  cr3 : (k.cpus c).cr3 = pd
  parent : (k.envs cur).envPgdir = some pd
  pgdir : (k.envs child).envPgdir = some cpd
  found : k.envid2env c (k.envs child).envId true = .ok (some child)
  ne : pd ≠ cpd

theorem Forking.of_memory (h : Forking k c cur child pd cpd) (memory : Memory) :
    Forking { k with memory } c cur child pd cpd :=
  ⟨h.current, h.cr3, h.parent, h.pgdir, h.found, h.ne⟩

theorem rounddown_pageStart (hpn : pn < 2 ^ 20) : rounddown (pageStart pn) = pageStart pn := by
  rw [rounddown_eq, toNat_pageStart hpn, Nat.mul_div_cancel _ (by decide)]

theorem pageStart_lt_utop (hpn : pn < 977920) : pageStart pn < utop := by
  rw [BitVec.lt_def, toNat_pageStart (by omega), toNat_utop]
  omega

theorem badVa_pageStart (hpn : pn < 977920) : badVa (pageStart pn) = false := by
  rw [← rounddown_pageStart (by omega), badVa_rounddown]
  exact decide_eq_false (BitVec.not_le.mpr (pageStart_lt_utop hpn))

section Sharing

variable (hcur : k.curenv c = some cur) (hparent : (k.envs cur).envPgdir = some pd)
  (hpgdir : (k.envs e).envPgdir = some pd') (hexact : k.memory.Exact roots free other)
  (hpd : pd ∈ roots) (hpn : pn < 977920) (hmapped : k.memory.mapping pd (pageStart pn) ≠ 0)

include hparent hpgdir hexact hpd hpn hmapped in
theorem envPageMap_share (hread : perm &&& pteW = 0)
    (hinsert : k.memory.pageInsert (some pd') (pgnum (k.memory.mapping pd (pageStart pn)))
      (pageStart pn) perm = .ok (0, m')) :
    k.envPageMap cur (pageStart pn) e (pageStart pn) perm = .ok (0, { k with memory := m' }) := by
  have hallowed : ∀ w, perm &&& pteW &&& w = 0 := by
    intro w
    rw [hread]
    exact BitVec.zero_and
  unfold Kernel.envPageMap
  rw [hparent, hpgdir, pageLookup_eq hexact hpd (pdx_lt_utop (pageStart_lt_utop hpn)) hmapped]
  refine bind_ok.mpr ⟨_, rfl, ?_⟩
  simp only [hallowed, ne_eq, not_true_eq_false, if_false, hinsert]
  rfl

include hcur hparent hpgdir hexact hpd hpn hmapped in
/-- `sys_page_map` of a page of the parent, at its own address and not to be written. -/
theorem sysPageMap_share (hfound : k.envid2env c envid true = .ok (some e))
    (hread : (pteP ||| pteU ||| perm) &&& pteW = 0)
    (hinsert : k.memory.pageInsert (some pd') (pgnum (k.memory.mapping pd (pageStart pn)))
      (pageStart pn) (pteP ||| pteU ||| perm) = .ok (0, m')) :
    k.sysPageMap c 0 (pageStart pn) envid (pageStart pn) perm = .ok (0, { k with memory := m' }) := by
  unfold Kernel.sysPageMap
  simp only [badVa_pageStart hpn, Bool.false_eq_true, if_false, envid2env_self hcur, hfound]
  exact envPageMap_share hparent hpgdir hexact hpd hpn hmapped hread hinsert

end Sharing

/-! ## One page -/

/-- `duppage` has gone through the page at `va`. -/
structure Duplicated (m₀ m m' : Memory) (managed : List Ppn) (roots : Finset Ppn)
    (free free' : List Ppn) (pd cpd : Ppn) (va : Word) : Prop where
  kept : Kept False m₀ m' managed roots free' none
  mapping : ∀ pd' ∈ roots, ∀ va', pdx va' < pdx utop → m'.mapping pd' va' =
    if SamePage cpd pd' va va' then sharedPte (m.mapping pd va)
    else if SamePage pd pd' va va' then parentPte (m.mapping pd va)
    else m.mapping pd' va'
  tables : ∀ pd' ∈ roots, ∀ d, ¬ (pd' = cpd ∧ d = pdx va ∧ m.word cpd (pdx va) = 0) →
    m'.word pd' d = m.word pd' d
  table : m.word cpd (pdx va) = 0 → m'.word cpd (pdx va) &&& userWrite = userWrite
  contents : ∀ q, Mappable m managed roots free q →
    m'.word q = m.word q ∧ Mappable m' managed roots free' q
  counts : ∀ q ∉ free, (m'.pages q).ppRef =
    (m.pages q).ppRef + if q = pgnum (m.mapping pd va) then 1 else 0
  supply : free = free' ∨ m.word cpd (pdx va) = 0 ∧ ∃ table, free = table :: free'

theorem duppage_returns (h : Forking k c cur child pd cpd) (hp : m₀.Prepared managed)
    (hkept : Kept False m₀ k.memory managed k.roots free none) (hpn : pn < 977920)
    (hload : k.memory.loadWord pd (uvptWord pn) = some (k.memory.mapping pd (pageStart pn)))
    (hread : k.memory.mapping pd (pageStart pn) &&& userRead = userRead)
    (hempty : k.memory.mapping cpd (pageStart pn) = 0)
    (hroom : (k.memory.pages (pgnum (k.memory.mapping pd (pageStart pn)))).ppRef ≠ 0xffff)
    (hfree : k.memory.word cpd (pdx (pageStart pn)) = 0 → free ≠ []) : ∃ m' free',
      duppage c (k.envs child).envId pn k = .ok (.returns 0, { k with memory := m' }) ∧
        Duplicated m₀ k.memory m' managed k.roots free free' pd cpd (pageStart pn) := by
  set pte := k.memory.mapping pd (pageStart pn)
  have hva := pdx_lt_utop (pageStart_lt_utop hpn)
  have hpd := Kernel.root_of_pgdir h.parent
  have hcpd := Kernel.root_of_pgdir h.pgdir
  have hmapped : pte ≠ 0 := by
    intro hzero
    rw [hzero] at hread
    exact absurd hread (by decide)
  obtain ⟨hsmall, hwrite, -, -⟩ := sharedPerm_spec pte
  have hperm : pgnum (pteP ||| pteU ||| sharedPerm pte) ||| pgnum pte = pgnum pte := by
    rw [pgnum_of_lt hsmall]
    exact BitVec.zero_or
  obtain ⟨m₁, free', hinsert, hgained⟩ := hkept.pageInsert_gained hp hcpd hva hempty
    (hkept.mappable_mapping hpd hva hmapped) hroom (fun _ hmem ↦ nomatch hmem) hperm hfree
  have hchild := sysPageMap_share h.current h.parent h.pgdir hkept.exact hpd hpn hmapped h.found
    hwrite hinsert
  have hguard : ¬ (pte &&& pteP = 0 ∨ pte &&& pteU = 0) := readable_iff.mp hread
  have hother : ¬ SamePage cpd pd (pageStart pn) (pageStart pn) := fun hsame ↦ h.ne hsame.1
  have hsame : m₁.mapping pd (pageStart pn) = pte := by
    rw [hgained.mapping pd hpd _ hva, if_neg hother]
  by_cases hcow : pte &&& pteW ≠ 0 ∨ pte &&& pteCow ≠ 0
  · have hshared : sharedPerm pte = dupPerm pte ||| pteCow := if_pos hcow
    obtain ⟨m', hagain, hkept', hpages, hmapping, htables, hcontents⟩ :=
      hgained.kept.pageInsert_again hp hpd hva (hsame.symm ▸ hmapped) (by rw [hsame]) hperm rfl
    have hself : { k with memory := m₁ }.sysPageMap c 0 (pageStart pn) 0 (pageStart pn)
        (sharedPerm pte) = .ok (0, { k with memory := m' }) := sysPageMap_share h.current
      h.parent h.parent hgained.kept.exact hpd hpn (hsame.symm ▸ hmapped) (envid2env_self h.current)
      hwrite (by rw [hsame]; exact hagain)
    rw [hshared] at hchild hself
    refine ⟨m', free', ?_, hkept', fun pd' hpd' va' hva' ↦ ?_, fun pd' hpd' d hd ↦ ?_, fun hnone ↦ ?_,
      fun q hq ↦ ?_, fun q hq ↦ ?_, hgained.supply⟩
    · unfold duppage
      simp only [h.cr3, hload, shiftLeft_page, if_neg hguard, if_pos hcow]
      exact bind_ok.mpr ⟨_, hchild, bind_ok.mpr ⟨_, hself, rfl⟩⟩
    · rw [hmapping pd' hpd' va' hva', hgained.mapping pd' hpd' va' hva', parentPte, if_pos hcow]
      by_cases hfirst : SamePage cpd pd' (pageStart pn) va'
      · rw [if_pos hfirst, if_pos hfirst, if_neg fun hsecond : SamePage pd pd' _ _ ↦
          h.ne (hsecond.1.symm.trans hfirst.1)]
        rfl
      · rw [if_neg hfirst, if_neg hfirst]
        rfl
    · rw [htables pd' hpd' d, hgained.tables pd' hpd' d hd]
    · rw [htables cpd hcpd, hgained.table hnone]
    · obtain ⟨hword, hstill⟩ := hgained.contents q hq
      exact ⟨(hcontents q hstill).1.trans hword, (hcontents q hstill).2⟩
    · rw [hpages, hgained.counts q hq]
  · have hshared : sharedPerm pte = dupPerm pte := if_neg hcow
    rw [hshared] at hchild
    refine ⟨m₁, free', ?_, hgained.kept, fun pd' hpd' va' hva' ↦ ?_, hgained.tables, hgained.table,
      hgained.contents, hgained.counts, hgained.supply⟩
    · unfold duppage
      simp only [h.cr3, hload, shiftLeft_page, if_neg hguard, if_neg hcow]
      exact bind_ok.mpr ⟨_, hchild, rfl⟩
    · rw [hgained.mapping pd' hpd' va' hva', parentPte, if_neg hcow]
      by_cases hfirst : SamePage cpd pd' (pageStart pn) va'
      · rw [if_pos hfirst, if_pos hfirst]
        rfl
      · rw [if_neg hfirst, if_neg hfirst]
        by_cases hsecond : SamePage pd pd' (pageStart pn) va'
        · rw [if_pos hsecond]
          exact mapping_of_samePage hsecond
        · rw [if_neg hsecond]

/-! ## The loop -/

/-- The loop duplicates the page: it is not the exception stack, and the program can read it. -/
def Copies (m : Memory) (pd : Ppn) (pn : ℕ) : Prop :=
  pn ≠ uxstacktop.toNat / 4096 - 1 ∧ m.word pd (pdx (pageStart pn)) &&& userRead = userRead ∧
    m.mapping pd (pageStart pn) &&& userRead = userRead

instance : Decidable (Copies m pd pn) := inferInstanceAs (Decidable (_ ∧ _))

/-- How often the loop has met the page. -/
def copyCount (m : Memory) (pd q : Ppn) (pn : ℕ) : ℕ :=
  ((Finset.range pn).filter fun i ↦ Copies m pd i ∧ pgnum (m.mapping pd (pageStart i)) = q).card

/-- The slots below `UTOP` with a page table. -/
def tableSlots (m : Memory) (pd : Ppn) : Finset Slot :=
  Finset.univ.filter fun d ↦ d < pdx utop ∧ m.word pd d ≠ 0

/-- The loop has gone through the pages before `pn`. -/
structure Cloned (m₀ m m' : Memory) (managed : List Ppn) (roots : Finset Ppn)
    (free free' : List Ppn) (pd cpd : Ppn) (pn : ℕ) : Prop where
  kept : Kept False m₀ m' managed roots free' none
  parent : ∀ i < 977920, m'.mapping pd (pageStart i) =
    if i < pn ∧ Copies m pd i then parentPte (m.mapping pd (pageStart i))
    else m.mapping pd (pageStart i)
  child : ∀ i < 977920, m'.mapping cpd (pageStart i) =
    if i < pn ∧ Copies m pd i then sharedPte (m.mapping pd (pageStart i)) else 0
  others : ∀ pd' ∈ roots, pd' ≠ pd → pd' ≠ cpd → ∀ va, pdx va < pdx utop →
    m'.mapping pd' va = m.mapping pd' va
  tables : ∀ pd' ∈ roots, pd' ≠ cpd → ∀ d, m'.word pd' d = m.word pd' d
  childTables : ∀ d < pdx utop, m'.word cpd d ≠ 0 →
    m'.word cpd d &&& userWrite = userWrite ∧ m.word pd d ≠ 0
  contents : ∀ q, Mappable m managed roots free q →
    m'.word q = m.word q ∧ Mappable m' managed roots free' q
  counts : ∀ q, Mappable m managed roots free q →
    (m'.pages q).ppRef.toNat = (m.pages q).ppRef.toNat + copyCount m pd q pn
  supply : free.length ≤ free'.length + (tableSlots m' cpd).card

section Counting

theorem copyCount_succ (m : Memory) (pd q : Ppn) (pn : ℕ) : copyCount m pd q (pn + 1) =
    copyCount m pd q pn +
      if Copies m pd pn ∧ pgnum (m.mapping pd (pageStart pn)) = q then 1 else 0 := by
  unfold copyCount
  rw [Finset.range_add_one, Finset.filter_insert]
  split
  · rw [Finset.card_insert_of_notMem (by simp)]
  · rfl

theorem pageStart_injective {i j : ℕ} (hi : i < 2 ^ 20) (hj : j < 2 ^ 20)
    (hpdx : pdx (pageStart i) = pdx (pageStart j)) (hptx : ptx (pageStart i) = ptx (pageStart j)) :
    i = j := by
  have hhigh := congrArg BitVec.toNat hpdx
  have hlow := congrArg BitVec.toNat hptx
  rw [pdx_pageStart hi, pdx_pageStart hj] at hhigh
  rw [ptx_pageStart hi, ptx_pageStart hj] at hlow
  omega

/-- Every page that the loop meets is a reference to it. -/
theorem copyCount_le (hexact : m.Exact roots free other) (hpd : pd ∈ roots) (hpn : pn ≤ 977920) :
    copyCount m pd q pn ≤ (m.pages q).ppRef.toNat := by
  have hcount : copyCount m pd q pn ≤ refCount (m.refers roots) q := by
    apply Finset.card_le_card_of_injOn fun i ↦
      ((pd, pdx (pageStart i), some (ptx (pageStart i))) : Ref)
    · intro i hi
      have hmet : i < pn ∧ Copies m pd i ∧ pgnum (m.mapping pd (pageStart i)) = q := by
        simpa only [Finset.coe_filter, Finset.mem_range, Set.mem_ofPred_eq] using hi
      have hlt := hmet.1
      have hlow : i < 977920 := by omega
      have hva := pdx_lt_utop (pageStart_lt_utop hlow)
      have hmapped : m.mapping pd (pageStart i) ≠ 0 := by
        intro hzero
        have hread := hmet.2.1.2.2
        rw [hzero] at hread
        exact absurd hread (by decide)
      simp only [Finset.coe_filter, Finset.mem_univ, true_and, Set.mem_ofPred_eq]
      rw [refers_mapping hpd hva hmapped, hmet.2.2]
    · intro i hi j hj heq
      simp only [Finset.coe_filter, Finset.mem_range, Set.mem_ofPred_eq] at hi hj
      simp only [Prod.mk.injEq, Option.some.injEq, true_and] at heq
      exact pageStart_injective (by omega) (by omega) heq.1 heq.2
  have hexact := hexact.count q
  omega

end Counting

namespace Cloned

variable (h : Cloned m₀ m m' managed roots free free' pd cpd pn)

include h in
/-- A page that is not duplicated. -/
theorem skip (hskip : ¬ Copies m pd pn) : Cloned m₀ m m' managed roots free free' pd cpd (pn + 1) := by
  have hsame : ∀ i, i < pn + 1 ∧ Copies m pd i ↔ i < pn ∧ Copies m pd i := by
    intro i
    refine and_congr_left fun hi ↦ ⟨fun hlt ↦ ?_, fun hlt ↦ by omega⟩
    have hne : i ≠ pn := by
      rintro rfl
      exact hskip hi
    omega
  refine { h with parent := fun i hi ↦ ?_, child := fun i hi ↦ ?_, counts := fun q hq ↦ ?_ }
  · rw [if_congr (hsame i) rfl rfl]
    exact h.parent i hi
  · rw [if_congr (hsame i) rfl rfl]
    exact h.child i hi
  · rw [copyCount_succ, if_neg fun hhere ↦ hskip hhere.1]
    exact h.counts q hq

include h in
/-- The tables of the child are for the slots in which its parent has one. -/
theorem tableSlots_subset : tableSlots m' cpd ⊆ tableSlots m pd := by
  intro d hd
  simp only [tableSlots, Finset.mem_filter, Finset.mem_univ, true_and] at hd ⊢
  exact ⟨hd.1, (h.childTables d hd.1 hd.2).2⟩

theorem word_ne_zero (hcopies : Copies m pd pn) : m.word pd (pdx (pageStart pn)) ≠ 0 := by
  intro hzero
  have hread := hcopies.2.1
  rw [hzero] at hread
  exact absurd hread (by decide)

include h in
/-- There is a page for the next table of the child. -/
theorem supplied (hplenty : (tableSlots m pd).card ≤ free.length) (hpn : pn < 977920)
    (hcopies : Copies m pd pn) (hempty : m'.word cpd (pdx (pageStart pn)) = 0) : free' ≠ [] := by
  have hmem : pdx (pageStart pn) ∈ tableSlots m pd := by
    simp only [tableSlots, Finset.mem_filter, Finset.mem_univ, true_and]
    exact ⟨pdx_lt_utop (pageStart_lt_utop hpn), word_ne_zero hcopies⟩
  have hnot : pdx (pageStart pn) ∉ tableSlots m' cpd := by
    simp only [tableSlots, Finset.mem_filter, Finset.mem_univ, true_and]
    exact fun htable ↦ htable.2 hempty
  have hcard : (tableSlots m' cpd).card < (tableSlots m pd).card :=
    Finset.card_lt_card ⟨h.tableSlots_subset, fun hsub ↦ hnot (hsub hmem)⟩
  have hsupply := h.supply
  intro hnil
  rw [hnil, List.length_nil] at hsupply
  omega

include h in
/-- The page can be counted once more. -/
theorem countable (hexact : m.Exact roots free other) (hpd : pd ∈ roots) (hpn : pn < 977920)
    (hcopies : Copies m pd pn) (hq : Mappable m managed roots free (pgnum (m.mapping pd (pageStart pn))))
    (hmodest : (m.pages (pgnum (m.mapping pd (pageStart pn)))).ppRef.toNat < 2 ^ 15) :
    (m'.pages (pgnum (m.mapping pd (pageStart pn)))).ppRef.toNat < 2 ^ 16 - 1 := by
  have hcount := h.counts _ hq
  have hmet := copyCount_le (q := pgnum (m.mapping pd (pageStart pn))) hexact hpd (Nat.succ_le_of_lt hpn)
  rw [copyCount_succ, if_pos ⟨hcopies, rfl⟩] at hmet
  omega

variable {m'' : Memory} {free'' : List Ppn}

include h in
/-- A page that is duplicated. -/
theorem copy (hpd : pd ∈ roots) (hcpd : cpd ∈ roots) (hne : pd ≠ cpd)
    (hpn : pn < 977920) (hcopies : Copies m pd pn)
    (hroom : (m'.pages (pgnum (m.mapping pd (pageStart pn)))).ppRef.toNat < 2 ^ 16 - 1)
    (hstep : Duplicated m₀ m' m'' managed roots free' free'' pd cpd (pageStart pn)) :
    Cloned m₀ m m'' managed roots free free'' pd cpd (pn + 1) := by
  have hva := pdx_lt_utop (pageStart_lt_utop hpn)
  have hold : m'.mapping pd (pageStart pn) = m.mapping pd (pageStart pn) := by
    rw [h.parent pn hpn, if_neg fun hlt ↦ Nat.lt_irrefl pn hlt.1]
  have hpage : ∀ pd' i, i < 977920 → (SamePage pd' pd' (pageStart pn) (pageStart i) ↔ i = pn) := by
    intro pd' i hi
    constructor
    · exact fun hsame ↦ pageStart_injective (by omega) (by omega) hsame.2.1 hsame.2.2
    · rintro rfl
      exact ⟨rfl, rfl, rfl⟩
  have hsplit : ∀ i, i ≠ pn → (i < pn + 1 ∧ Copies m pd i ↔ i < pn ∧ Copies m pd i) := by
    intro i hi
    exact and_congr_left fun _ ↦ ⟨fun hlt ↦ by omega, fun hlt ↦ by omega⟩
  refine ⟨hstep.kept, fun i hi ↦ ?_, fun i hi ↦ ?_, fun pd' hpd' hfirst hsecond va hlow ↦ ?_,
    fun pd' hpd' hother d ↦ ?_, fun d hd hused ↦ ?_, fun q hq ↦ ?_, fun q hq ↦ ?_, ?_⟩
  · have hlow := pdx_lt_utop (pageStart_lt_utop hi)
    rw [hstep.mapping pd hpd _ hlow, if_neg fun hsame : SamePage cpd pd _ _ ↦ hne hsame.1]
    by_cases hhere : i = pn
    · rw [if_pos ((hpage pd i hi).mpr hhere), hold, hhere, if_pos ⟨Nat.lt_succ_self pn, hcopies⟩]
    · rw [if_neg fun hsame ↦ hhere ((hpage pd i hi).mp hsame), if_congr (hsplit i hhere) rfl rfl]
      exact h.parent i hi
  · have hlow := pdx_lt_utop (pageStart_lt_utop hi)
    rw [hstep.mapping cpd hcpd _ hlow]
    by_cases hhere : i = pn
    · rw [if_pos ((hpage cpd i hi).mpr hhere), hold, hhere, if_pos ⟨Nat.lt_succ_self pn, hcopies⟩]
    · rw [if_neg fun hsame ↦ hhere ((hpage cpd i hi).mp hsame),
        if_neg fun hsame : SamePage pd cpd _ _ ↦ hne hsame.1.symm, if_congr (hsplit i hhere) rfl rfl]
      exact h.child i hi
  · rw [hstep.mapping pd' hpd' va hlow, if_neg fun hsame : SamePage cpd pd' _ _ ↦ hsecond hsame.1,
      if_neg fun hsame : SamePage pd pd' _ _ ↦ hfirst hsame.1]
    exact h.others pd' hpd' hfirst hsecond va hlow
  · rw [hstep.tables pd' hpd' d fun hhere ↦ hother hhere.1]
    exact h.tables pd' hpd' hother d
  · by_cases hnew : d = pdx (pageStart pn) ∧ m'.word cpd (pdx (pageStart pn)) = 0
    · rw [hnew.1]
      exact ⟨hstep.table hnew.2, word_ne_zero hcopies⟩
    · rw [hstep.tables cpd hcpd d fun hhere ↦ hnew hhere.2] at hused ⊢
      exact h.childTables d hd hused
  · obtain ⟨hword, hstill⟩ := h.contents q hq
    exact ⟨(hstep.contents q hstill).1.trans hword, (hstep.contents q hstill).2⟩
  · have hcount := h.counts q hq
    have hmore := hstep.counts q (h.contents q hq).2.allocated
    rw [hold] at hmore
    rw [copyCount_succ, hmore]
    by_cases hhere : q = pgnum (m.mapping pd (pageStart pn))
    · have hone : (1 : BitVec 16).toNat = 1 := rfl
      rw [← hhere] at hroom
      rw [if_pos hhere, if_pos ⟨hcopies, hhere.symm⟩, BitVec.toNat_add, hone]
      omega
    · rw [if_neg hhere, if_neg fun hmet ↦ hhere hmet.2.symm]
      have hzero : ((m'.pages q).ppRef + 0).toNat = (m'.pages q).ppRef.toNat :=
        congrArg BitVec.toNat (BitVec.add_zero _)
      omega
  · have hgrows : tableSlots m' cpd ⊆ tableSlots m'' cpd := by
      intro d hd
      simp only [tableSlots, Finset.mem_filter, Finset.mem_univ, true_and] at hd ⊢
      refine ⟨hd.1, ?_⟩
      rw [hstep.tables cpd hcpd d fun hhere ↦ hd.2 (hhere.2.1 ▸ hhere.2.2)]
      exact hd.2
    have hsupply := h.supply
    rcases hstep.supply with hsame | ⟨hempty, table, htaken⟩
    · have hcard := Finset.card_le_card hgrows
      rw [hsame] at hsupply
      omega
    · have hmem : pdx (pageStart pn) ∈ tableSlots m'' cpd := by
        simp only [tableSlots, Finset.mem_filter, Finset.mem_univ, true_and]
        refine ⟨hva, fun hzero ↦ ?_⟩
        have hbits := hstep.table hempty
        rw [hzero] at hbits
        exact absurd hbits (by decide)
      have hnot : pdx (pageStart pn) ∉ tableSlots m' cpd := by
        simp only [tableSlots, Finset.mem_filter, Finset.mem_univ, true_and]
        exact fun htable ↦ htable.2 hempty
      have hcard : (tableSlots m' cpd).card < (tableSlots m'' cpd).card :=
        Finset.card_lt_card ⟨hgrows, fun hsub ↦ hnot (hsub hmem)⟩
      rw [htaken, List.length_cons] at hsupply
      omega

end Cloned

/-! ## All pages -/

section Loop

variable (h : Forking k c cur child pd cpd) (hp : m₀.Prepared managed)
  (hmodest : ∀ va, pdx va < pdx utop → m.mapping pd va ≠ 0 →
    (m.pages (pgnum (m.mapping pd va))).ppRef.toNat < 2 ^ 15)
  (hkept : Kept False m₀ m managed k.roots free none)
  (hplenty : (tableSlots m pd).card ≤ free.length)

include h hp hkept hmodest hplenty in
theorem forkFrom_returns {turns : ℕ} (hcloned : Cloned m₀ m m' managed k.roots free free' pd cpd pn)
    (hend : pn + turns ≤ 977920) : ∃ m'' free'',
      forkFrom c (k.envs child).envId turns pn { k with memory := m' } =
        .ok (.returns 0, { k with memory := m'' }) ∧
      Cloned m₀ m m'' managed k.roots free free'' pd cpd (pn + turns) := by
  induction turns generalizing m' free' pn with
  | zero => exact ⟨m', free', rfl, hcloned⟩
  | succ turns ih =>
    have hpn : pn < 977920 := by omega
    have hsum : pn + (turns + 1) = pn + 1 + turns := by omega
    have hpd := Kernel.root_of_pgdir h.parent
    have hcpd := Kernel.root_of_pgdir h.pgdir
    have hwindow : m'.word pd (pdx uvpt) = page2pa pd ||| pteP ||| pteU := by
      rw [hcloned.kept.layout.upper pd hpd (pdx uvpt) (by decide), if_pos rfl]
      rfl
    have hpde := loadWord_uvpdWord hwindow (by omega : pn < 2 ^ 20)
    rw [hcloned.tables pd hpd h.ne] at hpde
    have hold : m'.mapping pd (pageStart pn) = m.mapping pd (pageStart pn) := by
      rw [hcloned.parent pn hpn, if_neg fun hlt ↦ Nat.lt_irrefl pn hlt.1]
    rw [hsum]
    -- Everything but the call of `duppage` goes on with the next page.
    have hskip : ¬ Copies m pd pn → _ := fun hno ↦ ih (hcloned.skip hno) (by omega)
    by_cases hexception : pn = uxstacktop.toNat / 4096 - 1
    · rw [forkFrom, if_pos hexception]
      exact hskip fun hcopies ↦ hcopies.1 hexception
    by_cases hdir : m.word pd (pdx (pageStart pn)) &&& userRead = userRead
    swap
    · rw [forkFrom, if_neg hexception]
      simp only [h.cr3, hpde, if_pos (not_not.mp (readable_iff.not.mp hdir))]
      exact hskip fun hcopies ↦ hdir hcopies.2.1
    have hpte := loadWord_uvptWord hwindow (by omega : pn < 2 ^ 20) (by
      rw [hcloned.tables pd hpd h.ne]
      exact hdir)
    rw [hold] at hpte
    by_cases hentry : m.mapping pd (pageStart pn) &&& userRead = userRead
    swap
    · rw [forkFrom, if_neg hexception]
      simp only [h.cr3, hpde, hpte, if_neg (readable_iff.mp hdir),
        if_pos (not_not.mp (readable_iff.not.mp hentry))]
      exact hskip fun hcopies ↦ hentry hcopies.2.2
    have hcopies : Copies m pd pn := ⟨hexception, hdir, hentry⟩
    have hmapped : m.mapping pd (pageStart pn) ≠ 0 := by
      intro hzero
      rw [hzero] at hentry
      exact absurd hentry (by decide)
    have hva := pdx_lt_utop (pageStart_lt_utop hpn)
    have hroom := hcloned.countable hkept.exact hpd hpn hcopies
      (hkept.mappable_mapping hpd hva hmapped) (hmodest _ hva hmapped)
    have hempty : m'.mapping cpd (pageStart pn) = 0 := by
      rw [hcloned.child pn hpn, if_neg fun hlt ↦ Nat.lt_irrefl pn hlt.1]
    obtain ⟨m₁, free₁, hcall, hstep⟩ := duppage_returns (h.of_memory m') hp hcloned.kept hpn
      (by rw [hold]; exact hpte) (by rw [hold]; exact hentry) hempty
      (by rw [hold]; intro hfull; rw [hfull] at hroom; exact absurd hroom (by decide))
      (hcloned.supplied hplenty hpn hcopies)
    obtain ⟨m'', free'', hrest, hcloned'⟩ :=
      ih (hcloned.copy hpd hcpd h.ne hpn hcopies hroom hstep) (by omega)
    refine ⟨m'', free'', ?_, hcloned'⟩
    rw [forkFrom, if_neg hexception]
    simp only [h.cr3, hpde, hpte, if_neg (readable_iff.mp hdir), if_neg (readable_iff.mp hentry)]
    exact bind_ok.mpr ⟨_, hcall, hrest⟩

end Loop

end SistemasOperativos.Jos
