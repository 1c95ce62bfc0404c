import SistemasOperativos.Jos.IpcTransfer

/-!
# The page fault handler of fork

`pgfault` of `lib/fork.c`: a user program that reads its page tables through the window at `UVPT` and
replaces a page with three system calls. It runs by itself, from the fault to its end. An access of
its own that is not allowed is a page fault again.
-/

namespace SistemasOperativos.Jos

open Library Library.Except

/-- The bit of `lib/fork.c` for a page that is copied before it is written. -/
def pteCow : Word := 0x800

/-- The bit of the error code of a page fault for a write. -/
def fecWr : Word := 0x2

/-- `&uvpt[addr >> PGSHIFT]`. -/
def uvptEntry (addr : Word) : Word := uvpt + addr >>> 12 <<< 2

namespace Memory

/-- The bits that a read of a user program needs. -/
def userRead : Word := pteP ||| pteU

def loadWord (cr3 : Ppn) (va : Word) (m : Memory) : Option Word :=
  (m.translate cr3 userRead va).map fun pp ↦ m.word pp (va.extractLsb' 2 10)

/-- `memmove(dst, src, PGSIZE)` in user mode, with the addresses of two pages. -/
def copyPage (cr3 : Ppn) (dst src : Word) (m : Memory) : Option Memory :=
  match m.translate cr3 userRead src, m.translate cr3 userWrite dst with
  | some s, some d => some { m with word := Function.update m.word d (m.word s) }
  | _, _ => none

end Memory

/-- The calls of `panic` in `pgfault`. -/
inductive Panic where
  | writeFault
  | pageAlloc
  | pageMap
  | pageUnmap
deriving DecidableEq

/-- How the handler ends. -/
inductive Ending where
  | returns
  | panics (call : Panic)
  /-- The handler has a page fault of its own. -/
  | faults
deriving DecidableEq

variable {n : ℕ}

/-- The operator `&` has its two operands first: the test of the source is the one of this word. -/
def pgfault (c : Fin n) (addr err : Word) (k : Kernel n) : Except Fault (Ending × Kernel n) :=
  let cr3 := (k.cpus c).cr3
  match k.memory.loadWord cr3 (uvptEntry addr) with
  | none => .ok (.faults, k)
  | some faultPte =>
    if err &&& fecWr &&& (if faultPte &&& pteCow = 0 then 1 else 0) ≠ 0 then
      .ok (.panics .writeFault, k)
    else do
      let perm := pteP ||| pteU ||| pteW
      let (r, k) ← k.sysPageAlloc c 0 pftemp perm
      if r < 0 then return (.panics .pageAlloc, k)
      let addr := rounddown addr
      match k.memory.copyPage cr3 pftemp addr with
      | none => return (.faults, k)
      | some memory =>
        let k := { k with memory }
        let (r, k) ← k.sysPageMap c 0 pftemp 0 addr perm
        if r < 0 then return (.panics .pageMap, k)
        let (r, k) ← k.sysPageUnmap c 0 pftemp
        if r < 0 then return (.panics .pageUnmap, k)
        return (.returns, k)

open Memory

variable {c : Fin n} {k k₁ k₂ k₃ k' : Kernel n} {cur : EnvPtr} {roots : Finset Ppn}
  {free rest : List Ppn} {other : Ppn → ℕ} {pd pd' pp table : Ppn} {addr err va w need : Word}
  {r : ℤ} {m memory : Memory}

/-- The address space of a user program: the window, page tables and pages with the bits that the
kernel always sets, pages that are neither page tables nor directories, and nothing above `UTOP` that
is copied before it is written. -/
structure UserSpace (m : Memory) (roots : Finset Ppn) (pd : Ppn) : Prop where
  window : m.word pd (pdx uvpt) = page2pa pd ||| pteP ||| pteU
  tables : ∀ d < pdx utop, m.word pd d ≠ 0 → m.word pd d &&& userWrite = userWrite
  pages : ∀ va, pdx va < pdx utop → m.mapping pd va ≠ 0 → m.mapping pd va &&& userRead = userRead
  data : ∀ va, pdx va < pdx utop → m.mapping pd va ≠ 0 → pgnum (m.mapping pd va) ∉ roots ∧
    ∀ pd' d, m.refers roots (pd', d, none) ≠ some (pgnum (m.mapping pd va))
  above : ∀ va, pdx utop ≤ pdx va → m.mapping pd va &&& pteCow = 0

/-! ## The claim on the handler -/

/-- A write to a page that is to be copied first. -/
def IsCowWrite (m : Memory) (pd : Ppn) (addr err : Word) : Prop :=
  err &&& fecWr ≠ 0 ∧ m.mapping pd addr &&& pteCow ≠ 0

instance : Decidable (IsCowWrite m pd addr err) := inferInstanceAs (Decidable (_ ∧ _))

/-- The page at `addr` has been replaced by a copy that may be written. -/
structure Copied (m m' : Memory) (roots : Finset Ppn) (pd : Ppn) (addr : Word) : Prop where
  fresh : m.pageFreeList = some (pgnum (m'.mapping pd addr))
  writable : m'.mapping pd addr &&& userWrite = userWrite ∧ m'.mapping pd addr &&& pteCow = 0
  content : m'.word (pgnum (m'.mapping pd addr)) = m.word (pgnum (m.mapping pd addr))
  emptied : m'.mapping pd pftemp = 0
  others : ∀ pd' ∈ roots, ∀ va < utop, ¬ SamePage pd pd' addr va → ¬ SamePage pd pd' pftemp va →
    m'.mapping pd' va = m.mapping pd' va

/-- What the handler should do, where its system calls succeed, and that it panics without a change
of a mapping at any other fault. -/
def Recovered (c : Fin n) (k : Kernel n) (roots : Finset Ppn) (pd : Ppn) (addr err : Word) : Prop :=
  if IsCowWrite k.memory pd addr err then
    ∃ ending k', pgfault c addr err k = .ok (ending, k') ∧
      (ending = .returns ∧ Copied k.memory k'.memory roots pd addr ∨
        ∃ call, call ≠ .writeFault ∧ ending = .panics call)
  else
    ∃ call k', pgfault c addr err k = .ok (.panics call, k') ∧
      ∀ pd' ∈ roots, ∀ va < utop, k'.memory.mapping pd' va = k.memory.mapping pd' va

/-- There is no page for `PFTEMP`, or only one and no page table. -/
def OutOfPages (m : Memory) (pd : Ppn) : Prop :=
  ∀ p, m.pageFreeList = some p → (m.pages p).ppLink = none ∧ m.word pd (pdx pftemp) = 0

/-! ## Addresses -/

theorem toNat_rounddown (a : Word) : (rounddown a).toNat = a.toNat / 4096 * 4096 := by
  have hmod : (a % pgsize).toNat = a.toNat % 4096 := BitVec.toNat_umod
  have hle : a % pgsize ≤ a := by
    rw [BitVec.le_def, hmod]
    exact Nat.mod_le _ _
  rw [rounddown, BitVec.toNat_sub_of_le hle, hmod]
  omega

theorem pdx_rounddown (a : Word) : pdx (rounddown a) = pdx a := by
  apply BitVec.eq_of_toNat_eq
  simp only [pdx, BitVec.extractLsb'_toNat, Nat.shiftRight_eq_div_pow, toNat_rounddown]
  omega

theorem ptx_rounddown (a : Word) : ptx (rounddown a) = ptx a := by
  apply BitVec.eq_of_toNat_eq
  simp only [ptx, BitVec.extractLsb'_toNat, Nat.shiftRight_eq_div_pow, toNat_rounddown]
  omega

theorem badVa_rounddown (a : Word) : badVa (rounddown a) = decide (utop ≤ a) := by
  have halign : rounddown a % pgsize = 0 := by
    apply BitVec.eq_of_toNat_eq
    rw [BitVec.toNat_umod, toNat_rounddown]
    exact Nat.mul_mod_left _ _
  have hutop : utop ≤ rounddown a ↔ utop ≤ a := by
    rw [BitVec.le_def, BitVec.le_def, toNat_rounddown]
    have hconst : utop.toNat = 977920 * 4096 := by decide
    omega
  unfold badVa
  simp [halign, hutop]

theorem mapping_rounddown (m : Memory) (pd : Ppn) (a : Word) :
    m.mapping pd (rounddown a) = m.mapping pd a := by
  unfold mapping
  rw [pdx_rounddown, ptx_rounddown]

theorem toNat_uvptEntry (a : Word) : (uvptEntry a).toNat = 957 * 2 ^ 22 + a.toNat / 4096 * 4 := by
  have hconst : uvpt.toNat = 957 * 2 ^ 22 := by decide
  have hlt := a.isLt
  rw [uvptEntry, BitVec.toNat_add, BitVec.toNat_shiftLeft, BitVec.toNat_ushiftRight, hconst,
    Nat.shiftLeft_eq, Nat.shiftRight_eq_div_pow]
  omega

/-- Which words of the window belong to an address. -/
theorem uvptEntry_indices (a : Word) : pdx (uvptEntry a) = pdx uvpt ∧ ptx (uvptEntry a) = pdx a ∧
    (uvptEntry a).extractLsb' 2 10 = ptx a := by
  have hlt := a.isLt
  have hconst : uvpt.toNat = 957 * 2 ^ 22 := by decide
  refine ⟨?_, ?_, ?_⟩
  all_goals
    apply BitVec.eq_of_toNat_eq
    simp only [pdx, ptx, BitVec.extractLsb'_toNat, Nat.shiftRight_eq_div_pow, toNat_uvptEntry, hconst]
    omega

/-! ## Accesses of the handler -/

section Accesses

theorem translate_of_mapping (h : m.mapping pd va ≠ 0) (hpde : m.word pd (pdx va) &&& need = need)
    (hpte : m.mapping pd va &&& need = need) :
    m.translate pd need va = some (pgnum (m.mapping pd va)) := by
  rw [mapping_of_table (table_of_mapping h)] at hpte ⊢
  exact if_pos ⟨hpde, hpte⟩

theorem translate_of_unmapped (h : m.mapping pd va = 0) (hneed : need ≠ 0) :
    m.translate pd need va = none := by
  refine if_neg ?_
  rintro ⟨hpde, hpte⟩
  by_cases htable : m.word pd (pdx va) = 0
  · change m.word pd (pdx va) &&& need = need at hpde
    rw [htable] at hpde
    exact hneed (by simpa using hpde.symm)
  · rw [mapping_of_table htable] at h
    change m.word (pgnum (m.word pd (pdx va))) (ptx va) &&& need = need at hpte
    rw [h] at hpte
    exact hneed (by simpa using hpte.symm)

/-- What the handler reads at `uvpt[addr >> PGSHIFT]`. -/
theorem loadWord_uvptEntry (hwindow : m.word pd (pdx uvpt) = page2pa pd ||| pteP ||| pteU) :
    m.loadWord pd (uvptEntry addr) =
      if m.word pd (pdx addr) &&& userRead = userRead then
        some (m.word (pgnum (m.word pd (pdx addr))) (ptx addr)) else none := by
  obtain ⟨hpdx, hptx, hslot⟩ := uvptEntry_indices addr
  have hself : pgnum (page2pa pd ||| pteP ||| pteU) = pd := by
    rw [pgnum_or, pgnum_or, pgnum_page2pa, (pgnum_of_lt (by decide) : pgnum pteP = 0),
      (pgnum_of_lt (by decide) : pgnum pteU = 0)]
    simp
  have hbits : (page2pa pd ||| pteP ||| pteU) &&& userRead = userRead := by
    have hpage : page2pa pd &&& userRead = 0 := page2pa_and (by decide)
    have hflags : (pteP ||| pteU) &&& userRead = userRead := by decide
    rw [BitVec.or_assoc, BitVec.and_or_distrib_right, hpage, hflags]
    exact BitVec.zero_or
  unfold loadWord Memory.translate
  simp only [readPte, hpdx, hptx, hslot, hwindow, hself, hbits, true_and]
  split <;> rfl

/-- Copying a page changes the contents of one page. -/
theorem copyPage_some (h : m.copyPage pd va addr = some memory) : ∃ s d,
    m.translate pd userRead addr = some s ∧ m.translate pd userWrite va = some d ∧
      memory = { m with word := Function.update m.word d (m.word s) } := by
  unfold copyPage at h
  split at h
  · rename_i s d hs hd
    exact ⟨s, d, hs, hd, (Option.some.inj h).symm⟩
  · cases h

theorem tablePde_and_userWrite (table : Ppn) : tablePde table &&& userWrite = userWrite := by
  have hsplit : tablePde table = page2pa table ||| userWrite := by
    rw [tablePde, userWrite, BitVec.or_assoc, BitVec.or_assoc, BitVec.or_assoc]
  rw [hsplit, BitVec.and_or_distrib_right, page2pa_and (by decide), BitVec.and_self]
  exact BitVec.zero_or

end Accesses

/-! ## The system calls of the handler -/

section Calls

theorem envid2env_self (hcur : k.curenv c = some cur) :
    k.envid2env c 0 true = .ok (some cur) := by
  unfold Kernel.envid2env
  rw [if_pos rfl, hcur]
  rfl

theorem sysPageAlloc_self (hcur : k.curenv c = some cur) :
    k.sysPageAlloc c 0 pftemp (pteP ||| pteU ||| pteW) = k.envPageAlloc cur pftemp userWrite := by
  have hbad : badVa pftemp = false := by decide
  have hperm : pteP ||| pteU ||| pteW ||| pteU ||| pteP = userWrite := by decide
  unfold Kernel.sysPageAlloc
  simp only [hbad, Bool.false_eq_true, if_false, envid2env_self hcur, bind, Except.bind, hperm]

theorem sysPageMap_self (hcur : k.curenv c = some cur) (hlow : addr < utop) :
    k.sysPageMap c 0 pftemp 0 (rounddown addr) (pteP ||| pteU ||| pteW) =
      k.envPageMap cur pftemp cur (rounddown addr) userWrite := by
  have hbad : badVa pftemp = false := by decide
  have hbad' : badVa (rounddown addr) = false := by
    rw [badVa_rounddown]
    exact decide_eq_false (BitVec.not_le.mpr hlow)
  have hperm : pteP ||| pteU ||| (pteP ||| pteU ||| pteW) = userWrite := by decide
  unfold Kernel.sysPageMap
  simp only [hbad, hbad', Bool.false_eq_true, if_false, envid2env_self hcur, bind, Except.bind,
    hperm]

theorem sysPageMap_high (h : utop ≤ addr) :
    k.sysPageMap c 0 pftemp 0 (rounddown addr) (pteP ||| pteU ||| pteW) = .ok (-eInval, k) := by
  have hbad : badVa pftemp = false := by decide
  have hbad' : badVa (rounddown addr) = true := by
    rw [badVa_rounddown]
    exact decide_eq_true h
  unfold Kernel.sysPageMap
  simp only [hbad, hbad', Bool.false_eq_true, if_false, if_true]
  rfl

theorem sysPageUnmap_self (hcur : k.curenv c = some cur) (hpd : (k.envs cur).envPgdir = some pd)
    (hremove : k.memory.pageRemove (some pd) pftemp = .ok memory) :
    k.sysPageUnmap c 0 pftemp = .ok (0, { k with memory }) := by
  have hbad : badVa pftemp = false := by decide
  unfold Kernel.sysPageUnmap
  simp only [hbad, Bool.false_eq_true, if_false, envid2env_self hcur, bind, Except.bind, hpd,
    hremove]
  rfl

end Calls

/-! ## The test and the rest of the handler -/

section Handler

/-- No word has both bits: the test is never true. -/
theorem guard_never (err faultPte : Word) :
    err &&& fecWr &&& (if faultPte &&& pteCow = 0 then 1 else 0) = 0 := by
  have hdisjoint : fecWr &&& (1 : Word) = 0 := by decide
  split
  · rw [BitVec.and_assoc, hdisjoint]
    exact BitVec.and_zero
  · exact BitVec.and_zero

theorem pgfault_of_no_window (h : k.memory.loadWord (k.cpus c).cr3 (uvptEntry addr) = none) :
    pgfault c addr err k = .ok (.faults, k) := by
  unfold pgfault
  simp only [h]

variable (hload : k.memory.loadWord (k.cpus c).cr3 (uvptEntry addr) = some w)

include hload in
theorem pgfault_of_alloc_error (halloc : k.sysPageAlloc c 0 pftemp (pteP ||| pteU ||| pteW) =
      .ok (r, k₁)) (hneg : r < 0) : pgfault c addr err k = .ok (.panics .pageAlloc, k₁) := by
  unfold pgfault
  simp only [hload, guard_never, ne_eq, not_true_eq_false, if_false, halloc, bind, Except.bind,
    if_pos hneg]
  rfl

variable (halloc : k.sysPageAlloc c 0 pftemp (pteP ||| pteU ||| pteW) = .ok (0, k₁))

include hload halloc in
theorem pgfault_of_fault
    (hcopy : k₁.memory.copyPage (k.cpus c).cr3 pftemp (rounddown addr) = none) :
    pgfault c addr err k = .ok (.faults, k₁) := by
  unfold pgfault
  simp only [hload, guard_never, ne_eq, not_true_eq_false, if_false, halloc, bind, Except.bind,
    Int.lt_irrefl, hcopy]
  rfl

variable (hcopy : k₁.memory.copyPage (k.cpus c).cr3 pftemp (rounddown addr) = some memory)

include hload halloc hcopy in
theorem pgfault_of_map_error (hmap : Kernel.sysPageMap c 0 pftemp 0 (rounddown addr)
      (pteP ||| pteU ||| pteW) { k₁ with memory } = .ok (r, k₂)) (hneg : r < 0) :
    pgfault c addr err k = .ok (.panics .pageMap, k₂) := by
  unfold pgfault
  simp only [hload, guard_never, ne_eq, not_true_eq_false, if_false, halloc, bind, Except.bind,
    Int.lt_irrefl, hcopy, hmap, if_pos hneg]
  rfl

include hload halloc hcopy in
theorem pgfault_of_calls (hmap : Kernel.sysPageMap c 0 pftemp 0 (rounddown addr)
      (pteP ||| pteU ||| pteW) { k₁ with memory } = .ok (0, k₂))
    (hunmap : k₂.sysPageUnmap c 0 pftemp = .ok (0, k₃)) :
    pgfault c addr err k = .ok (.returns, k₃) := by
  unfold pgfault
  simp only [hload, guard_never, ne_eq, not_true_eq_false, if_false, halloc, bind, Except.bind,
    Int.lt_irrefl, hcopy, hmap, hunmap]
  rfl

end Handler

/-! ## With a page for the copy -/

/-- The program that has the fault runs on the CPU with its page directory. -/
structure Faulting (k : Kernel n) (c : Fin n) (cur : EnvPtr) (roots : Finset Ppn) (pd : Ppn) :
    Prop where
  current : k.curenv c = some cur
  directory : (k.envs cur).envPgdir = some pd
  root : pd ∈ roots
  cr3 : (k.cpus c).cr3 = pd
  space : UserSpace k.memory roots pd

section Room

variable {dir : Slot} (h : Faulting k c cur roots pd)

theorem pdx_pftemp : pdx pftemp < pdx utop := by decide

theorem pte_userWrite (pp : Ppn) : (page2pa pp ||| userWrite ||| pteP) &&& userWrite = userWrite ∧
    (page2pa pp ||| userWrite ||| pteP) &&& pteCow = 0 ∧
    (page2pa pp ||| userWrite ||| pteP) &&& userRead = userRead := by
  have hflags : userWrite ||| pteP = userWrite := by decide
  rw [BitVec.or_assoc, hflags]
  refine ⟨?_, ?_, ?_⟩
  · rw [BitVec.and_or_distrib_right, page2pa_and (by decide), BitVec.and_self]
    exact BitVec.zero_or
  · rw [BitVec.and_or_distrib_right, page2pa_and (by decide)]
    decide
  · rw [BitVec.and_or_distrib_right, page2pa_and (by decide)]
    decide

theorem userRead_of_userWrite (hw : w &&& userWrite = userWrite) : w &&& userRead = userRead :=
  bits_of_bits (by decide) hw

variable (hfresh : FreshMapped k.memory m roots (pp :: rest) free other pd pp pftemp userWrite)

include h hfresh in
/-- The directory still has the bits that its user needs. -/
theorem Memory.FreshMapped.tables (hd : dir < pdx utop) (hne : m.word pd dir ≠ 0) :
    m.word pd dir &&& userWrite = userWrite := by
  rcases hfresh.directories pd h.root dir with hsame | ⟨t, ht⟩
  · rw [hsame] at hne ⊢
    exact h.space.tables dir hd hne
  · rw [ht]
    exact tablePde_and_userWrite t

include h hfresh in
theorem Memory.FreshMapped.mapping_pftemp : m.mapping pd pftemp = page2pa pp ||| userWrite ||| pteP :=
  (hfresh.mapping pd h.root pftemp pdx_pftemp).trans (if_pos ⟨rfl, rfl, rfl⟩)

include h hfresh in
theorem Memory.FreshMapped.translate_pftemp : m.translate pd userWrite pftemp = some pp := by
  have hmapping := hfresh.mapping_pftemp h
  have hpage : pgnum (page2pa pp ||| userWrite ||| pteP) = pp := pgnum_page2pa_or (by decide)
  rw [translate_of_mapping (by rw [hmapping]; exact or_pteP_ne_zero _)
    (hfresh.tables h pdx_pftemp hfresh.table) (by rw [hmapping]; exact (pte_userWrite pp).1),
    hmapping, hpage]

include h hfresh in
/-- A page that is mapped can be read. -/
theorem Memory.FreshMapped.translate_read (hva : pdx va < pdx utop) (hne : m.mapping pd va ≠ 0) :
    m.translate pd userRead va = some (pgnum (m.mapping pd va)) := by
  refine translate_of_mapping hne
    (userRead_of_userWrite (hfresh.tables h hva (table_of_mapping hne))) ?_
  rw [hfresh.mapping pd h.root va hva] at hne ⊢
  split
  · exact (pte_userWrite pp).2.2
  · rename_i hother
    rw [if_neg hother] at hne
    exact h.space.pages va hva hne

/-- The memory in which the fresh page has the contents of another one. -/
def Memory.filled (m : Memory) (pp src : Ppn) : Memory :=
  { m with word := Function.update m.word pp (m.word src) }

variable {src : Ppn}

theorem filled_word_of_ne {q : Ppn} (hq : q ≠ pp) : (m.filled pp src).word q = m.word q :=
  Function.update_of_ne hq ..

include hfresh in
theorem Memory.FreshMapped.kept (hroots : pp ∉ roots) (q : Ppn)
    (hq : q ∈ roots ∨ ∃ pd d, m.refers roots (pd, d, none) = some q) :
    (m.filled pp src).word q = m.word q := by
  apply filled_word_of_ne
  rintro rfl
  rcases hq with hroot | ⟨pd', d', htable⟩
  · exact hroots hroot
  · exact hfresh.notTable pd' d' htable

variable (src) in
include hfresh in
theorem Memory.FreshMapped.exact_filled (hroots : pp ∉ roots) :
    (m.filled pp src).Exact roots free other :=
  hfresh.exact.of_contents (hfresh.kept hroots) rfl rfl rfl

variable (src) in
include hfresh in
theorem Memory.FreshMapped.forest_filled (hroots : pp ∉ roots) :
    (m.filled pp src).Forest roots free other :=
  hfresh.forest.of_contents (hfresh.kept hroots)

include hfresh in
theorem Memory.FreshMapped.mapping_filled (hroots : pp ∉ roots) (hpd' : pd' ∈ roots)
    (hva : pdx va < pdx utop) : (m.filled pp src).mapping pd' va = m.mapping pd' va :=
  entry_of_contents (r := (pd', pdx va, some (ptx va))) (hfresh.kept hroots) hpd' hva

theorem samePage_rounddown : SamePage pd pd' (rounddown addr) va ↔ SamePage pd pd' addr va := by
  unfold SamePage
  rw [pdx_rounddown, ptx_rounddown]

/-- What the system calls and the copy leave in memory. -/
structure Replaced (m m₁ m' : Memory) (roots : Finset Ppn) (pd pp : Ppn) (addr : Word) : Prop where
  mapping : ∀ pd' ∈ roots, ∀ va, pdx va < pdx utop → m'.mapping pd' va =
    if SamePage pd pd' pftemp va then 0
    else if SamePage pd pd' addr va then page2pa pp ||| userWrite ||| pteP
    else m.mapping pd' va
  content : m'.word pp = m₁.word (pgnum (m₁.mapping pd addr))

/-- The memory after `sys_page_map`: the page at `PFTEMP` is at the fault address too. -/
def Memory.moved (m : Memory) (pd pp : Ppn) (addr : Word) : Memory :=
  (m.filled pp (pgnum (m.mapping pd addr))).mapped pd pp (rounddown addr)
    (page2pa pp ||| userWrite ||| pteP)

section Returns

variable (hroots : pp ∉ roots) (hbound : pp.toNat < m.npages) (hlow : addr < utop)
  (hne : m.mapping pd addr ≠ 0)

include hlow in
theorem pdx_rounddown_lt : pdx (rounddown addr) < pdx utop := by
  rw [pdx_rounddown]
  exact pdx_lt_utop hlow

variable (src) in
include h hroots hne in
theorem filled_table : (m.filled pp src).word pd (pdx (rounddown addr)) ≠ 0 := by
  have hne' : pd ≠ pp := by
    rintro rfl
    exact hroots h.root
  rw [filled_word_of_ne hne', pdx_rounddown]
  exact table_of_mapping hne

variable (src) in
include h hfresh hroots in
theorem Memory.FreshMapped.filled_pftemp :
    (m.filled pp src).mapping pd pftemp = page2pa pp ||| userWrite ||| pteP :=
  (hfresh.mapping_filled hroots h.root pdx_pftemp).trans (hfresh.mapping_pftemp h)

include h hfresh hroots hbound hlow hne in
theorem Memory.FreshMapped.moved_accounted : ∃ free', (m.moved pd pp addr).Exact roots free' other ∧
    (m.moved pd pp addr).Forest roots free' other := by
  have hexact := hfresh.exact_filled (pgnum (m.mapping pd addr)) hroots
  have hforest := hfresh.forest_filled (pgnum (m.mapping pd addr)) hroots
  have htable := filled_table h (pgnum (m.mapping pd addr)) hroots hne
  have hcount : ((m.filled pp (pgnum (m.mapping pd addr))).pages pp).ppRef = 1 := hfresh.count
  have hpp : pp ∉ free := hexact.not_free_of_pos (by rw [hcount]; decide)
  have hone : ((m.filled pp (pgnum (m.mapping pd addr))).pages pp).ppRef.toNat < 2 ^ 16 - 1 := by
    rw [hcount]
    decide
  have hnum : pgnum (page2pa pp ||| userWrite ||| pteP) = pp := pgnum_page2pa_or (by decide)
  exact ⟨_, hexact.mapped hforest h.root (pdx_rounddown_lt hlow) htable hpp hone
    (or_pteP_ne_zero _) hnum hbound, hforest.mapped hexact h.root (pdx_rounddown_lt hlow) htable hpp
    hone hnum fun hmem ↦ absurd hmem hroots⟩

include h hfresh hroots hbound hlow hne in
theorem Memory.FreshMapped.replaced :
    Replaced k.memory m ((m.moved pd pp addr).removed pd pftemp) roots pd pp addr := by
  have haddr := pdx_rounddown_lt hlow
  have hforest := hfresh.forest_filled (pgnum (m.mapping pd addr)) hroots
  have htable := filled_table h (pgnum (m.mapping pd addr)) hroots hne
  obtain ⟨free', -, hmoved⟩ := hfresh.moved_accounted h hroots hbound hlow hne
  constructor
  · intro pd' hpd' va hva
    have hentry := mapped_entry pp (w := page2pa pp ||| userWrite ||| pteP)
      (r := (pd', pdx va, some (ptx va))) hforest h.root haddr htable hpd' hva
    have hremoved := removed_entry (r := (pd', pdx va, some (ptx va))) hmoved h.root pdx_pftemp
      hpd' hva
    have hsame : ∀ va₀, ((pd', pdx va, some (ptx va)) : Ref) = (pd, pdx va₀, some (ptx va₀)) ↔
        SamePage pd pd' va₀ va := by
      intro va₀
      simp [SamePage]
    have hbefore : (m.filled pp (pgnum (m.mapping pd addr))).entry (pd', pdx va, some (ptx va)) =
        m.mapping pd' va := hfresh.mapping_filled hroots hpd' hva
    change Memory.entry _ (pd', pdx va, some (ptx va)) = _
    rw [hremoved, moved, hentry, hbefore, hfresh.mapping pd' hpd' va hva]
    simp only [hsame, samePage_rounddown]
    by_cases hpf : SamePage pd pd' pftemp va
    · rw [if_pos hpf, if_pos hpf]
    · rw [if_neg hpf, if_neg hpf, if_neg hpf]
  · -- The page is not one of the two page tables that change.
    have htables : ∀ d, (m.filled pp (pgnum (m.mapping pd addr))).word pd d ≠ 0 → d < pdx utop →
        pp ≠ pgnum ((m.filled pp (pgnum (m.mapping pd addr))).word pd d) := by
      intro d hd hdlow heq
      have href := refers_table h.root hdlow hd
      rw [refers_of_contents (hfresh.kept hroots), ← heq] at href
      exact hfresh.notTable pd d href
    have hroot : (m.moved pd pp addr).word pd (pdx pftemp) =
        (m.filled pp (pgnum (m.mapping pd addr))).word pd (pdx pftemp) :=
      mapped_root _ hforest h.root haddr htable h.root _
    have hpftemp := hfresh.filled_pftemp h (pgnum (m.mapping pd addr)) hroots
    have hpfTable := table_of_mapping (hpftemp ▸ or_pteP_ne_zero _)
    rw [removed_word (by rw [tableOf, hroot]; exact htables _ hpfTable pdx_pftemp)]
    funext t
    rw [moved, mapped_word, writePte_word, if_neg fun heq ↦ htables _ htable haddr heq.1]
    exact congrFun (Function.update_self ..) t

include h hfresh hroots hbound hlow hne in
/-- With a fresh page at `PFTEMP` and a page at the fault address that can be read, nothing fails. -/
theorem Memory.FreshMapped.pgfault_returns
    (hload : k.memory.loadWord (k.cpus c).cr3 (uvptEntry addr) = some w)
    (halloc : k.sysPageAlloc c 0 pftemp (pteP ||| pteU ||| pteW) =
      .ok (0, { k with memory := m })) :
    pgfault c addr err k =
      .ok (.returns, { k with memory := (m.moved pd pp addr).removed pd pftemp }) := by
  have haddr := pdx_rounddown_lt hlow
  have hread := hfresh.translate_read h haddr (by rw [mapping_rounddown]; exact hne)
  rw [mapping_rounddown] at hread
  have hcopy : m.copyPage (k.cpus c).cr3 pftemp (rounddown addr) =
      some (m.filled pp (pgnum (m.mapping pd addr))) := by
    unfold copyPage
    rw [h.cr3, hread, hfresh.translate_pftemp h]
    rfl
  have hpftemp := hfresh.filled_pftemp h (pgnum (m.mapping pd addr)) hroots
  have hnum : pgnum (page2pa pp ||| userWrite ||| pteP) = pp := pgnum_page2pa_or (by decide)
  have hshare : (m.filled pp (pgnum (m.mapping pd addr))).share pd pd pftemp (rounddown addr)
      userWrite = m.moved pd pp addr := by
    rw [Memory.share, hpftemp, hnum]
    rfl
  obtain ⟨free', hexact, -⟩ := hfresh.moved_accounted h hroots hbound hlow hne
  have hmap := envPageMap_of_mapped cur cur pftemp userWrite (rounddown addr)
    (k := { k with memory := m.filled pp (pgnum (m.mapping pd addr)) }) (hfresh.exact_filled _ hroots)
    h.root h.directory h.root h.directory pdx_pftemp haddr (filled_table h _ hroots hne)
    (by rw [hpftemp]; exact or_pteP_ne_zero _) (by rw [hpftemp]; exact write_allowed_again)
  rw [hshare] at hmap
  exact pgfault_of_calls hload halloc hcopy
    ((sysPageMap_self (k := { k with memory := m.filled pp (pgnum (m.mapping pd addr)) }) h.current
      hlow).trans hmap)
    (sysPageUnmap_self h.current h.directory (pageRemove_eq hexact h.root pdx_pftemp))

end Returns

end Room

/-! ## The handler at every fault -/

section Main

variable (pd) in
theorem rounddown_eq_pftemp_iff : rounddown addr = pftemp ↔ SamePage pd pd pftemp addr := by
  constructor
  · intro h
    refine ⟨rfl, ?_, ?_⟩
    · rw [← h, pdx_rounddown]
    · rw [← h, ptx_rounddown]
  · rintro ⟨-, hpdx, hptx⟩
    have hpdx := congrArg BitVec.toNat hpdx
    have hptx := congrArg BitVec.toNat hptx
    have hpftemp : pftemp.toNat = 2047 * 4096 := by decide
    have hlt := addr.isLt
    simp only [pdx, ptx, BitVec.extractLsb'_toNat, Nat.shiftRight_eq_div_pow, hpftemp] at hpdx hptx
    apply BitVec.eq_of_toNat_eq
    rw [toNat_rounddown, hpftemp]
    omega

theorem pdx_utop_le (h : utop ≤ addr) : pdx utop ≤ pdx addr := by
  rw [BitVec.le_def] at h ⊢
  simp only [pdx, BitVec.extractLsb'_toNat, Nat.shiftRight_eq_div_pow]
  have hutop : utop.toNat = 955 * 2 ^ 22 := by decide
  have haddr := addr.isLt
  omega

variable (hk : k.Accounted roots free other) (h : Faulting k c cur roots pd)

include hk h in
/-- Without room for the page, `sys_page_alloc` fails and no mapping changes. -/
theorem sysPageAlloc_of_outOfPages (hroom : OutOfPages k.memory pd) :
    ∃ k₁, k.sysPageAlloc c 0 pftemp (pteP ||| pteU ||| pteW) = .ok (-eNoMem, k₁) ∧
      ∀ pd' ∈ roots, ∀ va < utop, k₁.memory.mapping pd' va = k.memory.mapping pd' va := by
  have hperm : ¬ checkPerm userWrite none < 0 := by decide
  rw [sysPageAlloc_self h.current]
  cases free with
  | nil =>
    exact ⟨k, Kernel.envPageAlloc_of_empty hperm hk.exact.chain, fun _ _ _ _ ↦ rfl⟩
  | cons pp rest =>
    obtain ⟨hlink, hempty⟩ := hroom pp hk.exact.pageFreeList_cons
    have hrest : rest = [] := by
      have hchain := hk.exact.chain.2
      simp only [hlink] at hchain
      exact hchain.of_none
    subst hrest
    have hword : (k.memory.fresh pp).word pd (pdx pftemp) = 0 := by
      rw [fresh_word, if_neg (hk.forest.root_ne h.root)]
      exact hempty
    refine ⟨{ k with memory := k.memory.fresh pp }, ?_, ?_⟩
    · rw [Kernel.envPageAlloc_of_free hperm hk.exact.pageFreeList_cons
        (hk.exact.bound pp List.mem_cons_self), h.directory,
        pageInsert_of_full hword (hk.exact.fresh hk.forest).chain]
      rfl
    · intro pd' hpd' va hva
      exact entry_fresh (r := (pd', pdx va, some (ptx va))) hk.exact hk.forest hpd' (pdx_lt_utop hva)

include hk h in
/-- With room for it, the first free page is mapped at `PFTEMP`. -/
theorem sysPageAlloc_of_room (hroom : ¬ OutOfPages k.memory pd) :
    ∃ pp rest m free', free = pp :: rest ∧
      FreshMapped k.memory m roots (pp :: rest) free' other pd pp pftemp userWrite ∧
      pp ∉ roots ∧ pp.toNat < m.npages ∧
      k.sysPageAlloc c 0 pftemp (pteP ||| pteU ||| pteW) = .ok (0, { k with memory := m }) := by
  have hperm : ¬ checkPerm userWrite none < 0 := by decide
  unfold OutOfPages at hroom
  rw [not_forall] at hroom
  obtain ⟨pp, hroom⟩ := hroom
  obtain ⟨hhead, hroom⟩ := Classical.not_imp.mp hroom
  obtain ⟨rest, rfl⟩ := hk.exact.free_of_pageFreeList hhead
  have htable : k.memory.word pd (pdx pftemp) = 0 → rest ≠ [] := by
    rintro hempty rfl
    exact hroom ⟨hk.exact.chain.2, hempty⟩
  obtain ⟨m, free', hfresh, halloc⟩ :=
    hk.alloc_returns h.root h.directory pdx_pftemp hperm htable
  have hmapping := hfresh.mapping_pftemp h
  have hne : m.mapping pd pftemp ≠ 0 := by
    rw [hmapping]
    exact or_pteP_ne_zero _
  have hbound := hfresh.exact.target _ _ (refers_mapping h.root pdx_pftemp hne)
  rw [hmapping, pgnum_page2pa_or (by decide)] at hbound
  exact ⟨pp, rest, m, free', rfl, hfresh, fun hmem ↦ hk.forest.root_ne hmem rfl, hbound,
    (sysPageAlloc_self h.current).trans halloc⟩

include h in
/-- The handler can read the entry of a page that is to be copied. -/
theorem IsCowWrite.window (hcow : IsCowWrite k.memory pd addr err) : addr < utop ∧
    k.memory.mapping pd addr ≠ 0 ∧
      ∃ w, k.memory.loadWord (k.cpus c).cr3 (uvptEntry addr) = some w := by
  have hmapped : k.memory.mapping pd addr ≠ 0 := by
    intro hzero
    have hbit := hcow.2
    rw [hzero] at hbit
    exact hbit BitVec.zero_and
  have hlow : addr < utop := by
    by_contra hhigh
    exact hcow.2 (h.space.above addr (pdx_utop_le (BitVec.not_lt.mp hhigh)))
  have hpde := h.space.tables _ (pdx_lt_utop hlow) (table_of_mapping hmapped)
  refine ⟨hlow, hmapped, ?_⟩
  rw [h.cr3, loadWord_uvptEntry h.space.window, if_pos (userRead_of_userWrite hpde)]
  exact ⟨_, rfl⟩

include hk h in
/-- At a write to a page that is to be copied. -/
theorem handled_iff_of_cow (hcow : IsCowWrite k.memory pd addr err) :
    Recovered c k roots pd addr err ↔ rounddown addr ≠ pftemp ∨ k.memory.pageFreeList = none := by
  obtain ⟨hlow, hmapped, w, hload⟩ := hcow.window h
  unfold Recovered
  rw [if_pos hcow]
  constructor
  · rintro ⟨ending, k', hcall, hgood⟩
    by_contra hbad
    rw [not_or, not_not] at hbad
    obtain ⟨hsame, hfree⟩ := hbad
    rw [rounddown_eq_pftemp_iff pd] at hsame
    have hroom : ¬ OutOfPages k.memory pd := by
      intro hroom
      obtain ⟨pp, hpp⟩ := Option.ne_none_iff_exists'.mp hfree
      have hempty := (hroom pp hpp).2
      rw [← hsame.2.1] at hempty
      exact table_of_mapping hmapped hempty
    obtain ⟨pp, rest, m, free', rfl, hfresh, hroots, hbound, halloc⟩ := sysPageAlloc_of_room hk h hroom
    have hne : m.mapping pd addr ≠ 0 := by
      rw [hfresh.mapping pd h.root addr (pdx_lt_utop hlow), if_pos hsame]
      exact or_pteP_ne_zero _
    rw [hfresh.pgfault_returns h hroots hbound hlow hne hload halloc] at hcall
    obtain ⟨rfl, rfl⟩ := Prod.mk.inj (Except.ok.inj hcall)
    have hreplaced := hfresh.replaced h hroots hbound hlow hne
    rcases hgood with ⟨-, hcopied⟩ | ⟨call, -, hpanics⟩
    · have hgone := hreplaced.mapping pd h.root addr (pdx_lt_utop hlow)
      rw [if_pos hsame] at hgone
      have hwritable := hcopied.writable.1
      rw [hgone] at hwritable
      exact absurd hwritable (by decide)
    · cases hpanics
  · intro hgood
    by_cases hroom : OutOfPages k.memory pd
    · obtain ⟨k₁, halloc, -⟩ := sysPageAlloc_of_outOfPages hk h hroom
      exact ⟨_, _, pgfault_of_alloc_error hload halloc (by decide), .inr ⟨_, by decide, rfl⟩⟩
    · obtain ⟨pp, rest, m, free', rfl, hfresh, hroots, hbound, halloc⟩ :=
        sysPageAlloc_of_room hk h hroom
      have hhead := hk.exact.pageFreeList_cons
      have hother : ¬ SamePage pd pd pftemp addr := by
        rw [← rounddown_eq_pftemp_iff pd]
        refine hgood.resolve_right ?_
        rw [hhead]
        simp
      have hmapping := hfresh.mapping pd h.root addr (pdx_lt_utop hlow)
      rw [if_neg hother] at hmapping
      have hne : m.mapping pd addr ≠ 0 := by
        rw [hmapping]
        exact hmapped
      have hreplaced := hfresh.replaced h hroots hbound hlow hne
      have hcopy := hreplaced.mapping pd h.root addr (pdx_lt_utop hlow)
      rw [if_neg hother, if_pos ⟨rfl, rfl, rfl⟩] at hcopy
      have hnum : pgnum (page2pa pp ||| userWrite ||| pteP) = pp := pgnum_page2pa_or (by decide)
      refine ⟨_, _, hfresh.pgfault_returns h hroots hbound hlow hne hload halloc, .inl ⟨rfl, ?_⟩⟩
      constructor
      · rw [hcopy, hnum]
        exact hhead
      · rw [hcopy]
        exact ⟨(pte_userWrite pp).1, (pte_userWrite pp).2.1⟩
      · obtain ⟨hdata, hnot⟩ := h.space.data addr (pdx_lt_utop hlow) hmapped
        have hused := hk.exact.not_free_of_refers
          (refers_mapping h.root (pdx_lt_utop hlow) hmapped)
        change Memory.word _ (pgnum (Memory.mapping _ pd addr)) = _
        rw [hcopy, hnum, hreplaced.content, hmapping]
        exact hfresh.contents _ hdata hused hnot
      · exact (hreplaced.mapping pd h.root pftemp pdx_pftemp).trans (if_pos ⟨rfl, rfl, rfl⟩)
      · intro pd' hpd' va hva haddr hpf
        exact (hreplaced.mapping pd' hpd' va (pdx_lt_utop hva)).trans
          ((if_neg hpf).trans (if_neg haddr))

include hk h in
/-- At every other fault. -/
theorem handled_iff_of_not_cow (hcow : ¬ IsCowWrite k.memory pd addr err) :
    Recovered c k roots pd addr err ↔
      (k.memory.loadWord pd (uvptEntry addr)).isSome ∧ OutOfPages k.memory pd := by
  unfold Recovered
  rw [if_neg hcow]
  constructor
  · rintro ⟨call, k', hcall, hsame⟩
    cases hload : k.memory.loadWord pd (uvptEntry addr) with
    | none =>
      rw [pgfault_of_no_window (by rw [h.cr3]; exact hload)] at hcall
      cases hcall
    | some w =>
      refine ⟨rfl, ?_⟩
      rw [← h.cr3] at hload
      by_contra hroom
      obtain ⟨pp, rest, m, free', rfl, hfresh, hroots, hbound, halloc⟩ :=
        sysPageAlloc_of_room hk h hroom
      cases hcopy : m.copyPage (k.cpus c).cr3 pftemp (rounddown addr) with
      | none =>
        rw [pgfault_of_fault hload halloc hcopy] at hcall
        cases hcall
      | some memory =>
        obtain ⟨s, d, hs, hd, hmemory⟩ := copyPage_some hcopy
        by_cases hlow : addr < utop
        · have hne : m.mapping pd addr ≠ 0 := by
            intro hzero
            rw [h.cr3, translate_of_unmapped (by rw [mapping_rounddown]; exact hzero)
              (by decide)] at hs
            cases hs
          rw [hfresh.pgfault_returns h hroots hbound hlow hne hload halloc] at hcall
          cases hcall
        · rw [pgfault_of_map_error hload halloc hcopy (sysPageMap_high (BitVec.not_lt.mp hlow))
            (by decide)] at hcall
          obtain ⟨-, rfl⟩ := Prod.mk.inj (Except.ok.inj hcall)
          have hkept := hsame pd h.root pftemp (by decide)
          rw [h.cr3, hfresh.translate_pftemp h] at hd
          obtain rfl := Option.some.inj hd
          have hold : k.memory.mapping pd pftemp = page2pa pp ||| userWrite ||| pteP := by
            rw [← hkept, hmemory]
            exact hfresh.filled_pftemp h s hroots
          have hne : k.memory.mapping pd pftemp ≠ 0 := by
            rw [hold]
            exact or_pteP_ne_zero _
          have href := refers_mapping h.root pdx_pftemp hne
          rw [hold, pgnum_page2pa_or (by decide)] at href
          exact hk.exact.not_free_of_refers href List.mem_cons_self
  · rintro ⟨hload, hroom⟩
    obtain ⟨w, hload⟩ := Option.isSome_iff_exists.mp hload
    rw [← h.cr3] at hload
    obtain ⟨k₁, halloc, hsame⟩ := sysPageAlloc_of_outOfPages hk h hroom
    exact ⟨_, _, pgfault_of_alloc_error hload halloc (by decide), hsame⟩

end Main

/-- The handler does what it should at a write to a page that is to be copied, unless that page is the
one at `PFTEMP`, and at no other fault but where there is no memory for the copy. -/
theorem pgfault_handled_iff (hk : k.Accounted roots free other) (h : Faulting k c cur roots pd) :
    Recovered c k roots pd addr err ↔
      if IsCowWrite k.memory pd addr err then
        rounddown addr ≠ pftemp ∨ k.memory.pageFreeList = none
      else (k.memory.loadWord pd (uvptEntry addr)).isSome ∧ OutOfPages k.memory pd := by
  split
  · rename_i hcow
    exact handled_iff_of_cow hk h hcow
  · rename_i hcow
    exact handled_iff_of_not_cow hk h hcow

theorem lonelyKernel_faulting : Faulting lonelyKernel 0 0 {1} 1 where
  current := rfl
  directory := rfl
  root := Finset.mem_singleton_self 1
  cr3 := rfl
  space := by
    have hempty : ∀ d < pdx utop, selfMapped.word 1 d = 0 := by
      intro d hd
      refine if_neg ?_
      rintro ⟨-, rfl⟩
      exact absurd hd (by decide)
    have hnothing : ∀ va, pdx va < pdx utop → selfMapped.mapping 1 va = 0 :=
      fun va hva ↦ mapping_of_empty (hempty _ hva)
    refine ⟨rfl, fun d hd hne ↦ absurd (hempty d hd) hne, fun va hva hne ↦ absurd (hnothing va hva) hne,
      fun va hva hne ↦ absurd (hnothing va hva) hne, fun va _ ↦ ?_⟩
    change selfMapped.mapping 1 va &&& pteCow = 0
    have hword : ∀ pp d, selfMapped.word pp d &&& pteCow = 0 := by
      intro pp d
      change (if pp = 1 ∧ d = pdx uvpt then page2pa 1 ||| pteP ||| pteU else 0) &&& pteCow = 0
      split
      · decide
      · exact BitVec.zero_and
    unfold mapping
    split
    · exact BitVec.zero_and
    · exact hword _ _

/-- A fault at an address without a page table makes the handler have one itself. -/
theorem pgfault_not_handled_lonely : ¬ Recovered 0 lonelyKernel {1} 1 0x1000 7 := by
  have hcow : ¬ IsCowWrite lonelyKernel.memory 1 0x1000 7 := by decide
  rw [pgfault_handled_iff lonelyKernel_accounted lonelyKernel_faulting, if_neg hcow]
  rintro ⟨hload, -⟩
  exact absurd hload (by decide)

/-- The program has a page at `0x1000` that it may only read. -/
def readOnlyEvents : List (Event 1) := [.create 0 smallBinary, .start 0, .call 0 4 0 0x1000 5 0 0]

/-- A write to that page is let through: the handler replaces the page by one that may be written. -/
theorem pgfault_ignores_protection :
    (smallKernel 1 20).Booted (smallFree 20) ∧
    ∃ k, Run (Kernel.Step .rr) (smallKernel 1 20) readOnlyEvents k ∧
      ∀ roots, ¬ Recovered 0 k roots (k.cpus 0).cr3 0x1000 7 := by
  refine ⟨smallKernel_booted 1 20 (by decide), ?_⟩
  have hresult : (((smallKernel 1 20).after .rr readOnlyEvents).any fun k ↦
      !decide (IsCowWrite k.memory (k.cpus 0).cr3 0x1000 7) &&
        match pgfault 0 0x1000 7 k with
        | .ok (ending, _) => ending == .returns
        | .error _ => false) = true := by
    decide +kernel
  obtain ⟨k, hrun, hcheck⟩ := Kernel.run_of_any hresult
  simp only [Bool.and_eq_true, Bool.not_eq_true', decide_eq_false_iff_not] at hcheck
  obtain ⟨hcow, hcall⟩ := hcheck
  refine ⟨k, hrun, fun roots hhandled ↦ ?_⟩
  unfold Recovered at hhandled
  rw [if_neg hcow] at hhandled
  obtain ⟨call, k', hpanics, -⟩ := hhandled
  rw [hpanics] at hcall
  exact absurd hcall (by simp)

end SistemasOperativos.Jos
