import SistemasOperativos.Jos.PageOps

/-!
# Page tables

What a page directory maps, entry by entry, and what the functions of `kern/pmap.c` that walk it
return. The only change that a walk makes is a new table, taken from the free list.
-/

namespace SistemasOperativos.Jos

/-! ## Entries -/

section Entries

variable {pp : Ppn} {perm : Word}

theorem pgnum_or (a b : Word) : pgnum (a ||| b) = pgnum a ||| pgnum b :=
  BitVec.extractLsb'_or

@[simp] theorem pgnum_page2pa (pp : Ppn) : pgnum (page2pa pp) = pp :=
  BitVec.extractLsb'_append_eq_left

theorem pgnum_of_lt (h : perm.toNat < 4096) : pgnum perm = 0 := by
  apply BitVec.eq_of_toNat_eq
  rw [pgnum, BitVec.extractLsb'_toNat, Nat.shiftRight_eq_div_pow, Nat.div_eq_of_lt h]
  rfl

/-- The flags of an entry lie below its page. -/
theorem page2pa_and (h : perm.toNat < 4096) : page2pa pp &&& perm = 0 := by
  apply BitVec.eq_of_getLsbD_eq
  intro i hi
  simp only [page2pa, BitVec.getLsbD_and, BitVec.getLsbD_append]
  by_cases hlow : i < 12
  · simp [hlow]
  · have hbit : perm.getLsbD i = false := by
      apply Nat.testBit_lt_two_pow
      exact Nat.lt_of_lt_of_le h (Nat.pow_le_pow_right Nat.two_pos (Nat.le_of_not_lt hlow))
    simp [hbit]

/-- The entry that `page_insert` writes names the page. -/
theorem pgnum_page2pa_or (h : perm.toNat < 4096) : pgnum (page2pa pp ||| perm ||| pteP) = pp := by
  rw [pgnum_or, pgnum_or, pgnum_page2pa, pgnum_of_lt h, pgnum_of_lt (by decide)]
  simp

theorem or_pteP_ne_zero (w : Word) : w ||| pteP ≠ 0 := by
  intro h
  have hbit : (w ||| pteP).getLsbD 0 = false := by
    rw [h]
    rfl
  simp [pteP] at hbit

/-- An entry of a page directory with this bit maps a large page. -/
def ptePs : Word := 0x080

/-- The entry that `pgdir_walk` writes for a new table. -/
def tablePde (table : Ppn) : Word := page2pa table ||| pteP ||| pteW ||| pteU

@[simp] theorem pgnum_tablePde (table : Ppn) : pgnum (tablePde table) = table := by
  rw [tablePde, pgnum_or, pgnum_or, pgnum_or, pgnum_page2pa, (pgnum_of_lt (by decide) : pgnum pteP = 0),
    (pgnum_of_lt (by decide) : pgnum pteW = 0), (pgnum_of_lt (by decide) : pgnum pteU = 0)]
  simp

theorem tablePde_and_ptePs (table : Ppn) : tablePde table &&& ptePs = 0 := by
  have hflags : (pteP ||| pteW ||| pteU) &&& ptePs = 0 := by decide
  have hpage : page2pa table &&& ptePs = 0 := page2pa_and (by decide)
  have hsplit : tablePde table = page2pa table ||| (pteP ||| pteW ||| pteU) := by
    rw [tablePde, BitVec.or_assoc, BitVec.or_assoc, BitVec.or_assoc]
  rw [hsplit, BitVec.and_or_distrib_right, hpage, hflags]
  rfl

theorem tablePde_ne_zero (table : Ppn) : tablePde table ≠ 0 := by
  intro h
  have hbit : (tablePde table).getLsbD 0 = false := by
    rw [h]
    rfl
  simp [tablePde, pteP, pteW, pteU] at hbit

end Entries

namespace Memory

variable {m m' : Memory} {pd table pp : Ppn} {va : Word} {d : Slot} {create : Bool}

/-! ## Parts of the memory that an update leaves alone -/

section Updates

variable {pte : PtePtr} {w : Word} {info : PageInfo}

@[simp] theorem writePte_pages : (m.writePte pte w).pages = m.pages := rfl
@[simp] theorem writePte_npages : (m.writePte pte w).npages = m.npages := rfl
@[simp] theorem writePte_pageFreeList : (m.writePte pte w).pageFreeList = m.pageFreeList := rfl
@[simp] theorem setPage_word : (m.setPage pp info).word = m.word := rfl
@[simp] theorem setPage_npages : (m.setPage pp info).npages = m.npages := rfl
@[simp] theorem setPage_pageFreeList : (m.setPage pp info).pageFreeList = m.pageFreeList := rfl
@[simp] theorem incref_word : (m.incref pp).word = m.word := rfl
@[simp] theorem incref_npages : (m.incref pp).npages = m.npages := rfl
@[simp] theorem incref_pageFreeList : (m.incref pp).pageFreeList = m.pageFreeList := rfl

theorem writePte_word (m : Memory) (pte : PtePtr) (w : Word) (page : Ppn) (t : Slot) :
    (m.writePte pte w).word page t = if page = pte.1 ∧ t = pte.2 then w else m.word page t := by
  simp only [writePte, Function.update_apply]
  by_cases hpage : page = pte.1
  · subst hpage
    by_cases ht : t = pte.2
    · simp [ht]
    · simp [ht]
  · simp [hpage]

theorem setPage_pages (m : Memory) (pp : Ppn) (info : PageInfo) (q : Ppn) :
    (m.setPage pp info).pages q = if q = pp then info else m.pages q :=
  Function.update_apply ..

@[simp] theorem incref_ppLink (q : Ppn) : ((m.incref pp).pages q).ppLink = (m.pages q).ppLink := by
  rw [incref, setPage_pages]
  split
  · rename_i h
    rw [h]
  · rfl

theorem incref_pages (m : Memory) (pp q : Ppn) : (m.incref pp).pages q =
    if q = pp then { m.pages pp with ppRef := (m.pages pp).ppRef + 1 } else m.pages q :=
  Function.update_apply ..

end Updates

/-! ## A new page -/

/-- The memory after `page_alloc` has returned the page, filled with zeros. -/
def fresh (m : Memory) (pp : Ppn) : Memory := (m.take pp).zeroPage pp

@[simp] theorem fresh_npages : (m.fresh pp).npages = m.npages := rfl
@[simp] theorem fresh_pageFreeList : (m.fresh pp).pageFreeList = (m.pages pp).ppLink := rfl

theorem fresh_word (m : Memory) (pp page : Ppn) (t : Slot) :
    (m.fresh pp).word page t = if page = pp then 0 else m.word page t := by
  change Function.update m.word pp (fun _ ↦ 0) page t = _
  rw [Function.update_apply]
  split <;> rfl

theorem fresh_pages (m : Memory) (pp q : Ppn) :
    (m.fresh pp).pages q = if q = pp then { m.pages pp with ppLink := none } else m.pages q :=
  setPage_pages ..

@[simp] theorem fresh_ppRef (q : Ppn) : ((m.fresh pp).pages q).ppRef = (m.pages q).ppRef := by
  rw [fresh_pages]
  split
  · rename_i h
    rw [h]
  · rfl

theorem pageAlloc_of_empty (h : m.pageFreeList = none) : m.pageAlloc true = .ok (none, m) := by
  unfold pageAlloc
  rw [h]

theorem pageAlloc_of_free (h : m.pageFreeList = some pp) (hbound : pp.toNat < m.npages) :
    m.pageAlloc true = .ok (some pp, m.fresh pp) := by
  have hkaddr : (m.take pp).kaddr (page2pa pp) = .ok (pgnum (page2pa pp)) :=
    if_pos (by rw [pgnum_page2pa]; exact hbound)
  unfold pageAlloc
  rw [h]
  change ((m.take pp).kaddr (page2pa pp) >>= _) = _
  rw [hkaddr]
  rfl

/-! ## A new table -/

/-- The memory after `pgdir_walk` has taken `table` from the free list for the slot `d`. -/
def withTable (m : Memory) (pd : Ppn) (d : Slot) (table : Ppn) : Memory :=
  (((m.take table).zeroPage table).incref table).writePte (pd, d) (tablePde table)

@[simp] theorem withTable_npages : (m.withTable pd d table).npages = m.npages := rfl

@[simp] theorem withTable_pageFreeList :
    (m.withTable pd d table).pageFreeList = (m.pages table).ppLink := rfl

theorem withTable_word (m : Memory) (pd : Ppn) (d : Slot) (table page : Ppn) (t : Slot) :
    (m.withTable pd d table).word page t =
      if page = pd ∧ t = d then tablePde table
      else if page = table then 0 else m.word page t := by
  rw [withTable, writePte_word]
  by_cases hhere : page = pd ∧ t = d
  · rw [if_pos hhere, if_pos hhere]
  · rw [if_neg hhere, if_neg hhere]
    change Function.update m.word table (fun _ ↦ 0) page t = _
    rw [Function.update_apply]
    split <;> rfl

theorem withTable_pages (m : Memory) (pd : Ppn) (d : Slot) (table q : Ppn) :
    (m.withTable pd d table).pages q =
      if q = table then ⟨none, (m.pages table).ppRef + 1⟩ else m.pages q := by
  rw [withTable, writePte_pages, incref_pages]
  by_cases hq : q = table
  · rw [if_pos hq, if_pos hq]
    simp [zeroPage, take, setPage]
  · rw [if_neg hq, if_neg hq]
    simp [zeroPage, take, setPage, hq]

/-! ## Walking -/

/-- The entry that decides what is mapped at `va`, which is zero where there is no table. -/
def mapping (m : Memory) (pd : Ppn) (va : Word) : Word :=
  if m.word pd (pdx va) = 0 then 0 else m.word (pgnum (m.word pd (pdx va))) (ptx va)

/-- The entry that translates `va`: that of a page table, or that of the directory where it maps a
large page. -/
def translation (m : Memory) (pd : Ppn) (va : Word) : Word :=
  if m.word pd (pdx va) &&& ptePs = 0 then m.mapping pd va else m.word pd (pdx va)

theorem mapping_of_table (h : m.word pd (pdx va) ≠ 0) :
    m.mapping pd va = m.word (pgnum (m.word pd (pdx va))) (ptx va) := if_neg h

theorem mapping_of_empty (h : m.word pd (pdx va) = 0) : m.mapping pd va = 0 := if_pos h

theorem kaddr_eq {pa : Word} (h : (pgnum pa).toNat < m.npages) : m.kaddr pa = .ok (pgnum pa) :=
  if_pos h

theorem pgdirWalk_of_table (h : m.word pd (pdx va) ≠ 0)
    (hbound : (pgnum (m.word pd (pdx va))).toNat < m.npages) :
    pgdirWalk (some pd) va create m =
      .ok (some (pgnum (m.word pd (pdx va)), ptx va), m) := by
  have hread : m.readPte (pd, pdx va) = m.word pd (pdx va) := rfl
  unfold pgdirWalk
  simp only [hread, h, false_and, if_false, pure, Except.pure, bind, Except.bind, kaddr_eq hbound]

theorem pgdirWalk_false_of_empty (h : m.word pd (pdx va) = 0) :
    pgdirWalk (some pd) va false m = .ok (none, m) := by
  have hread : m.readPte (pd, pdx va) = m.word pd (pdx va) := rfl
  unfold pgdirWalk
  simp only [hread, h, Bool.false_eq_true, and_false, if_false, if_true, pure, Except.pure, bind,
    Except.bind]

/-- Without a free page there is no new table. -/
theorem pgdirWalk_true_of_full (h : m.word pd (pdx va) = 0) (hfree : m.pageFreeList = none) :
    pgdirWalk (some pd) va true m = .ok (none, m) := by
  have hread : m.readPte (pd, pdx va) = m.word pd (pdx va) := rfl
  unfold pgdirWalk pgdirCreate pageAlloc
  simp only [hread, h, hfree, and_self, if_true, pure, Except.pure, bind, Except.bind]

/-- With one it is the new table, and empty. -/
theorem pgdirWalk_true_of_free (h : m.word pd (pdx va) = 0) (hfree : m.pageFreeList = some table)
    (hbound : table.toNat < m.npages) :
    pgdirWalk (some pd) va true m = .ok (some (table, ptx va), m.withTable pd (pdx va) table) := by
  have hread : m.readPte (pd, pdx va) = m.word pd (pdx va) := rfl
  have hcreate : pgdirCreate pd va m = .ok (m.withTable pd (pdx va) table) := by
    unfold pgdirCreate
    rw [pageAlloc_of_free hfree hbound]
    rfl
  have hpde : (m.withTable pd (pdx va) table).readPte (pd, pdx va) = tablePde table := by
    rw [readPte, withTable_word, if_pos ⟨rfl, rfl⟩]
  have htable : (m.withTable pd (pdx va) table).kaddr (tablePde table) = .ok table := by
    rw [kaddr_eq (by rw [pgnum_tablePde]; exact hbound), pgnum_tablePde]
  unfold pgdirWalk
  simp only [hread, h, and_self, if_true, hcreate, bind, Except.bind, hpde, tablePde_ne_zero,
    if_false, htable]
  rfl

/-! ## Looking up -/

theorem pageLookup_of_unmapped (h : m.mapping pd va = 0)
    (hbound : m.word pd (pdx va) ≠ 0 → (pgnum (m.word pd (pdx va))).toNat < m.npages) :
    m.pageLookup (some pd) va = .ok none := by
  unfold pageLookup
  by_cases htable : m.word pd (pdx va) = 0
  · rw [pgdirWalk_false_of_empty htable]
    rfl
  · rw [mapping_of_table htable] at h
    rw [pgdirWalk_of_table htable (hbound htable)]
    simp only [readPte, h, if_true, pure, Except.pure, bind, Except.bind]

theorem pageLookup_of_mapped (h : m.mapping pd va ≠ 0)
    (hbound : (pgnum (m.word pd (pdx va))).toNat < m.npages)
    (hpage : (pgnum (m.mapping pd va)).toNat < m.npages) :
    m.pageLookup (some pd) va =
      .ok (some (pgnum (m.mapping pd va), (pgnum (m.word pd (pdx va)), ptx va))) := by
  have htable : m.word pd (pdx va) ≠ 0 := by
    intro hempty
    exact h (mapping_of_empty hempty)
  rw [mapping_of_table htable] at h hpage ⊢
  unfold pageLookup
  rw [pgdirWalk_of_table htable hbound]
  simp only [readPte, h, if_false, bind, Except.bind, kaddr_eq hpage, pure, Except.pure]

theorem pageRemove_of_unmapped (h : m.mapping pd va = 0)
    (hbound : m.word pd (pdx va) ≠ 0 → (pgnum (m.word pd (pdx va))).toNat < m.npages) :
    m.pageRemove (some pd) va = .ok m := by
  unfold pageRemove
  rw [pageLookup_of_unmapped h hbound]
  rfl

end Memory

end SistemasOperativos.Jos
