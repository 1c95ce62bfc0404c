import SistemasOperativos.Jos.Accounting

/-!
# Inserting and removing pages

What `page_remove` and `page_insert` do with exact counts: which entry changes, whose count, and
what becomes free. A page table made on demand shows in the window at `UVPT` and nowhere else.
-/

namespace SistemasOperativos.Jos.Memory

open Library

variable {m m' : Memory} {roots : Finset Ppn} {free rest : List Ppn} {other other' : Ppn → ℕ}
  {pd pd' pp q table : Ppn} {d t : Slot} {va va' w perm : Word}

/-- `UTOP` is the first address of its slot. -/
theorem pdx_lt_utop (h : va < utop) : pdx va < pdx utop := by
  rw [BitVec.lt_def] at h ⊢
  simp only [pdx, BitVec.extractLsb'_toNat, Nat.shiftRight_eq_div_pow]
  have hutop : utop.toNat = 955 * 2 ^ 22 := by decide
  have hva := va.isLt
  omega

/-- An address with the virtual page that `va` lies in. -/
def SamePage (pd pd' : Ppn) (va va' : Word) : Prop := pd' = pd ∧ pdx va' = pdx va ∧ ptx va' = ptx va

instance : Decidable (SamePage pd pd' va va') := inferInstanceAs (Decidable (_ ∧ _))

/-- The page of the window at `UVPT` that shows the page table of `va`. -/
def Shows (m : Memory) (pd pd' : Ppn) (va va' : Word) : Prop :=
  pd' = pd ∧ pgnum (m.word pd (pdx va')) = pd ∧ ptx va' = pdx va

/-! ## What an update of a table or of a directory leaves alone -/

/-- The page table that is found for `va`. -/
def tableOf (m : Memory) (pd : Ppn) (va : Word) : Ppn := pgnum (m.word pd (pdx va))

theorem refers_tableOf (hpd : pd ∈ roots) (hva : pdx va < pdx utop) (h : m.word pd (pdx va) ≠ 0) :
    m.refers roots (pd, pdx va, none) = some (m.tableOf pd va) :=
  refers_table hpd hva h

/-- A page table below `UTOP` is found by the addresses of one slot of one directory only. -/
theorem Forest.table_of_pgnum (hf : m.Forest roots free other) (hpd : pd ∈ roots)
    (hva : pdx va < pdx utop) (h : m.word pd (pdx va) ≠ 0) (hpd' : pd' ∈ roots)
    (h' : m.word pd' (pdx va') ≠ 0) (hlarge : m.word pd' (pdx va') &&& ptePs = 0)
    (heq : pgnum (m.word pd' (pdx va')) = m.tableOf pd va) : pd' = pd ∧ pdx va' = pdx va := by
  have htable := refers_tableOf hpd hva h
  by_cases hlow : pdx va' < pdx utop
  · have htable' := refers_table hpd' hlow h'
    rw [heq] at htable'
    exact hf.table _ _ _ _ _ htable' htable
  · rcases hf.kernel pd' hpd' _ (BitVec.not_lt.mp hlow) h' hlarge with hself | ⟨-, -, hkernel⟩
    · exact absurd (hself.symm.trans heq) (hf.root_ne_table htable hpd')
    · exact absurd (heq ▸ htable) (hkernel pd (pdx va))

/-- Writing the entry of `va` in its page table changes the translation of no other page. -/
theorem translation_writePte (hf : m.Forest roots free other) (hpd : pd ∈ roots)
    (hva : pdx va < pdx utop) (h : m.word pd (pdx va) ≠ 0) (hpd' : pd' ∈ roots)
    (hother : ¬ SamePage pd pd' va va') :
    (m.writePte (m.tableOf pd va, ptx va) w).translation pd' va' = m.translation pd' va' := by
  have hpde := writePte_root (t := ptx va) (w := w) hf (refers_tableOf hpd hva h) hpd' (pdx va')
  unfold translation mapping
  rw [hpde]
  by_cases hlarge : m.word pd' (pdx va') &&& ptePs = 0
  · rw [if_pos hlarge, if_pos hlarge]
    by_cases hzero : m.word pd' (pdx va') = 0
    · rw [if_pos hzero, if_pos hzero]
    · rw [if_neg hzero, if_neg hzero, writePte_word, if_neg]
      rintro ⟨htable, hslot⟩
      obtain ⟨rfl, hpdx⟩ := hf.table_of_pgnum hpd hva h hpd' hzero hlarge htable
      exact hother ⟨rfl, hpdx, hslot⟩
  · rw [if_neg hlarge, if_neg hlarge]

/-- A new page table changes the translation of no page but the one that shows it. -/
theorem translation_withTable (hm : m.Exact roots (table :: rest) other)
    (hf : m.Forest roots (table :: rest) other) (hpd : pd ∈ roots)
    (hempty : m.word pd (pdx va) = 0) (hpd' : pd' ∈ roots) (hshows : ¬ m.Shows pd pd' va va') :
    (m.withTable pd (pdx va) table).translation pd' va' = m.translation pd' va' := by
  have hpde := withTable_word m pd (pdx va) table pd' (pdx va')
  rw [if_neg (hf.root_ne hpd')] at hpde
  unfold translation mapping
  by_cases hslot : pd' = pd ∧ pdx va' = pdx va
  · rw [if_pos hslot] at hpde
    obtain ⟨rfl, hslot⟩ := hslot
    rw [hpde, hslot, hempty, if_pos (tablePde_and_ptePs table), if_neg (tablePde_ne_zero table), pgnum_tablePde,
      withTable_word, if_neg fun h ↦ hf.root_ne hpd' h.1.symm, if_pos rfl]
    simp
  · rw [if_neg hslot] at hpde
    rw [hpde]
    by_cases hlarge : m.word pd' (pdx va') &&& ptePs = 0
    · rw [if_pos hlarge, if_pos hlarge]
      by_cases hzero : m.word pd' (pdx va') = 0
      · rw [if_pos hzero, if_pos hzero]
      · have hkept : pgnum (m.word pd' (pdx va')) ≠ table ∧
            ¬ (pgnum (m.word pd' (pdx va')) = pd ∧ ptx va' = pdx va) := by
          by_cases hlow : pdx va' < pdx utop
          · have href := refers_table hpd' hlow hzero
            refine ⟨fun heq ↦ ?_, fun heq ↦ ?_⟩
            · exact hm.not_free_of_refers href (heq ▸ List.mem_cons_self)
            · exact ((hf.root pd hpd).2 _ (heq.1 ▸ href)).1 rfl
          · rcases hf.kernel pd' hpd' _ (BitVec.not_lt.mp hlow) hzero hlarge with
              hself | ⟨hroot, hkernel, -⟩
            · rw [hself]
              refine ⟨hf.root_ne hpd', fun heq ↦ ?_⟩
              obtain ⟨rfl, hptx⟩ := heq
              exact hshows ⟨rfl, hself, hptx⟩
            · refine ⟨fun heq ↦ ?_, fun heq ↦ hroot (heq.1 ▸ hpd)⟩
              exact hm.not_free_of_other hkernel (heq ▸ List.mem_cons_self)
        rw [if_neg hzero, if_neg hzero, withTable_word, if_neg hkept.2, if_neg hkept.1]
    · rw [if_neg hlarge, if_neg hlarge]

/-! ## Removing -/

/-- The memory after `page_remove`. -/
def removed (m : Memory) (pd : Ppn) (va : Word) : Memory :=
  if m.mapping pd va = 0 then m
  else (m.release (pgnum (m.mapping pd va))).writePte (m.tableOf pd va, ptx va) 0

/-- The free list after `page_remove`. -/
def freeRemoved (m : Memory) (pd : Ppn) (va : Word) (free : List Ppn) : List Ppn :=
  if m.mapping pd va = 0 then free else m.freeAfter (pgnum (m.mapping pd va)) free

theorem table_of_mapping (h : m.mapping pd va ≠ 0) : m.word pd (pdx va) ≠ 0 :=
  fun hempty ↦ h (mapping_of_empty hempty)

section Removing

theorem pageLookup_eq (hm : m.Exact roots free other) (hpd : pd ∈ roots) (hva : pdx va < pdx utop)
    (h : m.mapping pd va ≠ 0) :
    m.pageLookup (some pd) va =
      .ok (some (pgnum (m.mapping pd va), (m.tableOf pd va, ptx va))) :=
  pageLookup_of_mapped h (hm.target _ _ (refers_tableOf hpd hva (table_of_mapping h)))
    (hm.target _ _ (refers_mapping hpd hva h))

theorem pageLookup_eq_none (hm : m.Exact roots free other) (hpd : pd ∈ roots)
    (hva : pdx va < pdx utop) (h : m.mapping pd va = 0) : m.pageLookup (some pd) va = .ok none :=
  pageLookup_of_unmapped h fun htable ↦ hm.target _ _ (refers_tableOf hpd hva htable)

theorem readPte_tableOf (h : m.mapping pd va ≠ 0) :
    m.readPte (m.tableOf pd va, ptx va) = m.mapping pd va :=
  (mapping_of_table (table_of_mapping h)).symm

theorem pageRemove_eq_of (hbound : m.word pd (pdx va) ≠ 0 → (m.tableOf pd va).toNat < m.npages)
    (hpage : m.mapping pd va ≠ 0 → (pgnum (m.mapping pd va)).toNat < m.npages ∧
      (m.pages (pgnum (m.mapping pd va))).ppLink = none) :
    m.pageRemove (some pd) va = .ok (m.removed pd va) := by
  unfold removed
  by_cases hmapped : m.mapping pd va = 0
  · rw [if_pos hmapped]
    exact pageRemove_of_unmapped hmapped hbound
  · rw [if_neg hmapped]
    unfold pageRemove
    rw [pageLookup_of_mapped hmapped (hbound (table_of_mapping hmapped)) (hpage hmapped).1]
    change (m.pageDecref (pgnum (m.mapping pd va)) >>= _) = _
    rw [pageDecref_eq (hpage hmapped).2]
    rfl

theorem pageRemove_eq (hm : m.Exact roots free other) (hpd : pd ∈ roots)
    (hva : pdx va < pdx utop) : m.pageRemove (some pd) va = .ok (m.removed pd va) := by
  refine pageRemove_eq_of (fun h ↦ hm.target _ _ (refers_tableOf hpd hva h)) fun hmapped ↦ ?_
  have href := refers_mapping hpd hva hmapped
  exact ⟨hm.target _ _ href, hm.unlinked _ (hm.not_free_of_refers href)⟩

theorem Exact.removed (hm : m.Exact roots free other) (hf : m.Forest roots free other')
    (hpd : pd ∈ roots) (hva : pdx va < pdx utop) :
    (m.removed pd va).Exact roots (m.freeRemoved pd va free) other := by
  unfold Memory.removed freeRemoved
  by_cases hmapped : m.mapping pd va = 0
  · rw [if_pos hmapped, if_pos hmapped]
    exact hm
  · rw [if_neg hmapped, if_neg hmapped]
    exact hm.unmap hf (refers_tableOf hpd hva (table_of_mapping hmapped))
      (refers_mapping hpd hva hmapped)

theorem Forest.removed (hm : m.Exact roots free other') (hf : m.Forest roots free other)
    (hle : ∀ p, other p ≤ other' p) (hpd : pd ∈ roots) (hva : pdx va < pdx utop) :
    (m.removed pd va).Forest roots (m.freeRemoved pd va free) other := by
  unfold Memory.removed freeRemoved
  by_cases hmapped : m.mapping pd va = 0
  · rw [if_pos hmapped, if_pos hmapped]
    exact hf
  · rw [if_neg hmapped, if_neg hmapped]
    exact hf.unmap hm hle (refers_tableOf hpd hva (table_of_mapping hmapped))
      (refers_mapping hpd hva hmapped)

@[simp] theorem removed_npages : (m.removed pd va).npages = m.npages := by
  unfold removed
  split
  · rfl
  · exact release_npages

theorem removed_root (hf : m.Forest roots free other) (hpd : pd ∈ roots)
    (hva : pdx va < pdx utop) (hpd' : pd' ∈ roots) (d : Slot) :
    (m.removed pd va).word pd' d = m.word pd' d := by
  unfold removed
  by_cases hmapped : m.mapping pd va = 0
  · rw [if_pos hmapped]
  · have htable := refers_tableOf hpd hva (table_of_mapping hmapped)
    rw [if_neg hmapped, writePte_root (hf.of_word release_word)
      (by rw [release_refers]; exact htable) hpd', release_word]

theorem removed_word (hq : q ≠ m.tableOf pd va) : (m.removed pd va).word q = m.word q := by
  unfold removed
  split
  · rfl
  · funext t
    rw [writePte_word, if_neg fun h ↦ hq h.1, release_word]

/-- The entries below `UTOP` after `page_remove`. -/
theorem removed_entry {r : Ref} (hf : m.Forest roots free other) (hpd : pd ∈ roots)
    (hva : pdx va < pdx utop) (hr : r.1 ∈ roots) (hlow : r.2.1 < pdx utop) :
    (m.removed pd va).entry r = if r = (pd, pdx va, some (ptx va)) then 0 else m.entry r := by
  unfold removed
  by_cases hmapped : m.mapping pd va = 0
  · rw [if_pos hmapped]
    by_cases hhere : r = (pd, pdx va, some (ptx va))
    · rw [if_pos hhere, hhere]
      exact hmapped
    · rw [if_neg hhere]
  · have htable := refers_tableOf hpd hva (table_of_mapping hmapped)
    rw [if_neg hmapped, entry_writePte (hf.of_word release_word)
      (by rw [release_refers]; exact htable) hr hlow, entry_of_word release_word]

theorem removed_mapping (hf : m.Forest roots free other) (hpd : pd ∈ roots)
    (hva : pdx va < pdx utop) : (m.removed pd va).mapping pd va = 0 := by
  have hroot := removed_root hf hpd hva hpd (pdx va)
  by_cases hmapped : m.mapping pd va = 0
  · rw [removed, if_pos hmapped]
    exact hmapped
  · rw [mapping_of_table (by rw [hroot]; exact table_of_mapping hmapped), hroot, removed,
      if_neg hmapped, writePte_word, if_pos ⟨rfl, rfl⟩]

theorem translation_of_word (hword : m'.word = m.word) :
    m'.translation pd va = m.translation pd va := by
  unfold translation mapping
  rw [hword]

theorem removed_translation (hf : m.Forest roots free other) (hpd : pd ∈ roots)
    (hva : pdx va < pdx utop) (hpd' : pd' ∈ roots) (hother : ¬ SamePage pd pd' va va') :
    (m.removed pd va).translation pd' va' = m.translation pd' va' := by
  unfold removed
  by_cases hmapped : m.mapping pd va = 0
  · rw [if_pos hmapped]
  · have htable : (m.release (pgnum (m.mapping pd va))).tableOf pd va = m.tableOf pd va := by
      rw [tableOf, release_word, tableOf]
    rw [if_neg hmapped, ← htable]
    calc
      _ = (m.release (pgnum (m.mapping pd va))).translation pd' va' :=
        translation_writePte (hf.of_word release_word) hpd hva
          (by rw [release_word]; exact table_of_mapping hmapped) hpd' hother
      _ = m.translation pd' va' := translation_of_word release_word

/-- The page that was mapped, if there was one, loses a reference, and no other page does. -/
theorem removed_ppRef (p : Ppn) : ((m.removed pd va).pages p).ppRef =
    if m.mapping pd va ≠ 0 ∧ p = pgnum (m.mapping pd va) then (m.pages p).ppRef - 1
    else (m.pages p).ppRef := by
  unfold removed
  by_cases hmapped : m.mapping pd va = 0
  · rw [if_pos hmapped, if_neg fun h ↦ h.1 hmapped]
  · rw [if_neg hmapped, writePte_pages]
    by_cases hp : p = pgnum (m.mapping pd va)
    · rw [if_pos ⟨hmapped, hp⟩, hp, release_ppRef]
    · rw [if_neg fun h ↦ hp h.2, release_pages_of_ne hp]

theorem mem_freeRemoved : q ∈ m.freeRemoved pd va free ↔ q ∈ free ∨
    m.mapping pd va ≠ 0 ∧ q = pgnum (m.mapping pd va) ∧ (m.pages q).ppRef = 1 := by
  unfold freeRemoved freeAfter
  by_cases hmapped : m.mapping pd va = 0
  · simp [hmapped]
  · rw [if_neg hmapped]
    by_cases hlast : (m.pages (pgnum (m.mapping pd va))).ppRef = 1
    · rw [if_pos hlast, List.mem_cons]
      constructor
      · rintro (rfl | hq)
        · exact .inr ⟨hmapped, rfl, hlast⟩
        · exact .inl hq
      · rintro (hq | ⟨-, rfl, -⟩)
        · exact .inr hq
        · exact .inl rfl
    · rw [if_neg hlast]
      constructor
      · exact .inl
      · rintro (hq | ⟨-, rfl, hone⟩)
        · exact hq
        · exact absurd hone hlast

end Removing

/-! ## Inserting -/

/-- The memory after `page_insert` has put the entry `w` for `pp` into the page table of `va`. -/
def mapped (m : Memory) (pd pp : Ppn) (va w : Word) : Memory :=
  ((m.incref pp).removed pd va).writePte (m.tableOf pd va, ptx va) w

/-- The free list after that. -/
def freeMapped (m : Memory) (pd pp : Ppn) (va : Word) (free : List Ppn) : List Ppn :=
  (m.incref pp).freeRemoved pd va free

section Inserting

theorem incref_mapping : (m.incref pp).mapping pd va = m.mapping pd va := rfl

variable (pp perm) in
/-- With a page table for `va` the page is mapped. -/
theorem pageInsert_of_table (hm : m.Exact roots free other) (hpd : pd ∈ roots)
    (hva : pdx va < pdx utop) (h : m.word pd (pdx va) ≠ 0) :
    m.pageInsert (some pd) pp va perm =
      .ok (0, m.mapped pd pp va (page2pa pp ||| perm ||| pteP)) := by
  have hbound := hm.target _ _ (refers_tableOf hpd hva h)
  have hremove : (m.incref pp).pageRemove (some pd) va = .ok ((m.incref pp).removed pd va) := by
    refine pageRemove_eq_of (fun _ ↦ hbound) fun hmapped ↦ ?_
    have href := refers_mapping hpd hva hmapped
    refine ⟨hm.target _ _ href, ?_⟩
    rw [incref_ppLink]
    exact hm.unlinked _ (hm.not_free_of_refers href)
  unfold pageInsert
  rw [pgdirWalk_of_table h hbound]
  change ((m.incref pp).pageRemove (some pd) va >>= _) = _
  rw [hremove]
  rfl

/-- Without one, and without a free page, nothing happens. -/
theorem pageInsert_of_full (h : m.word pd (pdx va) = 0) (hfree : m.pageFreeList = none) :
    m.pageInsert (some pd) pp va perm = .ok (-eNoMem, m) := by
  unfold pageInsert
  rw [pgdirWalk_true_of_full h hfree]
  rfl

/-- Otherwise the first free page becomes the page table. -/
theorem pageInsert_of_free (hm : m.Exact roots (table :: rest) other)
    (hf : m.Forest roots (table :: rest) other) (hpd : pd ∈ roots) (hva : pdx va < pdx utop)
    (h : m.word pd (pdx va) = 0) :
    m.pageInsert (some pd) pp va perm =
      .ok (0, (m.withTable pd (pdx va) table).mapped pd pp va
        (page2pa pp ||| perm ||| pteP)) := by
  have hpde : (m.withTable pd (pdx va) table).word pd (pdx va) = tablePde table := by
    rw [withTable_word, if_pos ⟨rfl, rfl⟩]
  have hne : (m.withTable pd (pdx va) table).word pd (pdx va) ≠ 0 := by
    rw [hpde]
    exact tablePde_ne_zero table
  have hthen := pageInsert_of_table pp perm (hm.withTable hf hpd hva h) hpd hva
    hne
  have hwalk : (m.withTable pd (pdx va) table).pgdirWalk (some pd) va true =
      .ok (some (table, ptx va), m.withTable pd (pdx va) table) := by
    have hbound : (pgnum ((m.withTable pd (pdx va) table).word pd (pdx va))).toNat <
        (m.withTable pd (pdx va) table).npages := by
      rw [hpde, pgnum_tablePde]
      exact hm.bound table List.mem_cons_self
    rw [pgdirWalk_of_table hne hbound, hpde, pgnum_tablePde]
  unfold pageInsert at hthen ⊢
  rw [hwalk] at hthen
  rw [pgdirWalk_true_of_free h hm.pageFreeList_cons (hm.bound table List.mem_cons_self)]
  exact hthen

/-- Of the words in memory, only the entry of `va` changes. -/
theorem mapped_word :
    (m.mapped pd pp va w).word = (m.writePte (m.tableOf pd va, ptx va) w).word := by
  funext page slot
  rw [mapped, removed]
  by_cases hmapped : (m.incref pp).mapping pd va = 0
  · rw [if_pos hmapped, writePte_word, writePte_word, incref_word]
  · rw [if_neg hmapped, writePte_word, writePte_word, writePte_word, release_word]
    by_cases hhere : page = m.tableOf pd va ∧ slot = ptx va
    · rw [if_pos hhere, if_pos hhere]
    · rw [if_neg hhere, if_neg hhere]
      exact if_neg hhere

@[simp] theorem mapped_npages : (m.mapped pd pp va w).npages = m.npages :=
  removed_npages (m := m.incref pp)

variable (hm : m.Exact roots free other) (hf : m.Forest roots free other) (hpd : pd ∈ roots)
  (hva : pdx va < pdx utop) (h : m.word pd (pdx va) ≠ 0)

variable (pp) in
include hf hpd hva h in
theorem mapped_root (hpd' : pd' ∈ roots) (d : Slot) :
    (m.mapped pd pp va w).word pd' d = m.word pd' d := by
  rw [mapped_word]
  exact writePte_root hf (refers_tableOf hpd hva h) hpd' d

variable (pp) in
include hf hpd hva h in
/-- The entries below `UTOP` after the page has been mapped. -/
theorem mapped_entry {r : Ref} (hr : r.1 ∈ roots) (hlow : r.2.1 < pdx utop) :
    (m.mapped pd pp va w).entry r = if r = (pd, pdx va, some (ptx va)) then w else m.entry r := by
  rw [entry_of_word mapped_word]
  exact entry_writePte hf (refers_tableOf hpd hva h) hr hlow

variable (pp) in
include hf hpd hva h in
/-- The page is mapped with its flags. -/
theorem mapped_mapping : (m.mapped pd pp va w).mapping pd va = w :=
  (mapped_entry pp (r := (pd, pdx va, some (ptx va))) hf hpd hva h hpd hva).trans (if_pos rfl)

include hf hpd hva h in
theorem mapped_translation (hpd' : pd' ∈ roots) (hother : ¬ SamePage pd pd' va va') :
    (m.mapped pd pp va w).translation pd' va' = m.translation pd' va' := by
  calc
    _ = (m.writePte (m.tableOf pd va, ptx va) w).translation pd' va' :=
      translation_of_word mapped_word
    _ = m.translation pd' va' := translation_writePte hf hpd hva h hpd' hother

/-- The page gains a reference, and the one that was mapped loses one. -/
theorem mapped_ppRef (p : Ppn) : ((m.mapped pd pp va w).pages p).ppRef =
    (m.pages p).ppRef + (if p = pp then 1 else 0) -
      if m.mapping pd va ≠ 0 ∧ p = pgnum (m.mapping pd va) then 1 else 0 := by
  have hraised : ((m.incref pp).pages p).ppRef = (m.pages p).ppRef + if p = pp then 1 else 0 := by
    rw [incref_pages]
    by_cases hp : p = pp
    · rw [if_pos hp, if_pos hp, hp]
    · rw [if_neg hp, if_neg hp]
      exact (BitVec.add_zero _).symm
  rw [mapped, writePte_pages, removed_ppRef, incref_mapping, hraised]
  split
  · rfl
  · exact (BitVec.sub_zero _).symm

include hm hf hpd hva h in
theorem Exact.mapped (hpp : pp ∉ free) (hlow : (m.pages pp).ppRef.toNat < 2 ^ 16 - 1)
    (hw : w ≠ 0) (hpage : pgnum w = pp) (hbound : pp.toNat < m.npages) :
    (m.mapped pd pp va w).Exact roots (m.freeMapped pd pp va free) other := by
  have hexact := hm.incref hpp hlow
  have hforest := hf.of_word (incref_word : (m.incref pp).word = m.word)
  have hremoved := hforest.removed hexact (le_inHand other pp) hpd hva
  have hroot := removed_root hforest hpd hva hpd (pdx va)
  have htable : ((m.incref pp).removed pd va).refers roots (pd, pdx va, none) =
      some (m.tableOf pd va) := by
    rw [refers_tableOf hpd hva (by rw [hroot]; exact h), tableOf, hroot]
    rfl
  have hempty : ((m.incref pp).removed pd va).refers roots (pd, pdx va, some (ptx va)) = none :=
    refers_of_zero (removed_mapping hforest hpd hva)
  exact (hexact.removed hforest hpd hva).map hremoved htable hempty hw hpage
    (by rw [removed_npages]; exact hbound)

include hm hf hpd hva h in
theorem Forest.mapped (hpp : pp ∉ free) (hlow : (m.pages pp).ppRef.toNat < 2 ^ 16 - 1)
    (hpage : pgnum w = pp) (hroots : pp ∈ roots → 0 < other pp) :
    (m.mapped pd pp va w).Forest roots (m.freeMapped pd pp va free) other := by
  have hexact := hm.incref hpp hlow
  have hforest := hf.of_word (incref_word : (m.incref pp).word = m.word)
  have hroot := removed_root hforest hpd hva hpd (pdx va)
  have htable : ((m.incref pp).removed pd va).refers roots (pd, pdx va, none) =
      some (m.tableOf pd va) := by
    rw [refers_tableOf hpd hva (by rw [hroot]; exact h), tableOf, hroot]
    rfl
  refine (hforest.removed hexact (le_inHand other pp) hpd hva).writePte htable fun _ hmem ↦ ?_
  rw [hpage] at hmem ⊢
  exact hroots hmem

/-- What becomes free is the page that was mapped, if it was mapped only there and another page. -/
theorem mem_freeMapped (hm : m.Exact roots free other) (hpd : pd ∈ roots)
    (hva : pdx va < pdx utop) (hlow : (m.pages pp).ppRef.toNat < 2 ^ 16 - 1) :
    q ∈ m.freeMapped pd pp va free ↔ q ∈ free ∨
      m.mapping pd va ≠ 0 ∧ q = pgnum (m.mapping pd va) ∧ q ≠ pp ∧ (m.pages q).ppRef = 1 := by
  rw [freeMapped, mem_freeRemoved, incref_mapping]
  refine or_congr_right (and_congr_right fun hmapped ↦ and_congr_right fun hq ↦ ?_)
  rw [incref_pages]
  by_cases hsame : q = pp
  · have hpos := hm.pos_of_refers (refers_mapping hpd hva hmapped)
    rw [← hq, hsame] at hpos
    have hnot : (m.pages pp).ppRef ≠ 0 := by bv_omega
    simpa [hsame] using hnot
  · simp [hsame]

end Inserting

/-- The memory `m₀` has the page table for `va` in addition, unless `m` has it. -/
structure Tabled (m m₀ : Memory) (roots : Finset Ppn) (free free₀ : List Ppn) (other : Ppn → ℕ)
    (pd : Ppn) (va : Word) : Prop where
  exact : m₀.Exact roots free₀ other
  forest : m₀.Forest roots free₀ other
  npages : m₀.npages = m.npages
  table : m₀.word pd (pdx va) ≠ 0
  pages : ∀ p ∉ free, m₀.pages p = m.pages p ∧ p ∉ free₀
  contents : ∀ p ∉ free, p ∉ roots → m₀.word p = m.word p
  tables : ∀ p ∉ free, ∀ pd' d', m₀.refers roots (pd', d', none) = some p →
    m.refers roots (pd', d', none) = some p
  mapping : ∀ pd' ∈ roots, ∀ va', pdx va' < pdx utop → m₀.mapping pd' va' = m.mapping pd' va'
  directories : ∀ pd' ∈ roots, ∀ d, m₀.word pd' d = m.word pd' d ∨
    ∃ t, m₀.word pd' d = tablePde t

theorem Tabled.refl (hm : m.Exact roots free other) (hf : m.Forest roots free other)
    (h : m.word pd (pdx va) ≠ 0) : Tabled m m roots free free other pd va where
  exact := hm
  forest := hf
  npages := rfl
  table := h
  pages _ hp := ⟨rfl, hp⟩
  contents _ _ _ := rfl
  tables _ _ _ _ href := href
  mapping _ _ _ _ := rfl
  directories _ _ _ := .inl rfl

theorem tabled_withTable (hm : m.Exact roots (table :: rest) other)
    (hf : m.Forest roots (table :: rest) other) (hpd : pd ∈ roots) (hva : pdx va < pdx utop)
    (h : m.word pd (pdx va) = 0) :
    Tabled m (m.withTable pd (pdx va) table) roots (table :: rest) rest other pd va := by
  have hne : ∀ p ∉ table :: rest, p ≠ table := fun p hp heq ↦ hp (heq ▸ List.mem_cons_self)
  constructor
  · exact hm.withTable hf hpd hva h
  · exact hf.withTable hm hpd hva h
  · rfl
  · rw [withTable_word, if_pos ⟨rfl, rfl⟩]
    exact tablePde_ne_zero table
  · intro p hp
    refine ⟨?_, fun hmem ↦ hp (List.mem_cons_of_mem _ hmem)⟩
    rw [withTable_pages, if_neg (hne p hp)]
  · intro p hp hroot
    funext t
    have hpde : ¬ (p = pd ∧ t = pdx va) := fun h ↦ hroot (h.1 ▸ hpd)
    rw [withTable_word, if_neg hpde, if_neg (hne p hp)]
  · intro p hp pd' d' href
    rw [refers_withTable hm hf hpd hva h, Function.update_apply] at href
    split at href
    · exact absurd (Option.some.inj href).symm (hne p hp)
    · exact href
  · intro pd' hpd' va' hva'
    exact (entry_withTable (r := (pd', pdx va', some (ptx va'))) hm hf hpd hva h hpd'
      hva').trans (if_neg (by simp))
  · intro pd' hpd' d
    rw [withTable_word, if_neg (hf.root_ne hpd')]
    by_cases hhere : pd' = pd ∧ d = pdx va
    · exact .inr ⟨table, if_pos hhere⟩
    · exact .inl (if_neg hhere)

/-- Where there is a page table for `va`, or a page for one, an insertion succeeds. -/
theorem pageInsert_returns (hm : m.Exact roots free other) (hf : m.Forest roots free other)
    (hpd : pd ∈ roots) (hva : pdx va < pdx utop) (hroom : m.word pd (pdx va) = 0 → free ≠ []) :
    ∃ m₀ free₀, Tabled m m₀ roots free free₀ other pd va ∧
      ∀ pp perm, m.pageInsert (some pd) pp va perm =
        .ok (0, m₀.mapped pd pp va (page2pa pp ||| perm ||| pteP)) := by
  by_cases htable : m.word pd (pdx va) = 0
  · cases free with
    | nil => exact absurd rfl (hroom htable)
    | cons table rest =>
      exact ⟨_, rest, tabled_withTable hm hf hpd hva htable,
        fun pp perm ↦ pageInsert_of_free hm hf hpd hva htable⟩
  · exact ⟨m, free, Tabled.refl hm hf htable, fun pp perm ↦ pageInsert_of_table pp perm hm hpd hva htable⟩

/-! ## Mapping a fresh page -/

/-- The memory `m'` has the page `pp`, which was free, at `va`. What was mapped elsewhere still is. -/
structure FreshMapped (m m' : Memory) (roots : Finset Ppn) (free free' : List Ppn)
    (other : Ppn → ℕ) (pd pp : Ppn) (va perm : Word) : Prop where
  exact : m'.Exact roots free' other
  forest : m'.Forest roots free' other
  table : m'.word pd (pdx va) ≠ 0
  list : m'.pageFreeList ≠ m.pageFreeList
  mapping : ∀ pd' ∈ roots, ∀ va', pdx va' < pdx utop → m'.mapping pd' va' =
    if SamePage pd pd' va va' then page2pa pp ||| perm ||| pteP else m.mapping pd' va'
  directories : ∀ pd' ∈ roots, ∀ d, m'.word pd' d = m.word pd' d ∨
    ∃ t, m'.word pd' d = tablePde t
  count : (m'.pages pp).ppRef = 1
  notTable : ∀ pd' d', m'.refers roots (pd', d', none) ≠ some pp
  contents : ∀ q ∉ roots, q ∉ free → (∀ pd' d', m.refers roots (pd', d', none) ≠ some q) →
    m'.word q = m.word q

theorem freshMapped {m₀ : Memory} {free₀ : List Ppn} (hm : m.Exact roots (pp :: rest) other)
    (hf : m.Forest roots (pp :: rest) other) (hpd : pd ∈ roots) (hva : pdx va < pdx utop)
    (hperm : perm.toNat < 4096) (h : Tabled (m.fresh pp) m₀ roots rest free₀ other pd va) :
    FreshMapped m (m₀.mapped pd pp va (page2pa pp ||| perm ||| pteP)) roots (pp :: rest)
      (m₀.freeMapped pd pp va free₀) other pd pp va perm := by
  have hm₀ := h.exact
  have hf₀ := h.forest
  have htable := h.table
  have hrest : pp ∉ rest := (List.nodup_cons.mp hm.chain.nodup).1
  have hbound : pp.toNat < m₀.npages := by
    rw [h.npages]
    exact hm.bound pp List.mem_cons_self
  have hzero : (m₀.pages pp).ppRef = 0 := by
    rw [(h.pages pp hrest).1, fresh_ppRef]
    exact hm.unused pp List.mem_cons_self
  have hlow : (m₀.pages pp).ppRef.toNat < 2 ^ 16 - 1 := by
    rw [hzero]
    decide
  have hpage : pgnum (page2pa pp ||| perm ||| pteP) = pp := pgnum_page2pa_or hperm
  have hnotroot : pp ∉ roots := fun hmem ↦ hf.root_ne hmem rfl
  have hnone : ∀ r, m₀.refers roots r ≠ some pp := by
    intro r href
    have hpos := hm₀.pos_of_refers href
    rw [hzero] at hpos
    exact absurd hpos (by decide)
  have hexact := hm₀.mapped hf₀ hpd hva htable (h.pages pp hrest).2 hlow
    (or_pteP_ne_zero (page2pa pp ||| perm)) hpage hbound
  constructor
  · exact hexact
  · exact hf₀.mapped hm₀ hpd hva htable (h.pages pp hrest).2 hlow hpage fun h ↦ absurd h hnotroot
  · rw [mapped_root _ hf₀ hpd hva htable hpd]
    exact htable
  · rw [hm.pageFreeList_cons]
    intro hhead
    obtain ⟨rest', hfree⟩ := hexact.free_of_pageFreeList hhead
    have hmem : pp ∈ m₀.freeMapped pd pp va free₀ := hfree ▸ List.mem_cons_self
    rw [mem_freeMapped hm₀ hpd hva hlow] at hmem
    rcases hmem with hmem | ⟨-, -, hself, -⟩
    · exact (h.pages pp hrest).2 hmem
    · exact hself rfl
  · intro pd' hpd' va' hva'
    have hentry := mapped_entry pp (w := page2pa pp ||| perm ||| pteP)
      (r := (pd', pdx va', some (ptx va'))) hf₀ hpd hva htable hpd' hva'
    have hsame : ((pd', pdx va', some (ptx va')) : Ref) = (pd, pdx va, some (ptx va)) ↔
        SamePage pd pd' va va' := by
      simp [SamePage]
    change entry _ (pd', pdx va', some (ptx va')) = _
    rw [hentry]
    by_cases hhere : SamePage pd pd' va va'
    · rw [if_pos (hsame.mpr hhere), if_pos hhere]
    · rw [if_neg fun h ↦ hhere (hsame.mp h), if_neg hhere]
      exact (h.mapping pd' hpd' va' hva').trans
        (entry_fresh (r := (pd', pdx va', some (ptx va'))) hm hf hpd' hva')
  · intro pd' hpd' d
    rw [mapped_root _ hf₀ hpd hva htable hpd']
    refine (h.directories pd' hpd' d).imp_left fun h ↦ ?_
    rw [h, fresh_word, if_neg (hf.root_ne hpd')]
  · have hold : ¬ (m₀.mapping pd va ≠ 0 ∧ pp = pgnum (m₀.mapping pd va)) := by
      rintro ⟨hmapped, hpp⟩
      exact hnone _ (hpp ▸ refers_mapping hpd hva hmapped)
    rw [mapped_ppRef, hzero, if_pos rfl, if_neg hold]
    rfl
  · intro pd' d' href
    obtain ⟨hpd', hd', hne', hnum⟩ := refers_some href
    rw [mapped_entry _ hf₀ hpd hva htable hpd' hd', if_neg (by simp)] at hne' hnum
    exact hnone _ (hnum ▸ refers_table hpd' hd' hne')
  · intro q hroot hfree hnot
    rw [List.mem_cons, not_or] at hfree
    have hne : q ≠ m₀.tableOf pd va := by
      intro heq
      have href := h.tables q hfree.2 _ _ (heq ▸ refers_tableOf hpd hva htable)
      rw [refers_fresh hm hf] at href
      exact hnot _ _ href
    funext t
    rw [mapped_word, writePte_word, if_neg fun h ↦ hne h.1, h.contents q hfree.2 hroot, fresh_word,
      if_neg hfree.1]

/-! ## What the callers see -/

/-- What `page_remove` has done. -/
structure Removed (m m' : Memory) (roots : Finset Ppn) (free' : List Ppn) (other : Ppn → ℕ)
    (pd : Ppn) (va : Word) : Prop where
  cleared : m'.pageLookup (some pd) va = .ok none
  others : ∀ pd' ∈ roots, ∀ va', ¬ SamePage pd pd' va va' →
    m'.translation pd' va' = m.translation pd' va'
  lowered : ∀ q, m.mapping pd va ≠ 0 → q = pgnum (m.mapping pd va) →
    (m.pages q).ppRef.toNat = (m'.pages q).ppRef.toNat + 1 ∧
      (q ∈ free' ↔ (m'.pages q).ppRef = 0)
  counts : ∀ p, ¬ (m.mapping pd va ≠ 0 ∧ p = pgnum (m.mapping pd va)) →
    (m'.pages p).ppRef = (m.pages p).ppRef
  exact : m'.Exact roots free' other

/-- What `page_insert` has done where it returns 0. -/
structure Inserted (m m' : Memory) (roots : Finset Ppn) (free free' : List Ppn) (other : Ppn → ℕ)
    (pd pp : Ppn) (va perm : Word) : Prop where
  lookup : ∃ pte, m'.pageLookup (some pd) va = .ok (some (pp, pte)) ∧
    m'.readPte pte = page2pa pp ||| perm ||| pteP
  others : ∀ pd' ∈ roots, ∀ va', ¬ SamePage pd pd' va va' →
    ¬ (m.word pd (pdx va) = 0 ∧ m.Shows pd pd' va va') →
      m'.translation pd' va' = m.translation pd' va'
  raised : (m'.pages pp).ppRef.toNat = (m.pages pp).ppRef.toNat +
    if m.mapping pd va ≠ 0 ∧ pp = pgnum (m.mapping pd va) then 0 else 1
  displaced : ∀ q, m.mapping pd va ≠ 0 → q = pgnum (m.mapping pd va) → q ≠ pp →
    (m.pages q).ppRef.toNat = (m'.pages q).ppRef.toNat + 1 ∧
      (q ∈ free' ↔ (m'.pages q).ppRef = 0)
  counts : ∀ p ∉ free, p ≠ pp → ¬ (m.mapping pd va ≠ 0 ∧ p = pgnum (m.mapping pd va)) →
    (m'.pages p).ppRef = (m.pages p).ppRef
  kept : pp ∉ free'
  exact : m'.Exact roots free' other

theorem removed_spec (hm : m.Exact roots free other) (hf : m.Forest roots free other)
    (hpd : pd ∈ roots) (hva : pdx va < pdx utop) :
    Removed m (m.removed pd va) roots (m.freeRemoved pd va free) other pd va where
  cleared := by
    apply pageLookup_of_unmapped (removed_mapping hf hpd hva)
    intro h
    exact (hm.removed hf hpd hva).target _ _ (refers_tableOf hpd hva h)
  others pd' hpd' va' := removed_translation hf hpd hva hpd'
  lowered := by
    intro q hmapped hq
    have href := refers_mapping hpd hva hmapped
    rw [← hq] at href
    have hpos := hm.pos_of_refers href
    have hfree := hm.not_free_of_refers href
    rw [removed_ppRef, if_pos ⟨hmapped, hq⟩, mem_freeRemoved]
    refine ⟨by bv_omega, ?_⟩
    have hlast : (m.pages q).ppRef - 1 = 0 ↔ (m.pages q).ppRef = 1 := by
      constructor <;> intro h <;> bv_omega
    simp only [hfree, false_or, hlast]
    exact ⟨fun h ↦ h.2.2, fun h ↦ ⟨hmapped, hq, h⟩⟩
  counts p hp := by rw [removed_ppRef, if_neg hp]
  exact := hm.removed hf hpd hva

theorem mapped_spec (hm : m.Exact roots free other) (hf : m.Forest roots free other)
    (hpd : pd ∈ roots) (hva : pdx va < pdx utop) (h : m.word pd (pdx va) ≠ 0) (hpp : pp ∉ free)
    (hbound : pp.toNat < m.npages) (hlow : (m.pages pp).ppRef.toNat < 2 ^ 16 - 1)
    (hperm : perm.toNat < 4096) :
    Inserted m (m.mapped pd pp va (page2pa pp ||| perm ||| pteP)) roots free
      (m.freeMapped pd pp va free) other pd pp va perm := by
  have hmapping := mapped_mapping pp (w := page2pa pp ||| perm ||| pteP) hf hpd hva h
  have hexact := hm.mapped hf hpd hva h hpp hlow (or_pteP_ne_zero _) (pgnum_page2pa_or hperm) hbound
  have hroot := mapped_root pp (w := page2pa pp ||| perm ||| pteP) hf hpd hva h hpd
    (pdx va)
  have hmapped : (m.mapped pd pp va (page2pa pp ||| perm ||| pteP)).mapping pd va ≠ 0 := by
    rw [hmapping]
    exact or_pteP_ne_zero _
  constructor
  · have hlookup := pageLookup_of_mapped hmapped
      (hexact.target _ _ (refers_tableOf hpd hva (table_of_mapping hmapped)))
      (hexact.target _ _ (refers_mapping hpd hva hmapped))
    rw [hmapping, pgnum_page2pa_or hperm, hroot] at hlookup
    refine ⟨_, hlookup, ?_⟩
    rw [mapping_of_table (table_of_mapping hmapped), hroot] at hmapping
    exact hmapping
  · intro pd' hpd' va' hother _
    exact mapped_translation hf hpd hva h hpd' hother
  · rw [mapped_ppRef, if_pos rfl]
    split
    · bv_omega
    · bv_omega
  · intro q hold hq hne
    have href := refers_mapping hpd hva hold
    rw [← hq] at href
    have hpos := hm.pos_of_refers href
    have hfree := hm.not_free_of_refers href
    rw [mapped_ppRef, if_neg hne, if_pos ⟨hold, hq⟩, mem_freeMapped hm hpd hva hlow]
    refine ⟨by bv_omega, ?_⟩
    have hlast : (m.pages q).ppRef + 0 - 1 = 0 ↔ (m.pages q).ppRef = 1 := by
      constructor <;> intro h <;> bv_omega
    simp only [hfree, false_or, hlast]
    exact ⟨fun h ↦ h.2.2.2, fun h ↦ ⟨hold, hq, hne, h⟩⟩
  · intro p _ hne hold
    rw [mapped_ppRef, if_neg hne, if_neg hold]
    bv_omega
  · rw [mem_freeMapped hm hpd hva hlow]
    rintro (hmem | ⟨-, -, hne, -⟩)
    · exact hpp hmem
    · exact hne rfl
  · exact hexact

/-- The page table made on demand adds no change of its own but in the window at `UVPT`. -/
theorem Inserted.after_withTable {m' : Memory} {free' : List Ppn}
    (hm : m.Exact roots (table :: rest) other) (hf : m.Forest roots (table :: rest) other)
    (hpd : pd ∈ roots) (hempty : m.word pd (pdx va) = 0) (hpp : pp ∉ table :: rest)
    (h : Inserted (m.withTable pd (pdx va) table) m' roots rest free' other pd pp va perm) :
    Inserted m m' roots (table :: rest) free' other pd pp va perm := by
  have hnone : m.mapping pd va = 0 := mapping_of_empty hempty
  have hfresh : (m.withTable pd (pdx va) table).mapping pd va = 0 := by
    have hpde : (m.withTable pd (pdx va) table).word pd (pdx va) = tablePde table := by
      rw [withTable_word, if_pos ⟨rfl, rfl⟩]
    rw [mapping_of_table (by rw [hpde]; exact tablePde_ne_zero table), hpde, pgnum_tablePde,
      withTable_word, if_neg fun heq ↦ hf.root_ne hpd heq.1.symm, if_pos rfl]
  have hkept : ∀ p ∉ table :: rest, (m.withTable pd (pdx va) table).pages p = m.pages p := by
    intro p hp
    rw [withTable_pages, if_neg fun heq : p = table ↦ hp (heq ▸ List.mem_cons_self)]
  constructor
  · exact h.lookup
  · intro pd' hpd' va' hother hshows
    have hnew : ¬ ((m.withTable pd (pdx va) table).word pd (pdx va) = 0 ∧
        (m.withTable pd (pdx va) table).Shows pd pd' va va') := by
      rintro ⟨hzero, -⟩
      rw [withTable_word, if_pos ⟨rfl, rfl⟩] at hzero
      exact tablePde_ne_zero table hzero
    calc
      m'.translation pd' va' = (m.withTable pd (pdx va) table).translation pd' va' :=
        h.others pd' hpd' va' hother hnew
      _ = m.translation pd' va' :=
        translation_withTable hm hf hpd hempty hpd' fun heq ↦ hshows ⟨hempty, heq⟩
  · have hraised := h.raised
    rw [hkept pp hpp, if_neg fun heq ↦ heq.1 hfresh] at hraised
    rw [if_neg fun heq ↦ heq.1 hnone]
    exact hraised
  · intro q hold
    exact absurd hnone hold
  · intro p hp hne _
    rw [h.counts p (fun hmem ↦ hp (List.mem_cons_of_mem _ hmem)) hne fun heq ↦ heq.1 hfresh,
      hkept p hp]
  · exact h.kept
  · exact h.exact

/-- Both functions on every directory whose pages are counted exactly: an insertion that finds no
page for the page table it needs changes nothing. -/
theorem page_insert_and_remove (hm : m.Exact roots free other) (hf : m.Forest roots free other)
    (hpd : pd ∈ roots) (hva : va < utop) :
    (∀ pp perm, pp ∉ free → pp.toNat < m.npages → (m.pages pp).ppRef.toNat < 2 ^ 16 - 1 →
      perm.toNat < 4096 →
        (∃ m' free', m.pageInsert (some pd) pp va perm = .ok (0, m') ∧
          Inserted m m' roots free free' other pd pp va perm) ∨
        m.word pd (pdx va) = 0 ∧ free = [] ∧
          m.pageInsert (some pd) pp va perm = .ok (-eNoMem, m)) ∧
    ∃ m' free', m.pageRemove (some pd) va = .ok m' ∧ Removed m m' roots free' other pd va := by
  have hslot := pdx_lt_utop hva
  refine ⟨?_, _, _, pageRemove_eq hm hpd hslot, removed_spec hm hf hpd hslot⟩
  intro pp perm hpp hbound hlow hperm
  by_cases htable : m.word pd (pdx va) = 0
  · cases free with
    | nil => exact .inr ⟨htable, rfl, pageInsert_of_full htable hm.chain⟩
    | cons table rest =>
      have hkept : (m.withTable pd (pdx va) table).pages pp = m.pages pp := by
        rw [withTable_pages, if_neg fun heq : pp = table ↦ hpp (heq ▸ List.mem_cons_self)]
      have hne : (m.withTable pd (pdx va) table).word pd (pdx va) ≠ 0 := by
        rw [withTable_word, if_pos ⟨rfl, rfl⟩]
        exact tablePde_ne_zero table
      have hmapped := mapped_spec (hm.withTable hf hpd hslot htable)
        (hf.withTable hm hpd hslot htable) hpd hslot hne
        (fun hmem ↦ hpp (List.mem_cons_of_mem _ hmem)) hbound (by rw [hkept]; exact hlow) hperm
      exact .inl ⟨_, _, pageInsert_of_free hm hf hpd hslot htable,
        hmapped.after_withTable hm hf hpd htable hpp⟩
  · exact .inl ⟨_, _, pageInsert_of_table _ _ hm hpd hslot htable,
      mapped_spec hm hf hpd hslot htable hpp hbound hlow hperm⟩

/-- Page 1 is a directory with nothing but itself at `UVPT`, page 2 is in use, and page 3 is free. -/
def selfMapped : Memory where
  npages := 4
  word p d := if p = 1 ∧ d = pdx uvpt then page2pa 1 ||| pteP ||| pteU else 0
  pages p := ⟨none, if p = 3 then 0 else 1⟩
  pageFreeList := some 3
  kernPgdir := 1

/-- Nothing below `UTOP` is mapped. -/
theorem selfMapped_refers (r : Ref) : selfMapped.refers {1} r = none := by
  unfold refers
  rw [if_neg]
  rintro ⟨-, hlow, hne⟩
  obtain ⟨pd, d, t⟩ := r
  have hslot : d ≠ pdx uvpt := by
    rintro rfl
    have hhigh : ¬ pdx uvpt < pdx utop := by decide
    exact hhigh hlow
  have hzero : selfMapped.word pd d = 0 := if_neg fun h ↦ hslot h.2
  cases t with
  | none => exact hne hzero
  | some t => exact hne (if_pos hzero)

theorem selfMapped_exact : selfMapped.Exact {1} [3] fun p ↦ if p = 3 then 0 else 1 where
  chain := ⟨rfl, rfl⟩
  unlinked _ _ := rfl
  bound := by
    intro p hp
    simp [selfMapped, List.mem_singleton.mp hp]
  count p := by
    have hzero : refCount (selfMapped.refers {1}) p = 0 := by
      rw [refCount_eq_zero_iff]
      intro r
      rw [selfMapped_refers]
      simp
    rw [hzero, Nat.zero_add]
    change (if p = 3 then 0 else 1 : BitVec 16).toNat = if p = 3 then 0 else 1
    by_cases hp : p = 3
    · rw [if_pos hp, if_pos hp]
      rfl
    · rw [if_neg hp, if_neg hp]
      rfl
  unused := by
    intro p hp
    simp [selfMapped, List.mem_singleton.mp hp]
  target r p h := by
    rw [selfMapped_refers] at h
    cases h

theorem selfMapped_forest : selfMapped.Forest {1} [3] fun p ↦ if p = 3 then 0 else 1 where
  root pd hpd := by
    obtain rfl := Finset.mem_singleton.mp hpd
    refine ⟨by decide, fun r h ↦ ?_⟩
    rw [selfMapped_refers] at h
    cases h
  table pd d pd' d' p h := by
    rw [selfMapped_refers] at h
    cases h
  kernel pd hpd d _ hne _ := by
    obtain rfl := Finset.mem_singleton.mp hpd
    by_cases hself : d = pdx uvpt
    · left
      rw [hself]
      decide
    · exact absurd (if_neg fun h ↦ hself h.2) hne

/-- The window at `UVPT` shows the new page table at an address where nothing was. -/
theorem page_insert_changes_window :
    selfMapped.Exact {1} [3] (fun p ↦ if p = 3 then 0 else 1) ∧
    selfMapped.Forest {1} [3] (fun p ↦ if p = 3 then 0 else 1) ∧
    ∃ m', selfMapped.pageInsert (some 1) 2 pgsize (pteU ||| pteW) = .ok (0, m') ∧
      selfMapped.pageLookup (some 1) uvpt = .ok none ∧
      m'.pageLookup (some 1) uvpt = .ok (some (3, 1, 0)) := by
  have htable : selfMapped.pageInsert (some 1) 2 pgsize (pteU ||| pteW) = _ :=
    pageInsert_of_free selfMapped_exact selfMapped_forest (by decide) (by decide) (by decide)
  refine ⟨selfMapped_exact, selfMapped_forest, _, htable, ?_, ?_⟩
  · rfl
  · rfl

/-- With a free page for the page table, page 2 is mapped at the second page. -/
theorem page_insert_and_remove_selfMapped :
    (∃ m' free', selfMapped.pageInsert (some 1) 2 pgsize (pteU ||| pteW) = .ok (0, m') ∧
      Inserted selfMapped m' {1} [3] free' (fun p ↦ if p = 3 then 0 else 1) 1 2 pgsize
        (pteU ||| pteW)) ∧
    ∃ m' free', selfMapped.pageRemove (some 1) pgsize = .ok m' ∧
      Removed selfMapped m' {1} free' (fun p ↦ if p = 3 then 0 else 1) 1 pgsize := by
  have hspec := page_insert_and_remove selfMapped_exact selfMapped_forest
    (Finset.mem_singleton_self 1) (by decide : pgsize < utop)
  refine ⟨?_, hspec.2⟩
  rcases hspec.1 2 (pteU ||| pteW) (by decide) (by decide) (by decide) (by decide) with h | h
  · exact h
  · exact absurd h.2.1 (by decide)

end SistemasOperativos.Jos.Memory
