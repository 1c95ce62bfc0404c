import Mathlib.Data.FinEnum
import SistemasOperativos.Jos.PageTables
import SistemasOperativos.Library.LinkedList
import SistemasOperativos.Library.RefCount

/-!
# The accounting of pages

The references that page directories hold below `UTOP`: one for each page table, and one for each
page mapped. The count of a page is exact if it is the number of these references and of the `other`
ones, which the kernel holds elsewhere. The free list has no page with a reference.
-/

namespace SistemasOperativos.Jos

open Library

/-- An entry of a page directory, or with a second slot the entry of one of its page tables. -/
abbrev Ref := Ppn × Slot × Option Slot

namespace Memory

variable {m m' : Memory} {roots : Finset Ppn} {free : List Ppn} {other other' : Ppn → ℕ}
  {pd pp q table : Ppn} {d t : Slot} {r : Ref} {va w : Word}

def entry (m : Memory) : Ref → Word
  | (pd, d, none) => m.word pd d
  | (pd, d, some t) => if m.word pd d = 0 then 0 else m.word (pgnum (m.word pd d)) t

theorem entry_of_word (h : m'.word = m.word) : m'.entry = m.entry := by
  funext r
  obtain ⟨pd, d, t⟩ := r
  cases t with
  | none => exact congrFun (congrFun h pd) d
  | some t => simp only [entry, h]

/-- The page that an entry refers to, if it is one below `UTOP` of a directory in `roots`. -/
def refers (m : Memory) (roots : Finset Ppn) (r : Ref) : Option Ppn :=
  if r.1 ∈ roots ∧ r.2.1 < pdx utop ∧ m.entry r ≠ 0 then some (pgnum (m.entry r)) else none

structure Exact (m : Memory) (roots : Finset Ppn) (free : List Ppn) (other : Ppn → ℕ) : Prop where
  chain : Chain (fun p ↦ (m.pages p).ppLink) m.pageFreeList free
  unlinked : ∀ p, p ∉ free → (m.pages p).ppLink = none
  bound : ∀ p ∈ free, p.toNat < m.npages
  count : ∀ p, (m.pages p).ppRef.toNat = refCount (m.refers roots) p + other p
  unused : ∀ p ∈ free, (m.pages p).ppRef = 0
  target : ∀ r p, m.refers roots r = some p → p.toNat < m.npages

/-- The page directories are trees of their own: no page table hangs in two places, and none is a
directory. Above `UTOP` there may be large pages, the directory itself, and tables of the kernel. -/
structure Forest (m : Memory) (roots : Finset Ppn) (free : List Ppn) (other : Ppn → ℕ) :
    Prop where
  root : ∀ pd ∈ roots, pd ∉ free ∧ ∀ r, m.refers roots r = some pd → r.2.2 ≠ none ∧ 0 < other pd
  table : ∀ pd d pd' d' p, m.refers roots (pd, d, none) = some p →
    m.refers roots (pd', d', none) = some p → pd = pd' ∧ d = d'
  kernel : ∀ pd ∈ roots, ∀ d, pdx utop ≤ d → m.word pd d ≠ 0 → m.word pd d &&& ptePs = 0 →
    pgnum (m.word pd d) = pd ∨ pgnum (m.word pd d) ∉ roots ∧ 0 < other (pgnum (m.word pd d)) ∧
      ∀ pd' d', m.refers roots (pd', d', none) ≠ some (pgnum (m.word pd d))

/-! ## References -/

theorem refers_table (hpd : pd ∈ roots) (hd : d < pdx utop) (h : m.word pd d ≠ 0) :
    m.refers roots (pd, d, none) = some (pgnum (m.word pd d)) :=
  if_pos ⟨hpd, hd, h⟩

theorem refers_mapping (hpd : pd ∈ roots) (hva : pdx va < pdx utop) (h : m.mapping pd va ≠ 0) :
    m.refers roots (pd, pdx va, some (ptx va)) = some (pgnum (m.mapping pd va)) :=
  if_pos ⟨hpd, hva, h⟩

theorem refers_of_zero (h : m.entry r = 0) : m.refers roots r = none :=
  if_neg fun hall ↦ hall.2.2 h

theorem refers_some (h : m.refers roots r = some q) :
    r.1 ∈ roots ∧ r.2.1 < pdx utop ∧ m.entry r ≠ 0 ∧ pgnum (m.entry r) = q := by
  unfold refers at h
  split at h
  · rename_i hall
    exact ⟨hall.1, hall.2.1, hall.2.2, Option.some.inj h⟩
  · cases h

/-- The table behind an entry of a page table. -/
theorem refers_through (h : m.refers roots (pd, d, some t) = some q) :
    m.refers roots (pd, d, none) = some (pgnum (m.word pd d)) := by
  obtain ⟨hpd, hd, hentry, -⟩ := refers_some h
  refine refers_table hpd hd ?_
  intro hzero
  exact hentry (if_pos hzero)

namespace Exact

theorem pos_of_refers (h : m.Exact roots free other) (hr : m.refers roots r = some q) :
    0 < (m.pages q).ppRef.toNat := by
  have hpos : 0 < refCount (m.refers roots) q := refCount_pos hr
  rw [h.count q]
  omega

theorem not_free_of_pos (h : m.Exact roots free other) (hpos : 0 < (m.pages q).ppRef.toNat) :
    q ∉ free := by
  intro hq
  rw [h.unused q hq] at hpos
  exact absurd hpos (by decide)

theorem not_free_of_refers (h : m.Exact roots free other) (hr : m.refers roots r = some q) :
    q ∉ free :=
  h.not_free_of_pos (h.pos_of_refers hr)

theorem not_free_of_other (h : m.Exact roots free other) (hq : 0 < other q) : q ∉ free := by
  apply h.not_free_of_pos
  rw [h.count q]
  omega

theorem free_of_pageFreeList (h : m.Exact roots free other) (hfree : m.pageFreeList = some table) :
    ∃ rest, free = table :: rest := by
  have hchain := h.chain
  rw [hfree] at hchain
  obtain ⟨rest, hrest, -⟩ := hchain.of_some
  exact ⟨rest, hrest⟩

theorem pageFreeList_cons {rest : List Ppn} (h : m.Exact roots (table :: rest) other) :
    m.pageFreeList = some table := h.chain.1

end Exact

/-- The counts depend on what refers to the pages only. -/
theorem Exact.of_refers (hm : m.Exact roots free other) (hrefers : m'.refers roots = m.refers roots)
    (hpages : m'.pages = m.pages) (hnpages : m'.npages = m.npages)
    (hlist : m'.pageFreeList = m.pageFreeList) : m'.Exact roots free other := by
  constructor
  · rw [hpages, hlist]
    exact hm.chain
  · rw [hpages]
    exact hm.unlinked
  · rw [hnpages]
    exact hm.bound
  · rw [hpages, hrefers]
    exact hm.count
  · rw [hpages]
    exact hm.unused
  · rw [hrefers, hnpages]
    exact hm.target

/-! ## Contents of other pages -/

section Contents

variable (hkept : ∀ q, q ∈ roots ∨ (∃ pd d, m.refers roots (pd, d, none) = some q) →
  m'.word q = m.word q)

include hkept in
/-- The entries depend on the directories and the page tables only. -/
theorem entry_of_contents (hr : r.1 ∈ roots) (hlow : r.2.1 < pdx utop) :
    m'.entry r = m.entry r := by
  obtain ⟨pd, d, t⟩ := r
  have hroot : m'.word pd d = m.word pd d := congrFun (hkept pd (.inl hr)) d
  cases t with
  | none => exact hroot
  | some t =>
    change (if m'.word pd d = 0 then 0 else m'.word (pgnum (m'.word pd d)) t) =
      if m.word pd d = 0 then 0 else m.word (pgnum (m.word pd d)) t
    rw [hroot]
    by_cases hzero : m.word pd d = 0
    · rw [if_pos hzero, if_pos hzero]
    · rw [if_neg hzero, if_neg hzero, hkept _ (.inr ⟨pd, d, refers_table hr hlow hzero⟩)]

include hkept in
theorem refers_of_contents : m'.refers roots = m.refers roots := by
  funext r
  unfold refers
  by_cases hr : r.1 ∈ roots ∧ r.2.1 < pdx utop
  · rw [entry_of_contents hkept hr.1 hr.2]
  · rw [if_neg fun h ↦ hr ⟨h.1, h.2.1⟩, if_neg fun h ↦ hr ⟨h.1, h.2.1⟩]

include hkept in
theorem Exact.of_contents (hm : m.Exact roots free other) (hpages : m'.pages = m.pages)
    (hnpages : m'.npages = m.npages) (hlist : m'.pageFreeList = m.pageFreeList) :
    m'.Exact roots free other :=
  hm.of_refers (refers_of_contents hkept) hpages hnpages hlist

include hkept in
theorem Forest.of_contents (hf : m.Forest roots free other) : m'.Forest roots free other := by
  have hrefers := refers_of_contents hkept
  constructor
  · rw [hrefers]
    exact hf.root
  · rw [hrefers]
    exact hf.table
  · intro pd hpd d
    rw [hrefers, congrFun (hkept pd (.inl hpd)) d]
    exact hf.kernel pd hpd d

end Contents

/-! ## A new page -/

section NewPage

variable {rest : List Ppn}

theorem Forest.root_ne (h : m.Forest roots (table :: rest) other) (hpd : pd ∈ roots) :
    pd ≠ table := by
  rintro rfl
  exact (h.root _ hpd).1 List.mem_cons_self

/-- A free page is no directory and no page table. -/
theorem fresh_kept (hm : m.Exact roots (pp :: rest) other) (hf : m.Forest roots (pp :: rest) other)
    (q : Ppn) (hq : q ∈ roots ∨ ∃ pd d, m.refers roots (pd, d, none) = some q) :
    (m.fresh pp).word q = m.word q := by
  have hne : q ≠ pp := by
    rintro rfl
    rcases hq with hroot | ⟨pd, d, htable⟩
    · exact hf.root_ne hroot rfl
    · exact hm.not_free_of_refers htable List.mem_cons_self
  funext t
  rw [fresh_word, if_neg hne]

theorem entry_fresh (hm : m.Exact roots (pp :: rest) other)
    (hf : m.Forest roots (pp :: rest) other) (hr : r.1 ∈ roots) (hlow : r.2.1 < pdx utop) :
    (m.fresh pp).entry r = m.entry r :=
  entry_of_contents (fresh_kept hm hf) hr hlow

theorem refers_fresh (hm : m.Exact roots (pp :: rest) other)
    (hf : m.Forest roots (pp :: rest) other) : (m.fresh pp).refers roots = m.refers roots :=
  refers_of_contents (fresh_kept hm hf)

theorem Exact.fresh (hm : m.Exact roots (pp :: rest) other)
    (hf : m.Forest roots (pp :: rest) other) : (m.fresh pp).Exact roots rest other := by
  have hlink : (fun p ↦ ((m.fresh pp).pages p).ppLink) =
      Function.update (fun p ↦ (m.pages p).ppLink) pp none := by
    funext p
    rw [fresh_pages, Function.update_apply]
    split <;> rfl
  have hchain := hm.chain
  rw [hm.pageFreeList_cons] at hchain
  obtain ⟨rest', heq, hnotin, hrest⟩ := hchain.pop none
  cases heq
  constructor
  · rw [hlink]
    exact hrest
  · intro p hp
    rw [fresh_pages]
    by_cases hpp : p = pp
    · rw [if_pos hpp]
    · rw [if_neg hpp]
      exact hm.unlinked p (by simp [hpp, hp])
  · intro p hp
    exact hm.bound p (List.mem_cons_of_mem _ hp)
  · intro p
    rw [refers_fresh hm hf, fresh_ppRef]
    exact hm.count p
  · intro p hp
    rw [fresh_ppRef]
    exact hm.unused p (List.mem_cons_of_mem _ hp)
  · rw [refers_fresh hm hf]
    exact hm.target

theorem Forest.fresh (hm : m.Exact roots (pp :: rest) other)
    (hf : m.Forest roots (pp :: rest) other) : (m.fresh pp).Forest roots rest other := by
  have hrefers := refers_fresh hm hf
  refine ⟨?_, ?_, ?_⟩
  · intro pd hpd
    rw [hrefers]
    exact ⟨fun h ↦ (hf.root pd hpd).1 (List.mem_cons_of_mem _ h), (hf.root pd hpd).2⟩
  · rw [hrefers]
    exact hf.table
  · intro pd hpd d
    rw [hrefers, fresh_word, if_neg (hf.root_ne hpd)]
    exact hf.kernel pd hpd d

end NewPage

/-! ## A new table -/

section NewTable

variable {rest : List Ppn}

/-- The entries after a new table has been put into an empty slot: its own is all that changes. -/
theorem entry_withTable (hm : m.Exact roots (table :: rest) other)
    (hf : m.Forest roots (table :: rest) other) (hpd : pd ∈ roots) (hd : d < pdx utop)
    (hempty : m.word pd d = 0) (hr : r.1 ∈ roots) (hlow : r.2.1 < pdx utop) :
    (m.withTable pd d table).entry r =
      if r = (pd, d, none) then tablePde table else m.entry r := by
  have hroot : ∀ pd' ∈ roots, ∀ d', (m.withTable pd d table).word pd' d' =
      if pd' = pd ∧ d' = d then tablePde table else m.word pd' d' := by
    intro pd' hpd' d'
    rw [withTable_word, if_neg (hf.root_ne hpd')]
  obtain ⟨pd', d', t'⟩ := r
  cases t' with
  | none =>
    change (m.withTable pd d table).word pd' d' = _
    rw [hroot pd' hr]
    simp only [Prod.mk.injEq, and_true]
    rfl
  | some t =>
    have hne : ((pd', d', some t) : Ref) ≠ (pd, d, none) := by simp
    have hpde := hroot pd' hr d'
    rw [if_neg hne]
    change (if (m.withTable pd d table).word pd' d' = 0 then 0
      else (m.withTable pd d table).word (pgnum ((m.withTable pd d table).word pd' d')) t) =
        if m.word pd' d' = 0 then 0 else m.word (pgnum (m.word pd' d')) t
    by_cases hhere : pd' = pd ∧ d' = d
    · rw [if_pos hhere] at hpde
      obtain ⟨rfl, rfl⟩ := hhere
      rw [hpde, if_neg (tablePde_ne_zero table), pgnum_tablePde, withTable_word,
        if_neg fun h ↦ hf.root_ne hpd h.1.symm, if_pos rfl, if_pos hempty]
    · rw [if_neg hhere] at hpde
      rw [hpde]
      by_cases hzero : m.word pd' d' = 0
      · rw [if_pos hzero, if_pos hzero]
      · have href := refers_table (m := m) hr hlow hzero
        have hpage : pgnum (m.word pd' d') ≠ pd := by
          intro heq
          exact ((hf.root pd hpd).2 _ (heq ▸ href)).1 rfl
        have hold : pgnum (m.word pd' d') ≠ table := by
          intro heq
          exact hm.not_free_of_refers href (heq ▸ List.mem_cons_self)
        rw [if_neg hzero, if_neg hzero, withTable_word, if_neg fun h ↦ hpage h.1, if_neg hold]

theorem refers_withTable (hm : m.Exact roots (table :: rest) other)
    (hf : m.Forest roots (table :: rest) other) (hpd : pd ∈ roots) (hd : d < pdx utop)
    (hempty : m.word pd d = 0) :
    (m.withTable pd d table).refers roots =
      Function.update (m.refers roots) (pd, d, none) (some table) := by
  funext r
  rw [Function.update_apply]
  by_cases hr : r.1 ∈ roots ∧ r.2.1 < pdx utop
  · unfold refers
    rw [entry_withTable hm hf hpd hd hempty hr.1 hr.2]
    by_cases hhere : r = (pd, d, none)
    · rw [if_pos hhere, if_pos hhere, if_pos ⟨hr.1, hr.2, tablePde_ne_zero table⟩, pgnum_tablePde]
    · rw [if_neg hhere, if_neg hhere]
  · have hhere : r ≠ (pd, d, none) := by
      rintro rfl
      exact hr ⟨hpd, hd⟩
    rw [if_neg hhere]
    unfold refers
    rw [if_neg fun h ↦ hr ⟨h.1, h.2.1⟩, if_neg fun h ↦ hr ⟨h.1, h.2.1⟩]

theorem Exact.withTable (hm : m.Exact roots (table :: rest) other)
    (hf : m.Forest roots (table :: rest) other) (hpd : pd ∈ roots) (hd : d < pdx utop)
    (hempty : m.word pd d = 0) : (m.withTable pd d table).Exact roots rest other := by
  have hhead : m.pageFreeList = some table := hm.pageFreeList_cons
  have hlink : (fun p ↦ ((m.withTable pd d table).pages p).ppLink) =
      Function.update (fun p ↦ (m.pages p).ppLink) table none := by
    funext p
    rw [withTable_pages, Function.update_apply]
    split <;> rfl
  have hchain := hm.chain
  rw [hhead] at hchain
  obtain ⟨rest', heq, hnotin, hrest⟩ := hchain.pop none
  cases heq
  have hrefers := refers_withTable hm hf hpd hd hempty
  constructor
  · rw [hlink]
    exact hrest
  · intro p hp
    rw [withTable_pages]
    by_cases hpt : p = table
    · rw [if_pos hpt]
    · rw [if_neg hpt]
      exact hm.unlinked p (by simp [hpt, hp])
  · intro p hp
    exact hm.bound p (List.mem_cons_of_mem _ hp)
  · intro p
    have hcount := refCount_update (m.refers roots) (pd, d, none) (some table) p
    have hnone : m.refers roots (pd, d, none) = none := refers_of_zero hempty
    rw [hnone] at hcount
    rw [hrefers, withTable_pages]
    have hold := hm.count p
    by_cases hpt : p = table
    · subst hpt
      have hzero : (m.pages p).ppRef = 0 := hm.unused p List.mem_cons_self
      rw [if_pos rfl]
      rw [hzero] at hold ⊢
      simp at hcount hold ⊢
      omega
    · rw [if_neg hpt, hold]
      have hne : table ≠ p := fun h ↦ hpt h.symm
      simp [hne] at hcount
      omega
  · intro p hp
    have hpt : p ≠ table := by
      rintro rfl
      exact hnotin hp
    rw [withTable_pages, if_neg hpt]
    exact hm.unused p (List.mem_cons_of_mem _ hp)
  · intro r p hr
    rw [hrefers, Function.update_apply] at hr
    split at hr
    · obtain rfl := Option.some.inj hr
      exact hm.bound table List.mem_cons_self
    · exact hm.target r p hr

theorem Forest.withTable (hm : m.Exact roots (table :: rest) other)
    (hf : m.Forest roots (table :: rest) other) (hpd : pd ∈ roots) (hd : d < pdx utop)
    (hempty : m.word pd d = 0) : (m.withTable pd d table).Forest roots rest other := by
  have hrefers := refers_withTable hm hf hpd hd hempty
  have hnew : ∀ r, m.refers roots r ≠ some table := by
    intro r hr
    exact hm.not_free_of_refers hr List.mem_cons_self
  constructor
  · intro pd' hpd'
    refine ⟨fun h ↦ (hf.root pd' hpd').1 (List.mem_cons_of_mem _ h), ?_⟩
    intro r hr
    rw [hrefers, Function.update_apply] at hr
    split at hr
    · exact absurd (Option.some.inj hr).symm (hf.root_ne hpd')
    · exact (hf.root pd' hpd').2 r hr
  · intro pd₁ d₁ pd₂ d₂ p h₁ h₂
    rw [hrefers, Function.update_apply] at h₁ h₂
    split at h₁
    · rename_i heq₁
      split at h₂
      · rename_i heq₂
        cases heq₁
        cases heq₂
        exact ⟨rfl, rfl⟩
      · rw [← h₁] at h₂
        exact absurd h₂ (hnew _)
    · split at h₂
      · rw [← h₂] at h₁
        exact absurd h₁ (hnew _)
      · exact hf.table pd₁ d₁ pd₂ d₂ p h₁ h₂
  · intro pd' hpd' d' hd' hne hlarge
    have hword : (m.withTable pd d table).word pd' d' = m.word pd' d' := by
      have hother : ¬ (pd' = pd ∧ d' = d) := by
        rintro ⟨-, rfl⟩
        exact absurd hd (BitVec.not_lt.mpr hd')
      rw [withTable_word, if_neg hother, if_neg (hf.root_ne hpd')]
    rw [hword] at hne hlarge ⊢
    refine (hf.kernel pd' hpd' d' hd' hne hlarge).imp_right ?_
    rintro ⟨hroot, hother, htable⟩
    refine ⟨hroot, hother, ?_⟩
    intro pd₁ d₁ h₁
    rw [hrefers, Function.update_apply] at h₁
    split at h₁
    · have hfree := hm.not_free_of_other hother
      rw [← Option.some.inj h₁] at hfree
      exact hfree List.mem_cons_self
    · exact htable pd₁ d₁ h₁

end NewTable

/-! ## An entry of a page table -/

section Entry

theorem Forest.root_ne_table (hf : m.Forest roots free other)
    (htable : m.refers roots (pd, d, none) = some table) (hq : q ∈ roots) : q ≠ table := by
  rintro rfl
  exact ((hf.root _ hq).2 _ htable).1 rfl

/-- A directory keeps its entries when a page table is written. -/
theorem writePte_root (hf : m.Forest roots free other)
    (htable : m.refers roots (pd, d, none) = some table) (hq : q ∈ roots) (d' : Slot) :
    (m.writePte (table, t) w).word q d' = m.word q d' := by
  rw [writePte_word, if_neg fun h ↦ hf.root_ne_table htable hq h.1]

theorem entry_writePte (hf : m.Forest roots free other)
    (htable : m.refers roots (pd, d, none) = some table) (hr : r.1 ∈ roots)
    (hlow : r.2.1 < pdx utop) :
    (m.writePte (table, t) w).entry r = if r = (pd, d, some t) then w else m.entry r := by
  obtain ⟨hpd, hd, hne, hpage⟩ := refers_some htable
  obtain ⟨pd', d', t'⟩ := r
  cases t' with
  | none =>
    rw [if_neg (by simp)]
    exact writePte_root hf htable hr d'
  | some t' =>
    change (if (m.writePte (table, t) w).word pd' d' = 0 then 0
      else (m.writePte (table, t) w).word (pgnum ((m.writePte (table, t) w).word pd' d')) t') = _
    rw [writePte_root hf htable hr]
    by_cases hhere : ((pd', d', some t') : Ref) = (pd, d, some t)
    · cases hhere
      change pgnum (m.word pd d) = table at hpage
      change m.word pd d ≠ 0 at hne
      rw [if_pos rfl, if_neg hne, hpage, writePte_word, if_pos ⟨rfl, rfl⟩]
    · rw [if_neg hhere]
      change _ = if m.word pd' d' = 0 then 0 else m.word (pgnum (m.word pd' d')) t'
      by_cases hzero : m.word pd' d' = 0
      · rw [if_pos hzero, if_pos hzero]
      · rw [if_neg hzero, if_neg hzero, writePte_word, if_neg]
        rintro ⟨hsame, rfl⟩
        have href := refers_table (m := m) hr hlow hzero
        have hsame : pgnum (m.word pd' d') = table := hsame
        rw [hsame] at href
        obtain ⟨rfl, rfl⟩ := hf.table pd' d' pd d table href htable
        exact hhere rfl

theorem refers_writePte (hf : m.Forest roots free other)
    (htable : m.refers roots (pd, d, none) = some table) :
    (m.writePte (table, t) w).refers roots =
      Function.update (m.refers roots) (pd, d, some t) (if w = 0 then none else some (pgnum w)) := by
  obtain ⟨hpd, hd, -, -⟩ := refers_some htable
  funext r
  rw [Function.update_apply]
  by_cases hr : r.1 ∈ roots ∧ r.2.1 < pdx utop
  · unfold refers
    rw [entry_writePte hf htable hr.1 hr.2]
    by_cases hhere : r = (pd, d, some t)
    · rw [if_pos hhere, if_pos hhere]
      by_cases hw : w = 0
      · rw [if_pos hw, if_neg fun h ↦ h.2.2 hw]
      · rw [if_neg hw, if_pos ⟨hr.1, hr.2, hw⟩]
    · rw [if_neg hhere, if_neg hhere]
  · have hhere : r ≠ (pd, d, some t) := by
      rintro rfl
      exact hr ⟨hpd, hd⟩
    rw [if_neg hhere]
    unfold refers
    rw [if_neg fun h ↦ hr ⟨h.1, h.2.1⟩, if_neg fun h ↦ hr ⟨h.1, h.2.1⟩]

end Entry

/-! ## Taking and dropping a reference -/

/-- The memory after `page_decref`. -/
def release (m : Memory) (q : Ppn) : Memory :=
  if (m.pages q).ppRef = 1 then { m.setPage q ⟨m.pageFreeList, 0⟩ with pageFreeList := some q }
  else m.setPage q { m.pages q with ppRef := (m.pages q).ppRef - 1 }

/-- The free list after `page_decref`. -/
def freeAfter (m : Memory) (q : Ppn) (free : List Ppn) : List Ppn :=
  if (m.pages q).ppRef = 1 then q :: free else free

@[simp] theorem release_word : (m.release q).word = m.word := by
  unfold release
  split <;> rfl

@[simp] theorem release_npages : (m.release q).npages = m.npages := by
  unfold release
  split <;> rfl

theorem release_refers : (m.release q).refers roots = m.refers roots := by
  unfold refers
  rw [entry_of_word release_word]

theorem release_pages_of_ne (h : pp ≠ q) : (m.release q).pages pp = m.pages pp := by
  unfold release
  split
  · exact (setPage_pages ..).trans (if_neg h)
  · exact (setPage_pages ..).trans (if_neg h)

theorem release_ppRef : ((m.release q).pages q).ppRef = (m.pages q).ppRef - 1 := by
  unfold release
  split
  · rename_i hone
    rw [hone]
    exact congrArg PageInfo.ppRef ((setPage_pages ..).trans (if_pos rfl))
  · exact congrArg PageInfo.ppRef ((setPage_pages ..).trans (if_pos rfl))

theorem pageDecref_eq (h : (m.pages q).ppLink = none) : m.pageDecref q = .ok (m.release q) := by
  have hone : (m.pages q).ppRef - 1 = 0 ↔ (m.pages q).ppRef = 1 := by
    constructor
    · intro h
      bv_omega
    · intro h
      rw [h]
      rfl
  unfold pageDecref release
  simp only [hone]
  by_cases hlast : (m.pages q).ppRef = 1
  · rw [if_pos hlast, if_pos hlast]
    have hpage : (m.setPage q { m.pages q with ppRef := (m.pages q).ppRef - 1 }).pages q =
        ⟨none, 0⟩ := by
      rw [setPage_pages, if_pos rfl]
      exact congrArg₂ PageInfo.mk h (by rw [hlast]; rfl)
    unfold pageFree
    simp only [hpage]
    simp [setPage]
  · rw [if_neg hlast, if_neg hlast]

/-- A reference in hand is one that the kernel holds elsewhere. -/
def inHand (other : Ppn → ℕ) (pp : Ppn) : Ppn → ℕ := Function.update other pp (other pp + 1)

theorem le_inHand (other : Ppn → ℕ) (pp p : Ppn) : other p ≤ inHand other pp p := by
  unfold inHand
  rw [Function.update_apply]
  split
  · rename_i h
    rw [h]
    exact Nat.le_succ _
  · exact Nat.le_refl _

theorem Forest.mono (hf : m.Forest roots free other)
    (hle : ∀ p, other p ≤ other' p) : m.Forest roots free other' where
  root pd hpd := ⟨(hf.root pd hpd).1, fun r hr ↦
    ⟨((hf.root pd hpd).2 r hr).1, lt_of_lt_of_le ((hf.root pd hpd).2 r hr).2 (hle pd)⟩⟩
  table := hf.table
  kernel pd hpd d hd hne hlarge :=
    (hf.kernel pd hpd d hd hne hlarge).imp_right fun h ↦
      ⟨h.1, lt_of_lt_of_le h.2.1 (hle _), h.2.2⟩

theorem Forest.of_word (hf : m.Forest roots free other) (hword : m'.word = m.word) :
    m'.Forest roots free other := by
  have hrefers : m'.refers roots = m.refers roots := by
    unfold refers
    rw [entry_of_word hword]
  constructor
  · rw [hrefers]
    exact hf.root
  · rw [hrefers]
    exact hf.table
  · rw [hrefers, hword]
    exact hf.kernel

theorem Exact.incref (hm : m.Exact roots free other) (hpp : pp ∉ free)
    (hlow : (m.pages pp).ppRef.toNat < 2 ^ 16 - 1) :
    (m.incref pp).Exact roots free (inHand other pp) := by
  constructor
  · exact hm.chain.congr fun p _ ↦ incref_ppLink p
  · intro p hp
    rw [incref_ppLink]
    exact hm.unlinked p hp
  · exact hm.bound
  · intro p
    have hcount := hm.count p
    change _ = refCount (m.refers roots) p + inHand other pp p
    rw [incref_pages, inHand, Function.update_apply]
    by_cases hp : p = pp
    · subst hp
      have hone : (1 : BitVec 16).toNat = 1 := rfl
      rw [if_pos rfl, if_pos rfl, BitVec.toNat_add, hone]
      omega
    · rw [if_neg hp, if_neg hp]
      exact hcount
  · intro p hp
    have hne : p ≠ pp := by
      rintro rfl
      exact hpp hp
    rw [incref_pages, if_neg hne]
    exact hm.unused p hp
  · exact hm.target

/-! ## Unmapping and mapping -/

section Mapping

theorem refers_unmap (hf : m.Forest roots free other)
    (htable : m.refers roots (pd, d, none) = some table) :
    ((m.release q).writePte (table, t) 0).refers roots =
      Function.update (m.refers roots) (pd, d, some t) none := by
  have hreleased : (m.release q).refers roots (pd, d, none) = some table := by
    rw [release_refers]
    exact htable
  rw [refers_writePte (hf.of_word release_word) hreleased, release_refers, if_pos rfl]

/-- One reference to a page is gone, in a directory or elsewhere, and its count goes down. -/
theorem Exact.released {roots' : Finset Ppn} (hm : m.Exact roots free other)
    (hbound : q.toNat < m.npages)
    (hcount : ∀ p, refCount (m'.refers roots') p + other' p + (if p = q then 1 else 0) =
      refCount (m.refers roots) p + other p)
    (htarget : ∀ r p, m'.refers roots' r = some p → p.toNat < m.npages)
    (hpages : m'.pages = (m.release q).pages)
    (hlist : m'.pageFreeList = (m.release q).pageFreeList) (hnpages : m'.npages = m.npages) :
    m'.Exact roots' (m.freeAfter q free) other' := by
  have hpos : 0 < (m.pages q).ppRef.toNat := by
    have hself := hcount q
    rw [if_pos rfl] at hself
    rw [hm.count q]
    omega
  have hfree := hm.not_free_of_pos hpos
  have hpred : ((m.pages q).ppRef - 1).toNat = (m.pages q).ppRef.toNat - 1 := by bv_omega
  have hcounts : ∀ p, (m'.pages p).ppRef.toNat = refCount (m'.refers roots') p + other' p := by
    intro p
    have hp := hcount p
    have hold := hm.count p
    rw [hpages]
    by_cases hpq : p = q
    · subst hpq
      rw [if_pos rfl] at hp
      rw [release_ppRef, hpred]
      omega
    · rw [if_neg hpq] at hp
      rw [release_pages_of_ne hpq]
      omega
  by_cases hlast : (m.pages q).ppRef = 1
  · have hinfo : ∀ p, m'.pages p = if p = q then ⟨m.pageFreeList, 0⟩ else m.pages p := by
      intro p
      rw [hpages]
      unfold release
      rw [if_pos hlast]
      exact setPage_pages ..
    have hlink : (fun p ↦ (m'.pages p).ppLink) =
        Function.update (fun p ↦ (m.pages p).ppLink) q m.pageFreeList := by
      funext p
      rw [hinfo, Function.update_apply]
      split <;> rfl
    have hhead : m'.pageFreeList = some q := by
      rw [hlist]
      unfold release
      rw [if_pos hlast]
    rw [freeAfter, if_pos hlast]
    constructor
    · rw [hlink, hhead]
      exact hm.chain.push hfree
    · intro p hp
      rw [List.mem_cons, not_or] at hp
      rw [hinfo, if_neg hp.1]
      exact hm.unlinked p hp.2
    · intro p hp
      rw [hnpages]
      rcases List.mem_cons.mp hp with rfl | hp
      · exact hbound
      · exact hm.bound p hp
    · exact hcounts
    · intro p hp
      rw [hinfo]
      by_cases hpq : p = q
      · rw [if_pos hpq]
      · rw [if_neg hpq]
        exact hm.unused p ((List.mem_cons.mp hp).resolve_left hpq)
    · intro r p hr
      rw [hnpages]
      exact htarget r p hr
  · have hinfo : ∀ p, m'.pages p =
        if p = q then { m.pages q with ppRef := (m.pages q).ppRef - 1 } else m.pages p := by
      intro p
      rw [hpages]
      unfold release
      rw [if_neg hlast]
      exact setPage_pages ..
    have hlink : ∀ p, (m'.pages p).ppLink = (m.pages p).ppLink := by
      intro p
      rw [hinfo]
      split
      · rename_i hpq
        rw [hpq]
      · rfl
    have hhead : m'.pageFreeList = m.pageFreeList := by
      rw [hlist]
      unfold release
      rw [if_neg hlast]
      rfl
    rw [freeAfter, if_neg hlast]
    constructor
    · rw [hhead]
      exact hm.chain.congr fun p _ ↦ hlink p
    · intro p hp
      rw [hlink]
      exact hm.unlinked p hp
    · intro p hp
      rw [hnpages]
      exact hm.bound p hp
    · exact hcounts
    · intro p hp
      have hpq : p ≠ q := by
        rintro rfl
        exact hfree hp
      rw [hinfo, if_neg hpq]
      exact hm.unused p hp
    · intro r p hr
      rw [hnpages]
      exact htarget r p hr

/-- The entry of a page is cleared, and its count goes down. -/
theorem Exact.unmap (hm : m.Exact roots free other) (hf : m.Forest roots free other')
    (htable : m.refers roots (pd, d, none) = some table)
    (hq : m.refers roots (pd, d, some t) = some q) :
    ((m.release q).writePte (table, t) 0).Exact roots (m.freeAfter q free) other := by
  refine hm.released (hm.target _ _ hq) (fun p ↦ ?_) (fun r p hr ↦ ?_) rfl rfl release_npages
  · have hupdate := refCount_update (m.refers roots) (pd, d, some t) none p
    rw [hq] at hupdate
    rw [refers_unmap hf htable]
    by_cases hp : p = q
    · subst hp
      simp at hupdate ⊢
      omega
    · have hne : q ≠ p := fun h ↦ hp h.symm
      simp [hp, hne] at hupdate ⊢
      omega
  · rw [refers_unmap hf htable, Function.update_apply] at hr
    split at hr
    · cases hr
    · exact hm.target r p hr

/-- An empty entry takes the reference in hand. -/
theorem Exact.map (hm : m.Exact roots free (inHand other pp)) (hf : m.Forest roots free other')
    (htable : m.refers roots (pd, d, none) = some table)
    (hempty : m.refers roots (pd, d, some t) = none) (hw : w ≠ 0) (hpage : pgnum w = pp)
    (hbound : pp.toNat < m.npages) : (m.writePte (table, t) w).Exact roots free other := by
  have hrefers := refers_writePte (t := t) (w := w) hf htable
  rw [if_neg hw, hpage] at hrefers
  constructor
  · exact hm.chain
  · exact hm.unlinked
  · exact hm.bound
  · intro p
    have hupdate := refCount_update (m.refers roots) (pd, d, some t) (some pp) p
    have hold := hm.count p
    rw [hempty] at hupdate
    rw [hrefers, writePte_pages]
    rw [inHand, Function.update_apply] at hold
    by_cases hp : p = pp
    · subst hp
      simp at hupdate hold
      omega
    · have hne : pp ≠ p := fun h ↦ hp h.symm
      simp [hp, hne] at hupdate hold
      omega
  · exact hm.unused
  · intro r p hr
    rw [hrefers, Function.update_apply] at hr
    split at hr
    · obtain rfl := Option.some.inj hr
      exact hbound
    · exact hm.target r p hr

/-- The trees stay trees when the entry of a page changes. -/
theorem Forest.writePte (hf : m.Forest roots free other)
    (htable : m.refers roots (pd, d, none) = some table) (hnew : w ≠ 0 → pgnum w ∈ roots → 0 < other (pgnum w)) :
    (m.writePte (table, t) w).Forest roots free other := by
  have hrefers := refers_writePte (t := t) (w := w) hf htable
  have htables : ∀ pd' d', (m.writePte (table, t) w).refers roots (pd', d', none) =
      m.refers roots (pd', d', none) := by
    intro pd' d'
    rw [hrefers, Function.update_of_ne (by simp)]
  constructor
  · intro q hq
    refine ⟨(hf.root q hq).1, ?_⟩
    intro r hr
    rw [hrefers, Function.update_apply] at hr
    split at hr
    · split at hr
      · cases hr
      · rename_i hhere hw
        obtain rfl := Option.some.inj hr
        rw [hhere]
        exact ⟨by simp, hnew hw hq⟩
    · exact (hf.root q hq).2 r hr
  · intro pd₁ d₁ pd₂ d₂ p h₁ h₂
    rw [htables] at h₁ h₂
    exact hf.table pd₁ d₁ pd₂ d₂ p h₁ h₂
  · intro q hq d' hd' hne hlarge
    rw [writePte_root hf htable hq] at hne hlarge ⊢
    refine (hf.kernel q hq d' hd' hne hlarge).imp_right fun h ↦ ⟨h.1, h.2.1, ?_⟩
    intro pd₁ d₁
    rw [htables]
    exact h.2.2 pd₁ d₁

theorem Forest.unmap (hm : m.Exact roots free other') (hf : m.Forest roots free other)
    (hle : ∀ p, other p ≤ other' p) (htable : m.refers roots (pd, d, none) = some table)
    (hq : m.refers roots (pd, d, some t) = some q) :
    ((m.release q).writePte (table, t) 0).Forest roots (m.freeAfter q free) other := by
  have hreleased : (m.release q).refers roots (pd, d, none) = some table := by
    rw [release_refers]
    exact htable
  have hkept := (hf.of_word (release_word (q := q))).writePte (t := t) (w := 0) hreleased
    fun h ↦ absurd rfl h
  refine ⟨fun p hp ↦ ⟨?_, (hkept.root p hp).2⟩, hkept.table, hkept.kernel⟩
  unfold freeAfter
  split
  · rename_i hone
    rw [List.mem_cons, not_or]
    refine ⟨?_, (hf.root p hp).1⟩
    rintro rfl
    -- A directory that is mapped has the reference of the kernel too.
    have hother := ((hf.root p hp).2 _ hq).2
    have hpos : 0 < refCount (m.refers roots) p := refCount_pos hq
    have hcount := hm.count p
    have hother' := hle p
    rw [hone] at hcount
    change 1 = _ at hcount
    omega
  · exact (hf.root p hp).1

end Mapping

end Memory

end SistemasOperativos.Jos
