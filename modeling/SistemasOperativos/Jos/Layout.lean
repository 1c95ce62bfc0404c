import SistemasOperativos.Jos.Machine
import SistemasOperativos.Jos.PageInsert

/-!
# The layout of memory

The pages that the kernel manages are free, or page directories, or page tables below `UTOP`, or
pages of user programs, and none is two of these. The other pages keep what they had when the kernel
started: with them the part of every address space from `UTOP` on. Every function on pages keeps this
layout together with the counts.
-/

namespace SistemasOperativos.Jos.Memory

open Library

variable {frugal : Prop} {m₀ m m' : Memory} {managed free rest : List Ppn} {roots : Finset Ppn}
  {hand : Option Ppn} {pd pp q table : Ppn} {d : Slot} {va w perm : Word} {a : Ref}

/-- What `mem_init` leaves, with the counts: a page that was never on the free list has no link, and a
page table of the kernel has the reference that `pgdir_walk` gave it. -/
structure Prepared (m₀ : Memory) (managed : List Ppn) : Prop extends m₀.Booted managed where
  unlinked : ∀ p ∉ managed, (m₀.pages p).ppLink = none
  tables : ∀ d, pdx utop ≤ d → d ≠ pdx uvpt → m₀.word m₀.kernPgdir d ≠ 0 →
    m₀.word m₀.kernPgdir d &&& ptePs = 0 →
      pgnum (m₀.word m₀.kernPgdir d) ∉ managed ∧
        (m₀.pages (pgnum (m₀.word m₀.kernPgdir d))).ppRef ≠ 0

/-- `UVPT` maps the page directory itself. -/
def uvptPde (pd : Ppn) : Word := page2pa pd ||| pteP ||| pteU

@[simp] theorem pgnum_uvptPde (pd : Ppn) : pgnum (uvptPde pd) = pd := by
  rw [uvptPde, pgnum_or, pgnum_or, pgnum_page2pa, (pgnum_of_lt (by decide) : pgnum pteP = 0),
    (pgnum_of_lt (by decide) : pgnum pteU = 0)]
  simp

/-- The references that the kernel holds below no address: those from before the start, and one for
each page directory. -/
def held (m₀ : Memory) (roots : Finset Ppn) (p : Ppn) : ℕ :=
  (m₀.pages p).ppRef.toNat + if p ∈ roots then 1 else 0

theorem held_pos_of_root (h : pd ∈ roots) : 0 < held m₀ roots pd := by
  rw [held, if_pos h]
  omega

structure Layout (m₀ m : Memory) (managed : List Ppn) (roots : Finset Ppn) : Prop where
  directories : ∀ pd ∈ roots, pd ∈ managed
  target : ∀ r q, m.refers roots r = some q → q ∈ managed ∧ q ∉ roots
  present : ∀ r q, m.refers roots r = some q → m.entry r &&& pteP ≠ 0
  data : ∀ pd d pd' d' t q, m.refers roots (pd, d, none) = some q →
    m.refers roots (pd', d', some t) ≠ some q
  table : ∀ pd d pd' d' q, m.refers roots (pd, d, none) = some q →
    m.refers roots (pd', d', none) = some q → pd = pd' ∧ d = d'
  upper : ∀ pd ∈ roots, ∀ d, pdx utop ≤ d → m.word pd d =
    if d = pdx uvpt then uvptPde pd else m₀.word m₀.kernPgdir d
  reserved : ∀ p ∉ managed, m.word p = m₀.word p

namespace Layout

/-- The address spaces are trees. -/
theorem forest (h : Layout m₀ m managed roots) (hp : m₀.Prepared managed)
    (hm : m.Exact roots free (held m₀ roots)) : m.Forest roots free (held m₀ roots) where
  root pd hpd := ⟨hm.not_free_of_other (held_pos_of_root hpd),
    fun r hr ↦ absurd hpd (h.target r pd hr).2⟩
  table := h.table
  kernel pd hpd d hd hne hlarge := by
    rw [h.upper pd hpd d hd] at hne hlarge ⊢
    by_cases huvpt : d = pdx uvpt
    · left
      rw [if_pos huvpt, pgnum_uvptPde]
    · right
      rw [if_neg huvpt] at hne hlarge ⊢
      obtain ⟨hmanaged, href⟩ := hp.tables d hd huvpt hne hlarge
      refine ⟨fun hroot ↦ hmanaged (h.directories _ hroot), ?_, fun pd' d' htable ↦ ?_⟩
      · have hpos : 0 < (m₀.pages (pgnum (m₀.word m₀.kernPgdir d))).ppRef.toNat := by
          bv_omega
        exact Nat.add_pos_left hpos _
      · exact hmanaged (h.target _ _ htable).1

/-- An update that keeps the entries keeps the layout. -/
theorem congr (h : Layout m₀ m managed roots)
    (hentry : ∀ r : Ref, r.1 ∈ roots → r.2.1 < pdx utop → m'.entry r = m.entry r)
    (hupper : ∀ pd ∈ roots, ∀ d, pdx utop ≤ d → m'.word pd d = m.word pd d)
    (hreserved : ∀ p ∉ managed, m'.word p = m.word p) : Layout m₀ m' managed roots := by
  have hrefers : m'.refers roots = m.refers roots := by
    funext r
    unfold refers
    by_cases hr : r.1 ∈ roots ∧ r.2.1 < pdx utop
    · rw [hentry r hr.1 hr.2]
    · rw [if_neg fun h ↦ hr ⟨h.1, h.2.1⟩, if_neg fun h ↦ hr ⟨h.1, h.2.1⟩]
  constructor
  · exact h.directories
  · rw [hrefers]
    exact h.target
  · intro r q hr
    rw [hrefers] at hr
    obtain ⟨hroot, hlow, -⟩ := refers_some hr
    rw [hentry r hroot hlow]
    exact h.present r q hr
  · rw [hrefers]
    exact h.data
  · rw [hrefers]
    exact h.table
  · intro pd hpd d hd
    rw [hupper pd hpd d hd]
    exact h.upper pd hpd d hd
  · intro p hp
    rw [hreserved p hp]
    exact h.reserved p hp

/-- One entry below `UTOP` changes. A page that it refers to afterwards is one that nothing refers to,
or it is a page of user programs before and afterwards. -/
theorem write (h : Layout m₀ m managed roots)
    (hentry : ∀ r : Ref, r.1 ∈ roots → r.2.1 < pdx utop →
      m'.entry r = if r = a then w else m.entry r)
    (hnew : w ≠ 0 → w &&& pteP ≠ 0 ∧ pgnum w ∈ managed ∧ pgnum w ∉ roots ∧
      ∀ r, m.refers roots r = some (pgnum w) → r.2.2 ≠ none ∧ a.2.2 ≠ none)
    (hupper : ∀ pd ∈ roots, ∀ d, pdx utop ≤ d → m'.word pd d = m.word pd d)
    (hreserved : ∀ p ∉ managed, m'.word p = m.word p) : Layout m₀ m' managed roots := by
  have hrefers : ∀ r q, m'.refers roots r = some q →
      r = a ∧ w ≠ 0 ∧ q = pgnum w ∨ r ≠ a ∧ m.refers roots r = some q := by
    intro r q hr
    obtain ⟨hroot, hlow, hne, hpage⟩ := refers_some hr
    rw [hentry r hroot hlow] at hne hpage
    by_cases hhere : r = a
    · rw [if_pos hhere] at hne hpage
      exact .inl ⟨hhere, hne, hpage.symm⟩
    · rw [if_neg hhere] at hne hpage
      refine .inr ⟨hhere, ?_⟩
      rw [← hpage]
      exact if_pos ⟨hroot, hlow, hne⟩
  constructor
  · exact h.directories
  · intro r q hr
    obtain ⟨-, hw, rfl⟩ | ⟨-, hold⟩ := hrefers r q hr
    · exact ⟨(hnew hw).2.1, (hnew hw).2.2.1⟩
    · exact h.target r q hold
  · intro r q hr
    obtain ⟨hroot, hlow, -⟩ := refers_some hr
    rw [hentry r hroot hlow]
    obtain ⟨hhere, hw, -⟩ | ⟨hhere, hold⟩ := hrefers r q hr
    · rw [if_pos hhere]
      exact (hnew hw).1
    · rw [if_neg hhere]
      exact h.present r q hold
  · intro pd d pd' d' t q htable hdata
    obtain ⟨rfl, hw, rfl⟩ | ⟨-, htable⟩ := hrefers _ q htable
    · obtain ⟨hhere, -⟩ | ⟨-, hdata⟩ := hrefers _ _ hdata
      · cases hhere
      · exact ((hnew hw).2.2.2 _ hdata).2 rfl
    · obtain ⟨-, hw, rfl⟩ | ⟨-, hdata⟩ := hrefers _ q hdata
      · exact ((hnew hw).2.2.2 _ htable).1 rfl
      · exact h.data pd d pd' d' t q htable hdata
  · intro pd d pd' d' q h₁ h₂
    obtain ⟨rfl, hw, rfl⟩ | ⟨-, h₁⟩ := hrefers _ q h₁
    · obtain ⟨hhere, -⟩ | ⟨-, h₂⟩ := hrefers _ _ h₂
      · cases hhere
        exact ⟨rfl, rfl⟩
      · exact absurd rfl ((hnew hw).2.2.2 _ h₂).1
    · obtain ⟨-, hw, rfl⟩ | ⟨-, h₂⟩ := hrefers _ q h₂
      · exact absurd rfl ((hnew hw).2.2.2 _ h₁).1
      · exact h.table pd d pd' d' q h₁ h₂
  · intro pd hpd d hd
    rw [hupper pd hpd d hd]
    exact h.upper pd hpd d hd
  · intro p hp
    rw [hreserved p hp]
    exact h.reserved p hp

end Layout

/-! ## The counts -/

/-- The layout with exact counts. The page in `hand` is one that `page_alloc` has returned and that is
mapped nowhere yet. A `frugal` kernel loses no page. -/
structure Kept (frugal : Prop) (m₀ m : Memory) (managed : List Ppn) (roots : Finset Ppn)
    (free : List Ppn) (hand : Option Ppn) : Prop where
  exact : m.Exact roots free (held m₀ roots)
  layout : Layout m₀ m managed roots
  list : ∀ p ∈ free, p ∈ managed
  taken : ∀ p ∈ hand, p ∈ managed ∧ p ∉ free ∧ (m.pages p).ppRef = 0
  owned : frugal → ∀ p ∈ managed, p ∉ free → hand ≠ some p → (m.pages p).ppRef ≠ 0
  kernPgdir : m.kernPgdir = m₀.kernPgdir
  npages : m.npages = m₀.npages

namespace Kept

theorem forest (h : Kept frugal m₀ m managed roots free hand) (hp : m₀.Prepared managed) :
    m.Forest roots free (held m₀ roots) := h.layout.forest hp h.exact

theorem bound (h : Kept frugal m₀ m managed roots free hand) (hp : m₀.Prepared managed)
    (hpp : pp ∈ managed) : pp.toNat < m.npages := by
  rw [h.npages]
  exact hp.bound pp hpp

/-- The page in hand is in no use. -/
theorem hand_unused (h : Kept frugal m₀ m managed roots free (some pp)) :
    pp ∉ roots ∧ ∀ r, m.refers roots r ≠ some pp := by
  obtain ⟨-, -, hzero⟩ := h.taken pp rfl
  have hcount := h.exact.count pp
  rw [hzero] at hcount
  have hnone : refCount (m.refers roots) pp = 0 ∧ held m₀ roots pp = 0 := by
    have hnil : (0 : BitVec 16).toNat = 0 := rfl
    omega
  refine ⟨fun hroot ↦ ?_, refCount_eq_zero_iff.mp hnone.1⟩
  exact absurd hnone.2 (Nat.pos_iff_ne_zero.mp (held_pos_of_root hroot))

/-- The contents of a managed page that is no directory and no page table do not matter. -/
theorem contents (h : Kept frugal m₀ m managed roots free hand)
    (hkept : ∀ q, q ∈ roots ∨ (∃ pd d, m.refers roots (pd, d, none) = some q) →
      m'.word q = m.word q)
    (hreserved : ∀ p ∉ managed, m'.word p = m.word p) (hpages : m'.pages = m.pages)
    (hnpages : m'.npages = m.npages) (hlist : m'.pageFreeList = m.pageFreeList)
    (hkern : m'.kernPgdir = m.kernPgdir) : Kept frugal m₀ m' managed roots free hand where
  exact := h.exact.of_contents hkept hpages hnpages hlist
  layout := h.layout.congr (fun _ hr hlow ↦ entry_of_contents hkept hr hlow)
    (fun pd hpd d _ ↦ congrFun (hkept pd (.inl hpd)) d) hreserved
  list := h.list
  taken := by
    rw [hpages]
    exact h.taken
  owned := by
    rw [hpages]
    exact h.owned
  kernPgdir := hkern.trans h.kernPgdir
  npages := hnpages.trans h.npages

/-! ## Pages from the free list -/

section Taking

variable (h : Kept frugal m₀ m managed roots (pp :: rest) none) (hp : m₀.Prepared managed)

include h in
theorem head_not_mem : pp ∉ rest := by
  have hchain := h.exact.chain
  rw [h.exact.pageFreeList_cons] at hchain
  exact (List.nodup_cons.mp hchain.nodup).1

include h hp in
/-- `page_alloc` with `ALLOC_ZERO` puts the first free page in hand. -/
theorem fresh : Kept frugal m₀ (m.fresh pp) managed roots rest (some pp) where
  exact := h.exact.fresh (h.forest hp)
  layout := by
    refine h.layout.congr (fun r hr hlow ↦ entry_fresh h.exact (h.forest hp) hr hlow) ?_ ?_
    · intro pd hpd d _
      rw [fresh_word, if_neg ((h.forest hp).root_ne hpd)]
    · intro p hpm
      funext t
      rw [fresh_word, if_neg fun heq : p = pp ↦ hpm (heq ▸ h.list pp List.mem_cons_self)]
  list p hmem := h.list p (List.mem_cons_of_mem _ hmem)
  taken p hmem := by
    obtain rfl : pp = p := Option.some.inj hmem
    refine ⟨h.list pp List.mem_cons_self, h.head_not_mem, ?_⟩
    rw [fresh_ppRef]
    exact h.exact.unused pp List.mem_cons_self
  owned hfrugal p hpm hfree hhand := by
    rw [fresh_ppRef]
    refine h.owned hfrugal p hpm ?_ (by simp)
    rw [List.mem_cons, not_or]
    exact ⟨fun heq ↦ hhand (congrArg some heq.symm), hfree⟩
  kernPgdir := h.kernPgdir
  npages := h.npages

include h hp in
/-- `page_alloc` without it does the same and leaves the contents. -/
theorem take : Kept frugal m₀ (m.take pp) managed roots rest (some pp) := by
  refine (h.fresh hp).contents (fun q hq ↦ ?_) (fun p hpm ↦ ?_) rfl rfl rfl rfl
  · rw [refers_fresh h.exact (h.forest hp)] at hq
    exact (fresh_kept h.exact (h.forest hp) q hq).symm
  · funext t
    rw [fresh_word, if_neg fun heq : p = pp ↦ hpm (heq ▸ h.list pp List.mem_cons_self)]
    rfl

end Taking

theorem tablePde_and_pteP (table : Ppn) : tablePde table &&& pteP ≠ 0 := by
  intro hzero
  have hbit : (tablePde table &&& pteP).getLsbD 0 = false := by
    rw [hzero]
    rfl
  simp [tablePde, pteP, pteW, pteU] at hbit

/-- A page table made on demand. -/
theorem withTable (h : Kept frugal m₀ m managed roots (table :: rest) hand)
    (hp : m₀.Prepared managed)
    (hpd : pd ∈ roots) (hd : d < pdx utop) (hempty : m.word pd d = 0) :
    Kept frugal m₀ (m.withTable pd d table) managed roots rest hand where
  exact := h.exact.withTable (h.forest hp) hpd hd hempty
  layout := by
    have hmanaged := h.list table List.mem_cons_self
    refine h.layout.write (fun r hr hlow ↦
      entry_withTable h.exact (h.forest hp) hpd hd hempty hr hlow) (fun _ ↦ ?_) ?_ ?_
    · rw [pgnum_tablePde]
      refine ⟨tablePde_and_pteP table, hmanaged, fun hroot ↦ (h.forest hp).root_ne hroot rfl, ?_⟩
      intro r hr
      exact absurd List.mem_cons_self (h.exact.not_free_of_refers hr)
    · intro pd' hpd' d' hd'
      rw [withTable_word, if_neg, if_neg ((h.forest hp).root_ne hpd')]
      rintro ⟨-, rfl⟩
      exact absurd hd (BitVec.not_lt.mpr hd')
    · intro p hpm
      funext t
      rw [withTable_word, if_neg fun heq : p = pd ∧ t = d ↦ hpm (heq.1 ▸ h.layout.directories pd hpd),
        if_neg fun heq : p = table ↦ hpm (heq ▸ hmanaged)]
  list p hmem := h.list p (List.mem_cons_of_mem _ hmem)
  taken p hmem := by
    obtain ⟨hpm, hfree, hzero⟩ := h.taken p hmem
    rw [List.mem_cons, not_or] at hfree
    rw [withTable_pages, if_neg hfree.1]
    exact ⟨hpm, hfree.2, hzero⟩
  owned hfrugal p hpm hfree hhand := by
    rw [withTable_pages]
    by_cases htable : p = table
    · rw [if_pos htable, h.exact.unused table List.mem_cons_self]
      decide
    · rw [if_neg htable]
      exact h.owned hfrugal p hpm (by simp [htable, hfree]) hhand
  kernPgdir := h.kernPgdir
  npages := h.npages

/-- A page in hand that is mapped nowhere is lost. -/
theorem drop (h : Kept frugal m₀ m managed roots free (some pp)) (hfrugal : ¬ frugal) :
    Kept frugal m₀ m managed roots free none where
  exact := h.exact
  layout := h.layout
  list := h.list
  taken p hmem := by
    cases hmem
  owned hno := absurd hno hfrugal
  kernPgdir := h.kernPgdir
  npages := h.npages

/-! ## Mappings -/

@[simp] theorem release_kernPgdir : (m.release q).kernPgdir = m.kernPgdir := by
  unfold release
  split <;> rfl

@[simp] theorem removed_kernPgdir : (m.removed pd va).kernPgdir = m.kernPgdir := by
  unfold removed
  split
  · rfl
  · exact release_kernPgdir

/-- A page table is managed. -/
theorem tableOf_managed (h : Layout m₀ m managed roots) (hpd : pd ∈ roots)
    (hva : pdx va < pdx utop) (htable : m.word pd (pdx va) ≠ 0) : m.tableOf pd va ∈ managed :=
  (h.target _ _ (refers_tableOf hpd hva htable)).1

theorem removed (h : Kept frugal m₀ m managed roots free hand) (hp : m₀.Prepared managed)
    (hpd : pd ∈ roots) (hva : pdx va < pdx utop) :
    Kept frugal m₀ (m.removed pd va) managed roots (m.freeRemoved pd va free) hand where
  exact := h.exact.removed (h.forest hp) hpd hva
  layout := by
    refine h.layout.write (w := 0) (a := (pd, pdx va, some (ptx va))) (fun r hr hlow ↦
      removed_entry (h.forest hp) hpd hva hr hlow) (fun hw ↦ absurd rfl hw) ?_ ?_
    · intro pd' hpd' d _
      exact removed_root (h.forest hp) hpd hva hpd' d
    · intro p hpm
      by_cases hmapped : m.mapping pd va = 0
      · rw [Memory.removed, if_pos hmapped]
      · refine removed_word fun heq ↦ hpm (heq ▸ ?_)
        exact tableOf_managed h.layout hpd hva (table_of_mapping hmapped)
  list p hmem := by
    rw [mem_freeRemoved] at hmem
    rcases hmem with hmem | ⟨hmapped, rfl, -⟩
    · exact h.list p hmem
    · exact (h.layout.target _ _ (refers_mapping hpd hva hmapped)).1
  taken p hmem := by
    obtain ⟨hpm, hfree, hzero⟩ := h.taken p hmem
    have hnot : ¬ (m.mapping pd va ≠ 0 ∧ p = pgnum (m.mapping pd va)) := by
      rintro ⟨hmapped, rfl⟩
      have hpos := h.exact.pos_of_refers (refers_mapping hpd hva hmapped)
      rw [hzero] at hpos
      exact absurd hpos (by decide)
    rw [mem_freeRemoved, removed_ppRef, if_neg hnot]
    refine ⟨hpm, ?_, hzero⟩
    rintro (hmem | ⟨hmapped, heq, -⟩)
    · exact hfree hmem
    · exact hnot ⟨hmapped, heq⟩
  owned hfrugal p hpm hfree hhand := by
    rw [mem_freeRemoved, not_or] at hfree
    have hold := h.owned hfrugal p hpm hfree.1 hhand
    rw [removed_ppRef]
    split
    · rename_i hhere
      have hone : (m.pages p).ppRef ≠ 1 := fun hone ↦ hfree.2 ⟨hhere.1, hhere.2, hone⟩
      bv_omega
    · exact hold
  kernPgdir := removed_kernPgdir.trans h.kernPgdir
  npages := removed_npages.trans h.npages

end Kept

/-! ## Inserting a page -/

/-- What has changed below `UTOP`: the entry of one page, and perhaps a page table on the way to it. -/
structure Remaps (m m' : Memory) (roots : Finset Ppn) (pd : Ppn) (va w : Word) : Prop where
  pages : ∀ r : Ref, r.1 ∈ roots → r.2.1 < pdx utop → r.2.2 ≠ none →
    m'.entry r = if r = (pd, pdx va, some (ptx va)) then w else m.entry r
  others : ∀ r : Ref, r.1 ∈ roots → r.2.1 < pdx utop → r.1 ≠ pd → m'.entry r = m.entry r

theorem Remaps.of_entry (h : ∀ r : Ref, r.1 ∈ roots → r.2.1 < pdx utop →
    m'.entry r = if r = (pd, pdx va, some (ptx va)) then w else m.entry r) :
    m.Remaps m' roots pd va w where
  pages r hr hlow _ := h r hr hlow
  others r hr hlow hne := by
    rw [h r hr hlow, if_neg]
    rintro rfl
    exact hne rfl

/-- A page that is allocated, and no directory and no page table. -/
structure Mappable (m : Memory) (managed : List Ppn) (roots : Finset Ppn) (free : List Ppn)
    (pp : Ppn) : Prop where
  managed : pp ∈ managed
  allocated : pp ∉ free
  root : pp ∉ roots
  table : ∀ pd d, m.refers roots (pd, d, none) ≠ some pp

/-- Counting one more reference does not make the count wrap, or the page is mapped there already. -/
def RoomFor (m : Memory) (pd : Ppn) (va : Word) (pp : Ppn) : Prop :=
  (m.pages pp).ppRef ≠ 0xffff ∨ m.mapping pd va ≠ 0 ∧ pgnum (m.mapping pd va) = pp

/-- What `page_insert` has done where it returns 0. -/
structure Placed (frugal : Prop) (m₀ m m' : Memory) (managed : List Ppn) (roots : Finset Ppn)
    (free : List Ppn) (pd pp : Ppn) (va w : Word) : Prop where
  kept : ∃ free', Kept frugal m₀ m' managed roots free' none ∧
    ∀ p ∈ free', p ∈ free ∨ m.mapping pd va ≠ 0 ∧ p = pgnum (m.mapping pd va)
  remaps : m.Remaps m' roots pd va w
  counts : ∀ p ∉ free, p ≠ pp → (m'.pages p).ppRef = (m.pages p).ppRef -
    if m.mapping pd va ≠ 0 ∧ p = pgnum (m.mapping pd va) then 1 else 0

namespace Kept

theorem mappable_hand (h : Kept frugal m₀ m managed roots free (some pp)) :
    Mappable m managed roots free pp where
  managed := (h.taken pp rfl).1
  allocated := (h.taken pp rfl).2.1
  root := h.hand_unused.1
  table pd d := h.hand_unused.2 (pd, d, none)

theorem mappable_mapping (h : Kept frugal m₀ m managed roots free hand) (hpd : pd ∈ roots)
    (hva : pdx va < pdx utop) (hmapped : m.mapping pd va ≠ 0) :
    Mappable m managed roots free (pgnum (m.mapping pd va)) where
  managed := (h.layout.target _ _ (refers_mapping hpd hva hmapped)).1
  allocated := h.exact.not_free_of_refers (refers_mapping hpd hva hmapped)
  root := (h.layout.target _ _ (refers_mapping hpd hva hmapped)).2
  table _ _ htable := h.layout.data _ _ _ _ _ _ htable (refers_mapping hpd hva hmapped)

section Mapping

variable (h : Kept frugal m₀ m managed roots free hand) (hp : m₀.Prepared managed) (hpd : pd ∈ roots)
  (hva : pdx va < pdx utop) (htable : m.word pd (pdx va) ≠ 0)
  (hpp : Mappable m managed roots free pp) (hw : w &&& pteP ≠ 0) (hpage : pgnum w = pp)

include h hp hpd hva htable hpp hw hpage in
theorem layout_mapped : Layout m₀ (m.mapped pd pp va w) managed roots := by
  refine h.layout.write (w := w) (a := (pd, pdx va, some (ptx va))) (fun r hr hlow ↦
    mapped_entry pp (h.forest hp) hpd hva htable hr hlow) (fun _ ↦ ?_) ?_ ?_
  · rw [hpage]
    refine ⟨hw, hpp.managed, hpp.root, ?_⟩
    rintro ⟨pd', d', t⟩ hr
    refine ⟨?_, by simp⟩
    rintro (rfl : t = none)
    exact hpp.table pd' d' hr
  · intro pd' hpd' d _
    exact mapped_root pp (h.forest hp) hpd hva htable hpd' d
  · intro p hpm
    funext t
    rw [mapped_word, writePte_word, if_neg]
    rintro ⟨rfl, -⟩
    exact hpm (tableOf_managed h.layout hpd hva htable)

theorem ne_zero_of_pteP {w : Word} (hw : w &&& pteP ≠ 0) : w ≠ 0 := by
  rintro rfl
  exact hw (by decide)

include h hp hpd hva htable hpp hw hpage in
/-- The page is mapped, and the page that was mapped before may become free. -/
theorem mapped (hlow : (m.pages pp).ppRef ≠ 0xffff) (hhand : ∀ p ∈ hand, p = pp) :
    Kept frugal m₀ (m.mapped pd pp va w) managed roots (m.freeMapped pd pp va free) none := by
  have hcount : (m.pages pp).ppRef.toNat < 2 ^ 16 - 1 := by bv_omega
  constructor
  · exact h.exact.mapped (h.forest hp) hpd hva htable hpp.allocated hcount (ne_zero_of_pteP hw)
      hpage (h.bound hp hpp.managed)
  · exact h.layout_mapped hp hpd hva htable hpp hw hpage
  · intro p hmem
    rw [mem_freeMapped h.exact hpd hva hcount] at hmem
    rcases hmem with hmem | ⟨hmapped, rfl, -⟩
    · exact h.list p hmem
    · exact (h.layout.target _ _ (refers_mapping hpd hva hmapped)).1
  · intro p hmem
    cases hmem
  · intro hfrugal p hpm hfree _
    rw [mem_freeMapped h.exact hpd hva hcount, not_or] at hfree
    rw [mapped_ppRef]
    by_cases hsame : p = pp
    · rw [if_pos hsame, hsame]
      split
      · rename_i hhere
        have hpos := h.exact.pos_of_refers (refers_mapping hpd hva hhere.1)
        rw [← hhere.2] at hpos
        bv_omega
      · bv_omega
    · have hold := h.owned hfrugal p hpm hfree.1 fun heq ↦ hsame (hhand p heq)
      rw [if_neg hsame]
      split
      · rename_i hhere
        have hone : (m.pages p).ppRef ≠ 1 := fun hone ↦ hfree.2 ⟨hhere.1, hhere.2, hsame, hone⟩
        bv_omega
      · bv_omega
  · exact (removed_kernPgdir (m := m.incref pp)).trans h.kernPgdir
  · exact mapped_npages.trans h.npages

end Mapping

end Kept

theorem or_pteP_and_pteP (w : Word) : (w ||| pteP) &&& pteP ≠ 0 := by
  intro hzero
  have hbit : ((w ||| pteP) &&& pteP).getLsbD 0 = false := by
    rw [hzero]
    rfl
  simp [pteP] at hbit

/-- The page of the entry that `page_insert` writes. -/
theorem pgnum_entry (hperm : pgnum perm ||| pp = pp) :
    pgnum (page2pa pp ||| perm ||| pteP) = pp := by
  rw [pgnum_or, pgnum_or, pgnum_page2pa, BitVec.or_comm pp, hperm,
    (pgnum_of_lt (by decide) : pgnum pteP = 0)]
  simp

/-- A page that is mapped again where it is: whatever its count, it comes out the same. -/
theorem mapped_same (hm : m.Exact roots free (held m₀ roots)) (hpd : pd ∈ roots)
    (hva : pdx va < pdx utop) (hmapped : m.mapping pd va ≠ 0) (hsame : pgnum (m.mapping pd va) = pp) :
    m.mapped pd pp va w = m.writePte (m.tableOf pd va, ptx va) w := by
  have hpos := hm.pos_of_refers (refers_mapping hpd hva hmapped)
  rw [hsame] at hpos
  have hcount : (m.pages pp).ppRef + 1 ≠ 1 := by bv_omega
  have hback : (m.incref pp).release pp = m := by
    have hself : (m.incref pp).pages pp = { m.pages pp with ppRef := (m.pages pp).ppRef + 1 } := by
      rw [incref_pages, if_pos rfl]
    have hinfo : ({ m.pages pp with ppRef := (m.pages pp).ppRef + 1 - 1 } : PageInfo) =
        m.pages pp := by
      rw [BitVec.add_sub_cancel]
    unfold release
    rw [hself, if_neg hcount, hinfo]
    simp [incref, setPage]
  have hremoved : (m.incref pp).removed pd va = m.writePte (m.tableOf pd va, ptx va) 0 := by
    unfold Memory.removed
    rw [incref_mapping, if_neg hmapped, hsame, hback]
    rfl
  unfold Memory.mapped
  rw [hremoved]
  simp [writePte]

namespace Kept

section Inserting

variable (h : Kept frugal m₀ m managed roots free hand) (hp : m₀.Prepared managed) (hpd : pd ∈ roots)
  (hva : pdx va < pdx utop)

include h hp hpd hva in
theorem mapped_again (hmapped : m.mapping pd va ≠ 0) (hsame : pgnum (m.mapping pd va) = pp)
    (hw : w &&& pteP ≠ 0) (hpage : pgnum w = pp) (hhand : ∀ p ∈ hand, p = pp) :
    Kept frugal m₀ (m.mapped pd pp va w) managed roots free none := by
  have hpp := h.mappable_mapping hpd hva hmapped
  have href := refers_mapping hpd hva hmapped
  rw [hsame] at hpp href
  have hnone : hand = none := by
    cases hand with
    | none => rfl
    | some q =>
      obtain rfl : q = pp := hhand q rfl
      exact absurd href (h.hand_unused.2 _)
  subst hnone
  have hlayout := h.layout_mapped hp hpd hva (table_of_mapping hmapped) hpp hw hpage
  rw [mapped_same h.exact hpd hva hmapped hsame] at hlayout ⊢
  have hrefers : (m.writePte (m.tableOf pd va, ptx va) w).refers roots = m.refers roots := by
    rw [refers_writePte (h.forest hp) (refers_tableOf hpd hva (table_of_mapping hmapped)),
      if_neg (ne_zero_of_pteP hw), hpage, ← href, Function.update_eq_self]
  exact ⟨h.exact.of_refers hrefers rfl rfl rfl, hlayout, h.list, h.taken, h.owned, h.kernPgdir,
    h.npages⟩

include h hp hpd hva in
/-- `page_insert` with a page table for `va`. -/
theorem insert_of_table (htable : m.word pd (pdx va) ≠ 0) (hpp : Mappable m managed roots free pp)
    (hroom : RoomFor m pd va pp) (hw : w &&& pteP ≠ 0) (hpage : pgnum w = pp)
    (hhand : ∀ p ∈ hand, p = pp) :
    Placed frugal m₀ m (m.mapped pd pp va w) managed roots free pd pp va w := by
  refine ⟨?_, Remaps.of_entry fun r hr hlow ↦ mapped_entry pp (h.forest hp) hpd hva htable hr hlow,
    fun p _ hne ↦ ?_⟩
  rotate_left
  · have hsame : (m.pages p).ppRef + 0 = (m.pages p).ppRef := BitVec.add_zero _
    rw [mapped_ppRef, if_neg hne, hsame]
  rcases hroom with hlow | ⟨hmapped, hsame⟩
  · refine ⟨_, h.mapped hp hpd hva htable hpp hw hpage hlow hhand, fun p hmem ↦ ?_⟩
    rw [mem_freeMapped h.exact hpd hva (by bv_omega)] at hmem
    exact hmem.imp_right fun hold ↦ ⟨hold.1, hold.2.1⟩
  · exact ⟨_, h.mapped_again hp hpd hva hmapped hsame hw hpage hhand, fun p hmem ↦ .inl hmem⟩

include h hp hpd hva in
/-- `page_insert` maps the page, or it finds no page for the page table that it needs. -/
theorem pageInsert (hpp : Mappable m managed roots free pp) (hroom : RoomFor m pd va pp)
    (hperm : pgnum perm ||| pp = pp) (hhand : ∀ p ∈ hand, p = pp) {r : ℤ}
    (hcall : m.pageInsert (some pd) pp va perm = .ok (r, m')) :
    r = 0 ∧ Placed frugal m₀ m m' managed roots free pd pp va (page2pa pp ||| perm ||| pteP) ∨
      r = -eNoMem ∧ m' = m ∧ m.word pd (pdx va) = 0 ∧ free = [] := by
  have hw : (page2pa pp ||| perm ||| pteP) &&& pteP ≠ 0 := or_pteP_and_pteP _
  have hpage := pgnum_entry hperm
  by_cases htable : m.word pd (pdx va) = 0
  · cases free with
    | nil =>
      rw [pageInsert_of_full htable h.exact.chain] at hcall
      obtain ⟨rfl, rfl⟩ := Prod.mk.inj (Except.ok.inj hcall)
      exact .inr ⟨rfl, rfl, htable, rfl⟩
    | cons table rest =>
      rw [pageInsert_of_free h.exact (h.forest hp) hpd hva htable] at hcall
      obtain ⟨rfl, rfl⟩ := Prod.mk.inj (Except.ok.inj hcall)
      have hnot := hpp.allocated
      rw [List.mem_cons, not_or] at hnot
      have hrefers := refers_withTable h.exact (h.forest hp) hpd hva htable
      have hpde : (m.withTable pd (pdx va) table).word pd (pdx va) = tablePde table := by
        rw [withTable_word, if_pos ⟨rfl, rfl⟩]
      have hmappable : Mappable (m.withTable pd (pdx va) table) managed roots rest pp := by
        refine ⟨hpp.managed, hnot.2, hpp.root, fun pd' d' hr ↦ ?_⟩
        rw [hrefers, Function.update_apply] at hr
        split at hr
        · exact hnot.1 (Option.some.inj hr).symm
        · exact hpp.table pd' d' hr
      have hroom' : RoomFor (m.withTable pd (pdx va) table) pd va pp := by
        refine .inl ?_
        rw [withTable_pages, if_neg hnot.1]
        exact hroom.resolve_right fun hmapped ↦ hmapped.1 (mapping_of_empty htable)
      have hfresh : (m.withTable pd (pdx va) table).mapping pd va = 0 := by
        rw [mapping_of_table (by rw [hpde]; exact tablePde_ne_zero table), hpde, pgnum_tablePde,
          withTable_word, if_neg fun heq ↦ (h.forest hp).root_ne hpd heq.1.symm, if_pos rfl]
      obtain ⟨⟨free', hkept, hlist⟩, hremaps, hcounts⟩ :=
        (h.withTable hp hpd hva htable).insert_of_table hp hpd hva
          (by rw [hpde]; exact tablePde_ne_zero table) hmappable hroom' hw hpage hhand
      have hlist' : ∀ p ∈ free', p ∈ table :: rest ∨ m.mapping pd va ≠ 0 ∧
          p = pgnum (m.mapping pd va) := fun p hmem ↦
        (hlist p hmem).imp (List.mem_cons_of_mem _) fun hold ↦ absurd hfresh hold.1
      refine .inl ⟨rfl, ⟨free', hkept, hlist'⟩, ⟨fun r hr hlow hkind ↦ ?_,
        fun r hr hlow hne ↦ ?_⟩, fun p hp hne ↦ ?_⟩
      · have hnew : r ≠ (pd, pdx va, none) := by
          rintro rfl
          exact hkind rfl
        rw [hremaps.pages r hr hlow hkind,
          entry_withTable h.exact (h.forest hp) hpd hva htable hr hlow, if_neg hnew]
      · have hnew : r ≠ (pd, pdx va, none) := by
          rintro rfl
          exact hne rfl
        rw [hremaps.others r hr hlow hne,
          entry_withTable h.exact (h.forest hp) hpd hva htable hr hlow, if_neg hnew]
      · rw [List.mem_cons, not_or] at hp
        rw [hcounts p hp.2 hne, if_neg fun hhere ↦ hhere.1 hfresh,
          if_neg fun hhere ↦ hhere.1 (mapping_of_empty htable), withTable_pages, if_neg hp.1]
  · rw [pageInsert_of_table pp perm h.exact hpd hva htable] at hcall
    obtain ⟨rfl, rfl⟩ := Prod.mk.inj (Except.ok.inj hcall)
    exact .inl ⟨rfl, h.insert_of_table hp hpd hva htable hpp hroom hw hpage hhand⟩

include h hp hpd hva in
theorem pageRemove (hcall : m.pageRemove (some pd) va = .ok m') :
    (∃ free', Kept frugal m₀ m' managed roots free' hand) ∧
      ∀ r : Ref, r.1 ∈ roots → r.2.1 < pdx utop →
        m'.entry r = if r = (pd, pdx va, some (ptx va)) then 0 else m.entry r := by
  rw [pageRemove_eq h.exact hpd hva] at hcall
  obtain rfl := Except.ok.inj hcall
  exact ⟨⟨_, h.removed hp hpd hva⟩, fun r hr hlow ↦ removed_entry (h.forest hp) hpd hva hr hlow⟩

end Inserting

end Kept

end SistemasOperativos.Jos.Memory
