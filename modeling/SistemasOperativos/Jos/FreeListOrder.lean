import SistemasOperativos.Jos.MemInit
import SistemasOperativos.Jos.UserMemCheck
import SistemasOperativos.Library.ListSegments

/-!
# The free list at boot

What `page_init` and `check_page_free_list` leave: the list has the pages that nothing uses, and after
the check those of the first 4 MB come first, in the order that they had.
-/

namespace SistemasOperativos.Jos

open Library Library.Except

namespace Memory

variable {m m' m₁ : Memory} {free rest l l' : List Ppn} {pp q : Ppn} {s : Split} {b b' : Bool}
  {x : Option Ppn} {limit turns : ℕ}

/-! ## Sorting the list -/

def links (m : Memory) (pp : Ppn) : Option Ppn := (m.pages pp).ppLink

/-- Only links of pages in `l` differ. -/
structure Relinked (m m' : Memory) (l : List Ppn) : Prop where
  word : m'.word = m.word
  npages : m'.npages = m.npages
  kernPgdir : m'.kernPgdir = m.kernPgdir
  pageFreeList : m'.pageFreeList = m.pageFreeList
  ppRef : ∀ p, (m'.pages p).ppRef = (m.pages p).ppRef
  outside : ∀ p ∉ l, m'.pages p = m.pages p

theorem Relinked.refl (m : Memory) (l : List Ppn) : Relinked m m l :=
  ⟨rfl, rfl, rfl, rfl, fun _ ↦ rfl, fun _ _ ↦ rfl⟩

theorem Relinked.trans (h : Relinked m m₁ l) (h' : Relinked m₁ m' l) : Relinked m m' l where
  word := h'.word.trans h.word
  npages := h'.npages.trans h.npages
  kernPgdir := h'.kernPgdir.trans h.kernPgdir
  pageFreeList := h'.pageFreeList.trans h.pageFreeList
  ppRef p := (h'.ppRef p).trans (h.ppRef p)
  outside p hp := (h'.outside p hp).trans (h.outside p hp)

theorem Relinked.mono (h : Relinked m m' l) (hsub : ∀ p ∈ l, p ∈ l') : Relinked m m' l' where
  word := h.word
  npages := h.npages
  kernPgdir := h.kernPgdir
  pageFreeList := h.pageFreeList
  ppRef := h.ppRef
  outside p hp := h.outside p fun hmem ↦ hp (hsub p hmem)

theorem Relinked.setLink (m : Memory) (hq : q ∈ l) (x : Option Ppn) :
    Relinked m (m.setPage q { m.pages q with ppLink := x }) l where
  word := rfl
  npages := rfl
  kernPgdir := rfl
  pageFreeList := rfl
  ppRef p := by
    rw [setPage_pages]
    split <;> simp_all
  outside p hp := by
    have hne : p ≠ q := fun heq ↦ hp (heq ▸ hq)
    rw [setPage_pages, if_neg hne]

namespace Split

/-- The pages of one of the two lists so far, whose last link is still to be written. -/
inductive Holds (s : Split) (m : Memory) (b : Bool) : List Ppn → Prop
  | empty (htail : s.tail b = .head) : Holds s m b []
  | ends (l : List Ppn) (pp : Ppn) (htail : s.tail b = .link pp)
      (hsegment : Segment m.links (s.head b) (l ++ [pp]) (m.links pp)) : Holds s m b (l ++ [pp])

theorem Holds.congr {s' : Split} (h : s.Holds m b l) (htail : s'.tail b = s.tail b)
    (hhead : s'.head b = s.head b) (hpages : ∀ p ∈ l, m'.pages p = m.pages p) :
    s'.Holds m' b l := by
  have hlinks : ∀ p ∈ l, m'.links p = m.links p := fun p hp ↦ by
    rw [links, hpages p hp, links]
  cases h with
  | empty hempty => exact .empty (htail.trans hempty)
  | ends l pp hend hsegment =>
    apply Holds.ends
    · exact htail.trans hend
    · rw [hhead, hlinks pp (by simp)]
      exact hsegment.congr hlinks

variable (h : s.Holds m b l) (hnodup : l.Nodup)

include h in
theorem store_relinked : Relinked m (s.store b x m).2 l := by
  cases h with
  | empty htail =>
    rw [store, htail]
    exact Relinked.refl m []
  | ends l pp htail hsegment =>
    rw [store, htail]
    exact Relinked.setLink m (by simp) x

include h hnodup in
/-- The last link is written. -/
theorem store_segment : Segment (s.store b x m).2.links ((s.store b x m).1.head b) l x := by
  cases h with
  | empty htail =>
    rw [store, htail]
    exact Function.update_self ..
  | ends l pp htail hsegment =>
    have hlinks : (m.setPage pp { m.pages pp with ppLink := x }).links =
        Function.update m.links pp x := by
      funext p
      rw [links, setPage_pages, Function.update_apply]
      split <;> rfl
    have hpp : pp ∉ l := by
      intro hmem
      exact (List.nodup_append.mp hnodup).2.2 pp hmem pp List.mem_cons_self rfl
    rw [store, htail]
    change Segment (m.setPage pp { m.pages pp with ppLink := x }).links _ _ _
    rw [hlinks]
    exact hsegment.relink hpp x

theorem store_tail : (s.store b x m).1.tail = s.tail := by
  unfold store
  split <;> rfl

theorem store_head_of_ne (hb : b' ≠ b) : (s.store b x m).1.head b' = s.head b' := by
  unfold store
  split
  · exact Function.update_of_ne hb ..
  · rfl

end Split

/-- The pages on one side of the limit. -/
def side (limit : ℕ) (b : Bool) (l : List Ppn) : List Ppn := l.filter fun pp ↦ aboveLimit limit pp = b

theorem side_append : side limit b (l ++ l') = side limit b l ++ side limit b l' :=
  List.filter_append ..

theorem side_single (limit : ℕ) (b : Bool) (pp : Ppn) :
    side limit b [pp] = if aboveLimit limit pp = b then [pp] else [] := by
  unfold side
  by_cases hb : aboveLimit limit pp = b
  · rw [if_pos hb, List.filter_cons_of_pos (by simpa using hb), List.filter_nil]
  · rw [if_neg hb, List.filter_cons_of_neg (by simpa using hb), List.filter_nil]

theorem mem_side : pp ∈ side limit b l ↔ pp ∈ l ∧ aboveLimit limit pp = b := by
  simp [side]

/-- The loop has moved the pages `l` to the two lists, and goes through the rest. -/
theorem splitFrom_eq (limit : ℕ) (hholds : ∀ b, s.Holds m b (side limit b l))
    (hchain : Chain m.links x rest) (hnodup : (l ++ rest).Nodup) (hturns : rest.length ≤ turns) :
    ∃ s' m', splitFrom limit turns x s m = .ok (s', m') ∧ Relinked m m' (l ++ rest) ∧
      ∀ b, s'.Holds m' b (side limit b (l ++ rest)) := by
  induction rest generalizing l s m turns x with
  | nil =>
    have hx : x = none := hchain
    rw [hx, List.append_nil]
    exact ⟨s, m, by cases turns <;> rfl, Relinked.refl m l, hholds⟩
  | cons pp rest ih =>
    obtain ⟨rfl, hrest⟩ := hchain
    obtain ⟨turns, rfl⟩ : ∃ n, turns = n + 1 := Nat.exists_eq_succ_of_ne_zero (by
      rw [List.length_cons] at hturns
      omega)
    have hdisjoint := (List.nodup_append.mp hnodup).2.2
    have hpp : pp ∉ l := fun hmem ↦ hdisjoint pp hmem pp List.mem_cons_self rfl
    have hside : (side limit (aboveLimit limit pp) l).Nodup :=
      (List.nodup_append.mp hnodup).1.filter _
    -- the link that is written belongs to a page that was passed
    have hrelinked := Split.store_relinked (x := some pp) (hholds (aboveLimit limit pp))
    have hsegment := Split.store_segment (x := some pp) (hholds (aboveLimit limit pp)) hside
    generalize hstore : s.store (aboveLimit limit pp) (some pp) m = next at hrelinked hsegment
    obtain ⟨s₁, m₁⟩ := next
    have htail : s₁.tail = s.tail := by
      have := Split.store_tail (s := s) (b := aboveLimit limit pp) (x := some pp) (m := m)
      rwa [hstore] at this
    have hhead : ∀ b ≠ aboveLimit limit pp, s₁.head b = s.head b := by
      intro b hb
      have := Split.store_head_of_ne (s := s) (x := some pp) (m := m) hb
      rwa [hstore] at this
    have hkept : ∀ p ∉ l, m₁.pages p = m.pages p := fun p hp ↦
      hrelinked.outside p fun hmem ↦ hp (mem_side.mp hmem).1
    have hlink : (m₁.pages pp).ppLink = m.links pp := by
      rw [hkept pp hpp]
      rfl
    have hchain₁ : Chain m₁.links (m₁.pages pp).ppLink rest := by
      rw [hlink]
      apply hrest.congr
      intro p hp
      have hnot : p ∉ l := fun hmem ↦ hdisjoint p hmem p (List.mem_cons_of_mem pp hp) rfl
      rw [links, hkept p hnot]
      rfl
    have hholds₁ : ∀ b, ({ s₁ with tail := Function.update s₁.tail (aboveLimit limit pp) (.link pp) }
        : Split).Holds m₁ b (side limit b (l ++ [pp])) := by
      intro b
      rw [side_append, side_single]
      by_cases hb : aboveLimit limit pp = b
      · subst hb
        rw [if_pos rfl]
        apply Split.Holds.ends
        · exact Function.update_self ..
        · exact hsegment.append Segment.single
      · rw [if_neg hb, List.append_nil]
        apply (hholds b).congr
        · rw [← htail]
          exact Function.update_of_ne (Ne.symm hb) ..
        · exact hhead b (Ne.symm hb)
        · intro p hp
          apply hrelinked.outside
          intro hmem
          exact hb ((mem_side.mp hmem).2.symm.trans (mem_side.mp hp).2)
    have hnodup₁ : (l ++ [pp] ++ rest).Nodup := by
      rw [List.append_assoc]
      exact hnodup
    have hless : rest.length ≤ turns := by
      rw [List.length_cons] at hturns
      exact Nat.le_of_succ_le_succ hturns
    obtain ⟨s', m', hrun, hrelinked', hholds'⟩ := ih hholds₁ hchain₁ hnodup₁ hless
    have hlists : l ++ [pp] ++ rest = l ++ pp :: rest := by simp
    rw [hlists] at hrelinked' hholds'
    refine ⟨s', m', ?_, ?_, hholds'⟩
    · rw [splitFrom]
      simp only [hstore]
      exact hrun
    · apply Relinked.trans _ hrelinked'
      apply hrelinked.mono
      intro p hp
      exact List.mem_append_left _ (mem_side.mp hp).1

/-- The list that the check leaves is a stable partition of the one that it finds. -/
theorem sortFreeList_eq (limit : ℕ) (hchain : Chain m.links m.pageFreeList free)
    (hbound : free.length ≤ m.npages) :
    ∃ m', sortFreeList limit m = .ok m' ∧
      Chain m'.links m'.pageFreeList (side limit false free ++ side limit true free) ∧
      Relinked m { m' with pageFreeList := m.pageFreeList } free := by
  have hnodup := hchain.nodup
  obtain ⟨s, m₁, hrun, hrelinked, hholds⟩ := splitFrom_eq limit (l := [])
    (s := ⟨fun _ ↦ none, fun _ ↦ .head⟩) (fun b ↦ .empty rfl) hchain
    hnodup hbound
  rw [List.nil_append] at hrelinked hholds
  have hsides : ∀ b, (side limit b free).Nodup := fun b ↦ hnodup.filter _
  have hclose := Split.store_segment (x := none) (hholds true) (hsides true)
  have hframe := Split.store_relinked (x := none) (hholds true)
  generalize hstore : s.store true none m₁ = next at hclose hframe
  obtain ⟨s₂, m₂⟩ := next
  have htail : s₂.tail = s.tail := by
    have := Split.store_tail (s := s) (b := true) (x := none) (m := m₁)
    rwa [hstore] at this
  have hhead : s₂.head false = s.head false := by
    have := Split.store_head_of_ne (s := s) (b := true) (x := none) (m := m₁) Bool.false_ne_true
    rwa [hstore] at this
  have hapart : ∀ p ∈ side limit false free, p ∉ side limit true free := by
    intro p hp hmem
    exact Bool.false_ne_true ((mem_side.mp hp).2.symm.trans (mem_side.mp hmem).2)
  have hfirst : s₂.Holds m₂ false (side limit false free) :=
    (hholds false).congr (congrFun htail false) hhead fun p hp ↦ hframe.outside p (hapart p hp)
  have hjoin := Split.store_segment (x := s₂.head true) hfirst (hsides false)
  have hframe' := Split.store_relinked (x := s₂.head true) hfirst
  have hlast : (s₂.store false (s₂.head true) m₂).1.head true = s₂.head true :=
    Split.store_head_of_ne (Ne.symm Bool.false_ne_true)
  generalize hstore' : s₂.store false (s₂.head true) m₂ = next at hjoin hframe' hlast
  obtain ⟨s₃, m₃⟩ := next
  have hsecond : Chain m₃.links (s₂.head true) (side limit true free) := by
    apply (segment_none.mp hclose).congr
    intro p hp
    have hnot : p ∉ side limit false free := fun hmem ↦ hapart p hmem hp
    rw [links, hframe'.outside p hnot]
    rfl
  refine ⟨{ m₃ with pageFreeList := s₃.head false }, ?_, ?_, ?_⟩
  · unfold sortFreeList
    rw [hrun]
    simp only [bind, Except.bind, pure, Except.pure, hstore, hstore']
  · exact segment_none.mp (hjoin.append (segment_none.mpr hsecond))
  · have hall : ∀ b, ∀ p ∈ side limit b free, p ∈ free := fun b p hp ↦ (mem_side.mp hp).1
    have hrest := (hframe.mono (hall true)).trans (hframe'.mono (hall false))
    have htotal := hrelinked.trans hrest
    exact ⟨htotal.word, htotal.npages, htotal.kernPgdir, rfl, htotal.ppRef, htotal.outside⟩

/-! ## The cursor of the boot -/

section Cursor

variable {boot : BootInfo} {npages n nextfree : Word} {c i : ℕ}

theorem toNat_kernbase : kernbase.toNat = 4026531840 := rfl

/-- The pages that `n` bytes take. -/
def pagesFor (n : ℕ) : ℕ := (n + 4095) / 4096

/-- The next free byte is the first of the physical page `c`. -/
def Cursor (nextfree : Word) (c : ℕ) : Prop := nextfree.toNat = kernbase.toNat + 4096 * c

theorem Cursor.unique {nextfree' : Word} (h : Cursor nextfree c) (h' : Cursor nextfree' c) :
    nextfree = nextfree' :=
  BitVec.eq_of_toNat_eq (h.trans h'.symm)

theorem Cursor.ne_zero (h : Cursor nextfree c) : nextfree ≠ 0 := by
  intro hzero
  rw [Cursor, hzero, toNat_kernbase] at h
  have hbit : (0 : Word).toNat = 0 := rfl
  omega

theorem Cursor.paddr (h : Cursor nextfree c) :
    ∃ pa, paddr nextfree = .ok pa ∧ pa.toNat = 4096 * c := by
  have hle : kernbase ≤ nextfree := by
    rw [BitVec.le_def, h]
    omega
  refine ⟨nextfree - kernbase, if_neg (BitVec.not_lt.mpr hle), ?_⟩
  rw [BitVec.toNat_sub_of_le hle, h]
  omega

theorem bootAlloc_eq (boot : BootInfo) (n : Word) (hcursor : Cursor nextfree c)
    (hsmall : npages.toNat ≤ 65536) (hroom : c + pagesFor n.toNat < npages.toNat) :
    ∃ next, bootAlloc boot npages n nextfree = .ok (nextfree, next) ∧
      Cursor next (c + pagesFor n.toNat) := by
  have hnext := hcursor
  rw [Cursor, toNat_kernbase] at hnext
  rw [pagesFor] at hroom
  have hsum : (nextfree + n).toNat = nextfree.toNat + n.toNat := by
    rw [BitVec.toNat_add, Nat.mod_eq_of_lt (by omega)]
  have hle : kernbase ≤ nextfree + n := by
    rw [BitVec.le_def, hsum, toNat_kernbase]
    omega
  have hlast : (nextfree + n - kernbase).toNat = 4096 * c + n.toNat := by
    rw [BitVec.toNat_sub_of_le hle, hsum, toNat_kernbase]
    omega
  have hlimit : (pgsize * npages).toNat = 4096 * npages.toNat := by
    rw [BitVec.toNat_mul, toNat_pgsize, Nat.mod_eq_of_lt (by omega)]
  have hpage : (pgnum (nextfree + n - kernbase)).toNat = (4096 * c + n.toNat) / 4096 := by
    rw [pgnum, BitVec.extractLsb'_toNat, hlast, Nat.shiftRight_eq_div_pow, Nat.mod_eq_of_lt (by omega)]
  refine ⟨roundup (nextfree + n - kernbase + kernbase), ?_, ?_⟩
  · unfold bootAlloc Jos.paddr
    simp only [if_neg hcursor.ne_zero, if_neg (BitVec.not_lt.mpr hle), bind, Except.bind, pure,
      Except.pure]
    rw [if_neg (by rw [BitVec.le_def, hlimit, hlast]; omega), if_neg (by rw [hpage]; omega)]
  · rw [Cursor, BitVec.sub_add_cancel, toNat_roundup, hsum, if_pos (by omega), hnext, toNat_kernbase,
      pagesFor]
    omega

/-- Without bytes to allocate the cursor stays. -/
theorem bootAlloc_zero (hcursor : Cursor nextfree c) (hsmall : npages.toNat ≤ 65536)
    (hroom : c < npages.toNat) : bootAlloc boot npages 0 nextfree = .ok (nextfree, nextfree) := by
  obtain ⟨next, hrun, hnext⟩ := bootAlloc_eq boot 0 hcursor hsmall hroom
  rw [hrun, hcursor.unique hnext]

/-- The first call starts after the kernel. -/
theorem bootAlloc_first (boot : BootInfo) (npages n : Word)
    (hkernel : kernbase.toNat ≤ boot.kernelEnd.toNat)
    (hend : boot.kernelEnd.toNat ≤ 2 ^ 32 - 4096) :
    bootAlloc boot npages n 0 = bootAlloc boot npages n (roundup boot.kernelEnd) ∧
      Cursor (roundup boot.kernelEnd) (pagesFor (boot.kernelEnd.toNat - kernbase.toNat)) := by
  have hcursor : Cursor (roundup boot.kernelEnd)
      (pagesFor (boot.kernelEnd.toNat - kernbase.toNat)) := by
    rw [toNat_kernbase] at hkernel
    rw [Cursor, toNat_roundup, if_pos hend, toNat_kernbase, pagesFor]
    omega
  constructor
  · unfold bootAlloc
    rw [if_pos rfl, if_neg hcursor.ne_zero]
  · exact hcursor

/-! ## The pages that are free -/

/-- The pages that nothing uses, where the kernel with what it allocated at boot ends before the page
`first`: not page 0, nor that for the start of the other CPUs, nor those of devices. -/
def Available (first i : ℕ) : Prop :=
  i ≠ 0 ∧ i ≠ 7 ∧ ¬ (160 ≤ i ∧ i < 256) ∧ ¬ (256 ≤ i ∧ i < first)

instance {first i : ℕ} : Decidable (Available first i) := inferInstanceAs (Decidable (_ ∧ _))

/-- The list that `page_init` builds from the pages before `n`. -/
def freeBelow (first : ℕ) : ℕ → List Ppn
  | 0 => []
  | n + 1 => if Available first n then BitVec.ofNat 20 n :: freeBelow first n else freeBelow first n

theorem mem_freeBelow {first n : ℕ} (hn : n ≤ 2 ^ 20) :
    pp ∈ freeBelow first n ↔ pp.toNat < n ∧ Available first pp.toNat := by
  induction n with
  | zero => simp [freeBelow]
  | succ n ih =>
    have hiff : pp = BitVec.ofNat 20 n ↔ pp.toNat = n := by
      rw [← BitVec.toNat_inj, BitVec.toNat_ofNat, Nat.mod_eq_of_lt (by omega)]
    have hstep : pp ∈ freeBelow first (n + 1) ↔
        pp.toNat = n ∧ Available first n ∨ pp ∈ freeBelow first n := by
      rw [freeBelow]
      by_cases hfree : Available first n
      · rw [if_pos hfree, List.mem_cons, hiff]
        simp only [hfree, and_true]
      · rw [if_neg hfree]
        simp only [hfree, and_false, false_or]
    rw [hstep, ih (by omega)]
    constructor
    · rintro (⟨hpp, hfree⟩ | ⟨hlt, hfree⟩)
      · rw [hpp]
        exact ⟨Nat.lt_succ_self n, hfree⟩
      · exact ⟨Nat.lt_succ_of_lt hlt, hfree⟩
    · rintro ⟨hlt, hfree⟩
      rcases Nat.lt_succ_iff_lt_or_eq.mp hlt with hless | heq
      · exact .inr ⟨hless, hfree⟩
      · exact .inl ⟨heq, heq ▸ hfree⟩

theorem pageTaken_eq (hcursor : Cursor nextfree c) (hsmall : npages.toNat ≤ 65536)
    (hroom : c < npages.toNat) :
    pageTaken boot npages i nextfree = .ok (!decide (Available c i), nextfree) := by
  have hmp : (pgnum mpentryPaddr).toNat = 7 := rfl
  have hio : (pgnum iophysmem).toNat = 160 := rfl
  have hext : (pgnum extphysmem).toNat = 256 := rfl
  obtain ⟨pa, hpa, hvalue⟩ := hcursor.paddr
  have hpage : (pgnum pa).toNat = c := by
    rw [pgnum, BitVec.extractLsb'_toNat, hvalue, Nat.shiftRight_eq_div_pow]
    omega
  unfold pageTaken
  rw [bootAlloc_zero hcursor hsmall hroom, hmp, hio, hext]
  simp only [bind, Except.bind, pure, Except.pure, hpa, hpage]
  have hdecide : ∀ b : Bool, (b = true ↔ ¬ Available c i) → b = !decide (Available c i) := by
    intro b hb
    by_cases hfree : Available c i
    · simp_all
    · simp_all
  unfold Available at hdecide
  split_ifs
  all_goals
    rw [Except.ok.injEq, Prod.mk.injEq]
    refine ⟨hdecide _ ?_, rfl⟩
    simp only [decide_eq_true_eq, true_iff, Bool.false_eq_true, false_iff]
    omega

/-- What the loop of `page_init` keeps: the pages before `i` that nothing uses are linked, and no page
has a reference. -/
structure Gathered (m₀ m : Memory) (first i : ℕ) : Prop where
  chain : Chain m.links m.pageFreeList (freeBelow first i)
  unlinked : ∀ p ∉ freeBelow first i, (m.pages p).ppLink = none
  unreferenced : ∀ p, (m.pages p).ppRef = 0
  word : m.word = m₀.word
  npages : m.npages = m₀.npages
  kernPgdir : m.kernPgdir = m₀.kernPgdir

variable {m₀ : Memory} {first : ℕ}

theorem unlink_of_unlinked (h : (m.pages pp).ppLink = none) :
    m.setPage pp { m.pages pp with ppLink := none } = m := by
  have hpages : Function.update m.pages pp { m.pages pp with ppLink := none } = m.pages := by
    rw [Function.update_eq_self_iff, ← h]
  unfold setPage
  rw [hpages]

theorem linkFree_pages : (m.linkFree pp).pages q = if q = pp then ⟨m.pageFreeList, 0⟩ else m.pages q :=
  setPage_pages ..

theorem linkFree_links : (m.linkFree pp).links = Function.update m.links pp m.pageFreeList := by
  funext q
  rw [links, linkFree_pages, Function.update_apply]
  split <;> rfl

theorem not_mem_freeBelow (hi : i < 2 ^ 20) : BitVec.ofNat 20 i ∉ freeBelow first i := by
  rw [mem_freeBelow (by omega), BitVec.toNat_ofNat, Nat.mod_eq_of_lt hi]
  exact fun hmem ↦ Nat.lt_irrefl i hmem.1

theorem Gathered.link (h : Gathered m₀ m first i) (hi : i < 2 ^ 20) (hfree : Available first i) :
    Gathered m₀ (m.linkFree (BitVec.ofNat 20 i)) first (i + 1) where
  chain := by
    rw [linkFree_links, freeBelow, if_pos hfree]
    exact h.chain.push (not_mem_freeBelow hi)
  unlinked p hp := by
    rw [freeBelow, if_pos hfree, List.mem_cons, not_or] at hp
    rw [linkFree_pages, if_neg hp.1]
    exact h.unlinked p hp.2
  unreferenced p := by
    rw [linkFree_pages]
    split
    · rfl
    · exact h.unreferenced p
  word := h.word
  npages := h.npages
  kernPgdir := h.kernPgdir

theorem Gathered.skip (h : Gathered m₀ m first i) (hfree : ¬ Available first i) :
    Gathered m₀ m first (i + 1) := by
  have hlist : freeBelow first (i + 1) = freeBelow first i := if_neg hfree
  constructor
  · rw [hlist]
    exact h.chain
  · rw [hlist]
    exact h.unlinked
  · exact h.unreferenced
  · exact h.word
  · exact h.npages
  · exact h.kernPgdir

theorem pageInitFrom_eq (boot : BootInfo) (hcursor : Cursor nextfree c)
    (hsmall : npages.toNat ≤ 65536) (hroom : c < npages.toNat) (h : Gathered m₀ m c i) (hend : i + turns ≤ 2 ^ 20) :
    ∃ m', pageInitFrom boot npages turns i nextfree m = .ok (nextfree, m') ∧
      Gathered m₀ m' c (i + turns) := by
  induction turns generalizing i m with
  | zero => exact ⟨m, rfl, h⟩
  | succ turns ih =>
    have hi : i < 2 ^ 20 := by omega
    have hstart := unlink_of_unlinked (h.unlinked _ (not_mem_freeBelow hi))
    have hsum : i + (turns + 1) = i + 1 + turns := by omega
    have hnext : Gathered m₀ (if (!decide (Available c i)) = true then m
        else m.linkFree (BitVec.ofNat 20 i)) c (i + 1) := by
      by_cases hfree : Available c i
      · simp only [hfree, decide_true, Bool.not_true, Bool.false_eq_true, if_false]
        exact h.link hi hfree
      · simp only [hfree, decide_false, Bool.not_false, if_true]
        exact h.skip hfree
    obtain ⟨m', hrun, hgathered⟩ := ih hnext (by omega)
    refine ⟨m', ?_, ?_⟩
    · rw [pageInitFrom, pageTaken_eq hcursor hsmall hroom]
      simp only [hstart]
      exact hrun
    · rw [hsum]
      exact hgathered

/-- `page_init` links the pages that nothing uses, the last of them first. -/
theorem pageInit_eq (boot : BootInfo) (hcursor : Cursor nextfree c) (hsmall : npages.toNat ≤ 65536)
    (hroom : c < npages.toNat) (hclear : ∀ p, m.pages p = ⟨none, 0⟩)
    (hempty : m.pageFreeList = none) :
    ∃ m', pageInit boot npages nextfree m = .ok (nextfree, m') ∧
      Gathered m m' c npages.toNat := by
  have hstart : Gathered m m c 0 := by
    constructor
    · exact hempty
    · intro p _
      rw [hclear]
    · intro p
      rw [hclear]
    · rfl
    · rfl
    · rfl
  have hend : 0 + npages.toNat ≤ 2 ^ 20 := by omega
  have hrun := pageInitFrom_eq boot hcursor hsmall hroom hstart hend
  rw [Nat.zero_add] at hrun
  exact hrun

/-! ## The check of the list -/

theorem visitFrom_eq (hchain : Chain m.links x free) (hturns : free.length ≤ turns) :
    visitFrom m turns x = .ok free := by
  induction free generalizing turns x with
  | nil =>
    have hx : x = none := hchain
    rw [hx]
    cases turns <;> rfl
  | cons pp free ih =>
    obtain ⟨rfl, hrest⟩ := hchain
    cases turns with
    | zero => exact absurd hturns (Nat.not_succ_le_zero _)
    | succ turns =>
      have hrun := ih hrest (Nat.le_of_succ_le_succ hturns)
      rw [visitFrom]
      change (visitFrom m turns (m.links pp) >>= _) = _
      rw [hrun]
      rfl

theorem length_le_of_bound {n : ℕ} (hnodup : l.Nodup) (hbound : ∀ p ∈ l, p.toNat < n) :
    l.length ≤ n := by
  have hinj : Function.Injective (BitVec.toNat : Ppn → ℕ) := fun _ _ h ↦ BitVec.eq_of_toNat_eq h
  have hsub : l.map BitVec.toNat ⊆ List.range n := by
    intro i hi
    obtain ⟨p, hp, rfl⟩ := List.mem_map.mp hi
    exact List.mem_range.mpr (hbound p hp)
  calc
    l.length = (l.map BitVec.toNat).length := (List.length_map ..).symm
    _ ≤ (List.range n).length := ((hnodup.map hinj).subperm hsub).length_le
    _ = n := List.length_range

theorem kaddr_page2pa (h : pp.toNat < m.npages) : m.kaddr (page2pa pp) = .ok pp := by
  rw [kaddr_eq (by rwa [pgnum_page2pa]), pgnum_page2pa]

/-- Only contents of pages in `l` differ. -/
structure Scribbled (m m' : Memory) (l : List Ppn) : Prop where
  pages : m'.pages = m.pages
  npages : m'.npages = m.npages
  kernPgdir : m'.kernPgdir = m.kernPgdir
  pageFreeList : m'.pageFreeList = m.pageFreeList
  outside : ∀ p ∉ l, m'.word p = m.word p

theorem scribbleFrom_eq (limit : ℕ) (hbound : ∀ p ∈ l, p.toNat < m.npages) :
    ∃ m', scribbleFrom limit l m = .ok m' ∧ Scribbled m m' l := by
  induction l generalizing m with
  | nil => exact ⟨m, rfl, rfl, rfl, rfl, rfl, fun _ _ ↦ rfl⟩
  | cons pp l ih =>
    have hrest : ∀ p ∈ l, p.toNat < m.npages := fun p hp ↦ hbound p (List.mem_cons_of_mem pp hp)
    by_cases hlimit : aboveLimit limit pp = true
    · obtain ⟨m', hrun, hscribbled⟩ := ih hrest
      refine ⟨m', ?_, hscribbled.pages, hscribbled.npages, hscribbled.kernPgdir,
        hscribbled.pageFreeList, fun p hp ↦ ?_⟩
      · rw [scribbleFrom, if_pos hlimit]
        exact hrun
      · exact hscribbled.outside p fun hmem ↦ hp (List.mem_cons_of_mem pp hmem)
    · obtain ⟨m', hrun, hscribbled⟩ := ih (m := m.scribble pp) hrest
      refine ⟨m', ?_, hscribbled.pages, hscribbled.npages, hscribbled.kernPgdir,
        hscribbled.pageFreeList, fun p hp ↦ ?_⟩
      · rw [scribbleFrom, if_neg hlimit, kaddr_page2pa (hbound pp List.mem_cons_self)]
        exact hrun
      · rw [List.mem_cons, not_or] at hp
        calc
          m'.word p = (m.scribble pp).word p := hscribbled.outside p hp.2
          _ = m.word p := Function.update_of_ne hp.1 ..

theorem toNat_page2pa (pp : Ppn) : (page2pa pp).toNat = pp.toNat * 4096 := by
  have hzero : (0 : BitVec 12).toNat = 0 := rfl
  rw [page2pa, toNat_append_eq, hzero]
  omega

theorem toNat_extphysmem : extphysmem.toNat = 1048576 := rfl

theorem page2pa_lt_extphysmem : page2pa pp < extphysmem ↔ pp.toNat < 256 := by
  rw [BitVec.lt_def, toNat_page2pa, toNat_extphysmem]
  omega

/-- A page that nothing uses passes the assertions. -/
theorem checkFreePage_eq (hcursor : Cursor nextfree c) (hkernel : 256 < c) (hsmall : m.npages ≤ 65536)
    (hbound : pp.toNat < m.npages) (hfree : Available c pp.toNat) :
    checkFreePage nextfree m pp = .ok () := by
  obtain ⟨hzero, hentry, hhole, hused⟩ := hfree
  have hne : ∀ w : Word, w.toNat ≠ pp.toNat * 4096 → page2pa pp ≠ w := by
    intro w hw heq
    rw [← heq, toNat_page2pa] at hw
    exact hw rfl
  have hsum : (page2pa pp + kernbase).toNat = pp.toNat * 4096 + kernbase.toNat := by
    rw [BitVec.toNat_add, toNat_page2pa, toNat_kernbase, Nat.mod_eq_of_lt (by omega)]
  have hcut : extphysmem ≤ page2pa pp → ¬ page2pa pp + kernbase < nextfree := by
    intro hle
    have hext := BitVec.not_lt.mpr hle
    rw [page2pa_lt_extphysmem] at hext
    rw [BitVec.lt_def, hsum, hcursor]
    omega
  have hio : iophysmem.toNat = 655360 := rfl
  have hend : (extphysmem - pgsize).toNat = 1044480 := rfl
  have hmp : mpentryPaddr.toNat = 28672 := rfl
  have hnull : (0 : Word).toNat = 0 := rfl
  unfold checkFreePage
  rw [if_neg (Nat.not_le.mpr hbound), if_neg (hne 0 (by omega)), if_neg (hne iophysmem (by omega)),
    if_neg (hne (extphysmem - pgsize) (by omega)),
    if_neg (hne extphysmem (by rw [toNat_extphysmem]; omega)),
    if_neg (hne mpentryPaddr (by omega))]
  by_cases hext : extphysmem ≤ page2pa pp
  · rw [if_pos hext, kaddr_page2pa hbound, if_neg (hcut hext)]
    rfl
  · rw [if_neg hext]
    rfl

/-- The assertions, where there is a page of base memory and one of extended memory. -/
theorem checkFreePages_eq (hcursor : Cursor nextfree c) (hkernel : 256 < c)
    (hsmall : m.npages ≤ 65536)
    (hfree : ∀ p ∈ l, p.toNat < m.npages ∧ Available c p.toNat) :
    ∃ base ext, checkFreePages nextfree m l = .ok (base, ext) ∧
      ((∃ p ∈ l, p.toNat < 256) → base ≠ 0) ∧ ((∃ p ∈ l, 256 ≤ p.toNat) → ext ≠ 0) := by
  induction l with
  | nil => exact ⟨0, 0, rfl, by simp, by simp⟩
  | cons pp l ih =>
    obtain ⟨base, ext, hrun, hbase, hext⟩ := ih fun p hp ↦ hfree p (List.mem_cons_of_mem pp hp)
    obtain ⟨hbound, havailable⟩ := hfree pp List.mem_cons_self
    have hcons : checkFreePages nextfree m (pp :: l) =
        .ok (if page2pa pp < extphysmem then (base + 1, ext) else (base, ext + 1)) := by
      rw [checkFreePages, checkFreePage_eq hcursor hkernel hsmall hbound havailable]
      change (checkFreePages nextfree m l >>= _) = _
      rw [hrun]
      rfl
    rw [hcons]
    by_cases hlow : pp.toNat < 256
    · rw [if_pos (page2pa_lt_extphysmem.mpr hlow)]
      refine ⟨base + 1, ext, rfl, fun _ ↦ Nat.succ_ne_zero base, ?_⟩
      rintro ⟨p, hp, hhigh⟩
      rcases List.mem_cons.mp hp with rfl | hp
      · omega
      · exact hext ⟨p, hp, hhigh⟩
    · rw [if_neg fun h ↦ hlow (page2pa_lt_extphysmem.mp h)]
      refine ⟨base, ext + 1, rfl, ?_, fun _ ↦ Nat.succ_ne_zero ext⟩
      rintro ⟨p, hp, hless⟩
      rcases List.mem_cons.mp hp with rfl | hp
      · exact absurd hless hlow
      · exact hbase ⟨p, hp, hless⟩

/-- What a check changes: the contents of free pages, and the order of the list to `free'`. -/
structure Checked (m m' : Memory) (free free' : List Ppn) : Prop where
  chain : Chain m'.links m'.pageFreeList free'
  npages : m'.npages = m.npages
  kernPgdir : m'.kernPgdir = m.kernPgdir
  ppRef : ∀ p, (m'.pages p).ppRef = (m.pages p).ppRef
  pages : ∀ p ∉ free, m'.pages p = m.pages p
  word : ∀ p ∉ free, m'.word p = m.word p

/-- The order that the check leaves. -/
def ordered (onlyLowMemory : Bool) (free : List Ppn) : List Ppn :=
  if onlyLowMemory then side 1 false free ++ side 1 true free else free

theorem mem_ordered {onlyLowMemory : Bool} : pp ∈ ordered onlyLowMemory free ↔ pp ∈ free := by
  unfold ordered
  split
  · rw [List.mem_append, mem_side, mem_side, ← and_or_left]
    cases aboveLimit 1 pp <;> simp
  · rfl

/-- The check passes on a list of pages that nothing uses, and changes nothing but their order and what
they contain. -/
theorem checkPageFreeList_eq (boot : BootInfo) (npages : Word) (onlyLowMemory : Bool)
    (hcursor : Cursor nextfree c) (hkernel : 256 < c)
    (hnpages : npages.toNat = m.npages) (hsmall : m.npages ≤ 65536) (hroom : c < m.npages)
    (hchain : Chain m.links m.pageFreeList free)
    (hfree : ∀ p ∈ free, p.toNat < m.npages ∧ Available c p.toNat)
    (hbase : ∃ p ∈ free, p.toNat < 256) (hext : ∃ p ∈ free, 256 ≤ p.toNat) :
    ∃ m', checkPageFreeList boot npages onlyLowMemory nextfree m = .ok (nextfree, m') ∧
      Checked m m' free (ordered onlyLowMemory free) := by
  have hlength : free.length ≤ m.npages := length_le_of_bound hchain.nodup fun p hp ↦ (hfree p hp).1
  have hsome : m.pageFreeList ≠ none := by
    intro hnone
    rw [hnone] at hchain
    obtain ⟨p, hp, -⟩ := hbase
    rw [hchain.of_none] at hp
    exact List.not_mem_nil hp
  have hsort : ∃ m₁, (if onlyLowMemory = true then sortFreeList (if onlyLowMemory then 1 else 1024) m
        else pure m) = .ok m₁ ∧ Checked m m₁ free (ordered onlyLowMemory free) ∧ m₁.word = m.word := by
    cases onlyLowMemory with
    | false => exact ⟨m, rfl, ⟨hchain, rfl, rfl, fun _ ↦ rfl, fun _ _ ↦ rfl, fun _ _ ↦ rfl⟩, rfl⟩
    | true =>
      obtain ⟨m₁, hrun, hsorted, hrelinked⟩ := sortFreeList_eq 1 hchain hlength
      exact ⟨m₁, hrun, ⟨hsorted, hrelinked.npages, hrelinked.kernPgdir, hrelinked.ppRef,
        hrelinked.outside, fun p _ ↦ congrFun hrelinked.word p⟩, hrelinked.word⟩
  obtain ⟨m₁, hrun₁, hchecked, hword⟩ := hsort
  have hbound : ∀ p ∈ ordered onlyLowMemory free, p.toNat < m₁.npages := by
    intro p hp
    rw [hchecked.npages]
    exact (hfree p (mem_ordered.mp hp)).1
  have hvisit : visitFrom m₁ m₁.npages m₁.pageFreeList = .ok (ordered onlyLowMemory free) :=
    visitFrom_eq hchecked.chain (length_le_of_bound hchecked.chain.nodup hbound)
  obtain ⟨m₂, hrun₂, hscribbled⟩ := scribbleFrom_eq (if onlyLowMemory then 1 else 1024) hbound
  have hnpages₂ : m₂.npages = m.npages := hscribbled.npages.trans hchecked.npages
  obtain ⟨base, ext, hasserts, hbases, hexts⟩ := checkFreePages_eq (m := m₂)
    (l := ordered onlyLowMemory free) hcursor hkernel (by rw [hnpages₂]; exact hsmall) fun p hp ↦ by
      rw [hnpages₂]
      exact hfree p (mem_ordered.mp hp)
  have hcounts : ¬ (base = 0 ∨ ext = 0) := by
    rw [not_or]
    obtain ⟨p, hp, hlow⟩ := hbase
    obtain ⟨q, hq, hhigh⟩ := hext
    exact ⟨hbases ⟨p, mem_ordered.mpr hp, hlow⟩, hexts ⟨q, mem_ordered.mpr hq, hhigh⟩⟩
  refine ⟨m₂, ?_, ?_⟩
  · have halloc : bootAlloc boot npages 0 nextfree = .ok (nextfree, nextfree) :=
      bootAlloc_zero hcursor (by rw [hnpages]; exact hsmall) (by rw [hnpages]; exact hroom)
    unfold checkPageFreeList
    rw [if_neg hsome]
    cases onlyLowMemory with
    | false =>
      obtain rfl := Except.ok.inj hrun₁
      change (visitFrom m m.npages m.pageFreeList >>= _) = _
      simp only [bind, Except.bind, pure, Except.pure, hvisit, hrun₂, halloc, hasserts,
        if_neg hcounts]
    | true =>
      change (sortFreeList 1 m >>= _) = _
      change sortFreeList 1 m = .ok m₁ at hrun₁
      change scribbleFrom 1 (ordered true free) m₁ = .ok m₂ at hrun₂
      simp only [bind, Except.bind, pure, Except.pure, hrun₁, hvisit, if_true, hrun₂, halloc,
        hasserts, if_neg hcounts]
  · constructor
    · have hlinks : m₂.links = m₁.links := by
        funext p
        rw [links, hscribbled.pages, links]
      rw [hlinks, hscribbled.pageFreeList]
      exact hchecked.chain
    · exact hnpages₂
    · exact hscribbled.kernPgdir.trans hchecked.kernPgdir
    · intro p
      rw [hscribbled.pages]
      exact hchecked.ppRef p
    · intro p hp
      rw [hscribbled.pages]
      exact hchecked.pages p hp
    · intro p hp
      calc
        m₂.word p = m₁.word p := hscribbled.outside p fun hmem ↦ hp (mem_ordered.mp hmem)
        _ = m.word p := congrFun hword p

end Cursor

end Memory

end SistemasOperativos.Jos
