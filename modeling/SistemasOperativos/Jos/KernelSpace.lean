import Mathlib.Order.Interval.Finset.Nat
import SistemasOperativos.Jos.FreeListOrder
import SistemasOperativos.Jos.Layout

/-!
# The address space that the kernel starts with

`mem_init` ends with the page directory that `memlayout.h` draws, and with the free list and the
counts from which the first environment can be created. The page tables come from the front of the
list, that is from the memory that is mapped before the new directory is in use.
-/

namespace SistemasOperativos.Jos

open Library Library.Except

namespace Memory

variable {m m' : Memory} {pd table : Ppn} {stock free rest : List Ppn} {d t : Slot}
  {va pa perm size w a : Word} {turns : ℕ}

/-- The directory of the kernel while regions are mapped. The page tables are the pages that were
taken off the front of `stock`, and no user program may write what they map. -/
structure Stocked (m : Memory) (pd : Ppn) (stock free : List Ppn) : Prop where
  directory : m.Directory free pd
  window : ∀ d, m.Window pd d ↔ d = pdx uvpt
  low : ∀ d < pdx utop, m.word pd d = 0
  unlinked : ∀ p ∉ free, (m.pages p).ppLink = none
  unreferenced : ∀ p ∈ free, (m.pages p).ppRef = 0
  referenced : ∀ d, m.IsTable pd d → (m.pages (pgnum (m.word pd d))).ppRef ≠ 0
  closed : ∀ d, m.word pd d &&& userWrite = userWrite → m.IsTable pd d
  sealed : ∀ d, m.IsTable pd d → ∀ t, m.word (pgnum (m.word pd d)) t &&& userWrite ≠ userWrite
  taken : ∃ used, stock = used ++ free ∧ ∀ p, p ∈ used ↔ ∃ d, m.IsTable pd d ∧ pgnum (m.word pd d) = p
  plenty : 69 ≤ stock.length
  nodup : stock.Nodup

namespace Stocked

/-! ## One entry -/

section Entry

theorem writeTable (h : m.Stocked pd stock free) (ht : m.IsTable pd d)
    (hw : w &&& userWrite ≠ userWrite) :
    (m.writePte (pgnum (m.word pd d), t) w).Stocked pd stock free where
  directory := h.directory.writeTable ht
  window d' := (writeTable_window ht).trans (h.window d')
  low d' hd' := by
    rw [writeTable_root ht]
    exact h.low d' hd'
  unlinked := h.unlinked
  unreferenced := h.unreferenced
  referenced d' hd' := by
    rw [writeTable_root ht]
    exact h.referenced d' ((writeTable_isTable ht).mp hd')
  closed d' hd' := by
    rw [writeTable_root ht] at hd'
    exact (writeTable_isTable ht).mpr (h.closed d' hd')
  sealed d' hd' t' := by
    rw [writeTable_root ht, writeTable_entry h.directory ht ((writeTable_isTable ht).mp hd')]
    split
    · exact hw
    · exact h.sealed d' ((writeTable_isTable ht).mp hd') t'
  taken := by
    obtain ⟨used, hstock, hused⟩ := h.taken
    refine ⟨used, hstock, fun p ↦ (hused p).trans (exists_congr fun d' ↦ ?_)⟩
    rw [writeTable_isTable ht, writeTable_root ht]
  plenty := h.plenty
  nodup := h.nodup

theorem withTable (h : m.Stocked pd stock (table :: rest)) (hempty : m.word pd d = 0)
    (hd : pdx utop ≤ d) : (m.withTable pd d table).Stocked pd stock rest := by
  have hdir := h.directory
  have hne : ∀ d', m.IsTable pd d' → d' ≠ d := by
    rintro d' hd' rfl
    exact hd'.1 hempty
  have hfree : ∀ d', m.IsTable pd d' → pgnum (m.word pd d') ≠ table := by
    intro d' hd' heq
    exact (hdir.table d' hd').1 (heq ▸ List.mem_cons_self)
  have hroot : ∀ d' ≠ d, (m.withTable pd d table).word pd d' = m.word pd d' := by
    intro d' hd'
    rw [withTable_root hdir, if_neg hd']
  have hhere : (m.withTable pd d table).word pd d = tablePde table := by
    rw [withTable_root hdir, if_pos rfl]
  have hnodup := List.nodup_cons.mp hdir.chain.nodup
  constructor
  · exact hdir.withTable
  · intro d'
    exact (withTable_window hdir hempty).trans (h.window d')
  · intro d' hd'
    rw [hroot d' fun heq ↦ absurd (heq ▸ hd') (BitVec.not_lt.mpr hd)]
    exact h.low d' hd'
  · intro p hp
    rw [withTable_pages]
    by_cases hpt : p = table
    · rw [if_pos hpt]
    · rw [if_neg hpt]
      exact h.unlinked p fun hmem ↦ (List.mem_cons.mp hmem).elim hpt hp
  · intro p hp
    have hpt : p ≠ table := fun heq ↦ hnodup.1 (heq ▸ hp)
    rw [withTable_pages, if_neg hpt]
    exact h.unreferenced p (List.mem_cons_of_mem table hp)
  · intro d' hd'
    rcases (withTable_isTable hdir).mp hd' with rfl | hold
    · rw [hhere, pgnum_tablePde, withTable_pages, if_pos rfl, h.unreferenced table List.mem_cons_self]
      decide
    · rw [hroot d' (hne d' hold), withTable_pages, if_neg (hfree d' hold)]
      exact h.referenced d' hold
  · intro d' hd'
    rw [withTable_isTable hdir]
    by_cases heq : d' = d
    · exact .inl heq
    · rw [hroot d' heq] at hd'
      exact .inr (h.closed d' hd')
  · intro d' hd' t'
    rcases (withTable_isTable hdir).mp hd' with rfl | hold
    · rw [hhere, pgnum_tablePde, withTable_word, if_neg fun hself ↦ hdir.root_ne hself.1.symm,
        if_pos rfl]
      decide
    · rw [hroot d' (hne d' hold), withTable_entry hdir hold]
      exact h.sealed d' hold t'
  · obtain ⟨used, hstock, hused⟩ := h.taken
    refine ⟨used ++ [table], by rw [hstock, List.append_assoc]; rfl, fun p ↦ ?_⟩
    rw [List.mem_append, List.mem_singleton, hused p]
    constructor
    · rintro (⟨d', hd', rfl⟩ | rfl)
      · refine ⟨d', (withTable_isTable hdir).mpr (.inr hd'), ?_⟩
        rw [hroot d' (hne d' hd')]
      · refine ⟨d, (withTable_isTable hdir).mpr (.inl rfl), ?_⟩
        rw [hhere, pgnum_tablePde]
    · rintro ⟨d', hd', rfl⟩
      rcases (withTable_isTable hdir).mp hd' with rfl | hold
      · rw [hhere, pgnum_tablePde]
        exact .inr rfl
      · rw [hroot d' (hne d' hold)]
        exact .inl ⟨d', hold, rfl⟩
  · exact h.plenty
  · exact h.nodup

/-- An entry for a large page, where there was none. -/
theorem largePage (h : m.Stocked pd stock free) (hempty : m.word pd d = 0) (hd : pdx utop ≤ d)
    (hw : largePde pa perm &&& userWrite ≠ userWrite) :
    (m.writePte (pd, d) (largePde pa perm)).Stocked pd stock free := by
  have hhere : (m.writePte (pd, d) (largePde pa perm)).word pd d = largePde pa perm := by
    rw [writePte_word, if_pos ⟨rfl, rfl⟩]
  have hroot : ∀ d' ≠ d, (m.writePte (pd, d) (largePde pa perm)).word pd d' = m.word pd d' := by
    intro d' hd'
    rw [writePte_word, if_neg fun heq ↦ hd' heq.2]
  have hentry : ∀ p ≠ pd, (m.writePte (pd, d) (largePde pa perm)).word p = m.word p := by
    intro p hp
    funext t'
    rw [writePte_word, if_neg fun heq ↦ hp heq.1]
  have hnot : ¬ m.IsTable pd d := fun ht ↦ ht.1 hempty
  have htable : ∀ d', (m.writePte (pd, d) (largePde pa perm)).IsTable pd d' ↔ m.IsTable pd d' := by
    intro d'
    by_cases heq : d' = d
    · subst heq
      unfold IsTable
      rw [hhere, hempty]
      exact ⟨fun ht ↦ absurd ht.2.1 largePde_and_ptePs, fun ht ↦ absurd rfl ht.1⟩
    · unfold IsTable
      rw [hroot d' heq]
  have hkept : ∀ d', m.IsTable pd d' →
      (m.writePte (pd, d) (largePde pa perm)).word pd d' = m.word pd d' := by
    intro d' hd'
    apply hroot
    rintro rfl
    exact hnot hd'
  constructor
  · constructor
    · exact h.directory.chain
    · exact h.directory.bound
    · exact h.directory.root
    · intro d' hd'
      rw [hkept d' ((htable d').mp hd')]
      exact h.directory.table d' ((htable d').mp hd')
    · intro d₁ d₂ h₁ h₂
      rw [hkept d₁ ((htable d₁).mp h₁), hkept d₂ ((htable d₂).mp h₂)]
      exact h.directory.distinct d₁ d₂ ((htable d₁).mp h₁) ((htable d₂).mp h₂)
  · intro d'
    rw [← h.window d']
    by_cases heq : d' = d
    · subst heq
      unfold Window
      rw [hhere, hempty]
      exact ⟨fun hself ↦ absurd hself.2.1 largePde_and_ptePs, fun hself ↦ absurd rfl hself.1⟩
    · unfold Window
      rw [hroot d' heq]
  · intro d' hd'
    rw [hroot d' fun heq ↦ absurd (heq ▸ hd') (BitVec.not_lt.mpr hd)]
    exact h.low d' hd'
  · exact h.unlinked
  · exact h.unreferenced
  · intro d' hd'
    rw [hkept d' ((htable d').mp hd')]
    exact h.referenced d' ((htable d').mp hd')
  · intro d' hd'
    by_cases heq : d' = d
    · rw [heq, hhere] at hd'
      exact absurd hd' hw
    · rw [hroot d' heq] at hd'
      exact (htable d').mpr (h.closed d' hd')
  · intro d' hd' t'
    have hold := (htable d').mp hd'
    rw [hkept d' hold, hentry _ hold.2.2]
    exact h.sealed d' hold t'
  · obtain ⟨used, hstock, hused⟩ := h.taken
    refine ⟨used, hstock, fun p ↦ (hused p).trans (exists_congr fun d' ↦ ?_)⟩
    rw [htable d']
    exact and_congr_right fun hd' ↦ by rw [hkept d' hd']
  · exact h.plenty
  · exact h.nodup

end Entry

/-! ## The loops -/

section Loops

theorem toNat_pdx_utop : (pdx utop).toNat = 955 := by decide

theorem utop_le_pdx (hutop : utop ≤ va) : pdx utop ≤ pdx va := by
  have hle : utop.toNat ≤ va.toNat := hutop
  have hvalue : utop.toNat = 4005560320 := rfl
  have hlt := va.isLt
  rw [BitVec.le_def, toNat_pdx_utop, pdx, BitVec.extractLsb'_toNat, Nat.shiftRight_eq_div_pow]
  omega

/-- The slots above `UTOP` without an entry. -/
def emptySlots (m : Memory) (pd : Ppn) : Finset ℕ :=
  (Finset.Ico 955 1024).filter fun d ↦ m.word pd (BitVec.ofNat 10 d) = 0

/-- Every page that was taken has a slot above `UTOP`. -/
theorem taken_le (h : m.Stocked pd stock free) : ∃ used, stock = used ++ free ∧
    (∀ p, p ∈ used ↔ ∃ d, m.IsTable pd d ∧ pgnum (m.word pd d) = p) ∧
      (emptySlots m pd).card + used.length ≤ 69 := by
  classical
  obtain ⟨used, hstock, hused⟩ := h.taken
  refine ⟨used, hstock, hused, ?_⟩
  let tables := (Finset.Ico 955 1024).filter fun d ↦ m.IsTable pd (BitVec.ofNat 10 d)
  have hnodup : used.Nodup := by
    have hall := h.nodup
    rw [hstock] at hall
    exact (List.nodup_append.mp hall).1
  have htaken : used.length ≤ tables.card := by
    rw [← List.toFinset_card_of_nodup hnodup]
    have hsub : used.toFinset ⊆ tables.image fun d ↦ pgnum (m.word pd (BitVec.ofNat 10 d)) := by
      intro p hp
      obtain ⟨d, hd, hpage⟩ := (hused p).mp (List.mem_toFinset.mp hp)
      have hslot : pdx utop ≤ d := BitVec.not_lt.mp fun hlt ↦ hd.1 (h.low d hlt)
      have hcast : BitVec.ofNat 10 d.toNat = d := by simp
      rw [Finset.mem_image]
      refine ⟨d.toNat, ?_, by rw [hcast]; exact hpage⟩
      rw [Finset.mem_filter, Finset.mem_Ico, hcast]
      exact ⟨⟨hslot, d.isLt⟩, hd⟩
    exact (Finset.card_le_card hsub).trans Finset.card_image_le
  have hdisjoint : Disjoint (emptySlots m pd) tables := by
    rw [Finset.disjoint_left]
    intro d hempty htable
    exact (Finset.mem_filter.mp htable).2.1 (Finset.mem_filter.mp hempty).2
  calc
    (emptySlots m pd).card + used.length ≤ (emptySlots m pd).card + tables.card :=
      Nat.add_le_add_left htaken _
    _ = (emptySlots m pd ∪ tables).card := (Finset.card_union_of_disjoint hdisjoint).symm
    _ ≤ (Finset.Ico 955 1024).card := Finset.card_le_card
      (Finset.union_subset (Finset.filter_subset ..) (Finset.filter_subset ..))
    _ = 69 := by decide

/-- There are pages for all the page tables above `UTOP` that are missing. -/
theorem missing_le_length (h : m.Stocked pd stock free) {n : ℕ} (hva : utop ≤ va) :
    m.missing pd va n ≤ free.length := by
  obtain ⟨used, hstock, -, hcard⟩ := h.taken_le
  have hutop : utop.toNat = 4005560320 := rfl
  have hle : 4005560320 ≤ va.toNat := by
    rw [← hutop]
    exact hva
  have hmissing : m.missing pd va n ≤ (emptySlots m pd).card := by
    apply Finset.card_le_card
    intro d
    simp only [emptySlots, Finset.mem_filter, Finset.mem_range, Finset.mem_Ico]
    rintro ⟨hd, -, hlow, -, hzero⟩
    exact ⟨⟨by omega, hd⟩, hzero⟩
  have hplenty := h.plenty
  rw [hstock, List.length_append] at hplenty
  omega

variable (hperm : perm.toNat < 4096) (hdeny : (perm ||| pteP) &&& userWrite ≠ userWrite)

include hdeny in
theorem entry_denies (hpa : pa.toNat % 4096 = 0) :
    (pa ||| perm ||| pteP) &&& userWrite ≠ userWrite := by
  rw [BitVec.or_assoc, aligned_and hpa (by decide)]
  exact hdeny

include hdeny in
/-- What a turn of the loop over pages leaves. -/
theorem turn (h : m.Stocked pd stock free) (hv : m.Vacant pd va) (hutop : utop ≤ va)
    (hpa : pa.toNat % 4096 = 0) (hroom : m.word pd (pdx va) = 0 → free ≠ [])
    (hrun : mapPages pd perm 1 va pa m = .ok m') :
    (∃ free', m'.Stocked pd stock free') ∧ m'.npages = m.npages ∧
      ∀ d ≠ pdx va, m'.word pd d = m.word pd d := by
  have hdir := h.directory
  rcases hv with hempty | ⟨ht, hbits, hzero⟩
  · obtain ⟨table, rest, rfl⟩ := List.exists_cons_of_ne_nil (hroom hempty)
    have hnew := h.withTable hempty (utop_le_pdx hutop)
    have ht : (m.withTable pd (pdx va) table).IsTable pd (pdx va) :=
      (withTable_isTable hdir).mpr (.inl rfl)
    have hroot : (m.withTable pd (pdx va) table).word pd (pdx va) = tablePde table := by
      rw [withTable_root hdir, if_pos rfl]
    have hmapping : (m.withTable pd (pdx va) table).mapping pd va = 0 := by
      rw [mapping_of_table ht.1, hroot, pgnum_tablePde, withTable_word,
        if_neg fun hself ↦ hdir.root_ne hself.1.symm, if_pos rfl]
    have hbound := hnew.directory.table (pdx va) ht
    rw [Memory.mapPages, pgdirWalk_true_of_free hempty hdir.chain.1
      (hdir.bound _ List.mem_cons_self)] at hrun
    change (pageRemove (some pd) va (m.withTable pd (pdx va) table) >>= _) = _ at hrun
    rw [pageRemove_of_unmapped hmapping fun _ ↦ hbound.2] at hrun
    obtain rfl := Except.ok.inj hrun
    have hwritten := hnew.writeTable (t := ptx va) ht (entry_denies hdeny hpa)
    rw [hroot, pgnum_tablePde] at hwritten
    refine ⟨⟨rest, hwritten⟩, rfl, fun d hd ↦ ?_⟩
    rw [writePte_word, if_neg fun hself ↦ hdir.root_ne hself.1, withTable_root hdir, if_neg hd]
  · have hbound := (hdir.table _ ht).2
    rw [Memory.mapPages, pgdirWalk_of_table ht.1 hbound] at hrun
    change (pageRemove (some pd) va m >>= _) = _ at hrun
    rw [pageRemove_of_unmapped (mapping_of_vacant (.inr ⟨ht, hbits, hzero⟩)) fun _ ↦ hbound] at hrun
    obtain rfl := Except.ok.inj hrun
    refine ⟨⟨free, h.writeTable ht (entry_denies hdeny hpa)⟩, rfl, fun d _ ↦ ?_⟩
    exact writeTable_root ht d

include hperm hdeny in
theorem mapPages (turns : ℕ) (h : m.Stocked pd stock free)
    (hvacant : ∀ a, InRegion va (turns * 4096) a → m.Vacant pd a) (hutop : utop ≤ va)
    (hva : va.toNat % 4096 = 0) (hpa : pa.toNat % 4096 = 0)
    (hend : va.toNat + turns * 4096 ≤ 2 ^ 32) (hrun : mapPages pd perm turns va pa m = .ok m') :
    (∃ free', m'.Stocked pd stock free') ∧ m'.npages = m.npages ∧
      ∀ d, (∀ a, InRegion va (turns * 4096) a → pdx a ≠ d) → m'.word pd d = m.word pd d := by
  induction turns generalizing m va pa free with
  | zero =>
    obtain rfl := Except.ok.inj hrun
    exact ⟨⟨free, h⟩, rfl, fun _ _ ↦ rfl⟩
  | succ turns ih =>
    have hfirst : InRegion va ((turns + 1) * 4096) va := ⟨Nat.le_refl _, by omega⟩
    have hroom : m.word pd (pdx va) = 0 → free ≠ [] := by
      intro hempty hnil
      have hone : 0 < m.missing pd va 1 := missing_pos Nat.one_pos hempty
      have hle := h.missing_le_length (n := 1) hutop
      rw [hnil, List.length_nil] at hle
      omega
    obtain ⟨m₁, free₁, hsucc, hpage, -, -⟩ :=
      mapPages_succ h.directory (hvacant va hfirst) hva hpa hperm hroom
    obtain ⟨⟨free₂, hstocked⟩, hnpages, hroot⟩ := h.turn hdeny (hvacant va hfirst) hutop hpa hroom (hsucc 0)
    rw [hsucc turns] at hrun
    have hlt := va.isLt
    have hnext : turns = 0 ∨ (va + pgsize).toNat = va.toNat + 4096 := by
      rw [BitVec.toNat_add, toNat_pgsize]
      omega
    rcases Nat.eq_zero_or_pos turns with hlast | hmore
    · subst hlast
      obtain rfl := Except.ok.inj hrun
      exact ⟨⟨free₂, hstocked⟩, hnpages, fun d hd ↦ hroot d fun heq ↦ hd va hfirst heq.symm⟩
    · have hva₁ : (va + pgsize).toNat = va.toNat + 4096 := hnext.resolve_left (by omega)
      have hpa₁ : (pa + pgsize).toNat % 4096 = 0 := by
        rw [BitVec.toNat_add, toNat_pgsize]
        omega
      have hutop₁ : utop ≤ va + pgsize := by
        have hle : utop.toNat ≤ va.toNat := hutop
        rw [BitVec.le_def, hva₁]
        omega
      have hwider : ∀ a, InRegion (va + pgsize) (turns * 4096) a → InRegion va ((turns + 1) * 4096) a ∧
          ¬ InRegion va 4096 a := by
        unfold InRegion
        intro a ha
        rw [hva₁] at ha
        omega
      obtain ⟨hstocked', hnpages', hroot'⟩ := ih hstocked
        (fun a ha ↦ hpage.vacant a (hwider a ha).2 (hvacant a (hwider a ha).1)) hutop₁
        (by rw [hva₁]; omega) hpa₁ (by rw [hva₁]; omega) hrun
      refine ⟨hstocked', hnpages'.trans hnpages, fun d hd ↦ ?_⟩
      calc
        m'.word pd d = m₁.word pd d := hroot' d fun a ha ↦ hd a (hwider a ha).1
        _ = m.word pd d := hroot d fun heq ↦ hd va hfirst heq.symm

include hdeny in
theorem largePde_denies (hpa : pa.toNat % 4096 = 0) : largePde pa perm &&& userWrite ≠ userWrite := by
  rw [largePde, or_and_of_disjoint (by decide)]
  exact entry_denies hdeny hpa

include hdeny in
/-- The loop over large pages takes a region of them whole. -/
theorem mapLargePages (h : m.Stocked pd stock free)
    (hempty : ∀ a, InRegion va size.toNat a → m.word pd (pdx a) = 0) (hutop : utop ≤ va)
    (hva : va.toNat % 2 ^ 22 = 0) (hpa : pa.toNat % 2 ^ 22 = 0) (hsize : size.toNat = turns * 2 ^ 22)
    (hend : va.toNat + size.toNat ≤ 2 ^ 32) :
    ∃ va' pa' m', mapLargePages pd perm turns va size pa m = (va', 0, pa', m') ∧
      m'.Stocked pd stock free ∧ m'.npages = m.npages ∧
      ∀ d, (∀ a, InRegion va size.toNat a → pdx a ≠ d) → m'.word pd d = m.word pd d := by
  induction turns generalizing m va size pa with
  | zero =>
    have hzero : size = 0 := BitVec.eq_of_toNat_eq (hsize.trans (Nat.zero_mul _))
    exact ⟨va, pa, m, by rw [Memory.mapLargePages, hzero], h, rfl, fun _ _ ↦ rfl⟩
  | succ turns ih =>
    have hle : lpgsize ≤ size := by
      rw [BitVec.le_def, lpgsize_toNat, hsize]
      omega
    have hsub : (size - lpgsize).toNat = turns * 2 ^ 22 := by
      rw [BitVec.toNat_sub_of_le hle, hsize, lpgsize_toNat]
      omega
    have hfirst : InRegion va size.toNat va := by
      unfold InRegion
      omega
    have hzero := hempty va hfirst
    have hdenies : largePde pa perm &&& userWrite ≠ userWrite := largePde_denies hdeny (by omega)
    have hnew := h.largePage hzero (utop_le_pdx hutop) hdenies
    have hroot : ∀ d ≠ pdx va,
        (m.writePte (pd, pdx va) (largePde pa perm)).word pd d = m.word pd d := by
      intro d hd
      rw [writePte_word, if_neg fun heq ↦ hd heq.2]
    have hstep : Memory.mapLargePages pd perm (turns + 1) va size pa m =
        Memory.mapLargePages pd perm turns (va + lpgsize) (size - lpgsize) (pa + lpgsize)
          (m.writePte (pd, pdx va) (largePde pa perm)) := by
      rw [Memory.mapLargePages, if_pos ⟨lpgOff_eq_zero.mpr hva, hle, lpgOff_eq_zero.mpr hpa⟩]
      rfl
    rw [hstep]
    rcases Nat.eq_zero_or_pos turns with rfl | hmore
    · have hdone : size - lpgsize = 0 := BitVec.eq_of_toNat_eq (hsub.trans (Nat.zero_mul _))
      rw [hdone, Memory.mapLargePages]
      exact ⟨_, _, _, rfl, hnew, rfl, fun d hd ↦ hroot d fun heq ↦ hd va hfirst heq.symm⟩
    · have hva₁ : (va + lpgsize).toNat = va.toNat + 2 ^ 22 := by
        rw [BitVec.toNat_add, lpgsize_toNat, Nat.mod_eq_of_lt (by omega)]
      have hpa₁ : (pa + lpgsize).toNat % 2 ^ 22 = 0 := by
        rw [BitVec.toNat_add, lpgsize_toNat]
        omega
      have hutop₁ : utop ≤ va + lpgsize := by
        have hless : utop.toNat ≤ va.toNat := hutop
        rw [BitVec.le_def, hva₁]
        omega
      have hwider : ∀ a, InRegion (va + lpgsize) (size - lpgsize).toNat a →
          InRegion va size.toNat a ∧ pdx a ≠ pdx va := by
        intro a ha
        rw [Ne, pdx_eq_iff]
        unfold InRegion at ha ⊢
        rw [hva₁, hsub] at ha
        omega
      obtain ⟨va', pa', m', hrun, hstocked, hnpages, hroot'⟩ := ih hnew
        (fun a ha ↦ (hroot _ (hwider a ha).2).trans (hempty a (hwider a ha).1)) hutop₁
        (by rw [hva₁]; omega) hpa₁ hsub (by rw [hva₁, hsub]; omega)
      refine ⟨va', pa', m', hrun, hstocked, hnpages, fun d hd ↦ ?_⟩
      calc
        m'.word pd d = (m.writePte (pd, pdx va) (largePde pa perm)).word pd d :=
          hroot' d fun a ha ↦ hd a (hwider a ha).1
        _ = m.word pd d := hroot d fun heq ↦ hd va hfirst heq.symm

end Loops

end Stocked

/-! ## Regions -/

/-- What `boot_map_region` is called with. -/
structure Span where
  va : Word
  size : Word
  pa : Word
  perm : Word

namespace Span

def Covers (s : Span) (a : Word) : Prop := InRegion s.va s.size.toNat a

instance {s : Span} {a : Word} : Decidable (s.Covers a) := inferInstanceAs (Decidable (InRegion ..))

/-- The access of the processor in the region. -/
def access (s : Span) (a : Word) : Access := mappedAccess s.va s.pa s.perm a

/-- A region above `UTOP` that no user program may write. Either it is too small for a large page, or
it consists of them. -/
structure Fit (s : Span) : Prop where
  aligned : s.va.toNat % 4096 = 0 ∧ s.pa.toNat % 4096 = 0 ∧ s.size.toNat % 4096 = 0
  large : s.size.toNat < 2 ^ 22 ∨
    s.va.toNat % 2 ^ 22 = 0 ∧ s.pa.toNat % 2 ^ 22 = 0 ∧ s.size.toNat % 2 ^ 22 = 0
  above : utop ≤ s.va
  inside : s.va.toNat + s.size.toNat ≤ 2 ^ 32
  perm : s.perm.toNat < 4096
  denies : (s.perm ||| pteP) &&& userWrite ≠ userWrite

/-- No byte is in both regions, and no slot of the directory where one of them has large pages. -/
def Apart (s s' : Span) : Prop := ∀ a a', s.Covers a → s'.Covers a' →
  a ≠ a' ∧ (2 ^ 22 ≤ s.size.toNat ∨ 2 ^ 22 ≤ s'.size.toNat → pdx a ≠ pdx a')

/-- Nothing is mapped in the region, and where it has large pages there are no page tables. -/
def Clear (s : Span) (m : Memory) (pd : Ppn) : Prop := ∀ a, s.Covers a →
  m.Vacant pd a ∧ (2 ^ 22 ≤ s.size.toNat → m.word pd (pdx a) = 0)

def map (pse : Bool) (pd : Ppn) (s : Span) (m : Memory) : Except Fault Memory :=
  bootMapRegion pse pd s.va s.size s.pa s.perm m

variable {s s' : Span} {pse : Bool}

/-- The directory after the region is mapped, with the slots that the region leaves alone. -/
theorem stocked (h : m.Stocked pd stock free) (hfit : s.Fit) (hclear : s.Clear m pd)
    (hrun : s.map pse pd m = .ok m') : (∃ free', m'.Stocked pd stock free') ∧ m'.npages = m.npages ∧
      ∀ d, (∀ a, s.Covers a → pdx a ≠ d) → m'.word pd d = m.word pd d := by
  obtain ⟨hva, hpa, hsize⟩ := hfit.aligned
  have hturns : (s.size.toNat + 4095) / 4096 * 4096 = s.size.toNat := by omega
  have hpages : ∀ m', mapPages pd s.perm ((s.size.toNat + 4095) / 4096) s.va s.pa m = .ok m' →
      (∃ free', m'.Stocked pd stock free') ∧ m'.npages = m.npages ∧
        ∀ d, (∀ a, s.Covers a → pdx a ≠ d) → m'.word pd d = m.word pd d := by
    intro m' hpages
    have hresult := h.mapPages hfit.perm hfit.denies ((s.size.toNat + 4095) / 4096)
      (by rw [hturns]; exact fun a ha ↦ (hclear a ha).1) hfit.above hva hpa
      (by rw [hturns]; exact hfit.inside) hpages
    rw [hturns] at hresult
    exact hresult
  cases pse with
  | false => exact hpages m' hrun
  | true =>
    by_cases hsmall : s.size.toNat < 2 ^ 22
    · have hnone : s.size.toNat / lpgsize.toNat = 0 := by
        rw [lpgsize_toNat]
        omega
      apply hpages
      unfold map bootMapRegion at hrun
      rw [if_pos rfl, hnone] at hrun
      exact hrun
    · obtain ⟨hva₂, hpa₂, hsize₂⟩ := hfit.large.resolve_left hsmall
      have hwhole : s.size.toNat = s.size.toNat / lpgsize.toNat * 2 ^ 22 := by
        rw [lpgsize_toNat]
        omega
      obtain ⟨va', pa', m₁, hlarge, hstocked, hnpages, hroot⟩ := h.mapLargePages hfit.denies
        (fun a ha ↦ (hclear a ha).2 (by omega)) hfit.above hva₂ hpa₂ hwhole hfit.inside
      unfold map bootMapRegion at hrun
      rw [if_pos rfl, hlarge] at hrun
      obtain rfl : m₁ = m' := Except.ok.inj hrun
      exact ⟨⟨free, hstocked⟩, hnpages, hroot⟩

/-- What one region adds. -/
theorem map_eq (pse : Bool) (h : m.Stocked pd stock free) (hfit : s.Fit) (hclear : s.Clear m pd) :
    ∃ m' free', s.map pse pd m = .ok m' ∧ m'.Stocked pd stock free' ∧
      m'.kernPgdir = m.kernPgdir ∧ m'.npages = m.npages ∧
      (∀ a, s.Covers a → m'.walk pd a = some (s.access a)) ∧
      (∀ a, ¬ s.Covers a → pdx a ≠ pdx uvpt → m'.walk pd a = m.walk pd a) ∧
      m'.word pd (pdx uvpt) = m.word pd (pdx uvpt) ∧
      ∀ s' : Span, s.Apart s' → s'.Clear m pd → s'.Clear m' pd := by
  obtain ⟨hva, hpa, hsize⟩ := hfit.aligned
  obtain ⟨m', _, hrun, hmaps⟩ := bootMapRegion_maps pse h.directory (fun a ha ↦ (hclear a ha).1) hva
    hpa hsize hfit.perm hfit.inside (h.missing_le_length hfit.above)
  obtain ⟨⟨free', hstocked⟩, hnpages, hroot⟩ := stocked h hfit hclear hrun
  refine ⟨m', free', hrun, hstocked, hmaps.kernPgdir, hnpages, hmaps.inside,
    fun a ha hslot ↦ ?_, ?_, ?_⟩
  · apply hmaps.outside a ha
    rw [h.window]
    exact hslot
  · apply hroot
    intro a ha hslot
    exact (hclear a ha).1.not_window ((h.window _).mpr hslot)
  · intro s' hapart hclear' a ha
    constructor
    · apply hmaps.vacant a _ (hclear' a ha).1
      intro hcovers
      exact (hapart a a hcovers ha).1 rfl
    · intro hlarge
      rw [hroot (pdx a) fun a' ha' ↦ (hapart a' a ha' ha).2 (.inr hlarge)]
      exact (hclear' a ha).2 hlarge

/-- Several regions, one after another. -/
def mapAll (pse : Bool) (pd : Ppn) : List Span → Memory → Except Fault Memory
  | [], m => .ok m
  | s :: spans, m => do
    let m ← s.map pse pd m
    mapAll pse pd spans m

/-- The access that the regions give at an address. -/
def accessOf (spans : List Span) (a : Word) : Option Access :=
  (spans.find? fun s ↦ s.Covers a).map fun s ↦ s.access a

theorem accessOf_of_covers {spans : List Span} (h : s.Covers a) :
    accessOf (s :: spans) a = some (s.access a) := by
  simp [accessOf, h]

theorem accessOf_of_not_covers {spans : List Span} (h : ¬ s.Covers a) :
    accessOf (s :: spans) a = accessOf spans a := by
  simp [accessOf, h]

theorem accessOf_eq_none {spans : List Span} (h : ∀ s ∈ spans, ¬ s.Covers a) :
    accessOf spans a = none := by
  simpa [accessOf] using h

theorem mapAll_eq (pse : Bool) {spans : List Span} (h : m.Stocked pd stock free)
    (hfit : ∀ s ∈ spans, s.Fit) (hapart : spans.Pairwise Apart) (hclear : ∀ s ∈ spans, s.Clear m pd) :
    ∃ m' free', mapAll pse pd spans m = .ok m' ∧ m'.Stocked pd stock free' ∧
      m'.kernPgdir = m.kernPgdir ∧ m'.npages = m.npages ∧
      m'.word pd (pdx uvpt) = m.word pd (pdx uvpt) ∧
      ∀ a, pdx a ≠ pdx uvpt → m'.walk pd a = (accessOf spans a).or (m.walk pd a) := by
  induction spans generalizing m free with
  | nil => exact ⟨m, free, rfl, h, rfl, rfl, rfl, fun _ _ ↦ rfl⟩
  | cons s spans ih =>
    obtain ⟨hfirst, hrest⟩ := List.pairwise_cons.mp hapart
    obtain ⟨m₁, free₁, hrun, hstocked, hdir, hnpages, hinside, houtside, hself, hclear₁⟩ :=
      map_eq pse h (hfit s List.mem_cons_self) (hclear s List.mem_cons_self)
    obtain ⟨m', free', hrun', hstocked', hdir', hnpages', hself', hwalk⟩ := ih hstocked
      (fun s' hs' ↦ hfit s' (List.mem_cons_of_mem s hs')) hrest fun s' hs' ↦
        hclear₁ s' (hfirst s' hs') (hclear s' (List.mem_cons_of_mem s hs'))
    refine ⟨m', free', ?_, hstocked', hdir'.trans hdir, hnpages'.trans hnpages,
      hself'.trans hself, fun a hslot ↦ ?_⟩
    · rw [mapAll, hrun]
      exact hrun'
    · rw [hwalk a hslot]
      by_cases hcovers : s.Covers a
      · have hnone : accessOf spans a = none := accessOf_eq_none fun s' hs' hcovers' ↦
          (hfirst s' hs' a a hcovers hcovers').1 rfl
        rw [hnone, Option.none_or, hinside a hcovers, accessOf_of_covers hcovers, Option.some_or]
      · rw [houtside a hcovers hslot, accessOf_of_not_covers hcovers]

end Span

end Memory

end SistemasOperativos.Jos
