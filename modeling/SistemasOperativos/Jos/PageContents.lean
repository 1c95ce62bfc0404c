import SistemasOperativos.Jos.AddressSpaces

/-!
# The contents of pages

What the functions on pages leave alone: the entries of the directories that they do not work on, and
the contents of the pages that these map. Only a write through an entry that allows it changes a page
that is mapped.
-/

namespace SistemasOperativos.Jos.Memory

open Library Library.Except

variable {frugal : Prop} {m₀ m m₁ m' : Memory} {managed free rest supply : List Ppn}
  {roots : Finset Ppn} {hand : Option Ppn} {own pd pp q table : Ppn} {d t : Slot} {va w perm : Word}
  {r : ℤ} {P Q : Ppn → Prop}

/-- The address space of a directory is as it was: its entries below `UTOP`, and the contents of those
of its pages that are in `P`. -/
structure Spares (m m' : Memory) (own : Ppn) (P : Ppn → Prop) : Prop where
  entries : ∀ r : Ref, r.1 = own → r.2.1 < pdx utop → m'.entry r = m.entry r
  contents : ∀ va, pdx va < pdx utop → m.mapping own va ≠ 0 → P (pgnum (m.mapping own va)) →
    m'.word (pgnum (m.mapping own va)) = m.word (pgnum (m.mapping own va))

namespace Spares

theorem mapping (h : m.Spares m' own P) (hva : pdx va < pdx utop) :
    m'.mapping own va = m.mapping own va :=
  h.entries (own, pdx va, some (ptx va)) rfl hva

theorem refl (m : Memory) (own : Ppn) (P : Ppn → Prop) : m.Spares m own P :=
  ⟨fun _ _ _ ↦ rfl, fun _ _ _ _ ↦ rfl⟩

theorem trans (h : m.Spares m₁ own P) (h' : m₁.Spares m' own P) : m.Spares m' own P where
  entries r hr hlow := (h'.entries r hr hlow).trans (h.entries r hr hlow)
  contents va hva hmapped hmem := by
    have hcontents := h'.contents va hva
    rw [h.mapping hva] at hcontents
    exact (hcontents hmapped hmem).trans (h.contents va hva hmapped hmem)

theorem mono (h : m.Spares m' own P) (hPQ : ∀ q, Q q → P q) : m.Spares m' own Q :=
  ⟨h.entries, fun va hva hmapped hmem ↦ h.contents va hva hmapped (hPQ _ hmem)⟩

end Spares

/-- The directory has an entry for the page that allows writing. -/
def MapsWritable (m : Memory) (pd q : Ppn) : Prop :=
  ∃ va, pdx va < pdx utop ∧ m.mapping pd va &&& pteW ≠ 0 ∧ pgnum (m.mapping pd va) = q

theorem MapsWritable.congr (h : m'.MapsWritable pd q)
    (hmapping : ∀ va, pdx va < pdx utop → m'.mapping pd va = m.mapping pd va) :
    m.MapsWritable pd q := by
  obtain ⟨va, hva, hwrite, hpage⟩ := h
  rw [hmapping va hva] at hwrite hpage
  exact ⟨va, hva, hwrite, hpage⟩

namespace Kept

/-- Pages that are mapped are none of those that the kernel uses for itself. -/
theorem spares (h : Kept frugal m₀ m managed roots free hand) (hown : own ∈ roots)
    (hentry : ∀ r : Ref, r.1 = own → r.2.1 < pdx utop → m'.entry r = m.entry r)
    (hword : ∀ q, Mappable m managed roots free q → m'.word q = m.word q) : m.Spares m' own P :=
  ⟨hentry, fun _ hva hmapped _ ↦ hword _ (h.mappable_mapping hown hva hmapped)⟩

/-! ## Pages from the free list -/

section Taking

variable (h : Kept frugal m₀ m managed roots (pp :: rest) hand) (hp : m₀.Prepared managed)
  (hown : own ∈ roots)

include h in
theorem ne_of_mappable (hq : Mappable m managed roots (pp :: rest) q) : q ≠ pp := by
  rintro rfl
  exact hq.allocated List.mem_cons_self

include h hp hown in
theorem spares_fresh : m.Spares (m.fresh pp) own P := by
  refine h.spares hown (fun r hr hlow ↦ ?_) fun q hq ↦ ?_
  · exact entry_fresh h.exact (h.forest hp) (hr ▸ hown) hlow
  · funext t
    rw [fresh_word, if_neg (h.ne_of_mappable hq)]

include h hp hown in
theorem spares_withTable (hpd : pd ∈ roots) (hd : d < pdx utop) (hempty : m.word pd d = 0)
    (hne : own ≠ pd) : m.Spares (m.withTable pd d pp) own P := by
  refine h.spares hown (fun r hr hlow ↦ ?_) fun q hq ↦ ?_
  · rw [entry_withTable h.exact (h.forest hp) hpd hd hempty (hr ▸ hown) hlow, if_neg]
    rintro rfl
    exact hne hr.symm
  · funext t
    have hroot : ¬ (q = pd ∧ t = d) := fun hhere ↦ hq.root (hhere.1 ▸ hpd)
    rw [withTable_word, if_neg hroot, if_neg (h.ne_of_mappable hq)]

end Taking

/-! ## Removing and inserting -/

section Mapping

variable (h : Kept frugal m₀ m managed roots free hand) (hp : m₀.Prepared managed)
  (hown : own ∈ roots) (hpd : pd ∈ roots) (hne : own ≠ pd) (hva : pdx va < pdx utop)

include hpd hva in
theorem tableOf_ne (htable : m.word pd (pdx va) ≠ 0) (hq : Mappable m managed roots free q) :
    q ≠ m.tableOf pd va := by
  rintro rfl
  exact hq.table _ _ (refers_tableOf hpd hva htable)

include h hp hown hpd hne hva in
theorem spares_removed : m.Spares (m.removed pd va) own P := by
  refine h.spares hown (fun r hr hlow ↦ ?_) fun q hq ↦ ?_
  · rw [removed_entry (h.forest hp) hpd hva (hr ▸ hown) hlow, if_neg]
    rintro rfl
    exact hne hr.symm
  · by_cases hmapped : m.mapping pd va = 0
    · rw [Memory.removed, if_pos hmapped]
    · exact removed_word (tableOf_ne hpd hva (table_of_mapping hmapped) hq)

include h hp hown hpd hne hva in
theorem spares_pageRemove (hcall : m.pageRemove (some pd) va = .ok m') : m.Spares m' own P := by
  rw [pageRemove_eq h.exact hpd hva] at hcall
  obtain rfl := Except.ok.inj hcall
  exact h.spares_removed hp hown hpd hne hva

include h hp hown hpd hne hva in
theorem spares_mapped (htable : m.word pd (pdx va) ≠ 0) :
    m.Spares (m.mapped pd pp va w) own P := by
  refine h.spares hown (fun r hr hlow ↦ ?_) fun q hq ↦ ?_
  · rw [mapped_entry pp (h.forest hp) hpd hva htable (hr ▸ hown) hlow, if_neg]
    rintro rfl
    exact hne hr.symm
  · funext t
    rw [mapped_word, writePte_word, if_neg fun hhere ↦ tableOf_ne hpd hva htable hq hhere.1]

include h hp hown hpd hne hva in
theorem spares_pageInsert (hcall : m.pageInsert (some pd) pp va perm = .ok (r, m')) :
    m.Spares m' own P := by
  by_cases htable : m.word pd (pdx va) = 0
  · cases free with
    | nil =>
      rw [pageInsert_of_full htable h.exact.chain] at hcall
      obtain ⟨-, rfl⟩ := Prod.mk.inj (Except.ok.inj hcall)
      exact .refl m own P
    | cons table rest =>
      rw [pageInsert_of_free h.exact (h.forest hp) hpd hva htable] at hcall
      obtain ⟨-, rfl⟩ := Prod.mk.inj (Except.ok.inj hcall)
      have hpde : (m.withTable pd (pdx va) table).word pd (pdx va) ≠ 0 := by
        rw [withTable_word, if_pos ⟨rfl, rfl⟩]
        exact tablePde_ne_zero table
      exact (h.spares_withTable hp hown hpd hva htable hne).trans
        ((h.withTable hp hpd hva htable).spares_mapped hp hown hpd hne hva hpde)
  · rw [pageInsert_of_table pp perm h.exact hpd hva htable] at hcall
    obtain ⟨-, rfl⟩ := Prod.mk.inj (Except.ok.inj hcall)
    exact h.spares_mapped hp hown hpd hne hva htable

include h hp hpd hva in
/-- `page_insert` writes one entry below `UTOP`, whatever becomes of the counts, or it does nothing. -/
theorem mapping_pageInsert (hcall : m.pageInsert (some pd) pp va perm = .ok (r, m')) :
    m' = m ∨ ∀ pd' ∈ roots, ∀ va', pdx va' < pdx utop → m'.mapping pd' va' =
      if SamePage pd pd' va va' then page2pa pp ||| perm ||| pteP else m.mapping pd' va' := by
  by_cases hroom : m.word pd (pdx va) = 0 ∧ free = []
  · obtain ⟨hempty, rfl⟩ := hroom
    rw [pageInsert_of_full hempty h.exact.chain] at hcall
    obtain ⟨-, rfl⟩ := Prod.mk.inj (Except.ok.inj hcall)
    exact .inl rfl
  · obtain ⟨m₁, free₁, htabled, hreturns⟩ := pageInsert_returns h.exact (h.forest hp) hpd hva
      fun hempty hnone ↦ hroom ⟨hempty, hnone⟩
    rw [hreturns] at hcall
    obtain ⟨-, rfl⟩ := Prod.mk.inj (Except.ok.inj hcall)
    refine .inr fun pd' hpd' va' hva' ↦ ?_
    have hentry := mapped_entry pp (w := page2pa pp ||| perm ||| pteP)
      (r := (pd', pdx va', some (ptx va'))) htabled.forest hpd hva htabled.table hpd' hva'
    change Memory.mapping _ pd' va' = _ at hentry
    rw [hentry]
    by_cases hhere : SamePage pd pd' va va'
    · rw [if_pos hhere, if_pos (by rw [hhere.1, hhere.2.1, hhere.2.2])]
    · rw [if_neg hhere, if_neg fun heq ↦ hhere (by simpa [SamePage] using heq)]
      exact htabled.mapping pd' hpd' va' hva'

end Mapping

/-! ## Making and giving up an address space -/

theorem spares_envSetupVm (h : Kept frugal m₀ m managed roots free none) (hp : m₀.Prepared managed)
    (hown : own ∈ roots) (hcall : Kernel.envSetupVm m = .ok (some pd, m')) : m.Spares m' own P := by
  obtain ⟨-, -, -, hentry⟩ := h.envSetupVm hp hcall
  refine h.spares hown (fun r hr hlow ↦ hentry r (hr ▸ hown) hlow) fun q hq ↦ ?_
  unfold Kernel.envSetupVm at hcall
  obtain ⟨⟨page, m₁⟩, halloc, hcall⟩ := bind_ok.mp hcall
  cases page with
  | none => simp [pure_ok] at hcall
  | some p =>
    obtain ⟨hpd, hm'⟩ := Prod.mk.inj (pure_ok.mp hcall)
    obtain rfl := Option.some.inj hpd
    obtain ⟨hhead, rfl⟩ := pageAlloc_zeroed halloc
    obtain ⟨rest, rfl⟩ := h.exact.free_of_pageFreeList hhead
    have hm' : m' = (m.fresh p).withDirectory p := hm'.symm
    funext t
    rw [hm', withDirectory_word, if_neg (h.ne_of_mappable hq), fresh_word,
      if_neg (h.ne_of_mappable hq)]

section Unmap

variable (hp : m₀.Prepared managed) (hown : own ∈ roots) (hpd : pd ∈ roots) (hne : own ≠ pd)

include hp hown hpd hne in
theorem spares_unmapTable {turns pteno : ℕ} (h : Kept frugal m₀ m managed roots free none)
    (hd : d < pdx utop) (hpde : m.word pd d ≠ 0)
    (hcall : Jos.unmapTable (some pd) (pgnum (m.word pd d)) d pteno turns m = .ok m') :
    m.Spares m' own P := by
  induction turns generalizing m free pteno with
  | zero =>
    obtain rfl := Except.ok.inj hcall
    exact .refl m own P
  | succ turns ih =>
    rw [unmapTable_succ] at hcall
    obtain ⟨m₁, hturn, hrest⟩ := bind_ok.mp hcall
    obtain ⟨⟨free₁, h₁⟩, hentry⟩ := h.unmapTurn hp hpd hd hpde hturn
    have hroot : m₁.word pd d = m.word pd d := (hentry (pd, d, none) hpd hd).trans (if_neg (by simp))
    have hfirst : m.Spares m₁ own P := by
      split at hturn
      · refine h.spares_pageRemove hp hown hpd hne ?_ hturn
        rw [pdx_pgaddr]
        exact hd
      · obtain rfl := pure_ok.mp hturn
        exact .refl m own P
    rw [← hroot] at hpde hrest
    exact hfirst.trans (ih h₁ hpde hrest)

include hown hpd hne in
/-- The page table of another directory is dropped. -/
theorem spares_dropTable (h : Kept frugal m₀ m managed roots free none) (hd : d < pdx utop)
    (hpde : m.word pd d ≠ 0) (hempty : ∀ t, m.entry (pd, d, some t) = 0)
    (hcall : (m.writePte (pd, d) 0).pageDecref (pgnum (m.word pd d)) = .ok m') :
    m.Spares m' own P := by
  obtain ⟨-, hentry⟩ := h.dropTable hpd hd hpde hempty hcall
  refine h.spares hown (fun r hr hlow ↦ ?_) fun q hq ↦ ?_
  · rw [hentry r (hr ▸ hown) hlow, if_neg]
    rintro rfl
    exact hne hr.symm
  · have hunlinked : ((m.writePte (pd, d) 0).pages (pgnum (m.word pd d))).ppLink = none :=
      h.exact.unlinked _ (h.exact.not_free_of_refers (refers_table hpd hd hpde))
    rw [pageDecref_eq hunlinked] at hcall
    obtain rfl := Except.ok.inj hcall
    funext t
    have hroot : ¬ (q = pd ∧ t = d) := fun hhere ↦ hq.root (hhere.1 ▸ hpd)
    rw [release_word, writePte_word, if_neg hroot]

include hp hown hpd hne in
theorem spares_unmapDirEntry (h : Kept frugal m₀ m managed roots free none) (hd : d < pdx utop)
    (hcall : Jos.unmapDirEntry pd d m = .ok m') : m.Spares m' own P := by
  unfold Jos.unmapDirEntry at hcall
  simp only at hcall
  split at hcall
  · obtain rfl := pure_ok.mp hcall
    exact .refl m own P
  · rename_i hpresent
    have hpde : m.word pd d ≠ 0 := by
      intro hzero
      refine hpresent ?_
      change m.word pd d &&& pteP = 0
      rw [hzero]
      decide
    obtain ⟨table, htable, hcall⟩ := bind_ok.mp hcall
    obtain ⟨m₁, hunmap, hdrop⟩ := bind_ok.mp hcall
    have hpage : table = pgnum (m.word pd d) := by
      unfold kaddr at htable
      split at htable
      · exact (Except.ok.inj htable).symm
      · cases htable
    subst hpage
    have hfirst := spares_unmapTable (P := P) hp hown hpd hne h hd hpde hunmap
    obtain ⟨⟨free₁, h₁⟩, hcleared⟩ := h.unmapTable hp hpd hd hpde (by omega)
      (fun t ht ↦ absurd ht (Nat.not_lt_zero _)) hunmap
    have hroot : m₁.word pd d = m.word pd d :=
      hcleared.kept (pd, d, none) hpd hd fun hhere ↦ hhere.2.2 rfl
    rw [← hroot] at hpde hdrop
    exact hfirst.trans (spares_dropTable hown hpd hne h₁ hd hpde hcleared.cleared hdrop)

include hp hown hpd hne in
theorem spares_unmapDir {turns pdeno : ℕ} (h : Kept frugal m₀ m managed roots free none)
    (hturns : pdeno + turns = (pdx utop).toNat)
    (hcall : Jos.unmapDir pd pdeno turns m = .ok m') : m.Spares m' own P := by
  induction turns generalizing m free pdeno with
  | zero =>
    obtain rfl := Except.ok.inj hcall
    exact .refl m own P
  | succ turns ih =>
    rw [Jos.unmapDir] at hcall
    obtain ⟨m₁, hturn, hrest⟩ := bind_ok.mp hcall
    have hd : BitVec.ofNat 10 pdeno < pdx utop := by
      rw [BitVec.lt_def, BitVec.toNat_ofNat]
      have hslots : (pdx utop).toNat = 955 := by decide
      omega
    obtain ⟨⟨free₁, h₁⟩, -⟩ := h.unmapDirEntry hp hpd hd hturn
    exact (spares_unmapDirEntry hp hown hpd hne h hd hturn).trans (ih h₁ (by omega) hrest)

end Unmap

/-! ## Writing -/

section Storing

variable {cr3 : Ppn} {need : Word} {b : BitVec 8}

/-- A write that reaches a page goes through an entry that allows it. -/
theorem writable_of_translate (hneed : need &&& pteW = pteW) (hva : pdx va < pdx utop)
    (h : m.translate cr3 need va = some pp) : m.MapsWritable cr3 pp := by
  have hsome : need ≠ 0 := by
    rintro rfl
    exact absurd hneed (by decide)
  obtain ⟨hpde, hpte, hpage⟩ := translate_some h
  rw [← mapping_of_table (ne_zero_of_bits hsome hpde)] at hpte hpage
  refine ⟨va, hva, ?_, hpage⟩
  rw [bits_of_bits hneed hpte]
  decide

/-- A write to another address space, or to a page that is not in `P`. -/
theorem spares_storeByte (h : Kept frugal m₀ m managed roots free hand) (hcr3 : cr3 ∈ roots)
    (hown : own ∈ roots) (hneed : need &&& pteW = pteW) (hP : ∀ q, P q → ¬ m.MapsWritable cr3 q)
    (hva : pdx va < pdx utop) (hcall : m.storeByte cr3 need va b = .ok m') : m.Spares m' own P := by
  have hsome : need ≠ 0 := by
    rintro rfl
    exact absurd hneed (by decide)
  obtain ⟨-, hentry⟩ := h.storeByte_mapped hcr3 hsome hva hcall
  refine ⟨fun r hr hlow ↦ hentry r (hr ▸ hown) hlow, fun va' _ _ hmem ↦ ?_⟩
  unfold Memory.storeByte at hcall
  split at hcall
  · cases hcall
  · rename_i pp htranslate
    obtain rfl := Except.ok.inj hcall
    have hne : pgnum (m.mapping own va') ≠ pp := by
      rintro rfl
      exact hP _ hmem (writable_of_translate hneed hva htranslate)
    funext t
    rw [writePte_word, if_neg fun hhere ↦ hne hhere.1]

theorem spares_userStore (h : Kept frugal m₀ m managed roots free hand) (hp : m₀.Prepared managed)
    (hcr3 : cr3 ∈ roots) (hown : own ∈ roots) (hP : ∀ q, P q → ¬ m.MapsWritable cr3 q)
    (hcall : m.storeByte cr3 userWrite va b = .ok m') : m.Spares m' own P := by
  by_cases hva : pdx va < pdx utop
  · exact h.spares_storeByte hcr3 hown (by decide) hP hva hcall
  · unfold Memory.storeByte at hcall
    rw [h.translate_above hp hcr3 (BitVec.not_lt.mp hva)] at hcall
    cases hcall

theorem spares_writes (h : Kept frugal m₀ m managed roots free hand) (hp : m₀.Prepared managed)
    (hcr3 : cr3 ∈ roots ∨ cr3 = m₀.kernPgdir) (hown : own ∈ roots)
    (hP : cr3 ∈ roots → ∀ q, P q → ¬ m.MapsWritable cr3 q) (hwrites : m.Writes cr3 kernelWrite m') :
    m.Spares m' own P := by
  induction hwrites with
  | nil m => exact .refl m own P
  | @cons m m₁ _ va _ hva hstore _ ih =>
    have hlow := pdx_lt_utop hva
    rcases hcr3 with hroot | hkern
    · obtain ⟨h₁, hentry⟩ := h.storeByte_mapped hroot kernelWrite_ne_zero hlow hstore
      have hmapping : ∀ va', pdx va' < pdx utop → m₁.mapping cr3 va' = m.mapping cr3 va' :=
        fun va' hva' ↦ hentry (cr3, pdx va', some (ptx va')) hroot hva'
      exact (h.spares_storeByte hroot hown (by decide) (hP hroot) hlow hstore).trans
        (ih h₁ fun _ q hmem hwrite ↦ hP hroot q hmem (hwrite.congr hmapping))
    · exact absurd hstore (h.storeByte_kernel hp hkern kernelWrite_ne_zero hlow)

end Storing

/-! ## Loading a program -/

section Loading

variable (hp : m₀.Prepared managed) (hpd : pd ∈ roots) (hown : own ∈ roots) (hne : own ≠ pd)

theorem mem_of_writable (hsupply : Supplied m pd free supply) (h : m.MapsWritable pd q) :
    q ∈ supply := by
  obtain ⟨va, hva, hwrite, rfl⟩ := h
  refine hsupply.mapped va hva fun hzero ↦ hwrite ?_
  rw [hzero]
  exact BitVec.zero_and

include hp hpd hown hne in
theorem spares_regionAllocFrom {turns : ℕ} (h : Kept frugal m₀ m managed roots free none)
    (hsupply : Supplied m pd free supply)
    (hva : turns ≠ 0 → va.toNat + turns * 4096 ≤ utop.toNat)
    (hcall : Jos.regionAllocFrom pd va turns m = .ok m') : m.Spares m' own P := by
  have hutop : utop.toNat = 0xeec00000 := rfl
  induction turns generalizing m va free with
  | zero =>
    obtain rfl := Except.ok.inj hcall
    exact .refl m own P
  | succ turns ih =>
    rw [Jos.regionAllocFrom] at hcall
    have hbound := hva (Nat.succ_ne_zero turns)
    obtain ⟨⟨page, m₁⟩, halloc, hinserts⟩ := bind_ok.mp hcall
    cases page with
    | none => exact (throw_ok.mp hinserts).elim
    | some p =>
      obtain ⟨⟨res, m₂⟩, hinsert, hrest⟩ := bind_ok.mp hinserts
      simp only at hrest
      split at hrest
      · obtain ⟨_, hthrow, -⟩ := bind_ok.mp hrest
        exact (throw_ok.mp hthrow).elim
      · rename_i hres
        have hlow : va < utop := BitVec.lt_def.mpr (by omega)
        have hturn := h.allocate hp hpd hsupply hlow halloc hinsert (not_not.mp hres)
        obtain ⟨free₂, h₂, hsupply₂⟩ := hturn.kept
        obtain ⟨hhead, rfl⟩ := pageAlloc_some halloc
        obtain ⟨rest, rfl⟩ := h.exact.free_of_pageFreeList hhead
        have htake : m.Spares (m.take p) own P :=
          h.spares hown (fun _ _ _ ↦ congrFun (entry_of_word rfl) _) fun _ _ ↦ rfl
        have hplace := (h.take hp).spares_pageInsert (P := P) hp hown hpd hne (pdx_lt_utop hlow)
          hinsert
        refine (htake.trans hplace).trans (ih h₂ hsupply₂ (fun hturns ↦ ?_) hrest)
        have hsize : pgsize.toNat = 4096 := rfl
        rw [BitVec.toNat_add, hsize]
        omega

include hp hpd hown hne in
theorem spares_regionAlloc {len : Word} (h : Kept frugal m₀ m managed roots free none)
    (hsupply : Supplied m pd free supply) (hcall : Jos.regionAlloc pd va len m = .ok m') :
    m.Spares m' own P := by
  unfold Jos.regionAlloc at hcall
  simp only at hcall
  split at hcall
  · cases hcall
  · rename_i hhigh
    rw [BitVec.not_lt, BitVec.le_def] at hhigh
    have hsize : pgsize.toNat = 4096 := rfl
    refine spares_regionAllocFrom hp hpd hown hne h hsupply (fun hturns ↦ ?_) hcall
    rw [hsize] at hturns ⊢
    omega

include hp hpd hown in
/-- A program is copied into pages of its own. -/
theorem spares_storeBytes {bs : List (BitVec 8)} (h : Kept frugal m₀ m managed roots free none)
    (hsupply : Supplied m pd free supply) (hva : va.toNat + bs.length ≤ utop.toNat)
    (hcall : m.storeBytes pd va bs = .ok m') : m.Spares m' own (· ∉ supply) :=
  h.spares_writes hp (.inl hpd) hown
    (fun _ _ hmem hwrite ↦ hmem (mem_of_writable hsupply hwrite)) (storeBytes_writes hcall hva)

include hp hpd hown hne in
theorem spares_loadSegment {ph : Proghdr} (h : Kept frugal m₀ m managed roots free none)
    (hsupply : Supplied m pd free supply) (hlinked : ph.pType = elfProgLoad →
      ph.pVa.toNat + ph.pMemsz.toNat ≤ utop.toNat ∧ ph.bytes.length ≤ ph.pMemsz.toNat)
    (hcall : Jos.loadSegment pd ph m = .ok m') : m.Spares m' own (· ∉ supply) := by
  unfold Jos.loadSegment at hcall
  split at hcall
  · obtain rfl := pure_ok.mp hcall
    exact .refl m own _
  · rename_i htype
    obtain ⟨hmem, hfile⟩ := hlinked (not_not.mp htype)
    obtain ⟨m₁, halloc, hcall⟩ := bind_ok.mp hcall
    obtain ⟨m₂, hzero, hcopy⟩ := bind_ok.mp hcall
    have hroom : ph.pVa.toNat + (List.replicate ph.pMemsz.toNat (0 : BitVec 8)).length ≤
        utop.toNat := by
      rw [List.length_replicate]
      exact hmem
    obtain ⟨free₁, h₁, hsupply₁⟩ := (h.regionAlloc hp hpd hsupply halloc).kept
    obtain ⟨free₂, h₂, hsupply₂⟩ := (h₁.storeBytes hp hpd hsupply₁ hroom hzero).kept
    have hregion := spares_regionAlloc (P := (· ∉ supply)) hp hpd hown hne h hsupply halloc
    have hcleared := spares_storeBytes hp hpd hown h₁ hsupply₁ hroom hzero
    exact (hregion.trans hcleared).trans
      (spares_storeBytes hp hpd hown h₂ hsupply₂ (by omega) hcopy)

include hp hpd hown hne in
theorem spares_loadSegments {phs : List Proghdr} (h : Kept frugal m₀ m managed roots free none)
    (hsupply : Supplied m pd free supply) (hlinked : ∀ ph ∈ phs, ph.pType = elfProgLoad →
      ph.pVa.toNat + ph.pMemsz.toNat ≤ utop.toNat ∧ ph.bytes.length ≤ ph.pMemsz.toNat)
    (hcall : Jos.loadSegments pd phs m = .ok m') : m.Spares m' own (· ∉ supply) := by
  induction phs generalizing m free with
  | nil =>
    obtain rfl := Except.ok.inj hcall
    exact .refl m own _
  | cons ph phs ih =>
    obtain ⟨m₁, hfirst, hrest⟩ := bind_ok.mp hcall
    obtain ⟨free₁, h₁, hsupply₁⟩ :=
      (h.loadSegment hp hpd hsupply (hlinked ph List.mem_cons_self) hfirst).kept
    exact (spares_loadSegment hp hpd hown hne h hsupply (hlinked ph List.mem_cons_self) hfirst).trans
      (ih h₁ hsupply₁ (fun ph' hph' ↦ hlinked ph' (List.mem_cons_of_mem _ hph')) hrest)

end Loading

end Kept

end SistemasOperativos.Jos.Memory
