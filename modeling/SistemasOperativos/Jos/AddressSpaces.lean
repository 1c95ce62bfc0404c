import SistemasOperativos.Jos.Decomposition
import SistemasOperativos.Jos.Layout

/-!
# Address spaces

What happens to the layout of memory when an address space is made, loaded and given up, and when a
program or the kernel writes to the pages of one.
-/

namespace SistemasOperativos.Jos

open Library Library.Except

@[simp] theorem pdx_pgaddr (d t : Slot) : pdx (pgaddr d t) = d := by
  apply BitVec.eq_of_getLsbD_eq
  intro i hi
  simp only [pdx, pgaddr, BitVec.getLsbD_extractLsb', BitVec.getLsbD_append]
  have hlow : ¬ 22 + i < 12 := by omega
  have hmid : ¬ 22 + i - 12 < 10 := by omega
  have hsub : 22 + i - 12 - 10 = i := by omega
  simp [hi, hlow, hmid, hsub]

@[simp] theorem ptx_pgaddr (d t : Slot) : ptx (pgaddr d t) = t := by
  apply BitVec.eq_of_getLsbD_eq
  intro i hi
  simp only [ptx, pgaddr, BitVec.getLsbD_extractLsb', BitVec.getLsbD_append]
  have hlow : ¬ 12 + i < 12 := by omega
  have hsub : 12 + i - 12 = i := by omega
  simp [hi, hlow, hsub]

namespace Memory

variable {frugal : Prop} {m₀ m m' : Memory} {managed free rest supply : List Ppn} {roots : Finset Ppn}
  {hand : Option Ppn} {pd pp q table : Ppn} {d t : Slot} {va w perm : Word} {r : Ref}

theorem kernPgdir_not_root (h : Kept frugal m₀ m managed roots free hand)
    (hp : m₀.Prepared managed) :
    m.kernPgdir ∉ roots := by
  rw [h.kernPgdir]
  exact fun hroot ↦ hp.kernPgdir (h.layout.directories _ hroot)

/-! ## A new page directory -/

/-- The memory after the page in hand has become a page directory. -/
def withDirectory (m : Memory) (pd : Ppn) : Memory :=
  ({ m with word := Function.update m.word pd (m.word m.kernPgdir) }.incref pd).writePte
    (pd, pdx uvpt) (uvptPde pd)

theorem withDirectory_word (m : Memory) (pd page : Ppn) (t : Slot) :
    (m.withDirectory pd).word page t =
      if page = pd then if t = pdx uvpt then uvptPde pd else m.word m.kernPgdir t
      else m.word page t := by
  rw [withDirectory, writePte_word]
  change (if page = pd ∧ t = pdx uvpt then uvptPde pd
    else Function.update m.word pd (m.word m.kernPgdir) page t) = _
  rw [Function.update_apply]
  by_cases hpage : page = pd
  · rw [if_pos hpage, if_pos hpage]
    simp [hpage]
  · rw [if_neg hpage, if_neg hpage, if_neg fun h ↦ hpage h.1]

theorem withDirectory_pages (m : Memory) (pd p : Ppn) : (m.withDirectory pd).pages p =
    if p = pd then { m.pages pd with ppRef := (m.pages pd).ppRef + 1 } else m.pages p :=
  incref_pages ..

section Directory

variable (h : Kept frugal m₀ m managed roots free (some pd)) (hp : m₀.Prepared managed)

include h hp in
/-- The new directory is empty below `UTOP`, and the others keep their entries. -/
theorem withDirectory_entry (hr : r.1 ∈ insert pd roots) (hlow : r.2.1 < pdx utop) :
    (m.withDirectory pd).entry r = if r.1 = pd then 0 else m.entry r := by
  obtain ⟨pd', d, t⟩ := r
  have hempty : (m.withDirectory pd).word pd d = 0 := by
    have huvpt : d ≠ pdx uvpt := by
      rintro rfl
      have hhigh : ¬ pdx uvpt < pdx utop := by decide
      exact hhigh hlow
    rw [withDirectory_word, if_pos rfl, if_neg huvpt, h.kernPgdir, h.layout.reserved _ hp.kernPgdir]
    exact hp.below d hlow
  by_cases hsame : pd' = pd
  · subst hsame
    rw [if_pos rfl]
    cases t with
    | none => exact hempty
    | some t => exact if_pos hempty
  · have hroot : pd' ∈ roots := (Finset.mem_insert.mp hr).resolve_left hsame
    rw [if_neg hsame]
    have hkept : ∀ q, q ∈ roots ∨ (∃ pd d, m.refers roots (pd, d, none) = some q) →
        (m.withDirectory pd).word q = m.word q := by
      intro q hq
      have hne : q ≠ pd := by
        rintro rfl
        rcases hq with hq | ⟨pd', d', htable⟩
        · exact h.hand_unused.1 hq
        · exact h.hand_unused.2 _ htable
      funext t
      rw [withDirectory_word, if_neg hne]
    exact entry_of_contents hkept hroot hlow

include h hp in
theorem withDirectory_refers :
    (m.withDirectory pd).refers (insert pd roots) = m.refers roots := by
  funext r
  unfold refers
  by_cases hr : r.1 ∈ insert pd roots ∧ r.2.1 < pdx utop
  · rw [withDirectory_entry h hp hr.1 hr.2]
    by_cases hsame : r.1 = pd
    · have hnot : r.1 ∉ roots := by
        rw [hsame]
        exact h.hand_unused.1
      rw [if_pos hsame, if_neg fun hall ↦ hall.2.2 rfl, if_neg fun hall ↦ hnot hall.1]
    · have hroot : r.1 ∈ roots := (Finset.mem_insert.mp hr.1).resolve_left hsame
      simp only [if_neg hsame, hr, hroot, true_and]
  · rw [if_neg fun h ↦ hr ⟨h.1, h.2.1⟩,
      if_neg fun h ↦ hr ⟨Finset.mem_insert_of_mem h.1, h.2.1⟩]

theorem held_insert (hroot : pd ∉ roots) (p : Ppn) :
    held m₀ (insert pd roots) p = held m₀ roots p + if p = pd then 1 else 0 := by
  unfold held
  by_cases hsame : p = pd
  · subst hsame
    simp [hroot]
  · simp [hsame]

include h hp in
theorem Kept.withDirectory :
    Kept frugal m₀ (m.withDirectory pd) managed (insert pd roots) free none := by
  obtain ⟨hmanaged, hfree, hzero⟩ := h.taken pd rfl
  have hrefers := withDirectory_refers h hp
  constructor
  · constructor
    · exact h.exact.chain.congr fun p _ ↦ incref_ppLink p
    · intro p hmem
      rw [withDirectory_pages]
      split
      · exact h.exact.unlinked pd hfree
      · exact h.exact.unlinked p hmem
    · exact h.exact.bound
    · intro p
      have hcount := h.exact.count p
      rw [hrefers, held_insert h.hand_unused.1, withDirectory_pages]
      by_cases hsame : p = pd
      · subst hsame
        have hone : ((0 : BitVec 16) + 1).toNat = 1 := rfl
        have hnil : (0 : BitVec 16).toNat = 0 := rfl
        rw [if_pos rfl, if_pos rfl, hzero, hone]
        rw [hzero, hnil] at hcount
        omega
      · rw [if_neg hsame, if_neg hsame]
        omega
    · intro p hmem
      have hne : p ≠ pd := by
        rintro rfl
        exact hfree hmem
      rw [withDirectory_pages, if_neg hne]
      exact h.exact.unused p hmem
    · rw [hrefers]
      exact h.exact.target
  · constructor
    · intro pd' hpd'
      rcases Finset.mem_insert.mp hpd' with rfl | hpd'
      · exact hmanaged
      · exact h.layout.directories pd' hpd'
    · intro r q hr
      rw [hrefers] at hr
      refine ⟨(h.layout.target r q hr).1, fun hroot ↦ ?_⟩
      rcases Finset.mem_insert.mp hroot with rfl | hroot
      · exact h.hand_unused.2 r hr
      · exact (h.layout.target r q hr).2 hroot
    · intro r q hr
      obtain ⟨hroot, hlow, hne, -⟩ := refers_some hr
      rw [hrefers] at hr
      rw [withDirectory_entry h hp hroot hlow] at hne ⊢
      split at hne
      · exact absurd rfl hne
      · rename_i hsame
        rw [if_neg hsame]
        exact h.layout.present r q hr
    · rw [hrefers]
      exact h.layout.data
    · rw [hrefers]
      exact h.layout.table
    · intro pd' hpd' d hd
      rw [withDirectory_word]
      rcases Finset.mem_insert.mp hpd' with rfl | hroot
      · rw [if_pos rfl, h.kernPgdir, h.layout.reserved _ hp.kernPgdir]
      · have hne : pd' ≠ pd := by
          rintro rfl
          exact h.hand_unused.1 hroot
        rw [if_neg hne]
        exact h.layout.upper pd' hroot d hd
    · intro p hpm
      have hne : p ≠ pd := by
        rintro rfl
        exact hpm hmanaged
      rw [← h.layout.reserved p hpm]
      funext t
      rw [withDirectory_word, if_neg hne]
  · exact h.list
  · intro p hmem
    cases hmem
  · intro hfrugal p hpm hmem _
    rw [withDirectory_pages]
    by_cases hsame : p = pd
    · have hone : (0 : BitVec 16) + 1 ≠ 0 := by decide
      rw [if_pos hsame, hzero]
      exact hone
    · rw [if_neg hsame]
      exact h.owned hfrugal p hpm hmem fun heq ↦ hsame (Option.some.inj heq).symm
  · exact h.kernPgdir
  · exact h.npages

end Directory

/-- A call of `env_setup_vm` that finds a page. -/
theorem Kept.envSetupVm (h : Kept frugal m₀ m managed roots free none) (hp : m₀.Prepared managed)
    (hcall : Kernel.envSetupVm m = .ok (some pd, m')) :
    pd ∉ roots ∧ (∃ free', Kept frugal m₀ m' managed (insert pd roots) free' none ∧
        ∀ p ∈ free', p ∈ free) ∧
      (∀ r : Ref, r.1 = pd → r.2.1 < pdx utop → m'.entry r = 0) ∧
      ∀ r : Ref, r.1 ∈ roots → r.2.1 < pdx utop → m'.entry r = m.entry r := by
  unfold Kernel.envSetupVm at hcall
  obtain ⟨⟨page, m₁⟩, halloc, hcall⟩ := bind_ok.mp hcall
  cases page with
  | none => simp [pure_ok] at hcall
  | some p =>
    obtain ⟨hpd, hm'⟩ := Prod.mk.inj (pure_ok.mp hcall)
    obtain rfl := Option.some.inj hpd
    obtain ⟨hhead, rfl⟩ := pageAlloc_zeroed halloc
    obtain ⟨rest, rfl⟩ := h.exact.free_of_pageFreeList hhead
    have hfresh := h.fresh hp
    have hm' : m' = (m.fresh p).withDirectory p := hm'.symm
    rw [hm']
    refine ⟨hfresh.hand_unused.1, 
      ⟨rest, hfresh.withDirectory hp, fun q hq ↦ List.mem_cons_of_mem p hq⟩,
      fun r hr hlow ↦ ?_, fun r hr hlow ↦ ?_⟩
    · have hmem : r.1 ∈ insert p roots := by
        rw [hr]
        exact Finset.mem_insert_self p roots
      rw [withDirectory_entry hfresh hp hmem hlow, if_pos hr]
    have hne : r.1 ≠ p := by
      intro heq
      exact hfresh.hand_unused.1 (heq ▸ hr)
    rw [withDirectory_entry hfresh hp (Finset.mem_insert_of_mem hr) hlow, if_neg hne]
    exact entry_fresh h.exact (h.forest hp) hr hlow

/-! ## Giving up an address space -/

theorem mem_freeAfter {p : Ppn} :
    p ∈ m.freeAfter q free ↔ p ∈ free ∨ p = q ∧ (m.pages q).ppRef = 1 := by
  unfold freeAfter
  split
  · rename_i hone
    rw [List.mem_cons, or_comm]
    simp [hone]
  · rename_i hone
    refine ⟨.inl, fun h ↦ h.resolve_right ?_⟩
    exact fun hlast ↦ hone hlast.2

theorem release_count (p : Ppn) : ((m.release q).pages p).ppRef =
    if p = q then (m.pages q).ppRef - 1 else (m.pages p).ppRef := by
  split
  · rename_i hsame
    rw [hsame, release_ppRef]
  · rename_i hsame
    rw [release_pages_of_ne hsame]

/-- An entry without the bit `PTE_P` is empty. -/
theorem Layout.entry_of_absent (h : Layout m₀ m managed roots) (hr : r.1 ∈ roots)
    (hlow : r.2.1 < pdx utop) (habsent : m.entry r &&& pteP = 0) : m.entry r = 0 := by
  by_contra hne
  exact h.present r _ (if_pos ⟨hr, hlow, hne⟩) habsent

theorem unmapTable_succ (pgdir : Option Ppn) (table : Ppn) (pteno turns : ℕ) :
    unmapTable pgdir table d pteno (turns + 1) m =
      (if m.readPte (table, BitVec.ofNat 10 pteno) &&& pteP ≠ 0 then
        m.pageRemove pgdir (pgaddr d (BitVec.ofNat 10 pteno)) else pure m) >>=
          unmapTable pgdir table d (pteno + 1) turns := by
  rw [unmapTable]
  split <;> rfl

section Unmap

variable (hp : m₀.Prepared managed) (hpd : pd ∈ roots) (hd : d < pdx utop)

include hp hpd hd in
/-- One turn of the loop over a page table. -/
theorem Kept.unmapTurn (h : Kept frugal m₀ m managed roots free none) (hpde : m.word pd d ≠ 0)
    (hcall : (if m.readPte (pgnum (m.word pd d), t) &&& pteP ≠ 0 then
        m.pageRemove (some pd) (pgaddr d t) else pure m) = .ok m') :
    (∃ free', Kept frugal m₀ m' managed roots free' none) ∧
      ∀ r : Ref, r.1 ∈ roots → r.2.1 < pdx utop →
        m'.entry r = if r = (pd, d, some t) then 0 else m.entry r := by
  split at hcall
  · have hlow : pdx (pgaddr d t) < pdx utop := by
      rw [pdx_pgaddr]
      exact hd
    have hremove := h.pageRemove hp hpd hlow hcall
    rw [pdx_pgaddr, ptx_pgaddr] at hremove
    exact hremove
  · rename_i habsent
    obtain rfl := pure_ok.mp hcall
    have hentry : m.entry (pd, d, some t) = m.readPte (pgnum (m.word pd d), t) := if_neg hpde
    have hzero := h.layout.entry_of_absent (r := (pd, d, some t)) hpd hd
      (by rw [hentry]; exact not_not.mp habsent)
    refine ⟨⟨free, h⟩, fun r hr hlow ↦ ?_⟩
    split
    · rename_i hhere
      rw [hhere, hzero]
    · rfl

/-- The entries of a page table are cleared, and no others. -/
structure Cleared (m m' : Memory) (roots : Finset Ppn) (pd : Ppn) (d : Slot) : Prop where
  cleared : ∀ t, m'.entry (pd, d, some t) = 0
  kept : ∀ r : Ref, r.1 ∈ roots → r.2.1 < pdx utop →
    ¬ (r.1 = pd ∧ r.2.1 = d ∧ r.2.2 ≠ none) → m'.entry r = m.entry r

include hp hpd hd in
theorem Kept.unmapTable {turns pteno : ℕ} (h : Kept frugal m₀ m managed roots free none)
    (hpde : m.word pd d ≠ 0) (hturns : pteno + turns = 1024)
    (hdone : ∀ t : Slot, t.toNat < pteno → m.entry (pd, d, some t) = 0)
    (hcall : unmapTable (some pd) (pgnum (m.word pd d)) d pteno turns m = .ok m') :
    (∃ free', Kept frugal m₀ m' managed roots free' none) ∧ m.Cleared m' roots pd d := by
  induction turns generalizing m free pteno with
  | zero =>
    obtain rfl := Except.ok.inj hcall
    refine ⟨⟨free, h⟩, fun t ↦ hdone t ?_, fun r _ _ _ ↦ rfl⟩
    have ht := t.isLt
    omega
  | succ turns ih =>
    rw [unmapTable_succ] at hcall
    obtain ⟨m₁, hturn, hrest⟩ := bind_ok.mp hcall
    obtain ⟨⟨free₁, h₁⟩, hentry⟩ := h.unmapTurn hp hpd hd hpde hturn
    have hroot : m₁.word pd d = m.word pd d := (hentry (pd, d, none) hpd hd).trans (if_neg (by simp))
    rw [← hroot] at hpde hrest
    have hdone₁ : ∀ t : Slot, t.toNat < pteno + 1 → m₁.entry (pd, d, some t) = 0 := by
      intro t ht
      rw [hentry (pd, d, some t) hpd hd]
      split
      · rfl
      · rename_i hother
        refine hdone t ?_
        have hne : t ≠ BitVec.ofNat 10 pteno := fun heq ↦ hother (by rw [heq])
        have htoNat : (BitVec.ofNat 10 pteno).toNat = pteno := by
          rw [BitVec.toNat_ofNat]
          omega
        have hne' : t.toNat ≠ pteno := fun heq ↦ hne (BitVec.eq_of_toNat_eq (by omega))
        omega
    obtain ⟨hkept, hcleared⟩ := ih h₁ hpde (by omega) hdone₁ hrest
    refine ⟨hkept, hcleared.cleared, fun r hr hlow hother ↦ ?_⟩
    rw [hcleared.kept r hr hlow hother, hentry r hr hlow, if_neg]
    rintro rfl
    exact hother ⟨rfl, rfl, by simp⟩

end Unmap

theorem writePte_release (m : Memory) (pte : PtePtr) (w : Word) (q : Ppn) :
    (m.writePte pte w).release q = (m.release q).writePte pte w := by
  unfold release
  rw [writePte_pages]
  by_cases hone : (m.pages q).ppRef = 1
  · rw [if_pos hone, if_pos hone]
    rfl
  · rw [if_neg hone, if_neg hone]
    rfl

/-- After a page has lost a reference it is free, or it has others. -/
theorem Kept.owned_release (h : Kept frugal m₀ m managed roots free none) {p : Ppn}
    (hfrugal : frugal)
    (hpm : p ∈ managed) (hfree : p ∉ m.freeAfter q free) : ((m.release q).pages p).ppRef ≠ 0 := by
  rw [mem_freeAfter, not_or] at hfree
  have hold := h.owned hfrugal p hpm hfree.1 (by simp)
  rw [release_count]
  split
  · rename_i hsame
    have hone : (m.pages q).ppRef ≠ 1 := fun hone ↦ hfree.2 ⟨hsame, hone⟩
    bv_omega
  · exact hold

section DropTable

variable (h : Kept frugal m₀ m managed roots free none) (hpd : pd ∈ roots) (hd : d < pdx utop)
  (hpde : m.word pd d ≠ 0) (hempty : ∀ t, m.entry (pd, d, some t) = 0)

include h hpd hd hpde hempty in
theorem entry_dropTable (hr : r.1 ∈ roots) (hlow : r.2.1 < pdx utop) :
    (m.writePte (pd, d) 0).entry r = if r = (pd, d, none) then 0 else m.entry r := by
  obtain ⟨pd', d', t⟩ := r
  cases t with
  | none =>
    change (m.writePte (pd, d) 0).word pd' d' = _
    rw [writePte_word]
    simp only [Prod.mk.injEq, and_true]
    rfl
  | some t =>
    have hne : ((pd', d', some t) : Ref) ≠ (pd, d, none) := by simp
    rw [if_neg hne]
    by_cases hhere : pd' = pd ∧ d' = d
    · obtain ⟨rfl, rfl⟩ := hhere
      rw [hempty t]
      refine if_pos ?_
      rw [writePte_word, if_pos ⟨rfl, rfl⟩]
    · change (if (m.writePte (pd, d) 0).word pd' d' = 0 then 0
        else (m.writePte (pd, d) 0).word (pgnum ((m.writePte (pd, d) 0).word pd' d')) t) =
          if m.word pd' d' = 0 then 0 else m.word (pgnum (m.word pd' d')) t
      have hpde' := writePte_word m (pd, d) 0 pd' d'
      rw [if_neg hhere] at hpde'
      rw [hpde']
      by_cases hzero : m.word pd' d' = 0
      · rw [if_pos hzero, if_pos hzero]
      · rw [if_neg hzero, if_neg hzero, writePte_word, if_neg]
        rintro ⟨rfl, -⟩
        exact (h.layout.target _ _ (refers_table hr hlow hzero)).2 hpd

include h hpd hd hpde hempty in
/-- An empty page table is taken out of the directory, and its count goes down. -/
theorem Kept.dropTable
    (hcall : (m.writePte (pd, d) 0).pageDecref (pgnum (m.word pd d)) = .ok m') :
    (∃ free', Kept frugal m₀ m' managed roots free' none) ∧ ∀ r : Ref, r.1 ∈ roots → r.2.1 < pdx utop →
      m'.entry r = if r = (pd, d, none) then 0 else m.entry r := by
  have htable := refers_table hpd hd hpde
  have hunlinked : ((m.writePte (pd, d) 0).pages (pgnum (m.word pd d))).ppLink = none :=
    h.exact.unlinked _ (h.exact.not_free_of_refers htable)
  rw [pageDecref_eq hunlinked] at hcall
  obtain rfl := Except.ok.inj hcall
  have hentry : ∀ r : Ref, r.1 ∈ roots → r.2.1 < pdx utop →
      ((m.writePte (pd, d) 0).release (pgnum (m.word pd d))).entry r =
        if r = (pd, d, none) then 0 else m.entry r := by
    intro r hr hlow
    rw [entry_of_word release_word]
    exact entry_dropTable h hpd hd hpde hempty hr hlow
  have hrefers : ((m.writePte (pd, d) 0).release (pgnum (m.word pd d))).refers roots =
      Function.update (m.refers roots) (pd, d, none) none := by
    funext r
    rw [Function.update_apply]
    unfold refers
    by_cases hr : r.1 ∈ roots ∧ r.2.1 < pdx utop
    · rw [hentry r hr.1 hr.2]
      by_cases hhere : r = (pd, d, none)
      · rw [if_pos hhere, if_pos hhere, if_neg fun hall ↦ hall.2.2 rfl]
      · rw [if_neg hhere, if_neg hhere]
    · have hhere : r ≠ (pd, d, none) := by
        rintro rfl
        exact hr ⟨hpd, hd⟩
      rw [if_neg hhere, if_neg fun h ↦ hr ⟨h.1, h.2.1⟩, if_neg fun h ↦ hr ⟨h.1, h.2.1⟩]
  refine ⟨⟨m.freeAfter (pgnum (m.word pd d)) free, ?_⟩, hentry⟩
  constructor
  · refine h.exact.released (h.exact.target _ _ htable) (fun p ↦ ?_) (fun r p hr ↦ ?_) ?_ ?_ ?_
    · have hupdate := refCount_update (m.refers roots) (pd, d, none) none p
      rw [htable] at hupdate
      rw [hrefers]
      by_cases hp : p = pgnum (m.word pd d)
      · subst hp
        simp at hupdate ⊢
        omega
      · have hne : pgnum (m.word pd d) ≠ p := fun heq ↦ hp heq.symm
        simp [hp, hne] at hupdate ⊢
        omega
    · rw [hrefers, Function.update_apply] at hr
      split at hr
      · cases hr
      · exact h.exact.target r p hr
    · rw [writePte_release, writePte_pages]
    · rw [writePte_release, writePte_pageFreeList]
    · exact release_npages
  · refine h.layout.write hentry (fun hw ↦ absurd rfl hw) (fun pd' _ d' hd' ↦ ?_) (fun p hpm ↦ ?_)
    · rw [release_word, writePte_word, if_neg]
      rintro ⟨-, rfl⟩
      exact absurd hd (BitVec.not_lt.mpr hd')
    · funext t
      rw [release_word, writePte_word, if_neg]
      rintro ⟨rfl, -⟩
      exact hpm (h.layout.directories _ hpd)
  · intro p hmem
    rcases mem_freeAfter.mp hmem with hmem | ⟨rfl, -⟩
    · exact h.list p hmem
    · exact (h.layout.target _ _ htable).1
  · intro p hmem
    cases hmem
  · intro hfrugal p hpm hfree _
    rw [writePte_release, writePte_pages]
    exact h.owned_release hfrugal hpm hfree
  · exact release_kernPgdir.trans h.kernPgdir
  · exact release_npages.trans h.npages

end DropTable

section UnmapDir

variable (hp : m₀.Prepared managed) (hpd : pd ∈ roots)

include hp hpd in
/-- One turn of the loop over the directory. -/
theorem Kept.unmapDirEntry (h : Kept frugal m₀ m managed roots free none) (hd : d < pdx utop)
    (hcall : unmapDirEntry pd d m = .ok m') :
    (∃ free', Kept frugal m₀ m' managed roots free' none) ∧ m'.word pd d = 0 ∧
      ∀ r : Ref, r.1 ∈ roots → r.2.1 < pdx utop → ¬ (r.1 = pd ∧ r.2.1 = d) →
        m'.entry r = m.entry r := by
  unfold Jos.unmapDirEntry at hcall
  simp only at hcall
  split at hcall
  · rename_i habsent
    obtain rfl := pure_ok.mp hcall
    exact ⟨⟨free, h⟩, h.layout.entry_of_absent (r := (pd, d, none)) hpd hd habsent,
      fun r _ _ _ ↦ rfl⟩
  · rename_i hpresent
    have hpde : m.word pd d ≠ 0 := by
      intro hzero
      refine hpresent ?_
      change m.word pd d &&& pteP = 0
      rw [hzero]
      decide
    obtain ⟨table, htable, hcall⟩ := bind_ok.mp hcall
    obtain ⟨m₁, hunmap, hdrop⟩ := bind_ok.mp hcall
    have hpage : table = pgnum (m.word pd d) := by
      unfold kaddr at htable
      split at htable
      · exact (Except.ok.inj htable).symm
      · cases htable
    subst hpage
    obtain ⟨⟨free₁, h₁⟩, hcleared⟩ := h.unmapTable hp hpd hd hpde (by omega)
      (fun t ht ↦ absurd ht (Nat.not_lt_zero _)) hunmap
    have hroot : m₁.word pd d = m.word pd d :=
      hcleared.kept (pd, d, none) hpd hd fun hhere ↦ hhere.2.2 rfl
    rw [← hroot] at hpde hdrop
    obtain ⟨hkept, hentry⟩ := h₁.dropTable hpd hd hpde hcleared.cleared hdrop
    refine ⟨hkept, (hentry (pd, d, none) hpd hd).trans (if_pos rfl), fun r hr hlow hother ↦ ?_⟩
    rw [hentry r hr hlow, if_neg, hcleared.kept r hr hlow fun hhere ↦ hother ⟨hhere.1, hhere.2.1⟩]
    rintro rfl
    exact hother ⟨rfl, rfl⟩

include hp hpd in
theorem Kept.unmapDir {turns pdeno : ℕ} (h : Kept frugal m₀ m managed roots free none)
    (hturns : pdeno + turns = (pdx utop).toNat)
    (hdone : ∀ d : Slot, d.toNat < pdeno → m.word pd d = 0)
    (hcall : unmapDir pd pdeno turns m = .ok m') :
    (∃ free', Kept frugal m₀ m' managed roots free' none) ∧ (∀ d < pdx utop, m'.word pd d = 0) ∧
      ∀ r : Ref, r.1 ∈ roots → r.2.1 < pdx utop → r.1 ≠ pd → m'.entry r = m.entry r := by
  induction turns generalizing m free pdeno with
  | zero =>
    obtain rfl := Except.ok.inj hcall
    refine ⟨⟨free, h⟩, fun d hd ↦ hdone d ?_, fun r _ _ _ ↦ rfl⟩
    rw [BitVec.lt_def] at hd
    omega
  | succ turns ih =>
    rw [Jos.unmapDir] at hcall
    obtain ⟨m₁, hturn, hrest⟩ := bind_ok.mp hcall
    have hslots : (pdx utop).toNat = 955 := by decide
    have htoNat : (BitVec.ofNat 10 pdeno).toNat = pdeno := by
      rw [BitVec.toNat_ofNat]
      omega
    have hd : BitVec.ofNat 10 pdeno < pdx utop := by
      rw [BitVec.lt_def, htoNat]
      omega
    obtain ⟨⟨free₁, h₁⟩, hzero, hentry⟩ := h.unmapDirEntry hp hpd hd hturn
    have hdone₁ : ∀ d : Slot, d.toNat < pdeno + 1 → m₁.word pd d = 0 := by
      intro d' hd'
      by_cases hsame : d' = BitVec.ofNat 10 pdeno
      · rw [hsame]
        exact hzero
      · have hne : d'.toNat ≠ pdeno := fun heq ↦ hsame (BitVec.eq_of_toNat_eq (by omega))
        have hlow : d' < pdx utop := by
          rw [BitVec.lt_def]
          omega
        have hkept := hentry (pd, d', none) hpd hlow fun hhere ↦ hsame hhere.2
        exact hkept.trans (hdone d' (by omega))
    obtain ⟨hkept, hempty, hothers⟩ := ih h₁ (by omega) hdone₁ hrest
    refine ⟨hkept, hempty, fun r hr hlow hne ↦ ?_⟩
    rw [hothers r hr hlow hne, hentry r hr hlow fun hhere ↦ hne hhere.1]

theorem held_erase (hpd : pd ∈ roots) (p : Ppn) :
    held m₀ (roots.erase pd) p + (if p = pd then 1 else 0) = held m₀ roots p := by
  unfold held
  by_cases hsame : p = pd
  · subst hsame
    simp [hpd]
  · simp [hsame]

include hp hpd in
/-- A directory that is empty below `UTOP` loses its own reference. -/
theorem Kept.dropDirectory (h : Kept frugal m₀ m managed roots free none)
    (hempty : ∀ d < pdx utop, m.word pd d = 0) (hcall : m.pageDecref pd = .ok m') :
    (∃ free', Kept frugal m₀ m' managed (roots.erase pd) free' none) ∧ m'.word = m.word := by
  have hother : 0 < held m₀ roots pd := held_pos_of_root hpd
  rw [pageDecref_eq (h.exact.unlinked pd (h.exact.not_free_of_other hother))] at hcall
  obtain rfl := Except.ok.inj hcall
  have hrefers : (m.release pd).refers (roots.erase pd) = m.refers roots := by
    funext r
    unfold refers
    rw [entry_of_word release_word]
    by_cases hsame : r.1 = pd
    · have hzero : r.2.1 < pdx utop → m.entry r = 0 := by
        intro hlow
        obtain ⟨pd', d, t⟩ := r
        obtain rfl : pd' = pd := hsame
        cases t with
        | none => exact hempty d hlow
        | some t => exact if_pos (hempty d hlow)
      have hnot : r.1 ∉ roots.erase pd := by
        rw [hsame]
        exact Finset.notMem_erase pd roots
      rw [if_neg fun hall ↦ hnot hall.1, if_neg fun hall ↦ hall.2.2 (hzero hall.2.1)]
    · simp [hsame]
  refine ⟨⟨m.freeAfter pd free, ?_⟩, release_word⟩
  constructor
  · refine h.exact.released ?_ (fun p ↦ ?_) (fun r p hr ↦ ?_) rfl rfl release_npages
    · exact h.bound hp (h.layout.directories pd hpd)
    · rw [hrefers, Nat.add_assoc, held_erase hpd]
    · rw [hrefers] at hr
      exact h.exact.target r p hr
  · constructor
    · exact fun pd' hpd' ↦ h.layout.directories pd' (Finset.mem_of_mem_erase hpd')
    · rw [hrefers]
      exact fun r q hr ↦ ⟨(h.layout.target r q hr).1,
        fun hroot ↦ (h.layout.target r q hr).2 (Finset.mem_of_mem_erase hroot)⟩
    · rw [hrefers, entry_of_word release_word]
      exact h.layout.present
    · rw [hrefers]
      exact h.layout.data
    · rw [hrefers]
      exact h.layout.table
    · rw [release_word]
      exact fun pd' hpd' ↦ h.layout.upper pd' (Finset.mem_of_mem_erase hpd')
    · rw [release_word]
      exact h.layout.reserved
  · intro p hmem
    rcases mem_freeAfter.mp hmem with hmem | ⟨rfl, -⟩
    · exact h.list p hmem
    · exact h.layout.directories p hpd
  · intro p hmem
    cases hmem
  · exact fun hfrugal p hpm hfree _ ↦ h.owned_release hfrugal hpm hfree
  · exact release_kernPgdir.trans h.kernPgdir
  · exact release_npages.trans h.npages

end UnmapDir

/-! ## Writing to the pages of an address space -/

section Storing

variable {cr3 : Ppn} {need : Word} {b : BitVec 8}

theorem ne_zero_of_bits (hneed : need ≠ 0) (hbits : w &&& need = need) : w ≠ 0 := by
  rintro rfl
  exact hneed (hbits.symm.trans BitVec.zero_and)

theorem translate_some (h : m.translate cr3 need va = some pp) :
    m.word cr3 (pdx va) &&& need = need ∧
      m.word (pgnum (m.word cr3 (pdx va))) (ptx va) &&& need = need ∧
      pgnum (m.word (pgnum (m.word cr3 (pdx va))) (ptx va)) = pp := by
  obtain ⟨hbits, hpage⟩ := Option.ite_none_right_eq_some.mp h
  exact ⟨hbits.1, hbits.2, Option.some.inj hpage⟩

/-- Below `UTOP` a write finds a page that the directory maps. -/
theorem mapping_of_translate (hneed : need ≠ 0) (h : m.translate cr3 need va = some pp) :
    m.mapping cr3 va ≠ 0 ∧ pgnum (m.mapping cr3 va) = pp := by
  obtain ⟨hpde, hpte, hpage⟩ := translate_some h
  rw [mapping_of_table (ne_zero_of_bits hneed hpde)]
  exact ⟨ne_zero_of_bits hneed hpte, hpage⟩

/-- A page of user programs may be written. -/
theorem Kept.storeByte_mapped (h : Kept frugal m₀ m managed roots free hand) (hcr3 : cr3 ∈ roots)
    (hneed : need ≠ 0) (hva : pdx va < pdx utop) (hcall : m.storeByte cr3 need va b = .ok m') :
    Kept frugal m₀ m' managed roots free hand ∧
      ∀ r : Ref, r.1 ∈ roots → r.2.1 < pdx utop → m'.entry r = m.entry r := by
  unfold Memory.storeByte at hcall
  split at hcall
  · cases hcall
  · rename_i pp htranslate
    obtain rfl := Except.ok.inj hcall
    obtain ⟨hmapped, rfl⟩ := mapping_of_translate hneed htranslate
    have hpp := h.mappable_mapping hcr3 hva hmapped
    have hwords : ∀ p ≠ pgnum (m.mapping cr3 va), (m.writePte (pgnum (m.mapping cr3 va),
        va.extractLsb' 2 10) (setByte (m.word (pgnum (m.mapping cr3 va)) (va.extractLsb' 2 10))
          (va.extractLsb' 0 2) b)).word p = m.word p := by
      intro p hne
      funext t
      rw [writePte_word, if_neg fun hhere ↦ hne hhere.1]
    have hkept : ∀ q, q ∈ roots ∨ (∃ pd d, m.refers roots (pd, d, none) = some q) →
        q ≠ pgnum (m.mapping cr3 va) := by
      rintro q hq rfl
      rcases hq with hq | ⟨pd, d, htable⟩
      · exact hpp.root hq
      · exact hpp.table pd d htable
    refine ⟨h.contents (fun q hq ↦ hwords q (hkept q hq)) (fun p hpm ↦ hwords p ?_) rfl rfl rfl rfl,
      fun r hr hlow ↦ entry_of_contents (fun q hq ↦ hwords q (hkept q hq)) hr hlow⟩
    rintro rfl
    exact hpm hpp.managed

/-- Nothing is mapped below `UTOP` while a CPU uses the directory of the kernel. -/
theorem Kept.storeByte_kernel (h : Kept frugal m₀ m managed roots free hand)
    (hp : m₀.Prepared managed)
    (hcr3 : cr3 = m₀.kernPgdir) (hneed : need ≠ 0) (hva : pdx va < pdx utop) :
    m.storeByte cr3 need va b ≠ .ok m' := by
  intro hcall
  unfold Memory.storeByte at hcall
  split at hcall
  · cases hcall
  · rename_i pp htranslate
    have hzero : m.word cr3 (pdx va) = 0 := by
      rw [hcr3, h.layout.reserved _ hp.kernPgdir]
      exact hp.below _ hva
    exact ne_zero_of_bits hneed (translate_some htranslate).1 hzero

theorem userWrite_ne_zero : userWrite ≠ 0 := by decide

theorem kernelWrite_ne_zero : kernelWrite ≠ 0 := by decide

/-- From `UTOP` on a user program can write nothing. -/
theorem Kept.translate_above (h : Kept frugal m₀ m managed roots free hand)
    (hp : m₀.Prepared managed)
    (hcr3 : cr3 ∈ roots) (hva : pdx utop ≤ pdx va) : m.translate cr3 userWrite va = none := by
  rw [Option.eq_none_iff_forall_ne_some]
  intro pp htranslate
  obtain ⟨hpde, hpte, -⟩ := translate_some htranslate
  rw [h.layout.upper cr3 hcr3 _ hva] at hpde hpte
  by_cases huvpt : pdx va = pdx uvpt
  · rw [if_pos huvpt] at hpde
    have hpage : page2pa cr3 &&& pteW = 0 := page2pa_and (by decide)
    have hclear : uvptPde cr3 &&& pteW = 0 := by
      have hflags : pteP &&& pteW = 0 ∧ pteU &&& pteW = 0 := by decide
      rw [uvptPde, BitVec.and_or_distrib_right, BitVec.and_or_distrib_right, hpage, hflags.1,
        hflags.2]
      decide
    have hset : uvptPde cr3 &&& pteW = pteW := bits_of_bits (by decide) hpde
    rw [hclear] at hset
    exact absurd hset (by decide)
  · rw [if_neg huvpt] at hpde hpte
    obtain ⟨hmanaged, hnone⟩ := hp.above _ hva _ rfl hpde
    rw [h.layout.reserved _ hmanaged] at hpte
    exact hnone _ hpte

/-- A write of a user program. -/
theorem Kept.userStore (h : Kept frugal m₀ m managed roots free hand) (hp : m₀.Prepared managed)
    (hcr3 : cr3 ∈ roots) (hcall : m.storeByte cr3 userWrite va b = .ok m') :
    Kept frugal m₀ m' managed roots free hand ∧
      ∀ r : Ref, r.1 ∈ roots → r.2.1 < pdx utop → m'.entry r = m.entry r := by
  by_cases hva : pdx va < pdx utop
  · exact h.storeByte_mapped hcr3 userWrite_ne_zero hva hcall
  · unfold Memory.storeByte at hcall
    rw [h.translate_above hp hcr3 (BitVec.not_lt.mp hva)] at hcall
    cases hcall

/-- The writes of the kernel to user addresses. -/
theorem Kept.writes (h : Kept frugal m₀ m managed roots free hand) (hp : m₀.Prepared managed)
    (hcr3 : cr3 ∈ roots ∨ cr3 = m₀.kernPgdir) (hwrites : m.Writes cr3 kernelWrite m') :
    Kept frugal m₀ m' managed roots free hand ∧
      ∀ r : Ref, r.1 ∈ roots → r.2.1 < pdx utop → m'.entry r = m.entry r := by
  induction hwrites with
  | nil => exact ⟨h, fun _ _ _ ↦ rfl⟩
  | cons hva hstore _ ih =>
    rcases hcr3 with hroot | hkern
    · obtain ⟨h₁, hentry⟩ := h.storeByte_mapped hroot kernelWrite_ne_zero (pdx_lt_utop hva) hstore
      obtain ⟨h₂, hentry₂⟩ := ih h₁
      exact ⟨h₂, fun r hr hlow ↦ (hentry₂ r hr hlow).trans (hentry r hr hlow)⟩
    · exact absurd hstore (h.storeByte_kernel hp hkern kernelWrite_ne_zero (pdx_lt_utop hva))

end Storing

/-! ## Loading a program -/

/-- The pages that are free and those that the directory maps are all among `supply`. -/
structure Supplied (m : Memory) (pd : Ppn) (free supply : List Ppn) : Prop where
  listed : ∀ p ∈ free, p ∈ supply
  mapped : ∀ va, pdx va < pdx utop → m.mapping pd va ≠ 0 → pgnum (m.mapping pd va) ∈ supply

/-- The layout is kept, and so are the entries of all directories but one, which maps pages that were
free. -/
structure KeptBut (frugal : Prop) (m₀ m m' : Memory) (managed : List Ppn) (roots : Finset Ppn)
    (pd : Ppn) (supply : List Ppn) : Prop where
  kept : ∃ free', Kept frugal m₀ m' managed roots free' none ∧ Supplied m' pd free' supply
  others : ∀ r : Ref, r.1 ∈ roots → r.2.1 < pdx utop → r.1 ≠ pd → m'.entry r = m.entry r

theorem KeptBut.trans {m'' : Memory} (h : KeptBut frugal m₀ m m' managed roots pd supply)
    (h' : KeptBut frugal m₀ m' m'' managed roots pd supply) :
    KeptBut frugal m₀ m m'' managed roots pd supply where
  kept := h'.kept
  others r hr hlow hne := (h'.others r hr hlow hne).trans (h.others r hr hlow hne)

section Loading

variable (h : Kept frugal m₀ m managed roots free none) (hp : m₀.Prepared managed) (hpd : pd ∈ roots)
  (hsupply : Supplied m pd free supply)

include h hp hpd hsupply in
/-- One turn of the loop of `region_alloc`: a page from the free list is mapped. -/
theorem Kept.allocate (hva : va < utop) {m₁ : Memory} {res : ℤ}
    (halloc : m.pageAlloc false = .ok (some pp, m₁))
    (hinsert : m₁.pageInsert (some pd) pp va (pteU ||| pteW) = .ok (res, m')) (hres : res = 0) :
    KeptBut frugal m₀ m m' managed roots pd supply := by
  obtain ⟨hhead, rfl⟩ := pageAlloc_some halloc
  obtain ⟨rest, rfl⟩ := h.exact.free_of_pageFreeList hhead
  have htaken := h.take hp
  have hroom : RoomFor (m.take pp) pd va pp := by
    refine .inl ?_
    rw [(htaken.taken pp rfl).2.2]
    decide
  have hperm : pgnum (pteU ||| pteW) ||| pp = pp := by
    rw [pgnum_of_lt (by decide)]
    exact BitVec.zero_or
  rcases htaken.pageInsert hp hpd (pdx_lt_utop hva) htaken.mappable_hand hroom hperm
    (fun p hmem ↦ (Option.some.inj hmem).symm) hinsert with ⟨-, hplaced⟩ | ⟨hfail, -⟩
  · obtain ⟨free', hkept, hlist⟩ := hplaced.kept
    refine ⟨⟨free', hkept, fun p hmem ↦ ?_, fun va' hva' hmapped ↦ ?_⟩, hplaced.remaps.others⟩
    · rcases hlist p hmem with hrest | ⟨hold, rfl⟩
      · exact hsupply.listed p (List.mem_cons_of_mem pp hrest)
      · exact hsupply.mapped va (pdx_lt_utop hva) hold
    · have hentry := hplaced.remaps.pages (pd, pdx va', some (ptx va')) hpd hva' (by simp)
      change m'.mapping pd va' = _ at hentry
      rw [hentry] at hmapped ⊢
      split at hmapped
      · rename_i hhere
        rw [if_pos hhere, pgnum_entry hperm]
        exact hsupply.listed pp List.mem_cons_self
      · rename_i hother
        rw [if_neg hother]
        exact hsupply.mapped va' hva' hmapped
  · rw [hres] at hfail
    exact absurd hfail (by decide)

include hp hpd in
theorem Kept.regionAllocFrom {turns : ℕ} (h : Kept frugal m₀ m managed roots free none)
    (hsupply : Supplied m pd free supply)
    (hva : turns ≠ 0 → va.toNat + turns * 4096 ≤ utop.toNat)
    (hcall : regionAllocFrom pd va turns m = .ok m') :
    KeptBut frugal m₀ m m' managed roots pd supply := by
  have hutop : utop.toNat = 0xeec00000 := rfl
  induction turns generalizing m va free with
  | zero =>
    obtain rfl := Except.ok.inj hcall
    exact ⟨⟨free, h, hsupply⟩, fun _ _ _ _ ↦ rfl⟩
  | succ turns ih =>
    rw [Jos.regionAllocFrom] at hcall
    have hbound := hva (Nat.succ_ne_zero turns)
    obtain ⟨⟨page, m₁⟩, halloc, hcall⟩ := bind_ok.mp hcall
    cases page with
    | none => exact (throw_ok.mp hcall).elim
    | some p =>
      obtain ⟨⟨res, m₂⟩, hinsert, hcall⟩ := bind_ok.mp hcall
      simp only at hcall
      split at hcall
      · obtain ⟨_, hthrow, -⟩ := bind_ok.mp hcall
        exact (throw_ok.mp hthrow).elim
      · rename_i hres
        have hturn := h.allocate hp hpd hsupply (BitVec.lt_def.mpr (by omega)) halloc hinsert
          (not_not.mp hres)
        obtain ⟨free₂, h₂, hsupply₂⟩ := hturn.kept
        refine hturn.trans (ih h₂ hsupply₂ (fun hturns ↦ ?_) hcall)
        have hsize : pgsize.toNat = 4096 := rfl
        rw [BitVec.toNat_add, hsize]
        omega

include h hp hpd hsupply in
theorem Kept.regionAlloc {len : Word} (hcall : regionAlloc pd va len m = .ok m') :
    KeptBut frugal m₀ m m' managed roots pd supply := by
  unfold Jos.regionAlloc at hcall
  simp only at hcall
  split at hcall
  · cases hcall
  · rename_i hhigh
    rw [BitVec.not_lt, BitVec.le_def] at hhigh
    have hsize : pgsize.toNat = 4096 := rfl
    refine h.regionAllocFrom hp hpd hsupply (fun hturns ↦ ?_) hcall
    rw [hsize] at hturns ⊢
    omega

include h hp hpd hsupply in
theorem Kept.storeBytes {bs : List (BitVec 8)} (hva : va.toNat + bs.length ≤ utop.toNat)
    (hcall : m.storeBytes pd va bs = .ok m') : KeptBut frugal m₀ m m' managed roots pd supply := by
  obtain ⟨hkept, hentry⟩ := h.writes hp (.inl hpd) (storeBytes_writes hcall hva)
  have hmapping : ∀ va', pdx va' < pdx utop → m'.mapping pd va' = m.mapping pd va' := fun va' hva' ↦
    hentry (pd, pdx va', some (ptx va')) hpd hva'
  refine ⟨⟨free, hkept, hsupply.listed, fun va' hva' hmapped ↦ ?_⟩, fun r hr hlow _ ↦ hentry r hr hlow⟩
  rw [hmapping va' hva'] at hmapped ⊢
  exact hsupply.mapped va' hva' hmapped

include h hp hpd hsupply in
theorem Kept.loadSegment {ph : Proghdr} (hlinked : ph.pType = elfProgLoad →
      ph.pVa.toNat + ph.pMemsz.toNat ≤ utop.toNat ∧ ph.bytes.length ≤ ph.pMemsz.toNat)
    (hcall : loadSegment pd ph m = .ok m') : KeptBut frugal m₀ m m' managed roots pd supply := by
  unfold Jos.loadSegment at hcall
  split at hcall
  · obtain rfl := pure_ok.mp hcall
    exact ⟨⟨free, h, hsupply⟩, fun _ _ _ _ ↦ rfl⟩
  · rename_i htype
    obtain ⟨hmem, hfile⟩ := hlinked (not_not.mp htype)
    obtain ⟨m₁, halloc, hcall⟩ := bind_ok.mp hcall
    obtain ⟨m₂, hzero, hcopy⟩ := bind_ok.mp hcall
    have hregion := h.regionAlloc hp hpd hsupply halloc
    obtain ⟨free₁, h₁, hsupply₁⟩ := hregion.kept
    have hcleared := h₁.storeBytes hp hpd hsupply₁ (by rw [List.length_replicate]; exact hmem) hzero
    obtain ⟨free₂, h₂, hsupply₂⟩ := hcleared.kept
    exact (hregion.trans hcleared).trans (h₂.storeBytes hp hpd hsupply₂ (by omega) hcopy)

include hp hpd in
theorem Kept.loadSegments {phs : List Proghdr} (h : Kept frugal m₀ m managed roots free none)
    (hsupply : Supplied m pd free supply)
    (hlinked : ∀ ph ∈ phs, ph.pType = elfProgLoad →
      ph.pVa.toNat + ph.pMemsz.toNat ≤ utop.toNat ∧ ph.bytes.length ≤ ph.pMemsz.toNat)
    (hcall : loadSegments pd phs m = .ok m') : KeptBut frugal m₀ m m' managed roots pd supply := by
  induction phs generalizing m free with
  | nil =>
    obtain rfl := Except.ok.inj hcall
    exact ⟨⟨free, h, hsupply⟩, fun _ _ _ _ ↦ rfl⟩
  | cons ph phs ih =>
    obtain ⟨m₁, hfirst, hrest⟩ := bind_ok.mp hcall
    have hsegment := h.loadSegment hp hpd hsupply (hlinked ph List.mem_cons_self) hfirst
    obtain ⟨free₁, h₁, hsupply₁⟩ := hsegment.kept
    have hmore := ih h₁ hsupply₁ (fun ph' hph' ↦ hlinked ph' (List.mem_cons_of_mem _ hph')) hrest
    exact hsegment.trans hmore

end Loading

end Memory

end SistemasOperativos.Jos
