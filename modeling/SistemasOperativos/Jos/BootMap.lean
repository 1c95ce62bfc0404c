import Mathlib.Data.Finset.Card
import SistemasOperativos.Jos.PageTables
import SistemasOperativos.Library.LinkedList

/-!
# Regions mapped at boot

`boot_map_region`, compiled with `TP1_PSE` and without, and what the processor finds for an address in
a page directory, where an entry with `PTE_PS` maps 4 MB. Large pages or small ones, the region is
translated in the same way, and outside of it nothing changes but what the window at `UVPT` shows.
-/

namespace SistemasOperativos.Jos

open Library

def lpgsize : Word := 0x400000

def lpgOff (la : Word) : Word := la &&& 0x3fffff

namespace Memory

/-- The loop of `boot_map_region` over pages. -/
def mapPages (pgdir : Ppn) (perm : Word) : ℕ → Word → Word → Memory → Except Fault Memory
  | 0, _, _, m => .ok m
  | turns + 1, va, pa, m => do
    let (pte, m) ← pgdirWalk (some pgdir) va true m
    let m ← pageRemove (some pgdir) va m
    match pte with
    | none => throw .nullPointer
    | some pte =>
      let m := m.writePte pte (pa ||| perm ||| pteP)
      mapPages pgdir perm turns (va + pgsize) (pa + pgsize) m

/-- The loop over large pages, which `TP1_PSE` adds, with what it leaves of `va`, `size` and `pa`. -/
def mapLargePages (pgdir : Ppn) (perm : Word) :
    ℕ → Word → Word → Word → Memory → Word × Word × Word × Memory
  | 0, va, size, pa, m => (va, size, pa, m)
  | turns + 1, va, size, pa, m =>
    if lpgOff va = 0 ∧ lpgsize ≤ size ∧ lpgOff pa = 0 then
      mapLargePages pgdir perm turns (va + lpgsize) (size - lpgsize) (pa + lpgsize)
        (m.writePte (pgdir, pdx va) (pa ||| perm ||| pteP ||| ptePs))
    else (va, size, pa, m)

/-- The loops end with the region: there are as many turns as pages, and at most as many turns over
large pages as fit in. -/
def bootMapRegion (pse : Bool) (pgdir : Ppn) (va size pa perm : Word) (m : Memory) :
    Except Fault Memory :=
  let (va, size, pa, m) :=
    if pse then mapLargePages pgdir perm (size.toNat / lpgsize.toNat) va size pa m
    else (va, size, pa, m)
  mapPages pgdir perm ((size.toNat + 4095) / 4096) va pa m

/-! ## The walk of the processor -/

/-- What an address is translated to, and what the two levels allow there. -/
structure Access where
  phys : Word
  writable : Bool
  user : Bool
  /-- The bits for the cache. -/
  cache : Word
deriving DecidableEq

/-- The access through an entry for a page or a large page, below the entries that must allow it. -/
def Access.of (phys allows pte : Word) : Access :=
  ⟨phys, allows &&& pteW ≠ 0, allows &&& pteU ≠ 0, pte &&& (ptePwt ||| ptePcd)⟩

def walk (m : Memory) (pd : Ppn) (va : Word) : Option Access :=
  let pde := m.word pd (pdx va)
  if pde &&& pteP = 0 then none
  else if pde &&& ptePs ≠ 0 then
    some (.of (pde.extractLsb' 22 10 ++ va.extractLsb' 0 22) pde pde)
  else
    let pte := m.word (pgnum pde) (ptx va)
    if pte &&& pteP = 0 then none
    else some (.of (pgnum pte ++ va.extractLsb' 0 12) (pde &&& pte) pte)

/-- A slot of a directory through which the directory itself is mapped. -/
def Window (m : Memory) (pd : Ppn) (d : Slot) : Prop :=
  m.word pd d ≠ 0 ∧ m.word pd d &&& ptePs = 0 ∧ pgnum (m.word pd d) = pd

instance {m : Memory} {pd : Ppn} {d : Slot} : Decidable (m.Window pd d) :=
  inferInstanceAs (Decidable (_ ∧ _))

/-- A slot with a page table. -/
def IsTable (m : Memory) (pd : Ppn) (d : Slot) : Prop :=
  m.word pd d ≠ 0 ∧ m.word pd d &&& ptePs = 0 ∧ pgnum (m.word pd d) ≠ pd

/-- A page directory with page tables of its own, none of them free. -/
structure Directory (m : Memory) (free : List Ppn) (pd : Ppn) : Prop where
  chain : Chain (fun p ↦ (m.pages p).ppLink) m.pageFreeList free
  bound : ∀ p ∈ free, p.toNat < m.npages
  root : pd ∉ free
  table : ∀ d, m.IsTable pd d → pgnum (m.word pd d) ∉ free ∧ (pgnum (m.word pd d)).toNat < m.npages
  distinct : ∀ d d', m.IsTable pd d → m.IsTable pd d' →
    pgnum (m.word pd d) = pgnum (m.word pd d') → d = d'

/-- Nothing is mapped at `va`, and there is no page table for it or one that allows every access. -/
def Vacant (m : Memory) (pd : Ppn) (va : Word) : Prop :=
  m.word pd (pdx va) = 0 ∨ m.IsTable pd (pdx va) ∧
    m.word pd (pdx va) &&& (pteP ||| pteW ||| pteU) = pteP ||| pteW ||| pteU ∧
      m.word (pgnum (m.word pd (pdx va))) (ptx va) = 0

/-- The number of page tables that a region of `n` bytes still needs. -/
def missing (m : Memory) (pd : Ppn) (va : Word) (n : ℕ) : ℕ :=
  ((Finset.range 1024).filter fun d ↦ 0 < n ∧ va.toNat / 2 ^ 22 ≤ d ∧ d * 2 ^ 22 < va.toNat + n ∧
    m.word pd (BitVec.ofNat 10 d) = 0).card

/-- The bytes of a region. -/
def InRegion (va : Word) (n : ℕ) (a : Word) : Prop :=
  va.toNat ≤ a.toNat ∧ a.toNat < va.toNat + n

instance {va a : Word} {n : ℕ} : Decidable (InRegion va n a) := inferInstanceAs (Decidable (_ ∧ _))

/-- The access that the region should have at `a`. -/
def mappedAccess (va pa perm a : Word) : Access := .of (pa + (a - va)) perm perm

variable {m m' : Memory} {free rest : List Ppn} {pd table : Ppn} {d d' t : Slot}
  {va pa perm size w a b : Word} {turns : ℕ}

/-! ## Addresses and entries -/

section Arithmetic

theorem pdx_eq_iff : pdx a = pdx b ↔ a.toNat / 2 ^ 22 = b.toNat / 2 ^ 22 := by
  have ha := a.isLt
  have hb := b.isLt
  rw [← BitVec.toNat_inj]
  simp only [pdx, BitVec.extractLsb'_toNat, Nat.shiftRight_eq_div_pow]
  omega

/-- Two addresses in one page. -/
theorem page_eq_iff : pdx a = pdx b ∧ ptx a = ptx b ↔ a.toNat / 4096 = b.toNat / 4096 := by
  have ha := a.isLt
  have hb := b.isLt
  rw [pdx_eq_iff, ← BitVec.toNat_inj]
  simp only [ptx, BitVec.extractLsb'_toNat, Nat.shiftRight_eq_div_pow]
  omega

theorem toNat_append_eq {n k : ℕ} (hi : BitVec n) (lo : BitVec k) :
    (hi ++ lo).toNat = hi.toNat * 2 ^ k + lo.toNat := by
  rw [BitVec.toNat_append, ← Nat.shiftLeft_add_eq_or_of_lt lo.isLt, Nat.shiftLeft_eq]

theorem page2pa_pgnum (h : pa.toNat % 4096 = 0) : page2pa (pgnum pa) = pa := by
  apply BitVec.eq_of_toNat_eq
  have hpa := pa.isLt
  have hzero : (0 : BitVec 12).toNat = 0 := rfl
  rw [page2pa, toNat_append_eq, hzero]
  simp only [pgnum, BitVec.extractLsb'_toNat, Nat.shiftRight_eq_div_pow]
  omega

/-- The address in a page at `pa` that belongs to an address in the page at `va`. -/
theorem phys_eq (hpa : pa.toNat % 4096 = 0) (hva : va.toNat % 4096 = 0)
    (h : a.toNat / 4096 = va.toNat / 4096) : pgnum pa ++ a.extractLsb' 0 12 = pa + (a - va) := by
  apply BitVec.eq_of_toNat_eq
  have hlt := pa.isLt
  have ha := a.isLt
  have hle : va ≤ a := by
    rw [BitVec.le_def]
    omega
  rw [toNat_append_eq, BitVec.toNat_add, BitVec.toNat_sub_of_le hle]
  simp only [pgnum, BitVec.extractLsb'_toNat, Nat.shiftRight_eq_div_pow]
  omega

/-- The same with a large page. -/
theorem phys_eq_large (hpa : pa.toNat % 2 ^ 22 = 0) (hva : va.toNat % 2 ^ 22 = 0)
    (h : a.toNat / 2 ^ 22 = va.toNat / 2 ^ 22) :
    pa.extractLsb' 22 10 ++ a.extractLsb' 0 22 = pa + (a - va) := by
  apply BitVec.eq_of_toNat_eq
  have hlt := pa.isLt
  have ha := a.isLt
  have hle : va ≤ a := by
    rw [BitVec.le_def]
    omega
  rw [toNat_append_eq, BitVec.toNat_add, BitVec.toNat_sub_of_le hle]
  simp only [BitVec.extractLsb'_toNat, Nat.shiftRight_eq_div_pow]
  omega

/-- The flags of an entry are those that were asked for. -/
theorem aligned_and (hpa : pa.toNat % 4096 = 0) (hw : w.toNat < 4096) :
    (pa ||| perm) &&& w = perm &&& w := by
  rw [← page2pa_pgnum hpa, BitVec.and_or_distrib_right, page2pa_and hw]
  exact BitVec.zero_or

theorem or_and_of_disjoint (h : b &&& w = 0) : (a ||| b) &&& w = a &&& w := by
  rw [BitVec.and_or_distrib_right, h]
  exact BitVec.or_zero

/-- An entry that allows every access leaves the decision to the next level. -/
theorem allows_and (hpde : a &&& (pteP ||| pteW ||| pteU) = pteP ||| pteW ||| pteU)
    (hw : (pteP ||| pteW ||| pteU) &&& w = w) : a &&& b &&& w = b &&& w := by
  have ha : a &&& w = w := by
    rw [← hw, ← BitVec.and_assoc, hpde, hw]
  calc
    a &&& b &&& w = b &&& (a &&& w) := by rw [BitVec.and_comm a b, BitVec.and_assoc]
    _ = b &&& w := by rw [ha]

end Arithmetic

/-! ## Walking through one entry -/

section Walk

theorem walk_of_empty (h : m.word pd (pdx a) = 0) : m.walk pd a = none := by
  unfold walk
  simp only [h]
  exact if_pos BitVec.zero_and

theorem walk_of_vacant (h : m.Vacant pd a) : m.walk pd a = none := by
  rcases h with hempty | ⟨htable, -, hzero⟩
  · exact walk_of_empty hempty
  · unfold walk
    simp only [hzero]
    have habsent : (0 : Word) &&& pteP = 0 := by decide
    rw [if_neg (not_not.mpr htable.2.1), if_pos habsent]
    exact ite_self _

/-- Through a page table. -/
theorem walk_of_table (htable : m.word pd (pdx a) &&& ptePs = 0)
    (hpde : m.word pd (pdx a) &&& (pteP ||| pteW ||| pteU) = pteP ||| pteW ||| pteU)
    (hpte : m.word (pgnum (m.word pd (pdx a))) (ptx a) = pa ||| perm ||| pteP)
    (hperm : perm.toNat < 4096) (hpa : pa.toNat % 4096 = 0) (hva : va.toNat % 4096 = 0)
    (hpage : a.toNat / 4096 = va.toNat / 4096) :
    m.walk pd a = some (mappedAccess va pa perm a) := by
  have hpresent : m.word pd (pdx a) &&& pteP ≠ 0 := by
    have hp := allows_and (b := BitVec.allOnes 32) (w := pteP) hpde (by decide)
    rw [BitVec.and_allOnes, BitVec.and_comm (BitVec.allOnes 32), BitVec.and_allOnes] at hp
    rw [hp]
    decide
  have hpresent' : (pa ||| perm ||| pteP) &&& pteP ≠ 0 := by
    intro hzero
    rw [BitVec.and_or_distrib_right] at hzero
    have hbit : ((pa ||| perm) &&& pteP ||| pteP &&& pteP).getLsbD 0 = false := by
      rw [hzero]
      rfl
    simp [pteP] at hbit
  have hnum : pgnum (pa ||| perm ||| pteP) = pgnum pa := by
    rw [pgnum_or, pgnum_or, pgnum_of_lt hperm, (pgnum_of_lt (by decide) : pgnum pteP = 0)]
    simp
  have hflag : ∀ w : Word, w.toNat < 4096 → pteP &&& w = 0 →
      (pa ||| perm ||| pteP) &&& w = perm &&& w := by
    intro w hw hdisjoint
    rw [or_and_of_disjoint hdisjoint, aligned_and hpa hw]
  unfold walk
  simp only [hpte]
  rw [if_neg hpresent, if_neg (not_not.mpr htable), if_neg hpresent', hnum,
    phys_eq hpa hva hpage, mappedAccess, Access.of, Access.of, allows_and hpde (by decide),
    allows_and hpde (by decide), hflag pteW (by decide) (by decide),
    hflag pteU (by decide) (by decide), hflag (ptePwt ||| ptePcd) (by decide) (by decide)]

/-- Through a large page. -/
theorem walk_of_large (hpde : m.word pd (pdx a) = pa ||| perm ||| pteP ||| ptePs)
    (hperm : perm.toNat < 4096) (hpa : pa.toNat % 2 ^ 22 = 0) (hva : va.toNat % 2 ^ 22 = 0)
    (hpage : a.toNat / 2 ^ 22 = va.toNat / 2 ^ 22) :
    m.walk pd a = some (mappedAccess va pa perm a) := by
  have hbit : ∀ i, (pteP ||| ptePs).getLsbD i = true →
      (pa ||| perm ||| pteP ||| ptePs).getLsbD i = true := by
    intro i hi
    simp only [BitVec.getLsbD_or, Bool.or_eq_true] at hi ⊢
    exact hi.elim (fun h ↦ .inl (.inr h)) .inr
  have hpresent : (pa ||| perm ||| pteP ||| ptePs) &&& pteP ≠ 0 := by
    intro hzero
    have hzero := congrArg (fun w : Word ↦ w.getLsbD 0) hzero
    simp only [BitVec.getLsbD_and, hbit 0 (by decide)] at hzero
    exact absurd hzero (by decide)
  have hlarge : (pa ||| perm ||| pteP ||| ptePs) &&& ptePs ≠ 0 := by
    intro hzero
    have hzero := congrArg (fun w : Word ↦ w.getLsbD 7) hzero
    simp only [BitVec.getLsbD_and, hbit 7 (by decide)] at hzero
    exact absurd hzero (by decide)
  have hhigh : (pa ||| perm ||| pteP ||| ptePs).extractLsb' 22 10 = pa.extractLsb' 22 10 := by
    have hzero : ∀ w : Word, w.toNat < 4096 → w.extractLsb' 22 10 = 0 := by
      intro w hw
      apply BitVec.eq_of_toNat_eq
      rw [BitVec.extractLsb'_toNat, Nat.shiftRight_eq_div_pow, Nat.div_eq_of_lt (by omega)]
      rfl
    rw [BitVec.extractLsb'_or, BitVec.extractLsb'_or, BitVec.extractLsb'_or, hzero perm hperm,
      hzero pteP (by decide), hzero ptePs (by decide)]
    simp
  have hflag : ∀ w : Word, w.toNat < 4096 → pteP &&& w = 0 → ptePs &&& w = 0 →
      (pa ||| perm ||| pteP ||| ptePs) &&& w = perm &&& w := by
    intro w hw hp hps
    rw [or_and_of_disjoint hps, or_and_of_disjoint hp, aligned_and (by omega) hw]
  unfold walk
  simp only [hpde]
  rw [if_neg hpresent, if_pos hlarge, hhigh, phys_eq_large hpa hva hpage, mappedAccess, Access.of,
    Access.of, hflag pteW (by decide) (by decide) (by decide),
    hflag pteU (by decide) (by decide) (by decide),
    hflag (ptePwt ||| ptePcd) (by decide) (by decide) (by decide)]

end Walk

/-! ## Writing an entry of a page table -/

section WriteTable

variable (hdir : m.Directory free pd) (ht : m.IsTable pd d)

include ht in
theorem writeTable_root (d' : Slot) :
    (m.writePte (pgnum (m.word pd d), t) w).word pd d' = m.word pd d' := by
  rw [writePte_word, if_neg fun h ↦ ht.2.2 h.1.symm]

include ht in
theorem writeTable_isTable :
    (m.writePte (pgnum (m.word pd d), t) w).IsTable pd d' ↔ m.IsTable pd d' := by
  unfold IsTable
  rw [writeTable_root ht]

include ht in
theorem writeTable_window :
    (m.writePte (pgnum (m.word pd d), t) w).Window pd d' ↔ m.Window pd d' := by
  unfold Window
  rw [writeTable_root ht]

include hdir ht in
/-- The entries of the page tables: one of them changes. -/
theorem writeTable_entry (ht' : m.IsTable pd d') (t' : Slot) :
    (m.writePte (pgnum (m.word pd d), t) w).word (pgnum (m.word pd d')) t' =
      if d' = d ∧ t' = t then w else m.word (pgnum (m.word pd d')) t' := by
  rw [writePte_word]
  have hiff : pgnum (m.word pd d') = pgnum (m.word pd d) ↔ d' = d :=
    ⟨hdir.distinct d' d ht' ht, fun h ↦ by rw [h]⟩
  simp only [hiff]

include hdir ht in
theorem Directory.writeTable :
    (m.writePte (pgnum (m.word pd d), t) w).Directory free pd where
  chain := hdir.chain
  bound := hdir.bound
  root := hdir.root
  table d' hd' := by
    rw [writeTable_root ht]
    exact hdir.table d' ((writeTable_isTable ht).mp hd')
  distinct d₁ d₂ h₁ h₂ := by
    rw [writeTable_root ht, writeTable_root ht]
    exact hdir.distinct d₁ d₂ ((writeTable_isTable ht).mp h₁) ((writeTable_isTable ht).mp h₂)

/-- Outside the window an entry with `PTE_P` that maps no large page is that of a page table. -/
theorem isTable_of_present (hwindow : ¬ m.Window pd d) (hp : m.word pd d &&& pteP ≠ 0)
    (hps : m.word pd d &&& ptePs = 0) : m.IsTable pd d := by
  have hne : m.word pd d ≠ 0 := by
    intro hzero
    rw [hzero] at hp
    exact hp BitVec.zero_and
  exact ⟨hne, hps, fun hself ↦ hwindow ⟨hne, hps, hself⟩⟩

/-- The walk depends on the entry of the directory, and on one entry of its page table. -/
theorem walk_congr (hwindow : ¬ m.Window pd (pdx a)) (hpde : m'.word pd (pdx a) = m.word pd (pdx a))
    (hpte : m.IsTable pd (pdx a) → m'.word (pgnum (m.word pd (pdx a))) (ptx a) =
      m.word (pgnum (m.word pd (pdx a))) (ptx a)) : m'.walk pd a = m.walk pd a := by
  unfold walk
  rw [hpde]
  by_cases hp : m.word pd (pdx a) &&& pteP = 0
  · simp only [hp, if_true]
  · by_cases hps : m.word pd (pdx a) &&& ptePs = 0
    · simp only [hpte (isTable_of_present hwindow hp hps)]
    · simp only [hps, ne_eq, not_false_eq_true, if_true]

theorem vacant_congr (hpde : m'.word pd (pdx a) = m.word pd (pdx a))
    (hpte : m.IsTable pd (pdx a) → m'.word (pgnum (m.word pd (pdx a))) (ptx a) =
      m.word (pgnum (m.word pd (pdx a))) (ptx a)) (h : m.Vacant pd a) : m'.Vacant pd a := by
  rcases h with hempty | ⟨htable, hbits, hzero⟩
  · exact .inl (hpde.trans hempty)
  · refine .inr ⟨?_, ?_, ?_⟩
    · unfold IsTable
      rw [hpde]
      exact htable
    · rw [hpde]
      exact hbits
    · rw [hpde, hpte htable]
      exact hzero

end WriteTable

/-! ## A new page table -/

section NewTable

variable (hdir : m.Directory (table :: rest) pd) (hempty : m.word pd d = 0)

include hdir in
theorem Directory.root_ne : pd ≠ table := by
  rintro rfl
  exact hdir.root List.mem_cons_self

include hdir in
theorem withTable_root (d' : Slot) : (m.withTable pd d table).word pd d' =
    if d' = d then tablePde table else m.word pd d' := by
  rw [withTable_word, if_neg hdir.root_ne]
  simp only [true_and]

include hdir hempty in
theorem withTable_window : (m.withTable pd d table).Window pd d' ↔ m.Window pd d' := by
  unfold Window
  rw [withTable_root hdir]
  by_cases hd : d' = d
  · subst hd
    rw [if_pos rfl, pgnum_tablePde, hempty]
    exact ⟨fun h ↦ absurd h.2.2.symm hdir.root_ne, fun h ↦ absurd rfl h.1⟩
  · rw [if_neg hd]

include hdir in
theorem withTable_isTable : (m.withTable pd d table).IsTable pd d' ↔ d' = d ∨ m.IsTable pd d' := by
  unfold IsTable
  rw [withTable_root hdir]
  by_cases hd : d' = d
  · rw [if_pos hd, pgnum_tablePde]
    exact ⟨fun _ ↦ .inl hd, fun _ ↦ ⟨tablePde_ne_zero table, tablePde_and_ptePs table,
      hdir.root_ne.symm⟩⟩
  · rw [if_neg hd]
    exact ⟨.inr, fun h ↦ h.resolve_left hd⟩

include hdir in
/-- The entries of the page tables that were there stay. -/
theorem withTable_entry (ht' : m.IsTable pd d') (t' : Slot) :
    (m.withTable pd d table).word (pgnum (m.word pd d')) t' =
      m.word (pgnum (m.word pd d')) t' := by
  have hne : pgnum (m.word pd d') ≠ table := by
    intro heq
    exact (hdir.table d' ht').1 (heq ▸ List.mem_cons_self)
  rw [withTable_word, if_neg fun h ↦ ht'.2.2 h.1, if_neg hne]

include hdir in
theorem withTable_chain : Chain (fun p ↦ ((m.withTable pd d table).pages p).ppLink)
    (m.withTable pd d table).pageFreeList rest := by
  have hlink : (fun p ↦ ((m.withTable pd d table).pages p).ppLink) =
      Function.update (fun p ↦ (m.pages p).ppLink) table none := by
    funext p
    rw [withTable_pages, Function.update_apply]
    split <;> rfl
  have hchain := hdir.chain
  rw [hdir.chain.1] at hchain
  obtain ⟨rest', heq, -, hrest⟩ := hchain.pop none
  cases heq
  rw [hlink]
  exact hrest

include hdir in
theorem Directory.withTable : (m.withTable pd d table).Directory rest pd := by
  have hnodup := List.nodup_cons.mp hdir.chain.nodup
  constructor
  · exact withTable_chain hdir
  · exact fun p hp ↦ hdir.bound p (List.mem_cons_of_mem _ hp)
  · exact fun h ↦ hdir.root (List.mem_cons_of_mem _ h)
  · intro d' hd'
    rw [withTable_root hdir]
    by_cases hd : d' = d
    · rw [if_pos hd, pgnum_tablePde]
      exact ⟨hnodup.1, hdir.bound table List.mem_cons_self⟩
    · rw [if_neg hd]
      obtain ⟨hfree, hbound⟩ := hdir.table d' (((withTable_isTable hdir).mp hd').resolve_left hd)
      exact ⟨fun h ↦ hfree (List.mem_cons_of_mem _ h), hbound⟩
  · intro d₁ d₂ h₁ h₂ heq
    have hold : ∀ d' ≠ d, (m.withTable pd d table).IsTable pd d' → pgnum (m.word pd d') ≠ table := by
      intro d' hd hd' hsame
      exact (hdir.table d' (((withTable_isTable hdir).mp hd').resolve_left hd)).1
        (hsame ▸ List.mem_cons_self)
    rw [withTable_root hdir, withTable_root hdir] at heq
    by_cases hd₁ : d₁ = d
    · by_cases hd₂ : d₂ = d
      · rw [hd₁, hd₂]
      · rw [if_pos hd₁, if_neg hd₂, pgnum_tablePde] at heq
        exact absurd heq.symm (hold d₂ hd₂ h₂)
    · by_cases hd₂ : d₂ = d
      · rw [if_neg hd₁, if_pos hd₂, pgnum_tablePde] at heq
        exact absurd heq (hold d₁ hd₁ h₁)
      · rw [if_neg hd₁, if_neg hd₂] at heq
        exact hdir.distinct d₁ d₂ (((withTable_isTable hdir).mp h₁).resolve_left hd₁)
          (((withTable_isTable hdir).mp h₂).resolve_left hd₂) heq

end NewTable

/-! ## A region -/

/-- The memory `m'` has the region mapped in addition to what `m` has. -/
structure Maps (m m' : Memory) (free' : List Ppn) (pd : Ppn) (va pa perm : Word) (n : ℕ) : Prop where
  directory : m'.Directory free' pd
  window : ∀ d, m'.Window pd d ↔ m.Window pd d
  inside : ∀ a, InRegion va n a → m'.walk pd a = some (mappedAccess va pa perm a)
  outside : ∀ a, ¬ InRegion va n a → ¬ m.Window pd (pdx a) → m'.walk pd a = m.walk pd a
  vacant : ∀ a, ¬ InRegion va n a → m.Vacant pd a → m'.Vacant pd a
  emptied : ∀ d, m'.word pd d = 0 → m.word pd d = 0
  kernPgdir : m'.kernPgdir = m.kernPgdir

section Region

variable {m₁ m₂ : Memory} {free₁ free₂ : List Ppn} {n n₁ n₂ : ℕ}

theorem Maps.nil (hdir : m.Directory free pd) : Maps m m free pd va pa perm 0 where
  directory := hdir
  window _ := Iff.rfl
  inside a ha := by
    have hlt := ha.2
    have hle := ha.1
    omega
  outside _ _ _ := rfl
  vacant _ _ h := h
  emptied _ h := h
  kernPgdir := rfl

theorem Vacant.not_window (h : m.Vacant pd a) : ¬ m.Window pd (pdx a) := by
  rintro ⟨hne, -, hself⟩
  rcases h with hempty | ⟨htable, -⟩
  · exact hne hempty
  · exact htable.2.2 hself

theorem mappedAccess_add (n : Word) : mappedAccess (va + n) (pa + n) perm a =
    mappedAccess va pa perm a := by
  have hphys : pa + n + (a - (va + n)) = pa + (a - va) := by bv_omega
  rw [mappedAccess, mappedAccess, hphys]

/-- One region after another. -/
theorem Maps.append (h₁ : Maps m m₁ free₁ pd va pa perm n₁)
    (h₂ : Maps m₁ m₂ free₂ pd (va + BitVec.ofNat 32 n₁) (pa + BitVec.ofNat 32 n₁) perm n₂)
    (hn₁ : n₁ < 2 ^ 32) (hend : va.toNat + n₁ + n₂ ≤ 2 ^ 32)
    (hvacant : ∀ a, InRegion va n₁ a → m.Vacant pd a) :
    Maps m m₂ free₂ pd va pa perm (n₁ + n₂) := by
  have hsplit : ∀ a, InRegion va (n₁ + n₂) a ↔
      InRegion va n₁ a ∨ InRegion (va + BitVec.ofNat 32 n₁) n₂ a := by
    intro a
    have ha := a.isLt
    unfold InRegion
    rw [BitVec.toNat_add, BitVec.toNat_ofNat, Nat.mod_eq_of_lt hn₁]
    by_cases hwrap : va.toNat + n₁ < 2 ^ 32
    · rw [Nat.mod_eq_of_lt hwrap]
      omega
    · have htop : va.toNat + n₁ = 2 ^ 32 := by omega
      rw [htop, Nat.mod_self]
      omega
  have hdisjoint : ∀ a, InRegion va n₁ a → ¬ InRegion (va + BitVec.ofNat 32 n₁) n₂ a := by
    intro a
    unfold InRegion
    rw [BitVec.toNat_add, BitVec.toNat_ofNat, Nat.mod_eq_of_lt hn₁]
    by_cases hwrap : va.toNat + n₁ < 2 ^ 32
    · rw [Nat.mod_eq_of_lt hwrap]
      omega
    · have htop : va.toNat + n₁ = 2 ^ 32 := by omega
      rw [htop, Nat.mod_self]
      omega
  constructor
  · exact h₂.directory
  · exact fun d ↦ (h₂.window d).trans (h₁.window d)
  · intro a ha
    rcases (hsplit a).mp ha with hfirst | hsecond
    · have hwindow : ¬ m₁.Window pd (pdx a) := by
        rw [h₁.window]
        exact (hvacant a hfirst).not_window
      rw [h₂.outside a (hdisjoint a hfirst) hwindow]
      exact h₁.inside a hfirst
    · rw [h₂.inside a hsecond, mappedAccess_add]
  · intro a ha hwindow
    rw [hsplit, not_or] at ha
    calc
      m₂.walk pd a = m₁.walk pd a := h₂.outside a ha.2 fun h ↦ hwindow ((h₁.window _).mp h)
      _ = m.walk pd a := h₁.outside a ha.1 hwindow
  · intro a ha hv
    rw [hsplit, not_or] at ha
    exact h₂.vacant a ha.2 (h₁.vacant a ha.1 hv)
  · exact fun d h ↦ h₁.emptied d (h₂.emptied d h)
  · exact h₂.kernPgdir.trans h₁.kernPgdir

/-- A change that maps nothing, before the region is mapped. -/
theorem Maps.after_nil (h₁ : Maps m m₁ free₁ pd va pa perm 0)
    (h₂ : Maps m₁ m₂ free₂ pd va pa perm n) : Maps m m₂ free₂ pd va pa perm n where
  directory := h₂.directory
  window d := (h₂.window d).trans (h₁.window d)
  inside := h₂.inside
  outside a ha hwindow := by
    have hnone : ¬ InRegion va 0 a := by
      rintro ⟨hle, hlt⟩
      omega
    calc
      m₂.walk pd a = m₁.walk pd a := h₂.outside a ha fun h ↦ hwindow ((h₁.window _).mp h)
      _ = m.walk pd a := h₁.outside a hnone hwindow
  vacant a ha hv := by
    have hnone : ¬ InRegion va 0 a := by
      rintro ⟨hle, hlt⟩
      omega
    exact h₂.vacant a ha (h₁.vacant a hnone hv)
  emptied d h := h₁.emptied d (h₂.emptied d h)
  kernPgdir := h₂.kernPgdir.trans h₁.kernPgdir

end Region

/-! ## One page -/

section Page

theorem inRegion_page (hva : va.toNat % 4096 = 0) : InRegion va 4096 a ↔
    a.toNat / 4096 = va.toNat / 4096 := by
  unfold InRegion
  omega

theorem tablePde_and_allowed : tablePde table &&& (pteP ||| pteW ||| pteU) =
    pteP ||| pteW ||| pteU := by
  rw [tablePde, BitVec.or_assoc, BitVec.or_assoc, ← BitVec.or_assoc pteP,
    BitVec.and_or_distrib_right, BitVec.and_self, page2pa_and (by decide)]
  exact BitVec.zero_or

theorem mapping_of_vacant (h : m.Vacant pd va) : m.mapping pd va = 0 := by
  rcases h with hempty | ⟨htable, -, hzero⟩
  · exact mapping_of_empty hempty
  · rw [mapping_of_table htable.1]
    exact hzero

/-- With a page table for the page. -/
theorem Maps.page (hdir : m.Directory free pd) (ht : m.IsTable pd (pdx va))
    (hbits : m.word pd (pdx va) &&& (pteP ||| pteW ||| pteU) = pteP ||| pteW ||| pteU)
    (hva : va.toNat % 4096 = 0) (hpa : pa.toNat % 4096 = 0) (hperm : perm.toNat < 4096) :
    Maps m (m.writePte (pgnum (m.word pd (pdx va)), ptx va) (pa ||| perm ||| pteP)) free pd va pa
      perm 4096 := by
  have hother : ∀ a, ¬ InRegion va 4096 a → m.IsTable pd (pdx a) →
      (m.writePte (pgnum (m.word pd (pdx va)), ptx va) (pa ||| perm ||| pteP)).word
        (pgnum (m.word pd (pdx a))) (ptx a) = m.word (pgnum (m.word pd (pdx a))) (ptx a) := by
    intro a ha hta
    rw [writeTable_entry hdir ht hta, if_neg]
    rw [inRegion_page hva, ← page_eq_iff] at ha
    exact ha
  constructor
  · exact hdir.writeTable ht
  · exact fun d ↦ writeTable_window ht
  · intro a ha
    rw [inRegion_page hva] at ha
    obtain ⟨hpdx, hptx⟩ := page_eq_iff.mpr ha
    have hroot := writeTable_root (t := ptx va) (w := pa ||| perm ||| pteP) ht (pdx va)
    refine walk_of_table ?_ ?_ ?_ hperm hpa hva ha
    · rw [hpdx, hroot]
      exact ht.2.1
    · rw [hpdx, hroot]
      exact hbits
    · rw [hpdx, hroot, hptx, writeTable_entry hdir ht ht, if_pos ⟨rfl, rfl⟩]
  · intro a ha hwindow
    exact walk_congr hwindow (writeTable_root ht _) (hother a ha)
  · intro a ha
    exact vacant_congr (writeTable_root ht _) (hother a ha)
  · intro d hd
    rw [writeTable_root ht] at hd
    exact hd
  · rfl

/-- A new page table maps nothing yet. -/
theorem Maps.withTable (hdir : m.Directory (table :: rest) pd) (hempty : m.word pd (pdx va) = 0) :
    Maps m (m.withTable pd (pdx va) table) rest pd va pa perm 0 := by
  have hroot := withTable_root (d := pdx va) hdir
  have hpage : ∀ t, (m.withTable pd (pdx va) table).word table t = 0 := by
    intro t
    rw [withTable_word, if_neg fun h ↦ hdir.root_ne h.1.symm, if_pos rfl]
  have hnew : ∀ a, pdx a = pdx va → (m.withTable pd (pdx va) table).Vacant pd a := by
    intro a ha
    refine .inr ⟨(withTable_isTable hdir).mpr (.inl ha), ?_, ?_⟩
    · rw [hroot, if_pos ha]
      exact tablePde_and_allowed
    · rw [hroot, if_pos ha, pgnum_tablePde]
      exact hpage _
  have hold : ∀ a, pdx a ≠ pdx va →
      (m.withTable pd (pdx va) table).word pd (pdx a) = m.word pd (pdx a) := by
    intro a ha
    rw [hroot, if_neg ha]
  constructor
  · exact hdir.withTable
  · exact fun d ↦ withTable_window hdir hempty
  · intro a ha
    have hle := ha.1
    have hlt := ha.2
    omega
  · intro a _ hwindow
    by_cases ha : pdx a = pdx va
    · rw [walk_of_vacant (hnew a ha), walk_of_empty (by rw [ha]; exact hempty)]
    · exact walk_congr hwindow (hold a ha) fun hta ↦ withTable_entry hdir hta _
  · intro a _ hv
    by_cases ha : pdx a = pdx va
    · exact hnew a ha
    · exact vacant_congr (hold a ha) (fun hta ↦ withTable_entry hdir hta _) hv
  · intro d hd
    rw [hroot] at hd
    by_cases hhere : d = pdx va
    · rw [if_pos hhere] at hd
      exact absurd hd (tablePde_ne_zero table)
    · rw [if_neg hhere] at hd
      exact hd
  · rfl

/-- One turn of the loop over pages. -/
theorem mapPages_succ (hdir : m.Directory free pd) (hv : m.Vacant pd va)
    (hva : va.toNat % 4096 = 0) (hpa : pa.toNat % 4096 = 0) (hperm : perm.toNat < 4096)
    (hroom : m.word pd (pdx va) = 0 → free ≠ []) :
    ∃ m₁ free₁, (∀ turns, mapPages pd perm (turns + 1) va pa m =
        mapPages pd perm turns (va + pgsize) (pa + pgsize) m₁) ∧
      Maps m m₁ free₁ pd va pa perm 4096 ∧ m₁.word pd (pdx va) ≠ 0 ∧
      free.length = free₁.length + if m.word pd (pdx va) = 0 then 1 else 0 := by
  rcases hv with hempty | ⟨ht, hbits, hzero⟩
  · obtain ⟨table, rest, rfl⟩ := List.exists_cons_of_ne_nil (hroom hempty)
    have hnew : Maps m (m.withTable pd (pdx va) table) rest pd va pa perm 0 :=
      Maps.withTable hdir hempty
    have ht : (m.withTable pd (pdx va) table).IsTable pd (pdx va) :=
      (withTable_isTable hdir).mpr (.inl rfl)
    have hroot : (m.withTable pd (pdx va) table).word pd (pdx va) = tablePde table := by
      rw [withTable_root hdir, if_pos rfl]
    have hmapping : (m.withTable pd (pdx va) table).mapping pd va = 0 := by
      rw [mapping_of_table ht.1, hroot, pgnum_tablePde, withTable_word,
        if_neg fun h ↦ hdir.root_ne h.1.symm, if_pos rfl]
    have hbound := (hdir.withTable (d := pdx va)).table (pdx va) ht
    have hallowed : (m.withTable pd (pdx va) table).word pd (pdx va) &&& (pteP ||| pteW ||| pteU) =
        pteP ||| pteW ||| pteU := by
      rw [hroot]
      exact tablePde_and_allowed
    have hpage := hnew.after_nil (Maps.page hnew.directory ht hallowed hva hpa hperm)
    refine ⟨_, rest, ?_, hpage, ?_, ?_⟩
    · intro turns
      rw [mapPages, pgdirWalk_true_of_free hempty hdir.chain.1 (hdir.bound _ List.mem_cons_self)]
      change (pageRemove (some pd) va (m.withTable pd (pdx va) table) >>= _) = _
      rw [pageRemove_of_unmapped hmapping fun _ ↦ hbound.2, hroot, pgnum_tablePde]
      rfl
    · rw [writeTable_root ht, hroot]
      exact tablePde_ne_zero table
    · rw [if_pos hempty, List.length_cons]
  · refine ⟨_, free, ?_, Maps.page hdir ht hbits hva hpa hperm, ?_, ?_⟩
    · intro turns
      have hbound := (hdir.table _ ht).2
      rw [mapPages, pgdirWalk_of_table ht.1 hbound]
      change (pageRemove (some pd) va m >>= _) = _
      rw [pageRemove_of_unmapped (mapping_of_vacant (.inr ⟨ht, hbits, hzero⟩)) fun _ ↦ hbound]
      rfl
    · rw [writeTable_root ht]
      exact ht.1
    · rw [if_neg ht.1, Nat.add_zero]

end Page

/-! ## The loop over pages -/

section Pages

variable {va' : Word} {n n' : ℕ}

theorem ofNat_slot (a : Word) : BitVec.ofNat 10 (a.toNat / 2 ^ 22) = pdx a := by
  apply BitVec.eq_of_toNat_eq
  simp only [pdx, BitVec.extractLsb'_toNat, BitVec.toNat_ofNat, Nat.shiftRight_eq_div_pow]

section Missing

variable (hword : ∀ d, m'.word pd d = 0 → m.word pd d = 0) (hle : va.toNat ≤ va'.toNat)
  (hend : va'.toNat + n' ≤ va.toNat + n)

include hword hle hend in
/-- A part of a region needs no more page tables, in a memory with more of them. -/
theorem missing_le : m'.missing pd va' n' ≤ m.missing pd va n := by
  apply Finset.card_le_card
  intro d
  simp only [Finset.mem_filter]
  rintro ⟨hd, hn, hlow, hhigh, hempty⟩
  exact ⟨hd, by omega, by omega, by omega, hword _ hempty⟩

include hword hle hend in
theorem missing_lt (hn : 0 < n) (hempty : m.word pd (pdx va) = 0) (htable : m'.word pd (pdx va) ≠ 0) :
    m'.missing pd va' n' < m.missing pd va n := by
  have hslot : va.toNat / 2 ^ 22 < 1024 := by
    have := va.isLt
    omega
  apply Finset.card_lt_card
  rw [Finset.ssubset_iff_of_subset]
  · refine ⟨va.toNat / 2 ^ 22, ?_, ?_⟩
    · rw [Finset.mem_filter, Finset.mem_range, ofNat_slot]
      exact ⟨hslot, hn, Nat.le_refl _, by omega, hempty⟩
    · rw [Finset.mem_filter, ofNat_slot]
      exact fun h ↦ htable h.2.2.2.2
  · intro d
    simp only [Finset.mem_filter]
    rintro ⟨hd, hn, hlow, hhigh, hempty⟩
    exact ⟨hd, by omega, by omega, by omega, hword _ hempty⟩

/-- A region without a page table for its first page needs one. -/
theorem missing_pos (hn : 0 < n) (hempty : m.word pd (pdx va) = 0) : 0 < m.missing pd va n := by
  have hslot : va.toNat / 2 ^ 22 < 1024 := by
    have := va.isLt
    omega
  apply Finset.card_pos.mpr
  refine ⟨va.toNat / 2 ^ 22, ?_⟩
  rw [Finset.mem_filter, Finset.mem_range, ofNat_slot]
  exact ⟨hslot, hn, Nat.le_refl _, by omega, hempty⟩

end Missing

/-- A region in one slot of the directory. -/
theorem missing_of_slot (h : va.toNat % 2 ^ 22 + n ≤ 2 ^ 22) :
    m.missing pd va n ≤ if m.word pd (pdx va) = 0 then 1 else 0 := by
  have hslot : ∀ d, 0 < n → va.toNat / 2 ^ 22 ≤ d → d * 2 ^ 22 < va.toNat + n →
      d = va.toNat / 2 ^ 22 := by omega
  by_cases hempty : m.word pd (pdx va) = 0
  · rw [if_pos hempty]
    refine (Finset.card_le_card fun d ↦ ?_).trans_eq (Finset.card_singleton (va.toNat / 2 ^ 22))
    simp only [Finset.mem_filter, Finset.mem_singleton]
    rintro ⟨-, hn, hlow, hhigh, -⟩
    exact hslot d hn hlow hhigh
  · rw [if_neg hempty, missing, Finset.filter_false_of_mem, Finset.card_empty]
    rintro d - ⟨hn, hlow, hhigh, hzero⟩
    rw [hslot d hn hlow hhigh, ofNat_slot] at hzero
    exact hempty hzero

theorem missing_zero : m.missing pd va 0 = 0 :=
  Finset.card_eq_zero.mpr (Finset.filter_false_of_mem fun _ _ h ↦ absurd h.1 (Nat.lt_irrefl 0))

theorem mapPages_maps (turns : ℕ) (hdir : m.Directory free pd)
    (hvacant : ∀ a, InRegion va (turns * 4096) a → m.Vacant pd a)
    (hva : va.toNat % 4096 = 0) (hpa : pa.toNat % 4096 = 0) (hperm : perm.toNat < 4096)
    (hend : va.toNat + turns * 4096 ≤ 2 ^ 32)
    (henough : m.missing pd va (turns * 4096) ≤ free.length) :
    ∃ m' free', mapPages pd perm turns va pa m = .ok m' ∧
      Maps m m' free' pd va pa perm (turns * 4096) := by
  induction turns generalizing m va pa free with
  | zero =>
    rw [Nat.zero_mul]
    exact ⟨m, free, rfl, Maps.nil hdir⟩
  | succ turns ih =>
    have hpos : 0 < (turns + 1) * 4096 := by omega
    have hfirst : ∀ a, InRegion va 4096 a → InRegion va ((turns + 1) * 4096) a := by
      intro a ha
      have hlt := ha.2
      exact ⟨ha.1, by omega⟩
    have hroom : m.word pd (pdx va) = 0 → free ≠ [] := by
      intro hempty hfree
      have hmissing := missing_pos hpos hempty
      rw [hfree, List.length_nil] at henough
      omega
    obtain ⟨m₁, free₁, hrun, hpage, htable, hlength⟩ := mapPages_succ hdir
      (hvacant va ⟨Nat.le_refl _, by omega⟩) hva hpa hperm hroom
    have hva₁ : turns = 0 ∨ (va + pgsize).toNat = va.toNat + 4096 := by
      rw [BitVec.toNat_add, pgsize]
      change turns = 0 ∨ (va.toNat + 4096) % 2 ^ 32 = _
      omega
    have halign₁ : (va + pgsize).toNat % 4096 = 0 := by
      rw [BitVec.toNat_add, pgsize]
      change (va.toNat + 4096) % 2 ^ 32 % 4096 = 0
      omega
    have hpalign₁ : (pa + pgsize).toNat % 4096 = 0 := by
      rw [BitVec.toNat_add, pgsize]
      change (pa.toNat + 4096) % 2 ^ 32 % 4096 = 0
      omega
    have hbound : (va + pgsize).toNat ≤ 2 ^ 32 := (va + pgsize).isLt.le
    have hvacant₁ : ∀ a, InRegion (va + pgsize) (turns * 4096) a → m₁.Vacant pd a := by
      rintro a ⟨hlow, hhigh⟩
      refine hpage.vacant a (fun h ↦ ?_) (hvacant a ⟨by omega, by omega⟩)
      have hlt := h.2
      omega
    have hless : m₁.missing pd (va + pgsize) (turns * 4096) ≤ free₁.length := by
      by_cases hturns : turns = 0
      · rw [hturns, Nat.zero_mul, missing_zero]
        exact Nat.zero_le _
      · by_cases hempty : m.word pd (pdx va) = 0
        · have hlt : m₁.missing pd (va + pgsize) (turns * 4096) <
              m.missing pd va ((turns + 1) * 4096) :=
            missing_lt hpage.emptied (by omega) (by omega) hpos hempty htable
          rw [if_pos hempty] at hlength
          omega
        · have hle : m₁.missing pd (va + pgsize) (turns * 4096) ≤
              m.missing pd va ((turns + 1) * 4096) :=
            missing_le hpage.emptied (by omega) (by omega)
          rw [if_neg hempty] at hlength
          omega
    obtain ⟨m', free', hok, hmaps⟩ := ih hpage.directory hvacant₁ halign₁ hpalign₁
      (by omega) hless
    refine ⟨m', free', (hrun turns).trans hok, ?_⟩
    rw [Nat.add_mul, Nat.one_mul, Nat.add_comm]
    exact hpage.append hmaps (by omega) (by omega) fun a ha ↦ hvacant a (hfirst a ha)

end Pages

/-! ## The loop over large pages -/

section LargePages

variable {n : ℕ}

theorem inRegion_large (hva : va.toNat % 2 ^ 22 = 0) : InRegion va (2 ^ 22) a ↔ pdx a = pdx va := by
  rw [pdx_eq_iff]
  unfold InRegion
  omega

/-- The entry for a large page. -/
def largePde (pa perm : Word) : Word := pa ||| perm ||| pteP ||| ptePs

theorem largePde_and_ptePs : largePde pa perm &&& ptePs ≠ 0 := by
  intro hzero
  rw [largePde, BitVec.and_or_distrib_right, BitVec.and_self] at hzero
  have hbit : ((pa ||| perm ||| pteP) &&& ptePs ||| ptePs).getLsbD 7 = false := by
    rw [hzero]
    rfl
  simp [ptePs] at hbit

theorem largePde_ne_zero : largePde pa perm ≠ 0 := by
  intro hzero
  exact largePde_and_ptePs (by rw [hzero]; exact BitVec.zero_and)

/-- One large page. -/
theorem Maps.largePage (hdir : m.Directory free pd) (hv : m.Vacant pd va)
    (hva : va.toNat % 2 ^ 22 = 0) (hpa : pa.toNat % 2 ^ 22 = 0) (hperm : perm.toNat < 4096) :
    Maps m (m.writePte (pd, pdx va) (largePde pa perm)) free pd va pa perm (2 ^ 22) := by
  have hhere : (m.writePte (pd, pdx va) (largePde pa perm)).word pd (pdx va) = largePde pa perm := by
    rw [writePte_word, if_pos ⟨rfl, rfl⟩]
  have hroot : ∀ d ≠ pdx va, (m.writePte (pd, pdx va) (largePde pa perm)).word pd d = m.word pd d := by
    intro d hd
    rw [writePte_word, if_neg fun h ↦ hd h.2]
  have htable : ∀ d, (m.writePte (pd, pdx va) (largePde pa perm)).IsTable pd d →
      d ≠ pdx va ∧ m.IsTable pd d := by
    rintro d ⟨hne, hps, hself⟩
    have hd : d ≠ pdx va := by
      rintro rfl
      rw [hhere] at hps
      exact largePde_and_ptePs hps
    rw [hroot d hd] at hne hps hself
    exact ⟨hd, hne, hps, hself⟩
  have hentry : ∀ a, m.IsTable pd (pdx a) → (m.writePte (pd, pdx va) (largePde pa perm)).word
      (pgnum (m.word pd (pdx a))) (ptx a) = m.word (pgnum (m.word pd (pdx a))) (ptx a) := by
    intro a hta
    rw [writePte_word, if_neg fun h ↦ hta.2.2 h.1]
  constructor
  · constructor
    · exact hdir.chain
    · exact hdir.bound
    · exact hdir.root
    · intro d hd
      obtain ⟨hne, hold⟩ := htable d hd
      rw [hroot d hne]
      exact hdir.table d hold
    · intro d d' hd hd'
      obtain ⟨hne, hold⟩ := htable d hd
      obtain ⟨hne', hold'⟩ := htable d' hd'
      rw [hroot d hne, hroot d' hne']
      exact hdir.distinct d d' hold hold'
  · intro d
    by_cases hd : d = pdx va
    · subst hd
      refine ⟨fun h ↦ ?_, fun h ↦ absurd h hv.not_window⟩
      have hps := h.2.1
      rw [hhere] at hps
      exact absurd hps largePde_and_ptePs
    · unfold Window
      rw [hroot d hd]
  · intro a ha
    rw [inRegion_large hva] at ha
    refine walk_of_large ?_ hperm hpa hva (pdx_eq_iff.mp ha)
    rw [ha, hhere, largePde]
  · intro a ha hwindow
    rw [inRegion_large hva] at ha
    exact walk_congr hwindow (hroot _ ha) (hentry a)
  · intro a ha
    rw [inRegion_large hva] at ha
    exact vacant_congr (hroot _ ha) (hentry a)
  · intro d hd
    by_cases hhere' : d = pdx va
    · rw [hhere', hhere] at hd
      exact absurd hd largePde_ne_zero
    · rw [hroot d hhere'] at hd
      exact hd
  · rfl

theorem lpgsize_toNat : lpgsize.toNat = 2 ^ 22 := rfl

theorem lpgOff_eq_zero : lpgOff a = 0 ↔ a.toNat % 2 ^ 22 = 0 := by
  have hand : (lpgOff a).toNat = a.toNat % 2 ^ 22 := by
    rw [lpgOff, BitVec.toNat_and]
    exact Nat.and_two_pow_sub_one_eq_mod a.toNat 22
  rw [← BitVec.toNat_inj, hand]
  rfl

/-- The loop over large pages maps the part of the region that it takes off. -/
theorem mapLargePages_maps (turns : ℕ) (pa : Word) (hdir : m.Directory free pd)
    (hvacant : ∀ a, InRegion va size.toNat a → m.Vacant pd a) (hperm : perm.toNat < 4096)
    (hend : va.toNat + size.toNat ≤ 2 ^ 32) :
    ∃ n m', mapLargePages pd perm turns va size pa m =
        (va + BitVec.ofNat 32 n, size - BitVec.ofNat 32 n, pa + BitVec.ofNat 32 n, m') ∧
      n ≤ size.toNat ∧ n % 2 ^ 22 = 0 ∧ Maps m m' free pd va pa perm n := by
  induction turns generalizing m va size pa with
  | zero => exact ⟨0, m, by simp [mapLargePages], by omega, rfl, Maps.nil hdir⟩
  | succ turns ih =>
    by_cases hlarge : lpgOff va = 0 ∧ lpgsize ≤ size ∧ lpgOff pa = 0
    · obtain ⟨hva, hsize, hpa⟩ := hlarge
      rw [mapLargePages, if_pos ⟨hva, hsize, hpa⟩]
      rw [lpgOff_eq_zero] at hva hpa
      have hsizele : 2 ^ 22 ≤ size.toNat := by
        rw [← lpgsize_toNat]
        exact hsize
      have hsub : (size - lpgsize).toNat = size.toNat - 2 ^ 22 := by
        rw [BitVec.toNat_sub_of_le hsize, lpgsize_toNat]
      have hva₁ : size.toNat = 2 ^ 22 ∨ (va + lpgsize).toNat = va.toNat + 2 ^ 22 := by
        rw [BitVec.toNat_add, lpgsize_toNat]
        omega
      have hpage := Maps.largePage hdir (hvacant va ⟨Nat.le_refl _, by omega⟩) hva hpa hperm
      have hbound : (va + lpgsize).toNat ≤ 2 ^ 32 := (va + lpgsize).isLt.le
      have hvacant₁ : ∀ a, InRegion (va + lpgsize) (size - lpgsize).toNat a →
          (m.writePte (pd, pdx va) (largePde pa perm)).Vacant pd a := by
        rintro a ⟨hlow, hhigh⟩
        rw [hsub] at hhigh
        refine hpage.vacant a (fun h ↦ ?_) (hvacant a ⟨by omega, by omega⟩)
        have hlt := h.2
        omega
      obtain ⟨n, m', hrun, hn, hn22, hmaps⟩ := ih _ hpage.directory hvacant₁ (by omega)
      have hsum : BitVec.ofNat 32 (2 ^ 22 + n) = lpgsize + BitVec.ofNat 32 n := by
        rw [BitVec.ofNat_add]
        rfl
      refine ⟨2 ^ 22 + n, m', ?_, by omega, by omega, ?_⟩
      · have hrest : size - (lpgsize + BitVec.ofNat 32 n) = size - lpgsize - BitVec.ofNat 32 n := by
          bv_omega
        rw [hsum, ← BitVec.add_assoc, ← BitVec.add_assoc, hrest]
        exact hrun
      · exact hpage.append hmaps (by decide) (by omega) fun a ha ↦
          hvacant a ⟨ha.1, by have := ha.2; omega⟩
    · rw [mapLargePages, if_neg hlarge]
      exact ⟨0, m, by simp, by omega, rfl, Maps.nil hdir⟩

end LargePages

/-! ## The region -/

/-- With pages only. -/
theorem mapRegion_maps (hdir : m.Directory free pd)
    (hvacant : ∀ a, InRegion va size.toNat a → m.Vacant pd a)
    (hva : va.toNat % 4096 = 0) (hpa : pa.toNat % 4096 = 0) (hsize : size.toNat % 4096 = 0)
    (hperm : perm.toNat < 4096) (hend : va.toNat + size.toNat ≤ 2 ^ 32)
    (henough : m.missing pd va size.toNat ≤ free.length) :
    ∃ m' free', mapPages pd perm ((size.toNat + 4095) / 4096) va pa m = .ok m' ∧
      Maps m m' free' pd va pa perm size.toNat := by
  have hturns : (size.toNat + 4095) / 4096 * 4096 = size.toNat := by omega
  have hrun := mapPages_maps ((size.toNat + 4095) / 4096) hdir (by rw [hturns]; exact hvacant) hva
    hpa hperm (by rw [hturns]; exact hend) (by rw [hturns]; exact henough)
  rw [hturns] at hrun
  exact hrun

theorem bootMapRegion_maps (pse : Bool) (hdir : m.Directory free pd)
    (hvacant : ∀ a, InRegion va size.toNat a → m.Vacant pd a)
    (hva : va.toNat % 4096 = 0) (hpa : pa.toNat % 4096 = 0) (hsize : size.toNat % 4096 = 0)
    (hperm : perm.toNat < 4096) (hend : va.toNat + size.toNat ≤ 2 ^ 32)
    (henough : m.missing pd va size.toNat ≤ free.length) :
    ∃ m' free', bootMapRegion pse pd va size pa perm m = .ok m' ∧
      Maps m m' free' pd va pa perm size.toNat := by
  cases pse with
  | false => exact mapRegion_maps hdir hvacant hva hpa hsize hperm hend henough
  | true =>
    obtain ⟨n, m₁, hlarge, hn, hn22, hmaps₁⟩ := mapLargePages_maps (size.toNat / lpgsize.toNat) pa hdir
      hvacant hperm hend
    have hn32 : (BitVec.ofNat 32 n).toNat = n := by
      rw [BitVec.toNat_ofNat]
      have := size.isLt
      omega
    have hsize₁ : (size - BitVec.ofNat 32 n).toNat = size.toNat - n := by
      rw [BitVec.toNat_sub_of_le (by rw [BitVec.le_def, hn32]; exact hn), hn32]
    have hva₁ : n = size.toNat ∨ (va + BitVec.ofNat 32 n).toNat = va.toNat + n := by
      rw [BitVec.toNat_add, hn32]
      omega
    have halign : ∀ w : Word, w.toNat % 4096 = 0 → (w + BitVec.ofNat 32 n).toNat % 4096 = 0 := by
      intro w hw
      rw [BitVec.toNat_add, hn32]
      omega
    have hbound := (va + BitVec.ofNat 32 n).isLt
    have hvacant₁ : ∀ a, InRegion (va + BitVec.ofNat 32 n) (size - BitVec.ofNat 32 n).toNat a →
        m₁.Vacant pd a := by
      rintro a ⟨hlow, hhigh⟩
      rw [hsize₁] at hhigh
      refine hmaps₁.vacant a (fun h ↦ ?_) (hvacant a ⟨by omega, by omega⟩)
      have hlt := h.2
      omega
    have henough₁ : m₁.missing pd (va + BitVec.ofNat 32 n) (size - BitVec.ofNat 32 n).toNat ≤
        free.length := by
      rw [hsize₁]
      by_cases hall : n = size.toNat
      · rw [hall, Nat.sub_self, missing_zero]
        exact Nat.zero_le _
      · exact (missing_le hmaps₁.emptied (by omega) (by omega)).trans henough
    obtain ⟨m', free', hrun, hmaps⟩ := mapRegion_maps hmaps₁.directory hvacant₁ (halign va hva)
      (halign pa hpa) (by omega) hperm (by omega) henough₁
    refine ⟨m', free', ?_, ?_⟩
    · unfold bootMapRegion
      rw [if_pos rfl, hlarge]
      exact hrun
    · have happend := hmaps₁.append hmaps (by have := size.isLt; omega) (by omega) fun a ha ↦
        hvacant a ⟨ha.1, by have := ha.2; omega⟩
      rw [hsize₁, Nat.add_sub_cancel' hn] at happend
      exact happend

/-- With large pages and without them the whole region is translated in one way, and an address
outside of it is translated as before, except through the window. -/
theorem bootMapRegion_pse_agrees (hdir : m.Directory free pd)
    (hvacant : ∀ a, InRegion va size.toNat a → m.Vacant pd a)
    (hva : va.toNat % 4096 = 0) (hpa : pa.toNat % 4096 = 0) (hsize : size.toNat % 4096 = 0)
    (hperm : perm.toNat < 4096) (hend : va.toNat + size.toNat ≤ 2 ^ 32)
    (henough : m.missing pd va size.toNat ≤ free.length) :
    ∃ m₁ m₂, bootMapRegion true pd va size pa perm m = .ok m₁ ∧
      bootMapRegion false pd va size pa perm m = .ok m₂ ∧
      (∀ a, InRegion va size.toNat a → m₁.walk pd a = some (mappedAccess va pa perm a) ∧
        m₂.walk pd a = some (mappedAccess va pa perm a)) ∧
      ∀ a, ¬ InRegion va size.toNat a → ¬ m.Window pd (pdx a) →
        m₁.walk pd a = m.walk pd a ∧ m₂.walk pd a = m.walk pd a := by
  obtain ⟨m₁, _, hrun₁, hmaps₁⟩ :=
    bootMapRegion_maps true hdir hvacant hva hpa hsize hperm hend henough
  obtain ⟨m₂, _, hrun₂, hmaps₂⟩ :=
    bootMapRegion_maps false hdir hvacant hva hpa hsize hperm hend henough
  refine ⟨m₁, m₂, hrun₁, hrun₂, fun a ha ↦ ?_, fun a ha hwindow ↦ ?_⟩
  · exact ⟨hmaps₁.inside a ha, hmaps₂.inside a ha⟩
  · exact ⟨hmaps₁.outside a ha hwindow, hmaps₂.outside a ha hwindow⟩

/-- Page 1 is a directory with nothing but itself at `UVPT`, and page 2 is free. -/
def booting : Memory where
  npages := 4
  word p d := if p = 1 ∧ d = pdx uvpt then page2pa 1 ||| pteP ||| pteU else 0
  pages p := ⟨none, if p = 2 then 0 else 1⟩
  pageFreeList := some 2
  kernPgdir := 1

theorem booting_word_of_ne (hd : d ≠ pdx uvpt) : booting.word 1 d = 0 := if_neg fun h ↦ hd h.2

theorem booting_directory : booting.Directory [2] 1 where
  chain := ⟨rfl, rfl⟩
  bound p hp := by
    rw [List.mem_singleton.mp hp]
    decide
  root := by decide
  table d hd := by
    by_cases hself : d = pdx uvpt
    · rw [hself] at hd
      exact absurd rfl hd.2.2
    · exact absurd (booting_word_of_ne hself) hd.1
  distinct d d' hd hd' _ := by
    by_cases hself : d = pdx uvpt
    · rw [hself] at hd
      exact absurd rfl hd.2.2
    · exact absurd (booting_word_of_ne hself) hd.1

theorem booting_vacant (ha : a.toNat / 2 ^ 22 ≠ uvpt.toNat / 2 ^ 22) : booting.Vacant 1 a :=
  .inl (booting_word_of_ne fun h ↦ ha (pdx_eq_iff.mp h))

theorem booting_vacant_page (a : Word) (ha : InRegion 0 pgsize.toNat a) : booting.Vacant 1 a := by
  have hlt : a.toNat < 0 + 4096 := ha.2
  refine booting_vacant ?_
  change a.toNat / 2 ^ 22 ≠ 957
  omega

/-- The first page, with the page table that it needs. -/
theorem bootMapRegion_pse_agrees_booting :
    ∃ m₁ m₂, bootMapRegion true 1 0 pgsize pgsize pteW booting = .ok m₁ ∧
      bootMapRegion false 1 0 pgsize pgsize pteW booting = .ok m₂ ∧
      (∀ a, InRegion 0 pgsize.toNat a → m₁.walk 1 a = some (mappedAccess 0 pgsize pteW a) ∧
        m₂.walk 1 a = some (mappedAccess 0 pgsize pteW a)) ∧
      ∀ a, ¬ InRegion 0 pgsize.toNat a → ¬ booting.Window 1 (pdx a) →
        m₁.walk 1 a = booting.walk 1 a ∧ m₂.walk 1 a = booting.walk 1 a := by
  refine bootMapRegion_pse_agrees booting_directory booting_vacant_page (by decide) (by decide)
    (by decide) (by decide) (by decide) ?_
  exact missing_of_slot (by decide)

/-- At `UVPT` the window shows the new page table, where nothing was. -/
theorem bootMapRegion_changes_window :
    booting.Directory [2] 1 ∧ (∀ a, InRegion 0 pgsize.toNat a → booting.Vacant 1 a) ∧
      booting.missing 1 0 pgsize.toNat ≤ 1 ∧ ¬ InRegion 0 pgsize.toNat uvpt ∧
      booting.walk 1 uvpt = none ∧
      ∀ pse, ∃ m', bootMapRegion pse 1 0 pgsize pgsize pteW booting = .ok m' ∧
        m'.walk 1 uvpt ≠ none := by
  refine ⟨booting_directory, booting_vacant_page, missing_of_slot (by decide), by decide, by decide,
    ?_⟩
  intro pse
  cases pse with
  | false => exact ⟨_, rfl, by decide⟩
  | true => exact ⟨_, rfl, by decide⟩

end Memory

end SistemasOperativos.Jos
