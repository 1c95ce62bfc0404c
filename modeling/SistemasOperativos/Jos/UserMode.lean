import SistemasOperativos.Jos.CowFault

/-!
# Instructions in user mode

Some instructions of the processor, with what they do to the registers and the memory of a program.
Every access goes through the page tables. With `FL_AC` set it has to be aligned, because `mem_init`
sets `CR0_AM`, and an instruction that starts with `FL_TF` set ends in a debug exception.
-/

namespace SistemasOperativos.Jos

/-! ## Bytes of memory -/

section Bytes

variable {w : Word} {lane lane' : BitVec 2} {b : BitVec 8}

def getByte (w : Word) (lane : BitVec 2) : BitVec 8 := w.extractLsb' (8 * lane.toNat) 8

theorem getByte_setByte : getByte (Memory.setByte w lane b) lane' =
    if lane' = lane then b else getByte w lane' := by
  have hlane := lane.isLt
  have hlane' := lane'.isLt
  apply BitVec.eq_of_getLsbD_eq
  intro i hi
  have hbit : (0xff#32).getLsbD (8 * lane'.toNat + i - 8 * lane.toNat) =
      decide (8 * lane'.toNat + i - 8 * lane.toNat < 8) := by
    have hones : 0xff#32 = BitVec.setWidth 32 (BitVec.allOnes 8) := rfl
    rw [hones, BitVec.getLsbD_setWidth, BitVec.getLsbD_allOnes, Bool.and_eq_right_iff_imp]
    intro h
    rw [decide_eq_true_eq] at h ⊢
    omega
  simp only [getByte, Memory.setByte, BitVec.getLsbD_extractLsb', hi, decide_true, Bool.true_and,
    BitVec.getLsbD_or, BitVec.getLsbD_and, BitVec.getLsbD_not, BitVec.getLsbD_shiftLeft, hbit,
    BitVec.getLsbD_setWidth]
  have hword : 8 * lane'.toNat + i < 32 := by omega
  by_cases h : lane' = lane
  · have hsub : 8 * lane.toNat + i - 8 * lane.toNat = i := by omega
    have hnot : ¬ 8 * lane.toNat + i < 8 * lane.toNat := by omega
    rw [h] at hword
    simp only [h, hsub, hnot, hi, hword, Nat.lt_trans hi (by decide : 8 < 32), decide_true,
      decide_false, Bool.and_true, Bool.and_false, Bool.not_true, Bool.not_false, Bool.true_and,
      Bool.false_or, if_true]
  · have hne : lane'.toNat ≠ lane.toNat := fun heq ↦ h (BitVec.eq_of_toNat_eq heq)
    rw [if_neg h, BitVec.getLsbD_extractLsb']
    by_cases hbelow : 8 * lane'.toNat + i < 8 * lane.toNat
    · simp only [hbelow, hi, hword, decide_true, Bool.not_true, Bool.false_and, Bool.not_false,
        Bool.and_true, Bool.or_false, Bool.true_and]
    · have habove : ¬ 8 * lane'.toNat + i - 8 * lane.toNat < 8 := by omega
      have hzero : b.getLsbD (8 * lane'.toNat + i - 8 * lane.toNat) = false :=
        BitVec.getLsbD_of_ge b _ (Nat.not_lt.mp habove)
      simp only [habove, hzero, hi, hword, decide_true, decide_false, Bool.and_false,
        Bool.not_false, Bool.and_true, Bool.or_false, Bool.true_and]

end Bytes

/-- `PGOFF(la)`. -/
def pgoff (la : Word) : ℕ := la.toNat % 4096

theorem pgoff_eq_iff {va va' : Word} : pgoff va' = pgoff va ↔
    va'.extractLsb' 2 10 = va.extractLsb' 2 10 ∧ va'.extractLsb' 0 2 = va.extractLsb' 0 2 := by
  rw [← BitVec.toNat_inj, ← BitVec.toNat_inj]
  simp only [pgoff, BitVec.extractLsb'_toNat, Nat.shiftRight_eq_div_pow]
  omega

theorem pgoff_add (va : Word) (i : ℕ) : pgoff (va + BitVec.ofNat 32 i) = (va.toNat + i) % 4096 := by
  rw [pgoff, BitVec.toNat_add, BitVec.toNat_ofNat]
  omega

theorem add_one_ofNat (va : Word) (i : ℕ) :
    va + 1 + BitVec.ofNat 32 i = va + BitVec.ofNat 32 (i + 1) := by
  rw [BitVec.add_assoc, BitVec.ofNat_add, BitVec.add_comm (BitVec.ofNat 32 i)]
  rfl

namespace Memory

variable {m m' : Memory} {cr3 pp pp' : Ppn} {need va va' : Word} {b : BitVec 8}
  {bs bs' : List (BitVec 8)}

/-- The byte of a page at the offset of an address. -/
def cell (m : Memory) (pp : Ppn) (va : Word) : BitVec 8 :=
  getByte (m.word pp (va.extractLsb' 2 10)) (va.extractLsb' 0 2)

def setCell (m : Memory) (pp : Ppn) (va : Word) (b : BitVec 8) : Memory :=
  m.writePte (pp, va.extractLsb' 2 10)
    (setByte (m.word pp (va.extractLsb' 2 10)) (va.extractLsb' 0 2) b)

theorem cell_setCell : (m.setCell pp va b).cell pp' va' =
    if pp' = pp ∧ pgoff va' = pgoff va then b else m.cell pp' va' := by
  simp only [cell, setCell, writePte_word, pgoff_eq_iff]
  by_cases hpp : pp' = pp
  · by_cases hslot : va'.extractLsb' 2 10 = va.extractLsb' 2 10
    · simp only [hpp, hslot, and_self, if_true, getByte_setByte, true_and]
    · simp only [hslot, and_false, false_and, if_false]
  · simp only [hpp, false_and, if_false]

/-- Writes byte after byte, with the bits that the access needs in both entries. -/
def storeRange (cr3 : Ppn) (need : Word) : Word → List (BitVec 8) → Memory → Option Memory
  | _, [], m => some m
  | va, b :: bs, m => do
    let pp ← m.translate cr3 need va
    storeRange cr3 need (va + 1) bs (m.setCell pp va b)

/-- What the kernel writes at a user address. -/
theorem storeBytes_of_storeRange (h : m.storeRange cr3 kernelWrite va bs = some m') :
    m.storeBytes cr3 va bs = .ok m' := by
  induction bs generalizing m va with
  | nil =>
    cases h
    rfl
  | cons b bs ih =>
    obtain ⟨pp, hpp, hrest⟩ := Option.bind_eq_some_iff.mp h
    have hbyte : m.storeByte cr3 kernelWrite va b = .ok (m.setCell pp va b) := by
      rw [storeByte, hpp]
      rfl
    exact Library.Except.bind_ok.mpr ⟨_, hbyte, ih hrest⟩

/-! ## An address space that its program cannot change -/

/-- No page that the program may write is its page directory or one of the page tables that its accesses
go through. -/
def Sealed (m : Memory) (cr3 : Ppn) : Prop :=
  ∀ va pp, m.translate cr3 userWrite va = some pp →
    pp ≠ cr3 ∧ ∀ d, m.word cr3 d &&& userRead = userRead → pp ≠ pgnum (m.word cr3 d)

/-- An access that needs less finds the same page. -/
theorem translate_of_userWrite (hneed : userWrite &&& need = need)
    (h : m.translate cr3 userWrite va = some pp) : m.translate cr3 need va = some pp := by
  rw [translate] at h
  split at h
  · next hbits =>
    rw [translate]
    exact (if_pos ⟨bits_of_bits hneed hbits.1, bits_of_bits hneed hbits.2⟩).trans h
  · cases h

section SetCell

variable (hm : m.Sealed cr3) (hpp : m.translate cr3 userWrite va = some pp)

include hm hpp

theorem Sealed.word_setCell : (m.setCell pp va' b).word cr3 = m.word cr3 :=
  Function.update_of_ne (hm va pp hpp).1.symm ..

/-- A write of the program changes no translation. -/
theorem Sealed.translate_setCell {addr : Word} (hneed : need &&& userRead = userRead) :
    (m.setCell pp va' b).translate cr3 need addr = m.translate cr3 need addr := by
  have hdir := @Sealed.word_setCell m cr3 pp va va' b hm hpp
  by_cases hbits : m.word cr3 (pdx addr) &&& need = need
  · have hne := (hm va pp hpp).2 (pdx addr) (bits_of_bits hneed hbits)
    have htable : (m.setCell pp va' b).word (pgnum (m.word cr3 (pdx addr))) =
        m.word (pgnum (m.word cr3 (pdx addr))) := Function.update_of_ne hne.symm ..
    simp only [translate, readPte, hdir, htable]
    rfl
  · simp only [translate, readPte, hdir, hbits, false_and, if_false]

theorem Sealed.setCell : (m.setCell pp va' b).Sealed cr3 := by
  intro addr q hq
  rw [hm.translate_setCell hpp (by decide)] at hq
  obtain ⟨hne, htables⟩ := hm addr q hq
  refine ⟨hne, fun d hd ↦ ?_⟩
  rw [hm.word_setCell hpp] at hd ⊢
  exact htables d hd

end SetCell

/-! ## Reads of the program -/

def loadByte (cr3 : Ppn) (va : Word) (m : Memory) : Option (BitVec 8) :=
  (m.translate cr3 userRead va).map fun pp ↦ m.cell pp va

/-- Four bytes, of which the first one is the lowest. -/
def loadLong (cr3 : Ppn) (va : Word) (m : Memory) : Option Word := do
  let b₀ ← m.loadByte cr3 va
  let b₁ ← m.loadByte cr3 (va + 1)
  let b₂ ← m.loadByte cr3 (va + 2)
  let b₃ ← m.loadByte cr3 (va + 3)
  return b₃ ++ b₂ ++ b₁ ++ b₀

/-- The program may read `len` bytes from `va` on. -/
def Readable (m : Memory) (cr3 : Ppn) (va : Word) (len : ℕ) : Prop :=
  ∀ i < len, (m.translate cr3 userRead (va + BitVec.ofNat 32 i)).isSome

theorem Readable.loadLong (h : m.Readable cr3 va 4) : ∃ w, m.loadLong cr3 va = some w := by
  have hbyte (i : ℕ) (hi : i < 4) : ∃ b, m.loadByte cr3 (va + BitVec.ofNat 32 i) = some b := by
    obtain ⟨pp, hpp⟩ := Option.isSome_iff_exists.mp (h i hi)
    exact ⟨m.cell pp (va + BitVec.ofNat 32 i), by rw [loadByte, hpp]; rfl⟩
  obtain ⟨b₀, h₀⟩ := hbyte 0 (by decide)
  obtain ⟨b₁, h₁⟩ := hbyte 1 (by decide)
  obtain ⟨b₂, h₂⟩ := hbyte 2 (by decide)
  obtain ⟨b₃, h₃⟩ := hbyte 3 (by decide)
  have hzero : va + BitVec.ofNat 32 0 = va := BitVec.add_zero va
  rw [hzero] at h₀
  refine ⟨b₃ ++ b₂ ++ b₁ ++ b₀, Option.bind_eq_some_iff.mpr ⟨b₀, h₀, ?_⟩⟩
  exact Option.bind_eq_some_iff.mpr ⟨b₁, h₁, Option.bind_eq_some_iff.mpr ⟨b₂, h₂,
    Option.bind_eq_some_iff.mpr ⟨b₃, h₃, rfl⟩⟩⟩

/-! ## Ranges of bytes -/

/-- The program finds these bytes from `va` on, and may write them. -/
def Has (m : Memory) (cr3 : Ppn) (va : Word) (bs : List (BitVec 8)) : Prop :=
  ∀ i (hi : i < bs.length), ∃ pp, m.translate cr3 userWrite (va + BitVec.ofNat 32 i) = some pp ∧
    m.cell pp (va + BitVec.ofNat 32 i) = bs[i]

/-- The program may write `len` bytes from `va` on. -/
def Writable (m : Memory) (cr3 : Ppn) (va : Word) (len : ℕ) : Prop :=
  ∀ i < len, (m.translate cr3 userWrite (va + BitVec.ofNat 32 i)).isSome

/-- The two ranges have no byte of physical memory in common. -/
def Apart (m : Memory) (cr3 : Ppn) (va : Word) (len : ℕ) (va' : Word) (len' : ℕ) : Prop :=
  ∀ i < len, ∀ j < len', ∀ pp, m.translate cr3 userWrite (va + BitVec.ofNat 32 i) = some pp →
    m.translate cr3 userWrite (va' + BitVec.ofNat 32 j) = some pp →
      pgoff (va + BitVec.ofNat 32 i) ≠ pgoff (va' + BitVec.ofNat 32 j)

/-- The bytes have been written from `va` on, by the program or for it. -/
structure Stored (cr3 : Ppn) (va : Word) (bs : List (BitVec 8)) (m m' : Memory) : Prop where
  isSealed : m'.Sealed cr3
  directory : m'.word cr3 = m.word cr3
  npages : m'.npages = m.npages
  translate {need addr : Word} : need &&& userRead = userRead →
    m'.translate cr3 need addr = m.translate cr3 need addr
  inside : ∀ i (hi : i < bs.length) pp,
    m.translate cr3 userWrite (va + BitVec.ofNat 32 i) = some pp →
      m'.cell pp (va + BitVec.ofNat 32 i) = bs[i]
  outside : ∀ pp addr, (∀ i < bs.length,
    m.translate cr3 userWrite (va + BitVec.ofNat 32 i) = some pp →
      pgoff addr ≠ pgoff (va + BitVec.ofNat 32 i)) → m'.cell pp addr = m.cell pp addr

theorem storeRange_stored (hm : m.Sealed cr3) (hneed : userWrite &&& need = need)
    (hw : m.Writable cr3 va bs.length) (hlen : bs.length ≤ 4096) :
    ∃ m', m.storeRange cr3 need va bs = some m' ∧ Stored cr3 va bs m m' := by
  induction bs generalizing m va with
  | nil =>
    refine ⟨m, rfl, hm, rfl, rfl, fun _ ↦ rfl, fun i hi ↦ ?_, fun _ _ _ ↦ rfl⟩
    exact absurd hi (Nat.not_lt_zero i)
  | cons b bs ih =>
    rw [List.length_cons] at hw hlen
    have hzero : va + BitVec.ofNat 32 0 = va := BitVec.add_zero va
    obtain ⟨pp, hpp⟩ := Option.isSome_iff_exists.mp (hw 0 (Nat.succ_pos _))
    rw [hzero] at hpp
    have htranslate {need addr : Word} (h : need &&& userRead = userRead) :
        (m.setCell pp va b).translate cr3 need addr = m.translate cr3 need addr :=
      hm.translate_setCell hpp h
    have hrest : (m.setCell pp va b).Writable cr3 (va + 1) bs.length := by
      intro i hi
      rw [htranslate (by decide), add_one_ofNat]
      exact hw (i + 1) (Nat.succ_lt_succ hi)
    obtain ⟨m', hstore, hstored⟩ := ih (hm.setCell hpp) hrest (Nat.le_of_succ_le hlen)
    refine ⟨m', ?_, hstored.isSealed, hstored.directory.trans (hm.word_setCell hpp),
      hstored.npages, fun h ↦ (hstored.translate h).trans (htranslate h), ?_, ?_⟩
    · rw [storeRange, translate_of_userWrite hneed hpp]
      exact hstore
    · intro i hi q hq
      cases i with
      | zero =>
        rw [hzero] at hq ⊢
        obtain rfl : q = pp := Option.some.inj (hq.symm.trans hpp)
        have hkeep : m'.cell q va = (m.setCell q va b).cell q va := by
          refine hstored.outside q va fun j hj _ ↦ ?_
          rw [List.length_cons] at hi
          rw [add_one_ofNat, pgoff_add, pgoff]
          omega
        rw [hkeep, cell_setCell, if_pos ⟨rfl, rfl⟩]
        rfl
      | succ i =>
        have hi' : i < bs.length := Nat.lt_of_succ_lt_succ hi
        have hin := hstored.inside i hi' q
        rw [htranslate (by decide), add_one_ofNat] at hin
        exact hin hq
    · intro q addr haddr
      have hkeep : m'.cell q addr = (m.setCell pp va b).cell q addr := by
        refine hstored.outside q addr fun j hj hq ↦ ?_
        rw [htranslate (by decide), add_one_ofNat] at hq
        rw [add_one_ofNat]
        exact haddr (j + 1) (Nat.succ_lt_succ hj) hq
      rw [hkeep, cell_setCell, if_neg]
      intro heq
      have hfirst := haddr 0 (Nat.succ_pos _)
      rw [hzero, heq.1] at hfirst
      exact hfirst hpp heq.2

theorem Apart.symm {len len' : ℕ} (h : m.Apart cr3 va len va' len') :
    m.Apart cr3 va' len' va len := by
  intro i hi j hj pp hpp hq heq
  exact h j hj i hi pp hq hpp heq.symm

/-- A part of a range is apart from what the range is apart from. -/
theorem Apart.part {len len' k l : ℕ} (h : m.Apart cr3 va len va' len') (hk : k + l ≤ len) :
    m.Apart cr3 (va + BitVec.ofNat 32 k) l va' len' := by
  intro i hi j hj pp hpp hq
  have haddr : va + BitVec.ofNat 32 k + BitVec.ofNat 32 i = va + BitVec.ofNat 32 (k + i) := by
    rw [BitVec.add_assoc, BitVec.ofNat_add]
  rw [haddr] at hpp ⊢
  exact h (k + i) (by omega) j hj pp hpp hq

theorem Has.writable (h : m.Has cr3 va bs) : m.Writable cr3 va bs.length := by
  intro i hi
  obtain ⟨pp, hpp, -⟩ := h i hi
  rw [hpp]
  rfl

section Stored

variable {len len' : ℕ} (hstored : Stored cr3 va bs m m')

include hstored

theorem Stored.has (h : m.Writable cr3 va bs.length) : m'.Has cr3 va bs := by
  intro i hi
  obtain ⟨pp, hpp⟩ := Option.isSome_iff_exists.mp (h i hi)
  exact ⟨pp, (hstored.translate (by decide)).trans hpp, hstored.inside i hi pp hpp⟩

/-- What lies apart from the bytes that are written is kept. -/
theorem Stored.has_apart (h : m.Has cr3 va' bs')
    (hapart : m.Apart cr3 va' bs'.length va bs.length) : m'.Has cr3 va' bs' := by
  intro i hi
  obtain ⟨pp, hpp, hcell⟩ := h i hi
  refine ⟨pp, (hstored.translate (by decide)).trans hpp, ?_⟩
  rw [hstored.outside pp _ fun j hj hq ↦ hapart i hi j hj pp hpp hq]
  exact hcell

theorem Stored.writable (h : m.Writable cr3 va' len) : m'.Writable cr3 va' len := by
  intro i hi
  rw [hstored.translate (by decide)]
  exact h i hi

theorem Stored.writable_before (h : m'.Writable cr3 va' len) : m.Writable cr3 va' len := by
  intro i hi
  rw [← hstored.translate (by decide)]
  exact h i hi

theorem Stored.readable (h : m.Readable cr3 va' len) : m'.Readable cr3 va' len := by
  intro i hi
  rw [hstored.translate (by decide)]
  exact h i hi

theorem Stored.apart {addr : Word} (h : m.Apart cr3 va' len addr len') :
    m'.Apart cr3 va' len addr len' := by
  intro i hi j hj pp hpp hq
  rw [hstored.translate (by decide)] at hpp hq
  exact h i hi j hj pp hpp hq

end Stored

theorem Has.left (h : m.Has cr3 va (bs ++ bs')) : m.Has cr3 va bs := by
  intro i hi
  obtain ⟨pp, hpp, hcell⟩ := h i (Nat.lt_of_lt_of_le hi (by rw [List.length_append]; omega))
  rw [List.getElem_append_left hi] at hcell
  exact ⟨pp, hpp, hcell⟩

theorem Has.right (h : m.Has cr3 va (bs ++ bs')) :
    m.Has cr3 (va + BitVec.ofNat 32 bs.length) bs' := by
  intro i hi
  have haddr : va + BitVec.ofNat 32 bs.length + BitVec.ofNat 32 i =
      va + BitVec.ofNat 32 (bs.length + i) := by
    rw [BitVec.add_assoc, BitVec.ofNat_add]
  obtain ⟨pp, hpp, hcell⟩ := h (bs.length + i) (by rw [List.length_append]; omega)
  have hi' : bs.length + i - bs.length = i := by omega
  rw [List.getElem_append_right (Nat.le_add_right _ _)] at hcell
  simp only [hi'] at hcell
  rw [haddr]
  exact ⟨pp, hpp, hcell⟩

theorem Has.append (h : m.Has cr3 va bs)
    (h' : m.Has cr3 (va + BitVec.ofNat 32 bs.length) bs') : m.Has cr3 va (bs ++ bs') := by
  intro i hi
  by_cases hleft : i < bs.length
  · rw [List.getElem_append_left hleft]
    exact h i hleft
  · have hright : i - bs.length < bs'.length := by
      rw [List.length_append] at hi
      omega
    have haddr : va + BitVec.ofNat 32 bs.length + BitVec.ofNat 32 (i - bs.length) =
        va + BitVec.ofNat 32 i := by
      rw [BitVec.add_assoc, ← BitVec.ofNat_add, Nat.add_sub_cancel' (Nat.not_lt.mp hleft)]
    rw [List.getElem_append_right (Nat.not_lt.mp hleft), ← haddr]
    exact h' (i - bs.length) hright

/-- The bytes before a range that is written, in one piece with it. -/
theorem Stored.has_before (hstored : Stored cr3 (va + BitVec.ofNat 32 bs.length) bs' m m')
    (h : m.Has cr3 va bs) (hlen : bs.length + bs'.length ≤ 4096) : m'.Has cr3 va bs := by
  refine hstored.has_apart h fun i hi j hj pp _ _ ↦ ?_
  rw [pgoff_add, BitVec.add_assoc, BitVec.ofNat_add_ofNat, pgoff_add]
  omega

/-- A word of several in a row. -/
theorem Has.word {ws : List Word} {k : ℕ} {w : Word} (h : m.Has cr3 va (ws.flatMap wordBytes))
    (hw : ws[k]? = some w) : m.Has cr3 (va + BitVec.ofNat 32 (4 * k)) (wordBytes w) := by
  induction ws generalizing va k with
  | nil => cases hw
  | cons w' ws ih =>
    rw [List.flatMap_cons] at h
    cases k with
    | zero =>
      rw [List.getElem?_cons_zero, Option.some.injEq] at hw
      rw [← hw]
      exact cast (congrArg (m.Has cr3 · (wordBytes w')) (BitVec.add_zero va).symm) h.left
    | succ k =>
      have haddr : va + BitVec.ofNat 32 4 + BitVec.ofNat 32 (4 * k) =
          va + BitVec.ofNat 32 (4 * (k + 1)) := by
        rw [BitVec.add_assoc, ← BitVec.ofNat_add, Nat.mul_succ, Nat.add_comm]
      rw [← haddr]
      exact ih h.right hw

/-- The program finds these words from `va` on, and may write them. -/
def HasWords (m : Memory) (cr3 : Ppn) : Word → List Word → Prop
  | _, [] => True
  | va, w :: ws => m.Has cr3 va (wordBytes w) ∧ HasWords m cr3 (va + 4) ws

theorem Has.words {ws : List Word} (h : m.Has cr3 va (ws.flatMap wordBytes)) :
    m.HasWords cr3 va ws := by
  induction ws generalizing va with
  | nil => trivial
  | cons w ws ih =>
    rw [List.flatMap_cons] at h
    exact ⟨h.left, ih h.right⟩

theorem wordBytes_append (w : Word) : w.extractLsb' 24 8 ++ w.extractLsb' 16 8 ++
    w.extractLsb' 8 8 ++ w.extractLsb' 0 8 = w := by
  apply BitVec.eq_of_getLsbD_eq
  intro i hi
  simp only [BitVec.getLsbD_append, BitVec.getLsbD_extractLsb']
  grind

theorem Has.loadLong {w : Word} (h : m.Has cr3 va (wordBytes w)) :
    m.loadLong cr3 va = some w := by
  have hbyte (i : ℕ) (hi : i < (wordBytes w).length) :
      m.loadByte cr3 (va + BitVec.ofNat 32 i) = some (wordBytes w)[i] := by
    obtain ⟨pp, hpp, hcell⟩ := h i hi
    rw [loadByte, translate_of_userWrite (by decide) hpp, Option.map_some, hcell]
  have hfirst : m.loadByte cr3 va = some (w.extractLsb' 0 8) := by
    rw [← BitVec.add_zero va]
    exact hbyte 0 (by decide : 0 < 4)
  have hsecond : m.loadByte cr3 (va + 1) = some (w.extractLsb' 8 8) := hbyte 1 (by decide : 1 < 4)
  have hthird : m.loadByte cr3 (va + 2) = some (w.extractLsb' 16 8) := hbyte 2 (by decide : 2 < 4)
  have hfourth : m.loadByte cr3 (va + 3) = some (w.extractLsb' 24 8) := hbyte 3 (by decide : 3 < 4)
  simp only [Memory.loadLong, hfirst, hsecond, hthird, hfourth, Option.bind_eq_bind,
    Option.bind_some, Option.pure_def, wordBytes_append]

end Memory

/-! ## Registers -/

def flTf : Word := 0x100
def flAc : Word := 0x40000

/-- The flags that arithmetic sets: `FL_CF`, `FL_PF`, `FL_AF`, `FL_ZF`, `FL_SF` and `FL_OF`. -/
def flArith : Word := 0x8d5

/-- The flags that `popfl` changes in user mode: those, `FL_TF`, `FL_DF`, `FL_NT`, `FL_AC` and
`FL_ID`. -/
def flUser : Word := 0x244dd5

/-- The register state of a program. The member `regOesp` is no register. -/
structure Regs where
  regs : PushRegs
  eip : Word
  eflags : Word
  esp : Word

inductive Reg where
  | edi
  | esi
  | ebp
  | ebx
  | edx
  | ecx
  | eax
  | esp
deriving DecidableEq

namespace Regs

def get (r : Regs) : Reg → Word
  | .edi => r.regs.regEdi
  | .esi => r.regs.regEsi
  | .ebp => r.regs.regEbp
  | .ebx => r.regs.regEbx
  | .edx => r.regs.regEdx
  | .ecx => r.regs.regEcx
  | .eax => r.regs.regEax
  | .esp => r.esp

def set (r : Regs) (reg : Reg) (w : Word) : Regs :=
  match reg with
  | .edi => { r with regs := { r.regs with regEdi := w } }
  | .esi => { r with regs := { r.regs with regEsi := w } }
  | .ebp => { r with regs := { r.regs with regEbp := w } }
  | .ebx => { r with regs := { r.regs with regEbx := w } }
  | .edx => { r with regs := { r.regs with regEdx := w } }
  | .ecx => { r with regs := { r.regs with regEcx := w } }
  | .eax => { r with regs := { r.regs with regEax := w } }
  | .esp => { r with esp := w }

/-- The comparison of `check_regs`, with the flags that a program can change. -/
structure Same (a b : Regs) : Prop where
  edi : a.regs.regEdi = b.regs.regEdi
  esi : a.regs.regEsi = b.regs.regEsi
  ebp : a.regs.regEbp = b.regs.regEbp
  ebx : a.regs.regEbx = b.regs.regEbx
  edx : a.regs.regEdx = b.regs.regEdx
  ecx : a.regs.regEcx = b.regs.regEcx
  eax : a.regs.regEax = b.regs.regEax
  eip : a.eip = b.eip
  eflags : a.eflags &&& flUser = b.eflags &&& flUser
  esp : a.esp = b.esp

theorem Same.symm {a b : Regs} (h : a.Same b) : b.Same a :=
  ⟨h.edi.symm, h.esi.symm, h.ebp.symm, h.ebx.symm, h.edx.symm, h.ecx.symm, h.eax.symm, h.eip.symm,
    h.eflags.symm, h.esp.symm⟩

theorem Same.trans {a b c : Regs} (h : a.Same b) (h' : b.Same c) : a.Same c :=
  ⟨h.edi.trans h'.edi, h.esi.trans h'.esi, h.ebp.trans h'.ebp, h.ebx.trans h'.ebx,
    h.edx.trans h'.edx, h.ecx.trans h'.ecx, h.eax.trans h'.eax, h.eip.trans h'.eip,
    h.eflags.trans h'.eflags, h.esp.trans h'.esp⟩

end Regs

/-! ## Instructions -/

inductive Instr where
  | pushl (src : Reg)
  | popl (dst : Reg)
  /-- `movl address, dst`, with the address of a variable. -/
  | movlVar (address : Word) (dst : Reg)
  /-- `movl disp(base), dst`. -/
  | movlFrom (disp : Word) (base dst : Reg)
  /-- `movl src, disp(base)`. -/
  | movlTo (src : Reg) (disp : Word) (base : Reg)
  | addl (imm : Word) (dst : Reg)
  | subl (imm : Word) (dst : Reg)
  | call (target : Reg)
  | popal
  | popfl
  | ret
deriving DecidableEq

/-- The length of the code that the assembler makes of an instruction, for displacements and
constants of one byte. A displacement of zero takes none, and an address on the stack one more. -/
def Instr.size : Instr → Word
  | .movlVar _ .eax => 5
  | .movlVar _ _ => 6
  | .movlFrom disp base _ => 2 + (if base = .esp then 1 else 0) + if disp = 0 then 0 else 1
  | .movlTo _ disp base => 2 + (if base = .esp then 1 else 0) + if disp = 0 then 0 else 1
  | .addl _ _ => 3
  | .subl _ _ => 3
  | .call _ => 2
  | _ => 1

inductive Exception where
  | pageFault
  | alignment
  | debug
deriving DecidableEq

/-- The parity flag looks at the low byte. -/
def evenParity (w : Word) : Bool :=
  ((List.range 8).map w.getLsbD).foldl xor false = false

def flagIf (flag : Word) (p : Bool) : Word := if p then flag else 0

/-- The arithmetic flags for a result, with the carries out of bit 31 and out of bit 3. -/
def arithFlags (result : Word) (carry aux overflow : Bool) : Word :=
  flagIf 0x1 carry ||| flagIf 0x4 (evenParity result) ||| flagIf 0x10 aux |||
    flagIf 0x40 (result = 0) ||| flagIf 0x80 result.msb ||| flagIf 0x800 overflow

def addFlags (a b : Word) : Word :=
  arithFlags (a + b) (2 ^ 32 ≤ a.toNat + b.toNat) (16 ≤ a.toNat % 16 + b.toNat % 16)
    (a.msb = b.msb ∧ (a + b).msb ≠ a.msb)

def subFlags (a b : Word) : Word :=
  arithFlags (a - b) (a < b) (a.toNat % 16 < b.toNat % 16) (a.msb ≠ b.msb ∧ (a - b).msb ≠ a.msb)

theorem arithFlags_and {result bit : Word} {carry aux overflow : Bool}
    (h : flArith &&& bit = 0) : arithFlags result carry aux overflow &&& bit = 0 := by
  have hone (flag : Word) (p : Bool) (hflag : flag &&& flArith = flag) :
      flagIf flag p &&& bit = 0 := by
    cases p with
    | false => exact BitVec.zero_and
    | true =>
      calc flag &&& bit = flag &&& flArith &&& bit := by rw [hflag]
        _ = flag &&& (flArith &&& bit) := BitVec.and_assoc ..
        _ = 0 := by rw [h]; exact BitVec.and_zero
  have hor (a b : Word) (ha : a &&& bit = 0) (hb : b &&& bit = 0) : (a ||| b) &&& bit = 0 := by
    rw [BitVec.and_comm, BitVec.and_or_distrib_left, BitVec.and_comm bit, BitVec.and_comm bit, ha, hb]
    rfl
  unfold arithFlags
  repeat' apply hor
  all_goals exact hone _ _ rfl

/-- The registers and the memory of a program. -/
structure Program where
  regs : Regs
  memory : Memory

namespace Program

variable (cr3 : Ppn)

/-- An access of four bytes has the address that it needs where `FL_AC` is set. -/
def Misaligned (p : Program) (va : Word) : Prop :=
  p.regs.eflags &&& flAc ≠ 0 ∧ va.toNat % 4 ≠ 0

instance (p : Program) (va : Word) : Decidable (p.Misaligned va) :=
  inferInstanceAs (Decidable (_ ∧ _))

def load (va : Word) (p : Program) : Except Exception Word :=
  if p.Misaligned va then .error .alignment
  else match p.memory.loadLong cr3 va with
    | none => .error .pageFault
    | some w => .ok w

def store (va w : Word) (p : Program) : Except Exception Program :=
  if p.Misaligned va then .error .alignment
  else match p.memory.storeRange cr3 Memory.userWrite va (wordBytes w) with
    | none => .error .pageFault
    | some memory => .ok { p with memory }

def set (reg : Reg) (w : Word) (p : Program) : Program := { p with regs := p.regs.set reg w }

def push (w : Word) (p : Program) : Except Exception Program := do
  let p ← p.store cr3 (p.regs.esp - 4) w
  return p.set .esp (p.regs.esp - 4)

def pop (p : Program) : Except Exception (Word × Program) := do
  let w ← p.load cr3 p.regs.esp
  return (w, p.set .esp (p.regs.esp + 4))

/-- The flags after an instruction of arithmetic. -/
def arith (flags : Word) (p : Program) : Program :=
  { p with regs := { p.regs with eflags := p.regs.eflags &&& ~~~flArith ||| flags } }

/-- What an instruction does, once `eip` is past it. -/
def exec (i : Instr) (p : Program) : Except Exception Program :=
  match i with
  | .pushl src => p.push cr3 (p.regs.get src)
  | .popl dst => do
    let (w, p) ← p.pop cr3
    return p.set dst w
  | .movlVar address dst => do
    let w ← p.load cr3 address
    return p.set dst w
  | .movlFrom disp base dst => do
    let w ← p.load cr3 (p.regs.get base + disp)
    return p.set dst w
  | .movlTo src disp base => p.store cr3 (p.regs.get base + disp) (p.regs.get src)
  | .addl imm dst =>
    let w := p.regs.get dst
    .ok ((p.set dst (w + imm)).arith (addFlags w imm))
  | .subl imm dst =>
    let w := p.regs.get dst
    .ok ((p.set dst (w - imm)).arith (subFlags w imm))
  | .call target => do
    let eip := p.regs.get target
    let p ← p.push cr3 p.regs.eip
    return { p with regs := { p.regs with eip } }
  | .popal => do
    let (regEdi, p) ← p.pop cr3
    let (regEsi, p) ← p.pop cr3
    let (regEbp, p) ← p.pop cr3
    let (_, p) ← p.pop cr3
    let (regEbx, p) ← p.pop cr3
    let (regEdx, p) ← p.pop cr3
    let (regEcx, p) ← p.pop cr3
    let (regEax, p) ← p.pop cr3
    let regs := { p.regs.regs with regEdi, regEsi, regEbp, regEbx, regEdx, regEcx, regEax }
    return { p with regs := { p.regs with regs } }
  | .popfl => do
    let (w, p) ← p.pop cr3
    return { p with regs := { p.regs with
      eflags := p.regs.eflags &&& ~~~flUser ||| w &&& flUser } }
  | .ret => do
    let (eip, p) ← p.pop cr3
    return { p with regs := { p.regs with eip } }

def step (i : Instr) (p : Program) : Except Exception Program := do
  let p' ← exec cr3 i { p with regs := { p.regs with eip := p.regs.eip + i.size } }
  if p.regs.eflags &&& flTf ≠ 0 then throw .debug
  return p'

/-- A piece of code without jumps, up to its end. -/
def runBlock : List Instr → Program → Except Exception Program
  | [], p => .ok p
  | i :: is, p => do
    let p ← p.step cr3 i
    p.runBlock is

/-! ## What the instructions do -/

section Steps

variable {cr3 : Ppn} {p p' : Program} {i : Instr} {is : List Instr} {va w : Word} {ws : List Word}
  {r : PushRegs} {ip fl esp : Word} {m : Memory}

/-- Four bytes at this address may be accessed, as far as alignment goes. -/
def Allowed (fl va : Word) : Prop := fl &&& flAc = 0 ∨ va.toNat % 4 = 0

theorem Allowed.not_misaligned (h : Allowed p.regs.eflags va) : ¬ p.Misaligned va := by
  intro hmis
  exact h.elim hmis.1 hmis.2

theorem Allowed.add {k : ℕ} (h : Allowed fl va) : Allowed fl (va + BitVec.ofNat 32 (4 * k)) := by
  refine h.imp_right fun hmod ↦ ?_
  rw [BitVec.toNat_add, BitVec.toNat_ofNat]
  omega

theorem Allowed.sub_four (h : Allowed fl va) : Allowed fl (va - 4) := by
  refine h.imp_right fun hmod ↦ ?_
  have hfour : (4 : Word).toNat = 4 := rfl
  rw [BitVec.toNat_sub, hfour]
  omega

theorem Allowed.of_flags {fl' : Word} (h : Allowed fl va) (hfl : fl' &&& flAc = fl &&& flAc) :
    Allowed fl' va := by
  refine h.imp_left fun hac ↦ ?_
  rw [hfl]
  exact hac

theorem runBlock_cons (h : p.step cr3 i = .ok p') :
    p.runBlock cr3 (i :: is) = p'.runBlock cr3 is := by
  rw [runBlock, h]
  rfl

theorem runBlock_append {js : List Instr} (h : p.runBlock cr3 is = .ok p') :
    p.runBlock cr3 (is ++ js) = p'.runBlock cr3 js := by
  induction is generalizing p with
  | nil =>
    cases h
    rfl
  | cons i is ih =>
    obtain ⟨p₁, hstep, hrest⟩ := Library.Except.bind_ok.mp h
    rw [List.cons_append, runBlock_cons hstep]
    exact ih hrest

/-- Without a trap after it, a step is the instruction. -/
theorem step_of_exec (ht : fl &&& flTf = 0) (h : exec cr3 i ⟨⟨r, ip + i.size, fl, esp⟩, m⟩ = .ok p') :
    step cr3 i ⟨⟨r, ip, fl, esp⟩, m⟩ = .ok p' := by
  have hno : ¬ fl &&& flTf ≠ 0 := not_not_intro ht
  rw [step]
  simp only [h, bind, Except.bind, if_neg hno]
  rfl

theorem step_of_exec_error {e : Exception}
    (h : exec cr3 i ⟨⟨r, ip + i.size, fl, esp⟩, m⟩ = .error e) :
    step cr3 i ⟨⟨r, ip, fl, esp⟩, m⟩ = .error e := by
  rw [step]
  simp only [h, bind, Except.bind]

/-- With `FL_TF` set it ends in the trap. -/
theorem step_of_traced (ht : fl &&& flTf ≠ 0)
    (h : exec cr3 i ⟨⟨r, ip + i.size, fl, esp⟩, m⟩ = .ok p') :
    step cr3 i ⟨⟨r, ip, fl, esp⟩, m⟩ = .error .debug := by
  rw [step]
  simp only [h, bind, Except.bind, if_pos ht]
  rfl

theorem runBlock_cons_error {e : Exception} (h : p.step cr3 i = .error e) :
    p.runBlock cr3 (i :: is) = .error e := by
  rw [runBlock, h]
  rfl

theorem load_of_has (ha : Allowed p.regs.eflags va) (h : p.memory.Has cr3 va (wordBytes w)) :
    p.load cr3 va = .ok w := by
  rw [load, if_neg ha.not_misaligned, h.loadLong]

theorem store_of_writable (hs : p.memory.Sealed cr3) (ha : Allowed p.regs.eflags va)
    (hw : p.memory.Writable cr3 va 4) (w : Word) :
    ∃ memory, p.store cr3 va w = .ok { p with memory } ∧
      Memory.Stored cr3 va (wordBytes w) p.memory memory := by
  obtain ⟨memory, hstore, hstored⟩ :=
    @Memory.storeRange_stored _ _ Memory.userWrite va (wordBytes w) hs (by decide) hw
      (by decide : 4 ≤ 4096)
  refine ⟨memory, ?_, hstored⟩
  rw [store, if_neg ha.not_misaligned, hstore]

/-- A write fails where the first byte cannot be written. -/
theorem store_of_untranslated (ha : Allowed p.regs.eflags va)
    (hnone : p.memory.translate cr3 Memory.userWrite va = none) (w : Word) :
    p.store cr3 va w = .error .pageFault := by
  have hstore : p.memory.storeRange cr3 Memory.userWrite va (wordBytes w) = none := by
    rw [wordBytes, Memory.storeRange, hnone]
    rfl
  rw [store, if_neg ha.not_misaligned, hstore]

/-- A program with these flags may pop these words. -/
structure Pops (cr3 : Ppn) (m : Memory) (fl esp : Word) (ws : List Word) : Prop where
  allowed : Allowed fl esp
  words : m.HasWords cr3 esp ws

theorem Pops.next (h : Pops cr3 m fl esp (w :: ws)) : Pops cr3 m fl (esp + 4) ws :=
  ⟨@Allowed.add esp fl 1 h.allowed, h.words.2⟩

theorem Pops.pop (h : Pops cr3 m fl esp (w :: ws)) :
    pop cr3 ⟨⟨r, ip, fl, esp⟩, m⟩ = .ok (w, ⟨⟨r, ip, fl, esp + 4⟩, m⟩) := by
  rw [Program.pop, @load_of_has cr3 ⟨⟨r, ip, fl, esp⟩, m⟩ esp w h.allowed h.words.1]
  rfl

theorem Pops.popl (h : Pops cr3 m fl esp (w :: ws)) (dst : Reg) :
    exec cr3 (.popl dst) ⟨⟨r, ip, fl, esp⟩, m⟩ =
      .ok ⟨(Regs.mk r ip fl (esp + 4)).set dst w, m⟩ := by
  simp only [exec, h.pop, bind, Except.bind]
  rfl

theorem Pops.ret (h : Pops cr3 m fl esp (w :: ws)) :
    exec cr3 .ret ⟨⟨r, ip, fl, esp⟩, m⟩ = .ok ⟨⟨r, w, fl, esp + 4⟩, m⟩ := by
  simp only [exec, h.pop, bind, Except.bind]
  rfl

theorem Pops.popfl (h : Pops cr3 m fl esp (w :: ws)) :
    exec cr3 .popfl ⟨⟨r, ip, fl, esp⟩, m⟩ =
      .ok ⟨⟨r, ip, fl &&& ~~~flUser ||| w &&& flUser, esp + 4⟩, m⟩ := by
  simp only [exec, h.pop, bind, Except.bind]
  rfl

theorem exec_pushl (hs : p.memory.Sealed cr3) (ha : Allowed p.regs.eflags (p.regs.esp - 4))
    (hw : p.memory.Writable cr3 (p.regs.esp - 4) 4) (src : Reg) :
    ∃ memory, exec cr3 (.pushl src) p =
        .ok ⟨{ p.regs with esp := p.regs.esp - 4 }, memory⟩ ∧
      Memory.Stored cr3 (p.regs.esp - 4) (wordBytes (p.regs.get src)) p.memory memory := by
  obtain ⟨memory, hstore, hstored⟩ := store_of_writable hs ha hw (p.regs.get src)
  exact ⟨memory, Library.Except.bind_ok.mpr ⟨_, hstore, rfl⟩, hstored⟩

theorem exec_call (hs : p.memory.Sealed cr3) (ha : Allowed p.regs.eflags (p.regs.esp - 4))
    (hw : p.memory.Writable cr3 (p.regs.esp - 4) 4) (target : Reg) :
    ∃ memory, exec cr3 (.call target) p =
        .ok ⟨{ p.regs with eip := p.regs.get target, esp := p.regs.esp - 4 }, memory⟩ ∧
      Memory.Stored cr3 (p.regs.esp - 4) (wordBytes p.regs.eip) p.memory memory := by
  obtain ⟨memory, hstore, hstored⟩ := store_of_writable hs ha hw p.regs.eip
  refine ⟨memory, ?_, hstored⟩
  exact Library.Except.bind_ok.mpr ⟨_, Library.Except.bind_ok.mpr ⟨_, hstore, rfl⟩, rfl⟩

theorem exec_movlVar (ha : Allowed p.regs.eflags va) (h : p.memory.loadLong cr3 va = some w)
    (dst : Reg) : exec cr3 (.movlVar va dst) p = .ok (p.set dst w) := by
  rw [exec, load, if_neg ha.not_misaligned, h]
  rfl

theorem exec_movlFrom {disp : Word} {base : Reg} (ha : Allowed p.regs.eflags (p.regs.get base + disp))
    (h : p.memory.Has cr3 (p.regs.get base + disp) (wordBytes w)) (dst : Reg) :
    exec cr3 (.movlFrom disp base dst) p = .ok (p.set dst w) := by
  rw [exec, load_of_has ha h]
  rfl

theorem exec_movlTo {disp : Word} {base : Reg} (hs : p.memory.Sealed cr3)
    (ha : Allowed p.regs.eflags (p.regs.get base + disp))
    (hw : p.memory.Writable cr3 (p.regs.get base + disp) 4) (src : Reg) :
    ∃ memory, exec cr3 (.movlTo src disp base) p = .ok { p with memory } ∧
      Memory.Stored cr3 (p.regs.get base + disp) (wordBytes (p.regs.get src)) p.memory memory :=
  store_of_writable hs ha hw _

theorem Pops.skip {us : List Word} (h : Pops cr3 m fl esp (us ++ ws)) :
    Pops cr3 m fl (esp + BitVec.ofNat 32 (4 * us.length)) ws := by
  induction us generalizing esp with
  | nil => exact cast (congrArg (Pops cr3 m fl · ws) (BitVec.add_zero esp).symm) h
  | cons u us ih =>
    have hesp : esp + 4 + BitVec.ofNat 32 (4 * us.length) =
        esp + BitVec.ofNat 32 (4 * (u :: us).length) := by
      rw [List.length_cons, Nat.mul_succ, Nat.add_comm, BitVec.ofNat_add, BitVec.add_assoc]
      rfl
    rw [← hesp]
    exact ih h.next

theorem Pops.popal {r' : PushRegs} (h : Pops cr3 m fl esp (r'.words ++ ws)) :
    exec cr3 .popal ⟨⟨r, ip, fl, esp⟩, m⟩ =
      .ok ⟨⟨{ r' with regOesp := r.regOesp }, ip, fl, esp + 32⟩, m⟩ := by
  have h₂ := h.next
  have h₃ := h₂.next
  have h₄ := h₃.next
  have h₅ := h₄.next
  have h₆ := h₅.next
  have h₇ := h₆.next
  have h₈ := h₇.next
  have hesp : esp + 4 + 4 + 4 + 4 + 4 + 4 + 4 + 4 = esp + 32 := by
    simp only [BitVec.add_assoc]
    rfl
  rw [← hesp]
  simp only [exec, h.pop, h₂.pop, h₃.pop, h₄.pop, h₅.pop, h₆.pop, h₇.pop, h₈.pop, bind,
    Except.bind]
  rfl

/-- Arithmetic leaves the other flags alone. -/
theorem arith_and {flags bit : Word} (hflags : flags &&& bit = 0)
    (hbit : ~~~flArith &&& bit = bit) :
    (fl &&& ~~~flArith ||| flags) &&& bit = fl &&& bit := by
  rw [BitVec.and_comm, BitVec.and_or_distrib_left, BitVec.and_comm bit flags, hflags,
    BitVec.and_comm bit, BitVec.and_assoc, hbit]
  exact BitVec.or_zero

/-- `popfl` takes the flags of the program from the stack. -/
theorem popfl_and {fl' bit : Word} (hbit : flUser &&& bit = bit) :
    (fl &&& ~~~flUser ||| fl' &&& flUser) &&& bit = fl' &&& bit := by
  have hnone : ~~~flUser &&& bit = 0 := by
    rw [← hbit, ← BitVec.and_assoc, BitVec.not_and_self]
    exact BitVec.zero_and
  have hzero : fl &&& 0 = 0 := BitVec.and_zero
  rw [BitVec.and_comm, BitVec.and_or_distrib_left, BitVec.and_comm bit, BitVec.and_comm bit,
    BitVec.and_assoc, BitVec.and_assoc, hbit, hnone, hzero]
  exact BitVec.zero_or

end Steps

end Program

end SistemasOperativos.Jos
