import SistemasOperativos.Jos.PageOps

/-!
# What `user_mem_check` accepts

The end of the range and its rounding are computed in 32 bits, so they wrap for ranges near the top
of the address space, and the loop then runs over no page or over the wrong ones. Page numbers and
the bounds of ranges are natural numbers here, and the theorem says for which pairs of address and
length the check means what it should.
-/

namespace SistemasOperativos.Jos.Memory

open Library Library.Except

variable {m : Memory} {pgdir : Option Ppn} {perm va len : Word} {page n : ℕ}

/-! ## The loop over the pages -/

/-- The first address of a page. -/
def pageStart (page : ℕ) : Word := .ofNat 32 (page * 4096)

theorem toNat_pgsize : pgsize.toNat = 4096 := rfl

theorem pageStart_succ (page : ℕ) : pageStart page + pgsize = pageStart (page + 1) := by
  apply BitVec.eq_of_toNat_eq
  simp only [pageStart, toNat_pgsize, BitVec.toNat_add, BitVec.toNat_ofNat]
  omega

/-- The page tables map a page with all the bits of `perm | PTE_P`. -/
def Grants (m : Memory) (pgdir : Option Ppn) (perm : Word) (page : ℕ) : Prop :=
  ∃ pte, pgdirWalk pgdir (pageStart page) false m = .ok (some pte, m) ∧
    m.readPte pte &&& (perm ||| pteP) = perm ||| pteP

/-- Walking without creating leaves memory alone. -/
theorem pgdirWalk_false {r : Option PtePtr} {m' : Memory}
    (h : pgdirWalk pgdir va false m = .ok (r, m')) : m' = m := by
  cases pgdir with
  | none => cases h
  | some pd =>
    simp only [pgdirWalk, Bool.false_eq_true, and_false, if_false, bind_ok, pure_ok] at h
    obtain ⟨m₁, rfl, h⟩ := h
    split at h
    · cases h
      rfl
    · simp only [bind_ok, pure_ok, Prod.mk.injEq] at h
      obtain ⟨pt, -, -, rfl⟩ := h
      rfl

theorem grants_iff : m.Grants pgdir perm page ↔
    ∃ pte m', pgdirWalk pgdir (pageStart page) false m = .ok (some pte, m') ∧
      m.readPte pte &&& (perm ||| pteP) = perm ||| pteP := by
  constructor
  · rintro ⟨pte, hwalk, hbits⟩
    exact ⟨pte, m, hwalk, hbits⟩
  · rintro ⟨pte, m', hwalk, hbits⟩
    obtain rfl := pgdirWalk_false hwalk
    exact ⟨pte, hwalk, hbits⟩

/-- The loop accepts exactly when all its pages are granted. -/
theorem userMemCheckFrom_eq_zero : userMemCheckFrom pgdir perm m (pageStart page) n = .ok 0 ↔
    ∀ i, page ≤ i → i < page + n → m.Grants pgdir perm i := by
  induction n generalizing page with
  | zero => exact ⟨fun _ i hle hlt ↦ by omega, fun _ ↦ rfl⟩
  | succ n ih =>
    have hfirst : (∀ i, page ≤ i → i < page + (n + 1) → m.Grants pgdir perm i) ↔
        m.Grants pgdir perm page ∧ ∀ i, page + 1 ≤ i → i < page + 1 + n → m.Grants pgdir perm i := by
      constructor
      · exact fun h ↦ ⟨h page (Nat.le_refl _) (by omega), fun i hle hlt ↦ h i (by omega) (by omega)⟩
      · rintro ⟨hpage, h⟩ i hle hlt
        by_cases hi : i = page
        · exact hi ▸ hpage
        · exact h i (by omega) (by omega)
    rw [hfirst, ← ih, grants_iff, userMemCheckFrom, ← pageStart_succ]
    cases hwalk : pgdirWalk pgdir (pageStart page) false m with
    | error f =>
      constructor
      · intro h
        cases h
      · rintro ⟨⟨pte, m', hno, -⟩, -⟩
        cases hno
    | ok r =>
      obtain ⟨o, m'⟩ := r
      cases o with
      | none =>
        constructor
        · intro h
          cases h
        · rintro ⟨⟨pte, m'', hno, -⟩, -⟩
          cases hno
      | some pte =>
        simp only [bind, Except.bind, Except.ok.injEq, Prod.mk.injEq, Option.some.injEq]
        by_cases hbits : m.readPte pte &&& (perm ||| pteP) = perm ||| pteP
        · rw [if_neg (not_not.mpr hbits)]
          exact ⟨fun h ↦ ⟨⟨pte, m', ⟨rfl, rfl⟩, hbits⟩, h⟩, And.right⟩
        · rw [if_pos hbits]
          constructor
          · intro h
            cases h
          · rintro ⟨⟨pte', m'', ⟨rfl, rfl⟩, hsi⟩, -⟩
            exact absurd hsi hbits

/-! ## Rounding -/

theorem rounddown_eq (a : Word) : rounddown a = pageStart (a.toNat / 4096) := by
  have hlt := a.isLt
  apply BitVec.eq_of_toNat_eq
  simp only [rounddown, pageStart, toNat_pgsize, BitVec.toNat_sub, BitVec.toNat_umod,
    BitVec.toNat_ofNat]
  omega

theorem toNat_pageStart (h : page < 2 ^ 20) : (pageStart page).toNat = page * 4096 := by
  rw [pageStart, BitVec.toNat_ofNat]
  omega

/-- The end of a range is rounded up to a page, or wraps to the bottom of the address space. -/
theorem toNat_roundup (a : Word) : (roundup a).toNat =
    if a.toNat ≤ 2 ^ 32 - 4096 then (a.toNat + 4095) / 4096 * 4096 else 0 := by
  have hlt := a.isLt
  have hone : (1 : Word).toNat = 1 := rfl
  have hsum : (a + pgsize - 1).toNat = (a.toNat + 4095) % 2 ^ 32 := by
    rw [BitVec.toNat_sub, BitVec.toNat_add, toNat_pgsize, hone]
    omega
  rw [roundup, rounddown_eq, toNat_pageStart (by omega), hsum]
  split <;> omega

/-! ## What the caller may access, and what the check accepts -/

/-- The whole range lies below `UTOP` and the tables grant each page with a byte of it. The end of
the range is not computed in 32 bits. -/
def Accessible (m : Memory) (pgdir : Option Ppn) (perm va len : Word) : Prop :=
  va.toNat + len.toNat ≤ utop.toNat ∧
    ∀ b, va.toNat ≤ b → b < va.toNat + len.toNat → m.Grants pgdir perm (b / 4096)

/-- The page that the check visits for a range that wraps, or for an empty one, where it visits any. -/
def HasTurn (va len : Word) : Prop := va.toNat / 4096 * 4096 < (va + len).toNat

/-- The pairs on which the check means what it should: the rounded end of the range does not leave the
address space, an empty range does not depend on its page, and a range that wraps is refused for
another reason. -/
def RangeChecked (m : Memory) (pgdir : Option Ppn) (perm va len : Word) : Prop :=
  (va + len).toNat ≤ 2 ^ 32 - 4096 ∧
    (va.toNat + len.toNat < 2 ^ 32 →
      len = 0 → HasTurn va len → va ≤ utop → m.Grants pgdir perm (va.toNat / 4096)) ∧
    (2 ^ 32 ≤ va.toNat + len.toNat →
      utop < va + len ∨ HasTurn va len ∧ ¬ m.Grants pgdir perm (va.toNat / 4096))

theorem toNat_utop : utop.toNat = 0xeec00 * 4096 := rfl

/-- A rounded end that wraps to zero makes the check accept without a look at any page. -/
theorem userMemCheck_of_top (h : 2 ^ 32 - 4096 < (va + len).toNat) :
    userMemCheck pgdir va len perm m = .ok 0 := by
  have hzero : (roundup (va + len)).toNat = 0 := by
    rw [toNat_roundup, if_neg (by omega)]
  have hle : ¬ utop < roundup (va + len) := by
    rw [BitVec.lt_def, hzero]
    omega
  rw [userMemCheck, if_neg hle, hzero, Nat.zero_sub, Nat.zero_div]
  rfl

/-- Elsewhere it accepts when the end is at most `UTOP` and the pages up to the end are granted. -/
theorem userMemCheck_eq_zero (h : (va + len).toNat ≤ 2 ^ 32 - 4096) :
    userMemCheck pgdir va len perm m = .ok 0 ↔ va + len ≤ utop ∧
      ∀ i, va.toNat / 4096 ≤ i → i * 4096 < (va + len).toNat → m.Grants pgdir perm i := by
  have hlt := va.isLt
  have hround : (roundup (va + len)).toNat = ((va + len).toNat + 4095) / 4096 * 4096 := by
    rw [toNat_roundup, if_pos h]
  have hbound : utop < roundup (va + len) ↔ ¬ va + len ≤ utop := by
    rw [BitVec.lt_def, BitVec.le_def, hround, toNat_utop]
    omega
  rw [userMemCheck, rounddown_eq, toNat_pageStart (by omega), toNat_pgsize, hround]
  by_cases hle : va + len ≤ utop
  · rw [if_neg (by simp [hbound, hle]), userMemCheckFrom_eq_zero]
    constructor
    · exact fun hall ↦ ⟨hle, fun i hfrom hto ↦ hall i hfrom (by omega)⟩
    · exact fun hall i hfrom hto ↦ hall.2 i hfrom (by omega)
  · rw [if_pos (hbound.mpr hle)]
    constructor
    · intro hno
      cases hno
    · exact fun hall ↦ absurd hall.1 hle

/-- A range that ends below the last page of the address space without wrapping: only the page of an
empty one is looked at in vain. -/
theorem userMemCheck_of_fits (hfits : va.toNat + len.toNat ≤ 2 ^ 32 - 4096) :
    ((userMemCheck pgdir va len perm m = .ok 0) ↔ m.Accessible pgdir perm va len) ↔
      (len = 0 → HasTurn va len → va ≤ utop → m.Grants pgdir perm (va.toNat / 4096)) := by
  have hsum : (va + len).toNat = va.toNat + len.toNat := by
    rw [BitVec.toNat_add]
    omega
  rw [userMemCheck_eq_zero (by omega), Accessible, HasTurn, BitVec.le_def, hsum]
  by_cases hlen : len = 0
  · subst hlen
    have hzero : (0 : Word).toNat = 0 := rfl
    rw [hzero, Nat.add_zero, BitVec.le_def]
    constructor
    · intro h _ hturn hle
      exact (h.mpr ⟨hle, fun b hfrom hto ↦ by omega⟩).2 _ (Nat.le_refl _) hturn
    · intro h
      constructor
      · exact fun hacc ↦ ⟨hacc.1, fun b hfrom hto ↦ by omega⟩
      · refine fun hacc ↦ ⟨hacc.1, fun i hfrom hto ↦ ?_⟩
        have hi : i = va.toNat / 4096 := by omega
        rw [hi] at hto ⊢
        exact h rfl hto hacc.1
  · have hpos : 0 < len.toNat := by
      rw [Nat.pos_iff_ne_zero]
      exact fun hno ↦ hlen (BitVec.eq_of_toNat_eq hno)
    refine iff_of_true ?_ fun hno ↦ absurd hno hlen
    apply and_congr_right
    intro _
    constructor
    · exact fun h b hfrom hto ↦ h (b / 4096) (by omega) (by omega)
    · intro h i hfrom hto
      -- the first byte of the range in the page
      have hbyte := h (max va.toNat (i * 4096)) (by omega) (by omega)
      rwa [show max va.toNat (i * 4096) / 4096 = i by omega] at hbyte

/-- A range that wraps is never accessible, and the check looks at its first page at most. -/
theorem userMemCheck_of_wraps (hwrap : 2 ^ 32 ≤ va.toNat + len.toNat)
    (h : (va + len).toNat ≤ 2 ^ 32 - 4096) :
    ((userMemCheck pgdir va len perm m = .ok 0) ↔ m.Accessible pgdir perm va len) ↔
      (utop < va + len ∨ HasTurn va len ∧ ¬ m.Grants pgdir perm (va.toNat / 4096)) := by
  have hva := va.isLt
  have hlen := len.isLt
  have hsum : (va + len).toNat = va.toNat + len.toNat - 2 ^ 32 := by
    rw [BitVec.toNat_add]
    omega
  have hnot : ¬ m.Accessible pgdir perm va len := by
    rintro ⟨hbelow, -⟩
    rw [toNat_utop] at hbelow
    omega
  have hpages : (∀ i, va.toNat / 4096 ≤ i → i * 4096 < (va + len).toNat → m.Grants pgdir perm i) ↔
      (HasTurn va len → m.Grants pgdir perm (va.toNat / 4096)) := by
    constructor
    · exact fun hall hturn ↦ hall _ (Nat.le_refl _) hturn
    · intro hpage i hfrom hto
      -- the wrapped end lies before the start
      have hi : i = va.toNat / 4096 := by omega
      rw [hi] at hto ⊢
      exact hpage hto
  rw [userMemCheck_eq_zero h, hpages, iff_false_right hnot, not_and_or, ← BitVec.not_le]
  tauto

/-- The check is right on exactly these pairs. -/
theorem userMemCheck_iff_accessible (m : Memory) (pgdir : Option Ppn) (va len perm : Word) :
    ((userMemCheck pgdir va len perm m = .ok 0) ↔ m.Accessible pgdir perm va len) ↔
      m.RangeChecked pgdir perm va len := by
  have hva := va.isLt
  have hlen := len.isLt
  by_cases htop : (va + len).toNat ≤ 2 ^ 32 - 4096
  · by_cases hfits : va.toNat + len.toNat < 2 ^ 32
    · have hsum : (va + len).toNat = va.toNat + len.toNat := by
        rw [BitVec.toNat_add]
        omega
      rw [userMemCheck_of_fits (by omega)]
      constructor
      · exact fun h ↦ ⟨htop, fun _ ↦ h, fun hno ↦ by omega⟩
      · exact fun h ↦ h.2.1 hfits
    · rw [userMemCheck_of_wraps (by omega) htop]
      constructor
      · exact fun h ↦ ⟨htop, fun hno ↦ by omega, fun _ ↦ h⟩
      · exact fun h ↦ h.2.2 (by omega)
  · refine iff_of_false (fun h ↦ ?_) fun h ↦ htop h.1
    -- the end lies in the last page of the address space, wrapped or not
    obtain ⟨hbelow, -⟩ := h.mp (userMemCheck_of_top (by omega))
    have hsum : (va + len).toNat ≤ va.toNat + len.toNat := by
      rw [BitVec.toNat_add]
      exact Nat.mod_le _ _
    rw [toNat_utop] at hbelow
    omega

/-- Two pages from the last one of the address space on: the end wraps, no page is looked at and the
range is accepted with an empty page directory. -/
theorem userMemCheck_accepts_top :
    let m : Memory := ⟨32768, fun _ _ ↦ 0, fun _ ↦ ⟨none, 0⟩, none, 1⟩
    userMemCheck (some 5) 0xfffff000 0x2000 (pteP ||| pteW ||| pteU) m = .ok 0 ∧
      ¬ m.Accessible (some 5) (pteP ||| pteW ||| pteU) 0xfffff000 0x2000 := by
  refine ⟨rfl, fun h ↦ ?_⟩
  have hbelow : (0xfffff000 : Word).toNat + (0x2000 : Word).toNat ≤ utop.toNat := h.1
  exact absurd hbelow (by decide)

end SistemasOperativos.Jos.Memory
