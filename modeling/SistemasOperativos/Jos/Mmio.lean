import SistemasOperativos.Jos.BootMap
import SistemasOperativos.Jos.UserMemCheck

/-!
# Regions for devices

`mmio_map_region` takes regions one after another from an area of 4 MB, with a cursor that it keeps
between calls. It rounds the physical address down and the size up, each on its own, so that it maps
a page too few for a range that is not aligned and straddles one more page. The theorem says for
which sequences of calls every region is as the callers expect it.
-/

namespace SistemasOperativos.Jos

open Memory

def mmiobase : Word := 0xef800000
def mmiolim : Word := 0xefc00000

/-- The memory, and the static variable of `mmio_map_region`. -/
structure Mmio where
  memory : Memory
  base : Word

/-- `PTE_W | PTE_P | PTE_PCD | PTE_PWT`. -/
def mmioPerm : Word := pteW ||| pteP ||| ptePcd ||| ptePwt

/-- The base of the region, or `none` where the function panics because of `MMIOLIM`. -/
def mmioMapRegion (pse : Bool) (pa size : Word) (s : Mmio) :
    Except Fault (Option (Word × Mmio)) := do
  let pa := rounddown pa
  let size := roundup size
  if mmiolim ≤ s.base + size then return none
  let memory ← bootMapRegion pse s.memory.kernPgdir s.base size pa mmioPerm s.memory
  let base := s.base + size
  return some (base - size, ⟨memory, base⟩)

/-! ## What the callers expect -/

/-- What a call reserved, up to the cursor that it left, and the range that it was asked for. -/
structure Region where
  base : Word
  limit : Word
  pa : Word
  size : Word

namespace Region

def Holds (r : Region) (a : Word) : Prop := r.base.toNat ≤ a.toNat ∧ a.toNat < r.limit.toNat

/-- The region starts with a page and lies in the area for devices. -/
def Placed (r : Region) : Prop :=
  r.base.toNat % 4096 = 0 ∧ ∀ a, r.Holds a → mmiobase.toNat ≤ a.toNat ∧ a.toNat < mmiolim.toNat

def Disjoint (r r' : Region) : Prop := ∀ a, r.Holds a → ¬ r'.Holds a

/-- Every byte of the range is inside the region, uncached and writable, as far from the base as from
the start of its page. -/
def Mapped (r : Region) (m : Memory) : Prop :=
  ∀ i < r.size.toNat, ∃ va, va.toNat = r.base.toNat + r.pa.toNat % 4096 + i ∧ r.Holds va ∧
    ∃ access, m.walk m.kernPgdir va = some access ∧ access.phys.toNat = r.pa.toNat + i ∧
      access.writable = true ∧ access.cache &&& ptePcd ≠ 0

end Region

/-- The bytes of the pages that a range touches. -/
def needed (pa size : Word) : ℕ := (pa.toNat % 4096 + size.toNat + 4095) / 4096 * 4096

/-- Every call of a sequence, up to the first that panics, does what it should, and the regions that
earlier calls returned stay mapped. -/
def Honoured (call : Word → Word → Mmio → Except Fault (Option (Word × Mmio))) :
    List Region → List (Word × Word) → Mmio → Prop
  | _, [], _ => True
  | served, (pa, size) :: calls, s =>
    match call pa size s with
    | .error _ => False
    | .ok none => mmiolim.toNat < s.base.toNat + needed pa size
    | .ok (some (base, s')) =>
      let r := ⟨base, s'.base, pa, size⟩
      r.Placed ∧ (∀ r' ∈ served, r.Disjoint r') ∧ (∀ r' ∈ r :: served, r'.Mapped s'.memory) ∧
        Honoured call (r :: served) calls s'

/-! ## The condition -/

/-- The bytes that a call takes for a size. -/
def reserved (size : Word) : ℕ := (size.toNat + 4095) / 4096 * 4096

/-- The end of each region is below 2^32. One below `MMIOLIM` needs no more pages than are reserved
for it, its range ends below 2^32, and there is room for the page table; one that ends at `MMIOLIM`
needs one page more. -/
def Fits (room : Prop) : ℕ → List (Word × Word) → Prop
  | _, [] => True
  | base, (pa, size) :: calls =>
    base + reserved size < 2 ^ 32 ∧
    (base + reserved size < mmiolim.toNat → needed pa size = reserved size ∧
      pa.toNat + size.toNat ≤ 2 ^ 32 ∧ room ∧ Fits room (base + reserved size) calls) ∧
    (base + reserved size = mmiolim.toNat → needed pa size ≠ reserved size)

/-- There is a page table for the area, or a free page for one. -/
def Memory.Room (m : Memory) : Prop :=
  m.word m.kernPgdir (pdx mmiobase) ≠ 0 ∨ m.pageFreeList ≠ none

/-- The kernel has a directory with page tables of its own, and nothing is mapped from the cursor on. -/
structure Mmio.Ready (s : Mmio) (free : List Ppn) : Prop where
  directory : s.memory.Directory free s.memory.kernPgdir
  aligned : s.base.toNat % 4096 = 0
  low : mmiobase.toNat ≤ s.base.toNat
  high : s.base.toNat < mmiolim.toNat
  vacant : ∀ a, s.base.toNat ≤ a.toNat → a.toNat < mmiolim.toNat →
    s.memory.Vacant s.memory.kernPgdir a

variable {pse : Bool} {m : Memory} {s s' : Mmio} {free : List Ppn} {served : List Region}
  {calls : List (Word × Word)} {pa size va perm : Word} {pd : Ppn} {r : Region}

/-! ## Addresses -/

section Addresses

@[simp] theorem mmiobase_toNat : mmiobase.toNat = 4018143232 := rfl

@[simp] theorem mmiolim_toNat : mmiolim.toNat = 4022337536 := rfl

/-- The area is one slot of the directory. -/
theorem pdx_of_mmio {a : Word} (hlow : mmiobase.toNat ≤ a.toNat) (hhigh : a.toNat < mmiolim.toNat) :
    pdx a = pdx mmiobase := by
  rw [mmiobase_toNat] at hlow
  rw [mmiolim_toNat] at hhigh
  rw [pdx_eq_iff, mmiobase_toNat]
  omega

theorem rounddown_toNat (a : Word) : (rounddown a).toNat = a.toNat - a.toNat % 4096 := by
  have ha := a.isLt
  rw [rounddown_eq, toNat_pageStart (by omega)]
  omega

/-- The cursor after a call, in 32 bits. -/
theorem cursor_toNat (base size : Word) :
    (base + roundup size).toNat = (base.toNat + reserved size) % 2 ^ 32 := by
  rw [BitVec.toNat_add, toNat_roundup, reserved]
  split <;> omega

theorem reserved_le_needed : reserved size ≤ needed pa size := by
  unfold reserved needed
  omega

theorem le_reserved : size.toNat ≤ reserved size := by
  unfold reserved
  omega

theorem needed_le_iff : needed pa size ≤ reserved size ↔
    pa.toNat % 4096 + size.toNat ≤ reserved size := by
  unfold reserved needed
  omega

theorem roundup_toNat_of_lt (h : reserved size < 2 ^ 32) : (roundup size).toNat = reserved size := by
  rw [reserved] at h
  rw [toNat_roundup, reserved, if_pos (by omega)]

end Addresses

/-! ## No page for the page table -/

namespace Memory

theorem mapPages_of_full (turns : ℕ) (hempty : m.word pd (pdx va) = 0)
    (hfull : m.pageFreeList = none) :
    mapPages pd perm (turns + 1) va pa m = .error .nullPointer := by
  rw [mapPages, pgdirWalk_true_of_full hempty hfull]
  change (pageRemove (some pd) va m >>= _) = _
  rw [pageRemove_of_unmapped (mapping_of_empty hempty) fun h ↦ absurd hempty h]
  rfl

theorem bootMapRegion_of_full (hempty : m.word pd (pdx va) = 0) (hfull : m.pageFreeList = none)
    (hpos : 0 < size.toNat) (hsize : size.toNat < 2 ^ 22) :
    bootMapRegion pse pd va size pa perm m = .error .nullPointer := by
  have hturns : (size.toNat + 4095) / 4096 = (size.toNat - 1) / 4096 + 1 := by omega
  have hrun : mapPages pd perm ((size.toNat + 4095) / 4096) va pa m = .error .nullPointer := by
    rw [hturns]
    exact mapPages_of_full _ hempty hfull
  have hnone : size.toNat / lpgsize.toNat = 0 := by
    rw [lpgsize_toNat]
    omega
  unfold bootMapRegion
  cases pse with
  | false =>
    rw [if_neg Bool.false_ne_true]
    exact hrun
  | true =>
    rw [if_pos rfl, hnone, mapLargePages]
    exact hrun

end Memory

/-! ## One call -/

namespace Mmio

section Call

variable (h : s.Ready free)

include h in
/-- The slot of the area is not a window. -/
theorem Ready.not_window : ¬ s.memory.Window s.memory.kernPgdir (pdx mmiobase) := by
  rw [← pdx_of_mmio h.low h.high]
  exact (h.vacant s.base (Nat.le_refl _) h.high).not_window

theorem mmioMapRegion_of_le (hover : mmiolim.toNat ≤ s.base.toNat + reserved size)
    (hend : s.base.toNat + reserved size < 2 ^ 32) : mmioMapRegion pse pa size s = .ok none := by
  have hle : mmiolim ≤ s.base + roundup size := by
    rw [BitVec.le_def, cursor_toNat, Nat.mod_eq_of_lt hend]
    exact hover
  unfold mmioMapRegion
  simp only
  rw [if_pos hle]
  rfl

/-- Below the limit the call is one of `boot_map_region`. -/
theorem mmioMapRegion_of_lt (hlt : (s.base.toNat + reserved size) % 2 ^ 32 < mmiolim.toNat) :
    mmioMapRegion pse pa size s =
      (bootMapRegion pse s.memory.kernPgdir s.base (roundup size) (rounddown pa) mmioPerm
        s.memory).map fun m ↦ some (s.base, ⟨m, s.base + roundup size⟩) := by
  have hle : ¬ mmiolim ≤ s.base + roundup size := by
    rw [BitVec.le_def, cursor_toNat]
    omega
  have hbase : s.base + roundup size - roundup size = s.base := by bv_omega
  unfold mmioMapRegion
  simp only
  rw [if_neg hle, hbase]
  cases bootMapRegion pse s.memory.kernPgdir s.base (roundup size) (rounddown pa) mmioPerm s.memory
    <;> rfl

include h in
/-- A call that does not reach the limit. -/
theorem Ready.call (pse : Bool) (pa : Word) (hend : s.base.toNat + reserved size < mmiolim.toNat)
    (hroom : s.memory.Room) :
    ∃ s' free', mmioMapRegion pse pa size s = .ok (some (s.base, s')) ∧
      s'.base.toNat = s.base.toNat + reserved size ∧ s'.Ready free' ∧
      Maps s.memory s'.memory free' s.memory.kernPgdir s.base (rounddown pa) mmioPerm
        (reserved size) := by
  rw [mmiolim_toNat] at hend
  have hsize : (roundup size).toNat = reserved size := roundup_toNat_of_lt (by omega)
  have hlow := h.low
  rw [mmiobase_toNat] at hlow
  have hslot : s.base.toNat % 2 ^ 22 + reserved size ≤ 2 ^ 22 := by omega
  have henough : s.memory.missing s.memory.kernPgdir s.base (reserved size) ≤ free.length := by
    refine (missing_of_slot hslot).trans ?_
    rw [pdx_of_mmio h.low h.high]
    by_cases hempty : s.memory.word s.memory.kernPgdir (pdx mmiobase) = 0
    · rw [if_pos hempty]
      have hfree := hroom.resolve_left (not_not.mpr hempty)
      cases free with
      | nil => exact absurd h.directory.chain hfree
      | cons p rest => exact Nat.succ_le_succ (Nat.zero_le _)
    · rw [if_neg hempty]
      exact Nat.zero_le _
  rw [← hsize] at henough
  have hvacant : ∀ a, InRegion s.base (roundup size).toNat a →
      s.memory.Vacant s.memory.kernPgdir a := by
    rintro a ⟨hle, hlt⟩
    rw [hsize] at hlt
    refine h.vacant a hle ?_
    rw [mmiolim_toNat]
    omega
  have hpages : (roundup size).toNat % 4096 = 0 := by
    rw [hsize, reserved]
    exact Nat.mul_mod_left _ _
  have hpa : (rounddown pa).toNat % 4096 = 0 := by
    rw [rounddown_toNat]
    omega
  have hperm : mmioPerm.toNat < 4096 := by decide
  obtain ⟨m', free', hrun, hmaps⟩ := bootMapRegion_maps pse h.directory hvacant h.aligned hpa hpages
    hperm (by omega) henough
  have hcursor : (s.base + roundup size).toNat = s.base.toNat + reserved size := by
    rw [cursor_toNat]
    omega
  rw [hsize] at hmaps
  refine ⟨⟨m', s.base + roundup size⟩, free', ?_, hcursor, ?_, hmaps⟩
  · rw [mmioMapRegion_of_lt (by rw [mmiolim_toNat]; omega), hrun]
    rfl
  · constructor
    · rw [hmaps.kernPgdir]
      exact hmaps.directory
    · have haligned := h.aligned
      rw [hcursor]
      rw [hsize] at hpages
      omega
    · rw [hcursor, mmiobase_toNat]
      omega
    · rw [hcursor, mmiolim_toNat]
      exact hend
    · intro a hle hlt
      rw [hcursor] at hle
      rw [hmaps.kernPgdir]
      refine hmaps.vacant a (fun ha ↦ ?_) (h.vacant a (by omega) hlt)
      have hinside := ha.2
      omega

include h in
/-- Without a page for the page table the call does not return. -/
theorem Ready.call_of_full (hpos : 0 < size.toNat)
    (hend : s.base.toNat + reserved size < mmiolim.toNat) (hroom : ¬ s.memory.Room) :
    mmioMapRegion pse pa size s = .error .nullPointer := by
  have hlow := h.low
  rw [mmiobase_toNat] at hlow
  rw [mmiolim_toNat] at hend
  rw [Memory.Room, not_or, not_not, not_not] at hroom
  have hsize : (roundup size).toNat = reserved size := roundup_toNat_of_lt (by omega)
  have hle : size.toNat ≤ reserved size := le_reserved
  have hempty : s.memory.word s.memory.kernPgdir (pdx s.base) = 0 := by
    rw [pdx_of_mmio h.low h.high]
    exact hroom.1
  rw [mmioMapRegion_of_lt (by rw [mmiolim_toNat]; omega),
    bootMapRegion_of_full hempty hroom.2 (by omega) (by omega)]
  rfl

end Call

/-! ## The bytes of a region -/

section Bytes

variable {free' : List Ppn}

/-- A region of enough pages maps the whole range. -/
theorem mapped_of_maps (hmaps : Maps s.memory s'.memory free' s.memory.kernPgdir s.base
      (rounddown pa) mmioPerm (reserved size))
    (hbase : s'.base.toNat = s.base.toNat + reserved size) (hneeded : needed pa size = reserved size)
    (hrange : pa.toNat + size.toNat ≤ 2 ^ 32) :
    Region.Mapped ⟨s.base, s'.base, pa, size⟩ s'.memory := by
  have hfit := needed_le_iff.mp hneeded.le
  intro i hi
  change i < size.toNat at hi
  have hbound := s'.base.isLt
  have hva : (BitVec.ofNat 32 (s.base.toNat + pa.toNat % 4096 + i)).toNat =
      s.base.toNat + pa.toNat % 4096 + i := by
    rw [BitVec.toNat_ofNat]
    omega
  have hle : s.base ≤ BitVec.ofNat 32 (s.base.toNat + pa.toNat % 4096 + i) := by
    rw [BitVec.le_def, hva]
    omega
  have hwalk := hmaps.inside _ ⟨hle, by rw [hva]; omega⟩
  rw [← hmaps.kernPgdir] at hwalk
  refine ⟨_, hva, ⟨hle, ?_⟩, _, hwalk, ?_, ?_, ?_⟩
  · rw [hva, hbase]
    omega
  · change (rounddown pa + (BitVec.ofNat 32 _ - s.base)).toNat = pa.toNat + i
    rw [BitVec.toNat_add, BitVec.toNat_sub_of_le hle, hva, rounddown_toNat]
    omega
  · change decide (mmioPerm &&& pteW ≠ 0) = true
    decide
  · change mmioPerm &&& (ptePwt ||| ptePcd) &&& ptePcd ≠ 0
    decide

/-- The last byte tells that there are enough pages, and that the range ends below 2^32. -/
theorem fits_of_mapped {m : Memory} (hpos : 0 < size.toNat)
    (hbase : s'.base.toNat = s.base.toNat + reserved size)
    (h : Region.Mapped ⟨s.base, s'.base, pa, size⟩ m) :
    needed pa size = reserved size ∧ pa.toNat + size.toNat ≤ 2 ^ 32 := by
  have hlast : size.toNat - 1 < size.toNat := by omega
  obtain ⟨va, hva, ⟨-, hinside⟩, access, -, hphys, -⟩ := h (size.toNat - 1) hlast
  change va.toNat = s.base.toNat + pa.toNat % 4096 + (size.toNat - 1) at hva
  change va.toNat < s'.base.toNat at hinside
  change access.phys.toNat = pa.toNat + (size.toNat - 1) at hphys
  have hphyslt := access.phys.isLt
  have hle : needed pa size ≤ reserved size := needed_le_iff.mpr (by omega)
  exact ⟨Nat.le_antisymm hle reserved_le_needed, by omega⟩

/-- What lies below the cursor stays mapped. -/
theorem mapped_of_below (hready : s.Ready free) (hmaps : Maps s.memory s'.memory free'
      s.memory.kernPgdir s.base (rounddown pa) mmioPerm (reserved size))
    (hlow : mmiobase.toNat ≤ r.base.toNat) (hlimit : r.limit.toNat ≤ s.base.toNat)
    (h : r.Mapped s.memory) : r.Mapped s'.memory := by
  have hhigh := hready.high
  intro i hi
  obtain ⟨va, hva, hholds, access, hwalk, haccess⟩ := h i hi
  refine ⟨va, hva, hholds, access, ?_, haccess⟩
  obtain ⟨hle, hlt⟩ := hholds
  have hoff : ¬ InRegion s.base (reserved size) va := by
    intro hin
    have hbase := hin.1
    omega
  have hwindow : ¬ s.memory.Window s.memory.kernPgdir (pdx va) := by
    rw [pdx_of_mmio (by omega) (by omega)]
    exact hready.not_window
  calc
    s'.memory.walk s'.memory.kernPgdir va = s'.memory.walk s.memory.kernPgdir va := by
      rw [hmaps.kernPgdir]
    _ = s.memory.walk s.memory.kernPgdir va := hmaps.outside va hoff hwindow
    _ = some access := hwalk

/-- A region that is not empty has a page table. -/
theorem room_of_maps (hready : s.Ready free) (hpos : 0 < reserved size) (hmaps : Maps s.memory
      s'.memory free' s.memory.kernPgdir s.base (rounddown pa) mmioPerm (reserved size)) :
    s'.memory.Room := by
  left
  intro hempty
  have hwalk := hmaps.inside s.base ⟨Nat.le_refl _, by omega⟩
  rw [hmaps.kernPgdir, ← pdx_of_mmio hready.low hready.high] at hempty
  rw [walk_of_empty hempty] at hwalk
  cases hwalk

end Bytes

/-! ## Sequences of calls -/

/-- The regions so far lie below the cursor, and stay mapped. -/
def Served (s : Mmio) (served : List Region) : Prop :=
  ∀ r ∈ served, mmiobase.toNat ≤ r.base.toNat ∧ r.limit.toNat ≤ s.base.toNat ∧ r.Mapped s.memory

/-- A cursor that wraps leaves no region. -/
theorem not_honoured_of_wrap (hready : s.Ready free) (hpos : 0 < size.toNat)
    (hwrap : 2 ^ 32 ≤ s.base.toNat + reserved size) :
    ¬ Honoured (mmioMapRegion pse) served ((pa, size) :: calls) s := by
  have hsize := size.isLt
  have hhigh := hready.high
  rw [mmiolim_toNat] at hhigh
  have hle : reserved size ≤ 2 ^ 32 := by
    unfold reserved
    omega
  have hcursor := cursor_toNat s.base size
  rw [Honoured, mmioMapRegion_of_lt (by rw [mmiolim_toNat]; omega)]
  cases bootMapRegion pse s.memory.kernPgdir s.base (roundup size) (rounddown pa) mmioPerm
    s.memory with
  | error fault => exact id
  | ok m =>
    rintro ⟨-, -, hmapped, -⟩
    obtain ⟨va, -, ⟨hbase, hlimit⟩, -⟩ := hmapped _ List.mem_cons_self 0 hpos
    change s.base.toNat ≤ va.toNat at hbase
    change va.toNat < (s.base + roundup size).toNat at hlimit
    omega

theorem honoured_iff_fits (hready : s.Ready free) (hserved : s.Served served)
    (hsizes : ∀ c ∈ calls, 0 < c.2.toNat) :
    Honoured (mmioMapRegion pse) served calls s ↔ Fits s.memory.Room s.base.toNat calls := by
  induction calls generalizing s free served with
  | nil => simp only [Honoured, Fits]
  | cons c calls ih =>
    obtain ⟨pa, size⟩ := c
    have hpos : 0 < size.toNat := hsizes (pa, size) List.mem_cons_self
    have hrest : ∀ c ∈ calls, 0 < c.2.toNat := fun c hc ↦ hsizes c (List.mem_cons_of_mem _ hc)
    have hneeded : reserved size ≤ needed pa size := reserved_le_needed
    have hlow := hready.low
    have hhigh := hready.high
    by_cases hwrap : s.base.toNat + reserved size < 2 ^ 32
    · rw [Honoured, Fits]
      by_cases hover : mmiolim.toNat ≤ s.base.toNat + reserved size
      · rw [mmioMapRegion_of_le hover hwrap]
        simp only
        omega
      · rw [Nat.not_le] at hover
        by_cases hroom : s.memory.Room
        · obtain ⟨s', free', hrun, hbase, hready', hmaps⟩ :=
            hready.call pse pa hover hroom
          have hroom' : s'.memory.Room := by
            refine room_of_maps hready ?_ hmaps
            exact hpos.trans_le le_reserved
          have hiff : ∀ served', s'.Served served' → (Honoured (mmioMapRegion pse) served' calls s' ↔
              Fits s.memory.Room (s.base.toNat + reserved size) calls) := by
            intro served' hserved'
            rw [ih hready' hserved' hrest, hbase, propext (iff_of_true hroom' hroom)]
          have hnext : (∀ r' ∈ ⟨s.base, s'.base, pa, size⟩ :: served, r'.Mapped s'.memory) →
              s'.Served (⟨s.base, s'.base, pa, size⟩ :: served) := by
            intro hmapped r hr
            refine ⟨?_, ?_, hmapped r hr⟩
            · rcases List.mem_cons.mp hr with rfl | hr
              · exact hlow
              · exact (hserved r hr).1
            · rcases List.mem_cons.mp hr with rfl | hr
              · exact Nat.le_refl _
              · have hlimit := (hserved r hr).2.1
                omega
          rw [hrun]
          simp only
          constructor
          · rintro ⟨-, -, hmapped, hcalls⟩
            obtain ⟨hfit, hrange⟩ := fits_of_mapped hpos hbase (hmapped _ List.mem_cons_self)
            refine ⟨hwrap, fun _ ↦ ⟨hfit, hrange, hroom, ?_⟩, fun h ↦ by omega⟩
            exact (hiff _ (hnext hmapped)).mp hcalls
          · rintro ⟨-, hfits, -⟩
            obtain ⟨hfit, hrange, -, hcalls⟩ := hfits hover
            have hmapped : ∀ r' ∈ ⟨s.base, s'.base, pa, size⟩ :: served, r'.Mapped s'.memory := by
              intro r hr
              rcases List.mem_cons.mp hr with rfl | hr
              · exact mapped_of_maps hmaps hbase hfit hrange
              · obtain ⟨hr₁, hr₂, hr₃⟩ := hserved r hr
                exact mapped_of_below hready hmaps hr₁ hr₂ hr₃
            refine ⟨?_, ?_, hmapped, (hiff _ (hnext hmapped)).mpr hcalls⟩
            · refine ⟨hready.aligned, ?_⟩
              rintro a ⟨hle, hlt⟩
              change s.base.toNat ≤ a.toNat at hle
              change a.toNat < s'.base.toNat at hlt
              omega
            · rintro r hr a ⟨hle, -⟩ ⟨-, hlt⟩
              have hlimit := (hserved r hr).2.1
              change s.base.toNat ≤ a.toNat at hle
              omega
        · rw [hready.call_of_full hpos hover hroom]
          exact ⟨False.elim, fun h ↦ absurd (h.2.1 hover).2.2.1 hroom⟩
    · have hnot : ¬ Honoured (mmioMapRegion pse) served ((pa, size) :: calls) s :=
        not_honoured_of_wrap hready hpos (by omega)
      rw [iff_false_left hnot, Fits]
      exact fun h ↦ hwrap h.1

/-- The calls of a sequence do what they should if and only if the regions fit. -/
theorem mmioMapRegion_honoured_iff (pse : Bool) (hready : s.Ready free)
    (hsizes : ∀ c ∈ calls, 0 < c.2.toNat) :
    Honoured (mmioMapRegion pse) [] calls s ↔ Fits s.memory.Room s.base.toNat calls := by
  apply honoured_iff_fits hready _ hsizes
  intro r hr
  cases hr

/-- The cursor at the start, before anything is mapped for a device. -/
def start : Mmio := ⟨booting, mmiobase⟩

theorem start_ready : start.Ready [2] where
  directory := booting_directory
  aligned := rfl
  low := Nat.le_refl _
  high := by decide
  vacant a hle hlt := by
    refine booting_vacant ?_
    change 4018143232 ≤ a.toNat at hle
    change a.toNat / 2 ^ 22 ≠ 957
    omega

theorem start_room : start.memory.Room := .inr (by decide)

/-- The registers of the local APIC, as `lapic_init` asks for them, and then another page. -/
theorem mmioMapRegion_honoured_lapic :
    Honoured (mmioMapRegion false) [] [(0xfee00000, 4096), (0xfec00010, 1)] start := by
  rw [mmioMapRegion_honoured_iff false start_ready (by simp)]
  refine ⟨by decide, fun _ ↦ ⟨rfl, by decide, start_room, ?_⟩, by decide⟩
  exact ⟨by decide, fun _ ↦ ⟨rfl, by decide, start_room, trivial⟩, by decide⟩

/-- Two bytes in different pages get one page. -/
theorem mmioMapRegion_misses_page :
    start.Ready [2] ∧ ¬ Honoured (mmioMapRegion false) [] [(0xfff, 2)] start ∧
      ∃ s', mmioMapRegion false 0xfff 2 start = .ok (some (mmiobase, s')) ∧
        s'.base = mmiobase + 0x1000 ∧ s'.memory.walk 1 (mmiobase + 0x1000) = none := by
  have hend : start.base.toNat + reserved 2 < mmiolim.toNat := by decide
  obtain ⟨s', free', hrun, hbase, -, hmaps⟩ := start_ready.call false 0xfff hend start_room
  refine ⟨start_ready, ?_, s', hrun, ?_, ?_⟩
  · rw [honoured_iff_fits start_ready (fun r hr ↦ absurd hr List.not_mem_nil) (by simp), Fits]
    rintro ⟨-, hfits, -⟩
    have hpages : needed 0xfff 2 = reserved 2 := (hfits (by decide)).1
    exact absurd hpages (by decide)
  · apply BitVec.eq_of_toNat_eq
    rw [hbase]
    rfl
  · calc
      s'.memory.walk 1 (mmiobase + 0x1000) = booting.walk 1 (mmiobase + 0x1000) :=
        hmaps.outside _ (by decide) (by decide)
      _ = none := walk_of_vacant (booting_vacant (by decide))

end Mmio

end SistemasOperativos.Jos
