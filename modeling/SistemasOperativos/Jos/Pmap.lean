import SistemasOperativos.Jos.Types

/-!
# Physical pages and page tables

The functions of `kern/pmap.c` that run after the kernel has started. A pointer to a page table entry
is the page of its table with the slot; the translation lookaside buffer is not modelled.
-/

namespace SistemasOperativos.Jos

/-- A pointer to an entry of a page directory or of a page table. -/
abbrev PtePtr := Ppn × Slot

namespace Memory

def readPte (m : Memory) (pte : PtePtr) : Word := m.word pte.1 pte.2

def writePte (m : Memory) (pte : PtePtr) (w : Word) : Memory :=
  { m with word := Function.update m.word pte.1 (Function.update (m.word pte.1) pte.2 w) }

/-- `memset(page2kva(pp), 0, PGSIZE)`. -/
def zeroPage (m : Memory) (pp : Ppn) : Memory :=
  { m with word := Function.update m.word pp fun _ ↦ 0 }

def setPage (m : Memory) (pp : Ppn) (info : PageInfo) : Memory :=
  { m with pages := Function.update m.pages pp info }

/-- The page that `KADDR(pa)` points into, and the one that `pa2page(pa)` describes. -/
def kaddr (m : Memory) (pa : Word) : Except Fault Ppn :=
  if (pgnum pa).toNat < m.npages then .ok (pgnum pa) else .error .panic

/-! ## The allocator -/

def pageAlloc (zero : Bool) (m : Memory) : Except Fault (Option Ppn × Memory) :=
  match m.pageFreeList with
  | none => .ok (none, m)
  | some pp => do
    let info := m.pages pp
    let m := { m with pageFreeList := info.ppLink }.setPage pp { info with ppLink := none }
    if zero then
      let _ ← m.kaddr (page2pa pp)
      return (some pp, m.zeroPage pp)
    return (some pp, m)

def pageFree (pp : Ppn) (m : Memory) : Except Fault Memory :=
  let info := m.pages pp
  if info.ppRef ≠ 0 then .error .panic
  else if info.ppLink ≠ none then .error .panic
  else .ok { m.setPage pp { info with ppLink := m.pageFreeList } with pageFreeList := some pp }

/-- `pp->pp_ref++`. -/
def incref (m : Memory) (pp : Ppn) : Memory :=
  m.setPage pp { m.pages pp with ppRef := (m.pages pp).ppRef + 1 }

def pageDecref (pp : Ppn) (m : Memory) : Except Fault Memory :=
  let ref := (m.pages pp).ppRef - 1
  let m := m.setPage pp { m.pages pp with ppRef := ref }
  if ref = 0 then pageFree pp m else .ok m

/-! ## Page tables -/

/-- A page table for `va`, where `pgdir` has none: the part of `pgdir_walk` that `create` asks for. -/
def pgdirCreate (pd : Ppn) (va : Word) (m : Memory) : Except Fault Memory := do
  match ← pageAlloc true m with
  | (none, m) => return m
  | (some page, m) =>
    return (m.incref page).writePte (pd, pdx va) (page2pa page ||| pteP ||| pteW ||| pteU)

def pgdirWalk (pgdir : Option Ppn) (va : Word) (create : Bool) (m : Memory) :
    Except Fault (Option PtePtr × Memory) :=
  match pgdir with
  | none => .error .nullPointer
  | some pd => do
    let m ← if m.readPte (pd, pdx va) = 0 ∧ create = true then pgdirCreate pd va m else pure m
    let pde := m.readPte (pd, pdx va)
    if pde = 0 then return (none, m)
    let pt ← m.kaddr pde
    return (some (pt, ptx va), m)

/-- The page mapped at `va` with the pointer to its entry. An entry counts as present when it is not
zero, whatever its bit `PTE_P`. -/
def pageLookup (pgdir : Option Ppn) (va : Word) (m : Memory) :
    Except Fault (Option (Ppn × PtePtr)) := do
  match ← pgdirWalk pgdir va false m with
  | (none, _) => return none
  | (some pte, _) =>
    if m.readPte pte = 0 then return none
    let page ← m.kaddr (m.readPte pte)
    return some (page, pte)

def pageRemove (pgdir : Option Ppn) (va : Word) (m : Memory) : Except Fault Memory := do
  match ← pageLookup pgdir va m with
  | none => return m
  | some (page, pte) =>
    let m ← pageDecref page m
    return m.writePte pte 0

def pageInsert (pgdir : Option Ppn) (pp : Ppn) (va perm : Word) (m : Memory) :
    Except Fault (ℤ × Memory) := do
  match ← pgdirWalk pgdir va true m with
  | (none, m) => return (-eNoMem, m)
  | (some pte, m) =>
    let m ← pageRemove pgdir va (m.incref pp)
    return (0, m.writePte pte (page2pa pp ||| perm ||| pteP))

/-! ## Checks of user memory -/

/-- The turns of the loop of `user_mem_check` from the page of `va` on. -/
def userMemCheckFrom (pgdir : Option Ppn) (perm : Word) (m : Memory) :
    Word → ℕ → Except Fault ℤ
  | _, 0 => return 0
  | va, turns + 1 => do
    match ← pgdirWalk pgdir va false m with
    | (none, _) => return -eFault
    | (some pte, _) =>
      if m.readPte pte &&& (perm ||| pteP) ≠ perm ||| pteP then return -eFault
      userMemCheckFrom pgdir perm m (va + pgsize) turns

/-- `va + len` wraps, as it does in the source. -/
def userMemCheck (pgdir : Option Ppn) (va len perm : Word) (m : Memory) : Except Fault ℤ :=
  let vaLo := rounddown va
  let vaHi := roundup (va + len)
  if utop < vaHi then .ok (-eFault)
  else userMemCheckFrom pgdir perm m vaLo ((vaHi.toNat - vaLo.toNat) / pgsize.toNat)

/-! ## Accesses through the current page directory -/

/-- The bits that a write needs in both entries on the way to its page: in kernel mode, where `CR0_WP`
is set, and in user mode. -/
def kernelWrite : Word := pteP ||| pteW
def userWrite : Word := pteP ||| pteW ||| pteU

/-- The page that the processor finds for an address, where the entries allow the access. -/
def translate (m : Memory) (cr3 : Ppn) (need va : Word) : Option Ppn :=
  let pde := m.readPte (cr3, pdx va)
  let pte := m.readPte (pgnum pde, ptx va)
  if pde &&& need = need ∧ pte &&& need = need then some (pgnum pte) else none

/-- An entry that allows an access allows one that needs less. -/
theorem bits_of_bits {a b w : Word} (hab : a &&& b = b) (hw : w &&& a = a) : w &&& b = b := by
  calc w &&& b = w &&& (a &&& b) := by rw [hab]
    _ = w &&& a &&& b := (BitVec.and_assoc ..).symm
    _ = b := by rw [hw, hab]

/-- A word with one of its four bytes replaced. -/
def setByte (w : Word) (lane : BitVec 2) (b : BitVec 8) : Word :=
  let shift := 8 * lane.toNat
  w &&& ~~~(0xff#32 <<< shift) ||| b.setWidth 32 <<< shift

/-- A write of one byte. Where it is not allowed there is a page fault, and in kernel mode the kernel
stops there. -/
def storeByte (cr3 : Ppn) (need va : Word) (b : BitVec 8) (m : Memory) : Except Fault Memory :=
  match m.translate cr3 need va with
  | none => .error .panic
  | some pp =>
    let slot : Slot := va.extractLsb' 2 10
    .ok (m.writePte (pp, slot) (setByte (m.word pp slot) (va.extractLsb' 0 2) b))

/-- `memmove` from kernel memory to a user address. -/
def storeBytes (cr3 : Ppn) : Word → List (BitVec 8) → Memory → Except Fault Memory
  | _, [], m => .ok m
  | va, b :: bs, m => do
    let m ← storeByte cr3 kernelWrite va b m
    storeBytes cr3 (va + 1) bs m

end Memory

/-- The bytes of a word in memory order. -/
def wordBytes (w : Word) : List (BitVec 8) :=
  [w.extractLsb' 0 8, w.extractLsb' 8 8, w.extractLsb' 16 8, w.extractLsb' 24 8]

end SistemasOperativos.Jos
