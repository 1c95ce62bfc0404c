import SistemasOperativos.Jos.BootMap

/-!
# The memory that the kernel starts with

`mem_init` with the functions that it calls: how much memory there is, the allocator of the boot, the
list of the free pages with its check, and the regions of the kernel's address space. Before the
kernel's page directory is in use only the first 4 MB of memory are mapped.

The self-tests `check_page_alloc`, `check_page`, `check_kern_pgdir` and `check_page_installed_pgdir`
are left out. So is the content of the pages that hold `pages` and `envs`, which are a function here.
-/

namespace SistemasOperativos.Jos

/-! ## Addresses of the kernel -/

def ptsize : Word := 0x400000
def kernbase : Word := 0xf0000000
def kstacktop : Word := kernbase
def kstksize : Word := 8 * pgsize
def kstkgap : Word := 8 * pgsize
def upages : Word := uvpt - ptsize
def uenvs : Word := upages - ptsize
def iophysmem : Word := 0x0a0000
def extphysmem : Word := 0x100000
def mpentryPaddr : Word := 0x7000

def ncpu : ℕ := 8

def sizeofPageInfo : Word := 8
def sizeofEnv : Word := 132

/-- What `mem_init` finds: the registers of the clock chip, and the addresses that the linker chose. -/
structure BootInfo where
  nvram : BitVec 8 → BitVec 8
  /-- The symbol `end`. -/
  kernelEnd : Word
  /-- The array `percpu_kstacks`. -/
  percpuKstacks : Word

/-! ## The amount of memory -/

def nvramBaselo : BitVec 8 := 0x15
def nvramExtlo : BitVec 8 := 0x17
def nvramExt16lo : BitVec 8 := 0x34

def nvramRead (boot : BootInfo) (r : BitVec 8) : Word :=
  (boot.nvram r).setWidth 32 ||| (boot.nvram (r + 1)).setWidth 32 <<< 8

/-- `npages`. -/
def i386DetectMemory (boot : BootInfo) : Word :=
  let basemem := nvramRead boot nvramBaselo
  let extmem := nvramRead boot nvramExtlo
  let ext16mem := nvramRead boot nvramExt16lo * 64
  let totalmem :=
    if ext16mem ≠ 0 then 16 * 1024 + ext16mem
    else if extmem ≠ 0 then 1 * 1024 + extmem
    else basemem
  totalmem / (pgsize / 1024)

/-! ## The allocator of the boot -/

/-- `PADDR`. -/
def paddr (kva : Word) : Except Fault Word :=
  if kva < kernbase then .error .panic else .ok (kva - kernbase)

/-- The address and the new value of the static variable `nextfree`, which is zero at first. `KADDR`
panics as it does in `Memory.kaddr`. -/
def bootAlloc (boot : BootInfo) (npages n nextfree : Word) : Except Fault (Word × Word) := do
  let nextfree := if nextfree = 0 then roundup boot.kernelEnd else nextfree
  let last ← paddr (nextfree + n)
  if pgsize * npages ≤ last then throw .panic
  if npages.toNat ≤ (pgnum last).toNat then throw .panic
  return (nextfree, roundup (last + kernbase))

namespace Memory

/-! ## The free pages -/

/-- Whether the loop of `page_init` passes over the page `i`. -/
def pageTaken (boot : BootInfo) (npages : Word) (i : ℕ) (nextfree : Word) :
    Except Fault (Bool × Word) := do
  if i = 0 then return (true, nextfree)
  if (pgnum mpentryPaddr).toNat = i then return (true, nextfree)
  if (pgnum iophysmem).toNat ≤ i ∧ i < (pgnum extphysmem).toNat then return (true, nextfree)
  if (pgnum extphysmem).toNat ≤ i then
    let (first, nextfree) ← bootAlloc boot npages 0 nextfree
    let pa ← paddr first
    return (i < (pgnum pa).toNat, nextfree)
  return (false, nextfree)

/-- The page is put in front of the list. -/
def linkFree (pp : Ppn) (m : Memory) : Memory :=
  { m.setPage pp ⟨m.pageFreeList, 0⟩ with pageFreeList := some pp }

/-- The turns of `page_init` from the page `i` on. -/
def pageInitFrom (boot : BootInfo) (npages : Word) :
    ℕ → ℕ → Word → Memory → Except Fault (Word × Memory)
  | 0, _, nextfree, m => .ok (nextfree, m)
  | turns + 1, i, nextfree, m => do
    let pp := BitVec.ofNat 20 i
    let m := m.setPage pp { m.pages pp with ppLink := none }
    let (taken, nextfree) ← pageTaken boot npages i nextfree
    pageInitFrom boot npages turns (i + 1) nextfree (if taken then m else m.linkFree pp)

def pageInit (boot : BootInfo) (npages nextfree : Word) (m : Memory) :
    Except Fault (Word × Memory) :=
  pageInitFrom boot npages npages.toNat 0 nextfree m

/-! ## The check of the free list -/

/-- What `tp[0]` and `tp[1]` point to: the variable of the list, or the link of its last page. -/
inductive Tail where
  | head
  | link (pp : Ppn)

/-- The lists of the pages below and above the limit. A variable is written before it is read, so that
its first value does not matter. -/
structure Split where
  head : Bool → Option Ppn
  tail : Bool → Tail

/-- `*tp[type] = pp`. -/
def Split.store (s : Split) (type : Bool) (pp : Option Ppn) (m : Memory) : Split × Memory :=
  match s.tail type with
  | .head => ({ s with head := Function.update s.head type pp }, m)
  | .link page => (s, m.setPage page { m.pages page with ppLink := pp })

/-- `PDX(page2pa(pp)) >= pdx_limit`. -/
def aboveLimit (limit : ℕ) (pp : Ppn) : Bool := limit ≤ (pdx (page2pa pp)).toNat

/-- The loop that moves the pages with low addresses to the front. The turns are as many as there are
pages; on a list that does not end within them the loop of the source would not end either. -/
def splitFrom (limit : ℕ) : ℕ → Option Ppn → Split → Memory → Except Fault (Split × Memory)
  | _, none, s, m => .ok (s, m)
  | 0, some _, _, _ => .error .panic
  | turns + 1, some pp, s, m =>
    let type := aboveLimit limit pp
    let (s, m) := s.store type (some pp) m
    splitFrom limit turns (m.pages pp).ppLink
      { s with tail := Function.update s.tail type (.link pp) } m

def sortFreeList (limit : ℕ) (m : Memory) : Except Fault Memory := do
  let (s, m) ← splitFrom limit m.npages m.pageFreeList ⟨fun _ ↦ none, fun _ ↦ .head⟩ m
  let (s, m) := s.store true none m
  let (s, m) := s.store false (s.head true) m
  return { m with pageFreeList := s.head false }

/-- The pages that a loop over the free list visits. -/
def visitFrom (m : Memory) : ℕ → Option Ppn → Except Fault (List Ppn)
  | _, none => .ok []
  | 0, some _ => .error .panic
  | turns + 1, some pp => do
    let rest ← visitFrom m turns (m.pages pp).ppLink
    return pp :: rest

/-- `memset(page2kva(pp), 0x97, 128)`. -/
def scribble (pp : Ppn) (m : Memory) : Memory :=
  { m with word := Function.update m.word pp fun t ↦ if t < 32 then 0x97979797 else m.word pp t }

/-- The loop that spoils the pages that should not be in use. -/
def scribbleFrom (limit : ℕ) : List Ppn → Memory → Except Fault Memory
  | [], m => .ok m
  | pp :: rest, m => do
    if aboveLimit limit pp then scribbleFrom limit rest m
    else
      let _ ← m.kaddr (page2pa pp)
      scribbleFrom limit rest (m.scribble pp)

/-- The assertions about a page on the list. -/
def checkFreePage (firstFreePage : Word) (m : Memory) (pp : Ppn) : Except Fault Unit := do
  if m.npages ≤ pp.toNat then throw .panic
  if page2pa pp = 0 then throw .panic
  if page2pa pp = iophysmem then throw .panic
  if page2pa pp = extphysmem - pgsize then throw .panic
  if page2pa pp = extphysmem then throw .panic
  if extphysmem ≤ page2pa pp then
    let _ ← m.kaddr (page2pa pp)
    if page2pa pp + kernbase < firstFreePage then throw .panic
  if page2pa pp = mpentryPaddr then throw .panic

/-- The assertions, with the numbers of pages of base memory and of extended memory. -/
def checkFreePages (firstFreePage : Word) (m : Memory) : List Ppn → Except Fault (ℕ × ℕ)
  | [] => .ok (0, 0)
  | pp :: rest => do
    checkFreePage firstFreePage m pp
    let (base, ext) ← checkFreePages firstFreePage m rest
    return if page2pa pp < extphysmem then (base + 1, ext) else (base, ext + 1)

def checkPageFreeList (boot : BootInfo) (npages : Word) (onlyLowMemory : Bool) (nextfree : Word)
    (m : Memory) : Except Fault (Word × Memory) := do
  let limit := if onlyLowMemory then 1 else 1024
  if m.pageFreeList = none then throw .panic
  let m ← if onlyLowMemory then sortFreeList limit m else pure m
  let free ← visitFrom m m.npages m.pageFreeList
  let m ← scribbleFrom limit free m
  let (firstFreePage, nextfree) ← bootAlloc boot npages 0 nextfree
  let (base, ext) ← checkFreePages firstFreePage m free
  if base = 0 ∨ ext = 0 then throw .panic
  return (nextfree, m)

/-! ## The address space of the kernel -/

/-- The loop of `mem_init_mp` from the CPU `i` on. -/
def memInitMpFrom (pse : Bool) (boot : BootInfo) (kernPgdir : Ppn) :
    ℕ → Word → Memory → Except Fault Memory
  | 0, _, m => .ok m
  | turns + 1, i, m => do
    let stackStart := kstacktop - i * (kstksize + kstkgap) - kstksize
    let pa ← paddr (boot.percpuKstacks + i * kstksize)
    let m ← bootMapRegion pse kernPgdir stackStart kstksize pa (pteW ||| pteP) m
    memInitMpFrom pse boot kernPgdir turns (i + 1) m

def memInitMp (pse : Bool) (boot : BootInfo) (kernPgdir : Ppn) (m : Memory) : Except Fault Memory :=
  memInitMpFrom pse boot kernPgdir ncpu 0 m

/-- `word` is what the memory contains before, and with `pse` the kernel is compiled with `TP1_PSE`. -/
def memInit (pse : Bool) (boot : BootInfo) (word : Ppn → Slot → Word) : Except Fault Memory := do
  let npages := i386DetectMemory boot
  let (kernPgdir, nextfree) ← bootAlloc boot npages pgsize 0
  let pgdirPa ← paddr kernPgdir
  let pd := pgnum pgdirPa
  let m : Memory := ⟨npages.toNat, word, fun _ ↦ ⟨none, 0⟩, none, pd⟩
  let m := (m.zeroPage pd).writePte (pd, pdx uvpt) (pgdirPa ||| pteU ||| pteP)
  let pagesSize := npages * sizeofPageInfo
  let (pages, nextfree) ← bootAlloc boot npages pagesSize nextfree
  let envsSize := BitVec.ofNat 32 nenv * sizeofEnv
  let (envs, nextfree) ← bootAlloc boot npages envsSize nextfree
  let (nextfree, m) ← pageInit boot npages nextfree m
  let (nextfree, m) ← checkPageFreeList boot npages true nextfree m
  let pagesPa ← paddr pages
  let m ← bootMapRegion pse pd upages (roundup pagesSize) pagesPa (pteU ||| pteP) m
  let envsPa ← paddr envs
  let m ← bootMapRegion pse pd uenvs (roundup envsSize) envsPa (pteU ||| pteP) m
  let m ← bootMapRegion pse pd kernbase (1 <<< 28) 0 (pteW ||| pteP) m
  let m ← memInitMp pse boot pd m
  let (_, m) ← checkPageFreeList boot npages false nextfree m
  return m

end Memory

end SistemasOperativos.Jos
