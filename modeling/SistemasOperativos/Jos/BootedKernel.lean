import SistemasOperativos.Jos.KernelSpace

/-!
# The kernel at its start

`mem_init` and `env_init` on any machine that the kernel fits on: the free list has exactly the pages
that nothing uses, less the page tables of the kernel, the processor translates every address as
`memlayout.h` draws it, and the first environment can be created.
-/

namespace SistemasOperativos.Jos

open Library Library.Except Memory

/-- The kernel when `mem_init` has ended. The CPUs load `kern_pgdir` then, or when they start. -/
def Kernel.unstarted (n : ℕ) (memory : Memory) : Kernel n where
  memory := memory
  envs _ := Env.zero
  envFreeList := none
  cpus _ := ⟨.unused, none, memory.kernPgdir⟩
  boostTimeSlices := 0
  totalSchedCalls := 0

/-- `mem_init` and `env_init`, as `i386_init` calls them. -/
def Kernel.i386Init (n : ℕ) (pse : Bool) (boot : BootInfo) (word : Ppn → Slot → Word) :
    Except Fault (Kernel n) := do
  let memory ← memInit pse boot word
  return (Kernel.unstarted n memory).envInit

/-! ## Where things are -/

namespace BootInfo

variable (boot : BootInfo)

def npages : ℕ := (i386DetectMemory boot).toNat

/-- The page of `kern_pgdir`: the first after the kernel. -/
def pgdirPage : ℕ := pagesFor (boot.kernelEnd.toNat - kernbase.toNat)

/-- The first page of `pages`, and of `envs`. -/
def pagesPage : ℕ := boot.pgdirPage + 1

def envsPage : ℕ := boot.pagesPage + pagesFor (8 * boot.npages)

/-- The first page after what was allocated. -/
def firstFree : ℕ := boot.envsPage + 33

/-- The machine has no more memory than can be mapped at `KERNBASE`, the kernel begins where extended
memory does, and it ends with the structures of the boot in the first 4 MB, which `entry_pgdir` maps,
with memory left for the page tables. The stacks of the CPUs lie in the kernel. -/
structure Fits : Prop where
  memory : boot.npages ≤ 65536
  kernel : kernbase.toNat + 0x100000 ≤ boot.kernelEnd.toNat
  early : boot.firstFree ≤ 1024
  room : boot.firstFree + 70 ≤ boot.npages
  aligned : boot.percpuKstacks.toNat % 4096 = 0
  kstacks : kernbase.toNat ≤ boot.percpuKstacks.toNat ∧
    boot.percpuKstacks.toNat + 8 * kstksize.toNat ≤ boot.kernelEnd.toNat

/-- The pages that nothing uses when the kernel starts. -/
def Unused (p : Ppn) : Prop := p.toNat < boot.npages ∧ Available boot.firstFree p.toNat

/-- The stack of the CPU `i`, above its guard pages. -/
def kstack (i : ℕ) : Span where
  va := .ofNat 32 (0xf0000000 - i * 0x10000 - 0x8000)
  size := kstksize
  pa := .ofNat 32 (boot.percpuKstacks.toNat - kernbase.toNat + i * 0x8000)
  perm := pteW ||| pteP

/-- `pages` and `envs`, for everyone to read. -/
def pagesSpan : Span :=
  ⟨upages, .ofNat 32 (pagesFor (8 * boot.npages) * 4096), .ofNat 32 (boot.pagesPage * 4096),
    pteU ||| pteP⟩

def envsSpan : Span := ⟨uenvs, .ofNat 32 (33 * 4096), .ofNat 32 (boot.envsPage * 4096), pteU ||| pteP⟩

/-- All the memory, for the kernel alone. -/
def memorySpan : Span := ⟨kernbase, 1 <<< 28, 0, pteW ||| pteP⟩

/-- The address space of the kernel. -/
def layout : List Span :=
  boot.pagesSpan :: boot.envsSpan :: memorySpan :: (List.range ncpu).map boot.kstack

theorem mem_layout {s : Span} : s ∈ boot.layout ↔ s = boot.pagesSpan ∨ s = boot.envsSpan ∨
    s = memorySpan ∨ ∃ i < ncpu, s = boot.kstack i := by
  simp only [layout, List.mem_cons, List.mem_map, List.mem_range, eq_comm]

end BootInfo

/-- The memory when `mem_init` ends. -/
structure Memory.Launched (boot : BootInfo) (m : Memory) (free : List Ppn) : Prop where
  prepared : m.Prepared free
  walk : ∀ a, pdx a ≠ pdx uvpt → m.walk m.kernPgdir a = Span.accessOf boot.layout a
  window : m.word m.kernPgdir (pdx uvpt) = uvptPde m.kernPgdir
  /-- The pages that nothing uses are the free ones and the page tables of the kernel. -/
  pages : ∀ p, boot.Unused p ↔ p ∈ free ∨ ∃ d, m.IsTable m.kernPgdir d ∧ pgnum (m.word m.kernPgdir d) = p
  tables : ∀ d, m.IsTable m.kernPgdir d →
    pgnum (m.word m.kernPgdir d) ∉ free ∧ (pgnum (m.word m.kernPgdir d)).toNat < 1024

namespace Memory

variable {boot : BootInfo} {m : Memory} {pd p : Ppn} {stock free : List Ppn}

/-! ## The free list at first -/

section FreeList

theorem aboveLimit_iff : aboveLimit 1 p = true ↔ 1024 ≤ p.toNat := by
  unfold aboveLimit
  rw [decide_eq_true_eq, pdx, BitVec.extractLsb'_toNat, toNat_page2pa, Nat.shiftRight_eq_div_pow]
  have hlt := p.isLt
  omega

/-- The pages from `i` on. -/
def pagesFrom (i n : ℕ) : List Ppn := (List.range' i n).map (BitVec.ofNat 20)

variable {i n : ℕ} (hend : i + n ≤ 2 ^ 20)

include hend in
theorem mem_pagesFrom (h : p ∈ pagesFrom i n) : i ≤ p.toNat ∧ p.toNat < i + n := by
  obtain ⟨j, hj, rfl⟩ := List.mem_map.mp h
  rw [List.mem_range'_1] at hj
  rw [BitVec.toNat_ofNat]
  omega

include hend in
theorem pagesFrom_nodup : (pagesFrom i n).Nodup := by
  apply List.Nodup.map_on _ (List.nodup_range' ..)
  intro j hj k hk heq
  rw [List.mem_range'_1] at hj hk
  have hvalue := congrArg BitVec.toNat heq
  rw [BitVec.toNat_ofNat, BitVec.toNat_ofNat] at hvalue
  omega

@[simp] theorem length_pagesFrom : (pagesFrom i n).length = n := by
  rw [pagesFrom, List.length_map, List.length_range']

/-- Fewer pages cannot hold all of these. -/
theorem exists_mem_of_length_lt {l used : List Ppn} (hnodup : l.Nodup) (hsub : l ⊆ used ++ free)
    (hlength : used.length < l.length) : ∃ p ∈ l, p ∈ free := by
  by_contra hnone
  have hused : l ⊆ used := by
    intro p hp
    rcases List.mem_append.mp (hsub hp) with hmem | hmem
    · exact hmem
    · exact absurd ⟨p, hp, hmem⟩ hnone
  have hle := (hnodup.subperm hused).length_le
  omega

variable {first : ℕ}

/-- The pages of the first 4 MB that come first on the list are enough for the page tables. -/
theorem hundred_le_side (hn : n ≤ 2 ^ 20) (hroom : 256 ≤ n) :
    100 ≤ (side 1 false (freeBelow first n)).length := by
  have hsub : pagesFrom 8 100 ⊆ side 1 false (freeBelow first n) := by
    intro p hp
    obtain ⟨hlow, hhigh⟩ := mem_pagesFrom (by decide) hp
    rw [mem_side, mem_freeBelow hn, Bool.eq_false_iff, Ne, aboveLimit_iff]
    unfold Available
    omega
  calc
    100 = (pagesFrom 8 100).length := length_pagesFrom.symm
    _ ≤ (side 1 false (freeBelow first n)).length :=
      ((pagesFrom_nodup (by decide)).subperm hsub).length_le

end FreeList

/-! ## The regions -/

section Layout

variable (hfits : boot.Fits)

theorem toNat_upages : upages.toNat = 4009754624 := rfl
theorem toNat_uenvs : uenvs.toNat = 4005560320 := rfl
theorem toNat_kstksize : kstksize.toNat = 32768 := rfl

theorem envsSpan_size : boot.envsSpan.size.toNat = 33 * 4096 := rfl
theorem memorySpan_size : BootInfo.memorySpan.size.toNat = 2 ^ 28 := rfl

include hfits in
theorem pages_le : pagesFor (8 * boot.npages) ≤ 128 := by
  have hmemory := hfits.memory
  unfold pagesFor
  omega

include hfits in
theorem pagesSpan_toNat : boot.pagesSpan.size.toNat = pagesFor (8 * boot.npages) * 4096 ∧
    boot.pagesSpan.pa.toNat = boot.pagesPage * 4096 := by
  have hpages := pages_le hfits
  have hearly := hfits.early
  rw [BootInfo.firstFree, BootInfo.envsPage] at hearly
  unfold BootInfo.pagesSpan
  rw [BitVec.toNat_ofNat, BitVec.toNat_ofNat]
  omega

include hfits in
theorem envsSpan_toNat : boot.envsSpan.pa.toNat = boot.envsPage * 4096 := by
  have hearly := hfits.early
  rw [BootInfo.firstFree] at hearly
  unfold BootInfo.envsSpan
  rw [BitVec.toNat_ofNat]
  omega

variable {i j : ℕ} (hi : i < ncpu)

include hi in
theorem kstack_va : (boot.kstack i).va.toNat = 4026531840 - i * 65536 - 32768 := by
  have hcpu : i < 8 := hi
  unfold BootInfo.kstack
  rw [BitVec.toNat_ofNat]
  omega

include hfits hi in
theorem kstack_pa : (boot.kstack i).pa.toNat =
    boot.percpuKstacks.toNat - kernbase.toNat + i * 32768 := by
  have hcpu : i < 8 := hi
  have hlt := boot.percpuKstacks.isLt
  have hkernel := hfits.kstacks.1
  rw [toNat_kernbase] at hkernel
  unfold BootInfo.kstack
  rw [BitVec.toNat_ofNat, toNat_kernbase]
  omega

theorem toNat_utop_eq : utop.toNat = 4005560320 := rfl

theorem fit_read {s : Span} (hperm : s.perm = pteU ||| pteP) :
    s.perm.toNat < 4096 ∧ (s.perm ||| pteP) &&& userWrite ≠ userWrite := by
  rw [hperm]
  decide

theorem fit_write {s : Span} (hperm : s.perm = pteW ||| pteP) :
    s.perm.toNat < 4096 ∧ (s.perm ||| pteP) &&& userWrite ≠ userWrite := by
  rw [hperm]
  decide

include hfits in
theorem pagesSpan_fit : boot.pagesSpan.Fit := by
  have hpages := pages_le hfits
  obtain ⟨hsize, hpa⟩ := pagesSpan_toNat hfits
  have hva : boot.pagesSpan.va.toNat = 4009754624 := rfl
  obtain ⟨hperm, hdenies⟩ := fit_read (s := boot.pagesSpan) rfl
  refine ⟨by omega, .inl (by omega), ?_, by omega, hperm, hdenies⟩
  rw [BitVec.le_def, toNat_utop_eq]
  omega

include hfits in
theorem envsSpan_fit : boot.envsSpan.Fit := by
  have hsize : boot.envsSpan.size.toNat = 33 * 4096 := envsSpan_size
  have hpa := envsSpan_toNat hfits
  have hva : boot.envsSpan.va.toNat = 4005560320 := rfl
  obtain ⟨hperm, hdenies⟩ := fit_read (s := boot.envsSpan) rfl
  refine ⟨by omega, .inl (by omega), ?_, by omega, hperm, hdenies⟩
  rw [BitVec.le_def, toNat_utop_eq]
  omega

theorem memorySpan_fit : BootInfo.memorySpan.Fit := by
  have hva : BootInfo.memorySpan.va.toNat = 4026531840 := rfl
  have hpa : BootInfo.memorySpan.pa.toNat = 0 := rfl
  have hsize := memorySpan_size
  obtain ⟨hperm, hdenies⟩ := fit_write (s := BootInfo.memorySpan) rfl
  refine ⟨by omega, .inr (by omega), ?_, by omega, hperm, hdenies⟩
  rw [BitVec.le_def, toNat_utop_eq]
  omega

include hfits hi in
theorem kstack_fit : (boot.kstack i).Fit := by
  have hcpu : i < 8 := hi
  have hva : (boot.kstack i).va.toNat = 4026531840 - i * 65536 - 32768 := kstack_va hi
  have hpa := kstack_pa hfits hi
  have hsize : (boot.kstack i).size.toNat = 32768 := rfl
  have haligned := hfits.aligned
  rw [toNat_kernbase] at hpa
  obtain ⟨hperm, hdenies⟩ := fit_write (s := boot.kstack i) rfl
  refine ⟨by omega, .inl (by omega), ?_, by omega, hperm, hdenies⟩
  rw [BitVec.le_def, toNat_utop_eq]
  omega

include hfits in
theorem layout_fit {s : Span} (hs : s ∈ boot.layout) : s.Fit := by
  rcases boot.mem_layout.mp hs with rfl | rfl | rfl | ⟨i, hi, rfl⟩
  · exact pagesSpan_fit hfits
  · exact envsSpan_fit hfits
  · exact memorySpan_fit
  · exact kstack_fit hfits hi

/-! The slots of the regions: one for `pages`, one for `envs`, 64 for the memory, and one for all the
stacks. -/

variable {a : Word}

include hfits in
theorem pagesSpan_slot (ha : boot.pagesSpan.Covers a) : a.toNat / 2 ^ 22 = 956 := by
  have hpages := pages_le hfits
  obtain ⟨hsize, -⟩ := pagesSpan_toNat hfits
  have hva : boot.pagesSpan.va.toNat = 4009754624 := rfl
  obtain ⟨hlow, hhigh⟩ := ha
  omega

theorem envsSpan_slot (ha : boot.envsSpan.Covers a) : a.toNat / 2 ^ 22 = 955 := by
  have hsize : boot.envsSpan.size.toNat = 33 * 4096 := envsSpan_size
  have hva : boot.envsSpan.va.toNat = 4005560320 := rfl
  obtain ⟨hlow, hhigh⟩ := ha
  omega

theorem memorySpan_slot (ha : BootInfo.memorySpan.Covers a) : 960 ≤ a.toNat / 2 ^ 22 := by
  have hva : BootInfo.memorySpan.va.toNat = 4026531840 := rfl
  have hlow := ha.1
  omega

include hi in
theorem kstack_slot (ha : (boot.kstack i).Covers a) : a.toNat / 2 ^ 22 = 959 := by
  have hcpu : i < 8 := hi
  have hva : (boot.kstack i).va.toNat = 4026531840 - i * 65536 - 32768 := kstack_va hi
  have hsize : (boot.kstack i).size.toNat = 32768 := rfl
  obtain ⟨hlow, hhigh⟩ := ha
  omega

theorem apart_of_slots {s s' : Span}
    (h : ∀ a a', s.Covers a → s'.Covers a' → a.toNat / 2 ^ 22 ≠ a'.toNat / 2 ^ 22) : s.Apart s' := by
  intro a a' ha ha'
  have hne := h a a' ha ha'
  constructor
  · rintro rfl
    exact hne rfl
  · intro _
    rw [Ne, pdx_eq_iff]
    exact hne

include hi in
/-- Between two stacks there are guard pages. -/
theorem kstack_apart (hj : j < ncpu) (hne : i ≠ j) : (boot.kstack i).Apart (boot.kstack j) := by
  have hcpu : i < 8 := hi
  have hcpu' : j < 8 := hj
  have hva : (boot.kstack i).va.toNat = 4026531840 - i * 65536 - 32768 := kstack_va hi
  have hva' : (boot.kstack j).va.toNat = 4026531840 - j * 65536 - 32768 := kstack_va hj
  have hsize : (boot.kstack i).size.toNat = 32768 := rfl
  have hsize' : (boot.kstack j).size.toNat = 32768 := rfl
  rintro a a' ⟨hlow, hhigh⟩ ⟨hlow', hhigh'⟩
  constructor
  · rintro rfl
    omega
  · omega

include hfits in
theorem layout_apart : boot.layout.Pairwise Span.Apart := by
  have hstacks : ((List.range ncpu).map boot.kstack).Pairwise Span.Apart := by
    rw [List.pairwise_map]
    apply List.Pairwise.imp_of_mem _ List.pairwise_lt_range
    intro i j hi hj hlt
    exact kstack_apart (List.mem_range.mp hi) (List.mem_range.mp hj) hlt.ne
  have hstack : ∀ s ∈ (List.range ncpu).map boot.kstack, ∃ i < ncpu, s = boot.kstack i := by
    intro s hs
    obtain ⟨i, hi, rfl⟩ := List.mem_map.mp hs
    exact ⟨i, List.mem_range.mp hi, rfl⟩
  unfold BootInfo.layout
  rw [List.pairwise_cons, List.pairwise_cons, List.pairwise_cons]
  refine ⟨fun s hs ↦ ?_, fun s hs ↦ ?_, fun s hs ↦ ?_, hstacks⟩
  · apply apart_of_slots
    intro a a' ha ha'
    have hslot := pagesSpan_slot hfits ha
    rw [List.mem_cons, List.mem_cons] at hs
    rcases hs with rfl | rfl | hs
    · have hslot' := envsSpan_slot ha'
      omega
    · have hslot' := memorySpan_slot ha'
      omega
    · obtain ⟨i, hi, rfl⟩ := hstack s hs
      have hslot' := kstack_slot hi ha'
      omega
  · apply apart_of_slots
    intro a a' ha ha'
    have hslot := envsSpan_slot ha
    rcases List.mem_cons.mp hs with rfl | hs
    · have hslot' := memorySpan_slot ha'
      omega
    · obtain ⟨i, hi, rfl⟩ := hstack s hs
      have hslot' := kstack_slot hi ha'
      omega
  · apply apart_of_slots
    intro a a' ha ha'
    have hslot := memorySpan_slot ha
    obtain ⟨i, hi, rfl⟩ := hstack s hs
    have hslot' := kstack_slot hi ha'
    omega

include hfits in
/-- No region is in the slot of the window. -/
theorem layout_slot {s : Span} (hs : s ∈ boot.layout) (ha : s.Covers a) : pdx a ≠ pdx uvpt := by
  have huvpt : uvpt.toNat / 2 ^ 22 = 957 := rfl
  rw [Ne, pdx_eq_iff, huvpt]
  rcases boot.mem_layout.mp hs with rfl | rfl | rfl | ⟨i, hi, rfl⟩
  · have hslot := pagesSpan_slot hfits ha
    omega
  · have hslot := envsSpan_slot ha
    omega
  · have hslot := memorySpan_slot ha
    omega
  · have hslot := kstack_slot hi ha
    omega

end Layout

/-! ## Before and after the regions are mapped -/

section Ends

theorem uvptPde_and {w : Word} (hw : w.toNat < 4096) : uvptPde pd &&& w = (pteP ||| pteU) &&& w := by
  rw [uvptPde, BitVec.or_assoc, aligned_and _ hw]
  rw [toNat_page2pa, Nat.mul_mod_left]

/-- The directory with nothing but itself. -/
theorem stocked_of_root {m : Memory} (hword : ∀ d, m.word pd d = if d = pdx uvpt then uvptPde pd else 0)
    (hchain : Chain m.links m.pageFreeList stock) (hbound : ∀ p ∈ stock, p.toNat < m.npages)
    (hroot : pd ∉ stock) (hunlinked : ∀ p ∉ stock, (m.pages p).ppLink = none)
    (hunreferenced : ∀ p ∈ stock, (m.pages p).ppRef = 0) (hplenty : 69 ≤ stock.length) :
    m.Stocked pd stock stock := by
  have hself : ∀ d, m.word pd d ≠ 0 → d = pdx uvpt := by
    intro d hd
    by_contra hne
    rw [hword, if_neg hne] at hd
    exact hd rfl
  have hhere : m.word pd (pdx uvpt) = uvptPde pd := by rw [hword, if_pos rfl]
  have hflags : uvptPde pd &&& ptePs = 0 ∧ uvptPde pd &&& userWrite ≠ userWrite := by
    rw [uvptPde_and (by decide), uvptPde_and (by decide)]
    decide
  have hnonzero : uvptPde pd ≠ 0 := by
    intro hzero
    have hbit : uvptPde pd &&& pteP = (pteP ||| pteU) &&& pteP := uvptPde_and (by decide)
    rw [hzero] at hbit
    exact absurd hbit (by decide)
  have hnone : ∀ d, ¬ m.IsTable pd d := by
    rintro d ⟨hd, -, hpage⟩
    rw [hself d hd, hhere, pgnum_uvptPde] at hpage
    exact hpage rfl
  constructor
  · exact ⟨hchain, hbound, hroot, fun d hd ↦ absurd hd (hnone d),
      fun d _ hd ↦ absurd hd (hnone d)⟩
  · intro d
    constructor
    · exact fun h ↦ hself d h.1
    · rintro rfl
      unfold Window
      rw [hhere, pgnum_uvptPde]
      exact ⟨hnonzero, hflags.1, rfl⟩
  · intro d hd
    rw [hword, if_neg]
    rintro rfl
    exact absurd hd (by decide)
  · exact hunlinked
  · exact hunreferenced
  · exact fun d hd ↦ absurd hd (hnone d)
  · intro d hd
    by_cases heq : d = pdx uvpt
    · rw [heq, hhere] at hd
      exact absurd hd hflags.2
    · rw [hword, if_neg heq] at hd
      exact absurd hd (by decide)
  · exact fun d hd ↦ absurd hd (hnone d)
  · refine ⟨[], rfl, fun p ↦ ⟨fun hp ↦ absurd hp List.not_mem_nil, ?_⟩⟩
    rintro ⟨d, hd, -⟩
    exact absurd hd (hnone d)
  · exact hplenty
  · exact hchain.nodup

namespace Stocked

theorem prepared {m : Memory} (h : m.Stocked m.kernPgdir stock free) : m.Prepared free := by
  have htable : ∀ d, d ≠ pdx uvpt → m.word m.kernPgdir d ≠ 0 → m.word m.kernPgdir d &&& ptePs = 0 →
      m.IsTable m.kernPgdir d := by
    intro d hd hne hps
    exact ⟨hne, hps, fun hself ↦ hd ((h.window d).mp ⟨hne, hps, hself⟩)⟩
  refine ⟨⟨h.directory.chain, h.directory.bound, h.unreferenced, h.directory.root, h.low, ?_⟩,
    h.unlinked, ?_⟩
  · rintro d - pde rfl hbits
    have ht := h.closed d hbits
    exact ⟨(h.directory.table d ht).1, h.sealed d ht⟩
  · intro d _ huvpt hne hps
    have ht := htable d huvpt hne hps
    exact ⟨(h.directory.table d ht).1, h.referenced d ht⟩

variable {m m' : Memory} (h : m.Stocked pd stock free) (hchecked : Checked m m' free free)

include h hchecked in
theorem checked_root : m'.word pd = m.word pd := hchecked.word pd h.directory.root

include h hchecked in
theorem checked_isTable {d : Slot} : m'.IsTable pd d ↔ m.IsTable pd d := by
  unfold IsTable
  rw [h.checked_root hchecked]

include h hchecked in
theorem checked_table {d : Slot} (hd : m.IsTable pd d) :
    m'.word (pgnum (m'.word pd d)) = m.word (pgnum (m.word pd d)) := by
  rw [h.checked_root hchecked]
  exact hchecked.word _ (h.directory.table d hd).1

include h hchecked in
/-- A check of the free list leaves the directory alone. -/
theorem checked : m'.Stocked pd stock free := by
  have hroot := h.checked_root hchecked
  have htable := fun d ↦ h.checked_isTable hchecked (d := d)
  constructor
  · constructor
    · exact hchecked.chain
    · intro p hp
      rw [hchecked.npages]
      exact h.directory.bound p hp
    · exact h.directory.root
    · intro d hd
      rw [hroot, hchecked.npages]
      exact h.directory.table d ((htable d).mp hd)
    · intro d d' hd hd'
      rw [hroot]
      exact h.directory.distinct d d' ((htable d).mp hd) ((htable d').mp hd')
  · intro d
    unfold Window
    rw [hroot]
    exact h.window d
  · intro d hd
    rw [hroot]
    exact h.low d hd
  · intro p hp
    rw [hchecked.pages p hp]
    exact h.unlinked p hp
  · intro p hp
    rw [hchecked.ppRef]
    exact h.unreferenced p hp
  · intro d hd
    rw [hroot, hchecked.ppRef]
    exact h.referenced d ((htable d).mp hd)
  · intro d hd
    rw [hroot] at hd
    exact (htable d).mpr (h.closed d hd)
  · intro d hd t
    rw [h.checked_table hchecked ((htable d).mp hd)]
    exact h.sealed d ((htable d).mp hd) t
  · obtain ⟨used, hstock, hused⟩ := h.taken
    refine ⟨used, hstock, fun p ↦ (hused p).trans (exists_congr fun d ↦ ?_)⟩
    rw [htable, hroot]
  · exact h.plenty
  · exact h.nodup

include h hchecked in
theorem checked_walk {a : Word} (hslot : pdx a ≠ pdx uvpt) : m'.walk pd a = m.walk pd a := by
  apply walk_congr
  · rw [h.window]
    exact hslot
  · rw [h.checked_root hchecked]
  · intro hd
    have htable := h.checked_table hchecked hd
    rw [h.checked_root hchecked] at htable
    rw [htable]

end Stocked

end Ends

/-! ## The run of `mem_init` -/

section Run

variable {pse : Bool} {word : Ppn → Slot → Word}

/-- The loop of `mem_init_mp` maps the stacks. -/
theorem memInitMpFrom_eq (hfits : boot.Fits) {turns i : ℕ} (hend : i + turns ≤ ncpu) (m : Memory) :
    memInitMpFrom pse boot pd turns (.ofNat 32 i) m =
      Span.mapAll pse pd ((List.range' i turns).map boot.kstack) m := by
  induction turns generalizing i m with
  | zero => rfl
  | succ turns ih =>
    have hcpu : i < 8 := by
      have hlimit : i + (turns + 1) ≤ 8 := hend
      omega
    have hstack : kstacktop - BitVec.ofNat 32 i * (kstksize + kstkgap) - kstksize =
        (boot.kstack i).va := by
      have htop : kstacktop.toNat = 4026531840 := rfl
      have hboth : (kstksize + kstkgap).toNat = 65536 := rfl
      have hva : (boot.kstack i).va.toNat = 4026531840 - i * 65536 - 32768 := kstack_va hcpu
      have hproduct : (BitVec.ofNat 32 i * (kstksize + kstkgap)).toNat = i * 65536 := by
        rw [BitVec.toNat_mul, BitVec.toNat_ofNat, hboth]
        omega
      apply BitVec.eq_of_toNat_eq
      rw [BitVec.toNat_sub, BitVec.toNat_sub, hproduct, htop, toNat_kstksize, hva]
      omega
    have hpaddr : paddr (boot.percpuKstacks + BitVec.ofNat 32 i * kstksize) =
        .ok (boot.kstack i).pa := by
      have hlow := hfits.kstacks.1
      have hhigh := hfits.kstacks.2
      have hend := boot.kernelEnd.isLt
      have hpa := kstack_pa hfits (show i < ncpu from hcpu)
      rw [toNat_kstksize] at hhigh
      rw [toNat_kernbase] at hlow hpa
      have hproduct : (BitVec.ofNat 32 i * kstksize).toNat = i * 32768 := by
        rw [BitVec.toNat_mul, BitVec.toNat_ofNat, toNat_kstksize]
        omega
      have hsum : (boot.percpuKstacks + BitVec.ofNat 32 i * kstksize).toNat =
          boot.percpuKstacks.toNat + i * 32768 := by
        rw [BitVec.toNat_add, hproduct]
        omega
      have hle : kernbase ≤ boot.percpuKstacks + BitVec.ofNat 32 i * kstksize := by
        rw [BitVec.le_def, hsum, toNat_kernbase]
        omega
      unfold paddr
      rw [if_neg (BitVec.not_lt.mpr hle), Except.ok.injEq]
      apply BitVec.eq_of_toNat_eq
      rw [BitVec.toNat_sub_of_le hle, hsum, toNat_kernbase, hpa]
      omega
    have hnext : BitVec.ofNat 32 i + 1 = BitVec.ofNat 32 (i + 1) := by
      rw [BitVec.ofNat_add]
      rfl
    rw [memInitMpFrom, hstack, hpaddr, List.range'_succ, List.map_cons, Span.mapAll, hnext]
    change (Span.map pse pd (boot.kstack i) m >>= _) = _
    congr 1
    funext m'
    exact ih (by omega) m'

theorem roundup_envsSize : roundup (BitVec.ofNat 32 nenv * sizeofEnv) = boot.envsSpan.size := by
  have hsize : (BitVec.ofNat 32 nenv * sizeofEnv).toNat = 135168 := by decide
  apply BitVec.eq_of_toNat_eq
  rw [toNat_roundup, hsize, envsSpan_size]
  rfl

/-- What the allocator of the boot gives: the page directory, `pages` and `envs`. -/
structure Allocated (boot : BootInfo) (kernPgdir pages envs next : Word) : Prop where
  first : bootAlloc boot (i386DetectMemory boot) pgsize 0 = .ok (kernPgdir, pages)
  second : bootAlloc boot (i386DetectMemory boot) (i386DetectMemory boot * sizeofPageInfo) pages =
    .ok (pages, envs)
  third : bootAlloc boot (i386DetectMemory boot) (BitVec.ofNat 32 nenv * sizeofEnv) envs =
    .ok (envs, next)
  kernPgdir : Cursor kernPgdir boot.pgdirPage
  pages : Cursor pages boot.pagesPage
  envs : Cursor envs boot.envsPage
  next : Cursor next boot.firstFree

theorem toNat_pagesSize (hfits : boot.Fits) :
    (i386DetectMemory boot * sizeofPageInfo).toNat = 8 * boot.npages := by
  have hmemory := hfits.memory
  have hsize : sizeofPageInfo.toNat = 8 := rfl
  rw [BootInfo.npages] at hmemory ⊢
  rw [BitVec.toNat_mul, hsize]
  omega

theorem exists_allocated (hfits : boot.Fits) :
    ∃ kernPgdir pages envs next, Allocated boot kernPgdir pages envs next := by
  have hsmall : (i386DetectMemory boot).toNat ≤ 65536 := hfits.memory
  have hroom : boot.firstFree < (i386DetectMemory boot).toNat :=
    Nat.lt_of_lt_of_le (by omega) hfits.room
  have hearly := hfits.early
  have hpgdir : pagesFor pgsize.toNat = 1 := rfl
  have henvs : pagesFor (BitVec.ofNat 32 nenv * sizeofEnv).toNat = 33 := rfl
  have hpages := toNat_pagesSize hfits
  have hkernel := hfits.kernel
  have hbelow : boot.pgdirPage < boot.pagesPage ∧ boot.pagesPage ≤ boot.envsPage ∧
      boot.envsPage + 33 = boot.firstFree := by
    unfold BootInfo.firstFree BootInfo.envsPage BootInfo.pagesPage
    omega
  have hend : boot.kernelEnd.toNat ≤ 2 ^ 32 - 4096 := by
    have hpage : pagesFor (boot.kernelEnd.toNat - kernbase.toNat) ≤ 1024 := by
      change boot.pgdirPage ≤ 1024
      omega
    rw [pagesFor, toNat_kernbase] at hpage
    omega
  obtain ⟨hstart, hcursor⟩ := bootAlloc_first boot (i386DetectMemory boot) pgsize
    (Nat.le_of_add_right_le hkernel) hend
  obtain ⟨pages, hfirst, hpagesCursor⟩ := bootAlloc_eq boot pgsize hcursor hsmall (by
    rw [hpgdir]
    change boot.pgdirPage + 1 < _
    omega)
  rw [hpgdir] at hpagesCursor
  obtain ⟨envs, hsecond, henvsCursor⟩ := bootAlloc_eq boot
    (i386DetectMemory boot * sizeofPageInfo) hpagesCursor hsmall (by
      rw [hpages]
      change boot.envsPage < _
      omega)
  rw [hpages] at henvsCursor
  obtain ⟨next, hthird, hnextCursor⟩ := bootAlloc_eq boot
    (BitVec.ofNat 32 nenv * sizeofEnv) henvsCursor hsmall (by
      rw [henvs]
      change boot.envsPage + 33 < _
      omega)
  rw [henvs] at hnextCursor
  exact ⟨_, pages, envs, next, hstart.trans hfirst, hsecond, hthird, hcursor, hpagesCursor,
    henvsCursor, hnextCursor⟩

/-- The memory with the page directory, before the free list is built. -/
def withPgdir (boot : BootInfo) (pd : Ppn) (pgdirPa : Word) (word : Ppn → Slot → Word) : Memory :=
  ((⟨boot.npages, word, fun _ ↦ ⟨none, 0⟩, none, pd⟩ : Memory).zeroPage pd).writePte (pd, pdx uvpt)
    (pgdirPa ||| pteU ||| pteP)

/-- The memory when the regions are about to be mapped. -/
theorem exists_stocked (word : Ppn → Slot → Word) (hfits : boot.Fits) {next pgdirPa : Word}
    (hnext : Cursor next boot.firstFree) (hpa : pgdirPa.toNat = 4096 * boot.pgdirPage) (hpd : pd = pgnum pgdirPa) :
    ∃ m₁ m₂, pageInit boot (i386DetectMemory boot) next (withPgdir boot pd pgdirPa word) =
        .ok (next, m₁) ∧
      checkPageFreeList boot (i386DetectMemory boot) true next m₁ = .ok (next, m₂) ∧
      m₂.Stocked pd (ordered true (freeBelow boot.firstFree boot.npages))
        (ordered true (freeBelow boot.firstFree boot.npages)) ∧
      m₂.kernPgdir = pd ∧ m₂.npages = boot.npages ∧
      ∀ d, m₂.word pd d = if d = pdx uvpt then uvptPde pd else 0 := by
  have hsmall : (i386DetectMemory boot).toNat ≤ 65536 := hfits.memory
  have hroom : boot.firstFree < (i386DetectMemory boot).toNat :=
    Nat.lt_of_lt_of_le (by omega) hfits.room
  have hmemory := hfits.memory
  have hearly := hfits.early
  have hkernel := hfits.kernel
  have hpgdir : 256 ≤ boot.pgdirPage ∧ boot.pgdirPage + 34 ≤ boot.firstFree := by
    unfold BootInfo.firstFree BootInfo.envsPage BootInfo.pagesPage BootInfo.pgdirPage pagesFor
    omega
  have hspare := hfits.room
  have hmem : ∀ p, p ∈ freeBelow boot.firstFree boot.npages ↔ boot.Unused p := fun p ↦
    mem_freeBelow (by omega)
  have hbase : ∃ p ∈ freeBelow boot.firstFree boot.npages, p.toNat < 256 := by
    refine ⟨8, (hmem 8).mpr ⟨?_, ?_⟩, by decide⟩
    · change 8 < boot.npages
      omega
    · unfold Available
      change (8 : ℕ) ≠ 0 ∧ (8 : ℕ) ≠ 7 ∧ ¬ (160 ≤ 8 ∧ 8 < 256) ∧ ¬ (256 ≤ 8 ∧ 8 < boot.firstFree)
      omega
  have hext : ∃ p ∈ freeBelow boot.firstFree boot.npages, 256 ≤ p.toNat := by
    have hvalue : (BitVec.ofNat 20 boot.firstFree).toNat = boot.firstFree := by
      rw [BitVec.toNat_ofNat]
      omega
    refine ⟨BitVec.ofNat 20 boot.firstFree, (hmem _).mpr ⟨?_, ?_⟩, ?_⟩
    · rw [hvalue]
      omega
    · rw [hvalue]
      unfold Available
      omega
    · omega
  obtain ⟨m₁, hinit, hgathered⟩ := pageInit_eq boot
    (m := withPgdir boot pd pgdirPa word) hnext hsmall hroom (fun _ ↦ rfl) rfl
  have hnpages₁ : m₁.npages = boot.npages := hgathered.npages
  have hchain₁ : Chain m₁.links m₁.pageFreeList (freeBelow boot.firstFree boot.npages) :=
    hgathered.chain
  obtain ⟨m₂, hcheck, hchecked⟩ := checkPageFreeList_eq boot (i386DetectMemory boot) true
    (m := m₁) hnext (by omega) (by rw [hnpages₁]; rfl)
    (by rw [hnpages₁]; exact hmemory) (by rw [hnpages₁]; exact hroom) hchain₁
    (fun p hp ↦ by rw [hnpages₁]; exact (hmem p).mp hp) hbase hext
  have hpdvalue : pd.toNat = boot.pgdirPage := by
    rw [hpd, pgnum, BitVec.extractLsb'_toNat, hpa, Nat.shiftRight_eq_div_pow]
    omega
  have hpdused : pd ∉ freeBelow boot.firstFree boot.npages := by
    rw [hmem]
    rintro ⟨-, hfree⟩
    unfold Available at hfree
    omega
  have hpde : pgdirPa ||| pteU ||| pteP = uvptPde pd := by
    rw [hpd, uvptPde, page2pa_pgnum (by omega), BitVec.or_assoc, BitVec.or_assoc,
      BitVec.or_comm pteU]
  have hword : ∀ d, m₂.word pd d = if d = pdx uvpt then uvptPde pd else 0 := by
    intro d
    rw [hchecked.word pd hpdused, hgathered.word, withPgdir, writePte_word, hpde]
    by_cases hd : d = pdx uvpt
    · rw [if_pos ⟨rfl, hd⟩, if_pos hd]
    · rw [if_neg fun h ↦ hd h.2, if_neg hd]
      change Function.update word pd (fun _ ↦ 0) pd d = 0
      rw [Function.update_self]
  have hnpages₂ : m₂.npages = boot.npages := hchecked.npages.trans hnpages₁
  refine ⟨m₁, m₂, hinit, hcheck, ?_, hchecked.kernPgdir.trans hgathered.kernPgdir, hnpages₂, hword⟩
  apply stocked_of_root hword hchecked.chain
  · intro p hp
    rw [hnpages₂]
    exact ((hmem p).mp (mem_ordered.mp hp)).1
  · rw [mem_ordered]
    exact hpdused
  · intro p hp
    rw [mem_ordered] at hp
    rw [hchecked.pages p hp]
    exact hgathered.unlinked p hp
  · intro p _
    rw [hchecked.ppRef]
    exact hgathered.unreferenced p
  · have hside : 100 ≤ (side 1 false (freeBelow boot.firstFree boot.npages)).length :=
      hundred_le_side (by omega) (by omega)
    change 69 ≤ (side 1 false _ ++ side 1 true _).length
    rw [List.length_append]
    omega

/-- On every machine that the kernel fits on, `mem_init` comes to its end. -/
theorem memInit_launched (hfits : boot.Fits) (pse : Bool) (word : Ppn → Slot → Word) :
    ∃ m free, memInit pse boot word = .ok m ∧ m.Launched boot free := by
  have hmemory := hfits.memory
  have hearly := hfits.early
  have hroom := hfits.room
  obtain ⟨kernPgdir, pages, envs, next, halloc⟩ := exists_allocated hfits
  obtain ⟨pgdirPa, hpgdirPa, hpgdir⟩ := halloc.kernPgdir.paddr
  obtain ⟨pagesPa, hpagesPa, hpages⟩ := halloc.pages.paddr
  obtain ⟨envsPa, henvsPa, henvs⟩ := halloc.envs.paddr
  obtain ⟨m₁, m₂, hinit, hcheck, hstocked, hkern, hnpages, hword⟩ :=
    exists_stocked word hfits halloc.next hpgdir rfl
  have hempty : ∀ a, pdx a ≠ pdx uvpt → m₂.word (pgnum pgdirPa) (pdx a) = 0 := fun a ha ↦ by
    rw [hword, if_neg ha]
  obtain ⟨m₃, free, hmap, hstocked₃, hkern₃, hnpages₃, hself, hwalk⟩ := Span.mapAll_eq pse hstocked
    (fun s hs ↦ layout_fit hfits hs) (layout_apart hfits) fun s hs a ha ↦
      ⟨.inl (hempty a (layout_slot hfits hs ha)), fun _ ↦ hempty a (layout_slot hfits hs ha)⟩
  -- both kinds of memory are left for the last check
  have hlist : ∀ p, p ∈ freeBelow boot.firstFree boot.npages ↔ boot.Unused p := fun p ↦
    mem_freeBelow (by omega)
  obtain ⟨used, hstock, hused, hcard⟩ := hstocked₃.taken_le
  have hmem : ∀ p, boot.Unused p ↔ p ∈ used ++ free := by
    intro p
    rw [← hstock, mem_ordered, hlist]
  have hfirst : 256 < boot.firstFree := by
    have hkernel := hfits.kernel
    unfold BootInfo.firstFree BootInfo.envsPage BootInfo.pagesPage BootInfo.pgdirPage pagesFor
    omega
  have hbase : ∃ p ∈ free, p.toNat < 256 := by
    obtain ⟨p, hp, hfree⟩ := exists_mem_of_length_lt (l := pagesFrom 8 100)
      (pagesFrom_nodup (by decide)) (fun p hp ↦ (hmem p).mp (by
        obtain ⟨hlow, hhigh⟩ := mem_pagesFrom (by decide) hp
        unfold BootInfo.Unused Available
        omega)) (by rw [length_pagesFrom]; omega)
    obtain ⟨-, hhigh⟩ := mem_pagesFrom (by decide) hp
    exact ⟨p, hfree, by omega⟩
  have hext : ∃ p ∈ free, 256 ≤ p.toNat := by
    obtain ⟨p, hp, hfree⟩ := exists_mem_of_length_lt (l := pagesFrom boot.firstFree 70)
      (pagesFrom_nodup (by omega)) (fun p hp ↦ (hmem p).mp (by
        obtain ⟨hlow, hhigh⟩ := mem_pagesFrom (by omega) hp
        unfold BootInfo.Unused Available
        omega)) (by rw [length_pagesFrom]; omega)
    obtain ⟨hlow, -⟩ := mem_pagesFrom (by omega) hp
    exact ⟨p, hfree, by omega⟩
  have hn₃ : m₃.npages = boot.npages := hnpages₃.trans hnpages
  obtain ⟨m, hcheck', hchecked⟩ := checkPageFreeList_eq boot (i386DetectMemory boot) false
    (m := m₃) halloc.next (by omega) (by rw [hn₃]; rfl)
    (by rw [hn₃]; exact hmemory) (by rw [hn₃]; omega) hstocked₃.directory.chain
    (fun p hp ↦ by rw [hn₃]; exact (hmem p).mpr (List.mem_append_right _ hp)) hbase hext
  have hfinal := hstocked₃.checked hchecked
  have hkernel : m.kernPgdir = pgnum pgdirPa := hchecked.kernPgdir.trans (hkern₃.trans hkern)
  refine ⟨m, free, ?_, ?_⟩
  · obtain ⟨hpagesSize, hpagesBase⟩ := pagesSpan_toNat hfits
    have hsize := toNat_pagesSize hfits
    have hspan₁ : roundup (i386DetectMemory boot * sizeofPageInfo) = boot.pagesSpan.size ∧
        pagesPa = boot.pagesSpan.pa := by
      constructor
      · apply BitVec.eq_of_toNat_eq
        rw [toNat_roundup, hsize, hpagesSize, if_pos (by omega), pagesFor]
      · apply BitVec.eq_of_toNat_eq
        rw [hpages, hpagesBase, Nat.mul_comm]
    have hspan₂ : roundup (BitVec.ofNat 32 nenv * sizeofEnv) = boot.envsSpan.size ∧
        envsPa = boot.envsSpan.pa := by
      constructor
      · exact roundup_envsSize
      · apply BitVec.eq_of_toNat_eq
        rw [henvs, envsSpan_toNat hfits, Nat.mul_comm]
    have hstacks : ∀ m', memInitMp pse boot (pgnum pgdirPa) m' =
        Span.mapAll pse (pgnum pgdirPa) ((List.range ncpu).map boot.kstack) m' := by
      intro m'
      rw [List.range_eq_range']
      exact memInitMpFrom_eq hfits (i := 0) (Nat.le_of_eq (Nat.zero_add _)) m'
    unfold BootInfo.layout at hmap
    rw [Span.mapAll] at hmap
    obtain ⟨n₁, hmap₁, hmap⟩ := bind_ok.mp hmap
    rw [Span.mapAll] at hmap
    obtain ⟨n₂, hmap₂, hmap⟩ := bind_ok.mp hmap
    rw [Span.mapAll] at hmap
    obtain ⟨n₃, hmap₃, hmap₄⟩ := bind_ok.mp hmap
    rw [← hstacks] at hmap₄
    unfold Span.map at hmap₁ hmap₂ hmap₃
    rw [← hspan₁.1, ← hspan₁.2] at hmap₁
    rw [← hspan₂.1, ← hspan₂.2] at hmap₂
    unfold memInit
    refine bind_ok.mpr ⟨_, halloc.first, bind_ok.mpr ⟨_, hpgdirPa, ?_⟩⟩
    refine bind_ok.mpr ⟨_, halloc.second, bind_ok.mpr ⟨_, halloc.third, ?_⟩⟩
    refine bind_ok.mpr ⟨_, hinit, bind_ok.mpr ⟨_, hcheck, ?_⟩⟩
    refine bind_ok.mpr ⟨_, hpagesPa, bind_ok.mpr ⟨_, hmap₁, ?_⟩⟩
    refine bind_ok.mpr ⟨_, henvsPa, bind_ok.mpr ⟨_, hmap₂, ?_⟩⟩
    refine bind_ok.mpr ⟨_, hmap₃, bind_ok.mpr ⟨_, hmap₄, ?_⟩⟩
    exact bind_ok.mpr ⟨_, hcheck', rfl⟩
  · constructor
    · rw [← hkernel] at hfinal
      exact hfinal.prepared
    · intro a ha
      have hnone : m₂.walk (pgnum pgdirPa) a = none := walk_of_empty (hempty a ha)
      rw [hkernel, hstocked₃.checked_walk hchecked ha, hwalk a ha, hnone, Option.or_none]
    · rw [hkernel, hstocked₃.checked_root hchecked, hself, hword, if_pos rfl]
    · intro p
      rw [hkernel, hmem, List.mem_append, hused, or_comm]
      simp only [hstocked₃.checked_isTable hchecked, hstocked₃.checked_root hchecked]
    · intro d hd
      rw [hkernel] at hd ⊢
      refine ⟨(hfinal.directory.table d hd).1, ?_⟩
      have htaken : pgnum (m.word (pgnum pgdirPa) d) ∈ used := by
        rw [hused, hstocked₃.checked_root hchecked]
        exact ⟨d, (hstocked₃.checked_isTable hchecked).mp hd, rfl⟩
      have hlow : 100 ≤ (side 1 false (freeBelow boot.firstFree boot.npages)).length :=
        hundred_le_side (by omega) (by omega)
      have hbegins : used <+: side 1 false (freeBelow boot.firstFree boot.npages) := by
        apply List.prefix_of_prefix_length_le (List.prefix_append used free)
        · rw [← hstock]
          exact List.prefix_append ..
        · omega
      have hbelow := (mem_side.mp (hbegins.subset htaken)).2
      rw [Bool.eq_false_iff, Ne, aboveLimit_iff] at hbelow
      omega

end Run

end Memory

/-- From any contents of the memory the kernel starts, with large pages and without them, in a state
from which the machine runs. -/
theorem i386Init_booted (n : ℕ) (pse : Bool) (boot : BootInfo) (hfits : boot.Fits)
    (word : Ppn → Slot → Word) : ∃ (k : Kernel n) (free : List Ppn),
      Kernel.i386Init n pse boot word = .ok k ∧ k.Booted free ∧ k.memory.Launched boot free := by
  obtain ⟨m, free, hrun, hlaunched⟩ := memInit_launched hfits pse word
  refine ⟨(Kernel.unstarted n m).envInit, free, ?_, ?_, hlaunched⟩
  swap
  · exact ⟨hlaunched.prepared.toBooted, ⟨Kernel.unstarted n m, fun _ ↦ rfl, rfl⟩, fun _ ↦ rfl⟩
  unfold Kernel.i386Init
  rw [hrun]
  rfl

/-- A machine with 128 MB, on which the kernel takes half a megabyte. -/
def personalComputer : BootInfo where
  nvram r := if r = nvramExt16lo + 1 then 7 else 0
  kernelEnd := 0xf0180000
  percpuKstacks := 0xf0120000

theorem personalComputer_fits : personalComputer.Fits := by
  constructor <;> decide

theorem i386Init_booted_personalComputer : ∃ (k : Kernel 8) (free : List Ppn),
    Kernel.i386Init 8 true personalComputer (fun _ _ ↦ 0) = .ok k ∧ k.Booted free ∧
      k.memory.Launched personalComputer free :=
  i386Init_booted 8 true personalComputer personalComputer_fits fun _ _ ↦ 0

end SistemasOperativos.Jos
