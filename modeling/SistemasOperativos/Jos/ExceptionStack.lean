import SistemasOperativos.Jos.Boot
import SistemasOperativos.Jos.UserMemCheck

/-!
# Page faults on the exception stack

`page_fault_handler` takes the stack pointer of the program that faults and goes down from it, and it
tests for the overflow after the writes. The theorem says for which stack pointers the frame ends up
on the exception stack; for the others the kernel stops, in a write below the page or at the test.
-/

namespace SistemasOperativos.Jos

open Library Library.Except

/-- A range of addresses in the page of the exception stack. -/
def OnStack (va : Word) (len : ℕ) : Prop :=
  exstk.toNat ≤ va.toNat ∧ va.toNat + len ≤ uxstacktop.toNat

/-- The fault happens on the exception stack, where the handler of an earlier one runs. -/
def Nested (esp : Word) : Prop := OnStack esp 1

/-- The stack pointer is on the exception stack, with no room for the scratch word and the frame
below it. -/
def NoRoom (esp : Word) : Prop := exstk ≤ esp ∧ esp < exstk + 4 + utfSize

section Addresses

variable {esp : Word}

theorem toNat_exstk : exstk.toNat = 0xeebff000 := rfl

theorem toNat_exstkTop : exstkTop.toNat = 0xeebfffff := rfl

theorem toNat_uxstacktop : uxstacktop.toNat = 0xeec00000 := rfl

theorem toNat_utfSize : utfSize.toNat = 52 := rfl

theorem nested_iff : Nested esp ↔ ¬ (esp < exstk ∨ exstkTop < esp) := by
  rw [Nested, OnStack, BitVec.lt_def, BitVec.lt_def, toNat_exstk, toNat_exstkTop, toNat_uxstacktop]
  omega

theorem utfAddress_nested (h : Nested esp) : utfAddress esp = esp - 4 - utfSize :=
  if_neg (nested_iff.mp h)

theorem utfAddress_not_nested (h : ¬ Nested esp) : utfAddress esp = exstkTop - utfSize := by
  rw [nested_iff, not_not] at h
  exact if_pos h

theorem noRoom_iff : NoRoom esp ↔ exstk.toNat ≤ esp.toNat ∧ esp.toNat < exstk.toNat + 56 := by
  have hend : (exstk + 4 + utfSize).toNat = exstk.toNat + 56 := rfl
  rw [NoRoom, BitVec.le_def, BitVec.lt_def, hend]

/-- The scratch word ends at the stack pointer. -/
theorem toNat_scratch (hnested : Nested esp) : (esp - 4).toNat + 4 = esp.toNat := by
  have hfour : (4 : Word).toNat = 4 := rfl
  rw [Nested, OnStack, toNat_exstk] at hnested
  rw [BitVec.toNat_sub, hfour]
  omega

/-- The frame ends at the scratch word. -/
theorem toNat_utfAddress_nested (hnested : Nested esp) : (utfAddress esp).toNat + 56 = esp.toNat := by
  have hscratch := toNat_scratch hnested
  rw [Nested, OnStack, toNat_exstk] at hnested
  rw [utfAddress_nested ⟨hnested.1, hnested.2⟩, BitVec.toNat_sub, toNat_utfSize]
  omega

/-- With room below the stack pointer, the scratch word lies on the stack. -/
theorem scratch_onStack (hnested : Nested esp) (hroom : ¬ NoRoom esp) : OnStack (esp - 4) 4 := by
  have hscratch := toNat_scratch hnested
  rw [noRoom_iff] at hroom
  rw [Nested, OnStack] at hnested
  rw [OnStack]
  omega

/-- And so does the frame, in both cases. -/
theorem utfAddress_onStack (hroom : ¬ NoRoom esp) : OnStack (utfAddress esp) 52 := by
  by_cases hnested : Nested esp
  · have haddr := toNat_utfAddress_nested hnested
    rw [noRoom_iff] at hroom
    rw [Nested, OnStack] at hnested
    rw [OnStack]
    omega
  · rw [utfAddress_not_nested hnested, OnStack]
    decide

/-- Without room the address fails the test that follows the writes. -/
theorem utfAddress_noRoom (h : NoRoom esp) :
    utfAddress esp < exstk ∨ exstkTop < utfAddress esp := by
  rw [noRoom_iff] at h
  have hnested : Nested esp := by
    rw [Nested, OnStack, toNat_uxstacktop]
    rw [toNat_exstk] at h ⊢
    omega
  have haddr := toNat_utfAddress_nested hnested
  rw [BitVec.lt_def]
  omega

theorem utfAddress_passes (hroom : ¬ NoRoom esp) :
    ¬ (utfAddress esp < exstk ∨ exstkTop < utfAddress esp) := by
  rw [← nested_iff]
  exact ⟨(utfAddress_onStack hroom).1, by have := (utfAddress_onStack hroom).2; omega⟩

end Addresses

/-! ## Writing to the page -/

namespace Memory

variable {m m' : Memory} {cr3 : Ppn} {va : Word} {bs : List (BitVec 8)}

/-- Writes of single bytes by the kernel, all to the page of the exception stack. -/
inductive StackWrites (cr3 : Ppn) : Memory → Memory → Prop where
  | nil (m : Memory) : StackWrites cr3 m m
  | cons {m m' m'' : Memory} {va : Word} {b : BitVec 8} :
      OnStack va 1 → m.storeByte cr3 kernelWrite va b = .ok m' → StackWrites cr3 m' m'' →
        StackWrites cr3 m m''

/-- The page of the exception stack can be written, and writing it does not change that. -/
def StackWritable (m : Memory) (cr3 : Ppn) : Prop :=
  ∀ m', m.StackWrites cr3 m' → ∀ va, OnStack va 1 → (m'.translate cr3 kernelWrite va).isSome

theorem StackWrites.trans {m'' : Memory} (h : m.StackWrites cr3 m') (h' : m'.StackWrites cr3 m'') :
    m.StackWrites cr3 m'' := by
  induction h with
  | nil => exact h'
  | cons hva hstore _ ih => exact .cons hva hstore (ih h')

theorem StackWritable.after (h : m.StackWritable cr3) (hwrites : m.StackWrites cr3 m') :
    m'.StackWritable cr3 := fun m'' hmore ↦ h m'' (hwrites.trans hmore)

/-- The kernel writes a range on the stack without a fault. -/
theorem storeBytes_onStack (h : m.StackWritable cr3) (hva : OnStack va bs.length) :
    ∃ m', m.storeBytes cr3 va bs = .ok m' ∧ m.StackWrites cr3 m' := by
  induction bs generalizing m va with
  | nil => exact ⟨m, rfl, .nil m⟩
  | cons b bs ih =>
    obtain ⟨hfrom, hto⟩ := hva
    rw [List.length_cons] at hto
    have hbyte : OnStack va 1 := ⟨hfrom, by omega⟩
    obtain ⟨pp, hpp⟩ := Option.isSome_iff_exists.mp (h m (.nil m) va hbyte)
    have hstore : m.storeByte cr3 kernelWrite va b = .ok (m.writePte (pp, va.extractLsb' 2 10)
        (setByte (m.word pp (va.extractLsb' 2 10)) (va.extractLsb' 0 2) b)) := by
      rw [storeByte, hpp]
    have hone : (va + 1).toNat = va.toNat + 1 := by
      have hone : (1 : Word).toNat = 1 := rfl
      rw [toNat_uxstacktop] at hto
      rw [BitVec.toNat_add, hone]
      omega
    have hnext : OnStack (va + 1) bs.length := by
      rw [OnStack, hone]
      omega
    obtain ⟨m', hrest, hwrites⟩ := ih (h.after (.cons hbyte hstore (.nil _))) hnext
    exact ⟨m', bind_ok.mpr ⟨_, hstore, hrest⟩, .cons hbyte hstore hwrites⟩

/-- Where the kernel does not get through with its writes, it stops in a page fault. -/
theorem storeBytes_ok_or_panic : (∃ m', m.storeBytes cr3 va bs = .ok m') ∨
    m.storeBytes cr3 va bs = .error .panic := by
  induction bs generalizing m va with
  | nil => exact Or.inl ⟨m, rfl⟩
  | cons b bs ih =>
    rw [storeBytes, storeByte]
    cases m.translate cr3 kernelWrite va with
    | none => exact Or.inr rfl
    | some pp => exact ih

end Memory

/-! ## The handler -/

/-- The frame that the handler makes of the one that the processor pushed. -/
def Trapframe.utf (tf : Trapframe) (faultVa : Word) : UTrapframe where
  utfFaultVa := faultVa
  utfErr := tf.tfErr
  utfRegs := tf.tfRegs
  utfEip := tf.tfEip
  utfEflags := tf.tfEflags
  utfEsp := tf.tfEsp

variable {n : ℕ} {k : Kernel n} {s : Scheduler} {c : Fin n} {cur : EnvPtr} {tf : Trapframe}
  {faultVa : Word}

/-- The environment has a page for its exception stack that it may write: its page tables grant it, and
the processor goes through with the writes. -/
structure ExceptionStack (k : Kernel n) (c : Fin n) (cur : EnvPtr) : Prop where
  granted : k.memory.Grants (k.envs cur).envPgdir (pteU ||| pteW) (exstk.toNat / 4096)
  writable : k.memory.StackWritable (k.cpus c).cr3

/-- The frame is written on the exception stack, in the nested case below a scratch word that is there
too, and the environment goes on at its upcall, with the stack pointer at the frame. -/
structure Delivered (c : Fin n) (cur : EnvPtr) (tf : Trapframe) (faultVa : Word) (k k' : Kernel n) :
    Prop where
  written : ∃ (address : Word) (m : Memory),
    (Nested tf.tfEsp → OnStack (tf.tfEsp - 4) 4 ∧
      k.memory.storeBytes (k.cpus c).cr3 (tf.tfEsp - 4) (wordBytes 0) = .ok m) ∧
    (¬ Nested tf.tfEsp → m = k.memory) ∧
    OnStack address (tf.utf faultVa).bytes.length ∧
    m.storeBytes (k.cpus c).cr3 address (tf.utf faultVa).bytes = .ok k'.memory ∧
    (k'.envs cur).envTf = { tf with tfEsp := address, tfEip := (k.envs cur).envPgfaultUpcall }
  page : k.memory.StackWrites (k.cpus c).cr3 k'.memory
  current : k'.curenv c = some cur
  running : (k'.envs cur).envStatus = .running

/-- What the handler may do. -/
inductive Handled (s : Scheduler) (c : Fin n) (cur : EnvPtr) (tf : Trapframe) (faultVa : Word)
    (k : Kernel n) : Except Fault (Control Unit × Kernel n) → Prop where
  | delivered {k' : Kernel n} (frame : Delivered c cur tf faultVa k k') :
      Handled s c cur tf faultVa k (.ok (.leaves, k'))
  | destroyed {r : Control Unit × Kernel n} (destroy : k.envDestroy s c cur = .ok r) :
      Handled s c cur tf faultVa k (.ok r)

theorem ExceptionStack.checked (h : ExceptionStack k c cur) :
    k.memory.userMemCheck (k.envs cur).envPgdir exstk pgsize (pteU ||| pteW ||| pteU) = .ok 0 := by
  have hbits : pteU ||| pteW ||| pteU = pteU ||| pteW := rfl
  have hend : (exstk + pgsize).toNat = 0xeec00000 := rfl
  rw [hbits, Memory.userMemCheck_eq_zero (by rw [hend]; omega)]
  refine ⟨by decide, fun i hfrom hto ↦ ?_⟩
  rw [hend] at hto
  rw [toNat_exstk] at hfrom
  have hi : i = exstk.toNat / 4096 := by
    rw [toNat_exstk]
    omega
  rw [hi]
  exact h.granted

/-- The part of the handler that follows the checks. -/
theorem ExceptionStack.handler (h : ExceptionStack k c cur) (hcur : k.curenv c = some cur)
    (huser : tf.tfCs &&& 3 ≠ 0) (hupcall : (k.envs cur).envPgfaultUpcall ≠ 0) :
    k.pageFaultHandler s c (some cur) tf faultVa = (do
      let memory ← pushUtf (k.cpus c).cr3 (tf.utf faultVa) k.memory
      let tmp := utfAddress tf.tfEsp
      if tmp < exstk ∨ exstkTop < tmp then throw .panic
      let k' := { k with memory }.setTf (some cur)
        { tf with tfEsp := tmp, tfEip := (k.envs cur).envPgfaultUpcall }
      return (.leaves, k'.envRun c cur)) := by
  have hassert : k.userMemAssert s c cur exstk pgsize (pteU ||| pteW) = .ok (.returns (), k) := by
    rw [Kernel.userMemAssert, h.checked]
    rfl
  have htheCurenv : k.theCurenv c = .ok cur := by
    rw [Kernel.theCurenv, hcur]
  rw [Kernel.pageFaultHandler, if_neg huser, htheCurenv]
  simp only [bind, Except.bind, pure, Except.pure, if_neg hupcall, hassert]
  rfl

theorem pushUtf_nested {utf : UTrapframe} {m : Memory} {cr3 : Ppn} (h : Nested utf.utfEsp) :
    pushUtf cr3 utf m = m.storeBytes cr3 (utf.utfEsp - 4) (wordBytes 0) >>= fun m ↦
      m.storeBytes cr3 (utfAddress utf.utfEsp) utf.bytes := by
  unfold pushUtf
  simp only [if_neg (nested_iff.mp h)]

theorem pushUtf_not_nested {utf : UTrapframe} {m : Memory} {cr3 : Ppn} (h : ¬ Nested utf.utfEsp) :
    pushUtf cr3 utf m = m.storeBytes cr3 (utfAddress utf.utfEsp) utf.bytes := by
  rw [nested_iff, not_not] at h
  unfold pushUtf
  simp only [if_pos h, pure_bind]

/-- With room below the stack pointer the pushes go through. -/
theorem pushUtf_onStack {m : Memory} {cr3 : Ppn} (h : m.StackWritable cr3)
    (hroom : ¬ NoRoom tf.tfEsp) : ∃ m₁ m',
      (Nested tf.tfEsp → OnStack (tf.tfEsp - 4) 4 ∧
        m.storeBytes cr3 (tf.tfEsp - 4) (wordBytes 0) = .ok m₁) ∧
      (¬ Nested tf.tfEsp → m₁ = m) ∧
      m₁.storeBytes cr3 (utfAddress tf.tfEsp) (tf.utf faultVa).bytes = .ok m' ∧
      pushUtf cr3 (tf.utf faultVa) m = .ok m' ∧ m.StackWrites cr3 m' := by
  have haddress : OnStack (utfAddress tf.tfEsp) (tf.utf faultVa).bytes.length :=
    utfAddress_onStack hroom
  by_cases hnested : Nested tf.tfEsp
  · have hscratch := scratch_onStack hnested hroom
    obtain ⟨m₁, hword, hwrites₁⟩ := @Memory.storeBytes_onStack _ _ _ (wordBytes 0) h hscratch
    obtain ⟨m', hframe, hwrites⟩ := Memory.storeBytes_onStack (h.after hwrites₁) haddress
    refine ⟨m₁, m', fun _ ↦ ⟨hscratch, hword⟩, fun hno ↦ absurd hnested hno, hframe, ?_,
      hwrites₁.trans hwrites⟩
    rw [pushUtf_nested hnested]
    exact bind_ok.mpr ⟨m₁, hword, hframe⟩
  · obtain ⟨m', hframe, hwrites⟩ := Memory.storeBytes_onStack h haddress
    refine ⟨m, m', fun hno ↦ absurd hno hnested, fun _ ↦ rfl, hframe, ?_, hwrites⟩
    rw [pushUtf_not_nested hnested]
    exact hframe

theorem pushUtf_ok_or_panic {m : Memory} {cr3 : Ppn} {utf : UTrapframe} :
    (∃ m', pushUtf cr3 utf m = .ok m') ∨ pushUtf cr3 utf m = .error .panic := by
  by_cases hnested : Nested utf.utfEsp
  · rw [pushUtf_nested hnested]
    cases @Memory.storeBytes_ok_or_panic m cr3 (utf.utfEsp - 4) (wordBytes 0) with
    | inl hword =>
      obtain ⟨m₁, hword⟩ := hword
      simp only [hword, bind, Except.bind]
      exact Memory.storeBytes_ok_or_panic
    | inr hpanic =>
      rw [hpanic]
      exact Or.inr rfl
  · rw [pushUtf_not_nested hnested]
    exact Memory.storeBytes_ok_or_panic

/-- Without room the kernel stops: over one of the writes, or over the test that follows them. -/
theorem ExceptionStack.handler_noRoom (h : ExceptionStack k c cur) (hcur : k.curenv c = some cur)
    (huser : tf.tfCs &&& 3 ≠ 0) (hupcall : (k.envs cur).envPgfaultUpcall ≠ 0)
    (hroom : NoRoom tf.tfEsp) :
    k.pageFaultHandler s c (some cur) tf faultVa = .error .panic := by
  rw [h.handler hcur huser hupcall]
  cases @pushUtf_ok_or_panic k.memory (k.cpus c).cr3 (tf.utf faultVa) with
  | inl hpush =>
    obtain ⟨m', hpush⟩ := hpush
    rw [hpush]
    exact if_pos (utfAddress_noRoom hroom)
  | inr hpanic =>
    rw [hpanic]
    rfl

theorem ExceptionStack.handler_room (h : ExceptionStack k c cur) (hcur : k.curenv c = some cur)
    (huser : tf.tfCs &&& 3 ≠ 0) (hupcall : (k.envs cur).envPgfaultUpcall ≠ 0)
    (hroom : ¬ NoRoom tf.tfEsp) : ∃ k', Delivered c cur tf faultVa k k' ∧
      k.pageFaultHandler s c (some cur) tf faultVa = .ok (.leaves, k') := by
  obtain ⟨m₁, m', hscratch, hdirect, hframe, hpush, hwrites⟩ :=
    @pushUtf_onStack tf faultVa _ _ h.writable hroom
  have hresult : k.pageFaultHandler s c (some cur) tf faultVa = .ok (.leaves,
      (({ k with memory := m' } : Kernel n).setTf (some cur) { tf with
        tfEsp := utfAddress tf.tfEsp
        tfEip := (k.envs cur).envPgfaultUpcall }).envRun c cur) := by
    rw [h.handler hcur huser hupcall]
    simp only [hpush, bind, Except.bind, if_neg (utfAddress_passes hroom), pure, Except.pure]
  refine ⟨_, ?_, hresult⟩
  constructor
  · refine ⟨utfAddress tf.tfEsp, m₁, hscratch, hdirect, utfAddress_onStack hroom, ?_, ?_⟩
    · rw [hframe, Kernel.envRun_memory]
      rfl
    · rw [Kernel.envRun_self]
      simp [Kernel.setTf]
  · rw [Kernel.envRun_memory]
    exact hwrites
  · exact Kernel.envRun_curenv
  · rw [Kernel.envRun_self]

/-! ## A page of its own -/

/-- The page of the exception stack is mapped for the program, through tables that it does not hold. -/
structure OwnPage (k : Kernel n) (c : Fin n) (cur : EnvPtr) (table page : Ppn) : Prop where
  pgdir : (k.envs cur).envPgdir = some (k.cpus c).cr3
  directory : ∃ pde, k.memory.word (k.cpus c).cr3 (pdx exstk) = pde ∧ pgnum pde = table ∧
    pde &&& Memory.userWrite = Memory.userWrite
  bound : table.toNat < k.memory.npages
  entry : ∃ pte, k.memory.word table (ptx exstk) = pte ∧ pgnum pte = page ∧
    pte &&& Memory.userWrite = Memory.userWrite
  apart : page ≠ (k.cpus c).cr3 ∧ page ≠ table

theorem OnStack.indices {va : Word} (h : OnStack va 1) : pdx va = pdx exstk ∧ ptx va = ptx exstk := by
  rw [OnStack, toNat_exstk, toNat_uxstacktop] at h
  constructor
  · apply BitVec.eq_of_toNat_eq
    simp only [pdx, BitVec.extractLsb'_toNat, Nat.shiftRight_eq_div_pow, toNat_exstk]
    omega
  · apply BitVec.eq_of_toNat_eq
    simp only [ptx, BitVec.extractLsb'_toNat, Nat.shiftRight_eq_div_pow, toNat_exstk]
    omega

namespace OwnPage

variable {table page : Ppn} {m m' : Memory}

theorem granted (h : OwnPage k c cur table page) :
    k.memory.Grants (k.envs cur).envPgdir (pteU ||| pteW) (exstk.toNat / 4096) := by
  obtain ⟨pde, hpde, hpt, hdir⟩ := h.directory
  obtain ⟨pte, hpte, -, hbits⟩ := h.entry
  have hstart : Memory.pageStart (exstk.toNat / 4096) = exstk := rfl
  have hne : pde ≠ 0 := by
    rintro rfl
    exact absurd hdir (by decide)
  have hkaddr : k.memory.kaddr pde = .ok table := by
    rw [Memory.kaddr, hpt, if_pos h.bound]
  refine ⟨(table, ptx exstk), ?_, ?_⟩
  · rw [h.pgdir, hstart]
    simp only [Memory.pgdirWalk, Memory.readPte, hpde, hne, hkaddr, bind, Except.bind, pure,
      Except.pure, false_and, if_false]
  · have hall : pteU ||| pteW ||| pteP = Memory.userWrite := rfl
    rw [hall, Memory.readPte, hpte, hbits]

/-- The writes leave both tables alone, so each of them finds the page. -/
theorem translate (h : OwnPage k c cur table page) (hpd : m.word (k.cpus c).cr3 =
      k.memory.word (k.cpus c).cr3) (hpt : m.word table = k.memory.word table) {va : Word}
    (hva : OnStack va 1) : m.translate (k.cpus c).cr3 Memory.kernelWrite va = some page := by
  obtain ⟨pde, hpde, hdirectory, hdir⟩ := h.directory
  obtain ⟨pte, hpte, hentry, hbits⟩ := h.entry
  have hless : Memory.userWrite &&& Memory.kernelWrite = Memory.kernelWrite := rfl
  rw [Memory.translate, hva.indices.1, hva.indices.2]
  simp only [Memory.readPte, hpd, hpde, hdirectory, hpt, hpte, hentry,
    Memory.bits_of_bits hless hdir, Memory.bits_of_bits hless hbits, and_self, if_true]

theorem tables_kept (h : OwnPage k c cur table page) (hwrites :
      m.StackWrites (k.cpus c).cr3 m') (hpd : m.word (k.cpus c).cr3 =
      k.memory.word (k.cpus c).cr3) (hpt : m.word table = k.memory.word table) :
    m'.word (k.cpus c).cr3 = k.memory.word (k.cpus c).cr3 ∧ m'.word table = k.memory.word table := by
  induction hwrites with
  | nil => exact ⟨hpd, hpt⟩
  | cons hva hstore _ ih =>
    rw [Memory.storeByte, h.translate hpd hpt hva, Except.ok.injEq] at hstore
    subst hstore
    apply ih
    · rw [← hpd]
      exact Function.update_of_ne h.apart.1.symm _ _
    · rw [← hpt]
      exact Function.update_of_ne h.apart.2.symm _ _

end OwnPage

theorem OwnPage.exceptionStack {table page : Ppn} (h : OwnPage k c cur table page) :
    ExceptionStack k c cur := by
  refine ⟨h.granted, fun m' hwrites va hva ↦ ?_⟩
  obtain ⟨hpd, hpt⟩ := h.tables_kept hwrites rfl rfl
  rw [h.translate hpd hpt hva]
  rfl

/-! ## A program with an exception stack -/

/-- The program maps its exception stack and sets its upcall. -/
def upcallEvents : List (Event 1) :=
  [.create 0 smallBinary, .start 0, .call 0 4 0 0xeebff000 7 0 0, .call 0 9 0 0xeebfd000 0 0 0]

/-- The trap frame of a page fault in user mode. -/
def faultFrame (esp : Word) : Trapframe :=
  { Trapframe.zero with tfCs := userText, tfTrapno := tPgflt, tfErr := 6, tfEsp := esp }

theorem upcall_ready : ∃ k, (smallKernel 1 12).after .rr upcallEvents = some k ∧
    k.curenv 0 = some 0 ∧ (k.envs 0).envPgfaultUpcall ≠ 0 ∧ ExceptionStack k 0 0 := by
  have hresult : (((smallKernel 1 12).after .rr upcallEvents).any fun k ↦
      k.curenv 0 = some 0 ∧ (k.envs 0).envPgfaultUpcall ≠ 0 ∧
        (k.envs 0).envPgdir = some 1 ∧ (k.cpus 0).cr3 = 1 ∧ k.memory.npages = 13 ∧
        k.memory.word 1 (pdx exstk) = 0x3007 ∧ k.memory.word 3 (ptx exstk) = 0x4007) = true := by
    decide +kernel
  obtain ⟨k, hk, hcheck⟩ := (Option.any_eq_true _ _).mp hresult
  rw [decide_eq_true_eq] at hcheck
  obtain ⟨hcur, hupcall, hpgdir, hcr3, hnpages, hpde, hpte⟩ := hcheck
  have hown : OwnPage k 0 0 3 4 := by
    constructor
    · rw [hpgdir, hcr3]
    · exact ⟨_, rfl, by rw [hcr3, hpde]; decide⟩
    · rw [hnpages]
      decide
    · exact ⟨_, rfl, by rw [hpte]; decide⟩
    · rw [hcr3]
      decide
  exact ⟨k, hk, hcur, hupcall, hown.exceptionStack⟩

/-! ## Which faults are handled -/

/-- The handler does what it should exactly where there is room below the stack pointer, or the
program does not run on its exception stack. -/
theorem pageFaultHandler_handled_iff (hcur : k.curenv c = some cur) (huser : tf.tfCs &&& 3 ≠ 0)
    (hupcall : (k.envs cur).envPgfaultUpcall ≠ 0) (hstack : ExceptionStack k c cur) :
    Handled s c cur tf faultVa k (k.pageFaultHandler s c (some cur) tf faultVa) ↔
      ¬ NoRoom tf.tfEsp := by
  constructor
  · intro h hroom
    rw [hstack.handler_noRoom hcur huser hupcall hroom] at h
    cases h
  · intro hroom
    obtain ⟨k', hdelivered, hresult⟩ := hstack.handler_room hcur huser hupcall hroom
    rw [hresult]
    exact .delivered hdelivered

theorem pageFaultHandler_delivers_nested : ∃ k, (smallKernel 1 12).after .rr upcallEvents = some k ∧
    Handled .rr 0 0 (faultFrame 0xeebff038) 0x1000 k
      (k.pageFaultHandler .rr 0 (some 0) (faultFrame 0xeebff038) 0x1000) := by
  obtain ⟨k, hk, hcur, hupcall, hstack⟩ := upcall_ready
  refine ⟨k, hk, (pageFaultHandler_handled_iff hcur (by decide) hupcall hstack).mpr ?_⟩
  rw [NoRoom]
  decide

/-- A fault of a handler that has 32 bytes of its stack left: the frame would start below the page, and
the kernel stops. -/
theorem pageFaultHandler_panics : ∃ k, (smallKernel 1 12).after .rr upcallEvents = some k ∧
    k.curenv 0 = some 0 ∧ (k.envs 0).envPgfaultUpcall ≠ 0 ∧ ExceptionStack k 0 0 ∧
    k.pageFaultHandler .rr 0 (some 0) (faultFrame 0xeebff020) 0x1000 = .error .panic ∧
    ¬ Handled .rr 0 0 (faultFrame 0xeebff020) 0x1000 k
      (k.pageFaultHandler .rr 0 (some 0) (faultFrame 0xeebff020) 0x1000) := by
  obtain ⟨k, hk, hcur, hupcall, hstack⟩ := upcall_ready
  have hroom : NoRoom (faultFrame 0xeebff020).tfEsp := by
    rw [NoRoom]
    decide
  have hpanic := @ExceptionStack.handler_noRoom _ k .rr 0 0 (faultFrame 0xeebff020) 0x1000 hstack hcur
    (by decide) hupcall hroom
  refine ⟨k, hk, hcur, hupcall, hstack, hpanic, fun h ↦ ?_⟩
  rw [hpanic] at h
  cases h

end SistemasOperativos.Jos
