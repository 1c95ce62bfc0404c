import SistemasOperativos.Jos.ExceptionStack
import SistemasOperativos.Jos.UserMode

/-!
# The page fault upcall

`_pgfault_upcall` of `lib/pfentry.S`, which the kernel enters on the exception stack, and the way back
from it. The code of the program between two faults is arbitrary, and so is its handler. What both must keep are
the frames of the faults that are being handled.
-/

namespace SistemasOperativos.Jos

open Library Library.Except

variable {n : ℕ}

/-! ## The code -/

/-- `_pgfault_upcall` up to the call of the handler, with the address of `_pgfault_handler`. -/
def upcallEntry (handlerVar : Word) : List Instr :=
  [.pushl .esp, .movlVar handlerVar .eax, .call .eax]

/-- `_pgfault_upcall` from the return of the handler on. -/
def upcallReturn : List Instr :=
  [.addl 4 .esp,
    .movlFrom 40 .esp .eax, .movlFrom 48 .esp .ebx, .subl 4 .ebx, .movlTo .eax 0 .ebx,
    .movlTo .ebx 48 .esp,
    .popl .eax, .popl .eax, .popal,
    .addl 4 .esp, .popfl,
    .popl .esp,
    .ret]

/-- The first part ends with the adjusted stack pointer in the frame. -/
def upcallAdjust : List Instr := upcallReturn.take 6

def upcallRestore : List Instr := upcallReturn.drop 6

def UTrapframe.words (utf : UTrapframe) : List Word :=
  utf.utfFaultVa :: utf.utfErr :: (utf.utfRegs.words ++ [utf.utfEip, utf.utfEflags, utf.utfEsp])

/-- The trap-time registers of a frame. -/
def UTrapframe.trap (utf : UTrapframe) : Regs where
  regs := utf.utfRegs
  eip := utf.utfEip
  eflags := utf.utfEflags
  esp := utf.utfEsp

namespace Program

variable {cr3 : Ppn} {p p' : Program} {utf : UTrapframe} {w f : Word} {m : Memory} {r : PushRegs}
  {ip fl : Word}

/-- The flags that the upcall looks at: no trap after each instruction, and no alignment checks where
the stacks are not aligned. -/
structure Calm (fl f esp : Word) : Prop where
  untraced : fl &&& flTf = 0
  frame : Allowed fl f
  stack : Allowed fl esp

theorem Calm.of_flags {fl' esp : Word} (h : Calm fl f esp) (htf : fl' &&& flTf = fl &&& flTf)
    (hac : fl' &&& flAc = fl &&& flAc) : Calm fl' f esp :=
  ⟨htf.trans h.untraced, h.frame.of_flags hac, h.stack.of_flags hac⟩

/-- Arithmetic does not change the flags that the upcall looks at. -/
theorem Calm.arith {esp result : Word} {carry aux overflow : Bool} (h : Calm fl f esp) :
    Calm (fl &&& ~~~flArith ||| arithFlags result carry aux overflow) f esp :=
  h.of_flags (arith_and (arithFlags_and (by decide)) (by decide))
    (arith_and (arithFlags_and (by decide)) (by decide))

/-- The upcall calls the handler with a pointer to its frame. -/
theorem runBlock_upcallEntry {handlerVar : Word} (hs : m.Sealed cr3) (ht : fl &&& flTf = 0)
    (hf : Allowed fl f) (hvar : Allowed fl handlerVar) (hread : m.Readable cr3 handlerVar 4)
    (hroom : m.Writable cr3 (f - 4) 4) (hroom' : m.Writable cr3 (f - 8) 4) :
    ∃ handler m₁ m₂, runBlock cr3 (upcallEntry handlerVar) ⟨⟨r, ip, fl, f⟩, m⟩ =
        .ok ⟨⟨{ r with regEax := handler }, handler, fl, f - 8⟩, m₂⟩ ∧
      m₁.loadLong cr3 handlerVar = some handler ∧
      Memory.Stored cr3 (f - 4) (wordBytes f) m m₁ ∧
      Memory.Stored cr3 (f - 8) (wordBytes (ip + 8)) m₁ m₂ := by
  have hesp : f - 4 - 4 = f - 8 := by bv_omega
  have hip : ip + 1 + 5 + 2 = ip + 8 := by
    simp only [BitVec.add_assoc]
    rfl
  obtain ⟨m₁, hpush, hstored₁⟩ := @exec_pushl cr3 ⟨⟨r, ip + 1, fl, f⟩, m⟩ hs hf.sub_four hroom .esp
  obtain ⟨handler, hload⟩ := (hstored₁.readable hread).loadLong
  have hpush' : step cr3 (.pushl .esp) ⟨⟨r, ip, fl, f⟩, m⟩ =
      .ok ⟨⟨r, ip + 1, fl, f - 4⟩, m₁⟩ := step_of_exec ht hpush
  have hload' : step cr3 (.movlVar handlerVar .eax) ⟨⟨r, ip + 1, fl, f - 4⟩, m₁⟩ =
      .ok ⟨⟨{ r with regEax := handler }, ip + 1 + 5, fl, f - 4⟩, m₁⟩ :=
    step_of_exec ht (exec_movlVar hvar hload .eax)
  obtain ⟨m₂, hcall, hstored₂⟩ := @exec_call cr3
    ⟨⟨{ r with regEax := handler }, ip + 1 + 5 + 2, fl, f - 4⟩, m₁⟩ hstored₁.isSealed
    hf.sub_four.sub_four (by rw [hesp]; exact hstored₁.writable hroom') .eax
  rw [hip, hesp] at hstored₂
  have hcall' : step cr3 (.call .eax) ⟨⟨{ r with regEax := handler }, ip + 1 + 5, fl, f - 4⟩, m₁⟩ =
      .ok ⟨⟨{ r with regEax := handler }, handler, fl, f - 4 - 4⟩, m₂⟩ := step_of_exec ht hcall
  refine ⟨handler, m₁, m₂, ?_, hload, hstored₁, hstored₂⟩
  rw [← hesp]
  exact (runBlock_cons hpush').trans <| (runBlock_cons hload').trans (runBlock_cons hcall')

/-- The first instruction of the upcall fails where it cannot push its argument. -/
theorem runBlock_upcallEntry_error {handlerVar : Word} {e : Exception}
    (hstore : store cr3 (f - 4) f ⟨⟨r, ip + 1, fl, f⟩, m⟩ = .error e) :
    runBlock cr3 (upcallEntry handlerVar) ⟨⟨r, ip, fl, f⟩, m⟩ = .error e := by
  have hexec : exec cr3 (.pushl .esp) ⟨⟨r, ip + 1, fl, f⟩, m⟩ = .error e := by
    simp only [exec, push, Regs.get, hstore, bind, Except.bind]
  exact runBlock_cons_error (step_of_exec_error hexec)

/-- The general registers come back, and the stack pointer is at the trap-time `eip` of the frame. -/
theorem runBlock_popRegs {w₁ w₂ : Word} {ws : List Word} {r' : PushRegs} (ht : fl &&& flTf = 0)
    (hpops : Pops cr3 m fl f (w₁ :: w₂ :: (r'.words ++ ws))) :
    runBlock cr3 [.popl .eax, .popl .eax, .popal] ⟨⟨r, ip, fl, f⟩, m⟩ =
      .ok ⟨⟨{ r' with regOesp := r.regOesp }, ip + 1 + 1 + 1, fl, f + 40⟩, m⟩ := by
  have hesp : f + 4 + 4 + 32 = f + 40 := by
    simp only [BitVec.add_assoc]
    rfl
  have hfirst : step cr3 (.popl .eax) ⟨⟨r, ip, fl, f⟩, m⟩ =
      .ok ⟨⟨{ r with regEax := w₁ }, ip + 1, fl, f + 4⟩, m⟩ :=
    step_of_exec ht (hpops.popl .eax)
  have hsecond : step cr3 (.popl .eax) ⟨⟨{ r with regEax := w₁ }, ip + 1, fl, f + 4⟩, m⟩ =
      .ok ⟨⟨{ r with regEax := w₂ }, ip + 1 + 1, fl, f + 4 + 4⟩, m⟩ :=
    step_of_exec ht (hpops.next.popl .eax)
  have hpopal := @step_of_exec cr3 _ _ { r with regEax := w₂ } (ip + 1 + 1) fl (f + 4 + 4) m ht
    hpops.next.next.popal
  rw [runBlock_cons hfirst, runBlock_cons hsecond, runBlock_cons hpopal, hesp]
  rfl

/-- The flags come back, then the stack, and then `eip`. -/
theorem runBlock_return {esp eip fl' : Word} (hfl : Calm fl f esp) (hfl' : Calm fl' f esp)
    (hpops : Pops cr3 m fl (f + 4) [fl', esp - 4]) (heip : m.Has cr3 (esp - 4) (wordBytes eip)) :
    ∃ fl₁, runBlock cr3 [.addl 4 .esp, .popfl, .popl .esp, .ret] ⟨⟨r, ip, fl, f⟩, m⟩ =
      .ok ⟨⟨r, eip, fl₁, esp⟩, m⟩ ∧ fl₁ &&& flUser = fl' &&& flUser := by
  have hkeep {bit : Word} (hbit : ~~~flArith &&& bit = bit) (harith : flArith &&& bit = 0) :
      (fl &&& ~~~flArith ||| addFlags f 4) &&& bit = fl &&& bit :=
    arith_and (arithFlags_and harith) hbit
  have hpopfl : Pops cr3 m (fl &&& ~~~flArith ||| addFlags f 4) (f + 4) [fl', esp - 4] :=
    ⟨hpops.allowed.of_flags (hkeep (by decide) (by decide)), hpops.words⟩
  have hadd : step cr3 (.addl 4 .esp) ⟨⟨r, ip, fl, f⟩, m⟩ =
      .ok ⟨⟨r, ip + 3, fl &&& ~~~flArith ||| addFlags f 4, f + 4⟩, m⟩ :=
    step_of_exec hfl.untraced rfl
  have huntraced : (fl &&& ~~~flArith ||| addFlags f 4) &&& flTf = 0 :=
    (hkeep (by decide) (by decide)).trans hfl.untraced
  have hflags := @step_of_exec cr3 _ _ r (ip + 3) (fl &&& ~~~flArith ||| addFlags f 4) (f + 4) m
    huntraced hpopfl.popfl
  refine ⟨(fl &&& ~~~flArith ||| addFlags f 4) &&& ~~~flUser ||| fl' &&& flUser, ?_,
    popfl_and (by decide)⟩
  rw [runBlock_cons hadd, runBlock_cons hflags]
  have hac := @popfl_and (fl &&& ~~~flArith ||| addFlags f 4) fl' flAc (by decide)
  have htf := (@popfl_and (fl &&& ~~~flArith ||| addFlags f 4) fl' flTf (by decide)).trans
    hfl'.untraced
  generalize (fl &&& ~~~flArith ||| addFlags f 4) &&& ~~~flUser ||| fl' &&& flUser = fl₁ at hac htf ⊢
  have hstack : Pops cr3 m fl₁ (f + 4 + 4) [esp - 4] :=
    ⟨(@Allowed.add (f + 4) fl₁ 1 ((@Allowed.add f fl' 1 hfl'.frame).of_flags hac)), hpops.words.2⟩
  have heip' : Pops cr3 m fl₁ (esp - 4) [eip] :=
    ⟨(hfl'.stack.of_flags hac).sub_four, heip, trivial⟩
  have hesp := @step_of_exec cr3 _ _ r (ip + 3 + 1) fl₁ (f + 4 + 4) m htf (hstack.popl .esp)
  have hret := @step_of_exec cr3 _ _ r (ip + 3 + 1 + 1) fl₁ (esp - 4) m htf heip'.ret
  have hback : esp - 4 + 4 = esp := BitVec.sub_add_cancel esp 4
  rw [hback] at hret
  have hesp' : step cr3 (.popl .esp) ⟨⟨r, ip + 3 + 1, fl₁, f + 4 + 4⟩, m⟩ =
      .ok ⟨⟨r, ip + 3 + 1 + 1, fl₁, esp - 4⟩, m⟩ := hesp
  exact (runBlock_cons hesp').trans (runBlock_cons hret)

/-- The end of the upcall restores the trap-time registers, where the frame has the adjusted stack
pointer and the trap-time `eip` lies there. -/
theorem runBlock_restore (hfl : Calm fl f utf.utfEsp) (hutf : Calm utf.utfEflags f utf.utfEsp)
    (hpops : Pops cr3 m fl f (utf.utfFaultVa :: utf.utfErr :: (utf.utfRegs.words ++
      [utf.utfEip, utf.utfEflags, utf.utfEsp - 4])))
    (heip : m.Has cr3 (utf.utfEsp - 4) (wordBytes utf.utfEip)) :
    ∃ p', runBlock cr3 upcallRestore ⟨⟨r, ip, fl, f⟩, m⟩ = .ok p' ∧ p'.memory = m ∧
      utf.trap.Same p'.regs := by
  have hflags := (@Pops.skip cr3 [utf.utfEip, utf.utfEflags, utf.utfEsp - 4] fl (f + 4 + 4) m
    utf.utfRegs.words hpops.next.next).next
  have haddr : f + 4 + 4 + BitVec.ofNat 32 (4 * utf.utfRegs.words.length) + 4 = f + 40 + 4 := by
    simp only [BitVec.add_assoc]
    rfl
  rw [haddr] at hflags
  have hcalm {fl : Word} (h : Calm fl f utf.utfEsp) : Calm fl (f + 40) utf.utfEsp :=
    ⟨h.untraced, @Allowed.add f fl 10 h.frame, h.stack⟩
  have hpopRegs := @runBlock_popRegs cr3 f m r ip fl _ _ _ _ hfl.untraced hpops
  obtain ⟨fl₁, hreturn, hsame⟩ := @runBlock_return cr3 (f + 40) m
    { utf.utfRegs with regOesp := r.regOesp } (ip + 1 + 1 + 1) fl _ _ _ (hcalm hfl) (hcalm hutf)
    hflags heip
  refine ⟨_, (runBlock_append hpopRegs).trans hreturn, rfl, ?_⟩
  constructor
  case eflags => exact hsame.symm
  all_goals rfl

/-- The beginning moves the trap-time `eip` to the trap-time stack, and the stack pointer of the frame
down to it. -/
theorem runBlock_adjust (hs : m.Sealed cr3) (hfl : Calm fl f utf.utfEsp)
    (hframe : m.Has cr3 f utf.bytes) (hword : m.Writable cr3 (utf.utfEsp - 4) 4) :
    ∃ r' ip' fl' m₁ m₂, runBlock cr3 upcallAdjust ⟨⟨r, ip, fl, f - 4⟩, m⟩ =
        .ok ⟨⟨r', ip', fl', f⟩, m₂⟩ ∧ Calm fl' f utf.utfEsp ∧
      Memory.Stored cr3 (utf.utfEsp - 4) (wordBytes utf.utfEip) m m₁ ∧
      Memory.Stored cr3 (f + 48) (wordBytes (utf.utfEsp - 4)) m₁ m₂ := by
  have hback : f - 4 + 4 = f := BitVec.sub_add_cancel f 4
  have heip : m.Has cr3 (f + 40) (wordBytes utf.utfEip) :=
    @Memory.Has.word m cr3 f utf.words 10 utf.utfEip hframe rfl
  have hesp : m.Has cr3 (f + 48) (wordBytes utf.utfEsp) :=
    @Memory.Has.word m cr3 f utf.words 12 utf.utfEsp hframe rfl
  have hadd : step cr3 (.addl 4 .esp) ⟨⟨r, ip, fl, f - 4⟩, m⟩ =
      .ok ⟨⟨r, ip + 3, fl &&& ~~~flArith ||| addFlags (f - 4) 4, f - 4 + 4⟩, m⟩ :=
    step_of_exec hfl.untraced rfl
  rw [hback] at hadd
  have hcalm₁ : Calm (fl &&& ~~~flArith ||| addFlags (f - 4) 4) f utf.utfEsp := hfl.arith
  generalize fl &&& ~~~flArith ||| addFlags (f - 4) 4 = fl₁ at hadd hcalm₁
  have hloadEip : step cr3 (.movlFrom 40 .esp .eax) ⟨⟨r, ip + 3, fl₁, f⟩, m⟩ =
      .ok ⟨⟨{ r with regEax := utf.utfEip }, ip + 3 + 4, fl₁, f⟩, m⟩ :=
    step_of_exec hcalm₁.untraced (exec_movlFrom (@Allowed.add f fl₁ 10 hcalm₁.frame) heip .eax)
  have hloadEsp : step cr3 (.movlFrom 48 .esp .ebx)
      ⟨⟨{ r with regEax := utf.utfEip }, ip + 3 + 4, fl₁, f⟩, m⟩ =
        .ok ⟨⟨{ r with regEax := utf.utfEip, regEbx := utf.utfEsp }, ip + 3 + 4 + 4, fl₁, f⟩, m⟩ :=
    step_of_exec hcalm₁.untraced (exec_movlFrom (@Allowed.add f fl₁ 12 hcalm₁.frame) hesp .ebx)
  have hsub : step cr3 (.subl 4 .ebx)
      ⟨⟨{ r with regEax := utf.utfEip, regEbx := utf.utfEsp }, ip + 3 + 4 + 4, fl₁, f⟩, m⟩ =
        .ok ⟨⟨{ r with regEax := utf.utfEip, regEbx := utf.utfEsp - 4 }, ip + 3 + 4 + 4 + 3,
          fl₁ &&& ~~~flArith ||| subFlags utf.utfEsp 4, f⟩, m⟩ :=
    step_of_exec hcalm₁.untraced rfl
  have hcalm₂ : Calm (fl₁ &&& ~~~flArith ||| subFlags utf.utfEsp 4) f utf.utfEsp := hcalm₁.arith
  generalize fl₁ &&& ~~~flArith ||| subFlags utf.utfEsp 4 = fl₂ at hsub hcalm₂
  have hzero : utf.utfEsp - 4 + 0 = utf.utfEsp - 4 := BitVec.add_zero _
  obtain ⟨m₁, hpush, hstored₁⟩ := @exec_movlTo cr3
    ⟨⟨{ r with regEax := utf.utfEip, regEbx := utf.utfEsp - 4 }, ip + 3 + 4 + 4 + 3 + 2, fl₂, f⟩, m⟩
    0 .ebx hs (by rw [Regs.get, hzero]; exact hcalm₂.stack.sub_four)
    (by rw [Regs.get, hzero]; exact hword) .eax
  rw [Regs.get, Regs.get, hzero] at hstored₁
  have hwrite : m₁.Writable cr3 (f + 48) 4 := hstored₁.writable hesp.writable
  obtain ⟨m₂, hmove, hstored₂⟩ := @exec_movlTo cr3
    ⟨⟨{ r with regEax := utf.utfEip, regEbx := utf.utfEsp - 4 }, ip + 3 + 4 + 4 + 3 + 2 + 4, fl₂, f⟩,
      m₁⟩ 48 .esp hstored₁.isSealed (@Allowed.add f fl₂ 12 hcalm₂.frame) hwrite .ebx
  have hpush' := @step_of_exec cr3 _ _ _ (ip + 3 + 4 + 4 + 3) _ _ _ hcalm₂.untraced hpush
  have hmove' := @step_of_exec cr3 _ _ _ (ip + 3 + 4 + 4 + 3 + 2) _ _ _ hcalm₂.untraced hmove
  refine ⟨{ r with regEax := utf.utfEip, regEbx := utf.utfEsp - 4 },
    ip + 3 + 4 + 4 + 3 + 2 + 4, fl₂, m₁, m₂, ?_, hcalm₂, hstored₁, hstored₂⟩
  exact (runBlock_cons hadd).trans <| (runBlock_cons hloadEip).trans <|
    (runBlock_cons hloadEsp).trans <| (runBlock_cons hsub).trans <|
    (runBlock_cons hpush').trans (runBlock_cons hmove')

/-- From the return of the handler on, with the frame in place and the trap-time stack apart from it,
the upcall restores the trap-time registers. -/
theorem runBlock_upcallReturn (hs : m.Sealed cr3) (hfl : Calm fl f utf.utfEsp)
    (hutf : Calm utf.utfEflags f utf.utfEsp) (hframe : m.Has cr3 f utf.bytes)
    (hword : m.Writable cr3 (utf.utfEsp - 4) 4) (hapart : m.Apart cr3 f 52 (utf.utfEsp - 4) 4) :
    ∃ p' m₁, runBlock cr3 upcallReturn ⟨⟨r, ip, fl, f - 4⟩, m⟩ = .ok p' ∧
      Memory.Stored cr3 (utf.utfEsp - 4) (wordBytes utf.utfEip) m m₁ ∧
      Memory.Stored cr3 (f + 48) (wordBytes (utf.utfEsp - 4)) m₁ p'.memory ∧
      utf.trap.Same p'.regs := by
  obtain ⟨r', ip', fl', m₁, m₂, hadjust, hfl', hstored₁, hstored₂⟩ :=
    @runBlock_adjust cr3 utf f m r ip fl hs hfl hframe hword
  have hframe₁ : m₁.Has cr3 f utf.bytes := hstored₁.has_apart hframe hapart
  have hsplit : utf.bytes = (utf.words.take 12).flatMap wordBytes ++ wordBytes utf.utfEsp := rfl
  rw [hsplit] at hframe₁
  have hbefore : m₂.Has cr3 f ((utf.words.take 12).flatMap wordBytes) :=
    @Memory.Stored.has_before _ _ _ _ _ _ hstored₂ hframe₁.left (by decide : 48 + 4 ≤ 4096)
  have hafter : m₂.Has cr3 (f + 48) (wordBytes (utf.utfEsp - 4)) :=
    hstored₂.has hframe₁.right.writable
  have hwords : m₂.HasWords cr3 f (utf.utfFaultVa :: utf.utfErr :: (utf.utfRegs.words ++
      [utf.utfEip, utf.utfEflags, utf.utfEsp - 4])) :=
    Memory.Has.words (hbefore.append hafter)
  have heip : m₂.Has cr3 (utf.utfEsp - 4) (wordBytes utf.utfEip) := by
    have hlast : m.Apart cr3 (f + 48) 4 (utf.utfEsp - 4) 4 :=
      @Memory.Apart.part _ _ _ _ 52 4 48 4 hapart (Nat.le_refl _)
    exact hstored₂.has_apart (hstored₁.has hword) (hstored₁.apart hlast.symm)
  obtain ⟨p', hrestore, hmemory, hsame⟩ := @runBlock_restore cr3 utf f m₂ r' ip' fl' hfl' hutf
    ⟨hfl'.frame, hwords⟩ heip
  refine ⟨p', m₁, (runBlock_append hadjust).trans hrestore, hstored₁, ?_, hsame⟩
  rw [hmemory]
  exact hstored₂

end Program

/-! ## The page of the exception stack -/

/-- The exception stack is this page, and the program may write it. -/
def StackPage (m : Memory) (cr3 page : Ppn) : Prop :=
  ∀ va, OnStack va 1 → m.translate cr3 Memory.userWrite va = some page

theorem OnStack.byte {va : Word} {len i : ℕ} (h : OnStack va len) (hi : i < len) :
    (va + BitVec.ofNat 32 i).toNat = va.toNat + i ∧ OnStack (va + BitVec.ofNat 32 i) 1 := by
  rw [OnStack, toNat_exstk, toNat_uxstacktop] at h
  have haddr : (va + BitVec.ofNat 32 i).toNat = va.toNat + i := by
    rw [BitVec.toNat_add, BitVec.toNat_ofNat]
    omega
  refine ⟨haddr, ?_⟩
  rw [OnStack, haddr, toNat_exstk, toNat_uxstacktop]
  omega

namespace StackPage

variable {m m' : Memory} {cr3 page : Ppn} {va va' : Word} {len len' : ℕ} {bs : List (BitVec 8)}

theorem writable (h : StackPage m cr3 page) (hva : OnStack va len) : m.Writable cr3 va len := by
  intro i hi
  rw [h _ (hva.byte hi).2]
  rfl

/-- Two parts of the stack, one below the other. -/
theorem apart (hva : OnStack va len) (hva' : OnStack va' len') (hbelow : va.toNat + len ≤ va'.toNat) :
    m.Apart cr3 va len va' len' := by
  intro i hi j hj pp _ _
  obtain ⟨haddr, hon⟩ := hva.byte hi
  obtain ⟨haddr', hon'⟩ := hva'.byte hj
  rw [OnStack, toNat_exstk, toNat_uxstacktop] at hon hon'
  rw [pgoff, pgoff]
  omega

theorem stored (h : StackPage m cr3 page) (hstored : Memory.Stored cr3 va bs m m') :
    StackPage m' cr3 page :=
  fun va hva ↦ (hstored.translate (by decide)).trans (h va hva)

end StackPage

/-- What the kernel pushes for a fault. -/
theorem pushUtf_stored {m : Memory} {cr3 page : Ppn} {utf : UTrapframe} (hs : m.Sealed cr3)
    (hstack : StackPage m cr3 page) (hroom : ¬ NoRoom utf.utfEsp) :
    ∃ m₁ m', pushUtf cr3 utf m = .ok m' ∧
      (Nested utf.utfEsp → Memory.Stored cr3 (utf.utfEsp - 4) (wordBytes 0) m m₁) ∧
      (¬ Nested utf.utfEsp → m₁ = m) ∧
      Memory.Stored cr3 (utfAddress utf.utfEsp) utf.bytes m₁ m' := by
  have hframe : OnStack (utfAddress utf.utfEsp) utf.bytes.length := utfAddress_onStack hroom
  by_cases hnested : Nested utf.utfEsp
  · have hscratch : OnStack (utf.utfEsp - 4) (wordBytes 0).length := scratch_onStack hnested hroom
    obtain ⟨m₁, hword, hstored₁⟩ := @Memory.storeRange_stored m cr3 Memory.kernelWrite
      (utf.utfEsp - 4) (wordBytes 0) hs (by decide) (hstack.writable hscratch) (by decide)
    obtain ⟨m', hstore, hstored⟩ := @Memory.storeRange_stored m₁ cr3 Memory.kernelWrite
      (utfAddress utf.utfEsp) utf.bytes hstored₁.isSealed (by decide)
      ((hstack.stored hstored₁).writable hframe) (by decide : 52 ≤ 4096)
    refine ⟨m₁, m', ?_, fun _ ↦ hstored₁, fun hno ↦ absurd hnested hno, hstored⟩
    rw [pushUtf_nested hnested]
    exact bind_ok.mpr ⟨m₁, Memory.storeBytes_of_storeRange hword,
      Memory.storeBytes_of_storeRange hstore⟩
  · obtain ⟨m', hstore, hstored⟩ := @Memory.storeRange_stored m cr3 Memory.kernelWrite
      (utfAddress utf.utfEsp) utf.bytes hs (by decide) (hstack.writable hframe)
      (by decide : 52 ≤ 4096)
    refine ⟨m, m', ?_, fun hyes ↦ absurd hyes hnested, fun _ ↦ rfl, hstored⟩
    rw [pushUtf_not_nested hnested]
    exact Memory.storeBytes_of_storeRange hstore

/-! ## The kernel under the program -/

/-- The program runs on the CPU `c` with an upcall and an exception stack, and its address space is one
that it cannot change by writing. It can read the variable `_pgfault_handler`. -/
structure Ready (k : Kernel n) (c : Fin n) (cur : EnvPtr) (upcall handlerVar : Word) : Prop where
  curenv : k.curenv c = some cur
  running : (k.envs cur).envStatus = .running
  upcall : (k.envs cur).envPgfaultUpcall = upcall
  pgdir : (k.envs cur).envPgdir = some (k.cpus c).cr3
  isSealed : k.memory.Sealed (k.cpus c).cr3
  bound : (pgnum (k.memory.word (k.cpus c).cr3 (pdx exstk))).toNat < k.memory.npages
  stack : ∃ page, StackPage k.memory (k.cpus c).cr3 page
  handler : k.memory.Readable (k.cpus c).cr3 handlerVar 4

namespace Ready

variable {k k' : Kernel n} {c : Fin n} {cur : EnvPtr} {upcall handlerVar : Word} {tf : Trapframe}

theorem ownPage (h : Ready k c cur upcall handlerVar) : ∃ table page, OwnPage k c cur table page := by
  obtain ⟨page, hpage⟩ := h.stack
  have hexstk : OnStack exstk 1 := by
    rw [OnStack, toNat_exstk, toNat_uxstacktop]
    decide
  have htranslate := hpage exstk hexstk
  obtain ⟨hroot, htables⟩ := h.isSealed exstk page htranslate
  rw [Memory.translate] at htranslate
  split at htranslate
  · next hbits =>
    refine ⟨_, page, h.pgdir, ⟨_, rfl, rfl, hbits.1⟩, h.bound,
      ⟨_, rfl, Option.some.inj htranslate, hbits.2⟩, hroot, ?_⟩
    exact htables _ (Memory.bits_of_bits (by decide) hbits.1)
  · cases htranslate

theorem exceptionStack (h : Ready k c cur upcall handlerVar) : ExceptionStack k c cur := by
  obtain ⟨table, page, hown⟩ := h.ownPage
  exact hown.exceptionStack

/-- The frame and the counters of an environment do not matter. -/
theorem congr (h : Ready k c cur upcall handlerVar) (hcurenv : k'.curenv c = some cur)
    (hrunning : (k'.envs cur).envStatus = .running)
    (hupcall : (k'.envs cur).envPgfaultUpcall = (k.envs cur).envPgfaultUpcall)
    (hpgdir : (k'.envs cur).envPgdir = (k.envs cur).envPgdir)
    (hcr3 : (k'.cpus c).cr3 = (k.cpus c).cr3) (hmemory : k'.memory = k.memory) :
    Ready k' c cur upcall handlerVar := by
  refine ⟨hcurenv, hrunning, hupcall.trans h.upcall, ?_, ?_, ?_, ?_, ?_⟩
  · rw [hpgdir, hcr3]
    exact h.pgdir
  · rw [hmemory, hcr3]
    exact h.isSealed
  · rw [hmemory, hcr3]
    exact h.bound
  · rw [hmemory, hcr3]
    exact h.stack
  · rw [hmemory, hcr3]
    exact h.handler

theorem saveTf_cr3 : ((k.saveTf c cur tf).cpus c).cr3 = (k.cpus c).cr3 := by
  simp [Kernel.saveTf, Kernel.setTf, Kernel.start]

theorem saveTf (h : Ready k c cur upcall handlerVar) :
    Ready (k.saveTf c cur tf) c cur upcall handlerVar := by
  have henv : (k.saveTf c cur tf).envs cur = { k.envs cur with envTf := tf } := by
    simp [Kernel.saveTf, Kernel.setTf, Kernel.start]
  have hcurenv : (k.saveTf c cur tf).curenv c = some cur := by
    have hcur := h.curenv
    simpa [Kernel.saveTf, Kernel.setTf, Kernel.start, Kernel.curenv] using hcur
  refine h.congr hcurenv ?_ ?_ ?_ saveTf_cr3 rfl
  · rw [henv]
    exact h.running
  · rw [henv]
  · rw [henv]

/-- Going back to the program with another frame. -/
theorem resume (h : Ready k c cur upcall handlerVar) :
    Ready ((k.setTf (some cur) tf).envRun c cur) c cur upcall handlerVar ∧
      (((k.setTf (some cur) tf).envRun c cur).cpus c).cr3 = (k.cpus c).cr3 ∧
      (((k.setTf (some cur) tf).envRun c cur).envs cur).envTf = tf ∧
      ((k.setTf (some cur) tf).envRun c cur).memory = k.memory := by
  have henv : (k.setTf (some cur) tf).envs cur = { k.envs cur with envTf := tf } := by
    simp [Kernel.setTf]
  have hpgdir : ((k.setTf (some cur) tf).envs cur).envPgdir = some (k.cpus c).cr3 := by
    rw [henv]
    exact h.pgdir
  have hcr3 : (((k.setTf (some cur) tf).envRun c cur).cpus c).cr3 = (k.cpus c).cr3 := by
    rw [Kernel.envRun_cpu hpgdir]
  have hmemory : ((k.setTf (some cur) tf).envRun c cur).memory = k.memory := by
    rw [Kernel.envRun_memory]
    rfl
  refine ⟨h.congr Kernel.envRun_curenv ?_ ?_ ?_ hcr3 hmemory, hcr3, ?_, hmemory⟩
  · rw [Kernel.envRun_self]
  · rw [Kernel.envRun_self, henv]
  · rw [Kernel.envRun_self, henv]
  · rw [Kernel.envRun_self, henv]

/-- Writes to memory that leave the translations alone. -/
theorem of_stored {va : Word} {bs : List (BitVec 8)} {m m' : Memory}
    (h : Ready { k with memory := m } c cur upcall handlerVar)
    (hstored : Memory.Stored (k.cpus c).cr3 va bs m m') :
    Ready { k with memory := m' } c cur upcall handlerVar := by
  obtain ⟨page, hpage⟩ := h.stack
  refine ⟨h.curenv, h.running, h.upcall, h.pgdir, hstored.isSealed, ?_, ⟨page, ?_⟩, ?_⟩
  · rw [hstored.directory, hstored.npages]
    exact h.bound
  · exact StackPage.stored hpage hstored
  · exact hstored.readable h.handler

/-- A page fault of the program gets to its handler in the kernel. -/
theorem trap_eq (h : Ready k c cur upcall handlerVar) (huser : tf.tfCs = userText)
    (htrapno : tf.tfTrapno = tPgflt) (s : Scheduler) (faultVa : Word) (inp : Input) :
    k.trap s c tf faultVa inp =
      (k.saveTf c cur tf).pageFaultHandler s c (some cur) tf faultVa >>= Kernel.trapReturn s c := by
  have hring : tf.tfCs &&& 3 = 3 := by
    rw [huser]
    decide
  have hlive : ¬ (k.envs cur).envStatus = .dying := by
    rw [h.running]
    decide
  have hbrkpt : ¬ tf.tfTrapno = tBrkpt := by
    rw [htrapno]
    decide
  have hdispatch : (k.saveTf c cur tf).trapDispatch s c (some cur) tf faultVa inp =
      (k.saveTf c cur tf).pageFaultHandler s c (some cur) tf faultVa := by
    rw [Kernel.trapDispatch]
    simp only [if_neg hbrkpt, if_pos htrapno]
  rw [Kernel.trap, if_pos hring, h.curenv]
  simp only [if_neg hlive]
  rw [hdispatch]

/-- Without room for the frame the kernel stops. -/
theorem overflow (h : Ready k c cur upcall handlerVar) (hupcall : upcall ≠ 0)
    (huser : tf.tfCs = userText) (htrapno : tf.tfTrapno = tPgflt) (hroom : NoRoom tf.tfEsp)
    (s : Scheduler) (faultVa : Word) (inp : Input) : k.trap s c tf faultVa inp = .error .panic := by
  have h₀ : Ready (k.saveTf c cur tf) c cur upcall handlerVar := h.saveTf
  have hring : tf.tfCs &&& 3 ≠ 0 := by
    rw [huser]
    decide
  have hset : ((k.saveTf c cur tf).envs cur).envPgfaultUpcall ≠ 0 := by
    rw [h₀.upcall]
    exact hupcall
  rw [h.trap_eq huser htrapno, h₀.exceptionStack.handler_noRoom h₀.curenv hring hset hroom]
  rfl

/-- The kernel enters the upcall with the frame on the exception stack. -/
theorem deliver (h : Ready k c cur upcall handlerVar) (hupcall : upcall ≠ 0)
    (huser : tf.tfCs = userText) (htrapno : tf.tfTrapno = tPgflt) (hroom : ¬ NoRoom tf.tfEsp)
    (s : Scheduler) (faultVa : Word) (inp : Input) :
    ∃ m₁ k', k.trap s c tf faultVa inp = .ok k' ∧ Ready k' c cur upcall handlerVar ∧
      (k'.cpus c).cr3 = (k.cpus c).cr3 ∧
      (k'.envs cur).envTf = { tf with tfEsp := utfAddress tf.tfEsp, tfEip := upcall } ∧
      (Nested tf.tfEsp →
        Memory.Stored (k.cpus c).cr3 (tf.tfEsp - 4) (wordBytes 0) k.memory m₁) ∧
      (¬ Nested tf.tfEsp → m₁ = k.memory) ∧
      Memory.Stored (k.cpus c).cr3 (utfAddress tf.tfEsp) (tf.utf faultVa).bytes m₁ k'.memory := by
  obtain ⟨page, hpage⟩ := h.stack
  obtain ⟨m₁, m', hpush, hnested, hplain, hstored⟩ :=
    @pushUtf_stored k.memory (k.cpus c).cr3 page (tf.utf faultVa) h.isSealed hpage hroom
  have h₀ : Ready (k.saveTf c cur tf) c cur upcall handlerVar := h.saveTf
  have hcr3 : ((k.saveTf c cur tf).cpus c).cr3 = (k.cpus c).cr3 := saveTf_cr3
  have huser' : tf.tfCs &&& 3 ≠ 0 := by
    rw [huser]
    decide
  have hhandler := @ExceptionStack.handler _ _ s c cur tf faultVa h₀.exceptionStack h₀.curenv huser'
    (by rw [h₀.upcall]; exact hupcall)
  have hmemory : (k.saveTf c cur tf).memory = k.memory := rfl
  rw [hcr3, hmemory, h₀.upcall, hpush] at hhandler
  simp only [bind, Except.bind, if_neg (utfAddress_passes hroom), pure, Except.pure] at hhandler
  have htrap : k.trap s c tf faultVa inp = .ok
      ((({ k.saveTf c cur tf with memory := m' } : Kernel n).setTf (some cur)
        { tf with tfEsp := utfAddress tf.tfEsp, tfEip := upcall }).envRun c cur) := by
    rw [h.trap_eq huser htrapno, hhandler]
    rfl
  have h₁ : Ready { k.saveTf c cur tf with memory := m₁ } c cur upcall handlerVar := by
    by_cases hnest : Nested tf.tfEsp
    · exact of_stored h₀ (hcr3 ▸ hnested hnest)
    · rw [hplain hnest]
      exact h₀
  obtain ⟨hready, hcr3', htf, hmemory'⟩ := @resume _ _ _ _ _ _
    { tf with tfEsp := utfAddress tf.tfEsp, tfEip := upcall }
    (of_stored h₁ (hcr3 ▸ hstored : Memory.Stored _ _ _ m₁ m'))
  refine ⟨m₁, _, htrap, hready, hcr3'.trans hcr3, htf, hnested, hplain, ?_⟩
  rw [hmemory']
  exact hstored

end Ready

/-! ## Faults that are being handled -/

/-- The flag that the processor sets in the flags that it pushes for a page fault. -/
def flRf : Word := 0x10000

theorem rf_and {fl bit : Word} (hbit : flRf &&& bit = 0) : (fl ||| flRf) &&& bit = fl &&& bit := by
  rw [BitVec.and_comm, BitVec.and_or_distrib_left, BitVec.and_comm bit flRf, hbit,
    BitVec.and_comm bit]
  exact BitVec.or_zero

/-- The frame that the processor and `_alltraps` push for a page fault of a program. -/
def Regs.trapframe (r : Regs) (err : Word) : Trapframe where
  tfRegs := r.regs
  tfEs := userData
  tfDs := userData
  tfTrapno := tPgflt
  tfErr := err
  tfEip := r.eip
  tfCs := userText
  tfEflags := r.eflags ||| flRf
  tfEsp := r.esp
  tfSs := userData

/-- The registers of the program after `env_pop_tf`. -/
def Trapframe.pop (tf : Trapframe) : Regs where
  regs := tf.tfRegs
  eip := tf.tfEip
  eflags := tf.tfEflags
  esp := tf.tfEsp

/-- A program with the kernel under it, and the frames of the faults that it is handling, of which the
first one is the latest. -/
structure Execution (n : ℕ) where
  kernel : Kernel n
  regs : Regs
  frames : List UTrapframe

/-- A frame that the program has not changed, with the word below the trap-time stack pointer apart from it
and writable. -/
structure Kept (m : Memory) (cr3 : Ppn) (utf : UTrapframe) : Prop where
  frame : m.Has cr3 (utfAddress utf.utfEsp) utf.bytes
  stack : m.Writable cr3 (utf.utfEsp - 4) 4
  apart : m.Apart cr3 (utfAddress utf.utfEsp) 52 (utf.utfEsp - 4) 4

/-- The faults that are served. On the exception stack there is room for the frame, the scratch word and
what the upcall pushes to call the handler, and all of it lies below the frames of the faults that are being
handled. Elsewhere the word below the stack pointer can be written and is no part of the exception
stack. -/
structure Execution.MayFault (σ : Execution n) (c : Fin n) : Prop where
  room : Nested σ.regs.esp → exstk.toNat + 64 ≤ σ.regs.esp.toNat
  below : ∀ utf ∈ σ.frames,
    Nested σ.regs.esp ∧ σ.regs.esp.toNat ≤ (utfAddress utf.utfEsp).toNat
  outside : ¬ Nested σ.regs.esp →
    σ.kernel.memory.Writable (σ.kernel.cpus c).cr3 (σ.regs.esp - 4) 4 ∧
      σ.kernel.memory.Apart (σ.kernel.cpus c).cr3 exstk 4096 (σ.regs.esp - 4) 4
  untraced : σ.regs.eflags &&& flTf = 0
  aligned : σ.regs.eflags &&& flAc = 0 ∨ Nested σ.regs.esp ∧ σ.regs.esp.toNat % 4 = 0

/-- The handler of a frame has returned to the upcall: its argument is on the stack, and the flags that C
code does not change are as they were. -/
structure Returned (upcall : Word) (utf : UTrapframe) (r : Regs) : Prop where
  esp : r.esp = utfAddress utf.utfEsp - 4
  eip : r.eip = upcall + 8
  trap : r.eflags &&& flTf = utf.utfEflags &&& flTf
  alignment : r.eflags &&& flAc = utf.utfEflags &&& flAc

/-- What happens to a program. -/
inductive Activity where
  /-- A page fault, up to the call of the handler. -/
  | fault (va err : Word) (inp : Input)
  /-- Any computation of the program or of a handler, with its system calls. -/
  | code
  /-- The upcall goes on after its handler. -/
  | ret

namespace Execution

inductive Step (s : Scheduler) (c : Fin n) (cur : EnvPtr) (upcall handlerVar : Word) :
    Execution n → Activity → Execution n → Prop where
  | fault {σ : Execution n} {va err : Word} {inp : Input} {k : Kernel n} {p : Program} :
      σ.MayFault c → σ.kernel.trap s c (σ.regs.trapframe err) va inp = .ok k →
      Program.runBlock (k.cpus c).cr3 (upcallEntry handlerVar)
        ⟨(k.envs cur).envTf.pop, k.memory⟩ = .ok p →
      Step s c cur upcall handlerVar σ (.fault va err inp)
        ⟨{ k with memory := p.memory }, p.regs, (σ.regs.trapframe err).utf va :: σ.frames⟩
  | code {σ : Execution n} {k : Kernel n} {r : Regs} : Ready k c cur upcall handlerVar →
      (∀ utf ∈ σ.frames, Kept k.memory (k.cpus c).cr3 utf) →
      Step s c cur upcall handlerVar σ .code ⟨k, r, σ.frames⟩
  | ret {σ : Execution n} {utf : UTrapframe} {frames : List UTrapframe} {p : Program} :
      σ.frames = utf :: frames → Returned upcall utf σ.regs →
      Program.runBlock (σ.kernel.cpus c).cr3 upcallReturn ⟨σ.regs, σ.kernel.memory⟩ = .ok p →
      Step s c cur upcall handlerVar σ .ret
        ⟨{ σ.kernel with memory := p.memory }, p.regs, frames⟩

/-- The frames that are being handled lie in memory one below the other. -/
structure Handling (c : Fin n) (cur : EnvPtr) (upcall handlerVar : Word) (σ : Execution n) :
    Prop where
  ready : Ready σ.kernel c cur upcall handlerVar
  kept : ∀ utf ∈ σ.frames, Kept σ.kernel.memory (σ.kernel.cpus c).cr3 utf
  room : ∀ utf ∈ σ.frames, ¬ NoRoom utf.utfEsp
  calm : ∀ utf ∈ σ.frames,
    Program.Calm utf.utfEflags (utfAddress utf.utfEsp) utf.utfEsp
  ordered : σ.frames.Pairwise fun utf older ↦
    Nested utf.utfEsp ∧ utf.utfEsp.toNat ≤ (utfAddress older.utfEsp).toNat

end Execution

/-! ## Where the frames lie -/

section Addresses

variable {esp : Word}

theorem not_noRoom (h : Nested esp → exstk.toNat + 64 ≤ esp.toNat) : ¬ NoRoom esp := by
  rw [noRoom_iff]
  intro hno
  have hnested : Nested esp := by
    rw [Nested, OnStack, toNat_exstk, toNat_uxstacktop]
    rw [toNat_exstk] at hno
    omega
  have hle := h hnested
  omega

/-- The argument of the handler and the return address go below the frame. -/
theorem utfAddress_room (h : Nested esp → exstk.toNat + 64 ≤ esp.toNat) :
    (utfAddress esp - 8).toNat + 8 = (utfAddress esp).toNat ∧
      (utfAddress esp - 4).toNat + 4 = (utfAddress esp).toNat ∧
      exstk.toNat + 8 ≤ (utfAddress esp).toNat := by
  have hfour : (4 : Word).toNat = 4 := rfl
  have height : (8 : Word).toNat = 8 := rfl
  have hle : exstk.toNat + 8 ≤ (utfAddress esp).toNat := by
    by_cases hnested : Nested esp
    · have haddr := toNat_utfAddress_nested hnested
      have hroom := h hnested
      omega
    · rw [utfAddress_not_nested hnested]
      decide
  rw [toNat_exstk] at hle ⊢
  refine ⟨?_, ?_, hle⟩
  · rw [BitVec.toNat_sub, height]
    omega
  · rw [BitVec.toNat_sub, hfour]
    omega

end Addresses

/-! ## Frames survive what happens below them -/

section Frames

variable {m m' : Memory} {cr3 page : Ppn} {va : Word} {bs : List (BitVec 8)} {utf : UTrapframe}

theorem Kept.stored (h : Kept m cr3 utf) (hstored : Memory.Stored cr3 va bs m m')
    (hapart : m.Apart cr3 (utfAddress utf.utfEsp) 52 va bs.length) : Kept m' cr3 utf :=
  ⟨hstored.has_apart h.frame hapart, hstored.writable h.stack, hstored.apart h.apart⟩

theorem Kept.stored_below (h : Kept m cr3 utf) (hstored : Memory.Stored cr3 va bs m m')
    (hroom : ¬ NoRoom utf.utfEsp) (hva : OnStack va bs.length)
    (hbelow : va.toNat + bs.length ≤ (utfAddress utf.utfEsp).toNat) : Kept m' cr3 utf :=
  h.stored hstored (StackPage.apart hva (utfAddress_onStack hroom) hbelow).symm

/-- What is apart from the whole stack is apart from a part of it. -/
theorem apart_of_onStack {len : ℕ} {va' : Word} (h : m.Apart cr3 exstk 4096 va' 4)
    (hva : OnStack va len) : m.Apart cr3 va len va' 4 := by
  have haddr : exstk + BitVec.ofNat 32 (va.toNat - exstk.toNat) = va := by
    apply BitVec.eq_of_toNat_eq
    rw [OnStack, toNat_exstk, toNat_uxstacktop] at hva
    rw [BitVec.toNat_add, BitVec.toNat_ofNat, toNat_exstk]
    omega
  rw [← haddr]
  refine h.part ?_
  rw [OnStack, toNat_exstk, toNat_uxstacktop] at hva
  rw [toNat_exstk]
  omega

/-- A new frame, where the trap-time stack pointer is on the stack. -/
theorem Kept.of_nested (hstack : StackPage m cr3 page) (hroom : ¬ NoRoom utf.utfEsp)
    (hnested : Nested utf.utfEsp) (hframe : m.Has cr3 (utfAddress utf.utfEsp) utf.bytes) :
    Kept m cr3 utf := by
  have hscratch := scratch_onStack hnested hroom
  have haddr := toNat_utfAddress_nested hnested
  have hend := toNat_scratch hnested
  refine ⟨hframe, hstack.writable hscratch,
    StackPage.apart (utfAddress_onStack hroom) hscratch ?_⟩
  omega

end Frames

/-! ## One fault -/

namespace Execution

variable {σ : Execution n} {c : Fin n} {cur : EnvPtr} {upcall handlerVar : Word}

theorem MayFault.calm (h : σ.MayFault c) {fl : Word} (htf : fl &&& flTf = σ.regs.eflags &&& flTf)
    (hac : fl &&& flAc = σ.regs.eflags &&& flAc) :
    Program.Calm fl (utfAddress σ.regs.esp) σ.regs.esp := by
  refine ⟨htf.trans h.untraced, ?_, ?_⟩
  · obtain hclear | ⟨hnested, hmod⟩ := h.aligned
    · exact .inl (hac.trans hclear)
    · have haddr := toNat_utfAddress_nested hnested
      refine .inr ?_
      omega
  · obtain hclear | ⟨-, hmod⟩ := h.aligned
    · exact .inl (hac.trans hclear)
    · exact .inr hmod

/-- A fault is delivered, and the upcall calls the handler below the new frame. -/
theorem Handling.fault (h : σ.Handling c cur upcall handlerVar) (hmay : σ.MayFault c)
    (hupcall : upcall ≠ 0) (hvar : handlerVar.toNat % 4 = 0) (s : Scheduler) (va err : Word)
    (inp : Input) :
    ∃ k p, σ.kernel.trap s c (σ.regs.trapframe err) va inp = .ok k ∧
      Program.runBlock (k.cpus c).cr3 (upcallEntry handlerVar)
        ⟨(k.envs cur).envTf.pop, k.memory⟩ = .ok p ∧
      Handling c cur upcall handlerVar
        ⟨{ k with memory := p.memory }, p.regs, (σ.regs.trapframe err).utf va :: σ.frames⟩ := by
  have hroom := not_noRoom hmay.room
  obtain ⟨hargs, harg, hlow⟩ := utfAddress_room hmay.room
  obtain ⟨m₁, k, htrap, hready, hcr3, htf, hnested, hplain, hframe⟩ :=
    @Ready.deliver n σ.kernel c cur upcall handlerVar (σ.regs.trapframe err) h.ready hupcall rfl rfl
      hroom s va inp
  rw [← hcr3] at hnested hframe
  have hcalm := hmay.calm (@rf_and σ.regs.eflags flTf (by decide))
    (@rf_and σ.regs.eflags flAc (by decide))
  have hpop : (k.envs cur).envTf.pop = ⟨σ.regs.regs, upcall, σ.regs.eflags ||| flRf,
      utfAddress σ.regs.esp⟩ := by
    rw [htf]
    rfl
  obtain ⟨page, hpage⟩ := hready.stack
  have hframeStack : OnStack (utfAddress σ.regs.esp) 52 := utfAddress_onStack hroom
  have hargStack : OnStack (utfAddress σ.regs.esp - 4) 4 := by
    rw [OnStack] at hframeStack ⊢
    omega
  have hcallStack : OnStack (utfAddress σ.regs.esp - 8) 4 := by
    rw [OnStack] at hframeStack ⊢
    omega
  obtain ⟨handler, m₂, m₃, hrun, -, hpush, hcall⟩ :=
    @Program.runBlock_upcallEntry (k.cpus c).cr3 (utfAddress σ.regs.esp) k.memory σ.regs.regs upcall
      (σ.regs.eflags ||| flRf) handlerVar hready.isSealed hcalm.untraced hcalm.frame (.inr hvar)
      hready.handler (hpage.writable hargStack) (hpage.writable hcallStack)
  refine ⟨k, _, htrap, by rw [hpop]; exact hrun, ?_⟩
  -- the frames that were there
  have hkept : ∀ utf ∈ σ.frames, Kept m₃ (k.cpus c).cr3 utf := by
    intro utf hutf
    obtain ⟨hnest, hle⟩ := hmay.below utf hutf
    have haddr := toNat_utfAddress_nested hnest
    have hfits := h.room utf hutf
    have hscratch := scratch_onStack hnest hroom
    have hend := toNat_scratch hnest
    have hstart := h.kept utf hutf
    rw [← hcr3] at hstart
    have hkept₁ : Kept m₁ (k.cpus c).cr3 utf :=
      hstart.stored_below (hnested hnest) hfits hscratch (hend.le.trans hle)
    have hkept₂ : Kept k.memory (k.cpus c).cr3 utf := by
      refine hkept₁.stored_below hframe hfits hframeStack ?_
      have hlen : ((σ.regs.trapframe err).utf va).bytes.length = 52 := rfl
      change (utfAddress σ.regs.esp).toNat + _ ≤ _
      rw [hlen]
      omega
    have hkept₃ : Kept m₂ (k.cpus c).cr3 utf := by
      refine hkept₂.stored_below hpush hfits hargStack ?_
      change (utfAddress σ.regs.esp - 4).toNat + 4 ≤ _
      omega
    refine hkept₃.stored_below hcall hfits hcallStack ?_
    change (utfAddress σ.regs.esp - 8).toNat + 4 ≤ _
    omega
  -- the new frame, and the word below the trap-time stack pointer
  have hhas : k.memory.Has (k.cpus c).cr3 (utfAddress σ.regs.esp)
      ((σ.regs.trapframe err).utf va).bytes :=
    hframe.has (hframe.writable_before (hpage.writable hframeStack))
  have hnew : Kept k.memory (k.cpus c).cr3 ((σ.regs.trapframe err).utf va) := by
    by_cases hnest : Nested σ.regs.esp
    · exact Kept.of_nested hpage hroom hnest hhas
    · obtain ⟨hword, hapart⟩ := hmay.outside hnest
      rw [← hcr3, ← hplain hnest] at hword hapart
      exact ⟨hhas, hframe.writable hword, hframe.apart (apart_of_onStack hapart hframeStack)⟩
  have hnew₂ : Kept m₂ (k.cpus c).cr3 ((σ.regs.trapframe err).utf va) :=
    hnew.stored_below hpush hroom hargStack harg.le
  have hnew₃ : Kept m₃ (k.cpus c).cr3 ((σ.regs.trapframe err).utf va) := by
    refine hnew₂.stored_below hcall hroom hcallStack ?_
    change (utfAddress σ.regs.esp - 8).toNat + 4 ≤ (utfAddress σ.regs.esp).toNat
    omega
  refine ⟨Ready.of_stored (Ready.of_stored hready hpush) hcall, ?_, ?_, ?_, ?_⟩
  · exact List.forall_mem_cons.mpr ⟨hnew₃, hkept⟩
  · exact List.forall_mem_cons.mpr ⟨hroom, h.room⟩
  · exact List.forall_mem_cons.mpr ⟨hcalm, h.calm⟩
  · exact List.pairwise_cons.mpr ⟨hmay.below, h.ordered⟩

/-- The upcall goes back to where the last fault happened, and the frames below are kept. -/
theorem Handling.ret {utf : UTrapframe} {frames : List UTrapframe}
    (h : σ.Handling c cur upcall handlerVar) (hframes : σ.frames = utf :: frames)
    (hret : Returned upcall utf σ.regs) :
    ∃ p, Program.runBlock (σ.kernel.cpus c).cr3 upcallReturn ⟨σ.regs, σ.kernel.memory⟩ = .ok p ∧
      utf.trap.Same p.regs ∧
      Handling c cur upcall handlerVar ⟨{ σ.kernel with memory := p.memory }, p.regs, frames⟩ := by
  have hkept := h.kept
  have hroom := h.room
  have hcalm := h.calm
  have hordered := h.ordered
  rw [hframes] at hkept hroom hcalm hordered
  obtain ⟨hkept, hkeptRest⟩ := List.forall_mem_cons.mp hkept
  obtain ⟨hroom, hroomRest⟩ := List.forall_mem_cons.mp hroom
  obtain ⟨hcalm, hcalmRest⟩ := List.forall_mem_cons.mp hcalm
  obtain ⟨hbelow, hrest⟩ := List.pairwise_cons.mp hordered
  have hregs : σ.regs = ⟨σ.regs.regs, σ.regs.eip, σ.regs.eflags, utfAddress utf.utfEsp - 4⟩ := by
    rw [← hret.esp]
  obtain ⟨p, m₁, hrun, hstored₁, hstored₂, hsame⟩ :=
    @Program.runBlock_upcallReturn (σ.kernel.cpus c).cr3 utf (utfAddress utf.utfEsp)
      σ.kernel.memory σ.regs.regs σ.regs.eip σ.regs.eflags h.ready.isSealed
      (hcalm.of_flags hret.trap hret.alignment) hcalm hkept.frame hkept.stack hkept.apart
  refine ⟨p, by rw [hregs]; exact hrun, hsame, ?_⟩
  refine ⟨Ready.of_stored (Ready.of_stored h.ready hstored₁) hstored₂, ?_, hroomRest, hcalmRest,
    hrest⟩
  intro older holder
  obtain ⟨hnested, hle⟩ := hbelow older holder
  have haddr := toNat_utfAddress_nested hnested
  have hscratch := scratch_onStack hnested hroom
  have hframe := utfAddress_onStack hroom
  have hforty : (48 : Word).toNat = 48 := rfl
  have hend := toNat_scratch hnested
  have hlast : (utfAddress utf.utfEsp + 48).toNat = (utfAddress utf.utfEsp).toNat + 48 := by
    rw [OnStack, toNat_uxstacktop] at hframe
    rw [BitVec.toNat_add, hforty]
    omega
  have hlastStack : OnStack (utfAddress utf.utfEsp + 48) 4 := by
    rw [OnStack] at hframe ⊢
    omega
  have hkept₁ : Kept m₁ (σ.kernel.cpus c).cr3 older :=
    (hkeptRest older holder).stored_below hstored₁ (hroomRest older holder) hscratch
      (hend.le.trans hle)
  refine hkept₁.stored_below hstored₂ (hroomRest older holder) hlastStack ?_
  change (utfAddress utf.utfEsp + 48).toNat + 4 ≤ _
  omega

/-- The frames stay in order through whatever the program does. -/
theorem Handling.step {s : Scheduler} {a : Activity} {σ' : Execution n}
    (h : σ.Handling c cur upcall handlerVar) (hupcall : upcall ≠ 0)
    (hvar : handlerVar.toNat % 4 = 0) (hstep : Step s c cur upcall handlerVar σ a σ') :
    σ'.Handling c cur upcall handlerVar := by
  cases hstep with
  | @fault va err inp k p hmay htrap hrun =>
    obtain ⟨k', p', htrap', hrun', hnext⟩ := h.fault hmay hupcall hvar s va err inp
    rw [htrap] at htrap'
    cases htrap'
    rw [hrun] at hrun'
    cases hrun'
    exact hnext
  | code hready hkept => exact ⟨hready, hkept, h.room, h.calm, h.ordered⟩
  | @ret utf frames p hframes hret hrun =>
    obtain ⟨p', hrun', -, hnext⟩ := h.ret hframes hret
    rw [hrun] at hrun'
    cases hrun'
    exact hnext

/-- A program that handles no fault. -/
theorem Handling.of_ready (hready : Ready σ.kernel c cur upcall handlerVar) (hframes : σ.frames = []) :
    σ.Handling c cur upcall handlerVar := by
  have hnone : ∀ utf, utf ∉ σ.frames := by
    intro utf hutf
    rw [hframes] at hutf
    exact absurd hutf List.not_mem_nil
  refine ⟨hready, fun utf hutf ↦ absurd hutf (hnone utf), fun utf hutf ↦ absurd hutf (hnone utf),
    fun utf hutf ↦ absurd hutf (hnone utf), ?_⟩
  rw [hframes]
  exact List.Pairwise.nil

theorem trapframe_same (r : Regs) (va err : Word) : ((r.trapframe err).utf va).trap.Same r := by
  constructor
  case eflags => exact rf_and (by decide)
  all_goals rfl

/-- In every run from a program that handles no fault, with faults nested to any depth: a fault is
delivered, the upcall calls the handler, and once that handler returns, after whatever faults of its own,
the upcall restores the registers that the program had at the fault. -/
theorem upcall_restores {s : Scheduler} {σ₀ : Execution n} {acts : List Activity}
    (hupcall : upcall ≠ 0) (hvar : handlerVar.toNat % 4 = 0)
    (hready : Ready σ₀.kernel c cur upcall handlerVar) (hframes : σ₀.frames = [])
    (hrun : Run (Step s c cur upcall handlerVar) σ₀ acts σ) (hmay : σ.MayFault c)
    (va err : Word) (inp : Input) :
    ∃ σ₁ utf, Step s c cur upcall handlerVar σ (.fault va err inp) σ₁ ∧
      σ₁.frames = utf :: σ.frames ∧ utf.utfFaultVa = va ∧ utf.utfErr = err ∧
      ∀ acts' σ₂, Run (Step s c cur upcall handlerVar) σ₁ acts' σ₂ → σ₂.frames = σ₁.frames →
        Returned upcall utf σ₂.regs →
          ∃ σ₃, Step s c cur upcall handlerVar σ₂ .ret σ₃ ∧ σ₃.frames = σ.frames ∧
            σ.regs.Same σ₃.regs := by
  have hkeep {σ σ' : Execution n} {acts : List Activity} (hσ : σ.Handling c cur upcall handlerVar)
      (hrun : Run (Step s c cur upcall handlerVar) σ acts σ') :
      σ'.Handling c cur upcall handlerVar :=
    hrun.invariant (fun _ _ _ h hstep ↦ h.step hupcall hvar hstep) hσ
  obtain ⟨k, p, htrap, hentry, h₁⟩ := (hkeep (Handling.of_ready hready hframes) hrun).fault hmay
    hupcall hvar s va err inp
  refine ⟨_, _, .fault hmay htrap hentry, rfl, rfl, rfl, fun acts' σ₂ hrun' hframes₂ hret ↦ ?_⟩
  obtain ⟨p', hreturn, hsame, -⟩ := (hkeep h₁ hrun').ret hframes₂ hret
  exact ⟨_, .ret hframes₂ hret hreturn, rfl, (trapframe_same σ.regs va err).symm.trans hsame⟩

end Execution

/-! ## A program with an upcall -/

/-- What can be computed of the kernel after `upcallEvents`: the page tables of the program hang in page
3, and the pages 2 and 4 are its stacks. -/
structure UpcallKernel (k : Kernel 1) : Prop where
  curenv : k.curenv 0 = some 0
  running : (k.envs 0).envStatus = .running
  upcall : (k.envs 0).envPgfaultUpcall = 0xeebfd000
  pgdir : (k.envs 0).envPgdir = some 1
  cr3 : (k.cpus 0).cr3 = 1
  npages : k.memory.npages = 13
  table : k.memory.word 1 (pdx exstk) = 0x3007
  exception : k.memory.word 3 (ptx exstk) = 0x4007
  normal : k.memory.word 3 (ptx 0xeebfd000) = 0x2007
  below : k.memory.word 3 (ptx 0xeebfeffc) = 0
  directory : ∀ d, (k.memory.word 1 d &&& Memory.userWrite = Memory.userWrite → d = pdx exstk) ∧
    (k.memory.word 1 d &&& Memory.userRead = Memory.userRead →
      pgnum (k.memory.word 1 d) = 1 ∨ pgnum (k.memory.word 1 d) = 3)
  pages : ∀ t, k.memory.word 3 t &&& Memory.userWrite = Memory.userWrite →
    pgnum (k.memory.word 3 t) = 2 ∨ pgnum (k.memory.word 3 t) = 4

theorem forall_slot {p : Slot → Prop} [DecidablePred p]
    (h : (List.range 1024).all (fun i ↦ p (BitVec.ofNat 10 i)) = true) (d : Slot) : p d := by
  have hd := List.all_eq_true.mp h d.toNat (List.mem_range.mpr d.isLt)
  rw [decide_eq_true_eq, BitVec.ofNat_toNat, BitVec.setWidth_eq] at hd
  exact hd

theorem upcall_kernel : ∃ k, (smallKernel 1 12).after .rr upcallEvents = some k ∧ UpcallKernel k := by
  have hresult : (((smallKernel 1 12).after .rr upcallEvents).any fun k ↦
      k.curenv 0 = some 0 ∧ (k.envs 0).envStatus = .running ∧
        (k.envs 0).envPgfaultUpcall = 0xeebfd000 ∧ (k.envs 0).envPgdir = some 1 ∧
        (k.cpus 0).cr3 = 1 ∧ k.memory.npages = 13 ∧ k.memory.word 1 (pdx exstk) = 0x3007 ∧
        k.memory.word 3 (ptx exstk) = 0x4007 ∧ k.memory.word 3 (ptx 0xeebfd000) = 0x2007 ∧
        k.memory.word 3 (ptx 0xeebfeffc) = 0 ∧
        (List.range 1024).all (fun i ↦
          (k.memory.word 1 (BitVec.ofNat 10 i) &&& Memory.userWrite = Memory.userWrite →
            BitVec.ofNat 10 i = pdx exstk) ∧
          (k.memory.word 1 (BitVec.ofNat 10 i) &&& Memory.userRead = Memory.userRead →
            pgnum (k.memory.word 1 (BitVec.ofNat 10 i)) = 1 ∨
              pgnum (k.memory.word 1 (BitVec.ofNat 10 i)) = 3)) ∧
        (List.range 1024).all (fun i ↦
          k.memory.word 3 (BitVec.ofNat 10 i) &&& Memory.userWrite = Memory.userWrite →
            pgnum (k.memory.word 3 (BitVec.ofNat 10 i)) = 2 ∨
              pgnum (k.memory.word 3 (BitVec.ofNat 10 i)) = 4)) = true := by
    decide +kernel
  obtain ⟨k, hk, hcheck⟩ := (Option.any_eq_true _ _).mp hresult
  rw [decide_eq_true_eq] at hcheck
  obtain ⟨hcur, hrunning, hupcall, hpgdir, hcr3, hnpages, htable, hexception, hnormal, hbelow,
    hdirectory, hpages⟩ := hcheck
  exact ⟨k, hk, hcur, hrunning, hupcall, hpgdir, hcr3, hnpages, htable, hexception, hnormal,
    hbelow, forall_slot hdirectory, forall_slot hpages⟩

namespace UpcallKernel

variable {k : Kernel 1} {va : Word}

theorem isSealed (h : UpcallKernel k) : k.memory.Sealed 1 := by
  intro va pp hpp
  rw [Memory.translate] at hpp
  split at hpp
  · next hbits =>
    have hdir := (h.directory (pdx va)).1 hbits.1
    simp only [Memory.readPte, hdir, h.table] at hbits hpp
    have hpage := h.pages (ptx va) hbits.2
    have hpp : pp = pgnum (k.memory.word 3 (ptx va)) := (Option.some.inj hpp).symm
    rw [← hpp] at hpage
    refine ⟨?_, fun d hd heq ↦ ?_⟩
    · rintro rfl
      exact absurd hpage (by decide)
    · have htable := (h.directory d).2 hd
      rw [← heq] at htable
      obtain rfl | rfl := htable
      · exact absurd hpage (by decide)
      · exact absurd hpage (by decide)
  · cases hpp

theorem translate_exception (h : UpcallKernel k) (hva : OnStack va 1) :
    k.memory.translate 1 Memory.userWrite va = some 4 := by
  rw [Memory.translate, hva.indices.1, hva.indices.2]
  simp only [Memory.readPte, h.table]
  have hentry : k.memory.word (pgnum 0x3007) (ptx exstk) = 0x4007 := h.exception
  simp only [hentry]
  rfl

theorem translate_normal (h : UpcallKernel k) (hpdx : pdx va = pdx exstk)
    (hptx : ptx va = ptx 0xeebfd000) : k.memory.translate 1 Memory.userWrite va = some 2 := by
  rw [Memory.translate, hpdx, hptx]
  simp only [Memory.readPte, h.table]
  have hentry : k.memory.word (pgnum 0x3007) (ptx 0xeebfd000) = 0x2007 := h.normal
  simp only [hentry]
  rfl

theorem translate_below (h : UpcallKernel k) :
    k.memory.translate 1 Memory.userWrite 0xeebfeffc = none := by
  have hpdx : pdx 0xeebfeffc = pdx exstk := rfl
  rw [Memory.translate, hpdx]
  simp only [Memory.readPte, h.table]
  have hentry : k.memory.word (pgnum 0x3007) (ptx 0xeebfeffc) = 0 := h.below
  simp only [hentry]
  rfl

theorem ready (h : UpcallKernel k) : Ready k 0 0 0xeebfd000 0xeebfd100 := by
  have hvar : ∀ i < 4, pdx (0xeebfd100 + BitVec.ofNat 32 i) = pdx exstk ∧
      ptx (0xeebfd100 + BitVec.ofNat 32 i) = ptx 0xeebfd000 := by
    decide
  refine ⟨h.curenv, h.running, h.upcall, ?_, ?_, ?_, ⟨4, ?_⟩, ?_⟩ <;> rw [h.cr3]
  · exact h.pgdir
  · exact h.isSealed
  · rw [h.table, h.npages]
    decide
  · exact fun va hva ↦ h.translate_exception hva
  · intro i hi
    have htranslate := h.translate_normal (hvar i hi).1 (hvar i hi).2
    rw [Memory.translate_of_userWrite (by decide) htranslate]
    rfl

end UpcallKernel

/-- The registers of a program on its normal stack. -/
def normalRegs : Regs := ⟨Trapframe.zero.tfRegs, 0x800020, 0x202, 0xeebfdff0⟩

theorem UpcallKernel.mayFault {k : Kernel 1} (h : UpcallKernel k) :
    (⟨k, normalRegs, []⟩ : Execution 1).MayFault 0 := by
  have hword : ∀ i < 4, pdx (0xeebfdfec + BitVec.ofNat 32 i) = pdx exstk ∧
      ptx (0xeebfdfec + BitVec.ofNat 32 i) = ptx 0xeebfd000 := by
    decide
  have hplain : ¬ Nested normalRegs.esp := by
    rw [Nested, OnStack]
    decide
  have hesp : normalRegs.esp - 4 = 0xeebfdfec := rfl
  refine ⟨fun hnested ↦ absurd hnested hplain, fun utf hutf ↦ absurd hutf List.not_mem_nil,
    fun _ ↦ ⟨?_, ?_⟩, (by decide : normalRegs.eflags &&& flTf = 0),
    .inl (by decide : normalRegs.eflags &&& flAc = 0)⟩
  · intro i hi
    rw [hesp, h.cr3, h.translate_normal (hword i hi).1 (hword i hi).2]
    rfl
  · -- the two stacks are two pages
    intro i hi j hj pp hpp hq
    have hexstk : OnStack exstk 4096 := by
      rw [OnStack]
      decide
    rw [h.cr3, h.translate_exception (hexstk.byte hi).2] at hpp
    rw [hesp, h.cr3, h.translate_normal (hword j hj).1 (hword j hj).2, ← hpp] at hq
    exact absurd hq (by decide)

/-- A fault, a handler that returns, and the way back. -/
theorem upcall_restores_once : ∃ (k : Kernel 1) (σ₁ σ₂ σ₃ : Execution 1),
    (smallKernel 1 12).after .rr upcallEvents = some k ∧
    Execution.Step .rr 0 0 0xeebfd000 0xeebfd100 ⟨k, normalRegs, []⟩ (.fault 0x1000 6 ⟨0, none⟩) σ₁ ∧
    Execution.Step .rr 0 0 0xeebfd000 0xeebfd100 σ₁ .code σ₂ ∧
    Execution.Step .rr 0 0 0xeebfd000 0xeebfd100 σ₂ .ret σ₃ ∧
    normalRegs.Same σ₃.regs := by
  obtain ⟨k, hk, hkernel⟩ := upcall_kernel
  have hstart := @Execution.Handling.of_ready 1 ⟨k, normalRegs, []⟩ 0 0 _ _ hkernel.ready rfl
  obtain ⟨σ₁, utf, hfault, hframes, -, -, hback⟩ := @Execution.upcall_restores 1 ⟨k, normalRegs, []⟩ 0 0
    0xeebfd000 0xeebfd100 .rr ⟨k, normalRegs, []⟩ [] (by decide) (by decide) hkernel.ready rfl
    (.nil _) hkernel.mayFault 0x1000 6 ⟨0, none⟩
  have hhandling := hstart.step (by decide) (by decide) hfault
  -- the handler leaves other registers behind
  have hcode : Execution.Step .rr 0 0 0xeebfd000 0xeebfd100 σ₁ .code
      ⟨σ₁.kernel, ⟨Trapframe.zero.tfRegs, 0xeebfd008, utf.utfEflags, utfAddress utf.utfEsp - 4⟩,
        σ₁.frames⟩ := .code hhandling.ready hhandling.kept
  obtain ⟨σ₃, hret, -, hsame⟩ := hback [.code] _ (.cons hcode (.nil _)) rfl ⟨rfl, rfl, rfl, rfl⟩
  exact ⟨k, σ₁, _, σ₃, hk, hfault, hcode, hret, hsame⟩

/-- The upcall of a fault ends in an exception before it calls its handler. -/
def Kernel.UpcallFails (k k' : Kernel 1) (r : Regs) (e : Exception) : Prop :=
  k.trap .rr 0 (r.trapframe 6) 0x1000 ⟨0, none⟩ = .ok k' ∧
    Program.runBlock (k'.cpus 0).cr3 (upcallEntry 0xeebfd100)
      ⟨(k'.envs 0).envTf.pop, k'.memory⟩ = .error e

theorem UpcallKernel.enters {k : Kernel 1} (h : UpcallKernel k) (r : Regs) (hroom : ¬ NoRoom r.esp) :
    ∃ k', k.trap .rr 0 (r.trapframe 6) 0x1000 ⟨0, none⟩ = .ok k' ∧
      Ready k' 0 0 0xeebfd000 0xeebfd100 ∧ (k'.cpus 0).cr3 = 1 ∧
      (k'.envs 0).envTf.pop = ⟨r.regs, 0xeebfd000, r.eflags ||| flRf, utfAddress r.esp⟩ ∧
      ∀ addr, k'.memory.translate 1 Memory.userWrite addr =
        k.memory.translate 1 Memory.userWrite addr := by
  obtain ⟨m₁, k', htrap, hready, hcr3, htf, hnested, hplain, hframe⟩ :=
    @Ready.deliver 1 k 0 0 0xeebfd000 0xeebfd100 (r.trapframe 6) h.ready (by decide) rfl rfl hroom .rr
      0x1000 ⟨0, none⟩
  rw [h.cr3] at hcr3 hnested hframe
  refine ⟨k', htrap, hready, hcr3, ?_, fun addr ↦ ?_⟩
  · rw [htf]
    rfl
  · have hfirst : m₁.translate 1 Memory.userWrite addr =
        k.memory.translate 1 Memory.userWrite addr := by
      by_cases hnest : Nested r.esp
      · exact (hnested hnest).translate (by decide)
      · rw [hplain hnest]
    exact (hframe.translate (by decide)).trans hfirst

/-- With 56 bytes below the stack pointer there is no room for the argument of the handler: the upcall
faults, and the kernel stops over that fault. With `FL_TF` set the first instruction of the upcall ends in
a debug exception. With `FL_AC` set it ends in an alignment check, because the first frame is not
aligned. -/
theorem upcall_fails : ∃ k, (smallKernel 1 12).after .rr upcallEvents = some k ∧
    Ready k 0 0 0xeebfd000 0xeebfd100 ∧
    (∃ k', k.UpcallFails k' { normalRegs with esp := exstk + 56 } .pageFault ∧
      k'.trap .rr 0 ((k'.envs 0).envTf.pop.trapframe 6) (exstk - 4) ⟨0, none⟩ = .error .panic) ∧
    k.memory.Writable (k.cpus 0).cr3 (normalRegs.esp - 4) 4 ∧
    k.memory.Apart (k.cpus 0).cr3 exstk 4096 (normalRegs.esp - 4) 4 ∧
    (∃ k', k.UpcallFails k' { normalRegs with eflags := normalRegs.eflags ||| flTf } .debug) ∧
    ∃ k', k.UpcallFails k' { normalRegs with eflags := normalRegs.eflags ||| flAc } .alignment := by
  obtain ⟨k, hk, h⟩ := upcall_kernel
  have hplain : ¬ Nested normalRegs.esp := by
    rw [Nested, OnStack]
    decide
  have hroom : ¬ NoRoom normalRegs.esp := by
    rw [NoRoom]
    decide
  obtain ⟨hword, hapart⟩ := h.mayFault.outside hplain
  refine ⟨k, hk, h.ready, ?_, hword, hapart, ?_, ?_⟩
  · obtain ⟨k', htrap, hready, hcr3, hpop, htranslate⟩ :=
      h.enters { normalRegs with esp := exstk + 56 } (by rw [NoRoom]; decide)
    refine ⟨k', ⟨htrap, ?_⟩, ?_⟩
    · have hclear : (normalRegs.eflags ||| flRf) &&& flAc = 0 := by decide
      rw [hpop, hcr3]
      apply Program.runBlock_upcallEntry_error
      exact Program.store_of_untranslated (.inl hclear) ((htranslate _).trans h.translate_below) _
    · apply hready.overflow (by decide) rfl rfl
      rw [hpop, NoRoom]
      decide
  · obtain ⟨k', htrap, hready, hcr3, hpop, htranslate⟩ :=
      h.enters { normalRegs with eflags := normalRegs.eflags ||| flTf } hroom
    refine ⟨k', htrap, ?_⟩
    have hargs : OnStack (utfAddress normalRegs.esp - 4) 4 := by
      rw [OnStack]
      decide
    have hpage : StackPage k'.memory 1 4 :=
      fun va hva ↦ (htranslate va).trans (h.translate_exception hva)
    have hsealed := hready.isSealed
    have hclear : (normalRegs.eflags ||| flTf ||| flRf) &&& flAc = 0 := by decide
    rw [hcr3] at hsealed
    obtain ⟨m', hpush, -⟩ := @Program.exec_pushl 1 ⟨⟨normalRegs.regs, 0xeebfd001,
      normalRegs.eflags ||| flTf ||| flRf, utfAddress normalRegs.esp⟩, k'.memory⟩ hsealed
      (.inl hclear) (hpage.writable hargs) .esp
    rw [hpop, hcr3]
    exact Program.runBlock_cons_error (Program.step_of_traced (by decide) hpush)
  · obtain ⟨k', htrap, -, -, hpop, -⟩ :=
      h.enters { normalRegs with eflags := normalRegs.eflags ||| flAc } hroom
    refine ⟨k', htrap, ?_⟩
    have hset : (normalRegs.eflags ||| flAc ||| flRf) &&& flAc ≠ 0 := by decide
    have hframe : (utfAddress normalRegs.esp - 4).toNat % 4 ≠ 0 := by decide
    rw [hpop]
    apply Program.runBlock_upcallEntry_error
    exact if_pos ⟨hset, hframe⟩

end SistemasOperativos.Jos
