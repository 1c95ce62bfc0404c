import Mathlib.Logic.Relation
import SistemasOperativos.Jos.Machine
import SistemasOperativos.Library.Exclusion

/-!
# The big kernel lock

The machine of the other modules takes whole sections of the kernel as its steps. Here the CPUs are at
single instructions: a trap exchanges the status of its CPU, and takes the lock once where it comes from
user mode and once where it wakes a halted CPU; `spin_lock` and `spin_unlock` are the reads and writes of
the lock that they make; and the code between them is any that does, where it runs alone, what the
section does. The lock keeps the CPUs apart.
-/

namespace SistemasOperativos.Jos

open Library

variable {n : ℕ} {s : Scheduler} {c c' : Fin n}

/-! ## The lock -/

/-- `struct spinlock`, without the members that are only printed. -/
structure Spinlock (n : ℕ) where
  locked : Word
  cpu : Option (Fin n)
deriving DecidableEq

/-- The next access to the lock: the two reads of `holding`, the atomic exchange, or the write of the
owner. -/
inductive SpinPoint where
  | locked
  | cpu
  | xchg
  | record
deriving DecidableEq

inductive SpinNext where
  | goes (p : SpinPoint)
  | returns
  | panics
deriving DecidableEq

def spinLock (c : Fin n) (lk : Spinlock n) : SpinPoint → Spinlock n × SpinNext
  | .locked => (lk, .goes (if lk.locked ≠ 0 then .cpu else .xchg))
  | .cpu => (lk, if lk.cpu = some c then .panics else .goes .xchg)
  | .xchg => ({ lk with locked := 1 }, .goes (if lk.locked ≠ 0 then .xchg else .record))
  | .record => ({ lk with cpu := some c }, .returns)

def spinUnlock (c : Fin n) (lk : Spinlock n) : SpinPoint → Spinlock n × SpinNext
  | .locked => (lk, if lk.locked ≠ 0 then .goes .cpu else .panics)
  | .cpu => (lk, if lk.cpu = some c then .goes .record else .panics)
  | .record => ({ lk with cpu := none }, .goes .xchg)
  | .xchg => ({ lk with locked := 0 }, .returns)

/-! ## The CPUs -/

/-- What a CPU does outside the kernel: it has not been started, it runs a program, or it waits in
`hlt`. -/
inductive Mode where
  | off
  | user
  | halted
deriving DecidableEq

def Mode.status : Mode → CpuStatus
  | .off => .unused
  | .user => .started
  | .halted => .halted

theorem Mode.status_injective {mode mode' : Mode} (h : mode.status = mode'.status) :
    mode = mode' := by
  cases mode <;> cases mode' <;> first | rfl | cases h

/-- The ways into the kernel. -/
inductive Arrives (c : Fin n) : Mode → Event n → Prop where
  | start : Arrives c .off (.start c)
  | trap {tf : Trapframe} {faultVa : Word} {inp : Input} (user : tf.tfCs &&& 3 = 3) :
      Arrives c .user (.trap c tf faultVa inp)
  | interrupt {tf : Trapframe} {faultVa : Word} {inp : Input} (kernel : tf.tfCs = gdKt)
      (irq : Interrupt tf.tfTrapno) : Arrives c .halted (.trap c tf faultVa inp)

def Event.mode : Event n → Mode
  | .start _ => .off
  | .trap _ tf _ _ => if tf.tfCs &&& 3 = 3 then .user else .halted
  | .create .. | .store .. => .user

/-- The events before the first CPU calls the scheduler. -/
def Event.Booting : Event n → Prop
  | .create .. => True
  | _ => False

theorem Arrives.not_booting {mode : Mode} {ev : Event n} (h : Arrives c mode ev) : ¬ ev.Booting := by
  cases h <;> exact id

theorem Arrives.mode_eq {mode : Mode} {ev : Event n} (h : Arrives c mode ev) : ev.mode = mode := by
  cases h with
  | start => rfl
  | trap user => exact if_pos user
  | interrupt kernel _ =>
    refine if_neg ?_
    rw [kernel]
    decide

theorem Arrives.enabled {mode : Mode} {ev : Event n} {k : Kernel n} (h : Arrives c mode ev)
    (hstatus : (k.cpus c).cpuStatus = mode.status) : k.Enabled ev := by
  cases h with
  | start => exact hstatus
  | trap user => exact .inl ⟨hstatus, user⟩
  | interrupt kernel irq => exact .inr ⟨hstatus, kernel, irq⟩

/-- The instructions of the kernel between `lock_kernel` and `unlock_kernel`, with the state `Local` of
the CPU that executes them. Where nothing comes between them, they are the section. -/
structure Code (s : Scheduler) (n : ℕ) where
  Local : Type
  start : Event n → Local
  step : Fin n → Local × Kernel n → Local × Kernel n → Prop
  /-- `env_run` and `sched_halt` end the section. -/
  ends : Local → Option Mode
  section_of_steps : ∀ {c : Fin n} {mode mode' : Mode} {ev : Event n} {l : Local} {k k' : Kernel n},
    Arrives c mode ev → (k.cpus c).cpuStatus = mode.status →
      Relation.ReflTransGen (step c) (start ev, k) (l, k') → ends l = some mode' →
        k.Step s ev k' ∧ (k'.cpus c).cpuStatus = mode'.status
  steps_of_section : ∀ {c : Fin n} {mode : Mode} {ev : Event n} {k k' : Kernel n},
    Arrives c mode ev → k.Step s ev k' → ∃ l mode',
      Relation.ReflTransGen (step c) (start ev, k) (l, k') ∧ ends l = some mode' ∧ mode' ≠ .off

/-- Where a CPU is. -/
inductive Point (n : ℕ) (τ : Type) where
  | out (mode : Mode)
  | entered (ev : Event n)
  /-- In `spin_lock`, called by `mp_main`, or by `trap` on a CPU that was halted. -/
  | waking (ev : Event n) (p : SpinPoint)
  | awake (ev : Event n)
  /-- In `spin_lock`, called by `trap` for a trap from user mode. -/
  | locking (ev : Event n) (p : SpinPoint)
  | inside (ev : Event n) (l : τ)
  | unlocking (mode : Mode) (p : SpinPoint)
  | panicked

def SpinNext.point {τ : Type} (here : SpinPoint → Point n τ) (next : Point n τ) :
    SpinNext → Point n τ
  | .goes p => here p
  | .returns => next
  | .panics => .panicked

/-- After `xchg(&thiscpu->cpu_status, CPU_STARTED)`. -/
def afterXchg {τ : Type} (old : CpuStatus) : Event n → Point n τ
  | .trap c tf faultVa inp =>
    if old = .halted then .waking (.trap c tf faultVa inp) .locked
    else .awake (.trap c tf faultVa inp)
  | ev => .waking ev .locked

/-- The test of `trap` for user mode; `mp_main` makes none. -/
def Code.afterWake (code : Code s n) : Event n → Point n code.Local
  | .trap c tf faultVa inp =>
    if tf.tfCs &&& 3 = 3 then .locking (.trap c tf faultVa inp) .locked
    else .inside (.trap c tf faultVa inp) (code.start (.trap c tf faultVa inp))
  | ev => .inside ev (code.start ev)

theorem Arrives.afterXchg {τ : Type} {mode : Mode} {ev : Event n} (h : Arrives c mode ev) :
    (afterXchg mode.status ev : Point n τ) = if mode = .user then .awake ev else .waking ev .locked := by
  cases h with
  | start => rfl
  | trap user => rfl
  | interrupt kernel irq => rfl

theorem Arrives.afterWake {code : Code s n} {mode : Mode} {ev : Event n} (h : Arrives c mode ev) :
    code.afterWake ev = if mode = .user then .locking ev .locked else .inside ev (code.start ev) := by
  cases h with
  | start => rfl
  | trap user => exact if_pos user
  | interrupt kernel irq =>
    refine if_neg ?_
    rw [kernel]
    decide

/-- The machine at its single instructions. -/
structure Smp (n : ℕ) (τ : Type) where
  kernel : Kernel n
  lock : Spinlock n
  cpuStatus : Fin n → CpuStatus
  point : Fin n → Point n τ

namespace Smp

variable {τ : Type}

def moved (m : Smp n τ) (c : Fin n) (p : Point n τ) : Smp n τ :=
  { m with point := Function.update m.point c p }

/-- The CPU `c` executes an instruction. A program writes to its memory between the sections. -/
inductive Step (code : Code s n) (m : Smp n code.Local) : Fin n → Smp n code.Local → Prop where
  | arrives {c : Fin n} {mode : Mode} {ev : Event n} (out : m.point c = .out mode)
      (arrives : Arrives c mode ev) : Step code m c (m.moved c (.entered ev))
  | exchanges {c : Fin n} {ev : Event n} (entered : m.point c = .entered ev) :
      Step code m c ({ m with cpuStatus := Function.update m.cpuStatus c .started }.moved c
        (afterXchg (m.cpuStatus c) ev))
  | wakes {c : Fin n} {ev : Event n} {p : SpinPoint} (waking : m.point c = .waking ev p) :
      Step code m c ({ m with lock := (spinLock c m.lock p).1 }.moved c
        ((spinLock c m.lock p).2.point (.waking ev) (.awake ev)))
  | tests {c : Fin n} {ev : Event n} (awake : m.point c = .awake ev) :
      Step code m c (m.moved c (code.afterWake ev))
  | locks {c : Fin n} {ev : Event n} {p : SpinPoint} (locking : m.point c = .locking ev p) :
      Step code m c ({ m with lock := (spinLock c m.lock p).1 }.moved c
        ((spinLock c m.lock p).2.point (.locking ev) (.inside ev (code.start ev))))
  | works {c : Fin n} {ev : Event n} {l l' : code.Local} {kernel : Kernel n}
      (inside : m.point c = .inside ev l) (step : code.step c (l, m.kernel) (l', kernel)) :
      Step code m c ({ m with kernel }.moved c (.inside ev l'))
  | runs {c : Fin n} {ev : Event n} {l : code.Local} (inside : m.point c = .inside ev l)
      (ends : code.ends l = some .user) :
      Step code m c (m.moved c (.unlocking .user .locked))
  /-- `xchg(&thiscpu->cpu_status, CPU_HALTED)` in `sched_halt`. -/
  | halts {c : Fin n} {ev : Event n} {l : code.Local} (inside : m.point c = .inside ev l)
      (ends : code.ends l = some .halted) :
      Step code m c ({ m with cpuStatus := Function.update m.cpuStatus c .halted }.moved c
        (.unlocking .halted .locked))
  | unlocks {c : Fin n} {mode : Mode} {p : SpinPoint} (unlocking : m.point c = .unlocking mode p) :
      Step code m c ({ m with lock := (spinUnlock c m.lock p).1 }.moved c
        ((spinUnlock c m.lock p).2.point (.unlocking mode) (.out mode)))
  | stores {c : Fin n} {va : Word} {b : BitVec 8} {kernel : Kernel n} (out : m.point c = .out .user)
      (between : ∀ c ev l, m.point c ≠ .inside ev l)
      (write : m.kernel.Step s (.store c va b) kernel) : Step code m c { m with kernel }

/-- `mem_init` and `env_init` are over, and the lock is free. -/
def boot (τ : Type) (k : Kernel n) : Smp n τ where
  kernel := k
  lock := ⟨0, none⟩
  cpuStatus _ := .unused
  point _ := .out .off

end Smp

/-! ## Who has the lock -/

namespace Point

variable {τ : Type} {p : Point n τ}

/-- The CPU has exchanged the lock for itself, and not given it back yet. -/
def Holds : Point n τ → Prop
  | .waking _ p | .locking _ p => p = .record
  | .awake ev => ev.mode ≠ .user
  | .inside .. | .unlocking .. => True
  | .out _ | .entered _ | .panicked => False

/-- The lock names the CPU. -/
def Owns : Point n τ → Prop
  | .awake ev => ev.mode ≠ .user
  | .inside .. => True
  | .unlocking _ p => p ≠ .xchg
  | .out _ | .entered _ | .waking .. | .locking .. | .panicked => False

theorem Owns.holds (h : p.Owns) : p.Holds := by
  cases p with
  | awake ev => exact h
  | inside ev l => trivial
  | unlocking mode p => trivial
  | _ => exact h.elim

end Point

/-- At most one CPU has the lock, and the two members of the lock say which. -/
structure Guarded {τ : Type} (lk : Spinlock n) (point : Fin n → Point n τ) : Prop where
  exclusion : Exclusion Point.Holds point (lk.locked ≠ 0)
  cpu : ∀ c, lk.cpu = some c ↔ (point c).Owns

namespace Guarded

variable {τ : Type} {lk : Spinlock n} {point : Fin n → Point n τ} (h : Guarded lk point)

include h in
/-- An instruction that is none of the lock's. -/
theorem move {next : Point n τ} (hholds : next.Holds ↔ (point c).Holds) (howns : next.Owns ↔ (point c).Owns) :
    Guarded lk (Function.update point c next) where
  exclusion := h.exclusion.move hholds
  cpu c' := by
    by_cases hc : c' = c
    · rw [hc, Function.update_self, h.cpu c, howns]
    · rw [Function.update_of_ne hc, h.cpu c']

include h in
theorem not_owns (hpoint : (point c).Holds) (hc : c' ≠ c) : ¬ (point c').Owns :=
  fun howns ↦ hc (h.exclusion.unique c' c howns.holds hpoint)

variable (here : SpinPoint → Point n τ) (next : Point n τ) (p : SpinPoint)

section Locking

variable (hpoint : point c = here p) (hholds : ∀ p, (here p).Holds ↔ p = .record)
  (howns : ∀ p, ¬ (here p).Owns) (hnext : next.Owns)

include h hpoint hholds howns hnext in
/-- `spin_lock` does not find the CPU holding the lock already, and it leaves with the lock. -/
theorem spinLock : (spinLock c lk p).2 ≠ .panics ∧ Guarded (spinLock c lk p).1
    (Function.update point c ((spinLock c lk p).2.point here next)) := by
  have hnone : ¬ (point c).Owns := by
    rw [hpoint]
    exact howns p
  have hstays : ∀ p', p ≠ .record → p' ≠ .record →
      Guarded lk (Function.update point c (here p')) := by
    intro p' hp hp'
    apply h.move
    · rw [hpoint, hholds, hholds]
      exact iff_of_false hp' hp
    · exact iff_of_false (howns p') hnone
  cases p with
  | locked =>
    refine ⟨SpinNext.noConfusion, ?_⟩
    simp only [Jos.spinLock, SpinNext.point]
    split
    · exact hstays .cpu (by decide) (by decide)
    · exact hstays .xchg (by decide) (by decide)
  | cpu =>
    have hother : lk.cpu ≠ some c := fun hcpu ↦ hnone ((h.cpu c).mp hcpu)
    simp only [Jos.spinLock, if_neg hother, SpinNext.point]
    exact ⟨SpinNext.noConfusion, hstays .xchg (by decide) (by decide)⟩
  | xchg =>
    refine ⟨SpinNext.noConfusion, ?_⟩
    simp only [Jos.spinLock, SpinNext.point]
    have hone : (1 : Word) ≠ 0 := by decide
    by_cases htaken : lk.locked ≠ 0
    · rw [if_pos htaken]
      have hsame := hstays .xchg (by decide) (by decide)
      have htrue : lk.locked ≠ 0 ↔ ({ lk with locked := 1 } : Spinlock n).locked ≠ 0 :=
        iff_of_true htaken hone
      exact ⟨⟨hsame.exclusion.unique, htrue.symm.trans hsame.exclusion.flag_iff⟩, hsame.cpu⟩
    · rw [if_neg htaken]
      refine ⟨h.exclusion.enter htaken ((hholds .record).mpr rfl) hone, fun c' ↦ ?_⟩
      by_cases hc : c' = c
      · rw [hc, Function.update_self]
        exact (h.cpu c).trans (iff_of_false hnone (howns .record))
      · rw [Function.update_of_ne hc]
        exact h.cpu c'
  | record =>
    have hin : (point c).Holds := by
      rw [hpoint]
      exact (hholds .record).mpr rfl
    refine ⟨SpinNext.noConfusion, h.exclusion.move (iff_of_true hnext.holds hin), fun c' ↦ ?_⟩
    by_cases hc : c' = c
    · rw [hc, Function.update_self]
      exact iff_of_true rfl hnext
    · rw [Function.update_of_ne hc]
      refine iff_of_false (fun hcpu ↦ hc (Option.some.inj hcpu).symm) (h.not_owns hin hc)

end Locking

section Unlocking

variable (hpoint : point c = here p) (hholds : ∀ p, (here p).Holds)
  (howns : ∀ p, (here p).Owns ↔ p ≠ .xchg) (hnext : ¬ next.Holds)

include h hpoint hholds howns hnext in
/-- `spin_unlock` finds the CPU holding the lock, and leaves without it. -/
theorem spinUnlock : (spinUnlock c lk p).2 ≠ .panics ∧ Guarded (spinUnlock c lk p).1
    (Function.update point c ((spinUnlock c lk p).2.point here next)) := by
  have hin : (point c).Holds := by
    rw [hpoint]
    exact hholds p
  have htaken : lk.locked ≠ 0 := h.exclusion.flag_iff.mpr ⟨c, hin⟩
  have hout : ¬ next.Owns := fun howner ↦ hnext howner.holds
  have hstays : ∀ p', p ≠ .xchg → p' ≠ .xchg → Guarded lk (Function.update point c (here p')) := by
    intro p' hp hp'
    apply h.move (iff_of_true (hholds p') hin)
    rw [hpoint, howns, howns]
    exact iff_of_true hp' hp
  cases p with
  | locked =>
    simp only [Jos.spinUnlock, if_pos htaken, SpinNext.point]
    exact ⟨SpinNext.noConfusion, hstays .cpu (by decide) (by decide)⟩
  | cpu =>
    have hself : lk.cpu = some c := by
      rw [h.cpu c, hpoint, howns]
      decide
    simp only [Jos.spinUnlock, if_pos hself, SpinNext.point]
    exact ⟨SpinNext.noConfusion, hstays .record (by decide) (by decide)⟩
  | record =>
    refine ⟨SpinNext.noConfusion, h.exclusion.move (iff_of_true (hholds .xchg) hin), fun c' ↦ ?_⟩
    refine iff_of_false (fun hcpu ↦ nomatch hcpu) ?_
    by_cases hc : c' = c
    · rw [hc, Function.update_self]
      exact fun howner ↦ (howns .xchg).mp howner rfl
    · rw [Function.update_of_ne hc]
      exact h.not_owns hin hc
  | xchg =>
    refine ⟨SpinNext.noConfusion, h.exclusion.leave hin hnext fun hzero ↦ hzero rfl, fun c' ↦ ?_⟩
    by_cases hc : c' = c
    · rw [hc, Function.update_self]
      refine (h.cpu c).trans (iff_of_false ?_ hout)
      rw [hpoint, howns]
      exact fun hne ↦ hne rfl
    · rw [Function.update_of_ne hc]
      exact h.cpu c'

end Unlocking

end Guarded

end SistemasOperativos.Jos
