import SistemasOperativos.Jos.BigLock
import SistemasOperativos.Jos.PageAccounting

/-!
# Sections one after the other

The instructions of the CPUs, interleaved in any way, and the machine that takes whole sections as its
steps go through the same states of the kernel: what is between `lock_kernel` and `unlock_kernel` runs
alone, so it does what the section does, and a run of sections can be played instruction by instruction.
-/

namespace SistemasOperativos.Jos

open Library

variable {n : ℕ} {s : Scheduler} {c c' : Fin n}

/-! ## The order of the sections -/

namespace Point

variable {τ : Type}

/-- The event is one that the CPU has, and the path through `trap` is the one for it. -/
def Fits (c : Fin n) : Point n τ → Prop
  | .out _ | .unlocking .. => True
  | .entered ev | .awake ev | .inside ev _ => Arrives c ev.mode ev
  | .waking ev _ => Arrives c ev.mode ev ∧ ev.mode ≠ .user
  | .locking ev _ => Arrives c ev.mode ev ∧ ev.mode = .user
  | .panicked => False

/-- What `cpu_status` is. -/
def status : Point n τ → CpuStatus
  | .out mode | .unlocking mode _ => mode.status
  | .entered ev => ev.mode.status
  | .waking .. | .awake _ | .locking .. | .inside .. | .panicked => .started

/-- What `cpu_status` was at the end of the last section, or is now if the CPU has finished its own. -/
def shown : Point n τ → CpuStatus
  | .out mode | .unlocking mode _ => mode.status
  | .entered ev | .waking ev _ | .awake ev | .locking ev _ | .inside ev _ => ev.mode.status
  | .panicked => .started

/-- The CPU is not between `lock_kernel` and `unlock_kernel`. -/
def Outside : Point n τ → Prop
  | .inside .. => False
  | _ => True

theorem Outside.ne {p : Point n τ} (h : p.Outside) (ev : Event n) (l : τ) : p ≠ .inside ev l := by
  rintro rfl
  exact h

end Point

/-- A section leaves its CPU in user mode or halted, and the other CPUs as they are. -/
theorem Kernel.Step.arrived {ev : Event n} {k k' : Kernel n} {mode : Mode} (h : k.Step s ev k')
    (harrives : Arrives c mode ev) :
    (∃ mode' ≠ .off, (k'.cpus c).cpuStatus = Mode.status mode') ∧
      ∀ c' ≠ c, k'.cpus c' = k.cpus c' := by
  obtain ⟨acts, next, hsection⟩ := h.section
  have hinside : ∀ {call : Option Call} {k₁ k₂ k₃ : Kernel n}, k.Enters ev c k₁ call →
      Actions c (Permitted k₁ c call) k₁ acts k₂ → Loses c k₂ acts k₃ →
      Exit s (k.Proper c) c k₃ next k' → (∃ mode' ≠ .off, (k'.cpus c).cpuStatus = Mode.status mode') ∧
        ∀ c' ≠ c, k'.cpus c' = k.cpus c' := by
    intro call k₁ k₂ k₃ henters hrun hloses hexit
    constructor
    · have hmode := hexit.cpuStatus (hloses.userMode (Kernel.Actions.userMode hrun henters.userMode))
      by_cases hnext : next = none
      · rw [if_pos hnext] at hmode
        exact ⟨.halted, by decide, hmode⟩
      · rw [if_neg hnext] at hmode
        exact ⟨.user, by decide, hmode⟩
    · intro c' hc
      rw [hexit.cpus_of_ne hc, Loses.cpus_of_ne hloses hc, Actions.cpus_of_ne hrun hc,
        henters.cpus_of_ne hc]
  cases harrives with
  | start =>
    cases hsection with
    | inside enters run loses exit =>
      cases enters with
      | first unused => exact hinside (.first unused) run loses exit
  | trap user =>
    cases hsection with
    | inside enters run loses exit =>
      cases enters with
      | user mode current alive => exact hinside (.user mode current alive) run loses exit
      | zombie mode current dying => exact hinside (.zombie mode current dying) run loses exit
      | interrupt halted => exact hinside (.interrupt halted) run loses exit
  | interrupt kernel irq =>
    cases hsection with
    | inside enters run loses exit =>
      cases enters with
      | user mode current alive => exact hinside (.user mode current alive) run loses exit
      | zombie mode current dying => exact hinside (.zombie mode current dying) run loses exit
      | interrupt halted => exact hinside (.interrupt halted) run loses exit

theorem Kernel.Step.store_cpus {k k' : Kernel n} {va : Word} {b : BitVec 8}
    (h : k.Step s (.store c va b) k') : k'.cpus = k.cpus := by
  obtain ⟨acts, next, hsection⟩ := h.section
  cases hsection with
  | inside enters run loses exit => cases enters
  | store mode write => rfl

namespace Smp

variable {code : Code s n} {k₀ k k' : Kernel n} {m m' : Smp n code.Local}

/-- The kernel was in the state `k` after the last section that is over. -/
structure Since (code : Code s n) (k : Kernel n) (m : Smp n code.Local) : Prop where
  status : ∀ c, (k.cpus c).cpuStatus = (m.point c).shown
  inside : ∀ c ev l, m.point c = .inside ev l →
    Relation.ReflTransGen (code.step c) (code.start ev, k) (l, m.kernel)
  between : (∀ c ev l, m.point c ≠ .inside ev l) → m.kernel = k

namespace Since

variable {p : Point n code.Local} (h : Since code k m)

include h in
theorem move (hkernel : m'.kernel = m.kernel) (hpoint : m'.point = Function.update m.point c p)
    (hshown : p.shown = (m.point c).shown) (hout : ∀ ev l, m.point c ≠ .inside ev l)
    (hp : ∀ ev l, p ≠ .inside ev l) : Since code k m' := by
  have hinside : ∀ c' ev l, m'.point c' = .inside ev l ↔ m.point c' = .inside ev l := by
    intro c' ev l
    rw [hpoint]
    by_cases hc : c' = c
    · rw [hc, Function.update_self]
      exact iff_of_false (hp ev l) (hout ev l)
    · rw [Function.update_of_ne hc]
  refine ⟨fun c' ↦ ?_, fun c' ev l hin ↦ ?_, fun hnone ↦ ?_⟩
  · rw [h.status c', hpoint]
    by_cases hc : c' = c
    · rw [hc, Function.update_self, hshown]
    · rw [Function.update_of_ne hc]
  · rw [hkernel]
    exact h.inside c' ev l ((hinside c' ev l).mp hin)
  · rw [hkernel]
    exact h.between fun c' ev l hin ↦ hnone c' ev l ((hinside c' ev l).mpr hin)

section Inside

variable {ev : Event n} {l : code.Local} (hguarded : Guarded m.lock m.point)

include hguarded in
/-- While a CPU has the lock no other one is inside. -/
theorem alone (hin : (m.point c).Holds) (hc : c' ≠ c) : m.point c' ≠ .inside ev l := by
  intro hother
  refine hc (hguarded.exclusion.unique c' c ?_ hin)
  rw [hother]
  trivial

include h in
/-- The CPU comes in. -/
theorem enter (hpoint : m'.point = Function.update m.point c (.inside ev (code.start ev)))
    (hkernel : m'.kernel = m.kernel) (hshown : (m.point c).shown = ev.mode.status)
    (hnone : ∀ c' ev l, m.point c' ≠ .inside ev l) : Since code k m' := by
  have hinside : m'.point c = .inside ev (code.start ev) := by rw [hpoint, Function.update_self]
  refine ⟨fun c' ↦ ?_, fun c' ev' l hin ↦ ?_, fun hout ↦ absurd hinside (hout c ev _)⟩
  · rw [h.status c', hpoint]
    by_cases hc : c' = c
    · rw [hc, Function.update_self]
      exact hshown
    · rw [Function.update_of_ne hc]
  · rw [hpoint] at hin
    by_cases hc : c' = c
    · rw [hc, Function.update_self] at hin
      cases hin
      rw [hkernel, h.between hnone]
    · rw [Function.update_of_ne hc] at hin
      exact absurd hin (hnone c' ev' l)

include h hguarded in
/-- The CPU goes on inside. -/
theorem work {l' : code.Local} {kernel : Kernel n} (hin : m.point c = .inside ev l)
    (hstep : code.step c (l, m.kernel) (l', kernel)) :
    Since code k ({ m with kernel }.moved c (.inside ev l')) := by
  have hholds : (m.point c).Holds := by
    rw [hin]
    trivial
  refine ⟨fun c' ↦ ?_, fun c' ev' l₁ hin' ↦ ?_, fun hout ↦ ?_⟩
  · change _ = (Function.update m.point c _ c').shown
    rw [h.status c']
    by_cases hc : c' = c
    · rw [hc, Function.update_self, hin]
      rfl
    · rw [Function.update_of_ne hc]
  · change Function.update m.point c _ c' = _ at hin'
    by_cases hc : c' = c
    · rw [hc, Function.update_self] at hin'
      cases hin'
      rw [hc]
      exact (h.inside c ev l hin).tail hstep
    · rw [Function.update_of_ne hc] at hin'
      exact absurd hin' (alone hguarded hholds hc)
  · exact absurd (Function.update_self c _ m.point) (hout c ev l')

include h hguarded in
/-- The section of the CPU is over. -/
theorem leave {mode : Mode} (hin : m.point c = .inside ev l) (harrives : Arrives c ev.mode ev)
    (hends : code.ends l = some mode) (hkernel : m'.kernel = m.kernel)
    (hpoint : m'.point = Function.update m.point c (.unlocking mode .locked)) :
    k.Step s ev m.kernel ∧ Since code m.kernel m' := by
  have hholds : (m.point c).Holds := by
    rw [hin]
    trivial
  have hmode : (k.cpus c).cpuStatus = ev.mode.status := by
    rw [h.status c, hin]
    rfl
  obtain ⟨hstep, hafter⟩ := code.section_of_steps harrives hmode (h.inside c ev l hin) hends
  refine ⟨hstep, fun c' ↦ ?_, fun c' ev' l' hin' ↦ ?_, fun _ ↦ hkernel⟩
  · rw [hpoint]
    by_cases hc : c' = c
    · rw [hc, Function.update_self]
      exact hafter
    · rw [Function.update_of_ne hc, (hstep.arrived harrives).2 c' hc, h.status c']
  · rw [hpoint] at hin'
    by_cases hc : c' = c
    · rw [hc, Function.update_self] at hin'
      cases hin'
    · rw [Function.update_of_ne hc] at hin'
      exact absurd hin' (alone hguarded hholds hc)

end Inside

end Since

/-- After any interleaving. -/
structure Ordered (code : Code s n) (k₀ : Kernel n) (m : Smp n code.Local) : Prop where
  guarded : Guarded m.lock m.point
  fits : ∀ c, (m.point c).Fits c
  status : ∀ c, m.cpuStatus c = (m.point c).status
  sections : ∃ evs k, (∀ ev ∈ evs, ¬ ev.Booting) ∧ Run (Kernel.Step s) k₀ evs k ∧ Since code k m

theorem boot_ordered (hunused : ∀ c, (k₀.cpus c).cpuStatus = .unused) :
    Ordered code k₀ (boot code.Local k₀) where
  guarded := by
    refine ⟨⟨fun _ _ hin _ ↦ hin.elim, iff_of_false (fun hne ↦ hne rfl) ?_⟩, fun c ↦ ?_⟩
    · exact fun ⟨c, hin⟩ ↦ hin
    · exact iff_of_false (fun hcpu ↦ nomatch hcpu) fun howner ↦ howner
  fits c := trivial
  status c := rfl
  sections := by
    refine ⟨[], k₀, fun _ hev ↦ absurd hev List.not_mem_nil, .nil k₀, hunused,
      fun c ev l hin ↦ ?_, fun _ ↦ rfl⟩
    cases hin

namespace Ordered

variable {p : Point n code.Local} {lk : Spinlock n} {status : Fin n → CpuStatus}
  (h : Ordered code k₀ m)

theorem fits_update (hfits : ∀ c, (m.point c).Fits c) (hp : p.Fits c) (c' : Fin n) :
    (Function.update m.point c p c').Fits c' := by
  by_cases hc : c' = c
  · rw [hc, Function.update_self]
    exact hp
  · rw [Function.update_of_ne hc]
    exact hfits c'

theorem status_update (hstatus : ∀ c, m.cpuStatus c = (m.point c).status)
    (hsame : p.status = (m.point c).status) (c' : Fin n) :
    m.cpuStatus c' = (Function.update m.point c p c').status := by
  rw [hstatus c']
  by_cases hc : c' = c
  · rw [hc, Function.update_self, hsame]
  · rw [Function.update_of_ne hc]

theorem status_exchange {status : CpuStatus} (hstatus : ∀ c, m.cpuStatus c = (m.point c).status)
    (hp : p.status = status) (c' : Fin n) : Function.update m.cpuStatus c status c' =
      (Function.update m.point c p c').status := by
  by_cases hc : c' = c
  · rw [hc, Function.update_self, Function.update_self, hp]
  · rw [Function.update_of_ne hc, Function.update_of_ne hc, hstatus c']

include h in
/-- An instruction outside a section. -/
theorem quiet (hguarded : Guarded lk (Function.update m.point c p)) (hfits : p.Fits c)
    (hstatus : ∀ c', status c' = (Function.update m.point c p c').status)
    (hshown : p.shown = (m.point c).shown) (hout : ∀ ev l, m.point c ≠ .inside ev l)
    (hp : ∀ ev l, p ≠ .inside ev l) :
    Ordered code k₀ ({ m with lock := lk, cpuStatus := status }.moved c p) := by
  obtain ⟨evs, k, hevs, hrun, hsince⟩ := h.sections
  exact ⟨hguarded, fits_update h.fits hfits, hstatus, evs, k, hevs, hrun,
    hsince.move rfl rfl hshown hout hp⟩

include h in
/-- The CPU comes in. -/
theorem enter {ev : Event n}
    (hguarded : Guarded lk (Function.update m.point c (.inside ev (code.start ev))))
    (harrives : Arrives c ev.mode ev)
    (hstatus : ∀ c', status c' =
      (Function.update m.point c (.inside ev (code.start ev)) c').status)
    (hshown : (m.point c).shown = ev.mode.status) (hnone : ∀ c' ev l, m.point c' ≠ .inside ev l) :
    Ordered code k₀
      ({ m with lock := lk, cpuStatus := status }.moved c (.inside ev (code.start ev))) := by
  obtain ⟨evs, k, hevs, hrun, hsince⟩ := h.sections
  exact ⟨hguarded, fits_update (p := .inside ev (code.start ev)) h.fits harrives, hstatus, evs, k,
    hevs, hrun, hsince.enter rfl rfl hshown hnone⟩

theorem not_booting_append {evs : List (Event n)} {ev : Event n} (hevs : ∀ ev ∈ evs, ¬ ev.Booting)
    (hev : ¬ ev.Booting) : ∀ ev' ∈ evs ++ [ev], ¬ ev'.Booting := by
  intro ev' hmem
  obtain hmem | hmem := List.mem_append.mp hmem
  · exact hevs ev' hmem
  · rw [List.mem_singleton.mp hmem]
    exact hev

include h in
/-- The section of the CPU is over. -/
theorem leave {ev : Event n} {l : code.Local} {mode : Mode} (hin : m.point c = .inside ev l)
    (hends : code.ends l = some mode)
    (hstatus : ∀ c', status c' = (Function.update m.point c (.unlocking mode .locked) c').status) :
    Ordered code k₀ ({ m with cpuStatus := status }.moved c (.unlocking mode .locked)) := by
  obtain ⟨evs, k, hevs, hrun, hsince⟩ := h.sections
  have harrives : Arrives c ev.mode ev := by
    have hfits := h.fits c
    rw [hin] at hfits
    exact hfits
  obtain ⟨hstep, hleft⟩ : k.Step _ ev m.kernel ∧
      Since code m.kernel ({ m with cpuStatus := status }.moved c (.unlocking mode .locked)) :=
    hsince.leave h.guarded hin harrives hends rfl rfl
  refine ⟨?_, fits_update (p := .unlocking mode .locked) h.fits trivial, hstatus, evs ++ [ev],
    m.kernel, not_booting_append hevs harrives.not_booting, hrun.append (.single hstep), hleft⟩
  apply h.guarded.move
  · rw [hin]
    exact Iff.rfl
  · rw [hin]
    exact iff_of_true SpinPoint.noConfusion trivial

include h in
/-- An instruction of `spin_lock`, or of `spin_unlock`, of which `here` are the points. -/
theorem spin {here : SpinPoint → Point n code.Local} {q : SpinPoint} {next : SpinNext}
    {after : Point n code.Local}
    (hguarded : Guarded lk (Function.update m.point c (next.point here after)))
    (hsafe : next ≠ .panics) (hhere : m.point c = here q) (hfits : ∀ q, (here q).Fits c)
    (hafter : after.Fits c)
    (hstatus : ∀ p', p' = after ∨ (∃ q, p' = here q) → p'.status = (here q).status)
    (hshown : ∀ p', p' = after ∨ (∃ q, p' = here q) → p'.shown = (here q).shown)
    (hout : ∀ q ev l, here q ≠ .inside ev l) (hstays : ∀ ev l, after ≠ .inside ev l) :
    Ordered code k₀ ({ m with lock := lk }.moved c (next.point here after)) := by
  have hnext : next.point here after = after ∨ ∃ q, next.point here after = here q := by
    cases next with
    | goes q => exact .inr ⟨q, rfl⟩
    | returns => exact .inl rfl
    | panics => exact absurd rfl hsafe
  apply h.quiet hguarded
  · obtain heq | ⟨q', heq⟩ := hnext
    · rw [heq]
      exact hafter
    · rw [heq]
      exact hfits q'
  · apply status_update h.status
    rw [hstatus _ hnext, hhere]
  · rw [hshown _ hnext, hhere]
  · intro ev l
    rw [hhere]
    exact hout q ev l
  · intro ev l
    obtain heq | ⟨q', heq⟩ := hnext
    · rw [heq]
      exact hstays ev l
    · rw [heq]
      exact hout q' ev l

section Instructions

variable {mode : Mode} {ev : Event n} {q : SpinPoint} {l l' : code.Local} {kernel : Kernel n}

include h in
theorem arrives (hout : m.point c = .out mode) (harrives : Arrives c mode ev) :
    Ordered code k₀ (m.moved c (.entered ev)) := by
  obtain rfl := harrives.mode_eq
  have hstatus : (Point.entered ev : Point n code.Local).status = (m.point c).status := by
    rw [hout]
    rfl
  apply h.quiet
  · apply h.guarded.move
    · rw [hout]
      exact Iff.rfl
    · rw [hout]
      exact Iff.rfl
  · exact harrives
  · exact status_update h.status hstatus
  · rw [hout]
    rfl
  · rw [hout]
    exact Point.Outside.ne trivial
  · exact Point.Outside.ne trivial

include h in
theorem exchanges (hentered : m.point c = .entered ev) :
    Ordered code k₀ ({ m with cpuStatus := Function.update m.cpuStatus c .started }.moved c
      (afterXchg (m.cpuStatus c) ev)) := by
  have hold : m.cpuStatus c = ev.mode.status := by
    rw [h.status c, hentered]
    rfl
  have hfits := h.fits c
  rw [hentered] at hfits
  rw [hold, Arrives.afterXchg hfits]
  by_cases hmode : ev.mode = .user
  · rw [if_pos hmode]
    apply h.quiet
    · apply h.guarded.move
      · rw [hentered]
        exact iff_of_false (fun hne ↦ hne hmode) id
      · rw [hentered]
        exact iff_of_false (fun hne ↦ hne hmode) id
    · exact hfits
    · exact status_exchange h.status rfl
    · rw [hentered]
      rfl
    · rw [hentered]
      exact Point.Outside.ne trivial
    · exact Point.Outside.ne trivial
  · rw [if_neg hmode]
    apply h.quiet
    · apply h.guarded.move
      · rw [hentered]
        exact iff_of_false SpinPoint.noConfusion id
      · rw [hentered]
        exact Iff.rfl
    · exact ⟨hfits, hmode⟩
    · exact status_exchange h.status rfl
    · rw [hentered]
      rfl
    · rw [hentered]
      exact Point.Outside.ne trivial
    · exact Point.Outside.ne trivial

include h in
theorem wakes (hwaking : m.point c = .waking ev q) :
    Ordered code k₀ ({ m with lock := (spinLock c m.lock q).1 }.moved c
      ((spinLock c m.lock q).2.point (.waking ev) (.awake ev))) := by
  have hfits := h.fits c
  rw [hwaking] at hfits
  obtain ⟨hsafe, hguarded⟩ := h.guarded.spinLock (.waking ev) (.awake ev) q hwaking
    (fun _ ↦ Iff.rfl) (fun _ howner ↦ howner) hfits.2
  apply h.spin hguarded hsafe hwaking
  · exact fun _ ↦ hfits
  · exact hfits.1
  · rintro p' (rfl | ⟨q', rfl⟩)
    · rfl
    · rfl
  · rintro p' (rfl | ⟨q', rfl⟩)
    · rfl
    · rfl
  · exact fun _ ↦ Point.Outside.ne trivial
  · exact Point.Outside.ne trivial

include h in
/-- Nobody is inside when a CPU that has the lock comes in. -/
theorem none_inside (hholds : (m.point c).Holds) (hout : ∀ ev l, m.point c ≠ .inside ev l) :
    ∀ c' ev l, m.point c' ≠ .inside ev l := by
  intro c' ev l
  by_cases hc : c' = c
  · rw [hc]
    exact hout ev l
  · exact Since.alone h.guarded hholds hc

include h in
theorem tests (hawake : m.point c = .awake ev) : Ordered code k₀ (m.moved c (code.afterWake ev)) := by
  have hfits := h.fits c
  rw [hawake] at hfits
  rw [Arrives.afterWake hfits]
  by_cases hmode : ev.mode = .user
  · rw [if_pos hmode]
    apply h.quiet
    · apply h.guarded.move
      · rw [hawake]
        exact iff_of_false SpinPoint.noConfusion fun hne ↦ hne hmode
      · rw [hawake]
        exact iff_of_false id fun hne ↦ hne hmode
    · exact ⟨hfits, hmode⟩
    · apply status_update h.status
      rw [hawake]
      rfl
    · rw [hawake]
      rfl
    · rw [hawake]
      exact Point.Outside.ne trivial
    · exact Point.Outside.ne trivial
  · rw [if_neg hmode]
    have hholds : (m.point c).Holds := by
      rw [hawake]
      exact hmode
    apply h.enter
    · apply h.guarded.move
      · exact iff_of_true trivial hholds
      · rw [hawake]
        exact iff_of_true trivial hmode
    · exact hfits
    · apply status_update h.status
      rw [hawake]
      rfl
    · rw [hawake]
      rfl
    · apply h.none_inside hholds
      rw [hawake]
      exact Point.Outside.ne trivial

include h in
theorem locks (hlocking : m.point c = .locking ev q) :
    Ordered code k₀ ({ m with lock := (spinLock c m.lock q).1 }.moved c
      ((spinLock c m.lock q).2.point (.locking ev) (.inside ev (code.start ev)))) := by
  have hfits := h.fits c
  rw [hlocking] at hfits
  obtain ⟨hsafe, hguarded⟩ := h.guarded.spinLock (.locking ev) (.inside ev (code.start ev)) q
    hlocking (fun _ ↦ Iff.rfl) (fun _ howner ↦ howner) trivial
  by_cases hrecord : q = .record
  · -- The last instruction of `spin_lock`.
    obtain rfl := hrecord
    apply h.enter hguarded hfits.1
    · apply status_update h.status
      rw [hlocking]
      rfl
    · rw [hlocking]
      rfl
    · apply h.none_inside (c := c)
      · rw [hlocking]
        rfl
      · rw [hlocking]
        exact Point.Outside.ne trivial
  · have hgoes : ∀ next : Point n code.Local, (spinLock c m.lock q).2.point (.locking ev) next =
        (spinLock c m.lock q).2.point (.locking ev) (.locking ev .locked) := by
      intro next
      cases q with
      | record => exact absurd rfl hrecord
      | cpu =>
        simp only [spinLock]
        split
        · rfl
        · rfl
      | locked => rfl
      | xchg => rfl
    rw [hgoes] at hguarded ⊢
    apply h.spin hguarded hsafe hlocking
    · exact fun _ ↦ hfits
    · exact hfits
    · rintro p' (rfl | ⟨q', rfl⟩)
      · rfl
      · rfl
    · rintro p' (rfl | ⟨q', rfl⟩)
      · rfl
      · rfl
    · exact fun _ ↦ Point.Outside.ne trivial
    · exact Point.Outside.ne trivial

include h in
theorem works (hin : m.point c = .inside ev l) (hstep : code.step c (l, m.kernel) (l', kernel)) :
    Ordered code k₀ ({ m with kernel }.moved c (.inside ev l')) := by
  obtain ⟨evs, k, hevs, hrun, hsince⟩ := h.sections
  have hfits := h.fits c
  rw [hin] at hfits
  refine ⟨?_, fits_update (p := .inside ev l') h.fits hfits, ?_, evs, k, hevs, hrun,
    hsince.work h.guarded hin hstep⟩
  · apply h.guarded.move
    · rw [hin]
      exact Iff.rfl
    · rw [hin]
      exact Iff.rfl
  · apply status_update h.status
    rw [hin]
    rfl

include h in
theorem unlocks (hunlocking : m.point c = .unlocking mode q) :
    Ordered code k₀ ({ m with lock := (spinUnlock c m.lock q).1 }.moved c
      ((spinUnlock c m.lock q).2.point (.unlocking mode) (.out mode))) := by
  obtain ⟨hsafe, hguarded⟩ := h.guarded.spinUnlock (.unlocking mode) (.out mode) q
    hunlocking (fun _ ↦ trivial) (fun _ ↦ Iff.rfl) id
  apply h.spin hguarded hsafe hunlocking
  · exact fun _ ↦ trivial
  · trivial
  · rintro p' (rfl | ⟨q', rfl⟩)
    · rfl
    · rfl
  · rintro p' (rfl | ⟨q', rfl⟩)
    · rfl
    · rfl
  · exact fun _ ↦ Point.Outside.ne trivial
  · exact Point.Outside.ne trivial

include h in
theorem stores {va : Word} {b : BitVec 8} (hbetween : ∀ c ev l, m.point c ≠ .inside ev l)
    (hwrite : m.kernel.Step s (.store c va b) kernel) : Ordered code k₀ { m with kernel } := by
  obtain ⟨evs, k, hevs, hrun, hsince⟩ := h.sections
  obtain rfl := hsince.between hbetween
  refine ⟨h.guarded, h.fits, h.status, evs ++ [.store c va b], kernel,
    not_booting_append hevs id, hrun.append (.single hwrite), fun c' ↦ ?_,
    fun c' ev l hin ↦ absurd hin (hbetween c' ev l), fun _ ↦ rfl⟩
  rw [hwrite.store_cpus]
  exact hsince.status c'

end Instructions

include h in
theorem step (hstep : Step code m c m') : Ordered code k₀ m' := by
  cases hstep with
  | arrives out arrives => exact h.arrives out arrives
  | exchanges entered => exact h.exchanges entered
  | wakes waking => exact h.wakes waking
  | tests awake => exact h.tests awake
  | locks locking => exact h.locks locking
  | works inside step => exact h.works inside step
  | runs inside ends =>
    apply h.leave inside ends
    apply status_update h.status
    rw [inside]
    rfl
  | halts inside ends =>
    apply h.leave inside ends
    exact status_exchange h.status rfl
  | unlocks unlocking => exact h.unlocks unlocking
  | stores out between write => exact h.stores between write

theorem of_run (hunused : ∀ c, (k₀.cpus c).cpuStatus = .unused) {cs : List (Fin n)}
    (hrun : Run (Step code) (boot code.Local k₀) cs m) : Ordered code k₀ m :=
  hrun.invariant (fun _ _ _ h hstep ↦ h.step hstep) (boot_ordered hunused)

end Ordered

end Smp

/-! ## The other direction -/

namespace Smp

variable {code : Code s n} {k k' : Kernel n} {m m' : Smp n code.Local}

/-- The machine where no CPU is in the kernel. -/
def quiet (τ : Type) (k : Kernel n) (mode : Fin n → Mode) : Smp n τ where
  kernel := k
  lock := ⟨0, none⟩
  cpuStatus c := (mode c).status
  point c := .out (mode c)

/-- The instructions of one CPU. -/
abbrev Steps (code : Code s n) (c : Fin n) : Smp n code.Local → Smp n code.Local → Prop :=
  Relation.ReflTransGen fun m m' ↦ Step code m c m'

theorem Steps.run (h : Steps code c m m') : ∃ cs, Run (Step code) m cs m' := by
  induction h with
  | refl => exact ⟨[], .nil m⟩
  | tail _ hlast ih =>
    obtain ⟨cs, hrun⟩ := ih
    exact ⟨cs ++ [c], hrun.append (.single hlast)⟩

/-- The machine where no other CPU than `c` is in the kernel. -/
def solo {τ : Type} (k : Kernel n) (mode : Fin n → Mode) (c : Fin n) (lk : Spinlock n)
    (status : CpuStatus) (p : Point n τ) : Smp n τ where
  kernel := k
  lock := lk
  cpuStatus := Function.update (fun c ↦ (mode c).status) c status
  point := Function.update (fun c ↦ .out (mode c)) c p

section Solo

variable {mode : Fin n → Mode} {lk : Spinlock n} {status status' : CpuStatus}
  {p next : Point n code.Local} {ev : Event n} {mode' : Mode} {l l' : code.Local}
  {here : SpinPoint → Point n code.Local}

theorem quiet_eq (τ : Type) (k : Kernel n) (mode : Fin n → Mode) (c : Fin n) (mode' : Mode) :
    quiet τ k (Function.update mode c mode') =
      solo k mode c ⟨0, none⟩ mode'.status (.out mode') := by
  unfold quiet solo
  congr 1
  · funext c'
    by_cases hc : c' = c
    · rw [hc, Function.update_self, Function.update_self]
    · rw [Function.update_of_ne hc, Function.update_of_ne hc]
  · funext c'
    by_cases hc : c' = c
    · rw [hc, Function.update_self, Function.update_self]
    · rw [Function.update_of_ne hc, Function.update_of_ne hc]

theorem solo_point (k : Kernel n) (mode : Fin n → Mode) (c : Fin n) (lk : Spinlock n)
    (status : CpuStatus) (p : Point n code.Local) : (solo k mode c lk status p).point c = p := by
  simp only [solo, Function.update_self]

theorem solo_moved (p' : Point n code.Local) :
    (solo k mode c lk status p).moved c p' = solo k mode c lk status p' := by
  unfold moved solo
  simp only [Function.update_idem]

theorem solo_exchanged (p' : Point n code.Local) :
    { solo k mode c lk status p with
      cpuStatus := Function.update (solo k mode c lk status p).cpuStatus c status' }.moved c p' =
      solo k mode c lk status' p' := by
  unfold moved solo
  simp only [Function.update_idem]

theorem solo_locked (lk' : Spinlock n) (p' : Point n code.Local) :
    { solo k mode c lk status p with lock := lk' }.moved c p' = solo k mode c lk' status p' :=
  solo_moved (p := p) p'

theorem solo_arrives (harrives : Arrives c (mode c) ev) :
    Step code (solo k mode c lk status (.out (mode c))) c (solo k mode c lk status (.entered ev)) := by
  have hstep : Step code _ c _ := .arrives (solo_point k mode c lk status _) harrives
  rw [solo_moved] at hstep
  exact hstep

theorem solo_exchanges (harrives : Arrives c (mode c) ev) :
    Step code (solo k mode c lk (mode c).status (.entered ev)) c
      (solo k mode c lk .started (if mode c = .user then .awake ev else .waking ev .locked)) := by
  have hstep : Step code _ c _ := .exchanges (solo_point k mode c lk (mode c).status (.entered ev))
  have hold : (solo k mode c lk (mode c).status (.entered ev : Point n code.Local)).cpuStatus c =
      (mode c).status := by
    simp only [solo, Function.update_self]
  rw [hold, harrives.afterXchg, solo_exchanged] at hstep
  exact hstep

theorem solo_tests (harrives : Arrives c (mode c) ev) :
    Step code (solo k mode c lk status (.awake ev)) c (solo k mode c lk status
      (if mode c = .user then .locking ev .locked else .inside ev (code.start ev))) := by
  have hstep : Step code _ c _ := .tests (solo_point k mode c lk status (.awake ev))
  rw [harrives.afterWake, solo_moved] at hstep
  exact hstep

/-- `spin_lock` on a lock that is free. -/
theorem solo_lock (hstep : ∀ (m : Smp n code.Local) p, m.point c = here p →
      Step code m c ({ m with lock := (spinLock c m.lock p).1 }.moved c
        ((spinLock c m.lock p).2.point here next))) :
    Steps code c (solo k mode c ⟨0, none⟩ status (here .locked))
      (solo k mode c ⟨1, some c⟩ status next) := by
  have hone : ∀ (lk lk' : Spinlock n) p p', spinLock c lk p = (lk', .goes p') →
      Step code (solo k mode c lk status (here p)) c (solo k mode c lk' status (here p')) := by
    intro lk lk' p p' hnext
    have hthis := hstep _ p (solo_point k mode c lk status (here p))
    change Step code _ c ({ solo k mode c lk status (here p) with
      lock := (spinLock c lk p).1 }.moved c ((spinLock c lk p).2.point here next)) at hthis
    rw [hnext, solo_locked] at hthis
    exact hthis
  have hlast := hstep _ .record (solo_point k mode c ⟨1, none⟩ status (here .record))
  rw [solo_locked] at hlast
  apply Relation.ReflTransGen.head (hone ⟨0, none⟩ ⟨0, none⟩ .locked .xchg rfl)
  apply Relation.ReflTransGen.head (hone ⟨0, none⟩ ⟨1, none⟩ .xchg .record rfl)
  exact .single hlast

/-- `spin_unlock` by the CPU that has the lock. -/
theorem solo_unlock : Steps code c (solo k mode c ⟨1, some c⟩ status (.unlocking mode' .locked))
    (solo k mode c ⟨0, none⟩ status (.out mode')) := by
  have hone : ∀ (lk lk' : Spinlock n) p next, spinUnlock c lk p = (lk', next) →
      Step code (solo k mode c lk status (.unlocking mode' p)) c
        (solo k mode c lk' status (next.point (.unlocking mode') (.out mode'))) := by
    intro lk lk' p next hnext
    have hthis : Step code _ c _ := .unlocks (solo_point k mode c lk status (.unlocking mode' p))
    change Step code _ c ({ solo k mode c lk status (.unlocking mode' p) with
      lock := (spinUnlock c lk p).1 }.moved c
        ((spinUnlock c lk p).2.point (.unlocking mode') (.out mode'))) at hthis
    rw [hnext, solo_locked] at hthis
    exact hthis
  have hself : spinUnlock c ⟨1, some c⟩ .cpu = (⟨1, some c⟩, .goes .record) := by
    unfold spinUnlock
    rw [if_pos rfl]
  apply Relation.ReflTransGen.head (hone ⟨1, some c⟩ ⟨1, some c⟩ .locked (.goes .cpu) rfl)
  apply Relation.ReflTransGen.head (hone ⟨1, some c⟩ ⟨1, some c⟩ .cpu (.goes .record) hself)
  apply Relation.ReflTransGen.head (hone ⟨1, some c⟩ ⟨1, none⟩ .record (.goes .xchg) rfl)
  exact .single (hone ⟨1, none⟩ ⟨0, none⟩ .xchg .returns rfl)

theorem solo_works (hsteps : Relation.ReflTransGen (code.step c) (l, k) (l', k')) :
    Steps code c (solo k mode c lk status (.inside ev l)) (solo k' mode c lk status (.inside ev l')) := by
  suffices hall : ∀ a b, Relation.ReflTransGen (code.step c) a b →
      Steps code c (solo a.2 mode c lk status (.inside ev a.1)) (solo b.2 mode c lk status (.inside ev b.1))
    from hall (l, k) (l', k') hsteps
  intro a b hab
  induction hab with
  | refl => exact .refl
  | @tail b d _ hlast ih =>
    have hstep : Step code _ c ({ solo b.2 mode c lk status (.inside ev b.1) with
        kernel := d.2 }.moved c (.inside ev d.1)) :=
      .works (solo_point b.2 mode c lk status (.inside ev b.1)) hlast
    have hmoved : { solo b.2 mode c lk status (.inside ev b.1) with kernel := d.2 }.moved c
        (.inside ev d.1) = solo d.2 mode c lk status (.inside ev d.1) :=
      solo_moved (p := .inside ev b.1) _
    rw [hmoved] at hstep
    exact ih.tail hstep

theorem solo_ends (hends : code.ends l = some mode') (hon : mode' ≠ .off) :
    Step code (solo k mode c lk .started (.inside ev l)) c
      (solo k mode c lk mode'.status (.unlocking mode' .locked)) := by
  have hpoint := solo_point k mode c lk .started (.inside ev l)
  cases mode' with
  | off => exact absurd rfl hon
  | user =>
    have hstep : Step code _ c _ := .runs hpoint hends
    rw [solo_moved] at hstep
    exact hstep
  | halted =>
    have hstep : Step code _ c _ := .halts hpoint hends
    rw [solo_exchanged] at hstep
    exact hstep

/-- A CPU that is alone gets through a section. -/
theorem solo_section (code : Code s n) (harrives : Arrives c (mode c) ev)
    (hstatus : (k.cpus c).cpuStatus = (mode c).status)
    (hstep : k.Step s ev k') : ∃ mode', (k'.cpus c).cpuStatus = mode'.status ∧
      Steps code c (quiet code.Local k mode) (quiet code.Local k' (Function.update mode c mode')) := by
  obtain ⟨l, mode', hsteps, hends, hon⟩ := code.steps_of_section harrives hstep
  refine ⟨mode', (code.section_of_steps harrives hstatus hsteps hends).2, ?_⟩
  have hquiet := quiet_eq code.Local k mode c (mode c)
  rw [Function.update_eq_self] at hquiet
  rw [hquiet, quiet_eq]
  have hstart : Steps code c (solo k mode c ⟨0, none⟩ (mode c).status (.out (mode c)))
      (solo k mode c ⟨1, some c⟩ .started (.inside ev (code.start ev))) := by
    apply Relation.ReflTransGen.head (solo_arrives harrives)
    apply Relation.ReflTransGen.head (solo_exchanges harrives)
    have htests : ∀ lk, Step code (solo k mode c lk .started (.awake ev)) c _ :=
      fun _ ↦ solo_tests harrives
    by_cases huser : mode c = .user
    · simp only [if_pos huser] at htests ⊢
      exact .head (htests ⟨0, none⟩) (solo_lock fun m p hpoint ↦ .locks hpoint)
    · simp only [if_neg huser] at htests ⊢
      exact .tail (solo_lock fun m p hpoint ↦ .wakes hpoint) (htests ⟨1, some c⟩)
  exact ((hstart.trans (solo_works hsteps)).tail (solo_ends hends hon)).trans solo_unlock

end Solo

theorem enabled_cases {ev : Event n} {mode : Fin n → Mode} (henabled : k.Enabled ev)
    (hev : ¬ ev.Booting)
    (hstatus : ∀ c, (k.cpus c).cpuStatus = (mode c).status) :
    (∃ c, Arrives c (mode c) ev) ∨ ∃ c va b, ev = .store c va b := by
  have hmode : ∀ c mode', (k.cpus c).cpuStatus = mode'.status → mode c = mode' :=
    fun c mode' hc ↦ Mode.status_injective ((hstatus c).symm.trans hc)
  cases ev with
  | create c binary => exact absurd trivial hev
  | start c =>
    refine .inl ⟨c, ?_⟩
    rw [hmode c .off henabled]
    exact .start
  | trap c tf faultVa inp =>
    refine .inl ⟨c, ?_⟩
    obtain ⟨hstarted, huser⟩ | ⟨hhalted, hkernel, hirq⟩ := henabled
    · rw [hmode c .user hstarted]
      exact .trap huser
    · rw [hmode c .halted hhalted]
      exact .interrupt hkernel hirq
  | store c va b => exact .inr ⟨c, va, b, rfl⟩

/-- A run of sections, instruction by instruction. -/
theorem quiet_of_run (code : Code s n) {evs : List (Event n)} (mode : Fin n → Mode)
    (hrun : Run (Kernel.Step s) k evs k') (hevs : ∀ ev ∈ evs, ¬ ev.Booting)
    (hstatus : ∀ c, (k.cpus c).cpuStatus = (mode c).status) :
    ∃ cs mode', (∀ c, (k'.cpus c).cpuStatus = (mode' c).status) ∧
      Run (Step code) (quiet code.Local k mode) cs (quiet code.Local k' mode') := by
  induction hrun generalizing mode with
  | nil => exact ⟨[], mode, hstatus, .nil _⟩
  | @cons k k₁ k' ev evs hstep _ ih =>
    have hrest : ∀ ev ∈ evs, ¬ ev.Booting :=
      fun ev hev ↦ hevs ev (List.mem_cons_of_mem _ hev)
    have hfirst : ∃ cs mode₁, (∀ c, (k₁.cpus c).cpuStatus = (mode₁ c).status) ∧
        Run (Step code) (quiet code.Local k mode) cs (quiet code.Local k₁ mode₁) := by
      obtain ⟨c, harrives⟩ | ⟨c, va, b, rfl⟩ := enabled_cases hstep.1
          (hevs ev List.mem_cons_self) hstatus
      · obtain ⟨mode', hafter, hsteps⟩ := solo_section code harrives (hstatus c) hstep
        obtain ⟨cs, hcs⟩ := hsteps.run
        refine ⟨cs, Function.update mode c mode', fun c' ↦ ?_, hcs⟩
        by_cases hc : c' = c
        · rw [hc, Function.update_self, hafter]
        · rw [Function.update_of_ne hc, (hstep.arrived harrives).2 c' hc, hstatus c']
      · refine ⟨[c], mode, fun c' ↦ ?_, .single (.stores ?_ (fun _ ↦ Point.Outside.ne trivial) hstep)⟩
        · rw [hstep.store_cpus, hstatus c']
        · have huser : (k.cpus c).cpuStatus = Mode.user.status := hstep.1
          rw [hstatus c] at huser
          exact congrArg Point.out (Mode.status_injective huser)
    obtain ⟨cs, mode₁, hstatus₁, hrun₁⟩ := hfirst
    obtain ⟨cs', mode', hstatus', hrun'⟩ := ih mode₁ hrest hstatus₁
    exact ⟨cs ++ cs', mode', hstatus', hrun₁.append hrun'⟩

end Smp

/-! ## The results -/

/-- The section is a single instruction. -/
inductive WholeStep (s : Scheduler) (c : Fin n) :
    (Event n ⊕ Mode) × Kernel n → (Event n ⊕ Mode) × Kernel n → Prop where
  | section {ev : Event n} {mode : Mode} {k k' : Kernel n} (step : k.Step s ev k')
      (status : (k'.cpus c).cpuStatus = mode.status) (on : mode ≠ .off) :
      WholeStep s c (.inl ev, k) (.inr mode, k')

theorem WholeStep.of_steps {ev : Event n} {mode : Mode} {k k' : Kernel n}
    (h : Relation.ReflTransGen (WholeStep s c) (.inl ev, k) (.inr mode, k')) :
    k.Step s ev k' ∧ (k'.cpus c).cpuStatus = mode.status := by
  obtain heq | ⟨_, hfirst, hrest⟩ := h.cases_head
  · cases heq
  · cases hfirst with
    | «section» step status on =>
      obtain heq | ⟨_, hnext, -⟩ := hrest.cases_head
      · cases heq
        exact ⟨step, status⟩
      · cases hnext

/-- The code whose sections are single instructions. -/
def Code.whole (s : Scheduler) (n : ℕ) : Code s n where
  Local := Event n ⊕ Mode
  start := .inl
  step := WholeStep s
  ends
    | .inl _ => none
    | .inr mode => some mode
  section_of_steps := by
    intro c mode mode' ev l k k' _ _ hsteps hends
    cases l with
    | inl ev' => cases hends
    | inr mode₁ =>
      obtain rfl := Option.some.inj hends
      exact WholeStep.of_steps hsteps
  steps_of_section := by
    intro c mode ev k k' harrives hstep
    obtain ⟨⟨mode', hon, hstatus⟩, -⟩ := hstep.arrived harrives
    exact ⟨.inr mode', mode', .single (.section hstep hstatus hon), rfl, hon⟩

end SistemasOperativos.Jos
