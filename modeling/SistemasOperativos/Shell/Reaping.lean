import SistemasOperativos.Library.Replacement
import SistemasOperativos.Shell.Processes

/-!
# Reaping the children in the background

Which children in the background the handler collects and prints, along every run. One signal may
stand for several children that have ended, and the handler collects one at a time, so the children
that wait for it are compared with the activations that are still to come.
-/

namespace SistemasOperativos.Shell

open Library

/-- How many times the handler is still to call `waitpid`, if no signal comes. -/
def State.activations (s : State) : ℕ :=
  (if s.pending then 1 else 0) + if s.handler = .entered then 1 else 0

/-- The children that the handler could collect. -/
def State.waitable (s : State) : ℕ := s.children.countP Child.waitable

/-- A child ends in time to be collected. A child in the background has not left the group of the
shell, and a child in the group ends when every child that ended before it in the group has been
collected, or when the only one is about to be. -/
def State.Reapable (s : State) : Event → Prop
  | .finish k _ => ∀ c, s.children[k]? = some c →
      (c.kind = .background → c.inGroup = true) ∧
      (c.inGroup = true → s.waitable ≤ if s.handler = .entered then 1 else 0)
  | _ => True

/-- The children that wait for the handler are no more than its activations, and the handler has
printed the children in the background that have been collected, once each. -/
structure State.Reaping (s : State) : Prop where
  waitable : s.waitable ≤ s.activations
  inGroup : ∀ (k : ℕ) (c : Child), s.children[k]? = some c → c.kind = .background →
    c.ended ≠ none → c.inGroup = true
  reported : ∀ (k : ℕ) (c : Child), s.children[k]? = some c → c.kind = .background →
    s.reports.count k + (if s.handler = .reporting k then 1 else 0) = if c.collected then 1 else 0
  known : ∀ k, k ∈ s.reports ∨ s.handler = .reporting k → k < s.children.length

theorem State.reaping_initial : State.initial.Reaping :=
  ⟨Nat.le_refl 0, nofun, nofun, nofun⟩

section Step

variable {s s' : State}

theorem waitable_setChild {k : ℕ} {c : Child} (c' : Child) (hc : s.children[k]? = some c) :
    (s.setChild k c').waitable + (if c.waitable then 1 else 0) =
      s.waitable + if c'.waitable then 1 else 0 :=
  countP_set_add Child.waitable hc c'

theorem waitable_launch (kind : Kind) : (s.launch kind).waitable = s.waitable := by
  change (s.children ++ [newChild kind]).countP Child.waitable = _
  rw [List.countP_append, List.countP_singleton]
  rfl

theorem Child.waitable_of {c : Child} {t : Termination} (hended : c.ended = some t) :
    c.waitable = (c.inGroup && !c.collected) := by
  rw [Child.waitable, hended, Option.isSome_some, Bool.and_true]

theorem Child.not_waitable_of_running {c : Child} (hended : c.ended = none) :
    c.waitable = false := by
  rw [Child.waitable, hended, Option.isSome_none, Bool.and_false, Bool.false_and]

/-- A pending signal is worth one activation. -/
theorem State.activations_le (s : State) :
    s.activations ≤ 1 + if s.handler = .entered then 1 else 0 := by
  rw [activations]
  cases s.pending with
  | false => exact Nat.add_le_add_right (Nat.zero_le 1) _
  | true => exact Nat.le_refl _

/-- Steps that leave the children and the handler alone. -/
theorem State.Reaping.main {status : ℤ} {pc : Point} (h : s.Reaping) :
    State.Reaping { s with status, pc } :=
  ⟨h.waitable, h.inGroup, h.reported, h.known⟩

/-- One child in the background changes, or one that is not: what the handler has to do with it. -/
theorem State.Reaping.setChild {k : ℕ} {c c' : Child} (h : s.Reaping)
    (hc : s.children[k]? = some c) (hkind : c'.kind = c.kind)
    (hwaitable : c'.waitable = true → c.waitable = true)
    (hgroup : c'.kind = .background → c'.ended ≠ none → c'.inGroup = true)
    (hcollected : c'.kind = .background → c'.collected = c.collected) :
    (s.setChild k c').Reaping := by
  refine ⟨?_, fun j x hx hbg ↦ ?_, fun j x hx hbg ↦ ?_, fun j hj ↦ ?_⟩
  · have hset := waitable_setChild c' hc
    have hbound := h.waitable
    have hle : (if c'.waitable then 1 else 0) ≤ if c.waitable then 1 else 0 := by
      cases hw : c'.waitable with
      | false => exact Nat.zero_le _
      | true => exact Nat.le_of_eq (by rw [hwaitable hw])
    have hactivations : (s.setChild k c').activations = s.activations := rfl
    omega
  · obtain ⟨-, rfl⟩ | ⟨-, hx⟩ := getElem?_setChild hx
    · exact hgroup hbg
    · exact h.inGroup j x hx hbg
  · obtain ⟨rfl, rfl⟩ | ⟨-, hx⟩ := getElem?_setChild hx
    · rw [hcollected hbg]
      exact h.reported j c hc (hkind ▸ hbg)
    · exact h.reported j x hx hbg
  · exact Nat.lt_of_lt_of_eq (h.known j hj) List.length_set.symm

theorem State.Reaping.finish {k : ℕ} {c : Child} {t : Termination} (h : s.Reaping)
    (hc : s.children[k]? = some c) (hended : c.ended = none) (hok : s.Reapable (.finish k t)) :
    State.Reaping { s.setChild k { c with ended := some t } with pending := true } := by
  obtain ⟨hgroup, hroom⟩ := hok c hc
  refine ⟨?_, fun j x hx hbg ↦ ?_, fun j x hx hbg ↦ ?_, fun j hj ↦ ?_⟩
  · have hset := waitable_setChild { c with ended := some t } hc
    have hold := Child.not_waitable_of_running hended
    have hbound := h.waitable
    have hroom' : { c with ended := some t : Child }.waitable = true →
        s.waitable ≤ if s.handler = .entered then 1 else 0 := by
      intro hw
      rw [Child.waitable_of rfl, Bool.and_eq_true] at hw
      exact hroom hw.1
    have hactivations : State.activations
        { s.setChild k { c with ended := some t } with pending := true } =
        1 + if s.handler = .entered then 1 else 0 := rfl
    change (s.setChild k { c with ended := some t }).waitable ≤ _
    rw [hactivations]
    rw [hold] at hset
    have hpending := s.activations_le
    cases hw : { c with ended := some t : Child }.waitable with
    | false =>
      rw [hw] at hset
      simp only [Bool.false_eq_true, if_false] at hset
      omega
    | true =>
      have hroom'' := hroom' hw
      rw [hw] at hset
      simp only [Bool.false_eq_true, if_false, if_true] at hset
      omega
  · obtain ⟨-, rfl⟩ | ⟨-, hx⟩ := getElem?_setChild hx
    · exact fun _ ↦ hgroup hbg
    · exact h.inGroup j x hx hbg
  · obtain ⟨rfl, rfl⟩ | ⟨-, hx⟩ := getElem?_setChild hx
    · exact h.reported j c hc hbg
    · exact h.reported j x hx hbg
  · exact Nat.lt_of_lt_of_eq (h.known j hj) List.length_set.symm

/-- The handler collects a child: one child less for one activation less. -/
theorem State.Reaping.collect {k : ℕ} {c : Child} {t : Termination} (h : s.Reaping)
    (hentered : s.handler = .entered) (hc : s.children[k]? = some c) (hended : c.ended = some t)
    (hgroup : c.inGroup = true) (hcollected : c.collected = false) :
    State.Reaping { s.setChild k { c with collected := true } with
      status := t.raw, handler := .reporting k } := by
  have hk : k < s.children.length := (List.getElem?_eq_some_iff.mp hc).1
  refine ⟨?_, fun j x hx hbg ↦ ?_, fun j x hx hbg ↦ ?_, fun j hj ↦ ?_⟩
  · have hset := waitable_setChild { c with collected := true } hc
    have hold : c.waitable = true := by
      rw [Child.waitable_of hended, hgroup, hcollected]
      rfl
    have hnew : { c with collected := true : Child }.waitable = false := Bool.and_false _
    have hbound := h.waitable
    have hactivations : s.activations = (if s.pending then 1 else 0) + 1 := by
      rw [State.activations, if_pos hentered]
    have hactivations' : State.activations { s.setChild k { c with collected := true } with
        status := t.raw, handler := .reporting k } = (if s.pending then 1 else 0) + 0 := rfl
    rw [hold, hnew] at hset
    rw [hactivations] at hbound
    rw [hactivations']
    change (s.setChild k { c with collected := true }).waitable ≤ _
    simp only [Bool.false_eq_true, if_false, if_true] at hset
    omega
  · obtain ⟨-, rfl⟩ | ⟨-, hx⟩ := getElem?_setChild hx
    · exact fun _ ↦ hgroup
    · exact h.inGroup j x hx hbg
  · have hhandler : ∀ i, Handler.reporting k = .reporting i ↔ k = i :=
      fun i ↦ ⟨fun heq ↦ by cases heq; rfl, fun heq ↦ by rw [heq]⟩
    obtain ⟨rfl, rfl⟩ | ⟨hj, hx⟩ := getElem?_setChild hx
    · have hold := h.reported j c hc hbg
      rw [hentered, hcollected] at hold
      simpa using hold
    · have hold := h.reported j x hx hbg
      rw [hentered] at hold
      simp only [hhandler, if_neg (Ne.symm hj)]
      simpa using hold
  · obtain hj | hj := hj
    · exact Nat.lt_of_lt_of_eq (h.known j (.inl hj)) List.length_set.symm
    · cases hj
      exact Nat.lt_of_lt_of_eq hk List.length_set.symm

theorem State.Reaping.launch {kind : Kind} (h : s.Reaping) : (s.launch kind).Reaping := by
  refine ⟨?_, fun k c hc hbg ↦ ?_, fun k c hc hbg ↦ ?_, fun k hk ↦ ?_⟩
  · rw [waitable_launch]
    exact h.waitable
  · obtain hc | ⟨-, rfl⟩ := getElem?_launch hc
    · exact h.inGroup k c hc hbg
    · exact fun _ ↦ rfl
  · obtain hc | ⟨rfl, rfl⟩ := getElem?_launch hc
    · exact h.reported k c hc hbg
    · -- the handler knows nothing of the new child
      have hreports : s.children.length ∉ s.reports :=
        fun hmem ↦ Nat.lt_irrefl _ (h.known _ (.inl hmem))
      have hhandler : s.handler ≠ .reporting s.children.length :=
        fun heq ↦ Nat.lt_irrefl _ (h.known _ (.inr heq))
      change s.reports.count s.children.length +
        (if s.handler = .reporting s.children.length then 1 else 0) = 0
      rw [List.count_eq_zero.mpr hreports, if_neg hhandler]
  · have hlt := h.known k hk
    change k < (s.children ++ [newChild kind]).length
    rw [List.length_append]
    exact Nat.lt_add_right _ hlt

theorem State.Reaping.report {k : ℕ} (h : s.Reaping) (hreporting : s.handler = .reporting k) :
    State.Reaping { s with reports := s.reports ++ [k], handler := .idle } := by
  refine ⟨?_, h.inGroup, fun j x hx hbg ↦ ?_, fun j hj ↦ ?_⟩
  · have hbound := h.waitable
    rw [State.activations, hreporting] at hbound
    exact hbound
  · have hold := h.reported j x hx hbg
    rw [hreporting] at hold
    rw [← hold, List.count_append]
    by_cases hj : k = j
    · subst hj
      simp
    · have hne : Handler.reporting k ≠ .reporting j := fun heq ↦ hj (by cases heq; rfl)
      simp [hj]
  · obtain hj | hj := hj
    · obtain hj | hj := List.mem_append.mp hj
      · exact h.known j (.inl hj)
      · rw [List.mem_singleton.mp hj]
        exact h.known k (.inr hreporting)
    · cases hj

theorem State.Reaping.step {e : Event} (h : s.Reaping) (horder : s.Orderly) (hok : s.Reapable e)
    (hstep : Step s e s') : s'.Reaping := by
  cases hstep.change with
  | read => exact h.main
  | launch => exact h.launch
  | @waitCollect p c t _ hpc hc hended hcollected =>
    obtain ⟨-, x, hx, hne⟩ := horder.awaited p hpc
    cases hc.symm.trans hx
    have hset : (s.setChild p { c with collected := true }).Reaping :=
      h.setChild hc rfl (fun hw ↦ by rw [Child.waitable, Bool.not_true, Bool.and_false] at hw; cases hw)
        (fun hbg ↦ absurd hbg hne) (fun hbg ↦ absurd hbg hne)
    exact hset.main
  | waitError => exact h.main
  | print => exact h.main
  | @setGroup k inGroup c hc hended =>
    refine h.setChild hc rfl (fun hw ↦ ?_) (fun _ hsome ↦ absurd hended hsome) fun _ ↦ rfl
    have hnew : { c with inGroup : Child }.waitable = false := Child.not_waitable_of_running hended
    rw [hnew] at hw
    cases hw
  | finish hc hended => exact h.finish hc hended hok
  | disturb =>
    exact ⟨Nat.le_trans h.waitable s.activations_le, h.inGroup, h.reported, h.known⟩
  | deliver hidle hpending =>
    refine ⟨?_, h.inGroup, fun k c hc hbg ↦ ?_, fun k hk ↦ ?_⟩
    · have hbound := h.waitable
      rw [State.activations, hpending, hidle] at hbound
      exact hbound
    · have hold := h.reported k c hc hbg
      rw [hidle] at hold
      exact hold
    · obtain hk | hk := hk
      · exact h.known k (.inl hk)
      · cases hk
  | collect hentered hc hended hgroup hcollected =>
    exact h.collect hentered hc hended hgroup hcollected
  | collectNone hentered hnone =>
    refine ⟨?_, h.inGroup, fun k c hc hbg ↦ ?_, fun k hk ↦ ?_⟩
    · have hzero : s.waitable = 0 := by
        rw [State.waitable, List.countP_eq_zero]
        intro c hc
        rw [hnone c hc]
        exact Bool.false_ne_true
      exact Nat.le_trans (Nat.le_of_eq hzero) (Nat.zero_le _)
    · have hold := h.reported k c hc hbg
      rw [hentered] at hold
      exact hold
    · obtain hk | hk := hk
      · exact h.known k (.inl hk)
      · cases hk
  | report hreporting => exact h.report hreporting

theorem Run.reaping {es : List Event}
    (h : Run (fun a e b ↦ Step a e b ∧ a.Reapable e) State.initial es s) : s.Reaping := by
  have hkeep : ∀ a e b, a.Orderly ∧ a.Reaping → Step a e b ∧ a.Reapable e →
      b.Orderly ∧ b.Reaping :=
    fun a e b ⟨horder, hreap⟩ ⟨hstep, hok⟩ ↦ ⟨horder.step hstep, hreap.step horder hok hstep⟩
  exact (h.invariant hkeep ⟨State.orderly_initial, State.reaping_initial⟩).2

end Step

/-! ## Children that are missed -/

/-- A child in the background that is never going to be collected unless other signals come: it has
left the group of the shell, or too many children wait for the handler. -/
def State.Missed (s : State) : Prop :=
  (∃ (k : ℕ) (c : Child), s.children[k]? = some c ∧ c.kind = .background ∧ c.ended ≠ none ∧
    c.collected = false ∧ c.inGroup = false) ∨
  (∃ (k : ℕ) (c : Child), s.children[k]? = some c ∧ c.kind = .background ∧ c.waitable = true) ∧
    s.activations < s.waitable

/-- How far the handler is from having nothing to do. -/
def State.work (s : State) : ℕ :=
  (if s.pending then 3 else 0) + match s.handler with
    | .idle => 0
    | .entered => 2
    | .reporting _ => 1

section Missed

variable {s s' : State}

theorem Child.waitable_eq_true {c : Child} (h : c.waitable = true) :
    ∃ t, c.ended = some t ∧ c.inGroup = true ∧ c.collected = false := by
  simp only [Child.waitable, Bool.and_eq_true, Bool.not_eq_true'] at h
  obtain ⟨t, ht⟩ := Option.isSome_iff_exists.mp h.1.2
  exact ⟨t, ht, h.1.1, h.2⟩

/-- The state after the handler has collected a child. -/
def State.afterCollect (s : State) (k : ℕ) (c : Child) (t : Termination) : State :=
  { s.setChild k { c with collected := true } with status := t.raw, handler := .reporting k }

theorem step_collect {k : ℕ} {c : Child} {t : Termination} (hentered : s.handler = .entered)
    (hc : s.children[k]? = some c) (hended : c.ended = some t) (hgroup : c.inGroup = true)
    (hcollected : c.collected = false) : Step s (.collect k) (s.afterCollect k c t) := by
  obtain ⟨kind, inGroup, ended, collected⟩ := c
  cases hended
  cases hgroup
  cases hcollected
  simp only [Step, step, hentered, hc]
  rfl

theorem getElem?_afterCollect {j k : ℕ} {c x : Child} {t : Termination} (hj : j ≠ k)
    (hx : s.children[j]? = some x) : (s.afterCollect k c t).children[j]? = some x :=
  (List.getElem?_set_ne (Ne.symm hj)).trans hx

theorem waitable_afterCollect {k : ℕ} {c : Child} {t : Termination}
    (hc : s.children[k]? = some c) (hw : c.waitable = true) :
    (s.afterCollect k c t).waitable + 1 = s.waitable := by
  have hset := waitable_setChild { c with collected := true } hc
  have hnew : { c with collected := true : Child }.waitable = false := Bool.and_false _
  rw [hw, hnew] at hset
  exact hset

theorem work_afterCollect {k : ℕ} {c : Child} {t : Termination} (hentered : s.handler = .entered) :
    (s.afterCollect k c t).work < s.work := by
  have hold : s.work = (if s.pending then 3 else 0) + 2 := by
    rw [State.work, hentered]
  rw [hold]
  exact Nat.lt_succ_self _

theorem activations_afterCollect {k : ℕ} {c : Child} {t : Termination}
    (hentered : s.handler = .entered) :
    (s.afterCollect k c t).activations + 1 = s.activations := by
  rw [State.activations, State.activations, if_pos hentered]
  rfl

/-- The handler can choose what it collects so that a child is still missed. -/
theorem State.Missed.collect (h : s.Missed) (hentered : s.handler = .entered) :
    ∃ e s₁, Step s e s₁ ∧ s₁.Missed ∧ s₁.work < s.work := by
  have hgo : ∀ k c, s.children[k]? = some c → c.waitable = true →
      (∀ t, (s.afterCollect k c t).Missed) → ∃ e s₁, Step s e s₁ ∧ s₁.Missed ∧ s₁.work < s.work := by
    intro k c hc hw hmissed
    obtain ⟨t, hended, hgroup, hcollected⟩ := Child.waitable_eq_true hw
    exact ⟨.collect k, _, step_collect hentered hc hended hgroup hcollected, hmissed t,
      work_afterCollect hentered⟩
  obtain ⟨k, c, hc, hbg, hended, hcollected, hgroup⟩ | ⟨⟨k, c, hc, hbg, hw⟩, hfew⟩ := h
  · by_cases hnone : ∀ x ∈ s.children, x.waitable = false
    · refine ⟨.collectNone, { s with handler := .idle }, if_pos ⟨hentered, hnone⟩,
        .inl ⟨k, c, hc, hbg, hended, hcollected, hgroup⟩, ?_⟩
      have hold : s.work = (if s.pending then 3 else 0) + 2 := by
        rw [State.work, hentered]
      rw [hold]
      exact Nat.lt_add_of_pos_right Nat.two_pos
    · obtain ⟨x, hx, hxw⟩ : ∃ x ∈ s.children, x.waitable = true := by
        simpa using hnone
      obtain ⟨j, hj⟩ := List.mem_iff_getElem?.mp hx
      refine hgo j x hj hxw fun t ↦ .inl ⟨k, c, getElem?_afterCollect ?_ hc, hbg, hended,
        hcollected, hgroup⟩
      rintro rfl
      cases hc.symm.trans hj
      rw [Child.waitable, hgroup] at hxw
      cases hxw
  · by_cases hother : ∃ (j : ℕ) (x : Child), s.children[j]? = some x ∧ x.kind ≠ .background ∧
        x.waitable = true
    · obtain ⟨j, x, hj, hne, hxw⟩ := hother
      refine hgo j x hj hxw fun t ↦ .inr ⟨⟨k, c, getElem?_afterCollect ?_ hc, hbg, hw⟩, ?_⟩
      · rintro rfl
        cases hc.symm.trans hj
        exact hne hbg
      · have hwait := @waitable_afterCollect s j x t hj hxw
        have hact := @activations_afterCollect s j x t hentered
        omega
    · refine hgo k c hc hw fun t ↦ .inr ?_
      have hwait := @waitable_afterCollect s k c t hc hw
      have hact := @activations_afterCollect s k c t hentered
      have hlt : (s.afterCollect k c t).activations < (s.afterCollect k c t).waitable := by omega
      refine ⟨?_, hlt⟩
      obtain ⟨x, hx, hxw⟩ := List.countP_pos_iff.mp (Nat.zero_lt_of_lt hlt)
      obtain ⟨j, hj⟩ := List.mem_iff_getElem?.mp hx
      obtain ⟨rfl, rfl⟩ | ⟨-, hold⟩ := getElem?_setChild hj
      · rw [Child.waitable, Bool.not_true, Bool.and_false] at hxw
        cases hxw
      · refine ⟨j, x, hj, ?_, hxw⟩
        by_contra hne
        exact hother ⟨j, x, hold, hne, hxw⟩

theorem State.Missed.advance (h : s.Missed) (hbusy : s.work ≠ 0) :
    ∃ e s₁, Step s e s₁ ∧ s₁.Missed ∧ s₁.work < s.work := by
  cases hhandler : s.handler with
  | entered => exact h.collect hhandler
  | reporting k =>
    refine ⟨.report, { s with reports := s.reports ++ [k], handler := .idle }, ?_, ?_, ?_⟩
    · simp only [Step, step, hhandler]
    · obtain hleft | ⟨hbg, hfew⟩ := h
      · exact .inl hleft
      · rw [State.activations, hhandler] at hfew
        exact .inr ⟨hbg, hfew⟩
    · rw [State.work, State.work, hhandler]
      exact Nat.lt_succ_self _
  | idle =>
    cases hpending : s.pending with
    | false =>
      rw [State.work, hpending, hhandler] at hbusy
      exact absurd rfl hbusy
    | true =>
      refine ⟨.deliver, { s with pending := false, handler := .entered },
        if_pos ⟨hhandler, hpending⟩, ?_, ?_⟩
      · obtain hleft | ⟨hbg, hfew⟩ := h
        · exact .inl hleft
        · rw [State.activations, hhandler, hpending] at hfew
          exact .inr ⟨hbg, hfew⟩
      · rw [State.work, State.work, hhandler, hpending]
        exact Nat.lt_succ_self 2

/-- Without other signals, the handler ends with nothing to do, and a child is missed. -/
theorem State.Missed.quiescent (h : s.Missed) :
    ∃ es s', Run Step s es s' ∧ s'.pending = false ∧ s'.handler = .idle ∧
      ∃ (k : ℕ) (c : Child), s'.children[k]? = some c ∧ c.kind = .background ∧ c.ended ≠ none ∧
        c.collected = false := by
  induction hd : s.work using Nat.strongRecOn generalizing s with
  | ind d ih =>
    by_cases hbusy : s.work = 0
    · refine ⟨[], s, .nil s, ?_, ?_, ?_⟩
      · cases hpending : s.pending with
        | false => rfl
        | true =>
          rw [State.work, hpending, if_pos rfl] at hbusy
          omega
      · cases hhandler : s.handler with
        | idle => rfl
        | entered =>
          rw [State.work, hhandler] at hbusy
          cases (Nat.add_eq_zero_iff.mp hbusy).2
        | reporting j =>
          rw [State.work, hhandler] at hbusy
          cases (Nat.add_eq_zero_iff.mp hbusy).2
      · obtain ⟨k, c, hc, hbg, hended, hcollected, -⟩ | ⟨⟨k, c, hc, hbg, hw⟩, -⟩ := h
        · exact ⟨k, c, hc, hbg, hended, hcollected⟩
        · obtain ⟨t, hended, -, hcollected⟩ := Child.waitable_eq_true hw
          exact ⟨k, c, hc, hbg, by rw [hended]; exact nofun, hcollected⟩
    · obtain ⟨e, s₁, hstep, hmissed, hlt⟩ := h.advance hbusy
      obtain ⟨es, s', hrun, hend⟩ := ih _ (hd ▸ hlt) hmissed rfl
      exact ⟨e :: es, s', .cons hstep hrun, hend⟩

/-- A child that does not end in time is missed, or another one. -/
theorem State.Orderly.missed {k : ℕ} {t : Termination} (h : s.Orderly)
    (hstep : Step s (.finish k t) s') (hlate : ¬ s.Reapable (.finish k t)) : s'.Missed := by
  have horder := h.step hstep
  cases hstep.change with
  | @finish _ _ c hc hended =>
    have hk : k < s.children.length := (List.getElem?_eq_some_iff.mp hc).1
    have hfree := h.not_collected hc hended
    by_cases hleft : c.kind = .background ∧ c.inGroup = false
    · exact .inl ⟨k, { c with ended := some t }, List.getElem?_set_self hk, hleft.1, nofun, hfree,
        hleft.2⟩
    obtain ⟨hgroup, hcrowd⟩ : c.inGroup = true ∧
        (if s.handler = .entered then 1 else 0) < s.waitable := by
      by_contra hno
      refine hlate fun x hx ↦ ?_
      cases hc.symm.trans hx
      refine ⟨fun hbg ↦ ?_, fun hgroup ↦ Nat.le_of_not_lt fun hlt ↦ hno ⟨hgroup, hlt⟩⟩
      cases hgroup : c.inGroup with
      | true => rfl
      | false => exact absurd ⟨hbg, hgroup⟩ hleft
    have hset := waitable_setChild { c with ended := some t } hc
    have hnew : { c with ended := some t : Child }.waitable = true := by
      rw [Child.waitable_of rfl, hgroup, hfree]
      rfl
    rw [hnew, Child.not_waitable_of_running hended] at hset
    simp only [Bool.false_eq_true, if_false, if_true] at hset
    have hlt : (1 + if s.handler = .entered then 1 else 0) <
        (s.setChild k { c with ended := some t }).waitable := by omega
    refine .inr ⟨?_, hlt⟩
    -- two children cannot both be the one that the main line waits for
    by_contra hnone
    have hone : (s.setChild k { c with ended := some t }).waitable ≤ 1 := by
      refine countP_le_one fun i j a b ha hb haw hbw ↦ ?_
      have hpc : ∀ (i : ℕ) (a : Child),
          (s.setChild k { c with ended := some t }).children[i]? = some a → a.waitable = true →
          s.pc = .waiting i := by
        intro i a ha haw
        obtain ⟨t', -, -, hcollected⟩ := Child.waitable_eq_true haw
        exact horder.running i a ha (fun hbg ↦ hnone ⟨i, a, ha, hbg, haw⟩) hcollected
      exact Point.waiting.inj ((hpc i a ha haw).symm.trans (hpc j b hb hbw))
    omega

end Missed

/-- A child may end when all children are in the group and none waits for the handler. -/
theorem State.reapable_of_none (s : State) (e : Event)
    (h : (s.children.all (·.inGroup) && s.waitable == 0) = true) : s.Reapable e := by
  obtain ⟨hgroup, hnone⟩ := Bool.and_eq_true_iff.mp h
  cases e with
  | finish k t =>
    intro c hc
    refine ⟨fun _ ↦ List.all_eq_true.mp hgroup c (List.mem_of_getElem? hc), fun _ ↦ ?_⟩
    rw [beq_iff_eq.mp hnone]
    exact Nat.zero_le _
  | _ => trivial

theorem reapable_of_ne_finish {e : Event} (h : ∀ k t, e ≠ .finish k t) (s : State) :
    s.Reapable e := by
  cases e with
  | finish k t => exact absurd rfl (h k t)
  | _ => trivial

end SistemasOperativos.Shell
