import Mathlib.Data.List.Basic
import SistemasOperativos.Library.Replacement
import SistemasOperativos.Shell.Processes

/-!
# The exit status variable

What `$?` expands to, along every run. The handler stores the wait status of the child that it
collects in the variable `status` and nobody decodes it, so it matters what the main line still does
with the variable before it parses the next line.
-/

namespace SistemasOperativos.Shell

open Library

/-! ## What `$?` should be -/

/-- The status of a command in the foreground, once it has ended. -/
def Child.foregroundEnd (c : Child) : Option Termination :=
  if c.kind = .foreground then c.ended else none

/-- The decoded status of the last command in the foreground that has ended, where there is one. -/
def State.lastStatus (s : State) : ℤ :=
  match (s.children.filterMap Child.foregroundEnd).getLast? with
  | some t => t.decoded
  | none => 0

/-- The token `$?` is replaced by the variable `status` in decimal. -/
theorem expandEnvironVar_status (globals : Globals) (rest : Block) :
    expandEnvironVar globals (dollar :: question :: rest) =
      memcpy (dollar :: question :: rest) (decimal globals.status ++ [endString]) := by
  rw [expandEnvironVar]
  simp only [Block.read, bind, Except.bind, List.getElem?_cons_zero, List.getElem?_cons_succ,
    ne_eq, not_true_eq_false, if_false, if_true]

/-! ## What the main line makes of the variable -/

/-- `print_status_info` when nothing interrupts it. -/
def printStatusInfo (status : ℤ) : ℤ :=
  if wifexited status then wexitstatus status
  else if wifsignaled status then -wtermsig status
  else if wtermsig status ≠ 0 then -wstopsig status
  else status

theorem printStatusInfo_raw (t : Termination) : printStatusInfo t.raw = t.decoded := by
  cases t with
  | exited code =>
    have hcode := code.toNat_lt
    have hterm : wtermsig (Termination.raw (.exited code)) = 0 := by
      simp only [wtermsig, Termination.raw]
      omega
    have hexited : wifexited (Termination.raw (.exited code)) = true := decide_eq_true hterm
    rw [printStatusInfo, if_pos hexited]
    simp only [wexitstatus, Termination.raw, Termination.decoded]
    omega
  | killed signal core valid =>
    have hterm : wtermsig (Termination.raw (.killed signal core valid)) = signal := by
      cases core <;> simp only [wtermsig, Termination.raw] <;> split <;> omega
    have hexited : ¬ wifexited (Termination.raw (.killed signal core valid)) = true := by
      rw [wifexited, hterm, decide_eq_true_eq]
      omega
    have hsignaled : wifsignaled (Termination.raw (.killed signal core valid)) = true := by
      rw [wifsignaled, hterm, decide_eq_true_eq]
      omega
    rw [printStatusInfo, if_neg hexited, if_pos hsignaled, hterm]
    rfl

/-- What the rest of the main line makes of the variable until it parses again, when nothing
interrupts it. A wait does not count here: it may store a new value. -/
def remaining (status : ℤ) : Point → Option ℤ
  | .prompt => some status
  | .parsing => some status
  | .waiting _ => none
  | .testExited => some (printStatusInfo status)
  | .exited => some (wexitstatus status)
  | .testSignaled =>
    some (if wifsignaled status then -wtermsig status
      else if wtermsig status ≠ 0 then -wstopsig status
      else status)
  | .signaled => some (-wtermsig status)
  | .testTermsig => some (if wtermsig status ≠ 0 then -wstopsig status else status)
  | .stopped => some (-wstopsig status)
  | .storing value => some value

theorem printStep_remaining {status status' : ℤ} {pc pc' : Point}
    (h : printStep status pc = some (status', pc')) :
    remaining status' pc' = remaining status pc := by
  cases pc with
  | testExited =>
    cases h
    cases hw : wifexited status <;> simp [remaining, printStatusInfo, hw]
  | testSignaled =>
    cases h
    cases hw : wifsignaled status <;> simp [remaining, hw]
  | testTermsig =>
    cases h
    by_cases hw : wtermsig status ≠ 0 <;> simp [remaining, hw]
  | exited => cases h; rfl
  | signaled => cases h; rfl
  | stopped => cases h; rfl
  | storing => cases h; rfl
  | _ => cases h

/-- The value that the variable will have when the main line parses again, as far as it is known:
a child that the main line waits for and nobody has collected brings a new one. -/
def State.upcoming (s : State) : Option ℤ :=
  match s.pc with
  | .waiting p =>
    match s.children[p]? with
    | some c => if c.collected then some (printStatusInfo s.status) else none
    | none => none
  | pc => remaining s.status pc

/-- The handler collects a child that ended with `t`, and the variable comes out as if it had not:
the main line waits for a child that is still to bring a new status, or it makes of the status of
this child what `$?` should be. -/
def State.Harmless (s : State) (k : ℕ) (t : Termination) : Prop :=
  match s.pc with
  | .waiting p => p = k ∨ (∀ c, s.children[p]? = some c → c.collected = false) ∨
      t.decoded = s.lastStatus
  | pc => remaining t.raw pc = some s.lastStatus

/-! ## The last completed command -/

section LastStatus

variable {s s' : State}

theorem lastStatus_setChild {k : ℕ} {c c' : Child} (hc : s.children[k]? = some c)
    (h : c'.foregroundEnd = c.foregroundEnd) : (s.setChild k c').lastStatus = s.lastStatus := by
  have hset := filterMap_set hc h
  rw [State.lastStatus, State.lastStatus, State.setChild, hset]

theorem lastStatus_launch (kind : Kind) : (s.launch kind).lastStatus = s.lastStatus := by
  have hnew : (newChild kind).foregroundEnd = none := by
    rw [Child.foregroundEnd, newChild]
    exact ite_self none
  have hchildren : (s.launch kind).children = s.children ++ [newChild kind] := rfl
  rw [State.lastStatus, hchildren, List.filterMap_append, List.filterMap_cons_none hnew,
    List.filterMap_nil, List.append_nil, ← State.lastStatus]

/-- The youngest child counts, when it is in the foreground and has ended. -/
theorem lastStatus_youngest {k : ℕ} {c : Child} {t : Termination} (hc : s.children[k]? = some c)
    (hlast : k + 1 = s.children.length) (hend : c.foregroundEnd = some t) :
    s.lastStatus = t.decoded := by
  obtain ⟨init, x, hchildren⟩ : ∃ init x, s.children = init ++ [x] := by
    obtain hnil | hconcat := List.eq_nil_or_concat' s.children
    · rw [hnil] at hlast
      cases hlast
    · exact hconcat
  have hk : k = init.length := by
    rw [hchildren, List.length_append, List.length_singleton] at hlast
    exact Nat.succ.inj hlast
  have hx : x = c := by
    rw [hchildren, hk, List.getElem?_concat_length] at hc
    exact Option.some.inj hc
  rw [State.lastStatus, hchildren, hx, List.filterMap_append, List.filterMap_cons_some hend,
    List.filterMap_nil, List.getLast?_concat]

end LastStatus

/-! ## The invariant -/

/-- The value that the variable is about to have is the one that it should have. -/
def State.OnTime (s : State) : Prop := ∀ v, s.upcoming = some v → v = s.lastStatus

def State.NoPipeline (s : State) : Prop :=
  ∀ (k : ℕ) (c : Child), s.children[k]? = some c → c.kind ≠ .pipeline

section Invariant

variable {s s' : State}

theorem upcoming_of_ne_waiting (h : ∀ p, s.pc ≠ .waiting p) :
    s.upcoming = remaining s.status s.pc := by
  rw [State.upcoming]
  split
  · next p hp => exact absurd hp (h p)
  · rfl

theorem upcoming_of_waiting {p : ℕ} {c : Child} (hpc : s.pc = .waiting p)
    (hc : s.children[p]? = some c) :
    s.upcoming = if c.collected then some (printStatusInfo s.status) else none := by
  rw [State.upcoming, hpc]
  simp only [hc]

theorem upcoming_setChild {k : ℕ} {c : Child} (c' : Child) (hc : s.children[k]? = some c)
    (h : c'.collected = c.collected) : (s.setChild k c').upcoming = s.upcoming := by
  rw [State.upcoming, State.upcoming]
  simp only [State.setChild, List.getElem?_set]
  split
  · next p _ =>
    by_cases hk : k = p
    · subst hk
      simp only [if_true, (List.getElem?_eq_some_iff.mp hc).1, hc, h]
    · simp only [hk, if_false]
  · rfl

/-- A child that the main line waits for is in the foreground, and its end is the last one. -/
theorem State.Orderly.awaited_end {p : ℕ} {c : Child} {t : Termination} (h : s.Orderly)
    (hpipe : s.NoPipeline) (hpc : s.pc = .waiting p) (hc : s.children[p]? = some c)
    (hended : c.ended = some t) : s.lastStatus = t.decoded ∧ c.kind = .foreground := by
  obtain ⟨hlast, x, hx, hne⟩ := h.awaited p hpc
  cases hc.symm.trans hx
  have hkind : c.kind = .foreground := by
    have hnot := hpipe p c hc
    cases hk : c.kind with
    | foreground => rfl
    | background => exact absurd hk hne
    | pipeline => exact absurd hk hnot
  refine ⟨lastStatus_youngest hc hlast ?_, hkind⟩
  rw [Child.foregroundEnd, if_pos hkind, hended]

/-- The handler does no harm exactly when the variable still comes out right. -/
theorem harmless_iff {k : ℕ} {c : Child} {t : Termination} {handler : Handler} (h : s.Orderly)
    (hpipe : s.NoPipeline) (hc : s.children[k]? = some c) (hended : c.ended = some t) :
    s.Harmless k t ↔
      State.OnTime { s.setChild k { c with collected := true } with status := t.raw, handler } := by
  have hk : k < s.children.length := (List.getElem?_eq_some_iff.mp hc).1
  have hlast : State.lastStatus
      { s.setChild k { c with collected := true } with status := t.raw, handler } =
      s.lastStatus := lastStatus_setChild hc rfl
  rw [State.OnTime, hlast, State.Harmless]
  split
  · next p hpc =>
    obtain ⟨-, x, hx, -⟩ := h.awaited p hpc
    by_cases hp : p = k
    · subst hp
      have hup := @upcoming_of_waiting
        { s.setChild p { c with collected := true } with status := t.raw, handler } p
        { c with collected := true } hpc (List.getElem?_set_self hk)
      rw [hup]
      refine ⟨fun _ v hv ↦ ?_, fun _ ↦ .inl rfl⟩
      cases hv
      rw [printStatusInfo_raw]
      exact ((h.awaited_end hpipe hpc hc hended).1).symm
    · have hup := @upcoming_of_waiting
        { s.setChild k { c with collected := true } with status := t.raw, handler } p x hpc
        ((List.getElem?_set_ne (Ne.symm hp)).trans hx)
      rw [hup]
      constructor
      · rintro (heq | hfree | hdecoded) v hv
        · exact absurd heq hp
        · rw [hfree x hx] at hv
          cases hv
        · obtain ⟨-, heq⟩ := Option.ite_none_right_eq_some.mp hv
          cases heq
          rw [printStatusInfo_raw, hdecoded]
      · intro hall
        cases hcol : x.collected with
        | false => exact .inr (.inl fun y hy ↦ by cases hx.symm.trans hy; exact hcol)
        | true =>
          refine .inr (.inr ?_)
          rw [← printStatusInfo_raw]
          exact hall _ (if_pos hcol)
  · next hpc =>
    have hup := @upcoming_of_ne_waiting
      { s.setChild k { c with collected := true } with status := t.raw, handler } hpc
    rw [hup]
    obtain ⟨v, hv⟩ : ∃ v, remaining t.raw s.pc = some v := by
      cases hs : s.pc with
      | waiting p => exact absurd hs (hpc p)
      | _ => exact ⟨_, rfl⟩
    refine ⟨fun heq w hw ↦ ?_, fun hall ↦ ?_⟩
    · exact Option.some.inj (hw.symm.trans heq)
    · rw [hv]
      exact congrArg some (hall v hv)

theorem State.NoPipeline.setChild {k : ℕ} {c c' : Child} (h : s.NoPipeline)
    (hc : s.children[k]? = some c) (hkind : c'.kind = c.kind) : (s.setChild k c').NoPipeline := by
  intro j x hx
  obtain ⟨-, rfl⟩ | ⟨-, hx⟩ := getElem?_setChild hx
  · rw [hkind]
    exact h k c hc
  · exact h j x hx

theorem State.NoPipeline.step {e : Event} (h : s.NoPipeline) (he : e ≠ .launch .pipeline)
    (hstep : Step s e s') : s'.NoPipeline := by
  cases hstep.change with
  | @launch kind =>
    intro k c hc
    obtain hc | ⟨-, rfl⟩ := getElem?_launch hc
    · exact h k c hc
    · exact fun hkind ↦ he (congrArg Event.launch hkind)
  | waitCollect _ _ hc => exact h.setChild hc rfl
  | setGroup hc => exact h.setChild hc rfl
  | finish hc => exact h.setChild hc rfl
  | collect _ hc => exact h.setChild hc rfl
  | _ => exact h

/-- The handler collects only where it does no harm. -/
def State.Admits (s : State) : Event → Prop
  | .collect k => ∀ c t, s.children[k]? = some c → c.ended = some t → s.Harmless k t
  | _ => True

theorem afterWait_foreground {kind : Kind} (h : kind = .foreground) :
    afterWait kind = .testExited := by
  rw [h]
  rfl

theorem State.OnTime.step {e : Event} (h : s.OnTime) (horder : s.Orderly) (hpipe : s.NoPipeline)
    (hadmits : s.Admits e) (hstep : Step s e s') : s'.OnTime := by
  cases hstep.change with
  | read _ hpc =>
    intro v hv
    refine h v ?_
    rw [State.upcoming, hpc]
    exact hv
  | @launch kind _ hpc =>
    intro v hv
    rw [lastStatus_launch]
    cases kind with
    | background =>
      refine h v ?_
      rw [State.upcoming, hpc]
      exact hv
    | _ =>
      rw [upcoming_of_waiting rfl List.getElem?_concat_length] at hv
      cases hv
  | @waitCollect p c t _ hpc hc hended _ =>
    intro v hv
    obtain ⟨hlast, hkind⟩ := horder.awaited_end hpipe hpc hc hended
    have hset : State.lastStatus
        { s.setChild p { c with collected := true } with status := t.raw, pc := afterWait c.kind } =
        s.lastStatus := lastStatus_setChild hc rfl
    rw [hset, hlast, ← printStatusInfo_raw]
    rw [afterWait_foreground hkind] at hv
    exact (Option.some.inj hv).symm
  | @waitError p c t _ hpc hc hended hcollected =>
    intro v hv
    obtain ⟨-, hkind⟩ := horder.awaited_end hpipe hpc hc hended
    rw [afterWait_foreground hkind] at hv
    refine h v ?_
    rw [upcoming_of_waiting hpc hc, if_pos hcollected]
    exact hv
  | @print status pc _ hprint =>
    intro v hv
    refine h v ?_
    rw [upcoming_of_ne_waiting fun p ↦ (printStep_ne_waiting hprint p).1,
      ← printStep_remaining hprint]
    rw [upcoming_of_ne_waiting fun p ↦ (printStep_ne_waiting hprint p).2] at hv
    exact hv
  | @setGroup k inGroup c hc _ =>
    intro v hv
    rw [upcoming_setChild { c with inGroup } hc rfl] at hv
    rw [@lastStatus_setChild s k c { c with inGroup } hc rfl]
    exact h v hv
  | @finish k t c hc hended =>
    intro v hv
    by_cases hkind : c.kind = .foreground
    · -- the main line waits for it, so the variable is still to change
      have hfree := horder.not_collected hc hended
      have hpc := horder.running k c hc (by rw [hkind]; exact nofun) hfree
      have hup := @upcoming_of_waiting
        { s.setChild k { c with ended := some t } with pending := true } k
        { c with ended := some t } hpc
        (List.getElem?_set_self (List.getElem?_eq_some_iff.mp hc).1)
      rw [hup, hfree] at hv
      cases hv
    · have hend : Child.foregroundEnd { c with ended := some t } = c.foregroundEnd := by
        rw [Child.foregroundEnd, Child.foregroundEnd, if_neg hkind, if_neg hkind]
      have hup : (s.setChild k { c with ended := some t }).upcoming = some v := hv
      have hlast : State.lastStatus
          { s.setChild k { c with ended := some t } with pending := true } = s.lastStatus :=
        lastStatus_setChild hc hend
      rw [upcoming_setChild { c with ended := some t } hc rfl] at hup
      rw [hlast]
      exact h v hup
  | @collect k c t _ hc hended _ _ =>
    exact (harmless_iff horder hpipe hc hended).mp (hadmits c t hc hended)
  | _ => exact h

end Invariant

/-! ## Every run -/

section Runs

variable {s s' : State} {es : List Event}

theorem Run.noPipeline (h : Run Step State.initial es s)
    (hforeground : ∀ e ∈ es, e ≠ .launch .pipeline) : s.NoPipeline :=
  (h.with_labels hforeground).invariant (fun _ _ _ hs hstep ↦ hs.step hstep.2 hstep.1) nofun

theorem Run.onTime (h : Run (fun a e b ↦ Step a e b ∧ a.Admits e) State.initial es s)
    (hforeground : ∀ e ∈ es, e ≠ .launch .pipeline) : s.OnTime := by
  have hkeep : ∀ a e b, a.Orderly ∧ a.NoPipeline ∧ a.OnTime →
      (Step a e b ∧ a.Admits e) ∧ e ≠ .launch .pipeline →
      b.Orderly ∧ b.NoPipeline ∧ b.OnTime := by
    rintro a e b ⟨horder, hpipe, htime⟩ ⟨⟨hstep, hadmits⟩, he⟩
    exact ⟨horder.step hstep, hpipe.step he hstep, htime.step horder hpipe hadmits hstep⟩
  exact ((h.with_labels hforeground).invariant hkeep
    ⟨State.orderly_initial, nofun, fun v hv ↦ (Option.some.inj hv).symm⟩).2.2

/-- How far the main line is from parsing. -/
def Point.distance : Point → ℕ
  | .parsing => 0
  | .prompt => 1
  | .storing _ => 2
  | .exited => 3
  | .signaled => 3
  | .stopped => 3
  | .testTermsig => 4
  | .testSignaled => 5
  | .testExited => 6
  | .waiting _ => 7

theorem printStep_distance {status status' : ℤ} {pc pc' : Point}
    (h : printStep status pc = some (status', pc')) : pc'.distance < pc.distance := by
  cases pc with
  | testExited =>
    cases h
    cases wifexited status <;> decide
  | testSignaled =>
    cases h
    cases wifsignaled status <;> decide
  | testTermsig =>
    cases h
    by_cases hw : wtermsig status ≠ 0 <;> simp [hw, Point.distance]
  | exited => cases h; exact Nat.lt_succ_self 2
  | signaled => cases h; exact Nat.lt_succ_self 2
  | stopped => cases h; exact Nat.lt_succ_self 2
  | storing => cases h; exact Nat.lt_succ_self 1
  | _ => cases h

/-- Undisturbed, the main line moves on, towards a line to parse. -/
theorem State.Orderly.advance {v : ℤ} (h : s.Orderly) (hpipe : s.NoPipeline)
    (hidle : s.handler = .idle) (hup : s.upcoming = some v) (hpc : s.pc ≠ .parsing) :
    ∃ e s₁, Step s e s₁ ∧ s₁.handler = .idle ∧ s₁.upcoming = some v ∧ s₁.children = s.children ∧
      s₁.pc.distance < s.pc.distance := by
  have hprint : ∀ status pc, printStep s.status s.pc = some (status, pc) →
      ∃ e s₁, Step s e s₁ ∧ s₁.handler = .idle ∧ s₁.upcoming = some v ∧ s₁.children = s.children ∧
        s₁.pc.distance < s.pc.distance := by
    intro status pc hstep
    refine ⟨.print, { s with status, pc }, ?_, hidle, ?_, rfl, printStep_distance hstep⟩
    · rw [Step, Shell.step, if_pos hidle, hstep, Option.map_some]
    · rw [upcoming_of_ne_waiting fun p ↦ (printStep_ne_waiting hstep p).1,
        ← printStep_remaining hstep] at hup
      rw [upcoming_of_ne_waiting fun p ↦ (printStep_ne_waiting hstep p).2]
      exact hup
  cases hs : s.pc with
  | parsing => exact absurd hs hpc
  | prompt =>
    rw [State.upcoming, hs] at hup
    exact ⟨.read, { s with pc := .parsing }, if_pos ⟨hidle, hs⟩, hidle, hup, rfl, Nat.one_pos⟩
  | waiting p =>
    obtain ⟨-, c, hc, hne⟩ := h.awaited p hs
    rw [upcoming_of_waiting hs hc] at hup
    obtain ⟨hcollected, hup⟩ := Option.ite_none_right_eq_some.mp hup
    obtain ⟨t, hended⟩ := Option.ne_none_iff_exists'.mp (h.collected p c hc hcollected)
    obtain ⟨-, hkind⟩ := h.awaited_end hpipe hs hc hended
    refine ⟨.waitpid, { s with pc := afterWait c.kind }, ?_, hidle, ?_, rfl, ?_⟩
    · simp only [Step, Shell.step, hidle, hs, State.waitFor, hc, hended, hcollected, if_true]
    · rw [afterWait_foreground hkind]
      exact hup
    · rw [afterWait_foreground hkind]
      exact Nat.lt_succ_self 6
  | _ => exact hs ▸ hprint _ _ (by rw [hs]; rfl)

theorem State.Orderly.reaches_parsing {v : ℤ} (h : s.Orderly) (hpipe : s.NoPipeline)
    (hidle : s.handler = .idle) (hup : s.upcoming = some v) :
    ∃ es s', Run Step s es s' ∧ s'.pc = .parsing ∧ s'.status = v ∧ s'.lastStatus = s.lastStatus := by
  induction hd : s.pc.distance using Nat.strongRecOn generalizing s with
  | ind d ih =>
    by_cases hpc : s.pc = .parsing
    · rw [State.upcoming, hpc] at hup
      exact ⟨[], s, .nil s, hpc, Option.some.inj hup, rfl⟩
    obtain ⟨e, s₁, hstep, hidle₁, hup₁, hchildren, hlt⟩ := h.advance hpipe hidle hup hpc
    have hpipe₁ : s₁.NoPipeline := fun k c hc ↦ hpipe k c (hchildren ▸ hc)
    obtain ⟨es, s', hrun, hparsing, hstatus, hlast⟩ :=
      ih _ (hd ▸ hlt) (h.step hstep) hpipe₁ hidle₁ hup₁ rfl
    refine ⟨e :: es, s', .cons hstep hrun, hparsing, hstatus, hlast.trans ?_⟩
    rw [State.lastStatus, State.lastStatus, hchildren]

/-- Whenever the shell parses a line, `$?` expands to the decoded status of the last completed
command in the foreground, as long as the handler collects children only where it does no harm. A
collection that does harm can be followed by steps to a line where `$?` expands to another value. -/
theorem dollar_question_iff_harmless (es : List Event) (s : State) :
    (Run (fun a e b ↦ Step a e b ∧ a.Admits e) State.initial es s →
      (∀ e ∈ es, e ≠ .launch .pipeline) → s.pc = .parsing → ∀ getenv heap rest,
        expandEnvironVar ⟨s.status, getenv, heap⟩ (dollar :: question :: rest) =
          memcpy (dollar :: question :: rest) (decimal s.lastStatus ++ [endString])) ∧
    ∀ (k : ℕ) (s₁ : State), Run Step State.initial es s →
      (∀ e ∈ es, e ≠ .launch .pipeline) → Step s (.collect k) s₁ → ¬ s.Admits (.collect k) →
      ∃ es' s', Run Step s₁ es' s' ∧ s'.pc = .parsing ∧ s'.lastStatus = s.lastStatus ∧
        s'.status ≠ s'.lastStatus := by
  constructor
  · intro hrun hforeground hpc getenv heap rest
    have hup : s.upcoming = some s.status := by
      rw [State.upcoming, hpc]
      rfl
    rw [expandEnvironVar_status, Run.onTime hrun hforeground s.status hup]
  · intro k s₁ hrun hforeground hstep hharm
    have horder := Run.orderly hrun
    have hpipe := Run.noPipeline hrun hforeground
    have horder₁ := horder.step hstep
    have hne : Event.collect k ≠ .launch .pipeline := nofun
    have hpipe₁ := hpipe.step hne hstep
    cases hstep.change with
    | @collect _ c t _ hc hended _ _ =>
      have hlate : ¬ State.OnTime { s.setChild k { c with collected := true } with
          status := t.raw, handler := .reporting k } := by
        refine fun htime ↦ hharm fun c' t' hc' hended' ↦ ?_
        cases hc.symm.trans hc'
        cases hended.symm.trans hended'
        exact (harmless_iff horder hpipe hc hended).mpr htime
      simp only [State.OnTime, not_forall] at hlate
      obtain ⟨v, hup, hwrong⟩ := hlate
      have hlast : State.lastStatus { s.setChild k { c with collected := true } with
          status := t.raw, handler := .reporting k } = s.lastStatus := lastStatus_setChild hc rfl
      have hreport : Step { s.setChild k { c with collected := true } with
          status := t.raw, handler := .reporting k } .report
          { s.setChild k { c with collected := true } with
            status := t.raw, handler := .idle, reports := s.reports ++ [k] } := rfl
      obtain ⟨es', s', hrest, hpc, hstatus, hlast'⟩ :=
        (horder₁.step hreport).reaches_parsing hpipe₁ rfl hup
      refine ⟨.report :: es', s', .cons hreport hrest, hpc, hlast'.trans hlast, ?_⟩
      rw [hstatus, hlast']
      exact hwrong

end Runs

theorem admits_of_ne_collect {e : Event} (h : ∀ k, e ≠ .collect k) (s : State) : s.Admits e := by
  cases e with
  | collect k => exact absurd rfl (h k)
  | _ => trivial

/-- A child in the background ends with 1 and is collected while the shell waits for a command that
ends with 3. -/
theorem dollar_question_three :
    ∃ es s, Run (fun a e b ↦ Step a e b ∧ a.Admits e) State.initial es s ∧ s.pc = .parsing ∧
      s.lastStatus = 3 ∧
      expandEnvironVar ⟨s.status, fun _ ↦ none, fun _ ↦ 0⟩ [dollar, question, 0] =
        memcpy [dollar, question, 0] (decimal s.lastStatus ++ [endString]) := by
  have hbefore : (runEvents [.read, .launch .background, .read, .launch .foreground,
      .setGroup 1 false, .finish 0 (.exited 1), .deliver] State.initial).any (fun a ↦
        a.pc = .waiting 1 ∧ (a.children[1]?.all fun c ↦ !c.collected) ∧
        (runEvents [.collect 0] a).any fun b ↦
          (runEvents [.report, .finish 1 (.exited 3), .waitpid, .print, .print, .print, .read] b).any
            fun s ↦ s.pc = .parsing ∧ s.lastStatus = 3) = true := by
    decide +kernel
  obtain ⟨a, hrun, ha⟩ := run_of_any hbefore
  obtain ⟨hpc, hfree, ha⟩ := of_decide_eq_true ha
  obtain ⟨b, hcollect, hb⟩ := run_of_any ha
  obtain ⟨s, hafter, hs⟩ := run_of_any hb
  obtain ⟨hparsing, hlast⟩ := of_decide_eq_true hs
  have hharmless : a.Admits (.collect 0) := by
    intro c t _ _
    rw [State.Harmless, hpc]
    refine .inr (.inl fun x hx ↦ ?_)
    rw [hx] at hfree
    simpa using hfree
  have hquiet : ∀ {es : List Event} {s s' : State}, Run Step s es s' →
      (∀ e ∈ es, ∀ k, e ≠ .collect k) → Run (fun a e b ↦ Step a e b ∧ a.Admits e) s es s' :=
    fun hrun hes ↦ (hrun.with_labels hes).mono fun a _ _ h ↦ ⟨h.1, admits_of_ne_collect h.2 a⟩
  cases hcollect with
  | cons hstep hnil =>
    cases hnil
    have hall := (hquiet hrun (by simp)).append
      ((Run.single ⟨hstep, hharmless⟩).append (hquiet hafter (by simp)))
    exact ⟨_, s, hall, hparsing, hlast,
      (dollar_question_iff_harmless _ s).1 hall (by simp) hparsing _ _ _⟩

/-- `false &`, and then a line with `$?` after the handler has collected the child. -/
theorem background_changes_status :
    ∃ es s, Run Step State.initial es s ∧ (∀ e ∈ es, e ≠ .launch .pipeline) ∧ s.pc = .parsing ∧
      s.lastStatus = 0 ∧
      expandEnvironVar ⟨s.status, fun _ ↦ none, fun _ ↦ 0⟩ [dollar, question, 0, 0] =
        .ok (decimal 256 ++ [endString]) ∧
      expandEnvironVar ⟨s.status, fun _ ↦ none, fun _ ↦ 0⟩ [dollar, question, 0, 0] ≠
        memcpy [dollar, question, 0, 0] (decimal s.lastStatus ++ [endString]) := by
  have hruns : (runEvents [.read, .launch .background, .finish 0 (.exited 1), .deliver, .collect 0,
      .report, .read] State.initial).any (fun s ↦ s.pc = .parsing ∧ s.lastStatus = 0 ∧
        expandEnvironVar ⟨s.status, fun _ ↦ none, fun _ ↦ 0⟩ [dollar, question, 0, 0] =
          .ok (decimal 256 ++ [endString]) ∧
        expandEnvironVar ⟨s.status, fun _ ↦ none, fun _ ↦ 0⟩ [dollar, question, 0, 0] ≠
          memcpy [dollar, question, 0, 0] (decimal s.lastStatus ++ [endString])) = true := by
    decide +kernel
  obtain ⟨s, hrun, hs⟩ := run_of_any hruns
  exact ⟨_, s, hrun, by simp, of_decide_eq_true hs⟩

end SistemasOperativos.Shell
