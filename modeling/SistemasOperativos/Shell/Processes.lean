import SistemasOperativos.Library.Runs
import SistemasOperativos.Shell.Parsing

/-!
# The shell and its children

The shell as the operating system runs it: the main line of `run_cmd` and `print_status_info`, one
access to the variable `status` at a time, the handler of `SIGCHLD`, and the children, which end and
change their process group whenever they like. A signal that is already pending is merged with the
next one, and the handler runs with all signals blocked. The main line does not move while the
handler runs. A child is named by its place in the order of the calls to `fork`, all of which succeed.
-/

namespace SistemasOperativos.Shell

/-! ## Wait statuses -/

/-- How a process ended. -/
inductive Termination where
  | exited (code : UInt8)
  | killed (signal : ℕ) (core : Bool) (valid : 1 ≤ signal ∧ signal ≤ 126)
deriving DecidableEq

/-- The word that `waitpid` stores. -/
def Termination.raw : Termination → ℤ
  | .exited code => 256 * code.toNat
  | .killed signal core _ => signal + if core then 128 else 0

/-- The exit code, or minus the number of the signal. -/
def Termination.decoded : Termination → ℤ
  | .exited code => code.toNat
  | .killed signal _ _ => -signal

def wtermsig (status : ℤ) : ℤ := status % 128

def wexitstatus (status : ℤ) : ℤ := status / 256 % 256

def wstopsig (status : ℤ) : ℤ := wexitstatus status

def wifexited (status : ℤ) : Bool := wtermsig status = 0

def wifsignaled (status : ℤ) : Bool := 1 ≤ wtermsig status ∧ wtermsig status ≤ 126

/-! ## The state -/

/-- The command lines that `run_cmd` forks for. The first kind are the types `EXEC` and `REDIR`. -/
inductive Kind where
  | foreground
  | background
  | pipeline
deriving DecidableEq

/-- A child of the shell. -/
structure Child where
  kind : Kind
  /-- Whether it is in the process group of the shell. -/
  inGroup : Bool
  ended : Option Termination
  /-- Whether some call to `waitpid` has returned it. -/
  collected : Bool
deriving DecidableEq

/-- A child that `waitpid(0, …)` can return. -/
def Child.waitable (c : Child) : Bool := c.inGroup && c.ended.isSome && !c.collected

/-- What the main line does next. From `testExited` on it is inside `print_status_info`. -/
inductive Point where
  /-- Reading a line. -/
  | prompt
  /-- Inside `parse_line`, which expands the variables. -/
  | parsing
  /-- Inside `waitpid(p, &status, 0)`. -/
  | waiting (p : ℕ)
  | testExited
  | exited
  | testSignaled
  | signaled
  | testTermsig
  | stopped
  | storing (value : ℤ)
deriving DecidableEq

inductive Handler where
  | idle
  /-- About to call `waitpid`. -/
  | entered
  /-- About to print the process that `waitpid` returned. -/
  | reporting (k : ℕ)
deriving DecidableEq

structure State where
  status : ℤ
  pc : Point
  children : List Child
  /-- Whether a `SIGCHLD` is pending. -/
  pending : Bool
  handler : Handler
  /-- The processes that the handler has printed. -/
  reports : List ℕ
deriving DecidableEq

def State.initial : State where
  status := 0
  pc := .prompt
  children := []
  pending := false
  handler := .idle
  reports := []

/-! ## The main line -/

/-- One access to `status` of `print_status_info`, with the value it leaves there. -/
def printStep (status : ℤ) : Point → Option (ℤ × Point)
  | .testExited => some (status, if wifexited status then .exited else .testSignaled)
  | .exited => some (status, .storing (wexitstatus status))
  | .testSignaled => some (status, if wifsignaled status then .signaled else .testTermsig)
  | .signaled => some (status, .storing (-wtermsig status))
  | .testTermsig => some (status, if wtermsig status ≠ 0 then .stopped else .prompt)
  | .stopped => some (status, .storing (-wstopsig status))
  | .storing value => some (value, .prompt)
  | _ => none

/-- `print_status_info` does nothing for a pipeline. -/
def afterWait : Kind → Point
  | .pipeline => .prompt
  | _ => .testExited

/-- The child right after `fork`, still in the group of its parent. -/
def newChild (kind : Kind) : Child where
  kind
  inGroup := true
  ended := none
  collected := false

namespace State

variable (s : State)

def setChild (k : ℕ) (c : Child) : State := { s with children := s.children.set k c }

@[simp] theorem setChild_handler (k : ℕ) (c : Child) : (s.setChild k c).handler = s.handler := rfl

@[simp] theorem setChild_reports (k : ℕ) (c : Child) : (s.setChild k c).reports = s.reports := rfl

/-- The fork of `run_cmd` in the parent. -/
def launch (kind : Kind) : State :=
  { s with
    children := s.children ++ [newChild kind]
    pc := match kind with
      | .background => .prompt
      | _ => .waiting s.children.length }

/-- The call `waitpid(p, &status, 0)` when it returns: with the child, or with an error when the
handler has collected it before. -/
def waitFor (p : ℕ) : Option State :=
  match s.children[p]? with
  | none => none
  | some c =>
    match c.ended with
    | none => none
    | some t =>
      if c.collected then some { s with pc := afterWait c.kind }
      else some { s.setChild p { c with collected := true } with
        status := t.raw, pc := afterWait c.kind }

end State

/-! ## Steps -/

inductive Event where
  /-- A line was read that is no built-in command. -/
  | read
  | launch (kind : Kind)
  | waitpid
  | print
  /-- A child joins or leaves the group of the shell. The commands in the foreground leave it before
  they run. -/
  | setGroup (k : ℕ) (inGroup : Bool)
  | finish (k : ℕ) (t : Termination)
  /-- A child stops or continues, which is also signalled. -/
  | disturb
  | deliver
  /-- The handler calls `waitpid`, which returns a child, or none. -/
  | collect (k : ℕ)
  | collectNone
  | report
deriving DecidableEq

def step (s : State) : Event → Option State
  | .read => if s.handler = .idle ∧ s.pc = .prompt then some { s with pc := .parsing } else none
  | .launch kind => if s.handler = .idle ∧ s.pc = .parsing then some (s.launch kind) else none
  | .waitpid =>
    match s.handler, s.pc with
    | .idle, .waiting p => s.waitFor p
    | _, _ => none
  | .print =>
    if s.handler = .idle then
      (printStep s.status s.pc).map fun r ↦ { s with status := r.1, pc := r.2 }
    else none
  | .setGroup k inGroup =>
    match s.children[k]? with
    | some c => if c.ended = none then some (s.setChild k { c with inGroup }) else none
    | none => none
  | .finish k t =>
    match s.children[k]? with
    | some c =>
      if c.ended = none then some { s.setChild k { c with ended := some t } with pending := true }
      else none
    | none => none
  | .disturb => some { s with pending := true }
  | .deliver =>
    if s.handler = .idle ∧ s.pending = true then some { s with pending := false, handler := .entered }
    else none
  | .collect k =>
    match s.handler, s.children[k]? with
    | .entered, some c =>
      match c.ended with
      | some t =>
        if c.inGroup && !c.collected then
          some { s.setChild k { c with collected := true } with
            status := t.raw, handler := .reporting k }
        else none
      | none => none
    | _, _ => none
  | .collectNone =>
    if s.handler = .entered ∧ ∀ c ∈ s.children, c.waitable = false then
      some { s with handler := .idle }
    else none
  | .report =>
    match s.handler with
    | .reporting k => some { s with reports := s.reports ++ [k], handler := .idle }
    | _ => none

def Step (s : State) (e : Event) (s' : State) : Prop := step s e = some s'

/-- What one step does. -/
inductive Change (s : State) : Event → State → Prop where
  | read : s.handler = .idle → s.pc = .prompt → Change s .read { s with pc := .parsing }
  | launch {kind : Kind} : s.handler = .idle → s.pc = .parsing →
      Change s (.launch kind) (s.launch kind)
  | waitCollect {p : ℕ} {c : Child} {t : Termination} : s.handler = .idle → s.pc = .waiting p →
      s.children[p]? = some c → c.ended = some t → c.collected = false →
      Change s .waitpid { s.setChild p { c with collected := true } with
        status := t.raw, pc := afterWait c.kind }
  | waitError {p : ℕ} {c : Child} {t : Termination} : s.handler = .idle → s.pc = .waiting p →
      s.children[p]? = some c → c.ended = some t → c.collected = true →
      Change s .waitpid { s with pc := afterWait c.kind }
  | print {status : ℤ} {pc : Point} : s.handler = .idle →
      printStep s.status s.pc = some (status, pc) → Change s .print { s with status, pc }
  | setGroup {k : ℕ} {inGroup : Bool} {c : Child} : s.children[k]? = some c → c.ended = none →
      Change s (.setGroup k inGroup) (s.setChild k { c with inGroup })
  | finish {k : ℕ} {t : Termination} {c : Child} : s.children[k]? = some c → c.ended = none →
      Change s (.finish k t) { s.setChild k { c with ended := some t } with pending := true }
  | disturb : Change s .disturb { s with pending := true }
  | deliver : s.handler = .idle → s.pending = true →
      Change s .deliver { s with pending := false, handler := .entered }
  | collect {k : ℕ} {c : Child} {t : Termination} : s.handler = .entered →
      s.children[k]? = some c → c.ended = some t → c.inGroup = true → c.collected = false →
      Change s (.collect k) { s.setChild k { c with collected := true } with
        status := t.raw, handler := .reporting k }
  | collectNone : s.handler = .entered → (∀ c ∈ s.children, c.waitable = false) →
      Change s .collectNone { s with handler := .idle }
  | report {k : ℕ} : s.handler = .reporting k →
      Change s .report { s with reports := s.reports ++ [k], handler := .idle }

theorem Step.change {s s' : State} {e : Event} (h : Step s e s') : Change s e s' := by
  unfold Step at h
  cases e with
  | read =>
    simp only [step, Option.ite_none_right_eq_some, Option.some.injEq] at h
    obtain ⟨⟨hidle, hpc⟩, rfl⟩ := h
    exact .read hidle hpc
  | launch kind =>
    simp only [step, Option.ite_none_right_eq_some, Option.some.injEq] at h
    obtain ⟨⟨hidle, hpc⟩, rfl⟩ := h
    exact .launch hidle hpc
  | waitpid =>
    simp only [step] at h
    split at h
    · next p hidle hpc =>
      simp only [State.waitFor] at h
      split at h
      · cases h
      · next c hc =>
        split at h
        · cases h
        · next t ht =>
          cases hcollected : c.collected with
          | true =>
            rw [hcollected] at h
            cases h
            exact .waitError hidle hpc hc ht hcollected
          | false =>
            rw [hcollected] at h
            cases h
            exact .waitCollect hidle hpc hc ht hcollected
    · cases h
  | print =>
    simp only [step, Option.ite_none_right_eq_some, Option.map_eq_some_iff] at h
    obtain ⟨hidle, ⟨status, pc⟩, hprint, rfl⟩ := h
    exact .print hidle hprint
  | setGroup k inGroup =>
    simp only [step] at h
    split at h
    · next c hc =>
      simp only [Option.ite_none_right_eq_some, Option.some.injEq] at h
      obtain ⟨hended, rfl⟩ := h
      exact .setGroup hc hended
    · cases h
  | finish k t =>
    simp only [step] at h
    split at h
    · next c hc =>
      simp only [Option.ite_none_right_eq_some, Option.some.injEq] at h
      obtain ⟨hended, rfl⟩ := h
      exact .finish hc hended
    · cases h
  | disturb =>
    cases h
    exact .disturb
  | deliver =>
    simp only [step, Option.ite_none_right_eq_some, Option.some.injEq] at h
    obtain ⟨⟨hidle, hpending⟩, rfl⟩ := h
    exact .deliver hidle hpending
  | collect k =>
    simp only [step] at h
    split at h
    · next c hhandler hc =>
      split at h
      · next t ht =>
        simp only [Option.ite_none_right_eq_some, Option.some.injEq, Bool.and_eq_true,
          Bool.not_eq_true'] at h
        obtain ⟨⟨hgroup, hcollected⟩, rfl⟩ := h
        exact .collect hhandler hc ht hgroup hcollected
      · cases h
    · cases h
  | collectNone =>
    simp only [step, Option.ite_none_right_eq_some, Option.some.injEq] at h
    obtain ⟨⟨hentered, hnone⟩, rfl⟩ := h
    exact .collectNone hentered hnone
  | report =>
    simp only [step] at h
    split at h
    · next k hreporting =>
      cases h
      exact .report hreporting
    · cases h

/-- The state after a list of events, where all of them can happen. -/
def runEvents : List Event → State → Option State
  | [], s => some s
  | e :: es, s => (step s e).bind (runEvents es)

theorem run_of_runEvents {es : List Event} {s s' : State} (h : runEvents es s = some s') :
    Library.Run Step s es s' := by
  induction es generalizing s with
  | nil =>
    cases h
    exact .nil _
  | cons e es ih =>
    obtain ⟨s₁, hstep, hrest⟩ := Option.bind_eq_some_iff.mp h
    exact .cons hstep (ih hrest)

theorem run_of_any {es : List Event} {s : State} {p : State → Bool}
    (h : (runEvents es s).any p = true) : ∃ s', Library.Run Step s es s' ∧ p s' = true := by
  obtain ⟨s', hs', hp⟩ := (Option.any_eq_true _ _).mp h
  exact ⟨s', run_of_runEvents hs', hp⟩

/-! ## Children and the main line -/

/-- The main line waits for the youngest child, and only for a child that is not in the background.
Every other child that is not in the background has been collected. -/
structure State.Orderly (s : State) : Prop where
  collected : ∀ (k : ℕ) (c : Child), s.children[k]? = some c → c.collected = true →
    c.ended ≠ none
  awaited : ∀ p, s.pc = .waiting p →
    p + 1 = s.children.length ∧ ∃ c, s.children[p]? = some c ∧ c.kind ≠ .background
  running : ∀ (k : ℕ) (c : Child), s.children[k]? = some c → c.kind ≠ .background →
    c.collected = false → s.pc = .waiting k

theorem State.orderly_initial : State.initial.Orderly :=
  ⟨nofun, nofun, nofun⟩

section Orderly

variable {s s' : State}

theorem State.Orderly.not_collected {k : ℕ} {c : Child} (h : s.Orderly)
    (hc : s.children[k]? = some c) (hended : c.ended = none) : c.collected = false := by
  cases hcollected : c.collected with
  | false => rfl
  | true => exact absurd hended (h.collected k c hc hcollected)

theorem getElem?_setChild {k j : ℕ} {c' x : Child} (h : (s.setChild k c').children[j]? = some x) :
    j = k ∧ x = c' ∨ j ≠ k ∧ s.children[j]? = some x := by
  rw [State.setChild, List.getElem?_set] at h
  by_cases hj : k = j
  · rw [if_pos hj] at h
    obtain ⟨-, heq⟩ := Option.ite_none_right_eq_some.mp h
    exact .inl ⟨hj.symm, (Option.some.inj heq).symm⟩
  · rw [if_neg hj] at h
    exact .inr ⟨Ne.symm hj, h⟩

theorem getElem?_launch {kind : Kind} {k : ℕ} {c : Child}
    (h : (s.launch kind).children[k]? = some c) :
    s.children[k]? = some c ∨ k = s.children.length ∧ c = newChild kind := by
  rw [show (s.launch kind).children = s.children ++ [newChild kind] from rfl,
    List.getElem?_append] at h
  by_cases hk : k < s.children.length
  · rw [if_pos hk] at h
    exact .inl h
  · rw [if_neg hk, List.getElem?_singleton] at h
    obtain ⟨hzero, heq⟩ := Option.ite_none_right_eq_some.mp h
    exact .inr ⟨by omega, (Option.some.inj heq).symm⟩

/-- One child changes: it keeps its kind, and it is collected only after it ended. -/
theorem State.Orderly.setChild {k : ℕ} {c : Child} (c' : Child) (h : s.Orderly)
    (hc : s.children[k]? = some c) (hkind : c'.kind = c.kind)
    (hkeep : c'.collected = false → c.collected = false)
    (hcollected : c'.collected = true → c'.ended ≠ none) : (s.setChild k c').Orderly := by
  have hk : k < s.children.length := (List.getElem?_eq_some_iff.mp hc).1
  refine ⟨fun j x hx hcol ↦ ?_, fun p hp ↦ ?_, fun j x hx hne hfree ↦ ?_⟩
  · obtain ⟨-, rfl⟩ | ⟨-, hx⟩ := getElem?_setChild hx
    · exact hcollected hcol
    · exact h.collected j x hx hcol
  · obtain ⟨hlast, x, hx, hne⟩ := h.awaited p hp
    refine ⟨by rw [hlast]; exact List.length_set.symm, ?_⟩
    by_cases hj : p = k
    · subst hj
      cases hc.symm.trans hx
      exact ⟨c', List.getElem?_set_self hk, hkind ▸ hne⟩
    · exact ⟨x, by rw [← hx]; exact List.getElem?_set_ne (Ne.symm hj), hne⟩
  · obtain ⟨rfl, rfl⟩ | ⟨-, hx⟩ := getElem?_setChild hx
    · exact h.running j c hc (hkind ▸ hne) (hkeep hfree)
    · exact h.running j x hx hne hfree

/-- The main line leaves the wait, or moves elsewhere. -/
theorem State.Orderly.move {pc : Point} {status : ℤ} {pending : Bool} {handler : Handler}
    {reports : List ℕ} (h : s.Orderly) (hpc : ∀ p, pc ≠ .waiting p)
    (hp : ∀ p c, s.pc = .waiting p → s.children[p]? = some c → c.collected = true) :
    State.Orderly ⟨status, pc, s.children, pending, handler, reports⟩ := by
  refine ⟨h.collected, fun p hwait ↦ absurd hwait (hpc p), fun k c hc hne hfree ↦ ?_⟩
  rw [hp k c (h.running k c hc hne hfree) hc] at hfree
  cases hfree

theorem afterWait_ne_waiting (kind : Kind) (p : ℕ) : afterWait kind ≠ .waiting p := by
  cases kind <;> exact nofun

theorem printStep_ne_waiting {status status' : ℤ} {pc pc' : Point}
    (h : printStep status pc = some (status', pc')) (p : ℕ) :
    pc ≠ .waiting p ∧ pc' ≠ .waiting p := by
  constructor
  · intro hpc
    rw [hpc] at h
    cases h
  intro hpc'
  subst hpc'
  cases pc with
  | testExited => cases hw : wifexited status <;> simp [printStep, hw] at h
  | testSignaled => cases hw : wifsignaled status <;> simp [printStep, hw] at h
  | testTermsig => by_cases hw : wtermsig status ≠ 0 <;> simp [printStep, hw] at h
  | _ => cases h

theorem State.Orderly.launch {kind : Kind} (h : s.Orderly) (hpc : s.pc = .parsing) :
    (s.launch kind).Orderly := by
  have hlength : s.children.length + 1 = (s.launch kind).children.length := by
    change s.children.length + 1 = (s.children ++ [newChild kind]).length
    rw [List.length_append, List.length_singleton]
  refine ⟨fun k c hc hcol ↦ ?_, fun p hp ↦ ?_, fun k c hc hne hfree ↦ ?_⟩
  · obtain hc | ⟨-, rfl⟩ := getElem?_launch hc
    · exact h.collected k c hc hcol
    · cases hcol
  · cases kind with
    | background => cases hp
    | _ =>
      cases hp
      exact ⟨hlength, _, List.getElem?_concat_length, nofun⟩
  · obtain hc | ⟨rfl, rfl⟩ := getElem?_launch hc
    · have hwait := h.running k c hc hne hfree
      rw [hpc] at hwait
      cases hwait
    · cases kind with
      | background => exact absurd rfl hne
      | _ => rfl

theorem State.Orderly.step {e : Event} (h : s.Orderly) (hstep : Step s e s') : s'.Orderly := by
  have hidle : ∀ {status : ℤ} {pending : Bool} {handler : Handler} {reports : List ℕ},
      State.Orderly ⟨status, s.pc, s.children, pending, handler, reports⟩ :=
    ⟨h.collected, h.awaited, h.running⟩
  cases hstep.change with
  | read _ hpc => exact h.move nofun fun p c hp ↦ by rw [hpc] at hp; cases hp
  | launch _ hpc => exact h.launch hpc
  | @waitCollect p c t _ hpc hc hended hcollected =>
    have hset := h.setChild { c with collected := true } hc rfl nofun
      (fun _ hnone ↦ by rw [hended] at hnone; cases hnone)
    refine hset.move (afterWait_ne_waiting c.kind) fun q x hq hx ↦ ?_
    cases hpc.symm.trans hq
    rw [State.setChild, List.getElem?_set_self (List.getElem?_eq_some_iff.mp hc).1] at hx
    cases hx
    rfl
  | @waitError p c t _ hpc hc _ hcollected =>
    refine h.move (afterWait_ne_waiting c.kind) fun q x hq hx ↦ ?_
    cases hpc.symm.trans hq
    cases hc.symm.trans hx
    exact hcollected
  | print _ hprint =>
    exact h.move (fun p ↦ (printStep_ne_waiting hprint p).2)
      fun p c hp ↦ absurd hp (printStep_ne_waiting hprint p).1
  | @setGroup k inGroup c hc _ =>
    exact h.setChild { c with inGroup } hc rfl id (h.collected k c hc)
  | @finish k t c hc _ =>
    have hset := h.setChild { c with ended := some t } hc rfl id fun _ ↦ nofun
    exact ⟨hset.collected, hset.awaited, hset.running⟩
  | disturb => exact hidle
  | deliver => exact hidle
  | @collect k c t _ hc hended _ _ =>
    have hset := h.setChild { c with collected := true } hc rfl nofun
      (fun _ hnone ↦ by rw [hended] at hnone; cases hnone)
    exact ⟨hset.collected, hset.awaited, hset.running⟩
  | collectNone => exact hidle
  | report => exact hidle

theorem Run.orderly {es : List Event} (h : Library.Run Step State.initial es s) : s.Orderly :=
  h.invariant (fun _ _ _ hs hstep ↦ hs.step hstep) State.orderly_initial

end Orderly

end SistemasOperativos.Shell
