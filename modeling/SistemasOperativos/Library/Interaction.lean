import Mathlib.Tactic.Common

/-!
# Programs that call the world

A program as the tree of the calls that it makes: each call goes on with what the world answers, and
the program may stop before it has a result. A world answers the last of all calls so far. Calls
that the world does not see have no effect on the answers to the others.
-/

namespace SistemasOperativos.Library

/-- A program with results in `α` that makes calls, and stops early with an `End`. -/
inductive Interaction (Call Answer End α : Type) where
  | done (a : α)
  | stop (e : End)
  | call (c : Call) (next : Answer → Interaction Call Answer End α)

namespace Interaction

variable {Call Answer End α β : Type}

/-- The second program goes on from the result of the first one. -/
def andThen (x : Interaction Call Answer End α) (f : α → Interaction Call Answer End β) :
    Interaction Call Answer End β :=
  match x with
  | done a => f a
  | stop e => stop e
  | call c next => call c fun r ↦ (next r).andThen f

instance : Monad (Interaction Call Answer End) where
  pure := done
  bind := andThen

/-- One call, with its answer as the result. -/
def perform (c : Call) : Interaction Call Answer End Answer := call c done

/-- What a program comes to after some calls, and all calls until then. -/
def run (world : List Call → Answer) :
    Interaction Call Answer End α → List Call → Except End α × List Call
  | done a, past => (.ok a, past)
  | stop e, past => (.error e, past)
  | call c next, past => (next (world (past ++ [c]))).run world (past ++ [c])

section Run

variable {world : List Call → Answer} {x : Interaction Call Answer End α}
  {f : α → Interaction Call Answer End β} {past : List Call}

@[simp] theorem pure_run {a : α} :
    (pure a : Interaction Call Answer End α).run world past = (.ok a, past) := rfl

@[simp] theorem stop_run {e : End} :
    (stop e : Interaction Call Answer End α).run world past = (.error e, past) := rfl

@[simp] theorem perform_run {c : Call} :
    (perform c : Interaction Call Answer End Answer).run world past =
      (.ok (world (past ++ [c])), past ++ [c]) := rfl

theorem run_bind_ok {a : α} {past' : List Call} (h : x.run world past = (.ok a, past')) :
    (x >>= f).run world past = (f a).run world past' := by
  induction x generalizing past with
  | done a' =>
    obtain ⟨h₁, h₂⟩ := Prod.mk.inj h
    rw [← Except.ok.inj h₁, ← h₂]
    rfl
  | stop e => cases (Prod.mk.inj h).1
  | call c next ih => exact ih _ h

theorem run_bind_error {e : End} {past' : List Call} (h : x.run world past = (.error e, past')) :
    (x >>= f).run world past = (.error e, past') := by
  induction x generalizing past with
  | done a => cases (Prod.mk.inj h).1
  | stop e' =>
    obtain ⟨h₁, h₂⟩ := Prod.mk.inj h
    rw [← Except.error.inj h₁, ← h₂]
    rfl
  | call c next ih => exact ih _ h

/-- A run only adds calls. -/
theorem prefix_run (world : List Call → Answer) (x : Interaction Call Answer End α)
    (past : List Call) : past <+: (x.run world past).2 := by
  induction x generalizing past with
  | done a => exact List.prefix_rfl
  | stop e => exact List.prefix_rfl
  | call c next ih => exact (List.prefix_append past [c]).trans (ih _ (past ++ [c]))

end Run

/-- What has been called before does not matter where the world does not see it. -/
theorem run_visible {world : List Call → Answer} {visible : Call → Bool}
    (x : Interaction Call Answer End α) {past past' : List Call}
    (h : past.filter visible = past'.filter visible) :
    (x.run (fun calls ↦ world (calls.filter visible)) past).1 =
        (x.run (fun calls ↦ world (calls.filter visible)) past').1 ∧
      (x.run (fun calls ↦ world (calls.filter visible)) past).2.filter visible =
        (x.run (fun calls ↦ world (calls.filter visible)) past').2.filter visible := by
  induction x generalizing past past' with
  | done a => exact ⟨rfl, h⟩
  | stop e => exact ⟨rfl, h⟩
  | call c next ih =>
    have hnext : (past ++ [c]).filter visible = (past' ++ [c]).filter visible := by
      rw [List.filter_append, List.filter_append, h]
    rw [run, run, hnext]
    exact ih _ hnext

/-- Every call that a program can make has a property. -/
def Only (P : Call → Prop) : Interaction Call Answer End α → Prop
  | done _ => True
  | stop _ => True
  | call c next => P c ∧ ∀ r, (next r).Only P

section Only

variable {P : Call → Prop} {x : Interaction Call Answer End α}
  {f : α → Interaction Call Answer End β}

theorem Only.perform {c : Call} (h : P c) :
    (perform c : Interaction Call Answer End Answer).Only P := ⟨h, fun _ ↦ trivial⟩

theorem Only.bind (hx : x.Only P) (hf : ∀ a, (f a).Only P) : (x >>= f).Only P := by
  induction x with
  | done a => exact hf a
  | stop e => exact trivial
  | call c next ih => exact ⟨hx.1, fun r ↦ ih r (hx.2 r)⟩

theorem Only.run (hx : x.Only P) (world : List Call → Answer) {past : List Call}
    (hpast : ∀ c ∈ past, P c) : ∀ c ∈ (x.run world past).2, P c := by
  induction x generalizing past with
  | done a => exact hpast
  | stop e => exact hpast
  | call c next ih =>
    refine ih _ (hx.2 _) fun c' hc' ↦ ?_
    obtain hmem | hmem := List.mem_append.mp hc'
    · exact hpast c' hmem
    · rw [List.mem_singleton.mp hmem]
      exact hx.1

end Only

end Interaction

end SistemasOperativos.Library
