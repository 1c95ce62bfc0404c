import Mathlib.Algebra.Group.Int.Defs
import Mathlib.Algebra.Group.Nat.Defs
import Mathlib.Data.Int.Notation
import Mathlib.Data.List.Basic
import Mathlib.Tactic.Common

/-!
# Pipes and descriptor tables

What the kernel keeps for the processes of `primes.c`: pipes of integers, of which a process holds
ends under small numbers. `pipe` takes the two lowest free numbers, so that a number closed before
may come back for another end. Reads and writes are of one `int`, which is below `PIPE_BUF`, hence
atomic.
-/

namespace SistemasOperativos.Fork

/-! ## Ends -/

/-- `READ` and `WRITE`. -/
inductive Side where
  | read
  | write
deriving DecidableEq

/-- An end of a pipe. The pipes are named in the order of their creation. -/
structure End where
  pipe : ℕ
  side : Side
deriving DecidableEq

/-- A pipe: all that has been written to it, and how much of that has been read. -/
structure Pipe where
  sent : List ℤ
  taken : ℕ
deriving DecidableEq

/-- The array that `pipe` fills. -/
structure Fds where
  read : ℕ
  write : ℕ
deriving DecidableEq

/-! ## Tables -/

/-- What each descriptor of a process stands for. The numbers are counted from the first one after
the standard streams. -/
abbrev Table := List (Option End)

namespace Table

/-- The lowest number that is free. -/
def lowest (t : Table) : ℕ := t.idxOf none

def install (t : Table) (e : End) : Table :=
  if t.lowest < t.length then t.set t.lowest (some e) else t ++ [some e]

/-- `close`, which fails without effect on a number that is not in use. -/
def close (t : Table) (fd : ℕ) : Table := t.set fd none

def holds (t : Table) (e : End) : Bool := t.contains (some e)

@[simp]
theorem holds_iff {t : Table} {e : End} : t.holds e = true ↔ some e ∈ t := by simp [holds]

end Table

/-! ## Reading and writing -/

/-- What a `read` of one `int` does. -/
inductive Read where
  | blocks
  | endOfFile
  | value (v : ℤ) (pipes : List Pipe)
  | error

/-- What a `write` of one `int` does. Without a reader the process gets `SIGPIPE`. -/
inductive Write where
  | blocks
  | done (pipes : List Pipe)
  | sigpipe
  | error

/-- `open?` says whether some process holds an end. -/
def readPipe (open? : End → Bool) (pipes : List Pipe) (t : Table) (fd : ℕ) : Read :=
  match t[fd]? with
  | some (some ⟨j, .read⟩) =>
    match pipes[j]? with
    | none => .error
    | some q =>
      match q.sent[q.taken]? with
      | some v => .value v (pipes.set j { q with taken := q.taken + 1 })
      | none => if open? ⟨j, .write⟩ then .blocks else .endOfFile
  | _ => .error

/-- A pipe has room for `cap` integers. -/
def writePipe (cap : ℕ) (open? : End → Bool) (pipes : List Pipe) (t : Table) (fd : ℕ) (v : ℤ) :
    Write :=
  match t[fd]? with
  | some (some ⟨j, .write⟩) =>
    match pipes[j]? with
    | none => .error
    | some q =>
      if open? ⟨j, .read⟩ then
        if q.sent.length < q.taken + cap then .done (pipes.set j { q with sent := q.sent ++ [v] })
        else .blocks
      else .sigpipe
  | _ => .error

end SistemasOperativos.Fork
