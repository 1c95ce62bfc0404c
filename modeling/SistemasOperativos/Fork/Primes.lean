import SistemasOperativos.Library.Runs
import SistemasOperativos.Fork.Pipes

/-!
# The prime sieve of `primes.c`

`main` and `proceso_filtro` as the processes run them, one system call or one statement at a time,
in any order among the processes. The calls to `fork` and `pipe` succeed. A process is named by its
place in the order of the calls to `fork`; `main` is process 0.
-/

namespace SistemasOperativos.Fork

/-- `INT_MAX`. -/
def intMax : ℤ := 2 ^ 31 - 1

/-! ## Processes -/

/-- The variables of a call of `proceso_filtro`. In `main` only `pipe_izq` is used. -/
structure Frame where
  pipeIzq : Fds
  pipeDer : Fds
  primo : ℤ
deriving DecidableEq

/-- The frame of a call. The program sets the other variables before it reads them. -/
def Frame.call (pipeIzq : Fds) : Frame where
  pipeIzq
  pipeDer := ⟨0, 0⟩
  primo := 0

/-- What a process does next. -/
inductive Point where
  /-- The calls to `pipe` and `fork` in `main`, and the generator. -/
  | mainPipe
  | mainFork
  | mainPadre
  /-- The test of the loop, then the `write` of `i`. -/
  | genera (i : ℤ)
  | mainCierra
  | mainWait
  /-- The first `close` of `proceso_filtro`. -/
  | filtro
  | filtroPipe
  | readPrimo
  /-- The four calls to `close` at the end of file. -/
  | vacioIzqRead
  | vacioIzqWrite
  | vacioDerRead
  | vacioDerWrite
  | printPrimo
  | filtroFork
  /-- The child, before, at and after its call of `proceso_filtro`. -/
  | hijo
  | hijoLlama
  | hijoVuelve
  | padre
  | readValue
  /-- The test on `value`, then its `write`. -/
  | filtra (value : ℤ)
  | cierraIzq
  | cierraDer
  | padreWait
  | vuelve
  | exited
deriving DecidableEq

structure Process where
  point : Point
  frame : Frame
  /-- The calls of `proceso_filtro` that have not returned, the latest first. -/
  callers : List Frame
  /-- The process forked, until `wait` returns it. Each process forks at most once. -/
  child : Option ℕ
  fds : Table
deriving DecidableEq

/-- Return from `main`, `exit`, or death by a signal: the kernel closes what is open. -/
def Process.exit (p : Process) : Process := { p with point := .exited, fds := [] }

/-- Where the next statement is a `close`: of which number, and what follows. -/
def Process.closing (p : Process) : Option (ℕ × Point) :=
  match p.point with
  | .mainPadre => some (p.frame.pipeIzq.read, .genera 2)
  | .mainCierra => some (p.frame.pipeIzq.write, .mainWait)
  | .filtro => some (p.frame.pipeIzq.write, .filtroPipe)
  | .vacioIzqRead => some (p.frame.pipeIzq.read, .vacioIzqWrite)
  | .vacioIzqWrite => some (p.frame.pipeIzq.write, .vacioDerRead)
  | .vacioDerRead => some (p.frame.pipeDer.read, .vacioDerWrite)
  | .vacioDerWrite => some (p.frame.pipeDer.write, .vuelve)
  | .hijo => some (p.frame.pipeIzq.read, .hijoLlama)
  | .hijoVuelve => some (p.frame.pipeDer.read, .vuelve)
  | .padre => some (p.frame.pipeDer.read, .readValue)
  | .cierraIzq => some (p.frame.pipeIzq.read, .cierraDer)
  | .cierraDer => some (p.frame.pipeDer.write, .padreWait)
  | _ => none

/-! ## The system -/

structure State where
  processes : List Process
  pipes : List Pipe
  /-- Which process printed which number, in order. -/
  printed : List (ℕ × ℤ)
deriving DecidableEq

namespace State

variable (s : State)

def initial : State where
  processes := [⟨.mainPipe, .call ⟨0, 0⟩, [], none, []⟩]
  pipes := []
  printed := []

/-- The numbers that process `k` has printed. -/
def printedBy (k : ℕ) : List ℤ := s.printed.filterMap fun x ↦ if x.1 = k then some x.2 else none

/-- Whether some process holds an end. -/
def isOpen (e : End) : Bool := s.processes.any fun p ↦ p.fds.holds e

def setProcess (k : ℕ) (p : Process) : State := { s with processes := s.processes.set k p }

/-- `pipe`, which gives the numbers of the new pipe to `f`. -/
def pipe (k : ℕ) (p : Process) (f : Fds → Process) : State :=
  let t := p.fds.install ⟨s.pipes.length, .read⟩
  let fds : Fds := ⟨p.fds.lowest, t.lowest⟩
  { s with
    processes := s.processes.set k { f fds with fds := t.install ⟨s.pipes.length, .write⟩ }
    pipes := s.pipes ++ [⟨[], 0⟩] }

/-- `fork` in a process `p`, after which parent and child go on at the given points. -/
def fork (k : ℕ) (p : Process) (inParent inChild : Point) : State :=
  { s with
    processes := s.processes.set k { p with point := inParent, child := some s.processes.length } ++
      [{ p with point := inChild, child := none }] }

/-- The rest of a `write`, after which the process goes on at `next`. -/
def afterWrite (k : ℕ) (p : Process) (next : Point) : Write → Option State
  | .blocks => none
  | .done pipes => some { s.setProcess k { p with point := next } with pipes }
  | .sigpipe => some (s.setProcess k p.exit)
  | .error => some (s.setProcess k p.exit)

/-- `wait(NULL)` blocks until the child has ended, and fails at once without one. -/
def wait (k : ℕ) (p : Process) (next : Process) : Option State :=
  match p.child with
  | none => some (s.setProcess k next)
  | some c =>
    if s.processes[c]?.any fun q ↦ q.point = .exited then
      some (s.setProcess k { next with child := none })
    else none

/-- The statements other than `close`. -/
def execute (cap : ℕ) (max : ℤ) (k : ℕ) (p : Process) : Option State :=
  match p.point with
  | .mainPipe => some (s.pipe k p fun fds ↦ { p with point := .mainFork, frame := .call fds })
  | .mainFork => some (s.fork k p .mainPadre .filtro)
  | .genera i =>
    -- the increment of `i` has overflowed
    if intMax < i then none
    else if i ≤ max then
      s.afterWrite k p (.genera (i + 1))
        (writePipe cap s.isOpen s.pipes p.fds p.frame.pipeIzq.write i)
    else some (s.setProcess k { p with point := .mainCierra })
  | .mainWait => s.wait k p p.exit
  | .filtroPipe =>
    some (s.pipe k p fun fds ↦
      { p with point := .readPrimo, frame := { p.frame with pipeDer := fds } })
  | .readPrimo =>
    match readPipe s.isOpen s.pipes p.fds p.frame.pipeIzq.read with
    | .blocks => none
    | .endOfFile => some (s.setProcess k { p with point := .vacioIzqRead })
    | .value v pipes =>
      some { s.setProcess k
          { p with point := .printPrimo, frame := { p.frame with primo := v } } with pipes }
    | .error => some (s.setProcess k { p with point := .printPrimo })
  | .printPrimo =>
    some { s.setProcess k { p with point := .filtroFork } with
      printed := s.printed ++ [(k, p.frame.primo)] }
  | .filtroFork => some (s.fork k p .padre .hijo)
  | .hijoLlama =>
    some (s.setProcess k
      { p with point := .filtro, frame := .call p.frame.pipeDer, callers := p.frame :: p.callers })
  | .readValue =>
    match readPipe s.isOpen s.pipes p.fds p.frame.pipeIzq.read with
    | .blocks => none
    | .value v pipes => some { s.setProcess k { p with point := .filtra v } with pipes }
    | .endOfFile => some (s.setProcess k { p with point := .cierraIzq })
    | .error => some (s.setProcess k { p with point := .cierraIzq })
  | .filtra value =>
    -- the remainder by 0 is undefined
    if p.frame.primo = 0 then none
    else if value.tmod p.frame.primo ≠ 0 then
      s.afterWrite k p .readValue
        (writePipe cap s.isOpen s.pipes p.fds p.frame.pipeDer.write value)
    else some (s.setProcess k { p with point := .readValue })
  | .padreWait => s.wait k p { p with point := .vuelve }
  | .vuelve =>
    match p.callers with
    | [] => some (s.setProcess k p.exit)
    | frame :: callers => some (s.setProcess k { p with point := .hijoVuelve, frame, callers })
  | _ => none

/-- The next statement of process `k`, or `none` where it cannot move. -/
def step (cap : ℕ) (max : ℤ) (k : ℕ) : Option State :=
  s.processes[k]?.bind fun p ↦
    match p.closing with
    | some (fd, next) => some (s.setProcess k { p with point := next, fds := p.fds.close fd })
    | none => s.execute cap max k p

end State

/-- A step of process `k`. -/
def Step (cap : ℕ) (max : ℤ) (s : State) (k : ℕ) (s' : State) : Prop := s.step cap max k = some s'

/-- The state after steps of the given processes. -/
def State.follow (cap : ℕ) (max : ℤ) (s : State) (ls : List ℕ) : Option State :=
  ls.foldlM (fun s k ↦ s.step cap max k) s

theorem run_of_follow {cap : ℕ} {max : ℤ} {s s' : State} {ls : List ℕ}
    (h : s.follow cap max ls = some s') : Library.Run (Step cap max) s ls s' := by
  induction ls generalizing s with
  | nil =>
    cases h
    exact .nil _
  | cons k ls ih =>
    obtain ⟨s₁, hfirst, hrest⟩ := Option.bind_eq_some_iff.mp h
    exact .cons hfirst (ih hrest)

end SistemasOperativos.Fork
