import Mathlib.Algebra.Group.Int.Defs
import Mathlib.Algebra.Group.Nat.Defs
import Mathlib.Data.Int.Notation
import Mathlib.Data.Nat.Notation

/-!
# Data model of the shell

Characters are bytes and a block of memory is the list of its characters, so that a pointer into it
is an index. Every access outside a block is an explicit fault. The heap serves every request, and
the bytes that it hands out without clearing them are a parameter.
-/

namespace SistemasOperativos.Shell

/-- A block of memory. -/
abbrev Block := List UInt8

/-- A C string, without its terminator. -/
abbrev Str := List UInt8

def endString : UInt8 := 0
def endLine : UInt8 := 10
def space : UInt8 := 32
def dollar : UInt8 := 36
def ampersand : UInt8 := 38
def minus : UInt8 := 45
def lessThan : UInt8 := 60
def equals : UInt8 := 61
def greaterThan : UInt8 := 62
def question : UInt8 := 63
def bar : UInt8 := 124

def buflen : ℕ := 1024
def maxargs : ℕ := 20
def argsize : ℕ := 1024
def fnamesize : ℕ := 1024

/-- `sizeof(char *)`. -/
def sizeofPointer : ℕ := 8

inductive Fault where
  /-- An array or a block is read or written outside its bounds. -/
  | outOfBounds
deriving DecidableEq

/-- The member `type` of a command that is not a pipe. -/
inductive CmdType where
  | exec
  | redir
deriving DecidableEq

/-- The structure `execcmd`. The lengths of `argv` and `eargv` are `argc` and `eargc`, and each of
their elements is the block behind the pointer. -/
structure ExecCmd where
  type : CmdType
  scmd : Str
  argv : List Block
  eargv : List Block
  outFile : Str
  inFile : Str
  errFile : Str
deriving DecidableEq

/-- What a pointer to a command points to. A pipe has an empty `scmd`. -/
inductive Cmd where
  /-- The NULL pointer. -/
  | null
  | exec (e : ExecCmd)
  | back (scmd : Str) (c : ExecCmd)
  | pipe (leftcmd rightcmd : Cmd)
deriving DecidableEq

/-- What the parser reads besides the command line: the global variable `status`, the environment,
and the bytes that fresh memory happens to hold. -/
structure Globals where
  status : ℤ
  getenv : Str → Option Str
  heap : ℕ → UInt8

/-! ## Strings -/

def Block.read (block : Block) (i : ℕ) : Except Fault UInt8 :=
  match block[i]? with
  | some c => .ok c
  | none => .error .outOfBounds

/-- The string at the start of a block. -/
def cString : Block → Except Fault Str
  | [] => .error .outOfBounds
  | c :: cs => if c = endString then .ok [] else (c :: ·) <$> cString cs

/-- `strcpy` into an array of `n` characters. -/
def strcpy (n : ℕ) (source : Str) : Except Fault Str :=
  if source.length < n then .ok source else .error .outOfBounds

/-- The text that `sprintf` writes for `%d`. -/
def decimal (n : ℤ) : Str := (toString n).toList.map (·.toUInt8)

/-- `memcpy` to the start of a block. -/
def memcpy (block source : Block) : Except Fault Block :=
  if source.length ≤ block.length then .ok (source ++ block.drop source.length)
  else .error .outOfBounds

end SistemasOperativos.Shell
