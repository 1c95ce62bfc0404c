import Mathlib.Algebra.Group.Int.Defs
import Mathlib.Algebra.Group.Nat.Defs
import Mathlib.Data.Int.Notation
import Mathlib.Data.Nat.Notation

/-!
# Data model of fisopfs

The file system lives in one global variable: a tree of directories, each with a growing vector of
entries, and a counter of the bytes that the persistent image takes. Three C structures share their
first three members and are told apart by the member `tipo`; here they are the constructors of
`Entrada`. A slot of a vector is a C pointer, so it can also be NULL or hold no valid pointer at
all, and `Entrada` keeps both cases.

Sizes, offsets and counters are the 64-bit words of the source. Heap requests are answered by a
list that the caller of a handler supplies, and undefined behaviour is an explicit `Fallo`.
-/

namespace SistemasOperativos.FisopFs

/-- A character of a C string: any byte but the terminator. -/
structure Caracter where
  octeto : UInt8
  noNulo : octeto ≠ 0
deriving DecidableEq

/-- A C string, without its terminator; `strlen` is the length. -/
abbrev Cadena := List Caracter

def barra : Caracter := ⟨47, by decide⟩

def punto : Caracter := ⟨46, by decide⟩

def maximoPath : ℕ := 2048
def entradasIniciales : UInt64 := 5
def multiplicadorEntradas : UInt64 := 2

/-! ## Sizes of the C structures -/

def sizeofPuntero : UInt64 := 8
def sizeofEntrada : UInt64 := 2200
def sizeofEntradaArchivo : UInt64 := 2208
def sizeofEntradaDirectorio : UInt64 := 2224
def sizeofFisopfsFs : UInt64 := 16

/-- The largest request that `malloc` and `realloc` can serve. -/
def ptrdiffMax : ℕ := 2 ^ 63 - 1

/-! ## Error numbers -/

def eperm : ℤ := 1
def enoent : ℤ := 2
def eio : ℤ := 5
def enomem : ℤ := 12
def efault : ℤ := 14
def eisdir : ℤ := 21
def einval : ℤ := 22
def enospc : ℤ := 28

/-! ## File type bits of a mode -/

def sIfmt : UInt32 := 0o170000
def sIfdir : UInt32 := 0o040000
def sIfreg : UInt32 := 0o100000

/-- The members of `struct stat` that some function of the file system writes. -/
structure Stat where
  stNlink : UInt64
  stMode : UInt32
  stUid : UInt32
  stGid : UInt32
  stIno : UInt64
  stSize : UInt64
  stBlksize : UInt64
  stBlocks : UInt64
  stAtime : UInt64
  stMtime : UInt64
  stCtime : UInt64
deriving DecidableEq

/-- The member `nombre`: a string that fits in a buffer of `MAXIMO_PATH` bytes. -/
structure Nombre where
  cadena : Cadena
  cabe : cadena.length ≤ maximoPath
deriving DecidableEq

/-- A regular file. `contenido` is the allocated buffer, with NULL as the empty one; the file is its
first `st_size` bytes. -/
structure EntradaArchivo where
  nombre : Nombre
  st : Stat
  contenido : List UInt8
deriving DecidableEq

/-- A directory whose vector holds slots of type `α`. -/
structure EntradaDirectorioDe (α : Type) where
  nombre : Nombre
  st : Stat
  cantidadEntradas : UInt64
  cantidadEntradasOcupadas : UInt64
  entradas : List α

/-- What a slot of a vector of entries points to. -/
inductive Entrada where
  /-- An entry of type `VACIO`. -/
  | vacio
  /-- An entry of type `ARCHIVO`. -/
  | archivo (a : EntradaArchivo)
  /-- An entry of type `DIRECTORIO`. -/
  | directorio (d : EntradaDirectorioDe Entrada)
  /-- The NULL pointer. -/
  | nula
  /-- A pointer never assigned, or to memory already freed. -/
  | indefinida

abbrev EntradaDirectorio := EntradaDirectorioDe Entrada

/-- The member `tipo` of the three structures. -/
inductive Tipo where
  | vacio
  | archivo
  | directorio
deriving DecidableEq

/-- The global variable `fs`. -/
structure Fs where
  raiz : EntradaDirectorio
  espacioTotalOcupadoFs : UInt64
  /-- Whether some update of the counter has wrapped; not a member of the C structure. -/
  desbordado : Bool

/-! ## Undefined behaviour and the heap -/

/-- The ways in which a call does not return. -/
inductive Fallo where
  /-- A NULL pointer is dereferenced. -/
  | punteroNulo
  /-- A slot without a valid pointer is dereferenced. -/
  | punteroIndefinido
  /-- An array is read or written outside its bounds. -/
  | fueraDeRango
  /-- A string is copied into a buffer where it does not fit. -/
  | desborde
  /-- The process ends with `exit(EXIT_FAILURE)`. -/
  | salida
deriving DecidableEq

/-- The heap as a handler sees it: the answers to its next requests (an exhausted list serves
everything), and whether some request has already been refused. -/
structure Memoria where
  respuestas : List Bool
  agotada : Bool

/-- A computation that asks the heap for memory and may not return. -/
abbrev Op := StateT Memoria (Except Fallo)

/-- `malloc` or `realloc` of `n` bytes: whether the pointer returned is not NULL. -/
def pedir (n : UInt64) : Op Bool := fun m ↦
  if ptrdiffMax < n.toNat then .ok (false, { m with agotada := true })
  else match m.respuestas with
    | [] => .ok (true, m)
    | r :: rs => .ok (r, { respuestas := rs, agotada := m.agotada || !r })

/-- What a call reads from the system: the clock, the owner of the process, and the bytes that fresh
memory happens to hold. -/
structure Entorno where
  ahora : UInt64
  uid : UInt32
  gid : UInt32
  basura : ℕ → UInt8

namespace Entrada

/-- Reading `entrada->tipo`. -/
def tipo : Entrada → Except Fallo Tipo
  | .vacio => .ok .vacio
  | .archivo _ => .ok .archivo
  | .directorio _ => .ok .directorio
  | .nula => .error .punteroNulo
  | .indefinida => .error .punteroIndefinido

/-- The string in `entrada->nombre`. -/
def nombre : Entrada → Cadena
  | .archivo a => a.nombre.cadena
  | .directorio d => d.nombre.cadena
  | _ => []

def esVacio : Entrada → Bool
  | .vacio => true
  | _ => false

def esArchivo : Entrada → Bool
  | .archivo _ => true
  | _ => false

def esDirectorio : Entrada → Bool
  | .directorio _ => true
  | _ => false

/-- The slot holds an entry that can be read. -/
def asignada : Entrada → Bool
  | .nula => false
  | .indefinida => false
  | _ => true

/-- The slot holds a file or a directory. -/
def ocupada : Entrada → Bool
  | .archivo _ => true
  | .directorio _ => true
  | _ => false

end Entrada

/-- The loop `for (i = 0; i < n; i++)` over a vector that stops at the first entry with `p`. Every
turn reads the type of the entry, so it fails on a slot that holds none. -/
def primera (p : Entrada → Bool) : ℕ → List Entrada → Except Fallo (Option ℕ)
  | 0, _ => .ok none
  | _ + 1, [] => .error .fueraDeRango
  | n + 1, e :: es => do
    let _ ← e.tipo
    if p e then return some 0
    return (← primera p n es).map (· + 1)

end SistemasOperativos.FisopFs
