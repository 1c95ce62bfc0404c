import SistemasOperativos.FisopFs.Paths

/-!
# Looking an entry up by its path

`encontrar_entrada` returns a pointer into the tree. Here a pointer to an entry is the list of slots
that leads to it from the root, and reading or writing through the pointer is `en` and `poner`.
-/

namespace SistemasOperativos.FisopFs

/-- A pointer to an entry of the tree: the slots to follow from the root. -/
abbrev Ubicacion := List ℕ

/-- The entry at a location below the given one. -/
def Entrada.en : Entrada → Ubicacion → Option Entrada
  | e, [] => some e
  | .directorio d, i :: u => d.entradas[i]?.bind (·.en u)
  | _, _ :: _ => none

/-- The tree with the entry at a location replaced. -/
def Entrada.poner (nueva : Entrada) : Entrada → Ubicacion → Entrada
  | _, [] => nueva
  | .directorio d, i :: u =>
    .directorio { d with entradas := d.entradas.modify i (nueva.poner · u) }
  | e, _ :: _ => e

namespace Fs

def en (fs : Fs) (u : Ubicacion) : Option Entrada := (Entrada.directorio fs.raiz).en u

/-- The file system with the entry at a location replaced. The root stays a directory. -/
def poner (fs : Fs) (u : Ubicacion) (nueva : Entrada) : Fs :=
  match nueva.poner (.directorio fs.raiz) u with
  | .directorio raiz => { fs with raiz }
  | _ => fs

/-- Dereferencing the pointer that a lookup returned. -/
def apuntada (fs : Fs) : Option Ubicacion → Except Fallo Entrada
  | none => .error .punteroNulo
  | some u =>
    match fs.en u with
    | some e => .ok e
    | none => .error .punteroIndefinido

end Fs

/-- The recursive search. The recursion follows the path, so `pila` frames with the length of the
rest of the path are enough. -/
def encontrarEntradaRec (ahora : UInt64) : ℕ → Cadena → Option Cadena → EntradaDirectorio →
    Except Fallo (EntradaDirectorio × Option Ubicacion)
  | 0, _, _, _ => .error .desborde
  | pila + 1, entradaA, restoDelPath, directorio => do
    let directorio := { directorio with st := { directorio.st with stAtime := ahora } }
    let i? ← primera (fun e ↦ !e.esVacio && e.nombre == entradaA)
      directorio.cantidadEntradas.toNat directorio.entradas
    match i? with
    | none => return (directorio, none)
    | some i =>
      match restoDelPath with
      | none => return (directorio, some [i])
      | some resto =>
        match directorio.entradas[i]? with
        | some (.directorio hijo) =>
          let (siguiente, siguienteResto) ← dividirPathEnDos resto
          let (hijo, u) ← encontrarEntradaRec ahora pila siguiente siguienteResto hijo
          return ({ directorio with entradas := directorio.entradas.set i (.directorio hijo) },
            u.map (i :: ·))
        | _ => return (directorio, none)

/-- The lookup of a path: the file system with the access times of the directories it went through,
and the pointer it returns. An empty path makes `path + 1` point past the string. -/
def encontrarEntrada (ahora : UInt64) (path : Cadena) (fs : Fs) :
    Except Fallo (Fs × Option Ubicacion) := do
  if path = [barra] then return (fs, some [])
  match path with
  | [] => throw .fueraDeRango
  | _ :: resto =>
    let (entradaA, restoDelPath) ← dividirPathEnDos resto
    let (raiz, u) ← encontrarEntradaRec ahora path.length entradaA restoDelPath fs.raiz
    return ({ fs with raiz }, u)

end SistemasOperativos.FisopFs
