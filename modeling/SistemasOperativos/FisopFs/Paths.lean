import SistemasOperativos.FisopFs.Types

/-!
# Taking paths apart

The string functions of `utilidades.c`. Every one of them stores its result in a buffer of
`MAXIMO_PATH` bytes, terminator included, so a longer result is a buffer overflow.
-/

namespace SistemasOperativos.FisopFs

/-- `strcpy` into a buffer of `MAXIMO_PATH` bytes. -/
def strcpy (origen : Cadena) : Except Fallo Cadena :=
  if origen.length < maximoPath then .ok origen else .error .desborde

/-- The index of the last `'/'`, found by the backward loop of `obtener_parte_directorio` and by
`strrchr`. -/
def ultimaBarra : Cadena → Option ℕ
  | [] => none
  | c :: cs =>
    match ultimaBarra cs with
    | some i => some (i + 1)
    | none => if c = barra then some 0 else none

def obtenerParteDirectorio (path : Cadena) : Cadena :=
  if path.length = 0 then [punto]
  else if path = [barra] then path
  else match ultimaBarra path with
    | some 0 => path.take 1
    | some i => path.take i
    | none => [punto]

def obtenerDirectorioPath (path : Cadena) : Except Fallo Cadena := do
  let pathDirectorio ← strcpy path
  return obtenerParteDirectorio pathDirectorio

def obtenerNombreFinalPath (path : Cadena) : Except Fallo Cadena :=
  match ultimaBarra path with
  | some i => strcpy (path.drop (i + 1))
  | none => strcpy path

/-- The part before the first `'/'`, and the part after it where there is one. -/
def dividirPathEnDos (cadena : Cadena) : Except Fallo (Cadena × Option Cadena) := do
  let primeraParte ← strcpy (cadena.takeWhile (· ≠ barra))
  match cadena.dropWhile (· ≠ barra) with
  | [] => return (primeraParte, none)
  | _ :: segundaParte => return (primeraParte, some segundaParte)

end SistemasOperativos.FisopFs
