import SistemasOperativos.FisopFs.Types

/-!
# Entries and vectors of entries

The constructors and destructors of the three kinds of entries, and the growing vector of a
directory: `entrada.c`, `entrada_archivo.c` and `entrada_directorio.c` without the functions that
read and write the persistent image.
-/

namespace SistemasOperativos.FisopFs

def crearEntradaVacia : Op Entrada := do
  if ← pedir sizeofEntrada then return .vacio
  return .nula

/-- The `struct stat` of a new entry, as `crear_dir` and `crear_archivo` fill it. -/
def statNuevo (ent : Entorno) (modo : UInt32) : Stat where
  stNlink := 1
  stMode := modo
  stUid := ent.uid
  stGid := ent.gid
  stIno := 0
  stSize := 0
  stBlksize := 0
  stBlocks := 0
  stAtime := ent.ahora
  stMtime := ent.ahora
  stCtime := ent.ahora

/-- The three times set by every operation that changes an entry. -/
def Stat.tocar (st : Stat) (ahora : UInt64) : Stat :=
  { st with stMtime := ahora, stAtime := ahora, stCtime := ahora }

/-- The turns of the loop of `llenar_directorio_con_entradas_vacias` from `j` on, `n` of them. -/
def llenarDesde (entradas : List Entrada) (j : ℕ) : ℕ → Op (ℤ × List Entrada)
  | 0 => return (0, entradas)
  | n + 1 => do
    let nueva ← crearEntradaVacia
    if entradas.length ≤ j then throw .fueraDeRango
    let entradas := entradas.set j nueva
    match nueva with
    | .nula => return (-enomem, entradas)
    | _ => llenarDesde entradas (j + 1) n

def llenarDirectorioConEntradasVacias (directorio : EntradaDirectorio) :
    Op (ℤ × EntradaDirectorio) := do
  let ocupadas := directorio.cantidadEntradasOcupadas.toNat
  let (resultado, entradas) ← llenarDesde directorio.entradas ocupadas
    (directorio.cantidadEntradas.toNat - ocupadas)
  return (resultado, { directorio with entradas })

/-- `realloc(entradas, cantidad * sizeof(entrada_t *))`, which is `malloc` on an empty vector. A
NULL result is the empty vector: none of its slots can be read. -/
def reservarEntradas (entradas : List Entrada) (cantidad : UInt64) : Op (Bool × List Entrada) := do
  let bytes := cantidad * sizeofPuntero
  if ← pedir bytes then
    let n := bytes.toNat / 8
    return (true, (entradas ++ List.replicate n Entrada.indefinida).take n)
  return (false, [])

def expandirEntrdasDir (directorio : EntradaDirectorio) : Op (ℤ × EntradaDirectorio) := do
  if directorio.cantidadEntradas = directorio.cantidadEntradasOcupadas then
    let (previas, cantidadEntradas) :=
      if directorio.cantidadEntradas = 0 then ([], entradasIniciales)
      else (directorio.entradas, directorio.cantidadEntradas * multiplicadorEntradas)
    let (reservado, entradas) ← reservarEntradas previas cantidadEntradas
    let directorio := { directorio with cantidadEntradas, entradas }
    if !reservado then return (-enomem, directorio)
    llenarDirectorioConEntradasVacias directorio
  else
    return (0, directorio)

/-- The directory after the call, with the result and the slot that took the new entry. -/
def colocarEntradaDentroDeDirectorio (ahora : UInt64) (directorio : EntradaDirectorio)
    (nuevaEntrada : Entrada) : Op (ℤ × EntradaDirectorio × Option ℕ) := do
  match ← primera Entrada.esVacio directorio.cantidadEntradas.toNat directorio.entradas with
  | none => return (-enoent, directorio, none)
  | some i =>
    let directorio := { directorio with
      entradas := directorio.entradas.set i nuevaEntrada
      cantidadEntradasOcupadas := directorio.cantidadEntradasOcupadas + 1
      st := directorio.st.tocar ahora }
    let (resultado, directorio) ← expandirEntrdasDir directorio
    return (resultado, directorio, some i)

/-- The new directory, or the negative error that `crear_dir` returns. `reservado` tells whether the
caller got memory for it. -/
def crearDir (ent : Entorno) (reservado : Bool) (path : Cadena) (mode : UInt32) :
    Op (Except ℤ EntradaDirectorio) := do
  if !reservado then return .error (-efault)
  if h : path.length < maximoPath then
    let (resultado, directorio) ← expandirEntrdasDir
      { nombre := ⟨path, Nat.le_of_lt h⟩
        st := statNuevo ent mode
        cantidadEntradas := 0
        cantidadEntradasOcupadas := 0
        entradas := [] }
    if resultado ≠ 0 then return .error resultado
    return .ok directorio
  else return .error (-einval)

/-- The new file, or the negative error that `crear_archivo` returns. -/
def crearArchivo (ent : Entorno) (nombre : Cadena) (modo : UInt32) : Except ℤ EntradaArchivo :=
  if h : nombre.length < maximoPath then
    .ok { nombre := ⟨nombre, Nat.le_of_lt h⟩, st := statNuevo ent modo, contenido := [] }
  else .error (-einval)

def estaVacioDirectorio (directorio : EntradaDirectorio) : Bool :=
  directorio.cantidadEntradasOcupadas = 0

mutual

/-- The recursive release of a directory. It returns nothing; what matters is which slots it reads. -/
def liberarDir : EntradaDirectorio → Except Fallo Unit
  | ⟨_, _, cantidadEntradas, _, entradas⟩ => liberarEntradas cantidadEntradas.toNat entradas

def liberarEntradas : ℕ → List Entrada → Except Fallo Unit
  | 0, _ => .ok ()
  | _ + 1, [] => .error .fueraDeRango
  | n + 1, e :: es => do
    liberarEntrada e
    liberarEntradas n es

/-- One turn of the loop of `liberar_dir`, which skips NULL slots. -/
def liberarEntrada : Entrada → Except Fallo Unit
  | .directorio d => liberarDir d
  | .indefinida => .error .punteroIndefinido
  | _ => .ok ()

end

end SistemasOperativos.FisopFs
