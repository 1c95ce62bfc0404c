import SistemasOperativos.FisopFs.Entries
import SistemasOperativos.FisopFs.Lookup

/-!
# The handlers of the file system calls

The functions that libfuse calls, except those that read and write the persistent image. The space
counter is a 64-bit unsigned word and file sizes are taken as such a word too, which is how every
expression of the source uses them.
-/

namespace SistemasOperativos.FisopFs

variable (max : UInt64) (ent : Entorno)

/-- A `size_t` returned as an `int`. -/
def intDe (n : UInt64) : ℤ := n.toUInt32.toBitVec.toInt

namespace Fs

/-- `fs.espacio_total_ocupado_fs += n`. -/
def sumar (fs : Fs) (n : UInt64) : Fs :=
  { fs with
    espacioTotalOcupadoFs := fs.espacioTotalOcupadoFs + n
    desbordado := fs.desbordado || decide (2 ^ 64 ≤ fs.espacioTotalOcupadoFs.toNat + n.toNat) }

/-- `fs.espacio_total_ocupado_fs -= n`. -/
def restar (fs : Fs) (n : UInt64) : Fs :=
  { fs with
    espacioTotalOcupadoFs := fs.espacioTotalOcupadoFs - n
    desbordado := fs.desbordado || decide (fs.espacioTotalOcupadoFs < n) }

/-- The two updates of the counter when a file of `viejo` bytes becomes one of `nuevo` bytes. -/
def recontar (fs : Fs) (viejo nuevo : UInt64) : Fs := (fs.restar viejo).sumar nuevo

end Fs

/-- `S_ISREG(mode)`. -/
def sIsreg (mode : UInt32) : Bool := mode &&& sIfmt = sIfreg

/-- `realloc(contenido, n)`. The bytes past the old buffer are whatever the heap holds there. -/
def reallocContenido (contenido : List UInt8) (n : UInt64) : Op (Option (List UInt8)) := do
  if ← pedir n then
    return some ((List.range n.toNat).map fun i ↦ contenido[i]?.getD (ent.basura i))
  return none

/-- `memcpy(destino + offset, buf, n)`. -/
def memcpy (destino buf : List UInt8) (offset n : ℕ) : Except Fallo (List UInt8) :=
  if offset + n ≤ destino.length ∧ n ≤ buf.length then
    .ok (destino.take offset ++ buf.take n ++ destino.drop (offset + n))
  else .error .fueraDeRango

/-! ## Reading -/

def fisopfsGetattr (path : Cadena) (fs : Fs) : Op (ℤ × Option Stat × Fs) := do
  if maximoPath < path.length then return (-einval, none, fs)
  let (fs, entrada) ← encontrarEntrada ent.ahora path fs
  match entrada with
  | none => return (-enoent, none, fs)
  | some _ =>
    match ← fs.apuntada entrada with
    | .archivo a => return (0, some a.st, fs)
    | .directorio d => return (0, some d.st, fs)
    | _ => throw .punteroIndefinido

/-- The result comes with the names given to `filler`. -/
def fisopfsReaddir (path : Cadena) (fs : Fs) : Op (ℤ × List Cadena × Fs) := do
  if maximoPath < path.length then return (-einval, [], fs)
  let puntos := [[punto], [punto, punto]]
  let (fs, entrada) ← encontrarEntrada ent.ahora path fs
  match ← fs.apuntada entrada with
  | .directorio directorio =>
    -- a full turn of the loop reads the type of every slot
    let _ ← primera (fun _ ↦ false) directorio.cantidadEntradas.toNat directorio.entradas
    let nombres := ((directorio.entradas.take directorio.cantidadEntradas.toNat).filter
      (!·.esVacio)).map Entrada.nombre
    let directorio := { directorio with st := { directorio.st with stAtime := ent.ahora } }
    return (0, puntos ++ nombres, fs.poner (entrada.getD []) (.directorio directorio))
  | e =>
    let _ ← e.tipo
    return (-enoent, puntos, fs)

/-- The result comes with the bytes copied into the buffer. -/
def fisopfsRead (path : Cadena) (size offset : UInt64) (fs : Fs) : Op (ℤ × List UInt8 × Fs) := do
  if maximoPath < path.length then return (-einval, [], fs)
  let (fs, entrada) ← encontrarEntrada ent.ahora path fs
  match entrada with
  | none => return (-enoent, [], fs)
  | some u =>
    match ← fs.apuntada entrada with
    | .archivo archivo =>
      let size := if archivo.st.stSize < offset + size then archivo.st.stSize - offset else size
      if archivo.contenido.length < offset.toNat + size.toNat then throw .fueraDeRango
      let buffer := (archivo.contenido.drop offset.toNat).take size.toNat
      let archivo := { archivo with st := { archivo.st with stAtime := ent.ahora } }
      return (intDe size, buffer, fs.poner u (.archivo archivo))
    | e =>
      let _ ← e.tipo
      return (-enoent, [], fs)

/-! ## Changing a directory -/

/-- The opening of the four handlers that change a directory: they take the path apart and look its
directory up, without checking that the lookup found anything. The result is the directory with its
location and the final name, or no directory where the path leads to something else. -/
def buscarDirectorio (ahora : UInt64) (path : Cadena) (fs : Fs) :
    Except Fallo (Fs × Cadena × Option (Ubicacion × EntradaDirectorio)) := do
  let pathDirectorio ← obtenerDirectorioPath path
  let nombre ← obtenerNombreFinalPath path
  let (fs, entrada) ← encontrarEntrada ahora pathDirectorio fs
  match ← fs.apuntada entrada with
  | .directorio directorio => return (fs, nombre, some (entrada.getD [], directorio))
  | e =>
    let _ ← e.tipo
    return (fs, nombre, none)

/-- The end of `fisopfs_mkdir` and `fisopfs_create`. When the new entry could not be placed it is
freed, and a slot that took it keeps a pointer to freed memory. -/
def colocarNueva (fs : Fs) (u : Ubicacion) (directorio : EntradaDirectorio) (nueva : Entrada)
    (tam : UInt64) : Op (ℤ × Fs) := do
  let (resultado, directorio, i) ←
    colocarEntradaDentroDeDirectorio ent.ahora directorio nueva
  if resultado ≠ 0 then
    let entradas := match i with
      | some i => directorio.entradas.set i .indefinida
      | none => directorio.entradas
    return (resultado, fs.poner u (.directorio { directorio with entradas }))
  return (0, (fs.poner u (.directorio directorio)).sumar tam)

def fisopfsMkdir (path : Cadena) (mode : UInt32) (fs : Fs) : Op (ℤ × Fs) := do
  if maximoPath < path.length then return (-einval, fs)
  if max < fs.espacioTotalOcupadoFs + sizeofEntradaDirectorio then return (-enospc, fs)
  let (fs, nombreNuevoDir, destino) ← buscarDirectorio ent.ahora path fs
  match destino with
  | none => return (-enoent, fs)
  | some (u, directorio) =>
    let reservado ← pedir sizeofEntradaDirectorio
    match ← crearDir ent reservado nombreNuevoDir (sIfdir ||| mode) with
    | .error resultado => return (resultado, fs)
    | .ok nuevoDirectorio =>
      colocarNueva ent fs u directorio (.directorio nuevoDirectorio) sizeofEntradaDirectorio

def fisopfsCreate (path : Cadena) (mode : UInt32) (fs : Fs) : Op (ℤ × Fs) := do
  if maximoPath < path.length then return (-einval, fs)
  if max < fs.espacioTotalOcupadoFs + sizeofEntradaArchivo then return (-enospc, fs)
  let (fs, nombreArchivo, destino) ← buscarDirectorio ent.ahora path fs
  match destino with
  | none => return (-enoent, fs)
  | some (u, directorio) =>
    if sIsreg mode then
      if !(← pedir sizeofEntradaArchivo) then return (-enomem, fs)
      match crearArchivo ent nombreArchivo mode with
      | .error resultado => return (resultado, fs)
      | .ok nuevoArchivo =>
        colocarNueva ent fs u directorio (.archivo nuevoArchivo) sizeofEntradaArchivo
    else return (enoent, fs)

/-- The common body of `fisopfs_unlink` and `fisopfs_rmdir`: the first entry of the right type with
the final name is released and its slot becomes empty. `negado` gives the error for an entry that
must stay. -/
def eliminar (esDelTipo : Entrada → Bool) (negado : Entrada → Option ℤ) (tam : UInt64)
    (path : Cadena) (fs : Fs) : Op (ℤ × Fs) := do
  if maximoPath < path.length then return (-einval, fs)
  let (fs, nombre, destino) ← buscarDirectorio ent.ahora path fs
  match destino with
  | none => return (-enoent, fs)
  | some (u, directorio) =>
    let i? ← primera (fun e ↦ esDelTipo e && e.nombre == nombre)
      directorio.cantidadEntradas.toNat directorio.entradas
    match i? with
    | none => return (enoent, fs)
    | some i =>
      let entrada := directorio.entradas[i]?.getD .nula
      match negado entrada with
      | some resultado => return (resultado, fs)
      | none =>
        match ← crearEntradaVacia with
        | .nula => return (-enomem, fs)
        | nueva =>
          liberarEntrada entrada
          let fs := fs.poner u (.directorio { directorio with
            entradas := directorio.entradas.set i nueva
            st := directorio.st.tocar ent.ahora
            cantidadEntradasOcupadas := directorio.cantidadEntradasOcupadas - 1 })
          return (0, fs.restar tam)

def fisopfsUnlink : Cadena → Fs → Op (ℤ × Fs) :=
  eliminar ent Entrada.esArchivo (fun _ ↦ none) sizeofEntradaArchivo

/-- The error of `fisopfs_rmdir` for a directory that still has entries. -/
def noVacio : Entrada → Option ℤ
  | .directorio d => if estaVacioDirectorio d then none else some (-eperm)
  | _ => none

def fisopfsRmdir : Cadena → Fs → Op (ℤ × Fs) :=
  eliminar ent Entrada.esDirectorio noVacio sizeofEntradaDirectorio

/-! ## Changing a file -/

/-- The opening of `fisopfs_truncate` and `fisopfs_write`: the file with its location, or the error
for a path that leads to none. -/
def buscarArchivo (ahora : UInt64) (path : Cadena) (fs : Fs) :
    Except Fallo (Fs × Except ℤ (Ubicacion × EntradaArchivo)) := do
  let (fs, entrada) ← encontrarEntrada ahora path fs
  match entrada with
  | none => return (fs, .error (-enoent))
  | some u =>
    match ← fs.apuntada entrada with
    | .directorio _ => return (fs, .error (-eisdir))
    | .archivo archivo => return (fs, .ok (u, archivo))
    | e =>
      let _ ← e.tipo
      return (fs, .error (-enoent))

/-- The end of `fisopfs_truncate`, once the file has the buffer `contenido`. -/
def ponerTamano (fs : Fs) (u : Ubicacion) (entrada : EntradaArchivo) (contenido : List UInt8)
    (size : UInt64) : Fs :=
  let st := { entrada.st.tocar ent.ahora with stSize := size }
  (fs.recontar entrada.st.stSize size).poner u (.archivo { entrada with contenido, st })

/-- A file truncated to nothing keeps its buffer and skips the space check. -/
def fisopfsTruncate (path : Cadena) (size : UInt64) (fs : Fs) : Op (ℤ × Fs) := do
  if maximoPath < path.length then return (-einval, fs)
  let (fs, buscado) ← buscarArchivo ent.ahora path fs
  match buscado with
  | .error resultado => return (resultado, fs)
  | .ok (u, entrada) =>
    if size ≠ 0 then
      if max < fs.espacioTotalOcupadoFs + size - entrada.st.stSize then return (-enospc, fs)
      match ← reallocContenido ent entrada.contenido size with
      | none => return (-enomem, fs)
      | some nuevoContenido => return (0, ponerTamano ent fs u entrada nuevoContenido size)
    else return (0, ponerTamano ent fs u entrada entrada.contenido size)

def fisopfsUtimens (path : Cadena) (ts : UInt64) (fs : Fs) : Op (ℤ × Fs) := do
  if maximoPath < path.length then return (-einval, fs)
  let (fs, entrada) ← encontrarEntrada ent.ahora path fs
  match entrada with
  | none => return (enoent, fs)
  | some u =>
    match ← fs.apuntada entrada with
    | .archivo a =>
      return (0, fs.poner u (.archivo { a with st := { a.st with stAtime := ts, stMtime := ts } }))
    | .directorio d =>
      return (0,
        fs.poner u (.directorio { d with st := { d.st with stAtime := ts, stMtime := ts } }))
    | _ => throw .punteroIndefinido

/-- The end of `fisopfs_write`: the bytes are copied into a file that is already long enough. -/
def copiarEnArchivo (fs : Fs) (u : Ubicacion) (archivo : EntradaArchivo) (buf : List UInt8)
    (size offset : UInt64) : Op (ℤ × Fs) := do
  let contenido ← memcpy archivo.contenido buf offset.toNat size.toNat
  let st := archivo.st.tocar ent.ahora
  return (intDe size, fs.poner u (.archivo { archivo with contenido, st }))

def fisopfsWrite (path : Cadena) (buf : List UInt8) (size offset : UInt64) (fs : Fs) :
    Op (ℤ × Fs) := do
  if maximoPath < path.length then return (-einval, fs)
  let (fs, buscado) ← buscarArchivo ent.ahora path fs
  match buscado with
  | .error resultado => return (resultado, fs)
  | .ok (u, archivo) =>
    if archivo.st.stSize < offset + size then
      if max < fs.espacioTotalOcupadoFs + size + offset - archivo.st.stSize then
        return (-enospc, fs)
      match ← reallocContenido ent archivo.contenido (size + offset) with
      | none => return (-eio, fs)
      | some contenido =>
        let st := { archivo.st with stSize := offset + size }
        copiarEnArchivo ent (fs.recontar archivo.st.stSize (size + offset)) u
          { archivo with contenido, st } buf size offset
    else copiarEnArchivo ent fs u archivo buf size offset

end SistemasOperativos.FisopFs
