import SistemasOperativos.FisopFs.Handlers
import SistemasOperativos.Library.Codec

/-!
# The persistent image

The file that `fisopfs_flush` writes and `fisopfs_init` reads: the structure `fs`, then the tree in
depth-first order, each directory or file as its C structure and each file followed by its content.
Empty slots are not written. The reader meets every entry twice: it reads the shorter `entrada_t`
to see its type, seeks back, and reads the whole structure.
-/

namespace SistemasOperativos.FisopFs

open Library

/-! ## Layout of the structures -/

def tipoVacio : UInt8 := 86
def tipoArchivo : UInt8 := 65
def tipoDirectorio : UInt8 := 68

/-- The bytes of a string up to the terminator. -/
def leerCadena : List UInt8 → Cadena
  | [] => []
  | b :: bs => if h : b = 0 then [] else ⟨b, h⟩ :: leerCadena bs

theorem length_leerCadena_le (bs : List UInt8) : (leerCadena bs).length ≤ bs.length := by
  induction bs with
  | nil => exact Nat.le_refl _
  | cons b bs ih =>
    unfold leerCadena
    split
    · simp
    · simpa using ih

theorem leerCadena_append_zeros (s : Cadena) (n : ℕ) :
    leerCadena (s.map Caracter.octeto ++ List.replicate n 0) = s := by
  induction s with
  | nil => cases n <;> simp [leerCadena, List.replicate]
  | cons c s ih => simp [leerCadena, c.noNulo, ih]

/-- The buffer `nombre`. Its bytes after the terminator are never read as part of the name. -/
def codecNombre : Codec Nombre where
  size := maximoPath
  encode n := n.cadena.map Caracter.octeto ++ List.replicate (maximoPath - n.cadena.length) 0
  decode bs :=
    ⟨leerCadena (bs.take maximoPath),
      Nat.le_trans (length_leerCadena_le _) (List.length_take_le _ _)⟩
  length_encode n := by
    have h := n.cabe
    simp only [List.length_append, List.length_map, List.length_replicate]
    omega
  decode_encode n := by
    have h := n.cabe
    congr 1
    rw [List.take_of_length_le (by simp; omega), leerCadena_append_zeros]

/-- `struct stat`: the members that nothing writes are padding. -/
def codecStat : Codec Stat :=
  ((Codec.u64.skip 8).prod <| Codec.u64.prod <| Codec.u32.prod <| Codec.u32.prod <|
    Codec.u32.prod <| (Codec.u64.skip 12).prod <| Codec.u64.prod <| Codec.u64.prod <|
    Codec.u64.prod <| (Codec.u64.skip 8).prod <| (Codec.u64.skip 8).pad 32).map
  (fun (stIno, stNlink, stMode, stUid, stGid, stSize, stBlksize, stBlocks, stAtime, stMtime,
      stCtime) ↦ ⟨stNlink, stMode, stUid, stGid, stIno, stSize, stBlksize, stBlocks, stAtime,
        stMtime, stCtime⟩)
  (fun s ↦ (s.stIno, s.stNlink, s.stMode, s.stUid, s.stGid, s.stSize, s.stBlksize, s.stBlocks,
      s.stAtime, s.stMtime, s.stCtime))
  (fun _ ↦ rfl)

/-- `entrada_t`: the three members that every entry starts with. -/
def codecEntrada : Codec (Nombre × Stat × UInt8) :=
  codecNombre.prod (codecStat.prod (Codec.u8.pad 7))

/-- `entrada_archivo_t`, with the pointer to the content. -/
def codecEntradaArchivo : Codec ((Nombre × Stat × UInt8) × UInt64) :=
  codecEntrada.prod Codec.u64

/-- `entrada_directorio_t`, with the pointer to the vector. -/
def codecEntradaDirectorio : Codec ((Nombre × Stat × UInt8) × UInt64 × UInt64 × UInt64) :=
  codecEntrada.prod (Codec.u64.prod (Codec.u64.prod Codec.u64))

/-- `fisopfs_fs_t`: the pointer to the root and the space counter. -/
def codecFs : Codec (UInt64 × UInt64) := Codec.u64.prod Codec.u64

@[simp] theorem size_codecEntrada : codecEntrada.size = sizeofEntrada.toNat := by
  simp [codecEntrada, codecNombre, codecStat, maximoPath, sizeofEntrada]

@[simp] theorem size_codecEntradaArchivo :
    codecEntradaArchivo.size = sizeofEntradaArchivo.toNat := by
  simp [codecEntradaArchivo, sizeofEntrada, sizeofEntradaArchivo]

@[simp] theorem size_codecEntradaDirectorio :
    codecEntradaDirectorio.size = sizeofEntradaDirectorio.toNat := by
  simp [codecEntradaDirectorio, sizeofEntrada, sizeofEntradaDirectorio]

@[simp] theorem size_codecFs : codecFs.size = sizeofFisopfsFs.toNat := by
  simp [codecFs, sizeofFisopfsFs]

/-! ## Writing -/

/-- An output stream: the bytes written so far and, where the medium is limited, how many more it
accepts. -/
structure Salida where
  datos : List UInt8
  cupo : Option ℕ

/-- `fwrite` of one item: whether it was written whole. An item of no bytes counts as none. -/
def Salida.fwrite (s : Salida) (item : List UInt8) : Bool × Salida :=
  match s.cupo with
  | none => (!item.isEmpty, { s with datos := s.datos ++ item })
  | some c =>
    if item.length ≤ c then
      (!item.isEmpty, { datos := s.datos ++ item, cupo := some (c - item.length) })
    else (false, { datos := s.datos ++ item.take c, cupo := some 0 })

section Writer

-- the value of a pointer member that is written at a given offset of the image
variable (punt : ℕ → UInt64)

/-- Only the result of the first `fwrite` is looked at, twice. -/
def escribirEntradaArchivoEnArchivo (archivo : EntradaArchivo) (s : Salida) :
    Except Fallo (ℤ × Salida) := do
  let (resultado, s) := s.fwrite (codecEntradaArchivo.encode
    ((archivo.nombre, archivo.st, tipoArchivo), punt s.datos.length))
  if !resultado then return (-eio, s)
  if archivo.contenido.length < archivo.st.stSize.toNat then throw .fueraDeRango
  let (_, s) := s.fwrite (archivo.contenido.take archivo.st.stSize.toNat)
  if !resultado then return (-eio, s)
  return (0, s)

mutual

def escribirDirectorioEnArchivo : EntradaDirectorio → Salida → Except Fallo (ℤ × Salida)
  | ⟨nombre, st, cantidadEntradas, cantidadEntradasOcupadas, entradas⟩, s => do
    let (resultado, s) := s.fwrite (codecEntradaDirectorio.encode
      ((nombre, st, tipoDirectorio), cantidadEntradas, cantidadEntradasOcupadas,
        punt s.datos.length))
    if !resultado then return (-eio, s)
    escribirEntradas cantidadEntradas.toNat entradas s

/-- The loop of `escribir_directorio_en_archivo` over the slots. -/
def escribirEntradas : ℕ → List Entrada → Salida → Except Fallo (ℤ × Salida)
  | 0, _, s => .ok (0, s)
  | _ + 1, [], _ => .error .fueraDeRango
  | n + 1, e :: es, s => do
    let (resultado, s) ← escribirEntrada e s
    if resultado ≠ 0 then return (resultado, s)
    escribirEntradas n es s

/-- The `switch` in that loop. -/
def escribirEntrada : Entrada → Salida → Except Fallo (ℤ × Salida)
  | .directorio d, s => escribirDirectorioEnArchivo d s
  | .archivo a, s => escribirEntradaArchivoEnArchivo punt a s
  | .vacio, s => .ok (0, s)
  | .nula, _ => .error .punteroNulo
  | .indefinida, _ => .error .punteroIndefinido

end

/-- The result of the call and the persistence file after it. Opening the file for writing empties
it. -/
def fisopfsFlush (abre : Bool) (cupo : Option ℕ) (path : Cadena) (fs : Fs)
    (disco : Option (List UInt8)) : Except Fallo (ℤ × Option (List UInt8)) := do
  if maximoPath < path.length then return (-einval, disco)
  if !abre then return (-1, disco)
  let (resultado, s) := Salida.fwrite ⟨[], cupo⟩
    (codecFs.encode (punt 0, fs.espacioTotalOcupadoFs))
  if !resultado then return (-eio, some s.datos)
  let (resultado, s) ← escribirDirectorioEnArchivo punt fs.raiz s
  return (resultado, some s.datos)

end Writer

/-! ## Reading -/

/-- An input stream: the file and the position in it. -/
structure Lectura where
  datos : List UInt8
  pos : ℕ

namespace Lectura

/-- `fread` of one item of `n` bytes, which fails at the end of the file. -/
def fread (l : Lectura) (n : ℕ) : Option (List UInt8) × Lectura :=
  if l.pos + n ≤ l.datos.length then
    (some ((l.datos.drop l.pos).take n), { l with pos := l.pos + n })
  else (none, { l with pos := l.datos.length })

/-- `fseek(archivo, -n, SEEK_CUR)`. -/
def retroceder (l : Lectura) (n : ℕ) : Lectura := { l with pos := l.pos - n }

end Lectura

/-- The file, or NULL, with the stream after the call. -/
def crearEntradaArchivoDesdeArchivo (l : Lectura) : Op (Option EntradaArchivo × Lectura) := do
  if !(← pedir sizeofEntradaArchivo) then return (none, l)
  let (leido, l) := l.fread codecEntradaArchivo.size
  match leido with
  | none => return (none, l)
  | some bytes =>
    let ((nombre, st, _), _) := codecEntradaArchivo.decode bytes
    if st.stSize ≠ 0 then
      if !(← pedir st.stSize) then return (none, l)
      let (leido, l) := l.fread st.stSize.toNat
      match leido with
      | none => return (none, l)
      | some contenido => return (some ⟨nombre, st, contenido⟩, l)
    else return (some ⟨nombre, st, []⟩, l)

/-- The loop of `crear_directorio_desde_archivo` from slot `j` on, `n` turns of it, where `subdir`
is the recursive call. It stores into the vector without looking at its length. -/
def cargarEntradas (subdir : Lectura → Op (Option EntradaDirectorio × Lectura))
    (directorio : EntradaDirectorio) (j : ℕ) :
    ℕ → Lectura → Op (Option EntradaDirectorio × Lectura)
  | 0, l => return (some directorio, l)
  | n + 1, l => do
    let (leido, l) := l.fread codecEntrada.size
    match leido with
    | none =>
      liberarDir directorio
      return (none, l)
    | some bytes =>
      let (_, _, tipo) := codecEntrada.decode bytes
      let l' := l.retroceder codecEntrada.size
      if tipo = tipoDirectorio then
        let (subDirectorio, l) ← subdir l'
        match subDirectorio with
        | none =>
          liberarDir directorio
          return (none, l)
        | some sub =>
          if directorio.entradas.length ≤ j then throw .fueraDeRango
          cargarEntradas subdir
            { directorio with entradas := directorio.entradas.set j (.directorio sub) } (j + 1) n l
      else if tipo = tipoArchivo then
        let (archivo, l) ← crearEntradaArchivoDesdeArchivo l'
        if directorio.entradas.length ≤ j then throw .fueraDeRango
        match archivo with
        | none => return (none, l)
        | some a =>
          cargarEntradas subdir
            { directorio with entradas := directorio.entradas.set j (.archivo a) } (j + 1) n l
      else return (none, l)

/-- The directory, or NULL, with the stream after the call. Every level of the recursion consumes a
structure of the file, so `pila` frames with the length of the file are enough. -/
def crearDirectorioDesdeArchivo : ℕ → Lectura → Op (Option EntradaDirectorio × Lectura)
  | 0, _ => throw .desborde
  | pila + 1, l => do
    if !(← pedir sizeofEntradaDirectorio) then return (none, l)
    let (leido, l) := l.fread codecEntradaDirectorio.size
    match leido with
    | none => return (none, l)
    | some bytes =>
      let ((nombre, st, _), cantidadEntradas, cantidadEntradasOcupadas, _) :=
        codecEntradaDirectorio.decode bytes
      let (reservado, entradas) ← reservarEntradas [] cantidadEntradas
      if !reservado then return (none, l)
      let (cargado, l) ← cargarEntradas (crearDirectorioDesdeArchivo pila)
        ⟨nombre, st, cantidadEntradas, cantidadEntradasOcupadas, entradas⟩ 0
        cantidadEntradasOcupadas.toNat l
      match cargado with
      | none => return (none, l)
      | some directorio =>
        let (resultado, directorio) ← llenarDirectorioConEntradasVacias directorio
        if resultado ≠ 0 then return (none, l)
        return (some directorio, l)

/-! ## Starting the file system -/

def crearDirectorioRaiz (ent : Entorno) : Op Fs := do
  let reservado ← pedir sizeofEntradaDirectorio
  match ← crearDir ent reservado [barra] (sIfdir ||| 0o755) with
  | .error _ => throw .salida
  | .ok raiz =>
    return {
      raiz := { raiz with st := { raiz.st with stUid := 1717 } }
      espacioTotalOcupadoFs := sizeofFisopfsFs + sizeofEntradaDirectorio
      desbordado := false }

/-- The file system that a new process starts with, from its persistence file where there is
one. -/
def fisopfsInit (ent : Entorno) (disco : Option (List UInt8)) : Op Fs := do
  match disco with
  | none => crearDirectorioRaiz ent
  | some datos =>
    let (leido, l) := Lectura.fread ⟨datos, 0⟩ codecFs.size
    match leido with
    | none => throw .salida
    | some bytes =>
      let (_, espacioTotalOcupadoFs) := codecFs.decode bytes
      let (raiz, _) ← crearDirectorioDesdeArchivo datos.length l
      match raiz with
      | none => throw .salida
      | some raiz => return ⟨raiz, espacioTotalOcupadoFs, false⟩

end SistemasOperativos.FisopFs
