import SistemasOperativos.FisopFs.Resolution
import SistemasOperativos.FisopFs.System
import SistemasOperativos.Library.Avoidance

/-!
# Parts of a path and their buffers

Every part of a path is copied into a buffer of `MAXIMO_PATH` bytes that has to hold its terminator
too, while the guard of the handlers lets a path of `MAXIMO_PATH` characters pass. The parts that
`dividir_path_en_dos` makes are shorter than the path by its slash, and `crear_dir` and
`crear_archivo` look at the length themselves. The copy of the whole path is one byte too long.
-/

namespace SistemasOperativos.FisopFs

open Library

/-- No string is copied into a buffer where it does not fit. -/
abbrev Cabe {α : Type} (x : Except Fallo α) : Prop := Except.Avoids Fallo.desborde x

/-- The same of a computation that asks the heap for memory. -/
abbrev OpCabe {α : Type} (op : Op α) : Prop := StateT.Avoids Fallo.desborde op

/-! ## Functions that copy no string -/

theorem tipo_cabe (e : Entrada) : Cabe e.tipo := by
  cases e <;> exact nofun

theorem primera_cabe (p : Entrada → Bool) (n : ℕ) (es : List Entrada) : Cabe (primera p n es) := by
  induction n generalizing es with
  | zero => exact .ok none
  | succ n ih =>
    cases es with
    | nil => exact .error nofun
    | cons e es =>
      refine (tipo_cabe e).bind fun _ _ ↦ ?_
      split
      · exact .pure _
      · exact (ih es).bind fun _ _ ↦ .pure _

theorem apuntada_cabe (fs : Fs) (p : Option Ubicacion) : Cabe (fs.apuntada p) := by
  unfold Fs.apuntada
  split
  · exact .error nofun
  · split
    · exact .ok _
    · exact .error nofun

theorem memcpy_cabe (destino buf : List UInt8) (offset n : ℕ) : Cabe (memcpy destino buf offset n) := by
  unfold memcpy
  split
  · exact .ok _
  · exact .error nofun

theorem pedir_cabe (n : UInt64) : OpCabe (pedir n) := by
  intro m
  obtain ⟨r, m', h⟩ := pedir_returns n m
  rw [h]
  exact .ok _

theorem crearEntradaVacia_cabe : OpCabe crearEntradaVacia := by
  refine (pedir_cabe _).bind fun r _ _ _ ↦ ?_
  cases r <;> exact .pure _

theorem llenarDesde_cabe (entradas : List Entrada) (j n : ℕ) : OpCabe (llenarDesde entradas j n) := by
  induction n generalizing entradas j with
  | zero => exact .pure _
  | succ n ih =>
    refine crearEntradaVacia_cabe.bind fun nueva _ _ _ ↦ ?_
    dsimp only
    split
    · exact .bind (.throw nofun) fun _ _ _ _ ↦ by split <;> first | exact .pure _ | exact ih _ _
    · split
      · exact .pure _
      · exact ih _ _

theorem llenarDirectorioConEntradasVacias_cabe (d : EntradaDirectorio) :
    OpCabe (llenarDirectorioConEntradasVacias d) :=
  (llenarDesde_cabe _ _ _).bind fun _ _ _ _ ↦ .pure _

theorem reservarEntradas_cabe (entradas : List Entrada) (cantidad : UInt64) :
    OpCabe (reservarEntradas entradas cantidad) := by
  refine (pedir_cabe _).bind fun r _ _ _ ↦ ?_
  cases r <;> exact .pure _

theorem expandirEntrdasDir_cabe (d : EntradaDirectorio) : OpCabe (expandirEntrdasDir d) := by
  unfold expandirEntrdasDir
  split
  · refine (reservarEntradas_cabe _ _).bind fun r _ _ _ ↦ ?_
    obtain ⟨reservado, entradas⟩ := r
    cases reservado with
    | true => exact llenarDirectorioConEntradasVacias_cabe _
    | false => exact .pure _
  · exact .pure _

theorem colocarEntradaDentroDeDirectorio_cabe (ahora : UInt64) (d : EntradaDirectorio)
    (nueva : Entrada) : OpCabe (colocarEntradaDentroDeDirectorio ahora d nueva) := by
  refine .bind (.lift (primera_cabe _ _ _)) fun i _ _ _ ↦ ?_
  cases i with
  | none => exact .pure _
  | some i => exact (expandirEntrdasDir_cabe _).bind fun _ _ _ _ ↦ .pure _

theorem colocarNueva_cabe (ent : Entorno) (fs : Fs) (u : Ubicacion) (d : EntradaDirectorio)
    (nueva : Entrada) (tam : UInt64) : OpCabe (colocarNueva ent fs u d nueva tam) := by
  refine (colocarEntradaDentroDeDirectorio_cabe _ _ _).bind fun r _ _ _ ↦ ?_
  dsimp only
  split <;> exact .pure _

theorem reallocContenido_cabe (ent : Entorno) (contenido : List UInt8) (n : UInt64) :
    OpCabe (reallocContenido ent contenido n) := by
  refine (pedir_cabe n).bind fun r _ _ _ ↦ ?_
  cases r <;> exact .pure _

theorem liberarEntradas_cabe {es : List Entrada} (h : ∀ e ∈ es, Cabe (liberarEntrada e)) (n : ℕ) :
    Cabe (liberarEntradas n es) := by
  induction n generalizing es with
  | zero =>
    rw [liberarEntradas]
    exact .ok ()
  | succ n ih =>
    cases es with
    | nil =>
      rw [liberarEntradas]
      exact .error nofun
    | cons e es =>
      rw [liberarEntradas]
      exact (h e List.mem_cons_self).bind fun _ _ ↦ ih fun x hx ↦ h x (List.mem_cons_of_mem e hx)

/-- The release of an entry, by induction on its tree. -/
theorem liberarEntrada_cabe (e : Entrada) : Cabe (liberarEntrada e) := by
  induction e using Entrada.induccion with
  | directorio d ih =>
    obtain ⟨nombre, st, cantidad, ocupadas, entradas⟩ := d
    rw [liberarEntrada, liberarDir]
    exact liberarEntradas_cabe ih _
  | indefinida =>
    rw [liberarEntrada]
    exact .error nofun
  | vacio =>
    rw [liberarEntrada] <;> first | exact .ok () | exact nofun
  | archivo a =>
    rw [liberarEntrada] <;> first | exact .ok () | exact nofun
  | nula =>
    rw [liberarEntrada] <;> first | exact .ok () | exact nofun

/-! ## Taking a path apart -/

theorem strcpy_cabe {origen : Cadena} (h : origen.length < maximoPath) : Cabe (strcpy origen) := by
  rw [strcpy, if_pos h]
  exact .ok _

theorem strcpy_desborda {origen : Cadena} (h : ¬ origen.length < maximoPath) :
    strcpy origen = .error .desborde := by
  rw [strcpy, if_neg h]

theorem length_obtenerParteDirectorio (path : Cadena) :
    (obtenerParteDirectorio path).length ≤ max path.length 1 := by
  unfold obtenerParteDirectorio
  split
  · exact Nat.le_max_right _ _
  · split
    · exact Nat.le_max_left _ _
    · split
      · exact Nat.le_trans (List.length_take_le 1 path) (Nat.le_max_right _ _)
      · exact Nat.le_trans (List.length_take_le' _ path) (Nat.le_max_left _ _)
      · exact Nat.le_max_right _ _

theorem obtenerNombreFinalPath_cabe {path : Cadena} (h : path.length < maximoPath) :
    Cabe (obtenerNombreFinalPath path) := by
  unfold obtenerNombreFinalPath
  split
  · apply strcpy_cabe
    rw [List.length_drop]
    omega
  · exact strcpy_cabe h

/-- Both parts of a string that fits in a buffer fit there, and the second one is shorter. -/
theorem dividirPathEnDos_cabe {cadena : Cadena} (h : cadena.length < maximoPath) :
    Cabe (dividirPathEnDos cadena) ∧ ∀ primera segunda,
      dividirPathEnDos cadena = .ok (primera, some segunda) → segunda.length < cadena.length := by
  have hprimera : (cadena.takeWhile (· ≠ barra)).length < maximoPath :=
    Nat.lt_of_le_of_lt (List.takeWhile_sublist _).length_le h
  have hsegunda := (List.dropWhile_suffix (l := cadena) (· ≠ barra)).length_le
  unfold dividirPathEnDos
  rw [strcpy_corto hprimera]
  cases hresto : cadena.dropWhile (· ≠ barra) with
  | nil => exact ⟨.pure _, nofun⟩
  | cons c segunda =>
    refine ⟨.pure _, fun primera segunda' heq ↦ ?_⟩
    cases heq
    rw [hresto, List.length_cons] at hsegunda
    omega

/-- The recursive search takes shorter and shorter parts, so its frames are enough. -/
theorem encontrarEntradaRec_cabe (ahora : UInt64) {pila : ℕ} (entradaA : Cadena)
    {resto : Option Cadena} (d : EntradaDirectorio) (hpila : 0 < pila)
    (h : ∀ c, resto = some c → c.length < maximoPath ∧ c.length + 1 < pila) :
    Cabe (encontrarEntradaRec ahora pila entradaA resto d) := by
  induction pila generalizing entradaA resto d with
  | zero => exact absurd hpila (Nat.lt_irrefl 0)
  | succ pila ih =>
    rw [encontrarEntradaRec]
    refine (primera_cabe _ _ _).bind fun i _ ↦ ?_
    cases i with
    | none => exact .pure _
    | some i =>
      cases resto with
      | none => exact .pure _
      | some c =>
        obtain ⟨hcorto, hfrente⟩ := h c rfl
        obtain ⟨hdivide, hsegunda⟩ := dividirPathEnDos_cabe hcorto
        dsimp only
        split
        · refine hdivide.bind fun partes hpartes ↦ ?_
          obtain ⟨primera, segunda⟩ := partes
          refine Except.Avoids.bind (ih _ _ (by omega) fun c' hc' ↦ ?_) fun _ _ ↦ .pure _
          have hmenos := hsegunda primera c' (hc' ▸ hpartes)
          exact ⟨Nat.lt_trans hmenos hcorto, by omega⟩
        · exact .pure _

theorem encontrarEntrada_cabe (ahora : UInt64) {path : Cadena} (h : path.length ≤ maximoPath)
    (fs : Fs) : Cabe (encontrarEntrada ahora path fs) := by
  unfold encontrarEntrada
  split
  · exact .pure _
  · cases path with
    | nil => exact .error nofun
    | cons c resto =>
      have hcorto : resto.length < maximoPath := by
        rw [List.length_cons] at h
        omega
      obtain ⟨hdivide, hsegunda⟩ := dividirPathEnDos_cabe hcorto
      refine hdivide.bind fun partes hpartes ↦ ?_
      obtain ⟨primera, segunda⟩ := partes
      refine Except.Avoids.bind ?_ fun _ _ ↦ .pure _
      apply encontrarEntradaRec_cabe
      · exact Nat.succ_pos _
      · intro c' hc'
        have hmenos := hsegunda primera c' (hc' ▸ hpartes)
        rw [List.length_cons]
        exact ⟨Nat.lt_trans hmenos hcorto, by omega⟩

/-- The opening of the handlers that change a directory copies the whole path first. -/
theorem buscarDirectorio_cabe (ahora : UInt64) {path : Cadena} (h : path.length < maximoPath) (fs : Fs) :
    Cabe (buscarDirectorio ahora path fs) := by
  have hparte : (obtenerParteDirectorio path).length ≤ maximoPath := by
    have hle := length_obtenerParteDirectorio path
    have huno : 1 ≤ maximoPath := by decide
    omega
  unfold buscarDirectorio obtenerDirectorioPath
  rw [strcpy_corto h]
  refine Except.Avoids.bind (.pure _) fun pathDirectorio hpd ↦ ?_
  cases hpd
  refine (obtenerNombreFinalPath_cabe h).bind fun nombre _ ↦ ?_
  refine (encontrarEntrada_cabe ahora hparte fs).bind fun r _ ↦ ?_
  refine (apuntada_cabe _ _).bind fun e _ ↦ ?_
  cases e with
  | directorio d => exact .pure _
  | _ => exact (tipo_cabe _).bind fun _ _ ↦ .pure _

theorem buscarDirectorio_desborda (ahora : UInt64) {path : Cadena} (h : ¬ path.length < maximoPath)
    (fs : Fs) : buscarDirectorio ahora path fs = .error .desborde := by
  unfold buscarDirectorio obtenerDirectorioPath
  rw [strcpy_desborda h]
  rfl

theorem buscarArchivo_cabe (ahora : UInt64) {path : Cadena} (h : path.length ≤ maximoPath) (fs : Fs) :
    Cabe (buscarArchivo ahora path fs) := by
  refine (encontrarEntrada_cabe ahora h fs).bind fun r _ ↦ ?_
  obtain ⟨fs, entrada⟩ := r
  cases entrada with
  | none => exact .pure _
  | some u =>
    refine (apuntada_cabe _ _).bind fun e _ ↦ ?_
    cases e with
    | directorio d => exact .pure _
    | archivo a => exact .pure _
    | _ => exact (tipo_cabe _).bind fun _ _ ↦ .pure _

/-! ## The handlers -/

section Handlers

variable (max : UInt64) (ent : Entorno) {path : Cadena} (fs : Fs)

theorem fisopfsGetattr_cabe (h : path.length ≤ maximoPath) : OpCabe (fisopfsGetattr ent path fs) := by
  unfold fisopfsGetattr
  split
  · exact .pure _
  · refine .bind (.lift (encontrarEntrada_cabe ent.ahora h fs)) fun r _ _ _ ↦ ?_
    obtain ⟨fs, entrada⟩ := r
    cases entrada with
    | none => exact .pure _
    | some u =>
      refine .bind (.lift (apuntada_cabe _ _)) fun e _ _ _ ↦ ?_
      cases e with
      | archivo a => exact .pure _
      | directorio d => exact .pure _
      | _ => exact .throw nofun

theorem fisopfsReaddir_cabe (h : path.length ≤ maximoPath) : OpCabe (fisopfsReaddir ent path fs) := by
  unfold fisopfsReaddir
  split
  · exact .pure _
  · refine .bind (.lift (encontrarEntrada_cabe ent.ahora h fs)) fun r _ _ _ ↦ ?_
    refine .bind (.lift (apuntada_cabe _ _)) fun e _ _ _ ↦ ?_
    cases e with
    | directorio d => exact .bind (.lift (primera_cabe _ _ _)) fun _ _ _ _ ↦ .pure _
    | _ => exact .bind (.lift (tipo_cabe _)) fun _ _ _ _ ↦ .pure _

theorem fisopfsRead_cabe (size offset : UInt64) (h : path.length ≤ maximoPath) :
    OpCabe (fisopfsRead ent path size offset fs) := by
  unfold fisopfsRead
  split
  · exact .pure _
  · refine .bind (.lift (encontrarEntrada_cabe ent.ahora h fs)) fun r _ _ _ ↦ ?_
    obtain ⟨fs, entrada⟩ := r
    cases entrada with
    | none => exact .pure _
    | some u =>
      refine .bind (.lift (apuntada_cabe _ _)) fun e _ _ _ ↦ ?_
      cases e with
      | archivo a =>
        -- the first case split is on the size that is read, the second one on the buffer
        dsimp only
        split <;> split
        all_goals first | exact .pure _ | exact .bind (.throw nofun) fun _ _ _ _ ↦ .pure _
      | _ => exact .bind (.lift (tipo_cabe _)) fun _ _ _ _ ↦ .pure _

theorem crearDir_cabe (reservado : Bool) (nombre : Cadena) (mode : UInt32) :
    OpCabe (crearDir ent reservado nombre mode) := by
  unfold crearDir
  cases reservado with
  | false => exact .pure _
  | true =>
    simp only [Bool.not_true, Bool.false_eq_true, if_false]
    split
    · refine (expandirEntrdasDir_cabe _).bind fun r _ _ _ ↦ ?_
      split <;> exact .pure _
    · exact .pure _

theorem fisopfsMkdir_cabe (mode : UInt32) (h : path.length < maximoPath) :
    OpCabe (fisopfsMkdir max ent path mode fs) := by
  unfold fisopfsMkdir
  split
  · exact .pure _
  · split
    · exact .pure _
    · refine .bind (.lift (buscarDirectorio_cabe ent.ahora h fs)) fun r _ _ _ ↦ ?_
      obtain ⟨fs, nombre, destino⟩ := r
      cases destino with
      | none => exact .pure _
      | some ud =>
        refine (pedir_cabe _).bind fun reservado _ _ _ ↦ ?_
        refine (crearDir_cabe ent reservado nombre _).bind fun creado _ _ _ ↦ ?_
        cases creado with
        | error r => exact .pure _
        | ok nuevo => exact colocarNueva_cabe _ _ _ _ _ _

theorem fisopfsCreate_cabe (mode : UInt32) (h : path.length < maximoPath) :
    OpCabe (fisopfsCreate max ent path mode fs) := by
  unfold fisopfsCreate
  split
  · exact .pure _
  · split
    · exact .pure _
    · refine .bind (.lift (buscarDirectorio_cabe ent.ahora h fs)) fun r _ _ _ ↦ ?_
      obtain ⟨fs, nombre, destino⟩ := r
      cases destino with
      | none => exact .pure _
      | some ud =>
        dsimp only
        split
        · refine (pedir_cabe _).bind fun reservado _ _ _ ↦ ?_
          cases reservado with
          | false => exact .pure _
          | true =>
            simp only [Bool.not_true, Bool.false_eq_true, if_false]
            split
            · exact .pure _
            · exact colocarNueva_cabe _ _ _ _ _ _
        · exact .pure _

theorem eliminar_cabe (esDelTipo : Entrada → Bool) (negado : Entrada → Option ℤ) (tam : UInt64)
    (h : path.length < maximoPath) : OpCabe (eliminar ent esDelTipo negado tam path fs) := by
  unfold eliminar
  split
  · exact .pure _
  · refine .bind (.lift (buscarDirectorio_cabe ent.ahora h fs)) fun r _ _ _ ↦ ?_
    obtain ⟨fs, nombre, destino⟩ := r
    cases destino with
    | none => exact .pure _
    | some ud =>
      refine .bind (.lift (primera_cabe _ _ _)) fun i _ _ _ ↦ ?_
      cases i with
      | none => exact .pure _
      | some i =>
        dsimp only
        split
        · exact .pure _
        · refine crearEntradaVacia_cabe.bind fun nueva _ _ _ ↦ ?_
          split
          · exact .pure _
          · exact .bind (.lift (liberarEntrada_cabe _)) fun _ _ _ _ ↦ .pure _

theorem fisopfsTruncate_cabe (size : UInt64) (h : path.length ≤ maximoPath) :
    OpCabe (fisopfsTruncate max ent path size fs) := by
  unfold fisopfsTruncate
  split
  · exact .pure _
  · refine .bind (.lift (buscarArchivo_cabe ent.ahora h fs)) fun r _ _ _ ↦ ?_
    obtain ⟨fs, buscado⟩ := r
    cases buscado with
    | error r => exact .pure _
    | ok ua =>
      dsimp only
      split
      · split
        · exact .pure _
        · refine (reallocContenido_cabe _ _ _).bind fun o _ _ _ ↦ ?_
          cases o <;> exact .pure _
      · exact .pure _

theorem fisopfsUtimens_cabe (ts : UInt64) (h : path.length ≤ maximoPath) :
    OpCabe (fisopfsUtimens ent path ts fs) := by
  unfold fisopfsUtimens
  split
  · exact .pure _
  · refine .bind (.lift (encontrarEntrada_cabe ent.ahora h fs)) fun r _ _ _ ↦ ?_
    obtain ⟨fs, entrada⟩ := r
    cases entrada with
    | none => exact .pure _
    | some u =>
      refine .bind (.lift (apuntada_cabe _ _)) fun e _ _ _ ↦ ?_
      cases e with
      | archivo a => exact .pure _
      | directorio d => exact .pure _
      | _ => exact .throw nofun

theorem copiarEnArchivo_cabe (u : Ubicacion) (a : EntradaArchivo) (buf : List UInt8)
    (size offset : UInt64) : OpCabe (copiarEnArchivo ent fs u a buf size offset) :=
  .bind (.lift (memcpy_cabe _ _ _ _)) fun _ _ _ _ ↦ .pure _

theorem fisopfsWrite_cabe (buf : List UInt8) (size offset : UInt64) (h : path.length ≤ maximoPath) :
    OpCabe (fisopfsWrite max ent path buf size offset fs) := by
  unfold fisopfsWrite
  split
  · exact .pure _
  · refine .bind (.lift (buscarArchivo_cabe ent.ahora h fs)) fun r _ _ _ ↦ ?_
    obtain ⟨fs, buscado⟩ := r
    cases buscado with
    | error r => exact .pure _
    | ok ua =>
      dsimp only
      split
      · split
        · exact .pure _
        · refine (reallocContenido_cabe _ _ _).bind fun o _ _ _ ↦ ?_
          cases o with
          | none => exact .pure _
          | some contenido => exact copiarEnArchivo_cabe _ _ _ _ _ _ _
      · exact copiarEnArchivo_cabe _ _ _ _ _ _ _

theorem escribirEntradas_cabe (punt : ℕ → UInt64) {es : List Entrada}
    (h : ∀ e ∈ es, ∀ s, Cabe (escribirEntrada punt e s)) (n : ℕ) (s : Salida) :
    Cabe (escribirEntradas punt n es s) := by
  induction n generalizing es s with
  | zero =>
    rw [escribirEntradas]
    exact .ok _
  | succ n ih =>
    cases es with
    | nil =>
      rw [escribirEntradas]
      exact .error nofun
    | cons e es =>
      rw [escribirEntradas]
      refine (h e List.mem_cons_self s).bind fun r _ ↦ ?_
      dsimp only
      split
      · exact .pure _
      · exact ih (fun x hx ↦ h x (List.mem_cons_of_mem e hx)) r.2

/-- Writing the image of an entry, by induction on its tree. -/
theorem escribirEntrada_cabe (punt : ℕ → UInt64) (e : Entrada) (s : Salida) :
    Cabe (escribirEntrada punt e s) := by
  induction e using Entrada.induccion generalizing s with
  | directorio d ih =>
    obtain ⟨nombre, st, cantidad, ocupadas, entradas⟩ := d
    rw [escribirEntrada, escribirDirectorioEnArchivo]
    dsimp only
    split
    · exact .pure _
    · exact escribirEntradas_cabe punt ih _ _
  | archivo a =>
    rw [escribirEntrada, escribirEntradaArchivoEnArchivo]
    dsimp only
    split
    · exact .pure _
    · split
      · exact .bind (.error nofun) fun _ _ ↦ .pure _
      · exact .pure _
  | vacio =>
    rw [escribirEntrada]
    exact .ok _
  | nula =>
    rw [escribirEntrada]
    exact .error nofun
  | indefinida =>
    rw [escribirEntrada]
    exact .error nofun

theorem fisopfsFlush_cabe (punt : ℕ → UInt64) (abre : Bool) (cupo : Option ℕ)
    (disco : Option (List UInt8)) : Cabe (fisopfsFlush punt abre cupo path fs disco) := by
  have hraiz (s : Salida) : Cabe (escribirDirectorioEnArchivo punt fs.raiz s) := by
    have hentrada := escribirEntrada_cabe punt (.directorio fs.raiz) s
    rw [escribirEntrada] at hentrada
    exact hentrada
  unfold fisopfsFlush
  dsimp only
  split
  · exact .pure _
  · split
    · exact .pure _
    · split
      · exact .pure _
      · exact (hraiz _).bind fun _ _ ↦ .pure _

theorem fisopfsMkdir_desborda (mode : UInt32) (hguarda : ¬ maximoPath < path.length)
    (h : ¬ path.length < maximoPath)
    (hespacio : ¬ max < fs.espacioTotalOcupadoFs + sizeofEntradaDirectorio) (m : Memoria) :
    fisopfsMkdir max ent path mode fs m = .error .desborde := by
  rw [fisopfsMkdir, if_neg hguarda, if_neg hespacio]
  exact StateT.bind_of_error (StateT.lift_of_error (buscarDirectorio_desborda ent.ahora h fs))

theorem fisopfsCreate_desborda (mode : UInt32) (hguarda : ¬ maximoPath < path.length)
    (h : ¬ path.length < maximoPath)
    (hespacio : ¬ max < fs.espacioTotalOcupadoFs + sizeofEntradaArchivo) (m : Memoria) :
    fisopfsCreate max ent path mode fs m = .error .desborde := by
  rw [fisopfsCreate, if_neg hguarda, if_neg hespacio]
  exact StateT.bind_of_error (StateT.lift_of_error (buscarDirectorio_desborda ent.ahora h fs))

theorem eliminar_desborda (esDelTipo : Entrada → Bool) (negado : Entrada → Option ℤ) (tam : UInt64)
    (hguarda : ¬ maximoPath < path.length) (h : ¬ path.length < maximoPath) (m : Memoria) :
    eliminar ent esDelTipo negado tam path fs m = .error .desborde := by
  rw [eliminar, if_neg hguarda]
  exact StateT.bind_of_error (StateT.lift_of_error (buscarDirectorio_desborda ent.ahora h fs))

end Handlers

/-! ## The calls -/

/-- The path of a call. -/
def Llamada.path : Llamada → Option Cadena
  | .getattr path => some path
  | .readdir path => some path
  | .read path _ _ => some path
  | .mkdir path _ => some path
  | .create path _ => some path
  | .unlink path => some path
  | .rmdir path => some path
  | .truncate path _ => some path
  | .utimens path _ => some path
  | .write path _ _ _ => some path
  | .flush path _ _ _ => some path
  | .init => none

/-- The call copies its whole path: it is one of the four that call `obtener_directorio_path`, and
there is space for a new entry where it makes one. -/
def Llamada.CopiaPath (max : UInt64) (fs : Fs) : Llamada → Prop
  | .mkdir _ _ => ¬ max < fs.espacioTotalOcupadoFs + sizeofEntradaDirectorio
  | .create _ _ => ¬ max < fs.espacioTotalOcupadoFs + sizeofEntradaArchivo
  | .unlink _ => True
  | .rmdir _ => True
  | _ => False

theorem con_cabe {s : Sistema} {op : Op (ℤ × Fs)} (respuestas : List Bool) (h : OpCabe op) :
    Cabe (s.con op respuestas) := (h _).bind fun _ _ ↦ .pure _

theorem con_desborda {s : Sistema} {op : Op (ℤ × Fs)} {respuestas : List Bool}
    (h : op ⟨respuestas, false⟩ = .error .desborde) : ¬ Cabe (s.con op respuestas) :=
  Except.avoids_bind_error h

theorem crearDir_nombre {ent : Entorno} {reservado : Bool} {path : Cadena} {mode : UInt32}
    {d : EntradaDirectorio} {m m' : Memoria}
    (h : crearDir ent reservado path mode m = .ok (.ok d, m')) :
    d.nombre.cadena = path ∧ path.length < maximoPath := by
  by_cases hcorto : path.length < maximoPath
  · obtain ⟨nombre, hnombre, m₁, hexpandir⟩ := crearDir_ok h
    exact ⟨(congrArg Nombre.cadena (mem_expandir hexpandir).1).trans hnombre, hcorto⟩
  · unfold crearDir at h
    cases reservado with
    | false => cases h
    | true =>
      simp only [Bool.not_true, Bool.false_eq_true, if_false, dif_neg hcorto] at h
      cases h

theorem crearArchivo_nombre {ent : Entorno} {nombre : Cadena} {modo : UInt32} {a : EntradaArchivo}
    (h : crearArchivo ent nombre modo = .ok a) :
    a.nombre.cadena = nombre ∧ nombre.length < maximoPath := by
  unfold crearArchivo at h
  split at h
  next hcorto =>
    cases h
    exact ⟨rfl, hcorto⟩
  · cases h

/-- While a call serves a path that passes the guard of the handlers, every string fits in the buffer
that it is copied to, unless the path fills the guard exactly and the call copies the whole of it. The
names that `crear_dir` and `crear_archivo` store always fit. -/
theorem partes_caben_iff (max : UInt64) (e : Evento) (s : Sistema) {path : Cadena}
    (hpath : e.llamada.path = some path) (hguarda : path.length ≤ maximoPath) :
    (Cabe (ejecutar max e s) ↔ ¬ (path.length = maximoPath ∧ e.llamada.CopiaPath max s.fs)) ∧
    (∀ ent reservado nombre mode m d m', crearDir ent reservado nombre mode m = .ok (.ok d, m') →
      d.nombre.cadena = nombre ∧ nombre.length < maximoPath) ∧
    ∀ ent nombre modo a, crearArchivo ent nombre modo = .ok a →
      a.nombre.cadena = nombre ∧ nombre.length < maximoPath := by
  refine ⟨?_, fun _ _ _ _ _ _ _ h ↦ crearDir_nombre h, fun _ _ _ _ h ↦ crearArchivo_nombre h⟩
  have hno : ¬ maximoPath < path.length := Nat.not_lt.mpr hguarda
  -- a call that copies the whole path does so safely exactly when the path is shorter than the guard
  have hcopia {op : Op (ℤ × Fs)} (hcabe : path.length < maximoPath → OpCabe op)
      (hdesborda : ¬ path.length < maximoPath → ∀ m, op m = .error .desborde) :
      Cabe (s.con op e.respuestas) ↔ path.length ≠ maximoPath := by
    by_cases hcorto : path.length < maximoPath
    · exact iff_of_true (con_cabe _ (hcabe hcorto)) (Nat.ne_of_lt hcorto)
    · have heq : path.length = maximoPath := Nat.le_antisymm hguarda (Nat.not_lt.mp hcorto)
      exact iff_of_false (con_desborda (hdesborda hcorto _)) fun hne ↦ hne heq
  obtain ⟨ent, respuestas, llamada⟩ := e
  have hsin (h : Cabe (ejecutar max ⟨ent, respuestas, llamada⟩ s))
      (hllamada : ¬ llamada.CopiaPath max s.fs) :
      Cabe (ejecutar max ⟨ent, respuestas, llamada⟩ s) ↔
        ¬ (path.length = maximoPath ∧ llamada.CopiaPath max s.fs) :=
    iff_of_true h fun hsi ↦ hllamada hsi.2
  cases llamada with
  | init => cases hpath
  | getattr p =>
    cases hpath
    exact hsin (con_cabe _ ((fisopfsGetattr_cabe ent s.fs hguarda).map _)) id
  | readdir p =>
    cases hpath
    exact hsin (con_cabe _ ((fisopfsReaddir_cabe ent s.fs hguarda).map _)) id
  | read p size offset =>
    cases hpath
    exact hsin (con_cabe _ ((fisopfsRead_cabe ent s.fs size offset hguarda).map _)) id
  | truncate p size =>
    cases hpath
    exact hsin (con_cabe _ (fisopfsTruncate_cabe max ent s.fs size hguarda)) id
  | utimens p ts =>
    cases hpath
    exact hsin (con_cabe _ (fisopfsUtimens_cabe ent s.fs ts hguarda)) id
  | write p buf size offset =>
    cases hpath
    exact hsin (con_cabe _ (fisopfsWrite_cabe max ent s.fs buf size offset hguarda)) id
  | flush p punt abre cupo =>
    cases hpath
    exact hsin ((fisopfsFlush_cabe s.fs punt abre cupo s.disco).bind fun _ _ ↦ .pure _) id
  | mkdir p mode =>
    cases hpath
    by_cases hespacio : max < s.fs.espacioTotalOcupadoFs + sizeofEntradaDirectorio
    · refine hsin (con_cabe _ fun m ↦ ?_) fun hsi ↦ hsi hespacio
      rw [fisopfsMkdir, if_neg hno, if_pos hespacio]
      exact .ok _
    · have hiff := hcopia (fisopfsMkdir_cabe max ent s.fs mode)
        fun h ↦ fisopfsMkdir_desborda max ent s.fs mode hno h hespacio
      exact hiff.trans ⟨fun hne hsi ↦ hne hsi.1, fun hsi heq ↦ hsi ⟨heq, hespacio⟩⟩
  | create p mode =>
    cases hpath
    by_cases hespacio : max < s.fs.espacioTotalOcupadoFs + sizeofEntradaArchivo
    · refine hsin (con_cabe _ fun m ↦ ?_) fun hsi ↦ hsi hespacio
      rw [fisopfsCreate, if_neg hno, if_pos hespacio]
      exact .ok _
    · have hiff := hcopia (fisopfsCreate_cabe max ent s.fs mode)
        fun h ↦ fisopfsCreate_desborda max ent s.fs mode hno h hespacio
      exact hiff.trans ⟨fun hne hsi ↦ hne hsi.1, fun hsi heq ↦ hsi ⟨heq, hespacio⟩⟩
  | unlink p =>
    cases hpath
    have hiff := hcopia (eliminar_cabe ent s.fs Entrada.esArchivo (fun _ ↦ none) sizeofEntradaArchivo)
      fun h ↦ eliminar_desborda ent s.fs _ _ _ hno h
    exact hiff.trans ⟨fun hne hsi ↦ hne hsi.1, fun hsi heq ↦ hsi ⟨heq, trivial⟩⟩
  | rmdir p =>
    cases hpath
    have hiff := hcopia (eliminar_cabe ent s.fs Entrada.esDirectorio noVacio sizeofEntradaDirectorio)
      fun h ↦ eliminar_desborda ent s.fs _ _ _ hno h
    exact hiff.trans ⟨fun hne hsi ↦ hne hsi.1, fun hsi heq ↦ hsi ⟨heq, trivial⟩⟩

/-- A path that fills the guard is looked up without a long copy. -/
theorem partes_caben_getattr : Cabe (ejecutar 10000
    (Llamada.getattr (barra :: List.replicate 2047 punto)).simple
    (Sistema.nuevo ⟨0, 0, 0, fun _ ↦ 0⟩)) := by
  have hguarda : (barra :: List.replicate 2047 punto).length ≤ maximoPath := by
    rw [List.length_cons, List.length_replicate]
    decide
  exact (partes_caben_iff 10000 _ _ rfl hguarda).1.mpr fun hsi ↦ hsi.2

/-- The `unlink` of the same path copies it with its terminator into a buffer of `MAXIMO_PATH`
bytes. -/
theorem unlink_desborda : ∃ path : Cadena, path.head? = some barra ∧ path.length ≤ maximoPath ∧
    ¬ Cabe (ejecutar 10000 (Llamada.unlink path).simple (Sistema.nuevo ⟨0, 0, 0, fun _ ↦ 0⟩)) := by
  have hlargo : (barra :: List.replicate 2047 punto).length = maximoPath := by
    rw [List.length_cons, List.length_replicate]
    rfl
  refine ⟨barra :: List.replicate 2047 punto, rfl, Nat.le_of_eq hlargo, ?_⟩
  have hdesborda := eliminar_desborda ⟨0, 0, 0, fun _ ↦ 0⟩ (Sistema.nuevo ⟨0, 0, 0, fun _ ↦ 0⟩).fs
    Entrada.esArchivo (fun _ ↦ none) sizeofEntradaArchivo
    (fun h ↦ absurd hlargo (Nat.ne_of_gt h)) (fun h ↦ absurd hlargo (Nat.ne_of_lt h)) ⟨[], false⟩
  exact con_desborda hdesborda

end SistemasOperativos.FisopFs
