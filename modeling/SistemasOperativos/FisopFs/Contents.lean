import SistemasOperativos.FisopFs.PathEffects
import SistemasOperativos.FisopFs.Reachability

/-!
# The content of files

In every reachable state each file has a buffer with at least the bytes that it says, whatever the
heap has refused, whatever the medium has cut short and whatever was loaded. From this follows what
`fisopfs_read` returns and what `fisopfs_write` leaves.
-/

namespace SistemasOperativos.FisopFs

open Library

/-! ## Files with their bytes -/

/-- A file has its bytes. Nothing is asked of a directory. -/
def Entrada.Respaldada : Entrada → Prop
  | .archivo a => a.Sano
  | _ => True

theorem Entrada.Respaldada.superficial : Entrada.Superficial Entrada.Respaldada :=
  fun _ _ _ _ _ _ _ ↦ trivial

theorem Entrada.Respaldada.intemporal : Entrada.Intemporal Entrada.Respaldada :=
  fun _ _ _ ↦ trivial

theorem cada_respaldada_directorio {d : EntradaDirectorio} :
    (Entrada.directorio d).Cada Entrada.Respaldada ↔ ∀ e ∈ d.entradas, e.Cada Entrada.Respaldada := by
  rw [Entrada.cada_directorio]
  exact ⟨And.right, fun h ↦ ⟨trivial, h⟩⟩

theorem cada_respaldada_archivo {a : EntradaArchivo} :
    (Entrada.archivo a).Cada Entrada.Respaldada ↔ a.Sano :=
  Entrada.cada_hoja rfl

theorem cada_respaldada_desocupada {e : Entrada} (h : e.ocupada = false) :
    e.Cada Entrada.Respaldada := by
  cases e with
  | archivo => cases h
  | directorio => cases h
  | _ => exact (Entrada.cada_hoja rfl).mpr trivial

theorem Entrada.Coherente.respaldada {rotos : Prop} {x : Entrada} (h : x.Coherente rotos) :
    x.Respaldada := by
  cases x with
  | archivo a => exact h
  | _ => trivial

theorem Nueva.respaldada {nueva : Entrada} {tam : UInt64} (h : Nueva nueva tam) :
    nueva.Cada Entrada.Respaldada := by
  have hcada : nueva.Cada (Entrada.Coherente False) := h.cada
  exact fun u x hx ↦ (hcada u x hx).respaldada

section Handlers

variable {max ahora : UInt64} {fs fs' : Fs} {agotada : Bool} {quita : Option EntradaArchivo}

/-- No change of a handler takes bytes away from a file without its size knowing. -/
theorem Cambio.respaldada (h : Cambio max fs agotada quita fs') (hfs : fs.Cada Entrada.Respaldada) :
    fs'.Cada Entrada.Respaldada := by
  have hP := Entrada.Respaldada.superficial
  cases h with
  | nada => exact hfs
  | @retoque u x y hx hxy =>
    apply hfs.poner hP hx hxy.semejante
    have hcada := Entrada.Cada.en hfs hx
    cases hxy with
    | @archivo a a' hnombre hsize hlen =>
      have ha : a.Sano := hcada.self
      apply cada_respaldada_archivo.mpr
      exact ⟨by rw [hsize, hlen]; exact ha.contenido, by rw [hsize]; exact ha.cabe⟩
    | directorio d st => exact hcada.cambiarDirectorio trivial rfl
  | @tamano u a a' hu hnombre hsize =>
    have hrecontar : (fs.recontar a.st.stSize a'.st.stSize).Cada Entrada.Respaldada := hfs
    apply hrecontar.poner hP hu (by simp [hnombre])
    apply cada_respaldada_archivo.mpr
    obtain hcero | ⟨hlen, hptr, -⟩ := hsize
    · exact ⟨hcero ▸ Nat.zero_le _, hcero ▸ Nat.zero_le _⟩
    · exact ⟨Nat.le_of_eq hlen, hptr⟩
  | @colocacion u d d' nueva tam ahora o m m' hu hnueva hmax hcolocar =>
    obtain ⟨hnombre, hmem⟩ := mem_colocar hcolocar
    apply Fs.Cada.poner hP hfs hu (by simp [hnombre])
    apply cada_respaldada_directorio.mpr
    intro e he
    obtain he | rfl | he := hmem e he
    · exact cada_respaldada_directorio.mp (Entrada.Cada.en hfs hu) e he
    · exact hnueva.respaldada
    · exact cada_respaldada_desocupada he
  | @fallida u d d' nueva tam ahora r o m m' hu hnueva hmax hr hagotada hcolocar =>
    obtain ⟨hnombre, hmem⟩ := mem_colocar hcolocar
    apply hfs.poner hP hu (by simp [EntradaDirectorioDe.colgado, hnombre])
    apply cada_respaldada_directorio.mpr
    intro e he
    obtain he | he := mem_colgado he
    · obtain he | rfl | he := hmem e he
      · exact cada_respaldada_directorio.mp (Entrada.Cada.en hfs hu) e he
      · exact hnueva.respaldada
      · exact cada_respaldada_desocupada he
    · exact cada_respaldada_desocupada he
  | @borrado u d x tam ahora i p _ hu hprimera hx hborrable =>
    apply hfs.poner hP hu (by simp [EntradaDirectorioDe.sin])
    apply cada_respaldada_directorio.mpr
    exact cada_mem_set (cada_respaldada_directorio.mp (Entrada.Cada.en hfs hu))
      (cada_respaldada_desocupada rfl)

theorem Fs.Pasa.respaldada (h : fs.Pasa max ahora agotada quita fs')
    (hfs : fs.Cada Entrada.Respaldada) : fs'.Cada Entrada.Respaldada := by
  obtain ⟨fs₁, hrec, hcambio⟩ := h
  exact hcambio.respaldada
    (hrec.cada Entrada.Respaldada.superficial Entrada.Respaldada.intemporal hfs)

end Handlers

/-! ## Files that are loaded -/

theorem crearEntradaArchivo_sano {l l' : Lectura} {a : EntradaArchivo} {m m' : Memoria}
    (h : crearEntradaArchivoDesdeArchivo l m = .ok ((some a, l'), m')) : a.Sano := by
  obtain ⟨m₁, bytes, l₁, -, -, -, -, ⟨hcero, -⟩ | ⟨-, hpedir, hlee⟩⟩ :=
    crearEntradaArchivo_some_iff.mp h
  · exact ⟨hcero ▸ Nat.zero_le _, hcero ▸ Nat.zero_le _⟩
  · obtain ⟨hlen, hcontenido, -⟩ := Lectura.fread_some.mp hlee
    obtain ⟨-, hptr⟩ | ⟨hno, -⟩ := pedir_ok hpedir
    · refine ⟨?_, hptr⟩
      rw [hcontenido, Lectura.resto, List.length_take, List.length_drop]
      omega
    · cases hno

theorem cargarEntradas_respaldada {subdir : Lectura → Op (Option EntradaDirectorio × Lectura)}
    (hsubdir : ∀ (l l' : Lectura) (d : EntradaDirectorio) (m m' : Memoria),
      subdir l m = .ok ((some d, l'), m') → (Entrada.directorio d).Cada Entrada.Respaldada)
    {n j : ℕ} {d d' : EntradaDirectorio} {l l' : Lectura} {m m' : Memoria}
    (hd : ∀ e ∈ d.entradas, e.Cada Entrada.Respaldada)
    (h : cargarEntradas subdir d j n l m = .ok ((some d', l'), m')) :
    ∀ e ∈ d'.entradas, e.Cada Entrada.Respaldada := by
  induction n generalizing j d l m with
  | zero =>
    cases h
    exact hd
  | succ n ih =>
    obtain ⟨bytes, l₁, e, l₂, m₂, -, -, htipo, hresto⟩ := cargarEntradas_some_iff.mp h
    have he : e.Cada Entrada.Respaldada := by
      obtain ⟨-, sub, rfl, hsub⟩ | ⟨-, a, rfl, harchivo⟩ := htipo
      · exact hsubdir _ _ _ _ _ hsub
      · exact cada_respaldada_archivo.mpr (crearEntradaArchivo_sano harchivo)
    exact ih (cada_mem_set hd he) hresto

/-- Whatever bytes a directory is loaded from, the files below it have their bytes. -/
theorem crearDirectorio_respaldada {pila : ℕ} {l l' : Lectura} {d : EntradaDirectorio}
    {m m' : Memoria} (h : crearDirectorioDesdeArchivo pila l m = .ok ((some d, l'), m')) :
    (Entrada.directorio d).Cada Entrada.Respaldada := by
  induction pila generalizing l l' d m m' with
  | zero => cases h
  | succ pila ih =>
    obtain ⟨m₁, bytes, l₁, base, m₂, cargado, m₃, -, -, hreservar, hcargar, hllenar⟩ :=
      crearDirectorio_some_iff.mp h
    have hbase : ∀ e ∈ base, e.Cada Entrada.Respaldada := by
      intro e he
      obtain ⟨-, -, rfl⟩ | ⟨hno, -⟩ := reservarEntradas_ok hreservar
      · rw [List.nil_append] at he
        rw [List.eq_of_mem_replicate (List.mem_of_mem_take he)]
        exact cada_respaldada_desocupada rfl
      · cases hno
    have hcargado := cargarEntradas_respaldada (fun _ _ _ _ _ h ↦ ih h) hbase hcargar
    obtain ⟨entradas, rfl, hdesde⟩ := llenarDirectorioConEntradasVacias_ok hllenar
    apply cada_respaldada_directorio.mpr
    intro e he
    obtain he | he := mem_llenarDesde hdesde he
    · exact hcargado e he
    · exact cada_respaldada_desocupada he

theorem fisopfsInit_respaldada {ent : Entorno} {disco : Option (List UInt8)} {fs : Fs}
    {m m' : Memoria} (h : fisopfsInit ent disco m = .ok (fs, m')) : fs.Cada Entrada.Respaldada := by
  cases disco with
  | none =>
    have hcada : fs.Cada (Entrada.Coherente False) := crearDirectorioRaiz_cada h
    exact fun u x hx ↦ (hcada u x hx).respaldada
  | some datos =>
    unfold fisopfsInit at h
    cases hf : Lectura.fread ⟨datos, 0⟩ codecFs.size with
    | mk leido l =>
      cases leido with
      | none => simp only [hf] at h; cases h
      | some bytes =>
        simp only [hf, StateT.bind_ok] at h
        obtain ⟨⟨o, l₁⟩, m₁, hraiz, h⟩ := h
        cases o with
        | none => cases h
        | some raiz =>
          cases h
          exact crearDirectorio_respaldada hraiz

/-! ## Reachable files -/

theorem ejecutar_respaldada {max : UInt64} {e : Evento} {s : Sistema} {r : Resultado}
    (hs : s.fs.Cada Entrada.Respaldada) (h : ejecutar max e s = .ok r) :
    r.sistema.fs.Cada Entrada.Respaldada := by
  obtain ⟨path, punt, abre, cupo, -, -, hfs, -⟩ | ⟨-, -, m, m', hinit⟩ | ⟨-, quita, hpasa, -⟩ :=
    ejecutar_ok h
  · rw [hfs]
    exact hs
  · exact fisopfsInit_respaldada hinit
  · exact hpasa.respaldada hs

/-- In every reachable state every file has its bytes, whatever went wrong on the way. -/
theorem Run.respaldada {max : UInt64} {s s' : Sistema} {es : List Evento} (hini : s.Inicial)
    (hrun : Run (Paso max) s es s') : s'.fs.Cada Entrada.Respaldada := by
  have harbol : s.fs.Cada (Entrada.Coherente False) := hini.coherente.arbol
  have hraiz : s.fs.Cada Entrada.Respaldada := fun u x hx ↦ (harbol u x hx).respaldada
  refine hrun.invariant (fun a e b (ha : a.fs.Cada Entrada.Respaldada) hpaso ↦ ?_) hraiz
  obtain ⟨r, hr, rfl⟩ := hpaso
  exact ejecutar_respaldada ha hr

/-! ## Reading -/

section Read

variable {ent : Entorno} {path : Cadena} {fs fs₁ : Fs} {u : Ubicacion} {a : EntradaArchivo}
  {size offset : UInt64} {m : Memoria}

/-- The number of bytes that `fisopfs_read` takes from a file. -/
def EntradaArchivo.recorte (a : EntradaArchivo) (size offset : UInt64) : UInt64 :=
  if a.st.stSize < offset + size then a.st.stSize - offset else size

theorem fisopfsRead_archivo (hpath : path.length ≤ maximoPath)
    (hencuentra : encontrarEntrada ent.ahora path fs = .ok (fs₁, some u))
    (hu : fs₁.en u = some (.archivo a)) :
    fisopfsRead ent path size offset fs m =
      if a.contenido.length < offset.toNat + (a.recorte size offset).toNat then
        .error .fueraDeRango
      else .ok ((intDe (a.recorte size offset),
        (a.contenido.drop offset.toNat).take (a.recorte size offset).toNat,
        fs₁.poner u (.archivo { a with st := { a.st with stAtime := ent.ahora } })), m) := by
  have hapuntada : fs₁.apuntada (some u) = .ok (.archivo a) := Fs.apuntada_ok.mpr ⟨u, rfl, hu⟩
  unfold fisopfsRead
  rw [if_neg (Nat.not_lt.mpr hpath), StateT.bind_of_ok (StateT.lift_of_ok hencuentra)]
  dsimp only
  rw [StateT.bind_of_ok (StateT.lift_of_ok hapuntada)]
  dsimp only
  rw [← EntradaArchivo.recorte]
  by_cases hcorto : a.contenido.length < offset.toNat + (a.recorte size offset).toNat
  · rw [if_pos hcorto, if_pos hcorto]
    rfl
  · rw [if_neg hcorto, if_neg hcorto]
    rfl

/-- A read that returns the bytes of the file from the offset up to the end of the request or of the
file, and their number. -/
def LeeTramo (ent : Entorno) (path : Cadena) (size offset : UInt64) (fs : Fs) (m : Memoria)
    (a : EntradaArchivo) : Prop :=
  ∃ bytes fs' m', fisopfsRead ent path size offset fs m = .ok ((bytes.length, bytes, fs'), m') ∧
    bytes.length = (offset.toNat + size.toNat) ⊓ a.st.stSize.toNat - offset.toNat ∧
    ∀ i, i < bytes.length → bytes[i]? = a.contenido[offset.toNat + i]?

theorem toNat_recorte (hoffset : offset ≤ a.st.stSize)
    (hsuma : offset.toNat + size.toNat < 2 ^ 63) : (a.recorte size offset).toNat =
      (offset.toNat + size.toNat) ⊓ a.st.stSize.toNat - offset.toNat := by
  have hmas : (offset + size).toNat = offset.toNat + size.toNat := by
    rw [UInt64.toNat_add]
    omega
  have hmenos := UInt64.toNat_sub_of_le _ _ hoffset
  rw [UInt64.le_iff_toNat_le] at hoffset
  unfold EntradaArchivo.recorte
  split
  next hcorto =>
    rw [UInt64.lt_iff_toNat_lt, hmas] at hcorto
    omega
  next hlargo =>
    rw [UInt64.lt_iff_toNat_lt, hmas] at hlargo
    omega

/-- Past the end of the file the size wraps. -/
theorem recorte_pos (hoffset : ¬ offset ≤ a.st.stSize)
    (hsuma : offset.toNat + size.toNat < 2 ^ 63) : 0 < (a.recorte size offset).toNat := by
  have hmas : (offset + size).toNat = offset.toNat + size.toNat := by
    rw [UInt64.toNat_add]
    omega
  rw [UInt64.le_iff_toNat_le] at hoffset
  have hcorto : a.st.stSize < offset + size := by
    rw [UInt64.lt_iff_toNat_lt, hmas]
    omega
  rw [EntradaArchivo.recorte, if_pos hcorto, UInt64.toNat_sub]
  omega

theorem intDe_corto {n : UInt64} (h : n.toNat < 2 ^ 31) : intDe n = n.toNat := by
  have hcorto : n.toUInt32.toNat = n.toNat := by
    rw [UInt64.toNat_toUInt32]
    omega
  rw [intDe, BitVec.toInt_eq_toNat_cond, UInt32.toNat_toBitVec, hcorto, if_pos (by omega)]

/-- In every reachable state `fisopfs_read` is exact on a file up to its end, and nowhere past
it. -/
theorem fisopfsRead_exacto_iff (max : UInt64) {s s' : Sistema} {es : List Evento}
    (hini : s.Inicial) (hrun : Run (Paso max) s es s') (hpath : path.length ≤ maximoPath)
    (hencuentra : encontrarEntrada ent.ahora path s'.fs = .ok (fs₁, some u))
    (hu : fs₁.en u = some (.archivo a)) (hsize : size.toNat < 2 ^ 31)
    (hsuma : offset.toNat + size.toNat < 2 ^ 63) (m : Memoria) :
    LeeTramo ent path size offset s'.fs m a ↔ offset ≤ a.st.stSize := by
  have hrec := encontrarEntrada_recorrido hencuentra
  have ha : a.Sano := (hrec.cada Entrada.Respaldada.superficial Entrada.Respaldada.intemporal
    (Run.respaldada hini hrun)) u _ hu
  have hlee := @fisopfsRead_archivo ent path s'.fs fs₁ u a size offset m hpath hencuentra hu
  unfold LeeTramo
  rw [hlee]
  constructor
  · rintro ⟨bytes, fs', m', heq, hlargo, -⟩
    by_contra hpasado
    have hpos := recorte_pos hpasado hsuma
    split at heq
    · cases heq
    next hcabe =>
      have hbytes : (a.contenido.drop offset.toNat).take (a.recorte size offset).toNat = bytes := by
        simp only [Except.ok.injEq, Prod.mk.injEq] at heq
        exact heq.1.2.1
      have hcuenta : bytes.length = (a.recorte size offset).toNat := by
        rw [← hbytes, List.length_take, List.length_drop]
        omega
      rw [UInt64.le_iff_toNat_le] at hpasado
      omega
  · intro hoffset
    have hrecorte := toNat_recorte hoffset hsuma
    have hcontenido := ha.contenido
    rw [UInt64.le_iff_toNat_le] at hoffset
    have hcabe : ¬ a.contenido.length < offset.toNat + (a.recorte size offset).toNat := by omega
    have hcuenta : ((a.contenido.drop offset.toNat).take (a.recorte size offset).toNat).length =
        (a.recorte size offset).toNat := by
      rw [List.length_take, List.length_drop]
      omega
    have hint : intDe (a.recorte size offset) =
        ((a.contenido.drop offset.toNat).take (a.recorte size offset).toNat).length := by
      rw [hcuenta, intDe_corto (by omega)]
    rw [if_neg hcabe, hint]
    refine ⟨_, _, m, rfl, hcuenta.trans hrecorte, fun i hi ↦ ?_⟩
    rw [List.getElem?_take, if_pos (hcuenta ▸ hi), List.getElem?_drop]

/-- One byte of two, from the middle of a file. -/
theorem fisopfsRead_exacto_en_medio :
    ∃ s' fs₁ u a, correr 10000
        [(Llamada.create [barra, punto] 0o100644).simple,
          (Llamada.write [barra, punto] [7, 8] 2 0).simple]
        (Sistema.nuevo ⟨0, 0, 0, fun _ ↦ 0⟩) = some s' ∧
      encontrarEntrada 0 [barra, punto] s'.fs = .ok (fs₁, some u) ∧
      fs₁.en u = some (.archivo a) ∧
      LeeTramo ⟨0, 0, 0, fun _ ↦ 0⟩ [barra, punto] 1 1 s'.fs ⟨[], false⟩ a := by
  obtain ⟨s', fs₁, u, a, hs', hencuentra, hu, hsize⟩ :=
    @archivo_tras [barra, punto] 10000 0
      [(Llamada.create [barra, punto] 0o100644).simple,
        (Llamada.write [barra, punto] [7, 8] 2 0).simple]
      (Sistema.nuevo ⟨0, 0, 0, fun _ ↦ 0⟩) (fun a ↦ a.st.stSize == 2) (by decide +kernel)
  have hexacto := @fisopfsRead_exacto_iff ⟨0, 0, 0, fun _ ↦ 0⟩ [barra, punto] fs₁ u a 1 1 10000 _ _ _
    (Sistema.nuevo_inicial _) ((run_correr hs').mono fun _ _ _ h ↦ h.paso) (by decide) hencuentra hu
    (by decide) (by decide) ⟨[], false⟩
  have hdos : a.st.stSize = 2 := beq_iff_eq.mp hsize
  refine ⟨s', fs₁, u, a, hs', hencuentra, hu, hexacto.mpr ?_⟩
  rw [hdos]
  decide

/-- A read of one byte at offset one of an empty file takes the address of the byte before the
beginning of memory for its size. -/
theorem fisopfsRead_pasado_el_final :
    ∃ s s' es fs₁ u a, s.Inicial ∧ Run (PasoServido 10000) s es s' ∧
      encontrarEntrada 0 [barra, punto] s'.fs = .ok (fs₁, some u) ∧
      fs₁.en u = some (.archivo a) ∧ a.st.stSize = 0 ∧
      ¬ LeeTramo ⟨0, 0, 0, fun _ ↦ 0⟩ [barra, punto] 1 1 s'.fs ⟨[], false⟩ a := by
  obtain ⟨s', fs₁, u, a, hs', hencuentra, hu, hvacio⟩ :=
    @archivo_tras [barra, punto] 10000 0 [(Llamada.create [barra, punto] 0o100644).simple]
      (Sistema.nuevo ⟨0, 0, 0, fun _ ↦ 0⟩)
      (fun a ↦ a.st.stSize == 0 && a.contenido.isEmpty) (by decide +kernel)
  obtain ⟨hsize, hcontenido⟩ := Bool.and_eq_true_iff.mp hvacio
  have hcero : a.st.stSize = 0 := beq_iff_eq.mp hsize
  have hnada : a.contenido = [] := List.isEmpty_iff.mp hcontenido
  refine ⟨_, s', _, fs₁, u, a, Sistema.nuevo_inicial _, run_correr hs', hencuentra, hu, hcero, ?_⟩
  rintro ⟨bytes, fs', m', hlee, -⟩
  have hfalla := @fisopfsRead_archivo ⟨0, 0, 0, fun _ ↦ 0⟩ [barra, punto] s'.fs fs₁ u a 1 1
    ⟨[], false⟩ (by decide) hencuentra hu
  rw [hfalla, hnada, EntradaArchivo.recorte, hcero] at hlee
  cases hlee

end Read

/-! ## Files at locations -/

namespace Entrada

/-- Replacing a file leaves the files at the other locations as they are. -/
theorem en_poner_archivo {e : Entrada} {a a' b : EntradaArchivo} {u v : Ubicacion}
    (h : e.en u = some (archivo a)) (hne : v ≠ u) :
    ((archivo a').poner e u).en v = some (archivo b) ↔ e.en v = some (archivo b) := by
  induction u generalizing e v with
  | nil =>
    have he : e = archivo a := by simpa using h
    cases v with
    | nil => exact absurd rfl hne
    | cons j v =>
      subst he
      rw [poner_nil]
      exact Iff.rfl
  | cons i u ih =>
    obtain ⟨d, hijo, rfl, hhijo, hx⟩ := en_cons_eq_some h
    rw [poner_cons hhijo]
    cases v with
    | nil => simp
    | cons j v =>
      rw [en_directorio_cons, en_directorio_cons]
      by_cases hji : i = j
      · subst hji
        have hi : i < d.entradas.length := (List.getElem?_eq_some_iff.mp hhijo).1
        rw [List.getElem?_set_self hi, hhijo, Option.bind_some, Option.bind_some]
        exact ih hx (fun heq ↦ hne (by rw [heq]))
      · rw [List.getElem?_set_ne hji]

end Entrada

theorem Recorrido.en_archivo {ahora : UInt64} {d d' : EntradaDirectorio} (h : Recorrido ahora d d')
    {v : Ubicacion} {b : EntradaArchivo} :
    (Entrada.directorio d').en v = some (.archivo b) ↔
      (Entrada.directorio d).en v = some (.archivo b) := by
  induction h generalizing v with
  | llega d =>
    cases v with
    | nil => simp
    | cons j v => exact Iff.rfl
  | @sigue d hijo hijo' i hi hrec ih =>
    cases v with
    | nil => simp
    | cons j v =>
      rw [Entrada.en_directorio_cons, Entrada.en_directorio_cons]
      by_cases hji : i = j
      · subst hji
        have hlt : i < d.entradas.length := (List.getElem?_eq_some_iff.mp hi).1
        rw [List.getElem?_set_self hlt, hi, Option.bind_some, Option.bind_some]
        exact ih
      · rw [List.getElem?_set_ne hji]

theorem Fs.Recorrido.en_archivo {ahora : UInt64} {fs fs' : Fs} (h : fs.Recorrido ahora fs')
    {v : Ubicacion} {b : EntradaArchivo} :
    fs'.en v = some (.archivo b) ↔ fs.en v = some (.archivo b) := by
  obtain ⟨-, -, hraiz | hrec⟩ := h
  · rw [Fs.en, Fs.en, hraiz]
  · exact hrec.en_archivo

/-- The tree with one file replaced. -/
theorem Fs.en_poner_archivo {fs : Fs} {u : Ubicacion} {a a' : EntradaArchivo}
    (hu : fs.en u = some (.archivo a)) (hnombre : a'.nombre = a.nombre) :
    (fs.poner u (.archivo a')).en u = some (.archivo a') ∧
      ∀ v b, v ≠ u →
        ((fs.poner u (.archivo a')).en v = some (.archivo b) ↔ fs.en v = some (.archivo b)) := by
  have hs : (Entrada.archivo a).Semejante (.archivo a') := by simp [hnombre]
  unfold Fs.en
  rw [Fs.raiz_poner hu hs]
  exact ⟨Entrada.en_poner_self hu, fun v b hne ↦ Entrada.en_poner_archivo hu hne⟩

/-! ## Writing -/

/-- What `fisopfs_write` makes of a file: it reaches to the end of the bytes written, these are in
place, and the ones outside them are kept. -/
structure EscribeTramo (buf : List UInt8) (size offset : UInt64) (a a' : EntradaArchivo) : Prop where
  largo : a'.st.stSize.toNat = a.st.stSize.toNat ⊔ (offset.toNat + size.toNat)
  escritos : ∀ i, offset.toNat ≤ i → i < offset.toNat + size.toNat →
    a'.contenido[i]? = buf[i - offset.toNat]?
  demas : ∀ i, ¬ (offset.toNat ≤ i ∧ i < offset.toNat + size.toNat) → i < a.st.stSize.toNat →
    a'.contenido[i]? = a.contenido[i]?
  cabe : a'.st.stSize.toNat ≤ a'.contenido.length

theorem BytesEscritos.tramo {buf : List UInt8} {size offset : UInt64} {a a' : EntradaArchivo}
    (h : BytesEscritos buf size offset a.bytes a'.bytes) (ha : a.Sano) (ha' : a'.Sano)
    (hsuma : offset.toNat + size.toNat < 2 ^ 63) : EscribeTramo buf size offset a a' := by
  have hmas : (offset + size).toNat = offset.toNat + size.toNat := by
    rw [UInt64.toNat_add]
    omega
  have hlargo := h.largo
  rw [ha.length_bytes, ha'.length_bytes, hmas] at hlargo
  refine ⟨hlargo, fun i hoffset hi ↦ ?_, fun i hfuera hi ↦ ?_, ha'.contenido⟩
  · have hi' : i < a'.st.stSize.toNat := by omega
    rw [← EntradaArchivo.getElem?_bytes hi']
    exact h.escritos i hoffset hi (ha'.length_bytes.symm ▸ hi')
  · have hi' : i < a'.st.stSize.toNat := by omega
    rw [← EntradaArchivo.getElem?_bytes hi, ← EntradaArchivo.getElem?_bytes hi']
    exact h.demas i (by omega) (ha.length_bytes.symm ▸ hi)

section Write

variable {max : UInt64} {ent : Entorno} {path : Cadena} {buf : List UInt8} {size offset : UInt64}
  {fs fs' : Fs} {r : ℤ} {m m' : Memoria}

/-- A write that fails leaves the tree as the search left it, and one that returns its size replaces the
file at the path and no other. -/
theorem fisopfsWrite_archivo
    (h : fisopfsWrite max ent path buf size offset fs m = .ok ((r, fs'), m')) :
    (r < 0 ∧ fs.Recorrido ent.ahora fs') ∨
    r = intDe size ∧ ∃ fs₁ u a a', encontrarEntrada ent.ahora path fs = .ok (fs₁, some u) ∧
      fs.en u = some (.archivo a) ∧ fs'.en u = some (.archivo a') ∧
      memcpy (ampliado ent a size offset) buf offset.toNat size.toNat = .ok a'.contenido ∧
      a'.st.stSize = (if a.st.stSize < offset + size then offset + size else a.st.stSize) ∧
      ∀ v b, v ≠ u → (fs'.en v = some (.archivo b) ↔ fs.en v = some (.archivo b)) := by
  obtain hfalla | ⟨fs₁, u, a, contenido, hret, hencuentra, hu, hcopia, hcaso⟩ := fisopfsWrite_ok h
  · exact .inl hfalla
  have hrec := encontrarEntrada_recorrido hencuentra
  obtain ⟨fs₂, a', hraiz, rfl, hnombre, hcontenido, hsize⟩ : ∃ (fs₂ : Fs) (a' : EntradaArchivo),
      fs₂.raiz = fs₁.raiz ∧ fs' = fs₂.poner u (.archivo a') ∧ a'.nombre = a.nombre ∧
      a'.contenido = contenido ∧
      a'.st.stSize = if a.st.stSize < offset + size then offset + size else a.st.stSize := by
    obtain ⟨hcabe, rfl⟩ | ⟨hcabe, -, -, rfl⟩ := hcaso
    · exact ⟨_, _, rfl, rfl, rfl, rfl, (if_neg hcabe).symm⟩
    · refine ⟨fs₁.recontar a.st.stSize (size + offset), _, rfl, rfl, rfl, rfl, ?_⟩
      exact (if_pos hcabe).symm
  have hu₂ : fs₂.en u = some (.archivo a) := by
    rw [Fs.en, hraiz]
    exact hu
  obtain ⟨hu', hdemas⟩ := Fs.en_poner_archivo hu₂ hnombre
  refine .inr ⟨hret, fs₁, u, a, a', hencuentra, hrec.en_archivo.mp hu, hu',
    hcontenido.symm ▸ hcopia, hsize, fun v b hne ↦ (hdemas v b hne).trans ?_⟩
  rw [← hrec.en_archivo, Fs.en, hraiz]
  rfl

/-- A write that succeeds replaces the file at the path by one with the bytes written. -/
theorem fisopfsWrite_tramo (hfs : fs.Cada Entrada.Respaldada) (hr : 0 ≤ r)
    (hsuma : offset.toNat + size.toNat < 2 ^ 63)
    (h : fisopfsWrite max ent path buf size offset fs m = .ok ((r, fs'), m')) :
    r = intDe size ∧ ∃ fs₁ u a a', encontrarEntrada ent.ahora path fs = .ok (fs₁, some u) ∧
      fs.en u = some (.archivo a) ∧ fs'.en u = some (.archivo a') ∧
      EscribeTramo buf size offset a a' ∧
      ∀ v b, v ≠ u → (fs'.en v = some (.archivo b) ↔ fs.en v = some (.archivo b)) := by
  have hfs' := (fisopfsWrite_pasa h).respaldada hfs
  obtain ⟨hneg, -⟩ | ⟨hret, fs₁, u, a, a', hencuentra, hu, hu', hcopia, hsize, hdemas⟩ :=
    fisopfsWrite_archivo h
  · omega
  have ha : a.Sano := hfs u _ hu
  have hescrito : BytesEscritos buf size offset a.bytes a'.bytes := ha.escrito hcopia hsize
  exact ⟨hret, fs₁, u, a, a', hencuentra, hu, hu', hescrito.tramo ha (hfs' u _ hu') hsuma, hdemas⟩

end Write

/-- In every reachable state a write that succeeds returns its size and makes the file as long as it
should be with the bytes of the buffer in place. The bytes around them and the other files are as
before, and no file is longer than its buffer. -/
theorem fisopfsWrite_exacto (max : UInt64) {s s' : Sistema} {es : List Evento} (hini : s.Inicial)
    (hrun : Run (Paso max) s es s') {ent : Entorno} {path : Cadena} {buf : List UInt8}
    {size offset : UInt64} (hsize : size.toNat < 2 ^ 31)
    (hsuma : offset.toNat + size.toNat < 2 ^ 63) {r : ℤ} {fs' : Fs} {m m' : Memoria}
    (h : fisopfsWrite max ent path buf size offset s'.fs m = .ok ((r, fs'), m')) (hr : 0 ≤ r) :
    r = size.toNat ∧
    (∃ fs₁ u a a', encontrarEntrada ent.ahora path s'.fs = .ok (fs₁, some u) ∧
      s'.fs.en u = some (.archivo a) ∧ fs'.en u = some (.archivo a') ∧
      EscribeTramo buf size offset a a' ∧
      ∀ v b, v ≠ u → (fs'.en v = some (.archivo b) ↔ s'.fs.en v = some (.archivo b))) ∧
    (∀ v b, s'.fs.en v = some (.archivo b) → b.st.stSize.toNat ≤ b.contenido.length) ∧
    ∀ v b, fs'.en v = some (.archivo b) → b.st.stSize.toNat ≤ b.contenido.length := by
  have hfs := Run.respaldada hini hrun
  have hfs' := (fisopfsWrite_pasa h).respaldada hfs
  obtain ⟨hret, htramo⟩ := fisopfsWrite_tramo hfs hr hsuma h
  refine ⟨hret.trans (intDe_corto hsize), htramo, fun v b hb ↦ ?_, fun v b hb ↦ ?_⟩
  · have hb : b.Sano := hfs v _ hb
    exact hb.contenido
  · have hb : b.Sano := hfs' v _ hb
    exact hb.contenido

/-- One byte past the end of a file that was cut, saved and loaded. -/
theorem fisopfsWrite_exacto_recargado :
    ∃ s' fs' m', correr 10000
        [(Llamada.create [barra, punto] 0o100644).simple,
          (Llamada.write [barra, punto] [7, 8] 2 0).simple,
          (Llamada.truncate [barra, punto] 1).simple,
          (Llamada.flush [barra] (fun _ ↦ 0) true none).simple, Llamada.init.simple]
        (Sistema.nuevo ⟨0, 0, 0, fun _ ↦ 0⟩) = some s' ∧
      fisopfsWrite 10000 ⟨0, 0, 0, fun _ ↦ 0⟩ [barra, punto] [9] 1 2 s'.fs ⟨[], false⟩ =
        .ok ((1, fs'), m') ∧
      ∃ u a a', s'.fs.en u = some (.archivo a) ∧ fs'.en u = some (.archivo a') ∧
        EscribeTramo [9] 1 2 a a' := by
  have hcorre : (correr 10000
      [(Llamada.create [barra, punto] 0o100644).simple,
        (Llamada.write [barra, punto] [7, 8] 2 0).simple,
        (Llamada.truncate [barra, punto] 1).simple,
        (Llamada.flush [barra] (fun _ ↦ 0) true none).simple, Llamada.init.simple]
      (Sistema.nuevo ⟨0, 0, 0, fun _ ↦ 0⟩)).any (fun s ↦
        match fisopfsWrite 10000 ⟨0, 0, 0, fun _ ↦ 0⟩ [barra, punto] [9] 1 2 s.fs ⟨[], false⟩ with
        | .ok ((r, _), _) => r == 1
        | .error _ => false) = true := by
    decide +kernel
  obtain ⟨s', hs', hescribe⟩ := (Option.any_eq_true _ _).mp hcorre
  split at hescribe
  next r fs' m' hok =>
    obtain rfl : r = 1 := beq_iff_eq.mp hescribe
    obtain ⟨-, ⟨fs₁, u, a, a', -, hu, hu', htramo, -⟩, -⟩ := fisopfsWrite_exacto 10000
      (Sistema.nuevo_inicial _) ((run_correr hs').mono fun _ _ _ h ↦ h.paso) (by decide)
      (by decide) hok (by decide)
    exact ⟨s', fs', m', hs', hok, u, a, a', hu, hu', htramo⟩
  · cases hescribe

end SistemasOperativos.FisopFs
