import SistemasOperativos.FisopFs.Reachability

/-!
# The space counter

How every change of a handler moves the space counter against the number of bytes of the tree. With
a limit that is not astronomical the counter never wraps and bounds the image. The counter drifts
away from the number of bytes only when `fisopfs_unlink` removes a file that has content.
-/

namespace SistemasOperativos.FisopFs

open Library

/-! ## Bytes under the changes of a handler -/

theorem Recorrido.bytes {ahora : UInt64} {d d' : EntradaDirectorio} (h : Recorrido ahora d d') :
    bytesEntradas d'.entradas = bytesEntradas d.entradas := by
  induction h with
  | llega d => rfl
  | @sigue d hijo hijo' i hi hrec ih =>
    have hset := bytesEntradas_set hi (.directorio hijo')
    rw [Entrada.bytes_directorio, Entrada.bytes_directorio, ih, Nat.add_right_cancel_iff] at hset
    exact hset

theorem Fs.Recorrido.bytes {ahora : UInt64} {fs fs' : Fs} (h : fs.Recorrido ahora fs') :
    fs'.bytes = fs.bytes := by
  obtain ⟨-, -, hraiz | hrec⟩ := h
  · rw [Fs.bytes, Fs.bytes, hraiz]
  · rw [Fs.bytes, Fs.bytes, bytesDirectorio_eq, bytesDirectorio_eq, hrec.bytes]

theorem Retocada.bytes {x y : Entrada} (h : Retocada x y) : y.bytes = x.bytes := by
  cases h with
  | archivo hnombre hsize => rw [Entrada.bytes_archivo, Entrada.bytes_archivo, hsize]
  | directorio d st => rw [Entrada.bytes_directorio, Entrada.bytes_directorio]

theorem Nueva.bytes {nueva : Entrada} {tam : UInt64} (h : Nueva nueva tam) :
    nueva.bytes = tam.toNat := by
  cases h with
  | archivo ha => rw [Entrada.bytes_archivo, ha]; rfl
  | directorio hexpandir =>
    obtain ⟨-, rfl⟩ := expandir_nuevo hexpandir
    rw [Entrada.bytes_directorio, bytesEntradas_replicate Entrada.bytes_vacio]
    rfl

theorem Borrable.le_bytes {x : Entrada} {tam : UInt64} {quita : Option EntradaArchivo}
    (h : Borrable x tam quita) :
    tam.toNat ≤ x.bytes := by
  cases h with
  | archivo a => rw [Entrada.bytes_archivo]; exact Nat.le_add_right _ _
  | directorio => rw [Entrada.bytes_directorio]; exact Nat.le_add_right _ _

/-- Every slot of the first vector takes no bytes or holds what the second one holds there. -/
def Dominada (es' es : List Entrada) : Prop :=
  ∀ (i : ℕ) (e : Entrada), es'[i]? = some e → e.bytes = 0 ∨ es[i]? = some e

namespace Dominada

theorem refl (es : List Entrada) : Dominada es es := fun _ _ h ↦ .inr h

theorem nil (es : List Entrada) : Dominada [] es := fun _ _ h ↦ by simp at h

theorem trans {es es' es'' : List Entrada} (h : Dominada es'' es') (h' : Dominada es' es) :
    Dominada es'' es := by
  intro i e he
  obtain hcero | he := h i e he
  · exact .inl hcero
  · exact h' i e he

theorem bytes_le {es es' : List Entrada} (h : Dominada es' es) :
    bytesEntradas es' ≤ bytesEntradas es := by
  induction es' generalizing es with
  | nil => simp
  | cons e es' ih =>
    cases es with
    | nil =>
      have hceros : ∀ x ∈ e :: es', x.bytes = 0 := by
        intro x hx
        obtain ⟨i, hi⟩ := List.mem_iff_getElem?.mp hx
        obtain hcero | hno := h i x hi
        · exact hcero
        · simp at hno
      rw [bytesEntradas_eq_zero hceros]
      exact Nat.zero_le _
    | cons x es =>
      have hresto := ih fun i y hy ↦ by simpa using h (i + 1) y (by simpa using hy)
      obtain hcero | heq := h 0 e rfl
      · rw [bytesEntradas_cons, bytesEntradas_cons, hcero]
        omega
      · obtain rfl : x = e := by simpa using heq
        rw [bytesEntradas_cons, bytesEntradas_cons]
        omega

theorem set {es es' : List Entrada} (h : Dominada es' es) (i : ℕ) {x y : Entrada}
    (hx : x.bytes = 0) : Dominada (es'.set i x) (es.set i y) := by
  intro k e he
  rw [List.getElem?_set] at he ⊢
  by_cases hik : i = k
  · rw [if_pos hik] at he
    split at he
    · cases he
      exact .inl hx
    · cases he
  · rw [if_neg hik] at he ⊢
    exact h k e he

/-- A vector that was cut or lengthened with slots that hold nothing. -/
theorem realojada (es : List Entrada) (n k : ℕ) :
    Dominada ((es ++ List.replicate k Entrada.indefinida).take n) es := by
  intro i e he
  rw [List.getElem?_take] at he
  split at he
  · rw [List.getElem?_append] at he
    split at he
    · exact .inr he
    · rw [List.eq_of_mem_replicate (List.mem_of_getElem? he)]
      exact .inl Entrada.bytes_indefinida
  · cases he

/-- A vector some of whose slots in the middle were replaced. -/
theorem rellenada (es medio : List Entrada) (j : ℕ) (h : ∀ e ∈ medio, e.bytes = 0) :
    Dominada (es.take j ++ medio ++ es.drop (j + medio.length)) es := by
  intro i e he
  rw [List.append_assoc, List.getElem?_append] at he
  split at he
  next hi =>
    rw [List.getElem?_take] at he
    split at he
    · exact .inr he
    · cases he
  next hi =>
    rw [List.getElem?_append] at he
    split at he
    · exact .inl (h e (List.mem_of_getElem? he))
    next hmedio =>
      rw [List.getElem?_drop] at he
      rw [List.length_take] at he hi hmedio
      by_cases hj : j ≤ es.length
      · rw [Nat.min_eq_left hj] at he hi hmedio
        have hindice : j + medio.length + (i - j - medio.length) = i := by omega
        exact .inr (hindice ▸ he)
      · rw [List.getElem?_eq_none (by omega)] at he
        cases he

end Dominada

theorem llenarDesde_dominada {n j : ℕ} {entradas entradas' : List Entrada} {r : ℤ}
    {m m' : Memoria} (h : llenarDesde entradas j n m = .ok ((r, entradas'), m')) :
    Dominada entradas' entradas := by
  obtain ⟨-, -, rfl⟩ | ⟨-, -, k, -, -, rfl⟩ := llenarDesde_ok h
  · have hvacios : ∀ e ∈ List.replicate n Entrada.vacio, e.bytes = 0 :=
      fun e he ↦ by rw [List.eq_of_mem_replicate he, Entrada.bytes_vacio]
    have hrellena := Dominada.rellenada entradas _ j hvacios
    rw [List.length_replicate] at hrellena
    exact hrellena
  · have hnada : ∀ e ∈ List.replicate k Entrada.vacio ++ [.nula], e.bytes = 0 := by
      intro e he
      obtain he | he := List.mem_append.mp he
      · rw [List.eq_of_mem_replicate he, Entrada.bytes_vacio]
      · rw [List.mem_singleton.mp he, Entrada.bytes_nula]
    have hrellena := Dominada.rellenada entradas _ j hnada
    rw [List.length_append, List.length_replicate, List.length_singleton, ← Nat.add_assoc,
      ← List.append_assoc, List.append_assoc _ [Entrada.nula], List.singleton_append] at hrellena
    exact hrellena

/-- An expansion, whatever its outcome, leaves in every slot what was there or nothing. -/
theorem expandir_dominada {d d' : EntradaDirectorio} {r : ℤ} {m m' : Memoria}
    (h : expandirEntrdasDir d m = .ok ((r, d'), m')) : Dominada d'.entradas d.entradas := by
  obtain ⟨-, -, rfl⟩ | ⟨-, base, entradas, reservado, m₁, hreservar, rfl, h'⟩ :=
    expandirEntrdasDir_ok h
  · exact .refl _
  have hprevias : Dominada d.previas d.entradas := by
    unfold EntradaDirectorioDe.previas
    split
    · exact .nil _
    · exact .refl _
  have hbase : Dominada base d.entradas := by
    obtain ⟨-, -, rfl⟩ | ⟨-, -, rfl⟩ := reservarEntradas_ok hreservar
    · exact (Dominada.realojada _ _ _).trans hprevias
    · exact .nil _
  obtain ⟨-, -, rfl, -⟩ | ⟨-, hllenar⟩ := h'
  · exact hbase
  · exact (llenarDesde_dominada hllenar).trans hbase

theorem colocar_bytes {ahora : UInt64} {d d' : EntradaDirectorio} {nueva : Entrada} {r : ℤ}
    {o : Option ℕ} {m m' : Memoria}
    (h : colocarEntradaDentroDeDirectorio ahora d nueva m = .ok ((r, d', o), m')) :
    bytesEntradas d'.entradas ≤ bytesEntradas d.entradas + nueva.bytes ∧
      bytesEntradas (d'.colgado o).entradas ≤ bytesEntradas d.entradas := by
  obtain ⟨-, -, rfl, rfl⟩ | ⟨i, hprimera, rfl, hexpandir⟩ := colocarEntradaDentroDeDirectorio_ok h
  · exact ⟨Nat.le_add_right _ _, Nat.le_refl _⟩
  obtain ⟨-, ⟨x, hx, -, hvacio⟩, -⟩ := primera_some hprimera
  obtain rfl : x = .vacio := by cases x <;> first | rfl | cases hvacio
  have hdominada := expandir_dominada hexpandir
  have hset := bytesEntradas_set hx nueva
  have hset' := bytesEntradas_set hx .indefinida
  rw [Entrada.bytes_vacio] at hset hset'
  rw [Entrada.bytes_indefinida] at hset'
  constructor
  · have hle := hdominada.bytes_le
    simp only [EntradaDirectorioDe.con] at hle
    omega
  · have hle := (hdominada.set i (y := .indefinida) Entrada.bytes_indefinida).bytes_le
    simp only [EntradaDirectorioDe.con, List.set_set] at hle
    simp only [EntradaDirectorioDe.colgado]
    omega

/-! ## Updates of the counter -/

namespace Fs

@[simp] theorem bytes_sumar (fs : Fs) (n : UInt64) : (fs.sumar n).bytes = fs.bytes := rfl

@[simp] theorem bytes_restar (fs : Fs) (n : UInt64) : (fs.restar n).bytes = fs.bytes := rfl

@[simp] theorem bytes_recontar (fs : Fs) (viejo nuevo : UInt64) :
    (fs.recontar viejo nuevo).bytes = fs.bytes := rfl

theorem sumar_exacto {fs : Fs} {n : UInt64}
    (h : fs.espacioTotalOcupadoFs.toNat + n.toNat < 2 ^ 64) :
    (fs.sumar n).espacioTotalOcupadoFs.toNat = fs.espacioTotalOcupadoFs.toNat + n.toNat ∧
      (fs.sumar n).desbordado = fs.desbordado := by
  constructor
  · simp only [sumar]
    rw [UInt64.toNat_add, Nat.mod_eq_of_lt h]
  · simp only [sumar, decide_eq_false (Nat.not_le.mpr h), Bool.or_false]

theorem restar_exacto {fs : Fs} {n : UInt64} (h : n.toNat ≤ fs.espacioTotalOcupadoFs.toNat) :
    (fs.restar n).espacioTotalOcupadoFs.toNat = fs.espacioTotalOcupadoFs.toNat - n.toNat ∧
      (fs.restar n).desbordado = fs.desbordado := by
  constructor
  · simp only [restar]
    rw [UInt64.toNat_sub_of_le _ _ (UInt64.le_iff_toNat_le.mpr h)]
  · have hlt : ¬ fs.espacioTotalOcupadoFs < n := by
      rw [UInt64.lt_iff_toNat_lt]
      omega
    simp only [restar, decide_eq_false hlt, Bool.or_false]

/-- The counter covers the bytes of the tree without going over the limit, and no update of it has
wrapped. -/
structure Cuota (tope : ℕ) (fs : Fs) : Prop where
  cubre : fs.bytes ≤ fs.espacioTotalOcupadoFs.toNat
  cabe : fs.espacioTotalOcupadoFs.toNat ≤ tope
  exacta : fs.desbordado = false

theorem Recorrido.cuota {tope : ℕ} {ahora : UInt64} {fs fs' : Fs} (h : fs.Recorrido ahora fs')
    (hfs : fs.Cuota tope) : fs'.Cuota tope := by
  have hbytes := h.bytes
  obtain ⟨hespacio, hdesbordado, -⟩ := h
  exact ⟨by rw [hbytes, hespacio]; exact hfs.cubre, by rw [hespacio]; exact hfs.cabe,
    by rw [hdesbordado]; exact hfs.exacta⟩

theorem bytes_le_of_en {fs : Fs} {u : Ubicacion} {x : Entrada} (h : fs.en u = some x) :
    x.bytes ≤ fs.bytes := by
  have hle := Entrada.bytes_le_of_en h
  rw [Entrada.bytes] at hle
  exact Nat.le_trans hle (Nat.le_add_left _ _)

/-- A write that may only shrink the tree keeps the quota. -/
theorem Cuota.poner {tope : ℕ} {fs : Fs} (h : fs.Cuota tope) {u : Ubicacion} {x nueva : Entrada}
    (hu : fs.en u = some x) (hs : x.Semejante nueva) (hbytes : nueva.bytes ≤ x.bytes) :
    (fs.poner u nueva).Cuota tope := by
  have hponer := bytes_poner hu hs
  have hcubre := h.cubre
  refine ⟨?_, ?_, ?_⟩
  · rw [espacio_poner]
    omega
  · rw [espacio_poner]
    exact h.cabe
  · rw [desbordado_poner]
    exact h.exacta

end Fs

section Cuota

variable {max ahora : UInt64} {tope : ℕ} {fs fs' : Fs} {agotada : Bool}
  {quita : Option EntradaArchivo}

/-- Every change of a handler keeps the quota, whatever the sizes and whatever the heap refuses. -/
theorem Cambio.cuota (h : Cambio max fs agotada quita fs') (hmax : max.toNat ≤ tope)
    (htope : tope < 2 ^ 62) (hfs : fs.Cuota tope) : fs'.Cuota tope := by
  have hcubre := hfs.cubre
  have hcabe := hfs.cabe
  cases h with
  | nada => exact hfs
  | @retoque u x y hx hxy => exact hfs.poner hx hxy.semejante (Nat.le_of_eq hxy.bytes)
  | @tamano u a a' hu hnombre hsize =>
    have hs : (Entrada.archivo a).Semejante (.archivo a') := by simp [hnombre]
    have hu' : (fs.recontar a.st.stSize a'.st.stSize).en u = some (.archivo a) := hu
    have hbytes := Fs.bytes_poner hu' hs
    have hviejo := Fs.bytes_le_of_en hu
    rw [Fs.bytes_recontar, Entrada.bytes_archivo, Entrada.bytes_archivo] at hbytes
    rw [Entrada.bytes_archivo] at hviejo
    have hle : a.st.stSize.toNat ≤ fs.espacioTotalOcupadoFs.toNat := by omega
    obtain ⟨hresta, hresta'⟩ := Fs.restar_exacto hle
    have hnuevo : (fs.restar a.st.stSize).espacioTotalOcupadoFs.toNat + a'.st.stSize.toNat < 2 ^ 64 ∧
        fs.espacioTotalOcupadoFs.toNat - a.st.stSize.toNat + a'.st.stSize.toNat ≤ tope := by
      obtain hcero | ⟨-, hptr, hguarda⟩ := hsize
      · have hcero : a'.st.stSize.toNat = 0 := by rw [hcero]; rfl
        omega
      · rw [ptrdiffMax] at hptr
        rw [UInt64.lt_iff_toNat_lt, UInt64.toNat_sub, UInt64.toNat_add] at hguarda
        have hlt := a.st.stSize.toNat_lt
        omega
    obtain ⟨hsuma, hsuma'⟩ := Fs.sumar_exacto hnuevo.1
    refine ⟨?_, ?_, ?_⟩
    · rw [Fs.espacio_poner, Fs.recontar, hsuma, hresta]
      rw [Fs.recontar] at hbytes
      omega
    · rw [Fs.espacio_poner, Fs.recontar, hsuma, hresta]
      exact hnuevo.2
    · rw [Fs.desbordado_poner, Fs.recontar, hsuma', hresta']
      exact hfs.exacta
  | @colocacion u d d' nueva tam ahora o m m' hu hnueva hguarda hcolocar =>
    have hs : (Entrada.directorio d).Semejante (.directorio d') := by
      simp [(mem_colocar hcolocar).1]
    have hbytes := Fs.bytes_poner hu hs
    have hcoloca := (colocar_bytes hcolocar).1
    rw [Entrada.bytes_directorio, Entrada.bytes_directorio] at hbytes
    rw [hnueva.bytes] at hcoloca
    have htam : tam.toNat ≤ 2224 := by cases hnueva <;> decide
    rw [UInt64.lt_iff_toNat_lt, UInt64.toNat_add] at hguarda
    have hlt : (fs.poner u (.directorio d')).espacioTotalOcupadoFs.toNat + tam.toNat < 2 ^ 64 := by
      rw [Fs.espacio_poner]
      omega
    obtain ⟨hsuma, hsuma'⟩ := Fs.sumar_exacto hlt
    rw [Fs.espacio_poner] at hsuma
    refine ⟨?_, ?_, ?_⟩
    · rw [Fs.bytes_sumar, hsuma]
      omega
    · rw [hsuma]
      omega
    · rw [hsuma', Fs.desbordado_poner]
      exact hfs.exacta
  | @fallida u d d' nueva tam ahora r o m m' hu hnueva hguarda hr hagotada hcolocar =>
    have hs : (Entrada.directorio d).Semejante (.directorio (d'.colgado o)) := by
      simp [EntradaDirectorioDe.colgado, (mem_colocar hcolocar).1]
    refine hfs.poner hu hs ?_
    rw [Entrada.bytes_directorio, Entrada.bytes_directorio]
    exact Nat.add_le_add_left (colocar_bytes hcolocar).2 _
  | @borrado u d x tam ahora i p _ hu hprimera hx hborrable =>
    have hs : (Entrada.directorio d).Semejante (.directorio (d.sin ahora i)) := by
      simp [EntradaDirectorioDe.sin]
    have hbytes := Fs.bytes_poner hu hs
    have hset := bytesEntradas_set hx .vacio
    have htam := hborrable.le_bytes
    rw [Entrada.bytes_directorio, Entrada.bytes_directorio] at hbytes
    rw [Entrada.bytes_vacio] at hset
    have hle : tam.toNat ≤ (fs.poner u (.directorio (d.sin ahora i))).espacioTotalOcupadoFs.toNat := by
      have hmem := bytes_le_of_mem (List.mem_of_getElem? hx)
      have hdir := Fs.bytes_le_of_en hu
      rw [Entrada.bytes_directorio] at hdir
      rw [Fs.espacio_poner]
      omega
    obtain ⟨hresta, hresta'⟩ := Fs.restar_exacto hle
    rw [Fs.espacio_poner] at hresta hle
    simp only [EntradaDirectorioDe.sin] at hbytes
    refine ⟨?_, ?_, ?_⟩
    · rw [Fs.bytes_restar, hresta]
      simp only [EntradaDirectorioDe.sin]
      omega
    · rw [hresta]
      omega
    · rw [hresta', Fs.desbordado_poner]
      exact hfs.exacta

theorem Fs.Pasa.cuota (h : fs.Pasa max ahora agotada quita fs') (hmax : max.toNat ≤ tope)
    (htope : tope < 2 ^ 62) (hfs : fs.Cuota tope) : fs'.Cuota tope := by
  obtain ⟨fs₁, hrec, hcambio⟩ := h
  exact hcambio.cuota hmax htope (hrec.cuota hfs)

/-! ## Bytes of a tree that is loaded -/

theorem crearEntradaArchivo_bytes {l l' : Lectura} {a : EntradaArchivo} {m m' : Memoria}
    (h : crearEntradaArchivoDesdeArchivo l m = .ok ((some a, l'), m')) :
    l'.datos = l.datos ∧ l'.pos = l.pos + (Entrada.archivo a).bytes ∧
      l'.pos ≤ l.datos.length := by
  obtain ⟨m₁, bytes, l₁, -, hf, -, -, hcontenido⟩ := crearEntradaArchivo_some_iff.mp h
  obtain ⟨hlen, -, rfl⟩ := Lectura.fread_some.mp hf
  rw [size_codecEntradaArchivo] at hlen hcontenido
  rw [Entrada.bytes_archivo]
  obtain ⟨hcero, -, rfl, -⟩ | ⟨-, -, hf₂⟩ := hcontenido
  · have hcero : a.st.stSize.toNat = 0 := by rw [hcero]; rfl
    exact ⟨rfl, by rw [hcero]; rfl, hlen⟩
  · obtain ⟨hlen₂, -, rfl⟩ := Lectura.fread_some.mp hf₂
    exact ⟨rfl, Nat.add_assoc _ _ _, hlen₂⟩

theorem cargarEntradas_bytes {subdir : Lectura → Op (Option EntradaDirectorio × Lectura)}
    (hsubdir : ∀ (l l' : Lectura) (d : EntradaDirectorio) (m m' : Memoria),
      subdir l m = .ok ((some d, l'), m') → l'.datos = l.datos ∧
        l.pos + (Entrada.directorio d).bytes ≤ l'.pos ∧ l'.pos ≤ l.datos.length)
    {n j : ℕ} {d d' : EntradaDirectorio} {l l' : Lectura} {m m' : Memoria}
    (hvacias : ∀ (k : ℕ) (e : Entrada), j ≤ k → d.entradas[k]? = some e → e.bytes = 0)
    (hl : l.pos ≤ l.datos.length)
    (h : cargarEntradas subdir d j n l m = .ok ((some d', l'), m')) :
    l'.datos = l.datos ∧
      l.pos + bytesEntradas d'.entradas ≤ l'.pos + bytesEntradas d.entradas ∧
      l'.pos ≤ l.datos.length := by
  induction n generalizing j d l m with
  | zero =>
    cases h
    exact ⟨rfl, Nat.le_refl _, hl⟩
  | succ n ih =>
    obtain ⟨bytes, l₁, e, l₂, m₂, hf, hj, htipo, hresto⟩ := cargarEntradas_some_iff.mp h
    obtain ⟨-, -, rfl⟩ := Lectura.fread_some.mp hf
    rw [Lectura.retroceder_avanza] at htipo
    have hentrada : l₂.datos = l.datos ∧ l.pos + e.bytes ≤ l₂.pos ∧ l₂.pos ≤ l.datos.length := by
      obtain ⟨-, sub, rfl, hsub⟩ | ⟨-, a, rfl, harchivo⟩ := htipo
      · exact hsubdir _ _ _ _ _ hsub
      · obtain ⟨hdatos, hpos, hlen⟩ := crearEntradaArchivo_bytes harchivo
        exact ⟨hdatos, Nat.le_of_eq hpos.symm, hlen⟩
    obtain ⟨hdatos, hpos, hlen⟩ := hentrada
    have hget : d.entradas[j]? = some d.entradas[j] := List.getElem?_eq_getElem hj
    have hset := bytesEntradas_set hget e
    rw [hvacias j _ (Nat.le_refl j) hget] at hset
    have hvacias' : ∀ (k : ℕ) (x : Entrada), j + 1 ≤ k →
        (d.entradas.set j e)[k]? = some x → x.bytes = 0 := by
      intro k x hk hx
      rw [List.getElem?_set_ne (by omega)] at hx
      exact hvacias k x (by omega) hx
    obtain ⟨hdatos', hpos', hlen'⟩ := ih hvacias' (hdatos ▸ hlen) hresto
    refine ⟨hdatos'.trans hdatos, ?_, hdatos ▸ hlen'⟩
    dsimp only at hpos'
    omega

/-- A directory that is loaded takes no more bytes than were read for it. -/
theorem crearDirectorio_bytes {pila : ℕ} {l l' : Lectura} {d : EntradaDirectorio} {m m' : Memoria}
    (h : crearDirectorioDesdeArchivo pila l m = .ok ((some d, l'), m')) :
    l'.datos = l.datos ∧ l.pos + (Entrada.directorio d).bytes ≤ l'.pos ∧
      l'.pos ≤ l.datos.length := by
  induction pila generalizing l l' d m m' with
  | zero => cases h
  | succ pila ih =>
    obtain ⟨m₁, bytes, l₁, base, m₂, cargado, m₃, -, hf, hreservar, hcargar, hllenar⟩ :=
      crearDirectorio_some_iff.mp h
    obtain ⟨hlen, -, rfl⟩ := Lectura.fread_some.mp hf
    obtain ⟨-, -, hbase⟩ | ⟨hno, -⟩ := reservarEntradas_ok hreservar
    · have hindefinidas : ∀ e ∈ base, e.bytes = 0 := by
        intro e he
        rw [hbase, List.nil_append] at he
        rw [List.eq_of_mem_replicate (List.mem_of_mem_take he), Entrada.bytes_indefinida]
      obtain ⟨hdatos, hpos, hlen'⟩ := cargarEntradas_bytes (fun _ _ _ _ _ h ↦ ih h)
        (fun k e _ he ↦ hindefinidas e (List.mem_of_getElem? he)) hlen hcargar
      obtain ⟨entradas, rfl, hdesde⟩ := llenarDirectorioConEntradasVacias_ok hllenar
      have hle := (llenarDesde_dominada hdesde).bytes_le
      rw [bytesEntradas_eq_zero hindefinidas] at hpos
      rw [size_codecEntradaDirectorio] at hpos
      refine ⟨hdatos, ?_, hlen'⟩
      rw [Entrada.bytes_directorio]
      simp only [Lectura.avanza] at hpos
      dsimp only
      omega
    · cases hno

/-- Whatever file a process starts from, its tree takes no more bytes than the file. -/
theorem fisopfsInit_bytes {ent : Entorno} {datos : List UInt8} {m m' : Memoria}
    (h : fisopfsInit ent (some datos) m = .ok (fs, m')) :
    sizeofFisopfsFs.toNat ≤ datos.length ∧ fs.bytes ≤ datos.length ∧ fs.desbordado = false ∧
      fs.espacioTotalOcupadoFs = (codecFs.decode (datos.take sizeofFisopfsFs.toNat)).2 := by
  unfold fisopfsInit at h
  cases hf : Lectura.fread ⟨datos, 0⟩ codecFs.size with
  | mk leido l =>
    cases leido with
    | none => simp only [hf] at h; cases h
    | some bytes =>
      simp only [hf, StateT.bind_ok] at h
      obtain ⟨⟨o, l₁⟩, m₁, hraiz, h⟩ := h
      cases o with
      | none => cases h
      | some raiz =>
        cases h
        obtain ⟨hlen, rfl, rfl⟩ := Lectura.fread_some.mp hf
        obtain ⟨hdatos, hpos, hlen'⟩ := crearDirectorio_bytes hraiz
        rw [size_codecFs, Nat.zero_add] at hlen
        refine ⟨hlen, ?_, rfl, ?_⟩
        · simp only [Lectura.avanza, size_codecFs, Nat.zero_add] at hpos hlen'
          rw [Entrada.bytes] at hpos
          rw [Fs.bytes]
          exact Nat.le_trans hpos hlen'
        · rw [size_codecFs]
          rfl

/-! ## The quota along a run -/

/-- The persistence file is no longer than the counter that it holds says. -/
def DiscoCuota (tope : ℕ) (disco : Option (List UInt8)) : Prop :=
  ∀ datos, disco = some datos → sizeofFisopfsFs.toNat ≤ datos.length →
    datos.length ≤ (codecFs.decode (datos.take sizeofFisopfsFs.toNat)).2.toNat ∧
      (codecFs.decode (datos.take sizeofFisopfsFs.toNat)).2.toNat ≤ tope

structure Sistema.Cuota (tope : ℕ) (s : Sistema) : Prop where
  arbol : s.fs.Cuota tope
  disco : DiscoCuota tope s.disco

theorem crearDirectorioRaiz_cuota {ent : Entorno} {m m' : Memoria}
    (h : crearDirectorioRaiz ent m = .ok (fs, m'))
    (htope : sizeofFisopfsFs.toNat + sizeofEntradaDirectorio.toNat ≤ tope) : fs.Cuota tope := by
  obtain ⟨hespacio, hdesbordado, nombre, st, -, hraiz, -⟩ := crearDirectorioRaiz_ok h
  refine ⟨?_, ?_, hdesbordado⟩
  · rw [Fs.bytes, bytesDirectorio_eq, hraiz, hespacio,
      bytesEntradas_replicate Entrada.bytes_vacio]
    decide
  · rw [hespacio]
    exact htope

theorem Sistema.Inicial.cuota {s : Sistema} (h : s.Inicial)
    (htope : sizeofFisopfsFs.toNat + sizeofEntradaDirectorio.toNat ≤ tope) : s.Cuota tope := by
  obtain ⟨hdisco, ent, m, m', hraiz⟩ := h
  exact ⟨crearDirectorioRaiz_cuota hraiz htope,
    fun datos hdatos ↦ by rw [hdisco] at hdatos; cases hdatos⟩

theorem ejecutar_cuota {e : Evento} {s : Sistema} {r : Resultado} (hs : s.Cuota tope)
    (hinicio : sizeofFisopfsFs.toNat + sizeofEntradaDirectorio.toNat ≤ tope)
    (hmax : max.toNat ≤ tope) (htope : tope < 2 ^ 62) (h : ejecutar max e s = .ok r) :
    r.sistema.Cuota tope := by
  obtain ⟨path, punt, abre, cupo, -, -, hfs, hflush⟩ | ⟨-, hdisco, m, m', hinit⟩ |
    ⟨hdisco, quita, hpasa, -⟩ := ejecutar_ok h
  · refine ⟨hfs ▸ hs.arbol, fun datos hdatos hlargo ↦ ?_⟩
    obtain ⟨-, -, hdisco⟩ | ⟨⟨k, hk⟩, -⟩ := fisopfsFlush_ok hflush
    · exact hs.disco datos (hdisco ▸ hdatos) hlargo
    · rw [hk] at hdatos
      cases hdatos
      have hle : (imagenFs punt s.fs).length ≤ s.fs.espacioTotalOcupadoFs.toNat :=
        Nat.le_trans (length_imagenFs_le s.fs) hs.arbol.cubre
      have htake : ((imagenFs punt s.fs).take k).take sizeofFisopfsFs.toNat =
          codecFs.encode (punt 0, s.fs.espacioTotalOcupadoFs) := by
        rw [List.length_take] at hlargo
        rw [List.take_take, Nat.min_eq_left (by omega), imagenFs_eq,
          List.take_left' (by rw [Codec.length_encode, size_codecFs])]
      rw [htake, Codec.decode_encode, List.length_take]
      exact ⟨Nat.le_trans (Nat.min_le_right _ _) hle, hs.arbol.cabe⟩
  · refine ⟨?_, hdisco ▸ hs.disco⟩
    cases hd : s.disco with
    | none =>
      rw [hd] at hinit
      exact crearDirectorioRaiz_cuota hinit hinicio
    | some datos =>
      rw [hd] at hinit
      obtain ⟨hlargo, hbytes, hdesbordado, hespacio⟩ := fisopfsInit_bytes hinit
      obtain ⟨hcubre, hcabe⟩ := hs.disco datos hd hlargo
      rw [← hespacio] at hcubre hcabe
      exact ⟨Nat.le_trans hbytes hcubre, hcabe, hdesbordado⟩
  · exact ⟨hpasa.cuota hmax htope hs.arbol, hdisco ▸ hs.disco⟩

theorem Run.cuota {s s' : Sistema} {es : List Evento} (hini : s.Inicial)
    (hinicio : sizeofFisopfsFs.toNat + sizeofEntradaDirectorio.toNat ≤ tope)
    (hmax : max.toNat ≤ tope) (htope : tope < 2 ^ 62) (hrun : Run (Paso max) s es s') :
    s'.Cuota tope := by
  refine hrun.invariant (fun a e b ha hpaso ↦ ?_) (hini.cuota hinicio)
  obtain ⟨r, hr, rfl⟩ := hpaso
  exact ejecutar_cuota ha hinicio hmax htope hr

end Cuota

/-- With a limit below 2^62 that admits the empty file system, in every reachable state the tree and
every image that `fisopfs_flush` writes of it fit in the limit, and no update of the counter has
wrapped. This holds for all sizes and offsets, and also when the heap refuses requests or the medium
is full. -/
theorem imagen_dentro_del_limite (max : UInt64) (hmax : max.toNat < 2 ^ 62)
    (hinicio : sizeofFisopfsFs.toNat + sizeofEntradaDirectorio.toNat ≤ max.toNat)
    {s s' : Sistema} {es : List Evento} (hini : s.Inicial) (hrun : Run (Paso max) s es s') :
    s'.fs.bytes ≤ max.toNat ∧ s'.fs.desbordado = false ∧
    ∀ punt cupo path disco r datos, path.length ≤ maximoPath →
      fisopfsFlush punt true cupo path s'.fs disco = .ok (r, some datos) →
      datos.length ≤ max.toNat := by
  have hcuota := (Run.cuota hini hinicio (Nat.le_refl _) hmax hrun).arbol
  have hbytes := Nat.le_trans hcuota.cubre hcuota.cabe
  refine ⟨hbytes, hcuota.exacta, fun punt cupo path disco r datos hpath hflush ↦ ?_⟩
  obtain ⟨hlargo | habre, -⟩ | ⟨⟨k, hk⟩, -⟩ := fisopfsFlush_ok hflush
  · exact absurd hlargo (Nat.not_lt.mpr hpath)
  · cases habre
  · cases hk
    rw [List.length_take]
    exact Nat.le_trans (Nat.min_le_right _ _) (Nat.le_trans (length_imagenFs_le s'.fs) hbytes)

/-- The state after a file of two bytes is truncated to one. -/
theorem imagen_dentro_del_limite_truncate :
    ∃ s', correr 10000
        [(Llamada.create [barra, punto] 0o100644).simple,
          (Llamada.write [barra, punto] [7, 8] 2 0).simple,
          (Llamada.truncate [barra, punto] 1).simple]
        (Sistema.nuevo ⟨0, 0, 0, fun _ ↦ 0⟩) = some s' ∧
      s'.fs.bytes ≤ 10000 ∧ s'.fs.desbordado = false := by
  have hcorre : (correr 10000
      [(Llamada.create [barra, punto] 0o100644).simple,
        (Llamada.write [barra, punto] [7, 8] 2 0).simple,
        (Llamada.truncate [barra, punto] 1).simple]
      (Sistema.nuevo ⟨0, 0, 0, fun _ ↦ 0⟩)).isSome = true := by
    decide +kernel
  obtain ⟨s', hs'⟩ := Option.isSome_iff_exists.mp hcorre
  obtain ⟨hbytes, hexacta, -⟩ := imagen_dentro_del_limite 10000 (by decide) (by decide)
    (Sistema.nuevo_inicial _) ((run_correr hs').mono fun _ _ _ h ↦ h.paso)
  exact ⟨s', hs', hbytes, hexacta⟩

/-! ## The drift of the counter -/

/-- The counter is the number of bytes that the image of the tree takes, as a `size_t`. -/
def Fs.Contado (fs : Fs) : Prop := fs.espacioTotalOcupadoFs = UInt64.ofNat fs.bytes

/-- The counter less the bytes of the tree. -/
def Fs.deriva (fs : Fs) : UInt64 := fs.espacioTotalOcupadoFs - UInt64.ofNat fs.bytes

/-- The bytes of the content of a removed file. -/
def perdida : Option EntradaArchivo → UInt64
  | none => 0
  | some a => a.st.stSize

theorem Fs.contado_iff {fs : Fs} : fs.Contado ↔ fs.deriva = 0 := by
  unfold Contado deriva
  grind

theorem ofNat_bytes_eq {a b c d : ℕ} (h : a + b = c + d) :
    UInt64.ofNat a + UInt64.ofNat b = UInt64.ofNat c + UInt64.ofNat d := by
  rw [← UInt64.ofNat_add, ← UInt64.ofNat_add, h]

/-- A directory in order without entries has nothing but its structure in the image. -/
theorem bytes_estaVacio {d : EntradaDirectorio} (hd : d.Sano)
    (hvacio : estaVacioDirectorio d = true) : bytesEntradas d.entradas = 0 := by
  refine bytesEntradas_eq_zero fun e he ↦ ?_
  have hno := hd.estaVacio_iff.mp hvacio e he
  cases e with
  | archivo => cases hno
  | directorio => cases hno
  | _ => rw [Entrada.bytes]

theorem EntradaDirectorioDe.bytes_crecido (d : EntradaDirectorio) :
    bytesEntradas d.crecido.entradas = bytesEntradas d.entradas := by
  unfold crecido
  split
  · rw [bytesEntradas_append, bytesEntradas_replicate Entrada.bytes_vacio]
    rfl
  · rfl

section Deriva

variable {max ahora : UInt64} {fs fs' : Fs} {quita : Option EntradaArchivo}

theorem Fs.Recorrido.deriva (h : fs.Recorrido ahora fs') : fs'.deriva = fs.deriva := by
  rw [Fs.deriva, Fs.deriva, h.bytes, h.1]

/-- While the heap serves every request, the counter moves with the bytes of the tree, except that
the content of a removed file stays counted. -/
theorem Cambio.deriva (h : Cambio max fs false quita fs') (hfs : fs.Cada Entrada.Sana) :
    fs'.deriva = fs.deriva + perdida quita := by
  unfold Fs.deriva
  cases h with
  | nada => rw [perdida]; grind
  | @retoque u x y hx hxy =>
    have hbytes := Fs.bytes_poner hx hxy.semejante
    rw [hxy.bytes, Nat.add_right_cancel_iff] at hbytes
    rw [hbytes, Fs.espacio_poner, perdida]
    grind
  | @tamano u a a' hu hnombre hsize =>
    have hs : (Entrada.archivo a).Semejante (.archivo a') := by simp [hnombre]
    have hu' : (fs.recontar a.st.stSize a'.st.stSize).en u = some (.archivo a) := hu
    have hbytes := Fs.bytes_poner hu' hs
    rw [Fs.bytes_recontar, Entrada.bytes_archivo, Entrada.bytes_archivo] at hbytes
    have hpalabras := ofNat_bytes_eq hbytes
    rw [UInt64.ofNat_add, UInt64.ofNat_add, UInt64.ofNat_toNat, UInt64.ofNat_toNat,
      UInt64.ofNat_toNat] at hpalabras
    rw [Fs.espacio_poner, perdida, Fs.recontar, Fs.sumar, Fs.restar]
    rw [Fs.recontar, Fs.sumar, Fs.restar] at hpalabras
    grind
  | @colocacion u d d' nueva tam ahora o m m' hu hnueva hguarda hcolocar =>
    have hd : d.Sano := Entrada.sana_directorio.mp (hfs u _ hu)
    obtain ⟨i, hi, rfl, ⟨-, rfl, -⟩ | ⟨hr, -⟩⟩ := hd.colocar hnueva.ocupada hcolocar
    · have hs : (Entrada.directorio d).Semejante (.directorio (d.con ahora i nueva).crecido) := by
        simp [(mem_colocar hcolocar).1]
      have hbytes := Fs.bytes_poner hu hs
      have hset := bytesEntradas_set hi nueva
      rw [Entrada.bytes_vacio, hnueva.bytes] at hset
      rw [Entrada.bytes_directorio, Entrada.bytes_directorio,
        EntradaDirectorioDe.bytes_crecido] at hbytes
      have htotal : (fs.poner u (.directorio (d.con ahora i nueva).crecido)).bytes + 0 =
          fs.bytes + tam.toNat := by
        simp only [EntradaDirectorioDe.con] at hbytes ⊢
        omega
      have hpalabras := ofNat_bytes_eq htotal
      rw [UInt64.ofNat_toNat] at hpalabras
      rw [Fs.bytes_sumar, Fs.sumar, Fs.espacio_poner, perdida]
      grind
    · cases hr
  | @fallida u d d' nueva tam ahora r o m m' hu hnueva hguarda hr hagotada hcolocar =>
    have hd : d.Sano := Entrada.sana_directorio.mp (hfs u _ hu)
    obtain ⟨i, -, -, ⟨hcero, -⟩ | ⟨-, hagotada', -⟩⟩ := hd.colocar hnueva.ocupada hcolocar
    · exact absurd hcero hr
    · rw [hagotada'] at hagotada
      cases hagotada
  | @borrado u d x tam ahora i p _ hu hprimera hx hborrable =>
    have hs : (Entrada.directorio d).Semejante (.directorio (d.sin ahora i)) := by
      simp [EntradaDirectorioDe.sin]
    have hbytes := Fs.bytes_poner hu hs
    have hset := bytesEntradas_set hx .vacio
    rw [Entrada.bytes_vacio] at hset
    rw [Entrada.bytes_directorio, Entrada.bytes_directorio] at hbytes
    have htotal : (fs.poner u (.directorio (d.sin ahora i))).bytes + x.bytes = fs.bytes + 0 := by
      simp only [EntradaDirectorioDe.sin] at hbytes ⊢
      omega
    have hpalabras := ofNat_bytes_eq htotal
    rw [Fs.bytes_restar, Fs.restar, Fs.espacio_poner]
    cases hborrable with
    | archivo a =>
      rw [Entrada.bytes_archivo, UInt64.ofNat_add, UInt64.ofNat_toNat,
        UInt64.ofNat_toNat] at hpalabras
      rw [perdida]
      grind
    | @directorio e hvacio =>
      have he : e.Sano := Entrada.sana_directorio.mp
        ((Entrada.cada_directorio.mp (Entrada.Cada.en hfs hu)).2 _ (List.mem_of_getElem? hx)).self
      rw [Entrada.bytes_directorio, bytes_estaVacio he hvacio, Nat.add_zero,
        UInt64.ofNat_toNat] at hpalabras
      rw [perdida]
      grind

theorem Fs.Pasa.deriva (h : fs.Pasa max ahora false quita fs') (hfs : fs.Cada Entrada.Sana) :
    fs'.deriva = fs.deriva + perdida quita := by
  obtain ⟨fs₁, hrec, hcambio⟩ := h
  rw [hcambio.deriva (hrec.cada Entrada.Coherente.superficial Entrada.Coherente.intemporal hfs),
    hrec.deriva]

end Deriva

/-! ## The counter along a run -/

/-- The call does not remove a file that has content. -/
def Evento.SinPerdida (e : Evento) (s : Sistema) : Prop :=
  ∀ a, e.Suelta s a → a.st.stSize = 0

/-- The tree is in order and counted, and so was the one whose image the persistence file holds. -/
structure Sistema.EnCuenta (s : Sistema) : Prop where
  arbol : s.fs.Cada Entrada.Sana
  contado : s.fs.Contado
  disco : ∀ datos, s.disco = some datos → ∃ (punt : ℕ → UInt64) (fs : Fs),
    fs.Cada Entrada.Sana ∧ fs.Contado ∧ datos <+: imagenFs punt fs

theorem crearDirectorioRaiz_contado {fs : Fs} {ent : Entorno} {m m' : Memoria}
    (h : crearDirectorioRaiz ent m = .ok (fs, m')) : fs.Contado := by
  obtain ⟨hespacio, -, nombre, st, -, hraiz, -⟩ := crearDirectorioRaiz_ok h
  rw [Fs.Contado, Fs.bytes, bytesDirectorio_eq, hraiz, hespacio,
    bytesEntradas_replicate Entrada.bytes_vacio]
  rfl

theorem Sistema.Inicial.enCuenta {s : Sistema} (h : s.Inicial) : s.EnCuenta := by
  obtain ⟨hdisco, ent, m, m', hraiz⟩ := h
  exact ⟨crearDirectorioRaiz_cada hraiz, crearDirectorioRaiz_contado hraiz,
    fun datos hdatos ↦ by rw [hdisco] at hdatos; cases hdatos⟩

theorem Fs.contado_compacto {fs : Fs} (hfs : fs.Cada Entrada.Sana) (h : fs.Contado) :
    fs.compacto.Contado := by
  rw [Contado, bytes_compacto hfs]
  exact h

theorem perdida_eq_zero {e : Evento} {s : Sistema} {quita : Option EntradaArchivo}
    (hquita : ∀ a, quita = some a ↔ e.Suelta s a) : perdida quita = 0 ↔ e.SinPerdida s := by
  cases quita with
  | none => exact ⟨fun _ a ha ↦ (by cases (hquita a).mpr ha), fun _ ↦ rfl⟩
  | some a =>
    constructor
    · intro hcero b hb
      cases (hquita b).mpr hb
      exact hcero
    · intro hsin
      exact hsin a ((hquita a).mp rfl)

theorem ejecutar_enCuenta {max : UInt64} {e : Evento} {s : Sistema} {r : Resultado}
    (hs : s.EnCuenta) (h : ejecutar max e s = .ok r) (hservido : r.agotada = false)
    (hsin : e.SinPerdida s) : r.sistema.EnCuenta := by
  obtain ⟨path, punt, abre, cupo, -, -, hfs, hflush⟩ | ⟨-, hdisco, m, m', hinit⟩ |
    ⟨hdisco, quita, hpasa, hquita⟩ := ejecutar_ok h
  · refine ⟨hfs ▸ hs.arbol, hfs ▸ hs.contado, fun datos hdatos ↦ ?_⟩
    obtain ⟨-, -, hdisco⟩ | ⟨⟨k, hk⟩, -⟩ := fisopfsFlush_ok hflush
    · exact hs.disco datos (hdisco ▸ hdatos)
    · rw [hk] at hdatos
      cases hdatos
      exact ⟨punt, s.fs, hs.arbol, hs.contado, List.take_prefix k _⟩
  · cases hd : s.disco with
    | none =>
      rw [hd] at hinit
      exact ⟨crearDirectorioRaiz_cada hinit, crearDirectorioRaiz_contado hinit,
        fun datos hdatos ↦ hs.disco datos (hdisco ▸ hdatos)⟩
    | some datos =>
      obtain ⟨punt, fs, hfs, hcontado, hprefijo⟩ := hs.disco datos hd
      rw [hd] at hinit
      have hcarga := fisopfsInit_imagen hfs hprefijo hinit
      exact ⟨hcarga ▸ Fs.cada_compacto hfs, hcarga ▸ Fs.contado_compacto hfs hcontado,
        fun datos hdatos ↦ hs.disco datos (hdisco ▸ hdatos)⟩
  · rw [hservido] at hpasa
    have hderiva := hpasa.deriva hs.arbol
    rw [(perdida_eq_zero (hquita hservido)).mpr hsin, Fs.contado_iff.mp hs.contado] at hderiva
    exact ⟨hpasa.cada nofun hs.arbol, Fs.contado_iff.mpr hderiva,
      fun datos hdatos ↦ hs.disco datos (hdisco ▸ hdatos)⟩

/-- A step between two states in which the counter is right has lost nothing. -/
theorem sinPerdida_of_contado {max : UInt64} {e : Evento} {s : Sistema} {r : Resultado}
    (hs : s.fs.Cada Entrada.Sana) (hcontado : s.fs.Contado) (h : ejecutar max e s = .ok r)
    (hservido : r.agotada = false) (hcontado' : r.sistema.fs.Contado) : e.SinPerdida s := by
  obtain ⟨path, punt, abre, cupo, hllamada, -⟩ | ⟨hllamada, -⟩ |
    ⟨-, quita, hpasa, hquita⟩ := ejecutar_ok h
  · rintro a ⟨path', hunlink, -⟩
    rw [hllamada] at hunlink
    cases hunlink
  · rintro a ⟨path', hunlink, -⟩
    rw [hllamada] at hunlink
    cases hunlink
  · rw [hservido] at hpasa
    have hderiva := hpasa.deriva hs
    rw [Fs.contado_iff.mp hcontado, Fs.contado_iff.mp hcontado', UInt64.zero_add] at hderiva
    exact (perdida_eq_zero (hquita hservido)).mp hderiva.symm

/-- The counter is the number of bytes that `fisopfs_flush` writes, as a `size_t`, and exactly so
for a limit that is not astronomical. -/
def Fs.CuentaLaImagen (max : UInt64) (fs : Fs) : Prop :=
  ∀ punt path disco, path.length ≤ maximoPath →
    ∃ datos, fisopfsFlush punt true none path fs disco = .ok (0, some datos) ∧
      datos.length = fs.bytes ∧ fs.espacioTotalOcupadoFs = UInt64.ofNat datos.length ∧
      (max.toNat < 2 ^ 62 → fs.espacioTotalOcupadoFs.toNat = datos.length)

theorem cuentaLaImagen_iff {max : UInt64} {s s' : Sistema} {es : List Evento} (hini : s.Inicial)
    (hrun : Run (PasoServido max) s es s') : s'.fs.CuentaLaImagen max ↔ s'.fs.Contado := by
  have hsana : s'.fs.Cada Entrada.Sana := (Run.coherente_of_servido hini hrun).arbol
  constructor
  · intro h
    obtain ⟨datos, -, hbytes, hespacio, -⟩ := h (fun _ ↦ 0) [barra] none (by decide)
    rw [hbytes] at hespacio
    exact hespacio
  · intro h punt path disco hpath
    refine ⟨_, fisopfsFlush_eq hpath hsana disco, length_imagenFs hsana, ?_, fun hmax ↦ ?_⟩
    · rw [length_imagenFs hsana]
      exact h
    · have hcuota : s'.Cuota (Nat.max max.toNat
          (sizeofFisopfsFs.toNat + sizeofEntradaDirectorio.toNat)) :=
        Run.cuota hini (Nat.le_max_right _ _) (Nat.le_max_left _ _)
          (Nat.max_lt.mpr ⟨hmax, by decide⟩) (hrun.mono fun _ _ _ h ↦ h.paso)
      have hcubre := hcuota.arbol.cubre
      have hlt := s'.fs.espacioTotalOcupadoFs.toNat_lt
      rw [length_imagenFs hsana, h, UInt64.toNat_ofNat', Nat.mod_eq_of_lt (by omega)]

/-- In a run in which the heap serves every request, reloads included, the counter is right in every
state if and only if no `unlink` removes a file that has content. -/
theorem contador_exacto_iff (max : UInt64) {s s' : Sistema} {es : List Evento} (hini : s.Inicial)
    (hrun : Run (PasoServido max) s es s') :
    (∀ es₁ s₁, es₁ <+: es → Run (PasoServido max) s es₁ s₁ → s₁.fs.CuentaLaImagen max) ↔
      ∀ es₁ e s₁, es₁ ++ [e] <+: es → Run (PasoServido max) s es₁ s₁ → e.SinPerdida s₁ := by
  have hdet : ∀ (a : Sistema) (e : Evento) (b c : Sistema),
      PasoServido max a e b → PasoServido max a e c → b = c := by
    rintro a e b c ⟨r, hr, -, rfl⟩ ⟨r', hr', -, rfl⟩
    rw [hr] at hr'
    cases hr'
    rfl
  constructor
  · intro hexacto es₁ e s₁ hpre hrun₁
    obtain ⟨resto, rfl⟩ := hpre
    have hpre₁ : es₁ <+: es₁ ++ [e] ++ resto := by
      rw [List.append_assoc]
      exact List.prefix_append _ _
    obtain ⟨s₂, hrun₂, -⟩ := hrun.split
    obtain ⟨s₀, hrun₀, hpaso⟩ := hrun₂.split
    obtain rfl := Run.unique hdet hrun₀ hrun₁
    cases hpaso with
    | cons hprimero hnada =>
      cases hnada
      have hcontado := (cuentaLaImagen_iff hini hrun₁).mp (hexacto es₁ s₀ hpre₁ hrun₁)
      have hcontado₂ := (cuentaLaImagen_iff hini hrun₂).mp
        (hexacto (es₁ ++ [e]) s₂ (List.prefix_append _ _) hrun₂)
      obtain ⟨r, hr, hservido, rfl⟩ := hprimero
      exact sinPerdida_of_contado (Run.coherente_of_servido hini hrun₁).arbol hcontado hr hservido
        hcontado₂
  · intro hsin es₁ s₁ hpre hrun₁
    have hcuenta : s₁.EnCuenta := by
      refine Run.along hini.enCuenta (fun es₂ e a b hpre₂ hrun₂ ha hpaso ↦ ?_) hpre hrun₁
      obtain ⟨r, hr, hservido, rfl⟩ := hpaso
      exact ejecutar_enCuenta ha hr hservido (hsin es₂ e a hpre₂ hrun₂)
    exact (cuentaLaImagen_iff hini hrun₁).mpr hcuenta.contado

/-- Removing an empty file leaves the counter right. -/
theorem contador_exacto_unlink_vacio :
    ∃ s', correr 4294967296
        [(Llamada.create [barra, punto] 0o100644).simple, (Llamada.unlink [barra, punto]).simple]
        (Sistema.nuevo ⟨0, 0, 0, fun _ ↦ 0⟩) = some s' ∧
      ((∀ es₁ s₁, es₁ <+: [(Llamada.create [barra, punto] 0o100644).simple,
          (Llamada.unlink [barra, punto]).simple] →
        Run (PasoServido 4294967296) (Sistema.nuevo ⟨0, 0, 0, fun _ ↦ 0⟩) es₁ s₁ →
          s₁.fs.CuentaLaImagen 4294967296) ↔
        ∀ es₁ e s₁, es₁ ++ [e] <+: [(Llamada.create [barra, punto] 0o100644).simple,
          (Llamada.unlink [barra, punto]).simple] →
        Run (PasoServido 4294967296) (Sistema.nuevo ⟨0, 0, 0, fun _ ↦ 0⟩) es₁ s₁ →
          e.SinPerdida s₁) := by
  have hcorre : (correr 4294967296
      [(Llamada.create [barra, punto] 0o100644).simple, (Llamada.unlink [barra, punto]).simple]
      (Sistema.nuevo ⟨0, 0, 0, fun _ ↦ 0⟩)).isSome = true := by
    decide +kernel
  obtain ⟨s', hs'⟩ := Option.isSome_iff_exists.mp hcorre
  exact ⟨s', hs', contador_exacto_iff 4294967296 (Sistema.nuevo_inicial _) (run_correr hs')⟩

/-- After a file of three bytes is created and removed, the counter is three bytes above the image
of the tree. -/
theorem contador_tras_unlink :
    ∃ s s', s.Inicial ∧ Run (PasoServido 4294967296) s
        [(Llamada.create [barra, punto] 0o100644).simple,
          (Llamada.write [barra, punto] [7, 7, 7] 3 0).simple,
          (Llamada.unlink [barra, punto]).simple] s' ∧
      s'.fs.bytes = 2240 ∧ s'.fs.espacioTotalOcupadoFs = 2243 ∧
      ¬ s'.fs.CuentaLaImagen 4294967296 := by
  have hcorre : (correr 4294967296
      [(Llamada.create [barra, punto] 0o100644).simple,
        (Llamada.write [barra, punto] [7, 7, 7] 3 0).simple,
        (Llamada.unlink [barra, punto]).simple]
      (Sistema.nuevo ⟨0, 0, 0, fun _ ↦ 0⟩)).map
        (fun s ↦ (s.fs.bytes, s.fs.espacioTotalOcupadoFs)) = some (2240, 2243) := by
    decide +kernel
  obtain ⟨s', hs', heq⟩ := Option.map_eq_some_iff.mp hcorre
  obtain ⟨hbytes, hespacio⟩ := Prod.mk.inj heq
  refine ⟨_, s', Sistema.nuevo_inicial _, run_correr hs', hbytes, hespacio, fun hcuenta ↦ ?_⟩
  obtain ⟨datos, -, hlargo, hdatos, -⟩ := hcuenta (fun _ ↦ 0) [barra] none (by decide)
  rw [hespacio, hlargo, hbytes] at hdatos
  exact absurd hdatos (by decide)

end SistemasOperativos.FisopFs
