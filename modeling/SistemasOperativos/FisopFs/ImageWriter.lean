import SistemasOperativos.FisopFs.Image
import SistemasOperativos.FisopFs.Slots

/-!
# What `fisopfs_flush` writes

The image of a tree as a function of the tree and of the values of its pointer members. The writer
puts this image on its stream, as far as the stream accepts it, and the length of the image is the
number of bytes of the tree.
-/

namespace SistemasOperativos.FisopFs

open Library

/-! ## The image of a tree -/

section Imagen

-- the value of a pointer member that is written at a given offset of the image
variable (punt : ℕ → UInt64)

def imagenArchivo (pos : ℕ) (a : EntradaArchivo) : List UInt8 :=
  codecEntradaArchivo.encode ((a.nombre, a.st, tipoArchivo), punt pos) ++
    a.contenido.take a.st.stSize.toNat

mutual

/-- The image of an entry that starts at offset `pos`. -/
def imagenEntrada : ℕ → Entrada → List UInt8
  | pos, .archivo a => imagenArchivo punt pos a
  | pos, .directorio d => imagenDirectorio pos d
  | _, .vacio => []
  | _, .nula => []
  | _, .indefinida => []

def imagenDirectorio : ℕ → EntradaDirectorio → List UInt8
  | pos, ⟨nombre, st, cantidadEntradas, cantidadEntradasOcupadas, entradas⟩ =>
    codecEntradaDirectorio.encode
      ((nombre, st, tipoDirectorio), cantidadEntradas, cantidadEntradasOcupadas, punt pos) ++
    imagenEntradas cantidadEntradas.toNat (pos + sizeofEntradaDirectorio.toNat) entradas

/-- The image of the first `n` slots of a vector. -/
def imagenEntradas : ℕ → ℕ → List Entrada → List UInt8
  | 0, _, _ => []
  | _ + 1, _, [] => []
  | n + 1, pos, e :: es =>
    imagenEntrada pos e ++ imagenEntradas n (pos + (imagenEntrada pos e).length) es

end

def imagenFs (fs : Fs) : List UInt8 :=
  codecFs.encode (punt 0, fs.espacioTotalOcupadoFs) ++
    imagenDirectorio punt sizeofFisopfsFs.toNat fs.raiz

end Imagen

variable {punt : ℕ → UInt64}

theorem imagenEntrada_archivo (pos : ℕ) (a : EntradaArchivo) :
    imagenEntrada punt pos (.archivo a) = imagenArchivo punt pos a := by rw [imagenEntrada]

theorem imagenEntrada_directorio (pos : ℕ) (d : EntradaDirectorio) :
    imagenEntrada punt pos (.directorio d) =
      codecEntradaDirectorio.encode ((d.nombre, d.st, tipoDirectorio), d.cantidadEntradas,
        d.cantidadEntradasOcupadas, punt pos) ++
      imagenEntradas punt d.cantidadEntradas.toNat (pos + sizeofEntradaDirectorio.toNat)
        d.entradas := by
  cases d
  rw [imagenEntrada, imagenDirectorio]

theorem imagenEntrada_desocupada {e : Entrada} (he : e.ocupada = false) (pos : ℕ) :
    imagenEntrada punt pos e = [] := by
  cases e with
  | archivo => cases he
  | directorio => cases he
  | _ => rw [imagenEntrada]

theorem imagenEntradas_zero (pos : ℕ) (es : List Entrada) : imagenEntradas punt 0 pos es = [] := by
  rw [imagenEntradas]

theorem imagenEntradas_nil (n pos : ℕ) : imagenEntradas punt n pos [] = [] := by
  cases n <;> rw [imagenEntradas]

theorem imagenEntradas_cons (n pos : ℕ) (e : Entrada) (es : List Entrada) :
    imagenEntradas punt (n + 1) pos (e :: es) = imagenEntrada punt pos e ++
      imagenEntradas punt n (pos + (imagenEntrada punt pos e).length) es := by rw [imagenEntradas]

theorem length_imagenEntradas_le {es : List Entrada}
    (h : ∀ e ∈ es, ∀ pos, (imagenEntrada punt pos e).length ≤ e.bytes) (n pos : ℕ) :
    (imagenEntradas punt n pos es).length ≤ bytesEntradas es := by
  induction es generalizing n pos with
  | nil => simp [imagenEntradas_nil]
  | cons e es ih =>
    cases n with
    | zero => simp [imagenEntradas_zero]
    | succ n =>
      have he := h e (by simp) pos
      have hes := ih (fun x hx ↦ h x (by simp [hx])) n (pos + (imagenEntrada punt pos e).length)
      rw [imagenEntradas_cons, List.length_append, bytesEntradas_cons]
      omega

theorem length_imagenEntradas_eq {es : List Entrada}
    (h : ∀ e ∈ es, ∀ pos, (imagenEntrada punt pos e).length = e.bytes) {n : ℕ} (hn : es.length = n)
    (pos : ℕ) : (imagenEntradas punt n pos es).length = bytesEntradas es := by
  induction es generalizing n pos with
  | nil => simp [imagenEntradas_nil]
  | cons e es ih =>
    subst hn
    rw [List.length_cons, imagenEntradas_cons, List.length_append, bytesEntradas_cons,
      h e (by simp), ih (fun x hx ↦ h x (by simp [hx])) rfl]

/-- An image is never longer than the tree is counted to be. -/
theorem length_imagenEntrada_le (e : Entrada) (pos : ℕ) :
    (imagenEntrada punt pos e).length ≤ e.bytes := by
  induction e using Entrada.induccion generalizing pos with
  | archivo a =>
    rw [imagenEntrada_archivo, imagenArchivo, List.length_append, Codec.length_encode,
      size_codecEntradaArchivo, Entrada.bytes_archivo]
    exact Nat.add_le_add_left (List.length_take_le _ _) _
  | directorio d ih =>
    rw [imagenEntrada_directorio, List.length_append, Codec.length_encode,
      size_codecEntradaDirectorio, Entrada.bytes_directorio]
    exact Nat.add_le_add_left (length_imagenEntradas_le ih _ _) _
  | _ => simp [imagenEntrada]

/-- The image of a tree in order has exactly the bytes of the tree. -/
theorem length_imagenEntrada {e : Entrada} (he : e.Cada Entrada.Sana) (pos : ℕ) :
    (imagenEntrada punt pos e).length = e.bytes := by
  induction e using Entrada.induccion generalizing pos with
  | archivo a =>
    have ha : a.Sano := he.self
    rw [imagenEntrada_archivo, imagenArchivo, List.length_append, Codec.length_encode,
      List.length_take, Nat.min_eq_left ha.contenido, Entrada.bytes_archivo,
      size_codecEntradaArchivo]
  | directorio d ih =>
    obtain ⟨hd, hhijos⟩ := Entrada.cada_directorio.mp he
    rw [imagenEntrada_directorio, List.length_append, Codec.length_encode,
      length_imagenEntradas_eq (fun x hx ↦ ih x hx (hhijos x hx)) (Entrada.sana_directorio.mp hd).largo,
      Entrada.bytes_directorio, size_codecEntradaDirectorio]
  | _ => simp [imagenEntrada]

theorem imagenFs_eq (fs : Fs) : imagenFs punt fs =
    codecFs.encode (punt 0, fs.espacioTotalOcupadoFs) ++
      imagenEntrada punt sizeofFisopfsFs.toNat (.directorio fs.raiz) := by
  rw [imagenFs, imagenEntrada]

theorem length_imagenFs_le (fs : Fs) : (imagenFs punt fs).length ≤ fs.bytes := by
  have hraiz : (imagenEntrada punt sizeofFisopfsFs.toNat (.directorio fs.raiz)).length ≤ _ :=
    length_imagenEntrada_le _ _
  rw [Entrada.bytes] at hraiz
  rw [imagenFs_eq, List.length_append, Codec.length_encode, size_codecFs, Fs.bytes]
  exact Nat.add_le_add_left hraiz _

theorem length_imagenFs {fs : Fs} (hfs : fs.Cada Entrada.Sana) :
    (imagenFs punt fs).length = fs.bytes := by
  rw [imagenFs_eq, List.length_append, Codec.length_encode, length_imagenEntrada hfs,
    size_codecFs, Fs.bytes, Entrada.bytes]

/-! ## The stream -/

namespace Salida

/-- What the stream holds after some bytes have been sent to it. -/
def escribir (s : Salida) (bytes : List UInt8) : Salida where
  datos := s.datos ++ match s.cupo with
    | none => bytes
    | some c => bytes.take c
  cupo := s.cupo.map (· - bytes.length)

theorem escribir_nil (s : Salida) : s.escribir [] = s := by
  obtain ⟨datos, cupo⟩ := s
  cases cupo <;> simp [escribir]

theorem escribir_append (s : Salida) (a b : List UInt8) :
    (s.escribir a).escribir b = s.escribir (a ++ b) := by
  obtain ⟨datos, cupo⟩ := s
  cases cupo with
  | none => simp [escribir]
  | some c => simp [escribir, List.take_append, Nat.sub_sub]

/-- A stream that accepts no more bytes. -/
theorem escribir_lleno {s : Salida} (h : s.cupo = some 0) (bytes : List UInt8) :
    s.escribir bytes = s := by
  obtain ⟨datos, cupo⟩ := s
  cases h
  simp [escribir]

/-- An item that was not written whole leaves a stream that is full. -/
theorem fwrite_eq (s : Salida) {item : List UInt8} (h : item ≠ []) :
    (s.fwrite item).2 = s.escribir item ∧
      ((s.fwrite item).1 = false → (s.escribir item).cupo = some 0) := by
  obtain ⟨datos, cupo⟩ := s
  have hvacio : item.isEmpty = false := by simpa using h
  cases cupo with
  | none => simp [fwrite, escribir, hvacio]
  | some c =>
    by_cases hc : item.length ≤ c
    · simp [fwrite, escribir, hvacio, hc, List.take_of_length_le hc]
    · have hcero : c - item.length = 0 := by omega
      simp [fwrite, escribir, hc, hcero]

theorem fwrite_snd (s : Salida) (item : List UInt8) : (s.fwrite item).2 = s.escribir item := by
  by_cases h : item = []
  · subst h
    obtain ⟨datos, cupo⟩ := s
    cases cupo <;> simp [fwrite, escribir]
  · exact (fwrite_eq s h).1

/-- The stream holds `pos` bytes, unless it is full. -/
def EnPosicion (s : Salida) (pos : ℕ) : Prop := s.cupo = some 0 ∨ s.datos.length = pos

theorem EnPosicion.escribir {s : Salida} {pos : ℕ} (h : s.EnPosicion pos) (bytes : List UInt8) :
    (s.escribir bytes).EnPosicion (pos + bytes.length) := by
  obtain hlleno | hpos := h
  · rw [escribir_lleno hlleno]
    exact .inl hlleno
  obtain ⟨datos, cupo⟩ := s
  have hpos : datos.length = pos := hpos
  cases cupo with
  | none => exact .inr (by simp [Salida.escribir, hpos])
  | some c =>
    by_cases hc : bytes.length ≤ c
    · exact .inr (by simp [Salida.escribir, hpos, List.length_take, Nat.min_eq_right hc])
    · have hcero : c - bytes.length = 0 := by omega
      exact .inl (by simp [Salida.escribir, hcero])

theorem datos_prefijo (s : Salida) (bytes : List UInt8) :
    ∃ k, (s.escribir bytes).datos = s.datos ++ bytes.take k := by
  obtain ⟨datos, cupo⟩ := s
  cases cupo with
  | none => exact ⟨bytes.length, by simp [escribir]⟩
  | some c => exact ⟨c, rfl⟩

end Salida

/-! ## The writer -/

/-- What the writer of an image does to its stream: it sends the image, and stops with an error only
when the stream is full. -/
def Escrito (imagen : List UInt8) (s : Salida) (r : ℤ) (s' : Salida) : Prop :=
  s' = s.escribir imagen ∧ (r ≠ 0 → s'.cupo = some 0)

theorem Escrito.parar {imagen : List UInt8} {s s' : Salida} {r : ℤ} (h : Escrito imagen s r s')
    (hr : r ≠ 0) (resto : List UInt8) : Escrito (imagen ++ resto) s r s' := by
  obtain ⟨rfl, hlleno⟩ := h
  refine ⟨?_, hlleno⟩
  rw [← Salida.escribir_append, Salida.escribir_lleno (hlleno hr)]

theorem Escrito.seguir {imagen resto : List UInt8} {s s₁ s' : Salida} {r : ℤ}
    (h : Escrito imagen s 0 s₁) (h' : Escrito resto s₁ r s') :
    Escrito (imagen ++ resto) s r s' := by
  obtain ⟨rfl, -⟩ := h
  obtain ⟨rfl, hlleno⟩ := h'
  exact ⟨Salida.escribir_append .., hlleno⟩

/-- The first item of a structure, written with the pointer that belongs at its position. -/
theorem fwrite_escrito {s : Salida} {pos : ℕ} (hpos : s.EnPosicion pos) (item : ℕ → List UInt8)
    (hitem : ∀ k, item k ≠ []) :
    (s.fwrite (item s.datos.length)).2 = s.escribir (item pos) ∧
      ((s.fwrite (item s.datos.length)).1 = false → (s.escribir (item pos)).cupo = some 0) := by
  obtain ⟨hescribe, hlleno⟩ := s.fwrite_eq (hitem s.datos.length)
  obtain hcero | rfl := hpos
  · rw [hescribe, Salida.escribir_lleno hcero, Salida.escribir_lleno hcero]
    exact ⟨rfl, fun _ ↦ hcero⟩
  · exact ⟨hescribe, hlleno⟩

theorem encode_ne_nil {α : Type} {c : Codec α} (hc : 0 < c.size) (a : α) : c.encode a ≠ [] := by
  intro hnil
  have hlen := c.length_encode a
  rw [hnil] at hlen
  simp at hlen
  omega

theorem escribirArchivo_ok {a : EntradaArchivo} {s s' : Salida} {pos : ℕ} {r : ℤ}
    (hpos : s.EnPosicion pos) (h : escribirEntradaArchivoEnArchivo punt a s = .ok (r, s')) :
    Escrito (imagenArchivo punt pos a) s r s' := by
  obtain ⟨hescribe, hlleno⟩ := fwrite_escrito hpos (fun k ↦
    codecEntradaArchivo.encode ((a.nombre, a.st, tipoArchivo), punt k))
    fun k ↦ encode_ne_nil (by simp [sizeofEntradaArchivo]) _
  unfold escribirEntradaArchivoEnArchivo at h
  unfold imagenArchivo
  cases hf : s.fwrite (codecEntradaArchivo.encode
      ((a.nombre, a.st, tipoArchivo), punt s.datos.length)) with
  | mk resultado s₁ =>
    simp only [hf] at h hescribe hlleno
    subst hescribe
    cases resultado with
    | false =>
      simp only [Bool.not_false, if_true] at h
      cases h
      exact Escrito.parar ⟨rfl, fun _ ↦ hlleno rfl⟩ (by decide) _
    | true =>
      simp only [Bool.not_true, Bool.false_eq_true, if_false] at h
      split at h
      · cases h
      · cases h
        exact Escrito.seguir ⟨rfl, fun h0 ↦ absurd rfl h0⟩
          ⟨Salida.fwrite_snd _ _, fun h0 ↦ absurd rfl h0⟩

/-- The loop over the slots, where each slot is written as it should be. -/
theorem escribirEntradas_ok_of {n pos : ℕ} {es : List Entrada} {s s' : Salida} {r : ℤ}
    (hes : ∀ e ∈ es, ∀ (pos : ℕ) (s s' : Salida) (r : ℤ), s.EnPosicion pos →
      escribirEntrada punt e s = .ok (r, s') → Escrito (imagenEntrada punt pos e) s r s')
    (hpos : s.EnPosicion pos) (h : escribirEntradas punt n es s = .ok (r, s')) :
    Escrito (imagenEntradas punt n pos es) s r s' := by
  induction es generalizing n pos s with
  | nil =>
    cases n with
    | zero =>
      cases h
      rw [imagenEntradas_zero]
      exact ⟨(Salida.escribir_nil _).symm, fun h0 ↦ absurd rfl h0⟩
    | succ n =>
      rw [escribirEntradas] at h
      cases h
  | cons e es ih =>
    cases n with
    | zero =>
      rw [escribirEntradas] at h
      cases h
      rw [imagenEntradas_zero]
      exact ⟨(Salida.escribir_nil _).symm, fun h0 ↦ absurd rfl h0⟩
    | succ n =>
      rw [escribirEntradas, Except.bind_ok] at h
      obtain ⟨⟨r₁, s₁⟩, he, h⟩ := h
      have hprimera := hes e (by simp) pos s s₁ r₁ hpos he
      rw [imagenEntradas_cons]
      by_cases hr : r₁ ≠ 0
      · simp only [if_pos hr] at h
        cases h
        exact hprimera.parar hr _
      · simp only [if_neg hr] at h
        obtain rfl : r₁ = 0 := by simpa using hr
        have hpos₁ : s₁.EnPosicion (pos + (imagenEntrada punt pos e).length) :=
          hprimera.1 ▸ hpos.escribir _
        exact hprimera.seguir (ih (fun x hx ↦ hes x (by simp [hx])) hpos₁ h)

theorem escribirEntrada_ok (e : Entrada) (pos : ℕ) (s s' : Salida) (r : ℤ) (hpos : s.EnPosicion pos)
    (h : escribirEntrada punt e s = .ok (r, s')) : Escrito (imagenEntrada punt pos e) s r s' := by
  induction e using Entrada.induccion generalizing pos s s' r with
  | archivo a =>
    rw [escribirEntrada] at h
    rw [imagenEntrada_archivo]
    exact escribirArchivo_ok hpos h
  | directorio d ih =>
    obtain ⟨hescribe, hlleno⟩ := fwrite_escrito hpos (fun k ↦
      codecEntradaDirectorio.encode ((d.nombre, d.st, tipoDirectorio), d.cantidadEntradas,
        d.cantidadEntradasOcupadas, punt k))
      fun k ↦ encode_ne_nil (by simp [sizeofEntradaDirectorio]) _
    rw [imagenEntrada_directorio]
    cases d with
    | mk nombre st cantidadEntradas cantidadEntradasOcupadas entradas =>
      rw [escribirEntrada, escribirDirectorioEnArchivo] at h
      cases hf : s.fwrite (codecEntradaDirectorio.encode ((nombre, st, tipoDirectorio),
          cantidadEntradas, cantidadEntradasOcupadas, punt s.datos.length)) with
      | mk resultado s₁ =>
        simp only [hf] at h hescribe hlleno
        have hpos₁ := hpos.escribir (codecEntradaDirectorio.encode ((nombre, st, tipoDirectorio),
          cantidadEntradas, cantidadEntradasOcupadas, punt pos))
        rw [Codec.length_encode, size_codecEntradaDirectorio, ← hescribe] at hpos₁
        cases resultado with
        | false =>
          simp only [Bool.not_false, if_true] at h
          cases h
          exact Escrito.parar ⟨hescribe, fun _ ↦ hescribe ▸ hlleno rfl⟩ (by decide) _
        | true =>
          simp only [Bool.not_true, Bool.false_eq_true, if_false] at h
          exact Escrito.seguir ⟨hescribe, fun h0 ↦ absurd rfl h0⟩
            (escribirEntradas_ok_of ih hpos₁ h)
  | vacio =>
    rw [escribirEntrada] at h
    cases h
    rw [imagenEntrada_desocupada rfl]
    exact ⟨(Salida.escribir_nil _).symm, fun h0 ↦ absurd rfl h0⟩
  | nula =>
    rw [escribirEntrada] at h
    cases h
  | indefinida =>
    rw [escribirEntrada] at h
    cases h

/-! ## Which trees can be written -/

theorem escribirEntradas_returns {n : ℕ} {es : List Entrada} (hn : n ≤ es.length)
    (hes : ∀ e ∈ es, ∀ s, ∃ p, escribirEntrada punt e s = .ok p) (s : Salida) :
    ∃ p, escribirEntradas punt n es s = .ok p := by
  induction es generalizing n s with
  | nil =>
    obtain rfl : n = 0 := by simpa using hn
    exact ⟨_, by rw [escribirEntradas]⟩
  | cons e es ih =>
    cases n with
    | zero => exact ⟨_, by rw [escribirEntradas]⟩
    | succ n =>
      obtain ⟨⟨r₁, s₁⟩, he⟩ := hes e (by simp) s
      rw [escribirEntradas, he]
      by_cases hr : r₁ ≠ 0
      · exact ⟨(r₁, s₁), by simp [bind, Except.bind, hr, pure, Except.pure]⟩
      · obtain ⟨p, hp⟩ := ih (by simpa using hn) (fun x hx ↦ hes x (by simp [hx])) s₁
        exact ⟨p, by simpa [bind, Except.bind, hr] using hp⟩

/-- The writer returns on a tree in order. -/
theorem escribirEntrada_returns {e : Entrada} (he : e.Cada Entrada.Sana)
    (hasignada : e.asignada = true) (s : Salida) : ∃ p, escribirEntrada punt e s = .ok p := by
  induction e using Entrada.induccion generalizing s with
  | archivo a =>
    have ha : a.Sano := he.self
    rw [escribirEntrada]
    unfold escribirEntradaArchivoEnArchivo
    cases hf : s.fwrite (codecEntradaArchivo.encode
        ((a.nombre, a.st, tipoArchivo), punt s.datos.length)) with
    | mk resultado s₁ =>
      cases resultado with
      | false => exact ⟨_, by simp only [Bool.not_false, if_true]; rfl⟩
      | true =>
        have hlt : ¬ a.contenido.length < a.st.stSize.toNat := Nat.not_lt.mpr ha.contenido
        exact ⟨_, by simp only [Bool.not_true, Bool.false_eq_true, if_false, if_neg hlt]; rfl⟩
  | directorio d ih =>
    obtain ⟨hd, hhijos⟩ := Entrada.cada_directorio.mp he
    have hsano := Entrada.sana_directorio.mp hd
    cases d with
    | mk nombre st cantidadEntradas cantidadEntradasOcupadas entradas =>
      rw [escribirEntrada, escribirDirectorioEnArchivo]
      cases hf : s.fwrite (codecEntradaDirectorio.encode ((nombre, st, tipoDirectorio),
          cantidadEntradas, cantidadEntradasOcupadas, punt s.datos.length)) with
      | mk resultado s₁ =>
        cases resultado with
        | false => exact ⟨_, by simp only [Bool.not_false, if_true]; rfl⟩
        | true =>
          simp only [Bool.not_true, Bool.false_eq_true, if_false]
          exact escribirEntradas_returns (Nat.le_of_eq hsano.largo.symm)
            (fun x hx s ↦ ih x hx (hhijos x hx) (hsano.asignadas x hx) s) s₁
  | vacio => exact ⟨_, by rw [escribirEntrada]⟩
  | nula => cases hasignada
  | indefinida => cases hasignada

/-- A loop over the slots that returned with a stream that is never full has read all of them. -/
theorem escribirEntradas_leidas {n : ℕ} {es : List Entrada} {s s' : Salida} {r : ℤ}
    (hs : s.cupo = none) (h : escribirEntradas punt n es s = .ok (r, s')) :
    n ≤ es.length ∧ ∀ i e, i < n → es[i]? = some e →
      ∃ (s s' : Salida) (r : ℤ), s.cupo = none ∧ escribirEntrada punt e s = .ok (r, s') := by
  induction es generalizing n s with
  | nil =>
    cases n with
    | zero => exact ⟨Nat.le_refl 0, fun i e hi ↦ absurd hi (Nat.not_lt_zero i)⟩
    | succ n =>
      rw [escribirEntradas] at h
      cases h
  | cons e es ih =>
    cases n with
    | zero => exact ⟨Nat.zero_le _, fun i e hi ↦ absurd hi (Nat.not_lt_zero i)⟩
    | succ n =>
      rw [escribirEntradas, Except.bind_ok] at h
      obtain ⟨⟨r₁, s₁⟩, he, h⟩ := h
      -- with no limit on the stream the position does not matter
      obtain ⟨hs₁, hcero⟩ := escribirEntrada_ok e s.datos.length s s₁ r₁ (.inr rfl) he
      have hcupo : s₁.cupo = none := by rw [hs₁]; simp [Salida.escribir, hs]
      have hr : r₁ = 0 := by
        by_contra hr
        rw [hcupo] at hcero
        cases hcero hr
      simp only [hr, ne_eq, not_true_eq_false, if_false] at h
      obtain ⟨hlen, hall⟩ := ih hcupo h
      refine ⟨by simpa using hlen, fun i x hi hx ↦ ?_⟩
      cases i with
      | zero =>
        obtain rfl : e = x := by simpa using hx
        exact ⟨s, s₁, r₁, hs, he⟩
      | succ i => exact hall i x (by omega) (by simpa using hx)

theorem asignada_of_escribirEntrada {e : Entrada} {s : Salida} {p : ℤ × Salida}
    (h : escribirEntrada punt e s = .ok p) : e.asignada = true := by
  cases e with
  | nula => rw [escribirEntrada] at h; cases h
  | indefinida => rw [escribirEntrada] at h; cases h
  | _ => rfl

/-- A tree that was written whole has no broken vector. -/
theorem sana_of_escribirEntrada {rotos : Prop} {e : Entrada} {s s' : Salida} {r : ℤ}
    (hs : s.cupo = none) (h : escribirEntrada punt e s = .ok (r, s'))
    (he : e.Cada (Entrada.Coherente rotos)) : e.Cada Entrada.Sana := by
  induction e using Entrada.induccion generalizing s s' r with
  | archivo a => exact (Entrada.cada_hoja rfl).mpr he.self
  | directorio d ih =>
    obtain ⟨hd, hhijos⟩ := Entrada.cada_directorio.mp he
    cases d with
    | mk nombre st cantidadEntradas cantidadEntradasOcupadas entradas =>
      rw [escribirEntrada, escribirDirectorioEnArchivo] at h
      have hescribe := s.fwrite_eq (encode_ne_nil (c := codecEntradaDirectorio)
        (by simp [sizeofEntradaDirectorio]) ((nombre, st, tipoDirectorio), cantidadEntradas,
          cantidadEntradasOcupadas, punt s.datos.length))
      cases hf : s.fwrite (codecEntradaDirectorio.encode ((nombre, st, tipoDirectorio),
          cantidadEntradas, cantidadEntradasOcupadas, punt s.datos.length)) with
      | mk resultado s₁ =>
        simp only [hf] at h hescribe
        obtain ⟨rfl, hlleno⟩ := hescribe
        have hcupo (bytes : List UInt8) : (s.escribir bytes).cupo = none := by
          simp [Salida.escribir, hs]
        cases resultado with
        | false =>
          have hno := hlleno rfl
          rw [hcupo] at hno
          cases hno
        | true =>
          simp only [Bool.not_true, Bool.false_eq_true, if_false] at h
          obtain ⟨hlen, hleidas⟩ := escribirEntradas_leidas (hcupo _) h
          obtain hsano | ⟨-, j, hj, hmala, -⟩ := hd
          · refine Entrada.cada_directorio.mpr ⟨.inl hsano, fun x hx ↦ ?_⟩
            obtain ⟨i, hi⟩ := List.mem_iff_getElem?.mp hx
            have hilt : i < entradas.length := (List.getElem?_eq_some_iff.mp hi).1
            have hlargo : entradas.length = cantidadEntradas.toNat := hsano.largo
            obtain ⟨s₂, s₃, r₂, hs₂, hx₂⟩ := hleidas i x (hlargo ▸ hilt) hi
            exact ih x hx hs₂ hx₂ (hhijos x hx)
          · have hget : entradas[j]? = some entradas[j] := List.getElem?_eq_getElem (by
              have hj : j < cantidadEntradas.toNat := hj
              omega)
            obtain ⟨s₂, s₃, r₂, -, hx₂⟩ := hleidas j _ hj hget
            have hsi := asignada_of_escribirEntrada hx₂
            rw [hmala _ hget] at hsi
            cases hsi
  | _ => exact (Entrada.cada_hoja rfl).mpr trivial

/-! ## The call -/

/-- `fisopfs_flush` stops before it opens the file, after the structure `fs`, or after the root
directory. -/
theorem fisopfsFlush_cases {abre : Bool} {cupo : Option ℕ} {path : Cadena} {fs : Fs}
    {disco disco' : Option (List UInt8)} {r : ℤ}
    (h : fisopfsFlush punt abre cupo path fs disco = .ok (r, disco')) :
    ((maximoPath < path.length ∨ abre = false) ∧ r ≠ 0 ∧ disco' = disco) ∨
    path.length ≤ maximoPath ∧ abre = true ∧ ∃ resultado s₁ s₂,
      Salida.fwrite ⟨[], cupo⟩ (codecFs.encode (punt 0, fs.espacioTotalOcupadoFs)) =
        (resultado, s₁) ∧ disco' = some s₂.datos ∧
      ((resultado = false ∧ r ≠ 0 ∧ s₂ = s₁) ∨
       (resultado = true ∧ escribirEntrada punt (.directorio fs.raiz) s₁ = .ok (r, s₂))) := by
  unfold fisopfsFlush at h
  split at h
  next hpath =>
    cases h
    exact .inl ⟨.inl hpath, by decide, rfl⟩
  next hpath =>
  cases abre with
  | false =>
    cases h
    exact .inl ⟨.inr rfl, by decide, rfl⟩
  | true =>
    simp only [Bool.not_true, Bool.false_eq_true, if_false] at h
    cases hf : Salida.fwrite ⟨[], cupo⟩ (codecFs.encode (punt 0, fs.espacioTotalOcupadoFs)) with
    | mk resultado s₁ =>
      simp only [hf] at h
      cases resultado with
      | false =>
        simp only [Bool.not_false, if_true] at h
        cases h
        exact .inr ⟨Nat.not_lt.mp hpath, rfl, false, s₁, s₁, rfl, rfl, .inl ⟨rfl, by decide, rfl⟩⟩
      | true =>
        simp only [Bool.not_true, Bool.false_eq_true, if_false, Except.bind_ok] at h
        obtain ⟨⟨r₁, s₂⟩, hraiz, h⟩ := h
        rw [← escribirEntrada] at hraiz
        cases h
        exact .inr ⟨Nat.not_lt.mp hpath, rfl, true, s₁, s₂, rfl, rfl, .inr ⟨rfl, hraiz⟩⟩

/-- The stream after the structure `fs`. -/
theorem enPosicion_fs (cupo : Option ℕ) (fs : Fs) :
    (Salida.escribir ⟨[], cupo⟩
      (codecFs.encode (punt 0, fs.espacioTotalOcupadoFs))).EnPosicion sizeofFisopfsFs.toNat := by
  have hinicio : (⟨[], cupo⟩ : Salida).EnPosicion 0 := .inr rfl
  have hpos := hinicio.escribir (codecFs.encode (punt 0, fs.espacioTotalOcupadoFs))
  rw [Codec.length_encode, size_codecFs, Nat.zero_add] at hpos
  exact hpos

/-- `fisopfs_flush` leaves the file alone or replaces it by the image, cut where the medium was
full. -/
theorem fisopfsFlush_ok {abre : Bool} {cupo : Option ℕ} {path : Cadena} {fs : Fs}
    {disco disco' : Option (List UInt8)} {r : ℤ}
    (h : fisopfsFlush punt abre cupo path fs disco = .ok (r, disco')) :
    ((maximoPath < path.length ∨ abre = false) ∧ r ≠ 0 ∧ disco' = disco) ∨
    (∃ k, disco' = some ((imagenFs punt fs).take k)) ∧
      (cupo = none → r = 0 ∧ disco' = some (imagenFs punt fs) ∧
        ∀ rotos, fs.Cada (Entrada.Coherente rotos) → fs.Cada Entrada.Sana) := by
  obtain hno | ⟨-, -, resultado, s₁, s₂, hf, rfl, hraiz⟩ := fisopfsFlush_cases h
  · exact .inl hno
  obtain ⟨hescribe, hlleno⟩ := Salida.fwrite_eq ⟨[], cupo⟩ (encode_ne_nil (c := codecFs)
    (by simp [sizeofFisopfsFs]) (punt 0, fs.espacioTotalOcupadoFs))
  rw [hf] at hescribe hlleno
  obtain rfl : s₁ = _ := hescribe
  rw [imagenFs_eq]
  obtain ⟨k, hk⟩ := Salida.datos_prefijo ⟨[], cupo⟩
    (codecFs.encode (punt 0, fs.espacioTotalOcupadoFs) ++
      imagenEntrada punt sizeofFisopfsFs.toNat (.directorio fs.raiz))
  obtain ⟨rfl, -, rfl⟩ | ⟨rfl, hraiz⟩ := hraiz
  · rw [← Salida.escribir_append, Salida.escribir_lleno (hlleno rfl), List.nil_append] at hk
    refine .inr ⟨⟨k, congrArg some hk⟩, fun hcupo ↦ ?_⟩
    subst hcupo
    cases hlleno rfl
  · obtain ⟨rfl, hr⟩ := escribirEntrada_ok _ _ _ _ _ (enPosicion_fs cupo fs) hraiz
    rw [Salida.escribir_append]
    refine .inr ⟨⟨k, congrArg some hk⟩, fun hcupo ↦ ?_⟩
    subst hcupo
    refine ⟨?_, rfl, fun rotos hfs ↦ sana_of_escribirEntrada rfl hraiz hfs⟩
    by_contra hno
    cases hr hno

/-- On a tree in order, `fisopfs_flush` writes the whole image. -/
theorem fisopfsFlush_eq {path : Cadena} (hpath : path.length ≤ maximoPath) {fs : Fs}
    (hfs : fs.Cada Entrada.Sana) (disco : Option (List UInt8)) :
    fisopfsFlush punt true none path fs disco = .ok (0, some (imagenFs punt fs)) := by
  obtain ⟨⟨r, disco'⟩, hflush⟩ : ∃ p, fisopfsFlush punt true none path fs disco = .ok p := by
    unfold fisopfsFlush
    rw [if_neg (Nat.not_lt.mpr hpath)]
    simp only [Bool.not_true, Bool.false_eq_true, if_false]
    cases hf : Salida.fwrite ⟨[], none⟩ (codecFs.encode (punt 0, fs.espacioTotalOcupadoFs)) with
    | mk resultado s₁ =>
      cases resultado with
      | false => exact ⟨_, by simp only [Bool.not_false, if_true]; rfl⟩
      | true =>
        obtain ⟨p, hp⟩ : ∃ p, escribirEntrada punt (.directorio fs.raiz) s₁ = .ok p :=
          escribirEntrada_returns hfs rfl s₁
        rw [escribirEntrada] at hp
        exact ⟨(p.1, some p.2.datos), by simp [hp, bind, Except.bind, pure, Except.pure]⟩
  obtain ⟨hlargo | habre, -⟩ | ⟨-, hcompleta⟩ := fisopfsFlush_ok hflush
  · exact absurd hlargo (Nat.not_lt.mpr hpath)
  · cases habre
  · obtain ⟨rfl, rfl, -⟩ := hcompleta rfl
    exact hflush

end SistemasOperativos.FisopFs
