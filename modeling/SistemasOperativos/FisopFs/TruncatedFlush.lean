import SistemasOperativos.FisopFs.Reachability

/-!
# The result of `fisopfs_flush` on a medium that fills up

Every item that is not written whole makes the call fail, except the content of a file, whose result
nobody looks at. Whatever is written after that content fails too, since the medium is full by then.
So the call reports success on an image that is cut short exactly when the medium fills up inside
the content of the last file, with no record after it.
-/

namespace SistemasOperativos.FisopFs

open Library

/-! ## The records of an image -/

mutual

/-- The files and directories that have a record in the image of an entry, in the order of the
image. -/
def Entrada.registros : Entrada → List Entrada
  | .archivo a => [.archivo a]
  | .directorio d => registrosDirectorio d
  | .vacio => []
  | .nula => []
  | .indefinida => []

def registrosDirectorio : EntradaDirectorio → List Entrada
  | ⟨nombre, st, cantidadEntradas, cantidadEntradasOcupadas, entradas⟩ =>
    .directorio ⟨nombre, st, cantidadEntradas, cantidadEntradasOcupadas, entradas⟩ ::
      registrosEntradas cantidadEntradas.toNat entradas

def registrosEntradas : ℕ → List Entrada → List Entrada
  | 0, _ => []
  | _ + 1, [] => []
  | n + 1, e :: es => e.registros ++ registrosEntradas n es

end

/-- The content that an image ends with: the one of its last record, where that is a file. -/
def contenidoFinal (registros : List Entrada) : List UInt8 :=
  match registros.getLast? with
  | some (.archivo a) => a.contenido.take a.st.stSize.toNat
  | _ => []

/-- The content that the image of the file system ends with. -/
def Fs.contenidoFinal (fs : Fs) : List UInt8 :=
  FisopFs.contenidoFinal (registrosDirectorio fs.raiz)

theorem registros_desocupada {e : Entrada} (h : e.ocupada = false) : e.registros = [] := by
  cases e with
  | archivo => cases h
  | directorio => cases h
  | _ => rw [Entrada.registros]

theorem registros_directorio (d : EntradaDirectorio) :
    (Entrada.directorio d).registros =
      .directorio d :: registrosEntradas d.cantidadEntradas.toNat d.entradas := by
  cases d
  rw [Entrada.registros, registrosDirectorio]

@[simp] theorem registrosEntradas_zero (es : List Entrada) : registrosEntradas 0 es = [] := by
  rw [registrosEntradas]

@[simp] theorem registrosEntradas_cons (n : ℕ) (e : Entrada) (es : List Entrada) :
    registrosEntradas (n + 1) (e :: es) = e.registros ++ registrosEntradas n es := by
  rw [registrosEntradas]

@[simp] theorem contenidoFinal_nil : contenidoFinal [] = [] := rfl

theorem contenidoFinal_append (rs rs' : List Entrada) :
    contenidoFinal (rs ++ rs') = if rs' = [] then contenidoFinal rs else contenidoFinal rs' := by
  unfold contenidoFinal
  cases rs' with
  | nil => simp
  | cons x rs' =>
    rw [if_neg (List.cons_ne_nil x rs'), List.getLast?_append_of_ne_nil _ (List.cons_ne_nil x rs')]

/-- An image goes with its records: it is empty without any, and is more than the content that it
ends with otherwise. -/
structure Registrada (imagen : List UInt8) (rs : List Entrada) : Prop where
  vacia : rs = [] → imagen = []
  mayor : rs ≠ [] → (contenidoFinal rs).length < imagen.length

theorem Registrada.nada : Registrada [] [] := ⟨fun _ ↦ rfl, fun h ↦ absurd rfl h⟩

theorem Registrada.append {imagen imagen' : List UInt8} {rs rs' : List Entrada}
    (h : Registrada imagen rs) (h' : Registrada imagen' rs') :
    Registrada (imagen ++ imagen') (rs ++ rs') where
  vacia hnada := by
    obtain ⟨hrs, hrs'⟩ := List.append_eq_nil_iff.mp hnada
    rw [h.vacia hrs, h'.vacia hrs']
    rfl
  mayor hno := by
    rw [contenidoFinal_append, List.length_append]
    split
    next hrs' =>
      have hrs : rs ≠ [] := by
        intro hrs
        exact hno (by rw [hrs, hrs']; rfl)
      have hmayor := h.mayor hrs
      omega
    next hrs' =>
      have hmayor := h'.mayor hrs'
      omega

variable {punt : ℕ → UInt64}

theorem registradas {n : ℕ} {es : List Entrada}
    (hes : ∀ e ∈ es, ∀ pos, Registrada (imagenEntrada punt pos e) e.registros) (pos : ℕ) :
    Registrada (imagenEntradas punt n pos es) (registrosEntradas n es) := by
  induction es generalizing n pos with
  | nil =>
    cases n with
    | zero => rw [imagenEntradas_zero, registrosEntradas_zero]; exact .nada
    | succ n => rw [imagenEntradas_nil, registrosEntradas]; exact .nada
  | cons e es ih =>
    cases n with
    | zero => rw [imagenEntradas_zero, registrosEntradas_zero]; exact .nada
    | succ n =>
      rw [imagenEntradas_cons, registrosEntradas_cons]
      exact (hes e (by simp) pos).append (ih (fun x hx ↦ hes x (by simp [hx])) _)

theorem registrada (e : Entrada) (pos : ℕ) :
    Registrada (imagenEntrada punt pos e) e.registros := by
  induction e using Entrada.induccion generalizing pos with
  | archivo a =>
    rw [imagenEntrada_archivo, Entrada.registros, imagenArchivo]
    refine ⟨fun h ↦ absurd h (List.cons_ne_nil _ _), fun _ ↦ ?_⟩
    rw [List.length_append, Codec.length_encode, size_codecEntradaArchivo]
    change (a.contenido.take a.st.stSize.toNat).length < 2208 + _
    omega
  | directorio d ih =>
    rw [imagenEntrada_directorio, registros_directorio]
    apply @Registrada.append _ _ [.directorio d] _ _ (registradas ih _)
    refine ⟨fun h ↦ absurd h (List.cons_ne_nil _ _), fun _ ↦ ?_⟩
    rw [Codec.length_encode, size_codecEntradaDirectorio]
    exact Nat.zero_lt_succ _
  | _ =>
    rw [imagenEntrada_desocupada rfl, Entrada.registros]
    exact .nada

/-! ## How much room a writer needs -/

/-- A part of the writer with limited room reports success exactly when there was room for all of
its image but the content that this ends with. -/
def Basta (imagen : List UInt8) (rs : List Entrada) (s : Salida) (r : ℤ) : Prop :=
  ∀ c, s.cupo = some c → (r = 0 ↔ imagen.length ≤ c + (contenidoFinal rs).length)

theorem Basta.nada (s : Salida) : Basta [] [] s 0 := fun c _ ↦ by simp

/-- What comes after a part that failed would not have had room either. -/
theorem Basta.parar {imagen resto : List UInt8} {rs rs' : List Entrada} {s : Salida} {r : ℤ}
    (h : Basta imagen rs s r) (hr : r ≠ 0) (hresto : Registrada resto rs') :
    Basta (imagen ++ resto) (rs ++ rs') s r := by
  intro c hc
  have hno : ¬ imagen.length ≤ c + (contenidoFinal rs).length := fun hcabe ↦ hr ((h c hc).mpr hcabe)
  refine ⟨fun hcero ↦ absurd hcero hr, fun hcabe ↦ absurd hcabe ?_⟩
  rw [contenidoFinal_append, List.length_append]
  split
  · omega
  next hrs' =>
    have hmayor := hresto.mayor hrs'
    omega

theorem Basta.seguir {imagen resto : List UInt8} {rs rs' : List Entrada} {s : Salida} {r : ℤ}
    (h : Basta imagen rs s 0) (hresto : Registrada resto rs')
    (h' : Basta resto rs' (s.escribir imagen) r) : Basta (imagen ++ resto) (rs ++ rs') s r := by
  intro c hc
  have hcabe := (h c hc).mp rfl
  have hcupo : (s.escribir imagen).cupo = some (c - imagen.length) := by
    simp [Salida.escribir, hc]
  rw [h' _ hcupo, contenidoFinal_append, List.length_append]
  split
  next hrs' =>
    rw [hresto.vacia hrs', hrs']
    simp only [List.length_nil, contenidoFinal_nil]
    omega
  next hrs' =>
    have hmayor := hresto.mayor hrs'
    omega

/-- The result of writing one item. -/
theorem fwrite_fst {s : Salida} {item : List UInt8} (hitem : item ≠ []) {c : ℕ}
    (hc : s.cupo = some c) : (s.fwrite item).1 = true ↔ item.length ≤ c := by
  obtain ⟨datos, cupo⟩ := s
  cases hc
  have hvacio : item.isEmpty = false := by simpa using hitem
  unfold Salida.fwrite
  dsimp only
  split
  next hcabe => simp [hvacio, hcabe]
  next hcabe => simp [hcabe]

theorem escribirArchivo_basta {a : EntradaArchivo} {s s' : Salida} {r : ℤ} (pos : ℕ)
    (h : escribirEntradaArchivoEnArchivo punt a s = .ok (r, s')) :
    Basta (imagenArchivo punt pos a) [.archivo a] s r := by
  intro c hc
  have hprimero := fwrite_fst (@encode_ne_nil _ codecEntradaArchivo
    (by simp [sizeofEntradaArchivo]) ((a.nombre, a.st, tipoArchivo), punt s.datos.length)) hc
  rw [Codec.length_encode] at hprimero
  have hlargo : (imagenArchivo punt pos a).length ≤ c + (contenidoFinal [.archivo a]).length ↔
      codecEntradaArchivo.size ≤ c := by
    change _ ≤ c + (a.contenido.take a.st.stSize.toNat).length ↔ _
    rw [imagenArchivo, List.length_append, Codec.length_encode]
    omega
  rw [hlargo, ← hprimero]
  unfold escribirEntradaArchivoEnArchivo at h
  cases hf : s.fwrite (codecEntradaArchivo.encode
      ((a.nombre, a.st, tipoArchivo), punt s.datos.length)) with
  | mk resultado s₁ =>
    simp only [hf] at h
    cases resultado with
    | false =>
      simp only [Bool.not_false, if_true] at h
      cases h
      exact ⟨fun hcero ↦ absurd hcero (by decide), fun hno ↦ absurd hno Bool.false_ne_true⟩
    | true =>
      simp only [Bool.not_true, Bool.false_eq_true, if_false] at h
      split at h
      · cases h
      · cases h
        exact ⟨fun _ ↦ rfl, fun _ ↦ rfl⟩

/-- The loop over the slots, where each slot reports its own success. -/
theorem escribirEntradas_basta {n pos : ℕ} {es : List Entrada} {s s' : Salida} {r : ℤ}
    (hes : ∀ e ∈ es, ∀ (pos : ℕ) (s s' : Salida) (r : ℤ), s.EnPosicion pos →
      escribirEntrada punt e s = .ok (r, s') → Basta (imagenEntrada punt pos e) e.registros s r)
    (hpos : s.EnPosicion pos) (h : escribirEntradas punt n es s = .ok (r, s')) :
    Basta (imagenEntradas punt n pos es) (registrosEntradas n es) s r := by
  induction es generalizing n pos s with
  | nil =>
    cases n with
    | zero =>
      cases h
      rw [imagenEntradas_zero, registrosEntradas_zero]
      exact .nada _
    | succ n =>
      rw [escribirEntradas] at h
      cases h
  | cons e es ih =>
    cases n with
    | zero =>
      rw [escribirEntradas] at h
      cases h
      rw [imagenEntradas_zero, registrosEntradas_zero]
      exact .nada _
    | succ n =>
      rw [escribirEntradas, Except.bind_ok] at h
      obtain ⟨⟨r₁, s₁⟩, he, h⟩ := h
      have hprimera := hes e (by simp) pos s s₁ r₁ hpos he
      have hresto := @registradas punt n es (fun x _ ↦ registrada x)
        (pos + (imagenEntrada punt pos e).length)
      rw [imagenEntradas_cons, registrosEntradas_cons]
      by_cases hr : r₁ ≠ 0
      · simp only [if_pos hr] at h
        cases h
        exact hprimera.parar hr hresto
      · simp only [if_neg hr] at h
        obtain rfl : r₁ = 0 := by simpa using hr
        have hs₁ : s₁ = s.escribir (imagenEntrada punt pos e) :=
          (escribirEntrada_ok e pos s s₁ 0 hpos he).1
        subst hs₁
        exact hprimera.seguir hresto
          (ih (fun x hx ↦ hes x (by simp [hx])) (hpos.escribir _) h)

theorem escribirEntrada_basta (e : Entrada) (pos : ℕ) (s s' : Salida) (r : ℤ)
    (hpos : s.EnPosicion pos) (h : escribirEntrada punt e s = .ok (r, s')) :
    Basta (imagenEntrada punt pos e) e.registros s r := by
  induction e using Entrada.induccion generalizing pos s s' r with
  | archivo a =>
    rw [escribirEntrada] at h
    rw [imagenEntrada_archivo, Entrada.registros]
    exact escribirArchivo_basta pos h
  | directorio d ih =>
    have hresto := @registradas punt d.cantidadEntradas.toNat d.entradas (fun x _ ↦ registrada x)
      (pos + sizeofEntradaDirectorio.toNat)
    rw [imagenEntrada_directorio, registros_directorio]
    cases d with
    | mk nombre st cantidadEntradas cantidadEntradasOcupadas entradas =>
      obtain ⟨hescribe, -⟩ := fwrite_escrito hpos (fun k ↦ codecEntradaDirectorio.encode
        ((nombre, st, tipoDirectorio), cantidadEntradas, cantidadEntradasOcupadas, punt k))
        fun k ↦ encode_ne_nil (by simp [sizeofEntradaDirectorio]) _
      have hitem := @encode_ne_nil _ codecEntradaDirectorio
        (by simp [sizeofEntradaDirectorio])
        ((nombre, st, tipoDirectorio), cantidadEntradas, cantidadEntradasOcupadas,
          punt s.datos.length)
      rw [escribirEntrada, escribirDirectorioEnArchivo] at h
      cases hf : s.fwrite (codecEntradaDirectorio.encode ((nombre, st, tipoDirectorio),
          cantidadEntradas, cantidadEntradasOcupadas, punt s.datos.length)) with
      | mk resultado s₁ =>
        simp only [hf] at h hescribe
        have hprimero (r : ℤ) (hr : resultado = true ↔ r = 0) :
            Basta (codecEntradaDirectorio.encode ((nombre, st, tipoDirectorio), cantidadEntradas,
              cantidadEntradasOcupadas, punt pos)) [.directorio ⟨nombre, st, cantidadEntradas,
                cantidadEntradasOcupadas, entradas⟩] s r := by
          intro c hc
          have hcabe := fwrite_fst hitem hc
          rw [Codec.length_encode, hf] at hcabe
          rw [Codec.length_encode, ← hr]
          exact hcabe
        cases resultado with
        | false =>
          simp only [Bool.not_false, if_true] at h
          cases h
          exact (hprimero (-eio) (by decide)).parar (by decide) hresto
        | true =>
          simp only [Bool.not_true, Bool.false_eq_true, if_false] at h
          subst hescribe
          apply (hprimero 0 (by decide)).seguir hresto
          apply escribirEntradas_basta ih _ h
          have hpos₁ := hpos.escribir (codecEntradaDirectorio.encode ((nombre, st, tipoDirectorio),
            cantidadEntradas, cantidadEntradasOcupadas, punt pos))
          rw [Codec.length_encode, size_codecEntradaDirectorio] at hpos₁
          exact hpos₁
  | vacio =>
    rw [escribirEntrada] at h
    cases h
    rw [imagenEntrada_desocupada rfl, Entrada.registros]
    exact .nada s
  | nula =>
    rw [escribirEntrada] at h
    cases h
  | indefinida =>
    rw [escribirEntrada] at h
    cases h

/-! ## The result of the call -/

/-- The medium is full before the content that the image ends with begins, or not before it has
ended. -/
def NoCortaElFinal (punt : ℕ → UInt64) (fs : Fs) (cupo : Option ℕ) : Prop :=
  ∀ c, cupo = some c → c < (imagenFs punt fs).length →
    c + fs.contenidoFinal.length < (imagenFs punt fs).length

/-- Once the file is open, the call reports success exactly when everything up to the content that
the image ends with was accepted. -/
theorem fisopfsFlush_basta {abre : Bool} {cupo : Option ℕ} {path : Cadena} {fs : Fs}
    {disco disco' : Option (List UInt8)} {r : ℤ}
    (h : fisopfsFlush punt abre cupo path fs disco = .ok (r, disco')) :
    ((maximoPath < path.length ∨ abre = false) ∧ r ≠ 0) ∨
    (path.length ≤ maximoPath ∧ abre = true ∧
      disco' = some (Salida.escribir ⟨[], cupo⟩ (imagenFs punt fs)).datos ∧
      Basta (imagenFs punt fs) (registrosDirectorio fs.raiz) ⟨[], cupo⟩ r) := by
  obtain ⟨hno, hr, -⟩ | ⟨hpath, habre, resultado, s₁, s₂, hf, rfl, hraiz⟩ := fisopfsFlush_cases h
  · exact .inl ⟨hno, hr⟩
  have hitem := @encode_ne_nil _ codecFs (by simp [sizeofFisopfsFs])
    (punt 0, fs.espacioTotalOcupadoFs)
  obtain ⟨hescribe, hlleno⟩ := Salida.fwrite_eq ⟨[], cupo⟩ hitem
  rw [hf] at hescribe hlleno
  obtain rfl : s₁ = _ := hescribe
  have hprimero (r : ℤ) (hr : resultado = true ↔ r = 0) :
      Basta (codecFs.encode (punt 0, fs.espacioTotalOcupadoFs)) [] ⟨[], cupo⟩ r := by
    intro c hc
    have hcabe := fwrite_fst hitem hc
    rw [hf] at hcabe
    rw [← hr]
    exact hcabe
  have hresto := @registrada punt (.directorio fs.raiz) sizeofFisopfsFs.toNat
  rw [imagenFs_eq, ← Entrada.registros]
  obtain ⟨rfl, hr, rfl⟩ | ⟨rfl, hraiz⟩ := hraiz
  · rw [← Salida.escribir_append, Salida.escribir_lleno (hlleno rfl)]
    exact .inr ⟨hpath, habre, rfl, (hprimero r (by simp [hr])).parar hr hresto⟩
  · have hpos := @enPosicion_fs punt cupo fs
    obtain ⟨rfl, -⟩ := escribirEntrada_ok _ _ _ _ _ hpos hraiz
    rw [← Salida.escribir_append]
    refine .inr ⟨hpath, habre, rfl, (hprimero 0 (by simp)).seguir hresto ?_⟩
    exact escribirEntrada_basta _ _ _ _ _ hpos hraiz

/-- `fisopfs_flush` reports success only on a whole image, if and only if the path is too long, the
file cannot be opened, or the medium is not full in the middle of the content that the image ends
with. -/
theorem fisopfsFlush_completo_iff (punt : ℕ → UInt64) (fs : Fs) {abre : Bool} {cupo : Option ℕ}
    {path : Cadena} {disco disco' : Option (List UInt8)} {r : ℤ}
    (h : fisopfsFlush punt abre cupo path fs disco = .ok (r, disco')) :
    (r = 0 → disco' = some (imagenFs punt fs)) ↔
      maximoPath < path.length ∨ abre = false ∨ NoCortaElFinal punt fs cupo := by
  obtain ⟨hno, hr⟩ | ⟨hpath, habre, rfl, hbasta⟩ := fisopfsFlush_basta h
  · exact ⟨fun _ ↦ hno.elim .inl (fun habre ↦ .inr (.inl habre)), fun _ hcero ↦ absurd hcero hr⟩
  constructor
  · intro hexito
    refine .inr (.inr fun c hc hcorto ↦ ?_)
    by_contra hcorta
    have hcero : r = 0 := (hbasta c hc).mpr (Nat.not_lt.mp hcorta)
    have hlargo := congrArg (Option.map List.length) (hexito hcero)
    subst hc
    simp only [Salida.escribir, List.nil_append, Option.map_some, List.length_take,
      Option.some.injEq] at hlargo
    omega
  · intro hcondicion hcero
    obtain hlargo | hcierra | hno := hcondicion
    · exact absurd hlargo (Nat.not_lt.mpr hpath)
    · rw [habre] at hcierra
      cases hcierra
    · cases cupo with
      | none => rfl
      | some c =>
        have hcabe := (hbasta c rfl).mp hcero
        have hentera : (imagenFs punt fs).length ≤ c := by
          by_contra hcorto
          have hfinal := hno c rfl (Nat.not_le.mp hcorto)
          rw [Fs.contenidoFinal] at hfinal
          omega
        simp only [Salida.escribir, List.nil_append, List.take_of_length_le hentera]

/-- A medium with room for all but the last byte of the image of an empty file. -/
theorem fisopfsFlush_completo_sin_contenido :
    ∃ s' r disco', correr 10000 [(Llamada.create [barra, punto] 0o100644).simple]
        (Sistema.nuevo ⟨0, 0, 0, fun _ ↦ 0⟩) = some s' ∧
      fisopfsFlush (fun _ ↦ 0) true (some 4447) [barra] s'.fs none = .ok (r, disco') ∧
      (r = 0 → disco' = some (imagenFs (fun _ ↦ 0) s'.fs)) := by
  have hcorre : (correr 10000 [(Llamada.create [barra, punto] 0o100644).simple]
      (Sistema.nuevo ⟨0, 0, 0, fun _ ↦ 0⟩)).any (fun s ↦ s.fs.contenidoFinal.isEmpty &&
        (fisopfsFlush (fun _ ↦ 0) true (some 4447) [barra] s.fs none).isOk) = true := by
    decide +kernel
  obtain ⟨s', hs', hfinal⟩ := (Option.any_eq_true _ _).mp hcorre
  obtain ⟨hnada, hescribe⟩ := Bool.and_eq_true_iff.mp hfinal
  have hnada : s'.fs.contenidoFinal = [] := List.isEmpty_iff.mp hnada
  cases hflush : fisopfsFlush (fun _ ↦ 0) true (some 4447) [barra] s'.fs none with
  | error f =>
    rw [hflush] at hescribe
    cases hescribe
  | ok p =>
    refine ⟨s', p.1, p.2, hs', hflush, ?_⟩
    apply (fisopfsFlush_completo_iff _ _ hflush).mpr
    refine .inr (.inr fun c _ hcorto ↦ ?_)
    rw [hnada]
    exact hcorto

/-- The image of a file of one byte, on a medium with room for all but that byte: the call reports
success. -/
theorem fisopfsFlush_cortado :
    ∃ s s' es datos, s.Inicial ∧ Run (PasoServido 10000) s es s' ∧
      fisopfsFlush (fun _ ↦ 0) true (some 4448) [barra] s'.fs none = .ok (0, some datos) ∧
      datos.length = 4448 ∧ (imagenFs (fun _ ↦ 0) s'.fs).length = 4449 := by
  have hcorre : (correr 10000
      [(Llamada.create [barra, punto] 0o100644).simple,
        (Llamada.write [barra, punto] [7] 1 0).simple]
      (Sistema.nuevo ⟨0, 0, 0, fun _ ↦ 0⟩)).any (fun s ↦ s.fs.bytes == 4449 &&
        (fisopfsFlush (fun _ ↦ 0) true (some 4448) [barra] s.fs none).toOption.any
          fun p ↦ p.1 == 0 && p.2.any fun datos ↦ datos.length == 4448) = true := by
    decide +kernel
  obtain ⟨s', hs', hfinal⟩ := (Option.any_eq_true _ _).mp hcorre
  obtain ⟨hbytes, hescribe⟩ := Bool.and_eq_true_iff.mp hfinal
  have hservido := run_correr hs'
  have hsana : s'.fs.Cada Entrada.Sana :=
    (Run.coherente_of_servido (Sistema.nuevo_inicial _) hservido).arbol
  obtain ⟨⟨r, salida⟩, hflush, hr⟩ := (Option.any_eq_true _ _).mp hescribe
  obtain ⟨hcero, hdatos⟩ := Bool.and_eq_true_iff.mp hr
  obtain ⟨datos, hsalida, hlargo⟩ := (Option.any_eq_true _ _).mp hdatos
  obtain rfl : r = 0 := beq_iff_eq.mp hcero
  obtain rfl : salida = some datos := hsalida
  refine ⟨_, s', _, datos, Sistema.nuevo_inicial _, hservido, ?_, beq_iff_eq.mp hlargo, ?_⟩
  · cases hok : fisopfsFlush (fun _ ↦ 0) true (some 4448) [barra] s'.fs none with
    | error f =>
      rw [hok] at hflush
      cases hflush
    | ok p =>
      rw [hok] at hflush
      rw [Option.some.inj hflush]
  · rw [length_imagenFs hsana]
    exact beq_iff_eq.mp hbytes

end SistemasOperativos.FisopFs
