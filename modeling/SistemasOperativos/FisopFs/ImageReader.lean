import SistemasOperativos.FisopFs.ImageWriter
import SistemasOperativos.Library.Delivery

/-!
# What `fisopfs_init` loads

From the image of a tree in order the reader builds the same tree with its empty slots moved to the
end of each vector, unless the heap refuses a request. What it loads from a file that was cut short
it would also load from the whole file.
-/

namespace SistemasOperativos.FisopFs

open Library

/-! ## The tree that is loaded -/

/-- The file with exactly its `st_size` bytes. -/
def EntradaArchivo.compacto (a : EntradaArchivo) : EntradaArchivo :=
  { a with contenido := a.contenido.take a.st.stSize.toNat }

mutual

/-- The entry with the empty slots of every vector moved to its end. -/
def Entrada.compacta : Entrada → Entrada
  | .archivo a => .archivo a.compacto
  | .directorio d => .directorio (directorioCompacto d)
  | .vacio => .vacio
  | .nula => .nula
  | .indefinida => .indefinida

def directorioCompacto : EntradaDirectorio → EntradaDirectorio
  | ⟨nombre, st, cantidadEntradas, cantidadEntradasOcupadas, entradas⟩ =>
    ⟨nombre, st, cantidadEntradas, cantidadEntradasOcupadas, ocupadasCompactas entradas ++
      List.replicate (cantidadEntradas.toNat - cantidadEntradasOcupadas.toNat) .vacio⟩

/-- The entries of a vector that are not empty, in their order. -/
def ocupadasCompactas : List Entrada → List Entrada
  | [] => []
  | e :: es => if e.ocupada then e.compacta :: ocupadasCompactas es else ocupadasCompactas es

end

theorem compacta_archivo (a : EntradaArchivo) :
    (Entrada.archivo a).compacta = .archivo a.compacto := by rw [Entrada.compacta]

theorem compacta_directorio (d : EntradaDirectorio) :
    (Entrada.directorio d).compacta = .directorio (directorioCompacto d) := by
  rw [Entrada.compacta]

theorem directorioCompacto_eq (d : EntradaDirectorio) :
    directorioCompacto d = { d with
      entradas := ocupadasCompactas d.entradas ++ List.replicate
        (d.cantidadEntradas.toNat - d.cantidadEntradasOcupadas.toNat) .vacio } := by
  cases d
  rw [directorioCompacto]

theorem ocupadasCompactas_eq (es : List Entrada) :
    ocupadasCompactas es = (es.filter Entrada.ocupada).map Entrada.compacta := by
  induction es with
  | nil => rw [ocupadasCompactas, List.filter_nil, List.map_nil]
  | cons e es ih =>
    rw [ocupadasCompactas, ih, List.filter_cons]
    split <;> rfl

theorem ocupada_compacta (e : Entrada) : e.compacta.ocupada = e.ocupada := by
  cases e <;> rw [Entrada.compacta] <;> rfl

/-! ## The stream -/

namespace Lectura

/-- The bytes that are still to be read. -/
def resto (l : Lectura) : List UInt8 := l.datos.drop l.pos

def avanza (l : Lectura) (n : ℕ) : Lectura := { l with pos := l.pos + n }

theorem avanza_avanza (l : Lectura) (m n : ℕ) : (l.avanza m).avanza n = l.avanza (m + n) := by
  simp [avanza, Nat.add_assoc]

theorem avanza_zero (l : Lectura) : l.avanza 0 = l := rfl

theorem resto_avanza {l : Lectura} {a b : List UInt8} (h : l.resto = a ++ b) :
    (l.avanza a.length).resto = b := by
  unfold resto avanza
  rw [← List.drop_drop, show l.datos.drop l.pos = a ++ b from h, List.drop_left]

theorem fread_eq {l : Lectura} {a b : List UInt8} {n : ℕ} (h : l.resto = a ++ b)
    (hn : a.length = n) (hpos : 0 < n) : l.fread n = (some a, l.avanza n) := by
  have hlen : l.datos.length - l.pos = a.length + b.length := by
    rw [← List.length_drop, ← List.length_append]
    exact congrArg List.length h
  unfold fread
  rw [if_pos (by omega), show l.datos.drop l.pos = a ++ b from h, List.take_left' hn]
  rfl

/-- Reading the type of an entry and going back does not move. -/
theorem retroceder_avanza (l : Lectura) (n : ℕ) : (l.avanza n).retroceder n = l := by
  simp [avanza, retroceder]

end Lectura

/-! ## Reading an image -/

/-- Every request to the heap is served. -/
def Servida (m : Memoria) : Prop := m.respuestas = []

theorem pedir_delivers {n : UInt64} (hn : n.toNat ≤ ptrdiffMax) (m : Memoria) :
    Delivers Servida (pedir n) true (· = false) m := by
  obtain ⟨respuestas, agotada⟩ := m
  unfold Delivers pedir Servida
  rw [if_neg (Nat.not_lt.mpr hn)]
  cases respuestas with
  | nil => exact .inl ⟨_, rfl, fun _ ↦ rfl⟩
  | cons r rs =>
    cases r with
    | true => exact .inl ⟨_, rfl, fun h ↦ nomatch h⟩
    | false => exact .inr ⟨fun h ↦ (nomatch h), fun y m' h ↦ by cases h; rfl⟩

variable {punt : ℕ → UInt64}

theorem crearEntradaArchivo_delivers {a : EntradaArchivo} (ha : a.Sano) {pos : ℕ} {l : Lectura}
    {post : List UInt8} (hl : l.resto = imagenArchivo punt pos a ++ post) (m : Memoria) :
    Delivers Servida (crearEntradaArchivoDesdeArchivo l)
      (some a.compacto, l.avanza (imagenArchivo punt pos a).length) (·.1 = none) m := by
  unfold crearEntradaArchivoDesdeArchivo
  refine (pedir_delivers (by decide) m).bind (fun m₁ ↦ ?_) ?_
  · rw [imagenArchivo, List.append_assoc] at hl
    have hfread := Lectura.fread_eq hl (Codec.length_encode _ _) (by simp [sizeofEntradaArchivo])
    have hresto := Lectura.resto_avanza hl
    simp only [Bool.not_true, Bool.false_eq_true, if_false, hfread, Codec.decode_encode]
    rw [imagenArchivo, List.length_append, Codec.length_encode, List.length_take,
      Nat.min_eq_left ha.contenido]
    rw [Codec.length_encode] at hresto
    by_cases hcero : a.st.stSize = 0
    · rw [if_neg (not_not.mpr hcero), hcero]
      have hcompacto : a.compacto = ⟨a.nombre, a.st, []⟩ := by
        simp [EntradaArchivo.compacto, hcero]
      rw [hcompacto]
      exact .pure ..
    · have hpos : 0 < a.st.stSize.toNat :=
        Nat.pos_of_ne_zero fun h ↦ hcero (UInt64.toNat_inj.mp h)
      rw [if_pos hcero]
      refine (pedir_delivers ha.cabe m₁).bind (fun m₂ ↦ ?_) ?_
      · have hcontenido := Lectura.fread_eq hresto
          (by rw [List.length_take, Nat.min_eq_left ha.contenido]) hpos
        simp only [Bool.not_true, Bool.false_eq_true, if_false, hcontenido,
          Lectura.avanza_avanza]
        exact .pure ..
      · intro z m₂ w m₃ hz h
        subst hz
        cases h
        rfl
  · intro z m₁ w m₂ hz h
    subst hz
    cases h
    rfl

/-! ## The vector of a directory that is being loaded -/

theorem imagenEntrada_ocupada (punt : ℕ → UInt64) {e : Entrada} (he : e.ocupada = true) (pos : ℕ) :
    (∃ a, e = .archivo a ∧ ∃ resto, imagenEntrada punt pos e =
      codecEntrada.encode (a.nombre, a.st, tipoArchivo) ++ resto) ∨
    (∃ d, e = .directorio d ∧ ∃ resto, imagenEntrada punt pos e =
      codecEntrada.encode (d.nombre, d.st, tipoDirectorio) ++ resto) := by
  cases e with
  | archivo a =>
    refine .inl ⟨a, rfl, ?_⟩
    rw [imagenEntrada_archivo, imagenArchivo, codecEntradaArchivo]
    exact ⟨_, by rw [Codec.prod, List.append_assoc]⟩
  | directorio d =>
    refine .inr ⟨d, rfl, ?_⟩
    rw [imagenEntrada_directorio, codecEntradaDirectorio]
    exact ⟨_, by rw [Codec.prod, List.append_assoc]⟩
  | _ => cases he

/-- The loop that loads the entries of a vector, where `subdir` reads a subdirectory from its
image. Empty slots left no trace in the image, so the entries come next to each other. -/
theorem cargarEntradas_delivers (subdir : Lectura → Op (Option EntradaDirectorio × Lectura))
    {es : List Entrada} (hes : ∀ e ∈ es, e.Cada Entrada.Sana)
    (hsubdir : ∀ d, Entrada.directorio d ∈ es → ∀ (pos : ℕ) (l : Lectura) (post : List UInt8)
      (m : Memoria), l.resto = imagenEntrada punt pos (.directorio d) ++ post →
      Delivers Servida (subdir l) (some (directorioCompacto d),
        l.avanza (imagenEntrada punt pos (.directorio d)).length) (·.1 = none) m)
    {n : ℕ} (hn : es.length = n) (directorio : EntradaDirectorio) (cargadas libres : List Entrada)
    (hd : directorio.entradas = cargadas ++ libres)
    (hlibres : es.countP Entrada.ocupada ≤ libres.length) {pos : ℕ} {l : Lectura}
    {post : List UInt8} (hl : l.resto = imagenEntradas punt n pos es ++ post) (m : Memoria) :
    Delivers Servida
      (cargarEntradas subdir directorio cargadas.length (es.countP Entrada.ocupada) l)
      (some { directorio with
        entradas := cargadas ++ ocupadasCompactas es ++
          libres.drop (es.countP Entrada.ocupada) },
        l.avanza (imagenEntradas punt n pos es).length) (·.1 = none) m := by
  induction es generalizing n directorio cargadas libres pos l m with
  | nil =>
    rw [imagenEntradas_nil, List.length_nil, Lectura.avanza_zero, ocupadasCompactas]
    simp only [List.countP_nil, List.drop_zero, List.append_nil, ← hd, cargarEntradas]
    exact .pure ..
  | cons e es ih =>
    subst hn
    have hesResto : ∀ x ∈ es, x.Cada Entrada.Sana := fun x hx ↦ hes x (by simp [hx])
    have hsubdirResto := fun d hd ↦ hsubdir d (List.mem_cons_of_mem e hd)
    rw [List.length_cons, imagenEntradas_cons] at hl ⊢
    cases he : e.ocupada with
    | false =>
      have hno : ¬ e.ocupada = true := by simp [he]
      rw [imagenEntrada_desocupada he, List.nil_append] at hl ⊢
      rw [List.countP_cons_of_neg hno] at hlibres ⊢
      rw [ocupadasCompactas, if_neg hno]
      exact ih hesResto hsubdirResto rfl directorio cargadas libres hd hlibres hl m
    | true =>
      rw [List.countP_cons_of_pos he] at hlibres ⊢
      rw [List.append_assoc] at hl
      obtain ⟨libre, libres, rfl⟩ := List.exists_cons_of_length_pos (by omega : 0 < libres.length)
      have hlibres' : es.countP Entrada.ocupada ≤ libres.length := by simpa using hlibres
      have hlargo : ¬ directorio.entradas.length ≤ cargadas.length := by simp [hd]
      have hset : directorio.entradas.set cargadas.length e.compacta =
          cargadas ++ [e.compacta] ++ libres := by
        rw [hd, List.set_append_right _ _ (Nat.le_refl _), Nat.sub_self, List.set_cons_zero,
          List.append_assoc, List.singleton_append]
      -- what is left to do once the first entry is in its slot
      have hsigue (m : Memoria) := ih hesResto hsubdirResto rfl
        { directorio with entradas := directorio.entradas.set cargadas.length e.compacta }
        (cargadas ++ [e.compacta]) libres hset hlibres' (Lectura.resto_avanza hl) m
      rw [List.length_append, List.length_singleton, Lectura.avanza_avanza, List.append_assoc cargadas,
        List.singleton_append, ← List.length_append] at hsigue
      rw [ocupadasCompactas, if_pos he, List.drop_succ_cons, cargarEntradas]
      obtain ⟨a, rfl, resto, himagen⟩ | ⟨d, rfl, resto, himagen⟩ := 
        imagenEntrada_ocupada punt he pos
      · have hlectura := hl
        rw [himagen, List.append_assoc] at hl
        have hfread := Lectura.fread_eq hl (Codec.length_encode _ _) (by simp [sizeofEntrada])
        have htipo : tipoArchivo ≠ tipoDirectorio := by decide
        simp only [hfread, Codec.decode_encode, Lectura.retroceder_avanza, if_neg htipo, if_true]
        have ha : a.Sano := (hes _ List.mem_cons_self).self
        rw [imagenEntrada_archivo] at hlectura
        refine (crearEntradaArchivo_delivers ha hlectura m).bind (fun m₁ ↦ ?_) ?_
        · rw [compacta_archivo, imagenEntrada_archivo] at hsigue
          simp only [if_neg hlargo]
          exact hsigue m₁
        · rintro ⟨z, l'⟩ m₁ w m₂ rfl h
          simp only [if_neg hlargo] at h
          cases h
          rfl
      · have hlectura := hl
        rw [himagen, List.append_assoc] at hl
        have hfread := Lectura.fread_eq hl (Codec.length_encode _ _) (by simp [sizeofEntrada])
        simp only [hfread, Codec.decode_encode, Lectura.retroceder_avanza, if_true]
        refine (hsubdir d List.mem_cons_self pos l _ m hlectura).bind (fun m₁ ↦ ?_) ?_
        · rw [compacta_directorio] at hsigue
          simp only [if_neg hlargo]
          exact hsigue m₁
        · rintro ⟨z, l'⟩ m₁ w m₂ rfl h
          simp only [StateT.bind_ok, StateT.lift_ok] at h
          obtain ⟨_, m₃, ⟨_, -, heq⟩, h⟩ := h
          cases heq
          cases h
          rfl

theorem crearEntradaVacia_delivers (m : Memoria) :
    Delivers Servida crearEntradaVacia .vacio (· = .nula) m := by
  unfold crearEntradaVacia
  refine (pedir_delivers (by decide) m).bind (fun m₁ ↦ ?_) ?_
  · simp only [if_true]
    exact .pure ..
  · rintro z m₁ w m₂ rfl h
    cases h
    rfl

theorem llenarDesde_delivers (previas libres : List Entrada) (m : Memoria) :
    Delivers Servida (llenarDesde (previas ++ libres) previas.length libres.length)
      (0, previas ++ List.replicate libres.length .vacio) (·.1 ≠ 0) m := by
  induction libres generalizing previas m with
  | nil =>
    rw [List.length_nil, llenarDesde, List.replicate_zero]
    exact .pure ..
  | cons libre libres ih =>
    rw [List.length_cons, llenarDesde]
    have hlargo : ¬ (previas ++ libre :: libres).length ≤ previas.length := by simp
    have hset : (previas ++ libre :: libres).set previas.length .vacio =
        previas ++ [.vacio] ++ libres := by
      rw [List.set_append_right _ _ (Nat.le_refl _), Nat.sub_self, List.set_cons_zero,
        List.append_assoc, List.singleton_append]
    refine (crearEntradaVacia_delivers m).bind (fun m₁ ↦ ?_) ?_
    · have hsigue := ih (previas ++ [.vacio]) m₁
      rw [List.length_append, List.length_singleton, List.append_assoc previas _ (List.replicate _ _),
        List.singleton_append, ← List.replicate_succ] at hsigue
      simp only [if_neg hlargo, hset]
      exact hsigue
    · rintro z m₁ w m₂ rfl h
      simp only [if_neg hlargo] at h
      cases h
      exact (by decide : (-enomem : ℤ) ≠ 0)

theorem llenarDirectorio_delivers {d : EntradaDirectorio} {previas libres : List Entrada}
    (hd : d.entradas = previas ++ libres)
    (hprevias : previas.length = d.cantidadEntradasOcupadas.toNat)
    (hlibres : libres.length = d.cantidadEntradas.toNat - d.cantidadEntradasOcupadas.toNat)
    (m : Memoria) :
    Delivers Servida (llenarDirectorioConEntradasVacias d)
      (0, { d with entradas := previas ++ List.replicate libres.length .vacio }) (·.1 ≠ 0) m := by
  have hllenar := llenarDesde_delivers previas libres m
  rw [← hd, hprevias, hlibres] at hllenar
  unfold llenarDirectorioConEntradasVacias
  refine hllenar.bind (fun m₁ ↦ ?_) ?_
  · rw [hlibres]
    exact .pure ..
  · rintro ⟨z, es⟩ m₁ w m₂ hz h
    cases h
    exact hz

theorem length_ocupadasCompactas (es : List Entrada) :
    (ocupadasCompactas es).length = es.countP Entrada.ocupada := by
  rw [ocupadasCompactas_eq, List.length_map, List.countP_eq_length_filter]

theorem reservarEntradas_delivers {cantidad : UInt64} (hcantidad : cantidad.toNat < 2 ^ 60)
    (m : Memoria) :
    Delivers Servida (reservarEntradas [] cantidad)
      (true, List.replicate cantidad.toNat .indefinida) (·.1 = false) m := by
  have hbytes : (cantidad * sizeofPuntero).toNat = cantidad.toNat * 8 := by
    rw [UInt64.toNat_mul]
    change cantidad.toNat * 8 % 2 ^ 64 = _
    omega
  have hmax : (cantidad * sizeofPuntero).toNat ≤ ptrdiffMax := by
    rw [hbytes, ptrdiffMax]
    omega
  unfold reservarEntradas
  refine (pedir_delivers hmax m).bind (fun m₁ ↦ ?_) ?_
  · rw [hbytes, Nat.mul_div_cancel _ (by decide)]
    simp only [if_true, List.nil_append, List.take_replicate, Nat.min_self]
    exact .pure ..
  · rintro z m₁ w m₂ rfl h
    cases h
    rfl

/-- From the image of a directory in order, with a stack as deep as the image is long, the reader
builds the directory. -/
theorem crearDirectorio_delivers (pila : ℕ) {d : EntradaDirectorio}
    (hd : (Entrada.directorio d).Cada Entrada.Sana) (hpila : (Entrada.directorio d).bytes ≤ pila)
    (pos : ℕ) (l : Lectura) (post : List UInt8) (m : Memoria)
    (hl : l.resto = imagenEntrada punt pos (.directorio d) ++ post) :
    Delivers Servida (crearDirectorioDesdeArchivo pila l) (some (directorioCompacto d),
      l.avanza (imagenEntrada punt pos (.directorio d)).length) (·.1 = none) m := by
  induction pila generalizing d pos l post m with
  | zero =>
    rw [Entrada.bytes_directorio] at hpila
    simp [sizeofEntradaDirectorio] at hpila
  | succ pila ih =>
    obtain ⟨hsana, hhijos⟩ := Entrada.cada_directorio.mp hd
    have hsano := Entrada.sana_directorio.mp hsana
    rw [Entrada.bytes_directorio] at hpila
    rw [imagenEntrada_directorio, List.append_assoc] at hl
    have hfread := Lectura.fread_eq hl (Codec.length_encode _ _)
      (by simp [sizeofEntradaDirectorio])
    have hresto := Lectura.resto_avanza hl
    rw [Codec.length_encode] at hresto
    unfold crearDirectorioDesdeArchivo
    refine (pedir_delivers (by decide) m).bind (fun m₁ ↦ ?_) ?_
    · simp only [Bool.not_true, Bool.false_eq_true, if_false, hfread, Codec.decode_encode]
      refine (reservarEntradas_delivers hsano.cabe m₁).bind (fun m₂ ↦ ?_) ?_
      · simp only [Bool.not_true, Bool.false_eq_true, if_false]
        have hcuenta : d.entradas.countP Entrada.ocupada ≤ d.cantidadEntradas.toNat := by
          rw [← hsano.largo]
          exact List.countP_le_length
        have hcargar := cargarEntradas_delivers (crearDirectorioDesdeArchivo pila) hhijos
          (fun h hh pos l post m hl ↦ ih (hhijos _ hh) (by
            have hle := bytes_le_of_mem hh
            simp only [sizeofEntradaDirectorio] at hpila
            simp at hpila
            omega) pos l post m hl)
          hsano.largo
          ⟨d.nombre, d.st, d.cantidadEntradas, d.cantidadEntradasOcupadas,
            List.replicate d.cantidadEntradas.toNat .indefinida⟩ [] _ rfl (by simpa using hcuenta) hresto m₂
        rw [List.length_nil, List.nil_append, List.drop_replicate, ← hsano.cuenta] at hcargar
        refine hcargar.bind (fun m₃ ↦ ?_) ?_
        · rw [imagenEntrada_directorio, List.length_append, Codec.length_encode,
            ← Lectura.avanza_avanza, directorioCompacto_eq]
          refine (llenarDirectorio_delivers rfl
            (by rw [length_ocupadasCompactas, hsano.cuenta]) (by simp) m₃).bind (fun m₄ ↦ ?_) ?_
          · rw [List.length_replicate]
            exact .pure ..
          · rintro ⟨z, d'⟩ m₄ w m₅ hz h
            simp only [if_pos hz] at h
            cases h
            rfl
        · rintro ⟨z, l'⟩ m₃ w m₄ rfl h
          cases h
          rfl
      · rintro ⟨z, es⟩ m₂ w m₃ rfl h
        cases h
        rfl
    · rintro z m₁ w m₂ rfl h
      cases h
      rfl

/-! ## Successful reads -/

/-- A file is read with or without content. -/
theorem crearEntradaArchivo_some_iff {l l' : Lectura} {a : EntradaArchivo} {m m' : Memoria} :
    crearEntradaArchivoDesdeArchivo l m = .ok ((some a, l'), m') ↔
    ∃ m₁ bytes l₁, pedir sizeofEntradaArchivo m = .ok (true, m₁) ∧
      l.fread codecEntradaArchivo.size = (some bytes, l₁) ∧
      a.nombre = (codecEntradaArchivo.decode bytes).1.1 ∧
      a.st = (codecEntradaArchivo.decode bytes).1.2.1 ∧
      ((a.st.stSize = 0 ∧ a.contenido = [] ∧ l' = l₁ ∧ m' = m₁) ∨
       (a.st.stSize ≠ 0 ∧ pedir a.st.stSize m₁ = .ok (true, m') ∧
          l₁.fread a.st.stSize.toNat = (some a.contenido, l'))) := by
  unfold crearEntradaArchivoDesdeArchivo
  constructor
  · intro h
    simp only [StateT.bind_ok] at h
    obtain ⟨reservado, m₁, hpedir, h⟩ := h
    cases reservado with
    | false => cases h
    | true =>
      simp only [Bool.not_true, Bool.false_eq_true, if_false] at h
      cases hf : l.fread codecEntradaArchivo.size with
      | mk leido l₁ =>
        cases leido with
        | none => simp only [hf] at h; cases h
        | some bytes =>
          simp only [hf] at h
          refine ⟨m₁, bytes, l₁, hpedir, rfl, ?_⟩
          by_cases hcero : (codecEntradaArchivo.decode bytes).1.2.1.stSize ≠ 0
          · simp only [if_pos hcero, StateT.bind_ok] at h
            obtain ⟨reservado, m₂, hpedir₂, h⟩ := h
            cases reservado with
            | false => cases h
            | true =>
              simp only [Bool.not_true, Bool.false_eq_true, if_false] at h
              cases hf₂ : l₁.fread (codecEntradaArchivo.decode bytes).1.2.1.stSize.toNat with
              | mk leido l₂ =>
                cases leido with
                | none => simp only [hf₂] at h; cases h
                | some contenido =>
                  simp only [hf₂] at h
                  cases h
                  exact ⟨rfl, rfl, .inr ⟨hcero, hpedir₂, hf₂⟩⟩
          · simp only [if_neg hcero] at h
            cases h
            exact ⟨rfl, rfl, .inl ⟨not_not.mp hcero, rfl, rfl, rfl⟩⟩
  · rintro ⟨m₁, bytes, l₁, hpedir, hf, hnombre, hst, h⟩
    obtain ⟨nombre, st, contenido⟩ := a
    dsimp only at hnombre hst h
    subst hnombre hst
    refine StateT.bind_ok.mpr ⟨true, m₁, hpedir, ?_⟩
    simp only [Bool.not_true, Bool.false_eq_true, if_false, hf]
    obtain ⟨hcero, rfl, rfl, rfl⟩ | ⟨hcero, hpedir₂, hf₂⟩ := h
    · rw [if_neg (not_not.mpr hcero)]
      rfl
    · rw [if_pos hcero]
      refine StateT.bind_ok.mpr ⟨true, m', hpedir₂, ?_⟩
      simp only [Bool.not_true, Bool.false_eq_true, if_false, hf₂]
      rfl

theorem cargarEntradas_some_iff {subdir : Lectura → Op (Option EntradaDirectorio × Lectura)}
    {d d' : EntradaDirectorio} {j n : ℕ} {l l' : Lectura} {m m' : Memoria} :
    cargarEntradas subdir d j (n + 1) l m = .ok ((some d', l'), m') ↔
    ∃ bytes l₁ e l₂ m₂, l.fread codecEntrada.size = (some bytes, l₁) ∧ j < d.entradas.length ∧
      (((codecEntrada.decode bytes).2.2 = tipoDirectorio ∧ ∃ sub, e = .directorio sub ∧
          subdir (l₁.retroceder codecEntrada.size) m = .ok ((some sub, l₂), m₂)) ∨
       ((codecEntrada.decode bytes).2.2 = tipoArchivo ∧ ∃ a, e = .archivo a ∧
          crearEntradaArchivoDesdeArchivo (l₁.retroceder codecEntrada.size) m =
            .ok ((some a, l₂), m₂))) ∧
      cargarEntradas subdir { d with entradas := d.entradas.set j e } (j + 1) n l₂ m₂ =
        .ok ((some d', l'), m') := by
  rw [cargarEntradas]
  constructor
  · intro h
    cases hf : l.fread codecEntrada.size with
    | mk leido l₁ =>
      cases leido with
      | none =>
        simp only [hf, StateT.bind_ok, StateT.lift_ok] at h
        obtain ⟨_, m₁, ⟨_, -, heq⟩, h⟩ := h
        cases h
      | some bytes =>
        simp only [hf] at h
        by_cases hdir : (codecEntrada.decode bytes).2.2 = tipoDirectorio
        · simp only [if_pos hdir, StateT.bind_ok] at h
          obtain ⟨⟨o, l₂⟩, m₂, hsub, h⟩ := h
          cases o with
          | none =>
            simp only [StateT.bind_ok, StateT.lift_ok] at h
            obtain ⟨_, m₁, ⟨_, -, heq⟩, h⟩ := h
            cases h
          | some sub =>
            by_cases hj : d.entradas.length ≤ j
            · simp only [if_pos hj, StateT.bind_ok, StateT.throw_ok, false_and,
                exists_false] at h
            · simp only [if_neg hj] at h
              exact ⟨bytes, l₁, .directorio sub, l₂, m₂, rfl, Nat.lt_of_not_le hj,
                .inl ⟨hdir, sub, rfl, hsub⟩, h⟩
        · simp only [if_neg hdir] at h
          by_cases harch : (codecEntrada.decode bytes).2.2 = tipoArchivo
          · simp only [if_pos harch, StateT.bind_ok] at h
            obtain ⟨⟨o, l₂⟩, m₂, harchivo, h⟩ := h
            by_cases hj : d.entradas.length ≤ j
            · simp only [if_pos hj, StateT.bind_ok, StateT.throw_ok, false_and,
                exists_false] at h
            · simp only [if_neg hj] at h
              cases o with
              | none => cases h
              | some a =>
                exact ⟨bytes, l₁, .archivo a, l₂, m₂, rfl, Nat.lt_of_not_le hj,
                  .inr ⟨harch, a, rfl, harchivo⟩, h⟩
          · simp only [if_neg harch] at h
            cases h
  · rintro ⟨bytes, l₁, e, l₂, m₂, hf, hj, htipo, hresto⟩
    have hj : ¬ d.entradas.length ≤ j := Nat.not_le.mpr hj
    simp only [hf]
    obtain ⟨hdir, sub, rfl, hsub⟩ | ⟨harch, a, rfl, harchivo⟩ := htipo
    · rw [if_pos hdir]
      refine StateT.bind_ok.mpr ⟨_, m₂, hsub, ?_⟩
      simp only [if_neg hj]
      exact hresto
    · rw [if_neg (harch ▸ by decide), if_pos harch]
      refine StateT.bind_ok.mpr ⟨_, m₂, harchivo, ?_⟩
      simp only [if_neg hj]
      exact hresto

theorem crearDirectorio_some_iff {pila : ℕ} {d : EntradaDirectorio} {l l' : Lectura}
    {m m' : Memoria} :
    crearDirectorioDesdeArchivo (pila + 1) l m = .ok ((some d, l'), m') ↔
    ∃ m₁ bytes l₁ base m₂ cargado m₃, pedir sizeofEntradaDirectorio m = .ok (true, m₁) ∧
      l.fread codecEntradaDirectorio.size = (some bytes, l₁) ∧
      reservarEntradas [] (codecEntradaDirectorio.decode bytes).2.1 m₁ = .ok ((true, base), m₂) ∧
      cargarEntradas (crearDirectorioDesdeArchivo pila)
        ⟨(codecEntradaDirectorio.decode bytes).1.1, (codecEntradaDirectorio.decode bytes).1.2.1,
          (codecEntradaDirectorio.decode bytes).2.1, (codecEntradaDirectorio.decode bytes).2.2.1,
          base⟩ 0 (codecEntradaDirectorio.decode bytes).2.2.1.toNat l₁ m₂ =
        .ok ((some cargado, l'), m₃) ∧
      llenarDirectorioConEntradasVacias cargado m₃ = .ok ((0, d), m') := by
  rw [crearDirectorioDesdeArchivo]
  constructor
  · intro h
    simp only [StateT.bind_ok] at h
    obtain ⟨reservado, m₁, hpedir, h⟩ := h
    cases reservado with
    | false => cases h
    | true =>
      simp only [Bool.not_true, Bool.false_eq_true, if_false] at h
      cases hf : l.fread codecEntradaDirectorio.size with
      | mk leido l₁ =>
        cases leido with
        | none => simp only [hf] at h; cases h
        | some bytes =>
          simp only [hf, StateT.bind_ok] at h
          obtain ⟨⟨reservado, base⟩, m₂, hreservar, h⟩ := h
          cases reservado with
          | false => cases h
          | true =>
            simp only [Bool.not_true, Bool.false_eq_true, if_false, StateT.bind_ok] at h
            obtain ⟨⟨o, l₂⟩, m₃, hcargar, h⟩ := h
            cases o with
            | none => cases h
            | some cargado =>
              simp only [StateT.bind_ok] at h
              obtain ⟨⟨r, d₁⟩, m₄, hllenar, h⟩ := h
              by_cases hr : r ≠ 0
              · simp only [if_pos hr] at h
                cases h
              · simp only [if_neg hr] at h
                cases h
                rw [not_not.mp hr] at hllenar
                exact ⟨m₁, bytes, l₁, base, m₂, cargado, m₃, hpedir, rfl, hreservar, hcargar,
                  hllenar⟩
  · rintro ⟨m₁, bytes, l₁, base, m₂, cargado, m₃, hpedir, hf, hreservar, hcargar, hllenar⟩
    refine StateT.bind_ok.mpr ⟨true, m₁, hpedir, ?_⟩
    simp only [Bool.not_true, Bool.false_eq_true, if_false, hf]
    refine StateT.bind_ok.mpr ⟨_, m₂, hreservar, ?_⟩
    simp only [Bool.not_true, Bool.false_eq_true, if_false]
    refine StateT.bind_ok.mpr ⟨_, m₃, hcargar, ?_⟩
    exact StateT.bind_ok.mpr ⟨_, m', hllenar, rfl⟩

/-! ## Files that were cut short -/

namespace Lectura

theorem fread_some {l l' : Lectura} {n : ℕ} {bytes : List UInt8} :
    l.fread n = (some bytes, l') ↔
      l.pos + n ≤ l.datos.length ∧ bytes = l.resto.take n ∧ l' = l.avanza n := by
  unfold fread
  split
  next h =>
    constructor
    · intro heq
      cases heq
      exact ⟨h, rfl, rfl⟩
    · rintro ⟨-, rfl, rfl⟩
      rfl
  next h =>
    constructor
    · intro heq
      cases heq
    · rintro ⟨hno, -⟩
      exact absurd hno h

/-- The same position in a file of which the first one is the beginning. -/
def Corta (l l' : Lectura) : Prop := l.pos = l'.pos ∧ l.datos <+: l'.datos

theorem Corta.avanza {l l' : Lectura} (h : l.Corta l') (n : ℕ) :
    (l.avanza n).Corta (l'.avanza n) :=
  ⟨congrArg (· + n) h.1, h.2⟩

theorem Corta.retroceder {l l' : Lectura} (h : l.Corta l') (n : ℕ) :
    (l.retroceder n).Corta (l'.retroceder n) :=
  ⟨congrArg (· - n) h.1, h.2⟩

/-- What is read from the beginning of a file is also read from the file. -/
theorem Corta.fread {l₀ l₁ l : Lectura} (h : l₀.Corta l) {n : ℕ} {bytes : List UInt8}
    (hf : l₀.fread n = (some bytes, l₁)) :
    ∃ l', l.fread n = (some bytes, l') ∧ l₁.Corta l' := by
  obtain ⟨hlen, rfl, rfl⟩ := fread_some.mp hf
  obtain ⟨hpos, resto, hdatos⟩ := h
  refine ⟨l.avanza n, fread_some.mpr ⟨?_, ?_, rfl⟩, Corta.avanza ⟨hpos, resto, hdatos⟩ n⟩
  · rw [← hdatos, List.length_append, ← hpos]
    omega
  · unfold Lectura.resto
    rw [← hdatos, ← hpos, List.drop_append_of_le_length (by omega),
      List.take_append_of_le_length (by rw [List.length_drop]; omega)]

end Lectura

theorem crearEntradaArchivo_corta {l₀ l₁ l : Lectura} {a : EntradaArchivo} {m m' : Memoria}
    (hl : l₀.Corta l) (h : crearEntradaArchivoDesdeArchivo l₀ m = .ok ((some a, l₁), m')) :
    ∃ l', crearEntradaArchivoDesdeArchivo l m = .ok ((some a, l'), m') ∧ l₁.Corta l' := by
  obtain ⟨m₁, bytes, l₂, hpedir, hf, hnombre, hst, hcontenido⟩ := crearEntradaArchivo_some_iff.mp h
  obtain ⟨l₂', hf', hl₂⟩ := hl.fread hf
  obtain ⟨hcero, hvacio, rfl, hm⟩ | ⟨hcero, hpedir₂, hf₂⟩ := hcontenido
  · exact ⟨l₂', crearEntradaArchivo_some_iff.mpr
      ⟨m₁, bytes, l₂', hpedir, hf', hnombre, hst, .inl ⟨hcero, hvacio, rfl, hm⟩⟩, hl₂⟩
  · obtain ⟨l₃', hf₂', hl₃⟩ := hl₂.fread hf₂
    exact ⟨l₃', crearEntradaArchivo_some_iff.mpr
      ⟨m₁, bytes, l₂', hpedir, hf', hnombre, hst, .inr ⟨hcero, hpedir₂, hf₂'⟩⟩, hl₃⟩

theorem cargarEntradas_corta (subdir subdir' : Lectura → Op (Option EntradaDirectorio × Lectura))
    (hsubdir : ∀ (l₀ l₁ l : Lectura) (d : EntradaDirectorio) (m m' : Memoria), l₀.Corta l →
      subdir l₀ m = .ok ((some d, l₁), m') →
      ∃ l', subdir' l m = .ok ((some d, l'), m') ∧ l₁.Corta l')
    {n j : ℕ} {d d' : EntradaDirectorio} {l₀ l₁ l : Lectura} {m m' : Memoria} (hl : l₀.Corta l)
    (h : cargarEntradas subdir d j n l₀ m = .ok ((some d', l₁), m')) :
    ∃ l', cargarEntradas subdir' d j n l m = .ok ((some d', l'), m') ∧ l₁.Corta l' := by
  induction n generalizing j d l₀ l m with
  | zero =>
    cases h
    exact ⟨l, rfl, hl⟩
  | succ n ih =>
    obtain ⟨bytes, l₂, e, l₃, m₂, hf, hj, htipo, hresto⟩ := cargarEntradas_some_iff.mp h
    obtain ⟨l₂', hf', hl₂⟩ := hl.fread hf
    have hvuelta := hl₂.retroceder codecEntrada.size
    obtain ⟨hdir, sub, rfl, hsub⟩ | ⟨harch, a, rfl, harchivo⟩ := htipo
    · obtain ⟨l₃', hsub', hl₃⟩ := hsubdir _ _ _ _ _ _ hvuelta hsub
      obtain ⟨l', hresto', hl'⟩ := ih hl₃ hresto
      exact ⟨l', cargarEntradas_some_iff.mpr ⟨bytes, l₂', _, l₃', m₂, hf', hj,
        .inl ⟨hdir, sub, rfl, hsub'⟩, hresto'⟩, hl'⟩
    · obtain ⟨l₃', harchivo', hl₃⟩ := crearEntradaArchivo_corta hvuelta harchivo
      obtain ⟨l', hresto', hl'⟩ := ih hl₃ hresto
      exact ⟨l', cargarEntradas_some_iff.mpr ⟨bytes, l₂', _, l₃', m₂, hf', hj,
        .inr ⟨harch, a, rfl, harchivo'⟩, hresto'⟩, hl'⟩

/-- A directory that is loaded from the beginning of a file is also loaded from the file, where the
stack may be deeper. -/
theorem crearDirectorio_corta {pila pila' : ℕ} (hpila : pila ≤ pila') {l₀ l₁ l : Lectura}
    {d : EntradaDirectorio} {m m' : Memoria} (hl : l₀.Corta l)
    (h : crearDirectorioDesdeArchivo pila l₀ m = .ok ((some d, l₁), m')) :
    ∃ l', crearDirectorioDesdeArchivo pila' l m = .ok ((some d, l'), m') ∧ l₁.Corta l' := by
  induction pila generalizing pila' l₀ l₁ l d m m' with
  | zero => cases h
  | succ pila ih =>
    obtain ⟨pila', rfl⟩ := Nat.exists_eq_add_of_le' hpila
    obtain ⟨m₁, bytes, l₂, base, m₂, cargado, m₃, hpedir, hf, hreservar, hcargar, hllenar⟩ :=
      crearDirectorio_some_iff.mp h
    obtain ⟨l₂', hf', hl₂⟩ := hl.fread hf
    obtain ⟨l', hcargar', hl'⟩ := cargarEntradas_corta (crearDirectorioDesdeArchivo pila)
      (crearDirectorioDesdeArchivo (pila' + pila))
      (fun _ _ _ _ _ _ hl h ↦ ih (Nat.le_add_left _ _) hl h) hl₂ hcargar
    exact ⟨l', crearDirectorio_some_iff.mpr ⟨m₁, bytes, l₂', base, m₂, cargado, m₃, hpedir, hf',
      hreservar, hcargar', hllenar⟩, hl'⟩

/-! ## The tree that is loaded is in order -/

theorem countP_ocupada_vacios (n : ℕ) :
    (List.replicate n Entrada.vacio).countP Entrada.ocupada = 0 :=
  List.countP_eq_zero.mpr fun e he ↦ by rw [List.eq_of_mem_replicate he]; decide

theorem countP_ocupadasCompactas (es : List Entrada) :
    (ocupadasCompactas es).countP Entrada.ocupada = es.countP Entrada.ocupada := by
  have hall : ∀ e ∈ ocupadasCompactas es, e.ocupada = true := by
    intro e he
    rw [ocupadasCompactas_eq] at he
    obtain ⟨x, hx, rfl⟩ := List.mem_map.mp he
    rw [ocupada_compacta]
    exact (List.mem_filter.mp hx).2
  rw [List.countP_eq_length.mpr hall, length_ocupadasCompactas]

theorem EntradaDirectorioDe.Sano.compacto {d : EntradaDirectorio} (h : d.Sano) :
    (directorioCompacto d).Sano := by
  have hcuenta := h.cuenta
  have hlibre := h.libre
  rw [directorioCompacto_eq]
  refine ⟨⟨?_, fun e he ↦ ?_, ?_, h.capacidad, h.cabe⟩, h.libre⟩
  · simp only [List.length_append, List.length_replicate, length_ocupadasCompactas]
    omega
  · obtain he | he := List.mem_append.mp he
    · rw [ocupadasCompactas_eq] at he
      obtain ⟨x, hx, rfl⟩ := List.mem_map.mp he
      have hx := (List.mem_filter.mp hx).2
      cases x with
      | archivo => rw [Entrada.compacta]; rfl
      | directorio => rw [Entrada.compacta]; rfl
      | _ => cases hx
    · rw [List.eq_of_mem_replicate he]
      rfl
  · rw [List.countP_append, countP_ocupadasCompactas, countP_ocupada_vacios]
    exact hcuenta

theorem cada_compacta {e : Entrada} (he : e.Cada Entrada.Sana) :
    e.compacta.Cada Entrada.Sana := by
  induction e using Entrada.induccion with
  | archivo a =>
    have ha : a.Sano := he.self
    have hcompacto : a.compacto.Sano := by
      refine ⟨?_, ha.cabe⟩
      simp only [EntradaArchivo.compacto, List.length_take]
      exact Nat.le_min.mpr ⟨Nat.le_refl _, ha.contenido⟩
    rw [compacta_archivo]
    exact (Entrada.cada_hoja rfl).mpr hcompacto
  | directorio d ih =>
    obtain ⟨hd, hhijos⟩ := Entrada.cada_directorio.mp he
    rw [compacta_directorio]
    refine Entrada.cada_directorio.mpr
      ⟨Entrada.sana_directorio.mpr (Entrada.sana_directorio.mp hd).compacto, fun x hx ↦ ?_⟩
    rw [directorioCompacto_eq] at hx
    obtain hx | hx := List.mem_append.mp hx
    · rw [ocupadasCompactas_eq] at hx
      obtain ⟨y, hy, rfl⟩ := List.mem_map.mp hx
      have hy := (List.mem_filter.mp hy).1
      exact ih y hy (hhijos y hy)
    · rw [List.eq_of_mem_replicate hx]
      exact cada_desocupada rfl
  | _ => rw [Entrada.compacta]; exact cada_desocupada rfl

/-! ## The image of the tree that is loaded -/

/-- Empty slots at the end of a vector leave no trace in its image. -/
theorem imagenEntradas_vacios (punt : ℕ → UInt64) (es : List Entrada) (k pos : ℕ) :
    imagenEntradas punt (es.length + k) pos (es ++ List.replicate k .vacio) =
      imagenEntradas punt es.length pos es := by
  induction es generalizing pos with
  | nil =>
    rw [List.nil_append, List.length_nil, Nat.zero_add, imagenEntradas_zero]
    induction k generalizing pos with
    | zero => rw [imagenEntradas_zero]
    | succ k ih =>
      rw [List.replicate_succ, imagenEntradas_cons, imagenEntrada_desocupada rfl, List.nil_append,
        ih]
  | cons e es ih =>
    rw [List.cons_append, List.length_cons, Nat.add_right_comm, imagenEntradas_cons,
      imagenEntradas_cons, ih]

theorem imagenEntradas_ocupadas {es : List Entrada}
    (hes : ∀ e ∈ es, ∀ pos, imagenEntrada punt pos e.compacta = imagenEntrada punt pos e)
    (pos : ℕ) : imagenEntradas punt (ocupadasCompactas es).length pos (ocupadasCompactas es) =
      imagenEntradas punt es.length pos es := by
  induction es generalizing pos with
  | nil => rw [ocupadasCompactas]
  | cons e es ih =>
    have hresto := ih fun x hx ↦ hes x (List.mem_cons_of_mem e hx)
    rw [ocupadasCompactas, List.length_cons, imagenEntradas_cons]
    cases he : e.ocupada with
    | true =>
      rw [if_pos rfl, List.length_cons, imagenEntradas_cons, hes e List.mem_cons_self, hresto]
    | false =>
      rw [if_neg (by decide), imagenEntrada_desocupada he, List.nil_append, hresto]
      rfl

/-- The tree that is loaded has the image that it was loaded from. -/
theorem imagenEntrada_compacta (punt : ℕ → UInt64) {e : Entrada} (he : e.Cada Entrada.Sana) (pos : ℕ) :
    imagenEntrada punt pos e.compacta = imagenEntrada punt pos e := by
  induction e using Entrada.induccion generalizing pos with
  | archivo a =>
    rw [compacta_archivo, imagenEntrada_archivo, imagenEntrada_archivo, imagenArchivo,
      imagenArchivo, EntradaArchivo.compacto, List.take_take, Nat.min_self]
  | directorio d ih =>
    obtain ⟨hd, hhijos⟩ := Entrada.cada_directorio.mp he
    have hsano := Entrada.sana_directorio.mp hd
    have hcuenta := hsano.cuenta
    have hlibre := hsano.libre
    have hvector := imagenEntradas_vacios punt (ocupadasCompactas d.entradas)
      (d.cantidadEntradas.toNat - d.cantidadEntradasOcupadas.toNat)
      (pos + sizeofEntradaDirectorio.toNat)
    rw [imagenEntradas_ocupadas (fun x hx pos ↦ ih x hx (hhijos x hx) pos), hsano.largo,
      length_ocupadasCompactas, ← hcuenta, Nat.add_sub_cancel' (Nat.le_of_lt hlibre)] at hvector
    rw [compacta_directorio, imagenEntrada_directorio, imagenEntrada_directorio,
      directorioCompacto_eq, hvector]
  | _ => rw [Entrada.compacta]

/-! ## The call -/

/-- The file system that is loaded from the image of another one. -/
def Fs.compacto (fs : Fs) : Fs := ⟨directorioCompacto fs.raiz, fs.espacioTotalOcupadoFs, false⟩

theorem Fs.cada_compacto {fs : Fs} (hfs : fs.Cada Entrada.Sana) : fs.compacto.Cada Entrada.Sana := by
  have hraiz := cada_compacta hfs
  rw [compacta_directorio] at hraiz
  exact hraiz

theorem imagenFs_compacto (punt : ℕ → UInt64) {fs : Fs} (hfs : fs.Cada Entrada.Sana) :
    imagenFs punt fs.compacto = imagenFs punt fs := by
  have hraiz := imagenEntrada_compacta punt hfs sizeofFisopfsFs.toNat
  rw [compacta_directorio] at hraiz
  rw [imagenFs_eq, imagenFs_eq, ← hraiz]
  rfl

theorem Fs.bytes_compacto {fs : Fs} (hfs : fs.Cada Entrada.Sana) : fs.compacto.bytes = fs.bytes := by
  have himagen := congrArg List.length (imagenFs_compacto (fun _ ↦ 0) hfs)
  rw [length_imagenFs hfs, length_imagenFs (Fs.cada_compacto hfs)] at himagen
  exact himagen

/-- From the image of a file system in order, `fisopfs_init` loads the same file system with its
vectors compacted, or the process ends because the heap refused a request. -/
theorem fisopfsInit_delivers {ent : Entorno} {fs : Fs} (hfs : fs.Cada Entrada.Sana) (m : Memoria) :
    Delivers Servida (fisopfsInit ent (some (imagenFs punt fs))) fs.compacto (fun _ ↦ False) m := by
  have hl : (Lectura.mk (imagenFs punt fs) 0).resto =
      codecFs.encode (punt 0, fs.espacioTotalOcupadoFs) ++
        imagenEntrada punt sizeofFisopfsFs.toNat (.directorio fs.raiz) := by
    rw [← imagenFs_eq]
    rfl
  have hfread := Lectura.fread_eq hl (Codec.length_encode _ _) (by simp [sizeofFisopfsFs])
  have hresto := Lectura.resto_avanza hl
  rw [Codec.length_encode] at hresto
  have hpila : (Entrada.directorio fs.raiz).bytes ≤ (imagenFs punt fs).length := by
    rw [length_imagenFs hfs, Fs.bytes, Entrada.bytes]
    exact Nat.le_add_left _ _
  unfold fisopfsInit
  simp only [hfread, Codec.decode_encode]
  refine (crearDirectorio_delivers _ hfs hpila _ _ [] m (by rw [hresto, List.append_nil])).bind
    (fun m₁ ↦ ?_) ?_
  · exact .pure ..
  · rintro ⟨z, l'⟩ m₁ w m₂ rfl h
    cases h

/-- What the process loads from the beginning of a file it would load from the whole file. -/
theorem fisopfsInit_corta {ent : Entorno} {corto datos : List UInt8} (hcorto : corto <+: datos)
    {fs : Fs} {m m' : Memoria} (h : fisopfsInit ent (some corto) m = .ok (fs, m')) :
    fisopfsInit ent (some datos) m = .ok (fs, m') := by
  unfold fisopfsInit at h ⊢
  cases hf : Lectura.fread ⟨corto, 0⟩ codecFs.size with
  | mk leido l =>
    cases leido with
    | none => simp only [hf] at h; cases h
    | some bytes =>
      have hinicio : (Lectura.mk corto 0).Corta ⟨datos, 0⟩ := ⟨rfl, hcorto⟩
      obtain ⟨l', hf', hl'⟩ := hinicio.fread hf
      simp only [hf, hf', StateT.bind_ok] at h ⊢
      obtain ⟨⟨o, l₁⟩, m₁, hraiz, h⟩ := h
      cases o with
      | none => cases h
      | some raiz =>
        obtain ⟨l₁', hraiz', -⟩ := crearDirectorio_corta hcorto.length_le hl' hraiz
        exact ⟨_, _, hraiz', h⟩

/-- A process that starts from an image, whole or cut short, loads the file system it was made
of. -/
theorem fisopfsInit_imagen {ent : Entorno} {fs fs' : Fs} (hfs : fs.Cada Entrada.Sana)
    {datos : List UInt8} (hdatos : datos <+: imagenFs punt fs) {m m' : Memoria}
    (h : fisopfsInit ent (some datos) m = .ok (fs', m')) : fs' = fs.compacto :=
  (fisopfsInit_delivers hfs m).eq_of_ok (fisopfsInit_corta hdatos h) not_false

end SistemasOperativos.FisopFs
