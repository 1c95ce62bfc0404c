import SistemasOperativos.FisopFs.ImageReader
import SistemasOperativos.FisopFs.System

/-!
# Reachable file systems

The invariants of the tree along whole runs of the process, reloads included, and what follows for
the states that are reached: the vectors of all directories are in order, and the persistence file
carries the file system from one process to the next.
-/

namespace SistemasOperativos.FisopFs

open Library

/-! ## What a step can do -/

/-- A handler that returned, with the heap it left. -/
theorem Sistema.con_ok {s : Sistema} {op : Op (ℤ × Fs)} {respuestas : List Bool} {r : Resultado}
    (h : s.con op respuestas = .ok r) :
    ∃ m', op ⟨respuestas, false⟩ = .ok ((r.ret, r.sistema.fs), m') ∧ m'.agotada = r.agotada := by
  simp only [Sistema.con, Except.bind_ok] at h
  obtain ⟨⟨⟨ret, fs⟩, m'⟩, hop, h⟩ := h
  cases h
  exact ⟨m', hop, rfl⟩

theorem Sistema.con_disco {s : Sistema} {op : Op (ℤ × Fs)} {respuestas : List Bool} {r : Resultado}
    (h : s.con op respuestas = .ok r) : r.sistema.disco = s.disco := by
  simp only [Sistema.con, Except.bind_ok] at h
  obtain ⟨⟨⟨ret, fs⟩, m'⟩, -, h⟩ := h
  cases h
  rfl

/-- The calls by what they do to the system. The ones that only read, or set the times of an entry, are
taken together. -/
inductive Efecto (max : UInt64) (e : Evento) (s : Sistema) (r : Resultado) : Prop where
  | flush {path : Cadena} {punt : ℕ → UInt64} {abre : Bool} {cupo : Option ℕ} :
      e.llamada = .flush path punt abre cupo → r.agotada = false → r.sistema.fs = s.fs →
      fisopfsFlush punt abre cupo path s.fs s.disco = .ok (r.ret, r.sistema.disco) →
      Efecto max e s r
  | init {m m' : Memoria} : e.llamada = .init → r.sistema.disco = s.disco →
      fisopfsInit e.ent s.disco m = .ok (r.sistema.fs, m') → Efecto max e s r
  | consulta : (∀ path, e.llamada ≠ .unlink path) → r.sistema.disco = s.disco →
      s.fs.Consulta e.ent.ahora r.sistema.fs → Efecto max e s r
  | mkdir {path : Cadena} {mode : UInt32} {m' : Memoria} : e.llamada = .mkdir path mode →
      r.sistema.disco = s.disco → m'.agotada = r.agotada →
      fisopfsMkdir max e.ent path mode s.fs ⟨e.respuestas, false⟩ =
        .ok ((r.ret, r.sistema.fs), m') → Efecto max e s r
  | create {path : Cadena} {mode : UInt32} {m' : Memoria} : e.llamada = .create path mode →
      r.sistema.disco = s.disco → m'.agotada = r.agotada →
      fisopfsCreate max e.ent path mode s.fs ⟨e.respuestas, false⟩ =
        .ok ((r.ret, r.sistema.fs), m') → Efecto max e s r
  | unlink {path : Cadena} {m' : Memoria} : e.llamada = .unlink path →
      r.sistema.disco = s.disco → m'.agotada = r.agotada →
      fisopfsUnlink e.ent path s.fs ⟨e.respuestas, false⟩ = .ok ((r.ret, r.sistema.fs), m') →
      Efecto max e s r
  | rmdir {path : Cadena} {m' : Memoria} : e.llamada = .rmdir path →
      r.sistema.disco = s.disco → m'.agotada = r.agotada →
      fisopfsRmdir e.ent path s.fs ⟨e.respuestas, false⟩ = .ok ((r.ret, r.sistema.fs), m') →
      Efecto max e s r
  | truncate {path : Cadena} {size : UInt64} {m' : Memoria} : e.llamada = .truncate path size →
      r.sistema.disco = s.disco → m'.agotada = r.agotada →
      fisopfsTruncate max e.ent path size s.fs ⟨e.respuestas, false⟩ =
        .ok ((r.ret, r.sistema.fs), m') → Efecto max e s r
  | write {path : Cadena} {buf : List UInt8} {size offset : UInt64} {m' : Memoria} :
      e.llamada = .write path buf size offset →
      r.sistema.disco = s.disco → m'.agotada = r.agotada →
      fisopfsWrite max e.ent path buf size offset s.fs ⟨e.respuestas, false⟩ =
        .ok ((r.ret, r.sistema.fs), m') → Efecto max e s r

theorem ejecutar_efecto {max : UInt64} {e : Evento} {s : Sistema} {r : Resultado}
    (h : ejecutar max e s = .ok r) : Efecto max e s r := by
  obtain ⟨ent, respuestas, llamada⟩ := e
  unfold ejecutar at h
  cases llamada with
  | flush path punt abre cupo =>
    simp only [Except.bind_ok] at h
    obtain ⟨⟨ret, disco⟩, hflush, h⟩ := h
    cases h
    exact .flush rfl rfl rfl hflush
  | init =>
    obtain ⟨m', hop, -⟩ := Sistema.con_ok h
    obtain ⟨fs, m₁, hinit, heq⟩ := StateT.map_ok.mp hop
    have hfs : fs = r.sistema.fs := congrArg (fun x ↦ x.1.2) heq
    rw [hfs] at hinit
    exact .init rfl (Sistema.con_disco h) hinit
  | getattr path =>
    obtain ⟨m', hop, -⟩ := Sistema.con_ok h
    obtain ⟨⟨ret, st, fs⟩, m₁, hgetattr, heq⟩ := StateT.map_ok.mp hop
    cases heq
    exact .consulta nofun (Sistema.con_disco h) (fisopfsGetattr_consulta hgetattr)
  | readdir path =>
    obtain ⟨m', hop, -⟩ := Sistema.con_ok h
    obtain ⟨⟨ret, nombres, fs⟩, m₁, hreaddir, heq⟩ := StateT.map_ok.mp hop
    cases heq
    exact .consulta nofun (Sistema.con_disco h) (fisopfsReaddir_consulta hreaddir)
  | read path size offset =>
    obtain ⟨m', hop, -⟩ := Sistema.con_ok h
    obtain ⟨⟨ret, bytes, fs⟩, m₁, hread, heq⟩ := StateT.map_ok.mp hop
    cases heq
    exact .consulta nofun (Sistema.con_disco h) (fisopfsRead_consulta hread)
  | utimens path ts =>
    obtain ⟨m', hop, -⟩ := Sistema.con_ok h
    exact .consulta nofun (Sistema.con_disco h) (fisopfsUtimens_consulta hop)
  | mkdir path mode =>
    obtain ⟨m', hop, hagotada⟩ := Sistema.con_ok h
    exact .mkdir rfl (Sistema.con_disco h) hagotada hop
  | create path mode =>
    obtain ⟨m', hop, hagotada⟩ := Sistema.con_ok h
    exact .create rfl (Sistema.con_disco h) hagotada hop
  | unlink path =>
    obtain ⟨m', hop, hagotada⟩ := Sistema.con_ok h
    exact .unlink rfl (Sistema.con_disco h) hagotada hop
  | rmdir path =>
    obtain ⟨m', hop, hagotada⟩ := Sistema.con_ok h
    exact .rmdir rfl (Sistema.con_disco h) hagotada hop
  | truncate path size =>
    obtain ⟨m', hop, hagotada⟩ := Sistema.con_ok h
    exact .truncate rfl (Sistema.con_disco h) hagotada hop
  | write path buf size offset =>
    obtain ⟨m', hop, hagotada⟩ := Sistema.con_ok h
    exact .write rfl (Sistema.con_disco h) hagotada hop

/-- The call is an `unlink` that finds this file. -/
def Evento.Suelta (e : Evento) (s : Sistema) (a : EntradaArchivo) : Prop :=
  ∃ path, e.llamada = .unlink path ∧
    ∃ fs u d i, Halla Entrada.esArchivo e.ent.ahora path s.fs fs u d i (.archivo a)

theorem Evento.not_suelta {e : Evento} {s : Sistema} {a : EntradaArchivo}
    (h : ∀ path, e.llamada ≠ .unlink path) : none = some a ↔ e.Suelta s a :=
  ⟨nofun, fun ⟨path, hllamada, _⟩ ↦ absurd hllamada (h path)⟩

/-- A step writes the persistence file, reads it, or passes through the tree. -/
theorem ejecutar_ok {max : UInt64} {e : Evento} {s : Sistema} {r : Resultado}
    (h : ejecutar max e s = .ok r) :
    (∃ path punt abre cupo, e.llamada = .flush path punt abre cupo ∧ r.agotada = false ∧
      r.sistema.fs = s.fs ∧
      fisopfsFlush punt abre cupo path s.fs s.disco = .ok (r.ret, r.sistema.disco)) ∨
    (e.llamada = .init ∧ r.sistema.disco = s.disco ∧
      ∃ m m', fisopfsInit e.ent s.disco m = .ok (r.sistema.fs, m')) ∨
    (r.sistema.disco = s.disco ∧ ∃ quita, s.fs.Pasa max e.ent.ahora r.agotada quita r.sistema.fs ∧
      (r.agotada = false → ∀ a, quita = some a ↔ e.Suelta s a)) := by
  cases ejecutar_efecto h with
  | flush hllamada hagotada hfs hflush =>
    exact .inl ⟨_, _, _, _, hllamada, hagotada, hfs, hflush⟩
  | init hllamada hdisco hinit => exact .inr (.inl ⟨hllamada, hdisco, _, _, hinit⟩)
  | consulta hno hdisco hconsulta =>
    exact .inr (.inr ⟨hdisco, none, hconsulta.pasa _, fun _ a ↦ Evento.not_suelta hno⟩)
  | mkdir hllamada hdisco hagotada hop =>
    have hno (path : Cadena) : e.llamada ≠ .unlink path := by simp [hllamada]
    exact .inr (.inr ⟨hdisco, none, hagotada ▸ fisopfsMkdir_pasa hop,
      fun _ a ↦ Evento.not_suelta hno⟩)
  | create hllamada hdisco hagotada hop =>
    have hno (path : Cadena) : e.llamada ≠ .unlink path := by simp [hllamada]
    exact .inr (.inr ⟨hdisco, none, hagotada ▸ fisopfsCreate_pasa hop,
      fun _ a ↦ Evento.not_suelta hno⟩)
  | unlink hllamada hdisco hagotada hop =>
    obtain ⟨quita, hpasa, hquita⟩ := fisopfsUnlink_pasa hop
    rw [hagotada] at hpasa hquita
    refine .inr (.inr ⟨hdisco, quita, hpasa, fun hservido a ↦ (hquita hservido a).trans ?_⟩)
    constructor
    · exact fun h ↦ ⟨_, hllamada, h⟩
    · rintro ⟨path, heq, h⟩
      rw [hllamada] at heq
      cases heq
      exact h
  | rmdir hllamada hdisco hagotada hop =>
    have hno (path : Cadena) : e.llamada ≠ .unlink path := by simp [hllamada]
    exact .inr (.inr ⟨hdisco, none, hagotada ▸ fisopfsRmdir_pasa hop,
      fun _ a ↦ Evento.not_suelta hno⟩)
  | truncate hllamada hdisco hagotada hop =>
    have hno (path : Cadena) : e.llamada ≠ .unlink path := by simp [hllamada]
    exact .inr (.inr ⟨hdisco, none, hagotada ▸ fisopfsTruncate_pasa hop,
      fun _ a ↦ Evento.not_suelta hno⟩)
  | write hllamada hdisco hagotada hop =>
    have hno (path : Cadena) : e.llamada ≠ .unlink path := by simp [hllamada]
    exact .inr (.inr ⟨hdisco, none, hagotada ▸ fisopfsWrite_pasa hop,
      fun _ a ↦ Evento.not_suelta hno⟩)

/-- The file that a path leads to after some calls. -/
theorem archivo_tras {path : Cadena} {max ahora : UInt64} {es : List Evento} {s : Sistema}
    {p : EntradaArchivo → Bool}
    (h : (correr max es s).any (fun s' ↦
      match buscarArchivo ahora path s'.fs with
      | .ok (_, .ok (_, a)) => p a
      | _ => false) = true) :
    ∃ s' fs₁ u a, correr max es s = some s' ∧ encontrarEntrada ahora path s'.fs = .ok (fs₁, some u) ∧
      fs₁.en u = some (.archivo a) ∧ p a = true := by
  obtain ⟨s', hs', hbusca⟩ := (Option.any_eq_true _ _).mp h
  split at hbusca
  next fs₁ u a hok =>
    obtain ⟨o, hencuentra, ⟨r, hno, -⟩ | ⟨u', a', rfl, hu, heq⟩⟩ := buscarArchivo_ok hok
    · cases hno
    · cases heq
      exact ⟨s', fs₁, u, a, hs', hencuentra, hu, hbusca⟩
  · cases hbusca

/-! ## The root directory of a new file system -/

/-- The root directory is in order when it is created. -/
theorem crearDirectorioRaiz_ok {fs : Fs} {ent : Entorno} {m m' : Memoria}
    (h : crearDirectorioRaiz ent m = .ok (fs, m')) :
    fs.espacioTotalOcupadoFs = sizeofFisopfsFs + sizeofEntradaDirectorio ∧
      fs.desbordado = false ∧ ∃ nombre st, nombre.cadena = [barra] ∧
        fs.raiz = ⟨nombre, st, entradasIniciales, 0, List.replicate 5 .vacio⟩ ∧ fs.raiz.Sano := by
  simp only [crearDirectorioRaiz, StateT.bind_ok] at h
  obtain ⟨reservado, m₁, hpedir, creado, m₂, hcrear, h⟩ := h
  cases creado with
  | error resultado => cases h
  | ok raiz =>
    cases h
    obtain ⟨nombre, hnombre, m₃, hexpandir⟩ := crearDir_ok hcrear
    obtain ⟨hsano, rfl⟩ := expandir_nuevo hexpandir
    exact ⟨rfl, rfl, nombre, _, hnombre, rfl,
      ⟨⟨hsano.largo, hsano.asignadas, hsano.cuenta, hsano.capacidad, hsano.cabe⟩, hsano.libre⟩⟩

theorem crearDirectorioRaiz_cada {rotos : Prop} {fs : Fs} {ent : Entorno} {m m' : Memoria}
    (h : crearDirectorioRaiz ent m = .ok (fs, m')) : fs.Cada (Entrada.Coherente rotos) := by
  obtain ⟨-, -, nombre, st, -, hraiz, hsano⟩ := crearDirectorioRaiz_ok h
  refine Entrada.cada_directorio.mpr ⟨.inl hsano, fun e he ↦ ?_⟩
  rw [hraiz] at he
  rw [List.eq_of_mem_replicate he]
  exact cada_desocupada rfl

/-! ## The invariant of the process -/

/-- The persistence file, where there is one, is the image of a tree in order, whole or cut short. -/
def DiscoSano (disco : Option (List UInt8)) : Prop :=
  ∀ datos, disco = some datos →
    ∃ (punt : ℕ → UInt64) (fs : Fs), fs.Cada Entrada.Sana ∧ datos <+: imagenFs punt fs

/-- The tree is in order, up to broken vectors where `rotos` allows them, and the persistence file
holds an image. -/
structure Sistema.Coherente (rotos : Prop) (s : Sistema) : Prop where
  arbol : s.fs.Cada (Entrada.Coherente rotos)
  disco : DiscoSano s.disco

theorem cada_coherente_of_sana {rotos : Prop} {fs : Fs} (h : fs.Cada Entrada.Sana) :
    fs.Cada (Entrada.Coherente rotos) := by
  intro u x hx
  have hsana := h u x hx
  cases x with
  | directorio d => exact .inl (Entrada.sana_directorio.mp hsana)
  | _ => exact hsana

theorem Sistema.Inicial.coherente {rotos : Prop} {s : Sistema} (h : s.Inicial) :
    s.Coherente rotos := by
  obtain ⟨hdisco, ent, m, m', hraiz⟩ := h
  exact ⟨crearDirectorioRaiz_cada hraiz, fun datos hdatos ↦ by rw [hdisco] at hdatos; cases hdatos⟩

/-- The medium accepts everything that is written to the persistence file. -/
def Evento.MedioSinLimite (e : Evento) : Prop :=
  ∀ path punt abre cupo, e.llamada = .flush path punt abre cupo → cupo = none

theorem ejecutar_coherente {rotos : Prop} {max : UInt64} {e : Evento} {s : Sistema} {r : Resultado}
    (hs : s.Coherente rotos) (h : ejecutar max e s = .ok r) (hrotos : r.agotada = true → rotos)
    (hmedio : rotos → e.MedioSinLimite) : r.sistema.Coherente rotos := by
  obtain ⟨path, punt, abre, cupo, hllamada, -, hfs, hflush⟩ | ⟨-, hdisco, m, m', hinit⟩ |
    ⟨hdisco, quita, hpasa, -⟩ := ejecutar_ok h
  · refine ⟨hfs ▸ hs.arbol, fun datos hdatos ↦ ?_⟩
    obtain ⟨-, -, hdisco⟩ | ⟨⟨k, hk⟩, hcompleta⟩ := fisopfsFlush_ok hflush
    · exact hs.disco datos (hdisco ▸ hdatos)
    · have hsana : s.fs.Cada Entrada.Sana := by
        by_cases hr : rotos
        · exact (hcompleta (hmedio hr path punt abre cupo hllamada)).2.2 rotos hs.arbol
        · have harbol := hs.arbol
          rw [eq_false hr] at harbol
          exact harbol
      rw [hk] at hdatos
      cases hdatos
      exact ⟨punt, s.fs, hsana, List.take_prefix k _⟩
  · refine ⟨?_, hdisco ▸ hs.disco⟩
    cases hd : s.disco with
    | none =>
      rw [hd] at hinit
      exact crearDirectorioRaiz_cada hinit
    | some datos =>
      obtain ⟨punt, fs, hfs, hprefijo⟩ := hs.disco datos hd
      rw [hd] at hinit
      rw [fisopfsInit_imagen hfs hprefijo hinit]
      exact cada_coherente_of_sana (Fs.cada_compacto hfs)
  · exact ⟨hpasa.cada hrotos hs.arbol, hdisco ▸ hs.disco⟩

theorem Run.coherente_of_servido {max : UInt64} {s s' : Sistema} {es : List Evento}
    (hini : s.Inicial) (hrun : Run (PasoServido max) s es s') : s'.Coherente False := by
  refine hrun.invariant (fun a e b ha hpaso ↦ ?_) hini.coherente
  obtain ⟨r, hr, hservido, rfl⟩ := hpaso
  exact ejecutar_coherente ha hr (fun hagotada ↦ by rw [hservido] at hagotada; cases hagotada)
    False.elim

/-- Where requests may be refused, the tree may come to have broken vectors. -/
theorem Run.coherente {max : UInt64} {s s' : Sistema} {es : List Evento} (hini : s.Inicial)
    (hrun : Run (fun a e b ↦ Paso max a e b ∧ e.MedioSinLimite) s es s') : s'.Coherente True := by
  refine hrun.invariant (fun a e b ha hpaso ↦ ?_) hini.coherente
  obtain ⟨⟨r, hr, rfl⟩, hmedio⟩ := hpaso
  exact ejecutar_coherente ha hr (fun _ ↦ trivial) (fun _ ↦ hmedio)

/-! ## The vectors of all directories -/

theorem EntradaDirectorioDe.Sano.countP_ocupada {d : EntradaDirectorio} (h : d.Sano) :
    d.entradas.countP Entrada.ocupada = d.entradas.countP (fun e ↦ !e.esVacio) := by
  refine List.countP_congr fun e he ↦ ?_
  have hasignada := h.asignadas e he
  cases e <;> first | rfl | cases hasignada

/-- An expansion can only fail for lack of memory. -/
theorem expandirEntrdasDir_ret {d d' : EntradaDirectorio} {r : ℤ} {m m' : Memoria}
    (h : expandirEntrdasDir d m = .ok ((r, d'), m')) : r = 0 ∨ r = -enomem := by
  obtain ⟨-, rfl, -⟩ | ⟨-, base, entradas, reservado, m₁, -, -, h'⟩ := expandirEntrdasDir_ok h
  · exact .inl rfl
  obtain ⟨-, rfl, -⟩ | ⟨-, hllenar⟩ := h'
  · exact .inr rfl
  obtain ⟨rfl, -⟩ | ⟨rfl, -⟩ := llenarDesde_ok hllenar
  · exact .inl rfl
  · exact .inr rfl

theorem EntradaDirectorioDe.Sano.colocar_ne_enoent {d d' : EntradaDirectorio} (h : d.Sano)
    {ahora : UInt64} {nueva : Entrada} {r : ℤ} {o : Option ℕ} {m m' : Memoria}
    (hcolocar : colocarEntradaDentroDeDirectorio ahora d nueva m = .ok ((r, d', o), m')) :
    r ≠ -enoent := by
  obtain ⟨hnone, -⟩ | ⟨i, -, -, hexpandir⟩ := colocarEntradaDentroDeDirectorio_ok hcolocar
  · obtain ⟨i, hi⟩ := h.primera_vacio
    rw [hi] at hnone
    cases hnone
  · obtain rfl | rfl := expandirEntrdasDir_ret hexpandir
    · decide
    · decide

theorem EntradaDirectorioDe.Sano.estaVacio_iff_vacios {d : EntradaDirectorio} (h : d.Sano) :
    estaVacioDirectorio d = true ↔ ∀ e ∈ d.entradas, e.esVacio = true := by
  rw [h.estaVacio_iff]
  refine forall₂_congr fun e he ↦ ?_
  have hasignada := h.asignadas e he
  cases e with
  | nula => cases hasignada
  | indefinida => cases hasignada
  | _ => simp [Entrada.ocupada, Entrada.esVacio]

/-- In every reachable state, every directory has all its slots assigned, the number of its entries
in its counter, a free slot and a capacity that comes from doubling the initial one. So a search for
a free slot always finds one, and the counter tells whether there are entries. -/
theorem directorios_en_orden (max : UInt64) {s s' : Sistema} {es : List Evento} (hini : s.Inicial)
    (hrun : Run (PasoServido max) s es s') {u : Ubicacion} {d : EntradaDirectorio}
    (hu : s'.fs.en u = some (.directorio d)) :
    d.entradas.length = d.cantidadEntradas.toNat ∧
    (∀ e ∈ d.entradas, e.asignada = true) ∧
    d.cantidadEntradasOcupadas.toNat = d.entradas.countP (fun e ↦ !e.esVacio) ∧
    d.cantidadEntradasOcupadas < d.cantidadEntradas ∧
    (∃ k, d.cantidadEntradas.toNat = entradasIniciales.toNat * multiplicadorEntradas.toNat ^ k) ∧
    (∃ i, primera Entrada.esVacio d.cantidadEntradas.toNat d.entradas = .ok (some i)) ∧
    (∀ ahora nueva m r d' o m',
      colocarEntradaDentroDeDirectorio ahora d nueva m = .ok ((r, d', o), m') → r ≠ -enoent) ∧
    (estaVacioDirectorio d = true ↔ ∀ e ∈ d.entradas, e.esVacio = true) := by
  have hsano : d.Sano :=
    Entrada.sana_directorio.mp ((Run.coherente_of_servido hini hrun).arbol u _ hu)
  have hcuenta := hsano.cuenta
  rw [hsano.countP_ocupada] at hcuenta
  have hlibre : d.cantidadEntradasOcupadas < d.cantidadEntradas :=
    UInt64.lt_iff_toNat_lt.mpr hsano.libre
  exact ⟨hsano.largo, hsano.asignadas, hcuenta, hlibre, hsano.potencia, hsano.primera_vacio,
    fun _ _ _ _ _ _ _ h ↦ hsano.colocar_ne_enoent h, hsano.estaVacio_iff_vacios⟩

/-- After one `mkdir` the new directory is in order. -/
theorem directorios_en_orden_mkdir :
    ∃ s' d, correr 4294967296 [(Llamada.mkdir [barra, punto] 0).simple]
        (Sistema.nuevo ⟨0, 0, 0, fun _ ↦ 0⟩) = some s' ∧
      s'.fs.en [0] = some (.directorio d) ∧ d.cantidadEntradasOcupadas < d.cantidadEntradas := by
  have hcorre : ((correr 4294967296 [(Llamada.mkdir [barra, punto] 0).simple]
      (Sistema.nuevo ⟨0, 0, 0, fun _ ↦ 0⟩)).bind (·.fs.en [0])).any Entrada.esDirectorio = true := by
    decide +kernel
  cases hs' : correr 4294967296 [(Llamada.mkdir [barra, punto] 0).simple]
      (Sistema.nuevo ⟨0, 0, 0, fun _ ↦ 0⟩) with
  | none =>
    rw [hs'] at hcorre
    cases hcorre
  | some s' =>
    rw [hs', Option.bind_some] at hcorre
    cases he : s'.fs.en [0] with
    | none =>
      rw [he] at hcorre
      cases hcorre
    | some e =>
      cases e with
      | directorio d =>
        have horden := directorios_en_orden 4294967296 (Sistema.nuevo_inicial _) (run_correr hs') he
        exact ⟨s', d, rfl, he, horden.2.2.2.1⟩
      | _ =>
        rw [he] at hcorre
        cases hcorre

/-! ## The persistence file -/

/-- In every reachable state, whatever the heap has refused before, the image that `fisopfs_flush`
writes loads as the same file system with its vectors compacted, and the loaded file system has the
same image for the same values of the pointers. Where no request was refused the image is indeed
written. -/
theorem ida_y_vuelta (max : UInt64) {s s' : Sistema} {es : List Evento} (hini : s.Inicial)
    (hrun : Run (fun a e b ↦ Paso max a e b ∧ e.MedioSinLimite) s es s') (path : Cadena)
    (hpath : path.length ≤ maximoPath) (punt : ℕ → UInt64) (disco : Option (List UInt8)) :
    (Run (PasoServido max) s es s' →
      ∃ datos, fisopfsFlush punt true none path s'.fs disco = .ok (0, some datos)) ∧
    ∀ r disco', fisopfsFlush punt true none path s'.fs disco = .ok (r, disco') →
      r = 0 ∧ ∃ datos, disco' = some datos ∧
        (∀ ent agotada, fisopfsInit ent (some datos) ⟨[], agotada⟩ =
          .ok (s'.fs.compacto, ⟨[], agotada⟩)) ∧
        (∀ ent m fs m', fisopfsInit ent (some datos) m = .ok (fs, m') → fs = s'.fs.compacto) ∧
        ∀ punt' disco, fisopfsFlush punt' true none path s'.fs.compacto disco =
          fisopfsFlush punt' true none path s'.fs disco := by
  constructor
  · intro hservido
    have hsana : s'.fs.Cada Entrada.Sana := (Run.coherente_of_servido hini hservido).arbol
    exact ⟨_, fisopfsFlush_eq hpath hsana disco⟩
  · intro r disco' hflush
    obtain ⟨hlargo | habre, -⟩ | ⟨-, hcompleta⟩ := fisopfsFlush_ok hflush
    · exact absurd hlargo (Nat.not_lt.mpr hpath)
    · cases habre
    obtain ⟨hr, hdisco, hsana⟩ := hcompleta rfl
    have hsana : s'.fs.Cada Entrada.Sana := hsana True (Run.coherente hini hrun).arbol
    refine ⟨hr, imagenFs punt s'.fs, hdisco, fun ent agotada ↦ ?_, fun ent m fs m' hinit ↦ ?_,
      fun punt' disco ↦ ?_⟩
    · exact (fisopfsInit_delivers hsana ⟨[], agotada⟩).of_lucky rfl
    · exact fisopfsInit_imagen hsana (List.prefix_refl _) hinit
    · rw [fisopfsFlush_eq hpath (Fs.cada_compacto hsana), fisopfsFlush_eq hpath hsana,
        imagenFs_compacto punt' hsana]

/-- A file with content next to the hole that another one left. -/
theorem ida_y_vuelta_con_hueco :
    ∃ s' datos, correr 4294967296
        [(Llamada.create [barra, punto] 0o100644).simple,
          (Llamada.create [barra, punto, punto] 0o100644).simple,
          (Llamada.write [barra, punto, punto] [7] 1 0).simple,
          (Llamada.unlink [barra, punto]).simple]
        (Sistema.nuevo ⟨0, 0, 0, fun _ ↦ 0⟩) = some s' ∧
      fisopfsFlush (fun _ ↦ 0) true none [barra] s'.fs none = .ok (0, some datos) ∧
      fisopfsInit ⟨0, 0, 0, fun _ ↦ 0⟩ (some datos) ⟨[], false⟩ =
        .ok (s'.fs.compacto, ⟨[], false⟩) := by
  have hcorre : (correr 4294967296
      [(Llamada.create [barra, punto] 0o100644).simple,
        (Llamada.create [barra, punto, punto] 0o100644).simple,
        (Llamada.write [barra, punto, punto] [7] 1 0).simple,
        (Llamada.unlink [barra, punto]).simple]
      (Sistema.nuevo ⟨0, 0, 0, fun _ ↦ 0⟩)).isSome = true := by
    decide +kernel
  obtain ⟨s', hs'⟩ := Option.isSome_iff_exists.mp hcorre
  have hservido := run_correr hs'
  have hmedio : ∀ e ∈ [(Llamada.create [barra, punto] 0o100644).simple,
      (Llamada.create [barra, punto, punto] 0o100644).simple,
      (Llamada.write [barra, punto, punto] [7] 1 0).simple,
      (Llamada.unlink [barra, punto]).simple], e.MedioSinLimite := by
    intro e he path punt abre cupo hllamada
    simp only [List.mem_cons, List.not_mem_nil, or_false] at he
    obtain rfl | rfl | rfl | rfl := he <;> cases hllamada
  have hrun := (hservido.mono fun _ _ _ h ↦ h.paso).with_labels hmedio
  obtain ⟨hescribe, hlee⟩ := ida_y_vuelta 4294967296 (Sistema.nuevo_inicial _) hrun
    [barra] (by decide) (fun _ ↦ 0) none
  obtain ⟨datos, hdatos⟩ := hescribe hservido
  obtain ⟨-, datos', heq, hinit, -⟩ := hlee 0 (some datos) hdatos
  cases heq
  exact ⟨s', datos, hs', hdatos, hinit _ false⟩

end SistemasOperativos.FisopFs
