import Mathlib.Data.Finmap
import SistemasOperativos.FisopFs.PathEffects
import SistemasOperativos.FisopFs.Reachability

/-!
# The tree as a finite map from paths

What the file system is for: a finite map from paths to nodes, with one operation for each call that
changes it. The tree simulates the map along every run.
-/

namespace SistemasOperativos.FisopFs

open Library

/-! ## The map -/

/-- A finite map from paths to nodes. -/
abbrev Mapa := Finmap fun _ : Ruta ↦ Nodo

/-- The calls that change names or contents, with the components of their path. -/
inductive Orden where
  | mkdir (p : Ruta) (mode : UInt32)
  | create (p : Ruta) (mode : UInt32)
  | unlink (p : Ruta)
  | rmdir (p : Ruta)
  | truncate (p : Ruta) (size : UInt64)
  | write (p : Ruta) (buf : List UInt8) (size offset : UInt64)

def Orden.llamada : Orden → Llamada
  | .mkdir p mode => .mkdir p.texto mode
  | .create p mode => .create p.texto mode
  | .unlink p => .unlink p.texto
  | .rmdir p => .rmdir p.texto
  | .truncate p size => .truncate p.texto size
  | .write p buf size offset => .write p.texto buf size offset

namespace Mapa

/-- The map of an empty file system. -/
def inicial : Mapa := Finmap.singleton [] .directorio

def EsArchivo (m : Mapa) (p : Ruta) : Prop := ∃ b, m.lookup p = some (.archivo b)

/-- A directory other than the root with no path below it. -/
def EsDirectorioVacio (m : Mapa) (p : Ruta) : Prop :=
  p ≠ [] ∧ m.lookup p = some .directorio ∧ ∀ q, q ≠ [] → p ++ q ∉ m

/-- The removals that must succeed. -/
def Elimina (m : Mapa) : Orden → Prop
  | .unlink p => m.EsArchivo p
  | .rmdir p => m.EsDirectorioVacio p
  | _ => False

end Mapa

/-- One call on the map, with its result. -/
inductive PasoMapa : Mapa → Orden × ℤ → Mapa → Prop where
  | mkdir {m : Mapa} {p : Ruta} {mode : UInt32} : p ∉ m → m.lookup p.dropLast = some .directorio →
      PasoMapa m (.mkdir p mode, 0) (m.insert p .directorio)
  | create {m : Mapa} {p : Ruta} {mode : UInt32} : p ∉ m →
      m.lookup p.dropLast = some .directorio →
      PasoMapa m (.create p mode, 0) (m.insert p (.archivo []))
  | unlink {m : Mapa} {p : Ruta} : m.EsArchivo p → PasoMapa m (.unlink p, 0) (m.erase p)
  | rmdir {m : Mapa} {p : Ruta} : m.EsDirectorioVacio p → PasoMapa m (.rmdir p, 0) (m.erase p)
  | truncate {m : Mapa} {p : Ruta} {size : UInt64} {b b' : List UInt8} :
      m.lookup p = some (.archivo b) → BytesTruncados size b b' →
      PasoMapa m (.truncate p size, 0) (m.insert p (.archivo b'))
  | write {m : Mapa} {p : Ruta} {buf : List UInt8} {size offset : UInt64} {b b' : List UInt8} :
      m.lookup p = some (.archivo b) → BytesEscritos buf size offset b b' →
      PasoMapa m (.write p buf size offset, intDe size) (m.insert p (.archivo b'))
  | falla {m : Mapa} {o : Orden} {ret : ℤ} : ret ≠ 0 → ¬ m.Elimina o → PasoMapa m (o, ret) m

/-! ## The calls of the process -/

/-- The calls that the kernel makes: paths are normalised, and a path is created only where it leads
to nothing and its parent is a directory. -/
def Fs.Admite (fs : Fs) : Orden → Prop
  | .mkdir p _ => p.Normal ∧ fs.nodo p = none ∧ fs.nodo p.dropLast = some .directorio
  | .create p _ => p.Normal ∧ fs.nodo p = none ∧ fs.nodo p.dropLast = some .directorio
  | .unlink p => p.Normal
  | .rmdir p => p.Normal
  | .truncate p _ => p.Normal
  | .write p _ _ _ => p.Normal

/-- A step of the process with its result, where the heap serves every request. -/
def PasoOrden (max : UInt64) (s : Sistema) (o : Orden × ℤ) (s' : Sistema) : Prop :=
  s.fs.Admite o.1 ∧ ∃ ent respuestas,
    ejecutar max ⟨ent, respuestas, o.1.llamada⟩ s = .ok ⟨o.2, false, s'⟩

/-- The map holds at each path what the path names in the tree. -/
def Fs.Representa (fs : Fs) (m : Mapa) : Prop := ∀ p, fs.nodo p = m.lookup p

section Representa

variable {fs fs' : Fs} {m : Mapa} {p : Ruta} {n : Nodo}

theorem Fs.Representa.insert (h : fs.Representa m)
    (hfs' : ∀ q, fs'.nodo q = if q = p then some n else fs.nodo q) :
    fs'.Representa (m.insert p n) := by
  intro q
  by_cases hq : q = p
  · rw [hfs', if_pos hq, hq, Finmap.lookup_insert]
  · rw [hfs', if_neg hq, Finmap.lookup_insert_of_ne m hq, h q]

theorem Fs.Representa.erase (h : fs.Representa m)
    (hfs' : ∀ q, fs'.nodo q = if q = p then none else fs.nodo q) :
    fs'.Representa (m.erase p) := by
  intro q
  by_cases hq : q = p
  · rw [hfs', if_pos hq, hq, Finmap.lookup_erase]
  · rw [hfs', if_neg hq, Finmap.lookup_erase_ne hq, h q]

theorem Fs.Representa.igual (h : fs.Representa m) (hfs' : ∀ q, fs'.nodo q = fs.nodo q) :
    fs'.Representa m := fun q ↦ (hfs' q).trans (h q)

theorem Fs.Representa.notMem (h : fs.Representa m) : p ∉ m ↔ fs.nodo p = none := by
  rw [h p, Finmap.lookup_eq_none]

theorem Fs.Representa.directorioVacio (h : fs.Representa m) :
    m.EsDirectorioVacio p ↔ fs.DirectorioVacio p := by
  unfold Mapa.EsDirectorioVacio Fs.DirectorioVacio
  simp only [h.notMem, h p]

end Representa

/-! ## The simulation -/

variable {max : UInt64} {fs fs' : Fs} {m m' : Memoria}

/-- Every call of the kernel on the tree is the call on the map. -/
theorem paso_simula {s s' : Sistema} {o : Orden × ℤ} {mapa : Mapa} (hs : s.fs.EnOrden)
    (hmapa : s.fs.Representa mapa) (h : PasoOrden max s o s') :
    s'.fs.EnOrden ∧ ∃ mapa', PasoMapa mapa o mapa' ∧ s'.fs.Representa mapa' := by
  obtain ⟨o, ret⟩ := o
  obtain ⟨hadmite, ent, respuestas, h⟩ := h
  cases o with
  | mkdir p mode =>
    obtain ⟨hp, hlibre, hpadre⟩ := hadmite
    obtain ⟨m', hop, hservido⟩ := Sistema.con_ok h
    obtain ⟨horden, hcaso⟩ := fisopfsMkdir_simula hs hp hlibre hop hservido
    obtain ⟨hr, higual⟩ | ⟨rfl, hnodo⟩ := hcaso
    · exact ⟨horden, mapa, .falla hr id, hmapa.igual higual⟩
    · exact ⟨horden, _, .mkdir (hmapa.notMem.mpr hlibre) ((hmapa _).symm.trans hpadre),
        hmapa.insert hnodo⟩
  | create p mode =>
    obtain ⟨hp, hlibre, hpadre⟩ := hadmite
    obtain ⟨m', hop, hservido⟩ := Sistema.con_ok h
    obtain ⟨horden, hcaso⟩ := fisopfsCreate_simula hs hp hlibre hop hservido
    obtain ⟨hr, higual⟩ | ⟨rfl, hnodo⟩ := hcaso
    · exact ⟨horden, mapa, .falla hr id, hmapa.igual higual⟩
    · exact ⟨horden, _, .create (hmapa.notMem.mpr hlibre) ((hmapa _).symm.trans hpadre),
        hmapa.insert hnodo⟩
  | unlink p =>
    obtain ⟨m', hop, hservido⟩ := Sistema.con_ok h
    obtain ⟨horden, hcaso⟩ := fisopfsUnlink_simula hs hadmite hop hservido
    obtain ⟨hr, hno, higual⟩ | ⟨rfl, ⟨b, hb⟩, hnodo⟩ := hcaso
    · have hno : ¬ mapa.Elimina (.unlink p) := by
        rintro ⟨b, hb⟩
        exact hno b ((hmapa p).trans hb)
      exact ⟨horden, mapa, .falla hr hno, hmapa.igual higual⟩
    · exact ⟨horden, _, .unlink ⟨b, (hmapa p).symm.trans hb⟩, hmapa.erase hnodo⟩
  | rmdir p =>
    obtain ⟨m', hop, hservido⟩ := Sistema.con_ok h
    obtain ⟨horden, hcaso⟩ := fisopfsRmdir_simula hs hadmite hop hservido
    obtain ⟨hr, hno, higual⟩ | ⟨rfl, hvacio, hnodo⟩ := hcaso
    · exact ⟨horden, mapa, .falla hr fun hsi ↦ hno (hmapa.directorioVacio.mp hsi),
        hmapa.igual higual⟩
    · exact ⟨horden, _, .rmdir (hmapa.directorioVacio.mpr hvacio), hmapa.erase hnodo⟩
  | truncate p size =>
    obtain ⟨m', hop, hservido⟩ := Sistema.con_ok h
    obtain ⟨horden, hcaso⟩ := fisopfsTruncate_simula hs hadmite hop hservido
    obtain ⟨hr, higual⟩ | ⟨rfl, b, b', hb, hbytes, hnodo⟩ := hcaso
    · exact ⟨horden, mapa, .falla hr id, hmapa.igual higual⟩
    · exact ⟨horden, _, .truncate ((hmapa p).symm.trans hb) hbytes, hmapa.insert hnodo⟩
  | write p buf size offset =>
    obtain ⟨m', hop, hservido⟩ := Sistema.con_ok h
    obtain ⟨horden, hcaso⟩ := fisopfsWrite_simula hs hadmite hop hservido
    obtain ⟨hr, higual⟩ | ⟨rfl, b, b', hb, hbytes, hnodo⟩ := hcaso
    · exact ⟨horden, mapa, .falla (Int.ne_of_lt hr) id, hmapa.igual higual⟩
    · exact ⟨horden, _, .write ((hmapa p).symm.trans hb) hbytes, hmapa.insert hnodo⟩

/-- The state right after `crear_directorio_raiz` is represented by the map with the root alone. -/
theorem Sistema.Inicial.representa {s : Sistema} (h : s.Inicial) :
    s.fs.EnOrden ∧ s.fs.Representa Mapa.inicial := by
  obtain ⟨-, ent, m, m', hraiz⟩ := h
  have hsana : s.fs.Cada Entrada.Sana := crearDirectorioRaiz_cada hraiz
  obtain ⟨-, -, nombre, st, -, hvector, -⟩ := crearDirectorioRaiz_ok hraiz
  have hvacias : ∀ e ∈ s.fs.raiz.entradas, e = .vacio := by
    intro e he
    rw [hvector] at he
    exact List.eq_of_mem_replicate he
  obtain ⟨hhoja, hdistinta⟩ := vacia_distinta hvacias
  refine ⟨⟨hsana, hdistinta⟩, fun p ↦ ?_⟩
  by_cases hp : p = []
  · rw [hp, Mapa.inicial, Finmap.lookup_singleton_eq]
    rfl
  · have hno : p ∉ Mapa.inicial := fun hmem ↦ hp ((Finmap.mem_singleton p [] _).mp hmem)
    rw [Finmap.lookup_eq_none.mpr hno]
    exact hhoja p hp

/-- Along every run the tree is represented by the map that the same calls lead to. -/
theorem Run.simula {s s' : Sistema} {os : List (Orden × ℤ)} {mapa : Mapa} (hs : s.fs.EnOrden)
    (hmapa : s.fs.Representa mapa) (h : Run (PasoOrden max) s os s') :
    s'.fs.EnOrden ∧ ∃ mapa', Run PasoMapa mapa os mapa' ∧ s'.fs.Representa mapa' := by
  induction h generalizing mapa with
  | nil => exact ⟨hs, mapa, .nil mapa, hmapa⟩
  | cons hfirst _ ih =>
    obtain ⟨hs₁, mapa₁, hpaso, hmapa₁⟩ := paso_simula hs hmapa hfirst
    obtain ⟨hs', mapa', hrun, hmapa'⟩ := ih hs₁ hmapa₁
    exact ⟨hs', mapa', .cons hpaso hrun, hmapa'⟩

/-! ## Removals return -/

theorem liberarEntradas_vacias {es : List Entrada} {n : ℕ} (hlen : n ≤ es.length)
    (hes : ∀ e ∈ es, e = .vacio) : liberarEntradas n es = .ok () := by
  induction n generalizing es with
  | zero => rw [liberarEntradas]
  | succ n ih =>
    cases es with
    | nil => exact absurd hlen (Nat.not_succ_le_zero n)
    | cons e es =>
      have he : e = .vacio := hes e List.mem_cons_self
      have hresto : liberarEntradas n es = .ok () :=
        ih (Nat.le_of_succ_le_succ hlen) fun x hx ↦ hes x (List.mem_cons_of_mem e hx)
      rw [liberarEntradas, he, hresto, liberarEntrada]
      · rfl
      · exact nofun
      · exact nofun

/-- An empty directory in order is released without reading an invalid slot. -/
theorem EntradaDirectorioDe.Sano.liberarDir {d : EntradaDirectorio} (h : d.Sano)
    (hvacio : ∀ e ∈ d.entradas, e.ocupada = false) : liberarDir d = .ok () := by
  have hvacias : ∀ e ∈ d.entradas, e = .vacio := by
    intro e he
    have hasignada := h.asignadas e he
    have hocupada := hvacio e he
    cases e with
    | vacio => rfl
    | archivo a => cases hocupada
    | directorio d => cases hocupada
    | nula => cases hasignada
    | indefinida => cases hasignada
  have hlargo := h.largo
  cases d with
  | mk nombre st cantidad ocupadas entradas =>
    rw [FisopFs.liberarDir]
    exact liberarEntradas_vacias (Nat.le_of_eq hlargo.symm) hvacias

/-- A removal that finds an entry that can be released returns. -/
theorem eliminar_returns {ent : Entorno} {esDelTipo : Entrada → Bool}
    {negado : Entrada → Option ℤ} {tam : UInt64} {path : Cadena} {fs₁ : Fs} {u : Ubicacion}
    {d : EntradaDirectorio} {i : ℕ} {x : Entrada} (hpath : path.length ≤ maximoPath)
    (h : Halla esDelTipo ent.ahora path fs fs₁ u d i x) (hnegado : negado x = none)
    (hlibera : liberarEntrada x = .ok ()) (m : Memoria) :
    ∃ r, eliminar ent esDelTipo negado tam path fs m = .ok r := by
  obtain ⟨nombre, hbusca, hprimera, hx⟩ := h
  obtain ⟨e, m₁, hvacia⟩ : ∃ e m₁, crearEntradaVacia m = .ok (e, m₁) := by
    obtain ⟨r, m₁, hpedir⟩ := pedir_returns sizeofEntrada m
    cases r with
    | true => exact ⟨.vacio, m₁, StateT.bind_ok.mpr ⟨true, m₁, hpedir, rfl⟩⟩
    | false => exact ⟨.nula, m₁, StateT.bind_ok.mpr ⟨false, m₁, hpedir, rfl⟩⟩
  obtain rfl | ⟨rfl, -⟩ := crearEntradaVacia_ok hvacia
  · refine ⟨((0, (fs₁.poner u (.directorio (d.sin ent.ahora i))).restar tam), m₁), ?_⟩
    rw [eliminar, if_neg (Nat.not_lt.mpr hpath)]
    refine StateT.bind_ok.mpr ⟨_, m, StateT.lift_ok.mpr ⟨_, hbusca, rfl⟩, ?_⟩
    refine StateT.bind_ok.mpr ⟨_, m, StateT.lift_ok.mpr ⟨_, hprimera, rfl⟩, ?_⟩
    simp only [hx, Option.getD_some, hnegado]
    refine StateT.bind_ok.mpr ⟨_, m₁, hvacia, ?_⟩
    exact StateT.bind_ok.mpr ⟨_, m₁, StateT.lift_ok.mpr ⟨_, hlibera, rfl⟩, rfl⟩
  · refine ⟨((-enomem, fs₁), m₁), ?_⟩
    rw [eliminar, if_neg (Nat.not_lt.mpr hpath)]
    refine StateT.bind_ok.mpr ⟨_, m, StateT.lift_ok.mpr ⟨_, hbusca, rfl⟩, ?_⟩
    refine StateT.bind_ok.mpr ⟨_, m, StateT.lift_ok.mpr ⟨_, hprimera, rfl⟩, ?_⟩
    simp only [hx, Option.getD_some, hnegado]
    exact StateT.bind_ok.mpr ⟨_, m₁, hvacia, rfl⟩

section Elimina

variable {s : Sistema} {mapa : Mapa} {p : Ruta}

theorem Ruta.Normal.length_texto (h : p.Normal) : p.texto.length ≤ maximoPath :=
  Nat.le_of_lt h.corto

/-- An `unlink` of a file returns. -/
theorem unlink_returns (hs : s.fs.EnOrden) (hmapa : s.fs.Representa mapa) (hp : p.Normal)
    (h : mapa.EsArchivo p) (ent : Entorno) (respuestas : List Bool) :
    ∃ r, ejecutar max ⟨ent, respuestas, .unlink p.texto⟩ s = .ok r := by
  obtain ⟨b, hb⟩ := h
  rw [← hmapa p] at hb
  obtain rfl | ⟨p, c, rfl⟩ := List.eq_nil_or_concat p
  · cases hb
  rw [List.concat_eq_append] at hb hp ⊢
  obtain ⟨fs₁, u, d, i, x, hx, -, -, hhalla⟩ := halla_of_nodo ent.ahora hs hp hb
  cases x with
  | archivo a =>
    obtain ⟨⟨⟨ret, fs'⟩, m'⟩, hop⟩ : ∃ r, fisopfsUnlink ent (Ruta.texto (p ++ [c])) s.fs
        ⟨respuestas, false⟩ = .ok r := by
      have hlibera : liberarEntrada (.archivo a) = .ok () := by rw [liberarEntrada] <;> exact nofun
      rw [fisopfsUnlink]
      exact eliminar_returns hp.length_texto (hhalla Entrada.esArchivo ocupada_of_esArchivo rfl)
        rfl hlibera _
    exact ⟨⟨ret, m'.agotada, { s with fs := fs' }⟩, Except.bind_ok.mpr ⟨_, hop, rfl⟩⟩
  | _ => cases hx

/-- An `rmdir` of an empty directory returns. -/
theorem rmdir_returns (hs : s.fs.EnOrden) (hmapa : s.fs.Representa mapa) (hp : p.Normal)
    (h : mapa.EsDirectorioVacio p) (ent : Entorno) (respuestas : List Bool) :
    ∃ r, ejecutar max ⟨ent, respuestas, .rmdir p.texto⟩ s = .ok r := by
  obtain ⟨hraiz, hdir, hdebajo⟩ := hmapa.directorioVacio.mp h
  obtain rfl | ⟨p, c, rfl⟩ := List.eq_nil_or_concat p
  · exact absurd rfl hraiz
  rw [List.concat_eq_append] at hdir hdebajo hp ⊢
  obtain ⟨fs₁, u, d, i, x, hx, hfs₁, hu, hhalla⟩ := halla_of_nodo ent.ahora hs hp hdir
  cases x with
  | directorio e =>
    have hsi := hhalla Entrada.esDirectorio ocupada_of_esDirectorio rfl
    obtain ⟨he, hvacio⟩ := hsi.vacio hs hp hdebajo
    obtain ⟨⟨⟨ret, fs'⟩, m'⟩, hop⟩ : ∃ r, fisopfsRmdir ent (Ruta.texto (p ++ [c])) s.fs
        ⟨respuestas, false⟩ = .ok r := by
      have hlibera : liberarEntrada (.directorio e) = .ok () := by
        rw [liberarEntrada]
        exact he.liberarDir hvacio
      rw [fisopfsRmdir]
      exact eliminar_returns hp.length_texto hsi
        (noVacio_eq_none.mpr (he.estaVacio_iff.mpr hvacio)) hlibera _
    exact ⟨⟨ret, m'.agotada, { s with fs := fs' }⟩, Except.bind_ok.mpr ⟨_, hop, rfl⟩⟩
  | _ => cases hx

end Elimina

/-! ## Runs of the kernel -/

/-- Along every run the tree of slots simulates the finite map: the same calls with the same results
lead from the map of the empty file system to one that holds, at every normalised path, what
`encontrar_entrada` finds there, and nothing where it finds nothing. There an `unlink` succeeds
exactly on files, and an `rmdir` exactly on directories other than the root with no path below
them. -/
theorem arbol_simula_mapa (max : UInt64) {s s' : Sistema} {os : List (Orden × ℤ)}
    (hini : s.Inicial) (hrun : Run (PasoOrden max) s os s') :
    ∃ mapa : Mapa, Run PasoMapa Mapa.inicial os mapa ∧
      (∀ p ahora, Ruta.Normal p → ∃ fs o, encontrarEntrada ahora p.texto s'.fs = .ok (fs, o) ∧
        (o = none ↔ p ∉ mapa) ∧
        ∀ u, o = some u → ∃ x, fs.en u = some x ∧ x.nodo [] = mapa.lookup p) ∧
      ∀ p ent respuestas, Ruta.Normal p →
        ((mapa.EsArchivo p → ∃ r, ejecutar max ⟨ent, respuestas, .unlink p.texto⟩ s' = .ok r) ∧
          ∀ r, ejecutar max ⟨ent, respuestas, .unlink p.texto⟩ s' = .ok r → r.agotada = false →
            (r.ret = 0 ↔ mapa.EsArchivo p)) ∧
        ((mapa.EsDirectorioVacio p →
            ∃ r, ejecutar max ⟨ent, respuestas, .rmdir p.texto⟩ s' = .ok r) ∧
          ∀ r, ejecutar max ⟨ent, respuestas, .rmdir p.texto⟩ s' = .ok r → r.agotada = false →
            (r.ret = 0 ↔ mapa.EsDirectorioVacio p)) := by
  obtain ⟨hs, hmapa⟩ := hini.representa
  obtain ⟨hs', mapa, hmapaRun, hmapa'⟩ := Run.simula hs hmapa hrun
  refine ⟨mapa, hmapaRun, fun p ahora hp ↦ ?_, fun p ent respuestas hp ↦ ⟨⟨?_, ?_⟩, ?_, ?_⟩⟩
  · obtain ⟨fs, hfs⟩ := @Fs.encontrarEntrada_texto s'.fs ahora p hs'.sana hp
    have hrec := encontrarEntrada_recorrido hfs
    refine ⟨fs, _, hfs, Fs.ubicar_eq_none.trans hmapa'.notMem.symm, fun u hu ↦ ?_⟩
    have hubica : fs.ubicar p = some u := (hrec.ubicar p).trans hu
    obtain ⟨x, hx, -⟩ := Fs.en_of_ubicar hubica
    have hnodo : x.nodo [] = mapa.lookup p := by
      rw [← Fs.nodo_of_ubicar hubica hx, hrec.nodo, hmapa' p]
    exact ⟨x, hx, hnodo⟩
  · exact fun h ↦ unlink_returns hs' hmapa' hp h ent respuestas
  · intro r hr hservido
    obtain ⟨m', hop, hm'⟩ := Sistema.con_ok hr
    obtain ⟨-, ⟨hret, hno, -⟩ | ⟨hret, ⟨b, hb⟩, -⟩⟩ :=
      fisopfsUnlink_simula hs' hp hop (hm'.trans hservido)
    · exact ⟨fun h ↦ absurd h hret, fun ⟨b, hb⟩ ↦ absurd ((hmapa' p).trans hb) (hno b)⟩
    · exact ⟨fun _ ↦ ⟨b, (hmapa' p).symm.trans hb⟩, fun _ ↦ hret⟩
  · exact fun h ↦ rmdir_returns hs' hmapa' hp h ent respuestas
  · intro r hr hservido
    obtain ⟨m', hop, hm'⟩ := Sistema.con_ok hr
    obtain ⟨-, ⟨hret, hno, -⟩ | ⟨hret, hvacio, -⟩⟩ :=
      fisopfsRmdir_simula hs' hp hop (hm'.trans hservido)
    · exact ⟨fun h ↦ absurd h hret, fun h ↦ absurd (hmapa'.directorioVacio.mp h) hno⟩
    · exact ⟨fun _ ↦ hmapa'.directorioVacio.mpr hvacio, fun _ ↦ hret⟩

/-- The map after one `mkdir`. -/
theorem arbol_simula_mapa_mkdir :
    ∃ s' mapa, Run (PasoOrden 4294967296) (Sistema.nuevo ⟨0, 0, 0, fun _ ↦ 0⟩)
        [(.mkdir [[punto]] 0, 0)] s' ∧
      Run PasoMapa Mapa.inicial [(.mkdir [[punto]] 0, 0)] mapa := by
  have hcorre : ((ejecutar 4294967296 ⟨⟨0, 0, 0, fun _ ↦ 0⟩, [], Orden.llamada (.mkdir [[punto]] 0)⟩
      (Sistema.nuevo ⟨0, 0, 0, fun _ ↦ 0⟩)).toOption.any fun r ↦ r.ret == 0 && !r.agotada) =
        true := by
    decide +kernel
  cases hr : ejecutar 4294967296 ⟨⟨0, 0, 0, fun _ ↦ 0⟩, [], Orden.llamada (.mkdir [[punto]] 0)⟩
      (Sistema.nuevo ⟨0, 0, 0, fun _ ↦ 0⟩) with
  | error f =>
    rw [hr] at hcorre
    cases hcorre
  | ok r =>
    obtain ⟨ret, agotada, s'⟩ := r
    rw [hr] at hcorre
    obtain ⟨rfl, rfl⟩ : ret = 0 ∧ agotada = false := by simpa [Except.toOption] using hcorre
    have hnormal : Ruta.Normal [[punto]] := ⟨by decide, by decide⟩
    have hrun : Run (PasoOrden 4294967296) (Sistema.nuevo ⟨0, 0, 0, fun _ ↦ 0⟩)
        [(.mkdir [[punto]] 0, 0)] s' :=
      .single ⟨⟨hnormal, rfl, rfl⟩, _, _, hr⟩
    obtain ⟨mapa, hmapa, -⟩ :=
      arbol_simula_mapa 4294967296 (Sistema.nuevo_inicial _) hrun
    exact ⟨s', mapa, hrun, hmapa⟩

/-- The root of an empty file system is a directory with no path below it, and `fisopfs_rmdir`
refuses to remove it. -/
theorem rmdir_raiz_vacia :
    ∃ s, s.Inicial ∧ Ruta.Normal [] ∧ s.fs.nodo [] = some .directorio ∧
      (∀ q, q ≠ [] → s.fs.nodo q = none) ∧
      ∃ r, ejecutar 4294967296 (Llamada.rmdir (Ruta.texto [])).simple s = .ok r ∧
        r.agotada = false ∧ r.ret = 2 := by
  refine ⟨Sistema.nuevo ⟨0, 0, 0, fun _ ↦ 0⟩, Sistema.nuevo_inicial _, ⟨nofun, by decide⟩, rfl,
    fun q hq ↦ ?_, ⟨2, false, Sistema.nuevo ⟨0, 0, 0, fun _ ↦ 0⟩⟩, rfl, rfl, rfl⟩
  cases q with
  | nil => exact absurd rfl hq
  | cons c q => rfl

end SistemasOperativos.FisopFs
