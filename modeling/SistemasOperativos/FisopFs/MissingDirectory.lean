import SistemasOperativos.FisopFs.Reachability

/-!
# Calls whose directory is not there

Five handlers look a directory up and use what they find. They test its type, but not whether the
lookup found anything, so the error they mean to return comes out only where the path leads to a
regular file.
-/

namespace SistemasOperativos.FisopFs

open Library

/-- The calls that look a directory up, with their path and the path of that directory. -/
inductive Llamada.BuscaDirectorio : Llamada → Cadena → Cadena → Prop where
  | readdir (path : Cadena) : BuscaDirectorio (.readdir path) path path
  | mkdir (path : Cadena) (mode : UInt32) :
      BuscaDirectorio (.mkdir path mode) path (obtenerParteDirectorio path)
  | create (path : Cadena) (mode : UInt32) :
      BuscaDirectorio (.create path mode) path (obtenerParteDirectorio path)
  | unlink (path : Cadena) : BuscaDirectorio (.unlink path) path (obtenerParteDirectorio path)
  | rmdir (path : Cadena) : BuscaDirectorio (.rmdir path) path (obtenerParteDirectorio path)

/-- What a call needs before it looks its directory up: the copy of the path fits in its buffer, and
there is space for a new entry. -/
def Llamada.LlegaABuscar (max : UInt64) (fs : Fs) : Llamada → Prop
  | .mkdir path _ => path.length < maximoPath ∧
      ¬ max < fs.espacioTotalOcupadoFs + sizeofEntradaDirectorio
  | .create path _ => path.length < maximoPath ∧
      ¬ max < fs.espacioTotalOcupadoFs + sizeofEntradaArchivo
  | .unlink path => path.length < maximoPath
  | .rmdir path => path.length < maximoPath
  | _ => True

/-- The lookup of a path finds an entry. -/
def Fs.Encuentra (ahora : UInt64) (path : Cadena) (fs : Fs) : Prop :=
  ∃ fs₁ u, encontrarEntrada ahora path fs = .ok (fs₁, some u)

/-- The lookup of a path finds nothing, or a regular file. -/
def Fs.SinDirectorio (ahora : UInt64) (path : Cadena) (fs : Fs) : Prop :=
  ∀ fs₁ u, encontrarEntrada ahora path fs = .ok (fs₁, some u) → ∃ a, fs₁.en u = some (.archivo a)

/-- The call returns `-ENOENT` and changes nothing but access times. -/
def DaNoExiste (max : UInt64) (e : Evento) (s : Sistema) : Prop :=
  ∃ r, ejecutar max e s = .ok r ∧ r.ret = -enoent ∧
    s.fs.Recorrido e.ent.ahora r.sistema.fs ∧ r.sistema.disco = s.disco

section Search

variable {ahora : UInt64} {path : Cadena} {fs : Fs}

theorem obtenerNombreFinalPath_corto (h : path.length < maximoPath) :
    ∃ nombre, obtenerNombreFinalPath path = .ok nombre := by
  unfold obtenerNombreFinalPath
  cases ultimaBarra path with
  | none => exact ⟨path, if_pos h⟩
  | some i =>
    have hcorto : (path.drop (i + 1)).length < maximoPath := by
      rw [List.length_drop]
      omega
    exact ⟨path.drop (i + 1), if_pos hcorto⟩

/-- The opening of the handlers, where the lookup finds no directory. -/
theorem buscarDirectorio_sin (hsin : fs.SinDirectorio ahora (obtenerParteDirectorio path)) :
    (path.length < maximoPath ∧ fs.Encuentra ahora (obtenerParteDirectorio path) ∧
      ∃ fs₁ nombre, buscarDirectorio ahora path fs = .ok (fs₁, nombre, none) ∧
        fs.Recorrido ahora fs₁) ∨
    (¬ (path.length < maximoPath ∧ fs.Encuentra ahora (obtenerParteDirectorio path)) ∧
      ∃ f, buscarDirectorio ahora path fs = .error f) := by
  by_cases hcorto : path.length < maximoPath
  · obtain ⟨nombre, hnombre⟩ := obtenerNombreFinalPath_corto hcorto
    have hdirectorio : obtenerDirectorioPath path = .ok (obtenerParteDirectorio path) := by
      rw [obtenerDirectorioPath, strcpy, if_pos hcorto]
      rfl
    simp only [buscarDirectorio, hdirectorio, hnombre, bind, Except.bind]
    cases hencuentra : encontrarEntrada ahora (obtenerParteDirectorio path) fs with
    | error f =>
      refine .inr ⟨?_, f, rfl⟩
      rintro ⟨-, fs₁, u, hsi⟩
      rw [hencuentra] at hsi
      cases hsi
    | ok r =>
      obtain ⟨fs₁, p⟩ := r
      cases p with
      | none =>
        refine .inr ⟨?_, .punteroNulo, rfl⟩
        rintro ⟨-, fs₂, u, hsi⟩
        rw [hencuentra] at hsi
        cases hsi
      | some u =>
        obtain ⟨a, ha⟩ := hsin fs₁ u hencuentra
        have hapuntada : fs₁.apuntada (some u) = .ok (.archivo a) :=
          Fs.apuntada_ok.mpr ⟨u, rfl, ha⟩
        refine .inl ⟨hcorto, ⟨fs₁, u, hencuentra⟩, fs₁, nombre, ?_,
          encontrarEntrada_recorrido hencuentra⟩
        simp only [hapuntada]
        rfl
  · refine .inr ⟨fun h ↦ hcorto h.1, .desborde, ?_⟩
    rw [buscarDirectorio, obtenerDirectorioPath, strcpy, if_neg hcorto]
    rfl

/-- A handler that goes on from the search returns the error exactly when the path leads to a file
and fits in the buffer that it is copied to. -/
theorem busqueda_iff {K : Fs × Cadena × Option (Ubicacion × EntradaDirectorio) → Op (ℤ × Fs)}
    (hsin : fs.SinDirectorio ahora (obtenerParteDirectorio path))
    (hK : ∀ fs nombre, K (fs, nombre, none) = pure (-enoent, fs)) (m : Memoria) :
    (∃ fs' m', (liftM (buscarDirectorio ahora path fs) >>= K) m = .ok ((-enoent, fs'), m') ∧
      fs.Recorrido ahora fs') ↔
      path.length < maximoPath ∧ fs.Encuentra ahora (obtenerParteDirectorio path) := by
  obtain ⟨hcorto, hsi, fs₁, nombre, hbusca, hrec⟩ | ⟨hno, f, hbusca⟩ := buscarDirectorio_sin hsin
  · rw [StateT.bind_of_ok (StateT.lift_of_ok hbusca), hK]
    exact ⟨fun _ ↦ ⟨hcorto, hsi⟩, fun _ ↦ ⟨fs₁, m, rfl, hrec⟩⟩
  · rw [StateT.bind_of_error (StateT.lift_of_error hbusca)]
    constructor
    · rintro ⟨fs', m', h, -⟩
      cases h
    · exact fun h ↦ absurd h hno

end Search

section Handlers

variable {max : UInt64} {ent : Entorno} {path : Cadena} {fs : Fs}

/-- The operation returns `-ENOENT` and leaves a file system that was only searched. -/
def OpDaNoExiste (ent : Entorno) (fs : Fs) (m : Memoria) (op : Op (ℤ × Fs)) : Prop :=
  ∃ fs' m', op m = .ok ((-enoent, fs'), m') ∧ fs.Recorrido ent.ahora fs'

theorem fisopfsMkdir_sin {mode : UInt32} (hpath : path.length ≤ maximoPath)
    (hsin : fs.SinDirectorio ent.ahora (obtenerParteDirectorio path)) (m : Memoria) :
    OpDaNoExiste ent fs m (fisopfsMkdir max ent path mode fs) ↔
      fs.Encuentra ent.ahora (obtenerParteDirectorio path) ∧
        (Llamada.mkdir path mode).LlegaABuscar max fs := by
  unfold OpDaNoExiste fisopfsMkdir Llamada.LlegaABuscar
  rw [if_neg (Nat.not_lt.mpr hpath)]
  by_cases hespacio : max < fs.espacioTotalOcupadoFs + sizeofEntradaDirectorio
  · rw [if_pos hespacio]
    constructor
    · rintro ⟨fs', m', h, -⟩
      cases h
    · intro h
      exact absurd hespacio h.2.2
  · rw [if_neg hespacio, busqueda_iff hsin (fun _ _ ↦ rfl)]
    exact ⟨fun h ↦ ⟨h.2, h.1, hespacio⟩, fun h ↦ ⟨h.2.1, h.1⟩⟩

theorem fisopfsCreate_sin {mode : UInt32} (hpath : path.length ≤ maximoPath)
    (hsin : fs.SinDirectorio ent.ahora (obtenerParteDirectorio path)) (m : Memoria) :
    OpDaNoExiste ent fs m (fisopfsCreate max ent path mode fs) ↔
      fs.Encuentra ent.ahora (obtenerParteDirectorio path) ∧
        (Llamada.create path mode).LlegaABuscar max fs := by
  unfold OpDaNoExiste fisopfsCreate Llamada.LlegaABuscar
  rw [if_neg (Nat.not_lt.mpr hpath)]
  by_cases hespacio : max < fs.espacioTotalOcupadoFs + sizeofEntradaArchivo
  · rw [if_pos hespacio]
    constructor
    · rintro ⟨fs', m', h, -⟩
      cases h
    · intro h
      exact absurd hespacio h.2.2
  · rw [if_neg hespacio, busqueda_iff hsin (fun _ _ ↦ rfl)]
    exact ⟨fun h ↦ ⟨h.2, h.1, hespacio⟩, fun h ↦ ⟨h.2.1, h.1⟩⟩

theorem eliminar_sin {esDelTipo : Entrada → Bool} {negado : Entrada → Option ℤ} {tam : UInt64}
    (hpath : path.length ≤ maximoPath)
    (hsin : fs.SinDirectorio ent.ahora (obtenerParteDirectorio path)) (m : Memoria) :
    OpDaNoExiste ent fs m (eliminar ent esDelTipo negado tam path fs) ↔
      fs.Encuentra ent.ahora (obtenerParteDirectorio path) ∧ path.length < maximoPath := by
  unfold OpDaNoExiste eliminar
  rw [if_neg (Nat.not_lt.mpr hpath), busqueda_iff hsin (fun _ _ ↦ rfl)]
  exact And.comm

theorem fisopfsReaddir_sin (hpath : path.length ≤ maximoPath)
    (hsin : fs.SinDirectorio ent.ahora path) (m : Memoria) :
    OpDaNoExiste ent fs m ((fun r ↦ (r.1, r.2.2)) <$> fisopfsReaddir ent path fs) ↔
      fs.Encuentra ent.ahora path := by
  unfold OpDaNoExiste
  simp only [StateT.map_ok]
  unfold fisopfsReaddir
  rw [if_neg (Nat.not_lt.mpr hpath)]
  constructor
  · rintro ⟨fs', m', ⟨r, m₁, h, -⟩, -⟩
    simp only [StateT.bind_ok, StateT.lift_ok] at h
    obtain ⟨⟨fs₁, p⟩, m₂, ⟨_, hencuentra, heq⟩, x, m₃, ⟨_, hx, -⟩, -⟩ := h
    cases heq
    obtain ⟨u, rfl, -⟩ := Fs.apuntada_ok.mp hx
    exact ⟨fs₁, u, hencuentra⟩
  · rintro ⟨fs₁, u, hencuentra⟩
    obtain ⟨a, ha⟩ := hsin fs₁ u hencuentra
    have hapuntada : fs₁.apuntada (some u) = .ok (.archivo a) := Fs.apuntada_ok.mpr ⟨u, rfl, ha⟩
    rw [StateT.bind_of_ok (StateT.lift_of_ok hencuentra)]
    dsimp only
    rw [StateT.bind_of_ok (StateT.lift_of_ok hapuntada)]
    exact ⟨fs₁, m, ⟨_, m, rfl, rfl⟩, encontrarEntrada_recorrido hencuentra⟩

/-- The result of a handler, seen in the system. -/
theorem con_daNoExiste {s : Sistema} {op : Op (ℤ × Fs)} {respuestas : List Bool} :
    (∃ r, s.con op respuestas = .ok r ∧ r.ret = -enoent ∧
      s.fs.Recorrido ent.ahora r.sistema.fs ∧ r.sistema.disco = s.disco) ↔
      OpDaNoExiste ent s.fs ⟨respuestas, false⟩ op := by
  constructor
  · rintro ⟨r, h, hret, hrec, -⟩
    obtain ⟨m', hop, -⟩ := Sistema.con_ok h
    rw [hret] at hop
    exact ⟨r.sistema.fs, m', hop, hrec⟩
  · rintro ⟨fs', m', hop, hrec⟩
    refine ⟨⟨-enoent, m'.agotada, { s with fs := fs' }⟩, ?_, rfl, hrec, rfl⟩
    simp only [Sistema.con, hop, bind, Except.bind]
    rfl

end Handlers

/-- A call whose directory is not there, or is a regular file, returns `-ENOENT` and changes nothing
but access times if and only if it is a regular file and the call gets as far as looking it up. -/
theorem directorio_ausente_iff (max : UInt64) (e : Evento) (s : Sistema) {path dir : Cadena}
    (hllamada : e.llamada.BuscaDirectorio path dir) (hpath : path.length ≤ maximoPath)
    (hsin : s.fs.SinDirectorio e.ent.ahora dir) :
    DaNoExiste max e s ↔ s.fs.Encuentra e.ent.ahora dir ∧ e.llamada.LlegaABuscar max s.fs := by
  obtain ⟨ent, respuestas, llamada⟩ := e
  unfold DaNoExiste ejecutar
  cases hllamada with
  | readdir =>
    rw [con_daNoExiste, fisopfsReaddir_sin hpath hsin]
    exact ⟨fun h ↦ ⟨h, trivial⟩, And.left⟩
  | mkdir path mode =>
    rw [con_daNoExiste]
    exact fisopfsMkdir_sin hpath hsin _
  | create path mode =>
    rw [con_daNoExiste]
    exact fisopfsCreate_sin hpath hsin _
  | unlink path =>
    rw [con_daNoExiste]
    exact eliminar_sin hpath hsin _
  | rmdir path =>
    rw [con_daNoExiste]
    exact eliminar_sin hpath hsin _

/-- The entries of a regular file. -/
theorem directorio_ausente_en_archivo :
    ∃ s', correr 10000 [(Llamada.create [barra, punto] 0o100644).simple]
        (Sistema.nuevo ⟨0, 0, 0, fun _ ↦ 0⟩) = some s' ∧
      DaNoExiste 10000 (Llamada.readdir [barra, punto]).simple s' := by
  obtain ⟨s', fs₁, u, a, hs', hencuentra, hu, -⟩ :=
    @archivo_tras [barra, punto] 10000 0 [(Llamada.create [barra, punto] 0o100644).simple]
      (Sistema.nuevo ⟨0, 0, 0, fun _ ↦ 0⟩) (fun _ ↦ true) (by decide +kernel)
  have hsin : s'.fs.SinDirectorio 0 [barra, punto] := by
    intro fs₂ v hv
    rw [hencuentra] at hv
    cases hv
    exact ⟨a, hu⟩
  have hiff := directorio_ausente_iff 10000 (Llamada.readdir [barra, punto]).simple s'
    (.readdir [barra, punto]) (by decide) hsin
  exact ⟨s', hs', hiff.mpr ⟨⟨fs₁, u, hencuentra⟩, trivial⟩⟩

/-- A directory inside one that does not exist: the pointer that the lookup returns is NULL. -/
theorem directorio_ausente_nulo :
    ∃ s fs₁, s.Inicial ∧
      encontrarEntrada 0 [barra, punto] s.fs = .ok (fs₁, none) ∧
      ejecutar 10000 (Llamada.mkdir [barra, punto, barra, punto] 0).simple s =
        .error .punteroNulo ∧
      ¬ DaNoExiste 10000 (Llamada.mkdir [barra, punto, barra, punto] 0).simple s := by
  have hfalla : ejecutar 10000 (Llamada.mkdir [barra, punto, barra, punto] 0).simple
      (Sistema.nuevo ⟨0, 0, 0, fun _ ↦ 0⟩) = .error .punteroNulo := rfl
  refine ⟨Sistema.nuevo ⟨0, 0, 0, fun _ ↦ 0⟩, _, Sistema.nuevo_inicial _, rfl, hfalla, ?_⟩
  rintro ⟨r, hr, -⟩
  rw [hfalla] at hr
  cases hr

end SistemasOperativos.FisopFs
