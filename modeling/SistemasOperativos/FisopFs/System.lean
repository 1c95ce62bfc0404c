import SistemasOperativos.FisopFs.Image
import SistemasOperativos.Library.Runs

/-!
# Runs of the file system process

The process together with its persistence file, as a machine that takes one call at a time. A
process that ends and is started again is the call `init`: the tree and the counter are read from
whatever the file holds at that moment.
-/

namespace SistemasOperativos.FisopFs

/-- The calls that libfuse makes, with their arguments. -/
inductive Llamada where
  | getattr (path : Cadena)
  | readdir (path : Cadena)
  | read (path : Cadena) (size offset : UInt64)
  | mkdir (path : Cadena) (mode : UInt32)
  | create (path : Cadena) (mode : UInt32)
  | unlink (path : Cadena)
  | rmdir (path : Cadena)
  | truncate (path : Cadena) (size : UInt64)
  | utimens (path : Cadena) (ts : UInt64)
  | write (path : Cadena) (buf : List UInt8) (size offset : UInt64)
  | flush (path : Cadena) (punt : ℕ → UInt64) (abre : Bool) (cupo : Option ℕ)
  | init

/-- One call with what the system around it answers. -/
structure Evento where
  ent : Entorno
  respuestas : List Bool
  llamada : Llamada

/-- The process and its persistence file. -/
structure Sistema where
  fs : Fs
  disco : Option (List UInt8)

/-- What a call leaves behind: its result, whether the heap refused a request, and the system. -/
structure Resultado where
  ret : ℤ
  agotada : Bool
  sistema : Sistema

/-- The result of a handler that leaves the persistence file alone. -/
def Sistema.con (s : Sistema) (op : Op (ℤ × Fs)) (respuestas : List Bool) :
    Except Fallo Resultado := do
  let ((ret, fs), m) ← op ⟨respuestas, false⟩
  return ⟨ret, m.agotada, { s with fs }⟩

/-- A call of the process, with `max` as `MAX_ESPACIO_FS`. -/
def ejecutar (max : UInt64) (e : Evento) (s : Sistema) : Except Fallo Resultado :=
  match e.llamada with
  | .getattr path =>
    s.con ((fun r ↦ (r.1, r.2.2)) <$> fisopfsGetattr e.ent path s.fs) e.respuestas
  | .readdir path =>
    s.con ((fun r ↦ (r.1, r.2.2)) <$> fisopfsReaddir e.ent path s.fs) e.respuestas
  | .read path size offset =>
    s.con ((fun r ↦ (r.1, r.2.2)) <$> fisopfsRead e.ent path size offset s.fs) e.respuestas
  | .mkdir path mode => s.con (fisopfsMkdir max e.ent path mode s.fs) e.respuestas
  | .create path mode => s.con (fisopfsCreate max e.ent path mode s.fs) e.respuestas
  | .unlink path => s.con (fisopfsUnlink e.ent path s.fs) e.respuestas
  | .rmdir path => s.con (fisopfsRmdir e.ent path s.fs) e.respuestas
  | .truncate path size => s.con (fisopfsTruncate max e.ent path size s.fs) e.respuestas
  | .utimens path ts => s.con (fisopfsUtimens e.ent path ts s.fs) e.respuestas
  | .write path buf size offset =>
    s.con (fisopfsWrite max e.ent path buf size offset s.fs) e.respuestas
  | .flush path punt abre cupo => do
    let (ret, disco) ← fisopfsFlush punt abre cupo path s.fs s.disco
    return ⟨ret, false, { s with disco }⟩
  | .init => s.con ((fun fs ↦ (0, fs)) <$> fisopfsInit e.ent s.disco) e.respuestas

/-- One step of the machine: the call returns and leaves the system `s'`. -/
def Paso (max : UInt64) (s : Sistema) (e : Evento) (s' : Sistema) : Prop :=
  ∃ r, ejecutar max e s = .ok r ∧ r.sistema = s'

/-- The system after `crear_directorio_raiz` in a process with no persistence file. -/
def Sistema.Inicial (s : Sistema) : Prop :=
  s.disco = none ∧ ∃ ent m m', crearDirectorioRaiz ent m = .ok (s.fs, m')

theorem barra_cabe : [barra].length ≤ maximoPath := by decide

/-- The system after `crear_directorio_raiz`, where every request to the heap was served. -/
def Sistema.nuevo (ent : Entorno) : Sistema where
  fs := {
    raiz := {
      nombre := ⟨[barra], barra_cabe⟩
      st := { statNuevo ent (sIfdir ||| 0o755) with stUid := 1717 }
      cantidadEntradas := entradasIniciales
      cantidadEntradasOcupadas := 0
      entradas := List.replicate 5 .vacio }
    espacioTotalOcupadoFs := sizeofFisopfsFs + sizeofEntradaDirectorio
    desbordado := false }
  disco := none

theorem Sistema.nuevo_inicial (ent : Entorno) : (Sistema.nuevo ent).Inicial :=
  ⟨rfl, ent, ⟨[], false⟩, ⟨[], false⟩, rfl⟩

/-- A step in which the heap serves every request. -/
def PasoServido (max : UInt64) (s : Sistema) (e : Evento) (s' : Sistema) : Prop :=
  ∃ r, ejecutar max e s = .ok r ∧ r.agotada = false ∧ r.sistema = s'

theorem PasoServido.paso {max : UInt64} {s s' : Sistema} {e : Evento} (h : PasoServido max s e s') :
    Paso max s e s' := by
  obtain ⟨r, hr, -, hs⟩ := h
  exact ⟨r, hr, hs⟩

/-- The system after a list of calls that all return and in which no request is refused. -/
def correr (max : UInt64) : List Evento → Sistema → Option Sistema
  | [], s => some s
  | e :: es, s =>
    match ejecutar max e s with
    | .ok r => if r.agotada then none else correr max es r.sistema
    | .error _ => none

theorem run_correr {max : UInt64} {es : List Evento} {s s' : Sistema}
    (h : correr max es s = some s') : Library.Run (PasoServido max) s es s' := by
  induction es generalizing s with
  | nil =>
    cases h
    exact .nil _
  | cons e es ih =>
    rw [correr] at h
    cases hr : ejecutar max e s with
    | error f =>
      rw [hr] at h
      cases h
    | ok r =>
      simp only [hr] at h
      cases hagotada : r.agotada with
      | true => simp [hagotada] at h
      | false =>
        simp only [hagotada, Bool.false_eq_true, if_false] at h
        exact .cons ⟨r, hr, hagotada, rfl⟩ (ih h)

/-- A call from a process in which nothing fails and the clock stands still. -/
def Llamada.simple (llamada : Llamada) : Evento := ⟨⟨0, 0, 0, fun _ ↦ 0⟩, [], llamada⟩

end SistemasOperativos.FisopFs
