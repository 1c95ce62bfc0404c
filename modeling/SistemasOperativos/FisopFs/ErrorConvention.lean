import SistemasOperativos.FisopFs.Contents
import SistemasOperativos.FisopFs.PathMap
import SistemasOperativos.FisopFs.PathBuffers

/-!
# Success or an error

What the handlers return. A call that changes the file system performs its operation and returns
success, or it returns a negative error and changes nothing but access times: that is what libfuse
expects. Some handlers return an error without its sign.
-/

namespace SistemasOperativos.FisopFs

open Library

/-- The calls that change files and directories, with their paths. -/
inductive Mutacion where
  | mkdir (p : Ruta) (mode : UInt32)
  | create (p : Ruta) (mode : UInt32)
  | unlink (p : Ruta)
  | rmdir (p : Ruta)
  | truncate (p : Ruta) (size : UInt64)
  | utimens (p : Ruta) (ts : UInt64)
  | write (p : Ruta) (buf : List UInt8) (size offset : UInt64)

namespace Mutacion

def ruta : Mutacion → Ruta
  | .mkdir p _ => p
  | .create p _ => p
  | .unlink p => p
  | .rmdir p => p
  | .truncate p _ => p
  | .utimens p _ => p
  | .write p _ _ _ => p

def llamada : Mutacion → Llamada
  | .mkdir p mode => .mkdir p.texto mode
  | .create p mode => .create p.texto mode
  | .unlink p => .unlink p.texto
  | .rmdir p => .rmdir p.texto
  | .truncate p size => .truncate p.texto size
  | .utimens p ts => .utimens p.texto ts
  | .write p buf size offset => .write p.texto buf size offset

def escribe : Mutacion → Bool
  | .write _ _ _ _ => true
  | _ => false

/-- What libfuse promises about a call: the buffer of a write holds its bytes, whose number fits in
the result, and the offset is not negative. -/
def BienFormada : Mutacion → Prop
  | .write _ buf size offset =>
    size.toNat ≤ buf.length ∧ size.toNat < 2 ^ 31 ∧ offset.toNat < 2 ^ 63
  | _ => True

end Mutacion

/-- The entry with its times of access and modification set. -/
def Entrada.fechada (ts : UInt64) : Entrada → Entrada
  | .archivo a => .archivo { a with st := { a.st with stAtime := ts, stMtime := ts } }
  | .directorio d => .directorio { d with st := { d.st with stAtime := ts, stMtime := ts } }
  | e => e

/-- The operation of a call, with its result and the file system that it leaves. Only access times
have changed in `fs₁`. -/
inductive Realiza (ent : Entorno) (fs : Fs) : Mutacion → ℤ → Fs → Prop where
  | mkdir {p : Ruta} {c : Cadena} {mode : UInt32} {fs₁ : Fs} {u : Ubicacion}
      {d e : EntradaDirectorio} {i : ℕ} : fs.Recorrido ent.ahora fs₁ → fs.ubicar p = some u →
      fs₁.en u = some (.directorio d) → d.entradas[i]? = some .vacio →
      e.nombre.cadena = c → e.st = statNuevo ent (sIfdir ||| mode) →
      (∀ x ∈ e.entradas, x = .vacio) →
      Realiza ent fs (.mkdir (p ++ [c]) mode) 0
        ((fs₁.poner u (.directorio (d.con ent.ahora i (.directorio e)).crecido)).sumar
          sizeofEntradaDirectorio)
  | create {p : Ruta} {c : Cadena} {mode : UInt32} {fs₁ : Fs} {u : Ubicacion}
      {d : EntradaDirectorio} {a : EntradaArchivo} {i : ℕ} : fs.Recorrido ent.ahora fs₁ →
      fs.ubicar p = some u → fs₁.en u = some (.directorio d) → d.entradas[i]? = some .vacio →
      a.nombre.cadena = c → a.st = statNuevo ent mode → a.contenido = [] →
      Realiza ent fs (.create (p ++ [c]) mode) 0
        ((fs₁.poner u (.directorio (d.con ent.ahora i (.archivo a)).crecido)).sumar
          sizeofEntradaArchivo)
  | unlink {p : Ruta} {c : Cadena} {fs₁ : Fs} {u : Ubicacion} {d : EntradaDirectorio}
      {a : EntradaArchivo} {i : ℕ} : fs.Recorrido ent.ahora fs₁ → fs.ubicar p = some u →
      fs₁.en u = some (.directorio d) → d.entradas[i]? = some (.archivo a) →
      a.nombre.cadena = c →
      Realiza ent fs (.unlink (p ++ [c])) 0
        ((fs₁.poner u (.directorio (d.sin ent.ahora i))).restar sizeofEntradaArchivo)
  | rmdir {p : Ruta} {c : Cadena} {fs₁ : Fs} {u : Ubicacion} {d e : EntradaDirectorio} {i : ℕ} :
      fs.Recorrido ent.ahora fs₁ → fs.ubicar p = some u → fs₁.en u = some (.directorio d) →
      d.entradas[i]? = some (.directorio e) → e.nombre.cadena = c →
      (∀ x ∈ e.entradas, x.ocupada = false) →
      Realiza ent fs (.rmdir (p ++ [c])) 0
        ((fs₁.poner u (.directorio (d.sin ent.ahora i))).restar sizeofEntradaDirectorio)
  | truncate {p : Ruta} {size : UInt64} {fs₁ : Fs} {u : Ubicacion} {a a' : EntradaArchivo} :
      fs.Recorrido ent.ahora fs₁ → fs.ubicar p = some u → fs₁.en u = some (.archivo a) →
      a'.nombre = a.nombre → a'.st = { a.st.tocar ent.ahora with stSize := size } →
      BytesTruncados size a.bytes a'.bytes →
      Realiza ent fs (.truncate p size) 0
        ((fs₁.recontar a.st.stSize size).poner u (.archivo a'))
  | utimens {p : Ruta} {ts : UInt64} {fs₁ : Fs} {u : Ubicacion} {x : Entrada} :
      fs.Recorrido ent.ahora fs₁ → fs.ubicar p = some u → fs₁.en u = some x →
      Realiza ent fs (.utimens p ts) 0 (fs₁.poner u (x.fechada ts))
  | write {p : Ruta} {buf : List UInt8} {size offset : UInt64} {fs₁ : Fs} {u : Ubicacion}
      {a a' : EntradaArchivo} : fs.Recorrido ent.ahora fs₁ → fs.ubicar p = some u →
      fs₁.en u = some (.archivo a) → a'.nombre = a.nombre →
      a'.st = { a.st.tocar ent.ahora with stSize := a'.st.stSize } →
      BytesEscritos buf size offset a.bytes a'.bytes →
      Realiza ent fs (.write p buf size offset) size.toNat
        ((if a.st.stSize < offset + size then fs₁.recontar a.st.stSize (offset + size)
          else fs₁).poner u (.archivo a'))

/-- The call returns, and it has performed its operation, or it has a negative result and only access
times have changed. -/
def Cumple (max : UInt64) (ent : Entorno) (respuestas : List Bool) (c : Mutacion) (s : Sistema) :
    Prop :=
  ∃ r, ejecutar max ⟨ent, respuestas, c.llamada⟩ s = .ok r ∧ r.sistema.disco = s.disco ∧
    (Realiza ent s.fs c r.ret r.sistema.fs ∨
      r.ret < 0 ∧ s.fs.Recorrido ent.ahora r.sistema.fs)

/-- The parent of a path has an entry of some type with its final name. -/
def Fs.Contiene (fs : Fs) (esDelTipo : Entrada → Bool) (p : Ruta) : Prop :=
  ∃ u d x, fs.ubicar p.dropLast = some u ∧ fs.en u = some (.directorio d) ∧ x ∈ d.entradas ∧
    esDelTipo x = true ∧ p.getLast? = some x.nombre

/-- The calls that keep to the convention, among those whose path the handler does not refuse for its
length. -/
def Mutacion.Atendida (max : UInt64) (fs : Fs) : Mutacion → Prop
  | .mkdir p _ => max < fs.espacioTotalOcupadoFs + sizeofEntradaDirectorio ∨
      p.texto.length < maximoPath
  | .create p mode => max < fs.espacioTotalOcupadoFs + sizeofEntradaArchivo ∨
      p.texto.length < maximoPath ∧ sIsreg mode = true
  | .unlink p => p.texto.length < maximoPath ∧ fs.Contiene Entrada.esArchivo p
  | .rmdir p => p.texto.length < maximoPath ∧ fs.Contiene Entrada.esDirectorio p
  | .utimens p _ => fs.nodo p ≠ none
  | _ => True

/-! ## Creation returns -/

section Returns

variable {d : EntradaDirectorio} {m : Memoria}

theorem crearEntradaVacia_returns (m : Memoria) :
    (∃ m', crearEntradaVacia m = .ok (.vacio, m')) ∨
      ∃ m', crearEntradaVacia m = .ok (.nula, m') := by
  obtain ⟨r, m', hpedir⟩ := pedir_returns sizeofEntrada m
  cases r with
  | true => exact .inl ⟨m', StateT.bind_ok.mpr ⟨true, m', hpedir, rfl⟩⟩
  | false => exact .inr ⟨m', StateT.bind_ok.mpr ⟨false, m', hpedir, rfl⟩⟩

theorem llenarDesde_returns {n j : ℕ} {entradas : List Entrada} (h : j + n ≤ entradas.length)
    (m : Memoria) : ∃ r, llenarDesde entradas j n m = .ok r := by
  induction n generalizing j entradas m with
  | zero => exact ⟨_, rfl⟩
  | succ n ih =>
    have hj : ¬ entradas.length ≤ j := by omega
    obtain ⟨m', hvacia⟩ | ⟨m', hvacia⟩ := crearEntradaVacia_returns m
    · obtain ⟨r, hr⟩ := @ih (j + 1) (entradas.set j .vacio) (by rw [List.length_set]; omega) m'
      refine ⟨r, ?_⟩
      rw [llenarDesde, StateT.bind_of_ok hvacia, if_neg hj]
      exact hr
    · refine ⟨((-enomem, entradas.set j .nula), m'), ?_⟩
      rw [llenarDesde, StateT.bind_of_ok hvacia, if_neg hj]
      rfl

theorem reservarEntradas_returns (entradas : List Entrada) (cantidad : UInt64) (m : Memoria) :
    ∃ r, reservarEntradas entradas cantidad m = .ok r := by
  obtain ⟨r, m', hpedir⟩ := pedir_returns (cantidad * sizeofPuntero) m
  rw [reservarEntradas, StateT.bind_of_ok hpedir]
  cases r with
  | true => exact ⟨_, rfl⟩
  | false => exact ⟨_, rfl⟩

/-- The vector of a directory in order grows without an access outside it. -/
theorem EntradaDirectorioDe.Ordenado.expandir_returns (h : d.Ordenado) (m : Memoria) :
    ∃ r, expandirEntrdasDir d m = .ok r := by
  unfold expandirEntrdasDir
  by_cases hlleno : d.cantidadEntradas = d.cantidadEntradasOcupadas
  · have hpar : (if d.cantidadEntradas = 0 then ([], entradasIniciales)
        else (d.entradas, d.cantidadEntradas * multiplicadorEntradas)) =
        (d.previas, d.ampliada) := by
      unfold EntradaDirectorioDe.previas EntradaDirectorioDe.ampliada
      split <;> rfl
    rw [if_pos hlleno]
    simp only [hpar]
    obtain ⟨⟨⟨reservado, base⟩, m₁⟩, hreservar⟩ := reservarEntradas_returns d.previas d.ampliada m
    rw [StateT.bind_of_ok hreservar]
    cases reservado with
    | false => exact ⟨_, rfl⟩
    | true =>
      obtain ⟨-, -, hbase⟩ | ⟨hno, -⟩ := reservarEntradas_ok hreservar
      · rw [toNat_ampliada_mul h, Nat.mul_div_cancel _ (by decide)] at hbase
        have hlargo : base.length = d.ampliada.toNat := by
          rw [hbase, List.length_take, List.length_append, List.length_replicate]
          exact Nat.min_eq_left (Nat.le_add_left _ _)
        have hocupadas : d.cantidadEntradasOcupadas.toNat ≤ d.ampliada.toNat := by
          rw [← hlleno, toNat_ampliada h]
          split
          · next hcero => rw [hcero]; decide
          · omega
        obtain ⟨⟨⟨r, entradas⟩, m₂⟩, hllenar⟩ := @llenarDesde_returns
          (d.ampliada.toNat - d.cantidadEntradasOcupadas.toNat)
          d.cantidadEntradasOcupadas.toNat base (by omega) m₁
        refine ⟨((r, { d with cantidadEntradas := d.ampliada, entradas }), m₂), ?_⟩
        exact StateT.bind_ok.mpr ⟨_, _, hllenar, rfl⟩
      · cases hno
  · rw [if_neg hlleno]
    exact ⟨_, rfl⟩

/-- A new entry goes into the first free slot of a directory in order. -/
theorem EntradaDirectorioDe.Sano.colocar_returns (h : d.Sano) (ahora : UInt64) {nueva : Entrada}
    (hnueva : nueva.ocupada = true) (m : Memoria) :
    ∃ r, colocarEntradaDentroDeDirectorio ahora d nueva m = .ok r := by
  obtain ⟨i, hprimera⟩ := h.primera_vacio
  obtain ⟨-, ⟨x, hx, -, hvacio⟩, -⟩ := primera_some hprimera
  obtain rfl : x = .vacio := by cases x <;> first | rfl | cases hvacio
  have hcon : (d.con ahora i nueva).Ordenado := h.con hx hnueva
  obtain ⟨⟨⟨r, d'⟩, m'⟩, hexpandir⟩ := hcon.expandir_returns m
  rw [colocarEntradaDentroDeDirectorio, StateT.bind_of_ok (StateT.lift_of_ok hprimera)]
  exact ⟨_, StateT.bind_ok.mpr ⟨_, _, hexpandir, rfl⟩⟩

/-- The entry is in its slot, or the heap has refused a request. -/
theorem EntradaDirectorioDe.Sano.colocarNueva_served (h : d.Sano) {ent : Entorno} {nueva : Entrada}
    (hnueva : nueva.ocupada = true) (fs : Fs) (u : Ubicacion) (tam : UInt64) (m : Memoria) :
    ∃ r, colocarNueva ent fs u d nueva tam m = .ok r ∧
      (r.2.agotada = true ∨ ∃ i, d.entradas[i]? = some .vacio ∧
        r.1 = (0, (fs.poner u (.directorio (d.con ent.ahora i nueva).crecido)).sumar tam)) := by
  obtain ⟨⟨⟨r, d', o⟩, m'⟩, hcolocar⟩ := h.colocar_returns ent.ahora hnueva m
  obtain ⟨i, hi, rfl, ⟨rfl, rfl, -⟩ | ⟨rfl, hagotada, -⟩⟩ := h.colocar hnueva hcolocar
  · refine ⟨((0, (fs.poner u (.directorio (d.con ent.ahora i nueva).crecido)).sumar tam), m'), ?_,
      .inr ⟨i, hi, rfl⟩⟩
    rw [colocarNueva, StateT.bind_of_ok hcolocar]
    rfl
  · refine ⟨((-enomem, fs.poner u (.directorio (d'.colgado (some i)))), m'), ?_, .inl hagotada⟩
    rw [colocarNueva, StateT.bind_of_ok hcolocar]
    rfl

theorem ordenado_nuevo (nombre : Nombre) (st : Stat) :
    EntradaDirectorioDe.Ordenado ⟨nombre, st, 0, 0, []⟩ where
  largo := rfl
  asignadas e he := by cases he
  cuenta := rfl
  capacidad := .inl rfl
  cabe := Nat.two_pow_pos 60

end Returns

/-! ## The handlers -/

section Handlers

variable {max : UInt64} {ent : Entorno} {fs fs₁ : Fs} {p : Ruta} {c : Cadena} {u : Ubicacion}
  {d : EntradaDirectorio} {m : Memoria}

theorem crearDir_served {nombre : Cadena} {mode : UInt32} (hnombre : nombre.length < maximoPath)
    (m : Memoria) :
    (∃ r m', r < 0 ∧ m'.agotada = true ∧ crearDir ent true nombre mode m = .ok (.error r, m')) ∨
    ∃ e m', e.nombre.cadena = nombre ∧ e.st = statNuevo ent mode ∧ (∀ x ∈ e.entradas, x = .vacio) ∧
      crearDir ent true nombre mode m = .ok (.ok e, m') := by
  have hnuevo := ordenado_nuevo ⟨nombre, Nat.le_of_lt hnombre⟩ (statNuevo ent mode)
  obtain ⟨⟨⟨r, e⟩, m'⟩, hexpandir⟩ := hnuevo.expandir_returns m
  have hcrear : crearDir ent true nombre mode m =
      (if r ≠ 0 then pure (.error r) else pure (.ok e) : Op (Except ℤ EntradaDirectorio)) m' := by
    rw [crearDir, if_neg (by decide), dif_pos hnombre]
    exact StateT.bind_of_ok hexpandir
  obtain ⟨rfl, -⟩ | ⟨rfl, hagotada, -⟩ := hnuevo.expandir hexpandir
  · obtain ⟨-, rfl⟩ := expandir_nuevo hexpandir
    refine .inr ⟨_, m', rfl, rfl, fun x hx ↦ ?_, hcrear⟩
    exact List.eq_of_mem_replicate hx
  · exact .inl ⟨-enomem, m', by decide, hagotada, hcrear⟩

/-- What `fisopfs_mkdir` does in a directory. -/
theorem fisopfsMkdir_served {mode : UInt32} (hpath : (p ++ [c]).texto.length ≤ maximoPath)
    (hcabe : ¬ max < fs.espacioTotalOcupadoFs + sizeofEntradaDirectorio)
    (hc : c.length < maximoPath)
    (hbusca : buscarDirectorio ent.ahora (p ++ [c]).texto fs = .ok (fs₁, c, some (u, d)))
    (hrec : fs.Recorrido ent.ahora fs₁) (hu : fs.ubicar p = some u)
    (hd : fs₁.en u = some (.directorio d)) (hsano : d.Sano) (m : Memoria) :
    ∃ r, fisopfsMkdir max ent (p ++ [c]).texto mode fs m = .ok r ∧
      (r.2.agotada = true ∨ Realiza ent fs (.mkdir (p ++ [c]) mode) r.1.1 r.1.2) := by
  rw [fisopfsMkdir, if_neg (Nat.not_lt.mpr hpath), if_neg hcabe,
    StateT.bind_of_ok (StateT.lift_of_ok hbusca)]
  obtain ⟨reservado, m₁, hpedir⟩ := pedir_returns sizeofEntradaDirectorio m
  dsimp only
  rw [StateT.bind_of_ok hpedir]
  cases reservado with
  | false =>
    obtain ⟨hno, -⟩ | ⟨-, hagotada⟩ := pedir_ok hpedir
    · cases hno
    · exact ⟨_, rfl, .inl hagotada⟩
  | true =>
    obtain ⟨r, m₂, -, hagotada, hcrear⟩ | ⟨e, m₂, hnombre, hst, hvacias, hcrear⟩ :=
      @crearDir_served ent c (sIfdir ||| mode) hc m₁
    · refine ⟨((r, fs₁), m₂), ?_, .inl hagotada⟩
      exact StateT.bind_of_ok hcrear
    · rw [StateT.bind_of_ok hcrear]
      obtain ⟨r, hcolocar, hagotada | ⟨i, hi, hr⟩⟩ :=
        @EntradaDirectorioDe.Sano.colocarNueva_served _ hsano ent (.directorio e) rfl fs₁ u
          sizeofEntradaDirectorio m₂
      · exact ⟨r, hcolocar, .inl hagotada⟩
      · refine ⟨r, hcolocar, .inr ?_⟩
        rw [hr]
        exact .mkdir hrec hu hd hi hnombre hst hvacias

/-- What `fisopfs_create` does with a regular file in a directory. -/
theorem fisopfsCreate_served {mode : UInt32} (hpath : (p ++ [c]).texto.length ≤ maximoPath)
    (hcabe : ¬ max < fs.espacioTotalOcupadoFs + sizeofEntradaArchivo)
    (hc : c.length < maximoPath) (hmode : sIsreg mode = true)
    (hbusca : buscarDirectorio ent.ahora (p ++ [c]).texto fs = .ok (fs₁, c, some (u, d)))
    (hrec : fs.Recorrido ent.ahora fs₁) (hu : fs.ubicar p = some u)
    (hd : fs₁.en u = some (.directorio d)) (hsano : d.Sano) (m : Memoria) :
    ∃ r, fisopfsCreate max ent (p ++ [c]).texto mode fs m = .ok r ∧
      (r.2.agotada = true ∨ Realiza ent fs (.create (p ++ [c]) mode) r.1.1 r.1.2) := by
  rw [fisopfsCreate, if_neg (Nat.not_lt.mpr hpath), if_neg hcabe,
    StateT.bind_of_ok (StateT.lift_of_ok hbusca)]
  obtain ⟨reservado, m₁, hpedir⟩ := pedir_returns sizeofEntradaArchivo m
  dsimp only
  rw [if_pos hmode, StateT.bind_of_ok hpedir]
  cases reservado with
  | false =>
    obtain ⟨hno, -⟩ | ⟨-, hagotada⟩ := pedir_ok hpedir
    · cases hno
    · exact ⟨_, rfl, .inl hagotada⟩
  | true =>
    have hcrear : crearArchivo ent c mode =
        .ok ⟨⟨c, Nat.le_of_lt hc⟩, statNuevo ent mode, []⟩ := dif_pos hc
    simp only [Bool.not_true, Bool.false_eq_true, if_false, hcrear]
    obtain ⟨r, hcolocar, hagotada | ⟨i, hi, hr⟩⟩ :=
      @EntradaDirectorioDe.Sano.colocarNueva_served _ hsano ent
        (.archivo ⟨⟨c, Nat.le_of_lt hc⟩, statNuevo ent mode, []⟩) rfl fs₁ u
        sizeofEntradaArchivo m₁
    · exact ⟨r, hcolocar, .inl hagotada⟩
    · refine ⟨r, hcolocar, .inr ?_⟩
      rw [hr]
      exact .create hrec hu hd hi rfl rfl rfl

/-- What a removal does in a directory. -/
theorem eliminar_served {esDelTipo : Entrada → Bool} {negado : Entrada → Option ℤ} {tam : UInt64}
    {path : Cadena} (hpath : path.length ≤ maximoPath)
    (hbusca : buscarDirectorio ent.ahora path fs = .ok (fs₁, c, some (u, d))) (hsano : d.Sano)
    (hlibera : ∀ x ∈ d.entradas, esDelTipo x = true → negado x = none → liberarEntrada x = .ok ())
    (m : Memoria) :
    ((∀ x ∈ d.entradas, (esDelTipo x && x.nombre == c) = false) ∧
      eliminar ent esDelTipo negado tam path fs m = .ok ((enoent, fs₁), m)) ∨
    ∃ i x, d.entradas[i]? = some x ∧ esDelTipo x = true ∧ x.nombre = c ∧
      ((∃ r, negado x = some r ∧ eliminar ent esDelTipo negado tam path fs m = .ok ((r, fs₁), m)) ∨
        negado x = none ∧ ∃ r, eliminar ent esDelTipo negado tam path fs m = .ok r ∧
          (r.2.agotada = true ∨
            r.1 = (0, (fs₁.poner u (.directorio (d.sin ent.ahora i))).restar tam))) := by
  have hprimera := @primera_eq_findIdx? (fun e ↦ esDelTipo e && e.nombre == c) d.entradas
    hsano.asignadas
  rw [hsano.largo] at hprimera
  rw [eliminar, if_neg (Nat.not_lt.mpr hpath), StateT.bind_of_ok (StateT.lift_of_ok hbusca)]
  dsimp only
  rw [StateT.bind_of_ok (StateT.lift_of_ok hprimera)]
  cases hfind : d.entradas.findIdx? fun e ↦ esDelTipo e && e.nombre == c with
  | none => exact .inl ⟨List.findIdx?_eq_none_iff.mp hfind, rfl⟩
  | some i =>
    obtain ⟨hi, hp, -⟩ := List.findIdx?_eq_some_iff_getElem.mp hfind
    obtain ⟨htipo, hnombre⟩ := Bool.and_eq_true_iff.mp hp
    have hx : d.entradas[i]? = some d.entradas[i] := List.getElem?_eq_getElem hi
    refine .inr ⟨i, d.entradas[i], hx, htipo, eq_of_beq hnombre, ?_⟩
    simp only [hx, Option.getD_some]
    cases hnegado : negado d.entradas[i] with
    | some r => exact .inl ⟨r, rfl, rfl⟩
    | none =>
      refine .inr ⟨rfl, ?_⟩
      dsimp only
      obtain ⟨m', hvacia⟩ | ⟨m', hvacia⟩ := crearEntradaVacia_returns m
      · refine ⟨((0, (fs₁.poner u (.directorio (d.sin ent.ahora i))).restar tam), m'), ?_,
          .inr rfl⟩
        rw [StateT.bind_of_ok hvacia]
        exact StateT.bind_of_ok (StateT.lift_of_ok (hlibera _ (List.getElem_mem hi) htipo hnegado))
      · obtain hno | ⟨-, hagotada⟩ := crearEntradaVacia_ok hvacia
        · cases hno
        · refine ⟨((-enomem, fs₁), m'), ?_, .inl hagotada⟩
          exact StateT.bind_of_ok hvacia

/-- Searching for the parent does not change what it contains. -/
theorem Fs.Recorrido.contiene_iff {esDelTipo : Entrada → Bool} (hrec : fs.Recorrido ent.ahora fs₁)
    (hu : fs.ubicar p = some u) (hd : fs₁.en u = some (.directorio d))
    (htipo : ∀ x y : Entrada, x.tipo = y.tipo → esDelTipo x = esDelTipo y) :
    fs.Contiene esDelTipo (p ++ [c]) ↔
      ∃ x ∈ d.entradas, (esDelTipo x && x.nombre == c) = true := by
  have hset : ∀ (d : EntradaDirectorio) (i : ℕ) (x y : Entrada), d.entradas[i]? = some x →
      x.Semejante y → (d.entradas.set i y).findIdx? (fun e ↦ esDelTipo e && e.nombre == c) =
        d.entradas.findIdx? fun e ↦ esDelTipo e && e.nombre == c := by
    intro d i x y hx hs
    refine findIdx?_set hx ?_
    rw [htipo x y hs.1, hs.2]
  obtain ⟨e, he, hbusca⟩ := hrec.en_directorio
    (fun d ↦ d.entradas.findIdx? fun e ↦ esDelTipo e && e.nombre == c) (fun _ _ ↦ rfl) hset hd
  have hexiste : ∀ l : List Entrada, (∃ x ∈ l, (esDelTipo x && x.nombre == c) = true) ↔
      l.findIdx? (fun e ↦ esDelTipo e && e.nombre == c) ≠ none := by
    intro l
    rw [ne_eq, List.findIdx?_eq_none_iff]
    simp only [not_forall, exists_prop, Bool.not_eq_false]
  rw [hexiste, hbusca, ← hexiste]
  constructor
  · rintro ⟨v, d', x, hv, hd', hx, hxTipo, hultimo⟩
    rw [List.dropLast_concat] at hv
    rw [List.getLast?_concat] at hultimo
    obtain rfl : v = u := Option.some.inj (hv.symm.trans hu)
    rw [he] at hd'
    cases hd'
    refine ⟨x, hx, ?_⟩
    rw [hxTipo, Option.some.inj hultimo, beq_self_eq_true]
    rfl
  · rintro ⟨x, hx, hp⟩
    obtain ⟨hxTipo, hnombre⟩ := Bool.and_eq_true_iff.mp hp
    refine ⟨u, e, x, ?_, he, hx, hxTipo, ?_⟩
    · rw [List.dropLast_concat]
      exact hu
    · rw [List.getLast?_concat, eq_of_beq hnombre]

/-- Looking a path up for a file. -/
theorem buscarArchivo_texto (hfs : fs.Cada Entrada.Sana) (hp : p.Breve) (ahora : UInt64) :
    ∃ fs₁ buscado, buscarArchivo ahora p.texto fs = .ok (fs₁, buscado) ∧ fs.Recorrido ahora fs₁ ∧
      ((∃ r, buscado = .error r ∧ r < 0) ∨ ∃ u a, buscado = .ok (u, a) ∧ fs.ubicar p = some u ∧
        fs₁.en u = some (.archivo a) ∧ a.Sano) := by
  obtain ⟨fs₁, hencuentra⟩ := @Fs.encontrarEntrada_breve fs ahora p hfs hp
  have hrec := encontrarEntrada_recorrido hencuentra
  cases hu : fs.ubicar p with
  | none =>
    refine ⟨fs₁, .error (-enoent), ?_, hrec, .inl ⟨-enoent, rfl, by decide⟩⟩
    rw [buscarArchivo, hencuentra, hu]
    rfl
  | some u =>
    obtain ⟨x, hx, hocupada⟩ := Fs.en_of_ubicar ((hrec.ubicar p).trans hu)
    have hapuntada : fs₁.apuntada (some u) = .ok x := Fs.apuntada_ok.mpr ⟨u, rfl, hx⟩
    cases x with
    | directorio d =>
      refine ⟨fs₁, .error (-eisdir), ?_, hrec, .inl ⟨-eisdir, rfl, by decide⟩⟩
      rw [buscarArchivo, hencuentra, hu]
      simp only [bind, Except.bind, hapuntada]
      rfl
    | archivo a =>
      have hsana := hrec.cada Entrada.Coherente.superficial Entrada.Coherente.intemporal hfs
      refine ⟨fs₁, .ok (u, a), ?_, hrec, .inr ⟨u, a, rfl, rfl, hx, hsana u _ hx⟩⟩
      rw [buscarArchivo, hencuentra, hu]
      simp only [bind, Except.bind, hapuntada]
      rfl
    | _ => cases hocupada

theorem reallocContenido_returns (ent : Entorno) (contenido : List UInt8) (n : UInt64)
    (m : Memoria) :
    (∃ m', reallocContenido ent contenido n m = .ok (none, m') ∧ m'.agotada = true) ∨
      ∃ m', reallocContenido ent contenido n m =
        .ok (some ((List.range n.toNat).map fun i ↦ contenido[i]?.getD (ent.basura i)), m') := by
  obtain ⟨reservado, m', hpedir⟩ := pedir_returns n m
  cases reservado with
  | false =>
    obtain ⟨hno, -⟩ | ⟨-, hagotada⟩ := pedir_ok hpedir
    · cases hno
    · exact .inl ⟨m', StateT.bind_ok.mpr ⟨false, m', hpedir, rfl⟩, hagotada⟩
  | true => exact .inr ⟨m', StateT.bind_ok.mpr ⟨true, m', hpedir, rfl⟩⟩

/-- `fisopfs_truncate` keeps to the convention. -/
theorem fisopfsTruncate_served {size : UInt64} (hfs : fs.Cada Entrada.Sana) (hp : p.Breve)
    (hpath : p.texto.length ≤ maximoPath) (m : Memoria) :
    ∃ r, fisopfsTruncate max ent p.texto size fs m = .ok r ∧ (r.2.agotada = true ∨
      Realiza ent fs (.truncate p size) r.1.1 r.1.2 ∨ r.1.1 < 0 ∧ fs.Recorrido ent.ahora r.1.2) := by
  obtain ⟨fs₁, buscado, hbusca, hrec, ⟨r, rfl, hr⟩ | ⟨u, a, rfl, hu, ha, hsano⟩⟩ :=
    buscarArchivo_texto hfs hp ent.ahora
  · refine ⟨((r, fs₁), m), ?_, .inr (.inr ⟨hr, hrec⟩)⟩
    rw [fisopfsTruncate, if_neg (Nat.not_lt.mpr hpath),
      StateT.bind_of_ok (StateT.lift_of_ok hbusca)]
    rfl
  rw [fisopfsTruncate, if_neg (Nat.not_lt.mpr hpath), StateT.bind_of_ok (StateT.lift_of_ok hbusca)]
  dsimp only
  by_cases hcero : size = 0
  · refine ⟨((0, ponerTamano ent fs₁ u a a.contenido size), m), ?_, .inr (.inl ?_)⟩
    · rw [if_neg (not_not_intro hcero)]
      rfl
    · exact .truncate hrec hu ha rfl rfl
        (@EntradaArchivo.Sano.truncado ent a _ size hsano rfl (.inl hcero))
  · rw [if_pos hcero]
    by_cases hlleno : max < fs₁.espacioTotalOcupadoFs + size - a.st.stSize
    · refine ⟨((-enospc, fs₁), m), ?_, .inr (.inr ⟨(by decide : (-enospc : ℤ) < 0), hrec⟩)⟩
      rw [if_pos hlleno]
      rfl
    · rw [if_neg hlleno]
      obtain ⟨m₁, hrealloc, hagotada⟩ | ⟨m₁, hrealloc⟩ :=
        reallocContenido_returns ent a.contenido size m
      · refine ⟨((-enomem, fs₁), m₁), ?_, .inl hagotada⟩
        exact StateT.bind_of_ok hrealloc
      · refine ⟨((0, ponerTamano ent fs₁ u a
          ((List.range size.toNat).map fun i ↦ a.contenido[i]?.getD (ent.basura i)) size), m₁),
          ?_, .inr (.inl ?_)⟩
        · exact StateT.bind_of_ok hrealloc
        · exact .truncate hrec hu ha rfl rfl
            (@EntradaArchivo.Sano.truncado ent a _ size hsano rfl (.inr rfl))

/-- `fisopfs_utimens` on an entry, and on a path without one. -/
theorem fisopfsUtimens_served {ts : UInt64} (hfs : fs.Cada Entrada.Sana) (hp : p.Breve)
    (hpath : p.texto.length ≤ maximoPath) (m : Memoria) :
    (fs.nodo p = none ∧ ∃ fs₁, fisopfsUtimens ent p.texto ts fs m = .ok ((enoent, fs₁), m)) ∨
    ∃ fs', fisopfsUtimens ent p.texto ts fs m = .ok ((0, fs'), m) ∧ fs.nodo p ≠ none ∧
      Realiza ent fs (.utimens p ts) 0 fs' := by
  obtain ⟨fs₁, hencuentra⟩ := @Fs.encontrarEntrada_breve fs ent.ahora p hfs hp
  have hrec := encontrarEntrada_recorrido hencuentra
  rw [fisopfsUtimens, if_neg (Nat.not_lt.mpr hpath),
    StateT.bind_of_ok (StateT.lift_of_ok hencuentra)]
  cases hu : fs.ubicar p with
  | none => exact .inl ⟨Fs.ubicar_eq_none.mp hu, fs₁, rfl⟩
  | some u =>
    obtain ⟨x, hx, hocupada⟩ := Fs.en_of_ubicar ((hrec.ubicar p).trans hu)
    have hapuntada : fs₁.apuntada (some u) = .ok x := Fs.apuntada_ok.mpr ⟨u, rfl, hx⟩
    have hrealiza : Realiza ent fs (.utimens p ts) 0 (fs₁.poner u (x.fechada ts)) :=
      .utimens hrec hu hx
    have hnodo : fs.nodo p ≠ none := by
      intro hnone
      rw [Fs.ubicar_eq_none.mpr hnone] at hu
      cases hu
    refine .inr ⟨fs₁.poner u (x.fechada ts), ?_, hnodo, hrealiza⟩
    dsimp only
    rw [StateT.bind_of_ok (StateT.lift_of_ok hapuntada)]
    cases x with
    | archivo a => rfl
    | directorio d => rfl
    | _ => cases hocupada

/-- `fisopfs_write` keeps to the convention. -/
theorem fisopfsWrite_served {buf : List UInt8} {size offset : UInt64}
    (hfs : fs.Cada Entrada.Sana) (hp : p.Breve) (hpath : p.texto.length ≤ maximoPath)
    (hbien : (Mutacion.write p buf size offset).BienFormada) (m : Memoria) :
    ∃ r, fisopfsWrite max ent p.texto buf size offset fs m = .ok r ∧ (r.2.agotada = true ∨
      Realiza ent fs (.write p buf size offset) r.1.1 r.1.2 ∨
      r.1.1 < 0 ∧ fs.Recorrido ent.ahora r.1.2) := by
  obtain ⟨hbuf, hsize, hoffset⟩ := hbien
  have hsuma : (offset + size).toNat = offset.toNat + size.toNat := by
    rw [UInt64.toNat_add]
    omega
  obtain ⟨fs₁, buscado, hbusca, hrec, ⟨r, rfl, hr⟩ | ⟨u, a, rfl, hu, ha, hsano⟩⟩ :=
    buscarArchivo_texto hfs hp ent.ahora
  · refine ⟨((r, fs₁), m), ?_, .inr (.inr ⟨hr, hrec⟩)⟩
    rw [fisopfsWrite, if_neg (Nat.not_lt.mpr hpath), StateT.bind_of_ok (StateT.lift_of_ok hbusca)]
    rfl
  rw [fisopfsWrite, if_neg (Nat.not_lt.mpr hpath), StateT.bind_of_ok (StateT.lift_of_ok hbusca)]
  dsimp only
  by_cases hcrece : a.st.stSize < offset + size
  · rw [if_pos hcrece]
    by_cases hlleno : max < fs₁.espacioTotalOcupadoFs + size + offset - a.st.stSize
    · refine ⟨((-enospc, fs₁), m), ?_, .inr (.inr ⟨(by decide : (-enospc : ℤ) < 0), hrec⟩)⟩
      rw [if_pos hlleno]
      rfl
    rw [if_neg hlleno]
    obtain ⟨m₁, hrealloc, hagotada⟩ | ⟨m₁, hrealloc⟩ :=
      reallocContenido_returns ent a.contenido (size + offset) m
    · refine ⟨((-eio, fs₁), m₁), ?_, .inl hagotada⟩
      exact StateT.bind_of_ok hrealloc
    have hampliado : (List.range (size + offset).toNat).map
        (fun i ↦ a.contenido[i]?.getD (ent.basura i)) = ampliado ent a size offset :=
      (if_pos hcrece).symm
    have hlargo : (ampliado ent a size offset).length = offset.toNat + size.toNat := by
      rw [← hampliado, List.length_map, List.length_range, UInt64.add_comm, hsuma]
    obtain ⟨contenido, hcopia⟩ : ∃ contenido,
        memcpy (ampliado ent a size offset) buf offset.toNat size.toNat = .ok contenido :=
      ⟨_, if_pos ⟨Nat.le_of_eq hlargo.symm, hbuf⟩⟩
    rw [hampliado] at hrealloc
    rw [StateT.bind_of_ok hrealloc]
    dsimp only
    rw [copiarEnArchivo, StateT.bind_of_ok (StateT.lift_of_ok hcopia)]
    refine ⟨_, rfl, .inr (.inl ?_)⟩
    have hrealiza := @Realiza.write ent fs p buf size offset fs₁ u a ⟨a.nombre,
      { a.st.tocar ent.ahora with stSize := offset + size }, contenido⟩ hrec hu ha rfl rfl
      (hsano.escrito hcopia (if_pos hcrece).symm)
    rw [if_pos hcrece, ← intDe_corto hsize] at hrealiza
    rw [UInt64.add_comm size offset]
    exact hrealiza
  · rw [if_neg hcrece]
    have hampliado : ampliado ent a size offset = a.contenido := if_neg hcrece
    have hcabe : offset.toNat + size.toNat ≤ a.contenido.length := by
      have hle := UInt64.le_iff_toNat_le.mp (UInt64.not_lt.mp hcrece)
      have hlargo := hsano.contenido
      omega
    obtain ⟨contenido, hcopia⟩ : ∃ contenido,
        memcpy a.contenido buf offset.toNat size.toNat = .ok contenido :=
      ⟨_, if_pos ⟨hcabe, hbuf⟩⟩
    rw [copiarEnArchivo, StateT.bind_of_ok (StateT.lift_of_ok hcopia)]
    refine ⟨_, rfl, .inr (.inl ?_)⟩
    have hrealiza := @Realiza.write ent fs p buf size offset fs₁ u a ⟨a.nombre,
      a.st.tocar ent.ahora, contenido⟩ hrec hu ha rfl rfl
      (hsano.escrito (hampliado ▸ hcopia) (if_neg hcrece).symm)
    rw [if_neg hcrece, ← intDe_corto hsize] at hrealiza
    exact hrealiza

end Handlers

/-! ## The convention -/

section Convencion

variable {max : UInt64} {ent : Entorno} {respuestas : List Bool} {s : Sistema} {c : Mutacion}
  {op : Op (ℤ × Fs)} {r : (ℤ × Fs) × Memoria} {p : Ruta} {n : Cadena}

/-- Only a write returns anything but zero when it has performed its operation. -/
theorem Realiza.ret_eq_zero {fs fs' : Fs} {ret : ℤ} (h : Realiza ent fs c ret fs')
    (hc : c.escribe = false) : ret = 0 := by
  cases h with
  | write => cases hc
  | _ => rfl

theorem cumple_iff_of_ok (hejecuta : ejecutar max ⟨ent, respuestas, c.llamada⟩ s =
    s.con op respuestas) (hop : op ⟨respuestas, false⟩ = .ok r) :
    Cumple max ent respuestas c s ↔
      Realiza ent s.fs c r.1.1 r.1.2 ∨ r.1.1 < 0 ∧ s.fs.Recorrido ent.ahora r.1.2 := by
  have hr : ejecutar max ⟨ent, respuestas, c.llamada⟩ s =
      .ok ⟨r.1.1, r.2.agotada, { s with fs := r.1.2 }⟩ :=
    hejecuta.trans (Except.bind_ok.mpr ⟨r, hop, rfl⟩)
  constructor
  · intro hcumple
    obtain ⟨r', hr', -, h⟩ := hcumple
    rw [hr] at hr'
    cases hr'
    exact h
  · intro h
    exact ⟨_, hr, rfl, h⟩

theorem not_cumple_of_error {f : Fallo} (hejecuta : ejecutar max ⟨ent, respuestas, c.llamada⟩ s =
    s.con op respuestas) (hop : op ⟨respuestas, false⟩ = .error f) :
    ¬ Cumple max ent respuestas c s := by
  intro hcumple
  obtain ⟨r', hr', -⟩ := hcumple
  rw [hejecuta, Sistema.con, hop] at hr'
  cases hr'

/-- A handler that returns `ENOENT` without its sign does not keep to the convention. -/
theorem not_cumple_of_enoent {fs' : Fs} {m' : Memoria}
    (hejecuta : ejecutar max ⟨ent, respuestas, c.llamada⟩ s = s.con op respuestas)
    (hop : op ⟨respuestas, false⟩ = .ok ((enoent, fs'), m'))
    (hc : c.escribe = false) :
    ¬ Cumple max ent respuestas c s := by
  rw [cumple_iff_of_ok hejecuta hop]
  intro h
  obtain hrealiza | ⟨hneg, -⟩ := h
  · exact absurd (hrealiza.ret_eq_zero hc) (by decide : (enoent : ℤ) ≠ 0)
  · exact absurd hneg (by decide : ¬ (enoent : ℤ) < 0)

/-- A call refused for the length of its path returns `-EINVAL`. -/
theorem cumple_of_larga (hlargo : maximoPath < c.ruta.texto.length) :
    Cumple max ent respuestas c s := by
  have hrefuta : ∀ {op : Op (ℤ × Fs)}, ejecutar max ⟨ent, respuestas, c.llamada⟩ s =
      s.con op respuestas → op ⟨respuestas, false⟩ = .ok ((-einval, s.fs), ⟨respuestas, false⟩) →
      Cumple max ent respuestas c s := by
    intro op hejecuta hop
    refine (cumple_iff_of_ok hejecuta hop).mpr (.inr ⟨(by decide : (-einval : ℤ) < 0), ?_⟩)
    exact .refl ent.ahora s.fs
  cases c with
  | mkdir p mode => exact hrefuta rfl (congrFun (if_pos hlargo) _)
  | create p mode => exact hrefuta rfl (congrFun (if_pos hlargo) _)
  | unlink p => exact hrefuta rfl (congrFun (if_pos hlargo) _)
  | rmdir p => exact hrefuta rfl (congrFun (if_pos hlargo) _)
  | truncate p size => exact hrefuta rfl (congrFun (if_pos hlargo) _)
  | utimens p ts => exact hrefuta rfl (congrFun (if_pos hlargo) _)
  | write p buf size offset => exact hrefuta rfl (congrFun (if_pos hlargo) _)

/-- The opening of a handler that works in a directory. -/
theorem abre_padre {fs : Fs} (hfs : fs.Cada Entrada.Sana) (hp : (p ++ [n]).Normal)
    (hpadre : fs.nodo p = some .directorio) (ahora : UInt64) :
    ∃ fs₁ u d, buscarDirectorio ahora (p ++ [n]).texto fs = .ok (fs₁, n, some (u, d)) ∧
      fs.Recorrido ahora fs₁ ∧ fs.ubicar p = some u ∧ fs₁.en u = some (.directorio d) ∧
      d.Sano ∧ ∀ x ∈ d.entradas, x.Sana := by
  obtain ⟨fs₁, u, d, hbusca⟩ := @buscarDirectorio_de_directorio ahora n fs p hfs hp hpadre
  obtain ⟨-, hrec, hu, hd⟩ := buscarDirectorio_padre hfs hp hbusca
  have hsana := hrec.cada Entrada.Coherente.superficial Entrada.Coherente.intemporal hfs
  refine ⟨fs₁, u, d, hbusca, hrec, hu, hd, Entrada.sana_directorio.mp (hsana u _ hd), ?_⟩
  intro x hx
  exact ((Entrada.cada_directorio.mp (Entrada.Cada.en hsana hd)).2 x hx).self

/-- Every request of the call to the heap is served. -/
theorem agotada_of_servida
    (hservido : ∀ r, ejecutar max ⟨ent, respuestas, c.llamada⟩ s = .ok r → r.agotada = false)
    (hejecuta : ejecutar max ⟨ent, respuestas, c.llamada⟩ s = s.con op respuestas)
    (hop : op ⟨respuestas, false⟩ = .ok r) : r.2.agotada ≠ true := by
  have hfalse := hservido _ (hejecuta.trans (Except.bind_ok.mpr ⟨r, hop, rfl⟩))
  intro htrue
  rw [htrue] at hfalse
  cases hfalse

theorem mkdir_cumple_iff {mode : UInt32} (hfs : s.fs.Cada Entrada.Sana)
    (hp : ∀ x ∈ p ++ [n], x ≠ [] ∧ barra ∉ x) (hcorto : (p ++ [n]).texto.length ≤ maximoPath)
    (hpadre : s.fs.nodo p = some .directorio)
    (hservido : ∀ r, ejecutar max ⟨ent, respuestas, (Mutacion.mkdir (p ++ [n]) mode).llamada⟩ s =
      .ok r → r.agotada = false) :
    Cumple max ent respuestas (.mkdir (p ++ [n]) mode) s ↔
      (Mutacion.mkdir (p ++ [n]) mode).Atendida max s.fs := by
  by_cases hlleno : max < s.fs.espacioTotalOcupadoFs + sizeofEntradaDirectorio
  · have hop : fisopfsMkdir max ent (p ++ [n]).texto mode s.fs ⟨respuestas, false⟩ =
        .ok ((-enospc, s.fs), ⟨respuestas, false⟩) := by
      rw [fisopfsMkdir, if_neg (Nat.not_lt.mpr hcorto), if_pos hlleno]
      rfl
    refine iff_of_true ((cumple_iff_of_ok rfl hop).mpr (.inr ⟨?_, .refl ent.ahora s.fs⟩))
      (.inl hlleno)
    exact (by decide : (-enospc : ℤ) < 0)
  by_cases hcabe : (p ++ [n]).texto.length < maximoPath
  · obtain ⟨fs₁, u, d, hbusca, hrec, hu, hd, hsano, -⟩ :=
      abre_padre hfs ⟨hp, hcabe⟩ hpadre ent.ahora
    have hn : n.length < maximoPath :=
      (Ruta.breve_of_length hp hcorto n (List.mem_append_right p List.mem_cons_self)).2.2
    obtain ⟨r, hop, hagotada | hrealiza⟩ :=
      @fisopfsMkdir_served max ent s.fs fs₁ p n u d mode hcorto hlleno hn hbusca hrec hu hd hsano
        ⟨respuestas, false⟩
    · exact absurd hagotada (agotada_of_servida hservido rfl hop)
    · exact iff_of_true ((cumple_iff_of_ok rfl hop).mpr (.inl hrealiza)) (.inr hcabe)
  · have hop := @fisopfsMkdir_desborda max ent _ s.fs mode (Nat.not_lt.mpr hcorto) hcabe hlleno
      ⟨respuestas, false⟩
    refine iff_of_false (not_cumple_of_error rfl hop) fun hatendida ↦ ?_
    exact hatendida.elim hlleno hcabe

theorem create_cumple_iff {mode : UInt32} (hfs : s.fs.Cada Entrada.Sana)
    (hp : ∀ x ∈ p ++ [n], x ≠ [] ∧ barra ∉ x) (hcorto : (p ++ [n]).texto.length ≤ maximoPath)
    (hpadre : s.fs.nodo p = some .directorio)
    (hservido : ∀ r, ejecutar max ⟨ent, respuestas, (Mutacion.create (p ++ [n]) mode).llamada⟩ s =
      .ok r → r.agotada = false) :
    Cumple max ent respuestas (.create (p ++ [n]) mode) s ↔
      (Mutacion.create (p ++ [n]) mode).Atendida max s.fs := by
  by_cases hlleno : max < s.fs.espacioTotalOcupadoFs + sizeofEntradaArchivo
  · have hop : fisopfsCreate max ent (p ++ [n]).texto mode s.fs ⟨respuestas, false⟩ =
        .ok ((-enospc, s.fs), ⟨respuestas, false⟩) := by
      rw [fisopfsCreate, if_neg (Nat.not_lt.mpr hcorto), if_pos hlleno]
      rfl
    refine iff_of_true ((cumple_iff_of_ok rfl hop).mpr (.inr ⟨?_, .refl ent.ahora s.fs⟩))
      (.inl hlleno)
    exact (by decide : (-enospc : ℤ) < 0)
  by_cases hcabe : (p ++ [n]).texto.length < maximoPath
  · obtain ⟨fs₁, u, d, hbusca, hrec, hu, hd, hsano, -⟩ :=
      abre_padre hfs ⟨hp, hcabe⟩ hpadre ent.ahora
    have hn : n.length < maximoPath :=
      (Ruta.breve_of_length hp hcorto n (List.mem_append_right p List.mem_cons_self)).2.2
    by_cases hmode : sIsreg mode = true
    · obtain ⟨r, hop, hagotada | hrealiza⟩ :=
        @fisopfsCreate_served max ent s.fs fs₁ p n u d mode hcorto hlleno hn hmode hbusca hrec hu
          hd hsano ⟨respuestas, false⟩
      · exact absurd hagotada (agotada_of_servida hservido rfl hop)
      · exact iff_of_true ((cumple_iff_of_ok rfl hop).mpr (.inl hrealiza)) (.inr ⟨hcabe, hmode⟩)
    · have hop : fisopfsCreate max ent (p ++ [n]).texto mode s.fs ⟨respuestas, false⟩ =
          .ok ((enoent, fs₁), ⟨respuestas, false⟩) := by
        rw [fisopfsCreate, if_neg (Nat.not_lt.mpr hcorto), if_neg hlleno,
          StateT.bind_of_ok (StateT.lift_of_ok hbusca)]
        dsimp only
        rw [if_neg hmode]
        rfl
      refine iff_of_false (not_cumple_of_enoent rfl hop rfl)
        fun hatendida ↦ ?_
      exact hatendida.elim hlleno fun h ↦ hmode h.2
  · have hop := @fisopfsCreate_desborda max ent _ s.fs mode (Nat.not_lt.mpr hcorto) hcabe hlleno
      ⟨respuestas, false⟩
    refine iff_of_false (not_cumple_of_error rfl hop) fun hatendida ↦ ?_
    exact hatendida.elim hlleno fun h ↦ hcabe h.1

/-- A removal keeps to the convention where the parent has an entry of the type with that name. -/
theorem eliminar_cumple_iff {esDelTipo : Entrada → Bool} {negado : Entrada → Option ℤ}
    {tam : UInt64} (htipo : ∀ x y : Entrada, x.tipo = y.tipo → esDelTipo x = esDelTipo y)
    (hnegado : ∀ x r, negado x = some r → r < 0)
    (hlibera : ∀ x : Entrada, x.Sana → esDelTipo x = true → negado x = none →
      liberarEntrada x = .ok ())
    (hrealiza : ∀ fs₁ u d i x, s.fs.Recorrido ent.ahora fs₁ → s.fs.ubicar p = some u →
      fs₁.en u = some (.directorio d) → d.entradas[i]? = some x → x.Sana → esDelTipo x = true →
      x.nombre = n → negado x = none →
      Realiza ent s.fs c 0 ((fs₁.poner u (.directorio (d.sin ent.ahora i))).restar tam))
    (hejecuta : ejecutar max ⟨ent, respuestas, c.llamada⟩ s =
      s.con (eliminar ent esDelTipo negado tam (p ++ [n]).texto s.fs) respuestas)
    (hc : c.escribe = false) (hfs : s.fs.Cada Entrada.Sana)
    (hp : ∀ x ∈ p ++ [n], x ≠ [] ∧ barra ∉ x) (hcorto : (p ++ [n]).texto.length ≤ maximoPath)
    (hpadre : s.fs.nodo p = some .directorio)
    (hservido : ∀ r, ejecutar max ⟨ent, respuestas, c.llamada⟩ s = .ok r → r.agotada = false) :
    Cumple max ent respuestas c s ↔
      (p ++ [n]).texto.length < maximoPath ∧ s.fs.Contiene esDelTipo (p ++ [n]) := by
  by_cases hcabe : (p ++ [n]).texto.length < maximoPath
  · obtain ⟨fs₁, u, d, hbusca, hrec, hu, hd, hsano, hsana⟩ :=
      abre_padre hfs ⟨hp, hcabe⟩ hpadre ent.ahora
    have hcontiene : s.fs.Contiene esDelTipo (p ++ [n]) ↔
        ∃ x ∈ d.entradas, (esDelTipo x && x.nombre == n) = true :=
      hrec.contiene_iff hu hd htipo
    obtain ⟨hno, hop⟩ | ⟨i, x, hx, hdel, hnombre, hfin⟩ :=
      @eliminar_served ent s.fs fs₁ n u d esDelTipo negado tam _ hcorto hbusca hsano
        (fun x hx ↦ hlibera x (hsana x hx)) ⟨respuestas, false⟩
    · refine iff_of_false (not_cumple_of_enoent hejecuta hop hc) fun hatendida ↦ ?_
      obtain ⟨x, hx, hsi⟩ := hcontiene.mp hatendida.2
      rw [hno x hx] at hsi
      cases hsi
    have hmem : x ∈ d.entradas := List.mem_of_getElem? hx
    have hatendida : s.fs.Contiene esDelTipo (p ++ [n]) := by
      refine hcontiene.mpr ⟨x, hmem, ?_⟩
      rw [hdel, hnombre, beq_self_eq_true]
      rfl
    refine iff_of_true ?_ ⟨hcabe, hatendida⟩
    obtain ⟨r, hr, hop⟩ | ⟨hnone, r, hop, hagotada | hr⟩ := hfin
    · exact (cumple_iff_of_ok hejecuta hop).mpr (.inr ⟨hnegado x r hr, hrec⟩)
    · exact absurd hagotada (agotada_of_servida hservido hejecuta hop)
    · refine (cumple_iff_of_ok hejecuta hop).mpr (.inl ?_)
      rw [hr]
      exact hrealiza fs₁ u d i x hrec hu hd hx (hsana x hmem) hdel hnombre hnone
  · have hop := @eliminar_desborda ent _ s.fs esDelTipo negado tam (Nat.not_lt.mpr hcorto) hcabe
      ⟨respuestas, false⟩
    exact iff_of_false (not_cumple_of_error hejecuta hop) fun hatendida ↦ hcabe hatendida.1

theorem unlink_cumple_iff (hfs : s.fs.Cada Entrada.Sana)
    (hp : ∀ x ∈ p ++ [n], x ≠ [] ∧ barra ∉ x) (hcorto : (p ++ [n]).texto.length ≤ maximoPath)
    (hpadre : s.fs.nodo p = some .directorio)
    (hservido : ∀ r, ejecutar max ⟨ent, respuestas, (Mutacion.unlink (p ++ [n])).llamada⟩ s =
      .ok r → r.agotada = false) :
    Cumple max ent respuestas (.unlink (p ++ [n])) s ↔
      (Mutacion.unlink (p ++ [n])).Atendida max s.fs := by
  refine @eliminar_cumple_iff max ent respuestas s _ p n Entrada.esArchivo (fun _ ↦ none)
    sizeofEntradaArchivo ?_ ?_ ?_ ?_ rfl rfl hfs hp hcorto
    hpadre hservido
  · intro x y hxy
    cases x <;> cases y <;> first | rfl | cases hxy
  · intro x r hr
    cases hr
  · intro x _ hx _
    cases x with
    | archivo a => rfl
    | _ => cases hx
  · intro fs₁ u d i x hrec hu hd hx _ hdel hnombre _
    cases x with
    | archivo a => exact .unlink hrec hu hd hx hnombre
    | _ => cases hdel

theorem rmdir_cumple_iff (hfs : s.fs.Cada Entrada.Sana)
    (hp : ∀ x ∈ p ++ [n], x ≠ [] ∧ barra ∉ x) (hcorto : (p ++ [n]).texto.length ≤ maximoPath)
    (hpadre : s.fs.nodo p = some .directorio)
    (hservido : ∀ r, ejecutar max ⟨ent, respuestas, (Mutacion.rmdir (p ++ [n])).llamada⟩ s =
      .ok r → r.agotada = false) :
    Cumple max ent respuestas (.rmdir (p ++ [n])) s ↔
      (Mutacion.rmdir (p ++ [n])).Atendida max s.fs := by
  have hvacio : ∀ e : EntradaDirectorio, (Entrada.directorio e).Sana →
      noVacio (.directorio e) = none → ∀ x ∈ e.entradas, x.ocupada = false := by
    intro e he hnone
    exact (Entrada.sana_directorio.mp he).estaVacio_iff.mp (noVacio_eq_none.mp hnone)
  refine @eliminar_cumple_iff max ent respuestas s _ p n Entrada.esDirectorio noVacio
    sizeofEntradaDirectorio ?_ ?_ ?_ ?_ rfl rfl hfs hp hcorto
    hpadre hservido
  · intro x y hxy
    cases x <;> cases y <;> first | rfl | cases hxy
  · intro x r hr
    cases x with
    | directorio e =>
      rw [noVacio] at hr
      split at hr
      · cases hr
      · cases hr
        decide
    | _ => cases hr
  · intro x hsana hx hnone
    cases x with
    | directorio e =>
      rw [liberarEntrada]
      exact (Entrada.sana_directorio.mp hsana).liberarDir (hvacio e hsana hnone)
    | _ => cases hx
  · intro fs₁ u d i x hrec hu hd hx hsana hdel hnombre hnone
    cases x with
    | directorio e => exact .rmdir hrec hu hd hx hnombre (hvacio e hsana hnone)
    | _ => cases hdel

/-- `'a'`. -/
def letraA : Caracter := ⟨97, by decide⟩

end Convencion

end SistemasOperativos.FisopFs
