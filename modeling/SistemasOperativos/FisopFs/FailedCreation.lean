import SistemasOperativos.FisopFs.Reachability

/-!
# Creations that run out of memory

`fisopfs_mkdir` and `fisopfs_create` store the new entry and count it before they make room for the
next one. The requests to the heap come in a fixed order: those for the new entry, and then, when it
has taken the last free slot of its directory, those for the larger vector. A refusal of the first
ones leaves the tree alone. A refusal of the second ones does not.
-/

namespace SistemasOperativos.FisopFs

open Library

/-! ## Sequences of requests -/

/-- Requests to the heap, one after the other until one is refused: whether all were served. -/
def pedirTodo : List UInt64 → Op Bool
  | [] => return true
  | n :: ns => do
    if ← pedir n then pedirTodo ns
    else return false

theorem pedirTodo_cons_true {n : UInt64} {ns : List UInt64} {m m₁ : Memoria}
    (h : pedir n m = .ok (true, m₁)) : pedirTodo (n :: ns) m = pedirTodo ns m₁ := by
  rw [pedirTodo, StateT.bind_of_ok h]
  rfl

theorem pedirTodo_cons_false {n : UInt64} {ns : List UInt64} {m m₁ : Memoria}
    (h : pedir n m = .ok (false, m₁)) : pedirTodo (n :: ns) m = .ok (false, m₁) := by
  rw [pedirTodo, StateT.bind_of_ok h]
  rfl

theorem pedirTodo_false {ns : List UInt64} {m m' : Memoria}
    (h : pedirTodo ns m = .ok (false, m')) : m'.agotada = true := by
  induction ns generalizing m with
  | nil => cases h
  | cons n ns ih =>
    simp only [pedirTodo, StateT.bind_ok] at h
    obtain ⟨reservado, m₁, hpedir, h⟩ := h
    cases reservado with
    | true => exact ih h
    | false =>
      cases h
      obtain ⟨hno, -⟩ | ⟨-, hagotada⟩ := pedir_ok hpedir
      · cases hno
      · exact hagotada

theorem crearEntradaVacia_pide {e : Entrada} {m m' : Memoria}
    (h : crearEntradaVacia m = .ok (e, m')) :
    (e = .vacio ∧ pedir sizeofEntrada m = .ok (true, m')) ∨
    (e = .nula ∧ pedir sizeofEntrada m = .ok (false, m')) := by
  simp only [crearEntradaVacia, StateT.bind_ok] at h
  obtain ⟨reservado, m₁, hpedir, h⟩ := h
  cases reservado with
  | true =>
    cases h
    exact .inl ⟨rfl, hpedir⟩
  | false =>
    cases h
    exact .inr ⟨rfl, hpedir⟩

/-- The loop that fills a vector fails exactly when one of its requests is refused. -/
theorem llenarDesde_pide {n j : ℕ} {entradas entradas' : List Entrada} {r : ℤ} {m m' : Memoria}
    (h : llenarDesde entradas j n m = .ok ((r, entradas'), m')) :
    pedirTodo (List.replicate n sizeofEntrada) m = .ok (decide (r = 0), m') := by
  induction n generalizing j entradas m with
  | zero =>
    cases h
    rfl
  | succ n ih =>
    simp only [llenarDesde, StateT.bind_ok] at h
    obtain ⟨nueva, m₁, hnueva, h⟩ := h
    split at h
    · simp only [StateT.bind_ok, StateT.throw_ok, false_and, exists_false] at h
    · rw [List.replicate_succ]
      obtain ⟨rfl, hpedir⟩ | ⟨rfl, hpedir⟩ := crearEntradaVacia_pide hnueva
      · rw [pedirTodo_cons_true hpedir]
        exact ih h
      · cases h
        rw [pedirTodo_cons_false hpedir]
        rfl

theorem reservarEntradas_pide {entradas entradas' : List Entrada} {cantidad : UInt64} {b : Bool}
    {m m' : Memoria} (h : reservarEntradas entradas cantidad m = .ok ((b, entradas'), m')) :
    pedir (cantidad * sizeofPuntero) m = .ok (b, m') := by
  simp only [reservarEntradas, StateT.bind_ok] at h
  obtain ⟨reservado, m₁, hpedir, h⟩ := h
  cases reservado with
  | true =>
    cases h
    exact hpedir
  | false =>
    cases h
    exact hpedir

/-- The requests for the vector of a full directory: the vector itself and its new entries. -/
def EntradaDirectorioDe.peticiones (d : EntradaDirectorio) : List UInt64 :=
  d.ampliada * sizeofPuntero ::
    List.replicate (d.ampliada.toNat - d.cantidadEntradas.toNat) sizeofEntrada

theorem expandirEntrdasDir_pide {d d' : EntradaDirectorio} {r : ℤ} {m m' : Memoria}
    (hlleno : d.cantidadEntradas = d.cantidadEntradasOcupadas)
    (h : expandirEntrdasDir d m = .ok ((r, d'), m')) :
    pedirTodo d.peticiones m = .ok (decide (r = 0), m') := by
  obtain ⟨hlibre, -⟩ | ⟨-, base, entradas, reservado, m₁, hreservar, -, h'⟩ := expandirEntrdasDir_ok h
  · exact absurd hlleno hlibre
  have hpide := reservarEntradas_pide hreservar
  unfold EntradaDirectorioDe.peticiones
  obtain ⟨rfl, rfl, -, rfl⟩ | ⟨rfl, hllenar⟩ := h'
  · rw [pedirTodo_cons_false hpide]
    rfl
  · rw [pedirTodo_cons_true hpide, hlleno]
    exact llenarDesde_pide hllenar

/-! ## The two calls -/

/-- The calls that add an entry to a directory. -/
inductive Creacion where
  | mkdir (path : Cadena) (mode : UInt32)
  | create (path : Cadena) (mode : UInt32)

namespace Creacion

def path : Creacion → Cadena
  | .mkdir path _ => path
  | .create path _ => path

def llamada : Creacion → Llamada
  | .mkdir path mode => .mkdir path mode
  | .create path mode => .create path mode

/-- The handler of the call. -/
def op (max : UInt64) (ent : Entorno) : Creacion → Fs → Op (ℤ × Fs)
  | .mkdir path mode => fisopfsMkdir max ent path mode
  | .create path mode => fisopfsCreate max ent path mode

/-- The bytes that the new entry takes. -/
def tam : Creacion → UInt64
  | .mkdir _ _ => sizeofEntradaDirectorio
  | .create _ _ => sizeofEntradaArchivo

/-- `fisopfs_create` only makes regular files. -/
def delTipo : Creacion → Bool
  | .mkdir _ _ => true
  | .create _ mode => sIsreg mode

/-- The requests for the new entry. -/
def peticiones : Creacion → List UInt64
  | .mkdir _ _ => sizeofEntradaDirectorio :: entradasIniciales * sizeofPuntero ::
      List.replicate entradasIniciales.toNat sizeofEntrada
  | .create _ _ => [sizeofEntradaArchivo]

/-- The call gets as far as placing its new entry in the directory `d`, with what is left of the
answers of the heap. -/
def Coloca (c : Creacion) (max : UInt64) (ent : Entorno) (fs : Fs) (m : Memoria) (fs₁ : Fs)
    (u : Ubicacion) (d : EntradaDirectorio) (m₁ : Memoria) : Prop :=
  c.path.length ≤ maximoPath ∧ ¬ max < fs.espacioTotalOcupadoFs + c.tam ∧ c.delTipo = true ∧
    (∃ nombre, buscarDirectorio ent.ahora c.path fs = .ok (fs₁, nombre, some (u, d))) ∧
    pedirTodo c.peticiones m = .ok (true, m₁)

/-- The new entry takes the last free slot of its directory, and there is no memory for the larger
vector. -/
def Malogra (c : Creacion) (max : UInt64) (ent : Entorno) (fs : Fs) (m : Memoria) : Prop :=
  ∃ fs₁ u d m₁ m₂, c.Coloca max ent fs m fs₁ u d m₁ ∧
    d.cantidadEntradas = d.cantidadEntradasOcupadas + 1 ∧
    (∃ i, primera Entrada.esVacio d.cantidadEntradas.toNat d.entradas = .ok (some i)) ∧
    pedirTodo d.peticiones m₁ = .ok (false, m₂)

end Creacion

section Calls

variable {max : UInt64} {ent : Entorno} {path nombre : Cadena} {mode : UInt32} {fs fs' : Fs} {r : ℤ}
  {m m' : Memoria}

theorem nombre_corto (h : obtenerNombreFinalPath path = .ok nombre) : nombre.length < maximoPath := by
  have hcorto (origen : Cadena) (h : strcpy origen = .ok nombre) : nombre.length < maximoPath := by
    unfold strcpy at h
    split at h
    · cases h
      assumption
    · cases h
  unfold obtenerNombreFinalPath at h
  split at h
  · exact hcorto _ h
  · exact hcorto _ h

/-- A new directory is made exactly when all its requests are served. -/
theorem crearDir_pide {reservado : Bool} {creado : Except ℤ EntradaDirectorio} {m₁ : Memoria}
    (hcorto : nombre.length < maximoPath)
    (hpedir : pedir sizeofEntradaDirectorio m = .ok (reservado, m₁))
    (h : crearDir ent reservado nombre mode m₁ = .ok (creado, m')) :
    pedirTodo (Creacion.mkdir path mode).peticiones m = .ok (creado.isOk, m') := by
  unfold crearDir at h
  cases reservado with
  | false =>
    cases h
    exact pedirTodo_cons_false hpedir
  | true =>
    simp only [Bool.not_true, Bool.false_eq_true, if_false, dif_pos hcorto, StateT.bind_ok] at h
    obtain ⟨⟨resultado, d⟩, m₂, hexpandir, h⟩ := h
    have hpide := expandirEntrdasDir_pide rfl hexpandir
    rw [Creacion.peticiones, pedirTodo_cons_true hpedir]
    by_cases hr : resultado ≠ 0
    · simp only [if_pos hr] at h
      cases h
      rw [decide_eq_false hr] at hpide
      exact hpide
    · simp only [if_neg hr] at h
      cases h
      rw [decide_eq_true (not_not.mp hr)] at hpide
      exact hpide

/-! What keeps a call from placing its entry. -/

theorem Creacion.no_coloca_largo {c : Creacion} (h : maximoPath < c.path.length) (fs₁ : Fs)
    (u : Ubicacion) (d : EntradaDirectorio) (m₁ : Memoria) : ¬ c.Coloca max ent fs m fs₁ u d m₁ :=
  fun hcoloca ↦ absurd h (Nat.not_lt.mpr hcoloca.1)

theorem Creacion.no_coloca_destino {c : Creacion} {fs₂ : Fs}
    (h : buscarDirectorio ent.ahora c.path fs = .ok (fs₂, nombre, none)) (fs₁ : Fs) (u : Ubicacion)
    (d : EntradaDirectorio) (m₁ : Memoria) : ¬ c.Coloca max ent fs m fs₁ u d m₁ := by
  rintro ⟨-, -, -, ⟨nombre', hbusca⟩, -⟩
  rw [h] at hbusca
  cases hbusca

theorem Creacion.no_coloca_memoria {c : Creacion} (h : pedirTodo c.peticiones m = .ok (false, m'))
    (fs₁ : Fs) (u : Ubicacion) (d : EntradaDirectorio) (m₁ : Memoria) :
    ¬ c.Coloca max ent fs m fs₁ u d m₁ := by
  rintro ⟨-, -, -, -, hservido⟩
  rw [h] at hservido
  cases hservido

/-- A call either stops before it places its entry, and then it has only searched the tree, or its
requests are served and it places the entry. -/
theorem fisopfsMkdir_coloca (h : fisopfsMkdir max ent path mode fs m = .ok ((r, fs'), m')) :
    (fs.Recorrido ent.ahora fs' ∧
      ∀ fs₁ u d m₁, ¬ (Creacion.mkdir path mode).Coloca max ent fs m fs₁ u d m₁) ∨
    ∃ fs₁ u d nueva m₁, (Creacion.mkdir path mode).Coloca max ent fs m fs₁ u d m₁ ∧
      buscarDirectorio ent.ahora path fs = .ok (fs₁, nueva.nombre, some (u, d)) ∧
      Nueva nueva sizeofEntradaDirectorio ∧
      colocarNueva ent fs₁ u d nueva sizeofEntradaDirectorio m₁ = .ok ((r, fs'), m') := by
  unfold fisopfsMkdir at h
  split at h
  next hlargo =>
    cases h
    exact .inl ⟨.refl .., Creacion.no_coloca_largo hlargo⟩
  next hpath =>
  split at h
  next hlleno =>
    cases h
    exact .inl ⟨.refl .., fun _ _ _ _ hcoloca ↦ hcoloca.2.1 hlleno⟩
  next hespacio =>
    simp only [StateT.bind_ok, StateT.lift_ok] at h
    obtain ⟨⟨fs₁, nombre, destino⟩, m₁, ⟨_, hbusca, heq⟩, h⟩ := h
    cases heq
    obtain ⟨pd, v, x, -, hnombre, hencuentra, hv, hdestino⟩ := buscarDirectorio_ok hbusca
    have hrec := encontrarEntrada_recorrido hencuentra
    cases destino with
    | none =>
      cases h
      exact .inl ⟨hrec, Creacion.no_coloca_destino hbusca⟩
    | some ud =>
      obtain ⟨u, d⟩ := ud
      simp only [StateT.bind_ok] at h
      obtain ⟨reservado, m₂, hpedir, creado, m₃, hcrear, h⟩ := h
      have hpide := @crearDir_pide ent path nombre (sIfdir ||| mode) m m₃ reservado creado m₂
        (nombre_corto hnombre) hpedir hcrear
      cases creado with
      | error resultado =>
        cases h
        exact .inl ⟨hrec, Creacion.no_coloca_memoria hpide⟩
      | ok nuevo =>
        have hreservado : reservado = true := by
          cases reservado with
          | false => simp [crearDir, StateT.pure_ok] at hcrear
          | true => rfl
        subst hreservado
        obtain ⟨nombre', rfl, m₄, hexpandir⟩ := crearDir_ok hcrear
        have hnombre : (Entrada.directorio nuevo).nombre = nombre'.cadena := by
          rw [(expandir_nuevo hexpandir).2]
          rfl
        refine .inr ⟨fs₁, u, d, .directorio nuevo, m₃,
          ⟨Nat.not_lt.mp hpath, hespacio, rfl, ⟨_, hbusca⟩, hpide⟩, ?_, .directorio hexpandir, h⟩
        rw [hnombre]
        exact hbusca

theorem fisopfsCreate_coloca (h : fisopfsCreate max ent path mode fs m = .ok ((r, fs'), m')) :
    (fs.Recorrido ent.ahora fs' ∧
      ∀ fs₁ u d m₁, ¬ (Creacion.create path mode).Coloca max ent fs m fs₁ u d m₁) ∨
    ∃ fs₁ u d nueva m₁, (Creacion.create path mode).Coloca max ent fs m fs₁ u d m₁ ∧
      buscarDirectorio ent.ahora path fs = .ok (fs₁, nueva.nombre, some (u, d)) ∧
      Nueva nueva sizeofEntradaArchivo ∧
      colocarNueva ent fs₁ u d nueva sizeofEntradaArchivo m₁ = .ok ((r, fs'), m') := by
  unfold fisopfsCreate at h
  split at h
  next hlargo =>
    cases h
    exact .inl ⟨.refl .., Creacion.no_coloca_largo hlargo⟩
  next hpath =>
  split at h
  next hlleno =>
    cases h
    exact .inl ⟨.refl .., fun _ _ _ _ hcoloca ↦ hcoloca.2.1 hlleno⟩
  next hespacio =>
    simp only [StateT.bind_ok, StateT.lift_ok] at h
    obtain ⟨⟨fs₁, nombre, destino⟩, m₁, ⟨_, hbusca, heq⟩, h⟩ := h
    cases heq
    obtain ⟨pd, v, x, -, hnombre, hencuentra, hv, hdestino⟩ := buscarDirectorio_ok hbusca
    have hrec := encontrarEntrada_recorrido hencuentra
    cases destino with
    | none =>
      cases h
      exact .inl ⟨hrec, Creacion.no_coloca_destino hbusca⟩
    | some ud =>
      obtain ⟨u, d⟩ := ud
      dsimp only at h
      split at h
      next htipo =>
        simp only [StateT.bind_ok] at h
        obtain ⟨reservado, m₂, hpedir, h⟩ := h
        cases reservado with
        | false =>
          cases h
          exact .inl ⟨hrec, Creacion.no_coloca_memoria (pedirTodo_cons_false hpedir)⟩
        | true =>
          have hcrear : ∃ a, crearArchivo ent nombre mode = .ok a :=
            ⟨_, dif_pos (nombre_corto hnombre)⟩
          obtain ⟨a, ha⟩ := hcrear
          obtain ⟨rfl, hst, -⟩ := crearArchivo_ok ha
          simp only [Bool.not_true, Bool.false_eq_true, if_false, ha] at h
          refine .inr ⟨fs₁, u, d, .archivo a, m₂,
            ⟨Nat.not_lt.mp hpath, hespacio, htipo, ⟨_, hbusca⟩, ?_⟩, hbusca,
            .archivo (by rw [hst]; rfl), h⟩
          rw [Creacion.peticiones, pedirTodo_cons_true hpedir]
          rfl
      next htipo =>
        cases h
        exact .inl ⟨hrec, fun _ _ _ _ hcoloca ↦ htipo hcoloca.2.2.1⟩

theorem Creacion.op_coloca {c : Creacion} (h : c.op max ent fs m = .ok ((r, fs'), m')) :
    (fs.Recorrido ent.ahora fs' ∧ ∀ fs₁ u d m₁, ¬ c.Coloca max ent fs m fs₁ u d m₁) ∨
    ∃ fs₁ u d nueva m₁, c.Coloca max ent fs m fs₁ u d m₁ ∧
      buscarDirectorio ent.ahora c.path fs = .ok (fs₁, nueva.nombre, some (u, d)) ∧
      Nueva nueva c.tam ∧ colocarNueva ent fs₁ u d nueva c.tam m₁ = .ok ((r, fs'), m') := by
  cases c with
  | mkdir path mode => exact fisopfsMkdir_coloca h
  | create path mode => exact fisopfsCreate_coloca h

theorem Creacion.Coloca.unico {c : Creacion} {fs₁ fs₂ : Fs} {u v : Ubicacion}
    {d e : EntradaDirectorio} {m₁ m₂ : Memoria} (h : c.Coloca max ent fs m fs₁ u d m₁)
    (h' : c.Coloca max ent fs m fs₂ v e m₂) : fs₂ = fs₁ ∧ v = u ∧ e = d ∧ m₂ = m₁ := by
  obtain ⟨-, -, -, ⟨nombre, hbusca⟩, hpide⟩ := h
  obtain ⟨-, -, -, ⟨nombre', hbusca'⟩, hpide'⟩ := h'
  rw [hbusca] at hbusca'
  rw [hpide] at hpide'
  cases hbusca'
  cases hpide'
  exact ⟨rfl, rfl, rfl, rfl⟩

/-- Whether a call that places its entry is spoilt depends on the directory and on what is left of the
answers of the heap. -/
theorem Creacion.Coloca.malogra_iff {c : Creacion} {fs₁ : Fs} {u : Ubicacion} {d : EntradaDirectorio}
    {m₁ : Memoria} (h : c.Coloca max ent fs m fs₁ u d m₁) :
    c.Malogra max ent fs m ↔ d.cantidadEntradas = d.cantidadEntradasOcupadas + 1 ∧
      (∃ i, primera Entrada.esVacio d.cantidadEntradas.toNat d.entradas = .ok (some i)) ∧
      ∃ m₂, pedirTodo d.peticiones m₁ = .ok (false, m₂) := by
  constructor
  · rintro ⟨fs₂, v, e, m₃, m₂, hcoloca', hlleno, hvacio, hpide⟩
    obtain ⟨rfl, rfl, rfl, rfl⟩ := h.unico hcoloca'
    exact ⟨hlleno, hvacio, m₂, hpide⟩
  · rintro ⟨hlleno, hvacio, m₂, hpide⟩
    exact ⟨fs₁, u, d, m₁, m₂, h, hlleno, hvacio, hpide⟩

/-- A call that is refused nothing is not spoilt. -/
theorem Creacion.not_malogra_of_servido {c : Creacion} (h : c.op max ent fs m = .ok ((r, fs'), m'))
    (hservido : m'.agotada = false) : ¬ c.Malogra max ent fs m := by
  obtain ⟨-, hno⟩ | ⟨fs₁, u, d, nueva, m₁, hcoloca, -, -, hcolocar⟩ := op_coloca h
  · rintro ⟨fs₁, u, d, m₁, m₂, hcoloca, -⟩
    exact hno fs₁ u d m₁ hcoloca
  · rw [hcoloca.malogra_iff]
    rintro ⟨hlleno, ⟨i, hprimera⟩, m₂, hpide⟩
    obtain ⟨d', o, hcolocar', -⟩ := colocarNueva_ok hcolocar
    obtain ⟨hnone, -⟩ | ⟨j, -, -, hexpandir⟩ := colocarEntradaDentroDeDirectorio_ok hcolocar'
    · rw [hprimera] at hnone
      cases hnone
    · have hpide' : pedirTodo d.peticiones m₁ = .ok (decide (r = 0), m') :=
        @expandirEntrdasDir_pide (d.con ent.ahora j nueva) _ _ _ _ hlleno hexpandir
      have hmismo : m₂ = m' := congrArg Prod.snd (Except.ok.inj (hpide.symm.trans hpide'))
      rw [← hmismo, pedirTodo_false hpide] at hservido
      cases hservido

/-- In a tree in order, a call that is not spoilt only searches the tree, or its entry takes a free slot
of a directory whose vector has a free slot afterwards. -/
theorem Creacion.op_logra {c : Creacion} (hfs : fs.Cada Entrada.Sana)
    (hno : ¬ c.Malogra max ent fs m) (h : c.op max ent fs m = .ok ((r, fs'), m')) :
    fs.Recorrido ent.ahora fs' ∨ ∃ fs₁ u d nueva i,
      buscarDirectorio ent.ahora c.path fs = .ok (fs₁, nueva.nombre, some (u, d)) ∧
      Nueva nueva c.tam ∧ d.entradas[i]? = some .vacio ∧ (d.con ent.ahora i nueva).crecido.Sano ∧
      fs' = (fs₁.poner u (.directorio (d.con ent.ahora i nueva).crecido)).sumar c.tam := by
  obtain ⟨hrec, -⟩ | ⟨fs₁, u, d, nueva, m₁, hcoloca, hbusca, hnueva, hcolocar⟩ := op_coloca h
  · exact .inl hrec
  rw [hcoloca.malogra_iff] at hno
  obtain ⟨pd, v, x, -, -, hencuentra, hu, ⟨hnone, -⟩ | ⟨e, rfl, heq⟩⟩ := buscarDirectorio_ok hbusca
  · cases hnone
  cases heq
  have hrec := encontrarEntrada_recorrido hencuentra
  have hfs₁ := hrec.cada Entrada.Coherente.superficial Entrada.Coherente.intemporal hfs
  have hd : d.Sano := Entrada.sana_directorio.mp (hfs₁ u _ hu)
  obtain ⟨d', o, hcolocar', hfinal⟩ := colocarNueva_ok hcolocar
  obtain ⟨i, hi, rfl, ⟨rfl, rfl, hsano⟩ | ⟨rfl, -, -⟩⟩ := hd.colocar hnueva.ocupada hcolocar'
  · obtain ⟨-, rfl⟩ | ⟨hcero, -⟩ := hfinal
    · exact .inr ⟨fs₁, u, d, nueva, i, hbusca, hnueva, hi, hsano, rfl⟩
    · exact absurd rfl hcero
  · obtain ⟨-, -, -, hninguna⟩ | ⟨j, hprimera, -, hexpandir⟩ :=
      colocarEntradaDentroDeDirectorio_ok hcolocar'
    · cases hninguna
    obtain ⟨-, hcero, -⟩ | ⟨hlleno, -⟩ := expandirEntrdasDir_ok hexpandir
    · cases hcero
    have hpide : pedirTodo d.peticiones m₁ = .ok (false, m') :=
      @expandirEntrdasDir_pide (d.con ent.ahora j nueva) _ _ _ _ hlleno hexpandir
    exact absurd ⟨hlleno, ⟨j, hprimera⟩, m', hpide⟩ hno

end Calls

/-! ## What a failure leaves -/

/-- A search keeps the capacity of every directory. -/
theorem Fs.Recorrido.capacidad {ahora : UInt64} {fs fs' : Fs} (h : fs.Recorrido ahora fs')
    {v : Ubicacion} {e' : EntradaDirectorio} (he' : fs'.en v = some (.directorio e')) :
    ∃ e, fs.en v = some (.directorio e) ∧ e'.cantidadEntradas = e.cantidadEntradas :=
  h.en_directorio EntradaDirectorioDe.cantidadEntradas (fun _ _ ↦ rfl) (fun _ _ _ _ _ _ ↦ rfl) he'

/-- The larger capacity is another one. -/
theorem ampliada_ne {d : EntradaDirectorio} (h : d.cantidadEntradas ≠ 0) :
    d.ampliada ≠ d.cantidadEntradas := by
  intro heq
  rw [EntradaDirectorioDe.ampliada, if_neg h] at heq
  have hnat := congrArg UInt64.toNat heq
  have hpos : d.cantidadEntradas.toNat ≠ 0 := fun hcero ↦ h (UInt64.toNat_inj.mp hcero)
  have hlt := d.cantidadEntradas.toNat_lt
  rw [UInt64.toNat_mul] at hnat
  change d.cantidadEntradas.toNat * 2 % 2 ^ 64 = _ at hnat
  omega

section Failure

variable {max : UInt64} {ent : Entorno} {fs fs' : Fs} {r : ℤ} {m m' : Memoria}

/-- A directory whose vector was to grow and did not has another capacity. -/
theorem not_recorrido_fallida {fs₁ : Fs} {u : Ubicacion} {d d' : EntradaDirectorio}
    {nueva : Entrada} {i : ℕ} (hrec : fs.Recorrido ent.ahora fs₁)
    (hu : fs₁.en u = some (.directorio d))
    (hprimera : primera Entrada.esVacio d.cantidadEntradas.toNat d.entradas = .ok (some i))
    (hlleno : d.cantidadEntradas = d.cantidadEntradasOcupadas + 1)
    (hexpandir : expandirEntrdasDir (d.con ent.ahora i nueva) m = .ok ((r, d'), m')) :
    ¬ fs.Recorrido ent.ahora (fs₁.poner u (.directorio (d'.colgado (some i)))) := by
  intro hrec'
  obtain ⟨hno, -⟩ | ⟨-, base, entradas, reservado, m₁, -, rfl, -⟩ := expandirEntrdasDir_ok hexpandir
  · exact hno hlleno
  have hs : (Entrada.directorio d).Semejante (.directorio (EntradaDirectorioDe.colgado
      { d.con ent.ahora i nueva with
        cantidadEntradas := (d.con ent.ahora i nueva).ampliada, entradas } (some i))) := by
    simp [EntradaDirectorioDe.colgado, EntradaDirectorioDe.con]
  obtain ⟨e, he, hcapacidad⟩ := hrec'.capacidad (Fs.en_poner_self hu hs)
  obtain ⟨e', he', hcapacidad'⟩ := hrec.capacidad hu
  rw [he] at he'
  cases he'
  have hcero : d.cantidadEntradas ≠ 0 := by
    intro hcero
    have hlt := (primera_some hprimera).1
    rw [hcero] at hlt
    exact absurd hlt (Nat.not_lt_zero i)
  have hampliada : (d.con ent.ahora i nueva).ampliada ≠ d.cantidadEntradas := ampliada_ne hcero
  exact hampliada (hcapacidad.trans hcapacidad'.symm)

/-- A creation that returns an error leaves everything but access times as it was, if and only if it
is not one that takes the last free slot of its directory and is refused the memory for a larger
vector. -/
theorem creacion_fallida_iff (c : Creacion) (max : UInt64) (ent : Entorno) (fs : Fs) (m : Memoria)
    (h : c.op max ent fs m = .ok ((r, fs'), m')) :
    (r < 0 → fs.Recorrido ent.ahora fs') ↔ ¬ c.Malogra max ent fs m := by
  obtain ⟨hrec, hno⟩ | ⟨fs₁, u, d, nueva, m₁, hcoloca, hbusca, -, hcolocar⟩ :=
    Creacion.op_coloca h
  · constructor
    · rintro - ⟨fs₁, u, d, m₁, m₂, hcoloca, -⟩
      exact hno fs₁ u d m₁ hcoloca
    · exact fun _ _ ↦ hrec
  rw [hcoloca.malogra_iff]
  obtain ⟨pd, v, x, -, -, hencuentra, hu, ⟨hnone, -⟩ | ⟨e, rfl, heq⟩⟩ := buscarDirectorio_ok hbusca
  · cases hnone
  cases heq
  have hrec := encontrarEntrada_recorrido hencuentra
  obtain ⟨d', o, hcolocar', hfinal⟩ := colocarNueva_ok hcolocar
  obtain ⟨hnone, rfl, rfl, rfl⟩ | ⟨i, hprimera, rfl, hexpandir⟩ :=
    colocarEntradaDentroDeDirectorio_ok hcolocar'
  · -- no slot was free, so the entry was never stored
    obtain ⟨hcero, -⟩ | ⟨-, rfl⟩ := hfinal
    · cases hcero
    · rw [Fs.poner_self hu]
      constructor
      · rintro - ⟨-, ⟨i, hi⟩, -⟩
        rw [hnone] at hi
        cases hi
      · exact fun _ _ ↦ hrec
  · by_cases hlleno : d.cantidadEntradas = d.cantidadEntradasOcupadas + 1
    · have hpide : pedirTodo d.peticiones m₁ = .ok (decide (r = 0), m') :=
        @expandirEntrdasDir_pide (d.con ent.ahora i nueva) _ _ _ _ hlleno hexpandir
      obtain ⟨rfl, -⟩ | ⟨hr, rfl⟩ := hfinal
      · constructor
        · rintro - ⟨-, -, m₂, hno⟩
          rw [hpide] at hno
          cases hno
        · exact fun _ hneg ↦ absurd hneg (Int.lt_irrefl 0)
      · rw [decide_eq_false hr] at hpide
        have hneg : r < 0 := by
          obtain hcero | rfl := expandirEntrdasDir_ret hexpandir
          · exact absurd hcero hr
          · decide
        constructor
        · intro hsi
          exact absurd (hsi hneg) (not_recorrido_fallida hrec hu hprimera hlleno hexpandir)
        · exact fun hno ↦ absurd ⟨hlleno, ⟨i, hprimera⟩, m', hpide⟩ hno
    · obtain ⟨-, rfl, -⟩ | ⟨hsi, -⟩ := expandirEntrdasDir_ok hexpandir
      · exact ⟨fun _ hsi ↦ hlleno hsi.1, fun _ hneg ↦ absurd hneg (Int.lt_irrefl 0)⟩
      · exact absurd hsi hlleno

/-- A directory for which there is memory, but not for its vector. -/
theorem creacion_fallida_sin_vector :
    ∃ fs' m', fisopfsMkdir 10000 ⟨0, 0, 0, fun _ ↦ 0⟩ [barra, punto] 0
        (Sistema.nuevo ⟨0, 0, 0, fun _ ↦ 0⟩).fs ⟨[true, false], false⟩ = .ok ((-enomem, fs'), m') ∧
      (Sistema.nuevo ⟨0, 0, 0, fun _ ↦ 0⟩).fs.Recorrido 0 fs' := by
  obtain ⟨fs', m', hmkdir⟩ : ∃ fs' m', fisopfsMkdir 10000 ⟨0, 0, 0, fun _ ↦ 0⟩ [barra, punto] 0
      (Sistema.nuevo ⟨0, 0, 0, fun _ ↦ 0⟩).fs ⟨[true, false], false⟩ = .ok ((-enomem, fs'), m') :=
    ⟨_, _, rfl⟩
  have hiff := creacion_fallida_iff (.mkdir [barra, punto] 0) 10000 ⟨0, 0, 0, fun _ ↦ 0⟩ _ _ hmkdir
  refine ⟨fs', m', hmkdir, hiff.mpr ?_ (by decide)⟩
  rintro ⟨fs₁, u, d, m₁, m₂, ⟨-, -, -, -, hservido⟩, -⟩
  cases hservido

/-- The fifth file of the root directory, with memory for the file but not for the larger vector:
the call fails, and the directory has lost its vector and doubled its capacity. -/
theorem creacion_malograda :
    ∃ s s' es fs' m', s.Inicial ∧ Run (PasoServido 100000) s es s' ∧
      fisopfsCreate 100000 ⟨0, 0, 0, fun _ ↦ 0⟩ [barra, punto] 0o100644 s'.fs
        ⟨[true, false], false⟩ = .ok ((-enomem, fs'), m') ∧
      s'.fs.raiz.cantidadEntradas = 5 ∧ s'.fs.raiz.entradas.length = 5 ∧
      fs'.raiz.cantidadEntradas = 10 ∧ fs'.raiz.entradas = [] ∧ ¬ s'.fs.Recorrido 0 fs' := by
  have hcorre : (correr 100000
      (List.replicate 4 (Llamada.create [barra, punto] 0o100644).simple)
      (Sistema.nuevo ⟨0, 0, 0, fun _ ↦ 0⟩)).any (fun s ↦
        (s.fs.raiz.cantidadEntradas == (5 : UInt64)) && (s.fs.raiz.entradas.length == (5 : ℕ)) &&
        match fisopfsCreate 100000 ⟨0, 0, 0, fun _ ↦ 0⟩ [barra, punto] 0o100644 s.fs
          ⟨[true, false], false⟩ with
        | .ok ((r, fs'), _) =>
          (r == -enomem) && (fs'.raiz.cantidadEntradas == (10 : UInt64)) && fs'.raiz.entradas.isEmpty
        | .error _ => false) = true := by
    decide +kernel
  obtain ⟨s', hs', hfinal⟩ := (Option.any_eq_true _ _).mp hcorre
  simp only [Bool.and_eq_true, beq_iff_eq] at hfinal
  obtain ⟨⟨hcinco, hlargo⟩, hfalla⟩ := hfinal
  split at hfalla
  next r fs' m' hcreate =>
    simp only [Bool.and_eq_true, beq_iff_eq, List.isEmpty_iff] at hfalla
    obtain ⟨⟨rfl, hdiez⟩, hnada⟩ := hfalla
    refine ⟨_, s', _, fs', m', Sistema.nuevo_inicial _, run_correr hs', hcreate, hcinco, hlargo,
      hdiez, hnada, fun hrec ↦ ?_⟩
    obtain ⟨e, he, hcapacidad⟩ := hrec.capacidad (v := []) (Entrada.en_nil _)
    cases he
    rw [hcinco, hdiez] at hcapacidad
    exact absurd hcapacidad (by decide)
  · cases hfalla

end Failure

end SistemasOperativos.FisopFs
