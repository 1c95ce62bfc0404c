import SistemasOperativos.FisopFs.Tree
import SistemasOperativos.Library.Inversion

/-!
# What a call can do

For each function of the file system, the list of the outcomes it can have when it returns. Every
invariant is proved from these lists, so that no later proof unfolds a handler.
-/

namespace SistemasOperativos.FisopFs

open Library

/-! ## The heap -/

theorem pedir_ok {n : UInt64} {m m' : Memoria} {r : Bool} (h : pedir n m = .ok (r, m')) :
    (r = true ∧ n.toNat ≤ ptrdiffMax) ∨ (r = false ∧ m'.agotada = true) := by
  unfold pedir at h
  split at h
  · cases h
    exact .inr ⟨rfl, rfl⟩
  · split at h
    · cases h
      exact .inl ⟨rfl, by omega⟩
    · cases h
      cases r
      · exact .inr ⟨rfl, by simp⟩
      · exact .inl ⟨rfl, by omega⟩

theorem pedir_returns (n : UInt64) (m : Memoria) : ∃ r m', pedir n m = .ok (r, m') := by
  unfold pedir
  split
  · exact ⟨_, _, rfl⟩
  · split <;> exact ⟨_, _, rfl⟩

theorem crearEntradaVacia_ok {m m' : Memoria} {e : Entrada}
    (h : crearEntradaVacia m = .ok (e, m')) :
    e = .vacio ∨ (e = .nula ∧ m'.agotada = true) := by
  simp only [crearEntradaVacia, StateT.bind_ok] at h
  obtain ⟨reservado, m₁, hpedir, h⟩ := h
  obtain ⟨rfl, -⟩ | ⟨rfl, hagotada⟩ := pedir_ok hpedir
  · simp only [if_true, StateT.pure_ok] at h
    cases h
    exact .inl rfl
  · simp only [Bool.false_eq_true, if_false, StateT.pure_ok] at h
    cases h
    exact .inr ⟨rfl, hagotada⟩

/-! ## Vectors -/

theorem take_succ_set {α : Type} {l : List α} {j : ℕ} (hj : j < l.length) (x : α) :
    (l.set j x).take (j + 1) = l.take j ++ [x] := by
  rw [List.take_succ_eq_append_getElem (by simpa using hj), List.take_set_of_le (Nat.le_refl j),
    List.getElem_set_self]

/-- The loop fills `n` slots, or stops at the first one for which there is no memory. -/
theorem llenarDesde_ok {n j : ℕ} {entradas entradas' : List Entrada} {r : ℤ} {m m' : Memoria}
    (h : llenarDesde entradas j n m = .ok ((r, entradas'), m')) :
    (r = 0 ∧ (n = 0 ∨ j + n ≤ entradas.length) ∧
      entradas' = entradas.take j ++ List.replicate n .vacio ++ entradas.drop (j + n)) ∨
    (r = -enomem ∧ m'.agotada = true ∧ ∃ k, k < n ∧ j + k < entradas.length ∧
      entradas' = entradas.take j ++ List.replicate k .vacio ++
        .nula :: entradas.drop (j + k + 1)) := by
  induction n generalizing j entradas m with
  | zero =>
    simp only [llenarDesde, StateT.pure_ok] at h
    cases h
    exact .inl ⟨rfl, .inl rfl, by simp⟩
  | succ n ih =>
    simp only [llenarDesde, StateT.bind_ok] at h
    obtain ⟨nueva, m₁, hnueva, h⟩ := h
    by_cases hj : entradas.length ≤ j
    · simp [hj, StateT.bind_ok, StateT.throw_ok] at h
    · have hlt : j < entradas.length := by omega
      simp only [hj, if_false] at h
      obtain rfl | ⟨rfl, hagotada⟩ := crearEntradaVacia_ok hnueva
      · have hdrop (k : ℕ) : (entradas.set j .vacio).drop (j + 1 + k) = entradas.drop (j + (k + 1)) := by
          rw [List.drop_set_of_lt (by omega)]
          congr 1
          omega
        have hreplicate (k : ℕ) : entradas.take j ++ [Entrada.vacio] ++ List.replicate k .vacio =
            entradas.take j ++ List.replicate (k + 1) .vacio := by
          rw [List.append_assoc, List.replicate_succ, List.singleton_append]
        obtain ⟨rfl, hlen, rfl⟩ | ⟨rfl, hagotada, k, hk, hlen, rfl⟩ := ih h
        · rw [List.length_set] at hlen
          refine .inl ⟨rfl, .inr (by omega), ?_⟩
          rw [take_succ_set hlt, hreplicate, hdrop]
        · rw [List.length_set] at hlen
          refine .inr ⟨rfl, hagotada, k + 1, by omega, by omega, ?_⟩
          rw [take_succ_set hlt, hreplicate, Nat.add_assoc, hdrop]
          rfl
      · simp only [StateT.pure_ok] at h
        cases h
        refine .inr ⟨rfl, hagotada, 0, by omega, by omega, ?_⟩
        rw [List.set_eq_take_append_cons_drop, if_pos hlt]
        simp

/-- A vector is reallocated with its old slots first, or lost. -/
theorem reservarEntradas_ok {entradas entradas' : List Entrada} {cantidad : UInt64} {r : Bool}
    {m m' : Memoria} (h : reservarEntradas entradas cantidad m = .ok ((r, entradas'), m')) :
    (r = true ∧ (cantidad * sizeofPuntero).toNat ≤ ptrdiffMax ∧
      entradas' = (entradas ++ List.replicate ((cantidad * sizeofPuntero).toNat / 8)
        Entrada.indefinida).take ((cantidad * sizeofPuntero).toNat / 8)) ∨
    (r = false ∧ m'.agotada = true ∧ entradas' = []) := by
  simp only [reservarEntradas, StateT.bind_ok] at h
  obtain ⟨reservado, m₁, hpedir, h⟩ := h
  obtain ⟨rfl, hmax⟩ | ⟨rfl, hagotada⟩ := pedir_ok hpedir
  · simp only [if_true, StateT.pure_ok] at h
    cases h
    exact .inl ⟨rfl, hmax, rfl⟩
  · simp only [Bool.false_eq_true, if_false, StateT.pure_ok] at h
    cases h
    exact .inr ⟨rfl, hagotada, rfl⟩

/-- A failed fill leaves an error and a refused request; in any case the directory keeps everything
but its slots. -/
theorem llenarDirectorioConEntradasVacias_ok {d d' : EntradaDirectorio} {r : ℤ} {m m' : Memoria}
    (h : llenarDirectorioConEntradasVacias d m = .ok ((r, d'), m')) :
    ∃ entradas, d' = { d with entradas } ∧
      llenarDesde d.entradas d.cantidadEntradasOcupadas.toNat
        (d.cantidadEntradas.toNat - d.cantidadEntradasOcupadas.toNat) m =
          .ok ((r, entradas), m') := by
  simp only [llenarDirectorioConEntradasVacias, StateT.bind_ok] at h
  obtain ⟨⟨r₁, entradas⟩, m₁, hllenar, h⟩ := h
  simp only [StateT.pure_ok] at h
  cases h
  exact ⟨entradas, rfl, hllenar⟩

namespace EntradaDirectorioDe

/-- The capacity that `expandir_entrdas_dir` asks for. -/
def ampliada (d : EntradaDirectorio) : UInt64 :=
  if d.cantidadEntradas = 0 then entradasIniciales else d.cantidadEntradas * multiplicadorEntradas

/-- The slots that the reallocation of a full vector starts from. -/
def previas (d : EntradaDirectorio) : List Entrada :=
  if d.cantidadEntradas = 0 then [] else d.entradas

end EntradaDirectorioDe

/-- A vector that is not full is left alone. A full one is reallocated and filled. -/
theorem expandirEntrdasDir_ok {d d' : EntradaDirectorio} {r : ℤ} {m m' : Memoria}
    (h : expandirEntrdasDir d m = .ok ((r, d'), m')) :
    (d.cantidadEntradas ≠ d.cantidadEntradasOcupadas ∧ r = 0 ∧ d' = d) ∨
    (d.cantidadEntradas = d.cantidadEntradasOcupadas ∧ ∃ base entradas reservado m₁,
      reservarEntradas d.previas d.ampliada m = .ok ((reservado, base), m₁) ∧
      d' = { d with cantidadEntradas := d.ampliada, entradas } ∧
      ((reservado = false ∧ r = -enomem ∧ entradas = base ∧ m' = m₁) ∨
       (reservado = true ∧ llenarDesde base d.cantidadEntradasOcupadas.toNat
          (d.ampliada.toNat - d.cantidadEntradasOcupadas.toNat) m₁ = .ok ((r, entradas), m')))) := by
  unfold expandirEntrdasDir at h
  by_cases hlleno : d.cantidadEntradas = d.cantidadEntradasOcupadas
  · rw [if_pos hlleno] at h
    have hpar : (if d.cantidadEntradas = 0 then ([], entradasIniciales)
        else (d.entradas, d.cantidadEntradas * multiplicadorEntradas)) =
        (d.previas, d.ampliada) := by
      unfold EntradaDirectorioDe.previas EntradaDirectorioDe.ampliada
      split <;> rfl
    simp only [hpar, StateT.bind_ok] at h
    obtain ⟨⟨reservado, base⟩, m₂, hreservar, h⟩ := h
    refine .inr ⟨hlleno, base, ?_⟩
    cases reservado with
    | false =>
      simp only [Bool.not_false, if_true, StateT.pure_ok] at h
      cases h
      exact ⟨base, false, m', hreservar, rfl, .inl ⟨rfl, rfl, rfl, rfl⟩⟩
    | true =>
      simp only [Bool.not_true, Bool.false_eq_true, if_false] at h
      obtain ⟨entradas, rfl, hllenar⟩ := llenarDirectorioConEntradasVacias_ok h
      exact ⟨entradas, true, m₂, hreservar, rfl, .inr ⟨rfl, hllenar⟩⟩
  · rw [if_neg hlleno, StateT.pure_ok] at h
    cases h
    exact .inl ⟨hlleno, rfl, rfl⟩

/-! ## Searching a vector -/

/-- A search that finds no entry has read all the slots and none of them has the property. -/
theorem primera_none {p : Entrada → Bool} {n : ℕ} {es : List Entrada}
    (h : primera p n es = .ok none) :
    n ≤ es.length ∧ ∀ i e, i < n → es[i]? = some e → e.asignada ∧ p e = false := by
  induction n generalizing es with
  | zero => exact ⟨Nat.zero_le _, fun _ _ hi ↦ absurd hi (Nat.not_lt_zero _)⟩
  | succ n ih =>
    cases es with
    | nil => cases h
    | cons e es =>
      simp only [primera, Except.bind_ok] at h
      obtain ⟨t, htipo, h⟩ := h
      have he : e.asignada := by cases e <;> first | rfl | cases htipo
      cases hp : p e with
      | true =>
        simp [hp, Except.pure_ok] at h
      | false =>
        simp only [hp, Bool.false_eq_true, if_false, Except.bind_ok, Except.pure_ok] at h
        obtain ⟨o, ho, h⟩ := h
        have hnone : o = none := by simpa using h
        obtain ⟨hlen, hall⟩ := ih (hnone ▸ ho)
        refine ⟨by simpa using hlen, fun i x hi hx ↦ ?_⟩
        cases i with
        | zero =>
          have hx : e = x := by simpa using hx
          exact hx ▸ ⟨he, hp⟩
        | succ i => exact hall i x (by omega) (by simpa using hx)

/-- A search that finds slot `i` has read the slots up to it, and it is the first with the
property. -/
theorem primera_some {p : Entrada → Bool} {n i : ℕ} {es : List Entrada}
    (h : primera p n es = .ok (some i)) :
    i < n ∧ (∃ e, es[i]? = some e ∧ e.asignada ∧ p e = true) ∧
      ∀ k e, k < i → es[k]? = some e → e.asignada ∧ p e = false := by
  induction n generalizing es i with
  | zero => cases h
  | succ n ih =>
    cases es with
    | nil => cases h
    | cons e es =>
      simp only [primera, Except.bind_ok] at h
      obtain ⟨t, htipo, h⟩ := h
      have he : e.asignada := by cases e <;> first | rfl | cases htipo
      cases hp : p e with
      | true =>
        simp only [hp, if_true, Except.pure_ok] at h
        cases h
        exact ⟨Nat.succ_pos n, ⟨e, rfl, he, hp⟩, fun _ _ hk ↦ absurd hk (Nat.not_lt_zero _)⟩
      | false =>
        simp only [hp, Bool.false_eq_true, if_false, Except.bind_ok, Except.pure_ok] at h
        obtain ⟨o, ho, h⟩ := h
        obtain ⟨k, hk, hik⟩ : ∃ k, o = some k ∧ i = k + 1 := by
          cases o with
          | none => simp at h
          | some k => exact ⟨k, rfl, by simpa using h.symm⟩
        subst hk hik
        obtain ⟨hlt, ⟨x, hx, hxp⟩, hall⟩ := ih ho
        refine ⟨by omega, ⟨x, by simpa using hx, hxp⟩, fun j y hj hy ↦ ?_⟩
        cases j with
        | zero =>
          have hy : e = y := by simpa using hy
          exact hy ▸ ⟨he, hp⟩
        | succ j => exact hall j y (by omega) (by simpa using hy)

/-- Where the slots that a search may read can be read, it returns. -/
theorem primera_lee {p : Entrada → Bool} {n : ℕ} {es : List Entrada}
    (h : ∀ i < n, ∃ e, es[i]? = some e ∧ e.asignada = true) : ∃ o, primera p n es = .ok o := by
  induction n generalizing es with
  | zero => exact ⟨none, rfl⟩
  | succ n ih =>
    obtain ⟨e, he, hasignada⟩ := h 0 (Nat.succ_pos n)
    cases es with
    | nil => cases he
    | cons x es =>
      cases he
      obtain ⟨t, ht⟩ : ∃ t, e.tipo = .ok t := by
        cases e <;> first | exact ⟨_, rfl⟩ | cases hasignada
      obtain ⟨o, ho⟩ := @ih es fun i hi ↦ h (i + 1) (Nat.succ_lt_succ hi)
      cases hp : p e with
      | true => exact ⟨some 0, by simp [primera, ht, hp, bind, Except.bind, pure, Except.pure]⟩
      | false =>
        exact ⟨o.map (· + 1), by simp [primera, ht, hp, ho, bind, Except.bind, pure, Except.pure]⟩

theorem asignada_of_lt {n i : ℕ} {es : List Entrada} (hlen : n ≤ es.length)
    (hes : ∀ e ∈ es, e.asignada) (hi : i < n) : ∃ e, es[i]? = some e ∧ e.asignada = true := by
  have hget : es[i]? = some es[i] := List.getElem?_eq_getElem (Nat.lt_of_lt_of_le hi hlen)
  exact ⟨_, hget, hes _ (List.mem_of_getElem? hget)⟩

/-- Where every slot can be read, a search returns. -/
theorem primera_returns {p : Entrada → Bool} {n : ℕ} {es : List Entrada} (hlen : n ≤ es.length)
    (hes : ∀ e ∈ es, e.asignada) : ∃ o, primera p n es = .ok o :=
  primera_lee fun _ hi ↦ asignada_of_lt hlen hes hi

/-! ## Placing an entry -/

/-- The directory with a new entry in one of its slots, before its vector grows. -/
def EntradaDirectorioDe.con (d : EntradaDirectorio) (ahora : UInt64) (i : ℕ) (nueva : Entrada) :
    EntradaDirectorio :=
  { d with
    entradas := d.entradas.set i nueva
    cantidadEntradasOcupadas := d.cantidadEntradasOcupadas + 1
    st := d.st.tocar ahora }

theorem colocarEntradaDentroDeDirectorio_ok {ahora : UInt64} {d d' : EntradaDirectorio}
    {nueva : Entrada} {r : ℤ} {o : Option ℕ} {m m' : Memoria}
    (h : colocarEntradaDentroDeDirectorio ahora d nueva m = .ok ((r, d', o), m')) :
    (primera Entrada.esVacio d.cantidadEntradas.toNat d.entradas = .ok none ∧
      r = -enoent ∧ d' = d ∧ o = none) ∨
    ∃ i, primera Entrada.esVacio d.cantidadEntradas.toNat d.entradas = .ok (some i) ∧ o = some i ∧
      expandirEntrdasDir (d.con ahora i nueva) m = .ok ((r, d'), m') := by
  simp only [colocarEntradaDentroDeDirectorio, StateT.bind_ok, StateT.lift_ok] at h
  obtain ⟨o', m₁, ⟨o'', hprimera, heq⟩, h⟩ := h
  cases heq
  cases o' with
  | none =>
    simp only [StateT.pure_ok] at h
    cases h
    exact .inl ⟨hprimera, rfl, rfl, rfl⟩
  | some i =>
    simp only [StateT.bind_ok] at h
    obtain ⟨⟨r₁, d₁⟩, m₂, hexpandir, h⟩ := h
    simp only [StateT.pure_ok] at h
    cases h
    exact .inr ⟨i, hprimera, rfl, hexpandir⟩

/-- A directory that `crear_dir` returns comes out of the expansion of an empty vector. -/
theorem crearDir_ok {ent : Entorno} {reservado : Bool} {path : Cadena} {mode : UInt32}
    {d : EntradaDirectorio} {m m' : Memoria}
    (h : crearDir ent reservado path mode m = .ok (.ok d, m')) :
    ∃ nombre : Nombre, nombre.cadena = path ∧ ∃ m₁,
      expandirEntrdasDir
        { nombre, st := statNuevo ent mode, cantidadEntradas := 0, cantidadEntradasOcupadas := 0,
          entradas := [] } m₁ = .ok ((0, d), m') := by
  unfold crearDir at h
  cases reservado with
  | false =>
    simp only [Bool.not_false, if_true, StateT.pure_ok] at h
    cases h
  | true =>
    simp only [Bool.not_true, Bool.false_eq_true, if_false] at h
    split at h
    · simp only [StateT.bind_ok] at h
      obtain ⟨⟨r, d₁⟩, m₁, hexpandir, h⟩ := h
      by_cases hr : r ≠ 0
      · rw [if_pos hr, StateT.pure_ok] at h
        cases h
      · rw [if_neg hr, StateT.pure_ok] at h
        cases h
        obtain rfl : r = 0 := by simpa using hr
        exact ⟨_, rfl, m, hexpandir⟩
    · simp only [StateT.pure_ok] at h
      cases h

theorem crearDir_error {ent : Entorno} {reservado : Bool} {path : Cadena} {mode : UInt32}
    {r : ℤ} {m m' : Memoria} (h : crearDir ent reservado path mode m = .ok (.error r, m')) :
    r ≠ 0 := by
  unfold crearDir at h
  cases reservado with
  | false =>
    simp only [Bool.not_false, if_true, StateT.pure_ok] at h
    cases h
    decide
  | true =>
    simp only [Bool.not_true, Bool.false_eq_true, if_false] at h
    split at h
    · simp only [StateT.bind_ok] at h
      obtain ⟨⟨r₁, d₁⟩, m₁, hexpandir, h⟩ := h
      by_cases hr : r₁ ≠ 0
      · rw [if_pos hr, StateT.pure_ok] at h
        cases h
        exact hr
      · rw [if_neg hr, StateT.pure_ok] at h
        cases h
    · simp only [StateT.pure_ok] at h
      cases h
      decide

theorem crearArchivo_ok {ent : Entorno} {nombre : Cadena} {modo : UInt32} {a : EntradaArchivo}
    (h : crearArchivo ent nombre modo = .ok a) :
    a.nombre.cadena = nombre ∧ a.st = statNuevo ent modo ∧ a.contenido = [] := by
  unfold crearArchivo at h
  split at h
  · cases h
    exact ⟨rfl, rfl, rfl⟩
  · cases h

theorem crearArchivo_error {ent : Entorno} {nombre : Cadena} {modo : UInt32} {r : ℤ}
    (h : crearArchivo ent nombre modo = .error r) : r ≠ 0 := by
  unfold crearArchivo at h
  split at h
  · cases h
  · cases h
    decide

theorem colocarNueva_ok {ent : Entorno} {fs fs' : Fs} {u : Ubicacion} {d : EntradaDirectorio}
    {nueva : Entrada} {tam : UInt64} {r : ℤ} {m m' : Memoria}
    (h : colocarNueva ent fs u d nueva tam m = .ok ((r, fs'), m')) :
    ∃ d' o, colocarEntradaDentroDeDirectorio ent.ahora d nueva m = .ok ((r, d', o), m') ∧
      ((r = 0 ∧ fs' = (fs.poner u (.directorio d')).sumar tam) ∨
       (r ≠ 0 ∧ fs' = fs.poner u (.directorio { d' with
          entradas := match o with
            | some i => d'.entradas.set i .indefinida
            | none => d'.entradas }))) := by
  simp only [colocarNueva, StateT.bind_ok] at h
  obtain ⟨⟨r₁, d', o⟩, m₁, hcolocar, h⟩ := h
  by_cases hr : r₁ ≠ 0
  · simp only [if_pos hr, StateT.pure_ok] at h
    cases h
    exact ⟨d', o, hcolocar, .inr ⟨hr, rfl⟩⟩
  · simp only [if_neg hr, StateT.pure_ok] at h
    cases h
    obtain rfl : r₁ = 0 := by simpa using hr
    exact ⟨d', o, hcolocar, .inl ⟨rfl, rfl⟩⟩

/-! ## Lookups -/

/-- The directory with its access time changed. -/
def EntradaDirectorioDe.accedido (d : EntradaDirectorio) (ahora : UInt64) : EntradaDirectorio :=
  { d with st := { d.st with stAtime := ahora } }

/-- What a search does to the tree: it changes the access time of the directories on its way. -/
inductive Recorrido (ahora : UInt64) : EntradaDirectorio → EntradaDirectorio → Prop where
  | llega (d : EntradaDirectorio) : Recorrido ahora d (d.accedido ahora)
  | sigue {d hijo hijo' : EntradaDirectorio} {i : ℕ} :
      d.entradas[i]? = some (.directorio hijo) → Recorrido ahora hijo hijo' →
      Recorrido ahora d
        { d.accedido ahora with entradas := d.entradas.set i (.directorio hijo') }

theorem encontrarEntradaRec_recorrido {ahora : UInt64} {pila : ℕ} {entradaA : Cadena}
    {resto : Option Cadena} {d d' : EntradaDirectorio} {p : Option Ubicacion}
    (h : encontrarEntradaRec ahora pila entradaA resto d = .ok (d', p)) :
    Recorrido ahora d d' := by
  induction pila generalizing entradaA resto d d' p with
  | zero => cases h
  | succ pila ih =>
    simp only [encontrarEntradaRec, Except.bind_ok] at h
    obtain ⟨o, -, h⟩ := h
    cases o with
    | none =>
      cases h
      exact .llega d
    | some i =>
      cases resto with
      | none =>
        cases h
        exact .llega d
      | some resto =>
        cases hi : d.entradas[i]? with
        | none =>
          simp only [hi] at h
          cases h
          exact .llega d
        | some e =>
          cases e with
          | directorio hijo =>
            simp only [hi, Except.bind_ok] at h
            obtain ⟨⟨siguiente, siguienteResto⟩, -, ⟨hijo', u⟩, hrec, h⟩ := h
            cases h
            exact .sigue hi (ih hrec)
          | _ =>
            simp only [hi] at h
            cases h
            exact .llega d

namespace Fs

/-- The file system before and after a search. -/
def Recorrido (ahora : UInt64) (fs fs' : Fs) : Prop :=
  fs'.espacioTotalOcupadoFs = fs.espacioTotalOcupadoFs ∧ fs'.desbordado = fs.desbordado ∧
    (fs'.raiz = fs.raiz ∨ FisopFs.Recorrido ahora fs.raiz fs'.raiz)

theorem Recorrido.refl (ahora : UInt64) (fs : Fs) : fs.Recorrido ahora fs := ⟨rfl, rfl, .inl rfl⟩

end Fs

theorem encontrarEntrada_recorrido {ahora : UInt64} {path : Cadena} {fs fs' : Fs}
    {p : Option Ubicacion} (h : encontrarEntrada ahora path fs = .ok (fs', p)) :
    fs.Recorrido ahora fs' := by
  unfold encontrarEntrada at h
  by_cases hraiz : path = [barra]
  · rw [if_pos hraiz] at h
    cases h
    exact .refl ahora fs
  · rw [if_neg hraiz] at h
    cases path with
    | nil => cases h
    | cons c resto =>
      simp only [Except.bind_ok] at h
      obtain ⟨⟨entradaA, restoDelPath⟩, -, ⟨raiz, u⟩, hrec, h⟩ := h
      cases h
      exact ⟨rfl, rfl, .inr (encontrarEntradaRec_recorrido hrec)⟩

theorem buscarDirectorio_ok {ahora : UInt64} {path : Cadena} {fs fs' : Fs} {nombre : Cadena}
    {destino : Option (Ubicacion × EntradaDirectorio)}
    (h : buscarDirectorio ahora path fs = .ok (fs', nombre, destino)) :
    ∃ pathDirectorio u x, obtenerDirectorioPath path = .ok pathDirectorio ∧
      obtenerNombreFinalPath path = .ok nombre ∧
      encontrarEntrada ahora pathDirectorio fs = .ok (fs', some u) ∧ fs'.en u = some x ∧
      ((destino = none ∧ x.esDirectorio = false) ∨
        ∃ d, x = .directorio d ∧ destino = some (u, d)) := by
  simp only [buscarDirectorio, Except.bind_ok] at h
  obtain ⟨pathDirectorio, hpath, nombre', hnombre, ⟨fs₁, p⟩, hbusca, x, hx, h⟩ := h
  obtain ⟨u, rfl, hx⟩ := Fs.apuntada_ok.mp hx
  cases x with
  | directorio d =>
    cases h
    exact ⟨pathDirectorio, u, _, hpath, hnombre, hbusca, hx, .inr ⟨d, rfl, rfl⟩⟩
  | nula => cases h
  | indefinida => cases h
  | _ =>
    cases h
    exact ⟨pathDirectorio, u, _, hpath, hnombre, hbusca, hx, .inl ⟨rfl, rfl⟩⟩

theorem buscarArchivo_ok {ahora : UInt64} {path : Cadena} {fs fs' : Fs}
    {buscado : Except ℤ (Ubicacion × EntradaArchivo)}
    (h : buscarArchivo ahora path fs = .ok (fs', buscado)) :
    ∃ p, encontrarEntrada ahora path fs = .ok (fs', p) ∧
      ((∃ r, buscado = .error r ∧ r < 0 ∧ ∀ u a, p = some u → fs'.en u ≠ some (.archivo a)) ∨
       ∃ u a, p = some u ∧ fs'.en u = some (.archivo a) ∧ buscado = .ok (u, a)) := by
  simp only [buscarArchivo, Except.bind_ok] at h
  obtain ⟨⟨fs₁, p⟩, hbusca, h⟩ := h
  cases p with
  | none =>
    cases h
    exact ⟨none, hbusca, .inl ⟨_, rfl, by decide, fun _ _ hu ↦ nomatch hu⟩⟩
  | some u =>
    simp only [Except.bind_ok] at h
    obtain ⟨x, hx, h⟩ := h
    obtain ⟨v, hv, hx⟩ := Fs.apuntada_ok.mp hx
    cases hv
    cases x with
    | archivo a =>
      cases h
      exact ⟨some u, hbusca, .inr ⟨u, a, rfl, hx, rfl⟩⟩
    | nula => cases h
    | indefinida => cases h
    | _ =>
      cases h
      refine ⟨some u, hbusca, .inl ⟨_, rfl, by decide, fun v b hv hb ↦ ?_⟩⟩
      cases hv
      rw [hx] at hb
      cases hb

/-! ## Handlers -/

/-- An entry written again with the same name and the same size. -/
inductive Retocada : Entrada → Entrada → Prop where
  | archivo {a a' : EntradaArchivo} : a'.nombre = a.nombre → a'.st.stSize = a.st.stSize →
      a'.contenido.length = a.contenido.length → Retocada (.archivo a) (.archivo a')
  | directorio (d : EntradaDirectorio) (st : Stat) :
      Retocada (.directorio d) (.directorio { d with st })

/-- An entry that has just been created, with the bytes it takes in the image. -/
inductive Nueva : Entrada → UInt64 → Prop where
  | archivo {a : EntradaArchivo} : a.st.stSize = 0 → Nueva (.archivo a) sizeofEntradaArchivo
  | directorio {d : EntradaDirectorio} {nombre : Nombre} {st : Stat} {m m' : Memoria} :
      expandirEntrdasDir ⟨nombre, st, 0, 0, []⟩ m = .ok ((0, d), m') →
      Nueva (.directorio d) sizeofEntradaDirectorio

/-- An entry that may be removed, with the bytes that its removal takes off the counter, and the
file that it is where it is one. -/
inductive Borrable : Entrada → UInt64 → Option EntradaArchivo → Prop where
  | archivo (a : EntradaArchivo) : Borrable (.archivo a) sizeofEntradaArchivo (some a)
  | directorio {d : EntradaDirectorio} : estaVacioDirectorio d = true →
      Borrable (.directorio d) sizeofEntradaDirectorio none

/-- The directory after the entry of one of its slots is removed. -/
def EntradaDirectorioDe.sin (d : EntradaDirectorio) (ahora : UInt64) (i : ℕ) : EntradaDirectorio :=
  { d with
    entradas := d.entradas.set i .vacio
    st := d.st.tocar ahora
    cantidadEntradasOcupadas := d.cantidadEntradasOcupadas - 1 }

/-- The directory after a new entry that could not be placed is freed. -/
def EntradaDirectorioDe.colgado (d : EntradaDirectorio) (o : Option ℕ) : EntradaDirectorio :=
  { d with
    entradas := match o with
      | some i => d.entradas.set i .indefinida
      | none => d.entradas }

/-- What a handler does to the file system after its search, where `agotada` tells whether the heap
has refused a request, with the file that is removed where one is. -/
inductive Cambio (max : UInt64) (fs : Fs) (agotada : Bool) : Option EntradaArchivo → Fs → Prop where
  | nada : Cambio max fs agotada none fs
  | retoque {u : Ubicacion} {x y : Entrada} : fs.en u = some x → Retocada x y →
      Cambio max fs agotada none (fs.poner u y)
  | tamano {u : Ubicacion} {a a' : EntradaArchivo} : fs.en u = some (.archivo a) →
      a'.nombre = a.nombre →
      (a'.st.stSize = 0 ∨ (a'.st.stSize.toNat = a'.contenido.length ∧
        a'.st.stSize.toNat ≤ ptrdiffMax ∧
        ¬ max < fs.espacioTotalOcupadoFs + a'.st.stSize - a.st.stSize)) →
      Cambio max fs agotada none ((fs.recontar a.st.stSize a'.st.stSize).poner u (.archivo a'))
  | colocacion {u : Ubicacion} {d d' : EntradaDirectorio} {nueva : Entrada} {tam ahora : UInt64}
      {o : Option ℕ} {m m' : Memoria} : fs.en u = some (.directorio d) → Nueva nueva tam →
      ¬ max < fs.espacioTotalOcupadoFs + tam →
      colocarEntradaDentroDeDirectorio ahora d nueva m = .ok ((0, d', o), m') →
      Cambio max fs agotada none ((fs.poner u (.directorio d')).sumar tam)
  | fallida {u : Ubicacion} {d d' : EntradaDirectorio} {nueva : Entrada} {tam ahora : UInt64}
      {r : ℤ} {o : Option ℕ} {m m' : Memoria} : fs.en u = some (.directorio d) → Nueva nueva tam →
      ¬ max < fs.espacioTotalOcupadoFs + tam → r ≠ 0 → m'.agotada = agotada →
      colocarEntradaDentroDeDirectorio ahora d nueva m = .ok ((r, d', o), m') →
      Cambio max fs agotada none (fs.poner u (.directorio (d'.colgado o)))
  | borrado {u : Ubicacion} {d : EntradaDirectorio} {x : Entrada} {tam ahora : UInt64} {i : ℕ}
      {p : Entrada → Bool} {quita : Option EntradaArchivo} : fs.en u = some (.directorio d) →
      primera p d.cantidadEntradas.toNat d.entradas = .ok (some i) → d.entradas[i]? = some x →
      Borrable x tam quita →
      Cambio max fs agotada quita ((fs.poner u (.directorio (d.sin ahora i))).restar tam)

/-- A handler searches and then changes the file system. -/
def Fs.Pasa (max ahora : UInt64) (fs : Fs) (agotada : Bool) (quita : Option EntradaArchivo)
    (fs' : Fs) : Prop :=
  ∃ fs₁, fs.Recorrido ahora fs₁ ∧ Cambio max fs₁ agotada quita fs'

theorem Fs.Recorrido.pasa {max ahora : UInt64} {fs fs' : Fs} (h : fs.Recorrido ahora fs')
    (agotada : Bool) : fs.Pasa max ahora agotada none fs' := ⟨fs', h, .nada⟩

theorem Fs.Pasa.refl (max ahora : UInt64) (fs : Fs) (agotada : Bool) :
    fs.Pasa max ahora agotada none fs := ⟨fs, .refl ahora fs, .nada⟩

variable {max : UInt64} {ent : Entorno} {path : Cadena} {fs fs' : Fs} {m m' : Memoria}

/-- An entry written again with other attributes: the name, the size and what it holds are the same. -/
inductive Atributos : Entrada → Entrada → Prop where
  | archivo (a : EntradaArchivo) {st : Stat} : st.stSize = a.st.stSize →
      Atributos (.archivo a) (.archivo { a with st })
  | directorio (d : EntradaDirectorio) (st : Stat) :
      Atributos (.directorio d) (.directorio { d with st })

theorem Atributos.retocada {x y : Entrada} (h : Atributos x y) : Retocada x y := by
  cases h with
  | archivo a hsize => exact .archivo rfl hsize rfl
  | directorio d st => exact .directorio d st

/-- What the calls do that change no name and no content: they search, and give the entry that they find
other attributes. -/
def Fs.Consulta (ahora : UInt64) (fs fs' : Fs) : Prop :=
  ∃ fs₁, fs.Recorrido ahora fs₁ ∧
    (fs' = fs₁ ∨ ∃ u x y, fs₁.en u = some x ∧ Atributos x y ∧ fs' = fs₁.poner u y)

theorem Fs.Recorrido.consulta {ahora : UInt64} {fs fs' : Fs} (h : fs.Recorrido ahora fs') :
    fs.Consulta ahora fs' := ⟨fs', h, .inl rfl⟩

theorem Fs.Consulta.refl (ahora : UInt64) (fs : Fs) : fs.Consulta ahora fs :=
  (Fs.Recorrido.refl ahora fs).consulta

theorem Fs.Recorrido.atributos {ahora : UInt64} {fs fs₁ : Fs} {u : Ubicacion} {x y : Entrada}
    (h : fs.Recorrido ahora fs₁) (hx : fs₁.en u = some x) (hxy : Atributos x y) :
    fs.Consulta ahora (fs₁.poner u y) := ⟨fs₁, h, .inr ⟨u, x, y, hx, hxy, rfl⟩⟩

theorem Fs.Consulta.pasa {max ahora : UInt64} {fs fs' : Fs} (h : fs.Consulta ahora fs')
    (agotada : Bool) : fs.Pasa max ahora agotada none fs' := by
  obtain ⟨fs₁, hrec, rfl | ⟨u, x, y, hx, hxy, rfl⟩⟩ := h
  · exact hrec.pasa agotada
  · exact ⟨fs₁, hrec, .retoque hx hxy.retocada⟩

theorem fisopfsGetattr_consulta {r : ℤ} {st : Option Stat}
    (h : fisopfsGetattr ent path fs m = .ok ((r, st, fs'), m')) : fs.Consulta ent.ahora fs' := by
  unfold fisopfsGetattr at h
  split at h
  · cases h
    exact .refl ..
  · simp only [StateT.bind_ok, StateT.lift_ok] at h
    obtain ⟨⟨fs₁, p⟩, m₁, ⟨_, hbusca, heq⟩, h⟩ := h
    cases heq
    have hrec := encontrarEntrada_recorrido hbusca
    cases p with
    | none =>
      cases h
      exact hrec.consulta
    | some u =>
      simp only [StateT.bind_ok, StateT.lift_ok] at h
      obtain ⟨x, m₂, ⟨_, hx, heq⟩, h⟩ := h
      cases heq
      cases x with
      | archivo a =>
        cases h
        exact hrec.consulta
      | directorio d =>
        cases h
        exact hrec.consulta
      | _ => cases h

theorem fisopfsReaddir_consulta {r : ℤ} {nombres : List Cadena}
    (h : fisopfsReaddir ent path fs m = .ok ((r, nombres, fs'), m')) :
    fs.Consulta ent.ahora fs' := by
  unfold fisopfsReaddir at h
  split at h
  · cases h
    exact .refl ..
  · simp only [StateT.bind_ok, StateT.lift_ok] at h
    obtain ⟨⟨fs₁, p⟩, m₁, ⟨_, hbusca, heq⟩, x, m₂, ⟨_, hx, heq'⟩, h⟩ := h
    cases heq
    cases heq'
    have hrec := encontrarEntrada_recorrido hbusca
    obtain ⟨u, rfl, hx⟩ := Fs.apuntada_ok.mp hx
    cases x with
    | directorio d =>
      simp only [StateT.bind_ok, StateT.lift_ok] at h
      obtain ⟨o, m₃, ⟨_, hprimera, heq⟩, h⟩ := h
      cases heq
      cases h
      exact hrec.atributos hx (.directorio d _)
    | nula => cases h
    | indefinida => cases h
    | _ =>
      cases h
      exact hrec.consulta

theorem fisopfsRead_consulta {r : ℤ} {size offset : UInt64} {bytes : List UInt8}
    (h : fisopfsRead ent path size offset fs m = .ok ((r, bytes, fs'), m')) :
    fs.Consulta ent.ahora fs' := by
  unfold fisopfsRead at h
  split at h
  · cases h
    exact .refl ..
  · simp only [StateT.bind_ok, StateT.lift_ok] at h
    obtain ⟨⟨fs₁, p⟩, m₁, ⟨_, hbusca, heq⟩, h⟩ := h
    cases heq
    have hrec := encontrarEntrada_recorrido hbusca
    cases p with
    | none =>
      cases h
      exact hrec.consulta
    | some u =>
      simp only [StateT.bind_ok, StateT.lift_ok] at h
      obtain ⟨x, m₂, ⟨_, hx, heq⟩, h⟩ := h
      cases heq
      obtain ⟨v, hv, hx⟩ := Fs.apuntada_ok.mp hx
      cases hv
      cases x with
      | archivo a =>
        dsimp only at h
        generalize (if a.st.stSize < offset + size then a.st.stSize - offset else size) = tam at h
        split at h
        · simp only [StateT.bind_ok, StateT.throw_ok, false_and, exists_false] at h
        · cases h
          exact hrec.atributos hx (.archivo a rfl)
      | nula => cases h
      | indefinida => cases h
      | _ =>
        cases h
        exact hrec.consulta

theorem fisopfsUtimens_consulta {r : ℤ} {ts : UInt64}
    (h : fisopfsUtimens ent path ts fs m = .ok ((r, fs'), m')) : fs.Consulta ent.ahora fs' := by
  unfold fisopfsUtimens at h
  split at h
  · cases h
    exact .refl ..
  · simp only [StateT.bind_ok, StateT.lift_ok] at h
    obtain ⟨⟨fs₁, p⟩, m₁, ⟨_, hbusca, heq⟩, h⟩ := h
    cases heq
    have hrec := encontrarEntrada_recorrido hbusca
    cases p with
    | none =>
      cases h
      exact hrec.consulta
    | some u =>
      simp only [StateT.bind_ok, StateT.lift_ok] at h
      obtain ⟨x, m₂, ⟨_, hx, heq⟩, h⟩ := h
      cases heq
      obtain ⟨v, hv, hx⟩ := Fs.apuntada_ok.mp hx
      cases hv
      cases x with
      | archivo a =>
        cases h
        exact hrec.atributos hx (.archivo a rfl)
      | directorio d =>
        cases h
        exact hrec.atributos hx (.directorio d _)
      | _ => cases h

/-- Where a creation got as far as asking for the new entry. -/
theorem colocarNueva_pasa {fs₁ : Fs} {u : Ubicacion} {d : EntradaDirectorio} {nueva : Entrada}
    {tam : UInt64} {r : ℤ} (hrec : fs.Recorrido ent.ahora fs₁)
    (hu : fs₁.en u = some (.directorio d)) (hnueva : Nueva nueva tam)
    (hmax : ¬ max < fs.espacioTotalOcupadoFs + tam)
    (h : colocarNueva ent fs₁ u d nueva tam m = .ok ((r, fs'), m')) :
    fs.Pasa max ent.ahora m'.agotada none fs' := by
  obtain ⟨d', o, hcolocar, ⟨rfl, rfl⟩ | ⟨hr, rfl⟩⟩ := colocarNueva_ok h
  · exact ⟨fs₁, hrec, .colocacion hu hnueva (hrec.1 ▸ hmax) hcolocar⟩
  · exact ⟨fs₁, hrec, .fallida hu hnueva (hrec.1 ▸ hmax) hr rfl hcolocar⟩

/-- `fisopfs_mkdir` fails before it changes anything, or places a directory that it has just made. -/
theorem fisopfsMkdir_ok {mode : UInt32} {r : ℤ}
    (h : fisopfsMkdir max ent path mode fs m = .ok ((r, fs'), m')) :
    (r ≠ 0 ∧ fs.Recorrido ent.ahora fs') ∨
    ∃ fs₁ nombre u d nuevo m₁ m₂ m₃,
      buscarDirectorio ent.ahora path fs = .ok (fs₁, nombre, some (u, d)) ∧
      ¬ max < fs.espacioTotalOcupadoFs + sizeofEntradaDirectorio ∧
      crearDir ent true nombre (sIfdir ||| mode) m₁ = .ok (.ok nuevo, m₂) ∧
      colocarNueva ent fs₁ u d (.directorio nuevo) sizeofEntradaDirectorio m₃ =
        .ok ((r, fs'), m') := by
  unfold fisopfsMkdir at h
  split at h
  · cases h
    exact .inl ⟨by decide, .refl ..⟩
  split at h
  · cases h
    exact .inl ⟨by decide, .refl ..⟩
  next hmax =>
    simp only [StateT.bind_ok, StateT.lift_ok] at h
    obtain ⟨⟨fs₁, nombre, destino⟩, m₁, ⟨_, hbusca, heq⟩, h⟩ := h
    cases heq
    obtain ⟨pd, v, x, -, -, hencuentra, hv, hdestino⟩ := buscarDirectorio_ok hbusca
    have hrec := encontrarEntrada_recorrido hencuentra
    cases destino with
    | none =>
      cases h
      exact .inl ⟨by decide, hrec⟩
    | some ud =>
      obtain ⟨u, d⟩ := ud
      simp only [StateT.bind_ok] at h
      obtain ⟨reservado, m₂, hpedir, creado, m₃, hcrear, h⟩ := h
      cases creado with
      | error resultado =>
        cases h
        exact .inl ⟨crearDir_error hcrear, hrec⟩
      | ok nuevo =>
        cases reservado with
        | false => simp [crearDir, StateT.pure_ok] at hcrear
        | true =>
          exact .inr ⟨fs₁, nombre, u, d, nuevo, m₂, m₃, m₃, hbusca, hmax, hcrear, h⟩

theorem fisopfsMkdir_pasa {mode : UInt32} {r : ℤ}
    (h : fisopfsMkdir max ent path mode fs m = .ok ((r, fs'), m')) :
    fs.Pasa max ent.ahora m'.agotada none fs' := by
  obtain ⟨-, hrec⟩ | ⟨fs₁, nombre, u, d, nuevo, m₁, m₂, m₃, hbusca, hmax, hcrear, hcolocar⟩ :=
    fisopfsMkdir_ok h
  · exact hrec.pasa _
  · obtain ⟨pd, v, x, -, -, hencuentra, hv, ⟨hnone, -⟩ | ⟨d', rfl, heq⟩⟩ := buscarDirectorio_ok hbusca
    · cases hnone
    · cases heq
      obtain ⟨nombre', -, m₄, hexpandir⟩ := crearDir_ok hcrear
      exact colocarNueva_pasa (encontrarEntrada_recorrido hencuentra) hv (.directorio hexpandir)
        hmax hcolocar

theorem fisopfsCreate_ok {mode : UInt32} {r : ℤ}
    (h : fisopfsCreate max ent path mode fs m = .ok ((r, fs'), m')) :
    (r ≠ 0 ∧ fs.Recorrido ent.ahora fs') ∨
    ∃ fs₁ nombre u d nuevo m₁,
      buscarDirectorio ent.ahora path fs = .ok (fs₁, nombre, some (u, d)) ∧
      ¬ max < fs.espacioTotalOcupadoFs + sizeofEntradaArchivo ∧
      crearArchivo ent nombre mode = .ok nuevo ∧
      colocarNueva ent fs₁ u d (.archivo nuevo) sizeofEntradaArchivo m₁ = .ok ((r, fs'), m') := by
  unfold fisopfsCreate at h
  split at h
  · cases h
    exact .inl ⟨by decide, .refl ..⟩
  split at h
  · cases h
    exact .inl ⟨by decide, .refl ..⟩
  next hmax =>
    simp only [StateT.bind_ok, StateT.lift_ok] at h
    obtain ⟨⟨fs₁, nombre, destino⟩, m₁, ⟨_, hbusca, heq⟩, h⟩ := h
    cases heq
    obtain ⟨pd, v, x, -, -, hencuentra, hv, hdestino⟩ := buscarDirectorio_ok hbusca
    have hrec := encontrarEntrada_recorrido hencuentra
    cases destino with
    | none =>
      cases h
      exact .inl ⟨by decide, hrec⟩
    | some ud =>
      obtain ⟨u, d⟩ := ud
      dsimp only at h
      split at h
      · simp only [StateT.bind_ok] at h
        obtain ⟨reservado, m₂, hpedir, h⟩ := h
        cases reservado with
        | false =>
          cases h
          exact .inl ⟨by decide, hrec⟩
        | true =>
          simp only [Bool.not_true, Bool.false_eq_true, if_false] at h
          cases hcrear : crearArchivo ent nombre mode with
          | error resultado =>
            rw [hcrear] at h
            cases h
            exact .inl ⟨crearArchivo_error hcrear, hrec⟩
          | ok nuevo =>
            rw [hcrear] at h
            exact .inr ⟨fs₁, nombre, u, d, nuevo, m₂, hbusca, hmax, hcrear, h⟩
      · cases h
        exact .inl ⟨by decide, hrec⟩

theorem fisopfsCreate_pasa {mode : UInt32} {r : ℤ}
    (h : fisopfsCreate max ent path mode fs m = .ok ((r, fs'), m')) :
    fs.Pasa max ent.ahora m'.agotada none fs' := by
  obtain ⟨-, hrec⟩ | ⟨fs₁, nombre, u, d, nuevo, m₁, hbusca, hmax, hcrear, hcolocar⟩ :=
    fisopfsCreate_ok h
  · exact hrec.pasa _
  · obtain ⟨pd, v, x, -, -, hencuentra, hv, ⟨hnone, -⟩ | ⟨d', rfl, heq⟩⟩ := buscarDirectorio_ok hbusca
    · cases hnone
    · cases heq
      obtain ⟨-, hst, -⟩ := crearArchivo_ok hcrear
      exact colocarNueva_pasa (encontrarEntrada_recorrido hencuentra) hv
        (.archivo (by rw [hst]; rfl)) hmax hcolocar

/-- The entry that a removal finds: the first one of the given type with the final name of the path,
in slot `i` of the directory `d` at location `u`. -/
def Halla (esDelTipo : Entrada → Bool) (ahora : UInt64) (path : Cadena) (fs fs₁ : Fs)
    (u : Ubicacion) (d : EntradaDirectorio) (i : ℕ) (x : Entrada) : Prop :=
  ∃ nombre, buscarDirectorio ahora path fs = .ok (fs₁, nombre, some (u, d)) ∧
    primera (fun e ↦ esDelTipo e && e.nombre == nombre) d.cantidadEntradas.toNat d.entradas =
      .ok (some i) ∧
    d.entradas[i]? = some x

section Halla

variable {esDelTipo : Entrada → Bool} {ahora : UInt64} {fs₁ : Fs} {u : Ubicacion}
  {d : EntradaDirectorio} {i : ℕ} {x : Entrada}

theorem Halla.unico {fs₂ : Fs} {v : Ubicacion} {d' : EntradaDirectorio} {j : ℕ} {y : Entrada}
    (h : Halla esDelTipo ahora path fs fs₁ u d i x)
    (h' : Halla esDelTipo ahora path fs fs₂ v d' j y) : x = y := by
  obtain ⟨nombre, hbusca, hprimera, hx⟩ := h
  obtain ⟨nombre', hbusca', hprimera', hy⟩ := h'
  rw [hbusca] at hbusca'
  cases hbusca'
  rw [hprimera] at hprimera'
  cases hprimera'
  rw [hx] at hy
  cases hy
  rfl

theorem Halla.delTipo (h : Halla esDelTipo ahora path fs fs₁ u d i x) : esDelTipo x = true := by
  obtain ⟨nombre, -, hprimera, hx⟩ := h
  obtain ⟨-, ⟨y, hy, -, hp⟩, -⟩ := primera_some hprimera
  rw [hx] at hy
  cases hy
  exact (Bool.and_eq_true_iff.mp hp).1

/-- The directory of the entry is in the tree after the search. -/
theorem Halla.en (h : Halla esDelTipo ahora path fs fs₁ u d i x) :
    fs.Recorrido ahora fs₁ ∧ fs₁.en u = some (.directorio d) := by
  obtain ⟨nombre, hbusca, -, -⟩ := h
  obtain ⟨pd, v, y, -, -, hencuentra, hv, ⟨hnone, -⟩ | ⟨d', rfl, heq⟩⟩ := buscarDirectorio_ok hbusca
  · cases hnone
  · cases heq
    exact ⟨encontrarEntrada_recorrido hencuentra, hv⟩

end Halla

/-- A removal fails before it changes anything, or empties the slot that it has found. -/
theorem eliminar_ok {esDelTipo : Entrada → Bool} {negado : Entrada → Option ℤ} {tam : UInt64}
    {r : ℤ} (hnegado : ∀ x r, negado x = some r → r ≠ 0)
    (h : eliminar ent esDelTipo negado tam path fs m = .ok ((r, fs'), m')) :
    (r ≠ 0 ∧ fs.Recorrido ent.ahora fs' ∧ (m'.agotada = true ∨
      ∀ fs₁ u d i x, Halla esDelTipo ent.ahora path fs fs₁ u d i x → negado x ≠ none)) ∨
    ∃ fs₁ u d i x, r = 0 ∧ Halla esDelTipo ent.ahora path fs fs₁ u d i x ∧ negado x = none ∧
      fs' = (fs₁.poner u (.directorio (d.sin ent.ahora i))).restar tam := by
  unfold eliminar at h
  split at h
  next hlargo =>
    cases h
    refine .inl ⟨by decide, .refl .., .inr ?_⟩
    rintro fs₁ u d i x ⟨nombre, hbusca, -⟩
    obtain ⟨pd, v, y, hpath, -⟩ := buscarDirectorio_ok hbusca
    simp only [obtenerDirectorioPath, strcpy, if_neg (Nat.not_lt.mpr (Nat.le_of_lt hlargo))] at hpath
    cases hpath
  simp only [StateT.bind_ok, StateT.lift_ok] at h
  obtain ⟨⟨fs₁, nombre, destino⟩, m₁, ⟨_, hbusca, heq⟩, h⟩ := h
  cases heq
  obtain ⟨pd, v, y, -, -, hencuentra, hv, hdestino⟩ := buscarDirectorio_ok hbusca
  have hrec := encontrarEntrada_recorrido hencuentra
  cases destino with
  | none =>
    cases h
    refine .inl ⟨by decide, hrec, .inr ?_⟩
    rintro fs₂ u d i x ⟨nombre', hbusca', -⟩
    rw [hbusca] at hbusca'
    cases hbusca'
  | some ud =>
    obtain ⟨u, d⟩ := ud
    simp only [StateT.bind_ok, StateT.lift_ok] at h
    obtain ⟨o, m₂, ⟨_, hprimera, heq⟩, h⟩ := h
    cases heq
    cases o with
    | none =>
      cases h
      refine .inl ⟨by decide, hrec, .inr ?_⟩
      rintro fs₂ u d i x ⟨nombre', hbusca', hprimera', -⟩
      rw [hbusca] at hbusca'
      cases hbusca'
      rw [hprimera] at hprimera'
      cases hprimera'
    | some i =>
      obtain ⟨-, ⟨x, hx, -⟩, -⟩ := primera_some hprimera
      have hhalla : Halla esDelTipo ent.ahora path fs fs₁ u d i x := ⟨nombre, hbusca, hprimera, hx⟩
      simp only [hx, Option.getD_some] at h
      cases hn : negado x with
      | some resultado =>
        rw [hn] at h
        cases h
        refine .inl ⟨hnegado x _ hn, hrec, .inr fun fs₂ v d' j y hy ↦ ?_⟩
        rw [← hhalla.unico hy, hn]
        exact Option.some_ne_none _
      | none =>
        simp only [hn, StateT.bind_ok] at h
        obtain ⟨nueva, m₃, hvacia, h⟩ := h
        obtain rfl | ⟨rfl, hagotada⟩ := crearEntradaVacia_ok hvacia
        · simp only [StateT.bind_ok, StateT.lift_ok] at h
          obtain ⟨_, m₄, ⟨_, hliberar, heq⟩, h⟩ := h
          cases heq
          cases h
          exact .inr ⟨fs₁, u, d, i, x, rfl, hhalla, hn, rfl⟩
        · cases h
          exact .inl ⟨by decide, hrec, .inl hagotada⟩

/-- `fisopfs_unlink` removes the file that it finds. -/
theorem fisopfsUnlink_ok {r : ℤ} (h : fisopfsUnlink ent path fs m = .ok ((r, fs'), m')) :
    (r ≠ 0 ∧ fs.Recorrido ent.ahora fs' ∧ (m'.agotada = true ∨
      ∀ fs₁ u d i x, ¬ Halla Entrada.esArchivo ent.ahora path fs fs₁ u d i x)) ∨
    ∃ fs₁ u d i a, r = 0 ∧ Halla Entrada.esArchivo ent.ahora path fs fs₁ u d i (.archivo a) ∧
      fs' = (fs₁.poner u (.directorio (d.sin ent.ahora i))).restar sizeofEntradaArchivo := by
  obtain ⟨hr, hrec, hno⟩ | ⟨fs₁, u, d, i, x, hr, hhalla, -, hfs⟩ :=
    eliminar_ok (fun _ _ hn ↦ by cases hn) h
  · refine .inl ⟨hr, hrec, hno.imp_right fun hno fs₁ u d i x hhalla ↦ ?_⟩
    exact hno fs₁ u d i x hhalla rfl
  · have htipo := hhalla.delTipo
    cases x with
    | archivo a => exact .inr ⟨fs₁, u, d, i, a, hr, hhalla, hfs⟩
    | _ => cases htipo

theorem noVacio_eq_none {d : EntradaDirectorio} :
    noVacio (.directorio d) = none ↔ estaVacioDirectorio d = true := by
  rw [noVacio]
  cases estaVacioDirectorio d <;> simp

/-- `fisopfs_rmdir` removes the directory that it finds, if the counter says that it has no
entries. -/
theorem fisopfsRmdir_ok {r : ℤ} (h : fisopfsRmdir ent path fs m = .ok ((r, fs'), m')) :
    (r ≠ 0 ∧ fs.Recorrido ent.ahora fs' ∧ (m'.agotada = true ∨
      ∀ fs₁ u d i e, Halla Entrada.esDirectorio ent.ahora path fs fs₁ u d i (.directorio e) →
        estaVacioDirectorio e = false)) ∨
    ∃ fs₁ u d i e, r = 0 ∧
      Halla Entrada.esDirectorio ent.ahora path fs fs₁ u d i (.directorio e) ∧
      estaVacioDirectorio e = true ∧
      fs' = (fs₁.poner u (.directorio (d.sin ent.ahora i))).restar sizeofEntradaDirectorio := by
  have hnegado (x : Entrada) (r : ℤ) (hn : noVacio x = some r) : r ≠ 0 := by
    cases x with
    | directorio d =>
      simp only [noVacio] at hn
      split at hn
      · cases hn
      · cases hn
        decide
    | _ => cases hn
  obtain ⟨hr, hrec, hno⟩ | ⟨fs₁, u, d, i, x, hr, hhalla, hn, hfs⟩ := eliminar_ok hnegado h
  · refine .inl ⟨hr, hrec, hno.imp_right fun hno fs₁ u d i e hhalla ↦ ?_⟩
    have hne := hno fs₁ u d i _ hhalla
    rw [ne_eq, noVacio_eq_none] at hne
    exact Bool.eq_false_iff.mpr hne
  · have htipo := hhalla.delTipo
    cases x with
    | directorio e => exact .inr ⟨fs₁, u, d, i, e, hr, hhalla, noVacio_eq_none.mp hn, hfs⟩
    | _ => cases htipo

theorem fisopfsUnlink_pasa {r : ℤ} (h : fisopfsUnlink ent path fs m = .ok ((r, fs'), m')) :
    ∃ quita, fs.Pasa max ent.ahora m'.agotada quita fs' ∧ (m'.agotada = false →
      ∀ a, quita = some a ↔
        ∃ fs₁ u d i, Halla Entrada.esArchivo ent.ahora path fs fs₁ u d i (.archivo a)) := by
  obtain ⟨-, hrec, hno⟩ | ⟨fs₁, u, d, i, a, -, hhalla, rfl⟩ := fisopfsUnlink_ok h
  · refine ⟨none, hrec.pasa _, fun hservido a ↦ ⟨nofun, ?_⟩⟩
    rintro ⟨fs₁, u, d, i, hhalla⟩
    obtain hagotada | hno := hno
    · rw [hservido] at hagotada
      cases hagotada
    · exact absurd hhalla (hno fs₁ u d i _)
  · obtain ⟨hrec, hu⟩ := hhalla.en
    refine ⟨some a, ⟨fs₁, hrec, ?_⟩, fun _ b ↦ ⟨fun hq ↦ ?_, ?_⟩⟩
    · obtain ⟨nombre, -, hprimera, hx⟩ := hhalla
      exact .borrado hu hprimera hx (.archivo a)
    · cases hq
      exact ⟨fs₁, u, d, i, hhalla⟩
    · rintro ⟨fs₂, v, d', j, hhalla'⟩
      cases hhalla.unico hhalla'
      rfl

theorem fisopfsRmdir_pasa {r : ℤ} (h : fisopfsRmdir ent path fs m = .ok ((r, fs'), m')) :
    fs.Pasa max ent.ahora m'.agotada none fs' := by
  obtain ⟨-, hrec, -⟩ | ⟨fs₁, u, d, i, e, -, hhalla, hvacio, rfl⟩ := fisopfsRmdir_ok h
  · exact hrec.pasa _
  · obtain ⟨hrec, hu⟩ := hhalla.en
    obtain ⟨nombre, -, hprimera, hx⟩ := hhalla
    exact ⟨fs₁, hrec, .borrado hu hprimera hx (.directorio hvacio)⟩

theorem reallocContenido_ok {contenido : List UInt8} {n : UInt64} {o : Option (List UInt8)}
    (h : reallocContenido ent contenido n m = .ok (o, m')) :
    o = none ∨ (n.toNat ≤ ptrdiffMax ∧
      o = some ((List.range n.toNat).map fun i ↦ contenido[i]?.getD (ent.basura i))) := by
  simp only [reallocContenido, StateT.bind_ok] at h
  obtain ⟨reservado, m₁, hpedir, h⟩ := h
  obtain ⟨rfl, hmax⟩ | ⟨rfl, -⟩ := pedir_ok hpedir
  · cases h
    exact .inr ⟨hmax, rfl⟩
  · cases h
    exact .inl rfl

theorem memcpy_ok {destino buf contenido : List UInt8} {offset n : ℕ}
    (h : memcpy destino buf offset n = .ok contenido) :
    offset + n ≤ destino.length ∧ n ≤ buf.length ∧
      contenido = destino.take offset ++ buf.take n ++ destino.drop (offset + n) := by
  unfold memcpy at h
  split at h
  next hlen =>
    cases h
    exact ⟨hlen.1, hlen.2, rfl⟩
  · cases h

theorem length_memcpy {destino buf contenido : List UInt8} {offset n : ℕ}
    (h : memcpy destino buf offset n = .ok contenido) : contenido.length = destino.length := by
  obtain ⟨hdestino, hbuf, rfl⟩ := memcpy_ok h
  simp only [List.length_append, List.length_take, List.length_drop]
  omega

/-- `fisopfs_truncate` fails before it changes anything, or gives a file its new size. -/
theorem fisopfsTruncate_ok {size : UInt64} {r : ℤ}
    (h : fisopfsTruncate max ent path size fs m = .ok ((r, fs'), m')) :
    (r ≠ 0 ∧ fs.Recorrido ent.ahora fs') ∨
    ∃ fs₁ u a contenido,
      r = 0 ∧ encontrarEntrada ent.ahora path fs = .ok (fs₁, some u) ∧
      fs₁.en u = some (.archivo a) ∧ fs' = ponerTamano ent fs₁ u a contenido size ∧
      ((size = 0 ∧ contenido = a.contenido) ∨
       (¬ max < fs.espacioTotalOcupadoFs + size - a.st.stSize ∧ size.toNat ≤ ptrdiffMax ∧
        contenido =
          (List.range size.toNat).map fun i ↦ a.contenido[i]?.getD (ent.basura i))) := by
  unfold fisopfsTruncate at h
  split at h
  · cases h
    exact .inl ⟨by decide, .refl ..⟩
  simp only [StateT.bind_ok, StateT.lift_ok] at h
  obtain ⟨⟨fs₁, buscado⟩, m₁, ⟨_, hbusca, heq⟩, h⟩ := h
  cases heq
  obtain ⟨p, hencuentra, ⟨e, rfl, he, -⟩ | ⟨u, a, rfl, hu, rfl⟩⟩ := buscarArchivo_ok hbusca
  · cases h
    exact .inl ⟨Int.ne_of_lt he, encontrarEntrada_recorrido hencuentra⟩
  · have hrec := encontrarEntrada_recorrido hencuentra
    by_cases hsize : size ≠ 0
    · simp only [if_pos hsize] at h
      split at h
      · cases h
        exact .inl ⟨by decide, hrec⟩
      next hmax =>
        simp only [StateT.bind_ok] at h
        obtain ⟨o, m₂, hrealloc, h⟩ := h
        obtain rfl | ⟨hptr, rfl⟩ := reallocContenido_ok hrealloc
        · cases h
          exact .inl ⟨by decide, hrec⟩
        · cases h
          rw [hrec.1] at hmax
          exact .inr ⟨fs₁, u, a, _, rfl, hencuentra, hu, rfl, .inr ⟨hmax, hptr, rfl⟩⟩
    · simp only [if_neg hsize] at h
      cases h
      have hcero : size = 0 := by simpa using hsize
      exact .inr ⟨fs₁, u, a, _, rfl, hencuentra, hu, rfl, .inl ⟨hcero, rfl⟩⟩

theorem fisopfsTruncate_pasa {size : UInt64} {r : ℤ}
    (h : fisopfsTruncate max ent path size fs m = .ok ((r, fs'), m')) :
    fs.Pasa max ent.ahora m'.agotada none fs' := by
  obtain ⟨-, hrec⟩ | ⟨fs₁, u, a, contenido, -, hencuentra, hu, rfl, hcontenido⟩ :=
    fisopfsTruncate_ok h
  · exact hrec.pasa _
  · have hrec := encontrarEntrada_recorrido hencuentra
    refine ⟨fs₁, hrec, @Cambio.tamano _ _ _ u a ⟨a.nombre, _, contenido⟩ hu rfl ?_⟩
    obtain ⟨hcero, -⟩ | ⟨hmax, hptr, rfl⟩ := hcontenido
    · exact .inl hcero
    · exact .inr ⟨by simp, hptr, hrec.1 ▸ hmax⟩

/-- The buffer of the file after `fisopfs_write` has made room for the bytes. -/
def ampliado (ent : Entorno) (a : EntradaArchivo) (size offset : UInt64) : List UInt8 :=
  if a.st.stSize < offset + size then
    (List.range (size + offset).toNat).map fun i ↦ a.contenido[i]?.getD (ent.basura i)
  else a.contenido

/-- `fisopfs_write` fails before it changes anything, or copies the bytes into the file, which it
first makes longer where they do not fit. -/
theorem fisopfsWrite_ok {buf : List UInt8} {size offset : UInt64} {r : ℤ}
    (h : fisopfsWrite max ent path buf size offset fs m = .ok ((r, fs'), m')) :
    (r < 0 ∧ fs.Recorrido ent.ahora fs') ∨
    ∃ fs₁ u a contenido,
      r = intDe size ∧ encontrarEntrada ent.ahora path fs = .ok (fs₁, some u) ∧
      fs₁.en u = some (.archivo a) ∧
      memcpy (ampliado ent a size offset) buf offset.toNat size.toNat = .ok contenido ∧
      ((¬ a.st.stSize < offset + size ∧
          fs' = fs₁.poner u (.archivo { a with contenido, st := a.st.tocar ent.ahora })) ∨
       (a.st.stSize < offset + size ∧
          ¬ max < fs.espacioTotalOcupadoFs + size + offset - a.st.stSize ∧
          (size + offset).toNat ≤ ptrdiffMax ∧
          fs' = (fs₁.recontar a.st.stSize (size + offset)).poner u (.archivo { a with
            contenido
            st := { a.st.tocar ent.ahora with stSize := offset + size } }))) := by
  unfold fisopfsWrite at h
  split at h
  · cases h
    exact .inl ⟨by decide, .refl ..⟩
  simp only [StateT.bind_ok, StateT.lift_ok] at h
  obtain ⟨⟨fs₁, buscado⟩, m₁, ⟨_, hbusca, heq⟩, h⟩ := h
  cases heq
  obtain ⟨p, hencuentra, ⟨e, rfl, he, -⟩ | ⟨u, a, rfl, hu, rfl⟩⟩ := buscarArchivo_ok hbusca
  · cases h
    exact .inl ⟨he, encontrarEntrada_recorrido hencuentra⟩
  have hrec := encontrarEntrada_recorrido hencuentra
  by_cases hcabe : a.st.stSize < offset + size
  · simp only [if_pos hcabe] at h
    split at h
    · cases h
      exact .inl ⟨by decide, hrec⟩
    next hmax =>
      simp only [StateT.bind_ok] at h
      obtain ⟨o, m₂, hrealloc, h⟩ := h
      obtain rfl | ⟨hptr, rfl⟩ := reallocContenido_ok hrealloc
      · cases h
        exact .inl ⟨by decide, hrec⟩
      · simp only [copiarEnArchivo, StateT.bind_ok, StateT.lift_ok] at h
        obtain ⟨contenido, m₃, ⟨_, hcopia, heq⟩, h⟩ := h
        cases heq
        cases h
        rw [hrec.1] at hmax
        refine .inr ⟨fs₁, u, a, contenido, rfl, hencuentra, hu, ?_, .inr ⟨hcabe, hmax, hptr, rfl⟩⟩
        rw [ampliado, if_pos hcabe]
        exact hcopia
  · simp only [if_neg hcabe, copiarEnArchivo, StateT.bind_ok, StateT.lift_ok] at h
    obtain ⟨contenido, m₃, ⟨_, hcopia, heq⟩, h⟩ := h
    cases heq
    cases h
    refine .inr ⟨fs₁, u, a, contenido, rfl, hencuentra, hu, ?_, .inl ⟨hcabe, rfl⟩⟩
    rw [ampliado, if_neg hcabe]
    exact hcopia

theorem fisopfsWrite_pasa {buf : List UInt8} {size offset : UInt64} {r : ℤ}
    (h : fisopfsWrite max ent path buf size offset fs m = .ok ((r, fs'), m')) :
    fs.Pasa max ent.ahora m'.agotada none fs' := by
  obtain ⟨-, hrec⟩ | ⟨fs₁, u, a, contenido, -, hencuentra, hu, hcopia, hfs⟩ := fisopfsWrite_ok h
  · exact hrec.pasa _
  have hrec := encontrarEntrada_recorrido hencuentra
  have hlen := length_memcpy hcopia
  obtain ⟨hcabe, rfl⟩ | ⟨hcabe, hmax, hptr, rfl⟩ := hfs
  · rw [ampliado, if_neg hcabe] at hlen
    exact ⟨fs₁, hrec, .retoque hu (.archivo rfl rfl hlen)⟩
  · have hsuma : size + offset = offset + size := UInt64.add_comm size offset
    rw [ampliado, if_pos hcabe, List.length_map, List.length_range] at hlen
    rw [UInt64.add_assoc] at hmax
    rw [hsuma] at hlen hptr hmax ⊢
    exact ⟨fs₁, hrec, .tamano hu rfl (.inr ⟨hlen.symm, hptr, hrec.1 ▸ hmax⟩)⟩

end SistemasOperativos.FisopFs
