import SistemasOperativos.FisopFs.Effects
import SistemasOperativos.Library.Replacement

/-!
# The vector of a directory

The invariant that ties the two counters of a directory to its vector, and what is left of it when
the heap refuses a request in the middle of an expansion. Both are preserved by everything that a
handler can do.
-/

namespace SistemasOperativos.FisopFs

open Library

/-! ## Counting slots -/

theorem getElem?_take_of_lt {α : Type} {l : List α} {i j : ℕ} (h : i < j) :
    (l.take j)[i]? = l[i]? := by
  rw [List.getElem?_take, if_pos h]

namespace Entrada.Semejante

variable {x y : Entrada}

theorem asignada (h : x.Semejante y) : x.asignada = y.asignada := by
  have htipo := h.1
  cases x <;> cases y <;> first | rfl | cases htipo

theorem ocupada (h : x.Semejante y) : x.ocupada = y.ocupada := by
  have htipo := h.1
  cases x <;> cases y <;> first | rfl | cases htipo

theorem esVacio (h : x.Semejante y) : x.esVacio = y.esVacio := by
  have htipo := h.1
  cases x <;> cases y <;> first | rfl | cases htipo

end Entrada.Semejante

/-! ## The invariant of a directory -/

namespace EntradaDirectorioDe

/-- The capacities that a vector can have. -/
def Capacidad (n : ℕ) : Prop := ∃ k, n = entradasIniciales.toNat * multiplicadorEntradas.toNat ^ k

/-- The vector is allocated and its counters are right. -/
structure Ordenado (d : EntradaDirectorio) : Prop where
  largo : d.entradas.length = d.cantidadEntradas.toNat
  asignadas : ∀ e ∈ d.entradas, e.asignada = true
  cuenta : d.cantidadEntradasOcupadas.toNat = d.entradas.countP Entrada.ocupada
  capacidad : d.cantidadEntradas = 0 ∨ Capacidad d.cantidadEntradas.toNat
  cabe : d.cantidadEntradas.toNat < 2 ^ 60

/-- Besides, some slot is free. -/
structure Sano (d : EntradaDirectorio) : Prop extends Ordenado d where
  libre : d.cantidadEntradasOcupadas.toNat < d.cantidadEntradas.toNat

/-- Slot `j` holds no entry, and the slots before it are too few to fill the vector again. -/
def Roto (d : EntradaDirectorio) : Prop :=
  ∃ j, j < d.cantidadEntradas.toNat ∧ (∀ e, d.entradas[j]? = some e → e.asignada = false) ∧
    d.cantidadEntradasOcupadas.toNat + (d.entradas.take j).countP Entrada.esVacio <
      d.cantidadEntradas.toNat ∧
    (d.entradas.take j).countP Entrada.ocupada < d.cantidadEntradasOcupadas.toNat

variable {d : EntradaDirectorio}

/-- The capacity of a directory in order is a power of two times the initial one. -/
theorem Sano.potencia (h : d.Sano) : Capacidad d.cantidadEntradas.toNat := by
  obtain hcero | hcap := h.capacidad
  · have hlibre := h.libre
    rw [hcero] at hlibre
    exact absurd hlibre (Nat.not_lt_zero _)
  · exact hcap

/-- In a directory in order some slot is empty. -/
theorem Sano.hay_vacio (h : d.Sano) : ∃ e ∈ d.entradas, e.esVacio = true := by
  by_contra hno
  have hocupadas : ∀ e ∈ d.entradas, e.ocupada = true := by
    intro e he
    have hasignada := h.asignadas e he
    cases e with
    | vacio => exact absurd ⟨_, he, rfl⟩ hno
    | archivo a => rfl
    | directorio d => rfl
    | nula => cases hasignada
    | indefinida => cases hasignada
  have hcuenta := h.cuenta
  rw [List.countP_eq_length.mpr hocupadas, h.largo] at hcuenta
  have hlibre := h.libre
  omega

/-- The search for a free slot never fails. -/
theorem Sano.primera_vacio (h : d.Sano) :
    ∃ i, primera Entrada.esVacio d.cantidadEntradas.toNat d.entradas = .ok (some i) := by
  obtain ⟨o, ho⟩ := primera_returns (p := Entrada.esVacio) (Nat.le_of_eq h.largo.symm) h.asignadas
  cases o with
  | some i => exact ⟨i, ho⟩
  | none =>
    obtain ⟨-, hnone⟩ := primera_none ho
    obtain ⟨e, he, hvacio⟩ := h.hay_vacio
    obtain ⟨i, hi⟩ := List.mem_iff_getElem?.mp he
    have hlt : i < d.entradas.length := (List.getElem?_eq_some_iff.mp hi).1
    have hno := (hnone i e (h.largo ▸ hlt) hi).2
    rw [hvacio] at hno
    cases hno

/-- `esta_vacio_directorio` tells whether the directory has children. -/
theorem Sano.estaVacio_iff (h : d.Sano) :
    estaVacioDirectorio d = true ↔ ∀ e ∈ d.entradas, e.ocupada = false := by
  have hcuenta := h.cuenta
  unfold estaVacioDirectorio
  constructor
  · intro hcero e he
    have hcero : d.cantidadEntradasOcupadas = 0 := by simpa using hcero
    rw [hcero] at hcuenta
    have hno := List.countP_eq_zero.mp hcuenta.symm e he
    simpa using hno
  · intro hno
    have hcero : d.entradas.countP Entrada.ocupada = 0 :=
      List.countP_eq_zero.mpr fun e he ↦ by simp [hno e he]
    rw [hcero] at hcuenta
    have hocupadas : d.cantidadEntradasOcupadas = 0 := UInt64.toNat_inj.mp hcuenta
    simp [hocupadas]

/-! ## Replacing a slot -/

theorem Sano.set (h : d.Sano) {i : ℕ} {x y : Entrada} (hx : d.entradas[i]? = some x)
    (hs : x.Semejante y) : ({ d with entradas := d.entradas.set i y } : EntradaDirectorio).Sano where
  largo := by simpa using h.largo
  asignadas e he := by
    obtain he | rfl := List.mem_or_eq_of_mem_set he
    · exact h.asignadas e he
    · exact hs.asignada ▸ h.asignadas x (List.mem_of_getElem? hx)
  cuenta := by
    have hcuenta := countP_set_add Entrada.ocupada hx y
    rw [hs.ocupada, Nat.add_right_cancel_iff] at hcuenta
    rw [h.cuenta, ← hcuenta]
  capacidad := h.capacidad
  cabe := h.cabe
  libre := h.libre

theorem Roto.set (h : d.Roto) {i : ℕ} {x y : Entrada} (hx : d.entradas[i]? = some x)
    (hs : x.Semejante y) : ({ d with entradas := d.entradas.set i y } : EntradaDirectorio).Roto := by
  obtain ⟨j, hj, hmala, hvacios, hocupadas⟩ := h
  have hcuenta (p : Entrada → Bool) (hp : p x = p y) :
      ((d.entradas.set i y).take j).countP p = (d.entradas.take j).countP p := by
    by_cases hij : i < j
    · have hset := countP_set_add p (l := d.entradas.take j) (i := i) (x := x)
        (by rw [getElem?_take_of_lt hij, hx]) y
      rw [hp, Nat.add_right_cancel_iff] at hset
      rw [List.take_set, hset]
    · rw [List.take_set_of_le (by omega)]
  refine ⟨j, hj, fun e he ↦ ?_, ?_, ?_⟩
  · rw [List.getElem?_set] at he
    split at he
    next hij =>
      split at he
      · cases he
        rw [← hs.asignada]
        exact hmala x (hij ▸ hx)
      · cases he
    · exact hmala e he
  · rw [hcuenta _ hs.esVacio]
    exact hvacios
  · rw [hcuenta _ hs.ocupada]
    exact hocupadas

/-! ## Removing an entry -/

theorem Sano.sin (h : d.Sano) {ahora : UInt64} {i : ℕ} {x : Entrada}
    (hx : d.entradas[i]? = some x) (hocupada : x.ocupada = true) : (d.sin ahora i).Sano := by
  have hset := countP_set_add Entrada.ocupada hx .vacio
  have hvacio : Entrada.vacio.ocupada = false := rfl
  simp only [hocupada, hvacio, if_true, Bool.false_eq_true, if_false] at hset
  have hcuenta := h.cuenta
  have hmenos : (d.cantidadEntradasOcupadas - 1).toNat = d.cantidadEntradasOcupadas.toNat - 1 := by
    have hpos : 1 ≤ d.cantidadEntradasOcupadas := by
      rw [UInt64.le_iff_toNat_le]
      change 1 ≤ d.cantidadEntradasOcupadas.toNat
      omega
    rw [UInt64.toNat_sub_of_le _ _ hpos]
    rfl
  refine ⟨⟨by simpa [EntradaDirectorioDe.sin] using h.largo, fun e he ↦ ?_, ?_, h.capacidad, h.cabe⟩, ?_⟩
  · obtain he | rfl := List.mem_or_eq_of_mem_set he
    · exact h.asignadas e he
    · rfl
  · simp only [EntradaDirectorioDe.sin, hmenos]
    omega
  · have hlibre := h.libre
    simp only [EntradaDirectorioDe.sin, hmenos]
    omega

/-- The slots that a search has read lie before a slot without entry. -/
theorem lt_of_primera {p : Entrada → Bool} {n i j : ℕ} {es : List Entrada}
    (h : primera p n es = .ok (some i))
    (hj : ∀ e, es[j]? = some e → e.asignada = false) : i < j := by
  obtain ⟨-, ⟨x, hx, hasignada, -⟩, hantes⟩ := primera_some h
  have hlen : i < es.length := (List.getElem?_eq_some_iff.mp hx).1
  by_contra hno
  obtain hlt | rfl : j < i ∨ j = i := by omega
  · have hget : es[j]? = some es[j] := List.getElem?_eq_getElem (by omega)
    have hsi := (hantes j _ hlt hget).1
    rw [hj _ hget] at hsi
    cases hsi
  · rw [hj x hx] at hasignada
    cases hasignada

theorem Roto.sin (h : d.Roto) {ahora : UInt64} {i : ℕ} {x : Entrada} {p : Entrada → Bool}
    (hprimera : primera p d.cantidadEntradas.toNat d.entradas = .ok (some i))
    (hx : d.entradas[i]? = some x) (hocupada : x.ocupada = true) : (d.sin ahora i).Roto := by
  obtain ⟨j, hj, hmala, hvacios, hocupadas⟩ := h
  have hij := lt_of_primera hprimera hmala
  have hxj : (d.entradas.take j)[i]? = some x := by rw [getElem?_take_of_lt hij, hx]
  have hmenos : (d.cantidadEntradasOcupadas - 1).toNat = d.cantidadEntradasOcupadas.toNat - 1 := by
    have hpos : 1 ≤ d.cantidadEntradasOcupadas := by
      rw [UInt64.le_iff_toNat_le]
      change 1 ≤ d.cantidadEntradasOcupadas.toNat
      omega
    rw [UInt64.toNat_sub_of_le _ _ hpos]
    rfl
  have hnoVacio : x.esVacio = false := by cases x <;> first | rfl | cases hocupada
  have hsetVacios := countP_set_add Entrada.esVacio hxj .vacio
  have hsetOcupadas := countP_set_add Entrada.ocupada hxj .vacio
  have hesVacio : Entrada.vacio.esVacio = true := rfl
  have hnoOcupada : Entrada.vacio.ocupada = false := rfl
  simp only [hnoVacio, hesVacio, hocupada, hnoOcupada, if_true, Bool.false_eq_true, if_false]
    at hsetVacios hsetOcupadas
  refine ⟨j, hj, fun e he ↦ ?_, ?_, ?_⟩
  · rw [EntradaDirectorioDe.sin, List.getElem?_set_ne (by omega)] at he
    exact hmala e he
  · simp only [EntradaDirectorioDe.sin, List.take_set, hmenos]
    omega
  · simp only [EntradaDirectorioDe.sin, List.take_set, hmenos]
    omega

/-! ## Placing an entry -/

/-- The directory after a vector that is full has been doubled. -/
def crecido (d : EntradaDirectorio) : EntradaDirectorio :=
  if d.cantidadEntradas = d.cantidadEntradasOcupadas then
    { d with
      cantidadEntradas := d.ampliada
      entradas := d.entradas ++
        List.replicate (d.ampliada.toNat - d.cantidadEntradas.toNat) Entrada.vacio }
  else d

theorem toNat_ampliada (h : d.Ordenado) :
    d.ampliada.toNat = if d.cantidadEntradas = 0 then 5 else d.cantidadEntradas.toNat * 2 := by
  have hcabe := h.cabe
  unfold ampliada
  split
  · rfl
  · rw [UInt64.toNat_mul]
    change d.cantidadEntradas.toNat * 2 % 2 ^ 64 = _
    omega

theorem previas_eq (h : d.Ordenado) : d.previas = d.entradas := by
  have hlargo := h.largo
  unfold previas
  split
  next hcero =>
    rw [hcero] at hlargo
    exact (List.eq_nil_of_length_eq_zero hlargo).symm
  · rfl

/-- The request for the doubled vector does not wrap. -/
theorem toNat_ampliada_mul (h : d.Ordenado) :
    (d.ampliada * sizeofPuntero).toNat = d.ampliada.toNat * 8 := by
  have hcabe := h.cabe
  have hampliada := toNat_ampliada h
  rw [UInt64.toNat_mul]
  change d.ampliada.toNat * 8 % 2 ^ 64 = _
  split at hampliada <;> omega

/-- A directory in order is expanded as it should be, or the heap refuses a request and the old
slots are kept or all lost. -/
theorem Ordenado.expandir {d' : EntradaDirectorio} {r : ℤ} {m m' : Memoria} (h : d.Ordenado)
    (hexpandir : expandirEntrdasDir d m = .ok ((r, d'), m')) :
    (r = 0 ∧ d' = d.crecido ∧ d'.cantidadEntradas.toNat < 2 ^ 60) ∨
    (r = -enomem ∧ m'.agotada = true ∧ d.cantidadEntradas = d.cantidadEntradasOcupadas ∧
      ∃ entradas, d' = { d with cantidadEntradas := d.ampliada, entradas } ∧
        (entradas = [] ∨ ∃ resto, entradas = d.entradas ++ resto)) := by
  obtain ⟨hlibre, rfl, rfl⟩ | ⟨hlleno, base, entradas, reservado, m₁, hreservar, rfl, h'⟩ :=
    expandirEntrdasDir_ok hexpandir
  · exact .inl ⟨rfl, by rw [crecido, if_neg hlibre], h.cabe⟩
  have hampliada := toNat_ampliada h
  have hlargo := h.largo
  have hocupadas : d.cantidadEntradasOcupadas.toNat = d.entradas.length := by
    rw [hlargo, hlleno]
  obtain ⟨rfl, rfl, rfl, rfl⟩ | ⟨rfl, hllenar⟩ := h'
  · obtain ⟨hsi, -⟩ | ⟨-, hagotada, rfl⟩ := reservarEntradas_ok hreservar
    · cases hsi
    · exact .inr ⟨rfl, hagotada, hlleno, [], rfl, .inl rfl⟩
  · obtain ⟨-, hmax, hbase⟩ | ⟨hno, -⟩ := reservarEntradas_ok hreservar
    · rw [toNat_ampliada_mul h, Nat.mul_div_cancel _ (by decide), previas_eq h] at hbase
      rw [toNat_ampliada_mul h] at hmax
      have hcrece : d.entradas.length ≤ d.ampliada.toNat := by
        rw [hlargo, hampliada]
        split
        next hcero => rw [hcero]; decide
        · omega
      have htake : base.take d.entradas.length = d.entradas := by
        rw [hbase, List.take_take, Nat.min_eq_left hcrece, List.take_left]
      have hlen : base.length = d.ampliada.toNat := by
        rw [hbase, List.length_take, List.length_append, List.length_replicate]
        omega
      obtain ⟨rfl, -, rfl⟩ | ⟨rfl, hagotada, k, -, -, rfl⟩ := llenarDesde_ok hllenar
      · refine .inl ⟨rfl, ?_, ?_⟩
        · rw [crecido, if_pos hlleno, hocupadas, htake, ← hlargo,
            List.drop_of_length_le (by rw [hlen]; omega), List.append_nil]
        · unfold ptrdiffMax at hmax
          change d.ampliada.toNat < 2 ^ 60
          omega
      · refine .inr ⟨rfl, hagotada, hlleno, _, rfl,
          .inr ⟨List.replicate k .vacio ++ .nula :: base.drop (d.entradas.length + k + 1), ?_⟩⟩
        rw [hocupadas, htake, List.append_assoc]
    · cases hno

theorem Ordenado.crecido (h : d.Ordenado) (hcabe : d.crecido.cantidadEntradas.toNat < 2 ^ 60) :
    d.crecido.Sano := by
  unfold EntradaDirectorioDe.crecido at hcabe ⊢
  have hlargo := h.largo
  have hcuenta := h.cuenta
  split at hcabe
  next hlleno =>
    have hampliada := toNat_ampliada h
    rw [if_pos hlleno]
    have hcrece : d.cantidadEntradas.toNat < d.ampliada.toNat := by
      rw [hampliada]
      split
      next hcero => rw [hcero]; decide
      next hno =>
        have hpos : d.cantidadEntradas.toNat ≠ 0 := fun h0 ↦ hno (UInt64.toNat_inj.mp h0)
        omega
    refine ⟨⟨?_, fun e he ↦ ?_, ?_, .inr ?_, hcabe⟩, ?_⟩
    · simp only [List.length_append, List.length_replicate]
      omega
    · obtain he | he := List.mem_append.mp he
      · exact h.asignadas e he
      · rw [List.eq_of_mem_replicate he]
        rfl
    · have hvacios (n : ℕ) : (List.replicate n Entrada.vacio).countP Entrada.ocupada = 0 :=
        List.countP_eq_zero.mpr fun e he ↦ by rw [List.eq_of_mem_replicate he]; decide
      rw [List.countP_append, hvacios]
      exact hcuenta
    · change Capacidad d.ampliada.toNat
      rw [hampliada]
      split
      · exact ⟨0, rfl⟩
      next hno =>
        obtain hcero | ⟨k, hk⟩ := h.capacidad
        · exact absurd hcero hno
        · exact ⟨k + 1, by rw [hk, Nat.pow_succ, Nat.mul_assoc]; rfl⟩
    · rw [← hlleno]
      exact hcrece
  next hlibre =>
    rw [if_neg hlibre]
    refine ⟨h, ?_⟩
    have hle : d.cantidadEntradasOcupadas.toNat ≤ d.cantidadEntradas.toNat := by
      rw [hcuenta, ← hlargo]
      exact List.countP_le_length
    have hne : d.cantidadEntradas.toNat ≠ d.cantidadEntradasOcupadas.toNat :=
      fun heq ↦ hlibre (UInt64.toNat_inj.mp heq)
    omega

/-- A new entry takes an empty slot. -/
theorem Sano.con (h : d.Sano) {ahora : UInt64} {i : ℕ} {nueva : Entrada}
    (hi : d.entradas[i]? = some .vacio) (hnueva : nueva.ocupada = true) :
    (d.con ahora i nueva).Ordenado := by
  have hset := countP_set_add Entrada.ocupada hi nueva
  have hvacio : Entrada.vacio.ocupada = false := rfl
  simp only [hnueva, hvacio, if_true, Bool.false_eq_true, if_false] at hset
  have hcuenta := h.cuenta
  have hlibre := h.libre
  have hmas : (d.cantidadEntradasOcupadas + 1).toNat = d.cantidadEntradasOcupadas.toNat + 1 := by
    have hcabe := h.cabe
    rw [UInt64.toNat_add]
    change (d.cantidadEntradasOcupadas.toNat + 1) % 2 ^ 64 = _
    omega
  refine ⟨by simpa [EntradaDirectorioDe.con] using h.largo, fun e he ↦ ?_, ?_, h.capacidad, h.cabe⟩
  · obtain he | rfl := List.mem_or_eq_of_mem_set he
    · exact h.asignadas e he
    · cases e <;> first | rfl | cases hnueva
  · simp only [EntradaDirectorioDe.con, hmas]
    omega

/-- Placing an entry in a directory in order finds an empty slot. The directory is in order
afterwards, or the heap has refused a request and the vector is broken. -/
theorem Sano.colocar (h : d.Sano) {ahora : UInt64} {nueva : Entrada} {d' : EntradaDirectorio}
    {r : ℤ} {o : Option ℕ} {m m' : Memoria} (hnueva : nueva.ocupada = true)
    (hcolocar : colocarEntradaDentroDeDirectorio ahora d nueva m = .ok ((r, d', o), m')) :
    ∃ i, d.entradas[i]? = some .vacio ∧ o = some i ∧
      ((r = 0 ∧ d' = (d.con ahora i nueva).crecido ∧ d'.Sano) ∨
       (r = -enomem ∧ m'.agotada = true ∧ (d'.colgado (some i)).Roto)) := by
  obtain ⟨hnone, -⟩ | ⟨i, hprimera, rfl, hexpandir⟩ :=
    colocarEntradaDentroDeDirectorio_ok hcolocar
  · obtain ⟨i, hi⟩ := h.primera_vacio
    rw [hi] at hnone
    cases hnone
  obtain ⟨-, ⟨x, hx, -, hvacio⟩, hantes⟩ := primera_some hprimera
  obtain rfl : x = .vacio := by cases x <;> first | rfl | cases hvacio
  have hcon : (d.con ahora i nueva).Ordenado := h.con hx hnueva
  refine ⟨i, hx, rfl, ?_⟩
  obtain ⟨rfl, rfl, hcabe⟩ | ⟨hr, hagotada, hlleno, entradas, rfl, hentradas⟩ :=
    hcon.expandir hexpandir
  · exact .inl ⟨rfl, rfl, hcon.crecido hcabe⟩
  refine .inr ⟨hr, hagotada, ?_⟩
  have hampliada := toNat_ampliada hcon
  have hlibre := h.libre
  have hlargo := h.largo
  have hilt : i < d.entradas.length := (List.getElem?_eq_some_iff.mp hx).1
  have hocupadas : (d.con ahora i nueva).cantidadEntradasOcupadas.toNat =
      d.cantidadEntradas.toNat := by rw [← hlleno]; rfl
  have hno : (d.con ahora i nueva).cantidadEntradas ≠ 0 := by
    intro hcero
    rw [show d.cantidadEntradas = 0 from hcero] at hlibre
    exact absurd hlibre (Nat.not_lt_zero _)
  rw [if_neg hno] at hampliada
  change (d.con ahora i nueva).ampliada.toNat = d.cantidadEntradas.toNat * 2 at hampliada
  obtain rfl | ⟨resto, rfl⟩ := hentradas
  · -- the whole vector is lost, so the first slot is the one without entry
    refine ⟨0, ?_, fun e he ↦ by simp [colgado] at he, ?_, ?_⟩
    · change 0 < (d.con ahora i nueva).ampliada.toNat
      omega
    · change (d.con ahora i nueva).cantidadEntradasOcupadas.toNat + 0 <
        (d.con ahora i nueva).ampliada.toNat
      omega
    · change 0 < (d.con ahora i nueva).cantidadEntradasOcupadas.toNat
      omega
  · -- the slot of the new entry is left dangling, and no slot before it was empty
    have htake : (((d.entradas.set i nueva ++ resto).set i Entrada.indefinida).take i) =
        d.entradas.take i := by
      rw [List.take_set_of_le (Nat.le_refl i), List.take_append_of_le_length (by simp; omega),
        List.take_set_of_le (Nat.le_refl i)]
    refine ⟨i, ?_, fun e he ↦ ?_, ?_, ?_⟩
    · change i < (d.con ahora i nueva).ampliada.toNat
      omega
    · have hset : ((d.entradas.set i nueva ++ resto).set i Entrada.indefinida)[i]? =
          some .indefinida := List.getElem?_set_self (by simp; omega)
      have he : ((d.entradas.set i nueva ++ resto).set i Entrada.indefinida)[i]? = some e := he
      rw [hset] at he
      cases he
      rfl
    · have hvacios : (d.entradas.take i).countP Entrada.esVacio = 0 := by
        refine List.countP_eq_zero.mpr fun e he ↦ ?_
        obtain ⟨k, hk⟩ := List.mem_iff_getElem?.mp he
        have hki : k < i := by
          have hlen := (List.getElem?_eq_some_iff.mp hk).1
          rw [List.length_take] at hlen
          omega
        rw [getElem?_take_of_lt hki] at hk
        simp [(hantes k e hki hk).2]
      change (d.con ahora i nueva).cantidadEntradasOcupadas.toNat +
        (((d.entradas.set i nueva ++ resto).set i Entrada.indefinida).take i).countP
          Entrada.esVacio < (d.con ahora i nueva).ampliada.toNat
      rw [htake, hvacios]
      omega
    · change (((d.entradas.set i nueva ++ resto).set i Entrada.indefinida).take i).countP
        Entrada.ocupada < (d.con ahora i nueva).cantidadEntradasOcupadas.toNat
      rw [htake]
      have hle : (d.entradas.take i).countP Entrada.ocupada ≤ (d.entradas.take i).length :=
        List.countP_le_length
      rw [List.length_take] at hle
      omega

/-- A directory with a broken vector still takes entries in the slots that can be reached, but its
vector never grows again. -/
theorem Roto.colocar (h : d.Roto) {ahora : UInt64} {nueva : Entrada} {d' : EntradaDirectorio}
    {r : ℤ} {o : Option ℕ} {m m' : Memoria} (hnueva : nueva.ocupada = true)
    (hcolocar : colocarEntradaDentroDeDirectorio ahora d nueva m = .ok ((r, d', o), m')) :
    r = 0 ∧ d'.Roto := by
  obtain ⟨j, hj, hmala, hvacios, hocupadas⟩ := h
  obtain ⟨hnone, -⟩ | ⟨i, hprimera, rfl, hexpandir⟩ :=
    colocarEntradaDentroDeDirectorio_ok hcolocar
  · obtain ⟨hlen, hall⟩ := primera_none hnone
    have hget : d.entradas[j]? = some d.entradas[j] := List.getElem?_eq_getElem (by omega)
    have hsi := (hall j _ hj hget).1
    rw [hmala _ hget] at hsi
    cases hsi
  obtain ⟨-, ⟨x, hx, -, hvacio⟩, -⟩ := primera_some hprimera
  obtain rfl : x = .vacio := by cases x <;> first | rfl | cases hvacio
  have hij := lt_of_primera hprimera hmala
  have hxj : (d.entradas.take j)[i]? = some .vacio := by rw [getElem?_take_of_lt hij, hx]
  have hnoVacio : nueva.esVacio = false := by cases nueva <;> first | rfl | cases hnueva
  have hsetVacios := countP_set_add Entrada.esVacio hxj nueva
  have hsetOcupadas := countP_set_add Entrada.ocupada hxj nueva
  have hesVacio : Entrada.vacio.esVacio = true := rfl
  have hnoOcupada : Entrada.vacio.ocupada = false := rfl
  simp only [hnoVacio, hesVacio, hnueva, hnoOcupada, if_true, Bool.false_eq_true, if_false]
    at hsetVacios hsetOcupadas
  have hmax := d.cantidadEntradas.toNat_lt
  have hmas : (d.cantidadEntradasOcupadas + 1).toNat = d.cantidadEntradasOcupadas.toNat + 1 := by
    rw [UInt64.toNat_add]
    change (d.cantidadEntradasOcupadas.toNat + 1) % 2 ^ 64 = _
    omega
  obtain ⟨-, rfl, rfl⟩ | ⟨hlleno, -⟩ := expandirEntrdasDir_ok hexpandir
  · refine ⟨rfl, j, hj, fun e he ↦ ?_, ?_, ?_⟩
    · rw [EntradaDirectorioDe.con, List.getElem?_set_ne (by omega)] at he
      exact hmala e he
    · simp only [EntradaDirectorioDe.con, List.take_set, hmas]
      omega
    · simp only [EntradaDirectorioDe.con, List.take_set, hmas]
      omega
  · have hcantidad : d.cantidadEntradas.toNat = (d.cantidadEntradasOcupadas + 1).toNat :=
      congrArg UInt64.toNat hlleno
    omega

end EntradaDirectorioDe

/-! ## The invariant of the tree -/

/-- A file has at least the bytes that it says. -/
structure EntradaArchivo.Sano (a : EntradaArchivo) : Prop where
  contenido : a.st.stSize.toNat ≤ a.contenido.length
  cabe : a.st.stSize.toNat ≤ ptrdiffMax

/-- The invariant of one entry, where a directory may have a broken vector if `rotos` holds. -/
def Entrada.Coherente (rotos : Prop) : Entrada → Prop
  | .archivo a => a.Sano
  | .directorio d => d.Sano ∨ (rotos ∧ d.Roto)
  | _ => True

/-- The invariant of an entry while the heap has served every request. -/
abbrev Entrada.Sana : Entrada → Prop := Entrada.Coherente False

theorem Entrada.sana_directorio {d : EntradaDirectorio} :
    (Entrada.directorio d).Sana ↔ d.Sano := by
  simp [Entrada.Coherente]

/-- The property of a directory does not depend on its times. -/
def Entrada.Intemporal (P : Entrada → Prop) : Prop :=
  ∀ (d : EntradaDirectorio) (st : Stat), P (.directorio d) → P (.directorio { d with st })

variable {rotos : Prop}

theorem Entrada.Coherente.superficial : Entrada.Superficial (Entrada.Coherente rotos) := by
  rintro d i x y (hd | ⟨hrotos, hd⟩) hx hs
  · exact .inl (hd.set hx hs)
  · exact .inr ⟨hrotos, hd.set hx hs⟩

theorem Entrada.Coherente.intemporal : Entrada.Intemporal (Entrada.Coherente rotos) := by
  rintro d st (hd | ⟨hrotos, hd⟩)
  · exact .inl ⟨⟨hd.largo, hd.asignadas, hd.cuenta, hd.capacidad, hd.cabe⟩, hd.libre⟩
  · exact .inr ⟨hrotos, hd⟩

section Preservation

variable {P : Entrada → Prop} {max ahora : UInt64} {fs fs' : Fs}

/-- Another directory with the same slots. -/
theorem Entrada.Cada.cambiarDirectorio {d d' : EntradaDirectorio}
    (h : (Entrada.directorio d).Cada P) (hd : P (.directorio d')) (he : d'.entradas = d.entradas) :
    (Entrada.directorio d').Cada P := by
  rw [Entrada.cada_directorio] at h ⊢
  exact ⟨hd, he ▸ h.2⟩

theorem Recorrido.cada {d d' : EntradaDirectorio} (h : Recorrido ahora d d')
    (hP : Entrada.Superficial P) (hPst : Entrada.Intemporal P)
    (hd : (Entrada.directorio d).Cada P) : (Entrada.directorio d').Cada P := by
  induction h with
  | llega d => exact hd.cambiarDirectorio (hPst d _ hd.self) rfl
  | @sigue d hijo hijo' i hi hrec ih =>
    have hacceso : (Entrada.directorio (d.accedido ahora)).Cada P :=
      hd.cambiarDirectorio (hPst d _ hd.self) rfl
    have hijoCada := (Entrada.cada_directorio.mp hd).2 _ (List.mem_of_getElem? hi)
    have hnombre : hijo'.nombre = hijo.nombre := by cases hrec <;> rfl
    exact hacceso.set hP hi (by simp [hnombre]) (ih hijoCada)

theorem Fs.Recorrido.cada (h : fs.Recorrido ahora fs') (hP : Entrada.Superficial P)
    (hPst : Entrada.Intemporal P) (hfs : fs.Cada P) : fs'.Cada P := by
  obtain ⟨-, -, hraiz | hrec⟩ := h
  · unfold Fs.Cada
    rw [hraiz]
    exact hfs
  · exact hrec.cada hP hPst hfs

/-- What a directory has that depends neither on its times nor on the insides of its entries is the same
after a search. -/
theorem Recorrido.en_directorio {β : Type} (f : EntradaDirectorio → β)
    (hst : ∀ (d : EntradaDirectorio) (st : Stat), f { d with st } = f d)
    (hset : ∀ (d : EntradaDirectorio) (i : ℕ) (x y : Entrada), d.entradas[i]? = some x →
      x.Semejante y → f { d with entradas := d.entradas.set i y } = f d)
    {d d' e' : EntradaDirectorio} {v : Ubicacion} (h : Recorrido ahora d d')
    (he' : (Entrada.directorio d').en v = some (.directorio e')) :
    ∃ e, (Entrada.directorio d).en v = some (.directorio e) ∧ f e' = f e := by
  induction h generalizing v with
  | llega d =>
    cases v with
    | nil =>
      rw [Entrada.en_nil] at he'
      cases he'
      exact ⟨d, Entrada.en_nil _, hst d _⟩
    | cons j v => exact ⟨e', he', rfl⟩
  | @sigue d hijo hijo' i hi hrec ih =>
    have hnombre : hijo'.nombre = hijo.nombre := by cases hrec <;> rfl
    cases v with
    | nil =>
      rw [Entrada.en_nil] at he'
      cases he'
      have hcambia := hset (d.accedido ahora) i _ (.directorio hijo') hi (by simp [hnombre])
      exact ⟨d, Entrada.en_nil _, hcambia.trans (hst d _)⟩
    | cons j v =>
      rw [Entrada.en_directorio_cons] at he' ⊢
      by_cases hji : i = j
      · subst hji
        have hlt : i < d.entradas.length := (List.getElem?_eq_some_iff.mp hi).1
        rw [List.getElem?_set_self hlt, Option.bind_some] at he'
        rw [hi, Option.bind_some]
        exact ih he'
      · rw [List.getElem?_set_ne hji] at he'
        exact ⟨e', he', rfl⟩

theorem Fs.Recorrido.en_directorio {β : Type} (h : fs.Recorrido ahora fs')
    (f : EntradaDirectorio → β)
    (hst : ∀ (d : EntradaDirectorio) (st : Stat), f { d with st } = f d)
    (hset : ∀ (d : EntradaDirectorio) (i : ℕ) (x y : Entrada), d.entradas[i]? = some x →
      x.Semejante y → f { d with entradas := d.entradas.set i y } = f d)
    {e' : EntradaDirectorio} {v : Ubicacion} (he' : fs'.en v = some (.directorio e')) :
    ∃ e, fs.en v = some (.directorio e) ∧ f e' = f e := by
  obtain ⟨-, -, hraiz | hrec⟩ := h
  · rw [Fs.en, hraiz] at he'
    exact ⟨e', he', rfl⟩
  · exact hrec.en_directorio f hst hset he'

/-- A directory that has just been created has only empty slots. -/
theorem expandir_nuevo {nombre : Nombre} {st : Stat} {d : EntradaDirectorio} {m m' : Memoria}
    (h : expandirEntrdasDir ⟨nombre, st, 0, 0, []⟩ m = .ok ((0, d), m')) :
    d.Sano ∧ d = ⟨nombre, st, entradasIniciales, 0, List.replicate 5 .vacio⟩ := by
  have hvacio : EntradaDirectorioDe.Ordenado (⟨nombre, st, 0, 0, []⟩ : EntradaDirectorio) :=
    ⟨rfl, fun _ he ↦ (nomatch he), rfl, .inl rfl, Nat.two_pow_pos 60⟩
  obtain ⟨-, rfl, hcabe⟩ | ⟨hr, -⟩ := hvacio.expandir h
  · exact ⟨hvacio.crecido hcabe, rfl⟩
  · cases hr

theorem Nueva.ocupada {nueva : Entrada} {tam : UInt64} (h : Nueva nueva tam) :
    nueva.ocupada = true := by
  cases h <;> rfl

theorem Nueva.cada {nueva : Entrada} {tam : UInt64} (h : Nueva nueva tam) :
    nueva.Cada (Entrada.Coherente rotos) := by
  cases h with
  | @archivo a ha =>
    have hsano : a.Sano := ⟨ha ▸ Nat.zero_le _, ha ▸ Nat.zero_le _⟩
    exact (Entrada.cada_hoja rfl).mpr hsano
  | directorio hexpandir =>
    obtain ⟨hsano, rfl⟩ := expandir_nuevo hexpandir
    refine Entrada.cada_directorio.mpr ⟨.inl hsano, fun e he ↦ ?_⟩
    rw [List.eq_of_mem_replicate he]
    exact (Entrada.cada_hoja rfl).mpr trivial

theorem Retocada.semejante {x y : Entrada} (h : Retocada x y) : x.Semejante y := by
  cases h with
  | archivo hnombre => simp [hnombre]
  | directorio => simp

/-- The entries of a directory where one slot is replaced by an entry with the property. -/
theorem cada_mem_set {es : List Entrada} {i : ℕ} {y : Entrada} (hes : ∀ e ∈ es, e.Cada P)
    (hy : y.Cada P) : ∀ e ∈ es.set i y, e.Cada P := by
  intro e he
  obtain he | rfl := List.mem_or_eq_of_mem_set he
  · exact hes e he
  · exact hy

/-- The slots after a loop that fills a vector. -/
theorem mem_llenarDesde {n j : ℕ} {entradas entradas' : List Entrada} {r : ℤ} {m m' : Memoria}
    (h : llenarDesde entradas j n m = .ok ((r, entradas'), m')) {e : Entrada}
    (he : e ∈ entradas') : e ∈ entradas ∨ e.ocupada = false := by
  obtain ⟨-, -, rfl⟩ | ⟨-, -, k, -, -, rfl⟩ := llenarDesde_ok h
  · simp only [List.mem_append] at he
    obtain (he | he) | he := he
    · exact .inl (List.mem_of_mem_take he)
    · rw [List.eq_of_mem_replicate he]
      exact .inr rfl
    · exact .inl (List.mem_of_mem_drop he)
  · simp only [List.mem_append, List.mem_cons] at he
    obtain (he | he) | rfl | he := he
    · exact .inl (List.mem_of_mem_take he)
    · rw [List.eq_of_mem_replicate he]
      exact .inr rfl
    · exact .inr rfl
    · exact .inl (List.mem_of_mem_drop he)

/-- The slots after an expansion that succeeded, or failed, are old ones or hold nothing. -/
theorem mem_expandir {d d' : EntradaDirectorio} {r : ℤ} {m m' : Memoria}
    (h : expandirEntrdasDir d m = .ok ((r, d'), m')) :
    d'.nombre = d.nombre ∧ ∀ e ∈ d'.entradas, e ∈ d.entradas ∨ e.ocupada = false := by
  obtain ⟨-, -, rfl⟩ | ⟨-, base, entradas, reservado, m₁, hreservar, rfl, h'⟩ :=
    expandirEntrdasDir_ok h
  · exact ⟨rfl, fun e he ↦ .inl he⟩
  have hprevias : ∀ e ∈ d.previas, e ∈ d.entradas := by
    intro e he
    unfold EntradaDirectorioDe.previas at he
    split at he
    · cases he
    · exact he
  have hbase : ∀ e ∈ base, e ∈ d.entradas ∨ e.ocupada = false := by
    intro e he
    obtain ⟨-, -, rfl⟩ | ⟨-, -, rfl⟩ := reservarEntradas_ok hreservar
    · obtain he | he := List.mem_append.mp (List.mem_of_mem_take he)
      · exact .inl (hprevias e he)
      · rw [List.eq_of_mem_replicate he]
        exact .inr rfl
    · cases he
  refine ⟨rfl, fun e he ↦ ?_⟩
  obtain ⟨-, -, rfl, -⟩ | ⟨-, hllenar⟩ := h'
  · exact hbase e he
  · obtain he | he := mem_llenarDesde hllenar he
    · exact hbase e he
    · exact .inr he

/-- The slots after an entry has been placed, or has not, are old ones, the new one or hold
nothing. -/
theorem mem_colocar {d d' : EntradaDirectorio} {nueva : Entrada} {r : ℤ} {o : Option ℕ}
    {m m' : Memoria}
    (h : colocarEntradaDentroDeDirectorio ahora d nueva m = .ok ((r, d', o), m')) :
    d'.nombre = d.nombre ∧ ∀ e ∈ d'.entradas, e ∈ d.entradas ∨ e = nueva ∨ e.ocupada = false := by
  obtain ⟨-, -, rfl, -⟩ | ⟨i, -, -, hexpandir⟩ := colocarEntradaDentroDeDirectorio_ok h
  · exact ⟨rfl, fun e he ↦ .inl he⟩
  obtain ⟨hnombre, hmem⟩ := mem_expandir hexpandir
  refine ⟨hnombre, fun e he ↦ ?_⟩
  obtain he | he := hmem e he
  · obtain he | rfl := List.mem_or_eq_of_mem_set he
    · exact .inl he
    · exact .inr (.inl rfl)
  · exact .inr (.inr he)

theorem mem_colgado {d : EntradaDirectorio} {o : Option ℕ} {e : Entrada}
    (he : e ∈ (d.colgado o).entradas) : e ∈ d.entradas ∨ e.ocupada = false := by
  cases o with
  | none => exact .inl he
  | some i =>
    obtain he | rfl := List.mem_or_eq_of_mem_set he
    · exact .inl he
    · exact .inr rfl

theorem cada_desocupada {e : Entrada} (h : e.ocupada = false) :
    e.Cada (Entrada.Coherente rotos) := by
  cases e with
  | archivo => cases h
  | directorio => cases h
  | _ => exact (Entrada.cada_hoja rfl).mpr trivial

/-- Every change that a handler makes keeps the tree in order, where broken vectors are allowed as
soon as the heap has refused a request. -/
theorem Cambio.cada {agotada : Bool} {quita : Option EntradaArchivo}
    (h : Cambio max fs agotada quita fs')
    (hrotos : agotada = true → rotos) (hfs : fs.Cada (Entrada.Coherente rotos)) :
    fs'.Cada (Entrada.Coherente rotos) := by
  have hP : Entrada.Superficial (Entrada.Coherente rotos) := Entrada.Coherente.superficial
  cases h with
  | nada => exact hfs
  | @retoque u x y hx hxy =>
    refine hfs.poner hP hx hxy.semejante ?_
    have hcada := Entrada.Cada.en hfs hx
    cases hxy with
    | @archivo a a' hnombre hsize hlen =>
      have ha : a.Sano := hcada.self
      have ha' : a'.Sano := ⟨by rw [hsize, hlen]; exact ha.contenido, by rw [hsize]; exact ha.cabe⟩
      exact (Entrada.cada_hoja rfl).mpr ha'
    | directorio d st =>
      exact hcada.cambiarDirectorio (Entrada.Coherente.intemporal d st hcada.self) rfl
  | @tamano u a a' hu hnombre hsize =>
    have hcabe : a'.Sano := by
      obtain hcero | ⟨hlen, hptr, -⟩ := hsize
      · exact ⟨hcero ▸ Nat.zero_le _, hcero ▸ Nat.zero_le _⟩
      · exact ⟨Nat.le_of_eq hlen, hptr⟩
    have hrecontar : (fs.recontar a.st.stSize a'.st.stSize).Cada (Entrada.Coherente rotos) := hfs
    exact hrecontar.poner hP hu (by simp [hnombre]) ((Entrada.cada_hoja rfl).mpr hcabe)
  | @colocacion u d d' nueva tam ahora o m m' hu hnueva hmax hcolocar =>
    obtain ⟨hd, hhijos⟩ := Entrada.cada_directorio.mp (Entrada.Cada.en hfs hu)
    obtain ⟨hnombre, hmem⟩ := mem_colocar hcolocar
    have hd' : (Entrada.directorio d').Coherente rotos := by
      obtain hsano | ⟨hr, hroto⟩ := hd
      · obtain ⟨i, -, -, ⟨-, -, hsano'⟩ | ⟨hr, -⟩⟩ := hsano.colocar hnueva.ocupada hcolocar
        · exact .inl hsano'
        · cases hr
      · exact .inr ⟨hr, (hroto.colocar hnueva.ocupada hcolocar).2⟩
    refine Fs.Cada.poner hP hfs hu (by simp [hnombre]) (Entrada.cada_directorio.mpr ⟨hd', ?_⟩)
    intro e he
    obtain he | rfl | he := hmem e he
    · exact hhijos e he
    · exact hnueva.cada
    · exact cada_desocupada he
  | @fallida u d d' nueva tam ahora r o m m' hu hnueva hmax hr hagotada hcolocar =>
    obtain ⟨hd, hhijos⟩ := Entrada.cada_directorio.mp (Entrada.Cada.en hfs hu)
    obtain ⟨hnombre, hmem⟩ := mem_colocar hcolocar
    have hd' : (Entrada.directorio (d'.colgado o)).Coherente rotos := by
      obtain hsano | ⟨-, hroto⟩ := hd
      · obtain ⟨i, -, rfl, ⟨hcero, -⟩ | ⟨-, hagotada', hroto⟩⟩ :=
          hsano.colocar hnueva.ocupada hcolocar
        · exact absurd hcero hr
        · exact .inr ⟨hrotos (hagotada ▸ hagotada'), hroto⟩
      · exact absurd (hroto.colocar hnueva.ocupada hcolocar).1 hr
    refine hfs.poner hP hu (by simp [EntradaDirectorioDe.colgado, hnombre])
      (Entrada.cada_directorio.mpr ⟨hd', fun e he ↦ ?_⟩)
    obtain he | he := mem_colgado he
    · obtain he | rfl | he := hmem e he
      · exact hhijos e he
      · exact hnueva.cada
      · exact cada_desocupada he
    · exact cada_desocupada he
  | @borrado u d x tam ahora i p _ hu hprimera hx hborrable =>
    obtain ⟨hd, hhijos⟩ := Entrada.cada_directorio.mp (Entrada.Cada.en hfs hu)
    have hocupada : x.ocupada = true := by cases hborrable <;> rfl
    have hd' : (Entrada.directorio (d.sin ahora i)).Coherente rotos := by
      obtain hsano | ⟨hr, hroto⟩ := hd
      · exact .inl (hsano.sin hx hocupada)
      · exact .inr ⟨hr, hroto.sin hprimera hx hocupada⟩
    exact hfs.poner hP hu (by simp [EntradaDirectorioDe.sin])
      (Entrada.cada_directorio.mpr ⟨hd', cada_mem_set hhijos (cada_desocupada rfl)⟩)

theorem Fs.Pasa.cada {agotada : Bool} {quita : Option EntradaArchivo}
    (h : fs.Pasa max ahora agotada quita fs')
    (hrotos : agotada = true → rotos) (hfs : fs.Cada (Entrada.Coherente rotos)) :
    fs'.Cada (Entrada.Coherente rotos) := by
  obtain ⟨fs₁, hrec, hcambio⟩ := h
  exact hcambio.cada hrotos
    (hrec.cada Entrada.Coherente.superficial Entrada.Coherente.intemporal hfs)

end Preservation

end SistemasOperativos.FisopFs
