import SistemasOperativos.FisopFs.ImageReader

/-!
# Loading any stream

What `crear_directorio_desde_archivo` does on a stream that need not be an image. The stream, with the
answers of the heap, is first described as a tree of records, which knows nothing of vectors. Whether
the loader stays within its vectors, and whether the release of a half-filled vector visits only slots
that have been assigned, is then read off that tree.
-/

namespace SistemasOperativos.FisopFs

open Library

/-! ## The records of a stream -/

/-- What a stream holds where an entry is to be read. -/
inductive Registro where
  /-- The first structure is cut off, or there is no memory for the directory. -/
  | ausente
  /-- A structure of another type than the two. -/
  | desconocido
  | archivo (entero : Bool)
  /-- A directory with the records of its entries, up to the first one that is not whole. Where they
  all are, `vacias` is the number of empty entries that there is memory for, of those that are
  missing to fill the vector. -/
  | directorio (cantidadEntradas cantidadEntradasOcupadas : UInt64) (entradas : List Registro)
      (vacias : ℕ)

namespace Registro

mutual

/-- The record can be loaded up to its end. -/
def entero : Registro → Bool
  | .ausente => false
  | .desconocido => false
  | .archivo entero => entero
  | .directorio cantidadEntradas cantidadEntradasOcupadas entradas vacias =>
    enteros entradas && entradas.length == cantidadEntradasOcupadas.toNat &&
      decide (cantidadEntradas.toNat ≤ cantidadEntradasOcupadas.toNat + vacias)

def enteros : List Registro → Bool
  | [] => true
  | r :: rs => r.entero && enteros rs

end

end Registro

/-- The number of the requests for empty entries that are served, of the next `n`. -/
def contarVacias : ℕ → Op ℕ
  | 0 => return 0
  | n + 1 => do
    if ← pedir sizeofEntrada then return (← contarVacias n) + 1
    return 0

/-- The records of the next `n` entries, where `subdir` describes a directory. -/
def leerRegistros (subdir : Lectura → Op (Registro × Lectura)) :
    ℕ → Lectura → Op (List Registro × Lectura)
  | 0, l => return ([], l)
  | n + 1, l => do
    let (leido, l) := l.fread codecEntrada.size
    match leido with
    | none => return ([.ausente], l)
    | some bytes =>
      let (_, _, tipo) := codecEntrada.decode bytes
      let l' := l.retroceder codecEntrada.size
      if tipo = tipoDirectorio then
        let (r, l) ← subdir l'
        if !r.entero then return ([r], l)
        let (rs, l) ← leerRegistros subdir n l
        return (r :: rs, l)
      else if tipo = tipoArchivo then
        let (archivo, l) ← crearEntradaArchivoDesdeArchivo l'
        if archivo.isNone then return ([.archivo false], l)
        let (rs, l) ← leerRegistros subdir n l
        return (.archivo true :: rs, l)
      else return ([.desconocido], l)

def leerRegistro : ℕ → Lectura → Op (Registro × Lectura)
  | 0, _ => throw .desborde
  | pila + 1, l => do
    if !(← pedir sizeofEntradaDirectorio) then return (.ausente, l)
    let (leido, l) := l.fread codecEntradaDirectorio.size
    match leido with
    | none => return (.ausente, l)
    | some bytes =>
      let (_, cantidadEntradas, cantidadEntradasOcupadas, _) := codecEntradaDirectorio.decode bytes
      if !(← pedir (cantidadEntradas * sizeofPuntero)) then return (.ausente, l)
      let (entradas, l) ← leerRegistros (leerRegistro pila) cantidadEntradasOcupadas.toNat l
      if Registro.enteros entradas && entradas.length == cantidadEntradasOcupadas.toNat then
        let vacias ← contarVacias (cantidadEntradas.toNat - cantidadEntradasOcupadas.toNat)
        return (.directorio cantidadEntradas cantidadEntradasOcupadas entradas vacias, l)
      return (.directorio cantidadEntradas cantidadEntradasOcupadas entradas 0, l)

namespace Registro

/-- The slots of a vector of `cantidadEntradas` pointers: the number of its bytes may wrap. -/
def ranuras (cantidadEntradas : UInt64) : ℕ := (cantidadEntradas * sizeofPuntero).toNat / 8

/-- The record may come as number `j` of a directory: one that goes into the vector finds room
there, and one that makes the loader release the vector comes after all slots are assigned. -/
def Cabe (cantidadEntradas : UInt64) (j : ℕ) : Registro → Prop
  | .ausente => cantidadEntradas.toNat ≤ j
  | .desconocido => True
  | .archivo _ => j < ranuras cantidadEntradas
  | .directorio c o es v =>
    if (Registro.directorio c o es v).entero then j < ranuras cantidadEntradas
    else cantidadEntradas.toNat ≤ j

mutual

/-- At every level the entries may come where they do, and the empty entries find room behind them. -/
def Prudente : Registro → Prop
  | .directorio cantidadEntradas cantidadEntradasOcupadas entradas vacias =>
    Prudentes cantidadEntradas 0 entradas ∧
      (enteros entradas = true → entradas.length = cantidadEntradasOcupadas.toNat →
        cantidadEntradasOcupadas < cantidadEntradas →
        min (cantidadEntradasOcupadas.toNat + vacias) (cantidadEntradas.toNat - 1) <
          ranuras cantidadEntradas)
  | _ => True

/-- The same for the entries of a directory from number `j` on. -/
def Prudentes (cantidadEntradas : UInt64) : ℕ → List Registro → Prop
  | _, [] => True
  | j, r :: rs => r.Prudente ∧ r.Cabe cantidadEntradas j ∧ Prudentes cantidadEntradas (j + 1) rs

end

mutual

/-- Every directory has a slot to spare. -/
def Holgado : Registro → Prop
  | .directorio cantidadEntradas cantidadEntradasOcupadas entradas _ =>
    cantidadEntradasOcupadas < cantidadEntradas ∧ Holgados entradas
  | _ => True

def Holgados : List Registro → Prop
  | [] => True
  | r :: rs => r.Holgado ∧ Holgados rs

end

end Registro

/-! ## What the loader must do -/

namespace Entrada

/-- The vector of a directory has all its slots, and all of them are assigned. -/
def Completa (e : Entrada) : Prop := ∀ d, e = .directorio d →
  d.entradas.length = d.cantidadEntradas.toNat ∧ ∀ x ∈ d.entradas, x.asignada = true

def Holgada (e : Entrada) : Prop := ∀ d, e = .directorio d →
  d.cantidadEntradasOcupadas < d.cantidadEntradas

end Entrada

/-- The call stayed within its vectors, released only slots that were assigned, and returned NULL or a
tree in which every directory is complete and has a slot to spare. -/
def CargaSegura : Except Fallo ((Option EntradaDirectorio × Lectura) × Memoria) → Prop
  | .error _ => False
  | .ok ((none, _), _) => True
  | .ok ((some d, _), _) => (Entrada.directorio d).Cada fun e ↦ e.Completa ∧ e.Holgada

/-! ## Releasing a vector -/

/-- A tree in which every slot of every vector is assigned can be released. -/
theorem liberarEntrada_completa {e : Entrada} (he : e.asignada = true)
    (hcompleta : e.Cada Entrada.Completa) : liberarEntrada e = .ok () := by
  induction e using Entrada.induccion with
  | directorio d ih =>
    obtain ⟨hd, hhijos⟩ := Entrada.cada_directorio.mp hcompleta
    obtain ⟨hlargo, hasignadas⟩ := hd d rfl
    obtain ⟨nombre, st, cantidadEntradas, cantidadEntradasOcupadas, entradas⟩ := d
    rw [liberarEntrada, liberarDir, ← hlargo]
    dsimp only at hasignadas hhijos ih ⊢
    clear hlargo hd hcompleta he
    induction entradas with
    | nil => rw [List.length_nil, liberarEntradas]
    | cons x xs ihxs =>
      have hx := List.mem_cons_self (a := x) (l := xs)
      rw [List.length_cons, liberarEntradas, ih x hx (hasignadas x hx) (hhijos x hx)]
      exact ihxs (fun y hy ↦ ih y (List.mem_cons_of_mem x hy))
        (fun y hy ↦ hhijos y (List.mem_cons_of_mem x hy))
        (fun y hy ↦ hasignadas y (List.mem_cons_of_mem x hy))
  | vacio => rw [liberarEntrada] <;> exact nofun
  | archivo a => rw [liberarEntrada] <;> exact nofun
  | nula => cases he
  | indefinida => cases he

/-- A vector that has been filled up to some slot: it can be released if and only if it has no others. -/
theorem liberarEntradas_hasta (n q : ℕ) {cargadas : List Entrada}
    (hcargadas : ∀ e ∈ cargadas, e.asignada = true ∧ e.Cada Entrada.Completa) :
    (n ≤ cargadas.length →
      liberarEntradas n (cargadas ++ List.replicate q .indefinida) = .ok ()) ∧
    (cargadas.length < n →
      ∃ f, liberarEntradas n (cargadas ++ List.replicate q .indefinida) = .error f) := by
  induction cargadas generalizing n with
  | nil =>
    refine ⟨fun hn ↦ ?_, fun hn ↦ ?_⟩
    · obtain rfl := Nat.le_zero.mp hn
      rw [liberarEntradas]
    · obtain ⟨n, rfl⟩ := Nat.exists_eq_succ_of_ne_zero (Nat.ne_of_gt hn)
      cases q with
      | zero => exact ⟨.fueraDeRango, by rw [List.nil_append, List.replicate_zero, liberarEntradas]⟩
      | succ q =>
        refine ⟨.punteroIndefinido, ?_⟩
        rw [List.nil_append, List.replicate_succ, liberarEntradas, liberarEntrada]
        rfl
  | cons e es ih =>
    cases n with
    | zero => exact ⟨fun _ ↦ by rw [liberarEntradas], fun hn ↦ absurd hn (Nat.not_lt_zero _)⟩
    | succ n =>
      obtain ⟨hasignada, hcompleta⟩ := hcargadas e List.mem_cons_self
      have hstep : liberarEntradas (n + 1) (e :: es ++ List.replicate q .indefinida) =
          liberarEntradas n (es ++ List.replicate q .indefinida) := by
        rw [List.cons_append, liberarEntradas, liberarEntrada_completa hasignada hcompleta]
        rfl
      rw [hstep, List.length_cons]
      have hresto := ih n fun x hx ↦ hcargadas x (List.mem_cons_of_mem e hx)
      exact ⟨fun hn ↦ hresto.1 (Nat.le_of_succ_le_succ hn),
        fun hn ↦ hresto.2 (Nat.lt_of_succ_lt_succ hn)⟩

/-! ## Filling a vector -/

theorem pedir_responde (n : UInt64) (m : Memoria) : ∃ r m', pedir n m = .ok (r, m') := by
  unfold pedir
  split
  · exact ⟨_, _, rfl⟩
  · split <;> exact ⟨_, _, rfl⟩

/-- The empty entries go into the slots behind the entries that were loaded. -/
theorem llenarDesde_cuenta (n q : ℕ) (previas : List Entrada) (m : Memoria) :
    ∃ v m', contarVacias n m = .ok (v, m') ∧ v ≤ n ∧ (n = 0 → m' = m) ∧
      (0 < n → min v (n - 1) < q → ∃ r es,
        llenarDesde (previas ++ List.replicate q .indefinida) previas.length n m =
          .ok ((r, es), m') ∧ (r = 0 ↔ v = n) ∧
        (r = 0 → es = previas ++ List.replicate n .vacio ++ List.replicate (q - n) .indefinida)) ∧
      (0 < n → q ≤ min v (n - 1) → ∃ f,
        llenarDesde (previas ++ List.replicate q .indefinida) previas.length n m = .error f) := by
  induction n generalizing q previas m with
  | zero =>
    exact ⟨0, m, rfl, Nat.le_refl 0, fun _ ↦ rfl, fun h ↦ absurd h (Nat.lt_irrefl 0),
      fun h ↦ absurd h (Nat.lt_irrefl 0)⟩
  | succ n ih =>
    obtain ⟨servida, m₁, hpedir⟩ := pedir_responde sizeofEntrada m
    have hnueva : crearEntradaVacia m = .ok (if servida then .vacio else .nula, m₁) := by
      unfold crearEntradaVacia
      refine StateT.bind_ok.mpr ⟨servida, m₁, hpedir, ?_⟩
      cases servida <;> rfl
    cases q with
    | zero =>
      have herror : llenarDesde (previas ++ List.replicate 0 .indefinida) previas.length (n + 1) m =
          .error .fueraDeRango := by
        rw [llenarDesde, StateT.bind_of_ok hnueva, if_pos (by simp)]
        exact StateT.bind_of_error (StateT.throw_eq _ _)
      obtain ⟨v, m', hv, hle, -⟩ := ih 0 [] m₁
      cases servida with
      | false =>
        exact ⟨0, m₁, by rw [contarVacias, StateT.bind_of_ok hpedir]; rfl, Nat.zero_le _,
          fun h ↦ absurd h (Nat.succ_ne_zero _),
          fun _ h ↦ absurd h (Nat.not_lt_zero _), fun _ _ ↦ ⟨_, herror⟩⟩
      | true =>
        refine ⟨v + 1, m', ?_, Nat.succ_le_succ hle, fun h ↦ absurd h (Nat.succ_ne_zero _),
          fun _ h ↦ absurd h (Nat.not_lt_zero _),
          fun _ _ ↦ ⟨_, herror⟩⟩
        rw [contarVacias, StateT.bind_of_ok hpedir]
        exact StateT.bind_of_ok hv
    | succ q =>
      have hno : ¬ (previas ++ List.replicate (q + 1) Entrada.indefinida).length ≤ previas.length := by
        simp
      have hset (e : Entrada) : (previas ++ List.replicate (q + 1) Entrada.indefinida).set
          previas.length e = previas ++ [e] ++ List.replicate q .indefinida := by
        rw [List.set_append_right _ _ (Nat.le_refl _), Nat.sub_self, List.replicate_succ,
          List.set_cons_zero, List.append_assoc, List.singleton_append]
      cases servida with
      | false =>
        refine ⟨0, m₁, by rw [contarVacias, StateT.bind_of_ok hpedir]; rfl, Nat.zero_le _,
          fun h ↦ absurd h (Nat.succ_ne_zero _),
          fun _ _ ↦ ⟨-enomem, _, by
            rw [llenarDesde, StateT.bind_of_ok hnueva, if_neg hno]
            rfl, iff_of_false (by decide) (by omega), fun h ↦ absurd h (by decide)⟩, fun _ h ↦ ?_⟩
        omega
      | true =>
        obtain ⟨v, m', hv, hle, hcero, hbien, hmal⟩ := ih q (previas ++ [.vacio]) m₁
        have hturno : llenarDesde (previas ++ List.replicate (q + 1) .indefinida) previas.length
            (n + 1) m = llenarDesde (previas ++ [.vacio] ++ List.replicate q .indefinida)
              (previas ++ [Entrada.vacio]).length n m₁ := by
          rw [llenarDesde, StateT.bind_of_ok hnueva, if_neg hno, ← hset, List.length_append,
            List.length_singleton]
          rfl
        refine ⟨v + 1, m', ?_, Nat.succ_le_succ hle, fun h ↦ absurd h (Nat.succ_ne_zero _),
          fun _ h ↦ ?_, fun _ h ↦ ?_⟩
        · rw [contarVacias, StateT.bind_of_ok hpedir]
          exact StateT.bind_of_ok hv
        · rw [hturno]
          rcases Nat.eq_zero_or_pos n with rfl | hn
          · obtain rfl := Nat.le_zero.mp hle
            obtain rfl := hcero rfl
            exact ⟨0, _, rfl, by simp, fun _ ↦ by simp⟩
          · obtain ⟨r, es, hllenar, hr, hes⟩ := hbien hn (by omega)
            refine ⟨r, es, hllenar, hr.trans (by omega), fun h0 ↦ ?_⟩
            rw [hes h0, List.append_assoc previas, List.singleton_append, ← List.replicate_succ,
              Nat.add_sub_add_right]
        · rw [hturno]
          exact hmal (by omega) (by omega)

/-! ## The loader and the records -/

namespace Registro

/-- What the call `cargar` does with the stream, by the record `r` that it finds there. -/
structure Describe (cargar : Op (Option EntradaDirectorio × Lectura)) (l : Lectura) (m : Memoria)
    (r : Registro) (l' : Lectura) (m' : Memoria) : Prop where
  cabe : ∀ c j, r.Cabe c j ↔ if r.entero = true then j < ranuras c else c.toNat ≤ j
  bien : r.Prudente → ∃ o, cargar m = .ok ((o, l'), m') ∧ o.isSome = r.entero ∧
    ∀ d, o = some d → (Entrada.directorio d).Cada Entrada.Completa ∧
      ((Entrada.directorio d).Cada Entrada.Holgada ↔ r.Holgado)
  mal : ¬ r.Prudente → ∃ f, cargar m = .error f
  avanza : r.entero = true → l'.datos = l.datos ∧ l.pos + codecEntradaDirectorio.size ≤ l'.pos

theorem Describe.ausente {cargar : Op (Option EntradaDirectorio × Lectura)} {l l' : Lectura}
    {m m' : Memoria} (h : cargar m = .ok ((none, l'), m')) :
    Describe cargar l m .ausente l' m' where
  cabe c j := by simp [Cabe, entero]
  bien _ := ⟨none, h, by simp [entero], nofun⟩
  mal hno := by simp [Prudente] at hno
  avanza he := by simp [entero] at he

end Registro

open Registro

theorem crearEntradaArchivo_responde (l : Lectura) (m : Memoria) :
    ∃ a l' m', crearEntradaArchivoDesdeArchivo l m = .ok ((a, l'), m') ∧
      (a.isSome = true → l'.datos = l.datos ∧ l.pos ≤ l'.pos) := by
  have hresponde : ∃ a l' m', crearEntradaArchivoDesdeArchivo l m = .ok ((a, l'), m') := by
    unfold crearEntradaArchivoDesdeArchivo
    obtain ⟨servida, m₁, hpedir⟩ := pedir_responde sizeofEntradaArchivo m
    rw [StateT.bind_of_ok hpedir]
    cases servida with
    | false => exact ⟨_, _, _, rfl⟩
    | true =>
      simp only [Bool.not_true, Bool.false_eq_true, if_false]
      cases (l.fread codecEntradaArchivo.size).1 with
      | none => exact ⟨_, _, _, rfl⟩
      | some bytes =>
        by_cases hcero : (codecEntradaArchivo.decode bytes).1.2.1.stSize ≠ 0
        · simp only [if_pos hcero]
          obtain ⟨servida, m₂, hpedir⟩ :=
            pedir_responde (codecEntradaArchivo.decode bytes).1.2.1.stSize m₁
          rw [StateT.bind_of_ok hpedir]
          cases servida with
          | false => exact ⟨_, _, _, rfl⟩
          | true =>
            simp only [Bool.not_true, Bool.false_eq_true, if_false]
            cases ((l.fread codecEntradaArchivo.size).2.fread
              (codecEntradaArchivo.decode bytes).1.2.1.stSize.toNat).1 with
            | none => exact ⟨_, _, _, rfl⟩
            | some contenido => exact ⟨_, _, _, rfl⟩
        · simp only [if_neg hcero]
          exact ⟨_, _, _, rfl⟩
  obtain ⟨a, l', m', h⟩ := hresponde
  refine ⟨a, l', m', h, fun ha ↦ ?_⟩
  obtain ⟨archivo, rfl⟩ := Option.isSome_iff_exists.mp ha
  obtain ⟨m₁, bytes, l₁, -, hf, -, -, hcontenido⟩ := crearEntradaArchivo_some_iff.mp h
  obtain ⟨-, -, rfl⟩ := Lectura.fread_some.mp hf
  obtain ⟨-, -, rfl, -⟩ | ⟨-, -, hf₂⟩ := hcontenido
  · exact ⟨rfl, Nat.le_add_right _ _⟩
  · obtain ⟨-, -, rfl⟩ := Lectura.fread_some.mp hf₂
    exact ⟨rfl, Nat.le_trans (Nat.le_add_right _ _) (Nat.le_add_right _ _)⟩

/-- The loop ends with the description of some entries, where each call of `reg` describes one. -/
theorem leerRegistros_responde {reg : Lectura → Op (Registro × Lectura)} {datos : List UInt8} {p : ℕ}
    (hreg : ∀ (l : Lectura) (m : Memoria), l.datos = datos → p ≤ l.pos →
      ∃ r l' m', reg l m = .ok ((r, l'), m') ∧ (r.entero = true → l'.datos = datos ∧ p ≤ l'.pos))
    (n : ℕ) {l : Lectura} (m : Memoria) (hl : l.datos = datos) (hp : p ≤ l.pos) :
    ∃ rs l' m', leerRegistros reg n l m = .ok ((rs, l'), m') ∧
      (enteros rs = true → l'.datos = datos ∧ p ≤ l'.pos) := by
  induction n generalizing l m with
  | zero => exact ⟨[], l, m, rfl, fun _ ↦ ⟨hl, hp⟩⟩
  | succ n ih =>
    rw [leerRegistros]
    cases hf : l.fread codecEntrada.size with
    | mk leido l₁ =>
      cases leido with
      | none => exact ⟨_, _, _, rfl, fun h ↦ by simp [enteros, entero] at h⟩
      | some bytes =>
        obtain ⟨-, -, rfl⟩ := Lectura.fread_some.mp hf
        simp only [Lectura.retroceder_avanza]
        split
        · obtain ⟨r, l₂, m₂, hr, hentero⟩ := hreg l m hl hp
          rw [StateT.bind_of_ok hr]
          cases he : r.entero with
          | false => exact ⟨_, _, _, rfl, fun h ↦ by simp [enteros, he] at h⟩
          | true =>
            obtain ⟨rs, l', m', hrs, hpos⟩ := ih m₂ (hentero he).1 (hentero he).2
            refine ⟨r :: rs, l', m', ?_, fun h ↦ hpos ?_⟩
            · simp only [Bool.not_true, Bool.false_eq_true, if_false, StateT.bind_of_ok hrs]
              rfl
            · simpa [enteros, he] using h
        · split
          · obtain ⟨a, l₂, m₂, ha, hpos₂⟩ := crearEntradaArchivo_responde l m
            rw [StateT.bind_of_ok ha]
            cases a with
            | none => exact ⟨_, _, _, rfl, fun h ↦ by simp [enteros, entero] at h⟩
            | some a =>
              obtain ⟨hdatos, hle⟩ := hpos₂ rfl
              obtain ⟨rs, l', m', hrs, hpos⟩ := ih m₂ (hdatos.trans hl) (Nat.le_trans hp hle)
              refine ⟨.archivo true :: rs, l', m', ?_, fun h ↦ hpos ?_⟩
              · simp only [Option.isNone_some, Bool.false_eq_true, if_false, StateT.bind_of_ok hrs]
                rfl
              · simpa [enteros, entero] using h
          · exact ⟨_, _, _, rfl, fun h ↦ by simp [enteros, entero] at h⟩

/-- The entries that the loop has loaded: all of them are in order, and have a slot to spare where
the records say so. -/
structure Cargadas (nuevas : List Entrada) (rs : List Registro) : Prop where
  completas : ∀ e ∈ nuevas, e.asignada = true ∧ e.Cada Entrada.Completa
  holgadas : (∀ e ∈ nuevas, e.Cada Entrada.Holgada) ↔ Holgados rs

/-- What the loop does from slot `j` on with `q` free slots. -/
structure DescribeEntradas (subdir : Lectura → Op (Option EntradaDirectorio × Lectura))
    (d : EntradaDirectorio) (cargadas : List Entrada) (q n : ℕ) (l : Lectura) (m : Memoria)
    (rs : List Registro) (l' : Lectura) (m' : Memoria) : Prop where
  corta : Prudentes d.cantidadEntradas cargadas.length rs → ¬ (enteros rs = true ∧ rs.length = n) →
    cargarEntradas subdir d cargadas.length n l m = .ok ((none, l'), m')
  bien : Prudentes d.cantidadEntradas cargadas.length rs → enteros rs = true → rs.length = n →
    n ≤ q ∧ ∃ nuevas, nuevas.length = n ∧ Cargadas nuevas rs ∧
      cargarEntradas subdir d cargadas.length n l m = .ok ((some { d with
        entradas := cargadas ++ nuevas ++ List.replicate (q - n) .indefinida }, l'), m')
  mal : ¬ Prudentes d.cantidadEntradas cargadas.length rs →
    ∃ f, cargarEntradas subdir d cargadas.length n l m = .error f

section Bucle

variable {subdir : Lectura → Op (Option EntradaDirectorio × Lectura)} {d : EntradaDirectorio}
  {cargadas : List Entrada} {q n : ℕ} {l l₂ l' : Lectura} {m m₂ m' : Memoria} {r : Registro}
  {rs : List Registro}

/-- The records end with one that is not whole. -/
theorem DescribeEntradas.parada (hroto : r.entero = false)
    (hbien : r.Prudente → r.Cabe d.cantidadEntradas cargadas.length →
      cargarEntradas subdir d cargadas.length n l m = .ok ((none, l'), m'))
    (hmal : ¬ (r.Prudente ∧ r.Cabe d.cantidadEntradas cargadas.length) →
      ∃ f, cargarEntradas subdir d cargadas.length n l m = .error f) :
    DescribeEntradas subdir d cargadas q n l m [r] l' m' where
  corta h _ := by
    simp only [Prudentes, and_true] at h
    exact hbien h.1 h.2
  bien _ h := by simp [enteros, hroto] at h
  mal h := hmal (by simpa only [Prudentes, and_true] using h)

/-- The first of the records may not come where it does. -/
theorem DescribeEntradas.imprudente
    (hno : ¬ (r.Prudente ∧ r.Cabe d.cantidadEntradas cargadas.length))
    (hmal : ∃ f, cargarEntradas subdir d cargadas.length n l m = .error f) :
    DescribeEntradas subdir d cargadas q n l m (r :: rs) l' m' := by
  have hno' : ¬ Prudentes d.cantidadEntradas cargadas.length (r :: rs) := fun h ↦ by
    rw [Prudentes] at h
    exact hno ⟨h.1, h.2.1⟩
  exact ⟨fun h ↦ absurd h hno', fun h ↦ absurd h hno', fun _ ↦ hmal⟩

/-- The entry `e` of a whole record takes the next slot. -/
theorem DescribeEntradas.sigue {e : Entrada} (hentero : r.entero = true) (hprudente : r.Prudente)
    (hcabe : r.Cabe d.cantidadEntradas cargadas.length)
    (he : e.asignada = true ∧ e.Cada Entrada.Completa)
    (hholgado : e.Cada Entrada.Holgada ↔ r.Holgado)
    (hpaso : cargarEntradas subdir d cargadas.length (n + 1) l m = cargarEntradas subdir
      { d with entradas := cargadas ++ [e] ++ List.replicate q .indefinida } (cargadas ++ [e]).length
        n l₂ m₂)
    (h : DescribeEntradas subdir
      { d with entradas := cargadas ++ [e] ++ List.replicate q .indefinida } (cargadas ++ [e]) q n
        l₂ m₂ rs l' m') :
    DescribeEntradas subdir d cargadas (q + 1) (n + 1) l m (r :: rs) l' m' := by
  have hprudentes : Prudentes d.cantidadEntradas cargadas.length (r :: rs) ↔
      Prudentes d.cantidadEntradas (cargadas ++ [e]).length rs := by
    rw [Prudentes, List.length_append, List.length_singleton]
    exact ⟨fun h ↦ h.2.2, fun h ↦ ⟨hprudente, hcabe, h⟩⟩
  have henteros : enteros (r :: rs) = enteros rs := by rw [enteros, hentero, Bool.true_and]
  constructor
  · intro hp hno
    rw [hpaso]
    refine h.corta (hprudentes.mp hp) fun hrs ↦ hno ⟨henteros.trans hrs.1, ?_⟩
    rw [List.length_cons, hrs.2]
  · intro hp hrs hlargo
    obtain ⟨hle, nuevas, hnuevas, hcargadas, hcargar⟩ := h.bien (hprudentes.mp hp)
      (henteros.symm.trans hrs) (Nat.succ.inj hlargo)
    refine ⟨Nat.succ_le_succ hle, e :: nuevas, by rw [List.length_cons, hnuevas], ⟨?_, ?_⟩, ?_⟩
    · intro x hx
      rcases List.mem_cons.mp hx with rfl | hx
      · exact he
      · exact hcargadas.completas x hx
    · rw [Holgados, List.forall_mem_cons, hholgado, hcargadas.holgadas]
    · rw [hpaso, hcargar, Nat.add_sub_add_right]
      simp only [List.append_assoc, List.singleton_append]
  · intro hp
    rw [hpaso]
    exact h.mal (mt hprudentes.mpr hp)

theorem liberarDir_hasta (hd : d.entradas = cargadas ++ List.replicate q .indefinida)
    (hcargadas : ∀ e ∈ cargadas, e.asignada = true ∧ e.Cada Entrada.Completa) :
    (d.cantidadEntradas.toNat ≤ cargadas.length → liberarDir d = .ok ()) ∧
    (cargadas.length < d.cantidadEntradas.toNat → ∃ f, liberarDir d = .error f) := by
  have h := liberarEntradas_hasta d.cantidadEntradas.toNat q hcargadas
  rw [← hd] at h
  cases d
  rw [liberarDir]
  exact h

/-! ### One turn of the loop -/

variable {j : ℕ} {bytes : List UInt8} {l₁ : Lectura}

theorem cargarEntradas_cortada (hf : l.fread codecEntrada.size = (none, l₁)) :
    cargarEntradas subdir d j (n + 1) l m =
      match liberarDir d with
      | .error f => .error f
      | .ok () => .ok ((none, l₁), m) := by
  rw [cargarEntradas]
  simp only [hf]
  cases hlibera : liberarDir d with
  | error f => exact StateT.bind_of_error (StateT.lift_of_error rfl)
  | ok => exact StateT.bind_of_ok (StateT.lift_of_ok rfl)

theorem cargarEntradas_subdir (hf : l.fread codecEntrada.size = (some bytes, l₁))
    (htipo : (codecEntrada.decode bytes).2.2 = tipoDirectorio) :
    cargarEntradas subdir d j (n + 1) l m =
      match subdir l m with
      | .error f => .error f
      | .ok ((none, l₂), m₂) =>
        match liberarDir d with
        | .error f => .error f
        | .ok () => .ok ((none, l₂), m₂)
      | .ok ((some sub, l₂), m₂) =>
        if d.entradas.length ≤ j then .error .fueraDeRango
        else cargarEntradas subdir { d with entradas := d.entradas.set j (.directorio sub) } (j + 1)
          n l₂ m₂ := by
  obtain ⟨-, -, rfl⟩ := Lectura.fread_some.mp hf
  rw [cargarEntradas]
  simp only [hf, Lectura.retroceder_avanza, if_pos htipo]
  cases hsub : subdir l m with
  | error f => exact StateT.bind_of_error hsub
  | ok r =>
    obtain ⟨⟨o, l₂⟩, m₂⟩ := r
    rw [StateT.bind_of_ok hsub]
    cases o with
    | none =>
      cases hlibera : liberarDir d with
      | error f => exact StateT.bind_of_error (StateT.lift_of_error rfl)
      | ok => exact StateT.bind_of_ok (StateT.lift_of_ok rfl)
    | some sub =>
      simp only
      split
      · exact StateT.bind_of_error (StateT.throw_eq _ _)
      · rfl

theorem cargarEntradas_archivo (hf : l.fread codecEntrada.size = (some bytes, l₁))
    (htipo : (codecEntrada.decode bytes).2.2 = tipoArchivo) {a : Option EntradaArchivo}
    (ha : crearEntradaArchivoDesdeArchivo l m = .ok ((a, l₂), m₂)) :
    cargarEntradas subdir d j (n + 1) l m =
      if d.entradas.length ≤ j then .error .fueraDeRango
      else match a with
        | none => .ok ((none, l₂), m₂)
        | some a => cargarEntradas subdir
          { d with entradas := d.entradas.set j (.archivo a) } (j + 1) n l₂ m₂ := by
  obtain ⟨-, -, rfl⟩ := Lectura.fread_some.mp hf
  have hdir : ¬ (codecEntrada.decode bytes).2.2 = tipoDirectorio := by
    rw [htipo]
    decide
  rw [cargarEntradas]
  simp only [hf, Lectura.retroceder_avanza, if_neg hdir, if_pos htipo]
  rw [StateT.bind_of_ok ha]
  split
  · exact StateT.bind_of_error (StateT.throw_eq _ _)
  · cases a <;> rfl

theorem cargarEntradas_desconocido (hf : l.fread codecEntrada.size = (some bytes, l₁))
    (hdir : (codecEntrada.decode bytes).2.2 ≠ tipoDirectorio)
    (harchivo : (codecEntrada.decode bytes).2.2 ≠ tipoArchivo) :
    cargarEntradas subdir d j (n + 1) l m = .ok ((none, l₁), m) := by
  obtain ⟨-, -, rfl⟩ := Lectura.fread_some.mp hf
  rw [cargarEntradas]
  simp only [hf, Lectura.retroceder_avanza, if_neg hdir, if_neg harchivo]
  rfl

variable {reg : Lectura → Op (Registro × Lectura)}

theorem leerRegistros_subdir (hf : l.fread codecEntrada.size = (some bytes, l₁))
    (htipo : (codecEntrada.decode bytes).2.2 = tipoDirectorio)
    (hr : reg l m = .ok ((r, l₂), m₂)) :
    leerRegistros reg (n + 1) l m = if r.entero = true then
      (do
        let (rs, l) ← leerRegistros reg n l₂
        return (r :: rs, l) : Op _) m₂
    else .ok (([r], l₂), m₂) := by
  obtain ⟨-, -, rfl⟩ := Lectura.fread_some.mp hf
  rw [leerRegistros]
  simp only [hf, Lectura.retroceder_avanza, if_pos htipo]
  rw [StateT.bind_of_ok hr]
  cases r.entero <;> rfl

theorem leerRegistros_archivo (hf : l.fread codecEntrada.size = (some bytes, l₁))
    (htipo : (codecEntrada.decode bytes).2.2 = tipoArchivo) {a : Option EntradaArchivo}
    (ha : crearEntradaArchivoDesdeArchivo l m = .ok ((a, l₂), m₂)) :
    leerRegistros reg (n + 1) l m = if a.isSome = true then
      (do
        let (rs, l) ← leerRegistros reg n l₂
        return (.archivo true :: rs, l) : Op _) m₂
    else .ok (([.archivo false], l₂), m₂) := by
  obtain ⟨-, -, rfl⟩ := Lectura.fread_some.mp hf
  have hdir : ¬ (codecEntrada.decode bytes).2.2 = tipoDirectorio := by
    rw [htipo]
    decide
  rw [leerRegistros]
  simp only [hf, Lectura.retroceder_avanza, if_neg hdir, if_pos htipo]
  rw [StateT.bind_of_ok ha]
  cases a <;> rfl

theorem leerRegistros_desconocido (hf : l.fread codecEntrada.size = (some bytes, l₁))
    (hdir : (codecEntrada.decode bytes).2.2 ≠ tipoDirectorio)
    (harchivo : (codecEntrada.decode bytes).2.2 ≠ tipoArchivo) :
    leerRegistros reg (n + 1) l m = .ok (([.desconocido], l₁), m) := by
  obtain ⟨-, -, rfl⟩ := Lectura.fread_some.mp hf
  rw [leerRegistros]
  simp only [hf, Lectura.retroceder_avanza, if_neg hdir, if_neg harchivo]
  rfl

theorem leerRegistros_cons (h : (do
    let (rs, l) ← leerRegistros reg n l₂
    return (r :: rs, l) : Op _) m₂ = .ok ((rs, l'), m')) : ∃ rs', rs = r :: rs' := by
  obtain ⟨⟨rs', l₃⟩, m₃, -, h⟩ := StateT.bind_ok.mp h
  cases h
  exact ⟨rs', rfl⟩

/-- The loop and the records, slot by slot. -/
theorem cargarEntradas_describe {datos : List UInt8} {p : ℕ}
    (hsub : ∀ (l : Lectura) (m : Memoria), l.datos = datos → p ≤ l.pos →
      ∃ r l' m', reg l m = .ok ((r, l'), m') ∧ Describe (subdir l) l m r l' m')
    (hd : d.entradas = cargadas ++ List.replicate q .indefinida)
    (hcargadas : ∀ e ∈ cargadas, e.asignada = true ∧ e.Cada Entrada.Completa)
    (hq : cargadas.length + q = ranuras d.cantidadEntradas) (hl : l.datos = datos)
    (hp : p ≤ l.pos) (h : leerRegistros reg n l m = .ok ((rs, l'), m')) :
    DescribeEntradas subdir d cargadas q n l m rs l' m' := by
  induction n generalizing d cargadas q l m rs with
  | zero =>
    cases h
    refine ⟨fun _ hno ↦ absurd ⟨rfl, rfl⟩ hno, fun _ _ _ ↦ ⟨Nat.zero_le _, [], rfl, ⟨nofun, ?_⟩, ?_⟩,
      fun hno ↦ absurd trivial hno⟩
    · exact ⟨fun _ ↦ trivial, fun _ ↦ nofun⟩
    · rw [List.append_nil, Nat.sub_zero, ← hd]
      rfl
  | succ n ih =>
    obtain ⟨hlibera, hnolibera⟩ := liberarDir_hasta hd hcargadas
    have hlargo : d.entradas.length ≤ cargadas.length ↔ q = 0 := by
      rw [hd, List.length_append, List.length_replicate]
      omega
    have hlugar : cargadas.length < ranuras d.cantidadEntradas ↔ q ≠ 0 := by omega
    -- an entry that has been read, with the records after it
    have hsigue {r : Registro} {e : Entrada} {l₂ : Lectura} {m₂ : Memoria} (hr : r.entero = true)
        (hprudente : r.Prudente) (hq0 : q ≠ 0) (hcabe : r.Cabe d.cantidadEntradas cargadas.length)
        (he : e.asignada = true ∧ e.Cada Entrada.Completa)
        (hholgado : e.Cada Entrada.Holgada ↔ r.Holgado) (hl₂ : l₂.datos = datos) (hp₂ : p ≤ l₂.pos)
        (hpaso : cargarEntradas subdir d cargadas.length (n + 1) l m = cargarEntradas subdir
          { d with entradas := d.entradas.set cargadas.length e } (cargadas.length + 1) n l₂ m₂)
        (hrs : (do
          let (rs, l) ← leerRegistros reg n l₂
          return (r :: rs, l) : Op _) m₂ = .ok ((rs, l'), m')) :
        DescribeEntradas subdir d cargadas q (n + 1) l m rs l' m' := by
      obtain ⟨q, rfl⟩ := Nat.exists_eq_succ_of_ne_zero hq0
      obtain ⟨⟨rs', l₃⟩, m₃, hrs', hrs⟩ := StateT.bind_ok.mp hrs
      cases hrs
      have hset : d.entradas.set cargadas.length e =
          cargadas ++ [e] ++ List.replicate q .indefinida := by
        rw [hd, List.set_append_right _ _ (Nat.le_refl _), Nat.sub_self, List.replicate_succ,
          List.set_cons_zero, List.append_assoc, List.singleton_append]
      have hlen : (cargadas ++ [e]).length = cargadas.length + 1 := by simp
      rw [hset, ← hlen] at hpaso
      refine .sigue hr hprudente hcabe he hholgado hpaso (ih rfl ?_ ?_ hl₂ hp₂ hrs')
      · intro x hx
        rcases List.mem_append.mp hx with hx | hx
        · exact hcargadas x hx
        · rw [List.mem_singleton.mp hx]
          exact he
      · simp only [hlen]
        omega
    cases hf : l.fread codecEntrada.size with
    | mk leido l₁ =>
      cases leido with
      | none =>
        rw [leerRegistros] at h
        simp only [hf] at h
        cases h
        refine .parada rfl (fun _ hcabe ↦ ?_) fun hno ↦ ?_
        · rw [cargarEntradas_cortada hf, hlibera hcabe]
        · obtain ⟨f, hlibera⟩ := hnolibera (Nat.lt_of_not_le fun hle ↦ hno ⟨trivial, hle⟩)
          exact ⟨f, by rw [cargarEntradas_cortada hf, hlibera]⟩
      | some bytes =>
        by_cases hdir : (codecEntrada.decode bytes).2.2 = tipoDirectorio
        · obtain ⟨r, l₂, m₂, hr, hdescribe⟩ := hsub l m hl hp
          have hcabe := hdescribe.cabe d.cantidadEntradas cargadas.length
          rw [leerRegistros_subdir hf hdir hr] at h
          have hcargar : cargarEntradas subdir d cargadas.length (n + 1) l m = _ :=
            cargarEntradas_subdir hf hdir
          cases he : r.entero with
          | false =>
            rw [he, if_neg (by decide)] at h hcabe
            cases h
            have hnulo (hprudente : r.Prudente) : subdir l m = .ok ((none, l'), m') := by
              obtain ⟨o, ho, hnada, -⟩ := hdescribe.bien hprudente
              rw [he, Option.isSome_eq_false_iff, Option.isNone_iff_eq_none] at hnada
              rw [ho, hnada]
            refine .parada he (fun hprudente hc ↦ ?_) fun hno ↦ ?_
            · rw [hcargar, hnulo hprudente]
              simp only [hlibera (hcabe.mp hc)]
            · by_cases hprudente : r.Prudente
              · obtain ⟨f, hlibera⟩ := hnolibera
                  (Nat.lt_of_not_le fun hle ↦ hno ⟨hprudente, hcabe.mpr hle⟩)
                exact ⟨f, by rw [hcargar, hnulo hprudente]; simp only [hlibera]⟩
              · obtain ⟨f, hsub⟩ := hdescribe.mal hprudente
                exact ⟨f, by rw [hcargar, hsub]⟩
          | true =>
            rw [he, if_pos rfl] at h hcabe
            obtain ⟨rs', hrs⟩ := leerRegistros_cons h
            by_cases hprudente : r.Prudente
            · obtain ⟨o, ho, hsome, hsub⟩ := hdescribe.bien hprudente
              rw [he] at hsome
              obtain ⟨sub, rfl⟩ := Option.isSome_iff_exists.mp hsome
              obtain ⟨hcompleta, hholgado⟩ := hsub sub rfl
              obtain ⟨hdatos, hle⟩ := hdescribe.avanza he
              simp only [ho] at hcargar
              by_cases hq0 : q = 0
              · rw [hrs]
                refine .imprudente (fun hc ↦ hlugar.mp (hcabe.mp hc.2) hq0) ⟨.fueraDeRango, ?_⟩
                rw [hcargar, if_pos (hlargo.mpr hq0)]
              · refine hsigue he hprudente hq0 (hcabe.mpr (hlugar.mpr hq0)) ⟨rfl, hcompleta⟩ hholgado
                  (hdatos.trans hl) (Nat.le_trans hp (Nat.le_trans (Nat.le_add_right _ _) hle)) ?_ h
                rw [hcargar, if_neg (mt hlargo.mp hq0)]
            · obtain ⟨f, hsub⟩ := hdescribe.mal hprudente
              rw [hrs]
              refine .imprudente (fun hc ↦ hprudente hc.1) ⟨f, ?_⟩
              rw [hcargar, hsub]
        · by_cases harchivo : (codecEntrada.decode bytes).2.2 = tipoArchivo
          · obtain ⟨a, l₂, m₂, ha, hpos⟩ := crearEntradaArchivo_responde l m
            rw [leerRegistros_archivo hf harchivo ha] at h
            have hcargar : cargarEntradas subdir d cargadas.length (n + 1) l m = _ :=
              cargarEntradas_archivo hf harchivo ha
            by_cases hq0 : q = 0
            · have hfuera (b : Bool) : ¬ (Prudente (.archivo b) ∧
                  Cabe d.cantidadEntradas cargadas.length (.archivo b)) :=
                fun hc ↦ hlugar.mp hc.2 hq0
              rw [if_pos (hlargo.mpr hq0)] at hcargar
              cases a with
              | none =>
                cases h
                exact .imprudente (hfuera false) ⟨_, hcargar⟩
              | some a =>
                obtain ⟨rs', hrs⟩ := leerRegistros_cons h
                rw [hrs]
                exact .imprudente (hfuera true) ⟨_, hcargar⟩
            · have hcabe (b : Bool) : Cabe d.cantidadEntradas cargadas.length (.archivo b) :=
                hlugar.mpr hq0
              rw [if_neg (mt hlargo.mp hq0)] at hcargar
              cases a with
              | none =>
                cases h
                exact .parada rfl (fun _ _ ↦ hcargar) fun hno ↦ absurd ⟨trivial, hcabe false⟩ hno
              | some a =>
                have hhoja {P : Entrada → Prop} (hP : P (.archivo a)) :
                    (Entrada.archivo a).Cada P := (Entrada.cada_hoja rfl).mpr hP
                exact hsigue (r := .archivo true) rfl trivial hq0 (hcabe true) ⟨rfl, hhoja nofun⟩
                  (iff_of_true (hhoja nofun) trivial) ((hpos rfl).1.trans hl)
                  (Nat.le_trans hp (hpos rfl).2) hcargar h
          · rw [leerRegistros_desconocido hf hdir harchivo] at h
            cases h
            exact .parada rfl (fun _ _ ↦ cargarEntradas_desconocido hf hdir harchivo)
              fun hno ↦ absurd ⟨trivial, trivial⟩ hno

end Bucle

/-! ### The whole directory -/

namespace Registro

variable {c o : UInt64} {rs : List Registro} {v : ℕ}

theorem entero_directorio : (directorio c o rs v).entero = true ↔
    enteros rs = true ∧ rs.length = o.toNat ∧ c.toNat ≤ o.toNat + v := by
  simp [entero, and_assoc]

theorem prudente_directorio : (directorio c o rs v).Prudente ↔ Prudentes c 0 rs ∧
    (enteros rs = true → rs.length = o.toNat → o < c →
      min (o.toNat + v) (c.toNat - 1) < ranuras c) := by
  rw [Prudente]

end Registro

theorem ranuras_le (c : UInt64) : ranuras c ≤ c.toNat := by
  unfold ranuras
  rw [UInt64.toNat_mul]
  change c.toNat * 8 % 2 ^ 64 / 8 ≤ c.toNat
  omega

/-- The last slot that is filled, counted from the first free one and from the beginning. -/
theorem hueco_iff {o c v g : ℕ} (hlt : o < c) (ho : o ≤ g) :
    min v (c - o - 1) < g - o ↔ min (o + v) (c - 1) < g := by
  rcases Nat.le_total v (c - o - 1) with h | h
  · rw [Nat.min_eq_left h, Nat.min_eq_left (by omega)]
    omega
  · rw [Nat.min_eq_right h, Nat.min_eq_right (by omega)]
    omega

/-- The end of the call, after the loop has stored the entries `nuevas` of whole records. -/
theorem llenarDirectorio_describe {d : EntradaDirectorio} {nuevas : List Entrada}
    {rs : List Registro} (hnuevas : Cargadas nuevas rs)
    (hlargo : nuevas.length = d.cantidadEntradasOcupadas.toNat)
    (hle : d.cantidadEntradasOcupadas.toNat ≤ ranuras d.cantidadEntradas)
    (hd : d.entradas = nuevas ++ List.replicate
      (ranuras d.cantidadEntradas - d.cantidadEntradasOcupadas.toNat) .indefinida) (m : Memoria) :
    ∃ v m', contarVacias (d.cantidadEntradas.toNat - d.cantidadEntradasOcupadas.toNat) m =
        .ok (v, m') ∧
      ((d.cantidadEntradasOcupadas < d.cantidadEntradas →
          min (d.cantidadEntradasOcupadas.toNat + v) (d.cantidadEntradas.toNat - 1) <
            ranuras d.cantidadEntradas) →
        ∃ r es, llenarDirectorioConEntradasVacias d m = .ok ((r, { d with entradas := es }), m') ∧
          (r = 0 ↔ d.cantidadEntradas.toNat ≤ d.cantidadEntradasOcupadas.toNat + v) ∧
          (r = 0 → (Entrada.directorio { d with entradas := es }).Cada Entrada.Completa ∧
            ((Entrada.directorio { d with entradas := es }).Cada Entrada.Holgada ↔
              d.cantidadEntradasOcupadas < d.cantidadEntradas ∧ Holgados rs))) ∧
      (d.cantidadEntradasOcupadas < d.cantidadEntradas →
        ranuras d.cantidadEntradas ≤
          min (d.cantidadEntradasOcupadas.toNat + v) (d.cantidadEntradas.toNat - 1) →
        ∃ f, llenarDirectorioConEntradasVacias d m = .error f) := by
  obtain ⟨v, m', hv, hvle, hcero, hbien, hmal⟩ := llenarDesde_cuenta
    (d.cantidadEntradas.toNat - d.cantidadEntradasOcupadas.toNat)
    (ranuras d.cantidadEntradas - d.cantidadEntradasOcupadas.toNat) nuevas m
  rw [← hd, hlargo] at hbien hmal
  have hranuras := ranuras_le d.cantidadEntradas
  -- a vector filled up with empty entries
  have hlleno (k : ℕ) (hk : nuevas.length + k = d.cantidadEntradas.toNat) :
      (Entrada.directorio { d with entradas := nuevas ++ List.replicate k .vacio }).Cada
          Entrada.Completa ∧
        ((Entrada.directorio { d with entradas := nuevas ++ List.replicate k .vacio }).Cada
          Entrada.Holgada ↔
            d.cantidadEntradasOcupadas < d.cantidadEntradas ∧ Holgados rs) := by
    have hvacio {P : Entrada → Prop} (hP : P .vacio) : Entrada.vacio.Cada P :=
      (Entrada.cada_hoja rfl).mpr hP
    refine ⟨Entrada.cada_directorio.mpr ⟨?_, fun x hx ↦ ?_⟩, ?_⟩
    · rintro _ ⟨⟩
      refine ⟨by simp [hk], fun x hx ↦ ?_⟩
      rcases List.mem_append.mp hx with hx | hx
      · exact (hnuevas.completas x hx).1
      · rw [List.eq_of_mem_replicate hx]
        rfl
    · rcases List.mem_append.mp hx with hx | hx
      · exact (hnuevas.completas x hx).2
      · rw [List.eq_of_mem_replicate hx]
        exact hvacio nofun
    · rw [Entrada.cada_directorio, ← hnuevas.holgadas]
      have hraiz : Entrada.Holgada (.directorio { d with
          entradas := nuevas ++ List.replicate k .vacio }) ↔
            d.cantidadEntradasOcupadas < d.cantidadEntradas :=
        ⟨fun h ↦ h { d with entradas := nuevas ++ List.replicate k .vacio } rfl,
          fun h ↦ by rintro _ ⟨⟩; exact h⟩
      refine and_congr hraiz ⟨fun h x hx ↦ ?_, fun h x hx ↦ ?_⟩
      · exact h x (List.mem_append_left _ hx)
      · rcases List.mem_append.mp hx with hx | hx
        · exact h x hx
        · rw [List.eq_of_mem_replicate hx]
          exact hvacio nofun
  refine ⟨v, m', hv, fun hprudente ↦ ?_, fun hlt hprudente ↦ ?_⟩
  · by_cases hlt : d.cantidadEntradasOcupadas < d.cantidadEntradas
    · have hprudente := hprudente hlt
      rw [UInt64.lt_iff_toNat_lt] at hlt
      obtain ⟨r, es, hllenar, hr, hes⟩ := hbien (Nat.sub_pos_of_lt hlt)
        ((hueco_iff hlt hle).mpr hprudente)
      clear hbien hmal hprudente
      refine ⟨r, es, ?_, hr.trans (by omega), fun h0 ↦ ?_⟩
      · unfold llenarDirectorioConEntradasVacias
        exact StateT.bind_of_ok hllenar
      · have hes := hes h0
        rw [Nat.sub_eq_zero_of_le (Nat.sub_le_sub_right hranuras _), List.replicate_zero,
          List.append_nil] at hes
        rw [hes]
        exact hlleno _ (by omega)
    · rw [UInt64.lt_iff_toNat_lt] at hlt
      have hn : d.cantidadEntradas.toNat - d.cantidadEntradasOcupadas.toNat = 0 := by omega
      obtain rfl := hcero hn
      refine ⟨0, d.entradas, ?_, iff_of_true rfl (by omega), fun _ ↦ ?_⟩
      · unfold llenarDirectorioConEntradasVacias
        simp only [hn]
        rfl
      · rw [hd, Nat.sub_eq_zero_of_le (by omega), List.replicate_zero]
        have hlleno := hlleno 0 (by omega)
        rw [List.replicate_zero] at hlleno
        exact hlleno
  · rw [UInt64.lt_iff_toNat_lt] at hlt
    have hhueco := mt (hueco_iff (v := v) hlt hle).mp (Nat.not_lt.mpr hprudente)
    obtain ⟨f, hf⟩ := hmal (Nat.sub_pos_of_lt hlt) (Nat.not_lt.mp hhueco)
    exact ⟨f, StateT.bind_of_error hf⟩

theorem reservarEntradas_nueva {c : UInt64} {servida : Bool} {m m' : Memoria}
    (h : pedir (c * sizeofPuntero) m = .ok (servida, m')) : reservarEntradas [] c m =
      .ok ((servida, if servida then List.replicate (ranuras c) .indefinida else []), m') := by
  unfold reservarEntradas
  simp only
  rw [StateT.bind_of_ok h]
  cases servida with
  | false => rfl
  | true =>
    rw [List.nil_append, List.take_replicate, Nat.min_self]
    rfl

section Directorio

variable {pila : ℕ} {l l₁ l₂ : Lectura} {m m₁ m₂ m₃ : Memoria} {bytes : List UInt8}
  {nombre : Nombre} {st : Stat} {tipo : UInt8} {c o p : UInt64}

/-- The call, once there is a structure and memory for the vector. -/
theorem crearDirectorio_presente (hpedir : pedir sizeofEntradaDirectorio m = .ok (true, m₁))
    (hf : l.fread codecEntradaDirectorio.size = (some bytes, l₁))
    (hbytes : codecEntradaDirectorio.decode bytes = ((nombre, st, tipo), c, o, p))
    (hvector : pedir (c * sizeofPuntero) m₁ = .ok (true, m₂)) :
    crearDirectorioDesdeArchivo (pila + 1) l m =
      match cargarEntradas (crearDirectorioDesdeArchivo pila)
          ⟨nombre, st, c, o, List.replicate (ranuras c) .indefinida⟩ 0 o.toNat l₁ m₂ with
      | .error f => .error f
      | .ok ((none, l₂), m₃) => .ok ((none, l₂), m₃)
      | .ok ((some d, l₂), m₃) =>
        match llenarDirectorioConEntradasVacias d m₃ with
        | .error f => .error f
        | .ok ((r, d), m₄) => .ok ((if r ≠ 0 then none else some d, l₂), m₄) := by
  rw [crearDirectorioDesdeArchivo, StateT.bind_of_ok hpedir]
  simp only [Bool.not_true, Bool.false_eq_true, if_false, hf, hbytes]
  rw [StateT.bind_of_ok (reservarEntradas_nueva hvector)]
  simp only [Bool.not_true, Bool.false_eq_true, if_false, if_true]
  cases hcargar : cargarEntradas (crearDirectorioDesdeArchivo pila)
      ⟨nombre, st, c, o, List.replicate (ranuras c) .indefinida⟩ 0 o.toNat l₁ m₂ with
  | error f => exact StateT.bind_of_error hcargar
  | ok r =>
    obtain ⟨⟨cargado, l₂⟩, m₃⟩ := r
    rw [StateT.bind_of_ok hcargar]
    cases cargado with
    | none => rfl
    | some d =>
      cases hllenar : llenarDirectorioConEntradasVacias d m₃ with
      | error f =>
        simp only [hllenar]
        exact StateT.bind_of_error hllenar
      | ok r =>
        obtain ⟨⟨r, d'⟩, m₄⟩ := r
        simp only [hllenar]
        rw [StateT.bind_of_ok hllenar]
        by_cases hr : r ≠ 0
        · rw [if_pos hr, if_pos hr]
          rfl
        · rw [if_neg hr, if_neg hr]
          rfl

theorem leerRegistro_presente (hpedir : pedir sizeofEntradaDirectorio m = .ok (true, m₁))
    (hf : l.fread codecEntradaDirectorio.size = (some bytes, l₁))
    (hbytes : codecEntradaDirectorio.decode bytes = ((nombre, st, tipo), c, o, p))
    (hvector : pedir (c * sizeofPuntero) m₁ = .ok (true, m₂)) {rs : List Registro}
    (hrs : leerRegistros (leerRegistro pila) o.toNat l₁ m₂ = .ok ((rs, l₂), m₃)) :
    leerRegistro (pila + 1) l m =
      if enteros rs = true ∧ rs.length = o.toNat then
        (do
          let v ← contarVacias (c.toNat - o.toNat)
          return (.directorio c o rs v, l₂) : Op _) m₃
      else .ok ((.directorio c o rs 0, l₂), m₃) := by
  rw [leerRegistro, StateT.bind_of_ok hpedir]
  simp only [Bool.not_true, Bool.false_eq_true, if_false, hf, hbytes]
  rw [StateT.bind_of_ok hvector]
  simp only [Bool.not_true, Bool.false_eq_true, if_false]
  rw [StateT.bind_of_ok hrs]
  by_cases h : enteros rs = true ∧ rs.length = o.toNat
  · rw [if_pos h]
    simp only [h.1, h.2, beq_self_eq_true, Bool.and_self, if_true]
  · rw [if_neg h]
    have hno : (enteros rs && rs.length == o.toNat) = false := by
      simpa using h
    simp only [hno, Bool.false_eq_true, if_false]
    rfl

end Directorio

/-- The loader and the record, with a stack that is deep enough for the rest of the stream. -/
theorem crearDirectorio_describe (pila : ℕ) (l : Lectura) (m : Memoria)
    (hpila : l.datos.length - l.pos < pila) :
    ∃ r l' m', leerRegistro pila l m = .ok ((r, l'), m') ∧
      Describe (crearDirectorioDesdeArchivo pila l) l m r l' m' := by
  induction pila generalizing l m with
  | zero => exact absurd hpila (Nat.not_lt_zero _)
  | succ pila ih =>
    obtain ⟨servida, m₁, hpedir⟩ := pedir_responde sizeofEntradaDirectorio m
    cases servida with
    | false =>
      refine ⟨.ausente, l, m₁, ?_, .ausente ?_⟩
      · rw [leerRegistro]
        exact StateT.bind_of_ok hpedir
      · rw [crearDirectorioDesdeArchivo]
        exact StateT.bind_of_ok hpedir
    | true =>
    cases hf : l.fread codecEntradaDirectorio.size with
    | mk leido l₁ =>
    cases leido with
    | none =>
      refine ⟨.ausente, l₁, m₁, ?_, .ausente ?_⟩
      · rw [leerRegistro, StateT.bind_of_ok hpedir]
        simp only [hf]
        rfl
      · rw [crearDirectorioDesdeArchivo, StateT.bind_of_ok hpedir]
        simp only [hf]
        rfl
    | some bytes =>
    rcases hbytes : codecEntradaDirectorio.decode bytes with ⟨⟨nombre, st, tipo⟩, c, o, p⟩
    obtain ⟨servida, m₂, hvector⟩ := pedir_responde (c * sizeofPuntero) m₁
    cases servida with
    | false =>
      refine ⟨.ausente, l₁, m₂, ?_, .ausente ?_⟩
      · rw [leerRegistro, StateT.bind_of_ok hpedir]
        simp only [Bool.not_true, Bool.false_eq_true, if_false, hf, hbytes]
        exact StateT.bind_of_ok hvector
      · rw [crearDirectorioDesdeArchivo, StateT.bind_of_ok hpedir]
        simp only [Bool.not_true, Bool.false_eq_true, if_false, hf, hbytes]
        exact StateT.bind_of_ok (reservarEntradas_nueva hvector)
    | true =>
    obtain ⟨hfin, -, rfl⟩ := Lectura.fread_some.mp hf
    have hsub : ∀ (l' : Lectura) (m : Memoria), l'.datos = l.datos →
        l.pos + codecEntradaDirectorio.size ≤ l'.pos →
        ∃ r l'' m', leerRegistro pila l' m = .ok ((r, l''), m') ∧
          Describe (crearDirectorioDesdeArchivo pila l') l' m r l'' m' := by
      intro l' m hdatos hpos
      refine ih l' m ?_
      rw [hdatos]
      have hsize : codecEntradaDirectorio.size = 2224 := by simp [sizeofEntradaDirectorio]
      omega
    obtain ⟨rs, l₂, m₃, hrs, hpos⟩ := leerRegistros_responde
      (l := l.avanza codecEntradaDirectorio.size) (fun l' m hdatos hle ↦ by
      obtain ⟨r, l'', m', hr, hdescribe⟩ := hsub l' m hdatos hle
      refine ⟨r, l'', m', hr, fun he ↦ ?_⟩
      obtain ⟨hdatos', hle'⟩ := hdescribe.avanza he
      exact ⟨hdatos'.trans hdatos, Nat.le_trans hle (Nat.le_trans (Nat.le_add_right _ _) hle')⟩)
      o.toNat m₂ rfl (Nat.le_refl (l.pos + codecEntradaDirectorio.size))
    have hentradas : DescribeEntradas (crearDirectorioDesdeArchivo pila)
        ⟨nombre, st, c, o, List.replicate (ranuras c) .indefinida⟩ [] (ranuras c) o.toNat
        (l.avanza codecEntradaDirectorio.size) m₂ rs l₂ m₃ :=
      cargarEntradas_describe hsub rfl (fun _ h ↦ absurd h List.not_mem_nil) (Nat.zero_add _) rfl (Nat.le_refl _) hrs
    have hcargar : crearDirectorioDesdeArchivo (pila + 1) l m = _ :=
      crearDirectorio_presente hpedir hf hbytes hvector
    have hleer := leerRegistro_presente hpedir hf hbytes hvector hrs
    have havanza (v : ℕ) (he : (directorio c o rs v).entero = true) :
        l₂.datos = l.datos ∧ l.pos + codecEntradaDirectorio.size ≤ l₂.pos :=
      hpos (entero_directorio.mp he).1
    by_cases hent : enteros rs = true ∧ rs.length = o.toNat
    · rw [if_pos hent] at hleer
      by_cases hprudentes : Prudentes c 0 rs
      · obtain ⟨hle, nuevas, hlargo, hnuevas, hcargadas⟩ := hentradas.bien hprudentes hent.1 hent.2
        have hcargadas : cargarEntradas (crearDirectorioDesdeArchivo pila)
            ⟨nombre, st, c, o, List.replicate (ranuras c) .indefinida⟩ 0 o.toNat
              (l.avanza codecEntradaDirectorio.size) m₂ = .ok ((some ⟨nombre, st, c, o,
                nuevas ++ List.replicate (ranuras c - o.toNat) .indefinida⟩, l₂), m₃) := hcargadas
        obtain ⟨v, m', hv, hbien, hmal⟩ := llenarDirectorio_describe
          (d := ⟨nombre, st, c, o, nuevas ++ List.replicate (ranuras c - o.toNat) .indefinida⟩)
          hnuevas hlargo hle rfl m₃
        refine ⟨.directorio c o rs v, l₂, m', hleer.trans (StateT.bind_of_ok hv), fun _ _ ↦ Iff.rfl,
          fun hprudente ↦ ?_, fun hno ↦ ?_, havanza v⟩
        · obtain ⟨-, hmin⟩ := prudente_directorio.mp hprudente
          obtain ⟨r, es, hllenar, hr, hes⟩ := hbien (hmin hent.1 hent.2)
          have hentero : (directorio c o rs v).entero = true ↔ r = 0 := by
            rw [hr, entero_directorio]
            exact ⟨fun h ↦ h.2.2, fun h ↦ ⟨hent.1, hent.2, h⟩⟩
          rw [hcargar, hcargadas]
          simp only [hllenar]
          by_cases hr0 : r = 0
          · refine ⟨_, rfl, ?_, ?_⟩
            · rw [if_neg (not_not.mpr hr0), hentero.mpr hr0, Option.isSome_some]
            · rw [if_neg (not_not.mpr hr0)]
              rintro _ ⟨⟩
              rw [Holgado]
              exact hes hr0
          · refine ⟨_, rfl, ?_, ?_⟩
            · rw [if_pos hr0, Bool.eq_false_iff.mpr (mt hentero.mp hr0), Option.isSome_none]
            · rw [if_pos hr0]
              intro _ h
              cases h
        · obtain ⟨hlt, hmin⟩ : o < c ∧ ranuras c ≤ min (o.toNat + v) (c.toNat - 1) := by
            by_contra hcon
            refine hno (prudente_directorio.mpr ⟨hprudentes, fun _ _ hlt ↦ ?_⟩)
            exact Nat.lt_of_not_le fun hle ↦ hcon ⟨hlt, hle⟩
          obtain ⟨f, hf⟩ := hmal hlt hmin
          rw [hcargar, hcargadas]
          exact ⟨f, by simp only [hf]⟩
      · obtain ⟨v, m', hv, -⟩ := llenarDesde_cuenta (c.toNat - o.toNat) 0 [] m₃
        refine ⟨.directorio c o rs v, l₂, m', hleer.trans (StateT.bind_of_ok hv), fun _ _ ↦ Iff.rfl,
          fun hprudente ↦ absurd (prudente_directorio.mp hprudente).1 hprudentes, fun _ ↦ ?_,
          havanza v⟩
        obtain ⟨f, hf⟩ := hentradas.mal hprudentes
        rw [List.length_nil] at hf
        exact ⟨f, hcargar.trans (by rw [hf])⟩
    · rw [if_neg hent] at hleer
      have hroto : (directorio c o rs 0).entero = false :=
        Bool.eq_false_iff.mpr fun he ↦ hent ⟨(entero_directorio.mp he).1, (entero_directorio.mp he).2.1⟩
      refine ⟨.directorio c o rs 0, l₂, m₃, hleer, fun _ _ ↦ Iff.rfl, fun hprudente ↦ ?_,
        fun hno ↦ ?_, havanza 0⟩
      · have hnulo := hentradas.corta (prudente_directorio.mp hprudente).1 hent
        rw [List.length_nil] at hnulo
        exact ⟨none, hcargar.trans (by rw [hnulo]), hroto.symm, fun _ h ↦ by cases h⟩
      · obtain ⟨f, hf⟩ := hentradas.mal fun hp ↦
          hno (prudente_directorio.mpr ⟨hp, fun h₁ h₂ ↦ absurd ⟨h₁, h₂⟩ hent⟩)
        rw [List.length_nil] at hf
        exact ⟨f, hcargar.trans (by rw [hf])⟩

/-! ## The condition -/

/-- What a stream must hold for the call to be safe: at every level the entries may come where they do,
and where the root can be loaded whole every directory has a slot to spare. -/
def FlujoSeguro (pila : ℕ) (l : Lectura) (m : Memoria) : Prop :=
  ∃ r l' m', leerRegistro pila l m = .ok ((r, l'), m') ∧ r.Prudente ∧ (r.entero = true → r.Holgado)

/-- On every stream, whatever the heap answers, the loader stays within its vectors, releases only
assigned slots and returns NULL or a tree in order, if and only if the stream is safe. -/
theorem carga_segura_iff {pila : ℕ} {l : Lectura} {m : Memoria}
    (hpila : l.datos.length - l.pos < pila) :
    CargaSegura (crearDirectorioDesdeArchivo pila l m) ↔ FlujoSeguro pila l m := by
  obtain ⟨r, l', m', hr, hdescribe⟩ := crearDirectorio_describe pila l m hpila
  have hflujo : FlujoSeguro pila l m ↔ r.Prudente ∧ (r.entero = true → r.Holgado) := by
    refine ⟨fun ⟨r', l'', m'', hr', h⟩ ↦ ?_, fun h ↦ ⟨r, l', m', hr, h⟩⟩
    rw [hr] at hr'
    cases hr'
    exact h
  rw [hflujo]
  by_cases hprudente : r.Prudente
  · obtain ⟨o, ho, hsome, harbol⟩ := hdescribe.bien hprudente
    rw [ho]
    cases o with
    | none =>
      refine iff_of_true trivial ⟨hprudente, fun he ↦ ?_⟩
      rw [he] at hsome
      cases hsome
    | some d =>
      obtain ⟨hcompleta, hholgada⟩ := harbol d rfl
      have hambas : CargaSegura (.ok ((some d, l'), m')) ↔
          (Entrada.directorio d).Cada Entrada.Holgada :=
        ⟨fun h u x hx ↦ (h u x hx).2, fun h u x hx ↦ ⟨hcompleta u x hx, h u x hx⟩⟩
      rw [hambas, hholgada]
      exact ⟨fun h ↦ ⟨hprudente, fun _ ↦ h⟩, fun h ↦ h.2 hsome.symm⟩
  · obtain ⟨f, hf⟩ := hdescribe.mal hprudente
    rw [hf]
    exact iff_of_false id fun h ↦ hprudente h.1

/-- The structure of an empty directory `/` that declares some entries. -/
def estructuraRaiz (cantidadEntradas cantidadEntradasOcupadas : UInt64) : List UInt8 :=
  codecEntradaDirectorio.encode ((⟨[barra], by decide⟩, statNuevo ⟨0, 0, 0, fun _ ↦ 0⟩ sIfdir,
    tipoDirectorio), cantidadEntradas, cantidadEntradasOcupadas, 0)

theorem length_estructuraRaiz (c o : UInt64) : (estructuraRaiz c o).length = 2224 := by
  rw [estructuraRaiz, Codec.length_encode, size_codecEntradaDirectorio]
  rfl

theorem carga_segura_vacio :
    CargaSegura (crearDirectorioDesdeArchivo 2225 ⟨estructuraRaiz 5 0, 0⟩ ⟨[], false⟩) ↔
      FlujoSeguro 2225 ⟨estructuraRaiz 5 0, 0⟩ ⟨[], false⟩ :=
  carga_segura_iff (by rw [length_estructuraRaiz]; decide)

/-- The image of a root with one file, cut off behind the structure of the root: the release reads a
slot that has never been assigned. -/
theorem carga_de_imagen_cortada :
    crearDirectorioDesdeArchivo 2225 ⟨estructuraRaiz 5 1, 0⟩ ⟨[], false⟩ =
        .error .punteroIndefinido ∧
      ¬ CargaSegura (crearDirectorioDesdeArchivo 2225 ⟨estructuraRaiz 5 1, 0⟩ ⟨[], false⟩) := by
  have hresultado : (match crearDirectorioDesdeArchivo 2225 ⟨estructuraRaiz 5 1, 0⟩ ⟨[], false⟩ with
      | .error .punteroIndefinido => true
      | _ => false) = true := by decide +kernel
  split at hresultado
  · rename_i hcarga
    rw [hcarga]
    exact ⟨rfl, id⟩
  · cases hresultado

end SistemasOperativos.FisopFs
