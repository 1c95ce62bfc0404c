import SistemasOperativos.FisopFs.Slots

/-!
# Which entry a path names

A path as the list of its components, the entry of the tree at the end of it, and the agreement of
`encontrar_entrada` with that reading. A directory gives a name to at most one of its slots; this is
the invariant under which the first match of a search is the only one.
-/

namespace SistemasOperativos.FisopFs

open Library

/-! ## Paths -/

/-- A path as its components, from the root. -/
abbrev Ruta := List Cadena

namespace Ruta

/-- The components, each one after a `'/'`. -/
def barras (p : Ruta) : Cadena := p.flatMap (barra :: ·)

/-- The text of an absolute path. -/
def texto : Ruta → Cadena
  | [] => [barra]
  | c :: cs => barras (c :: cs)

/-- A normalised path: no component is empty or has a `'/'`, and the text is shorter than
`MAXIMO_PATH`. -/
structure Normal (p : Ruta) : Prop where
  componentes : ∀ c ∈ p, c ≠ [] ∧ barra ∉ c
  corto : p.texto.length < maximoPath

@[simp] theorem barras_cons (c : Cadena) (p : Ruta) : barras (c :: p) = barra :: (c ++ barras p) :=
  rfl

theorem barras_append (p q : Ruta) : barras (p ++ q) = barras p ++ barras q :=
  List.flatMap_append

theorem texto_append (p : Ruta) (c : Cadena) : (p ++ [c]).texto = barras p ++ barra :: c := by
  have htexto : (p ++ [c]).texto = barras (p ++ [c]) := by cases p <;> rfl
  have hultimo : barras [c] = barra :: c := by simp [barras]
  rw [htexto, barras_append, hultimo]

theorem length_le_barras (p : Ruta) : p.length ≤ (barras p).length := by
  induction p with
  | nil => exact Nat.zero_le _
  | cons c p ih =>
    rw [barras_cons, List.length_cons, List.length_cons, List.length_append]
    omega

variable {p : Ruta} {c : Cadena}

/-- Each component of the path fits in the buffer that the handlers copy it to, whatever the length of
the path. -/
def Breve (p : Ruta) : Prop := ∀ c ∈ p, c ≠ [] ∧ barra ∉ c ∧ c.length < maximoPath

theorem length_lt_barras (h : c ∈ p) : c.length < (barras p).length := by
  obtain ⟨a, b, rfl⟩ := List.append_of_mem h
  rw [barras_append, List.length_append, barras_cons, List.length_cons, List.length_append]
  omega

/-- The check of the length that the handlers make is enough for that. -/
theorem breve_of_length (h : ∀ c ∈ p, c ≠ [] ∧ barra ∉ c) (hlargo : p.texto.length ≤ maximoPath) :
    p.Breve := by
  intro c hc
  have htexto : p.texto = barras p := by
    cases p with
    | nil => cases hc
    | cons c p => rfl
  rw [htexto] at hlargo
  exact ⟨(h c hc).1, (h c hc).2, Nat.lt_of_lt_of_le (length_lt_barras hc) hlargo⟩

theorem Normal.breve (h : p.Normal) : p.Breve :=
  breve_of_length h.componentes (Nat.le_of_lt h.corto)

theorem texto_cons_ne (hc : c ≠ []) : texto (c :: p) ≠ [barra] := by
  intro heq
  have hlen := congrArg List.length heq
  have hpos := List.length_pos_of_ne_nil hc
  change (barras (c :: p)).length = 1 at hlen
  rw [barras_cons, List.length_cons, List.length_append] at hlen
  omega

/-- The parent of a normalised path is normalised. -/
theorem Normal.padre (h : (p ++ [c]).Normal) : p.Normal where
  componentes x hx := h.componentes x (List.mem_append_left _ hx)
  corto := by
    have hcorto := h.corto
    rw [texto_append, List.length_append, List.length_cons] at hcorto
    cases p with
    | nil => decide
    | cons x p =>
      change (barras (x :: p)).length < maximoPath
      omega

theorem Normal.ultimo (h : (p ++ [c]).Normal) : c ≠ [] ∧ barra ∉ c ∧ c.length < maximoPath := by
  obtain ⟨hvacio, hbarra⟩ := h.componentes c (List.mem_append_right _ (List.mem_singleton_self c))
  have hcorto := h.corto
  rw [texto_append, List.length_append, List.length_cons] at hcorto
  exact ⟨hvacio, hbarra, by omega⟩

end Ruta

/-! ## The string functions on the text of a path -/

theorem strcpy_corto {origen : Cadena} (h : origen.length < maximoPath) :
    strcpy origen = .ok origen := if_pos h

theorem ultimaBarra_sin {c : Cadena} (h : barra ∉ c) : ultimaBarra c = none := by
  induction c with
  | nil => rfl
  | cons x c ih =>
    have hx : x ≠ barra := fun heq ↦ h (heq ▸ List.mem_cons_self)
    have hc : ultimaBarra c = none := ih fun hmem ↦ h (List.mem_cons_of_mem x hmem)
    simp only [ultimaBarra, hc, if_neg hx]

theorem ultimaBarra_append {a c : Cadena} (h : barra ∉ c) :
    ultimaBarra (a ++ barra :: c) = some a.length := by
  induction a with
  | nil => simp [ultimaBarra, ultimaBarra_sin h]
  | cons x a ih => simp [ultimaBarra, ih]

section Partes

variable {p : Ruta} {c : Cadena}

theorem obtenerNombreFinalPath_texto (h : (p ++ [c]).Normal) :
    obtenerNombreFinalPath (p ++ [c]).texto = .ok c := by
  obtain ⟨-, hbarra, hcorto⟩ := h.ultimo
  have hdrop : (Ruta.barras p ++ barra :: c).drop ((Ruta.barras p).length + 1) = c := by
    rw [List.drop_append, List.drop_of_length_le (Nat.le_succ _)]
    simp
  rw [obtenerNombreFinalPath, Ruta.texto_append, ultimaBarra_append hbarra]
  simp only [hdrop]
  exact strcpy_corto hcorto

theorem obtenerDirectorioPath_texto (h : (p ++ [c]).Normal) :
    obtenerDirectorioPath (p ++ [c]).texto = .ok p.texto := by
  obtain ⟨hvacio, hbarra, -⟩ := h.ultimo
  have hlargo : (p ++ [c]).texto.length ≠ 0 := by
    rw [Ruta.texto_append, List.length_append, List.length_cons]
    omega
  have hraiz : (p ++ [c]).texto ≠ [barra] := by
    intro heq
    have hlen := congrArg List.length heq
    have hpos := List.length_pos_of_ne_nil hvacio
    rw [Ruta.texto_append, List.length_append, List.length_cons, List.length_singleton] at hlen
    omega
  have hparte : obtenerParteDirectorio (p ++ [c]).texto = p.texto := by
    rw [obtenerParteDirectorio, if_neg hlargo, if_neg hraiz, Ruta.texto_append,
      ultimaBarra_append hbarra]
    cases p with
    | nil => rfl
    | cons x p =>
      have hpos : (Ruta.barras (x :: p)).length = (x ++ Ruta.barras p).length + 1 := by simp
      rw [hpos]
      exact List.take_left' hpos
  rw [obtenerDirectorioPath, strcpy_corto h.corto]
  exact congrArg Except.ok hparte

/-- What is left of a path when the components before these have been taken off. -/
def Ruta.resto : Ruta → Option Cadena
  | [] => none
  | c :: cs => some (c ++ barras cs)

theorem Ruta.resto_cons (c : Cadena) (p : Ruta) : Ruta.resto (c :: p) = some (c ++ barras p) := rfl

theorem takeWhile_barras (hbarra : barra ∉ c) (p : Ruta) :
    (c ++ Ruta.barras p).takeWhile (· ≠ barra) = c := by
  have hc : ∀ x ∈ c, decide (x ≠ barra) = true := by
    intro x hx
    exact decide_eq_true fun heq ↦ hbarra (heq ▸ hx)
  rw [List.takeWhile_append_of_pos hc]
  cases p <;> simp [Ruta.barras]

theorem dropWhile_barras (hbarra : barra ∉ c) (p : Ruta) :
    (c ++ Ruta.barras p).dropWhile (· ≠ barra) = Ruta.barras p := by
  have hc : ∀ x ∈ c, decide (x ≠ barra) = true := by
    intro x hx
    exact decide_eq_true fun heq ↦ hbarra (heq ▸ hx)
  rw [List.dropWhile_append_of_pos hc]
  cases p <;> simp [Ruta.barras]

/-- Taking the first component off the rest of a path. -/
theorem dividirPathEnDos_barras (hbarra : barra ∉ c) (hcorto : c.length < maximoPath) :
    dividirPathEnDos (c ++ Ruta.barras p) = .ok (c, p.resto) := by
  rw [dividirPathEnDos, takeWhile_barras hbarra, strcpy_corto hcorto]
  simp only [bind, Except.bind, dropWhile_barras hbarra]
  cases p with
  | nil => rfl
  | cons x xs => rfl

/-- It is done only if the component fits. -/
theorem dividirPathEnDos_barras_ok {partes : Cadena × Option Cadena} (hbarra : barra ∉ c)
    (h : dividirPathEnDos (c ++ Ruta.barras p) = .ok partes) :
    c.length < maximoPath ∧ partes = (c, p.resto) := by
  have hcorto : c.length < maximoPath := by
    rw [dividirPathEnDos, takeWhile_barras hbarra, strcpy] at h
    split at h
    · assumption
    · cases h
  rw [dividirPathEnDos_barras hbarra hcorto] at h
  exact ⟨hcorto, (Except.ok.inj h).symm⟩

end Partes

/-! ## The slot of a name -/

/-- A file or a directory with the name `c`. -/
def Entrada.seLlama (c : Cadena) (e : Entrada) : Bool := e.ocupada && e.nombre == c

theorem Entrada.seLlama_iff {c : Cadena} {e : Entrada} :
    e.seLlama c = true ↔ e.ocupada = true ∧ e.nombre = c := by
  simp [seLlama]

theorem Entrada.Semejante.seLlama {x y : Entrada} (h : x.Semejante y) (c : Cadena) :
    x.seLlama c = y.seLlama c := by
  rw [Entrada.seLlama, Entrada.seLlama, h.ocupada, h.2]

theorem findIdx?_congr {α : Type} {p q : α → Bool} {l l' : List α} (h : l.map p = l'.map q) :
    l.findIdx? p = l'.findIdx? q := by
  have hp : (l.map p).findIdx? id = l.findIdx? p := List.findIdx?_map
  have hq : (l'.map q).findIdx? id = l'.findIdx? q := List.findIdx?_map
  rw [← hp, ← hq, h]

theorem findIdx?_set {α : Type} {p : α → Bool} {l : List α} {i : ℕ} {x y : α}
    (hx : l[i]? = some x) (hp : p x = p y) : (l.set i y).findIdx? p = l.findIdx? p := by
  apply findIdx?_congr
  have hmap : (l.map p)[i]? = some (p y) := by rw [List.getElem?_map, hx, Option.map_some, hp]
  rw [List.map_set]
  obtain ⟨hlt, hget⟩ := List.getElem?_eq_some_iff.mp hmap
  rw [← hget]
  exact List.set_getElem_self hlt

/-- The loops of the handlers find the first slot with the property, where all slots can be read. -/
theorem primera_eq_findIdx? {p : Entrada → Bool} {es : List Entrada}
    (h : ∀ e ∈ es, e.asignada = true) : primera p es.length es = .ok (es.findIdx? p) := by
  induction es with
  | nil => rfl
  | cons e es ih =>
    have he : e.asignada = true := h e List.mem_cons_self
    have hes := ih fun x hx ↦ h x (List.mem_cons_of_mem e hx)
    obtain ⟨t, ht⟩ : ∃ t, e.tipo = .ok t := by
      cases e <;> first | exact ⟨_, rfl⟩ | cases he
    rw [List.length_cons, primera, List.findIdx?_cons, ht, hes]
    cases p e <;> rfl

namespace EntradaDirectorioDe

/-- The slot that a search for the name `c` selects. -/
def ranura (d : EntradaDirectorio) (c : Cadena) : Option ℕ := d.entradas.findIdx? (Entrada.seLlama c)

/-- Names of entries are not empty, and no two entries share one. -/
structure Distinto (d : EntradaDirectorio) : Prop where
  nombrados : ∀ e ∈ d.entradas, e.ocupada = true → e.nombre ≠ []
  distintos : ∀ (i j : ℕ) (x y : Entrada) (c : Cadena), d.entradas[i]? = some x →
    d.entradas[j]? = some y → x.seLlama c = true → y.seLlama c = true → i = j

variable {d : EntradaDirectorio} {c : Cadena} {i : ℕ} {x y : Entrada}

theorem ranura_some (h : d.ranura c = some i) :
    ∃ x, d.entradas[i]? = some x ∧ x.seLlama c = true := by
  obtain ⟨hlt, hx, -⟩ := List.findIdx?_eq_some_iff_getElem.mp h
  exact ⟨_, List.getElem?_eq_getElem hlt, hx⟩

theorem ranura_none : d.ranura c = none ↔ ∀ e ∈ d.entradas, e.seLlama c = false :=
  List.findIdx?_eq_none_iff

/-- Where names are distinct, the slot of a name is any slot with that name. -/
theorem Distinto.ranura_eq (h : d.Distinto) (hx : d.entradas[i]? = some x)
    (hc : x.seLlama c = true) : d.ranura c = some i := by
  cases hranura : d.ranura c with
  | none =>
    have hno := ranura_none.mp hranura x (List.mem_of_getElem? hx)
    rw [hc] at hno
    cases hno
  | some j =>
    obtain ⟨y, hy, hyc⟩ := ranura_some hranura
    rw [h.distintos i j x y c hx hy hc hyc]

/-- A slot whose new entry has the type and the name of the old one is found as before. -/
theorem ranura_set (hx : d.entradas[i]? = some x) (hs : x.Semejante y) (c : Cadena) :
    ranura { d with entradas := d.entradas.set i y } c = d.ranura c :=
  findIdx?_set hx (hs.seLlama c)

/-- The loop of `encontrar_entrada_rec`. -/
def buscar (d : EntradaDirectorio) (c : Cadena) : Except Fallo (Option ℕ) :=
  primera (fun e ↦ !e.esVacio && e.nombre == c) d.cantidadEntradas.toNat d.entradas

/-- Slot `i` of the directory holds a file or a directory with the name `c`. -/
def Nombra (d : EntradaDirectorio) (c : Cadena) (i : ℕ) : Prop :=
  i < d.cantidadEntradas.toNat ∧ ∃ e, d.entradas[i]? = some e ∧ e.seLlama c = true

/-- An entry that can be read passes the test of the loop if it has the name. -/
theorem seLlama_eq {e : Entrada} (he : e.asignada = true) :
    (!e.esVacio && e.nombre == c) = e.seLlama c := by
  cases e with
  | nula => cases he
  | indefinida => cases he
  | _ => rfl

theorem buscar_some (h : d.buscar c = .ok (some i)) :
    d.Nombra c i ∧ ∀ j < i, ¬ d.Nombra c j := by
  obtain ⟨hlt, ⟨e, he, hasignada, hllama⟩, hantes⟩ := primera_some h
  refine ⟨⟨hlt, e, he, (seLlama_eq hasignada).symm.trans hllama⟩, ?_⟩
  rintro j hj ⟨-, x, hx, hxllama⟩
  obtain ⟨hxasignada, hno⟩ := hantes j x hj hx
  rw [seLlama_eq hxasignada, hxllama] at hno
  cases hno

theorem buscar_none (h : d.buscar c = .ok none) : ¬ d.Nombra c i := by
  rintro ⟨hlt, e, he, hllama⟩
  obtain ⟨hasignada, hno⟩ := (primera_none h).2 i e hlt he
  rw [seLlama_eq hasignada, hllama] at hno
  cases hno

/-- The loop finds the first slot with the name. -/
theorem buscar_eq {o : Option ℕ} (h : d.buscar c = .ok o) (hi : d.Nombra c i)
    (hantes : ∀ j < i, ¬ d.Nombra c j) : o = some i := by
  cases o with
  | none => exact absurd hi (buscar_none h)
  | some k =>
    obtain ⟨hk, hkantes⟩ := buscar_some h
    have hik : ¬ i < k := fun hlt ↦ hkantes i hlt hi
    have hki : ¬ k < i := fun hlt ↦ hantes k hlt hk
    rw [Nat.le_antisymm (Nat.le_of_not_lt hik) (Nat.le_of_not_lt hki)]

/-- In a directory in order it finds the slot of the name. -/
theorem Sano.buscar (h : d.Sano) (c : Cadena) : d.buscar c = .ok (d.ranura c) := by
  have hlee := primera_eq_findIdx? (p := fun e ↦ !e.esVacio && e.nombre == c) h.asignadas
  have hmismo : d.entradas.findIdx? (fun e ↦ !e.esVacio && e.nombre == c) = d.ranura c := by
    apply findIdx?_congr
    exact List.map_congr_left fun e he ↦ seLlama_eq (h.asignadas e he)
  rw [EntradaDirectorioDe.buscar, ← h.largo, hlee, hmismo]

end EntradaDirectorioDe

/-! ## The entry at the end of a path -/

/-- What a path can name. -/
inductive Nodo where
  | directorio
  | archivo (bytes : List UInt8)
deriving DecidableEq

/-- The content of a file. -/
def EntradaArchivo.bytes (a : EntradaArchivo) : List UInt8 := a.contenido.take a.st.stSize.toNat

namespace Entrada

/-- The location of the entry that a path names, seen from an entry. -/
def ubicar : Entrada → Ruta → Option Ubicacion
  | _, [] => some []
  | .directorio d, c :: cs =>
    (d.ranura c).bind fun i ↦ (d.entradas[i]?.bind (·.ubicar cs)).map (i :: ·)
  | _, _ :: _ => none

/-- What a path names, seen from an entry. -/
def nodo : Entrada → Ruta → Option Nodo
  | .archivo a, [] => some (.archivo a.bytes)
  | .directorio _, [] => some .directorio
  | .directorio d, c :: cs => (d.ranura c).bind fun i ↦ d.entradas[i]?.bind (·.nodo cs)
  | _, _ => none

@[simp] theorem ubicar_nil (e : Entrada) : e.ubicar [] = some [] := by
  cases e <;> rfl

theorem ubicar_cons (d : EntradaDirectorio) (c : Cadena) (p : Ruta) :
    (directorio d).ubicar (c :: p) =
      (d.ranura c).bind fun i ↦ (d.entradas[i]?.bind (·.ubicar p)).map (i :: ·) := rfl

theorem nodo_cons (d : EntradaDirectorio) (c : Cadena) (p : Ruta) :
    (directorio d).nodo (c :: p) =
      (d.ranura c).bind fun i ↦ d.entradas[i]?.bind (·.nodo p) := rfl

/-- A path with components is resolved through a slot of a directory. -/
theorem ubicar_cons_eq_some {e : Entrada} {c : Cadena} {p : Ruta} {u : Ubicacion}
    (h : e.ubicar (c :: p) = some u) :
    ∃ d i hijo v, e = directorio d ∧ d.ranura c = some i ∧ d.entradas[i]? = some hijo ∧
      hijo.ubicar p = some v ∧ u = i :: v := by
  cases e with
  | directorio d =>
    simp only [ubicar_cons, Option.bind_eq_some_iff, Option.map_eq_some_iff] at h
    obtain ⟨i, hi, v, ⟨hijo, hhijo, hv⟩, rfl⟩ := h
    exact ⟨d, i, hijo, v, rfl, hi, hhijo, hv, rfl⟩
  | _ => cases h

theorem en_of_ubicar {e : Entrada} {p : Ruta} {u : Ubicacion} (h : e.ubicar p = some u) :
    ∃ x, e.en u = some x ∧ ∀ q, e.nodo (p ++ q) = x.nodo q := by
  induction p generalizing e u with
  | nil =>
    rw [ubicar_nil] at h
    cases h
    exact ⟨e, en_nil e, fun _ ↦ rfl⟩
  | cons c p ih =>
    obtain ⟨d, i, hijo, v, rfl, hi, hhijo, hv, rfl⟩ := ubicar_cons_eq_some h
    obtain ⟨x, hx, hnodo⟩ := ih hv
    refine ⟨x, ?_, fun q ↦ ?_⟩
    · rw [en_directorio_cons, hhijo, Option.bind_some, hx]
    · rw [List.cons_append, nodo_cons, hi, Option.bind_some, hhijo, Option.bind_some, hnodo]

theorem nodo_append {e x : Entrada} {p : Ruta} {u : Ubicacion} (h : e.ubicar p = some u)
    (hx : e.en u = some x) (q : Ruta) : e.nodo (p ++ q) = x.nodo q := by
  obtain ⟨y, hy, hnodo⟩ := en_of_ubicar h
  rw [hx] at hy
  cases hy
  exact hnodo q

theorem nodo_of_ubicar {e x : Entrada} {p : Ruta} {u : Ubicacion} (h : e.ubicar p = some u)
    (hx : e.en u = some x) : e.nodo p = x.nodo [] := by
  have hnodo := nodo_append h hx []
  rw [List.append_nil] at hnodo
  exact hnodo

theorem nodo_nil_isSome (e : Entrada) : (e.nodo []).isSome = e.ocupada := by
  cases e <;> rfl

theorem ocupada_of_ubicar {e x : Entrada} {p : Ruta} {u : Ubicacion} (he : e.ocupada = true)
    (h : e.ubicar p = some u) (hx : e.en u = some x) : x.ocupada = true := by
  induction p generalizing e u with
  | nil =>
    rw [ubicar_nil] at h
    cases h
    rw [en_nil] at hx
    cases hx
    exact he
  | cons c p ih =>
    obtain ⟨d, i, hijo, v, rfl, hi, hhijo, hv, rfl⟩ := ubicar_cons_eq_some h
    rw [en_directorio_cons, hhijo, Option.bind_some] at hx
    obtain ⟨y, hy, hyc⟩ := EntradaDirectorioDe.ranura_some hi
    rw [hhijo] at hy
    cases hy
    exact ih (seLlama_iff.mp hyc).1 hv hx

/-- A path that has no location names nothing, and neither does any path below it. -/
theorem nodo_of_ubicar_none {e : Entrada} {p : Ruta} (h : e.ubicar p = none) (q : Ruta) :
    e.nodo (p ++ q) = none := by
  induction p generalizing e with
  | nil =>
    rw [ubicar_nil] at h
    cases h
  | cons c p ih =>
    cases e with
    | directorio d =>
      rw [List.cons_append, nodo_cons]
      cases hi : d.ranura c with
      | none => rfl
      | some i =>
        rw [ubicar_cons, hi, Option.bind_some, Option.map_eq_none_iff] at h
        rw [Option.bind_some]
        cases hhijo : d.entradas[i]? with
        | none => rfl
        | some hijo =>
          rw [hhijo, Option.bind_some] at h
          exact ih h
    | _ => rfl

/-! ## Writing through a location -/

/-- Replacing the entry that a path names changes what the paths below it name, and no other. -/
theorem nodo_poner {e x y : Entrada} {p : Ruta} {u : Ubicacion} (h : e.ubicar p = some u)
    (hx : e.en u = some x) (hs : x.Semejante y) (r : Ruta) :
    (y.poner e u).nodo r = if p <+: r then y.nodo (r.drop p.length) else e.nodo r := by
  induction p generalizing e u r with
  | nil =>
    rw [ubicar_nil] at h
    cases h
    rw [poner_nil, if_pos List.nil_prefix]
    rfl
  | cons c p ih =>
    obtain ⟨d, i, hijo, v, rfl, hi, hhijo, hv, rfl⟩ := ubicar_cons_eq_some h
    rw [en_directorio_cons, hhijo, Option.bind_some] at hx
    rw [poner_cons hhijo]
    cases r with
    | nil => rfl
    | cons c' r =>
      have hranura := EntradaDirectorioDe.ranura_set hhijo (poner_semejante hx hs) c'
      rw [nodo_cons, hranura, nodo_cons]
      by_cases hc : c = c'
      · subst hc
        have hlt : i < d.entradas.length := (List.getElem?_eq_some_iff.mp hhijo).1
        rw [hi, Option.bind_some, Option.bind_some, List.getElem?_set_self hlt, Option.bind_some,
          hhijo, Option.bind_some, ih hv hx]
        simp
      · have hno : ¬ c :: p <+: c' :: r := fun hpre ↦ hc (List.cons_prefix_cons.mp hpre).1
        rw [if_neg hno]
        cases hj : d.ranura c' with
        | none => rfl
        | some j =>
          -- the slots of two different names are different
          have hij : i ≠ j := by
            rintro rfl
            obtain ⟨z, hz, hzc⟩ := EntradaDirectorioDe.ranura_some hi
            obtain ⟨w, hw, hwc⟩ := EntradaDirectorioDe.ranura_some hj
            rw [hz] at hw
            cases hw
            exact hc ((seLlama_iff.mp hzc).2.symm.trans (seLlama_iff.mp hwc).2)
          rw [Option.bind_some, Option.bind_some, List.getElem?_set_ne hij]

/-- Two entries from which every path leads to the same place. -/
structure Equivalente (x y : Entrada) : Prop where
  semejante : x.Semejante y
  ubicar : ∀ p, y.ubicar p = x.ubicar p
  nodo : ∀ p, y.nodo p = x.nodo p

theorem Equivalente.set {d : EntradaDirectorio} {i : ℕ} {x y : Entrada}
    (hx : d.entradas[i]? = some x) (h : x.Equivalente y) (st : Stat) :
    (directorio d).Equivalente (directorio { d with st, entradas := d.entradas.set i y }) := by
  have hranura (c : Cadena) :
      EntradaDirectorioDe.ranura { d with st, entradas := d.entradas.set i y } c = d.ranura c :=
    EntradaDirectorioDe.ranura_set hx h.semejante c
  have hlt : i < d.entradas.length := (List.getElem?_eq_some_iff.mp hx).1
  refine ⟨by simp, fun p ↦ ?_, fun p ↦ ?_⟩
  · cases p with
    | nil => simp
    | cons c p =>
      rw [ubicar_cons, ubicar_cons, hranura]
      congr 1
      funext j
      by_cases hij : i = j
      · subst hij
        rw [List.getElem?_set_self hlt, hx, Option.bind_some, Option.bind_some, h.ubicar]
      · rw [List.getElem?_set_ne hij]
  · cases p with
    | nil => rfl
    | cons c p =>
      rw [nodo_cons, nodo_cons, hranura]
      congr 1
      funext j
      by_cases hij : i = j
      · subst hij
        rw [List.getElem?_set_self hlt, hx, Option.bind_some, Option.bind_some, h.nodo]
      · rw [List.getElem?_set_ne hij]

theorem equivalente_accedido (d : EntradaDirectorio) (ahora : UInt64) :
    (directorio d).Equivalente (directorio (d.accedido ahora)) := by
  refine ⟨by simp [EntradaDirectorioDe.accedido], fun p ↦ ?_, fun p ↦ ?_⟩
  · cases p <;> rfl
  · cases p <;> rfl

end Entrada

/-- A search leads every path to where it led before. -/
theorem Recorrido.equivalente {ahora : UInt64} {d d' : EntradaDirectorio}
    (h : Recorrido ahora d d') : (Entrada.directorio d).Equivalente (.directorio d') := by
  induction h with
  | llega d => exact Entrada.equivalente_accedido d ahora
  | sigue hi hrec ih => exact ih.set hi _

/-! ## The search of the source -/

namespace Entrada

/-- The search of `encontrar_entrada` by the components of the path, without the access times. -/
def hallar : Entrada → Ruta → Except Fallo (Option Ubicacion)
  | _, [] => .ok (some [])
  | .directorio d, c :: cs => do
    match ← d.buscar c with
    | none => return none
    | some i =>
      match d.entradas[i]? with
      | none => return none
      | some hijo => Option.map (i :: ·) <$> hijo.hallar cs
  | _, _ :: _ => .ok none

/-- Every slot that a search of the directory may read holds an entry. -/
def Legible : Entrada → Prop
  | .directorio d => ∀ i < d.cantidadEntradas.toNat, ∃ e, d.entradas[i]? = some e ∧ e.asignada = true
  | _ => True

variable {e : Entrada} {p : Ruta}

@[simp] theorem hallar_nil (e : Entrada) : e.hallar [] = .ok (some []) := by
  cases e <;> rfl

theorem hallar_cons (d : EntradaDirectorio) (c : Cadena) (p : Ruta) :
    (directorio d).hallar (c :: p) = d.buscar c >>= fun i? ↦
      match i? with
      | none => .ok none
      | some i =>
        match d.entradas[i]? with
        | none => .ok none
        | some hijo => Option.map (i :: ·) <$> hijo.hallar p := rfl

/-- In a tree whose slots can be read every search returns. -/
theorem Cada.hallar_returns (h : e.Cada Legible) (p : Ruta) : ∃ o, e.hallar p = .ok o := by
  induction p generalizing e with
  | nil => exact ⟨_, hallar_nil e⟩
  | cons c p ih =>
    cases e with
    | directorio d =>
      obtain ⟨hself, hhijos⟩ := cada_directorio.mp h
      obtain ⟨i?, hbusca⟩ : ∃ i?, d.buscar c = .ok i? := primera_lee hself
      rw [hallar_cons, hbusca]
      cases i? with
      | none => exact ⟨none, rfl⟩
      | some i =>
        obtain ⟨⟨-, hijo, hhijo, -⟩, -⟩ := EntradaDirectorioDe.buscar_some hbusca
        obtain ⟨o, ho⟩ := ih (hhijos hijo (List.mem_of_getElem? hhijo))
        refine ⟨o.map (i :: ·), ?_⟩
        simp only [bind, Except.bind, hhijo, ho]
        rfl
    | _ => exact ⟨none, rfl⟩

/-- In a tree in order it ends at the location that the components lead to. -/
theorem Cada.hallar_eq (h : e.Cada Sana) (p : Ruta) : e.hallar p = .ok (e.ubicar p) := by
  induction p generalizing e with
  | nil => rw [hallar_nil, ubicar_nil]
  | cons c p ih =>
    cases e with
    | directorio d =>
      obtain ⟨hself, hhijos⟩ := cada_directorio.mp h
      rw [hallar_cons, (sana_directorio.mp hself).buscar, ubicar_cons]
      cases hi : d.ranura c with
      | none => rfl
      | some i =>
        obtain ⟨hijo, hhijo, -⟩ := EntradaDirectorioDe.ranura_some hi
        have hresto := ih (hhijos hijo (List.mem_of_getElem? hhijo))
        simp only [bind, Except.bind, hhijo, hresto, Option.bind_some]
        rfl
    | _ => rfl

end Entrada

/-- The recursive search is the search by components. -/
theorem encontrarEntradaRec_hallar {ahora : UInt64} {pila : ℕ} {c : Cadena} {p : Ruta}
    {d : EntradaDirectorio} (hp : ∀ x ∈ p, barra ∉ x ∧ x.length < maximoPath)
    (hpila : p.length < pila) :
    Prod.snd <$> encontrarEntradaRec ahora pila c p.resto d = (Entrada.directorio d).hallar (c :: p) := by
  induction p generalizing pila c d with
  | nil =>
    cases pila with
    | zero => exact absurd hpila (Nat.not_lt_zero _)
    | succ pila =>
      rw [encontrarEntradaRec, Entrada.hallar_cons]
      change Prod.snd <$> (d.buscar c >>= _) = _
      cases hbusca : d.buscar c with
      | error f => rfl
      | ok i? =>
        cases i? with
        | none => rfl
        | some i =>
          obtain ⟨⟨-, hijo, hhijo, -⟩, -⟩ := EntradaDirectorioDe.buscar_some hbusca
          simp only [bind, Except.bind, hhijo, Entrada.hallar_nil]
          rfl
  | cons c' p ih =>
    cases pila with
    | zero => exact absurd hpila (Nat.not_lt_zero _)
    | succ pila =>
      obtain ⟨hbarra, hcorto⟩ := hp c' List.mem_cons_self
      have hp' : ∀ y ∈ p, barra ∉ y ∧ y.length < maximoPath :=
        fun y hy ↦ hp y (List.mem_cons_of_mem c' hy)
      rw [encontrarEntradaRec, Entrada.hallar_cons]
      change Prod.snd <$> (d.buscar c >>= _) = _
      cases hbusca : d.buscar c with
      | error f => rfl
      | ok i? =>
        cases i? with
        | none => rfl
        | some i =>
          obtain ⟨⟨-, hijo, hhijo, -⟩, -⟩ := EntradaDirectorioDe.buscar_some hbusca
          simp only [bind, Except.bind, hhijo, Ruta.resto_cons, dividirPathEnDos_barras hbarra hcorto]
          cases hijo with
          | directorio x =>
            rw [← @ih pila c' x hp' (Nat.lt_of_succ_lt_succ hpila)]
            cases hrec : encontrarEntradaRec ahora pila c' (Ruta.resto p) x with
            | error f =>
              simp only [hrec]
              rfl
            | ok r =>
              simp only [hrec]
              rfl
          | _ => rfl

/-- A search that ends at an entry has copied every component. -/
theorem encontrarEntradaRec_breve {ahora : UInt64} {pila : ℕ} {c : Cadena} {p : Ruta}
    {d d' : EntradaDirectorio} {u : Ubicacion} (hp : ∀ x ∈ p, barra ∉ x)
    (h : encontrarEntradaRec ahora pila c p.resto d = .ok (d', some u)) :
    ∀ x ∈ p, x.length < maximoPath := by
  induction p generalizing pila c d d' u with
  | nil => exact nofun
  | cons c' p ih =>
    cases pila with
    | zero => cases h
    | succ pila =>
      simp only [encontrarEntradaRec, Ruta.resto_cons, Except.bind_ok] at h
      obtain ⟨o, -, h⟩ := h
      cases o with
      | none => cases h
      | some i =>
        cases hi : d.entradas[i]? with
        | none =>
          simp only [hi] at h
          cases h
        | some e =>
          cases e with
          | directorio hijo =>
            simp only [hi, Except.bind_ok] at h
            obtain ⟨partes, hdivide, ⟨hijo', o⟩, hrec, h⟩ := h
            obtain ⟨hcorto, rfl⟩ := dividirPathEnDos_barras_ok (hp c' List.mem_cons_self) hdivide
            cases o with
            | none => cases h
            | some v =>
              have hresto := ih (fun x hx ↦ hp x (List.mem_cons_of_mem c' hx)) hrec
              exact List.forall_mem_cons.mpr ⟨hcorto, hresto⟩
          | _ =>
            simp only [hi] at h
            cases h

theorem breve_of_encontrada {ahora : UInt64} {p : Ruta} {fs fs₁ : Fs} {u : Ubicacion}
    (hp : ∀ c ∈ p, c ≠ [] ∧ barra ∉ c)
    (h : encontrarEntrada ahora p.texto fs = .ok (fs₁, some u)) : p.Breve := by
  have hcortos : ∀ c ∈ p, c.length < maximoPath := by
    cases p with
    | nil => exact nofun
    | cons c p =>
      have htexto : Ruta.texto (c :: p) = barra :: (c ++ Ruta.barras p) := rfl
      unfold encontrarEntrada at h
      rw [if_neg (Ruta.texto_cons_ne (hp c List.mem_cons_self).1), htexto] at h
      simp only [Except.bind_ok] at h
      obtain ⟨partes, hdivide, ⟨raiz, o⟩, hrec, h⟩ := h
      cases h
      obtain ⟨hcorto, rfl⟩ := dividirPathEnDos_barras_ok (hp c List.mem_cons_self).2 hdivide
      have hresto := encontrarEntradaRec_breve
        (fun x hx ↦ (hp x (List.mem_cons_of_mem c hx)).2) hrec
      exact List.forall_mem_cons.mpr ⟨hcorto, hresto⟩
  exact fun c hc ↦ ⟨(hp c hc).1, (hp c hc).2, hcortos c hc⟩

namespace Fs

/-- The location of the entry that a path names. -/
def ubicar (fs : Fs) (p : Ruta) : Option Ubicacion := (Entrada.directorio fs.raiz).ubicar p

/-- What a path names. -/
def nodo (fs : Fs) (p : Ruta) : Option Nodo := (Entrada.directorio fs.raiz).nodo p

variable {fs fs' : Fs} {ahora : UInt64} {p : Ruta} {u : Ubicacion} {x : Entrada}

theorem Recorrido.equivalente (h : fs.Recorrido ahora fs') :
    (Entrada.directorio fs.raiz).Equivalente (.directorio fs'.raiz) := by
  obtain ⟨-, -, hraiz | hrec⟩ := h
  · rw [hraiz]
    exact ⟨Entrada.Semejante.refl _, fun _ ↦ rfl, fun _ ↦ rfl⟩
  · exact hrec.equivalente

theorem Recorrido.ubicar (h : fs.Recorrido ahora fs') (p : Ruta) : fs'.ubicar p = fs.ubicar p :=
  h.equivalente.ubicar p

theorem Recorrido.nodo (h : fs.Recorrido ahora fs') (p : Ruta) : fs'.nodo p = fs.nodo p :=
  h.equivalente.nodo p

theorem nodo_append (h : fs.ubicar p = some u) (hx : fs.en u = some x) (q : Ruta) :
    fs.nodo (p ++ q) = x.nodo q := Entrada.nodo_append h hx q

theorem nodo_of_ubicar (h : fs.ubicar p = some u) (hx : fs.en u = some x) :
    fs.nodo p = x.nodo [] := Entrada.nodo_of_ubicar h hx

theorem en_of_ubicar (h : fs.ubicar p = some u) : ∃ x, fs.en u = some x ∧ x.ocupada = true := by
  obtain ⟨x, hx, -⟩ := Entrada.en_of_ubicar h
  exact ⟨x, hx, Entrada.ocupada_of_ubicar rfl h hx⟩

/-- A path has a location exactly if it names something. -/
theorem ubicar_eq_none : fs.ubicar p = none ↔ fs.nodo p = none := by
  constructor
  · intro h
    have hnodo := Entrada.nodo_of_ubicar_none h []
    rw [List.append_nil] at hnodo
    exact hnodo
  · intro h
    cases hu : fs.ubicar p with
    | none => rfl
    | some u =>
      obtain ⟨x, hx, hocupada⟩ := en_of_ubicar hu
      rw [nodo_of_ubicar hu hx] at h
      have hsome := Entrada.nodo_nil_isSome x
      rw [h, hocupada] at hsome
      cases hsome

theorem nodo_poner {y : Entrada} (h : fs.ubicar p = some u) (hx : fs.en u = some x)
    (hs : x.Semejante y) (r : Ruta) :
    (fs.poner u y).nodo r = if p <+: r then y.nodo (r.drop p.length) else fs.nodo r := by
  rw [nodo, raiz_poner hx hs]
  exact Entrada.nodo_poner h hx hs r

/-- So is the search of `encontrar_entrada`. -/
theorem encontrarEntrada_hallar (hp : p.Breve) :
    Prod.snd <$> encontrarEntrada ahora p.texto fs = (Entrada.directorio fs.raiz).hallar p := by
  cases p with
  | nil => rfl
  | cons c p =>
    obtain ⟨hvacio, hbarra, hc⟩ := hp c List.mem_cons_self
    have hpila : p.length < (Ruta.texto (c :: p)).length := by
      have hle := Ruta.length_le_barras (c :: p)
      rw [List.length_cons] at hle
      exact hle
    have htexto : Ruta.texto (c :: p) = barra :: (c ++ Ruta.barras p) := rfl
    have hrec := @encontrarEntradaRec_hallar ahora _ c p fs.raiz
      (fun x hx ↦ (hp x (List.mem_cons_of_mem c hx)).2) hpila
    unfold encontrarEntrada
    rw [if_neg (Ruta.texto_cons_ne hvacio), ← hrec, htexto]
    simp only [dividirPathEnDos_barras hbarra hc, bind, Except.bind]
    cases encontrarEntradaRec ahora (barra :: (c ++ Ruta.barras p)).length c (Ruta.resto p) fs.raiz with
    | error f => rfl
    | ok r => rfl

/-- In a tree in order, `encontrar_entrada` returns the location that the path leads to. -/
theorem encontrarEntrada_breve (hfs : fs.Cada Entrada.Sana) (hp : p.Breve) :
    ∃ fs', encontrarEntrada ahora p.texto fs = .ok (fs', fs.ubicar p) := by
  have hhalla := @encontrarEntrada_hallar fs ahora p hp
  rw [Entrada.Cada.hallar_eq hfs, Library.Except.map_ok] at hhalla
  obtain ⟨⟨fs', u⟩, hencuentra, rfl⟩ := hhalla
  exact ⟨fs', hencuentra⟩

theorem encontrarEntrada_texto (hfs : fs.Cada Entrada.Sana) (hp : p.Normal) :
    ∃ fs', encontrarEntrada ahora p.texto fs = .ok (fs', fs.ubicar p) :=
  encontrarEntrada_breve hfs hp.breve

end Fs

end SistemasOperativos.FisopFs
