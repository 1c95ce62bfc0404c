import Mathlib.Data.List.Basic
import SistemasOperativos.FisopFs.Handlers

/-!
# The tree of entries

How reading and writing through a location fit together, properties of every entry of a tree, and
the number of bytes that a tree takes in the persistent image.
-/

namespace SistemasOperativos.FisopFs

/-- Induction over a tree: a property of a directory may be proved from the same property of its
slots. -/
@[elab_as_elim]
theorem Entrada.induccion {motive : Entrada → Prop} (vacio : motive .vacio)
    (archivo : ∀ a, motive (.archivo a))
    (directorio : ∀ d : EntradaDirectorio, (∀ e ∈ d.entradas, motive e) → motive (.directorio d))
    (nula : motive .nula) (indefinida : motive .indefinida) (e : Entrada) : motive e :=
  @Entrada.rec motive (fun d ↦ ∀ e ∈ d.entradas, motive e) (fun es ↦ ∀ e ∈ es, motive e)
    vacio archivo directorio nula indefinida (fun _ _ _ _ _ h ↦ h) (fun _ he ↦ nomatch he)
    (fun _ _ he hes _ hx ↦ (List.mem_cons.mp hx).elim (fun h ↦ h ▸ he) (hes _)) e

/-! ## Locations -/

namespace Entrada

@[simp] theorem en_nil (e : Entrada) : e.en [] = some e := by
  cases e <;> rfl

theorem en_directorio_cons (d : EntradaDirectorio) (i : ℕ) (u : Ubicacion) :
    (directorio d).en (i :: u) = d.entradas[i]?.bind (·.en u) := rfl

/-- Only a directory has entries below it. -/
theorem en_cons_eq_some {e x : Entrada} {i : ℕ} {u : Ubicacion} (h : e.en (i :: u) = some x) :
    ∃ d hijo, e = directorio d ∧ d.entradas[i]? = some hijo ∧ hijo.en u = some x := by
  cases e with
  | directorio d =>
    rw [en_directorio_cons, Option.bind_eq_some_iff] at h
    obtain ⟨hijo, hhijo, hx⟩ := h
    exact ⟨d, hijo, rfl, hhijo, hx⟩
  | _ => cases h

@[simp] theorem poner_nil (nueva e : Entrada) : nueva.poner e [] = nueva := by
  cases e <;> rfl

theorem poner_cons {d : EntradaDirectorio} {i : ℕ} {hijo : Entrada}
    (h : d.entradas[i]? = some hijo) (nueva : Entrada) (u : Ubicacion) :
    nueva.poner (directorio d) (i :: u) =
      directorio { d with entradas := d.entradas.set i (nueva.poner hijo u) } := by
  have hmod : d.entradas.modify i (nueva.poner · u) = d.entradas.set i (nueva.poner hijo u) := by
    rw [List.modify_eq_set_getElem?, h]
    rfl
  rw [poner, hmod]

theorem en_poner_self {e x y : Entrada} {u : Ubicacion} (h : e.en u = some x) :
    (y.poner e u).en u = some y := by
  induction u generalizing e with
  | nil => simp
  | cons i u ih =>
    obtain ⟨d, hijo, rfl, hhijo, hx⟩ := en_cons_eq_some h
    have hi : i < d.entradas.length := (List.getElem?_eq_some_iff.mp hhijo).1
    rw [poner_cons hhijo, en_directorio_cons, List.getElem?_set_self hi, Option.bind_some]
    exact ih hx

/-- Putting back what is at a location changes nothing. -/
theorem poner_self {e x : Entrada} {u : Ubicacion} (h : e.en u = some x) : x.poner e u = e := by
  induction u generalizing e with
  | nil =>
    have hx : e = x := by simpa using h
    rw [poner_nil, hx]
  | cons i u ih =>
    obtain ⟨d, hijo, rfl, hhijo, hx⟩ := en_cons_eq_some h
    obtain ⟨hi, hget⟩ := List.getElem?_eq_some_iff.mp hhijo
    rw [poner_cons hhijo, ih hx, ← hget, List.set_getElem_self]

/-- Two entries that a search for names and types cannot tell apart. -/
def Semejante (x y : Entrada) : Prop := x.tipo = y.tipo ∧ x.nombre = y.nombre

@[simp] theorem semejante_archivo (a b : EntradaArchivo) :
    (archivo a).Semejante (archivo b) ↔ a.nombre.cadena = b.nombre.cadena := by
  simp [Semejante, tipo, nombre]

@[simp] theorem semejante_directorio (c d : EntradaDirectorio) :
    (directorio c).Semejante (directorio d) ↔ c.nombre.cadena = d.nombre.cadena := by
  simp [Semejante, tipo, nombre]

theorem Semejante.refl (x : Entrada) : x.Semejante x := ⟨rfl, rfl⟩

theorem poner_semejante {e x nueva : Entrada} {u : Ubicacion} (h : e.en u = some x)
    (hs : x.Semejante nueva) : e.Semejante (nueva.poner e u) := by
  cases u with
  | nil =>
    have hx : e = x := by simpa using h
    rw [poner_nil, hx]
    exact hs
  | cons i u =>
    obtain ⟨d, hijo, rfl, hhijo, -⟩ := en_cons_eq_some h
    rw [poner_cons hhijo]
    simp

/-! ## Properties of every entry -/

/-- Every entry of the tree has the property. -/
def Cada (P : Entrada → Prop) (e : Entrada) : Prop := ∀ u x, e.en u = some x → P x

variable {P : Entrada → Prop}

theorem Cada.self {e : Entrada} (h : e.Cada P) : P e := h [] e (en_nil e)

theorem Cada.en {e x : Entrada} (h : e.Cada P) {u : Ubicacion} (hx : e.en u = some x) :
    x.Cada P := by
  induction u generalizing e with
  | nil =>
    have he : e = x := by simpa using hx
    exact he ▸ h
  | cons i u ih =>
    obtain ⟨d, hijo, rfl, hhijo, hx⟩ := en_cons_eq_some hx
    refine ih (fun v y hy ↦ h (i :: v) y ?_) hx
    rw [en_directorio_cons, hhijo]
    exact hy

theorem cada_directorio {d : EntradaDirectorio} :
    (directorio d).Cada P ↔ P (directorio d) ∧ ∀ e ∈ d.entradas, e.Cada P := by
  constructor
  · intro h
    refine ⟨h.self, fun e he ↦ ?_⟩
    obtain ⟨i, hi⟩ := List.mem_iff_getElem?.mp he
    exact h.en (u := [i]) (by simp [en_directorio_cons, hi])
  · rintro ⟨hd, hhijos⟩ u x hx
    cases u with
    | nil =>
      have hx : directorio d = x := by simpa using hx
      exact hx ▸ hd
    | cons i u =>
      rw [en_directorio_cons, Option.bind_eq_some_iff] at hx
      obtain ⟨hijo, hhijo, hx⟩ := hx
      exact hhijos hijo (List.mem_of_getElem? hhijo) u x hx

/-- An entry that is not a directory has nothing below it. -/
theorem cada_hoja {e : Entrada} (he : e.esDirectorio = false) : e.Cada P ↔ P e := by
  refine ⟨Cada.self, fun h u x hx ↦ ?_⟩
  cases u with
  | nil =>
    have hx : e = x := by simpa using hx
    exact hx ▸ h
  | cons i u =>
    obtain ⟨d, -, rfl, -⟩ := en_cons_eq_some hx
    cases he

/-- The property of a directory looks at its slots only through their types and names. -/
def Superficial (P : Entrada → Prop) : Prop :=
  ∀ (d : EntradaDirectorio) (i : ℕ) (x y : Entrada), P (directorio d) → d.entradas[i]? = some x →
    x.Semejante y → P (directorio { d with entradas := d.entradas.set i y })

theorem Cada.set {d : EntradaDirectorio} (hP : Superficial P) (h : (directorio d).Cada P) {i : ℕ}
    {x y : Entrada} (hx : d.entradas[i]? = some x) (hxy : x.Semejante y) (hy : y.Cada P) :
    (directorio { d with entradas := d.entradas.set i y }).Cada P := by
  rw [cada_directorio] at h ⊢
  refine ⟨hP d i x y h.1 hx hxy, fun e he ↦ ?_⟩
  obtain he | rfl := List.mem_or_eq_of_mem_set he
  · exact h.2 e he
  · exact hy

theorem Cada.poner {e x nueva : Entrada} {u : Ubicacion} (hP : Superficial P) (h : e.Cada P)
    (hx : e.en u = some x) (hs : x.Semejante nueva) (hn : nueva.Cada P) :
    (nueva.poner e u).Cada P := by
  induction u generalizing e with
  | nil => simpa using hn
  | cons i u ih =>
    obtain ⟨d, hijo, rfl, hhijo, hx⟩ := en_cons_eq_some hx
    rw [poner_cons hhijo]
    have hhijoCada : hijo.Cada P := (cada_directorio.mp h).2 hijo (List.mem_of_getElem? hhijo)
    exact h.set hP hhijo (poner_semejante hx hs) (ih hhijoCada hx)

end Entrada

/-! ## Bytes in the image -/

mutual

/-- The bytes that an entry and everything below it take in the persistent image. -/
def Entrada.bytes : Entrada → ℕ
  | .archivo a => sizeofEntradaArchivo.toNat + a.st.stSize.toNat
  | .directorio d => bytesDirectorio d
  | .vacio => 0
  | .nula => 0
  | .indefinida => 0

def bytesDirectorio : EntradaDirectorio → ℕ
  | ⟨_, _, _, _, entradas⟩ => sizeofEntradaDirectorio.toNat + bytesEntradas entradas

def bytesEntradas : List Entrada → ℕ
  | [] => 0
  | e :: es => e.bytes + bytesEntradas es

end

/-- The bytes that the image of the file system takes: its structure, one structure for each
directory, and for each file its structure and its content. -/
def Fs.bytes (fs : Fs) : ℕ := sizeofFisopfsFs.toNat + bytesDirectorio fs.raiz

theorem bytesDirectorio_eq (d : EntradaDirectorio) :
    bytesDirectorio d = sizeofEntradaDirectorio.toNat + bytesEntradas d.entradas := by
  cases d
  rw [bytesDirectorio]

@[simp] theorem bytesEntradas_nil : bytesEntradas [] = 0 := by rw [bytesEntradas]

@[simp] theorem bytesEntradas_cons (e : Entrada) (es : List Entrada) :
    bytesEntradas (e :: es) = e.bytes + bytesEntradas es := by rw [bytesEntradas]

@[simp] theorem bytesEntradas_append (es fs : List Entrada) :
    bytesEntradas (es ++ fs) = bytesEntradas es + bytesEntradas fs := by
  induction es with
  | nil => simp
  | cons e es ih =>
    rw [List.cons_append, bytesEntradas_cons, bytesEntradas_cons, ih]
    omega

theorem bytesEntradas_eq_zero {es : List Entrada} (h : ∀ e ∈ es, e.bytes = 0) :
    bytesEntradas es = 0 := by
  induction es with
  | nil => simp
  | cons e es ih =>
    have he : e.bytes = 0 := h e (by simp)
    have hes : bytesEntradas es = 0 := ih fun x hx ↦ h x (by simp [hx])
    rw [bytesEntradas_cons, he, hes]

@[simp] theorem bytesEntradas_replicate {e : Entrada} (he : e.bytes = 0) (n : ℕ) :
    bytesEntradas (List.replicate n e) = 0 :=
  bytesEntradas_eq_zero fun _ hx ↦ (List.eq_of_mem_replicate hx) ▸ he

theorem bytesEntradas_set {es : List Entrada} {i : ℕ} {x : Entrada} (h : es[i]? = some x)
    (y : Entrada) : bytesEntradas (es.set i y) + x.bytes = bytesEntradas es + y.bytes := by
  induction es generalizing i with
  | nil => simp at h
  | cons e es ih =>
    cases i with
    | zero =>
      have hx : e = x := by simpa using h
      simp only [List.set_cons_zero, bytesEntradas_cons, hx]
      omega
    | succ i =>
      have hes := ih (by simpa using h)
      simp only [List.set_cons_succ, bytesEntradas_cons]
      omega

theorem bytesEntradas_take_le (es : List Entrada) (n : ℕ) :
    bytesEntradas (es.take n) ≤ bytesEntradas es := by
  have hsplit := bytesEntradas_append (es.take n) (es.drop n)
  rw [List.take_append_drop] at hsplit
  omega

theorem bytes_le_of_mem {es : List Entrada} {e : Entrada} (h : e ∈ es) :
    e.bytes ≤ bytesEntradas es := by
  obtain ⟨i, hi⟩ := List.mem_iff_getElem?.mp h
  have hset := bytesEntradas_set hi .vacio
  rw [Entrada.bytes] at hset
  omega

namespace Entrada

@[simp] theorem bytes_vacio : vacio.bytes = 0 := by rw [bytes]

@[simp] theorem bytes_nula : nula.bytes = 0 := by rw [bytes]

@[simp] theorem bytes_indefinida : indefinida.bytes = 0 := by rw [bytes]

@[simp] theorem bytes_archivo (a : EntradaArchivo) :
    (archivo a).bytes = sizeofEntradaArchivo.toNat + a.st.stSize.toNat := by rw [bytes]

@[simp] theorem bytes_directorio (d : EntradaDirectorio) :
    (directorio d).bytes = sizeofEntradaDirectorio.toNat + bytesEntradas d.entradas := by
  rw [bytes, bytesDirectorio_eq]

/-- Replacing an entry changes the size of the tree by the difference of the two sizes. -/
theorem bytes_poner {e x : Entrada} {u : Ubicacion} (h : e.en u = some x) (nueva : Entrada) :
    (nueva.poner e u).bytes + x.bytes = e.bytes + nueva.bytes := by
  induction u generalizing e with
  | nil =>
    have hx : e = x := by simpa using h
    rw [poner_nil, hx]
    exact Nat.add_comm _ _
  | cons i u ih =>
    obtain ⟨d, hijo, rfl, hhijo, hx⟩ := en_cons_eq_some h
    have hset := bytesEntradas_set hhijo (nueva.poner hijo u)
    have hhijoBytes := ih hx
    rw [poner_cons hhijo, bytes_directorio, bytes_directorio]
    dsimp only
    omega

theorem bytes_le_of_en {e x : Entrada} {u : Ubicacion} (h : e.en u = some x) :
    x.bytes ≤ e.bytes := by
  have hvacio := bytes_poner h vacio
  rw [bytes_vacio] at hvacio
  omega

end Entrada

/-! ## The tree of the file system -/

namespace Fs

@[simp] theorem espacio_poner (fs : Fs) (u : Ubicacion) (nueva : Entrada) :
    (fs.poner u nueva).espacioTotalOcupadoFs = fs.espacioTotalOcupadoFs := by
  unfold poner
  split <;> rfl

@[simp] theorem desbordado_poner (fs : Fs) (u : Ubicacion) (nueva : Entrada) :
    (fs.poner u nueva).desbordado = fs.desbordado := by
  unfold poner
  split <;> rfl

/-- A write that keeps the type of the entry it replaces reaches the tree, also at the root. -/
theorem raiz_poner {fs : Fs} {u : Ubicacion} {x nueva : Entrada} (h : fs.en u = some x)
    (hs : x.Semejante nueva) :
    Entrada.directorio (fs.poner u nueva).raiz = nueva.poner (.directorio fs.raiz) u := by
  have hraiz := Entrada.poner_semejante h hs
  unfold poner
  cases hnueva : nueva.poner (.directorio fs.raiz) u with
  | directorio raiz => rfl
  | _ =>
    rw [hnueva] at hraiz
    cases hraiz.1

theorem bytes_poner {fs : Fs} {u : Ubicacion} {x nueva : Entrada} (h : fs.en u = some x)
    (hs : x.Semejante nueva) : (fs.poner u nueva).bytes + x.bytes = fs.bytes + nueva.bytes := by
  have hbytes := Entrada.bytes_poner h nueva
  rw [← raiz_poner h hs] at hbytes
  simp only [bytes, bytesDirectorio_eq, Entrada.bytes_directorio] at hbytes ⊢
  omega

theorem en_poner_self {fs : Fs} {u : Ubicacion} {x nueva : Entrada} (h : fs.en u = some x)
    (hs : x.Semejante nueva) : (fs.poner u nueva).en u = some nueva := by
  unfold en
  rw [raiz_poner h hs]
  exact Entrada.en_poner_self h

theorem poner_self {fs : Fs} {u : Ubicacion} {x : Entrada} (h : fs.en u = some x) :
    fs.poner u x = fs := by
  unfold poner
  rw [Entrada.poner_self h]

/-- Every entry of the file system has the property. -/
def Cada (P : Entrada → Prop) (fs : Fs) : Prop := (Entrada.directorio fs.raiz).Cada P

theorem Cada.poner {P : Entrada → Prop} {fs : Fs} {u : Ubicacion} {x nueva : Entrada}
    (hP : Entrada.Superficial P) (h : fs.Cada P) (hx : fs.en u = some x) (hs : x.Semejante nueva)
    (hn : nueva.Cada P) : (fs.poner u nueva).Cada P := by
  unfold Cada
  rw [raiz_poner hx hs]
  exact Entrada.Cada.poner hP h hx hs hn

theorem apuntada_ok {fs : Fs} {p : Option Ubicacion} {x : Entrada} :
    fs.apuntada p = .ok x ↔ ∃ u, p = some u ∧ fs.en u = some x := by
  cases p with
  | none => simp [apuntada]
  | some u => cases h : fs.en u <;> simp [apuntada, h]

end Fs

end SistemasOperativos.FisopFs
