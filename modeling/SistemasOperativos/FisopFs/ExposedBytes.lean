import SistemasOperativos.FisopFs.Contents

/-!
# The bytes that growth exposes

A file that grows gets bytes that nobody has written. They are what the old buffer held past the end
of the file, or what the heap left in fresh memory. The theorem follows one file through any history
of calls and says exactly when these bytes read as zero.
-/

namespace SistemasOperativos.FisopFs

open Library

/-! ## Slots that keep their entries -/

/-- Where a slot holds an entry in both vectors, it is the same one. -/
def MismasRanuras (es es' : List Entrada) : Prop :=
  ∀ (j : ℕ) (x x' : Entrada), es[j]? = some x → es'[j]? = some x' →
    x.ocupada = true → x'.ocupada = true → x' = x

/-- Every entry comes from the same slot, up to a new one in a slot that was free. -/
def ProcedeDe (nueva : Entrada) (es es' : List Entrada) : Prop :=
  ∀ (j : ℕ) (x' : Entrada), es'[j]? = some x' → x'.ocupada = true →
    es[j]? = some x' ∨ x' = nueva ∧ ∃ x, es[j]? = some x ∧ x.ocupada = false

theorem ProcedeDe.mismas {nueva : Entrada} {es es' : List Entrada} (h : ProcedeDe nueva es es') :
    MismasRanuras es es' := by
  intro j x x' hx hx' hocupada hocupada'
  obtain hj | ⟨-, y, hy, hlibre⟩ := h j x' hx' hocupada'
  · rw [hx] at hj
    exact (Option.some.inj hj).symm
  · rw [hx] at hy
    rw [Option.some.inj hy, hlibre] at hocupada
    cases hocupada

theorem MismasRanuras.set {es : List Entrada} {i : ℕ} {y : Entrada} (hy : y.ocupada = false) :
    MismasRanuras es (es.set i y) := by
  intro j x x' hx hx' _ hocupada'
  by_cases hij : i = j
  · subst hij
    rw [List.getElem?_set_self (List.getElem?_eq_some_iff.mp hx).1] at hx'
    rw [← Option.some.inj hx', hy] at hocupada'
    cases hocupada'
  · rw [List.getElem?_set_ne hij, hx] at hx'
    exact (Option.some.inj hx').symm

/-- The loop that fills a vector leaves entries only where they were. -/
theorem ocupada_llenarDesde {n j : ℕ} {es es' : List Entrada} {r : ℤ} {m m' : Memoria}
    (h : llenarDesde es j n m = .ok ((r, es'), m')) {k : ℕ} {x : Entrada} (hk : es'[k]? = some x)
    (hx : x.ocupada = true) : es[k]? = some x := by
  induction n generalizing j es m with
  | zero =>
    cases h
    exact hk
  | succ n ih =>
    simp only [llenarDesde, StateT.bind_ok] at h
    obtain ⟨nueva, m₁, hnueva, h⟩ := h
    have hset {y : Entrada} (hy : y.ocupada = false) (hk : (es.set j y)[k]? = some x) :
        es[k]? = some x := by
      by_cases hjk : j = k
      · subst hjk
        have hlt : j < es.length := by simpa using (List.getElem?_eq_some_iff.mp hk).1
        rw [List.getElem?_set_self hlt] at hk
        rw [← Option.some.inj hk, hy] at hx
        cases hx
      · rwa [List.getElem?_set_ne hjk] at hk
    split at h
    · simp only [StateT.bind_ok, StateT.throw_ok, false_and, exists_false] at h
    · obtain rfl | ⟨rfl, -⟩ := crearEntradaVacia_ok hnueva
      · exact hset rfl (ih h)
      · cases h
        exact hset rfl hk

theorem ocupada_expandir {d d' : EntradaDirectorio} {r : ℤ} {m m' : Memoria}
    (h : expandirEntrdasDir d m = .ok ((r, d'), m')) {k : ℕ} {x : Entrada}
    (hk : d'.entradas[k]? = some x) (hx : x.ocupada = true) : d.entradas[k]? = some x := by
  obtain ⟨-, -, rfl⟩ | ⟨-, base, entradas, reservado, m₁, hreservar, rfl, h'⟩ :=
    expandirEntrdasDir_ok h
  · exact hk
  have hbase (hk : base[k]? = some x) : d.entradas[k]? = some x := by
    obtain ⟨-, -, rfl⟩ | ⟨-, -, rfl⟩ := reservarEntradas_ok hreservar
    · obtain ⟨hlt, -⟩ := List.getElem?_eq_some_iff.mp hk
      rw [getElem?_take_of_lt (Nat.lt_of_lt_of_le hlt (List.length_take_le _ _))] at hk
      by_cases hlt : k < d.previas.length
      · rw [List.getElem?_append_left hlt, EntradaDirectorioDe.previas] at hk
        split at hk
        · cases hk
        · exact hk
      · rw [List.getElem?_append_right (by omega)] at hk
        rw [List.eq_of_mem_replicate (List.mem_of_getElem? hk)] at hx
        cases hx
    · cases hk
  obtain ⟨-, -, rfl, -⟩ | ⟨-, hllenar⟩ := h'
  · exact hbase hk
  · exact hbase (ocupada_llenarDesde hllenar hk hx)

theorem colocar_procede {ahora : UInt64} {d d' : EntradaDirectorio} {nueva : Entrada} {r : ℤ}
    {o : Option ℕ} {m m' : Memoria}
    (h : colocarEntradaDentroDeDirectorio ahora d nueva m = .ok ((r, d', o), m')) :
    ProcedeDe nueva d.entradas d'.entradas := by
  intro j x' hx' hocupada
  obtain ⟨-, -, rfl, -⟩ | ⟨i, hprimera, -, hexpandir⟩ := colocarEntradaDentroDeDirectorio_ok h
  · exact .inl hx'
  have hcon : (d.entradas.set i nueva)[j]? = some x' := ocupada_expandir hexpandir hx' hocupada
  obtain ⟨-, ⟨y, hy, -, hvacio⟩, -⟩ := primera_some hprimera
  by_cases hij : i = j
  · subst hij
    rw [List.getElem?_set_self (List.getElem?_eq_some_iff.mp hy).1] at hcon
    refine .inr ⟨(Option.some.inj hcon).symm, y, hy, ?_⟩
    cases y with
    | vacio => rfl
    | _ => cases hvacio
  · rw [List.getElem?_set_ne hij] at hcon
    exact .inl hcon

theorem colgado_mismas {es : List Entrada} {d : EntradaDirectorio} {nueva : Entrada} {o : Option ℕ}
    (h : ProcedeDe nueva es d.entradas) : MismasRanuras es (d.colgado o).entradas := by
  cases o with
  | none => exact h.mismas
  | some i =>
    intro j x x' hx hx' hocupada hocupada'
    by_cases hij : i = j
    · subst hij
      have hset : (d.entradas.set i .indefinida)[i]? = some x' := hx'
      have hlt : i < d.entradas.length := by simpa using (List.getElem?_eq_some_iff.mp hset).1
      rw [List.getElem?_set_self hlt] at hset
      rw [← Option.some.inj hset] at hocupada'
      cases hocupada'
    · have hset : (d.entradas.set i .indefinida)[j]? = some x' := hx'
      rw [List.getElem?_set_ne hij] at hset
      exact h.mismas j x x' hx hset hocupada hocupada'

/-! ## Files that a call leaves alone -/

theorem Entrada.ocupada_of_en {e : Entrada} {u : Ubicacion} {a : EntradaArchivo}
    (h : e.en u = some (.archivo a)) : e.ocupada = true := by
  cases u with
  | nil =>
    rw [Entrada.en_nil] at h
    rw [Option.some.inj h]
    rfl
  | cons i u =>
    obtain ⟨d, -, rfl, -⟩ := Entrada.en_cons_eq_some h
    rfl

/-- A file that is there before and after a directory is replaced is the same one, where the slots of
the directory are. -/
theorem Entrada.en_poner_mismas {e : Entrada} {d d' : EntradaDirectorio} {u v : Ubicacion}
    {a a' : EntradaArchivo} (hmismas : MismasRanuras d.entradas d'.entradas)
    (hv : e.en v = some (directorio d)) (hu : e.en u = some (archivo a))
    (hu' : ((directorio d').poner e v).en u = some (archivo a')) : a' = a := by
  induction v generalizing e u with
  | nil =>
    rw [Entrada.en_nil] at hv
    obtain rfl := Option.some.inj hv
    rw [Entrada.poner_nil] at hu'
    cases u with
    | nil => simp at hu
    | cons j u =>
      rw [Entrada.en_directorio_cons] at hu hu'
      obtain ⟨x, hx, hu⟩ := Option.bind_eq_some_iff.mp hu
      obtain ⟨x', hx', hu'⟩ := Option.bind_eq_some_iff.mp hu'
      obtain rfl := hmismas j x x' hx hx' (Entrada.ocupada_of_en hu) (Entrada.ocupada_of_en hu')
      rw [hu] at hu'
      cases hu'
      rfl
  | cons i v ih =>
    obtain ⟨d₀, hijo, rfl, hhijo, hv⟩ := Entrada.en_cons_eq_some hv
    rw [Entrada.poner_cons hhijo] at hu'
    cases u with
    | nil => simp at hu
    | cons j u =>
      rw [Entrada.en_directorio_cons] at hu hu'
      by_cases hij : i = j
      · subst hij
        have hlt : i < d₀.entradas.length := (List.getElem?_eq_some_iff.mp hhijo).1
        rw [List.getElem?_set_self hlt, Option.bind_some] at hu'
        rw [hhijo, Option.bind_some] at hu
        exact ih hv hu hu'
      · rw [List.getElem?_set_ne hij, hu] at hu'
        cases hu'
        rfl

/-- The files that are there before and after have the same size and the same buffer. -/
def Fs.MismosArchivos (fs fs' : Fs) : Prop :=
  ∀ u a a', fs.en u = some (.archivo a) → fs'.en u = some (.archivo a') →
    a'.st.stSize = a.st.stSize ∧ a'.contenido = a.contenido

section Conserva

variable {max : UInt64} {ent : Entorno} {path : Cadena} {fs fs₁ fs' : Fs} {m m' : Memoria}
  {ahora : UInt64} {u v : Ubicacion} {d d' : EntradaDirectorio} {r : ℤ}

theorem Fs.Recorrido.antes (h : fs.Recorrido ahora fs₁) (hfs : fs₁.MismosArchivos fs') :
    fs.MismosArchivos fs' := fun u a a' ha ha' ↦ hfs u a a' (h.en_archivo.mpr ha) ha'

theorem Fs.MismosArchivos.refl (fs : Fs) : fs.MismosArchivos fs := by
  intro u a a' ha ha'
  rw [ha] at ha'
  cases ha'
  exact ⟨rfl, rfl⟩

theorem Fs.Recorrido.mismos (h : fs.Recorrido ahora fs₁) : fs.MismosArchivos fs₁ :=
  h.antes (.refl fs₁)

theorem Fs.MismosArchivos.of_raiz {fs₂ : Fs} (h : fs.MismosArchivos fs')
    (hraiz : fs₂.raiz = fs'.raiz) : fs.MismosArchivos fs₂ := by
  intro u a a' ha ha'
  rw [Fs.en, hraiz] at ha'
  exact h u a a' ha ha'

theorem Fs.MismosArchivos.poner_directorio (hv : fs.en v = some (.directorio d))
    (hnombre : d'.nombre = d.nombre) (hmismas : MismasRanuras d.entradas d'.entradas) :
    fs.MismosArchivos (fs.poner v (.directorio d')) := by
  intro u a a' ha ha'
  have hs : (Entrada.directorio d).Semejante (.directorio d') := by simp [hnombre]
  rw [Fs.en, Fs.raiz_poner hv hs] at ha'
  obtain rfl := Entrada.en_poner_mismas hmismas hv ha ha'
  exact ⟨rfl, rfl⟩

theorem Fs.MismosArchivos.poner_archivo {b b' : EntradaArchivo} (hv : fs.en v = some (.archivo b))
    (hnombre : b'.nombre = b.nombre) (hsize : b'.st.stSize = b.st.stSize)
    (hcontenido : b'.contenido = b.contenido) : fs.MismosArchivos (fs.poner v (.archivo b')) := by
  intro u a a' ha ha'
  obtain ⟨hself, hdemas⟩ := Fs.en_poner_archivo hv hnombre
  by_cases huv : u = v
  · subst huv
    rw [hself] at ha'
    rw [hv] at ha
    cases ha
    cases ha'
    exact ⟨hsize, hcontenido⟩
  · rw [hdemas u a' huv, ha] at ha'
    cases ha'
    exact ⟨rfl, rfl⟩

theorem MismasRanuras.refl (es : List Entrada) : MismasRanuras es es := by
  intro j x x' hx hx' _ _
  rw [hx] at hx'
  exact (Option.some.inj hx').symm

theorem Fs.Consulta.mismos (h : fs.Consulta ahora fs') : fs.MismosArchivos fs' := by
  obtain ⟨fs₁, hrec, rfl | ⟨u, x, y, hx, hxy, rfl⟩⟩ := h
  · exact hrec.mismos
  · apply hrec.antes
    cases hxy with
    | archivo b hsize => exact .poner_archivo hx rfl hsize rfl
    | directorio d st => exact .poner_directorio hx rfl (.refl _)

theorem colocarNueva_mismos {nueva : Entrada} {tam : UInt64} (hu : fs.en u = some (.directorio d))
    (h : colocarNueva ent fs u d nueva tam m = .ok ((r, fs'), m')) : fs.MismosArchivos fs' := by
  obtain ⟨d', o, hcolocar, ⟨-, rfl⟩ | ⟨-, rfl⟩⟩ := colocarNueva_ok h
  · have hponer : fs.MismosArchivos (fs.poner u (.directorio d')) :=
      .poner_directorio hu (mem_colocar hcolocar).1 (colocar_procede hcolocar).mismas
    exact hponer.of_raiz rfl
  · exact .poner_directorio hu (mem_colocar hcolocar).1 (colgado_mismas (colocar_procede hcolocar))

theorem fisopfsMkdir_mismos {mode : UInt32}
    (h : fisopfsMkdir max ent path mode fs m = .ok ((r, fs'), m')) : fs.MismosArchivos fs' := by
  obtain ⟨-, hrec⟩ | ⟨fs₁, nombre, u, d, nuevo, m₁, m₂, m₃, hbusca, -, -, hcolocar⟩ :=
    fisopfsMkdir_ok h
  · exact hrec.mismos
  · obtain ⟨pd, v, x, -, -, hencuentra, hv, ⟨hnone, -⟩ | ⟨d', rfl, heq⟩⟩ := buscarDirectorio_ok hbusca
    · cases hnone
    · cases heq
      exact (encontrarEntrada_recorrido hencuentra).antes (colocarNueva_mismos hv hcolocar)

theorem fisopfsCreate_mismos {mode : UInt32}
    (h : fisopfsCreate max ent path mode fs m = .ok ((r, fs'), m')) : fs.MismosArchivos fs' := by
  obtain ⟨-, hrec⟩ | ⟨fs₁, nombre, u, d, nuevo, m₁, hbusca, -, -, hcolocar⟩ := fisopfsCreate_ok h
  · exact hrec.mismos
  · obtain ⟨pd, v, x, -, -, hencuentra, hv, ⟨hnone, -⟩ | ⟨d', rfl, heq⟩⟩ := buscarDirectorio_ok hbusca
    · cases hnone
    · cases heq
      exact (encontrarEntrada_recorrido hencuentra).antes (colocarNueva_mismos hv hcolocar)

theorem Halla.mismos {esDelTipo : Entrada → Bool} {i : ℕ} {x : Entrada} {tam : UInt64}
    (h : Halla esDelTipo ahora path fs fs₁ u d i x) :
    fs.MismosArchivos ((fs₁.poner u (.directorio (d.sin ahora i))).restar tam) := by
  obtain ⟨hrec, hu⟩ := h.en
  have hponer : fs₁.MismosArchivos (fs₁.poner u (.directorio (d.sin ahora i))) :=
    .poner_directorio hu rfl (.set rfl)
  exact hrec.antes (hponer.of_raiz rfl)

/-- A truncation that fails changes no file, and one that succeeds replaces the file at the path and
no other. -/
theorem fisopfsTruncate_archivo {size : UInt64}
    (h : fisopfsTruncate max ent path size fs m = .ok ((r, fs'), m')) :
    (r ≠ 0 ∧ fs.Recorrido ent.ahora fs') ∨
    r = 0 ∧ ∃ fs₁ u a a', encontrarEntrada ent.ahora path fs = .ok (fs₁, some u) ∧
      fs.en u = some (.archivo a) ∧ fs'.en u = some (.archivo a') ∧ a'.st.stSize = size ∧
      (size = 0 ∨ a'.contenido =
        (List.range size.toNat).map fun i ↦ a.contenido[i]?.getD (ent.basura i)) ∧
      ∀ v b, v ≠ u → (fs'.en v = some (.archivo b) ↔ fs.en v = some (.archivo b)) := by
  obtain hfalla | ⟨fs₁, u, a, contenido, hr, hencuentra, hu, rfl, hcontenido⟩ :=
    fisopfsTruncate_ok h
  · exact .inl hfalla
  have hrec := encontrarEntrada_recorrido hencuentra
  have hu₂ : (fs₁.recontar a.st.stSize size).en u = some (.archivo a) := hu
  obtain ⟨hu', hdemas⟩ := @Fs.en_poner_archivo _ u a
    { a with contenido, st := { a.st.tocar ent.ahora with stSize := size } } hu₂ rfl
  refine .inr ⟨hr, fs₁, u, a, _, hencuentra, hrec.en_archivo.mp hu, hu', rfl,
    hcontenido.imp And.left fun h ↦ h.2.2, fun v b hne ↦ (hdemas v b hne).trans ?_⟩
  rw [← hrec.en_archivo]
  rfl

end Conserva

/-! ## Histories of a file -/

/-- The path of the call leads to this location. -/
def Evento.Alcanza (e : Evento) (s : Sistema) (path : Cadena) (u : Ubicacion) : Prop :=
  ∃ fs₁, encontrarEntrada e.ent.ahora path s.fs = .ok (fs₁, some u)

/-- The call is a truncation of the file at this location, or a write to it, and it succeeds: it
returns zero, or the size of the write. -/
def Evento.Actua (e : Evento) (s : Sistema) (u : Ubicacion) (ret : ℤ) : Prop :=
  match e.llamada with
  | .truncate path _ => ret = 0 ∧ e.Alcanza s path u
  | .write path _ size _ => ret = intDe size ∧ e.Alcanza s path u
  | _ => False

/-- Up to where a call that makes a file longer exposes bytes: the start of the bytes that it writes, or
the new end. -/
def Llamada.hasta (l : Llamada) (nuevo : ℕ) : ℕ :=
  match l with
  | .write _ _ _ offset => offset.toNat
  | _ => nuevo

/-- The positions that have been exposed and not written since, after a truncation or a write that
takes a file from the size `viejo` to the size `nuevo`. -/
def Llamada.expuestos (l : Llamada) (viejo nuevo : ℕ) (z : Set ℕ) : Set ℕ :=
  match l with
  | .truncate _ _ => {i | i < nuevo ∧ (i ∈ z ∨ viejo ≤ i)}
  | .write _ _ size offset =>
    {i | (i ∈ z ∨ viejo < nuevo ∧ viejo ≤ i ∧ i < offset.toNat) ∧
      ¬ (offset.toNat ≤ i ∧ i < offset.toNat + size.toNat)}
  | _ => z

/-- One call in the history of the file at a location, of any kind and on any path, but for a restart.
The state comes with the positions of the file that have been exposed and not written since. -/
structure Historia (max : UInt64) (u : Ubicacion) (x : Sistema × Set ℕ) (e : Evento)
    (y : Sistema × Set ℕ) : Prop where
  sigue : e.llamada ≠ .init
  paso : ∃ r a a', ejecutar max e x.1 = .ok r ∧ r.sistema = y.1 ∧
    x.1.fs.en u = some (.archivo a) ∧ y.1.fs.en u = some (.archivo a') ∧
    (e.Actua x.1 u r.ret →
      y.2 = e.llamada.expuestos a.st.stSize.toNat a'.st.stSize.toNat x.2) ∧
    (¬ e.Actua x.1 u r.ret → y.2 = x.2)

/-- The file at the location reads as zero at the positions. -/
def EnCero (u : Ubicacion) (x : Sistema × Set ℕ) : Prop :=
  ∃ a, x.1.fs.en u = some (.archivo a) ∧ ∀ i ∈ x.2, a.bytes[i]? = some 0

/-- Where the call makes the file longer, what the old buffer holds at the bytes that it exposes, and
the heap past the buffer, is zero. -/
def ExponeCeros (u : Ubicacion) (x : Sistema × Set ℕ) (e : Evento) (y : Sistema × Set ℕ) : Prop :=
  ∀ a a', x.1.fs.en u = some (.archivo a) → y.1.fs.en u = some (.archivo a') →
    a.st.stSize < a'.st.stSize → ∀ i, a.st.stSize.toNat ≤ i →
      i < e.llamada.hasta a'.st.stSize.toNat → a.contenido[i]?.getD (e.ent.basura i) = 0

section Historias

variable {max : UInt64} {u : Ubicacion} {s s' : Sistema} {e : Evento} {r : Resultado}
  {a a' : EntradaArchivo} {z : Set ℕ}

theorem Historia.unica (x : Sistema × Set ℕ) (e : Evento) (y y' : Sistema × Set ℕ)
    (h : Historia max u x e y) (h' : Historia max u x e y') : y = y' := by
  obtain ⟨-, r, a, b, hr, hy, ha, hb, hactua, hno⟩ := h
  obtain ⟨-, r', a', b', hr', hy', ha', hb', hactua', hno'⟩ := h'
  rw [hr] at hr'
  cases hr'
  rw [ha] at ha'
  cases ha'
  have hs : y.1 = y'.1 := hy.symm.trans hy'
  rw [hs, hb'] at hb
  cases hb
  apply Prod.ext hs
  by_cases h : e.Actua x.1 u r.ret
  · rw [hactua h, hactua' h]
  · rw [hno h, hno' h]

/-- A call that is no successful truncation of the file, nor a write to it, leaves it as it is. -/
theorem ejecutar_ajena (hinit : e.llamada ≠ .init) (h : ejecutar max e s = .ok r)
    (hno : ¬ e.Actua s u r.ret) (ha : s.fs.en u = some (.archivo a))
    (ha' : r.sistema.fs.en u = some (.archivo a')) :
    a'.st.stSize = a.st.stSize ∧ a'.contenido = a.contenido := by
  have hmismos (hfs : s.fs.MismosArchivos r.sistema.fs) :
      a'.st.stSize = a.st.stSize ∧ a'.contenido = a.contenido := hfs u a a' ha ha'
  cases ejecutar_efecto h with
  | init hllamada => exact absurd hllamada hinit
  | flush hllamada hagotada hfs hflush =>
    rw [hfs] at hmismos
    exact hmismos (.refl s.fs)
  | consulta hno hdisco hconsulta => exact hmismos hconsulta.mismos
  | mkdir hllamada hdisco hagotada hop => exact hmismos (fisopfsMkdir_mismos hop)
  | create hllamada hdisco hagotada hop => exact hmismos (fisopfsCreate_mismos hop)
  | unlink hllamada hdisco hagotada hop =>
    obtain ⟨-, hrec, -⟩ | ⟨fs₁, v, d, i, b, -, hhalla, hfs⟩ := fisopfsUnlink_ok hop
    · exact hmismos hrec.mismos
    · exact hmismos (hfs ▸ hhalla.mismos)
  | rmdir hllamada hdisco hagotada hop =>
    obtain ⟨-, hrec, -⟩ | ⟨fs₁, v, d, i, b, -, hhalla, -, hfs⟩ := fisopfsRmdir_ok hop
    · exact hmismos hrec.mismos
    · exact hmismos (hfs ▸ hhalla.mismos)
  | truncate hllamada hdisco hagotada hop =>
    obtain ⟨-, hrec⟩ | ⟨hret, fs₁, v, b, b', hencuentra, -, -, -, -, hdemas⟩ :=
      fisopfsTruncate_archivo hop
    · exact hmismos hrec.mismos
    · rw [Evento.Actua, hllamada] at hno
      have huv : u ≠ v := fun huv ↦ hno ⟨hret, fs₁, huv ▸ hencuentra⟩
      have hb := (hdemas u a' huv).mp ha'
      rw [ha] at hb
      cases hb
      exact ⟨rfl, rfl⟩
  | write hllamada hdisco hagotada hop =>
    obtain ⟨-, hrec⟩ | ⟨hret, fs₁, v, b, b', hencuentra, -, -, -, -, hdemas⟩ :=
      fisopfsWrite_archivo hop
    · exact hmismos hrec.mismos
    · rw [Evento.Actua, hllamada] at hno
      have huv : u ≠ v := fun huv ↦ hno ⟨hret, fs₁, huv ▸ hencuentra⟩
      have hb := (hdemas u a' huv).mp ha'
      rw [ha] at hb
      cases hb
      exact ⟨rfl, rfl⟩

/-- The byte that a reallocation leaves at a position. -/
theorem realloc_eq_some {ent : Entorno} {contenido : List UInt8} {n i : ℕ} {b : UInt8} (hi : i < n) :
    ((List.range n).map fun i ↦ contenido[i]?.getD (ent.basura i))[i]? = some b ↔
      contenido[i]?.getD (ent.basura i) = b := by
  rw [List.getElem?_map, List.getElem?_range hi, Option.map_some, Option.some.injEq]

theorem EntradaArchivo.lt_of_bytes {i : ℕ} {b : UInt8} (h : a.bytes[i]? = some b) :
    i < a.st.stSize.toNat ∧ a.contenido[i]? = some b := by
  have hi : i < a.st.stSize.toNat := by
    have hlt := (List.getElem?_eq_some_iff.mp h).1
    rw [EntradaArchivo.bytes, List.length_take] at hlt
    omega
  exact ⟨hi, by rwa [EntradaArchivo.getElem?_bytes hi] at h⟩

/-- A truncation keeps the exposed bytes that are left at zero, and exposes zeros exactly where the
buffer and the heap hold them. -/
theorem truncate_enCero_iff {ent : Entorno} {path : Cadena} {size : UInt64} (ha : a.Sano)
    (hz : ∀ i ∈ z, a.bytes[i]? = some 0) (hsize : a'.st.stSize = size)
    (hcontenido : size = 0 ∨ a'.contenido =
      (List.range size.toNat).map fun i ↦ a.contenido[i]?.getD (ent.basura i)) :
    (∀ i ∈ (Llamada.truncate path size).expuestos a.st.stSize.toNat a'.st.stSize.toNat z,
        a'.bytes[i]? = some 0) ↔
      (a.st.stSize < a'.st.stSize → ∀ i, a.st.stSize.toNat ≤ i → i < a'.st.stSize.toNat →
        a.contenido[i]?.getD (ent.basura i) = 0) := by
  have hlargo := ha.contenido
  subst hsize
  obtain hcero | hcontenido := hcontenido
  · have hnada : a'.st.stSize.toNat = 0 := by
      rw [hcero]
      rfl
    refine iff_of_true (fun i hi ↦ ?_) fun _ i _ hi ↦ ?_
    · have hlt : i < a'.st.stSize.toNat := hi.1
      omega
    · omega
  · have hlee {i : ℕ} (hi : i < a'.st.stSize.toNat) : a'.bytes[i]? = some 0 ↔
        a.contenido[i]?.getD (ent.basura i) = 0 := by
      rw [EntradaArchivo.getElem?_bytes hi, hcontenido, realloc_eq_some hi]
    constructor
    · intro h _ i hviejo hi
      exact (hlee hi).mp (h i ⟨hi, .inr hviejo⟩)
    · rintro h i ⟨hi, hiz | hviejo⟩
      · rw [hlee hi, (EntradaArchivo.lt_of_bytes (hz i hiz)).2]
        rfl
      · rw [hlee hi]
        refine h ?_ i hviejo hi
        rw [UInt64.lt_iff_toNat_lt]
        omega

/-- And so does a write, with the bytes before the ones that it writes. -/
theorem write_enCero_iff {ent : Entorno} {path : Cadena} {buf : List UInt8} {size offset : UInt64}
    (ha : a.Sano) (hz : ∀ i ∈ z, a.bytes[i]? = some 0)
    (hsize : a'.st.stSize = if a.st.stSize < offset + size then offset + size else a.st.stSize)
    (hcopia : memcpy (ampliado ent a size offset) buf offset.toNat size.toNat = .ok a'.contenido) :
    (∀ i ∈ (Llamada.write path buf size offset).expuestos a.st.stSize.toNat a'.st.stSize.toNat z,
        a'.bytes[i]? = some 0) ↔
      (a.st.stSize < a'.st.stSize → ∀ i, a.st.stSize.toNat ≤ i → i < offset.toNat →
        a.contenido[i]?.getD (ent.basura i) = 0) := by
  have hlargo := ha.contenido
  by_cases hcrece : a.st.stSize < offset + size
  · rw [if_pos hcrece] at hsize
    have hbuffer : ampliado ent a size offset =
        (List.range a'.st.stSize.toNat).map fun i ↦ a.contenido[i]?.getD (ent.basura i) := by
      rw [ampliado, if_pos hcrece, hsize, UInt64.add_comm]
    obtain ⟨hcabe, -, -⟩ := memcpy_ok hcopia
    rw [hbuffer, List.length_map, List.length_range] at hcabe
    have hlee {i : ℕ} (hi : i < a'.st.stSize.toNat)
        (hfuera : ¬ (offset.toNat ≤ i ∧ i < offset.toNat + size.toNat)) :
        a'.bytes[i]? = some 0 ↔ a.contenido[i]?.getD (ent.basura i) = 0 := by
      rw [EntradaArchivo.getElem?_bytes hi, getElem?_memcpy hcopia, if_neg hfuera, hbuffer,
        realloc_eq_some hi]
    rw [← hsize, UInt64.lt_iff_toNat_lt] at hcrece
    constructor
    · intro h _ i hviejo hi
      exact (hlee (by omega) (by omega)).mp (h i ⟨.inr ⟨hcrece, hviejo, hi⟩, by omega⟩)
    · rintro h i ⟨hiz | ⟨-, hviejo, hi⟩, hfuera⟩
      · obtain ⟨hi, hcero⟩ := EntradaArchivo.lt_of_bytes (hz i hiz)
        rw [hlee (by omega) hfuera, hcero]
        rfl
      · rw [hlee (by omega) hfuera]
        exact h (UInt64.lt_iff_toNat_lt.mpr hcrece) i hviejo hi
  · rw [if_neg hcrece] at hsize
    rw [hsize]
    refine iff_of_true ?_ fun hno ↦ absurd hno (UInt64.lt_irrefl _)
    rintro i ⟨hiz | ⟨hno, -⟩, hfuera⟩
    · obtain ⟨hi, hcero⟩ := EntradaArchivo.lt_of_bytes (hz i hiz)
      rw [EntradaArchivo.getElem?_bytes (hsize.symm ▸ hi), getElem?_memcpy hcopia, if_neg hfuera,
        ampliado, if_neg hcrece, hcero]
    · omega

/-- One call keeps the exposed bytes at zero exactly if it exposes zeros. -/
theorem Historia.enCero_iff {x y : Sistema × Set ℕ} (hx : x.1.fs.Cada Entrada.Respaldada)
    (hcero : EnCero u x) (h : Historia max u x e y) : EnCero u y ↔ ExponeCeros u x e y := by
  obtain ⟨s, z⟩ := x
  obtain ⟨s', z'⟩ := y
  obtain ⟨hinit, r, a, a', hr, hs', ha, ha', hactua, hno⟩ := h
  dsimp only at hx ha ha' hactua hno hs' hr
  subst hs'
  obtain ⟨b, hb, hz⟩ := hcero
  rw [ha] at hb
  cases hb
  have hsano : a.Sano := hx u _ ha
  have hen : EnCero u (r.sistema, z') ↔ ∀ i ∈ z', a'.bytes[i]? = some 0 := by
    constructor
    · rintro ⟨b, hb, hz'⟩
      rw [ha'] at hb
      cases hb
      exact hz'
    · exact fun hz' ↦ ⟨a', ha', hz'⟩
  have hexpone : ExponeCeros u (s, z) e (r.sistema, z') ↔ (a.st.stSize < a'.st.stSize →
      ∀ i, a.st.stSize.toNat ≤ i → i < e.llamada.hasta a'.st.stSize.toNat →
        a.contenido[i]?.getD (e.ent.basura i) = 0) := by
    constructor
    · exact fun h ↦ h a a' ha ha'
    · intro h b b' hb hb'
      dsimp only at hb hb'
      rw [ha] at hb
      rw [ha'] at hb'
      cases hb
      cases hb'
      exact h
  rw [hen, hexpone]
  by_cases hsi : e.Actua s u r.ret
  · rw [hactua hsi]
    obtain ⟨ent, respuestas, llamada⟩ := e
    cases llamada with
    | truncate path size =>
      obtain ⟨hret, fs₁, hencuentra⟩ := hsi
      obtain ⟨m', hop, -⟩ := Sistema.con_ok hr
      obtain ⟨hfalla, -⟩ | ⟨-, fs₂, v, c, c', hencuentra', hc, hc', hsize, hcontenido, -⟩ :=
        fisopfsTruncate_archivo hop
      · exact absurd hret hfalla
      · rw [hencuentra] at hencuentra'
        cases hencuentra'
        rw [ha] at hc
        cases hc
        rw [ha'] at hc'
        cases hc'
        exact truncate_enCero_iff hsano hz hsize hcontenido
    | write path buf size offset =>
      obtain ⟨hret, fs₁, hencuentra⟩ := hsi
      obtain ⟨m', hop, -⟩ := Sistema.con_ok hr
      obtain ⟨-, hrec⟩ | ⟨-, fs₂, v, c, c', hencuentra', hc, hc', hcopia, hsize, -⟩ :=
        fisopfsWrite_archivo hop
      · -- a size whose low half is an error number, in a call that fails
        obtain ⟨hmismo, hbuffer⟩ := hrec.mismos u a a' ha ha'
        rw [hmismo]
        refine iff_of_true ?_ fun hno ↦ absurd hno (UInt64.lt_irrefl _)
        rintro i ⟨hiz | ⟨hno, -⟩, -⟩
        · rw [EntradaArchivo.bytes, hmismo, hbuffer]
          exact hz i hiz
        · omega
      · rw [hencuentra] at hencuentra'
        cases hencuentra'
        rw [ha] at hc
        cases hc
        rw [ha'] at hc'
        cases hc'
        exact write_enCero_iff hsano hz hsize hcopia
    | _ => exact hsi.elim
  · rw [hno hsi]
    obtain ⟨hmismo, hbuffer⟩ := ejecutar_ajena hinit hr hsi ha ha'
    rw [EntradaArchivo.bytes, hmismo, hbuffer]
    exact iff_of_true hz fun hno ↦ absurd hno (UInt64.lt_irrefl _)

/-- A read of one of these bytes returns zero. -/
theorem EnCero.lee {x : Sistema × Set ℕ} (hx : x.1.fs.Cada Entrada.Respaldada) (h : EnCero u x)
    {i : ℕ} (hi : i ∈ x.2) {ent : Entorno} {path : Cadena} {fs₁ : Fs}
    (hpath : path.length ≤ maximoPath)
    (hencuentra : encontrarEntrada ent.ahora path x.1.fs = .ok (fs₁, some u)) (m : Memoria) :
    ∃ fs', fisopfsRead ent path 1 (.ofNat i) x.1.fs m = .ok ((1, [0], fs'), m) := by
  obtain ⟨a, ha, hz⟩ := h
  have hrec := encontrarEntrada_recorrido hencuentra
  have hsano : a.Sano := hx u _ ha
  have hlargo := hsano.contenido
  have hsize := a.st.stSize.toNat_lt
  obtain ⟨hlt, hbyte⟩ := EntradaArchivo.lt_of_bytes (hz i hi)
  have hone : (1 : UInt64).toNat = 1 := rfl
  have hoffset : (UInt64.ofNat i).toNat = i := by
    rw [UInt64.toNat_ofNat']
    omega
  have hrecorte : a.recorte 1 (.ofNat i) = 1 := by
    have hcabe : ¬ a.st.stSize < UInt64.ofNat i + 1 := by
      rw [UInt64.lt_iff_toNat_lt, UInt64.toNat_add, hoffset, hone]
      omega
    rw [EntradaArchivo.recorte, if_neg hcabe]
  have hbytes : (a.contenido.drop i).take 1 = [0] := by
    obtain ⟨hlt, hval⟩ := List.getElem?_eq_some_iff.mp hbyte
    rw [List.drop_eq_getElem_cons hlt, hval]
    rfl
  have hcorto : ¬ a.contenido.length < i + 1 := by omega
  rw [fisopfsRead_archivo hpath hencuentra (hrec.en_archivo.mpr ha), hrecorte, hoffset, hone,
    if_neg hcorto, hbytes]
  exact ⟨_, rfl⟩

/-- Along any history of a file in a reachable state, the bytes that its growth has exposed read as zero
until they are written, exactly if each call that makes it longer finds only zeros in the old buffer
and in the heap. -/
theorem expuestos_en_cero_iff (max : UInt64) {s₀ s : Sistema} {es₀ es : List Evento}
    (hini : s₀.Inicial) (hrun : Run (Paso max) s₀ es₀ s) {y : Sistema × Set ℕ}
    (ha : s.fs.en u = some (.archivo a)) (h : Run (Historia max u) (s, ∅) es y) :
    (∀ es₁ y₁, es₁ <+: es → Run (Historia max u) (s, ∅) es₁ y₁ → EnCero u y₁) ↔
      Run (fun x e y ↦ Historia max u x e y ∧ ExponeCeros u x e y) (s, ∅) es y := by
  have hbase (x : Sistema × Set ℕ) (e : Evento) (y : Sistema × Set ℕ)
      (hx : x.1.fs.Cada Entrada.Respaldada) (hxy : Historia max u x e y) :
      y.1.fs.Cada Entrada.Respaldada := by
    obtain ⟨-, r, -, -, hr, hy, -⟩ := hxy
    exact hy ▸ ejecutar_respaldada hx hr
  exact h.holds_along_iff hbase (fun x e y hx hcero hxy ↦ hxy.enCero_iff hx hcero) Historia.unica
    (Run.respaldada hini hrun) ⟨a, ha, fun i hi ↦ hi.elim⟩

/-- One successful truncation as a history. -/
theorem historia_truncate {ent : Entorno} {respuestas : List Bool} {path : Cadena} {size : UInt64}
    (hr : ejecutar max ⟨ent, respuestas, .truncate path size⟩ s = .ok r) (hret : r.ret = 0) {fs₁ : Fs}
    (hencuentra : encontrarEntrada ent.ahora path s.fs = .ok (fs₁, some u))
    (ha : fs₁.en u = some (.archivo a)) : s.fs.en u = some (.archivo a) ∧ ∃ a',
      r.sistema.fs.en u = some (.archivo a') ∧ a'.st.stSize = size ∧
      (size = 0 ∨ a'.contenido =
        (List.range size.toNat).map fun i ↦ a.contenido[i]?.getD (ent.basura i)) ∧
      Historia max u (s, ∅) ⟨ent, respuestas, .truncate path size⟩
        (r.sistema, {i | i < size.toNat ∧ a.st.stSize.toNat ≤ i}) := by
  have ha := (encontrarEntrada_recorrido hencuentra).en_archivo.mp ha
  obtain ⟨m', hop, -⟩ := Sistema.con_ok hr
  obtain ⟨hfalla, -⟩ | ⟨-, fs₂, v, c, a', hencuentra', hc, ha', hsize, hcontenido, -⟩ :=
    fisopfsTruncate_archivo hop
  · exact absurd hret hfalla
  rw [hencuentra] at hencuentra'
  cases hencuentra'
  rw [ha] at hc
  cases hc
  refine ⟨ha, a', ha', hsize, hcontenido, (fun h ↦ by cases h), _, a, a', hr, rfl, ha, ha', fun _ ↦ ?_,
    fun hno ↦ ?_⟩
  · ext i
    rw [hsize]
    constructor
    · exact fun hi ↦ ⟨hi.1, .inr hi.2⟩
    · exact fun hi ↦ ⟨hi.1, hi.2.resolve_left id⟩
  · exact absurd ⟨hret, fs₁, hencuentra⟩ hno

/-- A new file of one byte, where the heap holds zeros. -/
theorem expuestos_en_cero_nuevo : ∃ s u y, Run (PasoServido 10000) (Sistema.nuevo ⟨0, 0, 0, fun _ ↦ 0⟩)
      [(Llamada.create [barra, punto] 0o100644).simple] s ∧
    Run (Historia 10000 u) (s, ∅) [(Llamada.truncate [barra, punto] 1).simple] y ∧
    0 ∈ y.2 ∧ EnCero u y := by
  obtain ⟨s, fs₁, u, a, hs, hencuentra, ha, hvacio⟩ :=
    @archivo_tras [barra, punto] 10000 0 [(Llamada.create [barra, punto] 0o100644).simple]
      (Sistema.nuevo ⟨0, 0, 0, fun _ ↦ 0⟩) (fun a ↦ a.st.stSize == 0 && a.contenido.isEmpty)
      (by decide +kernel)
  have hcorre : ((correr 10000 [(Llamada.create [barra, punto] 0o100644).simple]
      (Sistema.nuevo ⟨0, 0, 0, fun _ ↦ 0⟩)).any fun s ↦
        (ejecutar 10000 (Llamada.truncate [barra, punto] 1).simple s).toOption.any
          fun r ↦ r.ret == 0) = true := by
    decide +kernel
  rw [hs, Option.any_some] at hcorre
  cases hr : ejecutar 10000 (Llamada.truncate [barra, punto] 1).simple s with
  | error f =>
    rw [hr] at hcorre
    cases hcorre
  | ok r =>
    rw [hr] at hcorre
    change (r.ret == 0) = true at hcorre
    obtain ⟨hsize, hcontenido⟩ := Bool.and_eq_true_iff.mp hvacio
    rw [beq_iff_eq] at hsize hcorre
    rw [List.isEmpty_iff] at hcontenido
    obtain ⟨ha, a', ha', -, -, hpaso⟩ := historia_truncate hr hcorre hencuentra ha
    have hceros : ExponeCeros u (s, ∅) (Llamada.truncate [barra, punto] 1).simple
        (r.sistema, {i | i < 1 ∧ a.st.stSize.toNat ≤ i}) := by
      intro b b' hb _ _ i _ _
      rw [ha] at hb
      cases hb
      rw [hcontenido]
      rfl
    refine ⟨s, u, _, run_correr hs, .single hpaso, ⟨Nat.one_pos, by rw [hsize]; exact Nat.le_refl 0⟩,
      ?_⟩
    exact (expuestos_en_cero_iff 10000 (Sistema.nuevo_inicial _)
      ((run_correr hs).mono fun _ _ _ h ↦ h.paso) ha (.single hpaso)).mpr
        (.single ⟨hpaso, hceros⟩) _ _ (List.prefix_refl _) (.single hpaso)

/-- A byte that was written, cut off, and comes back when the file grows. -/
theorem expuestos_contenido_anterior : ∃ s u y a', Run (PasoServido 10000)
      (Sistema.nuevo ⟨0, 0, 0, fun _ ↦ 0⟩) [(Llamada.create [barra, punto] 0o100644).simple,
        (Llamada.write [barra, punto] [7] 1 0).simple,
        (Llamada.truncate [barra, punto] 0).simple] s ∧
    Run (Historia 10000 u) (s, ∅) [(Llamada.truncate [barra, punto] 1).simple] y ∧ 0 ∈ y.2 ∧
    y.1.fs.en u = some (.archivo a') ∧ a'.bytes[0]? = some 7 ∧ ¬ EnCero u y := by
  obtain ⟨s, fs₁, u, a, hs, hencuentra, ha, hcortado⟩ :=
    @archivo_tras [barra, punto] 10000 0 [(Llamada.create [barra, punto] 0o100644).simple,
        (Llamada.write [barra, punto] [7] 1 0).simple, (Llamada.truncate [barra, punto] 0).simple]
      (Sistema.nuevo ⟨0, 0, 0, fun _ ↦ 0⟩) (fun a ↦ a.st.stSize == 0 && a.contenido == [7])
      (by decide +kernel)
  have hcorre : ((correr 10000 [(Llamada.create [barra, punto] 0o100644).simple,
        (Llamada.write [barra, punto] [7] 1 0).simple, (Llamada.truncate [barra, punto] 0).simple]
      (Sistema.nuevo ⟨0, 0, 0, fun _ ↦ 0⟩)).any fun s ↦
        (ejecutar 10000 (Llamada.truncate [barra, punto] 1).simple s).toOption.any
          fun r ↦ r.ret == 0) = true := by
    decide +kernel
  rw [hs, Option.any_some] at hcorre
  cases hr : ejecutar 10000 (Llamada.truncate [barra, punto] 1).simple s with
  | error f =>
    rw [hr] at hcorre
    cases hcorre
  | ok r =>
    rw [hr] at hcorre
    change (r.ret == 0) = true at hcorre
    obtain ⟨hsize, hcontenido⟩ := Bool.and_eq_true_iff.mp hcortado
    rw [beq_iff_eq] at hsize hcorre hcontenido
    obtain ⟨ha, a', ha', huno, hbuffer, hpaso⟩ := historia_truncate hr hcorre hencuentra ha
    have hsiete : a'.bytes[0]? = some 7 := by
      rw [EntradaArchivo.getElem?_bytes (by rw [huno]; decide),
        hbuffer.resolve_left (by decide), realloc_eq_some (by decide), hcontenido]
      rfl
    refine ⟨s, u, _, a', run_correr hs, .single hpaso,
      ⟨Nat.one_pos, by rw [hsize]; exact Nat.le_refl 0⟩, ha', hsiete, ?_⟩
    rintro ⟨b, hb, hcero⟩
    have hb : r.sistema.fs.en u = some (.archivo b) := hb
    rw [ha'] at hb
    cases hb
    have hno := hcero 0 ⟨Nat.one_pos, by rw [hsize]; exact Nat.le_refl 0⟩
    rw [hsiete] at hno
    cases hno

end Historias

end SistemasOperativos.FisopFs
