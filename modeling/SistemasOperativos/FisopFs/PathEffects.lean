import Mathlib.Order.Notation
import SistemasOperativos.FisopFs.Naming

/-!
# What the handlers do to paths

For each handler that changes the tree, given a normalised path: when it succeeds, and what every
path names afterwards. The tree stays in order and its names stay distinct.
-/

namespace SistemasOperativos.FisopFs

variable {max : UInt64} {ent : Entorno} {fs fs' fs₁ : Fs} {m m' : Memoria} {ahora : UInt64}
  {p : Ruta} {c : Cadena} {u : Ubicacion} {d : EntradaDirectorio} {i : ℕ} {x : Entrada}

/-! ## The entry that a removal finds -/

section Hallazgo

variable {esDelTipo : Entrada → Bool}

theorem Halla.normal (hfs : fs.EnOrden) (hp : (p ++ [c]).Normal)
    (htipo : ∀ e, esDelTipo e = true → e.ocupada = true)
    (h : Halla esDelTipo ahora (p ++ [c]).texto fs fs₁ u d i x) :
    fs.Recorrido ahora fs₁ ∧ fs.ubicar p = some u ∧ fs₁.en u = some (.directorio d) ∧
      d.entradas[i]? = some x ∧ x.seLlama c = true ∧ fs.nodo (p ++ [c]) = x.nodo [] := by
  obtain ⟨nombre, hbusca, hprimera, hx⟩ := h
  obtain ⟨rfl, hrec, hubica, hu⟩ := buscarDirectorio_padre hfs.sana hp hbusca
  obtain ⟨-, ⟨y, hy, -, hyp⟩, -⟩ := primera_some hprimera
  rw [hx] at hy
  cases hy
  obtain ⟨hyTipo, hyNombre⟩ := Bool.and_eq_true_iff.mp hyp
  have hc : x.seLlama nombre = true := by
    rw [Entrada.seLlama, htipo x hyTipo, hyNombre]
    rfl
  have hranura := ((hfs.recorrido hrec).distinto hu).ranura_eq hx hc
  have hnodo : fs₁.nodo (p ++ [nombre]) = x.nodo [] := by
    rw [Fs.nodo_append ((hrec.ubicar p).trans hubica) hu, Entrada.nodo_cons, hranura,
      Option.bind_some, hx, Option.bind_some]
  exact ⟨hrec, hubica, hu, hx, hc, (hrec.nodo _).symm.trans hnodo⟩

/-- No entry of the root is called as the last component of `"/"`. -/
theorem not_halla_raiz (hfs : fs.EnOrden) (htipo : ∀ e, esDelTipo e = true → e.ocupada = true) :
    ¬ Halla esDelTipo ahora (Ruta.texto []) fs fs₁ u d i x := by
  rintro ⟨nombre, hbusca, hprimera, -⟩
  obtain ⟨pd, v, y, -, hnombre, hencuentra, hv, ⟨hnone, -⟩ | ⟨d', rfl, heq⟩⟩ :=
    buscarDirectorio_ok hbusca
  · cases hnone
  cases heq
  cases hnombre
  have hd := (hfs.recorrido (encontrarEntrada_recorrido hencuentra)).distinto hv
  obtain ⟨-, ⟨e, he, -, hep⟩, -⟩ := primera_some hprimera
  obtain ⟨heTipo, heNombre⟩ := Bool.and_eq_true_iff.mp hep
  exact hd.nombrados e (List.mem_of_getElem? he) (htipo e heTipo) (beq_iff_eq.mp heNombre)

/-- What a path names below the root is found by the removals of its type. -/
theorem halla_of_nodo (ahora : UInt64) (hfs : fs.EnOrden) (hp : (p ++ [c]).Normal) {n : Nodo}
    (h : fs.nodo (p ++ [c]) = some n) :
    ∃ fs₁ u d i x, x.nodo [] = some n ∧ fs₁.EnOrden ∧ fs₁.en u = some (.directorio d) ∧
      ∀ esDelTipo : Entrada → Bool, (∀ e, esDelTipo e = true → e.ocupada = true) →
        esDelTipo x = true → Halla esDelTipo ahora (p ++ [c]).texto fs fs₁ u d i x := by
  have hpadre : fs.nodo p = some .directorio := by
    cases hu : fs.ubicar p with
    | none =>
      have hnone := Entrada.nodo_of_ubicar_none hu [c]
      rw [Fs.nodo, hnone] at h
      cases h
    | some u =>
      obtain ⟨y, hy, -⟩ := Fs.en_of_ubicar hu
      rw [Fs.nodo_append hu hy] at h
      rw [Fs.nodo_of_ubicar hu hy]
      cases y with
      | directorio d => rfl
      | _ => cases h
  obtain ⟨fs₁, u, d, hbusca⟩ := @buscarDirectorio_de_directorio ahora c fs p hfs.sana hp hpadre
  obtain ⟨-, hrec, hubica, hu⟩ := buscarDirectorio_padre hfs.sana hp hbusca
  have hfs₁ := hfs.recorrido hrec
  rw [← hrec.nodo, Fs.nodo_append ((hrec.ubicar p).trans hubica) hu, Entrada.nodo_cons] at h
  cases hranura : d.ranura c with
  | none =>
    rw [hranura] at h
    cases h
  | some i =>
    obtain ⟨x, hx, hc⟩ := EntradaDirectorioDe.ranura_some hranura
    rw [hranura, Option.bind_some, hx, Option.bind_some] at h
    refine ⟨fs₁, u, d, i, x, h, hfs₁, hu, fun esDelTipo htipo hxTipo ↦ ⟨c, hbusca, ?_, hx⟩⟩
    have hlee := @primera_eq_findIdx? (fun e ↦ esDelTipo e && e.nombre == c) d.entradas
      (hfs₁.sano hu).asignadas
    have hxp : (esDelTipo x && x.nombre == c) = true := by
      rw [hxTipo, (Entrada.seLlama_iff.mp hc).2, beq_self_eq_true]
      rfl
    rw [← (hfs₁.sano hu).largo, hlee]
    cases hj : d.entradas.findIdx? (fun e ↦ esDelTipo e && e.nombre == c) with
    | none =>
      have hno := List.findIdx?_eq_none_iff.mp hj x (List.mem_of_getElem? hx)
      rw [hxp] at hno
      cases hno
    | some j =>
      obtain ⟨hlt, hyp, -⟩ := List.findIdx?_eq_some_iff_getElem.mp hj
      obtain ⟨hyTipo, hyNombre⟩ := Bool.and_eq_true_iff.mp hyp
      have hyc : d.entradas[j].seLlama c = true := by
        rw [Entrada.seLlama, htipo _ hyTipo, hyNombre]
        rfl
      rw [(hfs₁.distinto hu).distintos i j x _ c hx (List.getElem?_eq_getElem hlt) hc hyc]

theorem ocupada_of_esArchivo (e : Entrada) (h : e.esArchivo = true) : e.ocupada = true := by
  cases e <;> first | rfl | cases h

theorem ocupada_of_esDirectorio (e : Entrada) (h : e.esDirectorio = true) : e.ocupada = true := by
  cases e <;> first | rfl | cases h

end Hallazgo

/-! ## The handlers and what paths name -/

section Manejadores

variable {r : ℤ}

theorem Fs.EnOrden.poner {y : Entrada} (h : fs.EnOrden) (hx : fs.en u = some x)
    (hs : x.Semejante y) (hsana : (fs.poner u y).Cada Entrada.Sana)
    (hy : y.Cada Entrada.Distinta) : (fs.poner u y).EnOrden :=
  ⟨hsana, Fs.Cada.poner Entrada.Distinta.superficial h.distinta hx hs hy⟩

/-- A handler keeps the vectors in order while the heap serves its requests. -/
theorem Fs.Pasa.sana {quita : Option EntradaArchivo} {agotada : Bool}
    (h : fs.Pasa max ahora agotada quita fs') (hservido : agotada = false)
    (hfs : fs.Cada Entrada.Sana) : fs'.Cada Entrada.Sana :=
  Fs.Pasa.cada h (fun hagotada ↦ by rw [hservido] at hagotada; cases hagotada) hfs

theorem cada_distinta_hoja {e : Entrada} (h : e.esDirectorio = false) :
    e.Cada Entrada.Distinta := by
  rw [Entrada.cada_hoja h]
  cases e with
  | directorio => cases h
  | _ => trivial

theorem cada_distinta_directorio (hd : d.Distinto)
    (h : ∀ e ∈ d.entradas, e.Cada Entrada.Distinta) :
    (Entrada.directorio d).Cada Entrada.Distinta :=
  Entrada.cada_directorio.mpr ⟨hd, h⟩

/-- The slots of a directory of the tree. -/
theorem Fs.EnOrden.hijos (h : fs.EnOrden) (hu : fs.en u = some (.directorio d)) :
    ∀ e ∈ d.entradas, e.Cada Entrada.Distinta :=
  (Entrada.cada_directorio.mp (Entrada.Cada.en h.distinta hu)).2

theorem Fs.EnOrden.quitar {tam : UInt64} (h : fs.EnOrden) (hu : fs.en u = some (.directorio d))
    (hsana : ((fs.poner u (.directorio (d.sin ahora i))).restar tam).Cada Entrada.Sana) :
    ((fs.poner u (.directorio (d.sin ahora i))).restar tam).EnOrden := by
  have hs : (Entrada.directorio d).Semejante (.directorio (d.sin ahora i)) := by
    simp [EntradaDirectorioDe.sin]
  have hcada : (Entrada.directorio (d.sin ahora i)).Cada Entrada.Distinta :=
    cada_distinta_directorio (h.distinto hu).sin
      (cada_mem_set (h.hijos hu) (cada_distinta_hoja rfl))
  have hponer := h.poner hu hs hsana hcada
  exact ⟨hsana, hponer.distinta⟩

/-- The common effect of the removals: what the path names goes away. -/
theorem quitada_simula {esDelTipo : Entrada → Bool} {tam : UInt64} (hfs : fs.EnOrden)
    (hp : p.Normal) (htipo : ∀ e, esDelTipo e = true → e.ocupada = true)
    (hhalla : Halla esDelTipo ahora p.texto fs fs₁ u d i x) (hhoja : x.Hoja)
    (hsana : ((fs₁.poner u (.directorio (d.sin ahora i))).restar tam).Cada Entrada.Sana) :
    ((fs₁.poner u (.directorio (d.sin ahora i))).restar tam).EnOrden ∧ p ≠ [] ∧
      (∀ q, fs.nodo (p ++ q) = x.nodo q) ∧
      ∀ q, ((fs₁.poner u (.directorio (d.sin ahora i))).restar tam).nodo q =
        if q = p then none else fs.nodo q := by
  obtain rfl | ⟨p, c, rfl⟩ := List.eq_nil_or_concat p
  · exact absurd hhalla (not_halla_raiz hfs htipo)
  rw [List.concat_eq_append] at hhalla hp ⊢
  obtain ⟨hrec, hubica, hu, hx, hc, -⟩ := hhalla.normal hfs hp htipo
  have hfs₁ := hfs.recorrido hrec
  have hubica₁ := (hrec.ubicar p).trans hubica
  refine ⟨hfs₁.quitar hu hsana, by simp, fun q ↦ ?_, fun q ↦ ?_⟩
  · rw [List.append_assoc, List.singleton_append, ← hrec.nodo, Fs.nodo_append hubica₁ hu,
      Entrada.nodo_cons, (hfs₁.distinto hu).ranura_eq hx hc, Option.bind_some, hx,
      Option.bind_some]
  · have hnodo := @Fs.nodo_quitada ahora c i x fs₁ p u d hfs₁ hubica₁ hu hx hc hhoja q
    rw [hrec.nodo] at hnodo
    exact hnodo

/-- `fisopfs_unlink` succeeds exactly on files and takes away the path, and no other. -/
theorem fisopfsUnlink_simula (hfs : fs.EnOrden) (hp : p.Normal)
    (h : fisopfsUnlink ent p.texto fs m = .ok ((r, fs'), m')) (hservido : m'.agotada = false) :
    fs'.EnOrden ∧
      ((r ≠ 0 ∧ (∀ b, fs.nodo p ≠ some (.archivo b)) ∧ ∀ q, fs'.nodo q = fs.nodo q) ∨
       (r = 0 ∧ (∃ b, fs.nodo p = some (.archivo b)) ∧
          ∀ q, fs'.nodo q = if q = p then none else fs.nodo q)) := by
  obtain ⟨quita, hpasa, -⟩ := @fisopfsUnlink_pasa 0 ent p.texto fs fs' m m' r h
  have hsana := hpasa.sana hservido hfs.sana
  obtain ⟨hr, hrec, hno⟩ | ⟨fs₁, u, d, i, a, hr, hhalla, rfl⟩ := fisopfsUnlink_ok h
  · refine ⟨hfs.recorrido hrec, .inl ⟨hr, fun b hb ↦ ?_, hrec.nodo⟩⟩
    obtain rfl | ⟨p, c, rfl⟩ := List.eq_nil_or_concat p
    · cases hb
    rw [List.concat_eq_append] at hb hp hno
    obtain ⟨fs₁, u, d, i, x, hx, -, -, hhalla⟩ := halla_of_nodo ent.ahora hfs hp hb
    cases x with
    | archivo a =>
      have hsi := hhalla Entrada.esArchivo ocupada_of_esArchivo rfl
      obtain hagotada | hno := hno
      · rw [hservido] at hagotada
        cases hagotada
      · exact hno fs₁ u d i _ hsi
    | _ => cases hx
  · obtain ⟨horden, -, hnodo, hquita⟩ :=
      quitada_simula hfs hp ocupada_of_esArchivo hhalla (Entrada.hoja_archivo a) hsana
    have hp : fs.nodo p = some (.archivo a.bytes) := by
      have hnil := hnodo []
      rw [List.append_nil] at hnil
      exact hnil
    exact ⟨horden, .inr ⟨hr, ⟨a.bytes, hp⟩, hquita⟩⟩

/-- A directory below the root that has nothing below it. -/
def Fs.DirectorioVacio (fs : Fs) (p : Ruta) : Prop :=
  p ≠ [] ∧ fs.nodo p = some .directorio ∧ ∀ q, q ≠ [] → fs.nodo (p ++ q) = none

/-- A directory with no path below it has no entries. -/
theorem Halla.vacio {e : EntradaDirectorio} (hfs : fs.EnOrden) (hp : (p ++ [c]).Normal)
    (h : Halla Entrada.esDirectorio ahora (p ++ [c]).texto fs fs₁ u d i (.directorio e))
    (hdebajo : ∀ q, q ≠ [] → fs.nodo (p ++ [c] ++ q) = none) :
    e.Sano ∧ ∀ x ∈ e.entradas, x.ocupada = false := by
  obtain ⟨hrec, hubica, hu, hi, hc, -⟩ := h.normal hfs hp ocupada_of_esDirectorio
  have hfs₁ := hfs.recorrido hrec
  have hmem := List.mem_of_getElem? hi
  have hsana := (Entrada.cada_directorio.mp (Entrada.Cada.en hfs₁.sana hu)).2 _ hmem
  have hdistinto : e.Distinto := (hfs₁.hijos hu _ hmem).self
  have hhoja : (Entrada.directorio e).Hoja := by
    intro q hq
    have hnodo := hdebajo q hq
    rw [List.append_assoc, List.singleton_append, ← hrec.nodo,
      Fs.nodo_append ((hrec.ubicar p).trans hubica) hu, Entrada.nodo_cons,
      (hfs₁.distinto hu).ranura_eq hi hc, Option.bind_some, hi, Option.bind_some] at hnodo
    exact hnodo
  exact ⟨Entrada.sana_directorio.mp hsana.self, hhoja.desocupadas hdistinto⟩

/-- `fisopfs_rmdir` succeeds exactly on empty directories below the root and takes away the path,
and no other. -/
theorem fisopfsRmdir_simula (hfs : fs.EnOrden) (hp : p.Normal)
    (h : fisopfsRmdir ent p.texto fs m = .ok ((r, fs'), m')) (hservido : m'.agotada = false) :
    fs'.EnOrden ∧
      ((r ≠ 0 ∧ ¬ fs.DirectorioVacio p ∧ ∀ q, fs'.nodo q = fs.nodo q) ∨
       (r = 0 ∧ fs.DirectorioVacio p ∧
          ∀ q, fs'.nodo q = if q = p then none else fs.nodo q)) := by
  have hpasa := @fisopfsRmdir_pasa 0 ent p.texto fs fs' m m' r h
  have hsana := hpasa.sana hservido hfs.sana
  obtain ⟨hr, hrec, hno⟩ | ⟨fs₁, u, d, i, e, hr, hhalla, hvacio, rfl⟩ := fisopfsRmdir_ok h
  · refine ⟨hfs.recorrido hrec, .inl ⟨hr, ?_, hrec.nodo⟩⟩
    rintro ⟨hraiz, hdir, hdebajo⟩
    obtain rfl | ⟨p, c, rfl⟩ := List.eq_nil_or_concat p
    · exact hraiz rfl
    rw [List.concat_eq_append] at hdir hdebajo hp hno
    obtain ⟨fs₁, u, d, i, x, hx, hfs₁, hu, hhalla⟩ := halla_of_nodo ent.ahora hfs hp hdir
    cases x with
    | directorio e =>
      have hsi := hhalla Entrada.esDirectorio ocupada_of_esDirectorio rfl
      obtain ⟨he, hvacio⟩ := hsi.vacio hfs hp hdebajo
      obtain hagotada | hno := hno
      · rw [hservido] at hagotada
        cases hagotada
      · have hllena := hno fs₁ u d i e hsi
        rw [he.estaVacio_iff.mpr hvacio] at hllena
        cases hllena
    | _ => cases hx
  · have he : e.Sano := by
      obtain ⟨hrec, hu⟩ := hhalla.en
      obtain ⟨-, -, -, hi⟩ := hhalla
      have heSana := (Entrada.cada_directorio.mp
        (Entrada.Cada.en (hfs.recorrido hrec).sana hu)).2 _ (List.mem_of_getElem? hi)
      exact Entrada.sana_directorio.mp heSana.self
    have hhoja := Entrada.hoja_directorio (he.estaVacio_iff.mp hvacio)
    obtain ⟨horden, hraiz, hnodo, hquita⟩ :=
      quitada_simula hfs hp ocupada_of_esDirectorio hhalla hhoja hsana
    have hdir : fs.nodo p = some .directorio := by
      have hnil := hnodo []
      rw [List.append_nil] at hnil
      exact hnil
    exact ⟨horden, .inr ⟨hr, ⟨hraiz, hdir, fun q hq ↦ (hnodo q).trans (hhoja q hq)⟩, hquita⟩⟩

/-- A directory that has just been created. -/
theorem vacia_distinta (h : ∀ e ∈ d.entradas, e = .vacio) :
    (Entrada.directorio d).Hoja ∧ (Entrada.directorio d).Cada Entrada.Distinta := by
  have hdesocupadas : ∀ e ∈ d.entradas, e.ocupada = false := by
    intro e he
    rw [h e he]
    rfl
  have hd : d.Distinto := by
    refine ⟨fun e he hocupada ↦ ?_, fun j k y z c hy _ hyc _ ↦ ?_⟩
    · rw [hdesocupadas e he] at hocupada
      cases hocupada
    · rw [h y (List.mem_of_getElem? hy)] at hyc
      cases hyc
  refine ⟨Entrada.hoja_directorio hdesocupadas, cada_distinta_directorio hd fun e he ↦ ?_⟩
  rw [h e he]
  exact cada_distinta_hoja rfl

/-- A path that names nothing has no slot in the directory of its parent. -/
theorem Fs.ranura_of_libre (hp : fs.ubicar p = some u) (hu : fs.en u = some (.directorio d))
    (hlibre : fs.nodo (p ++ [c]) = none) : d.ranura c = none := by
  cases hranura : d.ranura c with
  | none => rfl
  | some i =>
    obtain ⟨x, hx, hc⟩ := EntradaDirectorioDe.ranura_some hranura
    rw [Fs.nodo_append hp hu, Entrada.nodo_cons, hranura, Option.bind_some, hx,
      Option.bind_some] at hlibre
    have hsome := Entrada.nodo_nil_isSome x
    rw [hlibre, (Entrada.seLlama_iff.mp hc).1] at hsome
    cases hsome

/-- The common effect of the creations: the path comes to name the new entry. -/
theorem colocada_simula {nueva : Entrada} {tam : UInt64} {nombre : Cadena} (hfs : fs.EnOrden)
    (hp : p.Normal) (hlibre : fs.nodo p = none)
    (hbusca : buscarDirectorio ent.ahora p.texto fs = .ok (fs₁, nombre, some (u, d)))
    (hnueva : nueva.ocupada = true) (hnombre : nueva.nombre = nombre) (hhoja : nueva.Hoja)
    (hdistinta : nueva.Cada Entrada.Distinta)
    (h : colocarNueva ent fs₁ u d nueva tam m = .ok ((r, fs'), m')) (hservido : m'.agotada = false)
    (hsana : fs'.Cada Entrada.Sana) :
    fs'.EnOrden ∧ r = 0 ∧ ∀ q, fs'.nodo q = if q = p then nueva.nodo [] else fs.nodo q := by
  obtain rfl | ⟨p, c, rfl⟩ := List.eq_nil_or_concat p
  · cases hlibre
  rw [List.concat_eq_append] at hlibre hbusca hp ⊢
  obtain ⟨rfl, hrec, hubica, hu⟩ := buscarDirectorio_padre hfs.sana hp hbusca
  subst hnombre
  have hfs₁ := hfs.recorrido hrec
  have hubica₁ := (hrec.ubicar p).trans hubica
  have hno : d.ranura nueva.nombre = none :=
    Fs.ranura_of_libre hubica₁ hu ((hrec.nodo _).trans hlibre)
  obtain ⟨d', o, hcolocar, hcaso⟩ := colocarNueva_ok h
  obtain ⟨i, hi, -, ⟨hcero, rfl, -⟩ | ⟨-, hagotada, -⟩⟩ := (hfs₁.sano hu).colocar hnueva hcolocar
  · obtain ⟨-, rfl⟩ | ⟨hr, -⟩ := hcaso
    · have hs : (Entrada.directorio d).Semejante
          (.directorio (d.con ent.ahora i nueva).crecido) := by
        unfold EntradaDirectorioDe.crecido
        split <;> simp [EntradaDirectorioDe.con]
      have hcon : (d.con ent.ahora i nueva).Distinto :=
        (hfs₁.distinto hu).con hi hp.ultimo.1 hno
      have hcada : (Entrada.directorio (d.con ent.ahora i nueva).crecido).Cada
          Entrada.Distinta := by
        refine cada_distinta_directorio hcon.crecido fun e he ↦ ?_
        obtain ⟨j, hj⟩ := List.mem_iff_getElem?.mp he
        obtain hj | rfl := EntradaDirectorioDe.getElem?_crecido hj
        · exact cada_mem_set (hfs₁.hijos hu) hdistinta e (List.mem_of_getElem? hj)
        · exact cada_distinta_hoja rfl
      have hponer := hfs₁.poner hu hs hsana hcada
      refine ⟨⟨hsana, hponer.distinta⟩, hcero, fun q ↦ ?_⟩
      rw [← hrec.nodo q]
      exact Fs.nodo_colocada hfs₁ hubica₁ hu hi hnueva hp.ultimo.1 hno hhoja q
    · exact absurd hcero hr
  · rw [hservido] at hagotada
    cases hagotada

/-- A successful `fisopfs_mkdir` adds an empty directory at the path, and nothing else. -/
theorem fisopfsMkdir_simula {mode : UInt32} (hfs : fs.EnOrden) (hp : p.Normal)
    (hlibre : fs.nodo p = none) (h : fisopfsMkdir max ent p.texto mode fs m = .ok ((r, fs'), m'))
    (hservido : m'.agotada = false) :
    fs'.EnOrden ∧ ((r ≠ 0 ∧ ∀ q, fs'.nodo q = fs.nodo q) ∨
      (r = 0 ∧ ∀ q, fs'.nodo q = if q = p then some .directorio else fs.nodo q)) := by
  have hsana := (fisopfsMkdir_pasa h).sana hservido hfs.sana
  obtain ⟨hr, hrec⟩ | ⟨fs₁, nombre, u, d, nuevo, m₁, m₂, m₃, hbusca, -, hcrear, hcolocar⟩ :=
    fisopfsMkdir_ok h
  · exact ⟨hfs.recorrido hrec, .inl ⟨hr, hrec.nodo⟩⟩
  obtain ⟨nombre', rfl, m₄, hexpandir⟩ := crearDir_ok hcrear
  obtain ⟨-, rfl⟩ := expandir_nuevo hexpandir
  obtain ⟨hhoja, hdistinta⟩ := vacia_distinta
    (d := ⟨nombre', statNuevo ent (sIfdir ||| mode), entradasIniciales, 0,
      List.replicate 5 Entrada.vacio⟩) fun e he ↦ List.eq_of_mem_replicate he
  obtain ⟨horden, hr, hnodo⟩ :=
    colocada_simula hfs hp hlibre hbusca rfl rfl hhoja hdistinta hcolocar hservido hsana
  exact ⟨horden, .inr ⟨hr, hnodo⟩⟩

/-- A successful `fisopfs_create` adds an empty file at the path, and nothing else. -/
theorem fisopfsCreate_simula {mode : UInt32} (hfs : fs.EnOrden) (hp : p.Normal)
    (hlibre : fs.nodo p = none)
    (h : fisopfsCreate max ent p.texto mode fs m = .ok ((r, fs'), m'))
    (hservido : m'.agotada = false) :
    fs'.EnOrden ∧ ((r ≠ 0 ∧ ∀ q, fs'.nodo q = fs.nodo q) ∨
      (r = 0 ∧ ∀ q, fs'.nodo q = if q = p then some (.archivo []) else fs.nodo q)) := by
  have hsana := (fisopfsCreate_pasa h).sana hservido hfs.sana
  obtain ⟨hr, hrec⟩ | ⟨fs₁, nombre, u, d, nuevo, m₁, hbusca, -, hcrear, hcolocar⟩ :=
    fisopfsCreate_ok h
  · exact ⟨hfs.recorrido hrec, .inl ⟨hr, hrec.nodo⟩⟩
  obtain ⟨hnombre, -, hcontenido⟩ := crearArchivo_ok hcrear
  have hnombre' : (Entrada.archivo nuevo).nombre = nombre := hnombre
  obtain ⟨horden, hr, hnodo⟩ := colocada_simula hfs hp hlibre hbusca rfl hnombre'
    (Entrada.hoja_archivo nuevo) (cada_distinta_hoja rfl) hcolocar hservido hsana
  have hbytes : nuevo.bytes = [] := by rw [EntradaArchivo.bytes, hcontenido, List.take_nil]
  rw [Entrada.nodo, hbytes] at hnodo
  exact ⟨horden, .inr ⟨hr, hnodo⟩⟩

/-- What `fisopfs_write` makes of the bytes of a file: it becomes long enough, the bytes of the
buffer are in place, and the bytes outside them are kept. -/
structure BytesEscritos (buf : List UInt8) (size offset : UInt64) (b b' : List UInt8) : Prop where
  largo : b'.length = b.length ⊔ (offset + size).toNat
  escritos : ∀ i, offset.toNat ≤ i → i < offset.toNat + size.toNat → i < b'.length →
    b'[i]? = buf[i - offset.toNat]?
  demas : ∀ i, i < offset.toNat ∨ offset.toNat + size.toNat ≤ i → i < b.length → b'[i]? = b[i]?

/-- What `fisopfs_truncate` makes of the bytes of a file. -/
structure BytesTruncados (size : UInt64) (b b' : List UInt8) : Prop where
  largo : b'.length = size.toNat
  prefijo : ∀ i, i < b.length → i < size.toNat → b'[i]? = b[i]?

theorem EntradaArchivo.Sano.length_bytes {a : EntradaArchivo} (h : a.Sano) :
    a.bytes.length = a.st.stSize.toNat := by
  rw [EntradaArchivo.bytes, List.length_take, Nat.min_eq_left h.contenido]

theorem EntradaArchivo.getElem?_bytes {a : EntradaArchivo} {i : ℕ} (h : i < a.st.stSize.toNat) :
    a.bytes[i]? = a.contenido[i]? := by
  rw [EntradaArchivo.bytes, List.getElem?_take, if_pos h]

/-- The buffer after a reallocation has the old bytes where there were some. -/
theorem getElem?_realloc {ent : Entorno} {contenido : List UInt8} {n i : ℕ} (hi : i < n)
    (hlen : i < contenido.length) :
    ((List.range n).map fun i ↦ contenido[i]?.getD (ent.basura i))[i]? = contenido[i]? := by
  rw [List.getElem?_map, List.getElem?_range hi, Option.map_some, List.getElem?_eq_getElem hlen]
  rfl

theorem Fs.EnOrden.of_raiz (h : fs.EnOrden) (hraiz : fs'.raiz = fs.raiz) : fs'.EnOrden := by
  obtain ⟨hsana, hdistinta⟩ := h
  unfold Fs.Cada at hsana hdistinta
  rw [← hraiz] at hsana hdistinta
  exact ⟨hsana, hdistinta⟩

/-- Replacing a file changes what its path names, and no other path. -/
theorem archivo_simula {fs₂ : Fs} {a a' : EntradaArchivo} (hfs : fs.EnOrden) (hp : p.Normal)
    (hencuentra : encontrarEntrada ahora p.texto fs = .ok (fs₁, some u))
    (hu : fs₁.en u = some (.archivo a)) (hfs' : fs' = fs₂.poner u (.archivo a'))
    (hraiz : fs₂.raiz = fs₁.raiz) (hnombre : a'.nombre = a.nombre)
    (hsana : fs'.Cada Entrada.Sana) :
    fs'.EnOrden ∧ fs.nodo p = some (.archivo a.bytes) ∧
      ∀ q, fs'.nodo q = if q = p then some (.archivo a'.bytes) else fs.nodo q := by
  subst hfs'
  have hrec := encontrarEntrada_recorrido hencuentra
  obtain ⟨fs₃, htexto⟩ := @Fs.encontrarEntrada_texto fs ahora p hfs.sana hp
  have hubica : fs₁.ubicar p = some u := by
    rw [htexto] at hencuentra
    rw [hrec.ubicar]
    exact congrArg Prod.snd (Except.ok.inj hencuentra)
  have hnodo (q : Ruta) : fs₂.nodo q = fs.nodo q := by
    rw [← hrec.nodo, Fs.nodo, hraiz]
    rfl
  have hs : (Entrada.archivo a).Semejante (.archivo a') := by simp [hnombre]
  have hfs₂ : fs₂.EnOrden := (hfs.recorrido hrec).of_raiz hraiz
  have hubica₂ : fs₂.ubicar p = some u := by
    rw [Fs.ubicar, hraiz]
    exact hubica
  have hu₂ : fs₂.en u = some (.archivo a) := by
    rw [Fs.en, hraiz]
    exact hu
  refine ⟨hfs₂.poner hu₂ hs hsana (cada_distinta_hoja rfl), ?_, fun q ↦ ?_⟩
  · rw [← hnodo, Fs.nodo_of_ubicar hubica₂ hu₂]
    rfl
  · rw [Fs.nodo_poner_hoja hubica₂ hu₂ hs (Entrada.hoja_archivo a) (Entrada.hoja_archivo a'), hnodo]
    rfl

/-- The file that a search finds is in order. -/
theorem sano_of_encontrado {a : EntradaArchivo} (hfs : fs.EnOrden)
    (hencuentra : encontrarEntrada ahora p.texto fs = .ok (fs₁, some u))
    (hu : fs₁.en u = some (.archivo a)) : a.Sano :=
  (hfs.recorrido (encontrarEntrada_recorrido hencuentra)).sana u _ hu

theorem EntradaArchivo.Sano.truncado {a a' : EntradaArchivo} {size : UInt64} (h : a.Sano)
    (hsize : a'.st.stSize = size)
    (hcontenido : size = 0 ∨ a'.contenido =
      (List.range size.toNat).map fun i ↦ a.contenido[i]?.getD (ent.basura i)) :
    BytesTruncados size a.bytes a'.bytes := by
  have hlen := h.length_bytes
  have hcont := h.contenido
  obtain rfl | hcontenido := hcontenido
  · have hnada : a'.bytes = [] := by
      rw [EntradaArchivo.bytes, hsize]
      rfl
    exact ⟨by rw [hnada]; rfl, fun i _ hi ↦ absurd hi (Nat.not_lt_zero i)⟩
  · have htodo : a'.bytes = a'.contenido := by
      rw [EntradaArchivo.bytes, hsize]
      exact List.take_of_length_le (by simp [hcontenido])
    refine ⟨by rw [htodo, hcontenido, List.length_map, List.length_range], fun i hi hsize ↦ ?_⟩
    rw [hlen] at hi
    rw [htodo, hcontenido, getElem?_realloc hsize (by omega), EntradaArchivo.getElem?_bytes hi]

/-- `fisopfs_truncate` changes the file at the path, and nothing else. -/
theorem fisopfsTruncate_simula {size : UInt64} (hfs : fs.EnOrden) (hp : p.Normal)
    (h : fisopfsTruncate max ent p.texto size fs m = .ok ((r, fs'), m'))
    (hservido : m'.agotada = false) :
    fs'.EnOrden ∧ ((r ≠ 0 ∧ ∀ q, fs'.nodo q = fs.nodo q) ∨
      (r = 0 ∧ ∃ b b', fs.nodo p = some (.archivo b) ∧ BytesTruncados size b b' ∧
        ∀ q, fs'.nodo q = if q = p then some (.archivo b') else fs.nodo q)) := by
  have hsana := (fisopfsTruncate_pasa h).sana hservido hfs.sana
  obtain ⟨hr, hrec⟩ | ⟨fs₁, u, a, contenido, hr, hencuentra, hu, hfs', hcontenido⟩ :=
    fisopfsTruncate_ok h
  · exact ⟨hfs.recorrido hrec, .inl ⟨hr, hrec.nodo⟩⟩
  rw [ponerTamano] at hfs'
  obtain ⟨horden, hnodo, hpone⟩ := archivo_simula hfs hp hencuentra hu hfs' rfl rfl hsana
  refine ⟨horden, .inr ⟨hr, _, _, hnodo, ?_, hpone⟩⟩
  have ha := sano_of_encontrado hfs hencuentra hu
  exact ha.truncado rfl (hcontenido.imp And.left fun h ↦ h.2.2)

/-- The bytes around the ones that `memcpy` copies. -/
theorem getElem?_memcpy {destino buf contenido : List UInt8} {offset n i : ℕ}
    (h : memcpy destino buf offset n = .ok contenido) :
    contenido[i]? = if offset ≤ i ∧ i < offset + n then buf[i - offset]? else destino[i]? := by
  obtain ⟨hdestino, hbuf, rfl⟩ := memcpy_ok h
  have htoma : (destino.take offset).length = offset := by
    rw [List.length_take]
    omega
  have hcopia : (buf.take n).length = n := by
    rw [List.length_take]
    omega
  by_cases hi : i < offset
  · have hno : ¬ (offset ≤ i ∧ i < offset + n) := by omega
    rw [if_neg hno, List.append_assoc, List.getElem?_append_left (by omega),
      List.getElem?_take, if_pos hi]
  · by_cases hj : i < offset + n
    · have hsi : offset ≤ i ∧ i < offset + n := by omega
      rw [if_pos hsi, List.append_assoc, List.getElem?_append_right (by omega), htoma,
        List.getElem?_append_left (by omega), List.getElem?_take, if_pos (by omega)]
    · have hno : ¬ (offset ≤ i ∧ i < offset + n) := by omega
      rw [if_neg hno, List.getElem?_append_right (by rw [List.length_append]; omega),
        List.length_append, htoma, hcopia, List.getElem?_drop]
      congr 1
      omega

theorem EntradaArchivo.Sano.escrito {a a' : EntradaArchivo} {buf : List UInt8}
    {size offset : UInt64} (h : a.Sano)
    (hcopia : memcpy (ampliado ent a size offset) buf offset.toNat size.toNat = .ok a'.contenido)
    (hsize : a'.st.stSize = if a.st.stSize < offset + size then offset + size else a.st.stSize) :
    BytesEscritos buf size offset a.bytes a'.bytes := by
  have hlen := h.length_bytes
  have hcont := h.contenido
  have hlargo := length_memcpy hcopia
  have hsuma : size + offset = offset + size := UInt64.add_comm size offset
  have hmax : a'.st.stSize.toNat = a.st.stSize.toNat ⊔ (offset + size).toNat := by
    rw [hsize]
    split
    next hcabe =>
      rw [UInt64.lt_iff_toNat_lt] at hcabe
      omega
    next hcabe =>
      rw [UInt64.lt_iff_toNat_lt] at hcabe
      omega
  have hbuffer : (ampliado ent a size offset).length =
      if a.st.stSize < offset + size then (offset + size).toNat else a.contenido.length := by
    unfold ampliado
    split
    · rw [List.length_map, List.length_range, hsuma]
    · rfl
  have hcabe : a'.st.stSize.toNat ≤ a'.contenido.length := by
    rw [hlargo, hbuffer, hsize]
    split
    · exact Nat.le_refl _
    · exact hcont
  have hviejo (i : ℕ) (hi : i < a.st.stSize.toNat) :
      (ampliado ent a size offset)[i]? = a.contenido[i]? := by
    unfold ampliado
    split
    next hcrece =>
      rw [UInt64.lt_iff_toNat_lt] at hcrece
      rw [hsuma]
      exact getElem?_realloc (by omega) (by omega)
    · rfl
  have hlargo' : a'.bytes.length = a'.st.stSize.toNat := by
    rw [EntradaArchivo.bytes, List.length_take, Nat.min_eq_left hcabe]
  refine ⟨by rw [hlargo', hlen, hmax], fun i hoffset hi hi' ↦ ?_, fun i hfuera hi ↦ ?_⟩
  · rw [hlargo'] at hi'
    rw [EntradaArchivo.getElem?_bytes hi', getElem?_memcpy hcopia, if_pos ⟨hoffset, hi⟩]
  · rw [hlen] at hi
    have hno : ¬ (offset.toNat ≤ i ∧ i < offset.toNat + size.toNat) := by omega
    have hi' : i < a'.st.stSize.toNat := by omega
    rw [EntradaArchivo.getElem?_bytes hi', getElem?_memcpy hcopia, if_neg hno, hviejo i hi,
      EntradaArchivo.getElem?_bytes hi]

/-- `fisopfs_write` changes the file at the path, and nothing else. -/
theorem fisopfsWrite_simula {buf : List UInt8} {size offset : UInt64} (hfs : fs.EnOrden)
    (hp : p.Normal) (h : fisopfsWrite max ent p.texto buf size offset fs m = .ok ((r, fs'), m'))
    (hservido : m'.agotada = false) :
    fs'.EnOrden ∧ ((r < 0 ∧ ∀ q, fs'.nodo q = fs.nodo q) ∨
      (r = intDe size ∧ ∃ b b', fs.nodo p = some (.archivo b) ∧
        BytesEscritos buf size offset b b' ∧
        ∀ q, fs'.nodo q = if q = p then some (.archivo b') else fs.nodo q)) := by
  have hsana := (fisopfsWrite_pasa h).sana hservido hfs.sana
  obtain ⟨hr, hrec⟩ | ⟨fs₁, u, a, contenido, hr, hencuentra, hu, hcopia, hfs'⟩ :=
    fisopfsWrite_ok h
  · exact ⟨hfs.recorrido hrec, .inl ⟨hr, hrec.nodo⟩⟩
  have ha := sano_of_encontrado hfs hencuentra hu
  obtain ⟨hcabe, hfs'⟩ | ⟨hcabe, -, -, hfs'⟩ := hfs'
  · obtain ⟨horden, hnodo, hpone⟩ := archivo_simula hfs hp hencuentra hu hfs' rfl rfl hsana
    refine ⟨horden, .inr ⟨hr, _, _, hnodo, ?_, hpone⟩⟩
    exact ha.escrito hcopia (if_neg hcabe).symm
  · obtain ⟨horden, hnodo, hpone⟩ := archivo_simula hfs hp hencuentra hu hfs' rfl rfl hsana
    refine ⟨horden, .inr ⟨hr, _, _, hnodo, ?_, hpone⟩⟩
    exact ha.escrito hcopia (if_pos hcabe).symm

end Manejadores

end SistemasOperativos.FisopFs
