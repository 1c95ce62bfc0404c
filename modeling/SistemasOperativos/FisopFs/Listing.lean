import SistemasOperativos.FisopFs.Contents
import SistemasOperativos.FisopFs.FailedCreation

/-!
# What a directory lists

`fisopfs_readdir` goes over the slots of one directory, and `encontrar_entrada` follows a path from the
root and takes the first match of each directory. The two agree while the names of every directory are
distinct components of paths, which is so along every run that never spoils a vector, through
deletions, reused slots and reloads.
-/

namespace SistemasOperativos.FisopFs

open Library

/-! ## The names in a vector -/

/-- The names in a vector, in the order of its slots. -/
def nombresDe (es : List Entrada) : List Cadena := (es.filter Entrada.ocupada).map Entrada.nombre

section Nombres

variable {es : List Entrada} {i : ℕ} {x y : Entrada} {c : Cadena}

theorem mem_nombresDe : c ∈ nombresDe es ↔ ∃ e ∈ es, e.seLlama c = true := by
  simp only [nombresDe, List.mem_map, List.mem_filter, Entrada.seLlama_iff, and_assoc]

theorem nombresDe_append (es es' : List Entrada) :
    nombresDe (es ++ es') = nombresDe es ++ nombresDe es' := by
  rw [nombresDe, List.filter_append, List.map_append]
  rfl

theorem nombresDe_of_libres (h : ∀ e ∈ es, e.ocupada = false) : nombresDe es = [] := by
  have hnada : es.filter Entrada.ocupada = [] :=
    List.filter_eq_nil_iff.mpr fun e he ↦ by simp [h e he]
  rw [nombresDe, hnada, List.map_nil]

theorem nombresDe_ocupada (hx : x.ocupada = true) : nombresDe [x] = [x.nombre] := by
  rw [nombresDe, List.filter_singleton, hx]
  rfl

theorem nombresDe_semejante (hs : x.Semejante y) : nombresDe [x] = nombresDe [y] := by
  rw [nombresDe, nombresDe, List.filter_singleton, List.filter_singleton, hs.ocupada]
  cases y.ocupada with
  | true => exact congrArg (fun c ↦ [c]) hs.2
  | false => rfl

/-- The names around a slot. -/
theorem nombresDe_partes (hx : es[i]? = some x) :
    nombresDe es = nombresDe (es.take i) ++ (nombresDe [x] ++ nombresDe (es.drop (i + 1))) := by
  obtain ⟨hlt, hget⟩ := List.getElem?_eq_some_iff.mp hx
  rw [← nombresDe_append, ← nombresDe_append, List.singleton_append, ← hget,
    ← List.drop_eq_getElem_cons hlt, List.take_append_drop]

theorem nombresDe_set (hlt : i < es.length) (y : Entrada) :
    nombresDe (es.set i y) =
      nombresDe (es.take i) ++ (nombresDe [y] ++ nombresDe (es.drop (i + 1))) := by
  rw [List.set_eq_take_append_cons_drop, if_pos hlt, nombresDe_append,
    ← List.singleton_append, nombresDe_append]

theorem nombresDe_set_semejante (hx : es[i]? = some x) (hs : x.Semejante y) :
    nombresDe (es.set i y) = nombresDe es := by
  rw [nombresDe_set (List.getElem?_eq_some_iff.mp hx).1, nombresDe_partes hx,
    nombresDe_semejante hs]

/-- A free slot that is taken adds one name. -/
theorem nombresDe_ocupar (hx : es[i]? = some .vacio) (hy : y.ocupada = true) :
    (nombresDe (es.set i y)).Perm (y.nombre :: nombresDe es) := by
  have hlibre : nombresDe [Entrada.vacio] = [] := rfl
  rw [nombresDe_set (List.getElem?_eq_some_iff.mp hx).1, nombresDe_partes hx, hlibre,
    nombresDe_ocupada hy]
  exact List.perm_middle

/-- A slot that is freed takes its name away. -/
theorem nombresDe_liberar (hx : es[i]? = some x) :
    (nombresDe (es.set i .vacio)).Sublist (nombresDe es) := by
  have hlibre : nombresDe [Entrada.vacio] = [] := rfl
  rw [nombresDe_set (List.getElem?_eq_some_iff.mp hx).1, nombresDe_partes hx, hlibre]
  exact (List.sublist_append_right _ _).append_left _

theorem nombre_compacta (e : Entrada) : e.compacta.nombre = e.nombre := by
  cases e with
  | archivo a => rw [compacta_archivo]; rfl
  | directorio d => rw [compacta_directorio, directorioCompacto_eq]; rfl
  | _ => rw [Entrada.compacta]

theorem nombresDe_compactas (es : List Entrada) :
    nombresDe (ocupadasCompactas es) = nombresDe es := by
  have hocupada : Entrada.ocupada ∘ Entrada.compacta = Entrada.ocupada := funext ocupada_compacta
  have hnombre : Entrada.nombre ∘ Entrada.compacta = Entrada.nombre := funext nombre_compacta
  rw [ocupadasCompactas_eq, nombresDe, List.filter_map, hocupada, List.map_map, hnombre,
    List.filter_filter, nombresDe]
  simp only [Bool.and_self]

end Nombres

namespace EntradaDirectorioDe

variable {d d' : EntradaDirectorio} {ahora : UInt64} {i : ℕ} {x nueva : Entrada} {c : Cadena}

/-- The names of a directory are components of paths, and no two entries share one. -/
structure Nombrado (d : EntradaDirectorio) : Prop where
  distintos : (nombresDe d.entradas).Nodup
  componentes : ∀ c ∈ nombresDe d.entradas, c ≠ [] ∧ barra ∉ c ∧ c.length < maximoPath

theorem Nombrado.of_nombres (h : d.Nombrado) (heq : nombresDe d'.entradas = nombresDe d.entradas) :
    d'.Nombrado := by
  obtain ⟨hdistintos, hcomponentes⟩ := h
  rw [← heq] at hdistintos hcomponentes
  exact ⟨hdistintos, hcomponentes⟩

theorem Nombrado.distinto (h : d.Nombrado) : d.Distinto where
  nombrados e he hocupada :=
    (h.componentes e.nombre (mem_nombresDe.mpr ⟨e, he, Entrada.seLlama_iff.mpr ⟨hocupada, rfl⟩⟩)).1
  distintos := by
    have hpar : d.entradas.Pairwise fun x y ↦
        x.ocupada = true → y.ocupada = true → x.nombre ≠ y.nombre := by
      have hnodup := h.distintos
      rw [nombresDe, List.Nodup, List.pairwise_map, List.pairwise_filter] at hnodup
      exact hnodup
    have hno (i j : ℕ) (x y : Entrada) (c : Cadena) (hij : i < j) (hx : d.entradas[i]? = some x)
        (hy : d.entradas[j]? = some y) (hxc : x.seLlama c = true) : y.seLlama c ≠ true := by
      intro hyc
      obtain ⟨hi, rfl⟩ := List.getElem?_eq_some_iff.mp hx
      obtain ⟨hj, rfl⟩ := List.getElem?_eq_some_iff.mp hy
      obtain ⟨hxo, hxn⟩ := Entrada.seLlama_iff.mp hxc
      obtain ⟨hyo, hyn⟩ := Entrada.seLlama_iff.mp hyc
      exact List.pairwise_iff_getElem.mp hpar i j hi hj hij hxo hyo (hxn.trans hyn.symm)
    intro i j x y c hx hy hxc hyc
    rcases Nat.lt_trichotomy i j with hij | hij | hij
    · exact absurd hyc (hno i j x y c hij hx hy hxc)
    · exact hij
    · exact absurd hxc (hno j i y x c hij hy hx hyc)

theorem nombresDe_crecido (d : EntradaDirectorio) :
    nombresDe d.crecido.entradas = nombresDe d.entradas := by
  unfold crecido
  split
  · have hlibres (n : ℕ) : nombresDe (List.replicate n Entrada.vacio) = [] :=
      nombresDe_of_libres fun e he ↦ by rw [List.eq_of_mem_replicate he]; rfl
    rw [nombresDe_append, hlibres, List.append_nil]
  · rfl

/-- A new name keeps the others distinct. -/
theorem Nombrado.con (h : d.Nombrado) (hi : d.entradas[i]? = some .vacio)
    (hocupada : nueva.ocupada = true)
    (hnueva : nueva.nombre ≠ [] ∧ barra ∉ nueva.nombre ∧ nueva.nombre.length < maximoPath)
    (hlibre : d.ranura nueva.nombre = none) : (d.con ahora i nueva).crecido.Nombrado := by
  have hperm : (nombresDe (d.con ahora i nueva).entradas).Perm
      (nueva.nombre :: nombresDe d.entradas) := nombresDe_ocupar hi hocupada
  have hcon : (d.con ahora i nueva).Nombrado := by
    refine ⟨hperm.nodup_iff.mpr (List.nodup_cons.mpr ⟨?_, h.distintos⟩), fun c hc ↦ ?_⟩
    · intro hmem
      obtain ⟨e, he, hc⟩ := mem_nombresDe.mp hmem
      rw [ranura_none.mp hlibre e he] at hc
      cases hc
    · obtain rfl | hc := List.mem_cons.mp (hperm.mem_iff.mp hc)
      · exact hnueva
      · exact h.componentes c hc
  exact hcon.of_nombres (nombresDe_crecido _)

theorem Nombrado.sin (h : d.Nombrado) (hx : d.entradas[i]? = some x) : (d.sin ahora i).Nombrado := by
  have hmenos : (nombresDe (d.sin ahora i).entradas).Sublist (nombresDe d.entradas) :=
    nombresDe_liberar hx
  exact ⟨hmenos.nodup h.distintos, fun c hc ↦ h.componentes c (hmenos.subset hc)⟩

theorem Nombrado.compacto (h : d.Nombrado) : (directorioCompacto d).Nombrado := by
  apply h.of_nombres
  have hlibres (n : ℕ) : nombresDe (List.replicate n Entrada.vacio) = [] :=
    nombresDe_of_libres fun e he ↦ by rw [List.eq_of_mem_replicate he]; rfl
  rw [directorioCompacto_eq, nombresDe_append, nombresDe_compactas, hlibres, List.append_nil]

theorem nombrado_vacio (h : ∀ e ∈ d.entradas, e.ocupada = false) : d.Nombrado := by
  have hnada : nombresDe d.entradas = [] := nombresDe_of_libres h
  refine ⟨?_, ?_⟩
  · rw [hnada]
    exact List.nodup_nil
  · rw [hnada]
    exact nofun

/-- The listing of a directory in order is the list of the names in its vector. -/
theorem Sano.listado (h : d.Sano) :
    ((d.entradas.take d.cantidadEntradas.toNat).filter (!·.esVacio)).map Entrada.nombre =
      nombresDe d.entradas := by
  rw [← h.largo, List.take_length, nombresDe]
  congr 1
  apply List.filter_congr
  intro e he
  have hasignada := h.asignadas e he
  cases e with
  | nula => cases hasignada
  | indefinida => cases hasignada
  | _ => rfl

theorem mem_nombresDe_iff_ranura : c ∈ nombresDe d.entradas ↔ (d.ranura c).isSome = true := by
  rw [mem_nombresDe, ranura, List.findIdx?_isSome, List.any_eq_true]

end EntradaDirectorioDe

/-! ## The invariant of the tree -/

/-- The names of one entry. -/
def Entrada.Nombrada : Entrada → Prop
  | .directorio d => d.Nombrado
  | _ => True

theorem Entrada.Nombrada.superficial : Entrada.Superficial Entrada.Nombrada :=
  fun _ _ _ _ hd hx hs ↦ EntradaDirectorioDe.Nombrado.of_nombres hd (nombresDe_set_semejante hx hs)

theorem Entrada.Nombrada.intemporal : Entrada.Intemporal Entrada.Nombrada :=
  fun _ _ hd ↦ EntradaDirectorioDe.Nombrado.of_nombres hd rfl

theorem cada_nombrada_hoja {e : Entrada} (h : e.esDirectorio = false) : e.Cada Entrada.Nombrada := by
  rw [Entrada.cada_hoja h]
  cases e with
  | directorio => cases h
  | _ => trivial

theorem Nueva.nombrada {nueva : Entrada} {tam : UInt64} (h : Nueva nueva tam) :
    nueva.Cada Entrada.Nombrada := by
  cases h with
  | archivo => exact cada_nombrada_hoja rfl
  | directorio hexpandir =>
    obtain ⟨-, rfl⟩ := expandir_nuevo hexpandir
    have hlibres : ∀ e ∈ List.replicate 5 Entrada.vacio, e.esDirectorio = false ∧ e.ocupada = false := by
      intro e he
      rw [List.eq_of_mem_replicate he]
      exact ⟨rfl, rfl⟩
    rw [Entrada.cada_directorio]
    exact ⟨EntradaDirectorioDe.nombrado_vacio fun e he ↦ (hlibres e he).2,
      fun e he ↦ cada_nombrada_hoja (hlibres e he).1⟩

/-- Every vector of the tree is in order, and the names of every directory are distinct components of
paths. -/
structure Fs.EnLista (fs : Fs) : Prop where
  sana : fs.Cada Entrada.Sana
  nombrada : fs.Cada Entrada.Nombrada

namespace Fs

variable {fs fs' fs₁ : Fs} {ahora : UInt64} {u : Ubicacion} {d d' : EntradaDirectorio}

theorem EnLista.enOrden (h : fs.EnLista) : fs.EnOrden where
  sana := h.sana
  distinta u x hx := by
    have hnombrada := h.nombrada u x hx
    cases x with
    | directorio d => exact EntradaDirectorioDe.Nombrado.distinto hnombrada
    | _ => trivial

theorem EnLista.nombrado (h : fs.EnLista) (hu : fs.en u = some (.directorio d)) : d.Nombrado :=
  h.nombrada u _ hu

theorem EnLista.recorrido (h : fs.EnLista) (hrec : fs.Recorrido ahora fs') : fs'.EnLista where
  sana := (h.enOrden.recorrido hrec).sana
  nombrada := hrec.cada Entrada.Nombrada.superficial Entrada.Nombrada.intemporal h.nombrada

theorem EnLista.of_raiz (h : fs.EnLista) (hraiz : fs'.raiz = fs.raiz) : fs'.EnLista := by
  obtain ⟨hsana, hnombrada⟩ := h
  unfold Fs.Cada at hsana hnombrada
  rw [← hraiz] at hsana hnombrada
  exact ⟨hsana, hnombrada⟩

theorem EnLista.recontar (h : fs.EnLista) (viejo nuevo : UInt64) :
    (fs.recontar viejo nuevo).EnLista := h.of_raiz rfl

/-- Replacing a directory by another one in order whose slots are old ones, or new ones in order. -/
theorem EnLista.poner_directorio (h : fs.EnLista) (hu : fs.en u = some (.directorio d))
    (hnombre : d'.nombre = d.nombre) (hsano : d'.Sano) (hnombrado : d'.Nombrado)
    (hmem : ∀ e ∈ d'.entradas, e ∈ d.entradas ∨ e.Cada Entrada.Sana ∧ e.Cada Entrada.Nombrada) :
    (fs.poner u (.directorio d')).EnLista := by
  have hs : (Entrada.directorio d).Semejante (.directorio d') := by simp [hnombre]
  have hsanas := (Entrada.cada_directorio.mp (Entrada.Cada.en h.sana hu)).2
  have hnombradas := (Entrada.cada_directorio.mp (Entrada.Cada.en h.nombrada hu)).2
  constructor
  · apply h.sana.poner Entrada.Coherente.superficial hu hs
    rw [Entrada.cada_directorio]
    exact ⟨Entrada.sana_directorio.mpr hsano, fun e he ↦ (hmem e he).elim (hsanas e) And.left⟩
  · apply h.nombrada.poner Entrada.Nombrada.superficial hu hs
    rw [Entrada.cada_directorio]
    exact ⟨hnombrado, fun e he ↦ (hmem e he).elim (hnombradas e) And.right⟩

/-- Replacing a file by one that has its bytes. -/
theorem EnLista.poner_archivo {a a' : EntradaArchivo} (h : fs.EnLista)
    (hu : fs.en u = some (.archivo a)) (hnombre : a'.nombre = a.nombre)
    (hbytes : (fs.poner u (.archivo a')).Cada Entrada.Respaldada) :
    (fs.poner u (.archivo a')).EnLista := by
  have hs : (Entrada.archivo a).Semejante (.archivo a') := by simp [hnombre]
  have ha' : a'.Sano := hbytes u _ (Fs.en_poner_self hu hs)
  constructor
  · exact h.sana.poner Entrada.Coherente.superficial hu hs ((Entrada.cada_hoja rfl).mpr ha')
  · exact h.nombrada.poner Entrada.Nombrada.superficial hu hs (cada_nombrada_hoja rfl)

theorem EnLista.consulta (h : fs.EnLista) (hconsulta : fs.Consulta ahora fs') : fs'.EnLista := by
  have hbytes : fs'.Cada Entrada.Respaldada :=
    (@Fs.Consulta.pasa 0 _ _ _ hconsulta false).respaldada fun u x hx ↦ (h.sana u x hx).respaldada
  obtain ⟨fs₁, hrec, rfl | ⟨u, x, y, hx, hxy, rfl⟩⟩ := hconsulta
  · exact h.recorrido hrec
  · have hfs₁ := h.recorrido hrec
    cases hxy with
    | archivo a hsize => exact hfs₁.poner_archivo hx rfl hbytes
    | directorio d st =>
      have hnombre : ({ d with st } : EntradaDirectorio).nombre = d.nombre := rfl
      apply hfs₁.poner_directorio hx hnombre
      · exact Entrada.sana_directorio.mp
          (Entrada.Coherente.intemporal d st (hfs₁.sana _ _ hx))
      · exact (hfs₁.nombrado hx).of_nombres rfl
      · exact fun e he ↦ .inl he

/-- A directory that gives a slot up stays in order. -/
theorem EnLista.quitar {i : ℕ} {x : Entrada} {tam : UInt64} (h : fs.EnLista)
    (hu : fs.en u = some (.directorio d)) (hx : d.entradas[i]? = some x)
    (hocupada : x.ocupada = true) :
    ((fs.poner u (.directorio (d.sin ahora i))).restar tam).EnLista := by
  have hponer : (fs.poner u (.directorio (d.sin ahora i))).EnLista := by
    have hnombre : (d.sin ahora i).nombre = d.nombre := rfl
    apply h.poner_directorio hu hnombre
    · exact (h.enOrden.sano hu).sin hx hocupada
    · exact (h.nombrado hu).sin hx
    · intro e he
      obtain he | rfl := List.mem_or_eq_of_mem_set he
      · exact .inl he
      · exact .inr ⟨cada_desocupada rfl, cada_nombrada_hoja rfl⟩
  exact hponer.of_raiz rfl

/-- A directory that takes a new name stays in order. -/
theorem EnLista.colocar {i : ℕ} {nueva : Entrada} {tam : UInt64} (h : fs.EnLista)
    (hu : fs.en u = some (.directorio d)) (hi : d.entradas[i]? = some .vacio)
    (hnueva : Nueva nueva tam)
    (hnombre : nueva.nombre ≠ [] ∧ barra ∉ nueva.nombre ∧ nueva.nombre.length < maximoPath)
    (hlibre : d.ranura nueva.nombre = none) (hsano : (d.con ahora i nueva).crecido.Sano) :
    ((fs.poner u (.directorio (d.con ahora i nueva).crecido)).sumar tam).EnLista := by
  have hponer : (fs.poner u (.directorio (d.con ahora i nueva).crecido)).EnLista := by
    have hmismo : (d.con ahora i nueva).crecido.nombre = d.nombre := by
      unfold EntradaDirectorioDe.crecido
      split <;> rfl
    apply h.poner_directorio hu hmismo hsano
    · exact (h.nombrado hu).con hi hnueva.ocupada hnombre hlibre
    · intro e he
      obtain ⟨j, hj⟩ := List.mem_iff_getElem?.mp he
      obtain hj | rfl := EntradaDirectorioDe.getElem?_crecido hj
      · obtain he | rfl := List.mem_or_eq_of_mem_set (List.mem_of_getElem? hj)
        · exact .inl he
        · exact .inr ⟨hnueva.cada, hnueva.nombrada⟩
      · exact .inr ⟨cada_desocupada rfl, cada_nombrada_hoja rfl⟩
  exact hponer.of_raiz rfl

theorem EnLista.compacto (h : fs.EnLista) : fs.compacto.EnLista := by
  refine ⟨Fs.cada_compacto h.sana, ?_⟩
  have hcada (e : Entrada) (he : e.Cada Entrada.Nombrada) : e.compacta.Cada Entrada.Nombrada := by
    induction e using Entrada.induccion with
    | archivo a =>
      rw [compacta_archivo]
      exact cada_nombrada_hoja rfl
    | directorio d ih =>
      obtain ⟨hd, hhijos⟩ := Entrada.cada_directorio.mp he
      rw [compacta_directorio]
      rw [Entrada.cada_directorio]
      refine ⟨EntradaDirectorioDe.Nombrado.compacto hd, fun x hx ↦ ?_⟩
      rw [directorioCompacto_eq, List.mem_append] at hx
      obtain hx | hx := hx
      · rw [ocupadasCompactas_eq] at hx
        obtain ⟨y, hy, rfl⟩ := List.mem_map.mp hx
        have hy := (List.mem_filter.mp hy).1
        exact ih y hy (hhijos y hy)
      · rw [List.eq_of_mem_replicate hx]
        exact cada_nombrada_hoja rfl
    | _ =>
      rw [Entrada.compacta]
      exact he
  have hraiz := hcada (.directorio fs.raiz) h.nombrada
  rw [compacta_directorio] at hraiz
  exact hraiz

end Fs

/-! ## Runs -/

/-- The call creates an entry at a normalised path that leads to nothing, or it creates none. -/
def Evento.CreaLibre (e : Evento) (s : Sistema) : Prop :=
  ∀ c : Creacion, c.llamada = e.llamada → ∃ p : Ruta, c.path = p.texto ∧
    (∀ x ∈ p, x ≠ [] ∧ barra ∉ x) ∧
    ∃ fs, encontrarEntrada e.ent.ahora c.path s.fs = .ok (fs, none)

/-- The call creates an entry that takes the last free slot of its directory, and there is no memory for
the larger vector. -/
def Evento.Malogra (e : Evento) (max : UInt64) (s : Sistema) : Prop :=
  ∃ c : Creacion, c.llamada = e.llamada ∧ c.Malogra max e.ent s.fs ⟨e.respuestas, false⟩

/-- A step of the process that creates entries only where there are none. -/
def PasoLibre (max : UInt64) (s : Sistema) (e : Evento) (s' : Sistema) : Prop :=
  Paso max s e s' ∧ e.CreaLibre s

/-- The invariant of the process: the tree is in order, and so is the one that the persistence file
holds, whole or cut short. -/
structure Sistema.EnLista (s : Sistema) : Prop where
  arbol : s.fs.EnLista
  disco : ∀ datos, s.disco = some datos →
    ∃ (punt : ℕ → UInt64) (fs : Fs), fs.EnLista ∧ datos <+: imagenFs punt fs

section Pasos

variable {max : UInt64} {ent : Entorno} {fs fs' : Fs} {m m' : Memoria} {r : ℤ} {p : Ruta}

theorem obtenerDirectorioPath_corto {path pd : Cadena} (h : obtenerDirectorioPath path = .ok pd) :
    path.length < maximoPath := by
  rw [obtenerDirectorioPath, strcpy] at h
  split at h
  · assumption
  · cases h

theorem Creacion.enLista {c : Creacion} {fs₀ : Fs} (hfs : fs.EnLista) (hpath : c.path = p.texto)
    (hp : ∀ x ∈ p, x ≠ [] ∧ barra ∉ x)
    (hlibre : encontrarEntrada ent.ahora c.path fs = .ok (fs₀, none))
    (hno : ¬ c.Malogra max ent fs m) (h : c.op max ent fs m = .ok ((r, fs'), m')) : fs'.EnLista := by
  obtain hrec | ⟨fs₁, u, d, nueva, i, hbusca, hnueva, hi, hsano, rfl⟩ :=
    Creacion.op_logra hfs.sana hno h
  · exact hfs.recorrido hrec
  rw [hpath] at hbusca hlibre
  have hnormal : p.Normal := by
    obtain ⟨pd, -, -, hpd, -⟩ := buscarDirectorio_ok hbusca
    exact ⟨hp, obtenerDirectorioPath_corto hpd⟩
  have hnada : fs.nodo p = none := by
    obtain ⟨fs₂, htexto⟩ := @Fs.encontrarEntrada_texto fs ent.ahora p hfs.sana hnormal
    rw [htexto] at hlibre
    exact Fs.ubicar_eq_none.mp (congrArg Prod.snd (Except.ok.inj hlibre))
  obtain rfl | ⟨p, x, rfl⟩ := List.eq_nil_or_concat p
  · cases hnada
  rw [List.concat_eq_append] at hbusca hnormal hnada
  obtain ⟨hnombre, hrec, hubica, hu⟩ := buscarDirectorio_padre hfs.enOrden.sana hnormal hbusca
  have hlibre : d.ranura nueva.nombre = none := by
    rw [hnombre]
    exact Fs.ranura_of_libre ((hrec.ubicar p).trans hubica) hu ((hrec.nodo _).trans hnada)
  have hultimo := hnormal.ultimo
  rw [← hnombre] at hultimo
  exact (hfs.recorrido hrec).colocar hu hi hnueva hultimo hlibre hsano

/-- The entry that a removal takes away is one of its directory. -/
theorem Halla.enLista {esDelTipo : Entrada → Bool} {path : Cadena} {fs₁ : Fs} {u : Ubicacion}
    {d : EntradaDirectorio} {i : ℕ} {x : Entrada} {tam : UInt64} (hfs : fs.EnLista)
    (htipo : ∀ e, esDelTipo e = true → e.ocupada = true)
    (h : Halla esDelTipo ent.ahora path fs fs₁ u d i x) :
    ((fs₁.poner u (.directorio (d.sin ent.ahora i))).restar tam).EnLista := by
  obtain ⟨hrec, hu⟩ := h.en
  obtain ⟨-, -, -, hx⟩ := id h
  exact (hfs.recorrido hrec).quitar hu hx (htipo x h.delTipo)

theorem crearDirectorioRaiz_enLista (h : crearDirectorioRaiz ent m = .ok (fs, m')) : fs.EnLista := by
  obtain ⟨-, -, nombre, st, -, hraiz, -⟩ := crearDirectorioRaiz_ok h
  refine ⟨crearDirectorioRaiz_cada h, ?_⟩
  have hlibres : ∀ e ∈ fs.raiz.entradas, e = .vacio := by
    intro e he
    rw [hraiz] at he
    exact List.eq_of_mem_replicate he
  rw [Fs.Cada, Entrada.cada_directorio]
  refine ⟨EntradaDirectorioDe.nombrado_vacio fun e he ↦ ?_, fun e he ↦ ?_⟩
  · rw [hlibres e he]
    rfl
  · rw [hlibres e he]
    exact cada_nombrada_hoja rfl

/-- Every step keeps the trees in order, unless it spoils a vector. -/
theorem ejecutar_enLista {s : Sistema} {e : Evento} {res : Resultado} (hs : s.EnLista)
    (hlibre : e.CreaLibre s) (hno : ¬ e.Malogra max s) (h : ejecutar max e s = .ok res) :
    res.sistema.EnLista := by
  obtain ⟨harbol, hdisco⟩ := hs
  have hrespaldada : s.fs.Cada Entrada.Respaldada := fun u x hx ↦ (harbol.sana u x hx).respaldada
  have hcrea (c : Creacion) (hllamada : c.llamada = e.llamada) {m' : Memoria}
      (hop : c.op max e.ent s.fs ⟨e.respuestas, false⟩ = .ok ((res.ret, res.sistema.fs), m')) :
      res.sistema.fs.EnLista := by
    obtain ⟨p, hpath, hp, fs₀, hnada⟩ := hlibre c hllamada
    exact Creacion.enLista harbol hpath hp hnada (fun hsi ↦ hno ⟨c, hllamada, hsi⟩) hop
  cases ejecutar_efecto h with
  | @flush path punt abre cupo hllamada hagotada hfs hflush =>
    refine ⟨hfs ▸ harbol, fun datos hdatos ↦ ?_⟩
    obtain ⟨-, -, higual⟩ | ⟨⟨k, hk⟩, -⟩ := fisopfsFlush_ok hflush
    · exact hdisco datos (higual ▸ hdatos)
    · rw [hk] at hdatos
      cases hdatos
      exact ⟨punt, s.fs, harbol, List.take_prefix k _⟩
  | init hllamada higual hinit =>
    refine ⟨?_, higual ▸ hdisco⟩
    cases hd : s.disco with
    | none =>
      rw [hd] at hinit
      exact crearDirectorioRaiz_enLista hinit
    | some datos =>
      obtain ⟨punt, fs, hfs, hprefijo⟩ := hdisco datos hd
      rw [hd] at hinit
      rw [fisopfsInit_imagen hfs.sana hprefijo hinit]
      exact hfs.compacto
  | consulta hunlink higual hconsulta => exact ⟨harbol.consulta hconsulta, higual ▸ hdisco⟩
  | @mkdir path mode m' hllamada higual hagotada hop =>
    exact ⟨hcrea (.mkdir path mode) hllamada.symm hop, higual ▸ hdisco⟩
  | @create path mode m' hllamada higual hagotada hop =>
    exact ⟨hcrea (.create path mode) hllamada.symm hop, higual ▸ hdisco⟩
  | unlink hllamada higual hagotada hop =>
    refine ⟨?_, higual ▸ hdisco⟩
    obtain ⟨-, hrec, -⟩ | ⟨fs₁, u, d, i, a, -, hhalla, hfs⟩ := fisopfsUnlink_ok hop
    · exact harbol.recorrido hrec
    · exact hfs ▸ hhalla.enLista harbol ocupada_of_esArchivo
  | rmdir hllamada higual hagotada hop =>
    refine ⟨?_, higual ▸ hdisco⟩
    obtain ⟨-, hrec, -⟩ | ⟨fs₁, u, d, i, x, -, hhalla, -, hfs⟩ := fisopfsRmdir_ok hop
    · exact harbol.recorrido hrec
    · exact hfs ▸ hhalla.enLista harbol ocupada_of_esDirectorio
  | truncate hllamada higual hagotada hop =>
    refine ⟨?_, higual ▸ hdisco⟩
    have hbytes := (fisopfsTruncate_pasa hop).respaldada hrespaldada
    obtain ⟨-, hrec⟩ | ⟨fs₁, u, a, contenido, -, hencuentra, hu, hfs, -⟩ := fisopfsTruncate_ok hop
    · exact harbol.recorrido hrec
    · have hrec := harbol.recorrido (encontrarEntrada_recorrido hencuentra)
      rw [hfs, ponerTamano] at hbytes ⊢
      exact (hrec.recontar _ _).poner_archivo hu rfl hbytes
  | write hllamada higual hagotada hop =>
    refine ⟨?_, higual ▸ hdisco⟩
    have hbytes := (fisopfsWrite_pasa hop).respaldada hrespaldada
    obtain ⟨-, hrec⟩ | ⟨fs₁, u, a, contenido, -, hencuentra, hu, -, hfs⟩ := fisopfsWrite_ok hop
    · exact harbol.recorrido hrec
    · have hrec := harbol.recorrido (encontrarEntrada_recorrido hencuentra)
      obtain ⟨-, hfs⟩ | ⟨-, -, -, hfs⟩ := hfs
      · rw [hfs] at hbytes ⊢
        exact hrec.poner_archivo hu rfl hbytes
      · rw [hfs] at hbytes ⊢
        exact (hrec.recontar _ _).poner_archivo hu rfl hbytes

end Pasos

/-! ## Listings and lookups -/

/-- What `fisopfs_readdir` passes to the filler for a directory, after the two dots, is every name that
leads to something in it, once. -/
def Fs.Lista (fs : Fs) (d : Ruta) : Prop :=
  ∃ nombres : List Cadena, nombres.Nodup ∧ (∀ n ∈ nombres, n ≠ [] ∧ barra ∉ n) ∧
    (∀ ent m, ∃ fs', fisopfsReaddir ent d.texto fs m =
      .ok ((0, [punto] :: [punto, punto] :: nombres, fs'), m)) ∧
    ∀ n ahora, n ≠ [] → barra ∉ n → (n ∈ nombres ↔
      ∃ fs' u, encontrarEntrada ahora (Ruta.texto (d ++ [n])) fs = .ok (fs', some u))

section Listado

variable {ent : Entorno} {fs fs₁ : Fs} {m : Memoria} {ahora : UInt64} {p : Ruta} {c : Cadena}
  {u : Ubicacion} {d : EntradaDirectorio}

theorem fisopfsReaddir_directorio {path : Cadena} (hpath : path.length ≤ maximoPath)
    (hencuentra : encontrarEntrada ent.ahora path fs = .ok (fs₁, some u))
    (hu : fs₁.en u = some (.directorio d)) (hd : d.Sano) (m : Memoria) :
    fisopfsReaddir ent path fs m = .ok ((0, [punto] :: [punto, punto] :: nombresDe d.entradas,
      fs₁.poner u (.directorio (d.accedido ent.ahora))), m) := by
  have hapuntada : fs₁.apuntada (some u) = .ok (.directorio d) := Fs.apuntada_ok.mpr ⟨u, rfl, hu⟩
  have hvuelta : primera (fun _ ↦ false) d.cantidadEntradas.toNat d.entradas =
      .ok (d.entradas.findIdx? fun _ ↦ false) := by
    rw [← hd.largo]
    exact primera_eq_findIdx? hd.asignadas
  unfold fisopfsReaddir
  rw [if_neg (Nat.not_lt.mpr hpath), StateT.bind_of_ok (StateT.lift_of_ok hencuentra)]
  dsimp only
  rw [StateT.bind_of_ok (StateT.lift_of_ok hapuntada)]
  dsimp only
  rw [StateT.bind_of_ok (StateT.lift_of_ok hvuelta), hd.listado]
  rfl

/-- The names in a directory are the ones that lead to something. -/
theorem Fs.mem_nombresDe_iff (hp : fs.ubicar p = some u) (hu : fs.en u = some (.directorio d)) :
    c ∈ nombresDe d.entradas ↔ ∃ v, fs.ubicar (p ++ [c]) = some v := by
  constructor
  · intro hc
    obtain ⟨i, hi⟩ := Option.isSome_iff_exists.mp (EntradaDirectorioDe.mem_nombresDe_iff_ranura.mp hc)
    obtain ⟨x, hx, hxc⟩ := EntradaDirectorioDe.ranura_some hi
    have hnodo : fs.nodo (p ++ [c]) = x.nodo [] := by
      rw [Fs.nodo_append hp hu, Entrada.nodo_cons, hi, Option.bind_some, hx, Option.bind_some]
    cases hv : fs.ubicar (p ++ [c]) with
    | some v => exact ⟨v, rfl⟩
    | none =>
      have hsome := Entrada.nodo_nil_isSome x
      rw [← hnodo, Fs.ubicar_eq_none.mp hv, (Entrada.seLlama_iff.mp hxc).1] at hsome
      cases hsome
  · rintro ⟨v, hv⟩
    rw [EntradaDirectorioDe.mem_nombresDe_iff_ranura, Option.isSome_iff_ne_none]
    intro hnone
    have hnodo : fs.nodo (p ++ [c]) = none := by
      rw [Fs.nodo_append hp hu, Entrada.nodo_cons, hnone, Option.bind_none]
    rw [← Fs.ubicar_eq_none, hv] at hnodo
    cases hnodo

/-- In a tree in order the listing of a directory agrees with the lookups in it. -/
theorem Fs.EnLista.lista (hfs : fs.EnLista) (hp : ∀ c ∈ p, c ≠ [] ∧ barra ∉ c)
    (hcorto : p.texto.length ≤ maximoPath) (hubica : fs.ubicar p = some u)
    (hu : fs.en u = some (.directorio d)) : fs.Lista p := by
  have hbreve := Ruta.breve_of_length hp hcorto
  have hnombrado := hfs.nombrado hu
  refine ⟨nombresDe d.entradas, hnombrado.distintos,
    fun n hn ↦ ⟨(hnombrado.componentes n hn).1, (hnombrado.componentes n hn).2.1⟩,
    fun ent m ↦ ?_, fun n ahora hvacio hbarra ↦ ?_⟩
  · obtain ⟨fs₁, hencuentra⟩ := @Fs.encontrarEntrada_breve fs ent.ahora p hfs.sana hbreve
    rw [hubica] at hencuentra
    have hrec := encontrarEntrada_recorrido hencuentra
    have hubica₁ : fs₁.ubicar p = some u := (hrec.ubicar p).trans hubica
    obtain ⟨x, hx, -⟩ := Fs.en_of_ubicar hubica₁
    have hnodo : x.nodo [] = some .directorio := by
      rw [← Fs.nodo_of_ubicar hubica₁ hx, hrec.nodo, Fs.nodo_of_ubicar hubica hu]
      rfl
    cases x with
    | directorio e =>
      obtain ⟨e', he', hmismos⟩ := hrec.en_directorio (fun d ↦ nombresDe d.entradas)
        (fun _ _ ↦ rfl) (fun _ _ _ _ hx hs ↦ nombresDe_set_semejante hx hs) hx
      rw [hu] at he'
      cases he'
      have hsano := (hfs.recorrido hrec).enOrden.sano hx
      rw [← hmismos]
      exact ⟨_, fisopfsReaddir_directorio hcorto hencuentra hx hsano m⟩
    | _ => cases hnodo
  · rw [Fs.mem_nombresDe_iff hubica hu]
    have hnormal : ∀ c ∈ p ++ [n], c ≠ [] ∧ barra ∉ c := by
      intro c hc
      obtain hc | hc := List.mem_append.mp hc
      · exact hp c hc
      · exact List.mem_singleton.mp hc ▸ ⟨hvacio, hbarra⟩
    constructor
    · rintro ⟨v, hv⟩
      have hn := hnombrado.componentes n ((Fs.mem_nombresDe_iff hubica hu).mpr ⟨v, hv⟩)
      have hbreve' : Ruta.Breve (p ++ [n]) := by
        intro c hc
        obtain hc | hc := List.mem_append.mp hc
        · exact hbreve c hc
        · exact List.mem_singleton.mp hc ▸ hn
      obtain ⟨fs₁, hencuentra⟩ := @Fs.encontrarEntrada_breve fs ahora _ hfs.sana hbreve'
      rw [hv] at hencuentra
      exact ⟨fs₁, v, hencuentra⟩
    · rintro ⟨fs₁, v, hencuentra⟩
      have hbreve' := breve_of_encontrada hnormal hencuentra
      obtain ⟨fs₂, htexto⟩ := @Fs.encontrarEntrada_breve fs ahora _ hfs.sana hbreve'
      rw [htexto] at hencuentra
      exact ⟨v, congrArg Prod.snd (Except.ok.inj hencuentra)⟩

/-- Along every run that creates entries only where there are none and spoils no vector, the listing of
each directory agrees with the lookups in it: through deletions, reused slots and reloads. -/
theorem listado_de_busqueda (max : UInt64) {s s' : Sistema} {es : List Evento} (hini : s.Inicial)
    (hrun : Run (fun a e b ↦ PasoLibre max a e b ∧ ¬ e.Malogra max a) s es s')
    (hp : ∀ c ∈ p, c ≠ [] ∧ barra ∉ c) (hcorto : p.texto.length ≤ maximoPath)
    (hencuentra : encontrarEntrada ahora p.texto s'.fs = .ok (fs₁, some u))
    (hu : fs₁.en u = some (.directorio d)) : s'.fs.Lista p := by
  have hinicial : s.EnLista := by
    obtain ⟨hdisco, ent, m, m', hraiz⟩ := hini
    refine ⟨crearDirectorioRaiz_enLista hraiz, fun datos hdatos ↦ ?_⟩
    rw [hdisco] at hdatos
    cases hdatos
  have hfs : s'.fs.EnLista := by
    have hfinal : s'.EnLista := by
      refine hrun.invariant (fun a e b ha hpaso ↦ ?_) hinicial
      obtain ⟨⟨⟨r, hr, rfl⟩, hlibre⟩, hno⟩ := hpaso
      exact ejecutar_enLista ha hlibre hno hr
    exact hfinal.arbol
  obtain ⟨fs₂, htexto⟩ :=
    @Fs.encontrarEntrada_breve s'.fs ahora p hfs.sana (Ruta.breve_of_length hp hcorto)
  have hubica : s'.fs.ubicar p = some u := by
    rw [htexto] at hencuentra
    exact congrArg Prod.snd (Except.ok.inj hencuentra)
  obtain ⟨e, he, -⟩ := (encontrarEntrada_recorrido hencuentra).en_directorio
    (fun d ↦ nombresDe d.entradas) (fun _ _ ↦ rfl)
    (fun _ _ _ _ hx hs ↦ nombresDe_set_semejante hx hs) hu
  exact hfs.lista hp hcorto hubica he

end Listado

/-! ## Runs on fixed calls -/

/-- Whether the creation of the call, if it is one, is at a normalised path that leads to nothing. -/
def Evento.libre (e : Evento) (s : Sistema) : Bool :=
  let nada (path : Cadena) : Bool :=
    let p : Ruta := (path.drop 1).splitOn barra
    decide (path = p.texto) && p.all (fun c ↦ !c.isEmpty && decide (barra ∉ c)) &&
      match encontrarEntrada e.ent.ahora path s.fs with
      | .ok (_, none) => true
      | _ => false
  match e.llamada with
  | .mkdir path _ => nada path
  | .create path _ => nada path
  | _ => true

/-- The system after calls that are refused nothing and create entries only where there are none. -/
def correrLibre (max : UInt64) : List Evento → Sistema → Option Sistema
  | [], s => some s
  | e :: es, s =>
    match ejecutar max e s with
    | .ok r => if e.libre s && !r.agotada then correrLibre max es r.sistema else none
    | .error _ => none

theorem Evento.creaLibre_of_libre {e : Evento} {s : Sistema} (h : e.libre s = true) :
    e.CreaLibre s := by
  obtain ⟨ent, respuestas, llamada⟩ := e
  have hnada {path : Cadena} {p : Ruta}
      (h : (decide (path = p.texto) && p.all (fun c ↦ !c.isEmpty && decide (barra ∉ c)) &&
        match encontrarEntrada ent.ahora path s.fs with
        | .ok (_, none) => true
        | _ => false) = true) :
      ∃ p : Ruta, path = p.texto ∧ (∀ x ∈ p, x ≠ [] ∧ barra ∉ x) ∧
        ∃ fs, encontrarEntrada ent.ahora path s.fs = .ok (fs, none) := by
    simp only [Bool.and_eq_true, decide_eq_true_eq, List.all_eq_true, Bool.not_eq_true',
      List.isEmpty_eq_false_iff] at h
    obtain ⟨⟨hpath, hp⟩, hlibre⟩ := h
    refine ⟨p, hpath, hp, ?_⟩
    split at hlibre
    next fs hfs => exact ⟨fs, hfs⟩
    · cases hlibre
  intro c hc
  cases c with
  | mkdir path mode =>
    cases hc
    exact hnada h
  | create path mode =>
    cases hc
    exact hnada h

theorem ejecutar_not_malogra {max : UInt64} {e : Evento} {s : Sistema} {r : Resultado}
    (h : ejecutar max e s = .ok r) (hservido : r.agotada = false) : ¬ e.Malogra max s := by
  obtain ⟨ent, respuestas, llamada⟩ := e
  rintro ⟨c, hc, hmalogra⟩
  cases c with
  | mkdir path mode =>
    cases hc
    obtain ⟨m', hop, hagotada⟩ := Sistema.con_ok h
    exact @Creacion.not_malogra_of_servido _ _ _ _ _ _ _ (.mkdir path mode) hop
      (hagotada.trans hservido) hmalogra
  | create path mode =>
    cases hc
    obtain ⟨m', hop, hagotada⟩ := Sistema.con_ok h
    exact @Creacion.not_malogra_of_servido _ _ _ _ _ _ _ (.create path mode) hop
      (hagotada.trans hservido) hmalogra

theorem run_correrLibre {max : UInt64} {es : List Evento} {s s' : Sistema}
    (h : correrLibre max es s = some s') :
    Run (fun a e b ↦ PasoLibre max a e b ∧ ¬ e.Malogra max a) s es s' := by
  induction es generalizing s with
  | nil =>
    cases h
    exact .nil _
  | cons e es ih =>
    rw [correrLibre] at h
    cases hr : ejecutar max e s with
    | error f =>
      rw [hr] at h
      cases h
    | ok r =>
      simp only [hr] at h
      split at h
      next hsi =>
        obtain ⟨hlibre, hservido⟩ := Bool.and_eq_true_iff.mp hsi
        have hno := ejecutar_not_malogra hr (by simpa using hservido)
        exact .cons ⟨⟨⟨r, hr, rfl⟩, Evento.creaLibre_of_libre hlibre⟩, hno⟩ (ih h)
      · cases h

/-- A slot of the root that is used again, and a reload. -/
theorem listado_de_busqueda_recargado : ∃ s es s', s.Inicial ∧
    Run (fun a e b ↦ PasoLibre 10000 a e b ∧ ¬ e.Malogra 10000 a) s es s' ∧ s'.fs.Lista [] := by
  have hcorre : (correrLibre 10000 [(Llamada.create [barra, punto] 0o100644).simple,
      (Llamada.unlink [barra, punto]).simple, (Llamada.mkdir [barra, punto, punto] 0).simple,
      (Llamada.flush [barra] (fun _ ↦ 0) true none).simple, Llamada.init.simple]
      (Sistema.nuevo ⟨0, 0, 0, fun _ ↦ 0⟩)).isSome = true := by
    decide +kernel
  obtain ⟨s', hs'⟩ := Option.isSome_iff_exists.mp hcorre
  have hrun := run_correrLibre hs'
  have hencuentra : encontrarEntrada 0 (Ruta.texto []) s'.fs = .ok (s'.fs, some []) := rfl
  exact ⟨_, _, s', Sistema.nuevo_inicial _, hrun,
    listado_de_busqueda 10000 (Sistema.nuevo_inicial _) hrun nofun (by decide) hencuentra
      (Entrada.en_nil _)⟩

/-- The fifth file of the root, with memory for the file but not for the larger vector: the call fails,
and the listing of the root reads past the end of its vector. -/
theorem listado_de_busqueda_malogrado : ∃ s es s' fs d, s.Inicial ∧ Run (PasoLibre 100000) s es s' ∧
    encontrarEntrada 0 (Ruta.texto []) s'.fs = .ok (fs, some []) ∧
    fs.en [] = some (.directorio d) ∧
    fisopfsReaddir ⟨0, 0, 0, fun _ ↦ 0⟩ (Ruta.texto []) s'.fs ⟨[], false⟩ = .error .fueraDeRango ∧
    ¬ s'.fs.Lista [] := by
  have hcorre : (correrLibre 100000
      ((List.range 4).map fun i ↦
        (Llamada.create (barra :: List.replicate (i + 1) punto) 0o100644).simple)
      (Sistema.nuevo ⟨0, 0, 0, fun _ ↦ 0⟩)).any (fun s ↦
        let quinta : Evento := ⟨⟨0, 0, 0, fun _ ↦ 0⟩, [true, false],
          .create (barra :: List.replicate 5 punto) 0o100644⟩
        quinta.libre s && match ejecutar 100000 quinta s with
        | .ok r =>
          match fisopfsReaddir ⟨0, 0, 0, fun _ ↦ 0⟩ (Ruta.texto []) r.sistema.fs ⟨[], false⟩ with
          | .error f => f == .fueraDeRango
          | .ok _ => false
        | .error _ => false) = true := by
    decide +kernel
  obtain ⟨s₄, hs₄, hfinal⟩ := (Option.any_eq_true _ _).mp hcorre
  obtain ⟨hlibre, hfinal⟩ := Bool.and_eq_true_iff.mp hfinal
  split at hfinal
  next r hr =>
    split at hfinal
    next f hreaddir =>
      rw [beq_iff_eq] at hfinal
      subst hfinal
      have hcuatro := (run_correrLibre hs₄).mono fun _ _ _ h ↦ h.1
      have hquinta := hcuatro.append (.single ⟨⟨r, hr, rfl⟩, Evento.creaLibre_of_libre hlibre⟩)
      refine ⟨_, _, r.sistema, _, _, Sistema.nuevo_inicial _, hquinta, rfl, Entrada.en_nil _,
        hreaddir, ?_⟩
      rintro ⟨nombres, -, -, hlista, -⟩
      obtain ⟨fs', hok⟩ := hlista ⟨0, 0, 0, fun _ ↦ 0⟩ ⟨[], false⟩
      rw [hreaddir] at hok
      cases hok
    · cases hfinal
  · cases hfinal

end SistemasOperativos.FisopFs
