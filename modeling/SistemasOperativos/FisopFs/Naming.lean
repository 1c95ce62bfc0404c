import SistemasOperativos.FisopFs.Resolution

/-!
# Adding and removing names

What the slots of a directory name after an entry has been placed in it, through the doubling of its
vector, and after one has been removed; and from it what the paths of the whole tree name. Both keep
the names of every directory distinct.
-/

namespace SistemasOperativos.FisopFs

variable {ahora : UInt64} {c : Cadena} {i : ℕ} {x nueva : Entrada}

/-! ## One directory -/

namespace EntradaDirectorioDe

variable {d : EntradaDirectorio}

theorem seLlama_vacio (c : Cadena) : Entrada.vacio.seLlama c = false := rfl

/-- The slots that doubling adds to a vector have no name. -/
theorem getElem?_crecido {j : ℕ} {y : Entrada} (h : d.crecido.entradas[j]? = some y) :
    d.entradas[j]? = some y ∨ y = .vacio := by
  unfold crecido at h
  split at h
  · rw [List.getElem?_append] at h
    split at h
    · exact .inl h
    · exact .inr (List.eq_of_mem_replicate (List.mem_of_getElem? h))
  · exact .inl h

theorem crecido_getElem? {j : ℕ} {y : Entrada} (h : d.entradas[j]? = some y) :
    d.crecido.entradas[j]? = some y := by
  have hlt : j < d.entradas.length := (List.getElem?_eq_some_iff.mp h).1
  unfold crecido
  split
  · rw [List.getElem?_append_left hlt]
    exact h
  · exact h

theorem ranura_crecido (d : EntradaDirectorio) (c : Cadena) : d.crecido.ranura c = d.ranura c := by
  unfold crecido
  split
  · simp [ranura, List.findIdx?_append, List.findIdx?_replicate, seLlama_vacio]
  · rfl

theorem Distinto.crecido (h : d.Distinto) : d.crecido.Distinto where
  nombrados e he hocupada := by
    obtain ⟨j, hj⟩ := List.mem_iff_getElem?.mp he
    obtain hj | rfl := getElem?_crecido hj
    · exact h.nombrados e (List.mem_of_getElem? hj) hocupada
    · cases hocupada
  distintos j k y z c hy hz hyc hzc := by
    obtain hy | rfl := getElem?_crecido hy
    · obtain hz | rfl := getElem?_crecido hz
      · exact h.distintos j k y z c hy hz hyc hzc
      · cases hzc
    · cases hyc

/-- The new entry is the only one with its name. -/
theorem Distinto.con (h : d.Distinto) (hi : d.entradas[i]? = some .vacio)
    (hnombre : nueva.nombre ≠ []) (hlibre : d.ranura nueva.nombre = none) :
    (d.con ahora i nueva).Distinto where
  nombrados e he hocupada := by
    obtain he | rfl := List.mem_or_eq_of_mem_set he
    · exact h.nombrados e he hocupada
    · exact hnombre
  distintos j k y z c hy hz hyc hzc := by
    have hotra {l : ℕ} {w : Entrada} (hw : (d.con ahora i nueva).entradas[l]? = some w)
        (hwc : w.seLlama c = true) : (l = i ∧ w = nueva) ∨
          (l ≠ i ∧ d.entradas[l]? = some w ∧ c ≠ nueva.nombre) := by
      have hlt : i < d.entradas.length := (List.getElem?_eq_some_iff.mp hi).1
      by_cases hl : l = i
      · rw [EntradaDirectorioDe.con, hl, List.getElem?_set_self hlt] at hw
        cases hw
        exact .inl ⟨hl, rfl⟩
      · rw [EntradaDirectorioDe.con, List.getElem?_set_ne (Ne.symm hl)] at hw
        refine .inr ⟨hl, hw, fun heq ↦ ?_⟩
        have hno := ranura_none.mp hlibre w (List.mem_of_getElem? hw)
        rw [← heq, hwc] at hno
        cases hno
    obtain ⟨hj, rfl⟩ | ⟨hj, hy, hcy⟩ := hotra hy hyc
    · obtain ⟨hk, -⟩ | ⟨-, -, hcz⟩ := hotra hz hzc
      · rw [hj, hk]
      · exact absurd (Entrada.seLlama_iff.mp hyc).2.symm hcz
    · obtain ⟨-, rfl⟩ | ⟨-, hz, -⟩ := hotra hz hzc
      · exact absurd (Entrada.seLlama_iff.mp hzc).2.symm hcy
      · exact h.distintos j k y z c hy hz hyc hzc

theorem ranura_con (h : (d.con ahora i nueva).Distinto) (hi : d.entradas[i]? = some .vacio)
    (hocupada : nueva.ocupada = true) (c : Cadena) :
    (d.con ahora i nueva).ranura c = if c = nueva.nombre then some i else d.ranura c := by
  have hlt : i < d.entradas.length := (List.getElem?_eq_some_iff.mp hi).1
  by_cases hc : c = nueva.nombre
  · rw [if_pos hc]
    have hset : (d.con ahora i nueva).entradas[i]? = some nueva := List.getElem?_set_self hlt
    exact h.ranura_eq hset (Entrada.seLlama_iff.mpr ⟨hocupada, hc.symm⟩)
  · rw [if_neg hc]
    have hno : nueva.seLlama c = false := by
      rw [Bool.eq_false_iff]
      intro hsi
      exact hc (Entrada.seLlama_iff.mp hsi).2.symm
    exact findIdx?_set hi (hno.symm ▸ seLlama_vacio c)

/-- A directory with a new entry names it, and everything that it named before. -/
theorem nodo_con_crecido (h : d.Distinto) (hi : d.entradas[i]? = some .vacio)
    (hocupada : nueva.ocupada = true) (hnombre : nueva.nombre ≠ [])
    (hlibre : d.ranura nueva.nombre = none) (c : Cadena) (q : Ruta) :
    (Entrada.directorio (d.con ahora i nueva).crecido).nodo (c :: q) =
      if c = nueva.nombre then nueva.nodo q else (Entrada.directorio d).nodo (c :: q) := by
  have hlt : i < d.entradas.length := (List.getElem?_eq_some_iff.mp hi).1
  rw [Entrada.nodo_cons, ranura_crecido, ranura_con (h.con hi hnombre hlibre) hi hocupada]
  by_cases hc : c = nueva.nombre
  · have hset : (d.con ahora i nueva).entradas[i]? = some nueva := List.getElem?_set_self hlt
    rw [if_pos hc, if_pos hc, Option.bind_some, crecido_getElem? hset, Option.bind_some]
  · rw [if_neg hc, if_neg hc, Entrada.nodo_cons]
    cases hj : d.ranura c with
    | none => rfl
    | some j =>
      obtain ⟨y, hy, hyc⟩ := ranura_some hj
      have hij : i ≠ j := by
        rintro rfl
        rw [hi] at hy
        cases hy
        cases hyc
      have hset : (d.con ahora i nueva).entradas[j]? = some y := by
        rw [EntradaDirectorioDe.con, List.getElem?_set_ne hij]
        exact hy
      rw [Option.bind_some, Option.bind_some, hy, crecido_getElem? hset]

theorem getElem?_sin {j : ℕ} {y : Entrada} (h : (d.sin ahora i).entradas[j]? = some y) :
    (j ≠ i ∧ d.entradas[j]? = some y) ∨ y = .vacio := by
  by_cases hij : i = j
  · have hlen : i < d.entradas.length := by
      have hlt := (List.getElem?_eq_some_iff.mp h).1
      rw [EntradaDirectorioDe.sin, List.length_set] at hlt
      omega
    rw [EntradaDirectorioDe.sin, ← hij, List.getElem?_set_self hlen] at h
    cases h
    exact .inr rfl
  · rw [EntradaDirectorioDe.sin, List.getElem?_set_ne hij] at h
    exact .inl ⟨Ne.symm hij, h⟩

theorem Distinto.sin (h : d.Distinto) : (d.sin ahora i).Distinto where
  nombrados e he hocupada := by
    obtain he | rfl := List.mem_or_eq_of_mem_set he
    · exact h.nombrados e he hocupada
    · cases hocupada
  distintos j k y z c hy hz hyc hzc := by
    obtain ⟨-, hy⟩ | rfl := getElem?_sin hy
    · obtain ⟨-, hz⟩ | rfl := getElem?_sin hz
      · exact h.distintos j k y z c hy hz hyc hzc
      · cases hzc
    · cases hyc

/-- A directory that has lost an entry names everything that it named before but that. -/
theorem nodo_sin (h : d.Distinto) (hx : d.entradas[i]? = some x) (hc : x.seLlama c = true)
    (c' : Cadena) (q : Ruta) :
    (Entrada.directorio (d.sin ahora i)).nodo (c' :: q) =
      if c' = c then none else (Entrada.directorio d).nodo (c' :: q) := by
  rw [Entrada.nodo_cons]
  by_cases hcc : c' = c
  · have hnone : (d.sin ahora i).ranura c' = none := by
      rw [ranura_none]
      intro e he
      obtain ⟨j, hj⟩ := List.mem_iff_getElem?.mp he
      obtain ⟨hne, hj⟩ | rfl := getElem?_sin hj
      · rw [Bool.eq_false_iff]
        intro hsi
        exact hne (h.distintos j i e x c hj hx (hcc ▸ hsi) hc)
      · rfl
    rw [if_pos hcc, hnone]
    rfl
  · have hno : x.seLlama c' = false := by
      rw [Bool.eq_false_iff]
      intro hsi
      exact hcc ((Entrada.seLlama_iff.mp hsi).2.symm.trans (Entrada.seLlama_iff.mp hc).2)
    have hranura : (d.sin ahora i).ranura c' = d.ranura c' := findIdx?_set hx hno
    rw [if_neg hcc, Entrada.nodo_cons, hranura]
    cases hj : d.ranura c' with
    | none => rfl
    | some j =>
      obtain ⟨y, hy, hyc⟩ := ranura_some hj
      have hij : i ≠ j := by
        rintro rfl
        rw [hx] at hy
        cases hy
        rw [hno] at hyc
        cases hyc
      rw [Option.bind_some, Option.bind_some, EntradaDirectorioDe.sin, List.getElem?_set_ne hij]

end EntradaDirectorioDe

/-! ## The invariant of the tree -/

/-- The invariant of names at one entry. -/
def Entrada.Distinta : Entrada → Prop
  | .directorio d => d.Distinto
  | _ => True

theorem Entrada.Distinta.superficial : Entrada.Superficial Entrada.Distinta := by
  intro d i x y hd hx hs
  have hlt : i < d.entradas.length := (List.getElem?_eq_some_iff.mp hx).1
  have hotra {l : ℕ} {w : Entrada} (hw : (d.entradas.set i y)[l]? = some w) :
      ∃ v, d.entradas[l]? = some v ∧ v.Semejante w := by
    by_cases hl : i = l
    · subst hl
      rw [List.getElem?_set_self hlt] at hw
      cases hw
      exact ⟨x, hx, hs⟩
    · rw [List.getElem?_set_ne hl] at hw
      exact ⟨w, hw, Entrada.Semejante.refl w⟩
  refine ⟨fun e he hocupada ↦ ?_, fun j k v w c hv hw hvc hwc ↦ ?_⟩
  · obtain ⟨j, hj⟩ := List.mem_iff_getElem?.mp he
    obtain ⟨v, hv, hve⟩ := hotra hj
    rw [← hve.2]
    exact hd.nombrados v (List.mem_of_getElem? hv) (hve.ocupada.trans hocupada)
  · obtain ⟨v', hv', hvs⟩ := hotra hv
    obtain ⟨w', hw', hws⟩ := hotra hw
    exact hd.distintos j k v' w' c hv' hw' ((hvs.seLlama c).trans hvc) ((hws.seLlama c).trans hwc)

theorem Entrada.Distinta.intemporal : Entrada.Intemporal Entrada.Distinta :=
  fun _ _ hd ↦ ⟨hd.nombrados, hd.distintos⟩

/-- Every vector of the tree is in order, and every directory has distinct names. -/
structure Fs.EnOrden (fs : Fs) : Prop where
  sana : fs.Cada Entrada.Sana
  distinta : fs.Cada Entrada.Distinta

namespace Fs

variable {fs fs' : Fs} {p : Ruta} {u : Ubicacion} {d : EntradaDirectorio} {tam : UInt64}

theorem EnOrden.recorrido (h : fs.EnOrden) (hrec : fs.Recorrido ahora fs') : fs'.EnOrden where
  sana := hrec.cada Entrada.Coherente.superficial Entrada.Coherente.intemporal h.sana
  distinta := hrec.cada Entrada.Distinta.superficial Entrada.Distinta.intemporal h.distinta

theorem EnOrden.sano (h : fs.EnOrden) (hu : fs.en u = some (.directorio d)) : d.Sano :=
  Entrada.sana_directorio.mp (h.sana u _ hu)

theorem EnOrden.distinto (h : fs.EnOrden) (hu : fs.en u = some (.directorio d)) : d.Distinto :=
  h.distinta u _ hu

end Fs

/-! ## The whole tree -/

/-- An entry with nothing below it. -/
def Entrada.Hoja (x : Entrada) : Prop := ∀ q, q ≠ [] → x.nodo q = none

theorem Entrada.hoja_archivo (a : EntradaArchivo) : (Entrada.archivo a).Hoja := by
  intro q hq
  cases q with
  | nil => exact absurd rfl hq
  | cons c q => rfl

theorem Entrada.hoja_directorio {d : EntradaDirectorio} (h : ∀ e ∈ d.entradas, e.ocupada = false) :
    (Entrada.directorio d).Hoja := by
  intro q hq
  cases q with
  | nil => exact absurd rfl hq
  | cons c q =>
    have hnone : d.ranura c = none := by
      rw [EntradaDirectorioDe.ranura_none]
      intro e he
      rw [Entrada.seLlama, h e he, Bool.false_and]
    rw [Entrada.nodo_cons, hnone]
    rfl

/-- A directory with nothing below it has no entries. -/
theorem Entrada.Hoja.desocupadas {d : EntradaDirectorio} (h : (Entrada.directorio d).Hoja)
    (hd : d.Distinto) : ∀ e ∈ d.entradas, e.ocupada = false := by
  intro e he
  rw [Bool.eq_false_iff]
  intro hocupada
  obtain ⟨i, hi⟩ := List.mem_iff_getElem?.mp he
  have hranura := hd.ranura_eq hi (Entrada.seLlama_iff.mpr ⟨hocupada, rfl⟩)
  have hnodo := h [e.nombre] (List.cons_ne_nil _ _)
  rw [Entrada.nodo_cons, hranura, Option.bind_some, hi, Option.bind_some] at hnodo
  have hsome := Entrada.nodo_nil_isSome e
  rw [hnodo, hocupada] at hsome
  cases hsome

theorem append_singleton_eq_iff {p : Ruta} {c c' : Cadena} {q : Ruta} :
    p ++ c' :: q = p ++ [c] ↔ c' = c ∧ q = [] := by
  rw [List.append_cancel_left_eq, List.cons.injEq]

namespace Fs

variable {fs fs' : Fs} {p : Ruta} {u : Ubicacion} {d : EntradaDirectorio} {tam : UInt64}

/-- Replacing an entry with nothing below it by another such entry changes one path. -/
theorem nodo_poner_hoja {y : Entrada} (hp : fs.ubicar p = some u) (hx : fs.en u = some x)
    (hs : x.Semejante y) (hxHoja : x.Hoja) (hyHoja : y.Hoja) (r : Ruta) :
    (fs.poner u y).nodo r = if r = p then y.nodo [] else fs.nodo r := by
  rw [nodo_poner hp hx hs]
  by_cases hpre : p <+: r
  · obtain ⟨q, rfl⟩ := hpre
    rw [if_pos (List.prefix_append p q), List.drop_left]
    cases q with
    | nil => rw [if_pos (List.append_nil p)]
    | cons c q =>
      have hne : p ++ c :: q ≠ p := by simp
      rw [if_neg hne, nodo_append hp hx, hxHoja _ (List.cons_ne_nil c q),
        hyHoja _ (List.cons_ne_nil c q)]
  · have hne : r ≠ p := fun heq ↦ hpre (heq ▸ List.prefix_refl _)
    rw [if_neg hpre, if_neg hne]

/-- Placing a new entry gives a meaning to one more path. -/
theorem nodo_colocada (hfs : fs.EnOrden) (hp : fs.ubicar p = some u)
    (hu : fs.en u = some (.directorio d)) (hi : d.entradas[i]? = some .vacio)
    (hocupada : nueva.ocupada = true) (hnombre : nueva.nombre ≠ [])
    (hlibre : d.ranura nueva.nombre = none) (hhoja : nueva.Hoja) (r : Ruta) :
    (fs.poner u (.directorio (d.con ahora i nueva).crecido)).nodo r =
      if r = p ++ [nueva.nombre] then nueva.nodo [] else fs.nodo r := by
  have hd : d.Distinto := hfs.distinto hu
  have hs : (Entrada.directorio d).Semejante (.directorio (d.con ahora i nueva).crecido) := by
    unfold EntradaDirectorioDe.crecido
    split <;> simp [EntradaDirectorioDe.con]
  rw [nodo_poner hp hu hs]
  by_cases hpre : p <+: r
  · obtain ⟨q, rfl⟩ := hpre
    rw [if_pos (List.prefix_append p q), List.drop_left, nodo_append hp hu]
    cases q with
    | nil =>
      have hne : p ++ [] ≠ p ++ [nueva.nombre] := by simp
      rw [if_neg hne]
      rfl
    | cons c q =>
      rw [EntradaDirectorioDe.nodo_con_crecido hd hi hocupada hnombre hlibre]
      by_cases hc : c = nueva.nombre
      · rw [if_pos hc]
        cases q with
        | nil => rw [if_pos (append_singleton_eq_iff.mpr ⟨hc, rfl⟩)]
        | cons c' q =>
          have hne : p ++ c :: c' :: q ≠ p ++ [nueva.nombre] :=
            fun heq ↦ List.cons_ne_nil c' q (append_singleton_eq_iff.mp heq).2
          rw [if_neg hne, hhoja _ (List.cons_ne_nil c' q), Entrada.nodo_cons, hc, hlibre]
          rfl
      · have hne : p ++ c :: q ≠ p ++ [nueva.nombre] :=
          fun heq ↦ hc (append_singleton_eq_iff.mp heq).1
        rw [if_neg hc, if_neg hne]
  · have hne : r ≠ p ++ [nueva.nombre] := fun heq ↦ hpre (heq ▸ List.prefix_append p _)
    rw [if_neg hpre, if_neg hne]

/-- Removing an entry with nothing below it takes the meaning of one path away. -/
theorem nodo_quitada (hfs : fs.EnOrden) (hp : fs.ubicar p = some u)
    (hu : fs.en u = some (.directorio d)) (hx : d.entradas[i]? = some x)
    (hc : x.seLlama c = true) (hhoja : x.Hoja) (r : Ruta) :
    (fs.poner u (.directorio (d.sin ahora i))).nodo r =
      if r = p ++ [c] then none else fs.nodo r := by
  have hd : d.Distinto := hfs.distinto hu
  have hs : (Entrada.directorio d).Semejante (.directorio (d.sin ahora i)) := by
    simp [EntradaDirectorioDe.sin]
  rw [nodo_poner hp hu hs]
  by_cases hpre : p <+: r
  · obtain ⟨q, rfl⟩ := hpre
    rw [if_pos (List.prefix_append p q), List.drop_left, nodo_append hp hu]
    cases q with
    | nil =>
      have hne : p ++ [] ≠ p ++ [c] := by simp
      rw [if_neg hne]
      rfl
    | cons c' q =>
      rw [EntradaDirectorioDe.nodo_sin hd hx hc]
      by_cases hcc : c' = c
      · rw [if_pos hcc]
        cases q with
        | nil => rw [if_pos (append_singleton_eq_iff.mpr ⟨hcc, rfl⟩)]
        | cons c'' q =>
          have hne : p ++ c' :: c'' :: q ≠ p ++ [c] :=
            fun heq ↦ List.cons_ne_nil c'' q (append_singleton_eq_iff.mp heq).2
          rw [if_neg hne, Entrada.nodo_cons, hcc, hd.ranura_eq hx hc, Option.bind_some, hx,
            Option.bind_some, hhoja _ (List.cons_ne_nil c'' q)]
      · have hne : p ++ c' :: q ≠ p ++ [c] :=
          fun heq ↦ hcc (append_singleton_eq_iff.mp heq).1
        rw [if_neg hcc, if_neg hne]
  · have hne : r ≠ p ++ [c] := fun heq ↦ hpre (heq ▸ List.prefix_append p _)
    rw [if_neg hpre, if_neg hne]

end Fs

/-! ## The directory that a handler finds -/

section Busqueda

variable {fs fs₁ : Fs} {p : Ruta} {u : Ubicacion} {d : EntradaDirectorio} {nombre : Cadena}

/-- The opening of a handler ends at the parent of its path. -/
theorem buscarDirectorio_padre (hfs : fs.Cada Entrada.Sana) (hp : (p ++ [c]).Normal)
    (h : buscarDirectorio ahora (p ++ [c]).texto fs = .ok (fs₁, nombre, some (u, d))) :
    nombre = c ∧ fs.Recorrido ahora fs₁ ∧ fs.ubicar p = some u ∧
      fs₁.en u = some (.directorio d) := by
  obtain ⟨pd, v, x, hpd, hnombre, hencuentra, hv, ⟨hnone, -⟩ | ⟨d', rfl, heq⟩⟩ :=
    buscarDirectorio_ok h
  · cases hnone
  cases heq
  rw [obtenerDirectorioPath_texto hp] at hpd
  rw [obtenerNombreFinalPath_texto hp] at hnombre
  cases hpd
  cases hnombre
  obtain ⟨fs₂, htexto⟩ := @Fs.encontrarEntrada_texto fs ahora p hfs hp.padre
  have hrec := encontrarEntrada_recorrido hencuentra
  rw [htexto] at hencuentra
  have hubica : fs.ubicar p = some u := by
    have hpar := Except.ok.inj hencuentra
    exact congrArg Prod.snd hpar
  exact ⟨rfl, hrec, hubica, hv⟩

/-- Where the parent is a directory, the opening of a handler finds it. -/
theorem buscarDirectorio_de_directorio (hfs : fs.Cada Entrada.Sana) (hp : (p ++ [c]).Normal)
    (hpadre : fs.nodo p = some .directorio) :
    ∃ fs₁ u d, buscarDirectorio ahora (p ++ [c]).texto fs = .ok (fs₁, c, some (u, d)) := by
  obtain ⟨fs₁, htexto⟩ := @Fs.encontrarEntrada_texto fs ahora p hfs hp.padre
  have hrec := encontrarEntrada_recorrido htexto
  have hpadre₁ : fs₁.nodo p = some .directorio := (hrec.nodo p).trans hpadre
  cases hu : fs.ubicar p with
  | none =>
    rw [Fs.ubicar_eq_none, hpadre] at hu
    cases hu
  | some u =>
    have hu₁ : fs₁.ubicar p = some u := (hrec.ubicar p).trans hu
    obtain ⟨x, hx, -⟩ := Fs.en_of_ubicar hu₁
    rw [Fs.nodo_of_ubicar hu₁ hx] at hpadre₁
    cases x with
    | directorio d =>
      refine ⟨fs₁, u, d, ?_⟩
      simp only [buscarDirectorio, obtenerDirectorioPath_texto hp,
        obtenerNombreFinalPath_texto hp, htexto, hu, bind, Except.bind, Fs.apuntada, hx]
      rfl
    | _ => cases hpadre₁

end Busqueda

end SistemasOperativos.FisopFs
