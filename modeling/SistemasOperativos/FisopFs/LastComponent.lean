import SistemasOperativos.FisopFs.Resolution

/-!
# The last component of a path

The handlers take a path apart at its last `'/'`; `encontrar_entrada` takes it apart at the first one,
component by component. Both lead to the same entry, in every tree: one where a name occurs twice in a
directory, or where some slot holds no entry, is not excluded.
-/

namespace SistemasOperativos.FisopFs

open Library

/-! ## A search that goes on -/

namespace Entrada

variable {e : Entrada} {c : Cadena} {p q : Ruta}

/-- A search for the end of a path goes on from the entry that the search for its beginning found. -/
theorem hallar_append {o : Option Ubicacion} (h : e.hallar (p ++ q) = .ok o) :
    ∃ s, e.hallar p = .ok s ∧
      ((s = none ∧ o = none) ∨
        ∃ u x v, s = some u ∧ e.en u = some x ∧ x.hallar q = .ok v ∧ o = v.map (u ++ ·)) := by
  induction p generalizing e o with
  | nil =>
    rw [List.nil_append] at h
    exact ⟨some [], hallar_nil e, .inr ⟨[], e, o, rfl, en_nil e, h, by simp⟩⟩
  | cons c p ih =>
    cases e with
    | directorio d =>
      rw [List.cons_append, hallar_cons, Library.Except.bind_ok] at h
      obtain ⟨i?, hbusca, h⟩ := h
      rw [hallar_cons, hbusca]
      cases i? with
      | none =>
        cases h
        exact ⟨none, rfl, .inl ⟨rfl, rfl⟩⟩
      | some i =>
        obtain ⟨⟨-, hijo, hhijo, -⟩, -⟩ := EntradaDirectorioDe.buscar_some hbusca
        simp only [hhijo, Library.Except.map_ok] at h
        obtain ⟨o', ho', rfl⟩ := h
        obtain ⟨s, hs, hresto⟩ := ih ho'
        refine ⟨s.map (i :: ·), ?_, ?_⟩
        · simp only [bind, Except.bind, hhijo, hs]
          rfl
        · obtain ⟨rfl, rfl⟩ | ⟨u, x, v, rfl, hx, hv, rfl⟩ := hresto
          · exact .inl ⟨rfl, rfl⟩
          · refine .inr ⟨i :: u, x, v, rfl, ?_, hv, ?_⟩
            · rw [en_directorio_cons, hhijo, Option.bind_some, hx]
            · rw [Option.map_map]
              rfl
    | _ =>
      cases h
      exact ⟨none, rfl, .inl ⟨rfl, rfl⟩⟩

/-- One component is looked for in a directory only. -/
theorem hallar_singleton {v : Option Ubicacion} (h : e.hallar [c] = .ok v) :
    ((∀ d, e ≠ directorio d) ∧ v = none) ∨
      ∃ d i?, e = directorio d ∧ d.buscar c = .ok i? ∧ v = i?.map fun i ↦ [i] := by
  cases e with
  | directorio d =>
    rw [hallar_cons, Library.Except.bind_ok] at h
    obtain ⟨i?, hbusca, h⟩ := h
    refine .inr ⟨d, i?, rfl, hbusca, ?_⟩
    cases i? with
    | none =>
      cases h
      rfl
    | some i =>
      obtain ⟨⟨-, hijo, hhijo, -⟩, -⟩ := EntradaDirectorioDe.buscar_some hbusca
      simp only [hhijo, hallar_nil, Library.Except.map_ok] at h
      obtain ⟨o, ho, rfl⟩ := h
      cases ho
      rfl
  | _ =>
    cases h
    refine .inl ⟨fun d heq ↦ ?_, rfl⟩
    cases heq

end Entrada

/-! ## The two ways of taking a path apart -/

/-- A directory and a name have one `'/'` between them: its own for the root, one more for the rest. -/
theorem Ruta.Normal.unida {p : Ruta} {c : Cadena} (h : (p ++ [c]).Normal) :
    (p.texto = [barra] ∧ (p ++ [c]).texto = p.texto ++ c) ∨
      (p.texto.getLast? ≠ some barra ∧ (p ++ [c]).texto = p.texto ++ barra :: c) := by
  obtain rfl | ⟨q, x, rfl⟩ := List.eq_nil_or_concat' p
  · exact .inl ⟨rfl, Ruta.texto_append [] c⟩
  · obtain ⟨hvacio, hbarra, -⟩ := h.padre.ultimo
    refine .inr ⟨?_, ?_⟩
    · obtain rfl | ⟨y, z, rfl⟩ := List.eq_nil_or_concat' x
      · exact absurd rfl hvacio
      · intro hlast
        rw [Ruta.texto_append, ← List.cons_append, ← List.append_assoc, List.getLast?_concat] at hlast
        have hz : z = barra := Option.some.inj hlast
        exact hbarra (List.mem_append_right y (hz ▸ List.mem_singleton_self z))
    · rw [Ruta.texto_append, Ruta.texto_append, Ruta.barras_append]
      simp [Ruta.barras]

namespace Fs

variable {fs fs₁ : Fs} {ahora : UInt64} {p : Ruta} {c : Cadena} {r : Option Ubicacion}

/-- The entry of a path is looked for in the directory of its parent. -/
theorem encontrarEntrada_concat (ahora' : UInt64) (hp : (p ++ [c]).Normal)
    (h : encontrarEntrada ahora (p ++ [c]).texto fs = .ok (fs₁, r)) :
    ∃ fs₂ s, encontrarEntrada ahora' p.texto fs = .ok (fs₂, s) ∧
      (((∀ u d, s = some u → fs.en u ≠ some (.directorio d)) ∧ r = none) ∨
        ∃ u d i?, s = some u ∧ fs.en u = some (.directorio d) ∧ d.buscar c = .ok i? ∧
          r = i?.map fun i ↦ u ++ [i]) := by
  have hhalla : (Entrada.directorio fs.raiz).hallar (p ++ [c]) = .ok r := by
    rw [← @encontrarEntrada_hallar fs ahora (p ++ [c]) hp.breve, h]
    rfl
  obtain ⟨s, hs, hresto⟩ := Entrada.hallar_append hhalla
  have hpadre := @encontrarEntrada_hallar fs ahora' p hp.padre.breve
  rw [hs, Library.Except.map_ok] at hpadre
  obtain ⟨⟨fs₂, s'⟩, hencuentra, rfl⟩ := hpadre
  refine ⟨fs₂, s', hencuentra, ?_⟩
  obtain ⟨rfl, rfl⟩ | ⟨u, x, v, rfl, hx, hv, rfl⟩ := hresto
  · refine .inl ⟨fun u d heq ↦ ?_, rfl⟩
    cases heq
  · obtain ⟨hno, rfl⟩ | ⟨d, i?, rfl, hbusca, rfl⟩ := Entrada.hallar_singleton hv
    · refine .inl ⟨fun w d heq hw ↦ ?_, rfl⟩
      cases heq
      exact hno d (Option.some.inj (hx.symm.trans hw))
    · refine .inr ⟨u, d, i?, rfl, hx, hbusca, ?_⟩
      rw [Option.map_map]
      rfl

end Fs

/-- The name after the last `'/'` of a path is looked up in the directory that the part before it
leads to. -/
theorem encontrarEntrada_nombreFinal (fs : Fs) (ahora ahora' : UInt64) (p : Ruta) (hp : p.Normal)
    (hraiz : p.texto ≠ [barra]) :
    ∃ d n, obtenerDirectorioPath p.texto = .ok d ∧ obtenerNombreFinalPath p.texto = .ok n ∧
      d.length < maximoPath ∧ n.length < maximoPath ∧ n ≠ [] ∧ barra ∉ n ∧
      (d = [barra] ∧ p.texto = d ++ n ∨ d.getLast? ≠ some barra ∧ p.texto = d ++ barra :: n) ∧
      (fs.Cada Entrada.Legible → ∃ r, encontrarEntrada ahora p.texto fs = .ok r) ∧
      ∀ fs₁ r, encontrarEntrada ahora p.texto fs = .ok (fs₁, r) →
        ∃ fs₂ s, encontrarEntrada ahora' d fs = .ok (fs₂, s) ∧
          (r ≠ none ↔ ∃ u x i, s = some u ∧ fs.en u = some (.directorio x) ∧ x.Nombra n i) ∧
          ∀ u x i, s = some u → fs.en u = some (.directorio x) → x.Nombra n i →
            (∀ j < i, ¬ x.Nombra n j) → r = some (u ++ [i]) := by
  obtain rfl | ⟨q, n, rfl⟩ := List.eq_nil_or_concat' p
  · exact absurd rfl hraiz
  obtain ⟨hvacio, hbarra, hcorto⟩ := hp.ultimo
  refine ⟨Ruta.texto q, n, obtenerDirectorioPath_texto hp, obtenerNombreFinalPath_texto hp,
    hp.padre.corto, hcorto, hvacio, hbarra, hp.unida, fun hlegible ↦ ?_, fun fs₁ r h ↦ ?_⟩
  · obtain ⟨o, ho⟩ := Entrada.Cada.hallar_returns hlegible (q ++ [n])
    rw [← @Fs.encontrarEntrada_hallar fs ahora (q ++ [n]) hp.breve, Library.Except.map_ok] at ho
    obtain ⟨r, hr, -⟩ := ho
    exact ⟨r, hr⟩
  · obtain ⟨fs₂, s, hencuentra, ⟨hno, rfl⟩ | ⟨u, d, i?, rfl, hd, hbusca, rfl⟩⟩ :=
      Fs.encontrarEntrada_concat ahora' hp h
    · refine ⟨fs₂, s, hencuentra, ?_, fun u x i hs hx ↦ absurd hx (hno u x hs)⟩
      constructor
      · exact fun hne ↦ absurd rfl hne
      · rintro ⟨u, x, i, hs, hx, -⟩
        exact absurd hx (hno u x hs)
    · refine ⟨fs₂, some u, hencuentra, ?_, ?_⟩
      · constructor
        · intro hne
          cases i? with
          | none => exact absurd rfl hne
          | some i => exact ⟨u, d, i, rfl, hd, (EntradaDirectorioDe.buscar_some hbusca).1⟩
        · rintro ⟨w, x, i, hw, hx, hnombra⟩
          cases hw
          cases hd.symm.trans hx
          cases i? with
          | none => exact absurd hnombra (EntradaDirectorioDe.buscar_none hbusca)
          | some j => exact Option.some_ne_none _
      · intro w x i hw hx hnombra hantes
        cases hw
        cases hd.symm.trans hx
        rw [EntradaDirectorioDe.buscar_eq hbusca hnombra hantes]
        rfl

/-- A root with the directory `a`, where two slots have the name `b`. -/
def arbolRepetido (raiz a b : Nombre) : Fs :=
  let st : Stat := ⟨1, sIfdir, 0, 0, 0, 0, 0, 0, 0, 0, 0⟩
  let archivo : Entrada := .archivo ⟨b, st, []⟩
  ⟨⟨raiz, st, 2, 1, [.vacio, .directorio ⟨a, st, 3, 2, [.vacio, archivo, archivo]⟩]⟩, 0, false⟩

/-- A directory whose vector is full of entries can be read. -/
theorem Entrada.cada_legible {d : EntradaDirectorio}
    (hlen : d.cantidadEntradas.toNat ≤ d.entradas.length)
    (hasignadas : ∀ e ∈ d.entradas, e.asignada = true) (hhijos : ∀ e ∈ d.entradas, e.Cada Legible) :
    (directorio d).Cada Legible :=
  cada_directorio.mpr ⟨fun _ hi ↦ asignada_of_lt hlen hasignadas hi, hhijos⟩

theorem legible_arbolRepetido (raiz a b : Nombre) :
    (arbolRepetido raiz a b).Cada Entrada.Legible := by
  have harchivo {st : Stat} : (Entrada.archivo ⟨b, st, []⟩).Cada Entrada.Legible :=
    (Entrada.cada_hoja rfl).mpr trivial
  have hvacio : Entrada.vacio.Cada Entrada.Legible := (Entrada.cada_hoja rfl).mpr trivial
  apply Entrada.cada_legible
  · exact Nat.le_refl 2
  · simp [arbolRepetido, Entrada.asignada]
  · refine List.forall_mem_cons.mpr ⟨hvacio, List.forall_mem_singleton.mpr ?_⟩
    apply Entrada.cada_legible
    · exact Nat.le_refl 3
    · simp [Entrada.asignada]
    · refine List.forall_mem_cons.mpr ⟨hvacio, List.forall_mem_cons.mpr ⟨harchivo, ?_⟩⟩
      exact List.forall_mem_singleton.mpr harchivo

/-- The path `/a/b` leads to the first of the two. -/
theorem encontrarEntrada_nombreFinal_repetido :
    ∃ r, encontrarEntrada 5 (Ruta.texto [[⟨97, by decide⟩], [⟨98, by decide⟩]])
        (arbolRepetido ⟨[barra], by decide⟩ ⟨[⟨97, by decide⟩], by decide⟩
          ⟨[⟨98, by decide⟩], by decide⟩) = .ok r ∧ r.2 = some [1, 1] := by
  obtain ⟨d, n, hd, hn, -, -, -, -, -, hlee, hbusca⟩ := encontrarEntrada_nombreFinal
    (arbolRepetido ⟨[barra], by decide⟩ ⟨[⟨97, by decide⟩], by decide⟩
      ⟨[⟨98, by decide⟩], by decide⟩) 5 6
    [[⟨97, by decide⟩], [⟨98, by decide⟩]] ⟨by decide, by decide⟩ (by decide)
  cases hd
  cases hn
  obtain ⟨r, hr⟩ := hlee (legible_arbolRepetido _ _ _)
  obtain ⟨fs₂, s, hs, -, hprimera⟩ := hbusca r.1 r.2 hr
  refine ⟨r, hr, ?_⟩
  cases hs
  refine hprimera [1] _ 1 rfl rfl ⟨by decide, _, rfl, rfl⟩ ?_
  rintro j hj ⟨-, e, he, hllama⟩
  cases Nat.lt_one_iff.mp hj
  cases he
  cases hllama

end SistemasOperativos.FisopFs
