import SistemasOperativos.Fork.Coherence

/-!
# The states that a chain of phases represents

A chain of phases represents a state when it gives every record, every pipe and everything printed.
In a represented state the ends that are open are those of the phases, which settles what a read and
a write do; and each kind of step on the state is a change of one phase.
-/

namespace SistemasOperativos.Fork

/-! ## The ends of a process -/

namespace Phase

variable {n : ℤ} {k : ℕ} {f : Phase}

/-- Before the first `close` of `proceso_filtro`. -/
def early : Phase → Bool
  | hijo | hijoLlama | filtro => true
  | _ => false

theorem write_mem_fds {i : ℕ} (hv : f.Valid n k) (h : some ⟨i, .write⟩ ∈ f.fds k) :
    i = k ∧ f.closed = false ∨ k = i + 1 ∧ f.early = true := by
  cases f with
  | hijo =>
    have hk : 2 ≤ k := hv
    have hi : i = k - 1 := by simpa [fds, mem_table] using h
    exact .inr ⟨by omega, rfl⟩
  | hijoLlama =>
    have hk : 2 ≤ k := hv
    have hi : i = k - 1 := by simpa [fds, mem_tableBefore] using h
    exact .inr ⟨by omega, rfl⟩
  | filtro =>
    have hk : 1 ≤ k := hv
    have hi : i = k - 1 := by simpa [fds, mem_tableBefore] using h
    exact .inr ⟨by omega, rfl⟩
  | mainFork | mainPadre | mainCierra =>
    have hk : k = 0 := hv
    have hi : i = 0 := by simpa [fds] using h
    exact .inl ⟨hi.trans hk.symm, rfl⟩
  | genera =>
    have hi : i = 0 := by simpa [fds] using h
    exact .inl ⟨hi.trans hv.1.symm, rfl⟩
  | vacioDerRead | vacioDerWrite =>
    simp only [fds] at h
    split at h <;> simp_all [mem_table, closed]
  | _ => simp_all [fds, mem_table, mem_tableBefore, closed]

theorem write_open (hv : f.Valid n k) (hf : f.forked n k = true) (h : f.closed = false) :
    some ⟨k, .write⟩ ∈ f.fds k := by
  cases f with
  | mainPadre | mainCierra =>
    obtain rfl : k = 0 := hv
    simp [fds]
  | genera =>
    obtain rfl : k = 0 := hv.1
    simp [fds]
  | padre | readValue | filtra | cierraIzq | cierraDer => simp [fds, mem_table]
  | mainWait | padreWait | vuelve | hijoVuelve | exited => cases h
  | _ => cases hf

theorem read_open (hv : f.Valid n (k + 1)) (h : f.ended = false) :
    some ⟨k, .read⟩ ∈ f.fds (k + 1) := by
  cases f with
  | mainPipe | mainFork | mainPadre | mainCierra | mainWait => exact absurd hv k.succ_ne_zero
  | genera => exact absurd hv.1 k.succ_ne_zero
  | hijo | hijoLlama | filtro | filtroPipe => simp [fds, mem_table, mem_tableBefore]
  | readPrimo | printPrimo | filtroFork | padre | readValue | filtra => simp [fds, mem_table]
  | _ => cases h

theorem piped_of_forked (h : f.forked n k = true) : f.piped = true := by
  cases f <;> first | rfl | cases h

end Phase

/-! ## Representation -/

/-- The pipe that process `k` writes to. -/
def pipeOf (n : ℤ) (fs : List Phase) (k : ℕ) : Option Pipe :=
  fs[k]?.bind fun f ↦ if f.piped then some ⟨f.sent n k, takenBy n fs (k + 1)⟩ else none

structure Represents (n : ℤ) (fs : List Phase) (s : State) : Prop where
  processes : ∀ k, s.processes[k]? = fs[k]?.map (Phase.process n k)
  pipes : ∀ k, s.pipes[k]? = pipeOf n fs k
  printed : ∀ k, s.printedBy k = fs[k]?.elim [] (Phase.prints n k)

section Reading

variable {n : ℤ} {fs : List Phase} {s : State} {k : ℕ} {f g : Phase}

theorem pipeOf_of (hf : fs[k]? = some f) (hp : f.piped = true) :
    pipeOf n fs k = some ⟨f.sent n k, takenBy n fs (k + 1)⟩ := by simp [pipeOf, hf, hp]

namespace Represents

theorem process (h : Represents n fs s) (hf : fs[k]? = some f) :
    s.processes[k]? = some (f.process n k) := by simp [h.processes, hf]

theorem isOpen_iff (h : Represents n fs s) {e : End} :
    s.isOpen e = true ↔ ∃ (j : ℕ) (f : Phase), fs[j]? = some f ∧ some e ∈ f.fds j := by
  simp only [State.isOpen, List.any_eq_true, List.mem_iff_getElem?, h.processes, Table.holds_iff,
    Option.map_eq_some_iff]
  constructor
  · rintro ⟨p, ⟨j, f, hf, rfl⟩, hmem⟩
    exact ⟨j, f, hf, hmem⟩
  · rintro ⟨j, f, hf, hmem⟩
    exact ⟨_, ⟨j, f, hf, rfl⟩, hmem⟩

theorem isOpen_write (h : Represents n fs s) (hc : Coherent n fs) (hf : fs[k]? = some f)
    (hg : fs[k + 1]? = some g) (hearly : g.early = false) :
    s.isOpen ⟨k, .write⟩ = true ↔ f.closed = false := by
  rw [h.isOpen_iff]
  constructor
  · rintro ⟨j, f', hf', hmem⟩
    rcases Phase.write_mem_fds (hc.valid j f' hf') hmem with ⟨rfl, hopen⟩ | ⟨rfl, hbad⟩
    · obtain rfl : f = f' := Option.some.inj (hf.symm.trans hf')
      exact hopen
    · obtain rfl : g = f' := Option.some.inj (hg.symm.trans hf')
      rw [hearly] at hbad
      cases hbad
  · intro hopen
    have hforked := (hc.forked k f hf).mpr (List.getElem?_eq_some_iff.mp hg).1
    exact ⟨k, f, hf, Phase.write_open (hc.valid k f hf) hforked hopen⟩

theorem isOpen_read (h : Represents n fs s) (hc : Coherent n fs) (hf : fs[k]? = some f)
    (hforked : f.forked n k = true) (hopen : f.closed = false) : s.isOpen ⟨k, .read⟩ = true := by
  have hlt := (hc.forked k f hf).mp hforked
  obtain ⟨g, hg⟩ : ∃ g, fs[k + 1]? = some g := ⟨_, List.getElem?_eq_getElem hlt⟩
  have hnot : g.ended = false := by
    by_contra hend
    have hclosed := (hc.link k f g hf hg).2 (by simpa using hend)
    rw [hopen] at hclosed
    cases hclosed
  exact h.isOpen_iff.mpr ⟨k + 1, g, hg, Phase.read_open (hc.valid _ g hg) hnot⟩

theorem readPipe_eq (h : Represents n fs s) (hc : Coherent n fs) (hf : fs[k]? = some f)
    (hg : fs[k + 1]? = some g) (hreads : g.reads = true) :
    readPipe s.isOpen s.pipes (g.fds (k + 1)) (izqFds (k + 1)).read =
      if g.taken n (k + 1) < (f.sent n k).length then
        .value ((input n (k + 1)).getD (g.taken n (k + 1)) 0)
          (s.pipes.set k ⟨f.sent n k, g.taken n (k + 1) + 1⟩)
      else if f.closed then .endOfFile else .blocks := by
  have hforked := (hc.forked k f hf).mpr (List.getElem?_eq_some_iff.mp hg).1
  have hpipe : s.pipes[k]? = some ⟨f.sent n k, g.taken n (k + 1)⟩ := by
    rw [h.pipes, pipeOf_of hf (Phase.piped_of_forked hforked), takenBy_of hg]
  have hfd : (g.fds (k + 1))[(izqFds (k + 1)).read]? = some (some ⟨k, .read⟩) := by
    cases g with
    | readPrimo | readValue => exact getElem?_izqRead k.succ_pos
    | _ => cases hreads
  have hopen : s.isOpen ⟨k, .write⟩ = !f.closed := by
    have hearly : g.early = false := by
      cases g <;> first | rfl | cases hreads
    rw [Bool.eq_iff_iff, h.isOpen_write hc hf hg hearly, Bool.not_eq_true']
  rw [readPipe, hfd]
  simp only [hpipe]
  cases hget : (f.sent n k)[g.taken n (k + 1)]? with
  | some v =>
    obtain ⟨hlt, rfl⟩ := List.getElem?_eq_some_iff.mp hget
    have hinput : (input n (k + 1))[g.taken n (k + 1)]? = some (f.sent n k)[g.taken n (k + 1)] :=
      List.prefix_iff_getElem?.mp (Phase.sent_prefix (hc.valid k f hf)) _ hlt
    rw [if_pos hlt, List.getD_eq_getElem?_getD, hinput, Option.getD_some]
  | none =>
    rw [if_neg (not_lt.mpr (List.getElem?_eq_none_iff.mp hget)), hopen]
    cases f.closed <;> rfl

theorem writePipe_eq (h : Represents n fs s) (hc : Coherent n fs) (hf : fs[k]? = some f)
    (hforked : f.forked n k = true) (hopen : f.closed = false) {fd : ℕ}
    (hfd : (f.fds k)[fd]? = some (some ⟨k, .write⟩)) (cap : ℕ) (v : ℤ) :
    (Room n fs k cap ∧ writePipe cap s.isOpen s.pipes (f.fds k) fd v =
        .done (s.pipes.set k ⟨f.sent n k ++ [v], takenBy n fs (k + 1)⟩)) ∨
      (¬Room n fs k cap ∧ writePipe cap s.isOpen s.pipes (f.fds k) fd v = .blocks) := by
  have hpipe := (h.pipes k).trans (pipeOf_of hf (Phase.piped_of_forked hforked))
  rw [writePipe, hfd, Room, sentBy_of hf]
  simp only [hpipe, h.isOpen_read hc hf hforked hopen, if_true]
  split
  · next hroom => exact .inl ⟨hroom, rfl⟩
  · next hroom => exact .inr ⟨hroom, rfl⟩

end Represents

end Reading

/-! ## Changes of a represented state -/

section Update

variable {n : ℤ} {fs : List Phase} {s : State} {k : ℕ} {f : Phase}

theorem pipeOf_set (hf : fs[k]? = some f) (f' : Phase) (j : ℕ) :
    pipeOf n (fs.set k f') j =
      if j = k then if f'.piped then some ⟨f'.sent n k, takenBy n fs (k + 1)⟩ else none
      else if j + 1 = k then (pipeOf n fs j).map fun q ↦ { q with taken := f'.taken n k }
      else pipeOf n fs j := by
  have hlt : k < fs.length := (List.getElem?_eq_some_iff.mp hf).1
  unfold pipeOf takenBy
  split
  · next hj =>
    subst hj
    simp [hlt]
  · next hj =>
    split
    · next hj' =>
      subst hj'
      cases hget : fs[j]? with
      | none => simp [hget]
      | some f₀ => cases hp : f₀.piped <;> simp [hget, hp, hlt]
    · next hj' => simp [Ne.symm hj, Ne.symm hj']

theorem set_self (hf : fs[k]? = some f) : fs.set k f = fs := by
  obtain ⟨hlt, rfl⟩ := List.getElem?_eq_some_iff.mp hf
  exact List.set_getElem_self hlt

theorem pipeOf_set_of_eq (hf : fs[k]? = some f) {f' : Phase} (htaken : f'.taken n k = f.taken n k)
    (hsent : f'.sent n k = f.sent n k) (hpiped : f'.piped = f.piped) :
    pipeOf n (fs.set k f') = pipeOf n fs := by
  funext j
  have hsame := pipeOf_set (n := n) hf f j
  rw [set_self hf] at hsame
  rw [pipeOf_set hf, htaken, hsent, hpiped]
  exact hsame.symm

theorem pipeOf_append {g : Phase} (hlast : k + 1 = fs.length) (hpiped : g.piped = false)
    (htaken : g.taken n (k + 1) = 0) : pipeOf n (fs ++ [g]) = pipeOf n fs := by
  funext j
  unfold pipeOf takenBy
  rcases Nat.lt_trichotomy (j + 1) fs.length with hlt | heq | hgt
  · rw [List.getElem?_append_left (by omega), List.getElem?_append_left hlt]
  · obtain rfl : j = k := by omega
    rw [List.getElem?_append_left (by omega), hlast]
    simp [← hlast, htaken]
  · have hnone : fs[j]? = none := List.getElem?_eq_none (by omega)
    rw [hnone, List.getElem?_append_right (by omega)]
    rcases Nat.eq_zero_or_pos (j - fs.length) with h0 | hpos
    · simp [h0, hpiped]
    · rw [List.getElem?_eq_none (by exact hpos)]
      rfl

namespace Represents

theorem length_eq (h : Represents n fs s) : s.processes.length = fs.length := by
  have hmap : s.processes = fs.mapIdx fun k f ↦ f.process n k := by
    apply List.ext_getElem?
    intro k
    rw [h.processes, List.getElem?_mapIdx]
  rw [hmap, List.length_mapIdx]

theorem update (h : Represents n fs s) (hf : fs[k]? = some f) {f' : Phase} {s' : State}
    (hprocesses : s'.processes = s.processes.set k (f'.process n k))
    (hpipes : ∀ j, s'.pipes[j]? = pipeOf n (fs.set k f') j)
    (hprinted : ∀ j, s'.printedBy j = if j = k then f'.prints n k else s.printedBy j) :
    Represents n (fs.set k f') s' := by
  have hlt : k < fs.length := (List.getElem?_eq_some_iff.mp hf).1
  have hlt' : k < s.processes.length := h.length_eq ▸ hlt
  refine ⟨fun j ↦ ?_, hpipes, fun j ↦ ?_⟩
  · rw [hprocesses]
    by_cases hj : k = j
    · subst hj
      simp [hlt, hlt']
    · simp [hj, h.processes]
  · rw [hprinted]
    by_cases hj : j = k
    · subst hj
      simp [hlt]
    · simp [hj, Ne.symm hj, h.printed]

theorem printedBy_self (h : Represents n fs s) (hf : fs[k]? = some f) :
    s.printedBy k = f.prints n k := by simp [h.printed, hf]

/-- A step that the pipes and the prints do not show. -/
theorem setProcess (h : Represents n fs s) (hf : fs[k]? = some f) {f' : Phase}
    (htaken : f'.taken n k = f.taken n k) (hsent : f'.sent n k = f.sent n k)
    (hprints : f'.prints n k = f.prints n k) (hpiped : f'.piped = f.piped) :
    Represents n (fs.set k f') (s.setProcess k (f'.process n k)) := by
  apply h.update hf rfl
  · intro j
    rw [pipeOf_set_of_eq hf htaken hsent hpiped]
    exact h.pipes j
  · intro j
    split
    · next hj => rw [hj, hprints, ← h.printedBy_self hf]; rfl
    · rfl

theorem read (h : Represents n fs s) {g f' : Phase} (hf : fs[k]? = some f)
    (hg : fs[k + 1]? = some g) (hf' : f.piped = true) (hsent : f'.sent n (k + 1) = g.sent n (k + 1))
    (hprints : f'.prints n (k + 1) = g.prints n (k + 1)) (hpiped : f'.piped = g.piped) :
    Represents n (fs.set (k + 1) f')
      { s.setProcess (k + 1) (f'.process n (k + 1)) with
        pipes := s.pipes.set k ⟨f.sent n k, f'.taken n (k + 1)⟩ } := by
  have hpipe : s.pipes[k]? = some ⟨f.sent n k, takenBy n fs (k + 1)⟩ :=
    (h.pipes k).trans (pipeOf_of hf hf')
  have hlt : k < s.pipes.length := (List.getElem?_eq_some_iff.mp hpipe).1
  apply h.update hg rfl
  · intro j
    rw [pipeOf_set hg, hsent, hpiped]
    by_cases hj : j = k
    · subst hj
      simp [hlt, pipeOf_of hf hf']
    · rw [List.getElem?_set_ne (Ne.symm hj), h.pipes]
      by_cases hself : j = k + 1
      · rw [if_pos hself, hself, pipeOf, hg, Option.bind_some]
      · rw [if_neg hself, if_neg (by omega)]
  · intro j
    split
    · next hj => rw [hj, hprints, ← h.printedBy_self hg]; rfl
    · rfl

theorem write (h : Represents n fs s) {f' : Phase} {sent : List ℤ} (hf : fs[k]? = some f)
    (hpipedf : f.piped = true) (hsent : f'.sent n k = sent) (htaken : f'.taken n k = f.taken n k)
    (hprints : f'.prints n k = f.prints n k) (hpiped : f'.piped = true) :
    Represents n (fs.set k f')
      { s.setProcess k (f'.process n k) with
        pipes := s.pipes.set k ⟨sent, takenBy n fs (k + 1)⟩ } := by
  have hpipe := (h.pipes k).trans (pipeOf_of hf hpipedf)
  have hlt : k < s.pipes.length := (List.getElem?_eq_some_iff.mp hpipe).1
  apply h.update hf rfl
  · intro j
    have hsame := pipeOf_set (n := n) hf f j
    rw [set_self hf] at hsame
    rw [pipeOf_set hf, hsent, htaken, if_pos hpiped]
    by_cases hj : j = k
    · subst hj
      simp [hlt]
    · rw [if_neg hj] at hsame ⊢
      rw [List.getElem?_set_ne (Ne.symm hj), h.pipes]
      exact hsame
  · intro j
    split
    · next hj => rw [hj, hprints, ← h.printedBy_self hf]; rfl
    · rfl

/-- The new pipe gets the place of the process that creates it. -/
theorem newPipe (h : Represents n fs s) {f' : Phase} (hf : fs[k]? = some f)
    (hlength : s.pipes.length = k) (hlast : k + 1 = fs.length)
    (hsent : f'.sent n k = []) (htaken : f'.taken n k = f.taken n k)
    (hprints : f'.prints n k = f.prints n k) (hpiped : f'.piped = true) :
    Represents n (fs.set k f')
      { s.setProcess k (f'.process n k) with pipes := s.pipes ++ [⟨[], 0⟩] } := by
  have hnone : takenBy n fs (k + 1) = 0 := by simp [takenBy, hlast]
  apply h.update hf rfl
  · intro j
    have hsame := pipeOf_set (n := n) hf f j
    rw [set_self hf] at hsame
    rw [pipeOf_set hf, hsent, htaken, if_pos hpiped, hnone]
    by_cases hj : j = k
    · subst hj
      simp [hlength]
    · rw [if_neg hj] at hsame ⊢
      rw [← hsame, ← h.pipes, List.getElem?_append]
      split
      · rfl
      · next hge =>
        have hpos : 1 ≤ j - s.pipes.length := by omega
        have hright : [(⟨[], 0⟩ : Pipe)][j - s.pipes.length]? = none := List.getElem?_eq_none hpos
        rw [hright, List.getElem?_eq_none (not_lt.mp hge)]
  · intro j
    split
    · next hj => rw [hj, hprints, ← h.printedBy_self hf]; rfl
    · rfl

theorem print (h : Represents n fs s) {f' : Phase} {v : ℤ} (hf : fs[k]? = some f)
    (htaken : f'.taken n k = f.taken n k) (hsent : f'.sent n k = f.sent n k)
    (hprints : f'.prints n k = f.prints n k ++ [v]) (hpiped : f'.piped = f.piped) :
    Represents n (fs.set k f')
      { s.setProcess k (f'.process n k) with printed := s.printed ++ [(k, v)] } := by
  apply h.update hf rfl
  · intro j
    rw [pipeOf_set_of_eq hf htaken hsent hpiped]
    exact h.pipes j
  · intro j
    rw [hprints, ← h.printedBy_self hf]
    unfold State.printedBy
    rw [List.filterMap_append]
    split
    · next hj => simp [hj]
    · next hj => simp [Ne.symm hj]

theorem append (h : Represents n fs s) {g : Phase} (hlast : k + 1 = fs.length)
    (hpiped : g.piped = false) (htaken : g.taken n (k + 1) = 0)
    (hprints : g.prints n (k + 1) = []) :
    Represents n (fs ++ [g]) { s with processes := s.processes ++ [g.process n (k + 1)] } := by
  have hlength := h.length_eq
  refine ⟨fun j ↦ ?_, fun j ↦ ?_, fun j ↦ ?_⟩
  · rw [List.getElem?_append, List.getElem?_append, hlength, h.processes]
    split
    · rfl
    · next hge =>
      rcases Nat.eq_zero_or_pos (j - fs.length) with h0 | hpos
      · obtain rfl : j = k + 1 := by omega
        simp [h0]
      · rw [List.getElem?_eq_none (by exact hpos), List.getElem?_eq_none (by exact hpos)]
        rfl
  · rw [pipeOf_append hlast hpiped htaken]
    exact h.pipes j
  · rw [List.getElem?_append]
    split
    · exact h.printed j
    · next hge =>
      have hnone : s.printedBy j = [] := by
        rw [h.printed, List.getElem?_eq_none (not_lt.mp hge)]
        rfl
      refine Eq.trans hnone ?_
      rcases Nat.eq_zero_or_pos (j - fs.length) with h0 | hpos
      · obtain rfl : j = k + 1 := by omega
        simp [h0, hprints]
      · rw [List.getElem?_eq_none (by exact hpos)]
        rfl

end Represents

end Update

end SistemasOperativos.Fork
