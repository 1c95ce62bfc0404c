import Mathlib.Tactic.Ring
import SistemasOperativos.Fork.Representation

/-!
# The processes follow their phases

A process of a represented state can move exactly when its phase may advance, and the state after
its step is represented by the chain after the advance.
-/

namespace SistemasOperativos.Fork

section Steps

variable {n : ℤ} {fs : List Phase} {s : State} {k cap : ℕ} {f : Phase}

/-- A process moves exactly when its phase may advance, and as it does. -/
def Simulates (n : ℤ) (fs : List Phase) (s : State) (k cap : ℕ) (f : Phase) : Prop :=
  (Ready n fs k cap f ∧ ∃ s', s.step cap n k = some s' ∧ Represents n (advance n fs k) s') ∨
    (¬Ready n fs k cap f ∧ s.step cap n k = none)

theorem advance_of_nil (hf : fs[k]? = some f) (ho : f.offspring = []) :
    advance n fs k = fs.set k (f.next n k) := by rw [advance_of hf, ho, List.append_nil]

/-- One value for each way a read can go. -/
def Read.elim {α : Type} (r : Read) (blocks endOfFile : α) (value : ℤ → List Pipe → α)
    (error : α) : α :=
  match r with
  | .blocks => blocks
  | .endOfFile => endOfFile
  | .value v pipes => value v pipes
  | .error => error

namespace Represents

theorem step_eq (h : Represents n fs s) (hf : fs[k]? = some f) (hcloses : f.closes = false) :
    s.step cap n k = s.execute cap n k (f.process n k) := by
  simp [State.step, h.process hf, Phase.closing_eq_none hcloses]

theorem length_pipes (h : Represents n fs s) (hc : Coherent n fs) (hf : fs[k]? = some f)
    (hp : f.piped = false) : s.pipes.length = k := by
  have hle : s.pipes.length ≤ k := by
    rw [← List.getElem?_eq_none_iff, h.pipes, pipeOf, hf, Option.bind_some, hp]
    rfl
  cases k with
  | zero => omega
  | succ j =>
    have hlt : j + 1 < fs.length := (List.getElem?_eq_some_iff.mp hf).1
    have hj : fs[j]? = some fs[j] := List.getElem?_eq_getElem _
    have hpiped := Phase.piped_of_forked ((hc.forked j _ hj).mpr hlt)
    have hpipe := (h.pipes j).trans (pipeOf_of hj hpiped)
    have hge : j < s.pipes.length := (List.getElem?_eq_some_iff.mp hpipe).1
    omega

theorem simulates_closes (h : Represents n fs s) (hc : Coherent n fs) (hf : fs[k]? = some f)
    (hcloses : f.closes = true) : Simulates n fs s k cap f := by
  have hv := hc.valid k f hf
  have hsilent := Phase.silent_next hv (Phase.silent_of_closes hcloses)
  have hready : Ready n fs k cap f := by cases f <;> trivial
  have ho : f.offspring = [] := by cases f <;> first | rfl | cases hcloses
  refine .inl ⟨hready, s.setProcess k ((f.next n k).process n k), ?_, ?_⟩
  · simp only [State.step, h.process hf, Option.bind_some, Phase.closing_eq_some hcloses]
    rw [Phase.process_next_of_closes hv hcloses]
    rfl
  · rw [advance_of_nil hf ho]
    exact h.setProcess hf hsilent.1 hsilent.2.1 hsilent.2.2.1 hsilent.2.2.2

/-- A statement that only moves the process on. -/
theorem simulates_silent (h : Represents n fs s) (hc : Coherent n fs) (hf : fs[k]? = some f)
    (hsilent : f.silent = true) (ho : f.offspring = []) (hready : Ready n fs k cap f)
    (hstep : s.step cap n k = some (s.setProcess k ((f.next n k).process n k))) :
    Simulates n fs s k cap f := by
  have hnext := Phase.silent_next (hc.valid k f hf) hsilent
  refine .inl ⟨hready, _, hstep, ?_⟩
  rw [advance_of_nil hf ho]
  exact h.setProcess hf hnext.1 hnext.2.1 hnext.2.2.1 hnext.2.2.2

theorem simulates_hijoLlama (h : Represents n fs s) (hc : Coherent n fs)
    (hf : fs[k]? = some .hijoLlama) : Simulates n fs s k cap .hijoLlama := by
  have hk : 2 ≤ k := hc.valid k _ hf
  apply h.simulates_silent hc hf rfl rfl trivial
  rw [h.step_eq hf rfl]
  obtain ⟨j, rfl⟩ := Nat.exists_eq_add_of_le' hk
  simp [State.execute, Phase.process, Phase.point, Phase.frame, Phase.callers, Phase.child,
    Phase.fds, Phase.next, callersOf, frameOf, izqFds_succ]

theorem simulates_vuelve {j : ℕ} (h : Represents n fs s) (hc : Coherent n fs)
    (hf : fs[k]? = some (.vuelve j)) : Simulates n fs s k cap (.vuelve j) := by
  have hv : 1 ≤ j ∧ j ≤ k := hc.valid k _ hf
  apply h.simulates_silent hc hf rfl rfl trivial
  rw [h.step_eq hf rfl]
  match j with
  | 0 => exact absurd hv.1 (by decide)
  | 1 =>
    have hk : k ≠ 0 := by omega
    simp [State.execute, Phase.process, Phase.point, Phase.frame, Phase.callers, Phase.child,
      Phase.fds, Phase.next, callersOf, Process.exit, hk]
  | j + 2 => rfl

theorem wait_eq (h : Represents n fs s) {p : Process} (hp : p.child = some (k + 1))
    (q : Process) :
    (fs[k + 1]? = some .exited ∧ s.wait k p q = some (s.setProcess k { q with child := none })) ∨
      (fs[k + 1]? ≠ some .exited ∧ s.wait k p q = none) := by
  have hany : (s.processes[k + 1]?.any fun q ↦ q.point = .exited) = true ↔
      fs[k + 1]? = some .exited := by
    rw [h.processes]
    cases hg : fs[k + 1]? with
    | none => simp
    | some g => cases g <;> simp [Phase.process, Phase.point]
  unfold State.wait
  rw [hp]
  by_cases hexit : fs[k + 1]? = some .exited
  · exact .inl ⟨hexit, by simp [hany.mpr hexit]⟩
  · refine .inr ⟨hexit, ?_⟩
    have hfalse := mt hany.mp hexit
    simp only [Bool.not_eq_true] at hfalse
    simp [hfalse]

theorem simulates_mainWait (h : Represents n fs s) (hc : Coherent n fs)
    (hf : fs[k]? = some .mainWait) : Simulates n fs s k cap .mainWait := by
  have hk : k = 0 := hc.valid k _ hf
  let p := Phase.mainWait.process n k
  have hstep : s.step cap n k = s.wait k p p.exit := h.step_eq hf rfl
  have hchild : p.child = some (k + 1) := rfl
  rcases h.wait_eq hchild p.exit with ⟨hexit, hwait⟩ | ⟨hexit, hwait⟩
  · apply h.simulates_silent hc hf rfl rfl hexit
    rw [hstep, hwait]
    simp [p, Process.exit, Phase.process, Phase.next, Phase.point, Phase.frame, Phase.callers,
      Phase.child, Phase.fds, hk]
  · exact .inr ⟨hexit, hstep.trans hwait⟩

theorem simulates_padreWait (h : Represents n fs s) (hc : Coherent n fs)
    (hf : fs[k]? = some .padreWait) : Simulates n fs s k cap .padreWait := by
  let p := Phase.padreWait.process n k
  have hstep : s.step cap n k = s.wait k p { p with point := .vuelve } := h.step_eq hf rfl
  have hchild : p.child = some (k + 1) := rfl
  rcases h.wait_eq hchild { p with point := .vuelve } with ⟨hexit, hwait⟩ | ⟨hexit, hwait⟩
  · apply h.simulates_silent hc hf rfl rfl hexit
    rw [hstep, hwait]
    rfl
  · exact .inr ⟨hexit, hstep.trans hwait⟩

theorem simulates_fork (h : Represents n fs s) (hc : Coherent n fs) {g : Phase}
    (hf : fs[k]? = some f) (ho : f.offspring = [g]) (hsilent : f.silent = true)
    (hready : Ready n fs k cap f)
    (hstep : s.step cap n k = some
      { s with
        processes := s.processes.set k ((f.next n k).process n k) ++ [g.process n (k + 1)] }) :
    Simulates n fs s k cap f := by
  have hv := hc.valid k f hf
  have hk : k < fs.length := (List.getElem?_eq_some_iff.mp hf).1
  have hlast : k + 1 = fs.length := hc.last_of_offspring hf (by simp [ho])
  obtain ⟨hgp, hgt, hgpr⟩ :
      g.piped = false ∧ g.taken n (k + 1) = 0 ∧ g.prints n (k + 1) = [] := by
    rcases Phase.offspring_cases hv with hnil | ⟨g', ho', -, -, -, -, hp, ht, hpr, -⟩
    · simp [ho] at hnil
    · obtain rfl : g = g' := by simpa [ho] using ho'
      exact ⟨hp, ht, hpr⟩
  have hnext := Phase.silent_next hv hsilent
  have happend := h.append (g := g) hlast hgp hgt hgpr
  have hf' : (fs ++ [g])[k]? = some f := by rw [List.getElem?_append_left hk, hf]
  refine .inl ⟨hready, _, hstep, ?_⟩
  rw [advance_of hf, ho]
  have hset := happend.setProcess hf' hnext.1 hnext.2.1 hnext.2.2.1 hnext.2.2.2
  have hlt : k < s.processes.length := h.length_eq ▸ hk
  simpa [State.setProcess, List.set_append_left _ _ hlt] using hset

theorem simulates_mainFork (h : Represents n fs s) (hc : Coherent n fs)
    (hf : fs[k]? = some .mainFork) : Simulates n fs s k cap .mainFork := by
  have hk : k = 0 := hc.valid k _ hf
  have hlast : k + 1 = fs.length := hc.last_of_offspring hf (by simp [Phase.offspring])
  apply h.simulates_fork hc hf rfl rfl trivial
  rw [h.step_eq hf rfl]
  simp [State.execute, State.fork, Phase.process, Phase.next, Phase.point, Phase.frame,
    Phase.callers, Phase.child, Phase.fds, hk, h.length_eq, ← hlast, callersOf, izqFds, tableBefore,
    slot]

theorem simulates_filtroFork (h : Represents n fs s) (hc : Coherent n fs)
    (hf : fs[k]? = some .filtroFork) : Simulates n fs s k cap .filtroFork := by
  have hlast : k + 1 = fs.length := hc.last_of_offspring hf (by simp [Phase.offspring])
  apply h.simulates_fork hc hf rfl rfl trivial
  rw [h.step_eq hf rfl]
  simp [State.execute, State.fork, Phase.process, Phase.next, Phase.point, Phase.frame,
    Phase.callers, Phase.child, Phase.fds, h.length_eq, ← hlast]

theorem simulates_pipe (h : Represents n fs s) (hc : Coherent n fs)
    (hf : fs[k]? = some f) (ho : f.offspring = []) (hpiped : f.piped = false)
    (hforked : f.forked n k = false)
    (hready : Ready n fs k cap f)
    (hnext : (f.next n k).taken n k = f.taken n k ∧ (f.next n k).sent n k = [] ∧
      (f.next n k).prints n k = f.prints n k ∧ (f.next n k).piped = true)
    (hstep : s.step cap n k = some
      { s.setProcess k ((f.next n k).process n k) with pipes := s.pipes ++ [⟨[], 0⟩] }) :
    Simulates n fs s k cap f := by
  have hk : k < fs.length := (List.getElem?_eq_some_iff.mp hf).1
  have hlast : k + 1 = fs.length := by
    have hnot : ¬k + 1 < fs.length := by simp [← hc.forked k f hf, hforked]
    omega
  refine .inl ⟨hready, _, hstep, ?_⟩
  rw [advance_of_nil hf ho]
  exact h.newPipe hf (h.length_pipes hc hf hpiped) hlast hnext.2.1 hnext.1 hnext.2.2.1 hnext.2.2.2

theorem simulates_mainPipe (h : Represents n fs s) (hc : Coherent n fs)
    (hf : fs[k]? = some .mainPipe) : Simulates n fs s k cap .mainPipe := by
  have hlength := h.length_pipes hc hf rfl
  obtain rfl : k = 0 := hc.valid k _ hf
  apply h.simulates_pipe hc hf rfl rfl rfl trivial ⟨rfl, rfl, rfl, rfl⟩
  rw [h.step_eq hf rfl]
  simp only [State.execute, State.pipe, Phase.process, Phase.point, hlength]
  rfl

theorem simulates_filtroPipe (h : Represents n fs s) (hc : Coherent n fs)
    (hf : fs[k]? = some .filtroPipe) : Simulates n fs s k cap .filtroPipe := by
  have hk : 1 ≤ k := hc.valid k _ hf
  have hlength := h.length_pipes hc hf rfl
  obtain ⟨hread, hwrite, htable⟩ := install_before hk
  apply h.simulates_pipe hc hf rfl rfl rfl trivial ⟨rfl, rfl, rfl, rfl⟩
  rw [h.step_eq hf rfl]
  simp only [State.execute, State.pipe, Phase.process, Phase.point, Phase.fds, hlength, hread,
    hwrite, htable]
  rfl

theorem simulates_printPrimo (h : Represents n fs s) (hc : Coherent n fs)
    (hf : fs[k]? = some .printPrimo) : Simulates n fs s k cap .printPrimo := by
  have hv : 1 ≤ k ∧ input n k ≠ [] := hc.valid k _ hf
  have hprints : Phase.filtroFork.prints n k = Phase.printPrimo.prints n k ++ [primoOf n k] := by
    rw [Phase.prints, input_eq_cons hv.2]
    rfl
  refine .inl ⟨trivial, _, h.step_eq hf rfl, ?_⟩
  rw [advance_of_nil hf rfl]
  exact h.print hf rfl rfl hprints rfl

theorem simulates_exited (h : Represents n fs s) (hf : fs[k]? = some .exited) :
    Simulates n fs s k cap .exited := .inr ⟨id, h.step_eq hf rfl⟩

/-- What a read of a filter finds: a number, the end of the whole input, or nothing yet. -/
theorem read_cases (h : Represents n fs s) (hc : Coherent n fs) (hf : fs[k + 1]? = some f)
    (hreads : f.reads = true) :
    (Served n fs (k + 1) ∧ f.taken n (k + 1) < (input n (k + 1)).length ∧
        ∃ f₀, fs[k]? = some f₀ ∧ f₀.piped = true ∧
          readPipe s.isOpen s.pipes (f.fds (k + 1)) (izqFds (k + 1)).read =
            .value ((input n (k + 1)).getD (f.taken n (k + 1)) 0)
              (s.pipes.set k ⟨f₀.sent n k, f.taken n (k + 1) + 1⟩)) ∨
      (Served n fs (k + 1) ∧ f.taken n (k + 1) = (input n (k + 1)).length ∧
        readPipe s.isOpen s.pipes (f.fds (k + 1)) (izqFds (k + 1)).read = .endOfFile) ∨
      (¬Served n fs (k + 1) ∧
        readPipe s.isOpen s.pipes (f.fds (k + 1)) (izqFds (k + 1)).read = .blocks) := by
  have hlt : k + 1 < fs.length := (List.getElem?_eq_some_iff.mp hf).1
  obtain ⟨f₀, hf₀⟩ : ∃ f₀, fs[k]? = some f₀ := ⟨_, List.getElem?_eq_getElem (by omega)⟩
  have hforked := (hc.forked k f₀ hf₀).mpr hlt
  have hpart := Phase.sent_prefix (hc.valid k f₀ hf₀)
  rw [h.readPipe_eq hc hf₀ hf hreads, served_of hf₀ hf]
  by_cases hmore : f.taken n (k + 1) < (f₀.sent n k).length
  · refine .inl ⟨.inl hmore, hmore.trans_le hpart.length_le, f₀, hf₀,
      Phase.piped_of_forked hforked, if_pos hmore⟩
  · rw [if_neg hmore]
    cases hclosed : f₀.closed with
    | true =>
      refine .inr (.inl ⟨.inr rfl, ?_, rfl⟩)
      have hall : (f₀.sent n k).length = (input n (k + 1)).length := by
        rw [Phase.sent_of_closed hclosed, input]
      rcases Phase.reads_next (hc.valid (k + 1) f hf) hreads with ⟨hless, -⟩ | ⟨heq, -⟩
      · omega
      · exact heq
    | false => exact .inr (.inr ⟨by simp [hmore], rfl⟩)

theorem simulates_readPrimo (h : Represents n fs s) (hc : Coherent n fs)
    (hf : fs[k]? = some .readPrimo) : Simulates n fs s k cap .readPrimo := by
  have hv : 1 ≤ k := hc.valid k _ hf
  obtain ⟨k, rfl⟩ := Nat.exists_eq_add_of_le' hv
  let p := Phase.readPrimo.process n (k + 1)
  have hstep : s.step cap n (k + 1) =
      (readPipe s.isOpen s.pipes (Phase.readPrimo.fds (k + 1)) (izqFds (k + 1)).read).elim none
        (some (s.setProcess (k + 1) { p with point := .vacioIzqRead }))
        (fun v pipes ↦ some { s.setProcess (k + 1)
            { p with point := .printPrimo, frame := { p.frame with primo := v } } with pipes })
        (some (s.setProcess (k + 1) { p with point := .printPrimo })) := h.step_eq hf rfl
  rcases h.read_cases hc hf rfl with
    ⟨hserved, hlt, f₀, hf₀, hpiped, hread⟩ | ⟨hserved, heq, hread⟩ | ⟨hserved, hread⟩
  · have hnext : Phase.readPrimo.next n (k + 1) = .printPrimo :=
      if_neg (List.length_pos_iff.mp hlt)
    have hprimo : (input n (k + 1)).getD 0 0 = primoOf n (k + 1) := by
      simp [primoOf, List.getD_eq_getElem?_getD, List.headD_eq_head?_getD, List.head?_eq_getElem?]
    have htaken : Phase.readPrimo.taken n (k + 1) = 0 := rfl
    rw [hread, htaken, hprimo] at hstep
    refine .inl ⟨hserved, _, hstep, ?_⟩
    rw [advance_of_nil hf rfl, hnext]
    exact @read n fs s k f₀ h .readPrimo .printPrimo hf₀ hf hpiped rfl rfl rfl
  · have hnext : Phase.readPrimo.next n (k + 1) = .vacioIzqRead :=
      if_pos (List.length_eq_zero_iff.mp heq.symm)
    rw [hread] at hstep
    refine .inl ⟨hserved, _, hstep, ?_⟩
    rw [advance_of_nil hf rfl, hnext]
    exact @setProcess n fs s (k + 1) .readPrimo h hf .vacioIzqRead rfl rfl rfl rfl
  · rw [hread] at hstep
    exact .inr ⟨hserved, hstep⟩

theorem simulates_readValue {m : ℕ} (h : Represents n fs s) (hc : Coherent n fs)
    (hf : fs[k]? = some (.readValue m)) : Simulates n fs s k cap (.readValue m) := by
  have hv : 1 ≤ k ∧ 1 ≤ m ∧ m ≤ (input n k).length := hc.valid k _ hf
  obtain ⟨k, rfl⟩ := Nat.exists_eq_add_of_le' hv.1
  let p := (Phase.readValue m).process n (k + 1)
  have hstep : s.step cap n (k + 1) =
      (readPipe s.isOpen s.pipes ((Phase.readValue m).fds (k + 1)) (izqFds (k + 1)).read).elim none
        (some (s.setProcess (k + 1) { p with point := .cierraIzq }))
        (fun v pipes ↦ some { s.setProcess (k + 1) { p with point := .filtra v } with pipes })
        (some (s.setProcess (k + 1) { p with point := .cierraIzq })) := by
    have hexec : ∀ r, readPipe s.isOpen s.pipes p.fds p.frame.pipeIzq.read = r →
        s.execute cap n (k + 1) p = r.elim none
          (some (s.setProcess (k + 1) { p with point := .cierraIzq }))
          (fun v pipes ↦ some { s.setProcess (k + 1) { p with point := .filtra v } with pipes })
          (some (s.setProcess (k + 1) { p with point := .cierraIzq })) := by
      have hpoint : p.point = .readValue := rfl
      intro r hr
      simp only [State.execute, hpoint, hr]
      cases r <;> rfl
    exact (h.step_eq hf rfl).trans (hexec _ rfl)
  rcases h.read_cases hc hf rfl with
    ⟨hserved, hlt, f₀, hf₀, hpiped, hread⟩ | ⟨hserved, heq, hread⟩ | ⟨hserved, hread⟩
  · have hnext : (Phase.readValue m).next n (k + 1) = .filtra m := if_pos hlt
    rw [hread] at hstep
    refine .inl ⟨hserved, _, hstep, ?_⟩
    rw [advance_of_nil hf rfl, hnext]
    exact @read n fs s k f₀ h (.readValue m) (.filtra m) hf₀ hf hpiped rfl rfl rfl
  · have heq : m = (input n (k + 1)).length := heq
    have hnext : (Phase.readValue m).next n (k + 1) = .cierraIzq := if_neg heq.not_lt
    have hsent : Phase.cierraIzq.sent n (k + 1) = (Phase.readValue m).sent n (k + 1) := by
      rw [Phase.sent, Phase.sent, heq, List.take_length]
      exact stream_eq_filter k.succ_pos
    rw [hread] at hstep
    refine .inl ⟨hserved, _, hstep, ?_⟩
    rw [advance_of_nil hf rfl, hnext]
    exact @setProcess n fs s (k + 1) (.readValue m) h hf .cierraIzq heq.symm hsent rfl rfl
  · rw [hread] at hstep
    exact .inr ⟨hserved, hstep⟩

theorem simulates_genera {m : ℕ} (hn : n < intMax) (h : Represents n fs s) (hc : Coherent n fs)
    (hf : fs[k]? = some (.genera m)) : Simulates n fs s k cap (.genera m) := by
  obtain ⟨rfl, hm⟩ : k = 0 ∧ m ≤ (stream n 0).length := hc.valid k _ hf
  let p := (Phase.genera m).process n 0
  have hstep : s.step cap n 0 =
      if intMax < (m : ℤ) + 2 then none
      else if (m : ℤ) + 2 ≤ n then
        s.afterWrite 0 p (.genera ((m : ℤ) + 2 + 1))
          (writePipe cap s.isOpen s.pipes ((Phase.genera m).fds 0) 1 ((m : ℤ) + 2))
      else some (s.setProcess 0 { p with point := .mainCierra }) := h.step_eq hf rfl
  rw [length_stream_zero] at hm
  rw [if_neg (by unfold intMax at hn ⊢; omega)] at hstep
  by_cases hmore : m < (stream n 0).length
  · have hnext : (Phase.genera m).next n 0 = .genera (m + 1) := if_pos hmore
    have hle : (m : ℤ) + 2 ≤ n := by
      rw [length_stream_zero] at hmore
      omega
    rw [if_pos hle] at hstep
    have hfd : ((Phase.genera m).fds 0)[1]? = some (some ⟨0, .write⟩) := rfl
    rcases h.writePipe_eq hc hf rfl rfl hfd cap ((m : ℤ) + 2) with
      ⟨hroom, hwrite⟩ | ⟨hroom, hwrite⟩
    · rw [hwrite] at hstep
      have hpoint : (m : ℤ) + 2 + 1 = ((m + 1 : ℕ) : ℤ) + 2 := by push_cast; ring
      rw [hpoint] at hstep
      refine .inl ⟨fun _ ↦ hroom, _, hstep, ?_⟩
      rw [advance_of_nil hf rfl, hnext]
      exact @write n fs s 0 (.genera m) h (.genera (m + 1)) _ hf rfl
        (Phase.sent_next_genera hmore) rfl rfl rfl
    · rw [hwrite] at hstep
      exact .inr ⟨fun hr ↦ hroom (hr hmore), hstep⟩
  · have hnext : (Phase.genera m).next n 0 = .mainCierra := if_neg hmore
    have hgt : ¬(m : ℤ) + 2 ≤ n := by
      rw [length_stream_zero] at hmore
      omega
    have hsent : Phase.mainCierra.sent n 0 = (Phase.genera m).sent n 0 :=
      (List.take_of_length_le (not_lt.mp hmore)).symm
    rw [if_neg hgt] at hstep
    refine .inl ⟨fun hlt ↦ absurd hlt hmore, _, hstep, ?_⟩
    rw [advance_of_nil hf rfl, hnext]
    exact @setProcess n fs s 0 (.genera m) h hf .mainCierra rfl hsent rfl rfl

theorem simulates_filtra {m : ℕ} (h : Represents n fs s) (hc : Coherent n fs)
    (hf : fs[k]? = some (.filtra m)) : Simulates n fs s k cap (.filtra m) := by
  obtain ⟨hk, hm, hlt⟩ : 1 ≤ k ∧ 1 ≤ m ∧ m < (input n k).length := hc.valid k _ hf
  have hprimo : primoOf n k ≠ 0 := primoOf_ne_zero (List.length_pos_iff.mp (Nat.zero_lt_of_lt hlt))
  let p := (Phase.filtra m).process n k
  let v := (input n k).getD m 0
  have hstep : s.step cap n k =
      if primoOf n k = 0 then none
      else if v.tmod (primoOf n k) ≠ 0 then
        s.afterWrite k p .readValue
          (writePipe cap s.isOpen s.pipes ((Phase.filtra m).fds k) (derFds k).write v)
      else some (s.setProcess k { p with point := .readValue }) := h.step_eq hf rfl
  rw [if_neg hprimo] at hstep
  have hsent := Phase.sent_next_filtra hlt
  by_cases hdvd : primoOf n k ∣ v
  · rw [if_neg (by simpa using Int.tmod_eq_zero_of_dvd hdvd)] at hstep
    rw [if_pos hdvd, List.append_nil] at hsent
    refine .inl ⟨fun hnot ↦ absurd hdvd hnot, _, hstep, ?_⟩
    rw [advance_of_nil hf rfl]
    exact @setProcess n fs s k (.filtra m) h hf (.readValue (m + 1)) rfl hsent rfl rfl
  · rw [if_pos (mt Int.dvd_of_tmod_eq_zero hdvd)] at hstep
    rw [if_neg hdvd] at hsent
    rcases h.writePipe_eq hc hf rfl rfl (getElem?_derWrite) cap v with
      ⟨hroom, hwrite⟩ | ⟨hroom, hwrite⟩
    · rw [hwrite] at hstep
      refine .inl ⟨fun _ ↦ hroom, _, hstep, ?_⟩
      rw [advance_of_nil hf rfl]
      exact @write n fs s k (.filtra m) h (.readValue (m + 1)) _ hf rfl hsent rfl rfl rfl
    · rw [hwrite] at hstep
      exact .inr ⟨fun hr ↦ hroom (hr hdvd), hstep⟩

/-- The processes follow their phases. -/
theorem simulates (hn : n < intMax) (h : Represents n fs s) (hc : Coherent n fs)
    (hf : fs[k]? = some f) (cap : ℕ) : Simulates n fs s k cap f := by
  cases f with
  | mainPipe => exact h.simulates_mainPipe hc hf
  | mainFork => exact h.simulates_mainFork hc hf
  | genera m => exact h.simulates_genera hn hc hf
  | mainWait => exact h.simulates_mainWait hc hf
  | hijoLlama => exact h.simulates_hijoLlama hc hf
  | filtroPipe => exact h.simulates_filtroPipe hc hf
  | readPrimo => exact h.simulates_readPrimo hc hf
  | printPrimo => exact h.simulates_printPrimo hc hf
  | filtroFork => exact h.simulates_filtroFork hc hf
  | readValue m => exact h.simulates_readValue hc hf
  | filtra m => exact h.simulates_filtra hc hf
  | padreWait => exact h.simulates_padreWait hc hf
  | vuelve j => exact h.simulates_vuelve hc hf
  | exited => exact h.simulates_exited hf
  | _ => exact h.simulates_closes hc hf rfl

end Represents

end Steps

end SistemasOperativos.Fork
