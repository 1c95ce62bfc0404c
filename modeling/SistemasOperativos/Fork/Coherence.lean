import SistemasOperativos.Fork.Phases

/-!
# The chain of phases

The system as one phase for each process. A process may advance when the phases of its neighbours
allow it, and it advances whatever the others do. What holds between neighbours in every run: a
filter reads only what has been written, and sees the end of its input only after everything.
-/

namespace SistemasOperativos.Fork

/-! ## Advancing -/

namespace Phase

/-- The processes that a step adds. -/
def offspring : Phase → List Phase
  | mainFork => [filtro]
  | filtroFork => [hijo]
  | _ => []

def reads : Phase → Bool
  | readPrimo | readValue _ => true
  | _ => false

end Phase

section Chain

variable (n : ℤ) (fs : List Phase) (k : ℕ)

/-- The chain after a step of process `k`. -/
def advance : List Phase :=
  match fs[k]? with
  | none => fs
  | some f => (fs ++ f.offspring).set k (f.next n k)

def sentBy : List ℤ := fs[k]?.elim [] (Phase.sent n k)

def takenBy : ℕ := fs[k]?.elim 0 (Phase.taken n k)

def closedBy : Prop := ∃ f, fs[k]? = some f ∧ f.closed = true

/-- Whether process `k` may write one more number. -/
def Room (cap : ℕ) : Prop := (sentBy n fs k).length < takenBy n fs (k + 1) + cap

/-- Whether a read of process `k` returns. -/
def Served : Prop := takenBy n fs k < (sentBy n fs (k - 1)).length ∨ closedBy fs (k - 1)

/-- Whether process `k` can move. -/
def Ready (cap : ℕ) : Phase → Prop
  | .genera m => m < (stream n 0).length → Room n fs k cap
  | .readPrimo | .readValue _ => Served n fs k
  | .filtra m => ¬primoOf n k ∣ (input n k).getD m 0 → Room n fs k cap
  | .mainWait | .padreWait => fs[k + 1]? = some .exited
  | .exited => False
  | _ => True

end Chain

section Lookup

variable {n : ℤ} {fs : List Phase} {k : ℕ} {f : Phase}

theorem sentBy_of (hf : fs[k]? = some f) : sentBy n fs k = f.sent n k := by simp [sentBy, hf]

theorem takenBy_of (hf : fs[k]? = some f) : takenBy n fs k = f.taken n k := by simp [takenBy, hf]

theorem closedBy_of (hf : fs[k]? = some f) : closedBy fs k ↔ f.closed = true := by
  simp [closedBy, hf]

theorem served_of {g : Phase} (hf : fs[k]? = some f) (hg : fs[k + 1]? = some g) :
    Served n fs (k + 1) ↔ g.taken n (k + 1) < (f.sent n k).length ∨ f.closed = true := by
  rw [Served, takenBy_of hg, Nat.add_sub_cancel, sentBy_of hf, closedBy_of hf]

end Lookup

theorem Ready.served {n : ℤ} {fs : List Phase} {k cap : ℕ} {f : Phase} (h : Ready n fs k cap f)
    (hreads : f.reads = true) : Served n fs k := by
  cases f with
  | readPrimo | readValue => exact h
  | _ => cases hreads

/-- What holds between a process and the one it has forked. -/
def Follows (n : ℤ) (k : ℕ) (f g : Phase) : Prop :=
  g.taken n (k + 1) ≤ (f.sent n k).length ∧ (g.ended = true → f.closed = true)

/-- What holds of the chain. -/
structure Coherent (n : ℤ) (fs : List Phase) : Prop where
  nonempty : fs ≠ []
  valid : ∀ k (f : Phase), fs[k]? = some f → f.Valid n k
  forked : ∀ k (f : Phase), fs[k]? = some f → (f.forked n k = true ↔ k + 1 < fs.length)
  link : ∀ k (f g : Phase), fs[k]? = some f → fs[k + 1]? = some g → Follows n k f g

/-! ## What a step keeps -/

namespace Phase

variable {n : ℤ} {k : ℕ} {f : Phase}

theorem taken_next (hv : f.Valid n k) (h : f.reads = false) :
    (f.next n k).taken n k = f.taken n k := by
  cases f with
  | readPrimo | readValue => cases h
  | genera m => simp only [Phase.next]; split <;> rfl
  | mainWait =>
    obtain rfl : k = 0 := hv
    rfl
  | vacioDerWrite => simp [Phase.next, taken, hv.2]
  | vuelve j => rcases j with _ | _ | j <;> rfl
  | _ => rfl

theorem ended_next (hv : f.Valid n k) (hk : 1 ≤ k) (h : f.reads = false) :
    (f.next n k).ended = f.ended := by
  cases f with
  | readPrimo | readValue => cases h
  | mainPipe | mainFork | mainPadre | mainCierra | mainWait => exact absurd hv (Nat.ne_of_gt hk)
  | genera m => exact absurd hv.1 (Nat.ne_of_gt hk)
  | vuelve j => rcases j with _ | _ | j <;> rfl
  | _ => rfl

theorem closed_next (h : f.closed = true) : (f.next n k).closed = true := by
  cases f with
  | vuelve j => rcases j with _ | _ | j <;> rfl
  | mainWait | padreWait | hijoVuelve | exited => rfl
  | _ => cases h

theorem forked_next (hv : f.Valid n k) (h : f.offspring = []) :
    (f.next n k).forked n k = f.forked n k := by
  cases f with
  | mainFork | filtroFork => cases h
  | genera m => simp only [Phase.next]; split <;> rfl
  | mainWait =>
    obtain rfl : k = 0 := hv
    rfl
  | readPrimo => simp only [Phase.next]; split <;> rfl
  | vacioDerWrite => 
    have := hv.1
    simp [Phase.next, forked, hv.2]; omega
  | readValue m => simp only [Phase.next]; split <;> rfl
  | padreWait => simp [Phase.next, forked, hv.2]
  | vuelve j => rcases j with _ | _ | j <;> rfl
  | _ => rfl

theorem sent_prefix_next (hv : f.Valid n k) : f.sent n k <+: (f.next n k).sent n k := by
  cases hs : f.silent with
  | true => rw [(silent_next hv hs).2.1]
  | false =>
    cases f with
    | genera m =>
      simp only [Phase.next]
      split
      · next hm => 
        obtain rfl := hv.1
        rw [sent_next_genera hm]
        exact List.prefix_append _ _
      · exact hv.1 ▸ List.take_prefix _ _
    | readValue m =>
      simp only [Phase.next]
      split
      · exact List.prefix_rfl
      · exact sent_prefix (f := readValue m) hv
    | filtra m =>
      rw [Phase.next, sent_next_filtra hv.2.2]
      exact List.prefix_append _ _
    | mainPipe | filtroPipe | readPrimo | printPrimo => exact List.nil_prefix
    | _ => cases hs

/-- A read takes the next number of the input, or finds its end. -/
theorem reads_next (hv : f.Valid n k) (h : f.reads = true) :
    (f.taken n k < (input n k).length ∧
        (f.next n k).taken n k = f.taken n k + 1 ∧ (f.next n k).ended = false) ∨
      (f.taken n k = (input n k).length ∧ (f.next n k).taken n k = f.taken n k) := by
  cases f with
  | readPrimo =>
    simp only [Phase.next]
    split
    · next hnil => exact .inr ⟨by simp [taken, hnil], rfl⟩
    · next hne => exact .inl ⟨List.length_pos_iff.mpr hne, rfl, rfl⟩
  | readValue m =>
    simp only [Phase.next]
    split
    · next hm => exact .inl ⟨hm, rfl, rfl⟩
    · next hm =>
      have heq : m = (input n k).length := by
        have := hv.2.2
        omega
      exact .inr ⟨heq, heq.symm⟩
  | _ => cases h

theorem offspring_cases (hv : f.Valid n k) :
    f.offspring = [] ∨ ∃ g, f.offspring = [g] ∧ f.forked n k = false ∧
      (f.next n k).forked n k = true ∧ g.Valid n (k + 1) ∧ g.forked n (k + 1) = false ∧
      g.piped = false ∧ g.taken n (k + 1) = 0 ∧ g.prints n (k + 1) = [] ∧ g.ended = false := by
  cases f with
  | mainFork => exact .inr ⟨_, rfl, rfl, rfl, k.succ_pos, rfl, rfl, rfl, rfl, rfl⟩
  | filtroFork => exact .inr ⟨_, rfl, rfl, rfl, Nat.succ_le_succ hv.1, rfl, rfl, rfl, rfl, rfl⟩
  | _ => exact .inl rfl

end Phase

variable {n : ℤ} {k : ℕ} {f g : Phase}

theorem Follows.next_left (h : Follows n k f g) (hv : f.Valid n k) :
    Follows n k (f.next n k) g :=
  ⟨h.1.trans (Phase.sent_prefix_next hv).length_le, fun hg ↦ Phase.closed_next (h.2 hg)⟩

theorem Follows.next_right (h : Follows n k f g) (hf : f.Valid n k) (hg : g.Valid n (k + 1))
    (hserved : g.reads = true → g.taken n (k + 1) < (f.sent n k).length ∨ f.closed = true) :
    Follows n k f (g.next n (k + 1)) := by
  cases hreads : g.reads with
  | false =>
    unfold Follows
    rw [Phase.taken_next hg hreads, Phase.ended_next hg k.succ_pos hreads]
    exact h
  | true =>
    have hle : (f.sent n k).length ≤ (input n (k + 1)).length := (Phase.sent_prefix hf).length_le
    have hall : f.closed = true → (f.sent n k).length = (input n (k + 1)).length := fun hclosed ↦ by
      rw [Phase.sent_of_closed hclosed, input]
    rcases Phase.reads_next hg hreads with ⟨hlt, htaken, hended⟩ | ⟨heq, htaken⟩
    · refine ⟨?_, fun hend ↦ ?_⟩
      · rw [htaken]
        rcases hserved hreads with hmore | hclosed
        · exact hmore
        · rwa [hall hclosed]
      · rw [hended] at hend
        cases hend
    · refine ⟨htaken.trans_le h.1, fun _ ↦ (hserved hreads).resolve_left ?_⟩
      omega

/-! ## Every chain stays coherent -/

section Advance

variable {fs : List Phase}

theorem advance_of (hf : fs[k]? = some f) :
    advance n fs k = (fs ++ f.offspring).set k (f.next n k) := by simp [advance, hf]

theorem getElem?_advance (hf : fs[k]? = some f) (j : ℕ) :
    (advance n fs k)[j]? = if j = k then some (f.next n k) else (fs ++ f.offspring)[j]? := by
  have hlt : k < (fs ++ f.offspring).length := by
    rw [List.length_append]
    exact Nat.lt_add_right _ (List.getElem?_eq_some_iff.mp hf).1
  rw [advance_of hf, List.getElem?_set]
  simp only [hlt, if_true, eq_comm (a := k)]

namespace Coherent

/-- The process that forks is the last one. -/
theorem last_of_offspring (h : Coherent n fs) (hf : fs[k]? = some f) (ho : f.offspring ≠ []) :
    k + 1 = fs.length := by
  obtain hnil | ⟨g, -, hnot, -⟩ := Phase.offspring_cases (h.valid k f hf)
  · exact absurd hnil ho
  · have hle : ¬k + 1 < fs.length := by simp [← h.forked k f hf, hnot]
    have hlt : k < fs.length := (List.getElem?_eq_some_iff.mp hf).1
    omega

theorem mem_append (h : Coherent n fs) (hf : fs[k]? = some f) {j : ℕ} {b : Phase}
    (hb : (fs ++ f.offspring)[j]? = some b) :
    fs[j]? = some b ∨
      j = k + 1 ∧ fs.length = k + 1 ∧ f.forked n k = false ∧ (f.next n k).forked n k = true ∧
        b.Valid n (k + 1) ∧ b.forked n (k + 1) = false ∧ b.taken n (k + 1) = 0 ∧
        b.ended = false := by
  rcases Phase.offspring_cases (h.valid k f hf) with
    hnil | ⟨g, ho, hnot, hnext, hg, hforked, -, htaken, -, hended⟩
  · rw [hnil, List.append_nil] at hb
    exact .inl hb
  · have hlast : k + 1 = fs.length := h.last_of_offspring hf (by simp [ho])
    rw [ho, List.getElem?_append] at hb
    split at hb
    · exact .inl hb
    · next hj =>
      have hj : j = fs.length := by
        have := (List.getElem?_eq_some_iff.mp hb).1
        simp only [List.length_singleton] at this
        omega
      obtain rfl : g = b := by simpa [hj] using hb
      exact .inr ⟨hj.trans hlast.symm, hlast.symm, hnot, hnext, hg, hforked, htaken, hended⟩

/-- The chain with the new process, before its parent moves on. -/
theorem link_append (h : Coherent n fs) (hf : fs[k]? = some f) {j : ℕ} {a b : Phase}
    (ha : (fs ++ f.offspring)[j]? = some a) (hb : (fs ++ f.offspring)[j + 1]? = some b) :
    Follows n j a b := by
  rcases h.mem_append hf hb with hb | ⟨hj, hlast, -, -, -, -, htaken, hended⟩
  · rcases h.mem_append hf ha with ha | ⟨rfl, hlast, -⟩
    · exact h.link j a b ha hb
    · have := (List.getElem?_eq_some_iff.mp hb).1
      omega
  · obtain rfl : j = k := by omega
    exact ⟨htaken ▸ Nat.zero_le _, fun hend ↦ by simp [hended] at hend⟩

theorem valid_append (h : Coherent n fs) (hf : fs[k]? = some f) {j : ℕ} {a : Phase}
    (ha : (fs ++ f.offspring)[j]? = some a) : a.Valid n j := by
  rcases h.mem_append hf ha with ha | ⟨rfl, -, -, -, hvalid, -⟩
  · exact h.valid j a ha
  · exact hvalid

theorem forked_advance (h : Coherent n fs) (hf : fs[k]? = some f) {j : ℕ} {a : Phase}
    (ha : (if j = k then some (f.next n k) else (fs ++ f.offspring)[j]?) = some a) :
    a.forked n j = true ↔ j + 1 < fs.length + f.offspring.length := by
  have hv : f.Valid n k := h.valid k f hf
  rcases Phase.offspring_cases hv with hnil | ⟨g, ho, -, hnext, -⟩
  · rw [hnil, List.append_nil] at ha
    split at ha
    · next hj =>
      cases ha
      rw [hnil, hj, Phase.forked_next hv hnil]
      exact h.forked k f hf
    · rw [hnil]
      exact h.forked j a ha
  · have hlast : k + 1 = fs.length := h.last_of_offspring hf (by simp [ho])
    have hlength : f.offspring.length = 1 := by rw [ho, List.length_singleton]
    split at ha
    · next hj =>
      cases ha
      rw [hj, hnext]
      simp only [true_iff]
      omega
    · next hj =>
      rcases h.mem_append hf ha with ha | ⟨rfl, -, -, -, -, hforked, -⟩
      · have hlt : j < fs.length := (List.getElem?_eq_some_iff.mp ha).1
        rw [h.forked j a ha]
        omega
      · simp only [hforked, Bool.false_eq_true, false_iff]
        omega

theorem advance (h : Coherent n fs) (hf : fs[k]? = some f) {cap : ℕ} (hr : Ready n fs k cap f) :
    Coherent n (advance n fs k) := by
  have hv : f.Valid n k := h.valid k f hf
  have hk : k < fs.length := (List.getElem?_eq_some_iff.mp hf).1
  have hget := getElem?_advance (n := n) hf
  have hin : (fs ++ f.offspring)[k]? = some f := List.getElem?_append_left hk ▸ hf
  have hlen : (Fork.advance n fs k).length = fs.length + f.offspring.length := by
    simp [advance_of hf]
  refine ⟨?_, fun j a ha ↦ ?_, fun j a ha ↦ ?_, fun j a b ha hb ↦ ?_⟩
  · rw [← List.length_pos_iff]
    omega
  · rw [hget] at ha
    split at ha
    · next hj =>
      cases ha
      exact hj ▸ hv.next
    · exact h.valid_append hf ha
  · rw [hlen]
    exact h.forked_advance hf (hget j ▸ ha)
  · rw [hget] at ha hb
    split at hb
    · next hj =>
      subst hj
      cases hb
      rw [if_neg (by omega)] at ha
      have hlink := h.link_append hf ha hin
      apply hlink.next_right (h.valid_append hf ha) hv
      intro hreads
      rcases h.mem_append hf ha with ha | ⟨hj, hlast, -⟩
      · exact (served_of ha hf).mp (hr.served hreads)
      · omega
    · split at ha
      · next hj =>
        subst hj
        cases ha
        exact (h.link_append hf hin hb).next_left hv
      · exact h.link_append hf ha hb

end Coherent

end Advance

end SistemasOperativos.Fork
