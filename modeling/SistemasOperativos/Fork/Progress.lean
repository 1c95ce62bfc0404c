import SistemasOperativos.Fork.Coherence

/-!
# The chain of filters ends

Every advance uses up one of the steps that the processes have left, and a chain in which no process
can advance is one where all have exited: nobody waits for room, since the reader of a full pipe
would have to wait for room as well, and so on along the chain.
-/

namespace SistemasOperativos.Fork

open scoped Nat.Prime

variable {n : ℤ} {fs : List Phase} {k cap : ℕ} {f : Phase}

/-! ## Termination -/

namespace Phase

theorem input_of_forked (hv : f.Valid n k) (hf : f.forked n k = true) : k = 0 ∨ input n k ≠ [] := by
  cases f with
  | mainPadre | mainCierra | mainWait => exact .inl hv
  | genera => exact .inl hv.1
  | padre | cierraIzq | cierraDer | padreWait => exact .inr hv.2
  | readValue => exact .inr (List.length_pos_iff.mp (hv.2.1.trans hv.2.2))
  | filtra => exact .inr (List.length_pos_iff.mp (Nat.zero_lt_of_lt hv.2.2))
  | vuelve | hijoVuelve | exited => simpa [forked] using hf
  | _ => cases hf

theorem remaining_offspring {g : Phase} (hg : g ∈ f.offspring) :
    g.remaining n k ≤ hijo.remaining n k := by
  cases f with
  | mainFork | filtroFork =>
    obtain rfl := List.mem_singleton.mp hg
    simp only [remaining]
    omega
  | _ => cases hg

end Phase

/-- The last filter finds its input empty. -/
theorem Coherent.length_le (h : Coherent n fs) : fs.length ≤ π n.toNat + 2 := by
  by_contra hlong
  have hlt : π n.toNat + 1 + 1 < fs.length := by omega
  have hf : fs[π n.toNat + 1]? = some fs[π n.toNat + 1] := List.getElem?_eq_getElem _
  have hforked := (h.forked _ _ hf).mpr hlt
  rcases Phase.input_of_forked (h.valid _ _ hf) hforked with hzero | hne
  · omega
  · exact lt_irrefl _ (input_ne_nil_iff.mp hne)

/-- The steps that all processes have still to make, those included that do not exist yet. -/
def remainingSteps (n : ℤ) (fs : List Phase) : ℕ :=
  ∑ k ∈ Finset.range (π n.toNat + 2), (fs[k]?.getD .hijo).remaining n k

theorem remainingSteps_advance (h : Coherent n fs) (hf : fs[k]? = some f) (hne : f ≠ .exited) :
    remainingSteps n (advance n fs k) < remainingSteps n fs := by
  have hk : k < fs.length := (List.getElem?_eq_some_iff.mp hf).1
  have hnext := Phase.remaining_next (h.valid k f hf) hne
  apply Finset.sum_lt_sum
  · intro j _
    rw [getElem?_advance hf]
    split
    · next hj =>
      subst hj
      simpa [hf] using hnext.le
    · rw [List.getElem?_append]
      split
      · exact le_rfl
      · next hj =>
        rw [List.getElem?_eq_none (not_lt.mp hj)]
        cases hg : f.offspring[j - fs.length]? with
        | none => exact le_rfl
        | some g => exact Phase.remaining_offspring (List.mem_of_getElem? hg)
  · refine ⟨k, Finset.mem_range.mpr (hk.trans_le h.length_le), ?_⟩
    rw [getElem?_advance hf, if_pos rfl]
    simpa [hf] using hnext

/-! ## Progress -/

/-- No process can advance. -/
def Stuck (n : ℤ) (cap : ℕ) (fs : List Phase) : Prop :=
  ∀ k (f : Phase), fs[k]? = some f → ¬Ready n fs k cap f

namespace Coherent

/-- What a process that cannot advance is waiting for. -/
theorem waits_of_not_ready (h : Coherent n fs) (hf : fs[k]? = some f) (hr : ¬Ready n fs k cap f) :
    (f.closed = false ∧ f.forked n k = true ∧ ¬Room n fs k cap) ∨
      (f.reads = true ∧ 1 ≤ k ∧ ¬Served n fs k) ∨
        (f.closed = true ∧ (1 ≤ k → f.ended = true) ∧
          (f ≠ .exited → f.forked n k = true ∧ fs[k + 1]? ≠ some .exited)) := by
  have hv := h.valid k f hf
  cases f with
  | genera => exact .inl ⟨rfl, rfl, fun hroom ↦ hr fun _ ↦ hroom⟩
  | filtra => exact .inl ⟨rfl, rfl, fun hroom ↦ hr fun _ ↦ hroom⟩
  | readPrimo => exact .inr (.inl ⟨rfl, hv, hr⟩)
  | readValue => exact .inr (.inl ⟨rfl, hv.1, hr⟩)
  | mainWait => exact .inr (.inr ⟨rfl, fun hk ↦ absurd hv (Nat.ne_of_gt hk), fun _ ↦ ⟨rfl, hr⟩⟩)
  | padreWait => exact .inr (.inr ⟨rfl, fun _ ↦ rfl, fun _ ↦ ⟨rfl, hr⟩⟩)
  | exited => exact .inr (.inr ⟨rfl, fun _ ↦ rfl, fun hne ↦ absurd rfl hne⟩)
  | _ => exact absurd trivial hr

/-- The reader of a full pipe is not waiting for its writer. -/
theorem served_of_full (hcap : 0 < cap) {g : Phase} (hf : fs[k]? = some f)
    (hg : fs[k + 1]? = some g) (hfull : ¬Room n fs k cap) : Served n fs (k + 1) := by
  rw [Room, sentBy_of hf, takenBy_of hg] at hfull
  exact (served_of hf hg).mpr (.inl (by omega))

/-- In a stuck chain nobody waits for room. By induction on the number of processes from `k` on: the
reader of a full pipe would have to wait for room itself. -/
theorem room_of_stuck (h : Coherent n fs) (hcap : 0 < cap) (hstuck : Stuck n cap fs) (d : ℕ) :
    ∀ {k : ℕ} {f : Phase}, fs.length ≤ k + d → fs[k]? = some f → f.closed = false →
      f.forked n k = true → Room n fs k cap := by
  induction d with
  | zero =>
    intro k f hd hf
    have hk : k < fs.length := (List.getElem?_eq_some_iff.mp hf).1
    omega
  | succ d ih =>
    intro k f hd hf hopen hforked
    by_contra hfull
    have hlt : k + 1 < fs.length := (h.forked k f hf).mp hforked
    have hg : fs[k + 1]? = some fs[k + 1] := List.getElem?_eq_getElem _
    rcases h.waits_of_not_ready hg (hstuck _ _ hg) with
      ⟨hgopen, hgforked, hgfull⟩ | ⟨-, -, hnot⟩ | ⟨-, hended, -⟩
    · exact hgfull (ih (by omega) hg hgopen hgforked)
    · exact hnot (served_of_full hcap hf hg hfull)
    · have hclosed := (h.link k f _ hf hg).2 (hended k.succ_pos)
      rw [hopen] at hclosed
      cases hclosed

/-- In a stuck chain everybody has closed the end it writes to. -/
theorem closed_of_stuck (h : Coherent n fs) (hcap : 0 < cap) (hstuck : Stuck n cap fs) {k : ℕ} :
    ∀ {f : Phase}, fs[k]? = some f → f.closed = true := by
  induction k with
  | zero =>
    intro f hf
    rcases h.waits_of_not_ready hf (hstuck _ _ hf) with
      ⟨hopen, hforked, hfull⟩ | ⟨-, hpos, -⟩ | ⟨hclosed, -⟩
    · exact absurd (h.room_of_stuck hcap hstuck fs.length (by omega) hf hopen hforked) hfull
    · cases hpos
    · exact hclosed
  | succ k ih =>
    intro f hf
    have hk : k + 1 < fs.length := (List.getElem?_eq_some_iff.mp hf).1
    have hprev : fs[k]? = some fs[k] := List.getElem?_eq_getElem _
    rcases h.waits_of_not_ready hf (hstuck _ _ hf) with
      ⟨hopen, hforked, hfull⟩ | ⟨-, -, hnot⟩ | ⟨hclosed, -⟩
    · exact absurd (h.room_of_stuck hcap hstuck fs.length (by omega) hf hopen hforked) hfull
    · exact absurd ((served_of hprev hf).mpr (.inr (ih hprev))) hnot
    · exact hclosed

/-- In a stuck chain everybody has exited. By induction on the number of processes from `k` on: who
waits for a child would go on once that has exited. -/
theorem exited_of_stuck (h : Coherent n fs) (hcap : 0 < cap) (hstuck : Stuck n cap fs) (d : ℕ) :
    ∀ {k : ℕ} {f : Phase}, fs.length ≤ k + d → fs[k]? = some f → f = .exited := by
  induction d with
  | zero =>
    intro k f hd hf
    have hk : k < fs.length := (List.getElem?_eq_some_iff.mp hf).1
    omega
  | succ d ih =>
    intro k f hd hf
    by_contra hne
    have hclosed := h.closed_of_stuck hcap hstuck hf
    rcases h.waits_of_not_ready hf (hstuck _ _ hf) with
      ⟨hopen, -, -⟩ | ⟨hreads, -, -⟩ | ⟨-, -, hwaits⟩
    · rw [hclosed] at hopen
      cases hopen
    · cases f with
      | readPrimo | readValue => cases hclosed
      | _ => cases hreads
    · obtain ⟨hforked, hchild⟩ := hwaits hne
      have hlt : k + 1 < fs.length := (h.forked k f hf).mp hforked
      have hg : fs[k + 1]? = some fs[k + 1] := List.getElem?_eq_getElem _
      exact hchild (hg.trans (congrArg some (ih (by omega) hg)))

/-- The chain that cannot advance: a process for each prime, the generator before and the filter
that finds nothing after. -/
theorem eq_replicate_of_stuck (h : Coherent n fs) (hcap : 0 < cap) (hstuck : Stuck n cap fs) :
    fs = List.replicate (π n.toNat + 2) .exited := by
  have hall : ∀ {k : ℕ} {f : Phase}, fs[k]? = some f → f = .exited :=
    h.exited_of_stuck hcap hstuck fs.length (Nat.le_add_left _ _)
  have hpos : 0 < fs.length := List.length_pos_iff.mpr h.nonempty
  have hlast : fs[fs.length - 1]? = some fs[fs.length - 1] := List.getElem?_eq_getElem _
  have hend : Phase.exited.forked n (fs.length - 1) = false := by
    rw [Bool.eq_false_iff, ← hall hlast, ne_eq, h.forked _ _ hlast]
    omega
  have hlong : π n.toNat + 2 ≤ fs.length := by
    cases hj : fs.length - 1 with
    | zero => simp [hj, Phase.forked] at hend
    | succ j =>
      rw [hj] at hend
      have hnil : ¬input n (j + 1) ≠ [] := by simpa [Phase.forked] using hend
      rw [input_ne_nil_iff] at hnil
      omega
  rw [List.eq_replicate_iff]
  refine ⟨le_antisymm h.length_le hlong, fun f hf ↦ ?_⟩
  obtain ⟨k, hk⟩ := List.mem_iff_getElem?.mp hf
  exact hall hk

end Coherent

end SistemasOperativos.Fork
