import SistemasOperativos.Fork.Pipes

/-!
# The descriptors of the filters

Every filter closes one number before it calls `pipe` and has the other end of its input pipe under
0 or 1, so that the numbers of the new pipe alternate along the chain.
-/

namespace SistemasOperativos.Fork

/-- The numbers of `pipe_der` in process `k`: the free ones, among which 0 and 1 alternate. -/
def derFds (k : ℕ) : Fds := if k % 2 = 1 then ⟨1, 2⟩ else ⟨0, 2⟩

def izqFds (k : ℕ) : Fds := if k ≤ 1 then ⟨0, 1⟩ else derFds (k - 1)

def slot (open? : Bool) (e : End) : Option End := if open? then some e else none

/-- The table of process `k` once it has both pipes, with those of its ends that are still open. -/
def table (k : ℕ) (izq derRead derWrite : Bool) : Table :=
  if k % 2 = 1 then [slot izq ⟨k - 1, .read⟩, slot derRead ⟨k, .read⟩, slot derWrite ⟨k, .write⟩]
  else [slot derRead ⟨k, .read⟩, slot izq ⟨k - 1, .read⟩, slot derWrite ⟨k, .write⟩]

/-- The table of process `k` before it calls `pipe`. -/
def tableBefore (k : ℕ) (izqWrite : Bool) : Table :=
  if k = 1 then [some ⟨0, .read⟩, slot izqWrite ⟨0, .write⟩] else table (k - 1) false true izqWrite

/-! ## Closing and opening -/

theorem izqFds_succ {k : ℕ} (hk : 1 ≤ k) : izqFds (k + 1) = derFds k := by
  simp [izqFds, show ¬k + 1 ≤ 1 by omega]

theorem derFds_write (k : ℕ) : (derFds k).write = 2 := by
  unfold derFds
  split <;> rfl

theorem izqFds_write {k : ℕ} (hk : 2 ≤ k) : (izqFds k).write = 2 := by
  simp [izqFds, derFds_write, show ¬k ≤ 1 by omega]

theorem izqFds_read {k : ℕ} (hk : 1 ≤ k) : (izqFds k).read = if k % 2 = 1 then 0 else 1 := by
  unfold izqFds derFds
  grind

theorem derFds_read (k : ℕ) : (derFds k).read = if k % 2 = 1 then 1 else 0 := by
  unfold derFds
  split <;> rfl

section Close

variable {k : ℕ} {izq derRead derWrite : Bool}

theorem close_izqRead (hk : 1 ≤ k) :
    (table k izq derRead derWrite).close (izqFds k).read = table k false derRead derWrite := by
  rw [izqFds_read hk, table, table]
  split <;> rfl

theorem close_derRead :
    (table k izq derRead derWrite).close (derFds k).read = table k izq false derWrite := by
  rw [derFds_read, table, table]
  split <;> rfl

theorem close_derWrite :
    (table k izq derRead derWrite).close (derFds k).write = table k izq derRead false := by
  rw [derFds_write, table, table]
  split <;> rfl

/-- The number that every filter closes first comes back for an end of its own pipe. -/
theorem close_izqWrite (hk : 2 ≤ k) :
    (table k izq derRead derWrite).close (izqFds k).write = table k izq derRead false := by
  rw [izqFds_write hk, ← derFds_write k, close_derWrite]

theorem close_izqWrite_one :
    (table 1 izq derRead derWrite).close (izqFds 1).write = table 1 izq false derWrite := rfl

theorem close_before (hk : 1 ≤ k) :
    (tableBefore k true).close (izqFds k).write = tableBefore k false := by
  rcases Nat.eq_or_lt_of_le hk with rfl | hk
  · rfl
  · have hpred : izqFds k = derFds (k - 1) := by simp [izqFds, show ¬k ≤ 1 by omega]
    simp only [tableBefore, if_neg (show k ≠ 1 by omega), hpred, close_derWrite]

theorem close_hijo (hk : 2 ≤ k) :
    (table (k - 1) true true true).close (izqFds (k - 1)).read = tableBefore k true := by
  rw [close_izqRead (by omega), tableBefore, if_neg (by omega)]

/-- With everything closed, another `close` does nothing. -/
theorem close_closed (fd : ℕ) :
    (table k false false false).close fd = table k false false false := by
  have hnone : table k false false false = [none, none, none] := by simp [table, slot]
  rw [hnone]
  match fd with
  | 0 | 1 | 2 | _ + 3 => rfl

/-- The two calls that `pipe` makes for its numbers. -/
theorem install_before (hk : 1 ≤ k) :
    (tableBefore k false).lowest = (derFds k).read ∧
      ((tableBefore k false).install ⟨k, .read⟩).lowest = (derFds k).write ∧
      ((tableBefore k false).install ⟨k, .read⟩).install ⟨k, .write⟩ = table k true true true := by
  rcases Nat.eq_or_lt_of_le hk with rfl | hk
  · decide
  · rw [tableBefore, if_neg (by omega), derFds_read, derFds_write]
    by_cases hodd : k % 2 = 1
    · have hpred : (k - 1) % 2 ≠ 1 := by omega
      simp [table, hodd, hpred, slot, Table.install, Table.lowest]
    · have hpred : (k - 1) % 2 = 1 := by omega
      simp [table, hodd, hpred, slot, Table.install, Table.lowest]

theorem getElem?_izqRead (hk : 1 ≤ k) :
    (table k true derRead derWrite)[(izqFds k).read]? = some (some ⟨k - 1, .read⟩) := by
  rw [izqFds_read hk, table]
  split <;> rfl

theorem getElem?_derWrite :
    (table k izq derRead true)[(derFds k).write]? = some (some ⟨k, .write⟩) := by
  rw [derFds_write, table]
  split <;> rfl

end Close

/-! ## Which ends are open -/

theorem mem_table {k : ℕ} {izq derRead derWrite : Bool} {e : End} :
    some e ∈ table k izq derRead derWrite ↔
      izq = true ∧ e = ⟨k - 1, .read⟩ ∨ derRead = true ∧ e = ⟨k, .read⟩ ∨
        derWrite = true ∧ e = ⟨k, .write⟩ := by
  unfold table slot
  split <;> cases izq <;> cases derRead <;> cases derWrite <;> simp <;> tauto

theorem mem_tableBefore {k : ℕ} {w : Bool} {e : End} :
    some e ∈ tableBefore k w ↔ e = ⟨k - 1, .read⟩ ∨ w = true ∧ e = ⟨k - 1, .write⟩ := by
  unfold tableBefore
  split
  · next h => cases w <;> simp [h, slot]
  · simp [mem_table]

end SistemasOperativos.Fork
