import Mathlib.Data.List.Nodup
import Mathlib.Logic.Function.Basic

/-!
# Linked lists in an array

The nodes of an array are linked by a function `next`, and a list starts at a pointer that may be
null. `Chain next head l` says that the list from `head` is finite and that its nodes are `l`.
-/

namespace SistemasOperativos.Library

variable {α : Type*} {next next' : α → Option α} {head : Option α} {a : α} {l l' : List α}

def Chain (next : α → Option α) : Option α → List α → Prop
  | head, [] => head = none
  | head, a :: l => head = some a ∧ Chain next (next a) l

instance Chain.decidable [DecidableEq α] (next : α → Option α) :
    ∀ (head : Option α) (l : List α), Decidable (Chain next head l)
  | head, [] => inferInstanceAs (Decidable (head = none))
  | _, a :: l => @instDecidableAnd _ _ _ (Chain.decidable next (next a) l)

theorem Chain.of_none (h : Chain next none l) : l = [] := by
  cases l with
  | nil => rfl
  | cons a l => exact absurd h.1 (by simp)

/-- The first node of a list that is not empty, and the rest of the list. -/
theorem Chain.of_some (h : Chain next (some a) l) :
    ∃ rest, l = a :: rest ∧ Chain next (next a) rest := by
  cases l with
  | nil => exact absurd h (by simp [Chain])
  | cons b rest =>
    obtain ⟨hb, hrest⟩ := h
    obtain rfl : a = b := by simpa using hb
    exact ⟨rest, rfl, hrest⟩

/-- A pointer determines its list. -/
theorem Chain.unique (h : Chain next head l) (h' : Chain next head l') : l = l' := by
  induction l generalizing head l' with
  | nil =>
    have hnull : head = none := h
    subst hnull
    exact h'.of_none.symm
  | cons a l ih =>
    obtain ⟨rfl, hl⟩ := h
    obtain ⟨rest, rfl, hrest⟩ := h'.of_some
    rw [ih hl hrest]

/-- The list from a node that lies on a list. -/
theorem Chain.suffix (h : Chain next head l) (ha : a ∈ l) :
    ∃ rest, Chain next (some a) (a :: rest) ∧ (a :: rest).length ≤ l.length := by
  induction l generalizing head with
  | nil => exact absurd ha (by simp)
  | cons b l ih =>
    obtain ⟨-, hl⟩ := h
    rcases List.mem_cons.mp ha with rfl | ha
    · exact ⟨l, ⟨rfl, hl⟩, Nat.le_refl _⟩
    · obtain ⟨rest, hrest, hlen⟩ := ih hl ha
      exact ⟨rest, hrest, by simp only [List.length_cons] at hlen ⊢; omega⟩

/-- A finite list never passes a node twice, for it would then start over from there. -/
theorem Chain.nodup (h : Chain next head l) : l.Nodup := by
  induction l generalizing head with
  | nil => exact List.nodup_nil
  | cons a l ih =>
    obtain ⟨-, hl⟩ := h
    refine List.nodup_cons.mpr ⟨fun ha ↦ ?_, ih hl⟩
    obtain ⟨rest, hrest, hlen⟩ := hl.suffix ha
    have heq : rest = l := hrest.2.unique hl
    rw [heq, List.length_cons] at hlen
    omega

/-- Links outside the list do not matter. -/
theorem Chain.congr (h : Chain next head l) (heq : ∀ a ∈ l, next' a = next a) :
    Chain next' head l := by
  induction l generalizing head with
  | nil => exact h
  | cons a l ih =>
    obtain ⟨hhead, hl⟩ := h
    refine ⟨hhead, ?_⟩
    rw [heq a (by simp)]
    exact ih hl fun b hb ↦ heq b (by simp [hb])

theorem Chain.update [DecidableEq α] (h : Chain next head l) (ha : a ∉ l) (p : Option α) :
    Chain (Function.update next a p) head l := by
  refine h.congr fun b hb ↦ ?_
  have hne : b ≠ a := fun hba ↦ ha (hba ▸ hb)
  rw [Function.update_of_ne hne]

/-- A node that is not on the list is linked in front of it. -/
theorem Chain.push [DecidableEq α] (h : Chain next head l) (ha : a ∉ l) :
    Chain (Function.update next a head) (some a) (a :: l) :=
  ⟨rfl, by rw [Function.update_self]; exact h.update ha head⟩

/-- The first node is taken off the list, and its link may change. -/
theorem Chain.pop [DecidableEq α] (h : Chain next (some a) l) (p : Option α) :
    ∃ rest, l = a :: rest ∧ a ∉ rest ∧ Chain (Function.update next a p) (next a) rest := by
  obtain ⟨rest, rfl, hrest⟩ := h.of_some
  have ha : a ∉ rest := (List.nodup_cons.mp h.nodup).1
  exact ⟨rest, rfl, ha, hrest.update ha p⟩

end SistemasOperativos.Library
