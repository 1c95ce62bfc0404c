import SistemasOperativos.Library.LinkedList

/-!
# Segments of linked lists

A part of a linked list, from a pointer to the pointer after its last node. Lists that are built at
their ends are such parts until the last link is written.
-/

namespace SistemasOperativos.Library

variable {α : Type*} {next next' : α → Option α} {head last mid : Option α} {a : α} {l l' : List α}

/-- The nodes `l` follow each other from the pointer `head`, and the link of the last one is `last`. -/
def Segment (next : α → Option α) : Option α → List α → Option α → Prop
  | head, [], last => head = last
  | head, a :: l, last => head = some a ∧ Segment next (next a) l last

theorem segment_none : Segment next head l none ↔ Chain next head l := by
  induction l generalizing head with
  | nil => exact Iff.rfl
  | cons a l ih => exact and_congr_right fun _ ↦ ih

/-- A segment is followed by another one. -/
theorem Segment.append (h : Segment next head l mid) (h' : Segment next mid l' last) :
    Segment next head (l ++ l') last := by
  induction l generalizing head with
  | nil =>
    have hhead : head = mid := h
    rw [hhead]
    exact h'
  | cons a l ih => exact ⟨h.1, ih h.2⟩

theorem Segment.single : Segment next (some a) [a] (next a) := ⟨rfl, rfl⟩

/-- Links outside the segment do not matter. -/
theorem Segment.congr (h : Segment next head l last) (heq : ∀ a ∈ l, next' a = next a) :
    Segment next' head l last := by
  induction l generalizing head with
  | nil => exact h
  | cons a l ih =>
    constructor
    · exact h.1
    · rw [heq a List.mem_cons_self]
      exact ih h.2 fun b hb ↦ heq b (List.mem_cons_of_mem a hb)

theorem Segment.update [DecidableEq α] (h : Segment next head l last) (ha : a ∉ l) (p : Option α) :
    Segment (Function.update next a p) head l last := by
  apply h.congr
  intro b hb
  have hne : b ≠ a := fun hba ↦ ha (hba ▸ hb)
  rw [Function.update_of_ne hne]

/-- The link of the last node is where the segment ends. -/
theorem Segment.relink [DecidableEq α] (h : Segment next head (l ++ [a]) last) (ha : a ∉ l)
    (p : Option α) : Segment (Function.update next a p) head (l ++ [a]) p := by
  induction l generalizing head with
  | nil =>
    have hhead : head = some a := h.1
    rw [hhead]
    exact ⟨rfl, Function.update_self ..⟩
  | cons b l ih =>
    have hne : b ≠ a := fun hba ↦ ha (hba ▸ List.mem_cons_self)
    constructor
    · exact h.1
    · rw [Function.update_of_ne hne]
      exact ih h.2 fun hmem ↦ ha (List.mem_cons_of_mem b hmem)

end SistemasOperativos.Library
