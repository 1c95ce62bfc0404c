import Mathlib.Data.List.Induction
import Mathlib.Tactic.Common

/-!
# Runs of a labelled transition system

Finite runs as sequences of labelled steps, and the two induction rules that every safety proof
uses: an invariant of the steps holds at the end of a run, and in a run whose steps all meet a
condition.
-/

namespace SistemasOperativos.Library

variable {σ ι : Type}

/-- A run: the labels of its steps, from the first one. -/
inductive Run (step : σ → ι → σ → Prop) : σ → List ι → σ → Prop where
  | nil (s : σ) : Run step s [] s
  | cons {s s' s'' : σ} {l : ι} {ls : List ι} :
      step s l s' → Run step s' ls s'' → Run step s (l :: ls) s''

namespace Run

variable {step : σ → ι → σ → Prop}

theorem single {s s' : σ} {l : ι} (h : step s l s') : Run step s [l] s' := .cons h (.nil s')

theorem append {s s' s'' : σ} {ls ls' : List ι} (h : Run step s ls s') (h' : Run step s' ls' s'') :
    Run step s (ls ++ ls') s'' := by
  induction h with
  | nil => exact h'
  | cons hstep _ ih => exact .cons hstep (ih h')

/-- A property that every step preserves is preserved by a run. -/
theorem invariant {Inv : σ → Prop} (hstep : ∀ s l s', Inv s → step s l s' → Inv s')
    {s s' : σ} {ls : List ι} (h : Run step s ls s') (hs : Inv s) : Inv s' := by
  induction h with
  | nil => exact hs
  | cons hfirst _ ih => exact ih (hstep _ _ _ hs hfirst)

/-- A run whose steps, seen from the state they start in, all meet a condition. -/
theorem invariant_of_steps {Inv : σ → Prop} {Ok : σ → ι → σ → Prop}
    (hstep : ∀ s l s', Inv s → Ok s l s' → step s l s' → Inv s')
    {s s' : σ} {ls : List ι} (h : Run (fun a l b ↦ step a l b ∧ Ok a l b) s ls s') (hs : Inv s) :
    Inv s' :=
  invariant (fun a l b ha hab ↦ hstep a l b ha hab.2 hab.1) h hs

/-- Forgetting conditions on the steps. -/
theorem mono {step' : σ → ι → σ → Prop} (hle : ∀ s l s', step s l s' → step' s l s')
    {s s' : σ} {ls : List ι} (h : Run step s ls s') : Run step' s ls s' := by
  induction h with
  | nil => exact .nil _
  | cons hfirst _ ih => exact .cons (hle _ _ _ hfirst) ih

/-- A run in which every label meets a condition. -/
theorem with_labels {P : ι → Prop} {s s' : σ} {ls : List ι} (h : Run step s ls s')
    (hP : ∀ l ∈ ls, P l) : Run (fun a l b ↦ step a l b ∧ P l) s ls s' := by
  induction h with
  | nil => exact .nil _
  | cons hfirst _ ih =>
    exact .cons ⟨hfirst, hP _ List.mem_cons_self⟩ (ih fun l hl ↦ hP l (List.mem_cons_of_mem _ hl))

/-- A run over a concatenation passes through a state in between. -/
theorem split {s s'' : σ} {ls ls' : List ι} (h : Run step s (ls ++ ls') s'') :
    ∃ s', Run step s ls s' ∧ Run step s' ls' s'' := by
  induction ls generalizing s with
  | nil => exact ⟨s, .nil s, h⟩
  | cons l ls ih =>
    cases h with
    | cons hfirst hrest =>
      obtain ⟨s', hls, hls'⟩ := ih hrest
      exact ⟨s', .cons hfirst hls, hls'⟩

/-- Where a state and a label determine the next state, the labels determine the run. -/
theorem unique (hdet : ∀ s l s₁ s₂, step s l s₁ → step s l s₂ → s₁ = s₂) {s s₁ s₂ : σ}
    {ls : List ι} (h : Run step s ls s₁) (h' : Run step s ls s₂) : s₁ = s₂ := by
  induction h with
  | nil => cases h'; rfl
  | cons hfirst _ ih =>
    cases h' with
    | cons hfirst' hrest' =>
      cases hdet _ _ _ _ hfirst hfirst'
      exact ih hrest'

/-- Induction over the states of a run from its start: a property of the first state that each step
of the run carries on holds after every initial segment. -/
theorem along {Inv : σ → Prop} {s : σ} {ls : List ι} (hs : Inv s)
    (hstep : ∀ ls₁ l s₁ s₂, ls₁ ++ [l] <+: ls → Run step s ls₁ s₁ → Inv s₁ → step s₁ l s₂ → Inv s₂)
    {ls₁ : List ι} {s₁ : σ} (hpre : ls₁ <+: ls) (h₁ : Run step s ls₁ s₁) : Inv s₁ := by
  induction ls₁ using List.reverseRecOn generalizing s₁ with
  | nil => cases h₁; exact hs
  | append_singleton ls₀ l ih =>
    obtain ⟨s₀, h₀, hlast⟩ := split h₁
    cases hlast with
    | cons hfirst hnil =>
      cases hnil
      exact hstep ls₀ l s₀ _ hpre h₀ (ih ((List.prefix_append ls₀ [l]).trans hpre) h₀) hfirst

/-- Induction over a run from its start, where the property may speak of the labels so far. -/
theorem history {Inv : List ι → σ → Prop} {s : σ} (hs : Inv [] s)
    (hstep : ∀ ls s₁ l s₂, Run step s ls s₁ → Inv ls s₁ → step s₁ l s₂ → Inv (ls ++ [l]) s₂)
    {ls : List ι} {s' : σ} (h : Run step s ls s') : Inv ls s' := by
  induction ls using List.reverseRecOn generalizing s' with
  | nil => cases h; exact hs
  | append_singleton ls l ih =>
    obtain ⟨s₁, h₁, hlast⟩ := split h
    cases hlast with
    | cons hfirst hnil =>
      cases hnil
      exact hstep ls s₁ l _ h₁ (ih h₁) hfirst

/-- Where each step carries a property on exactly under a condition, the property holds all along a run
exactly when its steps meet the condition. `Base` is what holds in any case. -/
theorem holds_along_iff {Base Inv : σ → Prop} {Ok : σ → ι → σ → Prop}
    (hbase : ∀ s l s', Base s → step s l s' → Base s')
    (hstep : ∀ s l s', Base s → Inv s → step s l s' → (Inv s' ↔ Ok s l s'))
    (hdet : ∀ s l s₁ s₂, step s l s₁ → step s l s₂ → s₁ = s₂) {s s' : σ} {ls : List ι}
    (h : Run step s ls s') (hs : Base s) (hinv : Inv s) :
    (∀ ls₁ s₁, ls₁ <+: ls → Run step s ls₁ s₁ → Inv s₁) ↔
      Run (fun a l b ↦ step a l b ∧ Ok a l b) s ls s' := by
  induction h with
  | nil s =>
    refine iff_of_true (fun ls₁ s₁ hpre h₁ ↦ ?_) (.nil s)
    obtain rfl := List.prefix_nil.mp hpre
    cases h₁
    exact hinv
  | @cons s s₁ s' l ls hfirst hrest ih =>
    have hbase₁ := hbase s l s₁ hs hfirst
    constructor
    · intro hall
      have hinv₁ : Inv s₁ := hall [l] s₁ ⟨ls, rfl⟩ (single hfirst)
      refine .cons ⟨hfirst, (hstep s l s₁ hs hinv hfirst).mp hinv₁⟩ ((ih hbase₁ hinv₁).mp ?_)
      exact fun ls₁ s₂ hpre h₂ ↦ hall (l :: ls₁) s₂ (List.cons_prefix_cons.mpr ⟨rfl, hpre⟩)
        (.cons hfirst h₂)
    · rintro (_ | ⟨⟨hfirst', hok⟩, hrest'⟩) ls₁ s₂ hpre h₂
      rename_i s₁'
      obtain rfl := hdet s l s₁ s₁' hfirst hfirst'
      have hinv₁ : Inv s₁ := (hstep s l s₁ hs hinv hfirst).mpr hok
      cases h₂ with
      | nil => exact hinv
      | @cons _ s₃ _ l' ls₁ hfirst₂ hrest₂ =>
        obtain ⟨rfl, hrest_pre⟩ := List.cons_prefix_cons.mp hpre
        obtain rfl := hdet s l' s₁ s₃ hfirst hfirst₂
        exact (ih hbase₁ hinv₁).mpr hrest' ls₁ s₂ hrest_pre hrest₂

/-- A run is no longer than a measure that every step brings down. -/
theorem bounded {Inv : ℕ → σ → Prop}
    (hstep : ∀ m s l s', Inv m s → step s l s' → ∃ m' < m, Inv m' s')
    {s s' : σ} {ls : List ι} (h : Run step s ls s') {m : ℕ} (hs : Inv m s) :
    ∃ m', ls.length + m' ≤ m ∧ Inv m' s' := by
  induction h generalizing m with
  | nil => exact ⟨m, by simp, hs⟩
  | cons hfirst _ ih =>
    obtain ⟨m₁, hlt, h₁⟩ := hstep _ _ _ _ hs hfirst
    obtain ⟨m', hle, h'⟩ := ih h₁
    exact ⟨m', by rw [List.length_cons]; omega, h'⟩

end Run

end SistemasOperativos.Library
