import SistemasOperativos.Jos.EnvIds
import SistemasOperativos.Jos.OneCpu
import SistemasOperativos.Jos.Boot

/-!
# Round robin

On one CPU the scheduler `sched_rr` goes around the table of environments: between two selections of an
environment it comes to every other one, as long as it starts where it stopped. It forgets that place
when it destroys the environment of the CPU, and then it starts over from the first slot.
-/

namespace SistemasOperativos.Jos

open Library Library.Except

variable {n : ℕ} {s : Scheduler} {c : Fin n} {k k₁ k₂ k' : Kernel n} {e f g : EnvPtr}

/-! ## The order of the search -/

namespace Kernel

/-- The first slot that the search finds from `start` on is not behind any other one that it could
have found. -/
theorem find_circular {p : EnvPtr → Bool} {start : ℕ} (h : (circular start).find? p = some e)
    (hg : p g = true) : p e = true ∧
      (e - BitVec.ofNat 10 start).toNat ≤ (g - BitVec.ofNat 10 start).toNat := by
  obtain ⟨hfound, before, after, hsplit, hbefore⟩ := List.find?_eq_some_iff_append.mp h
  refine ⟨hfound, ?_⟩
  have hnth : ∀ i < nenv, (circular start)[i]? = some (BitVec.ofNat 10 (i + start)) := by
    intro i hi
    simp [circular, hi]
  have hlength : before.length < nenv := by
    have hlen := congrArg List.length hsplit
    simp only [circular, List.length_map, List.length_range, List.length_append,
      List.length_cons] at hlen
    omega
  have hslot : e = BitVec.ofNat 10 (before.length + start) := by
    have hat := hnth before.length hlength
    rw [hsplit, List.getElem?_append_right (Nat.le_refl _)] at hat
    simpa using hat
  have hdist : ∀ i < nenv,
      (BitVec.ofNat 10 (i + start) - BitVec.ofNat 10 start).toNat = i := by
    intro i hi
    have hnenv : nenv = 1024 := rfl
    simp only [BitVec.toNat_sub, BitVec.toNat_ofNat]
    omega
  rw [hslot, hdist _ hlength]
  by_contra hlt
  have hlt' : (g - BitVec.ofNat 10 start).toNat < before.length := by omega
  have hgslot : BitVec.ofNat 10 ((g - BitVec.ofNat 10 start).toNat + start) = g := by
    apply BitVec.eq_of_toNat_eq
    have := g.isLt
    simp only [BitVec.toNat_sub, BitVec.toNat_ofNat]
    omega
  have hmem : g ∈ before := by
    refine List.mem_of_getElem? (i := (g - BitVec.ofNat 10 start).toNat) ?_
    have hat := hnth _ (Nat.lt_trans hlt' hlength)
    rwa [hsplit, List.getElem?_append_left hlt', hgslot] at hat
  have hnot := hbefore g hmem
  rw [hg] at hnot
  cases hnot

/-- How far a slot is behind `f` on the way around. -/
def behind (f e : EnvPtr) : ℕ := (e - f - 1).toNat

theorem behind_self (f : EnvPtr) : behind f f = 1023 := by
  unfold behind
  rw [BitVec.sub_self]
  rfl

theorem behind_injective {x : EnvPtr} (h : behind f x = behind f g) : x = g := by
  have hsub : x - f - 1 = g - f - 1 := BitVec.eq_of_toNat_eq h
  calc x = x - f - 1 + 1 + f := by rw [BitVec.sub_add_cancel, BitVec.sub_add_cancel]
    _ = g := by rw [hsub, BitVec.sub_add_cancel, BitVec.sub_add_cancel]

/-- A step around the table that does not pass `bg` stays before it. -/
theorem toNat_le_of_sub {bx be bg : EnvPtr} (hbe : be.toNat < bg.toNat)
    (hx : (bx - be - 1).toNat ≤ (bg - be - 1).toNat) : bx.toNat ≤ bg.toNat := by
  have hxlt := bx.isLt
  have hglt := bg.isLt
  have hone : (1 : EnvPtr).toNat = 1 := rfl
  have hg : (bg - be - 1).toNat = bg.toNat - be.toNat - 1 := by
    simp only [BitVec.toNat_sub, hone]
    omega
  have hforward : bx.toNat ≤ be.toNat ∨ (bx - be - 1).toNat = bx.toNat - be.toNat - 1 := by
    simp only [BitVec.toNat_sub, hone]
    omega
  omega

/-- The search from behind `e`, which lies between `f` and `g`, goes no further than `g`. -/
theorem behind_between {x : EnvPtr} (hfg : f ≠ g) (hbetween : e = f ∨ behind f e < behind f g)
    (hx : behind e x ≤ behind e g) : behind f x ≤ behind f g ∧ x ≠ f := by
  have hle : behind f x ≤ behind f g := by
    rcases hbetween with rfl | hbetween
    · exact hx
    · have hshift : ∀ y : EnvPtr, y - e - 1 = (y - f - 1) - (e - f - 1) - 1 := by
        intro y
        grind
      unfold behind at hx
      rw [hshift x, hshift g] at hx
      exact toNat_le_of_sub hbetween hx
  refine ⟨hle, ?_⟩
  rintro rfl
  refine hfg (behind_injective (f := x) ?_)
  have hlt : behind x g < 1024 := (g - x - 1).isLt
  rw [behind_self] at hle ⊢
  omega

/-! ## The choice of `sched_rr` -/

/-- Where an environment is runnable, `sched_rr` chooses one that is not behind it. -/
theorem schedRr_order (hg : (k.envs g).envStatus = .runnable) :
    ∃ x, k.schedRr c = some x ∧ (k.envs x).envStatus = .runnable ∧
      (x - BitVec.ofNat 10 (k.nextCurenvInd c)).toNat ≤
        (g - BitVec.ofNat 10 (k.nextCurenvInd c)).toNat := by
  have hready : ((k.envs g).envStatus == EnvStatus.runnable) = true := by simp [hg]
  unfold schedRr
  cases hfind : (circular (k.nextCurenvInd c)).find?
      fun e ↦ (k.envs e).envStatus == EnvStatus.runnable with
  | none =>
    have hnone := List.find?_eq_none.mp hfind g (mem_circular _ g)
    exact absurd hready hnone
  | some x =>
    obtain ⟨hx, horder⟩ := find_circular hfind hready
    exact ⟨x, rfl, by simpa using hx, horder⟩

/-- The search starts just behind the current environment. -/
theorem Numbered.nextCurenvInd (h : k.Numbered) (hcur : k.curenv c = some e) :
    BitVec.ofNat 10 (k.nextCurenvInd c) = e + 1 := by
  unfold Kernel.nextCurenvInd
  rw [hcur]
  simp only [h.slot e (h.current c e hcur)]
  apply BitVec.eq_of_toNat_eq
  have hone : (1 : EnvPtr).toNat = 1 := rfl
  simp only [BitVec.toNat_ofNat, BitVec.toNat_add, hone]

/-! ## Scheduling points -/

/-- A step either leaves the CPUs their environments, or it calls the scheduler once: with the same
environments, or after the one of the CPU has been destroyed. -/
theorem Section.schedules {ev : Event n} {acts : List Action} {next : Option EnvPtr}
    (h : k.Section s ev acts next k') :
    k'.totalSchedCalls = k.totalSchedCalls ∧ k'.curenv = k.curenv ∨
    k'.totalSchedCalls = k.totalSchedCalls + 1 ∧ ∃ c, ∃ k₂ : Kernel n, k₂.schedYield s c = .ok k' ∧
      (k.Numbered → k₂.Numbered) ∧
      (k₂.curenv = k.curenv ∨ ∃ p, k.curenv c = some p ∧ k₂.curenv c = none ∧
        (k₂.envs p).envStatus = .free ∧
        ∀ e ≠ p, (k₂.envs e).envStatus = (k.envs e).envStatus) := by
  cases h with
  | create boot linked run =>
    left
    let inv : Kernel n → Prop := fun k₁ ↦
      k₁.totalSchedCalls = k.totalSchedCalls ∧ k₁.curenv = k.curenv
    have hinv : inv k' := by
      refine run.invariant ?_ ⟨rfl, rfl⟩
      rintro k₁ a k₂ ⟨hcalls, hcur⟩ ⟨heffect, hboots⟩
      refine ⟨heffect.calls.trans hcalls, (heffect.keeps_curenv ?_).trans hcur⟩
      rintro e rfl
      exact hboots
    exact hinv
  | store => exact Or.inl ⟨rfl, rfl⟩
  | inside enters run loses exit =>
    rename_i c call k₁ k₂ k₃
    let inv : Kernel n → Prop := fun k₂ ↦
      k₂.totalSchedCalls = k.totalSchedCalls ∧ k₂.curenv = k.curenv
    have hinv : inv k₂ := by
      refine run.invariant ?_ ⟨enters.calls, enters.curenv⟩
      rintro k₁ a k₂ ⟨hcalls, hcur⟩ ⟨heffect, hpermitted⟩
      refine ⟨heffect.calls.trans hcalls, (heffect.keeps_curenv ?_).trans hcur⟩
      rintro e rfl
      exact hpermitted
    obtain ⟨hcalls, hcur⟩ := hinv
    have hnumbered : k.Numbered → k₃.Numbered := fun h ↦ ((h.enters enters).actions run).loses loses
    cases loses with
    | keeps =>
      cases exit with
      | resume current =>
        refine Or.inl ⟨envRun_calls.trans hcalls, ?_⟩
        rw [← hcur]
        funext c'
        by_cases hc : c' = c
        · rw [hc, envRun_curenv, current]
        · exact congrArg CpuInfo.cpuEnv (envRun_cpus_of_ne hc)
      | yield call =>
        refine Or.inr ⟨(schedYield_calls call).trans (by rw [hcalls]), c, _, call, hnumbered, ?_⟩
        exact Or.inl hcur
    | exit effect =>
      cases run
      cases effect with
      | exit current call =>
        rename_i p kf
        have hlost : (kf.setCurenv c none).curenv c = none := setCurenv_self
        cases exit with
        | resume current' =>
          rw [hlost] at current'
          cases current'
        | yield call' =>
          refine Or.inr ⟨(schedYield_calls call').trans ?_, c, _, call', hnumbered,
            Or.inr ⟨p, ?_, hlost, ?_, fun e he ↦ ?_⟩⟩
          · have hfree := envFree_calls call
            rw [← hcalls, ← hfree]
            rfl
          · rw [← hcur]
            exact current
          · rw [setCurenv_envs, envFree_self call]
          · obtain ⟨tf, henv⟩ := enters.env e
            rw [setCurenv_envs, envFree_of_ne call he, henv]

/-! ## One CPU -/

/-- A scheduling point, and the environment that it selects. -/
def Schedules (k k' : Kernel 1) : Prop := k'.totalSchedCalls = k.totalSchedCalls + 1

def Selects (k k' : Kernel 1) (e : EnvPtr) : Prop := k.Schedules k' ∧ k'.curenv 0 = some e

/-- The environment was runnable at the scheduling point before the state: it still is, or it has been
selected. -/
def Waited (k : Kernel 1) (e : EnvPtr) : Prop :=
  (k.envs e).envStatus = .runnable ∨ k.curenv 0 = some e

/-- An event that destroys the environment of the CPU finds no runnable environment behind it in the
table, or none before it. -/
def KeepsTurn (k : Kernel 1) (ev : Event 1) : Prop :=
  ∀ p k', k.curenv 0 = some p → k.Step .rr ev k' → (k'.envs p).envStatus = .free →
    (∀ e, p < e → (k.envs e).envStatus ≠ .runnable) ∨
      ∀ e, e < p → (k.envs e).envStatus ≠ .runnable

/-- On one CPU nothing can be taken away from another one. -/
theorem undisturbing_one (k : Kernel 1) (ev : Event 1) : k.Undisturbing ev := by
  have hnobody : ∀ (k : Kernel 1) c e, ¬ k.Elsewhere c e := by
    rintro k c e ⟨c', hc', -⟩
    exact hc' (Subsingleton.elim c' c)
  intro c k₁ call _
  exact ⟨fun _ _ _ _ ↦ hnobody _ _ _, fun _ _ _ _ ↦ hnobody _ _ _, fun _ _ _ _ _ ↦ hnobody _ _ _,
    fun _ _ _ _ ↦ hnobody _ _ _⟩

section Turns

variable {a b : Kernel 1} {ev : Event 1}

/-- The invariants of every run on one CPU. -/
structure Steady (k : Kernel 1) : Prop where
  sound : k.Sound
  numbered : k.Numbered

theorem Steady.step (h : a.Steady) (hstep : a.Step s ev b) : b.Steady := by
  obtain ⟨acts, next, hsection⟩ := hstep.section
  exact ⟨hsection.sound h.sound (undisturbing_one a ev), h.numbered.section hsection⟩

/-- The environment of the CPU is `f`, or it comes between `f` and `g`. -/
def Turn (f g : EnvPtr) (k : Kernel 1) : Prop :=
  ∃ e, k.curenv 0 = some e ∧ (e = f ∨ behind f e < behind f g)

/-- Where the CPU has lost the environment in the slot `p`, the search from the first slot finds the
same as the one from behind `p`, if one of the two parts of the table has nothing to offer. -/
theorem behind_of_lost {p x : EnvPtr} (hx : x.toNat ≤ g.toNat) (hxp : x ≠ p) (hgp : g ≠ p)
    (hside : (¬ p < x ∧ ¬ p < g) ∨ (¬ x < p ∧ ¬ g < p)) : behind p x ≤ behind p g := by
  have hone : (1 : EnvPtr).toNat = 1 := rfl
  have hxp' : x.toNat ≠ p.toNat := fun heq ↦ hxp (BitVec.eq_of_toNat_eq heq)
  have hgp' : g.toNat ≠ p.toNat := fun heq ↦ hgp (BitVec.eq_of_toNat_eq heq)
  have hplt := p.isLt
  have hglt := g.isLt
  unfold behind
  simp only [BitVec.lt_def] at hside
  simp only [BitVec.toNat_sub, hone]
  omega

/-- A step does not select `f` before `g`, where `g` is runnable. -/
theorem Turn.step (h : Turn f g a) (hfg : f ≠ g) (hsteady : a.Steady) (hstep : a.Step .rr ev b)
    (hkeeps : a.KeepsTurn ev) (hg : a.Schedules b → (b.envs g).envStatus = .runnable) :
    Turn f g b ∧ ¬ a.Selects b f := by
  obtain ⟨e, hcur, hbetween⟩ := h
  have heg : e ≠ g := by
    rintro rfl
    rcases hbetween with rfl | hlt
    · exact hfg rfl
    · omega
  obtain ⟨acts, next, hsection⟩ := hstep.section
  rcases hsection.schedules with ⟨hcalls, hsame⟩ | ⟨hcalls, c, k₂, hyield, hnumbered, hlost⟩
  · refine ⟨⟨e, by rw [hsame, hcur], hbetween⟩, fun hselects ↦ ?_⟩
    have hone : b.totalSchedCalls = a.totalSchedCalls + 1 := hselects.1
    omega
  obtain rfl : c = 0 := Subsingleton.elim c 0
  have hgb := hg hcalls
  have hgcur : k₂.curenv 0 ≠ some g := by
    rcases hlost with hsame | ⟨p, -, hnone, -⟩
    · rw [hsame, hcur]
      exact fun heq ↦ heg (Option.some.inj heq)
    · rw [hnone]
      simp
  have hparked : ∀ h : EnvPtr, k₂.curenv 0 ≠ some h →
      (park 0 { k₂ with totalSchedCalls := k₂.totalSchedCalls + 1 }).envs h = k₂.envs h :=
    fun h hh ↦ park_of_ne hh
  have hgk : (k₂.envs g).envStatus = .runnable := by
    obtain ⟨x, -, rfl⟩ | ⟨-, hhalt⟩ := schedYield_cases hyield
    · by_cases hgx : g = x
      · rw [hgx, envRun_self] at hgb
        cases hgb
      · rw [envRun_of_ne hgx, hparked g hgcur] at hgb
        exact hgb
    · rw [schedHalt_ok hhalt] at hgb
      exact hgb
  obtain ⟨x, hchosen, hx, horder⟩ := schedRr_order (c := 0) hgk
  have hselect : k₂.select .rr 0 = some x := hchosen
  obtain ⟨x', hx', rfl⟩ | ⟨hnone, -⟩ := schedYield_cases hyield
  case inr => simp [hnone] at hselect
  obtain rfl : x' = x := by simpa [hx'] using hselect
  have hxb := envRun_curenv (k := { k₂ with totalSchedCalls := k₂.totalSchedCalls + 1 }) (c := 0)
    (e := x')
  have hgx : x' ≠ g := by
    rintro rfl
    rw [envRun_self] at hgb
    cases hgb
  have hahead : behind e x' ≤ behind e g := by
    rcases hlost with hsame | ⟨p, hp, hnone, hfree, hothers⟩
    · rw [(hnumbered hsteady.numbered).nextCurenvInd (by rw [hsame, hcur])] at horder
      have hstart : ∀ y : EnvPtr, y - (e + 1) = y - e - 1 := by
        intro y
        grind
      rw [hstart, hstart] at horder
      exact horder
    · obtain rfl : e = p := by simpa [hcur] using hp
      have hxe : x' ≠ e := by
        rintro rfl
        rw [hx] at hfree
        cases hfree
      have hzero : k₂.nextCurenvInd 0 = 0 := by
        unfold Kernel.nextCurenvInd
        rw [hnone]
      rw [hzero] at horder
      refine behind_of_lost (by simpa using horder) hxe (Ne.symm heg) ?_
      rw [hothers x' hxe] at hx
      rw [hothers g (Ne.symm heg)] at hgk
      have hfreed := hkeeps e _ hcur hstep (by
        rw [envRun_of_ne (Ne.symm hxe), hparked e (by rw [hnone]; simp)]
        exact hfree)
      refine hfreed.imp (fun habove ↦ ⟨fun hlt ↦ habove x' hlt hx, fun hlt ↦ habove g hlt hgk⟩)
        fun hbelow ↦ ⟨fun hlt ↦ hbelow x' hlt hx, fun hlt ↦ hbelow g hlt hgk⟩
  obtain ⟨hle, hxf⟩ := behind_between hfg hbetween hahead
  refine ⟨⟨x', hxb, Or.inr ?_⟩, fun hselects ↦ hxf ?_⟩
  · have hne : behind f x' ≠ behind f g := fun heq ↦ hgx (behind_injective heq)
    omega
  · have hf := hselects.2
    rw [hxb] at hf
    exact Option.some.inj hf

end Turns

end Kernel

/-- On one CPU, between two selections of `f` every environment is selected that is runnable at every
scheduling point in between, if no step loses the place in the table. -/
theorem round_robin_fair {free : List Ppn} {k₀ k₁ k₂ k₃ k₄ : Kernel 1}
    {evs₁ evs₂ : List (Event 1)} {ev₁ ev₂ : Event 1} (hfg : f ≠ g) (hboot : k₀.Booted free)
    (hrun : Run (Kernel.Step .rr) k₀ evs₁ k₁)
    (hfirst : k₁.Step .rr ev₁ k₂ ∧ k₁.Selects k₂ f)
    (hbetween : Run (fun a ev b ↦ a.Step .rr ev b ∧ a.KeepsTurn ev ∧
      (a.Schedules b → b.Waited g)) k₂ evs₂ k₃)
    (hlast : k₃.Step .rr ev₂ k₄ ∧ k₃.KeepsTurn ev₂ ∧ k₃.Selects k₄ f ∧ k₄.Waited g) :
    ∃ evs ev evs' a b, evs₂ = evs ++ ev :: evs' ∧ Run (Kernel.Step .rr) k₂ evs a ∧
      a.Step .rr ev b ∧ a.Selects b g ∧ Run (Kernel.Step .rr) b evs' k₃ := by
  have hsteady₀ : k₀.Steady := ⟨hboot.sound, hboot.numbered⟩
  have hsteady₂ : k₂.Steady :=
    (hrun.invariant (fun _ _ _ h hstep ↦ h.step hstep) hsteady₀).step hfirst.1
  let inv : List (Event 1) → Kernel 1 → Prop := fun evs₂ k ↦ k.Steady ∧ (Kernel.Turn f g k ∨
    ∃ evs ev evs' a b, evs₂ = evs ++ ev :: evs' ∧ Run (Kernel.Step .rr) k₂ evs a ∧
      a.Step .rr ev b ∧ a.Selects b g ∧ Run (Kernel.Step .rr) b evs' k)
  have hinv : inv evs₂ k₃ := by
    refine hbetween.history ⟨hsteady₂, Or.inl ⟨f, hfirst.2.2, Or.inl rfl⟩⟩ ?_
    rintro evs k ev k' hrun' ⟨hsteady, hturn⟩ ⟨hstep, hkeeps, hwaited⟩
    refine ⟨hsteady.step hstep, ?_⟩
    rcases hturn with hturn | ⟨evs₃, ev₃, evs₄, a, b, rfl, hbefore, hselect, hg, hafter⟩
    · by_cases hg : k.Selects k' g
      · exact Or.inr ⟨evs, ev, [], k, k', rfl, hrun'.mono fun _ _ _ h ↦ h.1, hstep, hg, .nil k'⟩
      · left
        refine (hturn.step hfg hsteady hstep hkeeps fun hcalls ↦ ?_).1
        exact (hwaited hcalls).resolve_right fun hcur ↦ hg ⟨hcalls, hcur⟩
    · refine Or.inr ⟨evs₃, ev₃, evs₄ ++ [ev], a, b, ?_, hbefore, hselect, hg,
        hafter.append (.single hstep)⟩
      rw [List.append_assoc, List.cons_append]
  obtain ⟨hsteady₃, hturn | hselected⟩ := hinv
  · obtain ⟨hstep, hkeeps, hf, hwaited⟩ := hlast
    refine absurd hf (hturn.step hfg hsteady₃ hstep hkeeps fun _ ↦ ?_).2
    refine hwaited.resolve_right fun hcur ↦ hfg ?_
    rw [hf.2] at hcur
    exact Option.some.inj hcur
  · exact hselected

instance (a b : Kernel 1) (e : EnvPtr) : Decidable (a.Selects b e) :=
  inferInstanceAs (Decidable (b.totalSchedCalls = a.totalSchedCalls + 1 ∧ b.curenv 0 = some e))

namespace Kernel

theorem KeepsTurn.of_alive {a b : Kernel 1} {ev : Event 1} {p : EnvPtr} (hstep : a.Step .rr ev b)
    (hcur : a.curenv 0 = some p) (halive : (b.envs p).envStatus ≠ .free) : a.KeepsTurn ev := by
  intro p' b' hcur' hstep' hfree
  obtain rfl := Step.deterministic a ev b b' hstep hstep'
  obtain rfl : p = p' := Option.some.inj (hcur.symm.trans hcur')
  exact absurd hfree halive

end Kernel

/-- Two environments in turn. -/
theorem round_robin_fair_two : ∃ k₂ k₃ : Kernel 1, ∃ evs ev evs' a b,
    [.timer 0 userText] = evs ++ ev :: evs' ∧ Run (Kernel.Step .rr) k₂ evs a ∧
      a.Step .rr ev b ∧ a.Selects b 1 ∧ Run (Kernel.Step .rr) b evs' k₃ := by
  have hresult : ((smallKernel 1 12).after .rr
      [.create 0 smallBinary, .create 0 smallBinary]).any (fun k₁ ↦
    (k₁.after .rr [.start 0]).any fun k₂ ↦ (k₂.after .rr [.timer 0 userText]).any fun k₃ ↦
    (k₃.after .rr [.timer 0 userText]).any fun k₄ ↦
      k₁.Selects k₂ 0 ∧ k₂.Selects k₃ 1 ∧ (k₃.envs 0).envStatus ≠ EnvStatus.free ∧
        k₃.Selects k₄ 0 ∧ (k₄.envs 1).envStatus = EnvStatus.runnable) = true := by
    decide +kernel
  obtain ⟨k₁, hrun, h₁⟩ := Kernel.run_of_any hresult
  obtain ⟨k₂, hstart, h₂⟩ := Kernel.step_of_any h₁
  obtain ⟨k₃, hnext, h₃⟩ := Kernel.step_of_any h₂
  obtain ⟨k₄, hback, h₄⟩ := Kernel.step_of_any h₃
  rw [decide_eq_true_eq] at h₄
  obtain ⟨hfirst, hsecond, halive, hlast, hwaited⟩ := h₄
  have hkeeps : k₂.KeepsTurn (.timer 0 userText) := .of_alive hnext hfirst.2 halive
  have hkeeps' : k₃.KeepsTurn (.timer 0 userText) := by
    refine .of_alive hback hsecond.2 ?_
    rw [hwaited]
    decide
  exact ⟨k₂, k₃, round_robin_fair (f := 0) (by decide) (smallKernel_booted 1 12 (by decide)) hrun
    ⟨hstart, hfirst⟩ (.single ⟨hnext, hkeeps, fun _ ↦ Or.inr hsecond.2⟩)
    ⟨hback, hkeeps', hlast, Or.inl hwaited⟩⟩

/-- The second of three environments exits, and the first one is selected again before the third. -/
theorem third_is_passed_over : (smallKernel 1 20).Booted (smallFree 20) ∧
    ∃ k₁ k₂ k₃ k₄ : Kernel 1, Run (Kernel.Step .rr) (smallKernel 1 20)
        [.create 0 smallBinary, .create 0 smallBinary, .create 0 smallBinary] k₁ ∧
      (k₁.Step .rr (.start 0) k₂ ∧ k₁.Selects k₂ 0) ∧
      (k₂.Step .rr (.timer 0 userText) k₃ ∧ k₂.Selects k₃ 1 ∧ (k₃.envs 2).envStatus = .runnable) ∧
      (k₃.Step .rr (.call 0 3 0 0 0 0 0) k₄ ∧ k₃.Selects k₄ 0 ∧
        (k₄.envs 2).envStatus = .runnable) := by
  refine ⟨smallKernel_booted 1 20 (by decide), ?_⟩
  have hresult : ((smallKernel 1 20).after .rr
      [.create 0 smallBinary, .create 0 smallBinary, .create 0 smallBinary]).any (fun k₁ ↦
    (k₁.after .rr [.start 0]).any fun k₂ ↦ (k₂.after .rr [.timer 0 userText]).any fun k₃ ↦
    (k₃.after .rr [.call 0 3 0 0 0 0 0]).any fun k₄ ↦
      k₁.Selects k₂ 0 ∧ k₂.Selects k₃ 1 ∧ (k₃.envs 2).envStatus = EnvStatus.runnable ∧
        k₃.Selects k₄ 0 ∧ (k₄.envs 2).envStatus = EnvStatus.runnable) = true := by
    decide +kernel
  obtain ⟨k₁, hrun, h₁⟩ := Kernel.run_of_any hresult
  obtain ⟨k₂, hstart, h₂⟩ := Kernel.step_of_any h₁
  obtain ⟨k₃, hnext, h₃⟩ := Kernel.step_of_any h₂
  obtain ⟨k₄, hexit, h₄⟩ := Kernel.step_of_any h₃
  rw [decide_eq_true_eq] at h₄
  obtain ⟨hfirst, hsecond, hready, hlast, hready'⟩ := h₄
  exact ⟨k₁, k₂, k₃, k₄, hrun, ⟨hstart, hfirst⟩, ⟨hnext, hsecond, hready⟩, hexit, hlast, hready'⟩

end SistemasOperativos.Jos
