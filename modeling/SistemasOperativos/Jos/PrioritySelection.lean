import Mathlib
import SistemasOperativos.Jos.Fairness

/-!
# The choice of the priority scheduler

The loop of `sched_pr` looks at the environments in circular order, remembers the best runnable one
so far, and stops early at priority 1. What it chooses is the argument of the minimum of the priority
over the runnable environments, in the order of the search.
-/

namespace SistemasOperativos.Jos

variable {n : ℕ} {c : Fin n} {k : Kernel n} {e e' : EnvPtr}

namespace Kernel

/-! ## The loop without its early exit -/

def runnable (k : Kernel n) (e : EnvPtr) : Bool := (k.envs e).envStatus == EnvStatus.runnable

theorem runnable_iff : k.runnable e = true ↔ (k.envs e).envStatus = .runnable := by
  rw [runnable, beq_iff_eq]

def priorityOf (k : Kernel n) (e : EnvPtr) : ℤ := (k.envs e).priority

/-- The loop of `sched_pr` without the exit at priority 1. -/
def fullScan (k : Kernel n) : List EnvPtr → ℤ → Option EnvPtr → Option EnvPtr
  | [], _, envToRun => envToRun
  | e :: es, bestPriority, envToRun =>
    let env := k.envs e
    if env.envStatus = .runnable ∧ env.priority < bestPriority then
      fullScan k es env.priority (some e)
    else fullScan k es bestPriority envToRun

/-- Nothing is better than priority 1. -/
theorem fullScan_least (es : List EnvPtr) {best : ℤ} (found : Option EnvPtr)
    (hleast : ∀ e ∈ es, (k.envs e).envStatus = .runnable → best ≤ (k.envs e).priority) :
    k.fullScan es best found = found := by
  induction es with
  | nil => rfl
  | cons e es ih =>
    have hno : ¬ ((k.envs e).envStatus = .runnable ∧ (k.envs e).priority < best) :=
      fun h ↦ absurd h.2 (Int.not_lt.mpr (hleast e List.mem_cons_self h.1))
    rw [fullScan]
    simp only [if_neg hno]
    exact ih fun e' he' ↦ hleast e' (List.mem_cons_of_mem e he')

/-- The early exit makes the same choice as a full scan. -/
theorem schedPrFrom_eq_fullScan (es : List EnvPtr) {best : ℤ} (found : Option EnvPtr)
    (hbest : 1 < best)
    (hranged : ∀ e ∈ es, (k.envs e).envStatus = .runnable → 1 ≤ (k.envs e).priority) :
    k.schedPrFrom es best found = k.fullScan es best found := by
  induction es generalizing best found with
  | nil => rfl
  | cons e es ih =>
    have hrest : ∀ e' ∈ es, (k.envs e').envStatus = .runnable → 1 ≤ (k.envs e').priority :=
      fun e' he' ↦ hranged e' (List.mem_cons_of_mem e he')
    rw [schedPrFrom, fullScan]
    by_cases hexit : (k.envs e).envStatus = .runnable ∧ (k.envs e).priority = 1
    · obtain ⟨hrun, hone⟩ := hexit
      rw [if_pos ⟨hrun, hone⟩, if_pos ⟨hrun, hone ▸ hbest⟩, hone, fullScan_least es _ hrest]
    · rw [if_neg hexit]
      by_cases hbetter : (k.envs e).envStatus = .runnable ∧ (k.envs e).priority < best
      · have hpos := hranged e List.mem_cons_self hbetter.1
        have hne : (k.envs e).priority ≠ 1 := fun hone ↦ hexit ⟨hbetter.1, hone⟩
        rw [if_pos hbetter, if_pos hbetter, ih _ (by omega) hrest]
      · rw [if_neg hbetter, if_neg hbetter, ih _ hbest hrest]

/-- From a runnable environment on, the scan is the fold of `List.argmin`. -/
theorem fullScan_some (es : List EnvPtr) (e : EnvPtr) :
    k.fullScan es (k.priorityOf e) (some e) = (es.filter k.runnable).foldl
      (List.argAux fun b c ↦ k.priorityOf b < k.priorityOf c) (some e) := by
  induction es generalizing e with
  | nil => rfl
  | cons x es ih =>
    rw [fullScan, List.filter_cons]
    by_cases hrun : k.runnable x = true
    · rw [if_pos hrun, List.foldl_cons]
      by_cases hbetter : k.priorityOf x < k.priorityOf e
      · have haux : List.argAux (fun b c ↦ k.priorityOf b < k.priorityOf c) (some e) x = some x :=
          if_pos hbetter
        simp only [if_pos (⟨runnable_iff.mp hrun, hbetter⟩ :
          (k.envs x).envStatus = .runnable ∧ (k.envs x).priority < k.priorityOf e)]
        rw [haux]
        exact ih x
      · have haux : List.argAux (fun b c ↦ k.priorityOf b < k.priorityOf c) (some e) x = some e :=
          if_neg hbetter
        have hno : ¬ ((k.envs x).envStatus = .runnable ∧ (k.envs x).priority < k.priorityOf e) :=
          fun h ↦ hbetter h.2
        simp only [if_neg hno]
        rw [haux]
        exact ih e
    · have hno : ¬ ((k.envs x).envStatus = .runnable ∧ (k.envs x).priority < k.priorityOf e) :=
        fun h ↦ hrun (runnable_iff.mpr h.1)
      simp only [if_neg hno, if_neg hrun]
      exact ih e

/-- The scan computes the argument of the minimum, where the priorities are in range. -/
theorem fullScan_eq_argmin (es : List EnvPtr)
    (hranged : ∀ e ∈ es, (k.envs e).envStatus = .runnable → (k.envs e).priority ≤ maxPriority) :
    k.fullScan es (maxPriority + 1) none = (es.filter k.runnable).argmin k.priorityOf := by
  induction es with
  | nil => rfl
  | cons x es ih =>
    rw [fullScan, List.filter_cons]
    by_cases hrun : k.runnable x = true
    · have hle := hranged x List.mem_cons_self (runnable_iff.mp hrun)
      have hbetter : (k.envs x).envStatus = .runnable ∧ (k.envs x).priority < maxPriority + 1 :=
        ⟨runnable_iff.mp hrun, by omega⟩
      simp only [if_pos hbetter, if_pos hrun]
      exact fullScan_some es x
    · have hno : ¬ ((k.envs x).envStatus = .runnable ∧ (k.envs x).priority < maxPriority + 1) :=
        fun h ↦ hrun (runnable_iff.mpr h.1)
      simp only [if_neg hno, if_neg hrun]
      exact ih fun e he ↦ hranged e (List.mem_cons_of_mem x he)

/-! ## The order of the search -/

/-- The slot where the search starts: just behind the index in the id of the current environment, or
the first one. -/
def startSlot (c : Fin n) (k : Kernel n) : EnvPtr := BitVec.ofNat 10 (k.nextCurenvInd c)

/-- The turn of the loop that looks at the slot `e`. -/
def turnOf (c : Fin n) (k : Kernel n) (e : EnvPtr) : ℕ := (e - k.startSlot c).toNat

/-- The id of the current environment names its slot. -/
def CurenvNamed (k : Kernel n) (c : Fin n) : Prop :=
  ∀ cur, k.curenv c = some cur → envx (k.envs cur).envId = cur

theorem Numbered.curenvNamed (h : k.Numbered) (c : Fin n) : k.CurenvNamed c :=
  fun cur hcur ↦ h.slot cur (h.current c cur hcur)

/-- The search starts just behind the current environment, or at index 0 where there is none. -/
theorem startSlot_eq (h : k.CurenvNamed c) : (k.curenv c = none → k.startSlot c = 0) ∧
    ∀ cur, k.curenv c = some cur → k.startSlot c = cur + 1 := by
  unfold startSlot nextCurenvInd
  constructor
  · intro hcur
    rw [hcur]
    rfl
  · intro cur hcur
    rw [hcur]
    simp only [h cur hcur]
    apply BitVec.eq_of_toNat_eq
    have hone : (1 : EnvPtr).toNat = 1 := rfl
    simp only [BitVec.toNat_ofNat, BitVec.toNat_add, hone]

/-- The search goes through the slots in the order of their turns. -/
theorem circular_sorted (c : Fin n) (k : Kernel n) :
    (circular (k.nextCurenvInd c)).Pairwise fun e e' ↦ k.turnOf c e < k.turnOf c e' := by
  have hturn (i : ℕ) (hi : i < nenv) :
      k.turnOf c (BitVec.ofNat 10 (i + k.nextCurenvInd c)) = i := by
    have hnenv : nenv = 1024 := rfl
    rw [turnOf, startSlot]
    simp only [BitVec.toNat_sub, BitVec.toNat_ofNat]
    omega
  rw [circular, List.pairwise_map]
  refine List.Pairwise.imp_of_mem ?_ List.pairwise_lt_range
  intro i j hi hj hlt
  rw [hturn i (List.mem_range.mp hi), hturn j (List.mem_range.mp hj)]
  exact hlt

theorem turnOf_injective (h : k.turnOf c e = k.turnOf c e') : e = e' := by
  have hsub : e - k.startSlot c = e' - k.startSlot c := BitVec.eq_of_toNat_eq h
  calc e = e - k.startSlot c + k.startSlot c := (BitVec.sub_add_cancel _ _).symm
    _ = e' := by rw [hsub, BitVec.sub_add_cancel]

/-- In a list in the order of the turns, an earlier index is an earlier turn. -/
theorem turnOf_le {es : List EnvPtr}
    (hes : es.Pairwise fun e e' ↦ k.turnOf c e < k.turnOf c e') (he : e ∈ es) (he' : e' ∈ es)
    (h : es.idxOf e ≤ es.idxOf e') : k.turnOf c e ≤ k.turnOf c e' := by
  rcases Nat.lt_or_eq_of_le h with hlt | heq
  · have hpair := List.pairwise_iff_getElem.mp hes _ _ (List.idxOf_lt_length_of_mem he)
      (List.idxOf_lt_length_of_mem he') hlt
    rw [List.getElem_idxOf, List.getElem_idxOf] at hpair
    exact Nat.le_of_lt hpair
  · rw [(List.idxOf_inj he).mp heq]

/-! ## The choice -/

/-- Among the runnable environments of least priority, the one that the search comes to first. -/
structure FirstOfLeast (k : Kernel n) (c : Fin n) (e : EnvPtr) : Prop where
  runnable : (k.envs e).envStatus = .runnable
  least : ∀ e', (k.envs e').envStatus = .runnable → (k.envs e).priority ≤ (k.envs e').priority
  first : ∀ e', (k.envs e').envStatus = .runnable → (k.envs e').priority = (k.envs e).priority →
    k.turnOf c e ≤ k.turnOf c e'

theorem FirstOfLeast.unique (h : k.FirstOfLeast c e) (h' : k.FirstOfLeast c e') : e = e' := by
  have heq : (k.envs e).priority = (k.envs e').priority :=
    Int.le_antisymm (h.least e' h'.runnable) (h'.least e h.runnable)
  exact turnOf_injective
    (Nat.le_antisymm (h.first e' h'.runnable heq.symm) (h'.first e h.runnable heq))

/-- The priorities that the scheduler expects. -/
def RunnableRanged (k : Kernel n) : Prop :=
  ∀ e, (k.envs e).envStatus = .runnable →
    1 ≤ (k.envs e).priority ∧ (k.envs e).priority ≤ maxPriority

theorem schedPrFrom_eq_argmin (h : k.RunnableRanged) (es : List EnvPtr) :
    k.schedPrFrom es (maxPriority + 1) none = (es.filter k.runnable).argmin k.priorityOf := by
  rw [schedPrFrom_eq_fullScan es none (by decide) fun e _ hrun ↦ (h e hrun).1,
    fullScan_eq_argmin es fun e _ hrun ↦ (h e hrun).2]

/-- What the loop of `sched_pr` finds is the first environment of least priority. -/
theorem schedPrFrom_first (h : k.RunnableRanged)
    (hfound : k.schedPrFrom (circular (k.nextCurenvInd c)) (maxPriority + 1) none = some e) :
    k.FirstOfLeast c e := by
  rw [schedPrFrom_eq_argmin h, List.argmin_eq_some_iff] at hfound
  obtain ⟨hmem, hleast, hfirst⟩ := hfound
  have hin (e' : EnvPtr) (hrun : (k.envs e').envStatus = .runnable) :
      e' ∈ (circular (k.nextCurenvInd c)).filter k.runnable :=
    List.mem_filter.mpr ⟨mem_circular _ e', runnable_iff.mpr hrun⟩
  have hsorted := (circular_sorted c k).filter k.runnable
  exact ⟨runnable_iff.mp (List.mem_filter.mp hmem).2, fun e' hrun ↦ hleast e' (hin e' hrun),
    fun e' hrun heq ↦
      turnOf_le hsorted hmem (hin e' hrun) (hfirst e' (hin e' hrun) (Int.le_of_eq heq))⟩

theorem schedPrFrom_eq_none (h : k.RunnableRanged) (start : ℕ) :
    k.schedPrFrom (circular start) (maxPriority + 1) none = none ↔
      ∀ e, (k.envs e).envStatus ≠ .runnable := by
  rw [schedPrFrom_eq_argmin h, List.argmin_eq_none, List.filter_eq_nil_iff]
  constructor
  · exact fun hno e hrun ↦ hno e (mem_circular start e) (runnable_iff.mpr hrun)
  · exact fun hno e _ hrun ↦ hno e (runnable_iff.mp hrun)

theorem keepsRunning_eq_some : k.keepsRunning c = some e ↔ k.curenv c = some e ∧
    (k.envs e).envStatus = .running ∧ (k.envs e).envCpunum = c := by
  unfold keepsRunning
  cases hcur : k.curenv c with
  | none => simp
  | some cur =>
    simp only
    split
    next h =>
      constructor
      · rintro ⟨⟩
        exact ⟨rfl, h⟩
      · rintro ⟨⟨⟩, -⟩
        rfl
    next h =>
      constructor
      · exact nofun
      · rintro ⟨⟨⟩, hkeeps⟩
        exact absurd hkeeps h

theorem schedPr_of_runnable (c : Fin n) (k : Kernel n) (hranged : k.RunnableRanged)
    (hrun : ∃ e, (k.envs e).envStatus = .runnable) :
    ∃ e, k.FirstOfLeast c e ∧ k.schedPr c = some e := by
  cases hfound : k.schedPrFrom (circular (k.nextCurenvInd c)) (maxPriority + 1) none with
  | none =>
    obtain ⟨e, he⟩ := hrun
    exact absurd he ((schedPrFrom_eq_none hranged (k.nextCurenvInd c)).mp hfound e)
  | some e =>
    refine ⟨e, schedPrFrom_first hranged hfound, ?_⟩
    unfold schedPr
    rw [hfound]

theorem schedPr_of_none (c : Fin n) (k : Kernel n) (hranged : k.RunnableRanged)
    (hno : ∀ e, (k.envs e).envStatus ≠ .runnable) : k.schedPr c = k.keepsRunning c := by
  unfold schedPr
  rw [(schedPrFrom_eq_none hranged (k.nextCurenvInd c)).mpr hno]

theorem schedYield_pr (c : Fin n) (k : Kernel n) :
    k.schedYield .pr c = match k.schedPr c with
      | some e => .ok ({ k with totalSchedCalls := k.totalSchedCalls + 1 }.envRun c e)
      | none => { k with totalSchedCalls := k.totalSchedCalls + 1 }.schedHalt c := by
  have hselect : k.select .pr c = k.schedPr c := rfl
  unfold schedYield
  cases hpick : k.schedPr c with
  | none => simp only [select_calls, hselect, hpick]
  | some e => simp only [select_calls, hselect, hpick]

end Kernel

/-- `sched_pr` runs the first environment of least priority in circular order, and the early exit
changes nothing about that. Where none is runnable it goes on with the current environment of the
CPU, if that is still running there, and otherwise `sched_yield` comes to `sched_halt`. It never runs
an environment that is running on another CPU. -/
theorem sched_pr_selects (c : Fin n) (k : Kernel n) (hranged : k.RunnableRanged) :
    ((∃ e, (k.envs e).envStatus = .runnable) →
      ∃ e, k.FirstOfLeast c e ∧ ∀ e', k.schedPr c = some e' ↔ e' = e) ∧
    (∀ es, k.schedPrFrom es (maxPriority + 1) none = k.fullScan es (maxPriority + 1) none) ∧
    ((∀ e, (k.envs e).envStatus ≠ .runnable) → ∀ e, k.schedPr c = some e ↔
      k.curenv c = some e ∧ (k.envs e).envStatus = .running ∧ (k.envs e).envCpunum = c) ∧
    (k.schedPr c = none ↔ (∀ e, (k.envs e).envStatus ≠ .runnable) ∧
      ∀ e, ¬ (k.curenv c = some e ∧ (k.envs e).envStatus = .running ∧ (k.envs e).envCpunum = c)) ∧
    k.schedYield .pr c = (match k.schedPr c with
      | some e => .ok ({ k with totalSchedCalls := k.totalSchedCalls + 1 }.envRun c e)
      | none => { k with totalSchedCalls := k.totalSchedCalls + 1 }.schedHalt c) ∧
    (∀ e, k.schedPr c = some e → (k.envs e).envStatus = .running →
      (k.envs e).envCpunum = c ∧ k.curenv c = some e) ∧
    (k.CurenvNamed c → (k.curenv c = none → k.startSlot c = 0) ∧
      ∀ cur, k.curenv c = some cur → k.startSlot c = cur + 1) := by
  refine ⟨fun hrun ↦ ?_, fun es ↦ ?_, fun hno e ↦ ?_, ⟨fun hnone ↦ ?_, ?_⟩,
    Kernel.schedYield_pr c k, fun e he hrunning ↦ ?_, Kernel.startSlot_eq⟩
  · obtain ⟨e, hfirst, hchoice⟩ := Kernel.schedPr_of_runnable c k hranged hrun
    refine ⟨e, hfirst, fun e' ↦ ?_⟩
    rw [hchoice]
    exact ⟨fun h ↦ (Option.some.inj h).symm, fun h ↦ congrArg some h.symm⟩
  · exact Kernel.schedPrFrom_eq_fullScan es none (by decide) fun e _ hrun ↦ (hranged e hrun).1
  · rw [Kernel.schedPr_of_none c k hranged hno]
    exact Kernel.keepsRunning_eq_some
  · have hno (e : EnvPtr) (hrun : (k.envs e).envStatus = .runnable) : False := by
      obtain ⟨e', -, hchoice⟩ := Kernel.schedPr_of_runnable c k hranged ⟨e, hrun⟩
      rw [hnone] at hchoice
      cases hchoice
    refine ⟨hno, fun e hkeeps ↦ ?_⟩
    rw [Kernel.schedPr_of_none c k hranged hno, Kernel.keepsRunning_eq_some.mpr hkeeps] at hnone
    cases hnone
  · rintro ⟨hno, hkeeps⟩
    rw [Kernel.schedPr_of_none c k hranged hno]
    cases hchoice : k.keepsRunning c with
    | none => rfl
    | some e => exact absurd (Kernel.keepsRunning_eq_some.mp hchoice) (hkeeps e)
  · have hno (e' : EnvPtr) (hrun : (k.envs e').envStatus = .runnable) : False := by
      obtain ⟨x, hfirst, hchoice⟩ := Kernel.schedPr_of_runnable c k hranged ⟨e', hrun⟩
      rw [he] at hchoice
      cases hchoice
      rw [hfirst.runnable] at hrunning
      cases hrunning
    rw [Kernel.schedPr_of_none c k hranged hno, Kernel.keepsRunning_eq_some] at he
    exact ⟨he.2.2, he.1⟩

/-- Of two runnable environments the one of better priority is run, although it comes later. -/
theorem sched_pr_selects_better : ∃ k : Kernel 1, (k.envs 3).envStatus = .runnable ∧
    (k.envs 3).priority = 2 ∧ (k.envs 9).envStatus = .runnable ∧ (k.envs 9).priority = 1 ∧
    k.schedPr 0 = some 9 := by
  let k : Kernel 1 := { smallKernel 1 12 with
    envs := fun e ↦
      if e = 3 then { Env.zero with envStatus := .runnable, priority := 2 }
      else if e = 9 then { Env.zero with envStatus := .runnable, priority := 1 }
      else Env.zero }
  have hthree : k.envs 3 = { Env.zero with envStatus := .runnable, priority := 2 } := rfl
  have hnine : k.envs 9 = { Env.zero with envStatus := .runnable, priority := 1 } := rfl
  have honly (e : EnvPtr) (hrun : (k.envs e).envStatus = .runnable) : e = 3 ∨ e = 9 := by
    by_contra hno
    have hfree : k.envs e = Env.zero :=
      (if_neg fun h ↦ hno (.inl h)).trans (if_neg fun h ↦ hno (.inr h))
    rw [hfree] at hrun
    cases hrun
  have hranged : k.RunnableRanged := by
    intro e hrun
    obtain rfl | rfl := honly e hrun
    · rw [hthree]
      decide
    · rw [hnine]
      decide
  refine ⟨k, rfl, rfl, rfl, rfl, ?_⟩
  obtain ⟨e, hfirst, hchoice⟩ := (sched_pr_selects 0 k hranged).1 ⟨3, rfl⟩
  have hle := hfirst.least 9 rfl
  obtain rfl | rfl := honly e hfirst.runnable
  · rw [hthree, hnine] at hle
    exact absurd hle (by decide)
  · exact (hchoice 9).mpr rfl

end SistemasOperativos.Jos
