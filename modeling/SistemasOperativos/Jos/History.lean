import SistemasOperativos.Jos.Machine
import Mathlib.Data.List.Rotate

/-!
# The history of the scheduler

`kern/history.c` keeps texts in an array of `HISTORY_LEN` slots, with an index that is moved before
each store and at which the printing starts. A store outside the array has no outcome. The index
wraps only after it has left the array, and the slot it stands at is the newest one, so that the
texts are neither kept in bounds nor printed in the order in which they came.
-/

namespace SistemasOperativos.Jos

def historyLen : ℕ := 1000

/-- The conversion `%u`. -/
def formatUnsigned (n : Word) : List Char :=
  Nat.toDigits 10 n.toNat

/-- What `snprintf` leaves in a buffer of `size` bytes, before the null byte. -/
def snprintf (size : ℕ) (text : List Char) : List Char :=
  text.take (size - 1)

def runEnvText (env : Env) : List Char :=
  snprintf 100 ("-Sched executes proccess ".toList ++ formatUnsigned env.envId ++ "\n".toList)

def newEnvText (env : Env) : List Char :=
  snprintf 100 ("-Proccess created with id ".toList ++ formatUnsigned env.envId ++ "\n".toList)

def endOfEnvText (env : Env) : List Char :=
  snprintf 100 ("-Proccess ".toList ++ formatUnsigned env.envId ++
    " ended with a total of ".toList ++ formatUnsigned env.envRuns ++
    " times run and a total of ".toList ++ formatUnsigned (BitVec.ofInt 32 env.timeSlices) ++
    " time slices consumed\n".toList)

/-- The global variables of `kern/history.c`. -/
structure History where
  slots : List (List Char)
  length_slots : slots.length = historyLen
  historyInd : ℕ

namespace History

/-- The variables as the image of the kernel has them. -/
def initial : History where
  slots := List.replicate historyLen []
  length_slots := List.length_replicate
  historyInd := 0

def updateHistoryInd (h : History) : History :=
  if h.historyInd < historyLen then { h with historyInd := h.historyInd + 1 }
  else { h with historyInd := 0 }

/-- The store at `history[history_ind]`. -/
def store (h : History) (text : List Char) : Option History :=
  if h.historyInd < historyLen then
    some { h with
      slots := h.slots.set h.historyInd text
      length_slots := by rw [List.length_set, h.length_slots] }
  else none

def addRunEnvToHistory (h : History) (env : Env) : Option History :=
  h.updateHistoryInd.store (runEnvText env)

def addNewEnvToHistory (h : History) (env : Env) : Option History :=
  h.updateHistoryInd.store (newEnvText env)

def addEndOfEnvToHistory (h : History) (env : Env) : Option History :=
  h.updateHistoryInd.store (endOfEnvText env)

/-- What `print_history` hands to `cprintf`, one text for each call. -/
def printHistory (h : History) : List (List Char) :=
  "History\n".toList :: (List.range historyLen).filterMap fun i ↦
    let index := (i + h.historyInd) % historyLen
    let text := h.slots.getD index []
    if text.length ≠ 0 then some text else none

end History

/-! ## Sequences of calls -/

/-- A call that adds to the history, with the environment it is made for. -/
inductive HistoryCall where
  | runEnv (env : Env)
  | newEnv (env : Env)
  | endOfEnv (env : Env)

namespace HistoryCall

def perform (h : History) : HistoryCall → Option History
  | .runEnv env => h.addRunEnvToHistory env
  | .newEnv env => h.addNewEnvToHistory env
  | .endOfEnv env => h.addEndOfEnvToHistory env

/-- The record a call leaves. -/
def record : HistoryCall → List Char
  | .runEnv env => runEnvText env
  | .newEnv env => newEnvText env
  | .endOfEnv env => endOfEnvText env

theorem perform_eq (h : History) (call : HistoryCall) :
    call.perform h = h.updateHistoryInd.store call.record := by
  cases call <;> rfl

/-- Every record begins with a dash, and the buffer has room for more than that. -/
theorem record_ne_nil (call : HistoryCall) : call.record ≠ [] := by
  cases call <;> exact List.cons_ne_nil _ _

end HistoryCall

/-- The history after a sequence of calls, where no call stores outside the array. -/
def History.run (calls : List HistoryCall) : Option History :=
  calls.foldlM HistoryCall.perform History.initial

/-! ## What the array holds -/

section Contents

variable {calls : List HistoryCall} {h : History}

/-- The first slot stays empty, and the records follow it in the order of the calls. -/
structure History.Holds (h : History) (records : List (List Char)) : Prop where
  index : h.historyInd = records.length
  slots : h.slots = [] :: records ++ List.replicate (historyLen - 1 - records.length) []

theorem History.holds_initial : History.initial.Holds [] where
  index := rfl
  slots := rfl

/-- While a slot is left, a call takes the next one. -/
theorem History.Holds.perform {records : List (List Char)} (hh : h.Holds records)
    (hroom : records.length + 1 < historyLen) (call : HistoryCall) :
    ∃ h', call.perform h = some h' ∧ h'.Holds (records ++ [call.record]) := by
  have hlt : h.historyInd < historyLen := by
    rw [hh.index]
    omega
  have hindex : h.updateHistoryInd.historyInd = records.length + 1 := by
    rw [History.updateHistoryInd, if_pos hlt, hh.index]
  have hslots : h.updateHistoryInd.slots = h.slots := by
    rw [History.updateHistoryInd, if_pos hlt]
  rw [HistoryCall.perform_eq, History.store, if_pos (by rw [hindex]; exact hroom)]
  refine ⟨_, rfl, ?_, ?_⟩
  · rw [List.length_append, List.length_singleton]
    exact hindex
  · obtain ⟨room, hrest⟩ : ∃ room, historyLen - 1 - records.length = room + 1 :=
      ⟨historyLen - 2 - records.length, by omega⟩
    have hleft : historyLen - 1 - (records ++ [call.record]).length = room := by
      rw [List.length_append, List.length_singleton]
      omega
    change h.updateHistoryInd.slots.set _ _ = _
    rw [hslots, hindex, hh.slots, hrest, hleft, List.replicate_succ]
    simp

/-- The thousandth record is stored outside the array. -/
theorem History.Holds.perform_full {records : List (List Char)} (hh : h.Holds records)
    (hfull : records.length + 1 = historyLen) (call : HistoryCall) : call.perform h = none := by
  have hlt : h.historyInd < historyLen := by
    rw [hh.index]
    omega
  have hindex : h.updateHistoryInd.historyInd = historyLen := by
    rw [History.updateHistoryInd, if_pos hlt, hh.index, hfull]
  rw [HistoryCall.perform_eq, History.store, if_neg (by rw [hindex]; exact lt_irrefl _)]

variable (calls) in
/-- Short sequences are kept whole. -/
theorem History.run_holds (hroom : calls.length < historyLen) :
    ∃ h, History.run calls = some h ∧ h.Holds (calls.map HistoryCall.record) := by
  induction calls using List.reverseRecOn with
  | nil => exact ⟨_, rfl, History.holds_initial⟩
  | append_singleton calls call ih =>
    rw [List.length_append, List.length_singleton] at hroom
    obtain ⟨h, hrun, hh⟩ := ih (by omega)
    obtain ⟨h', hcall, hh'⟩ := hh.perform (by rw [List.length_map]; exact hroom) call
    refine ⟨h', ?_, ?_⟩
    · rw [History.run] at hrun ⊢
      rw [List.foldlM_append, hrun]
      simpa using hcall
    · simpa using hh'

/-- Longer ones are not kept at all. -/
theorem History.run_eq_none (hlong : historyLen ≤ calls.length) : History.run calls = none := by
  obtain ⟨call, later, hdrop⟩ : ∃ call later, calls.drop (historyLen - 1) = call :: later := by
    apply List.exists_cons_of_ne_nil
    rw [ne_eq, List.drop_eq_nil_iff]
    have : 0 < historyLen := by decide
    omega
  have hlength : (calls.take (historyLen - 1)).length = historyLen - 1 := by
    rw [List.length_take]
    omega
  obtain ⟨h, hrun, hh⟩ := History.run_holds (calls.take (historyLen - 1))
    (by rw [hlength]; decide)
  have hfull : call.perform h = none := by
    apply hh.perform_full
    rw [List.length_map, hlength]
    rfl
  have hsplit : calls = calls.take (historyLen - 1) ++ call :: later := by
    rw [← hdrop, List.take_append_drop]
  rw [History.run] at hrun
  rw [hsplit, History.run, List.foldlM_append, hrun]
  change (call.perform h).bind _ = none
  rw [hfull]
  rfl

end Contents

/-! ## What is printed -/

section Printing

variable {calls : List HistoryCall} {h : History}

/-- A loop that hands on the elements it keeps. -/
theorem filterMap_of_kept {α β : Type*} (f : α → β) (p : β → Prop) [DecidablePred p] (l : List α) :
    l.filterMap (fun a ↦ if p (f a) then some (f a) else none) = (l.map f).filter p := by
  induction l with
  | nil => rfl
  | cons a l ih =>
    by_cases hp : p (f a)
    · simp [hp, ih]
    · simp [hp, ih]

/-- The printing goes once around the array, from the index on. -/
theorem History.printHistory_eq (h : History) :
    h.printHistory =
      "History\n".toList :: (h.slots.rotate h.historyInd).filter (fun text ↦ text.length ≠ 0) := by
  have hrotate : h.slots.rotate h.historyInd =
      (List.range historyLen).map
        (fun i ↦ h.slots.getD ((i + h.historyInd) % historyLen) []) := by
    apply List.ext_getElem
    · rw [List.length_map, List.length_range, List.length_rotate, h.length_slots]
    · intro i hi hi'
      have hindex : (i + h.historyInd) % historyLen < h.slots.length := by
        rw [h.length_slots]
        exact Nat.mod_lt _ (by decide)
      rw [List.getElem_map, List.getElem_range, List.getElem_rotate]
      simp only [List.getD_eq_getElem?_getD, List.getElem?_eq_getElem hindex, Option.getD_some,
        h.length_slots]
  rw [History.printHistory, hrotate, ← filterMap_of_kept]

/-- The newest record is printed first, and the others follow from the oldest on. -/
theorem History.Holds.printHistory {records : List (List Char)} {newest : List Char}
    (hh : h.Holds (records ++ [newest]))
    (hnil : ∀ text ∈ records ++ [newest], text ≠ []) :
    h.printHistory = "History\n".toList :: newest :: records := by
  have hrotate : h.slots.rotate h.historyInd =
      newest :: List.replicate (historyLen - 1 - (records ++ [newest]).length) [] ++
        [] :: records := by
    rw [hh.index, hh.slots, List.length_append, List.length_singleton]
    have hsplit : [] :: (records ++ [newest]) ++
        List.replicate (historyLen - 1 - (records.length + 1)) [] =
          ([] :: records) ++
            (newest :: List.replicate (historyLen - 1 - (records.length + 1)) []) := by
      simp
    have hlength : records.length + 1 = (([] : List Char) :: records).length := rfl
    rw [hsplit]
    nth_rewrite 2 [hlength]
    rw [List.rotate_append_length_eq]
  have hnewest : newest ≠ [] := hnil newest (by simp)
  have hrecords : records.filter (fun text ↦ text.length ≠ 0) = records := by
    rw [List.filter_eq_self]
    intro text htext
    simpa using hnil text (by simp [htext])
  rw [History.printHistory_eq, hrotate]
  simpa [List.filter_append, List.filter_cons, hnewest] using hrecords

theorem History.Holds.printHistory_nil (hh : h.Holds []) :
    h.printHistory = ["History\n".toList] := by
  rw [History.printHistory_eq, hh.index, hh.slots]
  simp

end Printing

/-! ## The history as a queue -/

/-- Every record is stored in the array, and printing gives the last of them in their order. -/
def History.InOrder (calls : List HistoryCall) : Prop :=
  ∃ h, History.run calls = some h ∧
    h.printHistory =
      "History\n".toList ::
        (calls.map HistoryCall.record).drop (calls.length - min calls.length historyLen)

/-- A list is its own rotation by one place exactly where all its elements are the same. -/
theorem cons_eq_append_singleton_iff {α : Type*} {a : α} {l : List α} :
    a :: l = l ++ [a] ↔ ∀ b ∈ l, b = a := by
  induction l with
  | nil => simp
  | cons b l ih =>
    rw [List.cons_append, List.cons.injEq, List.forall_mem_cons]
    constructor
    · rintro ⟨rfl, hl⟩
      exact ⟨rfl, ih.mp hl⟩
    · rintro ⟨rfl, hl⟩
      exact ⟨rfl, ih.mpr hl⟩

/-- The history is a queue only while it is short and has nothing to put in order: no thousand
calls are made, and all of them leave the same record. -/
theorem history_inOrder_iff (calls : List HistoryCall) :
    History.InOrder calls ↔
      calls.length < historyLen ∧
        ∀ call ∈ calls, ∀ call' ∈ calls, call.record = call'.record := by
  by_cases hroom : calls.length < historyLen
  · obtain ⟨h, hrun, hh⟩ := History.run_holds _ hroom
    have hall : calls.length - min calls.length historyLen = 0 := by omega
    rw [History.InOrder, hall, List.drop_zero]
    simp only [hrun, Option.some.injEq, exists_eq_left', hroom, true_and]
    induction calls using List.reverseRecOn with
    | nil =>
      rw [hh.printHistory_nil]
      simp
    | append_singleton calls newest _ =>
      rw [List.map_append, List.map_singleton] at hh ⊢
      rw [List.length_append, List.length_singleton] at hroom
      have hprint := hh.printHistory (by
        intro text htext
        simp only [List.mem_append, List.mem_map, List.mem_singleton] at htext
        rcases htext with ⟨call, _, rfl⟩ | rfl
        · exact call.record_ne_nil
        · exact newest.record_ne_nil)
      rw [hprint, List.cons.injEq, cons_eq_append_singleton_iff]
      constructor
      · rintro ⟨-, hsame⟩
        have hnewest : ∀ call ∈ calls ++ [newest], call.record = newest.record := by
          intro call hcall
          rcases List.mem_append.mp hcall with hold | hnew
          · exact hsame _ (List.mem_map_of_mem hold)
          · rw [List.mem_singleton.mp hnew]
        intro call hcall call' hcall'
        rw [hnewest call hcall, hnewest call' hcall']
      · intro hsame
        refine ⟨rfl, ?_⟩
        intro text htext
        obtain ⟨call, hcall, rfl⟩ := List.mem_map.mp htext
        exact hsame call (by simp [hcall]) newest (by simp)
  · rw [History.InOrder, History.run_eq_none (not_lt.mp hroom)]
    simp [hroom]

/-- The scheduler picks the first environment that was made. -/
theorem history_newest_first :
    ¬ History.InOrder
      [.newEnv { Env.zero with envId := 4096 }, .runEnv { Env.zero with envId := 4096 }] := by
  rintro ⟨h, hrun, hprint⟩
  obtain ⟨h', hrun', hh⟩ := History.run_holds
    [.newEnv { Env.zero with envId := 4096 }, .runEnv { Env.zero with envId := 4096 }] (by decide)
  obtain rfl : h = h' := Option.some.inj (hrun.symm.trans hrun')
  have hnewest : h.printHistory = "History\n".toList :: _ :: [_] :=
    History.Holds.printHistory hh (by decide)
  rw [hnewest] at hprint
  revert hprint
  decide

end SistemasOperativos.Jos
