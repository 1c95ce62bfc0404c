import Mathlib
import SistemasOperativos.Library.RingBuffer

/-!
# The console

The characters of the devices on their way to `readline`: `cons_intr` stashes them in a ring buffer,
`cons_getc` polls the devices and takes the oldest character, and `readline` edits its line with what
`getchar` returns.
-/

namespace SistemasOperativos.Jos

open Library

def consBufSize : ℕ := 512
def bufLen : ℕ := 1024

instance : NeZero consBufSize := ⟨by decide⟩

/-- The input buffer of `kern/console.c`. -/
abbrev Cons := RingBuffer (BitVec 8) consBufSize

/-- The characters that the devices return while they are polled once. -/
structure Poll where
  serial : List (BitVec 8)
  kbd : List (BitVec 8)

namespace Cons

variable {cons : Cons}

/-- The next position: after the last one comes the first one. -/
def advance (p : Fin consBufSize) : Fin consBufSize :=
  if h : p.val + 1 = consBufSize then 0
  else ⟨p.val + 1, Nat.lt_of_le_of_ne (Nat.succ_le_of_lt p.isLt) h⟩

/-- The loop of `cons_intr`, for what the device returns before -1. -/
def consIntr : List (BitVec 8) → Cons → Cons
  | [], cons => cons
  | c :: cs, cons =>
    if c = 0 then consIntr cs cons
    else consIntr cs
      { cons with buf := Function.update cons.buf cons.wpos c, wpos := advance cons.wpos }

def consGetc (poll : Poll) (cons : Cons) : BitVec 8 × Cons :=
  let cons := consIntr poll.kbd (consIntr poll.serial cons)
  if cons.rpos ≠ cons.wpos then (cons.buf cons.rpos, { cons with rpos := advance cons.rpos })
  else (0, cons)

theorem advance_eq (p : Fin consBufSize) : advance p = p + 1 := by
  apply Fin.ext
  rw [RingBuffer.val_succ]
  unfold advance
  split
  · rfl
  · rfl

/-! ## The queue of characters -/

/-- A character that finds no room takes all the others with it. -/
def stash (queue : List (BitVec 8)) (c : BitVec 8) : List (BitVec 8) :=
  if queue.length + 1 = consBufSize then [] else queue ++ [c]

theorem contents_store (c : BitVec 8) :
    RingBuffer.contents
      { cons with buf := Function.update cons.buf cons.wpos c, wpos := advance cons.wpos } =
    stash cons.contents c := by
  rw [advance_eq, stash, RingBuffer.length_contents]
  change (cons.push c).contents = _
  split
  · rename_i hfull
    exact RingBuffer.contents_push_full hfull
  · rename_i hroom
    have hlt := RingBuffer.count_lt (r := cons)
    exact RingBuffer.contents_push (Nat.lt_of_le_of_ne hlt hroom)

/-- In every state of the buffer. -/
theorem contents_consIntr (cs : List (BitVec 8)) (cons : Cons) :
    (consIntr cs cons).contents = (cs.filter (· ≠ 0)).foldl stash cons.contents := by
  induction cs generalizing cons with
  | nil => rfl
  | cons c cs ih =>
    rw [consIntr]
    by_cases hc : c = 0
    · rw [if_pos hc, ih, List.filter_cons_of_neg (by simpa using hc)]
    · rw [if_neg hc, ih, List.filter_cons_of_pos (by simpa using hc), List.foldl_cons,
        contents_store]

/-- Where all of them find room. -/
theorem foldl_stash (cs queue : List (BitVec 8)) (hroom : queue.length + cs.length < consBufSize) :
    cs.foldl stash queue = queue ++ cs := by
  induction cs generalizing queue with
  | nil => exact (List.append_nil queue).symm
  | cons c cs ih =>
    rw [List.length_cons] at hroom
    have hstash : stash queue c = queue ++ [c] := if_neg (by omega)
    rw [List.foldl_cons, hstash, ih, List.append_assoc]
    · rfl
    · rw [List.length_append, List.length_singleton]
      omega

end Cons

/-- What is typed: a device returns 0 for a key that makes no character. -/
def Poll.typed (poll : Poll) : List (BitVec 8) := (poll.serial ++ poll.kbd).filter (· ≠ 0)

def Poll.idle : Poll := ⟨[], []⟩

namespace Cons

variable {cons : Cons} {poll : Poll}

/-- The next character is the oldest one that has not been read. -/
theorem consGetc_contents (hroom : cons.contents.length + poll.typed.length < consBufSize) :
    (cons.consGetc poll).1 = (cons.contents ++ poll.typed).headD 0 ∧
      (cons.consGetc poll).2.contents = (cons.contents ++ poll.typed).tail := by
  have hqueue : (consIntr poll.kbd (consIntr poll.serial cons)).contents =
      cons.contents ++ poll.typed := by
    rw [contents_consIntr, contents_consIntr, ← List.foldl_append, ← List.filter_append]
    exact foldl_stash _ _ hroom
  unfold consGetc
  rw [← hqueue]
  generalize consIntr poll.kbd (consIntr poll.serial cons) = polled
  simp only
  split
  · rename_i hsome
    rw [advance_eq, RingBuffer.contents_pop hsome]
    exact ⟨rfl, rfl⟩
  · rename_i hempty
    have hnil := RingBuffer.contents_eq_nil.mpr (not_not.mp hempty)
    rw [hnil]
    exact ⟨rfl, rfl⟩

end Cons

/-! ## `readline` -/

/-- The buffer of `readline` and the index of its loop, which stays inside. -/
structure Line where
  buf : Fin bufLen → BitVec 8
  i : Fin bufLen

inductive Line.Turn where
  | goes (line : Line)
  | returns (buf : Fin bufLen → BitVec 8)

namespace Line

variable {line : Line} {text : List (BitVec 8)} {c : BitVec 8}

/-- What the loop does with a character. -/
def turn (c : BitVec 8) (line : Line) : Turn :=
  if (c = 0x08 ∨ c = 0x7f) ∧ 0 < line.i.val then
    .goes { line with i := ⟨line.i.val - 1, Nat.lt_of_le_of_lt (Nat.sub_le _ _) line.i.isLt⟩ }
  else if h : 0x20 ≤ c ∧ line.i.val < bufLen - 1 then
    .goes ⟨Function.update line.buf line.i c, ⟨line.i.val + 1, Nat.add_lt_of_lt_sub h.2⟩⟩
  else if c = 0x0a ∨ c = 0x0d then .returns (Function.update line.buf line.i 0)
  else .goes line

end Line

/-- The loop, for the polls of `getchar`, which goes on until it has a character. -/
def readlineFrom : List Poll → Cons → Line → Option ((Fin bufLen → BitVec 8) × Cons × List Poll)
  | [], _, _ => none
  | poll :: polls, cons, line =>
    let (c, cons) := cons.consGetc poll
    if c = 0 then readlineFrom polls cons line
    else match line.turn c with
      | .goes line => readlineFrom polls cons line
      | .returns buf => some (buf, cons, polls)

/-- `buf` is what the last call has left there. -/
def readline (buf : Fin bufLen → BitVec 8) (polls : List Poll) (cons : Cons) :
    Option ((Fin bufLen → BitVec 8) × Cons × List Poll) :=
  readlineFrom polls cons ⟨buf, ⟨0, by decide⟩⟩

/-! ## The line as text -/

/-- The text that a character leaves of a text, or none where it ends the line. -/
def editChar (text : List (BitVec 8)) (c : BitVec 8) : Option (List (BitVec 8)) :=
  if (c = 0x08 ∨ c = 0x7f) ∧ text ≠ [] then some text.dropLast
  else if 0x20 ≤ c ∧ text.length < bufLen - 1 then some (text ++ [c])
  else if c = 0x0a ∨ c = 0x0d then none
  else some text

/-- The line that the characters make, and the characters behind it. -/
def editLine : List (BitVec 8) → List (BitVec 8) → Option (List (BitVec 8) × List (BitVec 8))
  | _, [] => none
  | text, c :: cs =>
    match editChar text c with
    | some text => editLine text cs
    | none => some (text, cs)

/-- The array begins with the text, of which no character is 0. -/
structure Begins (buf : Fin bufLen → BitVec 8) (text : List (BitVec 8)) : Prop where
  chars : ∀ j : Fin bufLen, (h : j.val < text.length) → buf j = text[j.val]
  nonzero : ∀ c ∈ text, c ≠ 0

/-- The array holds the text as a C string. -/
def HoldsString (buf : Fin bufLen → BitVec 8) (text : List (BitVec 8)) : Prop :=
  Begins buf text ∧ ∃ h : text.length < bufLen, buf ⟨text.length, h⟩ = 0

namespace Begins

variable {buf : Fin bufLen → BitVec 8} {text : List (BitVec 8)} {i : Fin bufLen}

theorem dropLast (h : Begins buf text) : Begins buf text.dropLast where
  chars j hj := by
    rw [List.length_dropLast] at hj
    rw [List.getElem_dropLast]
    exact h.chars j (by omega)
  nonzero c hc := h.nonzero c (List.mem_of_mem_dropLast hc)

/-- A write right behind the text. -/
theorem update (h : Begins buf text) (hi : text.length = i.val) (c : BitVec 8) :
    Begins (Function.update buf i c) text where
  chars j hj := by
    have hne : j ≠ i := by
      rintro rfl
      rw [hi] at hj
      exact Nat.lt_irrefl _ hj
    rw [Function.update_of_ne hne]
    exact h.chars j hj
  nonzero := h.nonzero

theorem concat (h : Begins buf text) (hi : text.length = i.val) {c : BitVec 8} (hc : c ≠ 0) :
    Begins (Function.update buf i c) (text ++ [c]) where
  chars j hj := by
    rw [List.length_append, List.length_singleton] at hj
    by_cases hlt : j.val < text.length
    · rw [List.getElem_append_left hlt]
      exact (h.update hi c).chars j hlt
    · obtain rfl : j = i := Fin.ext (by omega)
      rw [Function.update_self]
      simp [← hi]
  nonzero d hd := by
    rcases List.mem_append.mp hd with hold | hnew
    · exact h.nonzero d hold
    · rw [List.mem_singleton.mp hnew]
      exact hc

theorem holdsString (h : Begins buf text) (hi : text.length = i.val) :
    HoldsString (Function.update buf i 0) text := by
  have hlt : text.length < bufLen := by
    rw [hi]
    exact i.isLt
  have hat : (⟨text.length, hlt⟩ : Fin bufLen) = i := Fin.ext hi
  refine ⟨h.update hi 0, hlt, ?_⟩
  rw [hat, Function.update_self]

end Begins

namespace Line

variable {line : Line} {text : List (BitVec 8)} {c : BitVec 8}

/-- The text of the line so far. -/
structure Shows (line : Line) (text : List (BitVec 8)) : Prop where
  length : text.length = line.i.val
  begins : Begins line.buf text

theorem Shows.turn (h : line.Shows text) (c : BitVec 8) :
    (∃ text' line', editChar text c = some text' ∧ line.turn c = .goes line' ∧
      line'.Shows text') ∨
    editChar text c = none ∧ ∃ buf, line.turn c = .returns buf ∧ HoldsString buf text := by
  have hempty : text ≠ [] ↔ 0 < line.i.val := by
    rw [← h.length, List.length_pos_iff]
  unfold editChar Line.turn
  rw [h.length]
  by_cases hback : (c = 0x08 ∨ c = 0x7f) ∧ 0 < line.i.val
  · left
    rw [if_pos hback, if_pos ⟨hback.1, hempty.mpr hback.2⟩]
    refine ⟨_, _, rfl, rfl, ?_, h.begins.dropLast⟩
    rw [List.length_dropLast, h.length]
  rw [if_neg hback, if_neg (fun hyes ↦ hback ⟨hyes.1, hempty.mp hyes.2⟩)]
  by_cases hinsert : 0x20 ≤ c ∧ line.i.val < bufLen - 1
  · left
    rw [dif_pos hinsert, if_pos hinsert]
    have hchar : c ≠ 0 := by
      rintro rfl
      exact absurd hinsert.1 (by decide)
    refine ⟨_, _, rfl, rfl, ?_, h.begins.concat h.length hchar⟩
    rw [List.length_append, List.length_singleton, h.length]
  rw [dif_neg hinsert, if_neg hinsert]
  by_cases hend : c = 0x0a ∨ c = 0x0d
  · right
    rw [if_pos hend, if_pos hend]
    exact ⟨rfl, _, rfl, h.begins.holdsString h.length⟩
  · left
    rw [if_neg hend, if_neg hend]
    exact ⟨text, line, rfl, rfl, h⟩

end Line

/-! ## From the devices to the line -/

/-- What is typed during the polls. -/
def typed (polls : List Poll) : List (BitVec 8) := polls.flatMap Poll.typed

/-- The characters never fill the buffer, of which each poll takes one. -/
def Paced : ℕ → List Poll → Prop
  | _, [] => True
  | pending, poll :: polls => pending + poll.typed.length < consBufSize ∧
      Paced (pending + poll.typed.length - 1) polls

section Reading

variable {cons : Cons} {line : Line} {text : List (BitVec 8)} {poll : Poll}

/-- One poll, with what is typed after it. -/
theorem readlineFrom_poll (polls : List Poll) (later : List (BitVec 8)) (hshows : line.Shows text)
    (hroom : cons.contents.length + poll.typed.length < consBufSize) :
    ∃ cons' : Cons, cons'.contents = (cons.contents ++ poll.typed).tail ∧
      ((∃ text' line', line'.Shows text' ∧
          editLine text (cons.contents ++ (poll.typed ++ later)) =
            editLine text' (cons'.contents ++ later) ∧
          readlineFrom (poll :: polls) cons line = readlineFrom polls cons' line') ∨
        editLine text (cons.contents ++ (poll.typed ++ later)) =
            some (text, cons'.contents ++ later) ∧
          ∃ buf, HoldsString buf text ∧
            readlineFrom (poll :: polls) cons line = some (buf, cons', polls)) := by
  obtain ⟨hchar, hcontents⟩ := Cons.consGetc_contents hroom
  refine ⟨(cons.consGetc poll).2, hcontents, ?_⟩
  rw [readlineFrom, ← List.append_assoc]
  generalize cons.consGetc poll = got at hchar hcontents ⊢
  obtain ⟨c, cons'⟩ := got
  simp only at hchar hcontents ⊢
  cases hqueue : cons.contents ++ poll.typed with
  | nil =>
    rw [hqueue] at hchar hcontents
    left
    refine ⟨text, line, hshows, ?_, if_pos hchar⟩
    rw [hcontents]
    rfl
  | cons d queue =>
    rw [hqueue] at hchar hcontents
    obtain rfl : c = d := hchar
    obtain rfl : cons'.contents = queue := hcontents
    rw [List.cons_append, editLine]
    by_cases hzero : c = 0
    · left
      have hignored : editChar text c = some text := by
        rw [hzero]
        unfold editChar
        rw [if_neg (by simp), if_neg (by simp), if_neg (by simp)]
      rw [hignored]
      exact ⟨text, line, hshows, rfl, if_pos hzero⟩
    · rw [if_neg hzero]
      rcases hshows.turn c with ⟨text', line', hedit, hturn, hshows'⟩ | ⟨hedit, buf, hturn, hholds⟩
      · left
        rw [hedit, hturn]
        exact ⟨text', line', hshows', rfl, rfl⟩
      · right
        rw [hedit, hturn]
        exact ⟨rfl, buf, hholds, rfl⟩

end Reading

/-- A call of `readline` returns the line that is expected, as a string, and leaves what is typed after
it, or it does not come to an end. -/
def Reads (result : Option ((Fin bufLen → BitVec 8) × Cons × List Poll)) :
    Option (List (BitVec 8) × List (BitVec 8)) → Prop
  | none => result = none
  | some (text, more) => ∃ buf cons rest, result = some (buf, cons, rest) ∧
      HoldsString buf text ∧ cons.contents ++ typed rest = more

section Reading

variable {cons : Cons} {line : Line} {text : List (BitVec 8)}

theorem typed_idle (m : ℕ) : typed (List.replicate m .idle) = [] := by
  induction m with
  | zero => rfl
  | succ m ih =>
    rw [List.replicate_succ, typed, List.flatMap_cons, ← typed, ih]
    rfl

/-- Nothing is typed any more: `readline` takes the characters that are left. -/
theorem reads_idle (m : ℕ) (hshows : line.Shows text) (hm : cons.contents.length ≤ m) :
    Reads (readlineFrom (List.replicate m .idle) cons line) (editLine text cons.contents) := by
  induction m generalizing cons line text with
  | zero =>
    have hnil := List.length_eq_zero_iff.mp (Nat.le_zero.mp hm)
    rw [hnil]
    rfl
  | succ m ih =>
    have hroom : cons.contents.length + Poll.idle.typed.length < consBufSize := by
      rw [RingBuffer.length_contents]
      exact RingBuffer.count_lt
    obtain ⟨cons', hcontents, hnext⟩ :=
      readlineFrom_poll (List.replicate m .idle) [] hshows hroom
    have hidle : cons.contents ++ (Poll.idle.typed ++ []) = cons.contents := List.append_nil _
    rw [List.replicate_succ]
    rw [hidle, List.append_nil] at hnext
    rcases hnext with ⟨text', line', hshows', hedit, hread⟩ | ⟨hedit, buf, hholds, hread⟩
    · rw [hedit, hread]
      apply ih hshows'
      have htail : cons'.contents = cons.contents.tail := by
        rw [hcontents]
        exact congrArg List.tail (List.append_nil _)
      rw [htail, List.length_tail]
      omega
    · rw [hedit, hread]
      refine ⟨buf, cons', _, rfl, hholds, ?_⟩
      rw [typed_idle, List.append_nil]

/-- What is typed in time is read in order. -/
theorem reads_typed (polls : List Poll) (m : ℕ) (hshows : line.Shows text)
    (hpaced : Paced cons.contents.length polls)
    (hm : (cons.contents ++ typed polls).length ≤ m) :
    Reads (readlineFrom (polls ++ List.replicate m .idle) cons line)
      (editLine text (cons.contents ++ typed polls)) := by
  induction polls generalizing cons line text with
  | nil =>
    have hnil : cons.contents ++ typed [] = cons.contents := List.append_nil _
    rw [hnil] at hm ⊢
    exact reads_idle m hshows hm
  | cons poll polls ih =>
    obtain ⟨hroom, hpaced⟩ := hpaced
    have htyped : typed (poll :: polls) = poll.typed ++ typed polls := List.flatMap_cons
    rw [htyped] at hm ⊢
    obtain ⟨cons', hcontents, hnext⟩ :=
      readlineFrom_poll (polls ++ List.replicate m .idle) (typed polls) hshows hroom
    have hlength : cons'.contents.length = cons.contents.length + poll.typed.length - 1 := by
      rw [hcontents, List.length_tail, List.length_append]
    rw [List.cons_append]
    rcases hnext with ⟨text', line', hshows', hedit, hread⟩ | ⟨hedit, buf, hholds, hread⟩
    · rw [hedit, hread]
      apply ih hshows'
      · rw [hlength]
        exact hpaced
      · simp only [List.length_append] at hm ⊢
        omega
    · rw [hedit, hread]
      refine ⟨buf, cons', _, rfl, hholds, ?_⟩
      have hlater : typed (polls ++ List.replicate m .idle) = typed polls ++ [] := by
        rw [typed, List.flatMap_append, ← typed, ← typed, typed_idle]
      rw [hlater, List.append_nil]

end Reading

/-- Two letters, of which the second is taken back, and one letter behind the line. -/
def typedLetters : List Poll := [⟨[], [0x61, 0x62]⟩, ⟨[0x08], []⟩, ⟨[], [0, 0x0a, 0x63]⟩]

def emptyCons : Cons := ⟨fun _ ↦ 0, 0, 0⟩

end SistemasOperativos.Jos
