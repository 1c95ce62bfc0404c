import SistemasOperativos.Library.Sieve
import SistemasOperativos.Fork.Descriptors
import SistemasOperativos.Fork.Primes

/-!
# The phases of a process

Each process runs through the same sequence of states whatever the others do; only the times differ.
A phase is a place in that sequence. It determines the whole record of the process, what the process
has read, written and printed so far, and which ends it holds.
-/

namespace SistemasOperativos.Fork

open Library (sift sifted candidates sift_eq_filter head?_sifted)
open scoped Nat.Prime

/-! ## Streams -/

/-- Everything that process `k` writes, from the start to the end. -/
def stream (n : ℤ) (k : ℕ) : List ℤ := (sifted (candidates n.toNat) k).map Nat.cast

/-- Everything that process `k` reads. -/
def input (n : ℤ) : ℕ → List ℤ
  | 0 => []
  | k + 1 => stream n k

/-- The `primo` of process `k`. -/
def primoOf (n : ℤ) (k : ℕ) : ℤ := (input n k).headD 0

theorem stream_succ (n : ℤ) (k : ℕ) :
    stream n (k + 1) = (stream n k).filter fun v ↦ ¬primoOf n (k + 1) ∣ v := by
  unfold primoOf input stream
  cases h : sifted (candidates n.toNat) k with
  | nil => simp [sifted, sift, h]
  | cons p vs =>
    have hsift : sift (p :: vs) = (p :: vs).filter fun v ↦ ¬p ∣ v := sift_eq_filter rfl
    rw [sifted, h, hsift, List.filter_map]
    simp [Function.comp_def, Int.natCast_dvd_natCast, h]

theorem stream_eq_filter {n : ℤ} {k : ℕ} (hk : 1 ≤ k) :
    stream n k = (input n k).filter fun v ↦ ¬primoOf n k ∣ v := by
  obtain ⟨k, rfl⟩ := Nat.exists_eq_add_of_le' hk
  exact stream_succ n k

theorem stream_eq_nil {n : ℤ} {k : ℕ} (hk : 1 ≤ k) (h : input n k = []) : stream n k = [] := by
  rw [stream_eq_filter hk, h, List.filter_nil]

theorem head?_input_succ (n : ℤ) (k : ℕ) :
    (input n (k + 1)).head? = if k < π n.toNat then some (Nat.nth Nat.Prime k : ℤ) else none := by
  rw [input, stream, List.head?_map, head?_sifted]
  split <;> rfl

theorem input_ne_nil_iff {n : ℤ} {k : ℕ} : input n (k + 1) ≠ [] ↔ k < π n.toNat := by
  rw [← List.isSome_head?, head?_input_succ]
  split <;> simp_all

theorem primoOf_succ {n : ℤ} {k : ℕ} (h : k < π n.toNat) :
    primoOf n (k + 1) = Nat.nth Nat.Prime k := by
  rw [primoOf, List.headD_eq_head?_getD, head?_input_succ, if_pos h, Option.getD_some]

theorem primoOf_ne_zero {n : ℤ} {k : ℕ} (h : input n k ≠ []) : primoOf n k ≠ 0 := by
  cases k with
  | zero => exact absurd rfl h
  | succ k =>
    rw [primoOf_succ (input_ne_nil_iff.mp h)]
    exact_mod_cast (Nat.prime_nth_prime k).ne_zero

theorem input_eq_cons {n : ℤ} {k : ℕ} (h : input n k ≠ []) :
    input n k = primoOf n k :: (input n k).tail := by
  cases hs : input n k with
  | nil => exact absurd hs h
  | cons p vs => simp [primoOf, hs]

theorem getElem?_stream_zero {n : ℤ} {m : ℕ} (h : m < (stream n 0).length) :
    (stream n 0)[m]? = some ((m : ℤ) + 2) := by
  have hlen : m < n.toNat - 1 := by simpa [stream, sifted, candidates] using h
  simp [stream, sifted, candidates, hlen, add_comm]

theorem length_stream_zero (n : ℤ) : (stream n 0).length = n.toNat - 1 := by
  simp [stream, sifted, candidates]

/-! ## Frames -/

def frameOf (n : ℤ) (k : ℕ) : Frame := ⟨izqFds k, derFds k, primoOf n k⟩

/-- The calls under the one that process `k` makes as a child: one for each process before it. -/
def callersOf (n : ℤ) : ℕ → List Frame
  | k + 2 => frameOf n (k + 1) :: callersOf n (k + 1)
  | _ => []

/-! ## Phases -/

/-- The points of a process, with how far it has got where that varies: `m` numbers written by the
generator, `m` numbers read by a filter, or `j` calls of `proceso_filtro` still to return. -/
inductive Phase where
  | mainPipe
  | mainFork
  | mainPadre
  | genera (m : ℕ)
  | mainCierra
  | mainWait
  | hijo
  | hijoLlama
  | filtro
  | filtroPipe
  | readPrimo
  | vacioIzqRead
  | vacioIzqWrite
  | vacioDerRead
  | vacioDerWrite
  | printPrimo
  | filtroFork
  | padre
  | readValue (m : ℕ)
  | filtra (m : ℕ)
  | cierraIzq
  | cierraDer
  | padreWait
  | vuelve (j : ℕ)
  | hijoVuelve (j : ℕ)
  | exited
deriving DecidableEq

namespace Phase

variable (n : ℤ) (k : ℕ)

def point : Phase → Point
  | mainPipe => .mainPipe
  | mainFork => .mainFork
  | mainPadre => .mainPadre
  | genera m => .genera (m + 2)
  | mainCierra => .mainCierra
  | mainWait => .mainWait
  | hijo => .hijo
  | hijoLlama => .hijoLlama
  | filtro => .filtro
  | filtroPipe => .filtroPipe
  | readPrimo => .readPrimo
  | vacioIzqRead => .vacioIzqRead
  | vacioIzqWrite => .vacioIzqWrite
  | vacioDerRead => .vacioDerRead
  | vacioDerWrite => .vacioDerWrite
  | printPrimo => .printPrimo
  | filtroFork => .filtroFork
  | padre => .padre
  | readValue _ => .readValue
  | filtra m => .filtra ((input n k).getD m 0)
  | cierraIzq => .cierraIzq
  | cierraDer => .cierraDer
  | padreWait => .padreWait
  | vuelve _ => .vuelve
  | hijoVuelve _ => .hijoVuelve
  | exited => .exited

def frame : Phase → Frame
  | mainPipe => .call ⟨0, 0⟩
  | mainFork | mainPadre | genera _ | mainCierra | mainWait => .call ⟨0, 1⟩
  | hijo | hijoLlama => frameOf n (k - 1)
  | filtro | filtroPipe => .call (izqFds k)
  | readPrimo | vacioIzqRead | vacioIzqWrite | vacioDerRead | vacioDerWrite =>
    ⟨izqFds k, derFds k, 0⟩
  | vuelve j | hijoVuelve j => frameOf n j
  | exited => if k = 0 then .call ⟨0, 1⟩ else frameOf n 1
  | _ => frameOf n k

def callers : Phase → List Frame
  | mainPipe | mainFork | mainPadre | genera _ | mainCierra | mainWait | exited => []
  | hijo | hijoLlama => callersOf n (k - 1)
  | vuelve j | hijoVuelve j => callersOf n j
  | _ => callersOf n k

/-- Whether the process has a child that `wait` has not returned. -/
def child : Phase → Option ℕ
  | mainPadre | genera _ | mainCierra | mainWait => some (k + 1)
  | padre | readValue _ | filtra _ | cierraIzq | cierraDer | padreWait => some (k + 1)
  | _ => none

def fds : Phase → Table
  | mainPipe | exited => []
  | mainFork | mainPadre => [some ⟨0, .read⟩, some ⟨0, .write⟩]
  | genera _ | mainCierra => [none, some ⟨0, .write⟩]
  | mainWait => [none, none]
  | hijo => table (k - 1) true true true
  | hijoLlama | filtro => tableBefore k true
  | filtroPipe => tableBefore k false
  | readPrimo | vacioIzqRead | printPrimo | filtroFork | padre => table k true true true
  | vacioIzqWrite => table k false true true
  -- `pipe_izq[WRITE]` is by now the number of an end of `pipe_der`
  | vacioDerRead => if k = 1 then table k false false true else table k false true false
  | vacioDerWrite => if k = 1 then table k false false true else table k false false false
  | readValue _ | filtra _ | cierraIzq => table k true false true
  | cierraDer => table k false false true
  | padreWait | vuelve _ | hijoVuelve _ => table k false false false

/-- The record of a process. -/
def process (f : Phase) : Process := ⟨f.point n k, f.frame n k, f.callers n k, f.child k, f.fds k⟩

/-! ## What has been done -/

/-- How many numbers the process has read. -/
def taken : Phase → ℕ
  | printPrimo | filtroFork | padre => 1
  | readValue m => m
  | filtra m => m + 1
  | cierraIzq | cierraDer | padreWait | vuelve _ | hijoVuelve _ | exited => (input n k).length
  | _ => 0

/-- What the process has written. -/
def sent : Phase → List ℤ
  | genera m => (stream n 0).take m
  | readValue m | filtra m => ((input n k).take m).filter fun v ↦ ¬primoOf n k ∣ v
  | mainCierra | mainWait | cierraIzq | cierraDer | padreWait | vuelve _ | hijoVuelve _ | exited =>
    stream n k
  | _ => []

/-- What the process has printed. -/
def prints : Phase → List ℤ
  | filtroFork | padre | readValue _ | filtra _ | cierraIzq | cierraDer | padreWait
  | vuelve _ | hijoVuelve _ | exited => (input n k).head?.toList
  | _ => []

/-- Whether the pipe that the process writes to exists. -/
def piped : Phase → Bool
  | mainPipe | hijo | hijoLlama | filtro | filtroPipe => false
  | _ => true

def forked : Phase → Bool
  | mainPadre | genera _ | mainCierra | mainWait => true
  | padre | readValue _ | filtra _ | cierraIzq | cierraDer | padreWait => true
  | vuelve _ | hijoVuelve _ | exited => k = 0 ∨ input n k ≠ []
  | _ => false

/-- Whether the process has closed the end it writes to, after writing everything. -/
def closed : Phase → Bool
  | mainWait | padreWait | vuelve _ | hijoVuelve _ | exited => true
  | _ => false

/-- Whether the process has seen the end of its input. -/
def ended : Phase → Bool
  | vacioIzqRead | vacioIzqWrite | vacioDerRead | vacioDerWrite | cierraIzq | cierraDer | padreWait
  | vuelve _ | hijoVuelve _ | exited => true
  | _ => false

/-- The phases a process can be in. -/
def Valid : Phase → Prop
  | mainPipe | mainFork | mainPadre | mainCierra | mainWait => k = 0
  | genera m => k = 0 ∧ m ≤ (stream n 0).length
  | hijo | hijoLlama => 2 ≤ k
  | filtro | filtroPipe | readPrimo => 1 ≤ k
  | vacioIzqRead | vacioIzqWrite | vacioDerRead | vacioDerWrite => 1 ≤ k ∧ input n k = []
  | printPrimo | filtroFork | padre | cierraIzq | cierraDer | padreWait => 1 ≤ k ∧ input n k ≠ []
  | readValue m => 1 ≤ k ∧ 1 ≤ m ∧ m ≤ (input n k).length
  | filtra m => 1 ≤ k ∧ 1 ≤ m ∧ m < (input n k).length
  | vuelve j => 1 ≤ j ∧ j ≤ k
  | hijoVuelve j => 1 ≤ j ∧ j < k
  | exited => True

/-- The next phase of the process on its own. -/
def next : Phase → Phase
  | mainPipe => mainFork
  | mainFork => mainPadre
  | mainPadre => genera 0
  | genera m => if m < (stream n 0).length then genera (m + 1) else mainCierra
  | mainCierra => mainWait
  | mainWait => exited
  | hijo => hijoLlama
  | hijoLlama => filtro
  | filtro => filtroPipe
  | filtroPipe => readPrimo
  | readPrimo => if input n k = [] then vacioIzqRead else printPrimo
  | vacioIzqRead => vacioIzqWrite
  | vacioIzqWrite => vacioDerRead
  | vacioDerRead => vacioDerWrite
  | vacioDerWrite => vuelve k
  | printPrimo => filtroFork
  | filtroFork => padre
  | padre => readValue 1
  | readValue m => if m < (input n k).length then filtra m else cierraIzq
  | filtra m => readValue (m + 1)
  | cierraIzq => cierraDer
  | cierraDer => padreWait
  | padreWait => vuelve k
  | vuelve (j + 2) => hijoVuelve (j + 1)
  | vuelve _ => exited
  | hijoVuelve j => vuelve j
  | exited => exited

/-- How many steps the process has still to make, at most. -/
def remaining : Phase → ℕ
  | mainPipe => (stream n 0).length + 6
  | mainFork => (stream n 0).length + 5
  | mainPadre => (stream n 0).length + 4
  | genera m => (stream n 0).length - m + 3
  | mainCierra => 2
  | mainWait => 1
  | hijo => 2 * (input n k).length + 2 * k + 9
  | hijoLlama => 2 * (input n k).length + 2 * k + 8
  | filtro => 2 * (input n k).length + 2 * k + 7
  | filtroPipe => 2 * (input n k).length + 2 * k + 6
  | readPrimo => 2 * (input n k).length + 2 * k + 5
  | vacioIzqRead => 2 * k + 3
  | vacioIzqWrite => 2 * k + 2
  | vacioDerRead => 2 * k + 1
  | vacioDerWrite => 2 * k
  | printPrimo => 2 * (input n k).length + 2 * k + 4
  | filtroFork => 2 * (input n k).length + 2 * k + 3
  | padre => 2 * (input n k).length + 2 * k + 2
  | readValue m => 2 * ((input n k).length - m) + 2 * k + 3
  | filtra m => 2 * ((input n k).length - m) + 2 * k + 2
  | cierraIzq => 2 * k + 2
  | cierraDer => 2 * k + 1
  | padreWait => 2 * k
  | vuelve j => 2 * j - 1
  | hijoVuelve j => 2 * j
  | exited => 0

variable {n k} {f : Phase}

/-! ## One step -/

theorem Valid.next (h : f.Valid n k) : (f.next n k).Valid n k := by
  cases f with
  | genera m =>
    simp only [Phase.next]
    split
    · next hm => exact ⟨h.1, hm⟩
    · exact h.1
  | readPrimo =>
    simp only [Phase.next]
    split
    · next hnil => exact ⟨h, hnil⟩
    · next hne => exact ⟨h, hne⟩
  | padre => exact ⟨h.1, le_rfl, List.length_pos_iff.mpr h.2⟩
  | readValue m =>
    have hne : input n k ≠ [] := List.length_pos_iff.mp (h.2.1.trans h.2.2)
    simp only [Phase.next]
    split
    · next hm => exact ⟨h.1, h.2.1, hm⟩
    · exact ⟨h.1, hne⟩
  | filtra m => exact ⟨h.1, h.2.1.trans m.le_succ, h.2.2⟩
  | vacioDerWrite => exact ⟨h.1, le_rfl⟩
  | padreWait => exact ⟨h.1, le_rfl⟩
  | hijoLlama => exact one_le_two.trans h
  | vuelve j =>
    match j with
    | 0 | 1 => trivial
    | j + 2 => exact ⟨j.succ_pos, h.2⟩
  | hijoVuelve j => exact ⟨h.1, h.2.le⟩
  | mainPadre => exact ⟨h, Nat.zero_le _⟩
  | mainWait | exited => trivial
  | _ => exact h

theorem remaining_next (h : f.Valid n k) (hf : f ≠ exited) :
    (f.next n k).remaining n k < f.remaining n k := by
  cases f with
  | padre =>
    have hpos : 1 ≤ (input n k).length := List.length_pos_iff.mpr h.2
    simp only [Phase.next, remaining]
    omega
  | vuelve j =>
    match j with
    | 0 => exact absurd h.1 (by decide)
    | 1 => simp [Phase.next, remaining]
    | j + 2 => simp only [Phase.next, remaining]; omega
  | exited => contradiction
  | _ =>
    simp only [Phase.next, Valid] at h ⊢
    try split
    all_goals simp only [remaining]; omega

/-- The steps that neither read, write, print nor call `pipe`. -/
def silent : Phase → Bool
  | mainPipe | genera _ | filtroPipe | readPrimo | printPrimo | readValue _ | filtra _ => false
  | _ => true

theorem silent_next (hv : f.Valid n k) (h : f.silent = true) :
    (f.next n k).taken n k = f.taken n k ∧ (f.next n k).sent n k = f.sent n k ∧
      (f.next n k).prints n k = f.prints n k ∧ (f.next n k).piped = f.piped := by
  cases f with
  | mainPipe | genera | filtroPipe | readPrimo | printPrimo | readValue | filtra => cases h
  | mainWait =>
    obtain rfl : k = 0 := hv
    exact ⟨rfl, rfl, rfl, rfl⟩
  | vacioDerWrite => simp [Phase.next, taken, sent, prints, piped, hv.2, stream_eq_nil hv.1 hv.2]
  | padre =>
    refine ⟨rfl, ?_, rfl, rfl⟩
    rw [Phase.next, sent, input_eq_cons hv.2]
    simp [sent]
  | mainPadre => simp [Phase.next, taken, sent, prints, piped]
  | vuelve j => match j with | 0 | 1 | _ + 2 => exact ⟨rfl, rfl, rfl, rfl⟩
  | _ => exact ⟨rfl, rfl, rfl, rfl⟩

/-! ## The calls to close -/

def closes : Phase → Bool
  | mainPadre | mainCierra | filtro | vacioIzqRead | vacioIzqWrite | vacioDerRead | vacioDerWrite
  | hijo | hijoVuelve _ | padre | cierraIzq | cierraDer => true
  | _ => false

def closingFd (k : ℕ) : Phase → ℕ
  | mainCierra => 1
  | filtro | vacioIzqWrite => (izqFds k).write
  | vacioIzqRead | cierraIzq => (izqFds k).read
  | vacioDerRead | padre => (derFds k).read
  | vacioDerWrite | cierraDer => (derFds k).write
  | hijo => (izqFds (k - 1)).read
  | hijoVuelve j => (derFds j).read
  | _ => 0

theorem closing_eq_none (h : f.closes = false) : (f.process n k).closing = none := by
  cases f <;> first | rfl | cases h

theorem closing_eq_some (h : f.closes = true) :
    (f.process n k).closing = some (f.closingFd k, (f.next n k).point n k) := by
  cases f <;> first | rfl | cases h

theorem fds_next_of_closes (hv : f.Valid n k) (h : f.closes = true) :
    (f.next n k).fds k = (f.fds k).close (f.closingFd k) := by
  cases f with
  | mainPadre | mainCierra => rfl
  | filtro => exact (close_before hv).symm
  | vacioIzqRead => exact (close_izqRead hv.1).symm
  | vacioIzqWrite =>
    simp only [Phase.next, fds, closingFd]
    split
    · next hk => rw [hk, close_izqWrite_one]
    · next hk => exact (close_izqWrite (Nat.lt_of_le_of_ne hv.1 (Ne.symm hk))).symm
  | vacioDerRead =>
    simp only [Phase.next, fds, closingFd]
    split <;> exact close_derRead.symm
  | vacioDerWrite =>
    simp only [Phase.next, fds, closingFd]
    split
    · exact close_derWrite.symm
    · exact (close_closed _).symm
  | hijo => exact (close_hijo hv).symm
  | hijoVuelve => exact (close_closed _).symm
  | padre => exact close_derRead.symm
  | cierraIzq => exact (close_izqRead hv.1).symm
  | cierraDer => exact close_derWrite.symm
  | _ => cases h

theorem process_next_of_closes (hv : f.Valid n k) (h : f.closes = true) :
    (f.next n k).process n k =
      { f.process n k with
        point := (f.next n k).point n k
        fds := (f.fds k).close (f.closingFd k) } := by
  rw [← fds_next_of_closes hv h]
  cases f with
  | vacioDerWrite => simp [Phase.next, process, frame, frameOf, primoOf, hv.2, callers, child]
  | _ => first | rfl | cases h

theorem silent_of_closes (h : f.closes = true) : f.silent = true := by
  cases f <;> first | rfl | cases h

/-! ## What is written and read -/

theorem sent_prefix (hv : f.Valid n k) : f.sent n k <+: stream n k := by
  cases f with
  | genera m =>
    rw [hv.1]
    exact List.take_prefix m _
  | readValue | filtra =>
    rw [stream_eq_filter hv.1]
    exact (List.take_prefix _ _).filter _
  | mainCierra | mainWait | cierraIzq | cierraDer | padreWait | vuelve | hijoVuelve | exited =>
    exact List.prefix_rfl
  | _ => exact List.nil_prefix

theorem sent_of_closed (h : f.closed = true) : f.sent n k = stream n k := by
  cases f <;> first | rfl | cases h

/-- What the generator and the filters write next. -/
theorem sent_next_genera {m : ℕ} (hm : m < (stream n 0).length) :
    (genera (m + 1)).sent n 0 = (genera m).sent n 0 ++ [(m : ℤ) + 2] := by
  simp [sent, List.take_add_one, getElem?_stream_zero hm]

theorem sent_next_filtra {m : ℕ} (hm : m < (input n k).length) :
    (readValue (m + 1)).sent n k =
      (filtra m).sent n k ++
        if primoOf n k ∣ (input n k).getD m 0 then [] else [(input n k).getD m 0] := by
  have hget : (input n k)[m]? = some ((input n k).getD m 0) := by
    simp [List.getD_eq_getElem?_getD, List.getElem?_eq_getElem hm]
  rw [sent, sent, List.take_add_one, hget, List.filter_append]
  congr 1
  split <;> simp_all

end Phase

end SistemasOperativos.Fork
