import Mathlib.Data.List.Basic
import Mathlib.Data.List.TakeWhile
import SistemasOperativos.Library.Chunks

/-!
# Packaging arguments with `xargs.c`

`main` as a function of the bytes on its standard input. `NARGS` is a parameter, and so is what the
system does with the calls of `fork` and `execvp`; memory is always available. The result is the
sequence of the arrays `args` that have been executed, each with all its pointers.
-/

namespace SistemasOperativos.Fork.Xargs

open Library

/-- A C string, without its terminator. -/
abbrev Str := List UInt8

/-- An array of pointers to strings. -/
abbrev Args := List (Option Str)

def endString : UInt8 := 0
def endLine : UInt8 := 10

/-- What the system does with the calls that may fail. -/
structure System where
  /-- Whether a call of `fork` succeeds, by the number of calls before it. -/
  fork : ℕ → Bool
  execvp : Args → Bool

/-! ## The program -/

/-- The next line with its newline, in its block of memory, and the rest of the input. -/
def getline (input : Str) : Option (Str × Str) :=
  let line := input.takeWhile (· ≠ endLine)
  let after := input.dropWhile (· ≠ endLine)
  if input = [] then none else some (line ++ after.take 1, after.drop 1)

/-- What `getline` returns is stored in an `int`. -/
def nread (line : Str) : BitVec 32 := .ofNat 32 line.length

/-- The block of a line up to its terminator. -/
def strdup (line : Str) : Str := line.takeWhile (· ≠ endString)

/-- `strcspn(line, "\n")`. -/
def strcspn (line : Str) : ℕ := line.findIdx fun c ↦ c = endLine ∨ c = endString

def eliminarSalto (line : Str) : Str := line.set (strcspn line) endString

def reiniciarArgs (nargs : ℕ) (args : Args) (argv1 : Str) : Args :=
  ((List.range' 1 nargs).foldl (fun args i ↦ args.set i none) args).set 0 (some argv1)

/-- The variables of `main`, with the number of calls of `fork` and the arrays executed. -/
structure State where
  args : Args
  i : ℕ
  forks : ℕ
  executed : List Args

variable (sys : System) (nargs : ℕ) (argv1 : Str)

/-- A call of `execvp`, in whatever process. -/
def execute (args : Args) (executed : List Args) : List Args :=
  if sys.execvp args then executed ++ [args] else executed

/-- One turn of the loop. It fails where the process exits. -/
def turn (line : Str) (s : State) : Except (List Args) State :=
  let args := s.args.set s.i (some (strdup (eliminarSalto line)))
  if s.i % nargs = 0 then
    if sys.fork s.forks then
      .ok {
        args := reiniciarArgs nargs args argv1
        i := 0 + 1
        forks := s.forks + 1
        executed := execute sys args s.executed }
    else .error s.executed
  else .ok { s with args, i := s.i + 1 }

theorem getline_shorter {input line rest : Str} (h : getline input = some (line, rest)) :
    rest.length < input.length := by
  unfold getline at h
  split at h
  · cases h
  · rename_i hne
    have hlen : (input.dropWhile (· ≠ endLine)).length ≤ input.length :=
      (List.dropWhile_sublist _).length_le
    have hpos : 0 < input.length := List.length_pos_iff.mpr hne
    have hrest : (input.dropWhile (· ≠ endLine)).drop 1 = rest :=
      congrArg Prod.snd (Option.some.inj h)
    rw [← hrest, List.length_drop]
    omega

def loop (input : Str) (s : State) : Except (List Args) State :=
  match _h : getline input with
  | none => .ok s
  | some (line, rest) => if nread line = -1 then .ok s else turn sys nargs argv1 line s >>= loop rest
termination_by input.length
decreasing_by exact getline_shorter _h

/-- The arrays that are executed, in order. -/
def main (argv : List Str) (input : Str) : List Args :=
  match argv with
  | [_, argv1] =>
    let start : State := ⟨(List.replicate (nargs + 2) none).set 0 (some argv1), 1, 0, []⟩
    match loop sys nargs argv1 input start with
    | .error executed => executed
    | .ok s => if 1 < s.i then execute sys s.args s.executed else s.executed
  | _ => []

/-! ## The arrays -/

/-- The array for some arguments: the command, the arguments, and NULL up to the end. -/
def vector (arguments : List Str) : Args :=
  some argv1 :: (arguments.map some ++ List.replicate (nargs + 1 - arguments.length) none)

variable {sys nargs argv1} {arguments : List Str} {line : Str}

theorem vector_start : (List.replicate (nargs + 2) none).set 0 (some argv1) =
    vector nargs argv1 [] := by
  rw [List.replicate_succ, List.set_cons_zero]
  rfl

/-- The next argument goes right after the others. -/
theorem vector_set (hlen : arguments.length ≤ nargs) :
    (vector nargs argv1 arguments).set (arguments.length + 1) (some line) =
      vector nargs argv1 (arguments ++ [line]) := by
  have hroom : nargs + 1 - arguments.length = nargs + 1 - (arguments ++ [line]).length + 1 := by
    rw [List.length_append, List.length_singleton]
    omega
  have hmap : (arguments.map some).length = arguments.length := List.length_map some
  rw [vector, List.set_cons_succ, List.set_append_right _ _ (Nat.le_of_eq hmap), hmap, Nat.sub_self,
    hroom, List.replicate_succ, List.set_cons_zero, vector, List.map_append, List.append_assoc]
  rfl

theorem foldl_set_none {a : Option Str} (j k : ℕ) (args : Args) :
    (List.range' (j + 1) k).foldl (fun args i ↦ args.set i none) (a :: args) =
      a :: (List.range' j k).foldl (fun args i ↦ args.set i none) args := by
  induction k generalizing j args with
  | zero => rfl
  | succ k ih =>
    rw [List.range'_succ, List.range'_succ, List.foldl_cons, List.foldl_cons, List.set_cons_succ, ih]

theorem clear_all (args : Args) (k : ℕ) (hlen : args.length = k) :
    (List.range' 0 k).foldl (fun args i ↦ args.set i none) (args ++ [none]) =
      List.replicate (k + 1) none := by
  induction k generalizing args with
  | zero => rw [List.length_eq_zero_iff.mp hlen]; rfl
  | succ k ih =>
    obtain ⟨a, args, rfl⟩ := List.exists_cons_of_length_eq_add_one hlen
    have hrest := ih args (Nat.succ.inj hlen)
    rw [List.range'_succ, List.foldl_cons, List.cons_append, List.set_cons_zero, foldl_set_none, hrest]
    rfl

/-- After a full vector nothing is left of its arguments. -/
theorem reiniciarArgs_vector (hlen : arguments.length = nargs) :
    reiniciarArgs nargs (vector nargs argv1 arguments) argv1 = vector nargs argv1 [] := by
  have hroom : nargs + 1 - arguments.length = 1 := by omega
  have hclear := clear_all (arguments.map some) nargs (by rw [List.length_map, hlen])
  rw [reiniciarArgs, vector, hroom, foldl_set_none, List.replicate_one, hclear]
  rfl

/-! ## The input -/

/-- A line of text, without its newline. -/
def IsLine (line : Str) : Prop := ∀ c ∈ line, c ≠ endLine ∧ c ≠ endString

/-- The input made of some lines. The last one may lack its newline. -/
inductive InputOf : List Str → Str → Prop where
  | nil : InputOf [] []
  | unterminated {line : Str} : IsLine line → line ≠ [] → InputOf [line] line
  | cons {line input : Str} {lines : List Str} :
      IsLine line → InputOf lines input → InputOf (line :: lines) (line ++ endLine :: input)

/-- The longest string that `execve` takes as an argument, with its terminator: `MAX_ARG_STRLEN`. -/
def maxArgStrlen : ℕ := 131072

section Lines

variable {input newline : Str} {lines : List Str}

theorem IsLine.takeWhile_append (h : IsLine line) (rest : Str) :
    (line ++ endLine :: rest).takeWhile (· ≠ endLine) = line := by
  rw [List.takeWhile_append_of_pos fun c hc ↦ decide_eq_true (h c hc).1]
  simp

theorem IsLine.dropWhile_append (h : IsLine line) (rest : Str) :
    (line ++ endLine :: rest).dropWhile (· ≠ endLine) = endLine :: rest := by
  rw [List.dropWhile_append_of_pos fun c hc ↦ decide_eq_true (h c hc).1]
  simp

theorem getline_append (h : IsLine line) (rest : Str) :
    getline (line ++ endLine :: rest) = some (line ++ [endLine], rest) := by
  have hne : line ++ endLine :: rest ≠ [] := List.append_ne_nil_of_right_ne_nil _ (List.cons_ne_nil _ _)
  simp only [getline, if_neg hne, h.takeWhile_append, h.dropWhile_append]
  rfl

theorem getline_unterminated (h : IsLine line) (hne : line ≠ []) :
    getline line = some (line, []) := by
  have htake : line.takeWhile (· ≠ endLine) = line :=
    List.takeWhile_eq_self_iff.mpr fun c hc ↦ decide_eq_true (h c hc).1
  have hdrop : line.dropWhile (· ≠ endLine) = [] :=
    List.dropWhile_eq_nil_iff.mpr fun c hc ↦ decide_eq_true (h c hc).1
  simp only [getline, if_neg hne, htake, hdrop]
  rw [List.take_nil, List.append_nil, List.drop_nil]

/-- The newline goes, and what is duplicated is the line. -/
theorem strdup_eliminarSalto (h : IsLine line) (hnewline : newline = [] ∨ newline = [endLine]) :
    strdup (eliminarSalto (line ++ newline)) = line := by
  have hline : line.takeWhile (· ≠ endString) = line :=
    List.takeWhile_eq_self_iff.mpr fun c hc ↦ decide_eq_true (h c hc).2
  have hnone : line.findIdx (fun c ↦ c = endLine ∨ c = endString) = line.length :=
    List.findIdx_eq_length.mpr fun c hc ↦ decide_eq_false fun hor ↦ hor.elim (h c hc).1 (h c hc).2
  rcases hnewline with rfl | rfl
  · rw [List.append_nil, eliminarSalto, strcspn, hnone, List.set_eq_of_length_le (Nat.le_refl _), strdup,
      hline]
  · have hindex : strcspn (line ++ [endLine]) = line.length := by
      rw [strcspn, List.findIdx_append, hnone]
      simp [List.findIdx_cons]
    rw [eliminarSalto, hindex, List.set_append_right _ _ (Nat.le_refl _), Nat.sub_self,
      List.set_cons_zero, strdup,
      List.takeWhile_append_of_pos fun c hc ↦ decide_eq_true (h c hc).2]
    simp

theorem nread_ne (hlen : line.length < maxArgStrlen) {newline : Str}
    (hnewline : newline = [] ∨ newline = [endLine]) :
    nread (line ++ newline) ≠ -1 := by
  have hshort : (line ++ newline).length ≤ maxArgStrlen := by
    rcases hnewline with rfl | rfl <;> simp <;> omega
  intro h
  have hval : (line ++ newline).length % 4294967296 = 4294967295 := congrArg BitVec.toNat h
  have hmax : maxArgStrlen = 131072 := rfl
  omega

end Lines

/-! ## The loop -/

section Loop

variable {s : State} {newline : Str}

theorem turn_partial (h : IsLine line) (hnewline : newline = [] ∨ newline = [endLine])
    (hargs : s.args = vector nargs argv1 arguments) (hi : s.i = arguments.length + 1)
    (hlen : arguments.length + 1 < nargs) :
    turn sys nargs argv1 (line ++ newline) s =
      .ok { s with args := vector nargs argv1 (arguments ++ [line]), i := s.i + 1 } := by
  have hmod : s.i % nargs ≠ 0 := by
    rw [hi, Nat.mod_eq_of_lt hlen]
    exact Nat.succ_ne_zero _
  rw [turn]
  simp only [if_neg hmod]
  rw [strdup_eliminarSalto h hnewline, hargs, hi, vector_set (by omega)]

theorem turn_full (hfork : ∀ j, sys.fork j = true) (h : IsLine line)
    (hnewline : newline = [] ∨ newline = [endLine])
    (hargs : s.args = vector nargs argv1 arguments) (hi : s.i = arguments.length + 1)
    (hlen : arguments.length + 1 = nargs)
    (hexec : sys.execvp (vector nargs argv1 (arguments ++ [line])) = true) :
    turn sys nargs argv1 (line ++ newline) s =
      .ok {
        args := vector nargs argv1 []
        i := 1
        forks := s.forks + 1
        executed := s.executed ++ [vector nargs argv1 (arguments ++ [line])] } := by
  have hmod : s.i % nargs = 0 := by rw [hi, hlen, Nat.mod_self]
  have hfull : (arguments ++ [line]).length = nargs := by
    rw [List.length_append, List.length_singleton, hlen]
  rw [turn]
  simp only [if_pos hmod, if_pos (hfork s.forks)]
  rw [strdup_eliminarSalto h hnewline, hargs, hi, vector_set (by omega), reiniciarArgs_vector hfull,
    execute, if_pos hexec]

/-- The end of `main`, after the loop. -/
def finish (sys : System) : Except (List Args) State → List Args
  | .error executed => executed
  | .ok s => if 1 < s.i then execute sys s.args s.executed else s.executed

theorem main_eq (program : Str) (input : Str) :
    main sys nargs [program, argv1] input =
      finish sys (loop sys nargs argv1 input ⟨vector nargs argv1 [], 1, 0, []⟩) := by
  rw [main]
  simp only [vector_start]
  rfl

/-- At the head of the loop: the arguments gathered for the next vector, and the lines to come, all of
whose vectors can be executed. -/
structure Gathered (sys : System) (nargs : ℕ) (argv1 : Str) (s : State) (arguments lines : List Str) :
    Prop where
  args : s.args = vector nargs argv1 arguments
  i : s.i = arguments.length + 1
  room : arguments.length < nargs
  exec : ∀ chunk ∈ chunks nargs (arguments ++ lines),
    sys.execvp (vector nargs argv1 chunk) = true

theorem Gathered.stop (h : Gathered sys nargs argv1 s arguments []) :
    finish sys (.ok s) =
      s.executed ++ (chunks nargs (arguments ++ [])).map (vector nargs argv1) := by
  have hexec := h.exec
  rw [List.append_nil] at hexec ⊢
  rw [finish, h.i, h.args]
  by_cases hne : arguments = []
  · rw [hne, chunks_nil (Nat.zero_lt_of_lt h.room), if_neg (by decide), List.map_nil,
      List.append_nil]
  · have hpos : 0 < arguments.length := List.length_pos_iff.mpr hne
    rw [chunks_short hne (Nat.le_of_lt h.room)] at hexec ⊢
    rw [if_pos (Nat.succ_lt_succ hpos), execute, if_pos (hexec arguments List.mem_cons_self)]
    rfl

/-- A turn with the next line: it joins the arguments, or it completes a chunk. -/
theorem Gathered.turn {lines : List Str} (h : Gathered sys nargs argv1 s arguments (line :: lines))
    (hfork : ∀ j, sys.fork j = true) (hline : IsLine line) (newline : Str)
    (hnewline : newline = [] ∨ newline = [endLine]) :
    ∃ s' arguments', turn sys nargs argv1 (line ++ newline) s = .ok s' ∧
      Gathered sys nargs argv1 s' arguments' lines ∧
      s'.executed ++ (chunks nargs (arguments' ++ lines)).map (vector nargs argv1) =
        s.executed ++ (chunks nargs (arguments ++ line :: lines)).map (vector nargs argv1) := by
  have hsplit : arguments ++ line :: lines = (arguments ++ [line]) ++ lines := by
    rw [List.append_assoc, List.singleton_append]
  have hexec := h.exec
  have hlength : (arguments ++ [line]).length = arguments.length + 1 := by
    rw [List.length_append, List.length_singleton]
  rw [hsplit] at hexec ⊢
  by_cases hfull : arguments.length + 1 = nargs
  · have hchunks := chunks_append (l := lines) (Nat.zero_lt_of_lt h.room) (hlength.trans hfull)
    rw [hchunks] at hexec ⊢
    have hnow := hexec _ List.mem_cons_self
    refine ⟨_, [], turn_full hfork hline hnewline h.args h.i hfull hnow, ⟨rfl, rfl,
      Nat.zero_lt_of_lt h.room, fun chunk hchunk ↦ hexec chunk (List.mem_cons_of_mem _ hchunk)⟩, ?_⟩
    rw [List.map_cons, List.nil_append, List.append_assoc, List.singleton_append]
  · have hroom : arguments.length + 1 < nargs := Nat.lt_of_le_of_ne h.room hfull
    refine ⟨_, arguments ++ [line], turn_partial hline hnewline h.args h.i hroom,
      ⟨rfl, ?_, ?_, hexec⟩, rfl⟩
    · rw [hlength, h.i]
    · rwa [hlength]

/-- From the head of the loop to the end of the program. -/
theorem finish_loop (hfork : ∀ j, sys.fork j = true) {lines : List Str} {input : Str}
    (hinput : InputOf lines input) (hshort : ∀ line ∈ lines, line.length < maxArgStrlen) :
    ∀ s arguments, Gathered sys nargs argv1 s arguments lines →
      finish sys (loop sys nargs argv1 input s) =
        s.executed ++ (chunks nargs (arguments ++ lines)).map (vector nargs argv1) := by
  induction hinput with
  | nil =>
    intro s arguments h
    rw [loop]
    exact h.stop
  | @unterminated line hline hne =>
    intro s arguments h
    obtain ⟨s', arguments', hnext, h', hsame⟩ := h.turn hfork hline [] (.inl rfl)
    have hread : nread (line ++ []) ≠ -1 := nread_ne (hshort line List.mem_cons_self) (.inl rfl)
    rw [List.append_nil] at hread hnext
    rw [loop, getline_unterminated hline hne]
    simp only [if_neg hread, hnext]
    change finish sys (loop sys nargs argv1 [] s') = _
    rw [loop, ← hsame]
    exact h'.stop
  | @cons line input lines hline hrest ih =>
    intro s arguments h
    obtain ⟨s', arguments', hnext, h', hsame⟩ := h.turn hfork hline [endLine] (.inr rfl)
    have hread : nread (line ++ [endLine]) ≠ -1 :=
      nread_ne (hshort line List.mem_cons_self) (.inr rfl)
    rw [loop, getline_append hline]
    simp only [if_neg hread, hnext]
    change finish sys (loop sys nargs argv1 input s') = _
    rw [← hsame]
    exact ih (fun l hl ↦ hshort l (List.mem_cons_of_mem line hl)) s' arguments' h'

end Loop

/-! ## Packaging -/

/-- The arrays executed are the command followed by consecutive chunks of `NARGS` lines, each with NULL
right after its own arguments, and every line is in one chunk. An argument that `execvp` takes is
shorter than `MAX_ARG_STRLEN`. -/
theorem xargs_packages (sys : System) (nargs : ℕ) (hnargs : 1 ≤ nargs) (program command : Str)
    (lines : List Str) (input : Str) (hinput : InputOf lines input)
    (hfork : ∀ j, sys.fork j = true)
    (hlimit : ∀ args, sys.execvp args = true → ∀ s, some s ∈ args → s.length < maxArgStrlen)
    (hexec : ∀ chunk ∈ chunks nargs lines, sys.execvp (vector nargs command chunk) = true) :
    main sys nargs [program, command] input = (chunks nargs lines).map (vector nargs command) ∧
      (chunks nargs lines).flatten = lines := by
  have hflatten := flatten_chunks hnargs lines
  have hshort : ∀ line ∈ lines, line.length < maxArgStrlen := by
    intro line hline
    rw [← hflatten] at hline
    obtain ⟨chunk, hchunk, hmem⟩ := List.mem_flatten.mp hline
    apply hlimit _ (hexec chunk hchunk) line
    exact List.mem_cons_of_mem _ (List.mem_append_left _ (List.mem_map_of_mem hmem))
  refine ⟨?_, hflatten⟩
  rw [main_eq]
  exact finish_loop hfork hinput hshort _ [] ⟨rfl, rfl, hnargs, hexec⟩

/-- A system where `fork` always succeeds and `execvp` takes all arguments that are short enough. -/
def System.healthy : System where
  fork _ := true
  execvp args := args.all fun a ↦ a.all fun s ↦ s.length < maxArgStrlen

/-- Three lines in pairs, the last one without its newline. -/
theorem xargs_packages_three :
    main .healthy 2 [[120], [101]] [97, endLine, 98, endLine, 99] =
      [[some [101], some [97], some [98], none], [some [101], some [99], none, none]] := by
  have ha : IsLine [97] := by simp [IsLine, endLine, endString]
  have hb : IsLine [98] := by simp [IsLine, endLine, endString]
  have hc : IsLine [99] := by simp [IsLine, endLine, endString]
  have hlimit : ∀ args, System.healthy.execvp args = true →
      ∀ s, some s ∈ args → s.length < maxArgStrlen := by
    intro args hargs s hs
    have hshort : decide (s.length < maxArgStrlen) = true := List.all_eq_true.mp hargs (some s) hs
    exact of_decide_eq_true hshort
  have hpackages := xargs_packages .healthy 2 (by decide) [120] [101] [[97], [98], [99]]
    [97, endLine, 98, endLine, 99]
    (.cons ha (.cons hb (.unterminated hc (List.cons_ne_nil _ _)))) (fun _ ↦ rfl) hlimit (by decide)
  rw [hpackages.1]
  decide

end SistemasOperativos.Fork.Xargs
