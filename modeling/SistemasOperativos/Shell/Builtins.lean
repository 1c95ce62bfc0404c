import Mathlib.Data.List.Infix
import Mathlib.Data.List.TakeWhile
import SistemasOperativos.Shell.CommandLine

/-!
# Built-in commands

The functions of `builtin.c`, and `run_cmd` up to the tree that it forks for. The built-in commands
read the buffer that is parsed afterwards, and `cd` writes into it. The file system is a parameter:
a directory is whatever the system takes it to be.
-/

namespace SistemasOperativos.Shell

def prmtlen : ℕ := 1024

/-- `"cd"`, the text that `cd` looks for. -/
def cdWord : Str := [99, 100]

def exitWord : Str := [101, 120, 105, 116]

def pwdWord : Str := [112, 119, 100]

/-- `"HOME"`. -/
def homeWord : Str := [72, 79, 77, 69]

/-- What `"%s"` writes for NULL. -/
def nullWord : Str := [40, 110, 117, 108, 108, 41]

/-- The calls to the system. `getcwd` gets a size that is never set, so that it may fail. -/
structure Os (Dir : Type) where
  chdir : Dir → Str → Option Dir
  getcwd : Dir → Option Str

structure ShellState (Dir : Type) where
  cwd : Dir
  prompt : Str
  buffer : Block

/-- What `run_cmd` does with a line. -/
inductive Outcome where
  /-- It returns 0 without a fork, after it wrote the output. -/
  | returned (output : Str)
  /-- It returns `EXIT_SHELL`. -/
  | exitShell
  /-- It forks, and the child runs the tree. -/
  | executed (parsed : Cmd)

/-- `snprintf(prompt, sizeof prompt, "(%s)", actual_path)`. -/
def promptOf (actualPath : Option Str) : Str :=
  ([40] ++ actualPath.getD nullWord ++ [41]).take (prmtlen - 1)

section

variable {Dir : Type} (os : Os Dir) (globals : Globals) (st : ShellState Dir)

def history (_cmd : Str) : Bool := false

/-- `strstr` finds the two letters wherever they stand. The result is the one of the source. -/
def cd : Except Fault (ShellState Dir × Bool) := do
  let cmd ← cString st.buffer
  if cdWord <:+: cmd then
    let (buffer, result) ←
      if (blockContains cmd space).any (0 < ·) then do
        let (buffer, dir) ← splitLine st.buffer 0 space
        pure (buffer, os.chdir st.cwd (← cString (buffer.drop dir)))
      else
        -- `chdir(NULL)` fails
        pure (st.buffer, (globals.getenv homeWord).bind (os.chdir st.cwd))
    match result with
    | none => return ({ st with buffer }, false)
    | some cwd => return ({ cwd, prompt := promptOf (os.getcwd cwd), buffer }, true)
  return (st, false)

def exitShell (cmd : Str) : Bool := cmd = exitWord

/-- The line that is printed, where the source returns 1. -/
def pwd (cmd : Str) : Option Str :=
  if cmd = pwdWord then (os.getcwd st.cwd).map (· ++ [endLine]) else none

/-- The calls of `run_cmd` to the built-in commands. No outcome means that none of them took the
line. -/
def callBuiltins : Except Fault (ShellState Dir × Option Outcome) := do
  if history (← cString st.buffer) then return (st, some (.returned []))
  let (st, changed) ← cd os globals st
  if changed then return (st, some (.returned []))
  let cmd ← cString st.buffer
  if exitShell cmd then return (st, some .exitShell)
  return (st, (pwd os st cmd).map .returned)

def runCmd : Except Fault (ShellState Dir × Outcome) := do
  if (← st.buffer.read 0) = endString then return (st, .returned [])
  let (st, outcome) ← callBuiltins os globals st
  match outcome with
  | some outcome => return (st, outcome)
  | none =>
    let (buffer, parsed) ← parseLine globals st.buffer 0
    return ({ st with buffer }, .executed parsed)

end

/-! ## Lines that are no built-in command -/

/-- The first word of a line, empty where there is none. -/
def firstWord (line : Str) : Str := (trimStart line).takeWhile (· ≠ space)

section

variable {Dir : Type} {os : Os Dir} {globals : Globals} {st : ShellState Dir} {line : Str}

/-- The built-in commands let the line pass with the directory and the buffer as they were, and what
is executed is the tree of the line as typed. For an empty line there is none. -/
structure Undisturbed (os : Os Dir) (globals : Globals) (st : ShellState Dir) (line : Str) :
    Prop where
  passed : callBuiltins os globals st = .ok (st, none)
  executed : runCmd os globals st =
    if line = [] then .ok (st, .returned [])
    else (fun r ↦ ({ st with buffer := r.1 }, .executed r.2)) <$> parseLine globals st.buffer 0

theorem cString_eq_ok {buffer : Block} (h : cString buffer = .ok line) :
    (∀ c ∈ line, c ≠ endString) ∧ ∃ rest, buffer = line ++ endString :: rest := by
  induction buffer generalizing line with
  | nil => cases h
  | cons c buffer ih =>
    rw [cString] at h
    by_cases hc : c = endString
    · rw [if_pos hc] at h
      cases h
      exact ⟨fun c hc ↦ absurd hc List.not_mem_nil, buffer, by rw [hc, List.nil_append]⟩
    · rw [if_neg hc] at h
      cases hs : cString buffer with
      | error e =>
        rw [hs] at h
        cases h
      | ok s =>
        rw [hs] at h
        cases h
        obtain ⟨hclean, rest, rfl⟩ := ih hs
        exact ⟨List.forall_mem_cons.mpr ⟨hc, hclean⟩, rest, rfl⟩

/-- A line with a space after its first character is cut at the first one. -/
theorem splitLine_space {i : ℕ} (hline : cString st.buffer = .ok line)
    (hspace : blockContains line space = some i) :
    ∃ dir path, splitLine st.buffer 0 space = .ok (st.buffer.set i endString, dir) ∧
      cString ((st.buffer.set i endString).drop dir) = .ok path := by
  obtain ⟨hclean, rest, hbuffer⟩ := cString_eq_ok hline
  obtain ⟨hi, hat, hbefore⟩ := List.findIdx?_eq_some_iff_getElem.mp hspace
  have hcut : line = line.take i ++ space :: line.drop (i + 1) := by
    have hget : (line)[i] = space := by simpa using hat
    rw [← hget, List.getElem_cons_drop, List.take_append_drop]
  have hword : ∀ c ∈ line.take i, c ≠ space ∧ c ≠ endString := by
    intro c hc
    obtain ⟨j, hj, rfl⟩ := List.mem_iff_getElem.mp hc
    rw [List.length_take] at hj
    rw [List.getElem_take]
    have hne := hbefore j (by omega)
    exact ⟨by simpa using hne, hclean _ (List.getElem_mem _)⟩
  have htail : ∀ c ∈ line.drop (i + 1), c ≠ endString :=
    fun c hc ↦ hclean c (List.mem_of_mem_drop hc)
  -- the path is what follows the spaces
  obtain ⟨spaces, hspaces, hrest⟩ : ∃ spaces, (∀ x ∈ spaces, x = space) ∧
      line.drop (i + 1) = spaces ++ trimStart (line.drop (i + 1)) :=
    ⟨_, fun x hx ↦ by simpa using List.mem_takeWhile_imp hx,
      (List.takeWhile_append_dropWhile).symm⟩
  obtain ⟨c, after, hc, hafter⟩ : ∃ c after, c ≠ space ∧
      trimStart (line.drop (i + 1)) ++ endString :: rest = c :: after := by
    cases h : trimStart (line.drop (i + 1)) with
    | nil => exact ⟨endString, rest, by decide, rfl⟩
    | cons c t =>
      refine ⟨c, t ++ endString :: rest, ?_, rfl⟩
      have hhead := List.head?_dropWhile_not (fun x ↦ decide (x = space)) (line.drop (i + 1))
      rw [← trimStart, h] at hhead
      simpa using hhead
  have hsplit := @splitLine_append (line.take i) [] after spaces space space c hword (.inl rfl)
    hspaces hc
  have hmemory : st.buffer = [] ++ line.take i ++ space :: (spaces ++ c :: after) := by
    rw [hbuffer, ← hafter, ← List.append_assoc spaces, ← hrest, List.nil_append]
    nth_rewrite 1 [hcut]
    rw [List.append_assoc, List.cons_append]
  have hset : st.buffer.set i endString =
      [] ++ line.take i ++ endString :: (spaces ++ c :: after) := by
    have hlength : i = ([] ++ line.take i).length := by
      rw [List.nil_append, List.length_take]
      omega
    rw [hmemory]
    nth_rewrite 2 [hlength]
    rw [List.set_append_right _ _ (Nat.le_refl _), Nat.sub_self, List.set_cons_zero]
  refine ⟨([] ++ line.take i ++ endString :: spaces).length, trimStart (line.drop (i + 1)), ?_, ?_⟩
  · rw [hset, hmemory]
    exact hsplit
  · have hassoc : [] ++ line.take i ++ endString :: (spaces ++ c :: after) =
        ([] ++ line.take i ++ endString :: spaces) ++
          (trimStart (line.drop (i + 1)) ++ endString :: rest) := by
      rw [hafter]
      simp
    rw [hset, hassoc, List.drop_left]
    apply cString_append
    intro x hx
    exact htail x ((List.dropWhile_suffix _).subset hx)

/-- The cut shows in the buffer. -/
theorem set_ne_of_space {i : ℕ} (hline : cString st.buffer = .ok line)
    (hspace : blockContains line space = some i) : st.buffer.set i endString ≠ st.buffer := by
  obtain ⟨hclean, rest, hbuffer⟩ := cString_eq_ok hline
  obtain ⟨hi, -, -⟩ := List.findIdx?_eq_some_iff_getElem.mp hspace
  intro h
  have hget : st.buffer[i]? = some (line)[i] := by
    rw [hbuffer, List.getElem?_append_left hi, List.getElem?_eq_getElem hi]
  have hlt : i < st.buffer.length := (List.getElem?_eq_some_iff.mp hget).1
  rw [← h, List.getElem?_set_self hlt, Option.some.injEq] at hget
  exact hclean _ (List.getElem_mem hi) hget.symm

theorem not_plain_of_space {i : ℕ} (hspace : blockContains line space = some (i + 1)) :
    ¬ (space ∉ line ∨ line.head? = some space) := by
  obtain ⟨hi, hat, hbefore⟩ := List.findIdx?_eq_some_iff_getElem.mp hspace
  rintro (hnone | hhead)
  · have hget : (line)[i + 1] = space := by simpa using hat
    exact hnone (hget ▸ List.getElem_mem hi)
  · rw [List.head?_eq_getElem?, List.getElem?_eq_getElem (by omega), Option.some.injEq] at hhead
    have hfirst := hbefore 0 (Nat.succ_pos i)
    rw [hhead] at hfirst
    exact absurd rfl hfirst

variable (os globals) in
/-- What `cd` does with a line that has its letters. -/
theorem cd_mentioned (hline : cString st.buffer = .ok line) (hcd : cdWord <:+: line) :
    (∃ i path, blockContains line space = some (i + 1) ∧
      cd os globals st =
        match os.chdir st.cwd path with
        | none => .ok ({ st with buffer := st.buffer.set (i + 1) endString }, false)
        | some cwd => .ok (⟨cwd, promptOf (os.getcwd cwd), st.buffer.set (i + 1) endString⟩, true)) ∨
    ((space ∉ line ∨ line.head? = some space) ∧
      cd os globals st =
        match (globals.getenv homeWord).bind (os.chdir st.cwd) with
        | none => .ok (st, false)
        | some cwd => .ok (⟨cwd, promptOf (os.getcwd cwd), st.buffer⟩, true)) := by
  rw [cd, hline]
  simp only [bind, Except.bind, if_pos hcd]
  cases hspace : blockContains line space with
  | none =>
    right
    refine ⟨.inl ?_, ?_⟩
    · intro hmem
      rw [blockContains, List.findIdx?_eq_none_iff] at hspace
      simpa using hspace space hmem
    · cases (globals.getenv homeWord).bind (os.chdir st.cwd) <;> rfl
  | some i =>
    cases i with
    | zero =>
      right
      refine ⟨.inr ?_, ?_⟩
      · obtain ⟨hi, hat, -⟩ := List.findIdx?_eq_some_iff_getElem.mp hspace
        rw [List.head?_eq_getElem?, List.getElem?_eq_getElem hi]
        simpa using hat
      · cases (globals.getenv homeWord).bind (os.chdir st.cwd) <;> rfl
    | succ i =>
      left
      obtain ⟨dir, path, hsplit, hpath⟩ := splitLine_space hline hspace
      refine ⟨i, path, rfl, ?_⟩
      have hpos : (some (i + 1)).any (0 < ·) = true := by simp
      rw [if_pos hpos, hsplit]
      simp only [hpath, pure, Except.pure]

theorem cd_not_mentioned (hline : cString st.buffer = .ok line) (hcd : ¬ cdWord <:+: line) :
    cd os globals st = .ok (st, false) := by
  rw [cd, hline]
  simp only [bind, Except.bind, if_neg hcd]
  rfl

/-- Where `cd` leaves everything as it was, the line passes. -/
theorem Undisturbed.of_cd (hline : cString st.buffer = .ok line)
    (hcd : cd os globals st = .ok (st, false)) (hexit : line ≠ exitWord) (hpwd : line ≠ pwdWord) :
    Undisturbed os globals st line := by
  have hpassed : callBuiltins os globals st = .ok (st, none) := by
    rw [callBuiltins, hline]
    simp only [bind, Except.bind, history, hcd, hline, exitShell, hexit, pwd, hpwd]
    rfl
  refine ⟨hpassed, ?_⟩
  obtain ⟨hclean, rest, hbuffer⟩ := cString_eq_ok hline
  rw [runCmd, hpassed]
  cases line with
  | nil =>
    rw [hbuffer]
    rfl
  | cons c line =>
    have hread : st.buffer.read 0 = .ok c := by
      rw [hbuffer]
      rfl
    have hc : c ≠ endString := hclean c List.mem_cons_self
    rw [if_neg (List.cons_ne_nil _ _), hread]
    simp only [bind, Except.bind, if_neg hc]
    cases parseLine globals st.buffer 0 <;> rfl

/-- Where `cd` changes the directory or the buffer, the line does not pass as it was. -/
theorem Undisturbed.cd_eq (h : Undisturbed os globals st line) :
    cd os globals st = .ok (st, false) := by
  have hpassed := h.passed
  rw [callBuiltins] at hpassed
  cases hline : cString st.buffer with
  | error e =>
    rw [hline] at hpassed
    cases hpassed
  | ok cmd =>
    rw [hline] at hpassed
    simp only [bind, Except.bind, history] at hpassed
    cases hcd : cd os globals st with
    | error e =>
      rw [hcd] at hpassed
      cases hpassed
    | ok r =>
      obtain ⟨st', changed⟩ := r
      rw [hcd] at hpassed
      cases changed with
      | true => cases hpassed
      | false =>
        simp only at hpassed
        cases hcmd : cString st'.buffer with
        | error e =>
          rw [hcmd] at hpassed
          cases hpassed
        | ok cmd' =>
          rw [hcmd] at hpassed
          by_cases hexit : exitShell cmd' = true
          · simp [hexit, pure, Except.pure] at hpassed
          · simp only [hexit, pure, Except.pure] at hpassed
            have hst : st' = st := congrArg Prod.fst (Except.ok.inj hpassed)
            rw [hst]

/-- A line with the letters of `cd` and a space inside is cut, whether or not there is a directory
to go to. -/
theorem not_undisturbed_of_space {i : ℕ} (hline : cString st.buffer = .ok line)
    (hcd : cdWord <:+: line) (hspace : blockContains line space = some (i + 1)) :
    ¬ Undisturbed os globals st line := by
  intro h
  have hkept := h.cd_eq
  rcases cd_mentioned os globals hline hcd with
    ⟨j, path, hspace', hrun⟩ | ⟨hplain, -⟩
  · obtain rfl : i = j := by
      rw [hspace] at hspace'
      simpa using hspace'
    rw [hrun] at hkept
    apply set_ne_of_space hline hspace
    cases hdir : os.chdir st.cwd path with
    | none =>
      rw [hdir] at hkept
      exact congrArg (fun r ↦ r.1.buffer) (Except.ok.inj hkept)
    | some cwd =>
      rw [hdir] at hkept
      exact congrArg (fun r ↦ r.1.buffer) (Except.ok.inj hkept)
  · exact not_plain_of_space hspace hplain

/-- A line passes undisturbed where it does not have the letters of `cd` at all, and otherwise only
where `cd` goes for the home directory, which takes a line without a space or with one at its
start, and does not get there. -/
theorem undisturbed_iff (os : Os Dir) (globals : Globals) (st : ShellState Dir) {line : Str}
    (hline : cString st.buffer = .ok line) (hexit : line ≠ exitWord) (hpwd : line ≠ pwdWord) :
    Undisturbed os globals st line ↔
      ¬ cdWord <:+: line ∨
        (space ∉ line ∨ line.head? = some space) ∧
          (globals.getenv homeWord).bind (os.chdir st.cwd) = none := by
  by_cases hcd : cdWord <:+: line
  · rw [not_iff_not.mpr (iff_true_intro hcd), not_true, false_or]
    rcases cd_mentioned os globals hline hcd with
      ⟨i, path, hspace, hrun⟩ | ⟨hplain, hrun⟩
    · constructor
      · intro h
        exact absurd h (not_undisturbed_of_space hline hcd hspace)
      · rintro ⟨hplain, -⟩
        exact (not_plain_of_space hspace hplain).elim
    · constructor
      · intro h
        rw [h.cd_eq] at hrun
        refine ⟨hplain, ?_⟩
        cases hhome : (globals.getenv homeWord).bind (os.chdir st.cwd) with
        | none => rfl
        | some cwd =>
          rw [hhome] at hrun
          have hchanged : (false : Bool) = true := congrArg Prod.snd (Except.ok.inj hrun)
          exact absurd hchanged Bool.false_ne_true
      · rintro ⟨-, hhome⟩
        rw [hhome] at hrun
        exact .of_cd hline hrun hexit hpwd
  · exact ⟨fun _ ↦ .inl hcd, fun _ ↦ .of_cd hline (cd_not_mentioned hline hcd) hexit hpwd⟩

end

/-- `ls`, with an empty environment. -/
theorem undisturbed_iff_ls :
    Undisturbed ⟨fun _ _ ↦ none, fun _ ↦ none⟩ ⟨0, fun _ ↦ none, fun _ ↦ 0⟩
        ⟨(), [], lineBuffer [108, 115]⟩ [108, 115] ↔
      ¬ cdWord <:+: [108, 115] ∨
        (space ∉ [108, 115] ∨ [108, 115].head? = some space) ∧
          (none : Option Str).bind (fun _ ↦ (none : Option Unit)) = none :=
  undisturbed_iff ⟨fun _ _ ↦ none, fun _ ↦ none⟩ ⟨0, fun _ ↦ none, fun _ ↦ 0⟩
    ⟨(), [], lineBuffer [108, 115]⟩ (cString_append (by decide +kernel)) (by decide) (by decide)

/-- `echo abcd` is cut after its first word, and the shell runs `echo` alone. -/
theorem argument_is_taken_for_cd :
    ¬ ∀ (os : Os Unit) (globals : Globals) (st : ShellState Unit) (line : Str),
      cString st.buffer = .ok line → firstWord line ≠ cdWord → line ≠ exitWord → line ≠ pwdWord →
        Undisturbed os globals st line := by
  intro h
  have hecho := h ⟨fun _ _ ↦ none, fun _ ↦ none⟩ ⟨0, fun _ ↦ none, fun _ ↦ 0⟩
    ⟨(), [], lineBuffer [101, 99, 104, 111, space, 97, 98, 99, 100]⟩
    [101, 99, 104, 111, space, 97, 98, 99, 100] (cString_append (by decide +kernel)) (by decide)
    (by decide) (by decide)
  exact not_undisturbed_of_space (cString_append (by decide +kernel)) (by decide) (i := 3) (by decide) hecho

end SistemasOperativos.Shell
