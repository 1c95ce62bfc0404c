import SistemasOperativos.Library.Interaction
import SistemasOperativos.Shell.Parsing

/-!
# Executing a command

The functions of `exec.c` for one command, as the calls that its process makes. They end where the
image of the process is replaced, where it exits, or where memory is used wrongly. A pipeline goes
on in processes of its own, which are not followed here.
-/

namespace SistemasOperativos.Shell

open Library

/-! ## Calls -/

/-- The flags of `open`. -/
inductive OpenFlag where
  | rdonly
  | wronly
  | creat
  | trunc
  | cloexec
deriving DecidableEq

inductive Action where
  /-- `setpgid(0, 0)`. -/
  | setpgid
  | openFile (file : Str) (flags : List OpenFlag)
  | dup2 (oldfd newfd : ℤ)
  | close (fd : ℤ)
  | setenv (key value : Str)
  /-- The first argument is NULL for an empty `argv`. -/
  | execvp (file : Option Block) (argv : List Block)
deriving DecidableEq

/-- How the functions end without returning. -/
inductive Ending where
  | fault
  | exited (code : ℤ)
  /-- The call to `execvp` succeeds. -/
  | replaced
  | pipeline (leftcmd rightcmd : Cmd)
deriving DecidableEq

/-- A function of the process. Every call answers with a number, which is `-1` on an error. -/
abbrev Process := Interaction Action ℤ Ending

def perform (a : Action) : Process ℤ := Interaction.perform a

/-- A computation in memory, which ends the process where it goes wrong. -/
def inMemory {α : Type} : Except Fault α → Process α
  | .ok a => .done a
  | .error _ => .stop .fault

def error : ℤ := -1

/-! ## The environment -/

/-- The loop of `get_environ_key`, with the room that is left in the array `key`. -/
def copyKey : ℕ → Block → Except Fault Str
  | 0, _ => .error .outOfBounds
  | _ + 1, [] => .error .outOfBounds
  | room + 1, c :: cs => if c ≠ equals then (c :: ·) <$> copyKey room cs else .ok [endString]

def getEnvironKey (arg : Block) : Except Fault Block := copyKey buflen arg

/-- The index of the `'='` is `none` where the source has `-1`. -/
def getEnvironValue (arg : Block) (idx : Option ℕ) : Except Fault Str := do
  let s ← cString arg
  strcpy buflen (s.drop (idx.elim 0 (· + 1)))

def setEnvironVars : List Block → Process Unit
  | [] => pure ()
  | arg :: eargv => do
    let idx := blockContains (← inMemory (cString arg)) equals
    let key ← inMemory (getEnvironKey arg)
    let value ← inMemory (getEnvironValue arg idx)
    let _ ← perform (.setenv (← inMemory (cString key)) value)
    setEnvironVars eargv

/-! ## Commands -/

def execCommand (e : ExecCmd) : Process Unit := do
  setEnvironVars e.eargv
  if (← perform (.execvp e.argv.head? e.argv)) ≠ error then .stop .replaced
  .stop (.exited error)

def dupFile (file : Str) (oldfd : ℤ) (flags : List OpenFlag) : Process Unit := do
  if 0 < file.length then
    let newfd ← perform (.openFile file flags)
    if (← perform (.dup2 newfd oldfd)) = error then .stop (.exited error)
    let _ ← perform (.close newfd)

/-- `exec_cmd` on a command of type `EXEC`. -/
def execSimple (e : ExecCmd) : Process Unit := do
  let _ ← perform .setpgid
  execCommand e

def execRedir (r : ExecCmd) : Process Unit := do
  dupFile r.inFile 0 [.cloexec, .rdonly]
  dupFile r.outFile 1 [.creat, .wronly, .trunc, .cloexec]
  if 0 < r.errFile.length then
    if r.errFile[0]? = some ampersand ∧ r.errFile[1]? = some 49 then
      if (← perform (.dup2 1 2)) = error then .stop (.exited error)
    else dupFile r.errFile 2 [.creat, .wronly, .cloexec]
  -- the type is now `EXEC`, and `exec_cmd` is called again
  execSimple r

def execCmd : Cmd → Process Unit
  | .null => .stop .fault
  | .exec e =>
    match e.type with
    | .exec => execSimple e
    | .redir => do
      let _ ← perform .setpgid
      execRedir e
  | .back _ c => execCommand c
  | .pipe leftcmd rightcmd => do
    let _ ← perform .setpgid
    .stop (.pipeline leftcmd rightcmd)

/-! ## Runs -/

/-- Calls that the answers to the others may depend on. -/
def Action.visible (a : Action) : Bool := a ≠ .setpgid

/-- All calls that a process makes, after some others, and how it ends. -/
def execute {α : Type} (world : List Action → ℤ) (x : Process α) (past : List Action) :
    Except Ending α × List Action :=
  x.run (fun calls ↦ world (calls.filter Action.visible)) past

section

variable {α : Type} {world : List Action → ℤ} {past : List Action}

theorem execute_perform (a : Action) {f : ℤ → Process α} :
    execute world (perform a >>= f) past =
      execute world (f (world ((past ++ [a]).filter Action.visible))) (past ++ [a]) := rfl

theorem inMemory_ok {β : Type} {x : Except Fault β} {b : β} (h : x = .ok b) :
    inMemory x = .done b := by
  rw [h]
  rfl

theorem done_bind {β : Type} {b : β} {f : β → Process α} :
    ((Interaction.done b : Process β) >>= f) = f b := rfl

end

/-! ## Foreground and background -/

/-- The calls that the foreground and the background should share. -/
def Action.observed : Action → Bool
  | .openFile _ _ => true
  | .dup2 _ _ => true
  | .setenv _ _ => true
  | .execvp _ _ => true
  | .setpgid => false
  | .close _ => false

/-- The openings, duplications, and calls to `setenv` and `execvp` of a command. -/
def actionsOf (world : List Action → ℤ) (c : Cmd) : List Action :=
  (execute world (execCmd c) []).2.filter Action.observed

/-- A call that redirects a stream. -/
def Action.redirects : Action → Bool
  | .openFile _ _ => true
  | .dup2 _ _ => true
  | _ => false

section

variable {α : Type} {world : List Action → ℤ} {past : List Action} {e : ExecCmd}

theorem inMemory_only {P : Action → Prop} (x : Except Fault α) : (inMemory x).Only P := by
  cases x with
  | ok a => exact trivial
  | error e => exact trivial

theorem setEnvironVars_only (eargv : List Block) :
    (setEnvironVars eargv).Only fun a ↦ a.redirects = false := by
  induction eargv with
  | nil => exact trivial
  | cons arg eargv ih =>
    refine .bind (inMemory_only _) fun s ↦ .bind (inMemory_only _) fun key ↦ ?_
    refine .bind (inMemory_only _) fun value ↦ .bind (inMemory_only _) fun key ↦ ?_
    exact .bind (.perform rfl) fun _ ↦ ih

/-- Executing a command redirects nothing. -/
theorem execCommand_only (e : ExecCmd) : (execCommand e).Only fun a ↦ a.redirects = false := by
  refine .bind (setEnvironVars_only e.eargv) fun _ ↦ .bind (.perform rfl) fun r ↦ ?_
  split <;> exact trivial

theorem dupFile_nil (oldfd : ℤ) (flags : List OpenFlag) : dupFile [] oldfd flags = .done () := rfl

theorem dupFile_call {file : Str} (h : file ≠ []) (oldfd : ℤ) (flags : List OpenFlag) :
    ∃ next, dupFile file oldfd flags = .call (.openFile file flags) next :=
  ⟨_, if_pos (List.length_pos_iff.mpr h)⟩

/-- The first call of a redirection. -/
theorem call_mem {a : Action} {next : ℤ → Process α} : a ∈ (execute world (.call a next) past).2 :=
  (Interaction.prefix_run _ (next _) (past ++ [a])).subset
    (List.mem_append_right past List.mem_cons_self)

/-- Some name of a file makes a call that redirects. -/
theorem execRedir_calls (h : ¬(e.inFile = [] ∧ e.outFile = [] ∧ e.errFile = [])) :
    ∃ a ∈ (execute world (execRedir e) past).2, a.redirects = true := by
  unfold execRedir
  by_cases hin : e.inFile = []
  · rw [hin, dupFile_nil]
    by_cases hout : e.outFile = []
    · rw [hout, dupFile_nil]
      have herr : 0 < e.errFile.length :=
        List.length_pos_iff.mpr fun herr ↦ h ⟨hin, hout, herr⟩
      simp only [done_bind, if_pos herr]
      split
      · exact ⟨_, call_mem, rfl⟩
      · obtain ⟨next, hcall⟩ :=
          dupFile_call (List.length_pos_iff.mp herr) 2 [.creat, .wronly, .cloexec]
        rw [hcall]
        exact ⟨_, call_mem, rfl⟩
    · obtain ⟨next, hcall⟩ := dupFile_call hout 1 [.creat, .wronly, .trunc, .cloexec]
      rw [hcall]
      exact ⟨_, call_mem, rfl⟩
  · obtain ⟨next, hcall⟩ := dupFile_call hin 0 [.cloexec, .rdonly]
    rw [hcall]
    exact ⟨_, call_mem, rfl⟩

theorem execRedir_nil (h : e.inFile = [] ∧ e.outFile = [] ∧ e.errFile = []) :
    execRedir e = execSimple e := by
  unfold execRedir
  rw [h.1, h.2.1, h.2.2]
  rfl

/-- Changes of the process group before a command do not show. -/
theorem observed_of_groups (x : Process α) (h : past.filter Action.visible = []) :
    (execute world x past).2.filter Action.observed =
      (execute world x []).2.filter Action.observed := by
  have hobserved : ∀ calls : List Action, calls.filter Action.observed =
      (calls.filter Action.visible).filter Action.observed := by
    intro calls
    rw [List.filter_filter]
    refine List.filter_congr fun a _ ↦ ?_
    cases a <;> rfl
  rw [hobserved, hobserved (execute world x []).2]
  exact congrArg _ (Interaction.run_visible x h).2

/-- A command of either type makes the same calls in the background exactly when it redirects
nothing. -/
theorem background_agrees_iff (world : List Action → ℤ) (e : ExecCmd) :
    actionsOf world (backCmdCreate e) = actionsOf world (.exec e) ↔
      e.type = .exec ∨ e.inFile = [] ∧ e.outFile = [] ∧ e.errFile = [] := by
  have hback : actionsOf world (backCmdCreate e) =
      (execute world (execCommand e) []).2.filter Action.observed := rfl
  cases htype : e.type with
  | exec =>
    have hfore : execute world (execCmd (.exec e)) [] =
        execute world (execCommand e) [.setpgid] := by
      rw [execCmd, htype]
      rfl
    have hgroups := @observed_of_groups _ world [.setpgid] (execCommand e) rfl
    rw [hback, actionsOf, hfore, hgroups]
    exact iff_of_true rfl (.inl rfl)
  | redir =>
    have hfore : execute world (execCmd (.exec e)) [] =
        execute world (execRedir e) [.setpgid] := by
      rw [execCmd, htype]
      rfl
    by_cases hnames : e.inFile = [] ∧ e.outFile = [] ∧ e.errFile = []
    · have hagain : execute world (execRedir e) [.setpgid] =
          execute world (execCommand e) [.setpgid, .setpgid] := by
        rw [execRedir_nil hnames]
        rfl
      have hgroups := @observed_of_groups _ world [.setpgid, .setpgid] (execCommand e) rfl
      rw [hback, actionsOf, hfore, hagain, hgroups]
      exact iff_of_true rfl (.inr hnames)
    · refine iff_of_false (fun hsame ↦ ?_) (not_or.mpr ⟨by decide, hnames⟩)
      obtain ⟨a, hmem, hredirects⟩ := @execRedir_calls world [.setpgid] e hnames
      have hobserved : a.observed = true := by cases a <;> first | rfl | cases hredirects
      have hfound : a ∈ actionsOf world (.exec e) := by
        rw [actionsOf, hfore]
        exact List.mem_filter.mpr ⟨hmem, hobserved⟩
      rw [← hsame, hback] at hfound
      have hpast : ∀ c ∈ ([] : List Action), c.redirects = false := List.forall_mem_nil _
      have honly := (execCommand_only e).run _ hpast a (List.mem_filter.mp hfound).1
      rw [hredirects] at honly
      exact Bool.noConfusion honly

end

/-- The command `ls >f &` writes to the terminal. -/
theorem background_ignores_file :
    ¬∀ (world : List Action → ℤ) (e : ExecCmd),
      actionsOf world (backCmdCreate e) = actionsOf world (.exec e) := by
  intro h
  have hls := h (fun _ ↦ 3) ⟨.redir, [], [[108, 115, endString]], [], [102], [], []⟩
  revert hls
  decide +kernel

end SistemasOperativos.Shell
