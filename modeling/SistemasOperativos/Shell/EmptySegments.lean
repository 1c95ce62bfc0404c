import SistemasOperativos.Shell.Segments

/-!
# Pipes without a command

`pipe_cmd_create` makes no pipe when its right side is NULL, but it does when its left side is. Which
lines give such a tree, or NULL instead of a tree, and what the functions that get the tree do then.
-/

namespace SistemasOperativos.Shell

/-- What goes wrong when a command is used that is not there. -/
inductive NullPointer where
  | dereferenced
deriving DecidableEq

/-- What `free` gets. -/
inductive Allocation where
  | word (block : Block)
  | command (c : Cmd)
deriving DecidableEq

/-! ## The functions that get the tree -/

/-- `free_command` on a command of type `EXEC` or `REDIR`. -/
def freeExec (e : ExecCmd) : List Allocation :=
  e.argv.map .word ++ e.eargv.map .word ++ [.command (.exec e)]

/-- What `free_command` frees, in its order. -/
def freeCommand : Cmd → Except NullPointer (List Allocation)
  | .null => .error .dereferenced
  | .pipe leftcmd rightcmd => do
    let left ← freeCommand leftcmd
    let right ← freeCommand rightcmd
    return left ++ right ++ [.command (.pipe leftcmd rightcmd)]
  | .back scmd c => .ok (freeExec c ++ [.command (.back scmd c)])
  | .exec e => .ok (freeExec e)

/-- The commands that `exec_cmd` executes when no call fails, each in a process of its own. -/
def execTree : Cmd → Except NullPointer (List Cmd)
  | .null => .error .dereferenced
  | .pipe leftcmd rightcmd => do
    let right ← execTree rightcmd
    let left ← execTree leftcmd
    return right ++ left
  | c => .ok [c]

/-- The rest of `run_cmd`, from the parsed tree on: the child executes it and the parent frees it. -/
def runParsed (parsed : Cmd) : Except NullPointer (List Cmd × List Allocation) := do
  let executed ← execTree parsed
  let freed ← freeCommand parsed
  return (executed, freed)

/-! ## Whole trees -/

/-- There is a tree, and each of its pipes has both commands. -/
def Cmd.Whole : Cmd → Prop
  | .null => False
  | .pipe leftcmd rightcmd => leftcmd.Whole ∧ rightcmd.Whole
  | _ => True

/-- `run_cmd` and `free_command` never go through the NULL pointer. -/
def Cmd.Handled (c : Cmd) : Prop := ∃ result, runParsed c = .ok result

/-- Nothing but spaces. -/
def Blank (s : Str) : Prop := ∀ c ∈ s, c = space

/-- One of some segments is blank, and there is something else after it than spaces. -/
def Gap (segments : List Str) : Prop :=
  ∃ before s after, segments = before ++ s :: after ∧ Blank s ∧ ¬Blank (lineOf after)

/-- The line does not begin with a bar, and where there are only spaces from one bar to the next,
there are only spaces behind that one as well. -/
structure NoGaps (line : Str) : Prop where
  first : line.head? ≠ some bar
  others : ¬Gap (line.splitOn bar).tail

variable {globals : Globals} {s t : Str} {segments : List Str}

theorem freeCommand_ok (c : Cmd) (h : c.Whole) : ∃ freed, freeCommand c = .ok freed := by
  induction c with
  | null => exact h.elim
  | exec e => exact ⟨_, rfl⟩
  | back scmd c => exact ⟨_, rfl⟩
  | pipe leftcmd rightcmd ihl ihr =>
    obtain ⟨left, hleft⟩ := ihl h.1
    obtain ⟨right, hright⟩ := ihr h.2
    refine ⟨left ++ right ++ [.command (.pipe leftcmd rightcmd)], ?_⟩
    rw [freeCommand, hleft, hright]
    rfl

theorem freeCommand_error (c : Cmd) (h : ¬c.Whole) : freeCommand c = .error .dereferenced := by
  induction c with
  | null => rfl
  | exec e => exact absurd trivial h
  | back scmd c => exact absurd trivial h
  | pipe leftcmd rightcmd ihl ihr =>
    rw [freeCommand]
    by_cases hleft : leftcmd.Whole
    · obtain ⟨left, hok⟩ := freeCommand_ok leftcmd hleft
      rw [hok, ihr fun hright ↦ h ⟨hleft, hright⟩]
      rfl
    · rw [ihl hleft]
      rfl

theorem execTree_ok (c : Cmd) (h : c.Whole) : ∃ executed, execTree c = .ok executed := by
  induction c with
  | null => exact h.elim
  | exec e => exact ⟨_, rfl⟩
  | back scmd c => exact ⟨_, rfl⟩
  | pipe leftcmd rightcmd ihl ihr =>
    obtain ⟨left, hleft⟩ := ihl h.1
    obtain ⟨right, hright⟩ := ihr h.2
    refine ⟨right ++ left, ?_⟩
    rw [execTree, hright, hleft]
    rfl

/-- Nothing but a whole tree can be executed and freed. -/
theorem handled_iff (c : Cmd) : c.Handled ↔ c.Whole := by
  constructor
  · rintro ⟨result, hrun⟩
    by_contra hwhole
    rw [runParsed, freeCommand_error c hwhole] at hrun
    cases hexec : execTree c with
    | error e =>
      rw [hexec] at hrun
      cases hrun
    | ok executed =>
      rw [hexec] at hrun
      cases hrun
  · intro hwhole
    obtain ⟨executed, hexec⟩ := execTree_ok c hwhole
    obtain ⟨freed, hfree⟩ := freeCommand_ok c hwhole
    refine ⟨(executed, freed), ?_⟩
    rw [runParsed, hexec, hfree]
    rfl

/-! ## The tree of some segments -/

theorem Blank.nil : Blank [] := List.forall_mem_nil _

theorem trimStart_eq_nil : trimStart s = [] ↔ Blank s := by
  rw [trimStart, List.dropWhile_eq_nil_iff]
  exact forall₂_congr fun c _ ↦ decide_eq_true_iff

theorem cmdOf_eq_null : cmdOf globals s = .null ↔ s = [] := by
  constructor
  · intro h
    by_contra hne
    exact cmdOf_ne_null hne h
  · intro h
    rw [h]
    rfl

theorem whole_cmdOf (h : s ≠ []) : (cmdOf globals s).Whole := by
  rw [cmdOf, if_neg h]
  split <;> exact trivial

/-- A pipe has both commands where they are whole, and without a right side it is the left one. -/
theorem whole_pipeCmdCreate {l r : Cmd} :
    (pipeCmdCreate l r).Whole ↔ l.Whole ∧ (r = .null ∨ r.Whole) := by
  cases r with
  | null => exact (and_iff_left (.inl rfl)).symm
  | _ => exact and_congr_right' (or_iff_right Cmd.noConfusion).symm

theorem pipeCmdCreate_eq_null {l r : Cmd} :
    pipeCmdCreate l r = .null ↔ l = .null ∧ r = .null := by
  cases r with
  | null => exact (and_iff_left rfl).symm
  | _ => exact iff_of_false Cmd.noConfusion fun h ↦ Cmd.noConfusion h.2

theorem treeOf_eq_null : treeOf globals s segments = .null ↔ s = [] ∧ Blank (lineOf segments) := by
  have hblank : Blank (lineOf []) := .nil
  by_cases hne : s = []
  · rw [and_iff_right hne]
    cases segments with
    | nil => exact iff_of_true (cmdOf_eq_null.mpr hne) hblank
    | cons t segments =>
      rw [treeOf, if_pos hne, pipeCmdCreate_eq_null, and_iff_right rfl, cmdOf_eq_null,
        trimStart_eq_nil]
  · refine iff_of_false (fun h ↦ ?_) fun h ↦ hne h.1
    cases segments with
    | nil => exact cmdOf_ne_null hne h
    | cons t segments =>
      rw [treeOf, if_neg hne, pipeCmdCreate_eq_null] at h
      exact cmdOf_ne_null hne h.1

theorem gap_cons : Gap (t :: segments) ↔ Blank t ∧ ¬Blank (lineOf segments) ∨ Gap segments := by
  constructor
  · rintro ⟨before, s, after, hsegments, hs, hafter⟩
    cases before with
    | nil =>
      obtain ⟨rfl, rfl⟩ := List.cons.inj hsegments
      exact .inl ⟨hs, hafter⟩
    | cons t' before =>
      exact .inr ⟨before, s, after, (List.cons.inj hsegments).2, hs, hafter⟩
  · rintro (⟨ht, hrest⟩ | ⟨before, s, after, hsegments, hs, hafter⟩)
    · exact ⟨[], t, segments, rfl, ht, hrest⟩
    · refine ⟨t :: before, s, after, ?_, hs, hafter⟩
      rw [hsegments]
      rfl

/-- Behind a blank rest there is no gap. -/
theorem not_gap_of_blank (h : Blank (lineOf segments)) : ¬Gap segments := by
  rintro ⟨before, s, after, rfl, -, hafter⟩
  refine hafter fun c hc ↦ h c ?_
  clear h
  induction before with
  | nil =>
    cases after with
    | nil => cases hc
    | cons t after =>
      rw [List.nil_append, lineOf_cons_cons]
      exact List.mem_append_right _ (List.mem_cons_of_mem _ hc)
  | cons t before ih =>
    obtain ⟨t', rest, hrest⟩ := List.exists_cons_of_ne_nil
      (List.append_ne_nil_of_right_ne_nil before (List.cons_ne_nil s after))
    rw [List.cons_append, hrest, lineOf_cons_cons, ← hrest]
    exact List.mem_append_right _ (List.mem_cons_of_mem _ ih)

/-- The tree is whole where there is no gap. -/
theorem whole_treeOf_iff (s : Str) (segments : List Str) :
    (treeOf globals s segments).Whole ↔ s ≠ [] ∧ ¬Gap segments := by
  induction segments generalizing s with
  | nil =>
    have hgap : ¬Gap [] := not_gap_of_blank .nil
    rw [treeOf, and_iff_left hgap]
    constructor
    · rintro h rfl
      exact h
    · exact whole_cmdOf
  | cons t segments ih =>
    by_cases hne : s = []
    · rw [treeOf, if_pos hne, whole_pipeCmdCreate]
      exact iff_of_false (fun h ↦ h.1) fun h ↦ h.1 hne
    · rw [treeOf, if_neg hne, whole_pipeCmdCreate, and_iff_right (whole_cmdOf hne),
        and_iff_right hne, treeOf_eq_null, ih, ne_eq, trimStart_eq_nil, gap_cons]
      constructor
      · rintro (⟨-, hblank⟩ | ⟨ht, hgap⟩) (⟨hblank', hrest⟩ | hgap')
        · exact hrest hblank
        · exact not_gap_of_blank hblank hgap'
        · exact ht hblank'
        · exact hgap hgap'
      · intro hgap
        obtain ⟨hhere, hlater⟩ := not_or.mp hgap
        by_cases ht : Blank t
        · exact .inl ⟨ht, by_contra fun hrest ↦ hhere ⟨ht, hrest⟩⟩
        · exact .inr ⟨ht, hlater⟩

/-! ## The tree of a line -/

theorem whole_lineTree_iff {line : Str} (hne : line ≠ []) :
    (lineTree globals line).Whole ↔ NoGaps line := by
  obtain ⟨s, segments, hsplit, hjoin⟩ := exists_segments line
  have hhead : s ≠ [] ↔ line.head? ≠ some bar := by
    rw [not_iff_not]
    cases segments with
    | nil =>
      rw [lineOf_singleton] at hjoin
      rw [hjoin]
      refine iff_of_false hne fun h ↦ ?_
      have hbar : bar ∉ s := bar_not_mem_segments (hsplit ▸ List.mem_cons_self)
      exact hbar (hjoin ▸ List.mem_of_head? h)
    | cons t segments =>
      rw [← hjoin, lineOf_cons_cons]
      cases s with
      | nil => exact iff_of_true rfl rfl
      | cons c s =>
        refine iff_of_false (List.cons_ne_nil c s) fun h ↦ ?_
        have hbar : bar ∉ c :: s := bar_not_mem_segments (hsplit ▸ List.mem_cons_self)
        rw [← Option.some.inj h] at hbar
        exact hbar List.mem_cons_self
  have hgaps : NoGaps line ↔ line.head? ≠ some bar ∧ ¬Gap segments := by
    constructor
    · intro h
      have hothers := h.others
      rw [hsplit] at hothers
      exact ⟨h.first, hothers⟩
    · rintro ⟨hfirst, hothers⟩
      refine ⟨hfirst, ?_⟩
      rw [hsplit]
      exact hothers
  rw [lineTree, hsplit, hgaps, ← hhead]
  exact whole_treeOf_iff s segments

theorem parseLine_of_traced {memory : Block} {buf : ℕ} :
    parseLine globals memory buf =
      Prod.snd <$> parseLineTraced globals memory.length memory buf :=
  (parseLineTraced_snd memory.length memory buf).symm

/-- `parse_line` gives a tree that can be used exactly where it does not overrun its arrays and
every pipe has both commands. -/
theorem usable_iff (globals : Globals) (hglobals : globals.WellTyped) (line : Str)
    (hne : line ≠ []) (hline : ∀ c ∈ line, c ≠ endString) (hlen : line.length < buflen) :
    (∃ memory c, parseLine globals (lineBuffer line) 0 = .ok (memory, c) ∧
        (c.Whole ∨ c.Handled)) ↔
      (zerosAfter line ≤ buflen - line.length ∧ line.head? ≠ some ampersand ∧
        ∀ s ∈ handedOf line, FitsArrays globals (cutText s)) ∧ NoGaps line := by
  obtain ⟨hok, herror⟩ := parseLineTraced_line hglobals hline hlen
  rw [← @whole_lineTree_iff globals line hne, parseLine_of_traced]
  by_cases hfits : zerosAfter line ≤ buflen - line.length ∧ line.head? ≠ some ampersand ∧
      ∀ s ∈ handedOf line, FitsArrays globals (cutText s)
  · obtain ⟨memory, hparse⟩ := hok hfits
    rw [hparse, and_iff_right hfits]
    constructor
    · rintro ⟨memory', c, hc, husable⟩
      obtain ⟨-, rfl⟩ := Prod.mk.inj (Except.ok.inj hc)
      exact husable.elim id (handled_iff _).mp
    · exact fun hwhole ↦ ⟨memory, lineTree globals line, rfl, .inl hwhole⟩
  · rw [herror hfits]
    refine iff_of_false ?_ fun h ↦ hfits h.1
    rintro ⟨memory, c, hc, -⟩
    cases hc

/-- The line `a|b`. -/
theorem usable_pipe : ∃ memory c, parseLine .fresh (lineBuffer [97, bar, 98]) 0 = .ok (memory, c) ∧
    (c.Whole ∨ c.Handled) := by
  have hsplit : [97, bar, 98].splitOn bar = [[97], [98]] := by decide +kernel
  refine (usable_iff .fresh Globals.fresh_wellTyped _ (List.cons_ne_nil _ _) (by decide +kernel)
    (by decide +kernel)).mpr ⟨by decide +kernel, by decide, ?_⟩
  rw [hsplit]
  rintro ⟨before, s, after, hsegments, hblank, hrest⟩
  cases before with
  | nil =>
    obtain ⟨rfl, -⟩ := List.cons.inj hsegments
    exact absurd (hblank 98 List.mem_cons_self) (by decide)
  | cons t before => simpa using congrArg List.length hsegments

/-- The line `a||b` gives a pipe without a left command. -/
theorem doubled_bar_leaves_null :
    ∃ line : Str, line ≠ [] ∧ (∀ c ∈ line, c ≠ endString) ∧ line.length < buflen ∧
      ¬∃ memory c, parseLine .fresh (lineBuffer line) 0 = .ok (memory, c) ∧
        (c.Whole ∨ c.Handled) := by
  refine ⟨[97, bar, bar, 98], List.cons_ne_nil _ _, by decide +kernel, by decide +kernel, ?_⟩
  have hparse : Prod.snd <$> parseLine .fresh (lineBuffer [97, bar, bar, 98]) 0 =
      .ok (lineTree .fresh [97, bar, bar, 98]) := by
    decide +kernel
  rintro ⟨memory, c, hc, husable⟩
  rw [hc] at hparse
  have htree : lineTree .fresh [97, bar, bar, 98] = c := (Except.ok.inj hparse).symm
  have hwhole : (lineTree .fresh [97, bar, bar, 98]).Whole := by
    rw [htree]
    exact husable.elim id (handled_iff c).mp
  have hsplit : [97, bar, bar, 98].splitOn bar = [97] :: [[], [98]] := by decide +kernel
  rw [lineTree, hsplit] at hwhole
  refine (whole_treeOf_iff _ _).mp hwhole |>.2 ⟨[], [], [[98]], rfl, .nil, fun hblank ↦ ?_⟩
  exact absurd (hblank 98 List.mem_cons_self) (by decide)

end SistemasOperativos.Shell
