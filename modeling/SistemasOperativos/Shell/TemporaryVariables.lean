import SistemasOperativos.Shell.Background
import SistemasOperativos.Shell.Execution

/-!
# Temporary environment variables

A command `key=value word …` runs with `key` bound to `value`. The pair has to get past the
classifier of `parse_exec`, then `set_environ_vars` splits it again before `execvp` is called, and a
later pair may bind the same key once more.
-/

namespace SistemasOperativos.Shell

open Library

/-! ## The image of a process -/

/-- What a process executes: its environment, and `argv`. -/
structure Image where
  environ : Str → Option Str
  argv : List Block

/-- `setenv(key, value, 1)`, which refuses some names. -/
def setenv (environ : Str → Option Str) (key value : Str) : Str → Option Str :=
  if key = [] ∨ equals ∈ key then environ
  else fun name ↦ if name = key then some value else environ name

/-- The image at the first call to `execvp`. -/
def imageOf (environ : Str → Option Str) : List Action → Option Image
  | [] => none
  | .setenv key value :: calls => imageOf (setenv environ key value) calls
  | .execvp _ argv :: _ => some ⟨environ, argv⟩
  | _ :: calls => imageOf environ calls

/-- A call that changes neither the environment nor the image. -/
def Action.indifferent : Action → Bool
  | .setenv _ _ => false
  | .execvp _ _ => false
  | _ => true

/-- Where no call to `dup2` fails, the command executes `word` with `key` bound to `value`. -/
def RunsWith (globals : Globals) (c : Cmd) (key value word : Str) : Prop :=
  ∀ world : List Action → ℤ, (∀ calls oldfd newfd, world (calls ++ [.dup2 oldfd newfd]) ≠ error) →
    ∃ image, imageOf globals.getenv (execute world (execCmd c) []).2 = some image ∧
      image.environ key = some value ∧ ∃ arg, image.argv.head? = some arg ∧ cString arg = .ok word

theorem imageOf_append (environ : Str → Option Str) {past : List Action}
    (h : ∀ a ∈ past, a.indifferent = true) (calls : List Action) :
    imageOf environ (past ++ calls) = imageOf environ calls := by
  induction past with
  | nil => rfl
  | cons a past ih =>
    have hrest := ih fun a' ha' ↦ h a' (List.mem_cons_of_mem a ha')
    have ha := h a List.mem_cons_self
    cases a with
    | setenv key value => cases ha
    | execvp file argv => cases ha
    | setpgid => exact hrest
    | openFile file flags => exact hrest
    | dup2 oldfd newfd => exact hrest
    | close fd => exact hrest

/-! ## Pairs -/

/-- The part of a pair before its first `'='`. -/
def keyOf (w : Str) : Str := w.takeWhile (· ≠ equals)

/-- The part of a pair after its first `'='`. -/
def valueOf (w : Str) : Str := (w.dropWhile (· ≠ equals)).drop 1

/-- The value that a word assigns to a key. -/
def assignment (key w : Str) : Option Str :=
  if IsVariable w ∧ keyOf w = key then some (valueOf w) else none

section Pairs

variable {w key value : Str}

theorem pair_append (hkey : equals ∉ key) :
    keyOf (key ++ equals :: value) = key ∧ valueOf (key ++ equals :: value) = value := by
  have hall : ∀ c ∈ key, decide (c ≠ equals) = true := fun c hc ↦
    decide_eq_true (ne_of_mem_of_not_mem hc hkey)
  constructor
  · rw [keyOf, List.takeWhile_append_of_pos hall]
    simp
  · rw [valueOf, List.dropWhile_append_of_pos hall]
    simp

/-- A word with a `'='` is a pair. -/
theorem eq_pair (h : equals ∈ w) : w = keyOf w ++ equals :: valueOf w ∧ equals ∉ keyOf w := by
  obtain ⟨key, value, hw, hkey⟩ := List.eq_append_cons_of_mem h
  obtain ⟨hk, hv⟩ := @pair_append key value hkey
  rw [hw, hk, hv]
  exact ⟨rfl, hkey⟩

theorem blockContains_pair (hkey : equals ∉ key) :
    blockContains (key ++ equals :: value) equals = some key.length := by
  rw [blockContains_some]
  constructor
  · rw [List.getElem?_append_right (Nat.le_refl _), Nat.sub_self, List.getElem?_cons_zero]
  · intro j hj hc
    rw [List.getElem?_append_left hj] at hc
    exact hkey (List.mem_of_getElem? hc)

theorem copyKey_pair (hkey : equals ∉ key) (room : ℕ) (hroom : key.length < room) (rest : Block) :
    copyKey room (key ++ equals :: rest) = .ok (key ++ [endString]) := by
  induction key generalizing room with
  | nil =>
    obtain ⟨room, rfl⟩ := Nat.exists_eq_succ_of_ne_zero (Nat.ne_of_gt hroom)
    exact if_neg (not_not_intro rfl)
  | cons c key ih =>
    obtain ⟨room, rfl⟩ := Nat.exists_eq_succ_of_ne_zero (Nat.ne_of_gt (Nat.zero_lt_of_lt hroom))
    obtain ⟨hc, hkey⟩ := not_or.mp fun h ↦ hkey (List.mem_cons.mpr h)
    rw [List.cons_append, copyKey, if_pos fun h ↦ hc h.symm,
      ih hkey room (Nat.lt_of_succ_lt_succ hroom)]
    rfl

/-- What the two splitting functions make of a pair. -/
theorem IsToken.split_pair (hw : IsToken w) (h : equals ∈ w) :
    (∃ block, getEnvironKey (tokenBlock w) = .ok block ∧ cString block = .ok (keyOf w)) ∧
      getEnvironValue (tokenBlock w) (blockContains w equals) = .ok (valueOf w) := by
  obtain ⟨hpair, hkey⟩ := eq_pair h
  have hclean : ∀ c ∈ keyOf w, c ≠ endString := fun c hc ↦
    hw.noEnd c (List.takeWhile_prefix _ |>.subset hc)
  have hshort : (keyOf w).length < buflen :=
    (List.takeWhile_prefix _).length_le.trans_lt hw.short
  constructor
  · refine ⟨keyOf w ++ [endString], ?_, cString_append hclean⟩
    rw [getEnvironKey, hw.tokenBlock_eq]
    conv_lhs => rw [hpair]
    rw [List.append_assoc, List.cons_append, copyKey_pair hkey buflen hshort]
  · have hindex : blockContains w equals = some (keyOf w).length := by
      conv_lhs => rw [hpair]
      exact blockContains_pair hkey
    have hdrop : w.drop ((keyOf w).length + 1) = valueOf w := by
      have happend := @List.drop_length_add_append UInt8 (keyOf w) (equals :: valueOf w) 1
      rwa [← hpair] at happend
    have hlength : (valueOf w).length < buflen := by
      rw [← hdrop]
      exact (List.drop_suffix _ w).length_le.trans_lt hw.short
    rw [getEnvironValue, hw.cString_tokenBlock, hindex]
    change strcpy buflen (w.drop ((keyOf w).length + 1)) = _
    rw [hdrop, strcpy_eq hlength]

/-- `set_environ_vars` makes one call for each pair. -/
theorem setEnvironVars_run {world : List Action → ℤ} (ws : List Str)
    (h : ∀ w ∈ ws, IsToken w ∧ equals ∈ w) (past : List Action) :
    execute world (setEnvironVars (ws.map tokenBlock)) past =
      (.ok (), past ++ ws.map fun w ↦ .setenv (keyOf w) (valueOf w)) := by
  induction ws generalizing past with
  | nil =>
    rw [List.map_nil, List.map_nil, List.append_nil]
    rfl
  | cons w ws ih =>
    obtain ⟨hw, hequals⟩ := h w List.mem_cons_self
    obtain ⟨⟨block, hblock, hkey⟩, hvalue⟩ := hw.split_pair hequals
    rw [List.map_cons, setEnvironVars, inMemory_ok hw.cString_tokenBlock]
    simp only [done_bind]
    rw [inMemory_ok hblock, inMemory_ok hvalue]
    simp only [done_bind]
    rw [inMemory_ok hkey]
    simp only [done_bind]
    rw [execute_perform, ih fun w' hw' ↦ h w' (List.mem_cons_of_mem w hw'), List.map_cons,
      List.append_assoc, List.singleton_append]

end Pairs

/-! ## Running a command -/

section Run

variable {world : List Action → ℤ} {past : List Action} {environ : Str → Option Str}
  {e : ExecCmd} {ws : List Str}

/-- The environment after some pairs. -/
def bindAll (environ : Str → Option Str) (ws : List Str) : Str → Option Str :=
  ws.foldl (fun environ w ↦ setenv environ (keyOf w) (valueOf w)) environ

theorem imageOf_setenv (environ : Str → Option Str) (ws : List Str) (calls : List Action) :
    imageOf environ ((ws.map fun w ↦ .setenv (keyOf w) (valueOf w)) ++ calls) =
      imageOf (bindAll environ ws) calls := by
  induction ws generalizing environ with
  | nil => rfl
  | cons w ws ih => exact ih (setenv environ (keyOf w) (valueOf w))

theorem imageOf_execCommand (hws : ∀ w ∈ ws, IsToken w ∧ equals ∈ w)
    (heargv : e.eargv = ws.map tokenBlock) (hpast : ∀ a ∈ past, a.indifferent = true) :
    imageOf environ (execute world (execCommand e) past).2 =
      some ⟨bindAll environ ws, e.argv⟩ := by
  have hset := @setEnvironVars_run world ws hws past
  rw [← heargv] at hset
  have hcalls : (execute world (execCommand e) past).2 =
      past ++ (ws.map fun w ↦ .setenv (keyOf w) (valueOf w)) ++ [.execvp e.argv.head? e.argv] := by
    unfold execute execCommand
    rw [Interaction.run_bind_ok hset]
    change (execute world (perform _ >>= _) _).2 = _
    rw [execute_perform]
    split <;> rfl
  rw [hcalls, List.append_assoc, imageOf_append environ hpast, imageOf_setenv]
  rfl

theorem dupFile_run (hworld : ∀ calls oldfd newfd, world (calls ++ [.dup2 oldfd newfd]) ≠ error)
    (file : Str) (oldfd : ℤ) (flags : List OpenFlag) (past : List Action) :
    ∃ calls, (∀ a ∈ calls, a.indifferent = true) ∧
      execute world (dupFile file oldfd flags) past = (.ok (), past ++ calls) := by
  by_cases hfile : 0 < file.length
  · have hvisible : ∀ (calls : List Action) (newfd : ℤ),
        world ((calls ++ [Action.dup2 newfd oldfd]).filter Action.visible) ≠ error := by
      intro calls newfd
      rw [List.filter_append]
      exact hworld _ _ _
    unfold dupFile
    rw [if_pos hfile, execute_perform, execute_perform, if_neg (hvisible _ _)]
    generalize world ((past ++ [Action.openFile file flags]).filter Action.visible) = newfd
    refine ⟨[.openFile file flags, .dup2 newfd oldfd, .close newfd], ?_, ?_⟩
    · intro a ha
      simp only [List.mem_cons, List.not_mem_nil, or_false] at ha
      obtain rfl | rfl | rfl := ha <;> rfl
    · change execute world (perform _ >>= _) _ = _
      rw [execute_perform, List.append_assoc, List.append_assoc]
      rfl
  · refine ⟨[], List.forall_mem_nil _, ?_⟩
    unfold dupFile
    rw [if_neg hfile, List.append_nil]
    rfl

/-- The redirections come before the command and leave its image alone. -/
theorem execRedir_run (hworld : ∀ calls oldfd newfd, world (calls ++ [.dup2 oldfd newfd]) ≠ error)
    (e : ExecCmd) (past : List Action) :
    ∃ calls, (∀ a ∈ calls, a.indifferent = true) ∧
      execute world (execRedir e) past = execute world (execSimple e) (past ++ calls) := by
  obtain ⟨calls₁, h₁, hin⟩ := dupFile_run hworld e.inFile 0 [.cloexec, .rdonly] past
  obtain ⟨calls₂, h₂, hout⟩ :=
    dupFile_run hworld e.outFile 1 [.creat, .wronly, .trunc, .cloexec] (past ++ calls₁)
  obtain ⟨calls₃, h₃, herr⟩ :=
    dupFile_run hworld e.errFile 2 [.creat, .wronly, .cloexec] (past ++ calls₁ ++ calls₂)
  have hall : ∀ calls : List Action, (∀ a ∈ calls, a.indifferent = true) →
      ∀ a ∈ calls₁ ++ (calls₂ ++ calls), a.indifferent = true := by
    intro calls h a ha
    obtain ha | ha := List.mem_append.mp ha
    · exact h₁ a ha
    · exact (List.mem_append.mp ha).elim (h₂ a) (h a)
  unfold execute execRedir
  rw [Interaction.run_bind_ok hin, Interaction.run_bind_ok hout]
  dsimp only
  split
  · split
    · refine ⟨calls₁ ++ (calls₂ ++ [.dup2 1 2]), hall _ fun a ha ↦ ?_, ?_⟩
      · rw [List.mem_singleton.mp ha]
        rfl
      · have hdup : world ((past ++ calls₁ ++ calls₂ ++ [Action.dup2 1 2]).filter Action.visible) ≠
            error := by
          rw [List.filter_append]
          exact hworld _ _ _
        change execute world (perform _ >>= _) _ = _
        rw [execute_perform, if_neg hdup, List.append_assoc, List.append_assoc]
        rfl
    · refine ⟨calls₁ ++ (calls₂ ++ calls₃), hall _ h₃, ?_⟩
      rw [Interaction.run_bind_ok herr, ← List.append_assoc, ← List.append_assoc]
  · refine ⟨calls₁ ++ (calls₂ ++ []), hall [] (List.forall_mem_nil _), ?_⟩
    rw [List.append_nil, ← List.append_assoc]

theorem imageOf_execSimple (hws : ∀ w ∈ ws, IsToken w ∧ equals ∈ w)
    (heargv : e.eargv = ws.map tokenBlock) (hpast : ∀ a ∈ past, a.indifferent = true) :
    imageOf environ (execute world (execSimple e) past).2 =
      some ⟨bindAll environ ws, e.argv⟩ := by
  have hgroup : ∀ a ∈ past ++ [.setpgid], a.indifferent = true := by
    intro a ha
    obtain ha | ha := List.mem_append.mp ha
    · exact hpast a ha
    · rw [List.mem_singleton.mp ha]
      rfl
  exact imageOf_execCommand hws heargv hgroup

/-- The image of a command, in the background or not. -/
theorem imageOf_execCmd (hws : ∀ w ∈ ws, IsToken w ∧ equals ∈ w)
    (heargv : e.eargv = ws.map tokenBlock) {c : Cmd} (hc : c = .exec e ∨ ∃ scmd, c = .back scmd e)
    (hworld : ∀ calls oldfd newfd, world (calls ++ [.dup2 oldfd newfd]) ≠ error) :
    imageOf environ (execute world (execCmd c) []).2 = some ⟨bindAll environ ws, e.argv⟩ := by
  obtain rfl | ⟨scmd, rfl⟩ := hc
  · cases htype : e.type with
    | exec =>
      rw [execCmd, htype]
      exact imageOf_execSimple hws heargv (List.forall_mem_nil _)
    | redir =>
      obtain ⟨calls, hcalls, hrun⟩ := execRedir_run hworld e [.setpgid]
      have hall : ∀ a ∈ [Action.setpgid] ++ calls, a.indifferent = true := by
        intro a ha
        obtain rfl | ha := List.mem_cons.mp ha
        · rfl
        · exact hcalls a ha
      rw [execCmd, htype]
      change imageOf environ (execute world (execRedir e) [.setpgid]).2 = _
      rw [hrun]
      exact imageOf_execSimple hws heargv hall
  · exact imageOf_execCommand hws heargv (List.forall_mem_nil _)

end Run

/-! ## The value of a key -/

theorem IsVariable.pair {w : Str} (h : IsVariable w) : equals ∈ w ∧ keyOf w ≠ [] := by
  have hindex := h.2.1
  cases hfind : blockContains w equals with
  | none =>
    rw [hfind] at hindex
    cases hindex
  | some i =>
    have hmem : equals ∈ w := List.mem_of_getElem? (blockContains_some.mp hfind).1
    refine ⟨hmem, fun hkey ↦ ?_⟩
    have hpair := (eq_pair hmem).1
    rw [hkey, List.nil_append] at hpair
    have hzero : blockContains w equals = some 0 := by
      rw [hpair]
      exact blockContains_some.mpr ⟨rfl, fun j hj ↦ absurd hj (Nat.not_lt_zero j)⟩
    rw [hzero] at hindex
    exact absurd hindex (by decide)

/-- The last assignment to a key decides. -/
theorem bindAll_apply (environ : Str → Option Str) (key : Str) (ws : List Str)
    (hws : ∀ w ∈ ws, IsVariable w) :
    bindAll environ ws key = (ws.filterMap (assignment key)).getLast?.or (environ key) := by
  induction ws generalizing environ with
  | nil => rfl
  | cons w ws ih =>
    have hw := hws w List.mem_cons_self
    obtain ⟨hequals, hne⟩ := hw.pair
    have hset : setenv environ (keyOf w) (valueOf w) key =
        if keyOf w = key then some (valueOf w) else environ key := by
      rw [setenv, if_neg (not_or.mpr ⟨hne, (eq_pair hequals).2⟩)]
      exact if_congr eq_comm rfl rfl
    change bindAll (setenv environ (keyOf w) (valueOf w)) ws key = _
    rw [ih _ fun w' hw' ↦ hws w' (List.mem_cons_of_mem w hw'), hset]
    by_cases hkey : keyOf w = key
    · have hassign : assignment key w = some (valueOf w) := if_pos ⟨hw, hkey⟩
      rw [if_pos hkey, List.filterMap_cons_some hassign, List.getLast?_cons]
      cases (ws.filterMap (assignment key)).getLast? <;> rfl
    · have hassign : assignment key w = none := if_neg fun h ↦ hkey h.2
      rw [if_neg hkey, List.filterMap_cons_none hassign]

/-- The words that are no pairs assign nothing. -/
theorem bindAll_words (environ : Str → Option Str) (key : Str) (ws : List Str) :
    bindAll environ (ws.filter fun w ↦ decide (IsVariable w)) key =
      (ws.filterMap (assignment key)).getLast?.or (environ key) := by
  have hassign : ∀ w, (if decide (IsVariable w) = true then assignment key w else none) =
      assignment key w := by
    intro w
    by_cases hvariable : IsVariable w
    · rw [if_pos (decide_eq_true hvariable)]
    · rw [if_neg (by rw [decide_eq_true_eq]; exact hvariable), assignment,
        if_neg fun hw ↦ hvariable hw.1]
  rw [bindAll_apply _ _ _ fun w hw ↦ of_decide_eq_true (List.mem_filter.mp hw).2,
    List.filterMap_filter]
  simp only [hassign]

/-- A parsed command binds a key to what its last pair says, or the environment. -/
theorem runsWith_iff {globals : Globals} {text key value word : Str} {c : Cmd}
    (htokens : ∀ w ∈ wordsOf text, IsToken w)
    (hc : c = .exec (commandOf globals text) ∨ ∃ scmd, c = .back scmd (commandOf globals text)) :
    RunsWith globals c key value word ↔
      ((wordsOf text).filterMap (assignment key)).getLast?.or (globals.getenv key) = some value ∧
        ∃ arg, (commandOf globals text).argv.head? = some arg ∧ cString arg = .ok word := by
  have hpairs : ∀ w ∈ (wordsOf text).filter (fun w ↦ decide (IsVariable w)),
      IsToken w ∧ equals ∈ w := by
    intro w hw
    obtain ⟨hmem, hvariable⟩ := List.mem_filter.mp hw
    exact ⟨htokens w hmem, (of_decide_eq_true hvariable).pair.1⟩
  have himage : ∀ world : List Action → ℤ,
      (∀ calls oldfd newfd, world (calls ++ [.dup2 oldfd newfd]) ≠ error) →
      imageOf globals.getenv (execute world (execCmd c) []).2 =
        some ⟨bindAll globals.getenv ((wordsOf text).filter fun w ↦ decide (IsVariable w)),
          (commandOf globals text).argv⟩ := fun world hworld ↦
    imageOf_execCmd hpairs (filterMap_variableOf _) hc hworld
  rw [← bindAll_words]
  constructor
  · intro hruns
    have hworld : ∀ (_ : List Action) (_ _ : ℤ), (3 : ℤ) ≠ error := fun _ _ _ ↦ by decide
    obtain ⟨image, hcalls, henviron, harg⟩ := hruns (fun _ ↦ 3) hworld
    rw [himage _ hworld] at hcalls
    rw [← Option.some.inj hcalls] at henviron harg
    exact ⟨henviron, harg⟩
  · rintro ⟨henviron, harg⟩ world hworld
    exact ⟨_, himage world hworld, henviron, harg⟩

/-! ## Commands with a pair -/

/-- The text `key=value word`, and the rest of the command. -/
def commandText (key value word rest : Str) : Str :=
  key ++ equals :: value ++ space :: word ++ rest

/-- The characters of a command that begins with a pair and a plain word. -/
structure TempCommand (key value word rest : Str) : Prop where
  key_ne : key ≠ []
  key_chars : ∀ c ∈ [minus, equals, dollar, lessThan, greaterThan, space, ampersand], c ∉ key
  value_chars : ∀ c ∈ [space, lessThan, greaterThan, ampersand], c ∉ value
  word_ne : word ≠ []
  word_chars : ∀ c ∈ [equals, lessThan, greaterThan, space, ampersand], c ∉ word
  word_plain : word.head? ≠ some dollar
  rest_starts : rest = [] ∨ rest.head? = some space
  noEnd : ∀ c ∈ commandText key value word rest, c ≠ endString
  short : (commandText key value word rest).length < buflen

theorem not_mem_pair {key value : Str} {c : UInt8} (hc : c ≠ equals) (hkey : c ∉ key)
    (hvalue : c ∉ value) : c ∉ key ++ equals :: value := by
  intro hmem
  obtain hmem | hmem := List.mem_append.mp hmem
  · exact hkey hmem
  · exact (List.mem_cons.mp hmem).elim hc hvalue

namespace TempCommand

variable {globals : Globals} {key value word rest : Str}

/-- The first two words are the pair and the plain word. -/
theorem words (h : TempCommand key value word rest) :
    ∃ more, wordsOf (cutText (commandText key value word rest)) =
      (key ++ equals :: value) :: word :: more := by
  have hpair : space ∉ key ++ equals :: value :=
    not_mem_pair (by decide) (h.key_chars _ (by simp)) (h.value_chars _ (by simp))
  have hpair' : ampersand ∉ key ++ equals :: value :=
    not_mem_pair (by decide) (h.key_chars _ (by simp)) (h.value_chars _ (by simp))
  have hword : space ∉ word := h.word_chars _ (by simp)
  have hbefore : ampersand ∉ key ++ equals :: value ++ space :: word := by
    intro hmem
    obtain hmem | hmem := List.mem_append.mp hmem
    · exact hpair' hmem
    · exact (List.mem_cons.mp hmem).elim (by decide) (h.word_chars _ (by simp))
  obtain ⟨after, hafter⟩ := prefix_cutText hbefore rest
  have hrest : after <+: rest := by
    have hcut := cutText_isPrefix (key ++ equals :: value ++ space :: word ++ rest)
    rw [← hafter] at hcut
    exact (List.prefix_append_right_inj _).mp hcut
  have hne : key ++ equals :: value ≠ [] := List.append_ne_nil_of_left_ne_nil h.key_ne _
  rw [commandText, ← hafter, List.append_assoc, List.cons_append, wordsOf_append,
    wordsOf_of_not_mem hpair, if_neg hne, List.singleton_append]
  cases after with
  | nil => exact ⟨[], by rw [List.append_nil, wordsOf_of_not_mem hword, if_neg h.word_ne]⟩
  | cons c after =>
    have hspace : c = space := by
      obtain ⟨tail, rfl⟩ := hrest
      obtain hnil | hhead := h.rest_starts
      · exact absurd hnil (List.cons_ne_nil _ _)
      · exact Option.some.inj hhead
    refine ⟨wordsOf after, ?_⟩
    rw [hspace, wordsOf_append, wordsOf_of_not_mem hword, if_neg h.word_ne, List.singleton_append]

theorem pair_not_redirects (h : TempCommand key value word rest) :
    ¬Redirects (key ++ equals :: value) := not_or.mpr
  ⟨not_mem_pair (by decide) (h.key_chars _ (by simp)) (h.value_chars _ (by simp)),
    not_mem_pair (by decide) (h.key_chars _ (by simp)) (h.value_chars _ (by simp))⟩

/-- The pair is taken for one unless its value has a `'-'`. -/
theorem isVariable_iff (h : TempCommand key value word rest) :
    IsVariable (key ++ equals :: value) ↔ minus ∉ value := by
  have hindex : (blockContains (key ++ equals :: value) equals).any (0 < ·) = true := by
    rw [blockContains_pair (h.key_chars _ (by simp))]
    exact decide_eq_true (List.length_pos_iff.mpr h.key_ne)
  rw [IsVariable, and_iff_right h.pair_not_redirects, and_iff_right hindex]
  constructor
  · exact fun hminus hmem ↦ hminus (List.mem_append_right _ (List.mem_cons_of_mem _ hmem))
  · exact fun hminus ↦ not_mem_pair (by decide) (h.key_chars _ (by simp)) hminus

/-- A word that is neither a redirection, nor a pair, nor a variable is an argument as it is. -/
theorem argumentOf_plain {w : Str} (hw : IsToken w) (hne : w ≠ []) (hredirects : ¬Redirects w)
    (hvariable : ¬IsVariable w) (hdollar : w.head? ≠ some dollar) :
    argumentOf globals w = some (tokenBlock w) := by
  have hexpand : expansion globals w = tokenBlock w := if_pos hdollar
  have hhead : (tokenBlock w).head? ≠ some endString := by
    obtain ⟨c, cs, rfl⟩ := List.exists_cons_of_ne_nil hne
    exact fun h ↦ hw.noEnd c List.mem_cons_self (Option.some.inj h)
  rw [argumentOf, hexpand, if_neg (not_or.mpr ⟨hredirects, not_or.mpr ⟨hvariable, hhead⟩⟩)]

/-- The plain word comes first in `argv` exactly when the pair is taken for one. -/
theorem head_argv_iff (h : TempCommand key value word rest)
    (htokens : ∀ w ∈ wordsOf (cutText (commandText key value word rest)), IsToken w) :
    (∃ arg, (commandOf globals (cutText (commandText key value word rest))).argv.head? = some arg ∧
      cString arg = .ok word) ↔ minus ∉ value := by
  obtain ⟨more, hwords⟩ := h.words
  have hpair : IsToken (key ++ equals :: value) :=
    htokens _ (by rw [hwords]; exact List.mem_cons_self)
  have hword : IsToken word :=
    htokens _ (by rw [hwords]; exact List.mem_cons_of_mem _ List.mem_cons_self)
  have hequals : equals ∉ word := h.word_chars _ (by simp)
  change (∃ arg, ((wordsOf (cutText (commandText key value word rest))).filterMap
    (argumentOf globals)).head? = some arg ∧ cString arg = .ok word) ↔ _
  rw [hwords]
  by_cases hminus : minus ∈ value
  · have hargument := @argumentOf_plain globals _ hpair
      (List.append_ne_nil_of_left_ne_nil h.key_ne _) h.pair_not_redirects
      (fun hvariable ↦ h.isVariable_iff.mp hvariable hminus) (fun hdollar ↦ by
        obtain ⟨c, cs, rfl⟩ := List.exists_cons_of_ne_nil h.key_ne
        obtain rfl := Option.some.inj hdollar
        exact h.key_chars dollar (by simp) List.mem_cons_self)
    refine iff_of_false ?_ (not_not_intro hminus)
    rintro ⟨arg, harg, hstring⟩
    rw [List.filterMap_cons_some hargument, List.head?_cons] at harg
    rw [← Option.some.inj harg, hpair.cString_tokenBlock] at hstring
    rw [← Except.ok.inj hstring] at hequals
    exact hequals (List.mem_append_right _ List.mem_cons_self)
  · have hnone : argumentOf globals (key ++ equals :: value) = none :=
      if_pos (.inr (.inl (h.isVariable_iff.mpr hminus)))
    have hargument := @argumentOf_plain globals _ hword h.word_ne
      (not_or.mpr ⟨h.word_chars _ (by simp), h.word_chars _ (by simp)⟩)
      (fun hvariable ↦ hequals hvariable.pair.1) h.word_plain
    refine iff_of_true ⟨tokenBlock word, ?_, hword.cString_tokenBlock⟩ hminus
    rw [List.filterMap_cons_none hnone, List.filterMap_cons_some hargument, List.head?_cons]

end TempCommand

/-- The condition under which `word` runs with `key` bound to `value`: the value has no `'-'`, the
words fit, and the last of them that assigns the key assigns this value. -/
def Binds (globals : Globals) (key value word rest : Str) : Prop :=
  minus ∉ value ∧ FitsArrays globals (cutText (commandText key value word rest)) ∧
    ((wordsOf (cutText (commandText key value word rest))).filterMap
      (assignment key)).getLast? = some value

/-- A command with a pair runs with its key bound to its value exactly under this condition. -/
theorem temporary_variable_iff (globals : Globals) (hglobals : globals.WellTyped)
    (previous : Option UInt8) {key value word rest : Str} (h : TempCommand key value word rest) :
    (∃ c, parseAlone globals previous (commandText key value word rest) = .ok c ∧
      RunsWith globals c key value word) ↔ Binds globals key value word rest := by
  have hne : commandText key value word rest ≠ [] := by simp [commandText]
  have hhead : (commandText key value word rest).head? ≠ some ampersand := by
    intro hhead
    obtain ⟨c, cs, rfl⟩ := List.exists_cons_of_ne_nil h.key_ne
    obtain rfl := Option.some.inj hhead
    exact h.key_chars ampersand (by simp) List.mem_cons_self
  have hparse := @parseAlone_cutText globals _ previous hglobals h.noEnd h.short hne
    fun hfirst ↦ absurd hfirst hhead
  have hpart := cutText_isPrefix (commandText key value word rest)
  have htokens : ∀ w ∈ wordsOf (cutText (commandText key value word rest)), IsToken w :=
    fun w hw ↦ isToken_of_mem_wordsOf (fun c hc ↦ h.noEnd c (hpart.subset hc))
      (hpart.length_le.trans_lt h.short) hw
  have hpair := h.isVariable_iff
  have hargv := @TempCommand.head_argv_iff globals _ _ _ _ h htokens
  obtain ⟨more, hwords⟩ := h.words
  unfold Binds
  generalize cutText (commandText key value word rest) = text at *
  by_cases hfits : FitsArrays globals text
  · rw [if_pos hfits] at hparse
    have hruns : ∀ (c : Cmd), parseAlone globals previous (commandText key value word rest) =
        .ok c → (RunsWith globals c key value word ↔
          ((wordsOf text).filterMap (assignment key)).getLast?.or (globals.getenv key) =
            some value ∧ minus ∉ value) := by
      intro c hc
      rw [← hargv]
      apply runsWith_iff htokens
      rw [← Except.ok.inj (hparse.symm.trans hc)]
      split
      · exact .inr ⟨_, rfl⟩
      · exact .inl rfl
    rw [and_iff_right hfits]
    constructor
    · rintro ⟨c, hc, hc'⟩
      obtain ⟨hvalue, hminus⟩ := (hruns c hc).mp hc'
      have hassign : assignment key (key ++ equals :: value) = some value := by
        obtain ⟨hk, hv⟩ := @pair_append key value (h.key_chars _ (by simp))
        rw [assignment, hk, hv, if_pos ⟨hpair.mpr hminus, rfl⟩]
      have hsome : ((wordsOf text).filterMap (assignment key)).getLast? ≠ none := by
        rw [hwords, List.filterMap_cons_some hassign, List.getLast?_cons]
        exact Option.some_ne_none _
      obtain ⟨v, hv⟩ := Option.ne_none_iff_exists'.mp hsome
      rw [hv] at hvalue
      exact ⟨hminus, hv.trans hvalue⟩
    · rintro ⟨hminus, hlast⟩
      refine ⟨_, hparse, (hruns _ hparse).mpr ⟨?_, hminus⟩⟩
      rw [hlast]
      rfl
  · refine iff_of_false ?_ fun hbinds ↦ hfits hbinds.2.1
    rintro ⟨c, hc, -⟩
    rw [hparse, if_neg hfits] at hc
    cases hc

/-- The command `A=b env`. -/
theorem temporary_variable_env :
    TempCommand [65] [98] [101, 110, 118] [] ∧
      ∃ c, parseAlone .fresh none (commandText [65] [98] [101, 110, 118] []) = .ok c ∧
        RunsWith .fresh c [65] [98] [101, 110, 118] := by
  have h : TempCommand [65] [98] [101, 110, 118] [] :=
    ⟨by decide, by decide +kernel, by decide +kernel, by decide, by decide +kernel,
      by decide +kernel, .inl rfl, by decide +kernel, by decide +kernel⟩
  refine ⟨h, (temporary_variable_iff .fresh Globals.fresh_wellTyped none h).mpr ?_⟩
  exact ⟨by decide, by decide +kernel, by decide +kernel⟩

/-- In `A=a-b env` the pair is taken for the program. -/
theorem minus_hides_the_pair :
    TempCommand [65] [97, minus, 98] [101, 110, 118] [] ∧
      ¬∃ c, parseAlone .fresh none (commandText [65] [97, minus, 98] [101, 110, 118] []) = .ok c ∧
        RunsWith .fresh c [65] [97, minus, 98] [101, 110, 118] := by
  have h : TempCommand [65] [97, minus, 98] [101, 110, 118] [] :=
    ⟨by decide, by decide +kernel, by decide +kernel, by decide, by decide +kernel,
      by decide +kernel, .inl rfl, by decide +kernel, by decide +kernel⟩
  refine ⟨h, ?_⟩
  rintro ⟨c, hc, hruns⟩
  have hparse : parseAlone .fresh none (commandText [65] [97, minus, 98] [101, 110, 118] []) =
      .ok (.exec (commandOf .fresh (commandText [65] [97, minus, 98] [101, 110, 118] []))) := by
    decide +kernel
  obtain rfl := Except.ok.inj (hparse.symm.trans hc)
  have htokens : ∀ w ∈ wordsOf (commandText [65] [97, minus, 98] [101, 110, 118] []),
      IsToken w := fun w hw ↦ isToken_of_mem_wordsOf h.noEnd h.short hw
  obtain ⟨-, arg, harg, hstring⟩ := (runsWith_iff htokens (.inl rfl)).mp hruns
  have hfirst : (commandOf .fresh
      (commandText [65] [97, minus, 98] [101, 110, 118] [])).argv.head?.map cString =
        some (.ok [65, equals, 97, minus, 98]) := by
    decide +kernel
  rw [harg, Option.map_some, hstring, Option.some_inj] at hfirst
  exact absurd (Except.ok.inj hfirst) (by decide)

end SistemasOperativos.Shell
