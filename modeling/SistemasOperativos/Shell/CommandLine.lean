import Mathlib.Data.List.Basic
import SistemasOperativos.Library.Inversion
import SistemasOperativos.Shell.Parsing

/-!
# From a command line to a chain of commands

What `parse_line` makes of the segments of a line, each parsed on its own. The buffer is followed
through the terminators that the parser writes into it: what lies before the segment being parsed
matters only through the character right before it.
-/

namespace SistemasOperativos.Shell

open Library

/-- A segment of a command line: it has no bar, and something else than spaces. -/
structure IsSegment (s : Str) : Prop where
  noEnd : ∀ c ∈ s, c ≠ endString
  noBar : ∀ c ∈ s, c ≠ bar
  visible : ∃ c ∈ s, c ≠ space

/-- The line made of some segments. -/
def lineOf (segments : List Str) : Str := List.intercalate [bar] segments

/-- The buffer of `read_line` when it holds a line. -/
def lineBuffer (line : Str) : Block := line ++ List.replicate (buflen - line.length) endString

/-- A segment from its first character that is not a space. -/
def trimStart (s : Str) : Str := s.dropWhile (· = space)

/-- The right-nested chain of pipes. -/
def chain : List Cmd → Cmd
  | [] => .null
  | [c] => c
  | c :: c' :: cs => .pipe c (chain (c' :: cs))

/-- The line is left in the buffer, with zeros after it. -/
theorem readLine_eq {line : Str} (hline : ∀ c ∈ line, c ≠ endLine) (hlen : line.length < buflen)
    (rest : List UInt8) :
    readLine (line ++ endLine :: rest) = .ok (some (lineBuffer line), rest) := by
  have hfill : ∀ (l before : Str) (k : ℕ), (∀ c ∈ l, c ≠ endLine) → l.length < k →
      before.length + k = buflen →
      fillBuffer before.length (before ++ List.replicate k endString) (l ++ endLine :: rest) =
        .ok (some (before ++ l ++ List.replicate (k - l.length) endString), rest) := by
    intro l
    induction l with
    | nil =>
      intro before k _ hk hbuf
      obtain ⟨k, rfl⟩ : ∃ j, k = j + 1 := ⟨k - 1, by have := hk; simp at this; omega⟩
      rw [List.nil_append, fillBuffer, if_neg (by omega), if_pos rfl, List.replicate_succ,
        List.set_append_right _ _ (Nat.le_refl _), Nat.sub_self, List.set_cons_zero,
        List.append_nil, List.length_nil, Nat.sub_zero, List.replicate_succ]
    | cons c l ih =>
      intro before k hl hk hbuf
      obtain ⟨k, rfl⟩ : ∃ j, k = j + 1 := ⟨k - 1, by have := hk; simp at this; omega⟩
      have hc : c ≠ endLine := hl c List.mem_cons_self
      rw [List.cons_append, fillBuffer, if_neg (by omega), if_neg hc, List.replicate_succ,
        List.set_append_right _ _ (Nat.le_refl _), Nat.sub_self, List.set_cons_zero]
      have hnext := ih (before ++ [c]) k (fun x hx ↦ hl x (List.mem_cons_of_mem c hx))
        (Nat.lt_of_succ_lt_succ hk) (by simp; omega)
      simpa using hnext
  exact hfill line [] buflen hline hlen (Nat.zero_add _)

/-! ## Moving along the buffer -/

section Buffer

variable {s : Str} {pre rest : Block}

theorem cString_append (hs : ∀ c ∈ s, c ≠ endString) : cString (s ++ endString :: rest) = .ok s := by
  induction s with
  | nil => rfl
  | cons c s ih =>
    have hc : c ≠ endString := hs c List.mem_cons_self
    rw [List.cons_append, cString, if_neg hc, ih fun x hx ↦ hs x (List.mem_cons_of_mem c hx)]
    rfl

theorem splitterIndex_append {splitter b : UInt8} (hs : ∀ c ∈ s, c ≠ splitter ∧ c ≠ endString)
    (hb : b = splitter ∨ b = endString) : splitterIndex splitter (s ++ b :: rest) = .ok s.length := by
  induction s with
  | nil =>
    have hb : ¬ (b ≠ splitter ∧ b ≠ endString) := fun h ↦ hb.elim h.1 h.2
    rw [List.nil_append, splitterIndex, if_neg hb]
    rfl
  | cons c s ih =>
    rw [List.cons_append, splitterIndex, if_pos (hs c List.mem_cons_self),
      ih fun x hx ↦ hs x (List.mem_cons_of_mem c hx)]
    rfl

theorem skipSpaces_append {spaces : Str} {c : UInt8} (hspaces : ∀ x ∈ spaces, x = space)
    (hc : c ≠ space) : skipSpaces (spaces ++ c :: rest) = .ok spaces.length := by
  induction spaces with
  | nil => rw [List.nil_append, skipSpaces, if_neg hc, List.length_nil]
  | cons x spaces ih =>
    rw [List.cons_append, skipSpaces, if_pos (hspaces x List.mem_cons_self),
      ih fun y hy ↦ hspaces y (List.mem_cons_of_mem x hy)]
    rfl

/-- A split at the splitter, or at the end of the line. -/
theorem splitLine_append {spaces : Str} {splitter b c : UInt8}
    (hs : ∀ x ∈ s, x ≠ splitter ∧ x ≠ endString) (hb : b = splitter ∨ b = endString)
    (hspaces : ∀ x ∈ spaces, x = space) (hc : c ≠ space) :
    splitLine (pre ++ s ++ b :: (spaces ++ c :: rest)) pre.length splitter =
      .ok (pre ++ s ++ endString :: (spaces ++ c :: rest),
        (pre ++ s ++ endString :: spaces).length) := by
  have hdrop : (pre ++ s ++ b :: (spaces ++ c :: rest)).drop pre.length =
      s ++ b :: (spaces ++ c :: rest) := by
    rw [List.append_assoc, List.drop_left]
  have hset : (pre ++ s ++ b :: (spaces ++ c :: rest)).set (pre.length + s.length) endString =
      pre ++ s ++ endString :: (spaces ++ c :: rest) := by
    rw [← List.length_append, List.set_append_right _ _ (Nat.le_refl _), Nat.sub_self,
      List.set_cons_zero]
  have hskip : (pre ++ s ++ endString :: (spaces ++ c :: rest)).drop
      (pre.length + s.length + 1) = spaces ++ c :: rest := by
    rw [← List.length_append, List.drop_length_add_append]
    rfl
  have hlength : pre.length + s.length + 1 + spaces.length =
      (pre ++ s ++ endString :: spaces).length := by
    simp only [List.length_append, List.length_cons]
    omega
  rw [splitLine, hdrop, splitterIndex_append hs hb]
  change (skipSpaces (((pre ++ s ++ b :: (spaces ++ c :: rest)).set (pre.length + s.length)
    endString).drop (pre.length + s.length + 1)) >>= _) = _
  rw [hset, hskip, skipSpaces_append hspaces hc, ← hlength]
  rfl

theorem readBefore_append {i : ℕ} (hi : i ≤ s.length) :
    readBefore (pre ++ s ++ rest) (pre.length + i) =
      readBefore (pre.getLast?.toList ++ s) (pre.getLast?.toList.length + i) := by
  have hread : ∀ {t : Block} {j : ℕ}, j < t.length →
      Block.read (t ++ rest) j = Block.read t j := by
    intro t j hj
    rw [Block.read, Block.read, List.getElem?_append_left hj]
  obtain rfl | ⟨init, p, rfl⟩ := List.eq_nil_or_concat' pre
  · rw [List.getLast?_nil, Option.toList_none, List.length_nil, Nat.zero_add, List.nil_append]
    cases i with
    | zero => rfl
    | succ i => rw [readBefore, hread hi, readBefore]
  · have hlen : (init ++ [p]).length + i = init.length + i + 1 := by
      rw [List.length_append, List.length_singleton]
      omega
    have hlast : ([p] ++ s).length = s.length + 1 := by
      rw [List.length_append, List.length_singleton, Nat.add_comm]
    rw [hlen, List.getLast?_concat, Option.toList_some, List.length_singleton, Nat.add_comm 1 i,
      readBefore, readBefore, List.append_assoc, List.append_assoc, Block.read,
      List.getElem?_append_right (Nat.le_add_right _ _), Nat.add_sub_cancel_left, ← Block.read,
      ← List.append_assoc, hread (by omega)]

end Buffer

/-! ## One segment on its own -/

variable (globals : Globals)

/-- `parse_cmd` as a function of its string and of the character before it. It also gives what the
string becomes. -/
def parseString (previous : Option UInt8) (s : Str) : Except Fault (Str × Cmd) := do
  if s.length = 0 then return (s, .null)
  match blockContains s ampersand with
  | some i =>
    if (← readBefore (previous.toList ++ s) (previous.toList.length + i)) ≠ greaterThan then
      return (s.set i endString, backCmdCreate (← parseExec globals (s.take i)))
    else
      return (s, .exec (← parseExec globals s))
  | none => return (s, .exec (← parseExec globals s))

/-- The result of `parse_cmd` on a string alone in its block, after the character `previous`. -/
def parseAlone (previous : Option UInt8) (s : Str) : Except Fault Cmd :=
  Prod.snd <$> parseCmd globals (previous.toList ++ s ++ [endString]) previous.toList.length

variable {globals} {s : Str}

theorem blockContains_append {c : UInt8} {i : ℕ} {rest : Block} (h : blockContains s c = some i) :
    blockContains (s ++ rest) c = some i ∧ i < s.length := by
  have hi := (List.findIdx?_eq_some_iff_getElem.mp h).1
  refine ⟨?_, hi⟩
  rw [blockContains, List.findIdx?_append, ← blockContains, h]
  rfl

theorem parseBack_append {pre rest : Block} {i : ℕ} (hs : ∀ c ∈ s, c ≠ endString)
    (h : blockContains s ampersand = some i) :
    parseBack globals (pre ++ s ++ endString :: rest) pre.length =
      (fun e ↦ (pre ++ s.set i endString ++ endString :: rest, backCmdCreate e)) <$>
        parseExec globals (s.take i) := by
  obtain ⟨hfind, hi⟩ := @blockContains_append s ampersand i (endString :: rest) h
  have hset : (pre ++ s ++ endString :: rest).set (pre.length + i) endString =
      pre ++ s.set i endString ++ endString :: rest := by
    rw [List.append_assoc, List.set_append_right _ _ (Nat.le_add_right _ _),
      Nat.add_sub_cancel_left, List.set_append_left _ _ hi, List.append_assoc]
  have hdrop : (pre ++ s.set i endString ++ endString :: rest).drop pre.length =
      s.take i ++ endString :: (s.drop (i + 1) ++ endString :: rest) := by
    rw [List.append_assoc, List.drop_left, List.set_eq_take_append_cons_drop, if_pos hi,
      List.append_assoc, List.cons_append]
  have hstring : cString ((pre ++ s.set i endString ++ endString :: rest).drop pre.length) =
      .ok (s.take i) := by
    rw [hdrop]
    exact cString_append fun c hc ↦ hs c (List.mem_of_mem_take hc)
  rw [parseBack, List.append_assoc, List.drop_left, hfind, ← List.append_assoc]
  simp only [hset, hstring, bind, Except.bind]
  cases parseExec globals (s.take i) <;> rfl

/-- In the middle of the buffer `parse_cmd` touches its string alone. -/
theorem parseCmd_append {pre rest : Block} (hs : ∀ c ∈ s, c ≠ endString) :
    parseCmd globals (pre ++ s ++ endString :: rest) pre.length =
      (fun r ↦ (pre ++ r.1 ++ endString :: rest, r.2)) <$> parseString globals pre.getLast? s := by
  have hstring : cString ((pre ++ s ++ endString :: rest).drop pre.length) = .ok s := by
    rw [List.append_assoc, List.drop_left, cString_append hs]
  rw [parseCmd, parseString, hstring]
  simp only [bind, Except.bind]
  by_cases hempty : s.length = 0
  · rw [if_pos hempty, if_pos hempty]
    rfl
  rw [if_neg hempty, if_neg hempty]
  cases h : blockContains s ampersand with
  | none => cases parseExec globals s <;> rfl
  | some i =>
    have hi := (@blockContains_append s ampersand i [] h).2
    simp only [readBefore_append (Nat.le_of_lt hi), parseBack_append hs h]
    cases readBefore (pre.getLast?.toList ++ s) (pre.getLast?.toList.length + i) with
    | error e => rfl
    | ok c =>
      by_cases hc : c ≠ greaterThan
      · simp only [if_pos hc]
        cases parseExec globals (s.take i) <;> rfl
      · simp only [if_neg hc]
        cases parseExec globals s <;> rfl

theorem parseAlone_eq (hs : ∀ c ∈ s, c ≠ endString) (previous : Option UInt8) :
    parseAlone globals previous s = Prod.snd <$> parseString globals previous s := by
  have hlast : previous.toList.getLast? = previous := by cases previous <;> rfl
  rw [parseAlone, parseCmd_append hs, hlast]
  cases parseString globals previous s <;> rfl

/-- The character before a string matters only when it is missing or `'>'`. -/
theorem parseString_previous {p q : UInt8} (hp : p ≠ greaterThan) (hq : q ≠ greaterThan) :
    parseString globals (some p) s = parseString globals (some q) s := by
  rw [parseString, parseString]
  cases h : blockContains s ampersand with
  | none => rfl
  | some i =>
    cases i with
    | zero =>
      have hread : ∀ c : UInt8, readBefore ((some c).toList ++ s) ((some c).toList.length + 0) =
          .ok c := fun c ↦ rfl
      simp only [hread, bind, Except.bind, if_pos hp, if_pos hq]
    | succ i =>
      have hread : ∀ c : UInt8, readBefore ((some c).toList ++ s)
          ((some c).toList.length + (i + 1)) = Block.read s i := by
        intro c
        rw [Option.toList_some, List.length_singleton, Nat.add_comm 1, readBefore]
        rfl
      simp only [hread]

theorem parseString_ok {previous : Option UInt8} {r : Str × Cmd} (hne : s ≠ [])
    (h : parseString globals previous s = .ok r) : r.1.length = s.length ∧ r.2 ≠ .null := by
  have hlen : s.length ≠ 0 := fun h ↦ hne (List.length_eq_zero_iff.mp h)
  rw [parseString, if_neg hlen] at h
  cases hfind : blockContains s ampersand with
  | none =>
    simp only [hfind, Except.bind_ok, Except.pure_ok] at h
    obtain ⟨e, -, rfl⟩ := h
    exact ⟨rfl, nofun⟩
  | some i =>
    simp only [hfind, Except.bind_ok] at h
    obtain ⟨c, -, h⟩ := h
    by_cases hc : c ≠ greaterThan
    · rw [if_pos hc] at h
      simp only [Except.bind_ok, Except.pure_ok] at h
      obtain ⟨e, -, rfl⟩ := h
      exact ⟨List.length_set, nofun⟩
    · rw [if_neg hc] at h
      simp only [Except.bind_ok, Except.pure_ok] at h
      obtain ⟨e, -, rfl⟩ := h
      exact ⟨rfl, nofun⟩

/-! ## The segments of a line -/

theorem IsSegment.ne_nil (h : IsSegment s) : s ≠ [] := by
  obtain ⟨c, hc, -⟩ := h.visible
  exact List.ne_nil_of_mem hc

theorem IsSegment.clean (h : IsSegment s) : ∀ c ∈ s, c ≠ bar ∧ c ≠ endString :=
  fun c hc ↦ ⟨h.noBar c hc, h.noEnd c hc⟩

/-- A segment is some spaces and what `trimStart` leaves, which begins with another character. -/
theorem IsSegment.eq_append (h : IsSegment s) :
    ∃ spaces c t, s = spaces ++ c :: t ∧ (∀ x ∈ spaces, x = space) ∧ c ≠ space ∧
      trimStart s = c :: t := by
  have hvisible := h.visible
  clear h
  induction s with
  | nil =>
    obtain ⟨c, hc, -⟩ := hvisible
    cases hc
  | cons x s ih =>
    by_cases hx : x = space
    · obtain ⟨c, hc, hne⟩ := hvisible
      obtain rfl | hc := List.mem_cons.mp hc
      · exact absurd hx hne
      obtain ⟨spaces, c, t, hs, hspaces, hne, htrim⟩ := ih ⟨c, hc, hne⟩
      refine ⟨x :: spaces, c, t, by rw [hs, List.cons_append], fun y hy ↦ ?_, hne, ?_⟩
      · obtain rfl | hy := List.mem_cons.mp hy
        · exact hx
        · exact hspaces y hy
      · rw [← htrim, hx]
        rfl
    · exact ⟨[], x, s, rfl, nofun, hx,
        List.dropWhile_cons_of_neg (by rw [decide_eq_true_eq]; exact hx)⟩

theorem IsSegment.trimStart (h : IsSegment s) : IsSegment (trimStart s) := by
  obtain ⟨spaces, c, t, hs, -, hc, htrim⟩ := h.eq_append
  have hsub : ∀ x ∈ Shell.trimStart s, x ∈ s := by
    rw [htrim, hs]
    exact fun x hx ↦ List.mem_append_right spaces hx
  refine ⟨fun x hx ↦ h.noEnd x (hsub x hx), fun x hx ↦ h.noBar x (hsub x hx), c, ?_, hc⟩
  rw [htrim]
  exact List.mem_cons_self

theorem chain_ne_null {c : Cmd} {cs : List Cmd} (h : c ≠ .null) : chain (c :: cs) ≠ .null := by
  cases cs with
  | nil => exact h
  | cons c' cs => exact nofun

theorem pipeCmdCreate_chain {c c' : Cmd} {cs : List Cmd} (h : c' ≠ .null) :
    pipeCmdCreate c (chain (c' :: cs)) = chain (c :: c' :: cs) := by
  rw [pipeCmdCreate]
  · rfl
  · exact chain_ne_null h

section Call

variable {memory memory₁ memory₂ : Block} {buf right calls : ℕ} {l : Cmd}

/-- One call of `parse_line` whose left part is a command. -/
theorem parseLineFrom_step (hsplit : splitLine memory buf bar = .ok (memory₁, right))
    (hparse : parseCmd globals memory₁ buf = .ok (memory₂, l)) (hl : l ≠ .null) :
    parseLineFrom globals (calls + 1) memory buf =
      (fun r ↦ (r.1, pipeCmdCreate l r.2)) <$> parseLineFrom globals calls memory₂ right := by
  rw [parseLineFrom, hsplit]
  simp only [bind, Except.bind, hparse]
  cases l with
  | null => exact absurd rfl hl
  | _ => cases parseLineFrom globals calls memory₂ right <;> rfl

theorem parseLineFrom_error {e : Fault} (hsplit : splitLine memory buf bar = .ok (memory₁, right))
    (hparse : parseCmd globals memory₁ buf = .error e) :
    parseLineFrom globals (calls + 1) memory buf = .error e := by
  rw [parseLineFrom, hsplit]
  simp only [bind, Except.bind, hparse]

end Call

theorem parseCmd_empty (pre rest : Block) :
    parseCmd globals (pre ++ endString :: rest) pre.length =
      .ok (pre ++ endString :: rest, .null) := by
  have hparse := @parseCmd_append globals [] pre rest nofun
  rw [List.append_nil] at hparse
  rw [hparse, parseString, if_pos List.length_nil]
  change Except.ok (pre ++ [] ++ endString :: rest, Cmd.null) = _
  rw [List.append_nil]

/-- After the last segment there is nothing to parse. It takes two more zeros to find that out. -/
theorem parseLineFrom_end (pre rest : Block) (calls : ℕ) :
    parseLineFrom globals (calls + 1) (pre ++ endString :: endString :: rest) pre.length =
      .ok (pre ++ endString :: endString :: rest, .null) := by
  have hsplit := @splitLine_append [] pre rest [] bar endString endString nofun (.inr rfl) nofun
    (by decide)
  have hright := @parseCmd_empty globals (pre ++ [endString]) rest
  rw [List.append_assoc, List.singleton_append] at hright
  simp only [List.append_nil, List.nil_append] at hsplit
  rw [parseLineFrom, hsplit]
  simp only [bind, Except.bind, parseCmd_empty, hright]
  rfl

theorem lineOf_singleton (s : Str) : lineOf [s] = s := List.intercalate_singleton

theorem lineOf_cons_cons (s t : Str) (segments : List Str) :
    lineOf (s :: t :: segments) = s ++ bar :: lineOf (t :: segments) := by
  rw [lineOf, List.intercalate_cons_cons, List.append_assoc, List.singleton_append, ← lineOf]

/-- A line begins with the leading spaces of its first segment. -/
theorem IsSegment.lineOf_eq {t : Str} (h : IsSegment t) (segments : List Str) :
    ∃ spaces c after, lineOf (t :: segments) = spaces ++ c :: after ∧
      lineOf (Shell.trimStart t :: segments) = c :: after ∧ (∀ x ∈ spaces, x = space) ∧
      c ≠ space := by
  obtain ⟨spaces, c, u, ht, hspaces, hc, htrim⟩ := h.eq_append
  cases segments with
  | nil =>
    refine ⟨spaces, c, u, ?_, ?_, hspaces, hc⟩
    · rw [lineOf_singleton, ht]
    · rw [lineOf_singleton, htrim]
  | cons v segments =>
    refine ⟨spaces, c, u ++ bar :: lineOf (v :: segments), ?_, ?_, hspaces, hc⟩
    · rw [lineOf_cons_cons, ht, List.append_assoc, List.cons_append]
    · rw [lineOf_cons_cons, htrim, List.cons_append]

theorem length_lineOf (segments : List Str) {s : Str} (hs : IsSegment s)
    (h : ∀ t ∈ segments, IsSegment t) : segments.length < (lineOf (s :: segments)).length := by
  induction segments generalizing s with
  | nil =>
    rw [lineOf_singleton]
    exact List.length_pos_iff.mpr hs.ne_nil
  | cons t segments ih =>
    have hrest := ih (h t List.mem_cons_self) fun v hv ↦ h v (List.mem_cons_of_mem t hv)
    simp only [lineOf_cons_cons, List.length_append, List.length_cons]
    omega

/-- What stands right before the next segment is a terminator or a space. -/
theorem getLast?_spaces {spaces : Str} {pre : Block} (h : ∀ x ∈ spaces, x = space) :
    ∃ q, q ≠ greaterThan ∧ (pre ++ endString :: spaces).getLast? = some q := by
  obtain rfl | ⟨init, q, rfl⟩ := List.eq_nil_or_concat' spaces
  · exact ⟨endString, by decide, List.getLast?_concat⟩
  · refine ⟨q, ?_, ?_⟩
    · rw [h q (List.mem_append_right init List.mem_cons_self)]
      decide
    · rw [← List.cons_append, ← List.append_assoc, List.getLast?_concat]

/-- Parsing from a segment on: the segment itself is parsed where it stands, the others as if they
were alone. -/
theorem parseLineFrom_segments (segments : List Str) :
    ∀ (s : Str) (pre : Block) (k calls : ℕ), IsSegment s → (∀ t ∈ segments, IsSegment t) →
      segments.length < calls →
      Prod.snd <$> parseLineFrom globals (calls + 1)
          (pre ++ lineOf (s :: segments) ++ List.replicate (k + 3) endString) pre.length =
        chain <$> (do
          let c ← Prod.snd <$> parseString globals pre.getLast? s
          let cs ← segments.mapM fun t ↦ parseAlone globals (some endString) (trimStart t)
          return c :: cs) := by
  induction segments with
  | nil =>
    intro s pre k calls hs _ hcalls
    obtain ⟨calls, rfl⟩ : ∃ n, calls = n + 1 := ⟨calls - 1, (Nat.sub_add_cancel hcalls).symm⟩
    have hsplit := @splitLine_append s pre (List.replicate (k + 1) endString) [] bar endString
      endString hs.clean (.inr rfl) nofun (by decide)
    have hparse := @parseCmd_append globals s pre (List.replicate (k + 2) endString) hs.noEnd
    have hline := lineOf_singleton s
    rw [List.nil_append, ← List.replicate_succ, ← List.replicate_succ] at hsplit
    rw [← List.replicate_succ] at hparse
    rw [hline]
    cases hr : parseString globals pre.getLast? s with
    | error e =>
      rw [hr] at hparse
      rw [parseLineFrom_error hsplit hparse]
      rfl
    | ok r =>
      obtain ⟨hlen, hne⟩ := parseString_ok hs.ne_nil hr
      rw [hr] at hparse
      have hend := @parseLineFrom_end globals (pre ++ r.1 ++ [endString])
        (List.replicate k endString) calls
      have hright : (pre ++ r.1 ++ [endString]).length = (pre ++ s ++ [endString]).length := by
        simp only [List.length_append, hlen]
      rw [hright, List.append_assoc (pre ++ r.1), List.singleton_append] at hend
      rw [parseLineFrom_step hsplit hparse hne]
      simp only [List.replicate_succ, hend]
      rfl
  | cons t segments ih =>
    intro s pre k calls hs hsegments hcalls
    obtain ⟨calls, rfl⟩ : ∃ n, calls = n + 1 :=
      ⟨calls - 1, (Nat.sub_add_cancel (Nat.one_le_of_lt hcalls)).symm⟩
    have ht := hsegments t List.mem_cons_self
    obtain ⟨spaces, c, after, hafter, hafter', hspaces, hc⟩ := ht.lineOf_eq segments
    have hline : lineOf (s :: t :: segments) = s ++ bar :: (spaces ++ c :: after) := by
      rw [lineOf_cons_cons, hafter]
    have hsplit := @splitLine_append s pre (after ++ List.replicate (k + 3) endString) spaces bar bar
      c hs.clean (.inl rfl) hspaces hc
    have hparse := @parseCmd_append globals s pre (spaces ++ c :: (after ++
      List.replicate (k + 3) endString)) hs.noEnd
    have hmemory : pre ++ lineOf (s :: t :: segments) ++ List.replicate (k + 3) endString =
        pre ++ s ++ bar :: (spaces ++ c :: (after ++ List.replicate (k + 3) endString)) := by
      rw [hline]
      simp only [List.append_assoc, List.cons_append]
    rw [hmemory, List.mapM_cons]
    cases hr : parseString globals pre.getLast? s with
    | error e =>
      rw [hr] at hparse
      rw [parseLineFrom_error hsplit hparse]
      rfl
    | ok r =>
      obtain ⟨hlen, hne⟩ := parseString_ok hs.ne_nil hr
      rw [hr] at hparse
      have hrest := ih (trimStart t) (pre ++ r.1 ++ endString :: spaces) k calls ht.trimStart
        (fun v hv ↦ hsegments v (List.mem_cons_of_mem t hv)) (Nat.lt_of_succ_lt_succ hcalls)
      have hright : (pre ++ r.1 ++ endString :: spaces).length =
          (pre ++ s ++ endString :: spaces).length := by
        simp only [List.length_append, hlen]
      have hmemory' : pre ++ r.1 ++ endString :: spaces ++ lineOf (trimStart t :: segments) ++
          List.replicate (k + 3) endString =
          pre ++ r.1 ++ endString :: (spaces ++ c :: (after ++ List.replicate (k + 3) endString)) := by
        rw [hafter']
        simp only [List.append_assoc, List.cons_append]
      have hprevious : parseString globals (pre ++ r.1 ++ endString :: spaces).getLast?
          (trimStart t) = parseString globals (some endString) (trimStart t) := by
        obtain ⟨q, hq, hlast⟩ := @getLast?_spaces spaces (pre ++ r.1) hspaces
        rw [hlast]
        exact parseString_previous hq (by decide)
      rw [hright, hmemory', hprevious, ← parseAlone_eq ht.trimStart.noEnd] at hrest
      have hmap : Prod.snd <$> ((fun r' ↦ (r'.1, pipeCmdCreate r.2 r'.2)) <$>
          parseLineFrom globals (calls + 1)
            (pre ++ r.1 ++ endString :: (spaces ++ c :: (after ++ List.replicate (k + 3) endString)))
            (pre ++ s ++ endString :: spaces).length) =
          pipeCmdCreate r.2 <$> (Prod.snd <$> parseLineFrom globals (calls + 1)
            (pre ++ r.1 ++ endString :: (spaces ++ c :: (after ++ List.replicate (k + 3) endString)))
            (pre ++ s ++ endString :: spaces).length) := by
        rw [Functor.map_map, Functor.map_map]
      rw [parseLineFrom_step hsplit hparse hne, hmap, hrest]
      cases hc' : parseAlone globals (some endString) (trimStart t) with
      | error e => rfl
      | ok c' =>
        rw [parseAlone_eq ht.trimStart.noEnd] at hc'
        obtain ⟨r', hr', rfl⟩ := Library.Except.map_ok.mp hc'
        have hne' := (parseString_ok ht.trimStart.ne_nil hr').2
        cases segments.mapM fun t ↦ parseAlone globals (some endString) (trimStart t) with
        | error e => rfl
        | ok cs => exact congrArg Except.ok (pipeCmdCreate_chain hne')

/-- `parse_line` gives the right-nested chain of what `parse_cmd` makes of each segment, where the
segments after the first come without their leading spaces. It fails exactly where `parse_cmd` fails
on one of them. -/
theorem parseLine_chain (globals : Globals) {s : Str} {segments : List Str}
    (hsegments : ∀ t ∈ s :: segments, IsSegment t)
    (hlen : (lineOf (s :: segments)).length ≤ buflen - 3) :
    Prod.snd <$> parseLine globals (lineBuffer (lineOf (s :: segments))) 0 =
      chain <$> (do
        let c ← parseAlone globals none s
        let cs ← segments.mapM fun t ↦ parseAlone globals (some endString) (trimStart t)
        return c :: cs) := by
  have hs := hsegments s List.mem_cons_self
  have hbuflen : 3 ≤ buflen := by decide
  obtain ⟨k, hk⟩ : ∃ k, buflen - (lineOf (s :: segments)).length = k + 3 :=
    ⟨buflen - (lineOf (s :: segments)).length - 3, by omega⟩
  have hlength : (lineBuffer (lineOf (s :: segments))).length = buflen - 1 + 1 := by
    rw [lineBuffer, List.length_append, List.length_replicate]
    omega
  have hcount : segments.length < buflen - 1 := by
    have hbars := length_lineOf segments hs fun t ht ↦ hsegments t (List.mem_cons_of_mem s ht)
    omega
  have hparse := @parseLineFrom_segments globals segments s [] k (buflen - 1) hs
    (fun t ht ↦ hsegments t (List.mem_cons_of_mem s ht)) hcount
  rw [parseAlone_eq hs.noEnd, parseLine, hlength, lineBuffer, hk]
  exact hparse

/-- The line `a| b`. -/
theorem parseLine_chain_two :
    (∀ t ∈ [[97], [space, 98]], IsSegment t) ∧
    Prod.snd <$> parseLine ⟨0, fun _ ↦ none, fun _ ↦ 0⟩
        (lineBuffer (lineOf [[97], [space, 98]])) 0 =
      chain <$> (do
        let c ← parseAlone ⟨0, fun _ ↦ none, fun _ ↦ 0⟩ none [97]
        let cs ← [[space, 98]].mapM fun t ↦
          parseAlone ⟨0, fun _ ↦ none, fun _ ↦ 0⟩ (some endString) (trimStart t)
        return c :: cs) := by
  have hsegments : ∀ t ∈ [[97], [space, 98]], IsSegment t := by
    intro t ht
    obtain rfl | rfl : t = [97] ∨ t = [space, 98] := by simpa using ht
    · exact ⟨by decide +kernel, by decide +kernel, by decide⟩
    · exact ⟨by decide +kernel, by decide +kernel, by decide⟩
  exact ⟨hsegments, parseLine_chain _ hsegments (by decide)⟩

/-- The spaces that follow a bar do not reach the command to its right. -/
theorem leading_spaces_are_skipped :
    ∃ (globals : Globals) (s t : Str), IsSegment s ∧ IsSegment t ∧
      (lineOf [s, t]).length ≤ buflen - 3 ∧
      Prod.snd <$> parseLine globals (lineBuffer (lineOf [s, t])) 0 ≠
        chain <$> (do
          let c ← parseAlone globals none s
          let c' ← parseAlone globals (some endString) t
          return [c, c']) := by
  refine ⟨⟨0, fun _ ↦ none, fun _ ↦ 0⟩, [97], [space, 98],
    ⟨by decide +kernel, by decide +kernel, by decide⟩,
    ⟨by decide +kernel, by decide +kernel, by decide⟩, by decide, ?_⟩
  decide +kernel

end SistemasOperativos.Shell
