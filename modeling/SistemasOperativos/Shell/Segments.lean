import SistemasOperativos.Shell.Background

/-!
# Lines with empty segments

`parse_line` on every line. Between two bars there may be nothing but spaces; then what is left of
the line is handed to `parse_cmd` whole. The strings that `parse_cmd` is given, the zeros that the
parser needs after the line, and the tree that it returns are functions of the segments.
-/

namespace SistemasOperativos.Shell

open Library

variable (globals : Globals)

/-- `parse_line`, with the strings that it hands to `parse_cmd`. -/
def parseLineTraced : ℕ → Block → ℕ → Except Fault (List Str × Block × Cmd)
  | 0, _, _ => .error .outOfBounds
  | calls + 1, memory, buf => do
    let (memory, right) ← splitLine memory buf bar
    let s ← cString (memory.drop buf)
    let (memory, l) ← parseCmd globals memory buf
    match l with
    | .null => do
      let t ← cString (memory.drop right)
      let (memory, r) ← parseCmd globals memory right
      return ([s, t], memory, pipeCmdCreate .null r)
    | l => do
      let (strings, memory, r) ← parseLineTraced calls memory right
      return (s :: strings, memory, pipeCmdCreate l r)

/-! ## Functions of the segments -/

/-- The strings handed to `parse_cmd`, for a segment and those after it. -/
def handed (s : Str) : List Str → List Str
  | [] => if s = [] then [[], []] else [s, [], []]
  | t :: segments =>
    if s = [] then [[], trimStart (lineOf (t :: segments))] else s :: handed (trimStart t) segments

/-- How many zeros are read or written after the line. -/
def zerosNeeded (s : Str) : List Str → ℕ
  | [] => if s = [] then 2 else 3
  | t :: segments => if s = [] then 1 else zerosNeeded (trimStart t) segments

/-- What `parse_cmd` makes of a string that fits. -/
def cmdOf (s : Str) : Cmd :=
  if s = [] then .null
  else if (cutIndex s).isSome then backCmdCreate (commandOf globals (cutText s))
  else .exec (commandOf globals (cutText s))

/-- The tree of a segment and those after it. -/
def treeOf (s : Str) : List Str → Cmd
  | [] => cmdOf globals s
  | t :: segments =>
    if s = [] then pipeCmdCreate .null (cmdOf globals (trimStart (lineOf (t :: segments))))
    else pipeCmdCreate (cmdOf globals s) (treeOf (trimStart t) segments)

variable {globals} {s : Str}

/-- The trace does not change what is parsed. -/
theorem parseLineTraced_snd (calls : ℕ) (memory : Block) (buf : ℕ) :
    Prod.snd <$> parseLineTraced globals calls memory buf = parseLineFrom globals calls memory buf := by
  induction calls generalizing memory buf with
  | zero => rfl
  | succ calls ih =>
    rw [parseLineTraced, parseLineFrom]
    simp only [bind, Except.bind]
    cases splitLine memory buf bar with
    | error e => rfl
    | ok split =>
      obtain ⟨memory₁, right⟩ := split
      simp only
      cases hs : cString (memory₁.drop buf) with
      | error e =>
        rw [parseCmd, hs]
        rfl
      | ok s =>
        simp only
        cases parseCmd globals memory₁ buf with
        | error e => rfl
        | ok parsed =>
          obtain ⟨memory₂, l⟩ := parsed
          cases l with
          | null =>
            simp only
            cases ht : cString (memory₂.drop right) with
            | error e =>
              rw [parseCmd, ht]
              rfl
            | ok t =>
              simp only
              cases parseCmd globals memory₂ right <;> rfl
          | _ =>
            simp only [← ih memory₂ right]
            cases parseLineTraced globals calls memory₂ right <;> rfl

/-! ## One call -/

section Call

variable {memory memory₁ memory₂ : Block} {buf right calls : ℕ} {t : Str} {l : Cmd}

theorem traced_null (hsplit : splitLine memory buf bar = .ok (memory₁, right))
    (hs : cString (memory₁.drop buf) = .ok s)
    (hparse : parseCmd globals memory₁ buf = .ok (memory₂, .null))
    (ht : cString (memory₂.drop right) = .ok t) :
    parseLineTraced globals (calls + 1) memory buf =
      (fun r ↦ ([s, t], r.1, pipeCmdCreate .null r.2)) <$> parseCmd globals memory₂ right := by
  rw [parseLineTraced, hsplit]
  simp only [bind, Except.bind, hs, hparse, ht]
  cases parseCmd globals memory₂ right <;> rfl

theorem traced_step (hsplit : splitLine memory buf bar = .ok (memory₁, right))
    (hs : cString (memory₁.drop buf) = .ok s)
    (hparse : parseCmd globals memory₁ buf = .ok (memory₂, l)) (hl : l ≠ .null) :
    parseLineTraced globals (calls + 1) memory buf =
      (fun r ↦ (s :: r.1, r.2.1, pipeCmdCreate l r.2.2)) <$>
        parseLineTraced globals calls memory₂ right := by
  rw [parseLineTraced, hsplit]
  simp only [bind, Except.bind, hs, hparse]
  cases l with
  | null => exact absurd rfl hl
  | _ => cases parseLineTraced globals calls memory₂ right <;> rfl

theorem traced_error {e : Fault} (hsplit : splitLine memory buf bar = .ok (memory₁, right))
    (hs : cString (memory₁.drop buf) = .ok s) (hparse : parseCmd globals memory₁ buf = .error e) :
    parseLineTraced globals (calls + 1) memory buf = .error e := by
  rw [parseLineTraced, hsplit]
  simp only [bind, Except.bind, hs, hparse]

end Call

theorem cutText_nil : cutText [] = [] := rfl

theorem fitsArrays_nil : FitsArrays globals [] := ⟨Nat.succ_pos 19, Nat.zero_le maxargs⟩

theorem cmdOf_ne_null (h : s ≠ []) : cmdOf globals s ≠ .null := by
  rw [cmdOf, if_neg h]
  split <;> exact Cmd.noConfusion

section Parse

variable {previous : Option UInt8} {pre rest : Block}
  (hglobals : globals.WellTyped) (hs : ∀ c ∈ s, c ≠ endString) (hlen : s.length < buflen)
include hglobals hs hlen

/-- `parse_cmd` returns exactly where the words of its string fit. -/
theorem parseString_cmdOf
    (hbefore : s.head? = some ampersand → ∃ p, previous = some p ∧ p ≠ greaterThan) :
    (FitsArrays globals (cutText s) → ∃ s', s'.length = s.length ∧
      parseString globals previous s = .ok (s', cmdOf globals s)) ∧
    (¬FitsArrays globals (cutText s) →
      parseString globals previous s = .error .outOfBounds) := by
  by_cases hne : s = []
  · rw [hne]
    exact ⟨fun _ ↦ ⟨[], rfl, rfl⟩, fun h ↦ absurd fitsArrays_nil h⟩
  have hexec := parseExec_cutText hglobals hs hlen
  rw [parseString_eq hne hbefore, cmdOf, if_neg hne]
  cases hcut : cutIndex s with
  | none =>
    have htext : cutText s = s := by rw [cutText, hcut]
    rw [htext] at hexec ⊢
    refine ⟨fun hfits ↦ ⟨s, rfl, ?_⟩, fun hfits ↦ ?_⟩
    · simp only [hexec, if_pos hfits]
      rfl
    · simp only [hexec, if_neg hfits]
      rfl
  | some i =>
    have htext : cutText s = s.take i := by rw [cutText, hcut]
    rw [htext] at hexec ⊢
    refine ⟨fun hfits ↦ ⟨s.set i endString, List.length_set, ?_⟩, fun hfits ↦ ?_⟩
    · simp only [hexec, if_pos hfits]
      rfl
    · simp only [hexec, if_neg hfits]
      rfl

/-- The same in the middle of the buffer. -/
theorem parseCmd_cmdOf
    (hbefore : s.head? = some ampersand → ∃ p, pre.getLast? = some p ∧ p ≠ greaterThan) :
    (FitsArrays globals (cutText s) → ∃ s', s'.length = s.length ∧
      parseCmd globals (pre ++ s ++ endString :: rest) pre.length =
        .ok (pre ++ s' ++ endString :: rest, cmdOf globals s)) ∧
    (¬FitsArrays globals (cutText s) →
      parseCmd globals (pre ++ s ++ endString :: rest) pre.length = .error .outOfBounds) := by
  obtain ⟨hok, herror⟩ := parseString_cmdOf hglobals hs hlen hbefore
  rw [parseCmd_append hs]
  constructor
  · intro hfits
    obtain ⟨s', hlength, hparse⟩ := hok hfits
    refine ⟨s', hlength, ?_⟩
    rw [hparse]
    rfl
  · intro hfits
    rw [herror hfits]
    rfl

end Parse

/-! ## The end of the line -/

section End

variable {pre : Block} {k calls : ℕ}

theorem splitLine_end (hs : ∀ c ∈ s, c ≠ bar ∧ c ≠ endString) (hk : 2 ≤ k) :
    splitLine (pre ++ s ++ List.replicate k endString) pre.length bar =
      .ok (pre ++ s ++ List.replicate k endString, (pre ++ s ++ [endString]).length) := by
  obtain ⟨k, rfl⟩ := Nat.exists_eq_add_of_le' hk
  have hsplit := @splitLine_append s pre (List.replicate k endString) [] bar endString endString hs
    (.inr rfl) (List.forall_mem_nil _) (by decide)
  exact hsplit

theorem splitLine_short (hs : ∀ c ∈ s, c ≠ bar ∧ c ≠ endString) :
    splitLine (pre ++ s ++ [endString]) pre.length bar = .error .outOfBounds := by
  have hdrop : (pre ++ s ++ [endString]).drop pre.length = s ++ [endString] := by
    rw [List.append_assoc, List.drop_left]
  have hnone : ((pre ++ s ++ [endString]).set (pre.length + s.length) endString).drop
      (pre.length + s.length + 1) = [] := by
    rw [List.drop_eq_nil_iff]
    simp [Nat.add_assoc]
  rw [splitLine, hdrop, splitterIndex_append hs (.inr rfl)]
  change (skipSpaces (((pre ++ s ++ [endString]).set (pre.length + s.length) endString).drop
    (pre.length + s.length + 1)) >>= _) = _
  rw [hnone]
  rfl

/-- Behind the line there is nothing to parse, which takes two more zeros. -/
theorem traced_nil (hk : 2 ≤ k) :
    parseLineTraced globals (calls + 1) (pre ++ List.replicate k endString) pre.length =
      .ok ([[], []], pre ++ List.replicate k endString, .null) := by
  have hsplit := @splitLine_end [] pre k (List.forall_mem_nil _) hk
  obtain ⟨k, rfl⟩ := Nat.exists_eq_add_of_le' hk
  have hright := @parseCmd_empty globals (pre ++ [endString]) (List.replicate k endString)
  have hmemory : pre ++ [endString] ++ endString :: List.replicate k endString =
      pre ++ List.replicate (k + 2) endString := by
    rw [List.append_assoc, List.singleton_append, ← List.replicate_succ, ← List.replicate_succ]
  have hstring : ∀ n, cString (List.replicate (n + 1) endString) = .ok [] := fun n ↦ rfl
  have hfirst : cString ((pre ++ List.replicate (k + 2) endString).drop pre.length) = .ok [] := by
    rw [List.drop_left]
    exact hstring (k + 1)
  have hsecond : cString ((pre ++ List.replicate (k + 2) endString).drop
      (pre ++ [endString]).length) = .ok [] := by
    rw [← hmemory, List.drop_left]
    exact hstring k
  have hparse : parseCmd globals (pre ++ List.replicate (k + 2) endString) pre.length =
      .ok (pre ++ List.replicate (k + 2) endString, .null) :=
    parseCmd_empty pre (List.replicate (k + 1) endString)
  rw [List.append_nil] at hsplit
  rw [hmemory] at hright
  rw [traced_null hsplit hfirst hparse hsecond, hright]
  rfl

theorem traced_nil_short :
    parseLineTraced globals (calls + 1) (pre ++ [endString]) pre.length = .error .outOfBounds := by
  have hsplit := @splitLine_short [] pre (List.forall_mem_nil _)
  rw [List.append_nil] at hsplit
  rw [parseLineTraced, hsplit]
  rfl

end End

/-! ## Every line -/

theorem trimStart_spaces (s : Str) :
    ∃ spaces, s = spaces ++ trimStart s ∧ ∀ x ∈ spaces, x = space := by
  refine ⟨s.takeWhile (· = space), List.takeWhile_append_dropWhile.symm, fun x hx ↦ ?_⟩
  simpa using List.mem_takeWhile_imp hx

theorem head?_trimStart (s : Str) : (trimStart s).head? ≠ some space := by
  intro h
  have hhead := List.head?_dropWhile_not (fun x : UInt8 ↦ decide (x = space)) s
  rw [← trimStart, h] at hhead
  simp at hhead

/-- The characters of the first segment are in the line. -/
theorem mem_lineOf {c : UInt8} (hc : c ∈ s) (segments : List Str) : c ∈ lineOf (s :: segments) := by
  cases segments with
  | nil => rwa [lineOf_singleton]
  | cons t segments =>
    rw [lineOf_cons_cons]
    exact List.mem_append_left _ hc

/-- A line begins with its first segment, or with a bar. -/
theorem head?_lineOf_iff {c : UInt8} (hc : c ≠ bar) (s : Str) (segments : List Str) :
    (lineOf (s :: segments)).head? = some c ↔ s.head? = some c := by
  cases segments with
  | nil => rw [lineOf_singleton]
  | cons t segments =>
    rw [lineOf_cons_cons]
    cases s with
    | nil => exact iff_of_false (fun h ↦ hc (Option.some.inj h).symm) fun h ↦ by cases h
    | cons c' s => rfl

/-- The spaces at the beginning of a line are those of its first segment. -/
theorem trimStart_lineOf (t : Str) (segments : List Str) :
    trimStart (lineOf (t :: segments)) = lineOf (trimStart t :: segments) := by
  cases segments with
  | nil => rw [lineOf_singleton, lineOf_singleton]
  | cons u segments =>
    rw [lineOf_cons_cons, lineOf_cons_cons, trimStart, trimStart, List.dropWhile_append]
    split
    · rename_i h
      rw [List.isEmpty_iff.mp h, List.nil_append]
      exact List.dropWhile_cons_of_neg (by decide)
    · rfl

/-- A line in the buffer, after its leading spaces. -/
theorem lineOf_zeros (t : Str) (segments : List Str) {k : ℕ} (hk : 1 ≤ k) :
    ∃ c after, lineOf (trimStart t :: segments) ++ List.replicate k endString = c :: after ∧
      c ≠ space := by
  obtain ⟨k, rfl⟩ := Nat.exists_eq_add_of_le' hk
  have hhead := head?_trimStart (lineOf (t :: segments))
  rw [trimStart_lineOf] at hhead
  cases hline : lineOf (trimStart t :: segments) with
  | nil => exact ⟨endString, List.replicate k endString, rfl, by decide⟩
  | cons c u =>
    rw [hline] at hhead
    exact ⟨c, u ++ List.replicate (k + 1) endString, rfl, fun h ↦ hhead (by rw [h]; rfl)⟩

/-- What comes of one line in the buffer, with some zeros after it. -/
def LineOutcome (globals : Globals) (calls : ℕ) (pre : Block) (k : ℕ) (s : Str)
    (segments : List Str) : Prop :=
  (zerosNeeded s segments ≤ k ∧ (∀ t ∈ handed s segments, FitsArrays globals (cutText t)) →
    ∃ memory, parseLineTraced globals calls
      (pre ++ lineOf (s :: segments) ++ List.replicate k endString) pre.length =
        .ok (handed s segments, memory, treeOf globals s segments)) ∧
  (¬(zerosNeeded s segments ≤ k ∧ ∀ t ∈ handed s segments, FitsArrays globals (cutText t)) →
    parseLineTraced globals calls
      (pre ++ lineOf (s :: segments) ++ List.replicate k endString) pre.length =
        .error .outOfBounds)

theorem LineOutcome.of_ok {calls : ℕ} {pre : Block} {k : ℕ} {segments : List Str} {memory : Block}
    (hneeds : zerosNeeded s segments ≤ k)
    (hfits : ∀ t ∈ handed s segments, FitsArrays globals (cutText t))
    (h : parseLineTraced globals calls
      (pre ++ lineOf (s :: segments) ++ List.replicate k endString) pre.length =
        .ok (handed s segments, memory, treeOf globals s segments)) :
    LineOutcome globals calls pre k s segments :=
  ⟨fun _ ↦ ⟨memory, h⟩, fun hnot ↦ absurd ⟨hneeds, hfits⟩ hnot⟩

theorem LineOutcome.of_error {calls : ℕ} {pre : Block} {k : ℕ} {segments : List Str}
    (hnot : ¬(zerosNeeded s segments ≤ k ∧
      ∀ t ∈ handed s segments, FitsArrays globals (cutText t)))
    (h : parseLineTraced globals calls
      (pre ++ lineOf (s :: segments) ++ List.replicate k endString) pre.length =
        .error .outOfBounds) :
    LineOutcome globals calls pre k s segments :=
  ⟨fun hyes ↦ absurd hyes hnot, fun _ ↦ h⟩

section Line

variable (hglobals : globals.WellTyped) {pre : Block} {k calls : ℕ}
include hglobals

/-- The last segment. -/
theorem outcome_nil (hs : ∀ c ∈ s, c ≠ bar ∧ c ≠ endString) (hlen : s.length < buflen)
    (hbefore : s.head? = some ampersand → ∃ p, pre.getLast? = some p ∧ p ≠ greaterThan)
    (hk : 1 ≤ k) (hcalls : s ≠ [] → 1 ≤ calls) : LineOutcome globals (calls + 1) pre k s [] := by
  have hline := lineOf_singleton s
  by_cases hshort : k = 1
  · subst hshort
    apply LineOutcome.of_error
    · rintro ⟨hneeds, -⟩
      unfold zerosNeeded at hneeds
      split at hneeds <;> omega
    · have hsplit := @splitLine_short s pre hs
      rw [hline, List.replicate_one, parseLineTraced, hsplit]
      rfl
  obtain ⟨k, rfl⟩ := Nat.exists_eq_add_of_le' (show 2 ≤ k by omega)
  by_cases hne : s = []
  · subst hne
    have hnil := @traced_nil globals pre (k + 2) calls (Nat.le_add_left 2 k)
    apply LineOutcome.of_ok
    · exact Nat.le_add_left 2 k
    · intro t ht
      obtain rfl | rfl : t = [] ∨ t = [] := by simpa [handed] using ht
      all_goals exact fitsArrays_nil
    · rw [hline, List.append_nil, hnil]
      rfl
  obtain ⟨calls, rfl⟩ := Nat.exists_eq_add_of_le' (hcalls hne)
  have hsplit := @splitLine_end s pre (k + 2) hs (Nat.le_add_left 2 k)
  have hstring : cString ((pre ++ s ++ List.replicate (k + 2) endString).drop pre.length) =
      .ok s := by
    rw [List.append_assoc, List.drop_left]
    exact cString_append fun c hc ↦ (hs c hc).2
  have hhanded : handed s [] = [s, [], []] := if_neg hne
  have hzeros : zerosNeeded s [] = 3 := if_neg hne
  obtain ⟨hok, herror⟩ := @parseCmd_cmdOf globals s pre (List.replicate (k + 1) endString)
    hglobals (fun c hc ↦ (hs c hc).2) hlen hbefore
  rw [← List.replicate_succ] at hok herror
  by_cases hfits : FitsArrays globals (cutText s)
  · obtain ⟨s', hlength, hparse⟩ := hok hfits
    have hright : (pre ++ s' ++ [endString]).length = (pre ++ s ++ [endString]).length := by
      simp only [List.length_append, hlength]
    have hmemory : pre ++ s' ++ List.replicate (k + 2) endString =
        pre ++ s' ++ [endString] ++ List.replicate (k + 1) endString := by
      rw [List.append_assoc (pre ++ s'), List.singleton_append, ← List.replicate_succ]
    have hstep := @traced_step globals s _ _ _ _ _ (calls + 1) _ hsplit hstring hparse
      (cmdOf_ne_null hne)
    rw [hmemory, ← hright] at hstep
    by_cases hthree : k = 0
    · subst hthree
      apply LineOutcome.of_error
      · rw [hzeros]
        exact fun h ↦ absurd h.1 (by decide)
      · rw [hline, hstep, List.replicate_one, traced_nil_short]
        rfl
    · apply LineOutcome.of_ok
      · rw [hzeros]
        omega
      · intro t ht
        rw [hhanded] at ht
        obtain rfl | rfl | rfl : t = s ∨ t = [] ∨ t = [] := by simpa using ht
        · exact hfits
        all_goals exact fitsArrays_nil
      · rw [hline, hstep, traced_nil (by omega), hhanded]
        rfl
  · apply LineOutcome.of_error
    · rintro ⟨-, hall⟩
      rw [hhanded] at hall
      exact hfits (hall s List.mem_cons_self)
    · rw [hline, traced_error hsplit hstring (herror hfits)]

/-- A segment before a bar. -/
theorem outcome_cons {t : Str} {segments : List Str} (hs : ∀ c ∈ s, c ≠ bar ∧ c ≠ endString)
    (hclean : ∀ c ∈ lineOf (t :: segments), c ≠ endString)
    (hlen : (lineOf (s :: t :: segments)).length < buflen)
    (hbefore : s.head? = some ampersand → ∃ p, pre.getLast? = some p ∧ p ≠ greaterThan)
    (hk : 1 ≤ k)
    (ih : ∀ pre : Block, (∃ p, pre.getLast? = some p ∧ p ≠ greaterThan) →
      LineOutcome globals calls pre k (trimStart t) segments) :
    LineOutcome globals (calls + 1) pre k s (t :: segments) := by
  obtain ⟨spaces, hspaces, hblank⟩ := trimStart_spaces (lineOf (t :: segments))
  have htrim := trimStart_lineOf t segments
  obtain ⟨c, after, hafter, hc⟩ := lineOf_zeros t segments hk
  have hlengths : s.length < buflen ∧ (lineOf (trimStart t :: segments)).length < buflen := by
    rw [← htrim]
    rw [lineOf_cons_cons, hspaces] at hlen
    simp only [List.length_append, List.length_cons] at hlen
    omega
  have hrest : ∀ c ∈ lineOf (trimStart t :: segments), c ≠ endString := by
    rw [← htrim]
    intro c hc
    refine hclean c ?_
    rw [hspaces]
    exact List.mem_append_right _ hc
  have hmemory : pre ++ lineOf (s :: t :: segments) ++ List.replicate k endString =
      pre ++ s ++ bar :: (spaces ++ c :: after) := by
    rw [lineOf_cons_cons, hspaces, htrim, ← hafter]
    simp only [List.append_assoc, List.cons_append]
  have hsplit := @splitLine_append s pre after spaces bar bar c hs (.inl rfl) hblank hc
  have hstring : cString ((pre ++ s ++ endString :: (spaces ++ c :: after)).drop pre.length) =
      .ok s := by
    rw [List.append_assoc, List.drop_left]
    exact cString_append fun c hc ↦ (hs c hc).2
  rw [← hmemory] at hsplit
  obtain ⟨hok, herror⟩ := @parseCmd_cmdOf globals s pre (spaces ++ c :: after) hglobals
    (fun c hc ↦ (hs c hc).2) hlengths.1 hbefore
  -- the buffer from the next segment on, whatever the parser wrote into this one
  have hnext : ∀ s' : Str, pre ++ s' ++ endString :: (spaces ++ c :: after) =
      pre ++ s' ++ endString :: spaces ++ lineOf (trimStart t :: segments) ++
        List.replicate k endString := by
    intro s'
    rw [List.append_assoc (pre ++ s' ++ endString :: spaces), hafter]
    simp only [List.append_assoc, List.cons_append]
  by_cases hne : s = []
  · subst hne
    have hneeds : zerosNeeded [] (t :: segments) ≤ k := hk
    have hhanded : handed [] (t :: segments) = [[], lineOf (trimStart t :: segments)] := by
      rw [← htrim]
      rfl
    have hnull := @parseCmd_empty globals pre (spaces ++ c :: after)
    have hnext' := hnext []
    simp only [List.append_nil] at hnext' hsplit hstring
    obtain ⟨k, rfl⟩ := Nat.exists_eq_add_of_le' hk
    obtain ⟨q, hq, hlast⟩ := @getLast?_spaces spaces pre hblank
    obtain ⟨hok', herror'⟩ := @parseCmd_cmdOf globals (lineOf (trimStart t :: segments))
      (pre ++ endString :: spaces) (List.replicate k endString) hglobals hrest hlengths.2
      fun _ ↦ ⟨q, hlast, hq⟩
    rw [← List.replicate_succ, ← hnext'] at hok' herror'
    have hright : cString ((pre ++ endString :: (spaces ++ c :: after)).drop
        (pre ++ endString :: spaces).length) = .ok (lineOf (trimStart t :: segments)) := by
      rw [hnext', List.append_assoc, List.drop_left]
      exact cString_append hrest
    have hstep := @traced_null globals [] _ _ _ _ _ calls _ hsplit hstring hnull hright
    by_cases hfits : FitsArrays globals (cutText (lineOf (trimStart t :: segments)))
    · obtain ⟨s', -, hparse⟩ := hok' hfits
      apply LineOutcome.of_ok hneeds
      · intro u hu
        rw [hhanded] at hu
        obtain rfl | rfl : u = [] ∨ u = lineOf (trimStart t :: segments) := by simpa using hu
        · exact fitsArrays_nil
        · exact hfits
      · rw [hstep, hparse, hhanded, treeOf, if_pos rfl, htrim]
        rfl
    · apply LineOutcome.of_error
      · rintro ⟨-, hall⟩
        rw [hhanded] at hall
        exact hfits (hall _ (List.mem_cons_of_mem _ List.mem_cons_self))
      · rw [hstep, herror' hfits]
        rfl
  · have hneeds : zerosNeeded s (t :: segments) = zerosNeeded (trimStart t) segments := if_neg hne
    have hhanded : handed s (t :: segments) = s :: handed (trimStart t) segments := if_neg hne
    have htree : treeOf globals s (t :: segments) =
        pipeCmdCreate (cmdOf globals s) (treeOf globals (trimStart t) segments) := if_neg hne
    by_cases hfits : FitsArrays globals (cutText s)
    · obtain ⟨s', hlength, hparse⟩ := hok hfits
      have hright : (pre ++ s' ++ endString :: spaces).length =
          (pre ++ s ++ endString :: spaces).length := by
        simp only [List.length_append, hlength]
      obtain ⟨q, hq, hlast⟩ := @getLast?_spaces spaces (pre ++ s') hblank
      have hstep := @traced_step globals s _ _ _ _ _ calls _ hsplit hstring hparse
        (cmdOf_ne_null hne)
      rw [hnext s', ← hright] at hstep
      obtain ⟨htail, htail'⟩ := ih (pre ++ s' ++ endString :: spaces) ⟨q, hlast, hq⟩
      by_cases hgood : zerosNeeded (trimStart t) segments ≤ k ∧
          ∀ u ∈ handed (trimStart t) segments, FitsArrays globals (cutText u)
      · obtain ⟨memory, hparsed⟩ := htail hgood
        apply LineOutcome.of_ok (hneeds ▸ hgood.1)
        · intro u hu
          rw [hhanded] at hu
          obtain rfl | hu := List.mem_cons.mp hu
          · exact hfits
          · exact hgood.2 u hu
        · rw [hstep, hparsed, hhanded, htree]
          rfl
      · apply LineOutcome.of_error
        · rw [hneeds, hhanded]
          exact fun h ↦ hgood ⟨h.1, fun u hu ↦ h.2 u (List.mem_cons_of_mem s hu)⟩
        · rw [hstep, htail' hgood]
          rfl
    · apply LineOutcome.of_error
      · rintro ⟨-, hall⟩
        rw [hhanded] at hall
        exact hfits (hall s List.mem_cons_self)
      · rw [traced_error hsplit hstring (herror hfits)]

end Line

/-- The parser returns where there are enough zeros after the line, and the words of every string
that `parse_cmd` is given fit. -/
theorem parseLineTraced_outcome (hglobals : globals.WellTyped) (segments : List Str) :
    ∀ (s : Str) (pre : Block) (k calls : ℕ), (∀ t ∈ s :: segments, bar ∉ t) →
      (∀ c ∈ lineOf (s :: segments), c ≠ endString) → (lineOf (s :: segments)).length < buflen →
      (s.head? = some ampersand → ∃ p, pre.getLast? = some p ∧ p ≠ greaterThan) →
      1 ≤ k → (lineOf (s :: segments)).length < calls → LineOutcome globals calls pre k s segments := by
  induction segments with
  | nil =>
    intro s pre k calls hbars hclean hlen hbefore hk hcalls
    have hline := lineOf_singleton s
    rw [hline] at hclean hlen hcalls
    obtain ⟨calls, rfl⟩ := Nat.exists_eq_add_of_le' (Nat.zero_lt_of_lt hcalls)
    exact outcome_nil hglobals (fun c hc ↦ ⟨fun h ↦ hbars s List.mem_cons_self (h ▸ hc),
      hclean c hc⟩) hlen hbefore hk fun hne ↦
        (List.length_pos_iff.mpr hne).trans_le (Nat.le_of_lt_succ hcalls)
  | cons t segments ih =>
    intro s pre k calls hbars hclean hlen hbefore hk hcalls
    obtain ⟨calls, rfl⟩ := Nat.exists_eq_add_of_le' (Nat.zero_lt_of_lt hcalls)
    have hline := lineOf_cons_cons s t segments
    have hs : ∀ c ∈ s, c ≠ bar ∧ c ≠ endString := fun c hc ↦
      ⟨fun h ↦ hbars s List.mem_cons_self (h ▸ hc), hclean c (mem_lineOf hc (t :: segments))⟩
    have hclean' : ∀ c ∈ lineOf (t :: segments), c ≠ endString := fun c hc ↦
      hclean c (hline ▸ List.mem_append_right _ (List.mem_cons_of_mem _ hc))
    refine outcome_cons hglobals hs hclean' hlen hbefore hk fun pre' hbefore' ↦ ?_
    obtain ⟨spaces, hspaces, -⟩ := trimStart_spaces (lineOf (t :: segments))
    rw [trimStart_lineOf] at hspaces
    refine ih (trimStart t) pre' k calls ?_ ?_ ?_ (fun _ ↦ hbefore') hk ?_
    · intro u hu
      obtain rfl | hu := List.mem_cons.mp hu
      · exact fun h ↦ hbars t (List.mem_cons_of_mem s List.mem_cons_self)
          ((List.dropWhile_suffix _).subset h)
      · exact hbars u (List.mem_cons_of_mem s (List.mem_cons_of_mem t hu))
    · exact fun c hc ↦ hclean' c (hspaces ▸ List.mem_append_right _ hc)
    · rw [hline, hspaces] at hlen
      simp only [List.length_append, List.length_cons] at hlen
      omega
    · rw [hline, hspaces] at hcalls
      simp only [List.length_append, List.length_cons] at hcalls
      omega

/-- A line that begins with a `'&'` makes the parser read before the buffer. -/
theorem traced_first {segments : List Str} {k calls : ℕ}
    (hs : ∀ c ∈ s, c ≠ bar ∧ c ≠ endString) (hfirst : s.head? = some ampersand) (hk : 1 ≤ k) :
    parseLineTraced globals (calls + 1) (lineOf (s :: segments) ++ List.replicate k endString) 0 =
      .error .outOfBounds := by
  have hclean : ∀ c ∈ s, c ≠ endString := fun c hc ↦ (hs c hc).2
  have hstring : ∀ rest : Block,
      cString (([] ++ s ++ endString :: rest).drop ([] : Block).length) = .ok s :=
    fun rest ↦ @cString_append s rest hclean
  have hparse : ∀ rest : Block,
      parseCmd globals ([] ++ s ++ endString :: rest) ([] : Block).length = .error .outOfBounds := by
    intro rest
    rw [parseCmd_append hclean, List.getLast?_nil, parseString_first hfirst]
    rfl
  cases segments with
  | nil =>
    have hline := lineOf_singleton s
    rw [hline]
    by_cases hshort : k = 1
    · have hsplit := @splitLine_short s [] hs
      rw [hshort, List.replicate_one, parseLineTraced]
      rw [List.nil_append] at hsplit
      rw [show (0 : ℕ) = ([] : Block).length from rfl, hsplit]
      rfl
    · obtain ⟨k, rfl⟩ := Nat.exists_eq_add_of_le' (show 2 ≤ k by omega)
      exact traced_error (@splitLine_end s [] (k + 2) hs (Nat.le_add_left 2 k))
        (hstring (List.replicate (k + 1) endString)) (hparse (List.replicate (k + 1) endString))
  | cons t segments =>
    obtain ⟨spaces, hspaces, hblank⟩ := trimStart_spaces (lineOf (t :: segments))
    obtain ⟨c, after, hafter, hc⟩ := lineOf_zeros t segments hk
    have hmemory : lineOf (s :: t :: segments) ++ List.replicate k endString =
        [] ++ s ++ bar :: (spaces ++ c :: after) := by
      rw [lineOf_cons_cons, hspaces, trimStart_lineOf, ← hafter]
      simp only [List.nil_append, List.append_assoc, List.cons_append]
    rw [hmemory]
    exact traced_error (@splitLine_append s [] after spaces bar bar c hs (.inl rfl) hblank hc)
      (hstring (spaces ++ c :: after)) (hparse (spaces ++ c :: after))

/-! ## The segments of a line -/

/-- The strings that `parse_cmd` is given for a line. -/
def handedOf (line : Str) : List Str :=
  match line.splitOn bar with
  | [] => []
  | s :: segments => handed s segments

/-- How many zeros the parser needs after a line. -/
def zerosAfter (line : Str) : ℕ :=
  match line.splitOn bar with
  | [] => 0
  | s :: segments => zerosNeeded s segments

variable (globals) in
/-- The tree of a line that fits. -/
def lineTree (line : Str) : Cmd :=
  match line.splitOn bar with
  | [] => .null
  | s :: segments => treeOf globals s segments

theorem bar_not_mem_segments {line s : Str} (h : s ∈ line.splitOn bar) : bar ∉ s := by
  induction line generalizing s with
  | nil =>
    rw [List.splitOn_nil, List.mem_singleton] at h
    rw [h]
    exact List.not_mem_nil
  | cons c line ih =>
    rw [List.splitOn_cons_eq_if_modifyHead] at h
    split at h
    · obtain rfl | h := List.mem_cons.mp h
      · exact List.not_mem_nil
      · exact ih h
    · rename_i hc
      obtain ⟨t, segments, hsplit⟩ := List.exists_cons_of_ne_nil (List.splitOn_ne_nil bar line)
      rw [hsplit, List.modifyHead_cons] at h
      obtain rfl | h := List.mem_cons.mp h
      · rw [List.mem_cons, not_or]
        exact ⟨fun heq ↦ hc (by rw [heq]; exact beq_self_eq_true c),
          ih (hsplit ▸ List.mem_cons_self)⟩
      · exact ih (hsplit ▸ List.mem_cons_of_mem t h)

/-- A line is made of its segments. -/
theorem exists_segments (line : Str) :
    ∃ s segments, line.splitOn bar = s :: segments ∧ lineOf (s :: segments) = line := by
  obtain ⟨s, segments, hsplit⟩ := List.exists_cons_of_ne_nil (List.splitOn_ne_nil bar line)
  refine ⟨s, segments, hsplit, ?_⟩
  rw [← hsplit]
  exact List.intercalate_splitOn bar

/-- `parse_line` on the buffer of a line. -/
theorem parseLineTraced_line (hglobals : globals.WellTyped) {line : Str}
    (hline : ∀ c ∈ line, c ≠ endString) (hlen : line.length < buflen) :
    (zerosAfter line ≤ buflen - line.length ∧ line.head? ≠ some ampersand ∧
        (∀ s ∈ handedOf line, FitsArrays globals (cutText s)) →
      ∃ memory, parseLineTraced globals (lineBuffer line).length (lineBuffer line) 0 =
        .ok (handedOf line, memory, lineTree globals line)) ∧
    (¬(zerosAfter line ≤ buflen - line.length ∧ line.head? ≠ some ampersand ∧
        ∀ s ∈ handedOf line, FitsArrays globals (cutText s)) →
      parseLineTraced globals (lineBuffer line).length (lineBuffer line) 0 =
        .error .outOfBounds) := by
  obtain ⟨s, segments, hsplit, hjoin⟩ := exists_segments line
  have hbars : ∀ t ∈ s :: segments, bar ∉ t := fun t ht ↦ bar_not_mem_segments (hsplit ▸ ht)
  have hhead : line.head? = some ampersand ↔ s.head? = some ampersand := by
    rw [← hjoin]
    exact head?_lineOf_iff (by decide) s segments
  have hlength : (lineBuffer line).length = buflen := by
    rw [lineBuffer, List.length_append, List.length_replicate]
    exact Nat.add_sub_cancel' (Nat.le_of_lt hlen)
  have hzeros : 1 ≤ buflen - line.length := Nat.sub_pos_of_lt hlen
  rw [hlength, zerosAfter, handedOf, lineTree, hsplit, lineBuffer, ne_eq, hhead]
  by_cases hfirst : s.head? = some ampersand
  · have hs : ∀ c ∈ s, c ≠ bar ∧ c ≠ endString := by
      intro c hc
      refine ⟨fun h ↦ hbars s List.mem_cons_self (h ▸ hc), hline c ?_⟩
      rw [← hjoin]
      exact mem_lineOf hc segments
    refine ⟨fun h ↦ absurd hfirst h.2.1, fun _ ↦ ?_⟩
    rw [← hjoin] at hzeros ⊢
    exact traced_first hs hfirst hzeros
  · have houtcome := parseLineTraced_outcome hglobals segments s [] (buflen - line.length) buflen
      hbars (hjoin ▸ hline) (hjoin ▸ hlen) (fun h ↦ absurd h hfirst) hzeros (hjoin ▸ hlen)
    rw [and_iff_right hfirst]
    rw [LineOutcome, hjoin] at houtcome
    exact houtcome

end SistemasOperativos.Shell
