import Mathlib.Data.List.TakeWhile
import Mathlib.Tactic.Common
import SistemasOperativos.Shell.CommandLine

/-!
# The words of a command

`parse_exec` word by word. The words of a command are what its spaces separate, and each one has an
effect of its own on the command: a redirection, a variable, an argument, or none. What the loop
builds is the fold of these effects, and it fits into the arrays of the command or the parser writes
outside them.
-/

namespace SistemasOperativos.Shell

open Library

attribute [ext] ExecCmd

/-- The parts of a string between its spaces that are not empty. -/
def wordsOf (s : Str) : List Str := (s.splitOn space).filter (· ≠ [])

/-- The block that `get_token` makes of a word. -/
def tokenBlock (w : Str) : Block := w ++ List.replicate (argsize - w.length) endString

/-- A string that fits into an array of `ARGSIZE` characters, with its terminator. -/
structure IsToken (w : Str) : Prop where
  noEnd : ∀ c ∈ w, c ≠ endString
  short : w.length < argsize

/-! ## Words -/

section Words

variable {s t w : Str}

@[simp] theorem wordsOf_nil : wordsOf [] = [] := rfl

theorem wordsOf_append (s t : Str) : wordsOf (s ++ space :: t) = wordsOf s ++ wordsOf t := by
  rw [wordsOf, List.splitOn_append_cons_self, List.filter_append]
  rfl

theorem wordsOf_of_not_mem (hspace : space ∉ w) : wordsOf w = if w = [] then [] else [w] := by
  rw [wordsOf, List.splitOn_eq_singleton hspace]
  by_cases hw : w = []
  · rw [if_pos hw, hw]
    rfl
  · rw [if_neg hw, List.filter_cons_of_pos (by simpa using hw), List.filter_nil]

/-- The first token of a string, which ends at a space or with the string. -/
theorem wordsOf_takeWhile (s : Str) :
    wordsOf s = (if s.takeWhile (· ≠ space) = [] then [] else [s.takeWhile (· ≠ space)]) ++
      wordsOf ((s.dropWhile (· ≠ space)).drop 1) := by
  have hspace : space ∉ s.takeWhile (· ≠ space) := by
    intro h
    simpa using List.mem_takeWhile_imp h
  have hs : s = s.takeWhile (· ≠ space) ++ s.dropWhile (· ≠ space) :=
    List.takeWhile_append_dropWhile.symm
  have hhead := List.head?_dropWhile_not (fun c : UInt8 ↦ decide (c ≠ space)) s
  rw [← wordsOf_of_not_mem hspace]
  generalize s.takeWhile (· ≠ space) = tok at *
  cases hrest : s.dropWhile (· ≠ space) with
  | nil => rw [hs, hrest, List.append_nil, List.drop_nil, wordsOf_nil, List.append_nil]
  | cons c rest =>
    have hc : c = space := by
      rw [hrest] at hhead
      simpa using hhead
    rw [hs, hrest, hc, List.drop_succ_cons, List.drop_zero, wordsOf_append]

theorem infix_intercalate {ws : List Str} (hw : w ∈ ws) : w <:+: [space].intercalate ws := by
  induction ws with
  | nil => cases hw
  | cons w' ws ih =>
    cases ws with
    | nil =>
      simp [List.mem_singleton.mp hw]
    | cons w'' ws =>
      rw [List.intercalate_cons_cons]
      obtain rfl | hmem := List.mem_cons.mp hw
      · rw [List.append_assoc]
        exact (List.prefix_append ..).isInfix
      · exact (ih hmem).trans (List.suffix_append ..).isInfix

theorem infix_of_mem_wordsOf (hw : w ∈ wordsOf s) : w <:+: s := by
  have hmem := infix_intercalate (List.mem_of_mem_filter hw)
  rwa [List.intercalate_splitOn] at hmem

theorem ne_nil_of_mem_wordsOf (hw : w ∈ wordsOf s) : w ≠ [] := by
  simpa using (List.mem_filter.mp hw).2

theorem isToken_of_mem_wordsOf (hs : ∀ c ∈ s, c ≠ endString) (hlen : s.length < buflen)
    (hw : w ∈ wordsOf s) : IsToken w where
  noEnd c hc := hs c ((infix_of_mem_wordsOf hw).subset hc)
  short := (infix_of_mem_wordsOf hw).length_le.trans_lt hlen

end Words

/-! ## Tokens -/

section Tokens

variable {w w' : Str}

theorem IsToken.tokenBlock_eq (hw : IsToken w) :
    tokenBlock w = w ++ endString :: List.replicate (argsize - w.length - 1) endString := by
  obtain ⟨n, hn⟩ : ∃ n, argsize - w.length = n + 1 :=
    Nat.exists_eq_add_of_lt (Nat.sub_pos_of_lt hw.short) |>.imp fun n h ↦ by rw [h, Nat.zero_add]
  rw [tokenBlock, hn, List.replicate_succ, Nat.add_sub_cancel]

theorem IsToken.length_tokenBlock (hw : IsToken w) : (tokenBlock w).length = argsize := by
  rw [tokenBlock, List.length_append, List.length_replicate]
  exact Nat.add_sub_cancel' (Nat.le_of_lt hw.short)

theorem IsToken.cString_tokenBlock (hw : IsToken w) : cString (tokenBlock w) = .ok w := by
  rw [hw.tokenBlock_eq]
  exact cString_append hw.noEnd

theorem tokenBlock_injective (hw : IsToken w) (hw' : IsToken w')
    (h : tokenBlock w = tokenBlock w') : w = w' := by
  have hstring := hw.cString_tokenBlock
  rw [h, hw'.cString_tokenBlock] at hstring
  exact (Except.ok.inj hstring).symm

theorem IsToken.getElem?_tokenBlock (hw : IsToken w) {i : ℕ} (hi : i < argsize) :
    (tokenBlock w)[i]? = some (w[i]?.getD endString) := by
  rw [tokenBlock, List.getElem?_append]
  split
  · rename_i h
    rw [List.getElem?_eq_getElem h]
    rfl
  · rename_i h
    rw [List.getElem?_replicate, if_pos (by have := hw.short; omega),
      List.getElem?_eq_none (Nat.le_of_not_lt h)]
    rfl

theorem IsToken.read_tokenBlock (hw : IsToken w) {i : ℕ} (hi : i < argsize) :
    (tokenBlock w).read i = .ok (w[i]?.getD endString) := by
  rw [Block.read, hw.getElem?_tokenBlock hi]

theorem IsToken.nil : IsToken [] := ⟨by simp, by decide⟩

end Tokens

/-! ## What a word expands to -/

/-- What C promises about the globals: `status` is an `int`, and the environment has C strings. -/
structure Globals.WellTyped (globals : Globals) : Prop where
  status : -2 ^ 31 ≤ globals.status ∧ globals.status < 2 ^ 31
  environ : ∀ key value, globals.getenv key = some value → ∀ c ∈ value, c ≠ endString

/-- Nothing has run, and no variable is set. -/
def Globals.fresh : Globals where
  status := 0
  getenv _ := none
  heap _ := 0

theorem Globals.fresh_wellTyped : Globals.fresh.WellTyped where
  status := by decide
  environ key value h := by cases h

variable (globals : Globals)

/-- The block that `expand_environ_var` makes of a word. -/
def expansion (w : Str) : Block :=
  if w.head? ≠ some dollar then tokenBlock w
  else if w[1]? = some question then
    decimal globals.status ++ [endString] ++
      (tokenBlock w).drop (decimal globals.status ++ [endString]).length
  else
    match globals.getenv (w.drop 1) with
    | none => endString :: (tokenBlock w).drop 1
    | some [] => endString :: (tokenBlock w).drop 1
    | some env => env ++ (if sizeofPointer < env.length then
        reallocArg globals (tokenBlock w) (env.length + 1) else tokenBlock w).drop env.length

variable {globals}

theorem length_decimal {n : ℤ} (h : -2 ^ 31 ≤ n ∧ n < 2 ^ 31) : (decimal n).length ≤ 11 := by
  have hdigits : ∀ m : ℕ, m ≤ 2 ^ 31 → (Nat.repr m).length ≤ 10 := fun m hm ↦
    (Nat.length_repr_le_iff (by decide)).mpr (by omega)
  rw [decimal, List.length_map, String.length_toList]
  cases n with
  | ofNat m =>
    have hm : (m : ℤ) < 2 ^ 31 := h.2
    change (Nat.repr m).length ≤ 11
    exact (hdigits m (by omega)).trans (by decide)
  | negSucc m =>
    change ("-" ++ Nat.repr (m + 1)).length ≤ 11
    rw [String.length_append]
    have := hdigits (m + 1) (by omega)
    exact Nat.add_le_add (Nat.le_refl 1) this

theorem expansion_ne_nil {w : Str} (hw : IsToken w) : expansion globals w ≠ [] := by
  have hblock : tokenBlock w ≠ [] := by
    rw [hw.tokenBlock_eq]
    exact List.append_ne_nil_of_right_ne_nil _ (List.cons_ne_nil _ _)
  unfold expansion
  split
  · exact hblock
  · split
    · simp
    · split
      · exact List.cons_ne_nil _ _
      · exact List.cons_ne_nil _ _
      · rename_i env hne _
        exact List.append_ne_nil_of_left_ne_nil hne _

theorem memcpy_eq {block source : Block} (h : source.length ≤ block.length) :
    memcpy block source = .ok (source ++ block.drop source.length) := if_pos h

theorem IsToken.drop {w : Str} (hw : IsToken w) {n : ℕ} (hn : n ≤ w.length) :
    cString ((tokenBlock w).drop n) = .ok (w.drop n) := by
  rw [hw.tokenBlock_eq, List.drop_append_of_le_length hn]
  exact cString_append fun c hc ↦ hw.noEnd c (List.mem_of_mem_drop hc)

theorem length_reallocArg (arg : Block) (n : ℕ) : (reallocArg globals arg n).length = n := by
  rw [reallocArg, List.length_map, List.length_range]

/-- The expansion never writes outside the block of its word. -/
theorem expandEnvironVar_eq (hglobals : globals.WellTyped) {w : Str} (hw : IsToken w) :
    expandEnvironVar globals (tokenBlock w) = .ok (expansion globals w) := by
  have hlength := hw.length_tokenBlock
  have hargsize : argsize = 1024 := rfl
  have hfirst : (tokenBlock w).read 0 = .ok (w[0]?.getD endString) := hw.read_tokenBlock (by decide)
  have hsecond : (tokenBlock w).read 1 = .ok (w[1]?.getD endString) := hw.read_tokenBlock (by decide)
  rw [expandEnvironVar, hfirst, hsecond]
  simp only [bind, Except.bind, pure, Except.pure]
  unfold expansion
  by_cases hdollar : w.head? = some dollar
  · rw [if_neg (not_not_intro hdollar)]
    have hhead : w[0]?.getD endString = dollar := by rw [← List.head?_eq_getElem?, hdollar]; rfl
    rw [if_neg (not_not_intro hhead)]
    by_cases hquestion : w[1]? = some question
    · have hshort := length_decimal hglobals.status
      rw [if_pos hquestion, hquestion, if_pos (show (some question).getD endString = question from rfl),
        memcpy_eq]
      rw [List.length_append, List.length_singleton, hlength]
      omega
    · have hnext : w[1]?.getD endString ≠ question := by
        cases hw1 : w[1]? with
        | none => decide
        | some c => exact fun h ↦ hquestion (by rw [hw1, ← h]; rfl)
      have hpos : 1 ≤ w.length := by
        cases w with
        | nil => cases hdollar
        | cons c w => exact Nat.le_add_left 1 _
      have hone : memcpy (tokenBlock w) [endString] =
          .ok (endString :: (tokenBlock w).drop 1) := by
        rw [memcpy_eq]
        · rfl
        · rw [hlength]
          decide
      rw [if_neg hquestion, if_neg hnext, hw.drop hpos]
      simp only
      cases globals.getenv (w.drop 1) with
      | none => exact hone
      | some env =>
        cases env with
        | nil => exact hone
        | cons c env =>
          refine memcpy_eq ?_
          split
          · rw [length_reallocArg]
            exact Nat.le_succ _
          · rename_i hsmall
            have hpointer : sizeofPointer = 8 := rfl
            rw [hlength]
            omega
  · have hhead : w[0]?.getD endString ≠ dollar := by
      rw [List.head?_eq_getElem?] at hdollar
      cases hw0 : w[0]? with
      | none => decide
      | some c => exact fun h ↦ hdollar (by rw [hw0, ← h]; rfl)
    rw [if_pos hdollar, if_pos hhead]

/-! ## What a word does -/

/-- The text that a word gives to `out_file`. -/
def outText (w : Str) : Option Str :=
  if blockContains w greaterThan = some 0 then some (w.drop 1) else none

/-- The text that a word gives to `err_file`. -/
def errText (w : Str) : Option Str :=
  if blockContains w greaterThan = some 1 then some (w.drop 2) else none

/-- The text that a word gives to `in_file`. -/
def inText (w : Str) : Option Str :=
  if greaterThan ∉ w ∧ lessThan ∈ w then some (w.drop 1) else none

/-- `parse_redir_flow` takes the word. -/
def Redirects (w : Str) : Prop := greaterThan ∈ w ∨ lessThan ∈ w

/-- `parse_environ_var` takes the word. -/
def IsVariable (w : Str) : Prop :=
  ¬Redirects w ∧ (blockContains w equals).any (0 < ·) = true ∧ minus ∉ w

instance (w : Str) : Decidable (Redirects w) := inferInstanceAs (Decidable (_ ∨ _))

instance (w : Str) : Decidable (IsVariable w) := inferInstanceAs (Decidable (_ ∧ _))

/-- The block that a word adds to `eargv`. -/
def variableOf (w : Str) : Option Block := if IsVariable w then some (tokenBlock w) else none

variable (globals)

/-- The block that a word adds to `argv`. -/
def argumentOf (w : Str) : Option Block :=
  if Redirects w ∨ IsVariable w ∨ (expansion globals w).head? = some endString then none
  else some (expansion globals w)

/-- The command after a word, when nothing is written outside its arrays. -/
def ExecCmd.store (c : ExecCmd) (w : Str) : ExecCmd where
  type := if Redirects w then .redir else c.type
  scmd := c.scmd
  argv := c.argv ++ (argumentOf globals w).toList
  eargv := c.eargv ++ (variableOf w).toList
  outFile := (outText w).getD c.outFile
  inFile := (inText w).getD c.inFile
  errFile := (errText w).getD c.errFile

variable {globals} {w : Str} {c : ExecCmd}

theorem blockContains_eq_none {b : UInt8} : blockContains w b = none ↔ b ∉ w := by
  rw [blockContains, List.findIdx?_eq_none_iff]
  constructor
  · intro h hmem
    simpa using h b hmem
  · intro h x hx
    simpa using ne_of_mem_of_not_mem hx h

theorem blockContains_isNone {b : UInt8} : (blockContains w b).isNone = true ↔ b ∉ w := by
  rw [Option.isNone_iff_eq_none, blockContains_eq_none]

theorem outText_of_not_mem (h : greaterThan ∉ w) : outText w = none := by
  rw [outText, blockContains_eq_none.mpr h]
  rfl

theorem errText_of_not_mem (h : greaterThan ∉ w) : errText w = none := by
  rw [errText, blockContains_eq_none.mpr h]
  rfl

theorem inText_of_not_mem (h : lessThan ∉ w) : inText w = none := if_neg fun hin ↦ h hin.2

theorem strcpy_eq {n : ℕ} {s : Str} (h : s.length < n) : strcpy n s = .ok s := if_pos h

theorem length_drop_lt (hw : IsToken w) (n : ℕ) : (w.drop n).length < fnamesize :=
  (List.drop_suffix n w).length_le.trans_lt hw.short

/-- `parse_redir_flow` on a word. -/
theorem parseRedirFlow_eq (hw : IsToken w) (c : ExecCmd) :
    parseRedirFlow c (tokenBlock w) =
      .ok (if Redirects w then ({ c with
          type := .redir
          outFile := (outText w).getD c.outFile
          inFile := (inText w).getD c.inFile
          errFile := (errText w).getD c.errFile }, true)
        else (c, false)) := by
  rw [parseRedirFlow, hw.cString_tokenBlock]
  simp only [bind, Except.bind, pure, Except.pure]
  cases hout : blockContains w greaterThan with
  | some i =>
    have hmem : greaterThan ∈ w := by
      by_contra hnot
      rw [blockContains_eq_none.mpr hnot] at hout
      cases hout
    have hin : inText w = none := if_neg fun h ↦ h.1 hmem
    rw [if_pos (.inl hmem), hin]
    cases i with
    | zero =>
      have htext : outText w = some (w.drop 1) := if_pos hout
      have herr : errText w = none := if_neg (by rw [hout]; decide)
      rw [htext, herr, strcpy_eq (length_drop_lt hw 1)]
      rfl
    | succ i =>
      have htext : outText w = none := if_neg (by rw [hout]; simp)
      rw [htext]
      cases i with
      | zero =>
        have herr : errText w = some (w.drop 2) := if_pos hout
        rw [herr, strcpy_eq (length_drop_lt hw 2)]
        rfl
      | succ i =>
        have herr : errText w = none := if_neg (by rw [hout]; simp)
        rw [herr]
        rfl
  | none =>
    have hmem := blockContains_eq_none.mp hout
    rw [outText_of_not_mem hmem, errText_of_not_mem hmem]
    cases hless : blockContains w lessThan with
    | some i =>
      have hmem' : lessThan ∈ w := by
        by_contra hnot
        rw [blockContains_eq_none.mpr hnot] at hless
        cases hless
      have hin : inText w = some (w.drop 1) := if_pos ⟨hmem, hmem'⟩
      rw [if_pos (.inr hmem'), hin, strcpy_eq (length_drop_lt hw 1)]
      rfl
    | none =>
      have hnot : ¬Redirects w := not_or_intro hmem (blockContains_eq_none.mp hless)
      rw [if_neg hnot]

/-- `parse_environ_var` on a word that no redirection takes. -/
theorem parseEnvironVar_eq (hw : IsToken w) (hredirects : ¬Redirects w) (c : ExecCmd) :
    parseEnvironVar c (tokenBlock w) =
      if IsVariable w then
        if maxargs ≤ c.eargv.length then .error .outOfBounds
        else .ok ({ c with eargv := c.eargv ++ [tokenBlock w] }, true)
      else .ok (c, false) := by
  have hvariable : ((blockContains w equals).any (0 < ·) && (blockContains w minus).isNone) = true ↔
      IsVariable w := by
    rw [Bool.and_eq_true, blockContains_isNone, IsVariable, and_iff_right hredirects]
  rw [parseEnvironVar, hw.cString_tokenBlock]
  simp only [bind, Except.bind, pure, Except.pure, throw, throwThe, MonadExceptOf.throw]
  by_cases h : IsVariable w
  · rw [if_pos (hvariable.mpr h), if_pos h]
  · rw [if_neg fun hcond ↦ h (hvariable.mp hcond), if_neg h]

/-- One turn of the loop of `parse_exec` writes outside an array, or stores its word. -/
theorem parseToken_eq (hglobals : globals.WellTyped) (hw : IsToken w) (c : ExecCmd) :
    parseToken globals c (tokenBlock w) =
      if ((argumentOf globals w).isSome → c.argv.length < maxargs) ∧
          ((variableOf w).isSome → c.eargv.length < maxargs)
      then .ok (c.store globals w) else .error .outOfBounds := by
  rw [parseToken, parseRedirFlow_eq hw]
  simp only [bind, Except.bind, pure, Except.pure]
  by_cases hredirects : Redirects w
  · have hargument : argumentOf globals w = none := if_pos (.inl hredirects)
    have hvariable : variableOf w = none := if_neg fun h ↦ h.1 hredirects
    rw [if_pos hredirects, hargument, hvariable, if_pos (by simp), ExecCmd.store, hargument,
      hvariable, if_pos hredirects]
    simp
  · have hout := outText_of_not_mem fun h ↦ hredirects (.inl h)
    have herr := errText_of_not_mem fun h ↦ hredirects (.inl h)
    have hin := inText_of_not_mem fun h ↦ hredirects (.inr h)
    rw [if_neg hredirects, if_neg Bool.false_ne_true, parseEnvironVar_eq hw hredirects,
      ExecCmd.store, hout, herr, hin, if_neg hredirects]
    by_cases h : IsVariable w
    · have hargument : argumentOf globals w = none := if_pos (.inr (.inl h))
      have hvariable : variableOf w = some (tokenBlock w) := if_pos h
      rw [if_pos h, hargument, hvariable]
      by_cases hfull : maxargs ≤ c.eargv.length
      · rw [if_pos hfull, if_neg fun hfits ↦ Nat.not_lt.mpr hfull (hfits.2 rfl)]
      · rw [if_neg hfull, if_pos ⟨by simp, fun _ ↦ Nat.lt_of_not_le hfull⟩]
        simp
    · have hvariable : variableOf w = none := if_neg h
      rw [if_neg h, hvariable]
      obtain ⟨x, xs, hx⟩ := List.exists_cons_of_ne_nil (@expansion_ne_nil globals w hw)
      have hread : (expansion globals w).read 0 = .ok x := by
        rw [Block.read, hx]
        rfl
      simp only [Bool.false_eq_true, if_false, expandEnvironVar_eq hglobals hw, hread]
      by_cases hempty : x = endString
      · have hargument : argumentOf globals w = none :=
          if_pos (.inr (.inr (by rw [hx, hempty]; rfl)))
        rw [if_neg (not_not_intro hempty), hargument, if_pos (by simp)]
        simp
      · have hargument : argumentOf globals w = some (expansion globals w) := by
          refine if_neg ?_
          rintro (hr | hv | he)
          · exact hredirects hr
          · exact h hv
          · rw [hx] at he
            exact hempty (Option.some.inj he)
        rw [if_pos hempty, hargument]
        by_cases hfull : maxargs ≤ c.argv.length
        · rw [if_pos hfull, if_neg fun hfits ↦ Nat.not_lt.mpr hfull (hfits.1 rfl)]
          rfl
        · rw [if_neg hfull, if_pos ⟨fun _ ↦ Nat.lt_of_not_le hfull, by simp⟩]
          simp

/-! ## The loop -/

theorem argumentOf_nil : argumentOf globals [] = none := if_pos (.inr (.inr rfl))

/-- An empty token does nothing. -/
theorem parseToken_nil (hglobals : globals.WellTyped) (c : ExecCmd) :
    parseToken globals c (tokenBlock []) = .ok c := by
  have hvariable : variableOf [] = none := rfl
  rw [parseToken_eq hglobals .nil, argumentOf_nil, hvariable, if_pos (by simp), ExecCmd.store,
    argumentOf_nil, hvariable]
  simp [outText, errText, inText, Redirects, blockContains]

theorem getToken_eq {s : Str} (h : (s.takeWhile (· ≠ space)).length ≤ argsize) :
    getToken s = .ok (tokenBlock (s.takeWhile (· ≠ space))) := if_pos h

theorem drop_length_takeWhile (s : Str) :
    s.drop (s.takeWhile (· ≠ space)).length = s.dropWhile (· ≠ space) := by
  have hdrop := @List.drop_left _ (s.takeWhile (· ≠ space)) (s.dropWhile (· ≠ space))
  rwa [List.takeWhile_append_dropWhile] at hdrop

/-- The loop of `parse_exec` goes from word to word. -/
theorem parseTokens_eq (hglobals : globals.WellTyped) (turns : ℕ) :
    ∀ (s : Str) (c : ExecCmd), (∀ x ∈ s, x ≠ endString) → s.length < argsize → s.length ≤ turns →
      parseTokens globals turns s c =
        (wordsOf s).foldlM (fun c w ↦ parseToken globals c (tokenBlock w)) c := by
  induction turns with
  | zero =>
    intro s c _ _ hturns
    rw [List.length_eq_zero_iff.mp (Nat.le_zero.mp hturns)]
    rfl
  | succ turns ih =>
    intro s c hs hlen hturns
    by_cases hne : s = []
    · rw [hne]
      rfl
    have hpart := List.takeWhile_prefix (fun c : UInt8 ↦ decide (c ≠ space)) (l := s)
    have htoken : IsToken (s.takeWhile (· ≠ space)) :=
      ⟨fun c hc ↦ hs c (hpart.subset hc), hpart.length_le.trans_lt hlen⟩
    have hsuffix : (s.dropWhile (· ≠ space)).drop 1 <:+ s.drop 1 := by
      rw [← drop_length_takeWhile, List.drop_drop, Nat.add_comm, ← List.drop_drop]
      exact List.drop_suffix _ _
    have hshorter : ((s.dropWhile (· ≠ space)).drop 1).length < s.length :=
      hsuffix.length_le.trans_lt (by
        rw [List.length_drop]
        exact Nat.sub_lt (List.length_pos_iff.mpr hne) Nat.one_pos)
    have hrest : ∀ c, parseTokens globals turns ((s.dropWhile (· ≠ space)).drop 1) c = _ :=
      fun c ↦ ih _ c (fun x hx ↦ hs x (List.mem_of_mem_drop (hsuffix.subset hx)))
        (hshorter.trans hlen) (Nat.le_of_lt_succ (hshorter.trans_le hturns))
    rw [parseTokens, getToken_eq (Nat.le_of_lt htoken.short), wordsOf_takeWhile]
    · simp only [bind, Except.bind, htoken.cString_tokenBlock, drop_length_takeWhile, hrest]
      by_cases hempty : s.takeWhile (· ≠ space) = []
      · rw [if_pos hempty, hempty, parseToken_nil hglobals]
        rfl
      · rw [if_neg hempty]
        rfl
    · exact hne

section Fold

variable (globals) (ws : List Str) (c : ExecCmd)

theorem filterMap_cons_toList {α : Type} (f : Str → Option α) (w : Str) :
    (w :: ws).filterMap f = (f w).toList ++ ws.filterMap f := by
  cases h : f w with
  | none => rw [List.filterMap_cons_none h, Option.toList_none, List.nil_append]
  | some b => rw [List.filterMap_cons_some h, Option.toList_some, List.singleton_append]

theorem filterMap_variableOf : ws.filterMap variableOf =
    (ws.filter fun w ↦ decide (IsVariable w)).map tokenBlock := by
  rw [← List.filterMap_eq_map, List.filterMap_filter]
  refine List.filterMap_congr fun w _ ↦ ?_
  by_cases h : IsVariable w
  · rw [variableOf, if_pos h, if_pos (decide_eq_true h)]
    rfl
  · rw [variableOf, if_neg h, if_neg (by rw [decide_eq_true_eq]; exact h)]

theorem foldl_store_argv : (ws.foldl (ExecCmd.store globals) c).argv =
    c.argv ++ ws.filterMap (argumentOf globals) := by
  induction ws generalizing c with
  | nil => exact (List.append_nil _).symm
  | cons w ws ih =>
    rw [List.foldl_cons, ih, ExecCmd.store, List.append_assoc, filterMap_cons_toList]

theorem foldl_store_eargv : (ws.foldl (ExecCmd.store globals) c).eargv =
    c.eargv ++ ws.filterMap variableOf := by
  induction ws generalizing c with
  | nil => exact (List.append_nil _).symm
  | cons w ws ih =>
    rw [List.foldl_cons, ih, ExecCmd.store, List.append_assoc, filterMap_cons_toList]

/-- What the last of some words that store a text leaves. -/
theorem foldl_getD {α : Type} (f : Str → Option α) (a : α) :
    ws.foldl (fun a w ↦ (f w).getD a) a = (ws.filterMap f).getLast?.getD a := by
  induction ws generalizing a with
  | nil => rfl
  | cons w ws ih =>
    rw [List.foldl_cons, ih]
    cases h : f w with
    | none => rw [List.filterMap_cons_none h, Option.getD_none]
    | some b =>
      rw [List.filterMap_cons_some h, List.getLast?_cons, Option.getD_some, Option.getD_some]

theorem foldl_store_outFile : (ws.foldl (ExecCmd.store globals) c).outFile =
    (ws.filterMap outText).getLast?.getD c.outFile := by
  rw [← foldl_getD]
  exact (List.foldl_hom ExecCmd.outFile fun _ _ ↦ rfl).symm

theorem foldl_store_inFile : (ws.foldl (ExecCmd.store globals) c).inFile =
    (ws.filterMap inText).getLast?.getD c.inFile := by
  rw [← foldl_getD]
  exact (List.foldl_hom ExecCmd.inFile fun _ _ ↦ rfl).symm

theorem foldl_store_errFile : (ws.foldl (ExecCmd.store globals) c).errFile =
    (ws.filterMap errText).getLast?.getD c.errFile := by
  rw [← foldl_getD]
  exact (List.foldl_hom ExecCmd.errFile fun _ _ ↦ rfl).symm

theorem foldl_store_scmd : (ws.foldl (ExecCmd.store globals) c).scmd = c.scmd := by
  induction ws generalizing c with
  | nil => rfl
  | cons w ws ih => exact ih (c.store globals w)

theorem foldl_store_type : (ws.foldl (ExecCmd.store globals) c).type =
    if ∃ w ∈ ws, Redirects w then .redir else c.type := by
  induction ws generalizing c with
  | nil => exact (if_neg fun ⟨w, hw, _⟩ ↦ List.not_mem_nil hw).symm
  | cons w ws ih =>
    rw [List.foldl_cons, ih]
    by_cases hrest : ∃ w ∈ ws, Redirects w
    · obtain ⟨w', hw', h⟩ := hrest
      rw [if_pos ⟨w', hw', h⟩, if_pos ⟨w', List.mem_cons_of_mem _ hw', h⟩]
    · rw [if_neg hrest]
      by_cases hw : Redirects w
      · rw [if_pos ⟨w, List.mem_cons_self, hw⟩]
        exact if_pos hw
      · have hnone : ¬∃ w' ∈ w :: ws, Redirects w' := by
          rintro ⟨w', hmem, h⟩
          obtain rfl | hmem := List.mem_cons.mp hmem
          · exact hw h
          · exact hrest ⟨w', hmem, h⟩
        rw [if_neg hnone]
        exact if_neg hw

end Fold

/-- The loop stores every word, or writes outside an array. -/
theorem foldlM_parseToken (hglobals : globals.WellTyped) (ws : List Str)
    (hws : ∀ w ∈ ws, IsToken w) (c : ExecCmd) (hargv : c.argv.length ≤ maxargs)
    (heargv : c.eargv.length ≤ maxargs) :
    ws.foldlM (fun c w ↦ parseToken globals c (tokenBlock w)) c =
      if (c.argv ++ ws.filterMap (argumentOf globals)).length ≤ maxargs ∧
          (c.eargv ++ ws.filterMap variableOf).length ≤ maxargs
      then .ok (ws.foldl (ExecCmd.store globals) c) else .error .outOfBounds := by
  induction ws generalizing c with
  | nil =>
    rw [List.filterMap_nil, List.filterMap_nil, List.append_nil, List.append_nil,
      if_pos ⟨hargv, heargv⟩]
    rfl
  | cons w ws ih =>
    have hroom : ∀ {o : Option Block} {l : List Block}, l.length ≤ maxargs →
        ((o.isSome → l.length < maxargs) ↔ (l ++ o.toList).length ≤ maxargs) := by
      intro o l hl
      cases o with
      | none => simpa using hl
      | some b =>
        rw [Option.toList_some, List.length_append, List.length_singleton]
        exact ⟨fun h ↦ h rfl, fun h _ ↦ h⟩
    have hturn : parseToken globals c (tokenBlock w) =
        if (c.argv ++ (argumentOf globals w).toList).length ≤ maxargs ∧
          (c.eargv ++ (variableOf w).toList).length ≤ maxargs
        then .ok (c.store globals w) else .error .outOfBounds := by
      rw [parseToken_eq hglobals (hws w List.mem_cons_self)]
      exact if_congr (and_congr (hroom hargv) (hroom heargv)) rfl rfl
    rw [List.foldlM_cons, hturn, filterMap_cons_toList, filterMap_cons_toList,
      ← List.append_assoc, ← List.append_assoc, List.foldl_cons]
    by_cases hfits : (c.argv ++ (argumentOf globals w).toList).length ≤ maxargs ∧
        (c.eargv ++ (variableOf w).toList).length ≤ maxargs
    · rw [if_pos hfits]
      exact ih (fun w' hw' ↦ hws w' (List.mem_cons_of_mem w hw')) (c.store globals w) hfits.1
        hfits.2
    · rw [if_neg hfits, if_neg]
      · rfl
      · intro h
        refine hfits ⟨?_, ?_⟩
        · exact (List.prefix_append ..).length_le.trans h.1
        · exact (List.prefix_append ..).length_le.trans h.2

variable (globals)

/-- The words of a command fit into the arrays of `execcmd`. -/
def FitsArrays (s : Str) : Prop :=
  ((wordsOf s).filterMap (argumentOf globals)).length < maxargs ∧
    ((wordsOf s).filterMap variableOf).length ≤ maxargs

instance (s : Str) : Decidable (FitsArrays globals s) := inferInstanceAs (Decidable (_ ∧ _))

/-- The command that `parse_exec` makes of a string that fits. -/
def commandOf (s : Str) : ExecCmd where
  type := if ∃ w ∈ wordsOf s, Redirects w then .redir else .exec
  scmd := s
  argv := (wordsOf s).filterMap (argumentOf globals)
  eargv := (wordsOf s).filterMap variableOf
  outFile := ((wordsOf s).filterMap outText).getLast?.getD []
  inFile := ((wordsOf s).filterMap inText).getLast?.getD []
  errFile := ((wordsOf s).filterMap errText).getLast?.getD []

variable {globals} {s : Str}

theorem foldl_store_eq (c : ExecCmd) (hc : c = ⟨.exec, s, [], [], [], [], []⟩) :
    (wordsOf s).foldl (ExecCmd.store globals) c = commandOf globals s := by
  apply ExecCmd.ext
  · rw [foldl_store_type, hc]
    rfl
  · rw [foldl_store_scmd, hc]
    rfl
  · rw [foldl_store_argv, hc]
    rfl
  · rw [foldl_store_eargv, hc]
    rfl
  · rw [foldl_store_outFile, hc]
    rfl
  · rw [foldl_store_inFile, hc]
    rfl
  · rw [foldl_store_errFile, hc]
    rfl

/-- `parse_exec` gives the command of a string, or writes outside an array. -/
theorem parseExec_eq (hglobals : globals.WellTyped) (hs : ∀ x ∈ s, x ≠ endString)
    (hlen : s.length < buflen) :
    parseExec globals s =
      if FitsArrays globals s then .ok (commandOf globals s) else .error .outOfBounds := by
  have hcreate : execCmdCreate s = .ok ⟨.exec, s, [], [], [], [], []⟩ := by
    rw [execCmdCreate, strcpy_eq hlen]
    rfl
  have htokens : ∀ w ∈ wordsOf s, IsToken w := fun w hw ↦ isToken_of_mem_wordsOf hs hlen hw
  rw [parseExec, hcreate]
  simp only [bind, Except.bind, parseTokens_eq hglobals s.length s _ hs hlen (Nat.le_refl _)]
  rw [foldlM_parseToken hglobals (wordsOf s) htokens _ (Nat.zero_le _) (Nat.zero_le _),
    List.nil_append, List.nil_append, foldl_store_eq _ rfl]
  by_cases hfits : ((wordsOf s).filterMap (argumentOf globals)).length ≤ maxargs ∧
      ((wordsOf s).filterMap variableOf).length ≤ maxargs
  · rw [if_pos hfits]
    by_cases hfull : maxargs ≤ ((wordsOf s).filterMap (argumentOf globals)).length
    · have hno : ¬FitsArrays globals s := fun h ↦ Nat.not_lt.mpr hfull h.1
      rw [if_neg hno]
      exact if_pos hfull
    · have hyes : FitsArrays globals s := ⟨Nat.lt_of_not_le hfull, hfits.2⟩
      rw [if_pos hyes]
      exact if_neg hfull
  · have hno : ¬FitsArrays globals s := fun h ↦ hfits ⟨Nat.le_of_lt h.1, h.2⟩
    rw [if_neg hfits, if_neg hno]

end SistemasOperativos.Shell
