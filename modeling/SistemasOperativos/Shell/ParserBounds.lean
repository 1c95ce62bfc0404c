import SistemasOperativos.Shell.Expansion
import SistemasOperativos.Shell.Segments

/-!
# The arrays of the parser

When `parse_line` stays inside its arrays. Too many words overrun `argv` or `eargv`, the value of a
variable may leave no terminator in its block, a `'&'` at the beginning of a string has no character
before it, and at the end of a line the parser goes on for some characters.
-/

namespace SistemasOperativos.Shell

open Library

/-- The blocks behind the pointers of a command. -/
def Cmd.blocks : Cmd → List Block
  | .null => []
  | .exec e => e.argv ++ e.eargv
  | .back _ c => c.argv ++ c.eargv
  | .pipe leftcmd rightcmd => leftcmd.blocks ++ rightcmd.blocks

variable (globals : Globals)

/-- `parse_line` accesses nothing outside its arrays: it returns, no string that it hands to
`parse_cmd` makes it read the character before the string, and all words are terminated. -/
def StaysInside (line : Str) : Prop :=
  ∃ strings memory c,
    parseLineTraced globals (lineBuffer line).length (lineBuffer line) 0 =
      .ok (strings, memory, c) ∧
    (∀ s ∈ strings, s.head? ≠ some ampersand) ∧ ∀ block ∈ c.blocks, endString ∈ block

/-- The block of a word has a terminator after its expansion. One that `realloc` makes just large
enough for the value of a variable needs a zero at its end. -/
def Terminates (w : Str) : Prop :=
  ∀ value, w.head? = some dollar → w[1]? ≠ some question → globals.getenv (w.drop 1) = some value →
    sizeofPointer < value.length →
      w.length ≤ value.length ∧
        (value.length < argsize ∨ globals.heap value.length = endString)

/-- The line leaves room for the parser in the buffer, and every string that is handed to
`parse_cmd` fits: it does not begin with a `'&'`, and of its words there are not too many and all
are terminated. -/
structure LineFits (line : Str) : Prop where
  zeros : zerosAfter line ≤ buflen - line.length
  first : ∀ s ∈ handedOf line, s.head? ≠ some ampersand
  arrays : ∀ s ∈ handedOf line, FitsArrays globals (cutText s)
  words : ∀ s ∈ handedOf line, ∀ w ∈ wordsOf (cutText s),
    ¬Redirects w → ¬IsVariable w → Terminates globals w

variable {globals} {s w : Str}

/-! ## Terminators -/

theorem IsToken.end_mem_drop (hw : IsToken w) {n : ℕ} (hn : n < argsize) :
    endString ∈ (tokenBlock w).drop n := by
  have hlast : (tokenBlock w)[argsize - 1]? = some endString := by
    rw [hw.getElem?_tokenBlock (by decide), List.getElem?_eq_none (Nat.le_sub_one_of_lt hw.short)]
    rfl
  have hindex : n + (argsize - 1 - n) = argsize - 1 := Nat.add_sub_cancel' (Nat.le_sub_one_of_lt hn)
  rw [← hindex, ← List.getElem?_drop] at hlast
  exact List.mem_of_getElem? hlast

theorem end_mem_iff {block : Block} (h : block.length ≤ 1) :
    endString ∈ block ↔ block.head? = some endString := by
  cases block with
  | nil => exact iff_of_false (List.not_mem_nil) fun h ↦ by cases h
  | cons c rest =>
    obtain rfl : rest = [] := List.length_eq_zero_iff.mp (Nat.le_zero.mp (Nat.le_of_succ_le_succ h))
    rw [List.mem_singleton, List.head?_cons, Option.some_inj, eq_comm]

/-- Where the expansion of a word has a terminator. -/
theorem end_mem_expansion_iff (hglobals : globals.WellTyped) (hw : IsToken w) :
    endString ∈ expansion globals w ↔ Terminates globals w := by
  by_cases hdollar : w.head? = some dollar
  · obtain ⟨key, rfl⟩ : ∃ key, w = dollar :: key := by
      cases w with
      | nil => cases hdollar
      | cons c key => exact ⟨key, by rw [Option.some.inj hdollar]⟩
    by_cases hquestion : key.head? = some question
    · have hsecond : (dollar :: key)[1]? = some question := by
        rw [List.getElem?_cons_succ, ← List.head?_eq_getElem?]
        exact hquestion
      refine iff_of_true ?_ fun _ _ hne ↦ absurd hsecond hne
      rw [expansion, List.head?_cons, if_neg (not_not_intro rfl), if_pos hsecond]
      simp
    · have hsecond : (dollar :: key)[1]? ≠ some question := by
        rw [List.getElem?_cons_succ, ← List.head?_eq_getElem?]
        exact hquestion
      by_cases hset : ∃ value, globals.getenv key = some value ∧ value ≠ []
      · obtain ⟨value, hget, hvalue⟩ := hset
        have hclean : endString ∉ value := fun h ↦ hglobals.environ key value hget _ h rfl
        have hterminates : Terminates globals (dollar :: key) ↔ (sizeofPointer < value.length →
            (dollar :: key).length ≤ value.length ∧
              (value.length < argsize ∨ globals.heap value.length = endString)) := by
          constructor
          · exact fun h ↦ h value rfl hsecond hget
          · rintro h value' - - hget' hlarge
            obtain rfl := Option.some.inj (hget.symm.trans hget')
            exact h hlarge
        rw [hterminates, expansion_set hquestion hget hvalue, List.mem_append,
          or_iff_right hclean, ← follows_value hw]
        by_cases hlarge : sizeofPointer < value.length
        · rw [if_pos hlarge, end_mem_iff, imp_iff_right hlarge]
          rw [List.length_drop, length_reallocArg, Nat.add_sub_cancel_left]
        · rw [if_neg hlarge]
          refine iff_of_true (hw.end_mem_drop ?_) fun h ↦ absurd h hlarge
          exact (Nat.le_of_not_lt hlarge).trans_lt (by decide)
      · have hempty : ∀ value, globals.getenv key = some value → value = [] := by
          intro value hget
          by_contra hvalue
          exact hset ⟨value, hget, hvalue⟩
        refine iff_of_true (List.mem_of_head? (expansion_unset hquestion hempty)) ?_
        rintro value - - hget hlarge
        rw [hempty value hget] at hlarge
        exact absurd hlarge (by decide)
  · have hexpand : expansion globals w = tokenBlock w := if_pos hdollar
    rw [hexpand]
    have hmem := hw.end_mem_drop (n := 0) (by decide)
    exact iff_of_true hmem fun _ h ↦ absurd h hdollar

/-! ## The blocks of a line -/

theorem blocks_pipeCmdCreate (l r : Cmd) :
    (pipeCmdCreate l r).blocks = l.blocks ++ r.blocks := by
  cases r with
  | null => exact (List.append_nil l.blocks).symm
  | _ => rfl

theorem blocks_cmdOf (s : Str) : (cmdOf globals s).blocks =
    (wordsOf (cutText s)).filterMap (argumentOf globals) ++
      (wordsOf (cutText s)).filterMap variableOf := by
  by_cases hne : s = []
  · rw [hne]
    rfl
  · rw [cmdOf, if_neg hne]
    split <;> rfl

theorem blocks_treeOf (s : Str) (segments : List Str) : (treeOf globals s segments).blocks =
    (handed s segments).flatMap fun t ↦ (cmdOf globals t).blocks := by
  have hnil : (cmdOf globals []).blocks = [] := rfl
  induction segments generalizing s with
  | nil =>
    by_cases hne : s = []
    · rw [hne]
      rfl
    · rw [treeOf, handed, if_neg hne]
      simp only [List.flatMap_cons, List.flatMap_nil, hnil, List.append_nil]
  | cons t segments ih =>
    by_cases hne : s = []
    · rw [treeOf, handed, if_pos hne, if_pos hne, blocks_pipeCmdCreate]
      simp only [List.flatMap_cons, List.flatMap_nil, hnil, List.append_nil]
      rfl
    · rw [treeOf, handed, if_neg hne, if_neg hne, blocks_pipeCmdCreate, ih, List.flatMap_cons]

theorem blocks_lineTree (line : Str) : (lineTree globals line).blocks =
    (handedOf line).flatMap fun t ↦ (cmdOf globals t).blocks := by
  rw [lineTree, handedOf]
  cases line.splitOn bar with
  | nil => rfl
  | cons s segments => exact blocks_treeOf s segments

/-- Every string that `parse_cmd` is given is a part of the line. -/
theorem infix_of_mem_handed {t : Str} {segments : List Str} (ht : t ∈ handed s segments) :
    t <:+: lineOf (s :: segments) := by
  induction segments generalizing s with
  | nil =>
    have hline := lineOf_singleton s
    rw [hline]
    rw [handed] at ht
    split at ht
    · have hempty : t = [] := by simpa using ht
      rw [hempty]
      exact List.nil_infix
    · obtain rfl | rfl : t = s ∨ t = [] := by simpa using ht
      · exact List.infix_rfl
      · exact List.nil_infix
  | cons t' segments ih =>
    have hrest : trimStart (lineOf (t' :: segments)) <:+: lineOf (s :: t' :: segments) := by
      rw [lineOf_cons_cons]
      refine (List.dropWhile_suffix _).isInfix.trans ?_
      exact (List.suffix_append_of_suffix (List.suffix_cons _ _)).isInfix
    rw [handed] at ht
    split at ht
    · obtain rfl | rfl : t = [] ∨ t = trimStart (lineOf (t' :: segments)) := by simpa using ht
      · exact List.nil_infix
      · exact hrest
    · obtain rfl | ht := List.mem_cons.mp ht
      · rw [lineOf_cons_cons]
        exact (List.prefix_append _ _).isInfix
      · have hpart := ih ht
        rw [← trimStart_lineOf] at hpart
        exact hpart.trans hrest

theorem infix_of_mem_handedOf {line t : Str} (ht : t ∈ handedOf line) : t <:+: line := by
  obtain ⟨s, segments, hsplit, hjoin⟩ := exists_segments line
  rw [handedOf, hsplit] at ht
  rw [← hjoin]
  exact infix_of_mem_handed ht

/-- The first string that `parse_cmd` is given begins where the line does. -/
theorem exists_mem_handedOf {line : Str} (h : line.head? = some ampersand) :
    ∃ s ∈ handedOf line, s.head? = some ampersand := by
  obtain ⟨s, segments, hsplit, hjoin⟩ := exists_segments line
  rw [← hjoin] at h
  have hhead := (head?_lineOf_iff (by decide) s segments).mp h
  have hne : s ≠ [] := List.ne_nil_of_mem (List.mem_of_head? hhead)
  refine ⟨s, ?_, hhead⟩
  rw [handedOf, hsplit]
  cases segments with
  | nil =>
    change s ∈ if s = [] then _ else _
    rw [if_neg hne]
    exact List.mem_cons_self
  | cons t segments =>
    change s ∈ if s = [] then _ else _
    rw [if_neg hne]
    exact List.mem_cons_self

theorem end_mem_blocks_iff (hglobals : globals.WellTyped) (hs : ∀ c ∈ s, c ≠ endString)
    (hlen : s.length < buflen) : (∀ block ∈ (cmdOf globals s).blocks, endString ∈ block) ↔
      ∀ w ∈ wordsOf (cutText s), ¬Redirects w → ¬IsVariable w → Terminates globals w := by
  have htokens : ∀ w ∈ wordsOf (cutText s), IsToken w := by
    have hpart := cutText_isPrefix s
    exact fun w ↦ isToken_of_mem_wordsOf (fun c hc ↦ hs c (hpart.subset hc))
      (hpart.length_le.trans_lt hlen)
  rw [blocks_cmdOf]
  constructor
  · intro hblocks w hw hredirects hvariable
    rw [← end_mem_expansion_iff hglobals (htokens w hw)]
    by_cases hempty : (expansion globals w).head? = some endString
    · exact List.mem_of_head? hempty
    · have hargument : argumentOf globals w = some (expansion globals w) := by
        refine if_neg ?_
        rintro (h | h | h)
        · exact hredirects h
        · exact hvariable h
        · exact hempty h
      exact hblocks _ (List.mem_append_left _ (List.mem_filterMap.mpr ⟨w, hw, hargument⟩))
  · intro hwords block hblock
    obtain hblock | hblock := List.mem_append.mp hblock
    · obtain ⟨w, hw, hargument⟩ := List.mem_filterMap.mp hblock
      have hplain : ¬(Redirects w ∨ IsVariable w ∨
          (expansion globals w).head? = some endString) := by
        intro h
        rw [argumentOf, if_pos h] at hargument
        cases hargument
      rw [argumentOf, if_neg hplain] at hargument
      rw [← Option.some.inj hargument, end_mem_expansion_iff hglobals (htokens w hw)]
      exact hwords w hw (fun h ↦ hplain (.inl h)) fun h ↦ hplain (.inr (.inl h))
    · obtain ⟨w, hw, hvariable⟩ := List.mem_filterMap.mp hblock
      rw [variableOf] at hvariable
      split at hvariable
      · have hmem := (htokens w hw).end_mem_drop (n := 0) (by decide)
        rw [← Option.some.inj hvariable]
        exact hmem
      · cases hvariable

/-! ## The bounds -/

/-- `parse_line` stays inside its arrays exactly on the lines that fit. -/
theorem staysInside_iff (globals : Globals) (hglobals : globals.WellTyped) (line : Str)
    (hline : ∀ c ∈ line, c ≠ endString) (hlen : line.length < buflen) :
    StaysInside globals line ↔ LineFits globals line := by
  obtain ⟨hok, herror⟩ := parseLineTraced_line hglobals hline hlen
  have hwords : ∀ s ∈ handedOf line, (∀ block ∈ (cmdOf globals s).blocks, endString ∈ block) ↔
      ∀ w ∈ wordsOf (cutText s), ¬Redirects w → ¬IsVariable w → Terminates globals w :=
    fun s hs ↦ have hpart := infix_of_mem_handedOf hs
      end_mem_blocks_iff hglobals (fun c hc ↦ hline c (hpart.subset hc))
        (hpart.length_le.trans_lt hlen)
  constructor
  · rintro ⟨strings, memory, c, hparse, hfirst, hblocks⟩
    by_cases hfits : zerosAfter line ≤ buflen - line.length ∧ line.head? ≠ some ampersand ∧
        ∀ s ∈ handedOf line, FitsArrays globals (cutText s)
    · obtain ⟨memory', hparse'⟩ := hok hfits
      obtain ⟨rfl, -, rfl⟩ : handedOf line = strings ∧ memory' = memory ∧
          lineTree globals line = c := by
        simpa using hparse'.symm.trans hparse
      refine ⟨hfits.1, hfirst, hfits.2.2, fun s hs ↦ (hwords s hs).mp fun block hblock ↦ ?_⟩
      refine hblocks block ?_
      rw [blocks_lineTree]
      exact List.mem_flatMap.mpr ⟨s, hs, hblock⟩
    · rw [herror hfits] at hparse
      cases hparse
  · rintro ⟨hzeros, hfirst, harrays, hterminated⟩
    have hhead : line.head? ≠ some ampersand := by
      intro h
      obtain ⟨s, hs, hampersand⟩ := exists_mem_handedOf h
      exact hfirst s hs hampersand
    obtain ⟨memory, hparse⟩ := hok ⟨hzeros, hhead, harrays⟩
    refine ⟨handedOf line, memory, lineTree globals line, hparse, hfirst, ?_⟩
    intro block hblock
    rw [blocks_lineTree] at hblock
    obtain ⟨s, hs, hblock⟩ := List.mem_flatMap.mp hblock
    exact (hwords s hs).mpr (hterminated s hs) block hblock

/-- The line `ls`. -/
theorem staysInside_ls : StaysInside .fresh [108, 115] := by
  refine (staysInside_iff .fresh Globals.fresh_wellTyped _ (by decide +kernel)
    (by decide +kernel)).mpr ?_
  have hterminates : ∀ w : Str, Terminates .fresh w := by
    intro w value _ _ hget
    cases hget
  exact ⟨by decide, by decide +kernel, by decide +kernel, fun _ _ w _ _ _ ↦ hterminates w⟩

/-- Twenty words leave no room for the NULL at the end of `argv`. -/
theorem twenty_words_overrun : ∃ line : Str, (∀ c ∈ line, c ≠ endString) ∧
    line.length < buflen ∧ ¬StaysInside .fresh line := by
  refine ⟨(List.replicate maxargs [97, space]).flatten, by decide +kernel, by decide +kernel, ?_⟩
  rintro ⟨strings, memory, c, hparse, -⟩
  have hfault : parseLineTraced .fresh buflen
      (lineBuffer (List.replicate maxargs [97, space]).flatten) 0 = .error .outOfBounds := by
    decide +kernel
  have hlength : (lineBuffer (List.replicate maxargs [97, space]).flatten).length = buflen := by
    decide +kernel
  rw [hlength, hfault] at hparse
  cases hparse

end SistemasOperativos.Shell
