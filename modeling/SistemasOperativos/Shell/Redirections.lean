import SistemasOperativos.Shell.Words

/-!
# No word is lost

What becomes of the words of a command. A word may ask for a redirection, at its first or second
character; any other word that does not expand to nothing belongs in `argv` or in `eargv`. The
classifier of the redirections looks for its characters anywhere in the word, and takes a word that
it does not store.
-/

namespace SistemasOperativos.Shell

open Library

/-- The streams that a command can redirect. -/
inductive Flow where
  | output
  | input
  | error
deriving DecidableEq

/-- The name of the file that a stream goes to. -/
def ExecCmd.fileOf (c : ExecCmd) : Flow → Str
  | .output => c.outFile
  | .input => c.inFile
  | .error => c.errFile

/-- The redirection that a word asks for, with the text after the operator. -/
def redirectionOf (w : Str) : Option (Flow × Str) :=
  if w.head? = some greaterThan then some (.output, w.drop 1)
  else if w[1]? = some greaterThan then some (.error, w.drop 2)
  else if w.head? = some lessThan then some (.input, w.drop 1)
  else none

/-- The text of a redirection of one stream. -/
def textFor (flow : Flow) (w : Str) : Option Str :=
  (redirectionOf w).bind fun r ↦ if r.1 = flow then some r.2 else none

variable (globals : Globals)

/-- `expand_environ_var` makes the empty string of a word. -/
def expandsToEmpty (w : Str) : Bool :=
  match expandEnvironVar globals (tokenBlock w) with
  | .ok arg => arg.head? == some endString
  | .error _ => false

/-- The words of a command that ask for no redirection and do not vanish. -/
def plainWords (s : Str) : List Str :=
  (wordsOf s).filter fun w ↦ (redirectionOf w).isNone && !expandsToEmpty globals w

/-- Every word of a command is in it: a plain one in `argv` or in `eargv`, each in the order of the
words, and a redirection as the name of the file unless a later one of its stream replaces it. -/
structure Accounted (s : Str) (c : ExecCmd) : Prop where
  plain : ∃ isPair : Str → Bool,
    (((plainWords globals s).filter isPair).map tokenBlock).Sublist c.eargv ∧
    (((plainWords globals s).filter fun w ↦ !isPair w).map fun w ↦
      expandEnvironVar globals (tokenBlock w)).Sublist (c.argv.map .ok)
  redirected : ∀ flow text, ((wordsOf s).filterMap (textFor flow)).getLast? = some text →
    c.fileOf flow = text

/-- No plain word has a redirection character, and the last redirection of the input has the text
of the last word with a `'<'` and no `'>'`. -/
structure NothingLost (s : Str) : Prop where
  plain : ∀ w ∈ plainWords globals s, greaterThan ∉ w ∧ lessThan ∉ w
  input : ∀ text, ((wordsOf s).filterMap (textFor .input)).getLast? = some text →
    ((wordsOf s).filterMap inText).getLast? = some text

variable {globals} {s w : Str}

/-! ## Redirections -/

theorem blockContains_zero {b : UInt8} : blockContains w b = some 0 ↔ w.head? = some b := by
  cases w with
  | nil => exact iff_of_false (fun h ↦ by cases h) (fun h ↦ by cases h)
  | cons c w =>
    rw [blockContains, List.findIdx?_cons, List.head?_cons, Option.some_inj]
    by_cases hc : c = b
    · rw [if_pos (by simpa using hc)]
      exact iff_of_true rfl hc
    · rw [if_neg (by simpa using hc)]
      refine iff_of_false (fun h ↦ ?_) hc
      obtain ⟨i, -, hi⟩ := Option.map_eq_some_iff.mp h
      exact Nat.succ_ne_zero i hi

theorem blockContains_one {b : UInt8} :
    blockContains w b = some 1 ↔ w.head? ≠ some b ∧ w[1]? = some b := by
  cases w with
  | nil => exact iff_of_false (fun h ↦ by cases h) (fun h ↦ by cases h.2)
  | cons c w =>
    rw [blockContains, List.findIdx?_cons, List.head?_cons, ne_eq, Option.some_inj,
      List.getElem?_cons_succ, ← List.head?_eq_getElem?, ← blockContains_zero]
    by_cases hc : c = b
    · rw [if_pos (by simpa using hc)]
      exact iff_of_false (fun h ↦ by cases h) fun h ↦ h.1 hc
    · rw [if_neg (by simpa using hc), and_iff_right hc, Option.map_eq_some_iff]
      constructor
      · rintro ⟨i, hi, h⟩
        rw [← Nat.succ.inj h]
        exact hi
      · exact fun h ↦ ⟨0, h, rfl⟩

theorem textFor_output : textFor .output = outText := by
  funext w
  rw [textFor, redirectionOf, outText]
  by_cases hhead : w.head? = some greaterThan
  · rw [if_pos hhead, if_pos (blockContains_zero.mpr hhead)]
    rfl
  · rw [if_neg hhead, if_neg fun h ↦ hhead (blockContains_zero.mp h)]
    split
    · rfl
    · split <;> rfl

theorem textFor_error : textFor .error = errText := by
  funext w
  rw [textFor, redirectionOf, errText]
  by_cases hhead : w.head? = some greaterThan
  · rw [if_pos hhead, if_neg fun h ↦ (blockContains_one.mp h).1 hhead]
    rfl
  · rw [if_neg hhead]
    by_cases hsecond : w[1]? = some greaterThan
    · rw [if_pos hsecond, if_pos (blockContains_one.mpr ⟨hhead, hsecond⟩)]
      rfl
    · rw [if_neg hsecond, if_neg fun h ↦ hsecond (blockContains_one.mp h).2]
      split <;> rfl

theorem textFor_input_some {text : Str} (h : textFor .input w = some text) :
    lessThan ∈ w ∧ text = w.drop 1 ∧ w.head? = some lessThan := by
  unfold textFor redirectionOf at h
  split at h
  · cases h
  · split at h
    · cases h
    · split at h
      · rename_i hhead
        exact ⟨List.mem_of_head? hhead, (Option.some.inj h).symm, hhead⟩
      · cases h

theorem redirectionOf_of_not_redirects (h : ¬Redirects w) : redirectionOf w = none := by
  have hgreater : w.head? ≠ some greaterThan := fun hhead ↦ h (.inl (List.mem_of_head? hhead))
  have hsecond : w[1]? ≠ some greaterThan := fun hsecond ↦ h (.inl (List.mem_of_getElem? hsecond))
  have hless : w.head? ≠ some lessThan := fun hhead ↦ h (.inr (List.mem_of_head? hhead))
  rw [redirectionOf, if_neg hgreater, if_neg hsecond, if_neg hless]

/-! ## Plain words -/

section Plain

variable (hglobals : globals.WellTyped) (hw : IsToken w)
include hglobals hw

theorem expandsToEmpty_iff :
    expandsToEmpty globals w = true ↔ (expansion globals w).head? = some endString := by
  rw [expandsToEmpty, expandEnvironVar_eq hglobals hw]
  exact beq_iff_eq

/-- A word that is stored in `argv` is plain and no variable. -/
theorem plain_of_argumentOf (h : (argumentOf globals w).isSome = true) :
    ((redirectionOf w).isNone && !expandsToEmpty globals w) = true ∧ ¬Redirects w ∧
      ¬IsVariable w := by
  by_cases hnone : Redirects w ∨ IsVariable w ∨ (expansion globals w).head? = some endString
  · rw [argumentOf, if_pos hnone] at h
    cases h
  · obtain ⟨hredirects, hrest⟩ := not_or.mp hnone
    obtain ⟨hvariable, hempty⟩ := not_or.mp hrest
    refine ⟨?_, hredirects, hvariable⟩
    rw [redirectionOf_of_not_redirects hredirects, Option.isNone_none, Bool.true_and,
      Bool.not_eq_true', ← Bool.not_eq_true, expandsToEmpty_iff hglobals hw]
    exact hempty

end Plain

/-- A filter that is no longer than a stronger one keeps the same elements. -/
theorem filter_stronger {l : List Str} {p q : Str → Bool} (h : ∀ w ∈ l, p w = true → q w = true)
    (hlen : (l.filter q).length ≤ (l.filter p).length) :
    ∀ w ∈ l, q w = true → p w = true := by
  have hfilter : (l.filter q).filter p = l.filter p := by
    rw [List.filter_filter]
    refine List.filter_congr fun w hw ↦ ?_
    cases hp : p w with
    | false => rfl
    | true => rw [h w hw hp, Bool.and_true]
  have hall : ((l.filter q).filter p).length = (l.filter q).length :=
    Nat.le_antisymm (List.length_filter_le _ _) (by rw [hfilter]; exact hlen)
  intro w hw hq
  exact List.length_filter_eq_length_iff.mp hall w (List.mem_filter.mpr ⟨hw, hq⟩)

theorem length_filterMap (f : Str → Option Block) (ws : List Str) :
    (ws.filterMap f).length = (ws.filter fun w ↦ (f w).isSome).length := by
  induction ws with
  | nil => rfl
  | cons w ws ih =>
    cases h : f w with
    | none =>
      rw [List.filterMap_cons_none h, List.filter_cons_of_neg (by rw [h]; exact Bool.false_ne_true),
        ih]
    | some b =>
      rw [List.filterMap_cons_some h, List.filter_cons_of_pos (by rw [h]; rfl), List.length_cons,
        List.length_cons, ih]

section Command

variable (hglobals : globals.WellTyped) (htokens : ∀ w ∈ wordsOf s, IsToken w)
include hglobals htokens

/-- Plain words that are all stored have no redirection character. -/
theorem plain_of_stored {isPair : Str → Bool}
    (hpairs : (((plainWords globals s).filter isPair).map tokenBlock).Sublist
      (commandOf globals s).eargv)
    (hothers : (((plainWords globals s).filter fun w ↦ !isPair w).map fun w ↦
      expandEnvironVar globals (tokenBlock w)).Sublist ((commandOf globals s).argv.map .ok)) :
    ∀ w ∈ plainWords globals s, greaterThan ∉ w ∧ lessThan ∉ w := by
  -- a word whose block is in `eargv` is a variable
  have hvariable : ∀ w ∈ plainWords globals s, isPair w = true → IsVariable w := by
    intro w hw hpair
    have hmem : tokenBlock w ∈ (commandOf globals s).eargv :=
      hpairs.subset (List.mem_map_of_mem (List.mem_filter.mpr ⟨hw, hpair⟩))
    obtain ⟨w', hw', hblock⟩ := List.mem_filterMap.mp hmem
    by_cases h : IsVariable w'
    · rw [variableOf, if_pos h] at hblock
      have heq := tokenBlock_injective (htokens w' hw') (htokens w (List.mem_of_mem_filter hw))
        (Option.some.inj hblock)
      rwa [← heq]
    · rw [variableOf, if_neg h] at hblock
      cases hblock
  -- the others are as many as the words that `argv` comes from
  have hstored : ∀ w ∈ wordsOf s,
      (((redirectionOf w).isNone && !expandsToEmpty globals w) && !isPair w) = true →
        (argumentOf globals w).isSome = true := by
    apply filter_stronger
    · intro w hw hargument
      obtain ⟨hplain, -, hno⟩ := plain_of_argumentOf hglobals (htokens w hw) hargument
      rw [hplain, Bool.true_and, Bool.not_eq_true', ← Bool.not_eq_true]
      exact fun hpair ↦ hno (hvariable w (List.mem_filter.mpr ⟨hw, hplain⟩) hpair)
    · have hlength := hothers.length_le
      rw [List.length_map, List.length_map, plainWords, List.filter_filter] at hlength
      rw [← length_filterMap]
      refine Nat.le_trans (Nat.le_of_eq ?_) hlength
      exact congrArg List.length (List.filter_congr fun w _ ↦ Bool.and_comm _ _)
  intro w hw
  have hnot : ¬Redirects w := by
    cases hpair : isPair w with
    | true => exact (hvariable w hw hpair).1
    | false =>
      obtain ⟨hmem, hplain⟩ := List.mem_filter.mp hw
      have hargument := hstored w hmem (by rw [hplain, hpair]; rfl)
      exact (plain_of_argumentOf hglobals (htokens w hmem) hargument).2.1
  exact not_or.mp hnot

/-- Plain words without redirection characters are all stored. -/
theorem stored_of_plain
    (hplain : ∀ w ∈ plainWords globals s, greaterThan ∉ w ∧ lessThan ∉ w) :
    ∃ isPair : Str → Bool,
      (((plainWords globals s).filter isPair).map tokenBlock).Sublist (commandOf globals s).eargv ∧
      (((plainWords globals s).filter fun w ↦ !isPair w).map fun w ↦
        expandEnvironVar globals (tokenBlock w)).Sublist ((commandOf globals s).argv.map .ok) := by
  have hwords : (plainWords globals s).Sublist (wordsOf s) := List.filter_sublist
  refine ⟨fun w ↦ decide (IsVariable w), ?_, ?_⟩
  · rw [← filterMap_variableOf]
    exact hwords.filterMap variableOf
  · have hothers : (((plainWords globals s).filter fun w ↦ !decide (IsVariable w)).map fun w ↦
          expandEnvironVar globals (tokenBlock w)) =
        ((plainWords globals s).filterMap (argumentOf globals)).map .ok := by
      rw [← List.filterMap_eq_map, List.filterMap_filter, List.map_filterMap]
      refine List.filterMap_congr fun w hw ↦ ?_
      obtain ⟨hmem, hclass⟩ := List.mem_filter.mp hw
      have hnot : ¬Redirects w := not_or.mpr (hplain w hw)
      by_cases h : IsVariable w
      · rw [if_neg (by simpa using h), argumentOf, if_pos (.inr (.inl h))]
        rfl
      · have hfull : ¬(expansion globals w).head? = some endString := by
          rw [← expandsToEmpty_iff hglobals (htokens w hmem), Bool.not_eq_true,
            ← Bool.not_eq_true']
          exact (Bool.and_eq_true_iff.mp hclass).2
        rw [if_pos (by simpa using h), argumentOf, if_neg (not_or.mpr ⟨hnot, not_or.mpr ⟨h, hfull⟩⟩),
          Function.comp_apply, expandEnvironVar_eq hglobals (htokens w hmem)]
        rfl
    rw [hothers]
    exact (hwords.filterMap _).map _

end Command

/-! ## Accounting for a command -/

theorem fitsArrays_of_length (h : (wordsOf s).length ≤ maxargs - 1) : FitsArrays globals s := by
  have hmax : maxargs = 20 := rfl
  have hargv := List.length_filterMap_le (argumentOf globals) (wordsOf s)
  have heargv := List.length_filterMap_le variableOf (wordsOf s)
  exact ⟨by omega, by omega⟩

/-- A redirection of the input is the stored one, or it has a `'>'` and another word decides. -/
theorem inFile_eq_iff {text : Str}
    (h : ((wordsOf s).filterMap (textFor .input)).getLast? = some text) :
    (commandOf globals s).inFile = text ↔ ((wordsOf s).filterMap inText).getLast? = some text := by
  change ((wordsOf s).filterMap inText).getLast?.getD [] = text ↔ _
  cases hlast : ((wordsOf s).filterMap inText).getLast? with
  | some stored => rw [Option.getD_some, Option.some_inj]
  | none =>
    refine iff_of_false (fun hempty ↦ ?_) (fun h ↦ by cases h)
    rw [Option.getD_none] at hempty
    obtain ⟨w, hw, htext⟩ := List.mem_filterMap.mp (List.mem_of_getLast? h)
    obtain ⟨hless, hdrop, hhead⟩ := textFor_input_some htext
    have hnone : inText w = none :=
      (List.filterMap_eq_nil_iff.mp (List.getLast?_eq_none_iff.mp hlast)) w hw
    have hgreater : greaterThan ∈ w := by
      by_contra hno
      rw [inText, if_pos ⟨hno, hless⟩] at hnone
      cases hnone
    obtain ⟨c, rest, rfl⟩ := List.exists_cons_of_ne_nil (List.ne_nil_of_mem hless)
    rw [List.drop_succ_cons, List.drop_zero, ← hempty] at hdrop
    rw [← hdrop, List.mem_singleton] at hgreater
    rw [List.head?_cons, ← hgreater] at hhead
    exact absurd hhead (by decide)

/-- `parse_exec` accounts for every word exactly where it loses none. -/
theorem accounted_iff (globals : Globals) (hglobals : globals.WellTyped) (s : Str)
    (hs : ∀ c ∈ s, c ≠ endString) (hlen : s.length < buflen)
    (hcount : (wordsOf s).length ≤ maxargs - 1) :
    (∃ c, parseExec globals s = .ok c ∧ Accounted globals s c) ↔ NothingLost globals s := by
  have htokens : ∀ w ∈ wordsOf s, IsToken w := fun w hw ↦ isToken_of_mem_wordsOf hs hlen hw
  have hparse : parseExec globals s = .ok (commandOf globals s) := by
    rw [parseExec_eq hglobals hs hlen, if_pos (fitsArrays_of_length hcount)]
  constructor
  · rintro ⟨c, hc, haccounted⟩
    obtain rfl : commandOf globals s = c := Except.ok.inj (hparse.symm.trans hc)
    obtain ⟨isPair, hpairs, hothers⟩ := haccounted.plain
    exact ⟨plain_of_stored hglobals htokens hpairs hothers, fun text htext ↦
      (inFile_eq_iff htext).mp (haccounted.redirected .input text htext)⟩
  · intro hlost
    refine ⟨commandOf globals s, hparse, stored_of_plain hglobals htokens hlost.plain, ?_⟩
    intro flow text htext
    cases flow with
    | output =>
      rw [textFor_output] at htext
      change ((wordsOf s).filterMap outText).getLast?.getD [] = text
      rw [htext, Option.getD_some]
    | input => exact (inFile_eq_iff htext).mpr (hlost.input text htext)
    | error =>
      rw [textFor_error] at htext
      change ((wordsOf s).filterMap errText).getLast?.getD [] = text
      rw [htext, Option.getD_some]

/-- The command `ls >f`. -/
theorem accounted_ls : ∃ c, parseExec .fresh [108, 115, space, greaterThan, 102] = .ok c ∧
    Accounted .fresh [108, 115, space, greaterThan, 102] c := by
  refine (accounted_iff .fresh Globals.fresh_wellTyped _ (by decide +kernel) (by decide)
    (by decide +kernel)).mpr ⟨by decide +kernel, fun text htext ↦ ?_⟩
  have hnone : ((wordsOf [108, 115, space, greaterThan, 102]).filterMap
      (textFor .input)).getLast? = none := by decide +kernel
  rw [hnone] at htext
  cases htext

/-- The word `10>f` is lost. -/
theorem word_is_lost :
    ∃ s : Str, (∀ c ∈ s, c ≠ endString) ∧ s.length < buflen ∧ (wordsOf s).length ≤ maxargs - 1 ∧
      ¬∃ c, parseExec .fresh s = .ok c ∧ Accounted .fresh s c := by
  have hclean : ∀ c ∈ [108, 115, space, 49, 48, greaterThan, 102], c ≠ endString := by
    decide +kernel
  have htokens : ∀ w ∈ wordsOf [108, 115, space, 49, 48, greaterThan, 102], IsToken w :=
    fun w hw ↦ isToken_of_mem_wordsOf hclean (by decide) hw
  have hparse : parseExec .fresh [108, 115, space, 49, 48, greaterThan, 102] =
      .ok (commandOf .fresh [108, 115, space, 49, 48, greaterThan, 102]) := by
    decide +kernel
  refine ⟨_, hclean, by decide, by decide +kernel, ?_⟩
  rintro ⟨c, hc, haccounted⟩
  obtain rfl := Except.ok.inj (hparse.symm.trans hc)
  obtain ⟨isPair, hpairs, hothers⟩ := haccounted.plain
  have hplain := plain_of_stored Globals.fresh_wellTyped htokens hpairs hothers
    [49, 48, greaterThan, 102] (by decide +kernel)
  exact hplain.1 (by decide)

end SistemasOperativos.Shell
