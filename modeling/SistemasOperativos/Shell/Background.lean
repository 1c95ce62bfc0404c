import SistemasOperativos.Shell.Words

/-!
# Commands in the background

`parse_cmd` looks at the first `'&'` of a command and at the character before it. Where that one is
a `'>'` the whole string is parsed, and a later `'&'` is not looked at.
-/

namespace SistemasOperativos.Shell

open Library

/-- The character at an index belongs to a redirection. -/
def AfterGreater (s : Str) (i : ℕ) : Prop := 0 < i ∧ s[i - 1]? = some greaterThan

instance (s : Str) (i : ℕ) : Decidable (AfterGreater s i) := inferInstanceAs (Decidable (_ ∧ _))

/-- The first `'&'` with no `'>'` before it. -/
def backgroundAt (s : Str) : Option ℕ :=
  (List.range s.length).find? fun i ↦ s[i]? = some ampersand ∧ ¬AfterGreater s i

/-- Where `parse_cmd` cuts a string: at its first `'&'`, or nowhere. -/
def cutIndex (s : Str) : Option ℕ :=
  (blockContains s ampersand).filter fun i ↦ ¬AfterGreater s i

/-- The text that is to be executed. -/
def backgroundText (s : Str) : Str :=
  match backgroundAt s with
  | some i => s.take i
  | none => s

/-- The text that `parse_exec` is given. -/
def cutText (s : Str) : Str :=
  match cutIndex s with
  | some i => s.take i
  | none => s

variable (globals : Globals)

/-- The command is in the background exactly when there is a `'&'` for it, the text before that one
is what runs there, and no `'&'` of a redirection becomes an argument. -/
structure BackgroundOk (s : Str) (c : Cmd) : Prop where
  background : (∃ scmd e, c = .back scmd e) ↔ (backgroundAt s).isSome = true
  text : ∀ i, backgroundAt s = some i →
    ∃ e, parseExec globals (s.take i) = .ok e ∧ c = backCmdCreate e
  argument : ∀ w ∈ wordsOf (backgroundText s), [greaterThan, ampersand] <:+: w →
    ∀ e e', parseToken globals e (tokenBlock w) = .ok e' → e'.argv = e.argv

/-- The string does not begin the line with a `'&'`, the first `'&'` decides, and the words fit. -/
structure BackgroundFound (previous : Option UInt8) (s : Str) : Prop where
  first : previous = none → s.head? ≠ some ampersand
  decides : ∀ i, blockContains s ampersand = some i → AfterGreater s i → backgroundAt s = none
  fits : FitsArrays globals (backgroundText s)

variable {globals} {s : Str} {previous : Option UInt8}

/-! ## The first of the characters -/

theorem blockContains_some {c : UInt8} {i : ℕ} :
    blockContains s c = some i ↔ s[i]? = some c ∧ ∀ j < i, s[j]? ≠ some c := by
  rw [blockContains, List.findIdx?_eq_some_iff_getElem]
  constructor
  · rintro ⟨hi, hc, hbefore⟩
    refine ⟨?_, fun j hj hcj ↦ hbefore j hj ?_⟩
    · rw [List.getElem?_eq_getElem hi, Option.some_inj]
      simpa using hc
    · have hj' : j < s.length := hj.trans hi
      rw [List.getElem?_eq_getElem hj', Option.some_inj] at hcj
      simpa using hcj
  · rintro ⟨hc, hbefore⟩
    obtain ⟨hi, hc⟩ := List.getElem?_eq_some_iff.mp hc
    refine ⟨hi, by simpa using hc, fun j hj hcj ↦ hbefore j hj ?_⟩
    rw [List.getElem?_eq_getElem (hj.trans hi), Option.some_inj]
    simpa using hcj

theorem backgroundAt_some {i : ℕ} :
    backgroundAt s = some i ↔ s[i]? = some ampersand ∧ ¬AfterGreater s i ∧
      ∀ j < i, s[j]? = some ampersand → AfterGreater s j := by
  rw [backgroundAt, List.find?_range_eq_some]
  simp only [decide_eq_true_eq, List.mem_range, Bool.not_eq_true', decide_eq_false_iff_not,
    not_and, not_not]
  constructor
  · rintro ⟨⟨hc, hafter⟩, -, hbefore⟩
    exact ⟨hc, hafter, hbefore⟩
  · rintro ⟨hc, hafter, hbefore⟩
    exact ⟨⟨hc, hafter⟩, (List.getElem?_eq_some_iff.mp hc).1, hbefore⟩

theorem cutIndex_some {i : ℕ} :
    cutIndex s = some i ↔ blockContains s ampersand = some i ∧ ¬AfterGreater s i := by
  rw [cutIndex, Option.filter_eq_some_iff, decide_eq_true_eq]

/-- A string is cut at a `'&'` of the background. -/
theorem backgroundAt_of_cutIndex {i : ℕ} (h : cutIndex s = some i) : backgroundAt s = some i := by
  obtain ⟨hfirst, hafter⟩ := cutIndex_some.mp h
  obtain ⟨hc, hbefore⟩ := blockContains_some.mp hfirst
  exact backgroundAt_some.mpr ⟨hc, hafter, fun j hj hcj ↦ absurd hcj (hbefore j hj)⟩

/-- A string that is not cut has no such character unless one of a redirection hides it. -/
theorem cutIndex_eq_backgroundAt :
    cutIndex s = backgroundAt s ↔
      ∀ i, blockContains s ampersand = some i → AfterGreater s i → backgroundAt s = none := by
  constructor
  · intro h i hfirst hafter
    rw [← h, Option.eq_none_iff_forall_ne_some]
    intro j hj
    obtain ⟨hfirst', hafter'⟩ := cutIndex_some.mp hj
    rw [hfirst] at hfirst'
    rw [← Option.some.inj hfirst'] at hafter'
    exact hafter' hafter
  · intro h
    cases hcut : cutIndex s with
    | some i => exact (backgroundAt_of_cutIndex hcut).symm
    | none =>
      cases hfirst : blockContains s ampersand with
      | none =>
        symm
        rw [Option.eq_none_iff_forall_ne_some]
        intro j hj
        exact blockContains_eq_none.mp hfirst (List.mem_of_getElem? (backgroundAt_some.mp hj).1)
      | some i =>
        refine (h i hfirst ?_).symm
        by_contra hafter
        rw [cutIndex_some.mpr ⟨hfirst, hafter⟩] at hcut
        cases hcut

/-! ## Parsing -/

/-- `parse_cmd` cuts its string where it finds a `'&'` for it. -/
theorem parseString_eq (hne : s ≠ [])
    (hbefore : s.head? = some ampersand → ∃ p, previous = some p ∧ p ≠ greaterThan) :
    parseString globals previous s =
      match cutIndex s with
      | some i => (fun e ↦ (s.set i endString, backCmdCreate e)) <$> parseExec globals (s.take i)
      | none => (fun e ↦ (s, Cmd.exec e)) <$> parseExec globals s := by
  have hlen : s.length ≠ 0 := fun h ↦ hne (List.length_eq_zero_iff.mp h)
  rw [parseString, if_neg hlen]
  cases hfind : blockContains s ampersand with
  | none =>
    have hcut : cutIndex s = none := by rw [cutIndex, hfind]; rfl
    rw [hcut]
    simp only [bind, Except.bind]
    cases parseExec globals s <;> rfl
  | some i =>
    have hi := (List.getElem?_eq_some_iff.mp (blockContains_some.mp hfind).1).1
    have hread : ∃ c, readBefore (previous.toList ++ s) (previous.toList.length + i) = .ok c ∧
        (c = greaterThan ↔ AfterGreater s i) := by
      cases i with
      | zero =>
        have hhead := (blockContains_some.mp hfind).1
        rw [← List.head?_eq_getElem?] at hhead
        obtain ⟨p, rfl, hp⟩ := hbefore hhead
        exact ⟨p, rfl, iff_of_false hp fun h ↦ Nat.lt_irrefl 0 h.1⟩
      | succ j =>
        have hj : j < s.length := Nat.lt_of_succ_lt hi
        refine ⟨s[j], ?_, ?_⟩
        · rw [← Nat.add_assoc, readBefore, Block.read,
            List.getElem?_append_right (Nat.le_add_right _ _), Nat.add_sub_cancel_left,
            List.getElem?_eq_getElem hj]
        · rw [AfterGreater, Nat.add_sub_cancel, List.getElem?_eq_getElem hj, Option.some_inj,
            and_iff_right (Nat.succ_pos j)]
    obtain ⟨c, hc, hafter⟩ := hread
    simp only [bind, Except.bind, hc]
    by_cases hgreater : c = greaterThan
    · have hcut : cutIndex s = none := by
        rw [cutIndex, hfind]
        exact if_neg (by simpa using hafter.mp hgreater)
      rw [hcut, if_neg (not_not_intro hgreater)]
      cases parseExec globals s <;> rfl
    · rw [cutIndex_some.mpr ⟨hfind, fun h ↦ hgreater (hafter.mpr h)⟩, if_pos hgreater]
      change _ = (fun e ↦ (s.set i endString, backCmdCreate e)) <$> parseExec globals (s.take i)
      cases parseExec globals (s.take i) <;> rfl

/-- A `'&'` at the beginning of the line has no character before it. -/
theorem parseString_first (h : s.head? = some ampersand) :
    parseString globals none s = .error .outOfBounds := by
  cases s with
  | nil => cases h
  | cons c s =>
    obtain rfl : c = ampersand := Option.some.inj h
    rfl

/-- The text that is parsed is a beginning of the string. -/
theorem cutText_isPrefix (s : Str) : cutText s <+: s := by
  unfold cutText
  split
  · exact List.take_prefix _ _
  · exact List.prefix_rfl

/-- What comes before the first `'&'` is parsed. -/
theorem prefix_cutText {before : Str} (h : ampersand ∉ before) (rest : Str) :
    before <+: cutText (before ++ rest) := by
  unfold cutText
  split
  · rename_i i hcut
    have hle : before.length ≤ i := by
      by_contra hlt
      have hc := (blockContains_some.mp (cutIndex_some.mp hcut).1).1
      rw [List.getElem?_append_left (Nat.lt_of_not_le hlt)] at hc
      exact h (List.mem_of_getElem? hc)
    rw [List.take_append, List.take_of_length_le hle]
    exact List.prefix_append _ _
  · exact List.prefix_append _ _

theorem cutText_eq (h : cutIndex s = backgroundAt s) : cutText s = backgroundText s := by
  rw [cutText, h, backgroundText]

section

variable (hglobals : globals.WellTyped) (hs : ∀ c ∈ s, c ≠ endString) (hlen : s.length < buflen)
include hglobals hs hlen

theorem parseExec_cutText : parseExec globals (cutText s) =
    if FitsArrays globals (cutText s) then .ok (commandOf globals (cutText s))
    else .error .outOfBounds :=
  parseExec_eq hglobals (fun c hc ↦ hs c ((cutText_isPrefix s).subset hc))
    ((cutText_isPrefix s).length_le.trans_lt hlen)

/-- What `parse_cmd` returns for a string that is not empty. -/
theorem parseAlone_cutText (hne : s ≠ [])
    (hbefore : s.head? = some ampersand → ∃ p, previous = some p ∧ p ≠ greaterThan) :
    parseAlone globals previous s =
      if FitsArrays globals (cutText s) then
        .ok (if (cutIndex s).isSome then backCmdCreate (commandOf globals (cutText s))
          else .exec (commandOf globals (cutText s)))
      else .error .outOfBounds := by
  have hexec := parseExec_cutText hglobals hs hlen
  rw [parseAlone_eq hs, parseString_eq hne hbefore]
  cases hcut : cutIndex s with
  | none =>
    have htext : cutText s = s := by rw [cutText, hcut]
    rw [htext] at hexec ⊢
    rw [hexec]
    by_cases hfits : FitsArrays globals s
    · rw [if_pos hfits, if_pos hfits]
      rfl
    · rw [if_neg hfits, if_neg hfits]
      rfl
  | some i =>
    have htext : cutText s = s.take i := by rw [cutText, hcut]
    rw [htext] at hexec ⊢
    simp only [hexec]
    by_cases hfits : FitsArrays globals (s.take i)
    · rw [if_pos hfits, if_pos hfits]
      rfl
    · rw [if_neg hfits, if_neg hfits]
      rfl

/-- A word with `">&"` is taken for a redirection. -/
theorem redirection_is_no_argument {w : Str} (hw : w ∈ wordsOf s)
    (h : [greaterThan, ampersand] <:+: w) {e e' : ExecCmd}
    (htoken : parseToken globals e (tokenBlock w) = .ok e') : e'.argv = e.argv := by
  have hredirects : Redirects w := .inl (h.subset List.mem_cons_self)
  have hargument : argumentOf globals w = none := if_pos (.inl hredirects)
  rw [parseToken_eq hglobals (isToken_of_mem_wordsOf hs hlen hw)] at htoken
  split at htoken
  · rw [← Except.ok.inj htoken, ExecCmd.store, hargument, Option.toList_none, List.append_nil]
  · cases htoken

end

theorem parseAlone_nil (previous : Option UInt8) : parseAlone globals previous [] = .ok .null := by
  rw [parseAlone_eq (List.forall_mem_nil _), parseString, if_pos List.length_nil]
  rfl

/-- `parse_cmd` finds the background command exactly under the condition above. -/
theorem background_iff (globals : Globals) (hglobals : globals.WellTyped) (previous : Option UInt8)
    (hprevious : ∀ p, previous = some p → p ≠ greaterThan) (s : Str)
    (hs : ∀ c ∈ s, c ≠ endString) (hlen : s.length < buflen) :
    (∃ c, parseAlone globals previous s = .ok c ∧ BackgroundOk globals s c) ↔
      BackgroundFound globals previous s := by
  have htext : backgroundText s <+: s := by
    unfold backgroundText
    split
    · exact List.take_prefix _ _
    · exact List.prefix_rfl
  have hargument : ∀ w ∈ wordsOf (backgroundText s), [greaterThan, ampersand] <:+: w →
      ∀ e e', parseToken globals e (tokenBlock w) = .ok e' → e'.argv = e.argv := fun w hw h e e' ↦
    redirection_is_no_argument hglobals (fun c hc ↦ hs c (htext.subset hc))
      (htext.length_le.trans_lt hlen) hw h
  by_cases hne : s = []
  · subst hne
    refine iff_of_true ⟨.null, parseAlone_nil previous, ?_, ?_, hargument⟩ ⟨?_, ?_, ?_⟩
    · exact iff_of_false (fun ⟨_, _, h⟩ ↦ by cases h) Bool.false_ne_true
    · intro i h
      cases h
    · exact fun _ h ↦ by cases h
    · intro i h
      cases h
    · exact ⟨Nat.succ_pos 19, Nat.zero_le maxargs⟩
  by_cases hfirst : previous = none → s.head? ≠ some ampersand
  · have hbefore : s.head? = some ampersand → ∃ p, previous = some p ∧ p ≠ greaterThan := by
      intro hhead
      cases previous with
      | none => exact absurd hhead (hfirst rfl)
      | some p => exact ⟨p, rfl, hprevious p rfl⟩
    have hparse := parseAlone_cutText hglobals hs hlen hne hbefore
    constructor
    · rintro ⟨c, hc, hok⟩
      rw [hparse] at hc
      split at hc
      · rename_i hfits
        -- cutting is right because the kind of the command is
        have hsome : (cutIndex s).isSome = (backgroundAt s).isSome := by
          rw [Bool.eq_iff_iff, ← hok.background, ← Except.ok.inj hc]
          cases hcut : (cutIndex s).isSome with
          | true => exact iff_of_true rfl ⟨_, _, rfl⟩
          | false => exact iff_of_false Bool.false_ne_true fun ⟨_, _, h⟩ ↦ by cases h
        have hcut : cutIndex s = backgroundAt s := by
          cases hindex : cutIndex s with
          | some i => exact (backgroundAt_of_cutIndex hindex).symm
          | none =>
            rw [hindex, Option.isSome_none, eq_comm, ← Bool.not_eq_true,
              Option.not_isSome_iff_eq_none] at hsome
            exact hsome.symm
        exact ⟨hfirst, cutIndex_eq_backgroundAt.mp hcut, cutText_eq hcut ▸ hfits⟩
      · cases hc
    · rintro ⟨-, hdecides, hfits⟩
      have hcut := cutIndex_eq_backgroundAt.mpr hdecides
      rw [← cutText_eq hcut] at hfits
      rw [hparse, if_pos hfits]
      refine ⟨_, rfl, ?_, fun i hi ↦ ⟨commandOf globals (cutText s), ?_, ?_⟩, hargument⟩
      · rw [← hcut]
        cases hindex : (cutIndex s).isSome with
        | true => exact iff_of_true ⟨_, _, rfl⟩ rfl
        | false => exact iff_of_false (fun ⟨_, _, h⟩ ↦ by cases h) Bool.false_ne_true
      · have hexec := parseExec_cutText hglobals hs hlen
        rw [if_pos hfits] at hexec
        rw [← hexec, cutText, hcut, hi]
      · rw [hcut, hi]
        rfl
  · obtain ⟨hnone, hhead⟩ := Classical.not_imp.mp hfirst
    rw [not_not] at hhead
    refine iff_of_false ?_ fun h ↦ h.first hnone hhead
    rintro ⟨c, hc, -⟩
    rw [parseAlone_eq hs, hnone, parseString_first hhead] at hc
    cases hc

/-- The command `a &`. -/
theorem background_a : ∃ c, parseAlone .fresh none [97, space, ampersand] = .ok c ∧
    BackgroundOk .fresh [97, space, ampersand] c := by
  refine (background_iff .fresh Globals.fresh_wellTyped none (fun p h ↦ by cases h) _
    (by decide +kernel) (by decide)).mpr ⟨fun _ ↦ by decide, fun i hi hafter ↦ ?_,
      by decide +kernel⟩
  obtain rfl : 2 = i := Option.some.inj (show some 2 = some i from hi)
  exact absurd hafter (by decide +kernel)

/-- In `a 2>&1 &` the `'&'` of the redirection hides the other one, which becomes an argument. -/
theorem redirection_hides_background :
    ∃ s : Str, (∀ c ∈ s, c ≠ endString) ∧ s.length < buflen ∧
      ¬∃ c, parseAlone .fresh none s = .ok c ∧ BackgroundOk .fresh s c := by
  refine ⟨[97, space, 50, greaterThan, ampersand, 49, space, ampersand], by decide +kernel,
    by decide, ?_⟩
  rintro ⟨c, hc, hok⟩
  have hfore : ∃ e, parseAlone .fresh none
      [97, space, 50, greaterThan, ampersand, 49, space, ampersand] = .ok (.exec e) :=
    ⟨commandOf .fresh [97, space, 50, greaterThan, ampersand, 49, space, ampersand],
      by decide +kernel⟩
  obtain ⟨e, he⟩ := hfore
  obtain rfl := Except.ok.inj (he.symm.trans hc)
  obtain ⟨scmd, e', hback⟩ := hok.background.mpr (by decide +kernel)
  cases hback

end SistemasOperativos.Shell
