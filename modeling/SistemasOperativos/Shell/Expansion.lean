import SistemasOperativos.Shell.Words

/-!
# Exact expansion of variables

`expand_environ_var` copies the value of a variable over the token that names it, without a
terminator. Whether the string that results is the value depends on what follows the copy in the
block: the rest of a longer token, the zeros of `get_token`, or the fresh memory of `realloc`.
-/

namespace SistemasOperativos.Shell

open Library

/-- The token `$key` becomes the value of a variable that is set to a string that is not empty, and
otherwise the loop of `parse_exec` drops it. -/
structure Expanded (globals : Globals) (key : Str) : Prop where
  set : ∀ value, globals.getenv key = some value → value ≠ [] →
    ∃ arg, expandEnvironVar globals (tokenBlock (dollar :: key)) = .ok arg ∧ cString arg = .ok value
  unset : (∀ value, globals.getenv key = some value → value = []) →
    ∀ c, parseToken globals c (tokenBlock (dollar :: key)) = .ok c

/-- The value covers the token, and in memory that `realloc` grows a zero happens to follow it. A
token without a value is neither a redirection nor a pair. -/
structure Expandable (globals : Globals) (key : Str) : Prop where
  set : ∀ value, globals.getenv key = some value → value ≠ [] →
    (dollar :: key).length ≤ value.length ∧
      (value.length < argsize ∨ globals.heap value.length = endString)
  unset : (∀ value, globals.getenv key = some value → value = []) →
    greaterThan ∉ key ∧ lessThan ∉ key ∧ (equals ∈ key → minus ∈ key)

section

variable {globals : Globals} {key value rest : Str}

/-- A string ends where the first terminator is. -/
theorem cString_append_iff (hvalue : ∀ c ∈ value, c ≠ endString) :
    cString (value ++ rest) = .ok value ↔ rest.head? = some endString := by
  induction value with
  | nil =>
    rw [List.nil_append]
    cases rest with
    | nil => exact iff_of_false (fun h ↦ by cases h) fun h ↦ by cases h
    | cons c rest =>
      rw [List.head?_cons, Option.some_inj, cString]
      by_cases hc : c = endString
      · rw [if_pos hc]
        exact iff_of_true rfl hc
      · rw [if_neg hc, Library.Except.map_ok]
        refine iff_of_false ?_ hc
        rintro ⟨s, -, h⟩
        exact List.cons_ne_nil c s h
  | cons c value ih =>
    rw [List.cons_append, cString, if_neg (hvalue c List.mem_cons_self), Library.Except.map_ok,
      ← ih fun x hx ↦ hvalue x (List.mem_cons_of_mem c hx)]
    constructor
    · rintro ⟨s, hs, h⟩
      rw [hs, (List.cons.inj h).2]
    · exact fun h ↦ ⟨value, h, rfl⟩

/-- The character of a token at an index is its terminator only past its end. -/
theorem IsToken.getD_eq_end_iff {w : Str} (hw : IsToken w) (i : ℕ) :
    w[i]?.getD endString = endString ↔ w.length ≤ i := by
  constructor
  · intro h
    by_contra hlt
    have hi : i < w.length := Nat.lt_of_not_le hlt
    rw [List.getElem?_eq_getElem hi] at h
    exact hw.noEnd _ (List.getElem_mem hi) h
  · intro h
    rw [List.getElem?_eq_none h]
    rfl

theorem expansion_set (hkey : key.head? ≠ some question) (hget : globals.getenv key = some value)
    (hvalue : value ≠ []) :
    expansion globals (dollar :: key) = value ++ (if sizeofPointer < value.length then
      reallocArg globals (tokenBlock (dollar :: key)) (value.length + 1)
      else tokenBlock (dollar :: key)).drop value.length := by
  have hquestion : ¬(dollar :: key)[1]? = some question := by
    rw [List.getElem?_cons_succ, ← List.head?_eq_getElem?]
    exact hkey
  obtain ⟨c, cs, rfl⟩ := List.exists_cons_of_ne_nil hvalue
  rw [expansion, List.head?_cons, if_neg (not_not_intro rfl), if_neg hquestion, List.drop_succ_cons, List.drop_zero,
    hget]

theorem expansion_unset (hkey : key.head? ≠ some question)
    (hget : ∀ value, globals.getenv key = some value → value = []) :
    (expansion globals (dollar :: key)).head? = some endString := by
  have hquestion : ¬(dollar :: key)[1]? = some question := by
    rw [List.getElem?_cons_succ, ← List.head?_eq_getElem?]
    exact hkey
  rw [expansion, List.head?_cons, if_neg (not_not_intro rfl), if_neg hquestion, List.drop_succ_cons, List.drop_zero]
  cases hvalue : globals.getenv key with
  | none => rfl
  | some value =>
    rw [hget value hvalue]
    rfl

/-- What follows the copy of a value in its block. -/
theorem follows_value (hw : IsToken (dollar :: key)) :
    ((if sizeofPointer < value.length then
      reallocArg globals (tokenBlock (dollar :: key)) (value.length + 1)
      else tokenBlock (dollar :: key)).drop value.length).head? = some endString ↔
      (dollar :: key).length ≤ value.length ∧
        (value.length < argsize ∨ globals.heap value.length = endString) := by
  have hpointer : sizeofPointer < argsize := by decide
  rw [List.head?_drop, ← hw.getD_eq_end_iff]
  by_cases hshort : value.length < argsize
  · have hblock := hw.getElem?_tokenBlock hshort
    rw [and_iff_left (.inl hshort)]
    split
    · rw [reallocArg, List.getElem?_map, List.getElem?_range (Nat.lt_succ_self _), Option.map_some,
        hblock, Option.getD_some, Option.some_inj]
    · rw [hblock, Option.some_inj]
  · have hnone : (tokenBlock (dollar :: key))[value.length]? = none := by
      rw [List.getElem?_eq_none_iff, hw.length_tokenBlock]
      exact Nat.le_of_not_lt hshort
    have hcovered : (dollar :: key).length ≤ value.length :=
      (Nat.le_of_lt hw.short).trans (Nat.le_of_not_lt hshort)
    rw [if_pos (hpointer.trans_le (Nat.le_of_not_lt hshort)), reallocArg, List.getElem?_map,
      List.getElem?_range (Nat.lt_succ_self _), Option.map_some, hnone, Option.getD_none,
      Option.some_inj, or_iff_right hshort, hw.getD_eq_end_iff, and_iff_right hcovered]

theorem isVariable_dollar_iff (h : ¬Redirects (dollar :: key)) :
    IsVariable (dollar :: key) ↔ equals ∈ key ∧ minus ∉ key := by
  have hindex : (blockContains (dollar :: key) equals).any (0 < ·) = true ↔ equals ∈ key := by
    have hcons : blockContains (dollar :: key) equals = (blockContains key equals).map (· + 1) := by
      rw [blockContains, List.findIdx?_cons, if_neg (by decide)]
      rfl
    rw [hcons]
    cases hfind : blockContains key equals with
    | none => exact iff_of_false Bool.false_ne_true (blockContains_eq_none.mp hfind)
    | some i =>
      refine iff_of_true ?_ ?_
      · simp
      · by_contra hmem
        rw [blockContains_eq_none.mpr hmem] at hfind
        cases hfind
  have hminus : minus ∈ dollar :: key ↔ minus ∈ key :=
    ⟨fun h ↦ (List.mem_cons.mp h).resolve_left (by decide), List.mem_cons_of_mem _⟩
  rw [IsVariable, and_iff_right h, hindex, hminus]

/-- A token that expands to nothing is dropped unless a classifier takes it first. -/
theorem parseToken_dropped_iff (hglobals : globals.WellTyped) {w : Str} (hw : IsToken w)
    (hempty : (expansion globals w).head? = some endString) :
    (∀ c, parseToken globals c (tokenBlock w) = .ok c) ↔ ¬Redirects w ∧ ¬IsVariable w := by
  have hargument : argumentOf globals w = none := if_pos (.inr (.inr hempty))
  constructor
  · intro h
    have hfresh := h ⟨.exec, [], [], [], [], [], []⟩
    rw [parseToken_eq hglobals hw, hargument, if_pos ⟨nofun, fun _ ↦ by decide⟩] at hfresh
    have hstore := Except.ok.inj hfresh
    constructor
    · intro hredirects
      have htype := congrArg ExecCmd.type hstore
      rw [ExecCmd.store, if_pos hredirects] at htype
      cases htype
    · intro hvariable
      have heargv := congrArg ExecCmd.eargv hstore
      rw [ExecCmd.store, variableOf, if_pos hvariable] at heargv
      cases heargv
  · rintro ⟨hredirects, hvariable⟩ c
    have hnone : variableOf w = none := if_neg hvariable
    have hout := outText_of_not_mem fun h ↦ hredirects (.inl h)
    have herr := errText_of_not_mem fun h ↦ hredirects (.inl h)
    have hin := inText_of_not_mem fun h ↦ hredirects (.inr h)
    rw [parseToken_eq hglobals hw, hargument, hnone, if_pos ⟨nofun, nofun⟩, ExecCmd.store,
      hargument, hnone, hout, herr, hin, if_neg hredirects]
    simp

end

/-- Where expansion is exact. -/
theorem expanded_iff (globals : Globals) (hglobals : globals.WellTyped) (key : Str)
    (htoken : IsToken (dollar :: key)) (hkey : key.head? ≠ some question) :
    Expanded globals key ↔ Expandable globals key := by
  have hset : ∀ value, globals.getenv key = some value → value ≠ [] →
      ((∃ arg, expandEnvironVar globals (tokenBlock (dollar :: key)) = .ok arg ∧
        cString arg = .ok value) ↔ (dollar :: key).length ≤ value.length ∧
          (value.length < argsize ∨ globals.heap value.length = endString)) := by
    intro value hget hvalue
    rw [← follows_value htoken, ← cString_append_iff (hglobals.environ key value hget),
      ← expansion_set hkey hget hvalue, expandEnvironVar_eq hglobals htoken]
    constructor
    · rintro ⟨arg, harg, hstring⟩
      rw [Except.ok.inj harg]
      exact hstring
    · exact fun h ↦ ⟨_, rfl, h⟩
  have hunset : (∀ value, globals.getenv key = some value → value = []) →
      ((∀ c, parseToken globals c (tokenBlock (dollar :: key)) = .ok c) ↔
        greaterThan ∉ key ∧ lessThan ∉ key ∧ (equals ∈ key → minus ∈ key)) := by
    intro hget
    have hgreater : greaterThan ≠ dollar := by decide
    have hless : lessThan ≠ dollar := by decide
    have hredirects : ¬Redirects (dollar :: key) ↔ greaterThan ∉ key ∧ lessThan ∉ key := by
      rw [Redirects, not_or, List.mem_cons, List.mem_cons, not_or, not_or, and_iff_right hgreater,
        and_iff_right hless]
    rw [parseToken_dropped_iff hglobals htoken (expansion_unset hkey hget), ← and_assoc,
      ← hredirects]
    refine and_congr_right fun h ↦ ?_
    rw [isVariable_dollar_iff h, not_and, not_not]
  constructor
  · intro h
    exact ⟨fun value hget hvalue ↦ (hset value hget hvalue).mp (h.set value hget hvalue),
      fun hget ↦ (hunset hget).mp (h.unset hget)⟩
  · intro h
    exact ⟨fun value hget hvalue ↦ (hset value hget hvalue).mpr (h.set value hget hvalue),
      fun hget ↦ (hunset hget).mpr (h.unset hget)⟩

/-- An environment where only `HOME` is set. -/
def homeGlobals (home : Str) : Globals where
  status := 0
  getenv key := if key = [72, 79, 77, 69] then some home else none
  heap _ := 0

theorem homeGlobals_wellTyped {home : Str} (h : ∀ c ∈ home, c ≠ endString) :
    (homeGlobals home).WellTyped := by
  constructor
  · change (-2 ^ 31 : ℤ) ≤ 0 ∧ (0 : ℤ) < 2 ^ 31
    decide
  · intro key value hget
    change (if key = [72, 79, 77, 69] then some home else none) = some value at hget
    split at hget
    · rw [← Option.some.inj hget]
      exact h
    · cases hget

/-- `HOME=/root`. -/
theorem expanded_root : Expanded (homeGlobals [47, 114, 111, 111, 116]) [72, 79, 77, 69] := by
  have htoken : IsToken [dollar, 72, 79, 77, 69] := ⟨by decide +kernel, by decide⟩
  refine (expanded_iff _ (homeGlobals_wellTyped (by decide +kernel)) _ htoken (by decide)).mpr ⟨?_, ?_⟩
  · intro value hget _
    rw [← Option.some.inj hget]
    exact ⟨by decide, .inl (by decide)⟩
  · intro _
    decide

/-- With `HOME=/` the token `$HOME` becomes `/HOME`. -/
theorem home_keeps_the_token :
    (homeGlobals [47]).WellTyped ∧ IsToken [dollar, 72, 79, 77, 69] ∧
      ¬Expanded (homeGlobals [47]) [72, 79, 77, 69] := by
  refine ⟨homeGlobals_wellTyped (by decide +kernel), ⟨by decide +kernel, by decide⟩, fun h ↦ ?_⟩
  obtain ⟨arg, harg, hstring⟩ := h.set [47] rfl (List.cons_ne_nil _ _)
  have hexpand : (expandEnvironVar (homeGlobals [47])
      (tokenBlock [dollar, 72, 79, 77, 69]) >>= cString) = .ok [47, 72, 79, 77, 69] := by
    decide +kernel
  rw [harg] at hexpand
  have hboth := hexpand.symm.trans hstring
  exact absurd hboth (by decide)

end SistemasOperativos.Shell
