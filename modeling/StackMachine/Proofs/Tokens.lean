import StackMachine.Proofs.Literals
import StackMachine.Text.Blank

/-! Blanks, tokens and lines.

A token is cut out of a text whatever blanks stand around it, trimming leaves alone what neither starts nor ends with a
blank, and lines without newlines come back from the text that they make. -/

namespace StackMachine.Text

/-- No character is blank. -/
def Unbroken (text : List Char) : Prop :=
  ∀ c ∈ text, isBlank c = false

instance (text : List Char) : Decidable (Unbroken text) :=
  List.decidableBAll (fun c => isBlank c = false) text

/-- Every character is blank. -/
def Blanks (text : List Char) : Prop :=
  ∀ c ∈ text, isBlank c = true

/-- Characters that hold together: some, and none of them blank. -/
structure IsToken (text : List Char) : Prop where
  ne_nil : text ≠ []
  not_blank : Unbroken text

/-- Some characters of which neither the first nor the last is blank. -/
structure Tight (text : List Char) : Prop where
  ne_nil : text ≠ []
  first : ∀ c, text.head? = some c → isBlank c = false
  last : ∀ c, text.getLast? = some c → isBlank c = false

/-- What may stand behind a token: nothing, or what starts with a blank. -/
def Detached (text : List Char) : Prop :=
  ∀ c, text.head? = some c → isBlank c = true

variable {text token rest blanks before behind : List Char}

theorem blanks_space : Blanks [' '] :=
  List.forall_mem_singleton.mpr (by decide)

theorem not_blank_of_isDigit {c : Char} (h : c.isDigit = true) : isBlank c = false := by
  simp only [Char.isDigit, Bool.and_eq_true, decide_eq_true_eq, UInt32.le_iff_toNat_le] at h
  have hlow : 48 ≤ c.toNat := h.1
  have hhigh : c.toNat ≤ 57 := h.2
  simp only [isBlank, blankRanges, List.any_cons, List.any_nil, Bool.or_false, Bool.or_eq_false_iff,
    Bool.and_eq_false_iff, decide_eq_false_iff_not]
  omega

theorem Unbroken.append (h : Unbroken text) (h' : Unbroken rest) : Unbroken (text ++ rest) :=
  fun c hc => (List.mem_append.mp hc).elim (h c) (h' c)

theorem Unbroken.of_digits (h : ∀ c ∈ text, c.isDigit = true) : Unbroken text :=
  fun c hc => not_blank_of_isDigit (h c hc)

theorem unbroken_repr (n : Nat) : Unbroken n.repr.toList :=
  .of_digits fun _ => isDigit_of_mem_repr

theorem unbroken_toString (z : Int) : Unbroken (toString z).toList := by
  show Unbroken z.repr.toList
  rw [Int.repr_eq_if]
  split
  · exact unbroken_repr _
  · rw [String.toList_append]
    exact Unbroken.append (by decide) (unbroken_repr _)

theorem IsToken.tight (h : IsToken text) : Tight text where
  ne_nil := h.ne_nil
  first c hc := h.not_blank c (List.mem_of_head? hc)
  last c hc := h.not_blank c (List.mem_of_getLast? hc)

/-- What stands between two tight texts may be anything. -/
theorem Tight.around (h : Tight text) (middle : List Char) (hrest : Tight rest) : Tight (text ++ (middle ++ rest)) where
  ne_nil := by simp [h.ne_nil]
  first c hc := by
    obtain ⟨d, tail, rfl⟩ := List.exists_cons_of_ne_nil h.ne_nil
    exact h.first c hc
  last c hc := by
    rw [List.getLast?_append, List.getLast?_append, List.getLast?_eq_some_getLast hrest.ne_nil, Option.some_or,
      Option.some_or, ← List.getLast?_eq_some_getLast] at hc
    exact hrest.last c hc

theorem IsToken.newline_not_mem (h : IsToken text) : '\n' ∉ text := by
  intro hmem
  cases h.not_blank _ hmem

theorem Detached.nil : Detached [] :=
  nofun

theorem Blanks.detached (h : Blanks text) : Detached text :=
  fun c hc => h c (List.mem_of_head? hc)

theorem Detached.append (h : Detached text) (hne : text ≠ []) (rest : List Char) : Detached (text ++ rest) := by
  obtain ⟨c, tail, rfl⟩ := List.exists_cons_of_ne_nil hne
  exact h

/-- Behind a token, something tight has blanks before it. -/
theorem Tight.ne_nil_of_detached (h : Tight text) (hdetached : Detached (before ++ (text ++ rest))) : before ≠ [] := by
  rintro rfl
  obtain ⟨c, tail, rfl⟩ := List.exists_cons_of_ne_nil h.ne_nil
  have hblank : isBlank c = true := hdetached c rfl
  rw [h.first c rfl] at hblank
  cases hblank

/-! ### Trimming -/

theorem trimStart_eq_self (h : ∀ c, text.head? = some c → isBlank c = false) : trimStart text = text := by
  cases text with
  | nil => rfl
  | cons c rest => rw [trimStart, List.dropWhile_cons, h c rfl, if_neg Bool.false_ne_true]

theorem trimEnd_eq_self (h : ∀ c, text.getLast? = some c → isBlank c = false) : trimEnd text = text := by
  have hreverse : trimStart text.reverse = text.reverse := trimStart_eq_self (by rwa [List.head?_reverse])
  rw [trimEnd, ← trimStart, hreverse, List.reverse_reverse]

theorem Tight.trim_eq (h : Tight text) : trim text = text := by
  rw [trim, trimStart_eq_self h.first, trimEnd_eq_self h.last]

theorem Unbroken.trim_eq (h : Unbroken text) : trim text = text := by
  by_cases hne : text = []
  · rw [hne]
    rfl
  · exact (IsToken.tight ⟨hne, h⟩).trim_eq

theorem trimStart_append (h : Blanks blanks) : trimStart (blanks ++ text) = trimStart text :=
  List.dropWhile_append_of_pos h

theorem trim_append (h : Blanks blanks) : trim (blanks ++ text) = trim text := by
  rw [trim, trimStart_append h, ← trim]

theorem trimEnd_append (h : Blanks blanks) : trimEnd (text ++ blanks) = trimEnd text := by
  have hreverse : Blanks blanks.reverse := fun c hc => h c (List.mem_reverse.mp hc)
  rw [trimEnd, List.reverse_append, ← trimStart, trimStart_append hreverse, trimStart, ← trimEnd]

theorem trim_blanks (h : Blanks blanks) : trim blanks = [] := by
  rw [← List.append_nil blanks, trim_append h]
  rfl

/-- The blanks around a tight text are trimmed away, and no more. -/
theorem Tight.trim_append (h : Tight text) (hbefore : Blanks before) (hbehind : Blanks behind) :
    trim (before ++ (text ++ behind)) = text := by
  have hfirst : ∀ c, (text ++ behind).head? = some c → isBlank c = false := by
    obtain ⟨c, tail, rfl⟩ := List.exists_cons_of_ne_nil h.ne_nil
    exact h.first
  rw [Text.trim_append hbefore, trim, trimStart_eq_self hfirst, trimEnd_append hbehind, trimEnd_eq_self h.last]

theorem not_blank_of_head?_trimStart {c : Char} (h : (trimStart text).head? = some c) : isBlank c = false := by
  have hhead := List.head?_dropWhile_not isBlank text
  rw [← trimStart, h] at hhead
  exact hhead

theorem exists_trimStart_append (text : List Char) : ∃ before, Blanks before ∧ before ++ trimStart text = text :=
  ⟨text.takeWhile isBlank, List.all_eq_true.mp List.all_takeWhile, List.takeWhile_append_dropWhile⟩

theorem exists_trimEnd_append (text : List Char) : ∃ behind, Blanks behind ∧ trimEnd text ++ behind = text := by
  obtain ⟨behind, hblanks, h⟩ := exists_trimStart_append text.reverse
  refine ⟨behind.reverse, fun c hc => hblanks c (List.mem_reverse.mp hc), ?_⟩
  rw [trimEnd, ← trimStart, ← List.reverse_append, h, List.reverse_reverse]

theorem exists_trim_append (text : List Char) :
    ∃ before behind, Blanks before ∧ Blanks behind ∧ before ++ (trim text ++ behind) = text := by
  obtain ⟨before, hbefore, hstart⟩ := exists_trimStart_append text
  obtain ⟨behind, hbehind, hend⟩ := exists_trimEnd_append (trimStart text)
  refine ⟨before, behind, hbefore, hbehind, ?_⟩
  rw [trim, hend, hstart]

theorem blanks_of_trim_eq_nil (h : trim text = []) : Blanks text := by
  obtain ⟨before, behind, hbefore, hbehind, heq⟩ := exists_trim_append text
  rw [h, List.nil_append] at heq
  rw [← heq]
  exact List.forall_mem_append.mpr ⟨hbefore, hbehind⟩

/-- Trimming leaves nothing, or something that it leaves alone. -/
theorem tight_trim (h : trim text ≠ []) : Tight (trim text) where
  ne_nil := h
  first c hc := by
    obtain ⟨behind, -, hbehind⟩ := exists_trimEnd_append (trimStart text)
    apply not_blank_of_head?_trimStart
    rw [← hbehind, ← trim, List.head?_append, hc, Option.some_or]
  last c hc := by
    rw [trim, trimEnd, List.getLast?_reverse] at hc
    exact not_blank_of_head?_trimStart hc

/-! ### Tokens -/

theorem IsToken.trimStart_eq (h : IsToken token) : trimStart (token ++ rest) = token ++ rest := by
  obtain ⟨c, tail, rfl⟩ := List.exists_cons_of_ne_nil h.ne_nil
  exact trimStart_eq_self h.tight.first

theorem firstToken_append (h : Blanks blanks) : firstToken (blanks ++ text) = firstToken text := by
  rw [firstToken, trimStart_append h, ← firstToken]

theorem afterToken_append (h : Blanks blanks) : afterToken (blanks ++ text) = afterToken text := by
  rw [afterToken, trimStart_append h, ← afterToken]

/-- A token is cut off where it is detached from what follows. -/
theorem IsToken.span (h : IsToken token) (hrest : Detached rest) :
    firstToken (token ++ rest) = token ∧ afterToken (token ++ rest) = rest := by
  rw [firstToken, afterToken, h.trimStart_eq]
  refine span_append (fun c hc => ?_) (fun c hc => ?_)
  · rw [h.not_blank c hc, Bool.not_false]
  · rw [hrest c hc, Bool.not_true]

theorem IsToken.firstToken_eq (h : IsToken token) : firstToken token = token := by
  simpa using (h.span .nil).1

theorem IsToken.afterToken_eq (h : IsToken token) : afterToken token = [] := by
  simpa using (h.span .nil).2

theorem unbroken_firstToken (text : List Char) : Unbroken (firstToken text) := by
  intro c hc
  simpa using List.all_eq_true.mp List.all_takeWhile c hc

theorem Tight.isToken_firstToken (h : Tight text) : IsToken (firstToken text) where
  ne_nil := by
    obtain ⟨c, rest, rfl⟩ := List.exists_cons_of_ne_nil h.ne_nil
    rw [firstToken, trimStart_eq_self h.first, List.takeWhile_cons, h.first c rfl]
    exact List.cons_ne_nil _ _
  not_blank := unbroken_firstToken text

/-- A tight text with nothing behind its first token is a token. -/
theorem Tight.isToken (h : Tight text) (hafter : trim (afterToken text) = []) : IsToken text := by
  have heq : firstToken text ++ afterToken text = text := by
    rw [firstToken, afterToken, trimStart_eq_self h.first, List.takeWhile_append_dropWhile]
  have hnil : afterToken text = [] := by
    cases hlast : (afterToken text).getLast? with
    | none => exact List.getLast?_eq_none_iff.mp hlast
    | some c =>
      have hblank := blanks_of_trim_eq_nil hafter c (List.mem_of_getLast? hlast)
      have hend : text.getLast? = some c := by rw [← heq, List.getLast?_append, hlast, Option.some_or]
      rw [h.last c hend] at hblank
      cases hblank
  rw [hnil, List.append_nil] at heq
  rw [← heq]
  exact h.isToken_firstToken

theorem exists_token_append (text : List Char) :
    ∃ before, Blanks before ∧ before ++ (firstToken text ++ afterToken text) = text := by
  obtain ⟨before, hbefore, h⟩ := exists_trimStart_append text
  refine ⟨before, hbefore, ?_⟩
  rw [firstToken, afterToken, List.takeWhile_append_dropWhile, h]

theorem detached_afterToken (text : List Char) : Detached (afterToken text) := by
  intro c hc
  have hhead := List.head?_dropWhile_not (fun c => !isBlank c) (trimStart text)
  rw [← afterToken, hc] at hhead
  simpa using hhead

theorem trim_subset (text : List Char) : trim text ⊆ text := by
  obtain ⟨before, behind, -, -, heq⟩ := exists_trim_append text
  intro c hc
  rw [← heq]
  exact List.mem_append_right _ (List.mem_append_left _ hc)

/-! ### Lines -/

theorem split_go_append (mark : Char) (stretch text rest : List Char) :
    split.go mark stretch (text ++ mark :: rest) = split.go mark stretch text ++ split mark rest := by
  induction text generalizing stretch with
  | nil =>
    show split.go mark stretch (mark :: rest) = stretch.reverse :: split mark rest
    rw [split.go, if_pos rfl, split]
  | cons c text ih =>
    rw [List.cons_append, split.go, split.go]
    split
    · rw [ih, List.cons_append]
    · exact ih _

theorem split_go_of_not_mem {mark : Char} {line : List Char} (h : mark ∉ line) (stretch : List Char) :
    split.go mark stretch line = [stretch.reverse ++ line] := by
  induction line generalizing stretch with
  | nil => rw [split.go, List.append_nil]
  | cons c line ih =>
    obtain ⟨hc, hline⟩ := List.ne_and_not_mem_of_not_mem_cons h
    rw [split.go, if_neg hc.symm, ih hline, List.reverse_cons, List.append_assoc, List.singleton_append]

theorem length_split_go (mark : Char) (stretch text : List Char) :
    (split.go mark stretch text).length = text.count mark + 1 := by
  induction text generalizing stretch with
  | nil => rfl
  | cons c text ih =>
    rw [split.go]
    split
    · rename_i hc
      rw [List.length_cons, ih, hc, List.count_cons_self]
    · rename_i hc
      rw [ih, List.count_cons_of_ne hc]

theorem lines_append (text rest : List Char) : lines (text ++ '\n' :: rest) = lines text ++ lines rest :=
  split_go_append '\n' [] text rest

theorem lines_of_not_mem {line : List Char} (h : '\n' ∉ line) : lines line = [line] :=
  split_go_of_not_mem h []

theorem length_lines (text : List Char) : (lines text).length = text.count '\n' + 1 :=
  length_split_go '\n' [] text

theorem not_mem_of_mem_split_go {mark : Char} {stretch line : List Char} (hstretch : mark ∉ stretch)
    (h : line ∈ split.go mark stretch text) : mark ∉ line := by
  induction text generalizing stretch with
  | nil =>
    rw [split.go, List.mem_singleton] at h
    rwa [h, List.mem_reverse]
  | cons c rest ih =>
    rw [split.go] at h
    split at h
    · rcases List.mem_cons.mp h with rfl | h
      · rwa [List.mem_reverse]
      · exact ih List.not_mem_nil h
    · rename_i hc
      exact ih (List.not_mem_cons_of_ne_of_not_mem (Ne.symm hc) hstretch) h

theorem newline_not_mem_of_mem_lines {line : List Char} (h : line ∈ lines text) : '\n' ∉ line :=
  not_mem_of_mem_split_go List.not_mem_nil h

end StackMachine.Text
