import StackMachine.Text.Quoted

/-! What is read as a literal.

Between its quotes a literal is a sequence of pieces (`Piece`): each is one of the five escapes, or a character that
stands for itself and is neither a backslash nor a double quote. What the pieces mean is read, and nothing else is. A
string has one literal without raw line ends and tabs, the one that is written for it. Main statement:
`Text.literals_exact`. -/

namespace StackMachine.Text

inductive Escape where
  | backslash
  | doubleQuote
  | newline
  | carriageReturn
  | tab

namespace Escape

/-- What stands behind the backslash. -/
def letter : Escape → Char
  | backslash => '\\'
  | doubleQuote => '"'
  | newline => 'n'
  | carriageReturn => 'r'
  | tab => 't'

def meaning : Escape → Char
  | backslash => '\\'
  | doubleQuote => '"'
  | newline => '\n'
  | carriageReturn => '\r'
  | tab => '\t'

end Escape

/-- A unit of a literal: an escape, or a character that needs none. -/
inductive Piece where
  | escaped (e : Escape)
  | plain (c : Char) (not_backslash : c ≠ '\\') (not_quote : c ≠ '"')

namespace Piece

def spelling : Piece → List Char
  | escaped e => ['\\', e.letter]
  | plain c _ _ => [c]

def meaning : Piece → Char
  | escaped e => e.meaning
  | plain c _ _ => c

end Piece

/-- The literal that is made of some pieces. -/
def spellLiteral (pieces : List Piece) : List Char :=
  '"' :: pieces.flatMap Piece.spelling ++ ['"']

/-- The characters that are escaped but may also stand in a literal as they are. -/
def controls : List Char :=
  ['\n', '\r', '\t']

variable {text body : List Char} {literal s : String} {c d : Char}

/-! ### Reading pieces -/

theorem unescape?_letter (e : Escape) : unescape? e.letter = some e.meaning := by
  cases e <;> rfl

theorem exists_escape (h : unescape? c = some d) : ∃ e : Escape, e.letter = c ∧ e.meaning = d := by
  unfold unescape? at h
  split at h
  · exact ⟨.backslash, rfl, Option.some.inj h⟩
  · exact ⟨.doubleQuote, rfl, Option.some.inj h⟩
  · exact ⟨.newline, rfl, Option.some.inj h⟩
  · exact ⟨.carriageReturn, rfl, Option.some.inj h⟩
  · exact ⟨.tab, rfl, Option.some.inj h⟩
  · cases h

/-- A piece is read as what it means, whatever follows. -/
theorem unquoteBody?_spelling (piece : Piece) (rest : List Char) :
    unquoteBody? (piece.spelling ++ rest) = (unquoteBody? rest).map (piece.meaning :: ·) := by
  cases piece with
  | escaped e =>
    show unquoteBody? ('\\' :: e.letter :: rest) = _
    rw [unquoteBody?, unescape?_letter]
    cases unquoteBody? rest <;> rfl
  | plain c hslash hquote =>
    show unquoteBody? (c :: rest) = _
    rw [unquoteBody?]
    · rw [if_neg (not_or.mpr ⟨hquote, hslash⟩)]
      rfl
    · exact fun _ _ h _ => hslash h
    · exact fun h _ => hquote h

theorem unquoteBody?_pieces (pieces : List Piece) :
    unquoteBody? (pieces.flatMap Piece.spelling ++ ['"']) = some (pieces.map Piece.meaning) := by
  induction pieces with
  | nil => rfl
  | cons piece rest ih =>
    rw [List.flatMap_cons, List.append_assoc, unquoteBody?_spelling, ih, Option.map_some, List.map_cons]

/-- By induction along the scan, which takes two characters at a backslash and one elsewhere. -/
theorem exists_pieces (h : unquoteBody? text = some body) :
    ∃ pieces : List Piece, text = pieces.flatMap Piece.spelling ++ ['"'] ∧ body = pieces.map Piece.meaning := by
  fun_induction unquoteBody? text generalizing body with
  | case1 => cases h
  | case2 letter rest d tail htail hescape ih =>
    obtain ⟨e, rfl, rfl⟩ := exists_escape hescape
    obtain ⟨pieces, rfl, rfl⟩ := ih htail
    exact ⟨.escaped e :: pieces, rfl, (Option.some.inj h).symm⟩
  | case3 => cases h
  | case4 => exact ⟨[], rfl, (Option.some.inj h).symm⟩
  | case5 => cases h
  | case6 c rest _ _ hplain ih =>
    obtain ⟨hquote, hslash⟩ := not_or.mp hplain
    obtain ⟨tail, htail, rfl⟩ := Option.map_eq_some_iff.mp h
    obtain ⟨pieces, rfl, rfl⟩ := ih htail
    exact ⟨.plain c hslash hquote :: pieces, rfl, rfl⟩

theorem unquote?_eq_some_iff :
    unquote? literal = some s ↔
      ∃ pieces : List Piece, literal.toList = spellLiteral pieces ∧ s.toList = pieces.map Piece.meaning := by
  constructor
  · intro h
    unfold unquote? at h
    split at h
    · rename_i rest hliteral
      obtain ⟨body, hbody, rfl⟩ := Option.map_eq_some_iff.mp h
      obtain ⟨pieces, rfl, rfl⟩ := exists_pieces hbody
      exact ⟨pieces, hliteral, String.toList_ofList⟩
    · cases h
  · rintro ⟨pieces, hliteral, hs⟩
    have hread : unquote? literal = (unquoteBody? (pieces.flatMap Piece.spelling ++ ['"'])).map String.ofList := by
      rw [unquote?, hliteral]
      rfl
    rw [hread, unquoteBody?_pieces, Option.map_some, ← hs, String.ofList_toList]

/-! ### The literal that is written -/

theorem toList_quote (s : String) : (quote s).toList = '"' :: (s.toList.flatMap escape ++ ['"']) :=
  String.toList_ofList

/-- What is written for a character is a piece that means it. -/
theorem exists_piece (c : Char) : ∃ piece : Piece, piece.spelling = escape c ∧ piece.meaning = c := by
  unfold escape
  split
  · exact ⟨.escaped .backslash, rfl, rfl⟩
  · exact ⟨.escaped .doubleQuote, rfl, rfl⟩
  · exact ⟨.escaped .newline, rfl, rfl⟩
  · exact ⟨.escaped .carriageReturn, rfl, rfl⟩
  · exact ⟨.escaped .tab, rfl, rfl⟩
  · rename_i hslash hquote _ _ _
    exact ⟨.plain c hslash hquote, rfl, rfl⟩

theorem exists_pieces_flatMap (text : List Char) :
    ∃ pieces : List Piece, pieces.flatMap Piece.spelling = text.flatMap escape ∧ pieces.map Piece.meaning = text := by
  induction text with
  | nil => exact ⟨[], rfl, rfl⟩
  | cons c rest ih =>
    obtain ⟨piece, hspelling, hmeaning⟩ := exists_piece c
    obtain ⟨pieces, hspellings, hmeanings⟩ := ih
    refine ⟨piece :: pieces, ?_, ?_⟩
    · rw [List.flatMap_cons, List.flatMap_cons, hspelling, hspellings]
    · rw [List.map_cons, hmeaning, hmeanings]

theorem unquote?_quote (s : String) : unquote? (quote s) = some s := by
  obtain ⟨pieces, hspelling, hmeaning⟩ := exists_pieces_flatMap s.toList
  refine unquote?_eq_some_iff.mpr ⟨pieces, ?_, hmeaning.symm⟩
  rw [toList_quote, ← hspelling]
  rfl

theorem control_not_mem_escape (hc : c ∈ controls) (d : Char) : c ∉ escape d := by
  simp only [controls, List.mem_cons, List.not_mem_nil, or_false] at hc
  unfold escape
  split
  case h_6 hnewline hreturn htab =>
    intro hmem
    obtain rfl := List.mem_singleton.mp hmem
    rcases hc with rfl | rfl | rfl
    · exact hnewline rfl
    · exact hreturn rfl
    · exact htab rfl
  all_goals rcases hc with rfl | rfl | rfl <;> decide

theorem control_not_mem_quote (hc : c ∈ controls) (s : String) : c ∉ (quote s).toList := by
  have hmark : c ≠ '"' := by
    rintro rfl
    exact absurd hc (by decide)
  rw [toList_quote]
  refine List.not_mem_cons_of_ne_of_not_mem hmark fun hmem => ?_
  rcases List.mem_append.mp hmem with hmem | hmem
  · obtain ⟨d, -, hd⟩ := List.mem_flatMap.mp hmem
    exact control_not_mem_escape hc d hd
  · exact hmark (List.mem_singleton.mp hmem)

/-- Every piece but a raw line end or tab is what is written for its meaning. -/
theorem escape_meaning {piece : Piece} (h : ∀ c ∈ controls, c ∉ piece.spelling) :
    escape piece.meaning = piece.spelling := by
  cases piece with
  | escaped e => cases e <;> rfl
  | plain c hslash hquote =>
    have hraw : ∀ d ∈ controls, c ≠ d := fun d hd heq => h d hd (List.mem_singleton.mpr heq.symm)
    show escape c = [c]
    unfold escape
    split
    · exact absurd rfl hslash
    · exact absurd rfl hquote
    · exact absurd rfl (hraw '\n' (by decide))
    · exact absurd rfl (hraw '\r' (by decide))
    · exact absurd rfl (hraw '\t' (by decide))
    · rfl

theorem quote_eq_iff (h : unquote? literal = some s) : quote s = literal ↔ ∀ c ∈ controls, c ∉ literal.toList := by
  constructor
  · rintro rfl c hc
    exact control_not_mem_quote hc s
  · intro hraw
    obtain ⟨pieces, hliteral, hs⟩ := unquote?_eq_some_iff.mp h
    have hpieces : pieces.map (fun piece => escape piece.meaning) = pieces.map Piece.spelling := by
      refine List.map_congr_left fun piece hpiece => escape_meaning fun c hc hmem => hraw c hc ?_
      rw [hliteral]
      exact List.mem_cons_of_mem _ (List.mem_append_left _ (List.mem_flatMap.mpr ⟨piece, hpiece, hmem⟩))
    apply String.toList_inj.mp
    rw [toList_quote, hs, List.flatMap_map, List.flatMap_def, hpieces, hliteral]
    rfl

/-- Strings and their literals. What is written for a string stands between two double quotes, has no line end and no
tab in it, and is read as that string. A literal that is read as a string is the one written for it exactly if it has no
raw line end or tab. And what is read are just the sequences of pieces between two double quotes, each as what the pieces
mean. -/
theorem literals_exact :
    (∀ s, (∀ c ∈ controls, c ∉ (quote s).toList) ∧ (∃ body, (quote s).toList = '"' :: (body ++ ['"'])) ∧
      unquote? (quote s) = some s) ∧
    (∀ literal s, unquote? literal = some s → (quote s = literal ↔ ∀ c ∈ controls, c ∉ literal.toList)) ∧
    ∀ literal, ((unquote? literal).isSome ↔ ∃ pieces : List Piece, literal.toList = spellLiteral pieces) ∧
      ∀ pieces : List Piece, literal.toList = spellLiteral pieces →
        unquote? literal = some (String.ofList (pieces.map Piece.meaning)) := by
  refine ⟨fun s => ⟨fun c hc => ?_, ⟨_, toList_quote s⟩, unquote?_quote s⟩, fun literal s h => quote_eq_iff h,
    fun literal => ?_⟩
  · exact control_not_mem_quote hc s
  · have hread : ∀ pieces : List Piece, literal.toList = spellLiteral pieces →
        unquote? literal = some (String.ofList (pieces.map Piece.meaning)) := fun pieces hliteral =>
      unquote?_eq_some_iff.mpr ⟨pieces, hliteral, String.toList_ofList⟩
    refine ⟨⟨fun hsome => ?_, fun ⟨pieces, hliteral⟩ => ?_⟩, hread⟩
    · obtain ⟨s, hs⟩ := Option.isSome_iff_exists.mp hsome
      obtain ⟨pieces, hliteral, -⟩ := unquote?_eq_some_iff.mp hs
      exact ⟨pieces, hliteral⟩
    · rw [hread pieces hliteral, Option.isSome_some]

/-- A raw tab, and a backslash right before the closing quote. -/
theorem literals_exact_raw :
    "\"\t\\\\\"".toList = spellLiteral [.plain '\t' (by decide) (by decide), .escaped .backslash] ∧
      unquote? "\"\t\\\\\"" = some "\t\\" ∧ quote "\t\\" ≠ "\"\t\\\\\"" := by
  have hliteral : "\"\t\\\\\"".toList =
      spellLiteral [.plain '\t' (by decide) (by decide), .escaped .backslash] := rfl
  have hread : unquote? "\"\t\\\\\"" = some "\t\\" := (literals_exact.2.2 _).2 _ hliteral
  refine ⟨hliteral, hread, fun heq => ?_⟩
  exact (literals_exact.2.1 _ _ hread).mp heq '\t' (by decide) (by decide)

end StackMachine.Text
