/-!
Quoted text: how a string is written as one literal.

A literal is the text between two double quotes. Backslash, double quote, newline, carriage return and tab are
written as a backslash and one letter, and every other character stands for itself. Reading accepts a raw newline,
carriage return or tab as well, but no other escape and no double quote inside.
-/

namespace StackMachine.Text

/-- The characters that stand for `c` inside a literal. -/
def escape (c : Char) : List Char :=
  match c with
  | '\\' => ['\\', '\\']
  | '"' => ['\\', '"']
  | '\n' => ['\\', 'n']
  | '\r' => ['\\', 'r']
  | '\t' => ['\\', 't']
  | c => [c]

/-- The character that a backslash and `c` stand for. -/
def unescape? (c : Char) : Option Char :=
  match c with
  | '\\' => some '\\'
  | '"' => some '"'
  | 'n' => some '\n'
  | 'r' => some '\r'
  | 't' => some '\t'
  | _ => none

/-- Reads what follows the opening quote, up to a closing quote at the very end. -/
def unquoteBody? : List Char → Option (List Char)
  | [] => none
  | '\\' :: c :: rest =>
    match unescape? c, unquoteBody? rest with
    | some d, some body => some (d :: body)
    | _, _ => none
  | ['"'] => some []
  | c :: rest =>
    if c = '"' ∨ c = '\\' then none
    else (unquoteBody? rest).map (c :: ·)

def quote (text : String) : String :=
  String.ofList ('"' :: text.toList.flatMap escape ++ ['"'])

def unquote? (literal : String) : Option String :=
  match literal.toList with
  | '"' :: rest => (unquoteBody? rest).map String.ofList
  | _ => none

end StackMachine.Text
