/-!
Blank characters and tokens.

A character is blank when it has the Unicode property White_Space. Instruction text is cut at blanks, and blanks
around literals and input lines do not count.
-/

namespace StackMachine.Text

/-- The code points of White_Space, as closed ranges in increasing order. -/
def blankRanges : List (Nat × Nat) :=
  [(0x09, 0x0D), (0x20, 0x20), (0x85, 0x85), (0xA0, 0xA0), (0x1680, 0x1680), (0x2000, 0x200A), (0x2028, 0x2029),
    (0x202F, 0x202F), (0x205F, 0x205F), (0x3000, 0x3000)]

def isBlank (c : Char) : Bool :=
  blankRanges.any fun range => decide (range.1 ≤ c.toNat) && decide (c.toNat ≤ range.2)

def trimStart (text : List Char) : List Char :=
  text.dropWhile isBlank

def trimEnd (text : List Char) : List Char :=
  (text.reverse.dropWhile isBlank).reverse

def trim (text : List Char) : List Char :=
  trimEnd (trimStart text)

/-- The first run of characters that are not blank, empty when there is none. -/
def firstToken (text : List Char) : List Char :=
  (trimStart text).takeWhile fun c => !isBlank c

/-- What stands behind the first token, with the blank that ends it. -/
def afterToken (text : List Char) : List Char :=
  (trimStart text).dropWhile fun c => !isBlank c

/-- The stretches of a text between the marks in it, so always one more than there are marks. -/
def split (mark : Char) (text : List Char) : List (List Char) :=
  go [] text
where
  /-- `stretch` is the current stretch so far, last character first. -/
  go (stretch : List Char) : List Char → List (List Char)
    | [] => [stretch.reverse]
    | c :: rest => if c = mark then stretch.reverse :: go [] rest else go (c :: stretch) rest

/-- The lines of a text: what stands between its newlines. -/
def lines (text : List Char) : List (List Char) :=
  split '\n' text

end StackMachine.Text
