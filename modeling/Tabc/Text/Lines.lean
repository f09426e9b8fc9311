import Tabc.Text.Classes

/-!
# Lines and words

Splitting a text at line breaks and at blanks.
-/

namespace Tabc.Text

/-- Both `\r\n` and `\r` become `\n`. -/
def unifyBreaks : List Char → List Char
  | '\r' :: '\n' :: rest => '\n' :: unifyBreaks rest
  | '\r' :: rest => '\n' :: unifyBreaks rest
  | c :: rest => c :: unifyBreaks rest
  | [] => []

/-- The pieces between the occurrences of a character; there is always one piece. -/
def splitAt (mark : Char) : List Char → List (List Char)
  | [] => [[]]
  | c :: rest =>
    if c == mark then [] :: splitAt mark rest
    else match splitAt mark rest with
      | piece :: pieces => (c :: piece) :: pieces
      | [] => [[c]]

def isBreak (c : Char) : Bool := [0xa, 0xb, 0xc, 0xd, 0x1c, 0x1d, 0x1e, 0x85, 0x2028, 0x2029].contains c.toNat

/-- The lines of a text, without their ends; `\r\n` is one end and a last end starts no line. -/
def lines (cs : List Char) : List (List Char) := go [] cs
where
  /-- Lines of the rest, the first one continuing a given start (held in reverse). -/
  go (start : List Char) : List Char → List (List Char)
    | [] => if start.isEmpty then [] else [start.reverse]
    | '\r' :: '\n' :: rest => start.reverse :: go [] rest
    | c :: rest => if isBreak c then start.reverse :: go [] rest else go (c :: start) rest

/-- The words of a text: its longest pieces without blanks. -/
def words (cs : List Char) : List (List Char) := go [] cs
where
  /-- Words of the rest, the first one continuing a given start (held in reverse). -/
  go (start : List Char) : List Char → List (List Char)
    | [] => if start.isEmpty then [] else [start.reverse]
    | c :: rest =>
      if isBlank c then if start.isEmpty then go [] rest else start.reverse :: go [] rest
      else go (c :: start) rest

def trim (cs : List Char) : List Char := ((cs.dropWhile isBlank).reverse.dropWhile isBlank).reverse

def padRight (width : Nat) (s : String) : String := s ++ String.ofList (List.replicate (width - s.length) ' ')

end Tabc.Text
