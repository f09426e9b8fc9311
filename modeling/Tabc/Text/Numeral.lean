import Tabc.Text.Lines

/-!
# Numerals

A sign, then digits of any script, with single underscores between digits and blanks around the numeral.
-/

namespace Tabc.Text

/-- The digits of a numeral; an underscore stands between two digits only. -/
def numeralDigits (afterDigit : Bool) : List Char → Option (List Char)
  | [] => if afterDigit then some [] else none
  | c :: rest =>
    if isDigit c then (numeralDigits true rest).map (c :: ·)
    else if c == '_' && afterDigit then numeralDigits false rest
    else none

def readInt? (cs : List Char) : Option Int :=
  match trim cs with
  | '-' :: rest => (numeralDigits false rest).map fun ds => -(natOfDigits ds : Int)
  | '+' :: rest => (numeralDigits false rest).map fun ds => (natOfDigits ds : Int)
  | rest => (numeralDigits false rest).map fun ds => (natOfDigits ds : Int)

end Tabc.Text
