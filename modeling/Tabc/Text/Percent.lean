import Tabc.Fault

/-!
# Percent signs

A message without arguments is still read as a pattern: two percent signs stand for one, and any other use asks
for an argument that is not there.
-/

namespace Tabc.Text

/-- What may stand between a percent sign and the letter after it. -/
def isPatternFlag (c : Char) : Bool := "#0- +.123456789hlL".toList.contains c

def fillNothing : List Char → Except Fault (List Char)
  | [] => .ok []
  | '%' :: '%' :: rest => do return '%' :: (← fillNothing rest)
  | '%' :: rest => .error (if rest.all isPatternFlag then .badValue else .wrongKind)
  | c :: rest => do return c :: (← fillNothing rest)

end Tabc.Text
