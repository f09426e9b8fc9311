/-!
# Replacing

Every occurrence of a text in another one is replaced, from the left and without overlaps.
-/

namespace Tabc.Text

/-- Replaces `old` in the rest of a text after `skip` characters that belong to an occurrence. -/
def replaceFrom (old new : List Char) : Nat → List Char → List Char
  | _, [] => []
  | skip + 1, _ :: cs => replaceFrom old new skip cs
  | 0, c :: cs =>
    if old.isPrefixOf (c :: cs) then new ++ replaceFrom old new (old.length - 1) cs
    else c :: replaceFrom old new 0 cs

def replace (old new s : String) : String := String.ofList (replaceFrom old.toList new.toList 0 s.toList)

def occurs (part : List Char) : List Char → Bool
  | [] => part.isEmpty
  | c :: cs => part.isPrefixOf (c :: cs) || occurs part cs

end Tabc.Text
