import Tabc.Fault
import Tabc.Syntax.Node

/-!
# Parts of a tree

What later stages ask of a tree whatever its kind: its name, its list of parts, and whether it
counts as given.
-/

namespace Tabc

namespace Node

def nameOf? : Node → Option Node
  | .ident s => some (.text s)
  | .literal kind _ => some (.text kind)
  | .collection kind _ => some (.text kind)
  | .shape (.coll kind _) => some (.text kind)
  | .shape (.bare kind) => some (.text kind)
  | .funDef name _ _ _ => some name
  | .call callee _ => some callee
  | _ => Option.none

def nameText (n : Node) : Except Fault String :=
  match n.nameOf? with
  | some (.atom (.text s)) => pure s
  | some _ => throw .wrongKind
  | Option.none => throw .noPart

def parts : Node → Except Fault (List Node)
  | .params items => pure (items.getD [])
  | .args items => pure (items.getD [])
  | .block items => pure items
  | _ => throw .noPart

def given : Node → Bool
  | .atom .none => false
  | .atom (.bool b) => b
  | .atom (.int n) => n != 0
  | .atom (.text s) => s != ""
  | .list items => !items.isEmpty
  | _ => true

end Node

end Tabc
