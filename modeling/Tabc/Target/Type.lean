import Tabc.Syntax.Node

/-!
# Types of the target language

The target language has a type for each type of the source language.
-/

namespace Tabc.Ty

def targetName (p : Prim) : String := p.name ++ "_t"

def ofTargetName? : String → Option Prim
  | "str_t" => some .str
  | "int_t" => some .int
  | "float_t" => some .float
  | "bool_t" => some .bool
  | "none_t" => some .none
  | _ => Option.none

/-- The outside form of a type of the target language without the mark that it is one. -/
def targetShape : Ty → Datum
  | .prim p => .text (targetName p)
  | .coll kind elem =>
    .record .target "NonPrimitiveType" [("type", .text kind),
      ("value", .record .target "Type" [("value", elem.targetShape)])]
  | .bare kind => .record .target "NonPrimitiveType" [("type", .text kind), ("value", .none)]

def targetDatum (t : Ty) : Datum := .record .target "Type" [("value", t.targetShape)]

end Tabc.Ty
