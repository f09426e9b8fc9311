import Tabc.Syntax.Reading

/-!
# Intermediate code

A program is first turned into a flat list of instructions on registers and variables, with labels and jumps.
-/

namespace Tabc

inductive Operand where
  | name (s : String)
  | nothing
  | const (n : Int)
  | tree (n : Node)
  | names (l : List String)
  | address (o : Operand)
  | contents (o : Operand)
deriving Inhabited

namespace Operand

def ofNode : Node → Operand
  | .atom (.text s) => .name s
  | .atom (.int n) => .const n
  | .atom .none => .nothing
  | n => .tree n

def datum (e : Edition) : Operand → Datum
  | .name s => .text s
  | .nothing => .none
  | .const n => .atom (.int n)
  | .tree n => n.datum e
  | .names l => .list (l.map Datum.text)
  | .address o => .record .code "IR_Address" [("addr_reg", o.datum e)]
  | .contents o => .record .code "IR_Deref" [("pointer_reg", o.datum e)]

def present : Operand → Bool
  | .name s => s != ""
  | .nothing => false
  | .const n => n != 0
  | .names l => !l.isEmpty
  | _ => true

def same : Operand → Operand → Bool
  | .name a, .name b => a == b
  | .nothing, .nothing => true
  | .const a, .const b => a == b
  | .tree a, .tree b => a.render .fourth == b.render .fourth
  | .names a, .names b => a == b
  | _, _ => false

def plain (e : Edition) : Operand → String
  | .name s => s
  | o => (o.datum e).render

def part (i : Nat) : Operand → Except Fault Operand
  | .names l => match l[i]? with
    | some s => pure (.name s)
    | none => throw .outOfRange
  | .name s => match s.toList[i]? with
    | some c => pure (.name (String.singleton c))
    | none => throw .outOfRange
  | _ => throw .wrongKind

end Operand

inductive Instr where
  | label (value : Operand)
  | goto (label : Operand)
  | literal (reg : Operand) (value : Atom)
  | binary (result left right : Operand) (op : String)
  | unary (result : Operand) (op : String) (operand : Operand)
  | pushParam (reg : Operand)
  | popParam (reg : Operand)
  | call (name reg : Operand)
  | result (reg : Operand)
  | ret (value : Operand)
  | branch (ifFalse cond : Operand)
  | elseBranch (ifFalse cond : Operand)
  | assign (name value : Operand)
  | collection (reg : Operand) (op : String) (length : Int)
  | element (value : Operand)
  | loopStart (reg value : Operand)
  | loopStop (reg value : Operand)
  | loopStep (reg value : Operand)
  | string (reg : Operand) (length : Int)
  | char (reg : Operand) (value : String)
  | params (reg : Operand) (length : Int)
  | param (reg name : Operand)
  | args (reg call : Operand) (length : Int)
  | arg (value : Operand)
  | length (result coll : Operand)
  | append (obj value idx : Operand)
  | index (result obj idx : Operand)
  | loopVar (name : Operand)
  | slice (result obj start stop : Operand)
deriving Inhabited

namespace Instr

def record (name : String) (fields : List (String × Datum)) : Datum := .record .code name fields

def datum (e : Edition) : Instr → Datum
  | .label value => record "IR_Label" [("value", value.datum e)]
  | .goto target => record "IR_Goto" [("label", target.datum e)]
  | .literal reg value => record "IR_PrimitiveLiteral" [("reg", reg.datum e), ("val", .atom value)]
  | .binary res left right op =>
    record "IR_BinaryOperation" [("result_reg", res.datum e), ("left_reg", left.datum e),
      ("right_reg", right.datum e), ("operator", .text op)]
  | .unary res op operand =>
    record "IR_UnaryOperation" [("result_reg", res.datum e), ("operator", .text op), ("operand_reg", operand.datum e)]
  | .pushParam reg => record "IR_PushParam" [("reg", reg.datum e)]
  | .popParam reg => record "IR_PopParam" [("reg", reg.datum e)]
  | .call name reg => record "IR_FunctionCall" [("name", name.datum e), ("reg", reg.datum e)]
  | .result reg => record "IR_FunctionReturn" [("reg", reg.datum e)]
  | .ret value => record "IR_ReturnStmt" [("reg", value.datum e)]
  | .branch ifFalse cond =>
    record "IR_IfStmt" [("if_false", record "IR_Goto" [("label", ifFalse.datum e)]), ("cond_reg", cond.datum e)]
  | .elseBranch ifFalse cond =>
    record "IR_ElifStmt" [("elif_false", record "IR_Goto" [("label", ifFalse.datum e)]), ("cond_reg", cond.datum e)]
  | .assign name value => record "IR_Assignment" [("name", name.datum e), ("val", value.datum e)]
  | .collection reg op size =>
    record "IR_List" [("reg", reg.datum e), ("operator", .text op), ("length", .atom (.int size))]
  | .element value => record "IR_List_VAL" [("reg", value.datum e)]
  | .loopStart reg value => record "IR_LoopStart" [("reg", reg.datum e), ("val", value.datum e)]
  | .loopStop reg value => record "IR_LoopStop" [("reg", reg.datum e), ("val", value.datum e)]
  | .loopStep reg value => record "IR_LoopStep" [("reg", reg.datum e), ("val", value.datum e)]
  | .string reg size => record "IR_String" [("reg", reg.datum e), ("length", .atom (.int size))]
  | .char reg value => record "IR_String_char" [("reg", reg.datum e), ("val", .text value)]
  | .params reg size => record "IR_Parameter" [("reg", reg.datum e), ("length", .atom (.int size))]
  | .param reg name => record "IR_Parameter_VAL" [("reg", reg.datum e), ("name", name.datum e)]
  | .args reg callReg size =>
    record "IR_Argument" [("reg", reg.datum e), ("function_call_reg", callReg.datum e), ("length", .atom (.int size))]
  | .arg value => record "IR_Argument_VAL" [("reg", value.datum e)]
  | .length res coll => record "IR_GetLength" [("result_reg", res.datum e), ("pointer_reg", coll.datum e)]
  | .append obj value idx =>
    record "IR_LstAdd" [("obj_reg", obj.datum e), ("val_reg", value.datum e), ("idx", idx.datum e)]
  | .index res obj idx =>
    record "IR_NonPrimitiveIndex" [("result_reg", res.datum e), ("obj_reg", obj.datum e), ("idx_reg", idx.datum e)]
  | .loopVar name => record "IR_ForLoopVar" [("reg", name.datum e)]
  | .slice res obj start stop =>
    record "IR_NonPrimitiveSlicing" [("result_reg", res.datum e), ("obj_reg", obj.datum e),
      ("start_reg", start.datum e), ("end_reg", stop.datum e)]

def render (e : Edition) (i : Instr) : String := (i.datum e).render

def listing (e : Edition) (code : List Instr) : String := String.join (code.map fun i => i.render e ++ "\n")

def file (e : Edition) (code : List Instr) : String := "\n".intercalate (code.map (render e)) ++ "\n"

def register? : Instr → Option Operand
  | .literal reg _ => some reg
  | .pushParam reg => some reg
  | .popParam reg => some reg
  | .call _ reg => some reg
  | .result reg => some reg
  | .ret value => some value
  | .collection reg _ _ => some reg
  | .element value => some value
  | .loopStart reg _ => some reg
  | .loopStop reg _ => some reg
  | .loopStep reg _ => some reg
  | .string reg _ => some reg
  | .char reg _ => some reg
  | .params reg _ => some reg
  | .param reg _ => some reg
  | .args reg _ _ => some reg
  | .arg value => some value
  | .loopVar name => some name
  | _ => none

def size? : Instr → Option Int
  | .collection _ _ size => some size
  | .string _ size => some size
  | .params _ size => some size
  | .args _ _ size => some size
  | _ => none

def operandField (e : Edition) (fs : List (String × Datum)) (name : String) : Except Fault Operand :=
  match fs.lookup name with
  | some d => Operand.ofNode <$> Node.ofDatum e d
  | none => pure .nothing

def textField (fs : List (String × Datum)) (name : String) : String :=
  match fs.lookup name with
  | some (.atom (.text s)) => s
  | _ => ""

def intField (fs : List (String × Datum)) (name : String) : Int :=
  match fs.lookup name with
  | some (.atom (.int n)) => n
  | _ => 0

def jumpField (e : Edition) (fs : List (String × Datum)) (name : String) : Except Fault Operand :=
  match fs.lookup name with
  | some (.record _ _ inner) => operandField e inner "label"
  | _ => pure .nothing

/-- The instruction of an outside form; slices belong to the fourth edition. -/
def ofDatum (e : Edition) (d : Datum) : Except Fault Instr :=
  match d with
  | .record _ name fs =>
    let op := operandField e fs
    match name with
    | "IR_Label" => return .label (← op "value")
    | "IR_Goto" => return .goto (← op "label")
    | "IR_PrimitiveLiteral" => match fs.lookup "val" with
      | some (.atom a) => return .literal (← op "reg") a
      | _ => return .literal (← op "reg") .none
    | "IR_BinaryOperation" =>
      return .binary (← op "result_reg") (← op "left_reg") (← op "right_reg") (textField fs "operator")
    | "IR_UnaryOperation" => return .unary (← op "result_reg") (textField fs "operator") (← op "operand_reg")
    | "IR_PushParam" => return .pushParam (← op "reg")
    | "IR_PopParam" => return .popParam (← op "reg")
    | "IR_FunctionCall" => return .call (← op "name") (← op "reg")
    | "IR_FunctionReturn" => return .result (← op "reg")
    | "IR_ReturnStmt" => return .ret (← op "reg")
    | "IR_IfStmt" => return .branch (← jumpField e fs "if_false") (← op "cond_reg")
    | "IR_ElifStmt" => return .elseBranch (← jumpField e fs "elif_false") (← op "cond_reg")
    | "IR_Assignment" => return .assign (← op "name") (← op "val")
    | "IR_List" => return .collection (← op "reg") (textField fs "operator") (intField fs "length")
    | "IR_List_VAL" => return .element (← op "reg")
    | "IR_LoopStart" => return .loopStart (← op "reg") (← op "val")
    | "IR_LoopStop" => return .loopStop (← op "reg") (← op "val")
    | "IR_LoopStep" => return .loopStep (← op "reg") (← op "val")
    | "IR_String" => return .string (← op "reg") (intField fs "length")
    | "IR_String_char" => return .char (← op "reg") (textField fs "val")
    | "IR_Parameter" => return .params (← op "reg") (intField fs "length")
    | "IR_Parameter_VAL" => return .param (← op "reg") (← op "name")
    | "IR_Argument" => return .args (← op "reg") (← op "function_call_reg") (intField fs "length")
    | "IR_Argument_VAL" => return .arg (← op "reg")
    | "IR_GetLength" => return .length (← op "result_reg") (← op "pointer_reg")
    | "IR_LstAdd" => return .append (← op "obj_reg") (← op "val_reg") (← op "idx")
    | "IR_NonPrimitiveIndex" => return .index (← op "result_reg") (← op "obj_reg") (← op "idx_reg")
    | "IR_ForLoopVar" => return .loopVar (← op "reg")
    | "IR_NonPrimitiveSlicing" => match e with
      | .fourth => return .slice (← op "result_reg") (← op "obj_reg") (← op "start_reg") (← op "end_reg")
      | _ => throw .noPart
    | _ => throw .noPart
  | _ => throw .noPart

end Instr

end Tabc
