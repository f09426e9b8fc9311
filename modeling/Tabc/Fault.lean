import Tabc.Edition
import Tabc.Datum

/-!
# Faults

A `Rejection` is a rule of the language that a program breaks, or a request that a stage cannot serve; it has a
message. The other faults say that a value was not of the form that a step needs.
-/

namespace Tabc

/-- A rule of the language, with the written forms of what broke it. -/
inductive Rejection where
  | syntaxAt (line column : Nat) (token : String)
  | redeclared (name : String)
  | undefinedVariable (name : String)
  | redeclaredFunction (name : String)
  | takenByVariable (name : String)
  | undefinedFunction (name : String)
  | undefinedEmitted (name : String)
  | unchecked (kind tree : String)
  | returnOutside
  | returnMismatch (tree : String)
  | otherClass
  | otherType (left right : String)
  | expected (place want got : String)
  | assignMismatch (want got tree : String)
  | loopMismatch (want got tree : String)
  /-- An element of a collection has not the type of the first one. -/
  | mixedElements (first : String) (place : Nat) (got : String)
  | badOperand (side got : String)
  | operandMismatch (left right : String)
  | badUnary (got : String)
  | notAppendable (kind : String)
  | unknownLength (name : String)
deriving DecidableEq

def Rejection.message (e : Edition) : Rejection → String
  | .syntaxAt line column token => s!"Unable to parse at line={line} col={column}. At token{token}"
  | .redeclared name => s!"Redeclaring variable named \"{name}\""
  | .undefinedVariable name => s!"Referencing undefined variable \"{name}\""
  | .redeclaredFunction name => s!"Re-declaring function with same param types \"{name}\""
  | .takenByVariable name => s!"Function \"{name}\" is previously declared as variable"
  | .undefinedFunction name => s!"Referencing undefined function \"{name}\""
  | .undefinedEmitted name => s!"C_Gen: Referencing undefined function \"{name}\""
  | .unchecked kind tree => s!"Missing function check_{kind}. Trying to process {tree}"
  | .returnOutside => "Unexpected empty list for st.func_call_stack"
  | .returnMismatch tree => s!"The return type does no match the last declared function callat node: {tree}"
  | .otherClass => "Different class type: t1=Type t2=Type"
  | .otherType left right => match e with
    | .fourth => s!"Encountered different type: t1={left} t2={right}"
    | _ => s!"Different type: t1={left} t2={right}"
  | .expected place want got => s!"Expect {place} to be {want}, but got {got}"
  | .assignMismatch want got tree => match e with
    | .fourth => s!"Assignment type mismatch. RHS should be {want} instead of {got}.\nProcessing {tree}"
    | _ => s!"Assignment type mismatch. RHS should be {want} instead of {got}"
  | .loopMismatch want got tree =>
    s!"For loop variant type mismatch. Got {got}, list type is {want}.\nProcessing {tree}"
  | .mixedElements first place got =>
    s!"Mismatched types in list literal, first element is of type {first}, {place}-th element is of type {got}"
  | .badOperand side got => match e with
    | .fourth => s!"Invalid type on Binary Operator {side}={got}"
    | _ => s!"Invalid Type on Binary Operator {side}={got}"
  | .operandMismatch left right => s!"Type mismatch on Binary Operator left={left} right={right}"
  | .badUnary got => match e with
    | .fourth => s!"Invalid type on Unary Operator right={got}"
    | _ => s!"Invalid Type on Unary Operator right={got}"
  | .notAppendable kind => s!"Cannot use append on type {kind}"
  | .unknownLength name => s!"C_AST_Gen Error: {name} is not previously defined as non-primitive"

inductive Fault where
  | rejected (r : Rejection)
  | failed (r : Rejection)
  | unmet (note : Option String)
  | noPart
  | wrongKind
  | noKey
  | outOfRange
  | unknownName
  | unassigned
  | badValue
  | divisionByZero
  | overflow
  | malformed
  | halted
  | exhausted
deriving DecidableEq

end Tabc
