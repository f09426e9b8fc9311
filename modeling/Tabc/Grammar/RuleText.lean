import Tabc.Text.Lines
import Tabc.Text.Quoted

/-!
# Rules in a text

A text holds one rule a line: a head, `:` or `::=`, and the symbols of the body. A line that starts with `|` is
another rule of the head before it.
-/

namespace Tabc.Grammar

structure RuleText where
  file : String
  line : Int
  head : String
  body : List String
deriving DecidableEq, Inhabited

inductive LineFlaw where
  | noHead
  | noColon
  | cut (line : String)
deriving DecidableEq

structure TextError where
  file : String
  line : Int
  flaw : LineFlaw
deriving DecidableEq

def TextError.message (e : TextError) : String :=
  s!"{e.file}:{e.line}: " ++ match e.flaw with
    | .noHead => "Misplaced '|'"
    | .noColon => "Syntax error. Expected ':'"
    | .cut line => "Syntax error in rule " ++ Text.quote line

namespace RuleText

/-- Reads one line, given the head before it; a line without words is no rule. -/
def ofWords (last : Option String) (text : List Char) : List String → Except LineFlaw (Option (String × List String))
  | [] => .ok none
  | "|" :: body => match last with
    | some head => .ok (some (head, body))
    | none => .error .noHead
  | [_] => .error (.cut (String.ofList (Text.trim text)))
  | head :: colon :: body => if colon == ":" || colon == "::=" then .ok (some (head, body)) else .error .noColon

/-- Reads lines, of which the first has a given number. -/
def ofLines (file : String) : Int → Option String → List (List Char) → Except TextError (List RuleText)
  | _, _, [] => .ok []
  | line, last, text :: rest =>
    match ofWords last text ((Text.words text).map String.ofList) with
    | .error flaw => .error ⟨file, line, flaw⟩
    | .ok none => ofLines file (line + 1) last rest
    | .ok (some (head, body)) => do
      return ⟨file, line, head, body⟩ :: (← ofLines file (line + 1) (some head) rest)

def read (file : String) (line : Int) (text : String) : Except TextError (List RuleText) :=
  ofLines file (line + 1) none (Text.lines text.toList)

end RuleText

end Tabc.Grammar
