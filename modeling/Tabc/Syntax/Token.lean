import Tabc.Datum
import Tabc.Edition
import Tabc.Pattern.Basic

/-!
# Tokens

A token is found by an ordered list of rules, of which the first that matches is taken; so a word that begins with
`and`, `or`, `not`, `True` or `False` is cut in two.
-/

namespace Tabc

/-- Kinds of tokens. A punctuation character without a rule is a kind of its own. -/
inductive TokenKind where
  | plus | minus | percent | times | divide
  | lparen | rparen | lbracket | rbracket
  | atLeast | atMost | notEqual | equal | assign | greater | less
  | and | or | not | xor
  | period | arrow | none | bool | string | float | integer | ident
  | newline | tab | colon | comma | dot
  | kwWhile | kwFor | kwIn | kwRange | kwIf | kwElif | kwElse | kwReturn
  | kwInt | kwStr | kwFloat | kwBool | kwDef | kwPrint | kwAppend
  | other (c : Char)
deriving DecidableEq, Inhabited

namespace TokenKind

def name : TokenKind → String
  | plus => "PLUS" | minus => "MINUS" | percent => "MODULE" | times => "TIMES" | divide => "DIVIDE"
  | lparen => "LPAREN" | rparen => "RPAREN" | lbracket => "LBRACKET" | rbracket => "RBRACKET"
  | atLeast => "EQGREATER" | atMost => "EQLESS" | notEqual => "NOTEQUAL" | equal => "EQUAL"
  | assign => "ASSIGN" | greater => "GREATER" | less => "LESS"
  | and => "AND" | or => "OR" | not => "NOT" | xor => "XOR"
  | period => "PERIOD" | arrow => "FUNCTIONANNOTATION" | none => "NONE" | bool => "BOOL"
  | string => "STRING" | float => "FLOAT" | integer => "INTEGER" | ident => "ID"
  | newline => "NEWLINE" | tab => "TAB" | colon => "COLON" | comma => "COMMA" | dot => "DOT"
  | kwWhile => "WHILE" | kwFor => "FOR" | kwIn => "IN" | kwRange => "RANGE" | kwIf => "IF"
  | kwElif => "ELIF" | kwElse => "ELSE" | kwReturn => "RETURN" | kwInt => "TINT" | kwStr => "TSTR"
  | kwFloat => "TFLOAT" | kwBool => "TBOOL" | kwDef => "DEF" | kwPrint => "PRINT"
  | kwAppend => "APPEND"
  | other c => c.toString

end TokenKind

structure Token where
  kind : TokenKind
  value : Atom
  line : Nat
  pos : Nat
deriving DecidableEq, Inhabited

def Token.render (t : Token) : String :=
  s!"LexToken({t.kind.name},{t.value.render},{t.line},{t.pos})"

inductive TokenAction where
  | keep (k : TokenKind)
  | nothing
  | truth
  | quoted
  | float
  | integer
  | word
  | newline
  | tabs
  | skip
deriving DecidableEq

structure TokenRule where
  pattern : Pattern
  action : TokenAction

namespace Pattern

def word : List Char → Pattern
  | [] => .empty
  | [c] => .one (.single c)
  | c :: rest => .seq (.one (.single c)) (word rest)

def digit : Pattern := .one ⟨false, [.digit false]⟩

/-- A numeral without superfluous zeros, after an optional sign. -/
def numeral : Pattern :=
  .seq (.optional (.one (.single '-')))
    (.alt (.seq (.one ⟨false, [.range '1' '9']⟩) (.star digit)) (.one (.single '0')))

def decimal : Pattern := .seq numeral (.seq (.one (.single '.')) (.star digit))

/-- A text between two equal marks; a backslash protects the next character of the line. -/
def between (mark : Char) : Pattern :=
  .seq (.one (.single mark))
    (.seq
      (.star (.alt (.seq (.one (.single '\\')) (.one .dot))
        (.one ⟨true, [.range mark mark, .range '\\' '\\']⟩)))
      (.one (.single mark)))

def quoted : Pattern := .alt (between '"') (between '\'')

def identifier : Pattern :=
  .seq (.one ⟨false, [.range 'a' 'z', .range 'A' 'Z', .range '_' '_']⟩)
    (.star (.one ⟨false, [.range 'a' 'z', .range 'A' 'Z', .range '_' '_', .range '0' '9']⟩))

def comment : Pattern := .seq (.one (.single '#')) (.star (.one .dot))

def either (a b : String) : Pattern := .alt (word a.toList) (word b.toList)

end Pattern

def signRules : List TokenRule :=
  [("==", TokenKind.equal), (">", .greater), ("[", .lbracket), ("<", .less), ("(", .lparen),
    ("+", .plus), ("]", .rbracket), (")", .rparen), ("*", .times), ("^", .xor), ("=", .assign),
    (":", .colon), (",", .comma), ("/", .divide), ("-", .minus), ("%", .percent)].map
    fun (s, k) => ⟨.word s.toList, .keep k⟩

/-- The rules of an edition in the order in which they are tried. Up to the second edition nothing
is written by a rule of its own, and any character left over is a token. -/
def tokenRules (e : Edition) : List TokenRule :=
  let early := e == .first || e == .second
  (if early then [⟨.word "None".toList, .nothing⟩] else []) ++
  [⟨.either "True" "False", .truth⟩,
    ⟨.word "!=".toList, .keep .notEqual⟩,
    ⟨.either "and" "&", .keep .and⟩,
    ⟨.either "or" "|", .keep .or⟩,
    ⟨.either "not" "!", .keep .not⟩,
    ⟨.quoted, .quoted⟩,
    ⟨.decimal, .float⟩,
    ⟨.numeral, .integer⟩,
    ⟨.identifier, .word⟩,
    ⟨.plus (.one (.single '\n')), .newline⟩,
    ⟨.plus (.one (.single '\t')), .tabs⟩,
    ⟨.word "->".toList, .keep .arrow⟩,
    ⟨.comment, .skip⟩,
    ⟨.word ">=".toList, .keep .atLeast⟩,
    ⟨.word "<=".toList, .keep .atMost⟩] ++
  (if early then [] else [⟨.word ".".toList, .keep .dot⟩]) ++
  signRules ++
  (if early then [⟨.one .dot, .keep .period⟩] else [])

def reserved (e : Edition) : List (String × TokenKind) :=
  [("while", .kwWhile), ("for", .kwFor), ("in", .kwIn), ("range", .kwRange), ("if", .kwIf),
    ("elif", .kwElif), ("else", .kwElse), ("return", .kwReturn), ("int", .kwInt), ("str", .kwStr),
    ("float", .kwFloat), ("bool", .kwBool), ("def", .kwDef)] ++
  match e with
  | .first | .second => [("print", .kwPrint)]
  | .third | .fourth => [("None", .none), ("append", .kwAppend)]

/-- Characters that are tokens although no rule matches them. -/
def isPunctuation (c : Char) : Bool := "!@-`~\\|/\x7b\x7d?'\"".toList.contains c

def firstMatch : List TokenRule → List Char → Option (TokenAction × List Char × List Char)
  | [], _ => Option.none
  | r :: rules, cs => match r.pattern.match? cs with
    | some (text, rest) => some (r.action, text, rest)
    | Option.none => firstMatch rules cs

/-- Whether a numeral has a sign, and its digits before and after the point. -/
def splitNumeral (cs : List Char) : Bool × List Char × List Char :=
  let (negative, cs) := match cs with
    | '-' :: rest => (true, rest)
    | _ => (false, cs)
  (negative, cs.takeWhile (· != '.'), (cs.dropWhile (· != '.')).drop 1)

def integerOf (cs : List Char) : Int :=
  let (negative, whole, _) := splitNumeral cs
  if negative then -(Text.natOfDigits whole : Int) else Text.natOfDigits whole

def floatOf (cs : List Char) : Double :=
  let (negative, whole, fraction) := splitNumeral cs
  .ofDecimal negative (Text.natOfDigits (whole ++ fraction)) fraction.length

end Tabc
