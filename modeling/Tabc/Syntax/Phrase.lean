import Tabc.Syntax.Token
import Tabc.Automaton.Table

/-!
# The grammar

The rules of each edition, as data: a head, a body and the name of the action that makes a tree of the parts.
-/

namespace Tabc

open Grammar (Assoc Precedence Rule Rules)

inductive Phrase where
  | program | block | statementList | statement | plainStatement | expression
  | type | primitiveType | collectionType | primitiveLiteral | list | tuple | assignment
  | functionDec | parametersOrEmpty | parameterList | parameter
  | functionCall | argumentsOrEmpty | argumentList | returnStmt
  | ifStmt | elifStmt | elseStmt | forRange | range | forEach | whileStmt | empty
deriving DecidableEq, Inhabited

def Phrase.name : Phrase → String
  | .program => "program" | .block => "block" | .statementList => "statement_lst"
  | .statement => "statement" | .plainStatement => "statement_no_new_line"
  | .expression => "expression" | .type => "type" | .primitiveType => "primitive_type"
  | .collectionType => "non_primitive_type" | .primitiveLiteral => "primitive_literal"
  | .list => "list" | .tuple => "tuple" | .assignment => "assignment"
  | .functionDec => "function_dec" | .parametersOrEmpty => "parameter_or_empty"
  | .parameterList => "parameter_lst" | .parameter => "parameter"
  | .functionCall => "function_call" | .argumentsOrEmpty => "argument_or_empty"
  | .argumentList => "argument_lst" | .returnStmt => "return_stmt" | .ifStmt => "if_statement"
  | .elifStmt => "elif_statement" | .elseStmt => "else_statement" | .forRange => "for_loop_range"
  | .range => "range" | .forEach => "for_loop_lst" | .whileStmt => "while_statement"
  | .empty => "empty"

inductive Symbol where
  | tok (k : TokenKind)
  | phrase (p : Phrase)
  | eof
  | error
deriving DecidableEq, Inhabited

inductive Act where
  | pass
  | inner
  | nothing
  | single | extend | extendComma
  | name | typeOf | primType | collType | literal | binary | unary
  | emptyList | listHead | listBody | listTail
  | emptyTuple | tupleHead | tupleBody | tupleTail
  | statement | funDec | params | param | call | args | ret
  | ifThen | elifThen | elseThen | forRange | range | forEach | whileDo
  | assign | assignTyped | append | index | sliceFrom | slice | sliceAll | sliceTo
deriving DecidableEq, Inhabited

/-- A rule of the grammar. `unary` marks the two rules that bind as tightly as a sign. -/
structure Clause where
  head : Phrase
  body : List Symbol
  act : Act
  unary : Bool
deriving Inhabited

namespace Clause

def rule (head : Phrase) (body : List Symbol) (act : Act) : Clause := ⟨head, body, act, false⟩

end Clause

open Clause (rule)

abbrev t (k : TokenKind) : Symbol := .tok k

abbrev n (p : Phrase) : Symbol := .phrase p

/-- Types. Nothing has a type from the third edition on. -/
def typeClauses (withNone : Bool) : List Clause :=
  [rule .type [n .primitiveType] .typeOf, rule .type [n .collectionType] .typeOf,
    rule .primitiveType [t .kwInt] .primType, rule .primitiveType [t .kwStr] .primType,
    rule .primitiveType [t .kwFloat] .primType, rule .primitiveType [t .kwBool] .primType] ++
  (if withNone then [rule .primitiveType [t .none] .primType] else []) ++
  [rule .collectionType [t .lbracket, n .type, t .rbracket] .collType,
    rule .collectionType [t .lparen, n .type, t .rparen] .collType]

def literalClauses (withNone : Bool) : List Clause :=
  [rule .primitiveLiteral [t .integer] .literal, rule .primitiveLiteral [t .float] .literal,
    rule .primitiveLiteral [t .string] .literal, rule .primitiveLiteral [t .bool] .literal] ++
  (if withNone then [rule .primitiveLiteral [t .none] .literal] else [])

def assignClauses : List Clause :=
  [rule .assignment [t .ident, t .assign, n .expression, t .newline] .assign,
    rule .assignment [t .ident, t .colon, n .type, t .assign, n .expression, t .newline] .assignTyped]

def operatorClauses : List Clause :=
  ([TokenKind.plus, .minus, .times, .divide, .percent, .atLeast, .atMost, .greater, .less, .equal,
    .notEqual, .or, .and, .xor].map fun op =>
    rule .expression [n .expression, t op, n .expression] .binary) ++
  [⟨.expression, [t .minus, n .expression], .unary, true⟩,
    ⟨.expression, [t .not, n .expression], .unary, true⟩]

def listClauses : List Clause :=
  [rule .expression [t .lbracket, t .rbracket] .emptyList,
    rule .list [t .lbracket, n .expression] .listHead,
    rule .list [n .list, t .comma, n .expression] .listBody,
    rule .expression [n .list, t .rbracket] .listTail]

def tupleClauses : List Clause :=
  [rule .expression [t .lparen, t .rparen] .emptyTuple,
    rule .tuple [t .lparen, n .expression, t .comma, n .expression] .tupleHead,
    rule .tuple [n .tuple, t .comma, n .expression] .tupleBody,
    rule .expression [n .tuple, t .rparen] .tupleTail,
    rule .expression [t .lparen, n .expression, t .rparen] .inner]

def plainStatements (first : List Phrase) (last : List Phrase) : List Clause :=
  (first ++ [Phrase.returnStmt, .ifStmt, .elifStmt, .elseStmt, .whileStmt, .forRange, .forEach] ++ last).map
    fun p => rule .plainStatement [n p] .pass

def functionClauses : List Clause :=
  [rule .functionDec [t .kwDef, t .ident, t .lparen, n .parametersOrEmpty, t .rparen, t .arrow,
      n .type, t .colon] .funDec,
    rule .parametersOrEmpty [n .parameterList] .params,
    rule .parametersOrEmpty [n .empty] .params,
    rule .parameterList [n .parameterList, t .comma, n .parameter] .extendComma,
    rule .parameterList [n .parameter] .single,
    rule .parameter [t .ident, t .colon, n .type] .param]

def callClauses (head : Phrase) (callee : Symbol) : List Clause :=
  [rule head [callee, t .lparen, n .argumentsOrEmpty, t .rparen] .call,
    rule .argumentsOrEmpty [n .argumentList] .args,
    rule .argumentsOrEmpty [n .empty] .args,
    rule .argumentList [n .argumentList, t .comma, n .expression] .extendComma,
    rule .argumentList [n .expression] .single]

def conditionClauses : List Clause :=
  [rule .ifStmt [t .kwIf, n .expression, t .colon] .ifThen,
    rule .elifStmt [t .kwElif, n .expression, t .colon] .elifThen,
    rule .elseStmt [t .kwElse, t .colon] .elseThen]

def rangeClauses : List Clause :=
  [rule .forRange [t .kwFor, t .ident, t .kwIn, n .range, t .colon] .forRange,
    rule .range [t .kwRange, t .lparen, n .expression, t .rparen] .range,
    rule .range [t .kwRange, t .lparen, n .expression, t .comma, n .expression, t .rparen] .range,
    rule .range [t .kwRange, t .lparen, n .expression, t .comma, n .expression, t .comma,
      n .expression, t .rparen] .range]

def forEachClause (coll : Symbol) : Clause :=
  rule .forEach [t .kwFor, t .ident, t .kwIn, coll, t .colon] .forEach

def whileClause : Clause := rule .whileStmt [t .kwWhile, n .expression, t .colon] .whileDo

def appendClause : Clause :=
  rule .plainStatement
    [n .expression, t .dot, t .kwAppend, t .lparen, n .expression, t .rparen] .append

def emptyClause : Clause := rule .empty [] .nothing

def blockClauses : List Clause :=
  [rule .program [n .block] .pass,
    rule .block [n .block, n .statement] .extend,
    rule .block [n .statement] .single]

/-- The grammar of the first edition: an assignment is an expression, too. -/
def clauses1 : List Clause :=
  [rule .program [n .statement] .pass,
    rule .program [n .block] .pass,
    rule .block [n .statementList] .pass,
    rule .statementList [n .statementList, n .statement] .extend,
    rule .statementList [n .statement] .single,
    rule .expression [t .ident] .name,
    rule .expression [n .assignment] .pass,
    rule .expression [n .primitiveLiteral] .pass] ++
  typeClauses false ++ literalClauses false ++ assignClauses ++ operatorClauses ++ listClauses ++
  [rule .expression [n .expression, t .kwAppend, t .lparen, n .expression, t .rparen] .append] ++
  tupleClauses ++
  [rule .statement [n .plainStatement, t .newline] .statement,
    rule .statement [n .assignment] .statement] ++
  plainStatements [.functionDec, .functionCall] [] ++ functionClauses ++
  callClauses .functionCall (t .ident) ++
  [rule .returnStmt [t .kwReturn, n .expression] .ret] ++ conditionClauses ++ rangeClauses ++
  [forEachClause (n .collectionType), forEachClause (t .ident), whileClause, emptyClause]

def clauses2 : List Clause :=
  blockClauses ++
  [rule .expression [t .ident] .name, rule .expression [n .primitiveLiteral] .pass] ++
  typeClauses false ++ literalClauses false ++ assignClauses ++ operatorClauses ++ listClauses ++
  tupleClauses ++
  [rule .statement [n .plainStatement, t .newline] .statement,
    rule .statement [n .plainStatement] .statement,
    rule .statement [n .assignment] .statement] ++
  plainStatements [.functionDec, .functionCall] [] ++ functionClauses ++
  callClauses .functionCall (t .ident) ++
  [rule .returnStmt [t .kwReturn, n .expression] .ret] ++ conditionClauses ++ rangeClauses ++
  [forEachClause (n .expression), whileClause, emptyClause]

def clauses3 : List Clause :=
  blockClauses ++
  [rule .expression [t .ident] .name, rule .expression [n .primitiveLiteral] .pass] ++
  typeClauses true ++ literalClauses true ++ operatorClauses ++ listClauses ++ tupleClauses ++
  [rule .statement [n .plainStatement, t .newline] .statement,
    rule .statement [n .plainStatement] .statement,
    rule .statement [n .assignment] .statement] ++
  plainStatements [.functionDec, .functionCall] [.expression] ++ functionClauses ++
  callClauses .functionCall (t .ident) ++
  [rule .returnStmt [t .kwReturn, n .expression] .ret] ++ conditionClauses ++ rangeClauses ++
  [forEachClause (n .expression), whileClause] ++ assignClauses ++
  [rule .assignment [t .ident, t .assign, n .functionCall, t .newline] .assign,
    rule .assignment [t .ident, t .colon, n .type, t .assign, n .functionCall, t .newline] .assignTyped,
    appendClause,
    rule .expression [n .expression, t .lbracket, n .expression, t .rbracket] .index,
    rule .expression [n .expression, t .lbracket, n .functionCall, t .rbracket] .index,
    emptyClause]

/-- The grammar of the fourth edition: calls are expressions, and there are slices. -/
def clauses4 : List Clause :=
  blockClauses ++
  [rule .expression [t .ident] .name, rule .expression [n .primitiveLiteral] .pass] ++
  typeClauses true ++ literalClauses true ++ operatorClauses ++ listClauses ++ tupleClauses ++
  [rule .statement [n .plainStatement, t .newline] .statement,
    rule .statement [n .plainStatement] .statement,
    rule .statement [n .assignment] .statement,
    rule .statement [n .expression, t .newline] .statement] ++
  plainStatements [.functionDec] [] ++ functionClauses ++
  callClauses .expression (n .expression) ++
  [rule .returnStmt [t .kwReturn, n .expression, t .newline] .ret] ++ conditionClauses ++
  rangeClauses ++ [forEachClause (n .expression), whileClause] ++ assignClauses ++
  [appendClause,
    rule .expression [n .expression, t .lbracket, n .expression, t .rbracket] .index,
    rule .expression [n .expression, t .lbracket, n .expression, t .colon, t .rbracket] .sliceFrom,
    rule .expression [n .expression, t .lbracket, n .expression, t .colon, n .expression, t .rbracket]
      .slice,
    rule .expression [n .expression, t .lbracket, t .colon, t .rbracket] .sliceAll,
    rule .expression [n .expression, t .lbracket, t .colon, n .expression, t .rbracket] .sliceTo,
    emptyClause]

def clauses : Edition → List Clause
  | .first => clauses1
  | .second => clauses2
  | .third => clauses3
  | .fourth => clauses4

/-- The number of a token kind. All punctuation without a rule has one number. -/
def TokenKind.code : TokenKind → Nat
  | .plus => 0 | .minus => 1 | .percent => 2 | .times => 3 | .divide => 4 | .lparen => 5
  | .rparen => 6 | .lbracket => 7 | .rbracket => 8 | .atLeast => 9 | .atMost => 10
  | .notEqual => 11 | .equal => 12 | .assign => 13 | .greater => 14 | .less => 15 | .and => 16
  | .or => 17 | .not => 18 | .xor => 19 | .period => 20 | .arrow => 21 | .none => 22 | .bool => 23
  | .string => 24 | .float => 25 | .integer => 26 | .ident => 27 | .newline => 28 | .tab => 29
  | .colon => 30 | .comma => 31 | .dot => 32 | .kwWhile => 33 | .kwFor => 34 | .kwIn => 35
  | .kwRange => 36 | .kwIf => 37 | .kwElif => 38 | .kwElse => 39 | .kwReturn => 40 | .kwInt => 41
  | .kwStr => 42 | .kwFloat => 43 | .kwBool => 44 | .kwDef => 45 | .kwPrint => 46 | .kwAppend => 47
  | .other _ => 48

def Phrase.code : Phrase → Nat
  | .program => 64 | .block => 65 | .statementList => 66 | .statement => 67 | .plainStatement => 68
  | .expression => 69 | .type => 70 | .primitiveType => 71 | .collectionType => 72
  | .primitiveLiteral => 73 | .list => 74 | .tuple => 75 | .assignment => 76 | .functionDec => 77
  | .parametersOrEmpty => 78 | .parameterList => 79 | .parameter => 80 | .functionCall => 81
  | .argumentsOrEmpty => 82 | .argumentList => 83 | .returnStmt => 84 | .ifStmt => 85
  | .elifStmt => 86 | .elseStmt => 87 | .forRange => 88 | .range => 89 | .forEach => 90
  | .whileStmt => 91 | .empty => 92

def Symbol.code : Symbol → Nat
  | .tok k => k.code
  | .phrase p => p.code
  | .eof => 60
  | .error => 62

def Symbol.name : Symbol → String
  | .tok k => k.name
  | .phrase p => p.name
  | .eof => "$end"
  | .error => "error"

def strengths : List (TokenKind × Precedence) :=
  let level (a : Assoc) (l : Int) (ks : List TokenKind) := ks.map fun k => (k, Precedence.mk a l)
  level .nonassoc 1 [.atLeast, .atMost, .greater, .less, .equal, .notEqual, .xor] ++
  level .left 2 [.or, .and] ++ level .left 3 [.plus, .minus] ++
  level .left 4 [.times, .divide, .percent] ++ level .right 5 [.assign]

def unaryStrength : Precedence := ⟨.right, 6⟩

/-- The strength of a rule: that of its last terminal unless it is marked. -/
def Clause.strength (c : Clause) : Precedence :=
  if c.unary then unaryStrength else
    let last := c.body.reverse.findSome? fun s => match s with
      | .tok k => some k
      | _ => none
    (last.bind fun k => strengths.lookup k).getD .none

def grammar (e : Edition) : Rules :=
  let cs := clauses e
  let rules := cs.zipIdx.map fun (c, i) =>
    (⟨c.head.code, c.body.map Symbol.code, c.strength, (i : Int)⟩ : Rule)
  { rules := (⟨63, [Phrase.program.code], .none, 0⟩ :: rules).toArray
    terminals := 1 <<< 48 - 1 + 1 <<< 62
    nonterminals := cs.foldl (fun m c => m ||| 1 <<< c.head.code) 0
    endMark := Symbol.eof.code
    dotMark := 61
    precs := strengths.map fun (k, p) => (k.code, p) }

def ruleText (e : Edition) : Nat → String
  | 0 => "S' -> program"
  | i + 1 => match (clauses e)[i]? with
    | some c =>
      let body := if c.body.isEmpty then "<empty>" else " ".intercalate (c.body.map Symbol.name)
      s!"{c.head.name} -> {body}"
    | none => ""

end Tabc
