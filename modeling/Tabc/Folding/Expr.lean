import Tabc.Number.Arith

/-!
# Expressions in a text

`Expr.read` reads one expression from a text: constants, names, calls, operators and chains of comparisons.
-/

namespace Tabc

inductive UnOp where
  | neg
  | pos
  | invert
  | not
deriving DecidableEq, Inhabited

inductive Expr where
  | const (a : Atom)
  | name (s : String)
  | unary (op : UnOp) (x : Expr)
  | binary (op : BinOp) (x y : Expr)
  | compare (first : Expr) (rest : List (CmpOp × Expr))
  | both (x y : Expr)
  | either (x y : Expr)
  | call (f : Expr) (args : List Expr)
  | part (x : Expr) (name : String)
  | item (x : Expr) (idx : Expr)
deriving Inhabited

namespace Expr

inductive Word where
  | const (a : Atom)
  | text (s : String)
  | name (s : String)
  | mark (s : String)
deriving DecidableEq, Inhabited

def keywords : List String :=
  ["as", "assert", "async", "await", "break", "class", "continue", "def", "del", "elif", "else",
   "except", "finally", "for", "from", "global", "if", "import", "lambda", "nonlocal", "pass",
   "raise", "return", "try", "while", "with", "yield", "and", "or", "not", "in", "is"]

def marks : List String :=
  ["**", "//", "<<", ">>", "<=", ">=", "==", "!=", "+", "-", "*", "/", "%", "@", "&", "|", "^", "~",
   "<", ">", "(", ")", "[", "]", ",", ".", "="]

def isNameStart (c : Char) : Bool := c.isAlpha || c == '_' || (c.toNat ≥ 128 && Text.isWord c && !Text.isDigit c)

def isNameChar (c : Char) : Bool := c.isAlphanum || c == '_' || (c.toNat ≥ 128 && Text.isWord c)

def hexValue? (cs : List Char) : Option Nat :=
  cs.foldl (fun acc c => acc.bind fun n =>
    if c.isDigit then some (16 * n + (c.toNat - 48))
    else if 'a' ≤ c && c ≤ 'f' then some (16 * n + (c.toNat - 87))
    else if 'A' ≤ c && c ≤ 'F' then some (16 * n + (c.toNat - 55))
    else none) (some 0)

/-- The character of a code, and of two codes that stand for one character. -/
def unitChars (n : Nat) (rest : List Char) : List Char × List Char :=
  if 0xd800 ≤ n && n < 0xdc00 then
    match rest with
    | '\\' :: 'u' :: more => match hexValue? (more.take 4) with
      | some m =>
        if 0xdc00 ≤ m && m < 0xe000 then
          ([Char.ofNat (0x10000 + (n - 0xd800) * 0x400 + (m - 0xdc00))], more.drop 4)
        else ([Char.ofNat 0xfffd], rest)
      | none => ([Char.ofNat 0xfffd], rest)
    | _ => ([Char.ofNat 0xfffd], rest)
  else ([Char.ofNat n], rest)

/-- The octal digits at the start of a text, three at most. -/
def octal (cs : List Char) : List Char := (cs.take 3).takeWhile fun c => '0' ≤ c && c ≤ '7'

def escaped : List Char → Option (List Char × List Char)
  | 'n' :: rest => some (['\n'], rest)
  | 't' :: rest => some (['\t'], rest)
  | 'r' :: rest => some (['\r'], rest)
  | 'b' :: rest => some ([Char.ofNat 8], rest)
  | 'f' :: rest => some ([Char.ofNat 12], rest)
  | 'a' :: rest => some ([Char.ofNat 7], rest)
  | 'v' :: rest => some ([Char.ofNat 11], rest)
  | '\\' :: rest => some (['\\'], rest)
  | '\'' :: rest => some (['\''], rest)
  | '"' :: rest => some (['"'], rest)
  | '\n' :: rest => some ([], rest)
  | 'x' :: rest =>
    if rest.length < 2 then none
    else (hexValue? (rest.take 2)).map fun n => ([Char.ofNat n], rest.drop 2)
  | 'u' :: rest =>
    if rest.length < 4 then none
    else (hexValue? (rest.take 4)).map fun n => unitChars n (rest.drop 4)
  | 'U' :: rest =>
    if rest.length < 8 then none
    else (hexValue? (rest.take 8)).map fun n => ([Char.ofNat n], rest.drop 8)
  | 'N' :: _ => none
  | cs => match octal cs with
    | [] => some (['\\'], cs)
    | ds => some ([Char.ofNat (ds.foldl (fun n c => 8 * n + (c.toNat - 48)) 0)], cs.drop ds.length)

/-- The rest of a quoted text up to its closing mark, and what follows. -/
def quoted (closing : List Char) (long : Bool) : Nat → List Char → Option (List Char × List Char)
  | 0, _ => none
  | fuel + 1, cs =>
    if closing.isPrefixOf cs then some ([], cs.drop closing.length)
    else match cs with
      | [] => none
      | '\\' :: rest => do
        let (c, rest) ← escaped rest
        let (text, rest) ← quoted closing long fuel rest
        return (c ++ text, rest)
      | c :: rest =>
        if c == '\n' && !long then none
        else do
          let (text, rest) ← quoted closing long fuel rest
          return (c :: text, rest)

def quotedText (cs : List Char) : Option (List Char × List Char) :=
  match cs with
  | q :: rest =>
    if [q, q].isPrefixOf rest then quoted [q, q, q] true (cs.length + 1) (rest.drop 2)
    else quoted [q] false (cs.length + 1) rest
  | [] => none

def spanNumber (cs : List Char) : List Char × Bool × List Char :=
  let whole := cs.takeWhile Char.isDigit
  let rest := cs.dropWhile Char.isDigit
  let (fraction, rest, hasPoint) := match rest with
    | '.' :: more => ('.' :: more.takeWhile Char.isDigit, more.dropWhile Char.isDigit, true)
    | more => ([], more, false)
  let power := match rest with
    | 'e' :: more | 'E' :: more =>
      let sign := match more with
        | '-' :: _ => ['-']
        | '+' :: _ => ['+']
        | _ => []
      let digits := (more.drop sign.length).takeWhile Char.isDigit
      if digits.isEmpty then [] else 'e' :: sign ++ digits
    | _ => []
  (whole ++ fraction ++ power, hasPoint || !power.isEmpty, rest.drop power.length)

/-- A number at the start of a text. A whole number has no zeros in front. -/
def numberAt (cs : List Char) : Option (Atom × List Char) :=
  let (digits, isFraction, rest) := spanNumber cs
  if (rest.head?.map isNameStart).getD false then none
  else if isFraction then (Double.readMagnitude false digits).map fun x => (.float x, rest)
  else if digits.length > 1 && digits.head? == some '0' && digits.any (· != '0') then none
  else some (.int (Double.natOf digits), rest)

/-- The words of a text; `depth` counts the open brackets, inside which line breaks are blanks. -/
def words : Nat → Nat → List Char → Option (List Word)
  | 0, _, _ => none
  | _ + 1, _, [] => some []
  | fuel + 1, depth, c :: rest =>
    if c == ' ' || c == '\t' || c == Char.ofNat 12 then words fuel depth rest
    else if c == '\n' || c == '\r' then
      if depth > 0 || rest.all Text.isBlank then words fuel depth rest else none
    else if c == '#' then words fuel depth (rest.dropWhile (· != '\n'))
    else if c == '"' || c == '\'' then do
      let (text, rest) ← quotedText (c :: rest)
      return .text (String.ofList text) :: (← words fuel depth rest)
    else if c.isDigit || (c == '.' && (rest.head?.map Char.isDigit).getD false) then do
      let (a, rest) ← numberAt (c :: rest)
      return .const a :: (← words fuel depth rest)
    else if isNameStart c then
      let name := (c :: rest).takeWhile isNameChar
      let after := (c :: rest).dropWhile isNameChar
      (words fuel depth after).map (.name (String.ofList name) :: ·)
    else match marks.find? fun m => m.toList.isPrefixOf (c :: rest) with
      | none => none
      | some m =>
        let depth := if m == "(" || m == "[" then depth + 1
          else if m == ")" || m == "]" then depth - 1 else depth
        (words fuel depth ((c :: rest).drop m.length)).map (.mark m :: ·)

def operatorAt (level : Nat) (mark : String) : Option BinOp :=
  match level, mark with
  | 4, "|" => some .bitOr
  | 5, "^" => some .bitXor
  | 6, "&" => some .bitAnd
  | 7, "<<" => some .shiftLeft
  | 7, ">>" => some .shiftRight
  | 8, "+" => some .add
  | 8, "-" => some .sub
  | 9, "*" => some .mul
  | 9, "/" => some .div
  | 9, "//" => some .floorDiv
  | 9, "%" => some .mod
  | 9, "@" => some .matmul
  | _, _ => none

def comparisonAt : List Word → Option (CmpOp × List Word)
  | .mark "<" :: rest => some (.lt, rest)
  | .mark "<=" :: rest => some (.le, rest)
  | .mark ">" :: rest => some (.gt, rest)
  | .mark ">=" :: rest => some (.ge, rest)
  | .mark "==" :: rest => some (.eq, rest)
  | .mark "!=" :: rest => some (.ne, rest)
  | .name "is" :: .name "not" :: rest => some (.isOther, rest)
  | .name "is" :: rest => some (.isSame, rest)
  | .name "in" :: rest => some (.isIn, rest)
  | .name "not" :: .name "in" :: rest => some (.notIn, rest)
  | _ => none

def joinTexts : List Word → String × List Word
  | .text s :: rest =>
    let (t, rest) := joinTexts rest
    (s ++ t, rest)
  | rest => ("", rest)

mutual

/-- An expression whose operators bind at least as tightly as a level. -/
def parse : Nat → Nat → List Word → Option (Expr × List Word)
  | 0, _, _ => none
  | fuel + 1, level, ws => match level with
    | 0 => do
      let (x, rest) ← parse fuel 1 ws
      alternatives fuel x rest
    | 1 => do
      let (x, rest) ← parse fuel 2 ws
      conjuncts fuel x rest
    | 2 => match ws with
      | .name "not" :: rest => do
        let (x, rest) ← parse fuel 2 rest
        return (.unary .not x, rest)
      | _ => parse fuel 3 ws
    | 3 => do
      let (x, rest) ← parse fuel 4 ws
      let (more, rest) ← comparisons fuel rest
      return (if more.isEmpty then x else .compare x more, rest)
    | 10 => match ws with
      | .mark "-" :: rest => do
        let (x, rest) ← parse fuel 10 rest
        return (.unary .neg x, rest)
      | .mark "+" :: rest => do
        let (x, rest) ← parse fuel 10 rest
        return (.unary .pos x, rest)
      | .mark "~" :: rest => do
        let (x, rest) ← parse fuel 10 rest
        return (.unary .invert x, rest)
      | _ => do
        let (x, rest) ← parse fuel 11 ws
        match rest with
        | .mark "**" :: rest => do
          let (y, rest) ← parse fuel 10 rest
          return (.binary .pow x y, rest)
        | rest => return (x, rest)
    | 11 => match ws with
      | .const a :: rest => trailers fuel (.const a) rest
      | .text s :: rest =>
        let (t, rest) := joinTexts rest
        trailers fuel (.const (.text (s ++ t))) rest
      | .name "True" :: rest => trailers fuel (.const (.bool true)) rest
      | .name "False" :: rest => trailers fuel (.const (.bool false)) rest
      | .name "None" :: rest => trailers fuel (.const .none) rest
      | .name s :: rest => if keywords.contains s then none else trailers fuel (.name s) rest
      | .mark "(" :: rest => do
        let (x, rest) ← parse fuel 0 rest
        match rest with
        | .mark ")" :: rest => trailers fuel x rest
        | _ => none
      | _ => none
    | level => do
      let (x, rest) ← parse fuel (level + 1) ws
      operands fuel level x rest

def operands : Nat → Nat → Expr → List Word → Option (Expr × List Word)
  | 0, _, _, _ => none
  | fuel + 1, level, x, ws => match ws with
    | .mark m :: rest => match operatorAt level m with
      | some op => do
        let (y, rest) ← parse fuel (level + 1) rest
        operands fuel level (.binary op x y) rest
      | none => some (x, ws)
    | _ => some (x, ws)

def alternatives : Nat → Expr → List Word → Option (Expr × List Word)
  | 0, _, _ => none
  | fuel + 1, x, ws => match ws with
    | .name "or" :: rest => do
      let (y, rest) ← parse fuel 1 rest
      alternatives fuel (.either x y) rest
    | _ => some (x, ws)

def conjuncts : Nat → Expr → List Word → Option (Expr × List Word)
  | 0, _, _ => none
  | fuel + 1, x, ws => match ws with
    | .name "and" :: rest => do
      let (y, rest) ← parse fuel 2 rest
      conjuncts fuel (.both x y) rest
    | _ => some (x, ws)

def comparisons : Nat → List Word → Option (List (CmpOp × Expr) × List Word)
  | 0, _ => none
  | fuel + 1, ws => match comparisonAt ws with
    | some (op, rest) => do
      let (y, rest) ← parse fuel 4 rest
      let (more, rest) ← comparisons fuel rest
      return ((op, y) :: more, rest)
    | none => some ([], ws)

def trailers : Nat → Expr → List Word → Option (Expr × List Word)
  | 0, _, _ => none
  | fuel + 1, x, ws => match ws with
    | .mark "(" :: rest => do
      let (args, rest) ← arguments fuel rest
      trailers fuel (.call x args) rest
    | .mark "." :: .name s :: rest => trailers fuel (.part x s) rest
    | .mark "[" :: rest => do
      let (i, rest) ← parse fuel 0 rest
      match rest with
      | .mark "]" :: rest => trailers fuel (.item x i) rest
      | _ => none
    | _ => some (x, ws)

def arguments : Nat → List Word → Option (List Expr × List Word)
  | 0, _ => none
  | fuel + 1, ws => match ws with
    | .mark ")" :: rest => some ([], rest)
    | ws => do
      let (x, rest) ← match ws with
        | .name _ :: .mark "=" :: rest => parse fuel 0 rest
        | ws => parse fuel 0 ws
      match rest with
      | .mark ")" :: rest => return ([x], rest)
      | .mark "," :: rest => do
        let (xs, rest) ← arguments fuel rest
        return (x :: xs, rest)
      | _ => none

end

def read (s : String) : Option Expr := do
  let cs := s.toList
  let ws ← words (cs.length + 1) 0 cs
  match parse (20 * (ws.length + 2)) 0 ws with
  | some (x, []) => some x
  | _ => none

end Expr

end Tabc
