import Tabc.Text.Lines

/-!
# Sums

Expressions over whole numbers of 64 bits, as they stand in `$((…))`. Division goes toward zero.
-/

namespace Tabc.Shell.Sum

inductive Token where
  | number (n : Int)
  | name (s : String)
  | mark (s : String)
deriving DecidableEq, Inhabited

def digit? (c : Char) : Option Nat :=
  if c.isDigit then some (c.toNat - 48)
  else if 'a' ≤ c && c ≤ 'f' then some (c.toNat - 87)
  else if 'A' ≤ c && c ≤ 'F' then some (c.toNat - 55)
  else none

def inBase? (base : Nat) (cs : List Char) : Option Nat :=
  if cs.isEmpty then none
  else cs.foldlM (fun n c => do
    let d ← digit? c
    if d < base then some (n * base + d) else none) 0

/-- A number: a leading zero stands for base eight, `0x` for base sixteen. -/
def number? : List Char → Option Nat
  | '0' :: 'x' :: rest => inBase? 16 rest
  | '0' :: 'X' :: rest => inBase? 16 rest
  | '0' :: c :: rest => inBase? 8 (c :: rest)
  | cs => inBase? 10 cs

def integer? (s : String) : Option Int :=
  match Text.trim s.toList with
  | '-' :: rest => (number? rest).map fun n => -(n : Int)
  | '+' :: rest => (number? rest).map fun n => (n : Int)
  | rest => (number? rest).map fun n => (n : Int)

def levels : List (List String) :=
  [["||"], ["&&"], ["|"], ["^"], ["&"], ["==", "!="], ["<=", ">=", "<", ">"], ["<<", ">>"], ["+", "-"], ["*", "/", "%"]]

/-- All marks; longer ones come first. -/
def marks : List String :=
  ["||", "&&", "==", "!=", "<=", ">=", "<<", ">>", "|", "^", "&", "<", ">", "+", "-", "*", "/", "%",
   "(", ")", "!", "~", "?", ":"]

def isWordChar (c : Char) : Bool := c.isAlphanum || c == '_'

def tokens : Nat → List Char → Option (List Token)
  | 0, _ => none
  | _, [] => some []
  | fuel + 1, c :: rest =>
    if Text.isBlank c then tokens fuel rest
    else if isWordChar c then do
      let word := (c :: rest).takeWhile isWordChar
      let more ← tokens fuel ((c :: rest).dropWhile isWordChar)
      if c.isDigit then return .number (← number? word) :: more
      return .name (String.ofList word) :: more
    else match marks.find? fun m => m.toList.isPrefixOf (c :: rest) with
      | some m => do return .mark m :: (← tokens fuel ((c :: rest).drop m.length))
      | none => none

def wrap (n : Int) : Int := n.bmod (1 <<< 64)

def truth (b : Bool) : Int := if b then 1 else 0

def operate (op : String) (a b : Int) : Option Int :=
  match op with
  | "||" => some (truth (a != 0 || b != 0))
  | "&&" => some (truth (a != 0 && b != 0))
  | "|" => some (wrap ((a.toInt64 ||| b.toInt64).toInt))
  | "^" => some (wrap ((a.toInt64 ^^^ b.toInt64).toInt))
  | "&" => some (wrap ((a.toInt64 &&& b.toInt64).toInt))
  | "==" => some (truth (a == b))
  | "!=" => some (truth (a != b))
  | "<=" => some (truth (a ≤ b))
  | ">=" => some (truth (a ≥ b))
  | "<" => some (truth (a < b))
  | ">" => some (truth (a > b))
  | "<<" => some (wrap (a * Int.ofNat (1 <<< (b % 64).toNat)))
  | ">>" => some (Int.fdiv a (Int.ofNat (1 <<< (b % 64).toNat)))
  | "+" => some (wrap (a + b))
  | "-" => some (wrap (a - b))
  | "*" => some (wrap (a * b))
  | "/" => if b == 0 then none else some (wrap (a.tdiv b))
  | "%" => if b == 0 then none else some (a.tmod b)
  | _ => none

mutual

def choice (value : String → Option Int) : Nat → List Token → Option (Int × List Token)
  | 0, _ => none
  | fuel + 1, ts => do
    let (test, ts) ← level value fuel levels ts
    match ts with
    | .mark "?" :: rest => do
      let (yes, ts) ← choice value fuel rest
      match ts with
      | .mark ":" :: rest => do
        let (no, ts) ← choice value fuel rest
        return (if test != 0 then yes else no, ts)
      | _ => none
    | ts => return (test, ts)

def level (value : String → Option Int) :
    Nat → List (List String) → List Token → Option (Int × List Token)
  | 0, _, _ => none
  | fuel + 1, [], ts => operand value fuel ts
  | fuel + 1, ops :: stronger, ts => do
    let (a, ts) ← level value fuel stronger ts
    levelRest value fuel ops stronger a ts

def levelRest (value : String → Option Int) :
    Nat → List String → List (List String) → Int → List Token → Option (Int × List Token)
  | 0, _, _, _, _ => none
  | fuel + 1, ops, stronger, a, ts => match ts with
    | .mark m :: rest =>
      if ops.contains m then do
        let (b, ts) ← level value fuel stronger rest
        levelRest value fuel ops stronger (← operate m a b) ts
      else some (a, ts)
    | ts => some (a, ts)

def operand (value : String → Option Int) : Nat → List Token → Option (Int × List Token)
  | 0, _ => none
  | fuel + 1, ts => match ts with
    | .number n :: rest => some (wrap n, rest)
    | .name s :: rest => do return (← value s, rest)
    | .mark "(" :: rest => do
      let (a, ts) ← choice value fuel rest
      match ts with
      | .mark ")" :: rest => return (a, rest)
      | _ => none
    | .mark "-" :: rest => do
      let (a, ts) ← operand value fuel rest
      return (wrap (-a), ts)
    | .mark "+" :: rest => operand value fuel rest
    | .mark "!" :: rest => do
      let (a, ts) ← operand value fuel rest
      return (truth (a == 0), ts)
    | .mark "~" :: rest => do
      let (a, ts) ← operand value fuel rest
      return (-a - 1, ts)
    | _ => none

end

def eval (bindings : String → String) (s : String) : Option Int := do
  let value (name : String) : Option Int :=
    let text := bindings name
    if text.isEmpty then some 0 else integer? text
  let ts ← tokens (s.length + 1) s.toList
  if ts.isEmpty then return 0
  match choice value (16 * (ts.length + 2)) ts with
  | some (n, []) => some n
  | _ => none

end Tabc.Shell.Sum
