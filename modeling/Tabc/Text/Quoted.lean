import Tabc.Text.Classes

/-!
# Quoted text

`quote` chooses single quotes unless the text holds one and no double quote. `quoteC` always uses double quotes
and writes everything beyond ASCII in 16-bit units, so its result is a literal of the target language.
-/

namespace Tabc.Text

def hexDigit (n : Nat) : Char := Nat.digitChar (n % 16)

def hex : Nat → Nat → List Char
  | 0, _ => []
  | width + 1, n => hex width (n / 16) ++ [hexDigit n]

/-- One character inside quotes: the quote, the backslash and all that is not printable are
escaped, with the shortest of the three hexadecimal forms. -/
def escape (mark c : Char) : List Char :=
  if c == mark || c == '\\' then ['\\', c]
  else if c == '\n' then ['\\', 'n']
  else if c == '\r' then ['\\', 'r']
  else if c == '\t' then ['\\', 't']
  else if isPrintable c then [c]
  else if c.toNat < 0x100 then '\\' :: 'x' :: hex 2 c.toNat
  else if c.toNat < 0x10000 then '\\' :: 'u' :: hex 4 c.toNat
  else '\\' :: 'U' :: hex 8 c.toNat

/-- Single quotes, unless the text holds one and no double quote. -/
def quoteMark (cs : List Char) : Char := if cs.contains '\'' && !cs.contains '"' then '"' else '\''

def quote (s : String) : String :=
  let cs := s.toList
  let mark := quoteMark cs
  String.ofList (mark :: cs.flatMap (escape mark) ++ [mark])

def escapeC (c : Char) : List Char :=
  if c == '"' || c == '\\' then ['\\', c]
  else if c == '\n' then ['\\', 'n']
  else if c == '\r' then ['\\', 'r']
  else if c == '\t' then ['\\', 't']
  else if c.toNat == 8 then ['\\', 'b']
  else if c.toNat == 12 then ['\\', 'f']
  else if 32 ≤ c.toNat && c.toNat ≤ 126 then [c]
  else if c.toNat < 0x10000 then '\\' :: 'u' :: hex 4 c.toNat
  else
    let n := c.toNat - 0x10000
    '\\' :: 'u' :: hex 4 (0xd800 + n / 0x400) ++ '\\' :: 'u' :: hex 4 (0xdc00 + n % 0x400)

def quoteC (s : String) : String := String.ofList ('"' :: s.toList.flatMap escapeC ++ ['"'])

end Tabc.Text
