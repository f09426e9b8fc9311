import Tabc.Shell.Session

/-!
# Built-in commands

The commands that need no other program, and `cat`. A name of no command has the status 127.
-/

namespace Tabc.Shell

def octal (most : Nat) (cs : List Char) : Char × List Char :=
  let ds := (cs.take most).takeWhile fun c => '0' ≤ c && c ≤ '7'
  (Char.ofNat ((ds.foldl (fun n c => n * 8 + (c.toNat - 48)) 0) % 256), cs.drop ds.length)

def escaped? (c : Char) : Option Char :=
  match c with
  | 'n' => some '\n'
  | 't' => some '\t'
  | 'r' => some '\r'
  | 'a' => some (Char.ofNat 7)
  | 'b' => some (Char.ofNat 8)
  | 'f' => some (Char.ofNat 12)
  | 'v' => some (Char.ofNat 11)
  | '\\' => some '\\'
  | _ => none

/-- A text with its backslashes resolved, and whether all goes on after it: `\c` ends all output. -/
def unescape : Nat → List Char → List Char × Bool
  | 0, _ => ([], true)
  | _, [] => ([], true)
  | _ + 1, '\\' :: 'c' :: _ => ([], false)
  | fuel + 1, '\\' :: '0' :: rest =>
    let (c, rest) := octal 3 rest
    let (cs, more) := unescape fuel rest
    (c :: cs, more)
  | fuel + 1, '\\' :: c :: rest =>
    let (cs, more) := unescape fuel rest
    match escaped? c with
    | some e => (e :: cs, more)
    | none => ('\\' :: c :: cs, more)
  | fuel + 1, c :: rest =>
    let (cs, more) := unescape fuel rest
    (c :: cs, more)

def echo (args : List String) : SessionM Unit := do
  let (bare, args) := match args with
    | "-n" :: rest => (true, rest)
    | args => (false, args)
  let text := " ".intercalate args
  let (cs, more) := unescape (text.length + 1) text.toList
  put (String.ofList cs ++ if bare || !more then "" else "\n")
  finish 0

/-- A text brought to a least width, at the left or at the right. -/
def pad (left zero : Bool) (width : Nat) (s : String) : String :=
  let blanks := String.ofList (List.replicate (width - s.length) (if zero && !left then '0' else ' '))
  if left then s ++ blanks
  else if zero && s.startsWith "-" then "-" ++ blanks ++ (s.drop 1).toString
  else blanks ++ s

/-- One pass over a format: what is printed, the arguments left, whether one was used, whether all
numbers were numbers, and whether printing goes on. -/
structure Formatted where
  text : List Char
  rest : List String
  used : Bool
  good : Bool
  more : Bool

/-- The number that an argument writes: a quote stands before a character. -/
def argNumber (s : String) : Int × Bool :=
  match s.toList with
  | [] => (0, true)
  | '\'' :: c :: _ => (c.toNat, true)
  | '"' :: c :: _ => (c.toNat, true)
  | _ => match Sum.integer? s with
    | some n => (n, true)
    | none => (0, false)

def format : Nat → List Char → List String → Formatted
  | 0, _, args => ⟨[], args, false, true, true⟩
  | _, [], args => ⟨[], args, false, true, true⟩
  | _ + 1, '\\' :: 'c' :: _, args => ⟨[], args, false, true, false⟩
  | fuel + 1, '\\' :: c :: rest, args =>
    if '0' ≤ c && c ≤ '7' then
      let (d, rest) := octal 3 (c :: rest)
      let f := format fuel rest args
      { f with text := d :: f.text }
    else
      let f := format fuel rest args
      match escaped? c with
      | some e => { f with text := e :: f.text }
      | none => { f with text := '\\' :: c :: f.text }
  | fuel + 1, '%' :: '%' :: rest, args =>
    let f := format fuel rest args
    { f with text := '%' :: f.text }
  | fuel + 1, '%' :: rest, args =>
    let flags := rest.takeWhile fun c => "-0+ #".toList.contains c
    let rest := rest.drop flags.length
    let digits := rest.takeWhile Char.isDigit
    let rest := rest.drop digits.length
    let width := (String.ofList digits).toNat?.getD 0
    let (limit, rest) := match rest with
      | '.' :: more =>
        let ds := more.takeWhile Char.isDigit
        (some ((String.ofList ds).toNat?.getD 0), more.drop ds.length)
      | rest => (none, rest)
    match rest with
    | [] => ⟨[], args, false, false, false⟩
    | kind :: rest =>
      let arg := args.headD ""
      let (n, good) := argNumber arg
      let unsigned := (n % Int.ofNat (1 <<< 64)).toNat
      let signed := if n < 0 then toString n
        else if flags.contains '+' then "+" ++ toString n
        else if flags.contains ' ' then " " ++ toString n
        else toString n
      let cut (s : String) : String := match limit with
        | some k => (s.take k).toString
        | none => s
      let left := flags.contains '-'
      let zero := flags.contains '0'
      let number (s : String) : String := pad left zero width s
      let shown : Option (String × Bool × Bool) := match kind with
        | 's' => some (pad left false width (cut arg), true, true)
        | 'b' =>
          let (cs, more) := unescape (arg.length + 1) arg.toList
          some (pad left false width (cut (String.ofList cs)), true, more)
        | 'c' => some (pad left false width ((arg.take 1).toString), true, true)
        | 'd' | 'i' => some (number signed, good, true)
        | 'u' => some (number (toString unsigned), good, true)
        | 'x' => some (number (String.ofList (Nat.toDigits 16 unsigned)), good, true)
        | 'X' => some (number (String.ofList (Nat.toDigits 16 unsigned)).toUpper, good, true)
        | 'o' => some (number (String.ofList (Nat.toDigits 8 unsigned)), good, true)
        | _ => none
      match shown with
      | none => ⟨[], args, false, false, false⟩
      | some (s, good, false) => ⟨s.toList, args.drop 1, true, good, false⟩
      | some (s, good, true) =>
        let f := format fuel rest (args.drop 1)
        { f with text := s.toList ++ f.text, used := true, good := good && f.good }
  | fuel + 1, c :: rest, args =>
    let f := format fuel rest args
    { f with text := c :: f.text }

/-- Prints by a format, over again as long as arguments are left. -/
def printAll (cs : List Char) : Nat → List String → Bool → SessionM Unit
  | 0, _, good => finish (if good then 0 else 1)
  | fuel + 1, args, good => do
    let f := format (cs.length + 1) cs args
    put (String.ofList f.text)
    let good := good && f.good
    if f.used && f.more && !f.rest.isEmpty then printAll cs fuel f.rest good
    else finish (if good then 0 else 1)

def printf (args : List String) : SessionM Unit :=
  match args with
  | [] => throw (.exit 2)
  | "--" :: form :: args => printAll form.toList (args.length + 1) args true
  | form :: args => printAll form.toList (args.length + 1) args true

def separators (s : Session) : List Char := ((s.bindings.lookup "IFS").getD " \t\n").toList

def isBlankIn (seps : List Char) (c : Char) : Bool := seps.contains c && (isSpace c || c == '\n')

/-- A line, its characters with a mark whether a backslash stood before, what is left of the input,
and whether the line ended. -/
def takeLine (raw : Bool) : List Char → List (Char × Bool) × List Char × Bool
  | [] => ([], [], false)
  | '\n' :: rest => ([], rest, true)
  | '\\' :: '\n' :: rest => if raw then ([('\\', true)], rest, true) else takeLine raw rest
  | '\\' :: c :: rest =>
    let (cs, rest, whole) := takeLine raw rest
    if raw then (('\\', true) :: (c, false) :: cs, rest, whole) else ((c, true) :: cs, rest, whole)
  | c :: rest =>
    let (cs, rest, whole) := takeLine raw rest
    ((c, false) :: cs, rest, whole)

/-- Cuts a line into as many fields as there are names; the last takes what is left. -/
def cutFields (seps : List Char) : List String → List (Char × Bool) → List (String × String)
  | [], _ => []
  | [name], cs =>
    let blank (c : Char × Bool) : Bool := !c.2 && isBlankIn seps c.1
    let cs := ((cs.dropWhile blank).reverse.dropWhile blank).reverse
    [(name, String.ofList (cs.map Prod.fst))]
  | name :: names, cs =>
    let blank (c : Char × Bool) : Bool := !c.2 && isBlankIn seps c.1
    let sep (c : Char × Bool) : Bool := !c.2 && seps.contains c.1
    let cs := cs.dropWhile blank
    let field := cs.takeWhile fun c => !sep c
    let rest := (cs.drop field.length).dropWhile blank
    let rest := match rest with
      | c :: more => if sep c then more.dropWhile blank else rest
      | [] => []
    (name, String.ofList (field.map Prod.fst)) :: cutFields seps names rest

def readLine (args : List String) : SessionM Unit := do
  let (raw, names) := match args with
    | "-r" :: names => (true, names)
    | names => (false, names)
  if names.isEmpty then throw (.exit 2)
  let s ← get
  let (line, rest, whole) := takeLine raw s.input
  let fields := cutFields (separators s) names line
  set (fields.foldl (fun s (name, value) => s.assign name value) { s with input := rest })
  finish (if whole then 0 else 1)

def statusArg (args : List String) : SessionM Nat := do
  match args with
  | [] => return (← get).status
  | arg :: _ =>
    if arg.isEmpty || !arg.toList.all Char.isDigit then throw (.exit 2)
    return Text.natOfDigits arg.toList % 256

def signals : List (Nat × String) :=
  [(1, "HUP"), (2, "INT"), (3, "QUIT"), (4, "ILL"), (5, "TRAP"), (6, "ABRT"), (7, "BUS"),
   (8, "FPE"), (9, "KILL"), (10, "USR1"), (11, "SEGV"), (12, "USR2"), (13, "PIPE"), (14, "ALRM"),
   (15, "TERM"), (16, "STKFLT"), (24, "XCPU"), (25, "XFSZ"), (26, "VTALRM"), (27, "PROF"),
   (29, "POLL"), (30, "PWR"), (31, "SYS")]

def quietSignals : List (Nat × String) := [(0, "EXIT"), (17, "CHLD"), (18, "CONT"), (23, "URG"), (28, "WINCH")]

def signal? (s : String) : Option Nat :=
  match s.toNat? with
  | some n => if (signals ++ quietSignals).any (·.1 == n) then some n else none
  | none =>
    let name := if s.startsWith "SIG" then (s.drop 3).toString else s
    ((signals ++ quietSignals).find? (·.2 == name.toUpper)).map Prod.fst

def kill (args : List String) : SessionM Unit := do
  let (number, targets) := match args with
    | "-s" :: name :: rest => (signal? name, rest)
    | arg :: rest =>
      if arg.startsWith "-" && arg.length > 1 then (signal? (arg.drop 1).toString, rest)
      else (some 15, arg :: rest)
    | [] => (none, [])
  match number with
  | none => finish 2
  | some n =>
    if targets.isEmpty then finish 2
    else if targets.all (· == toString Session.process) then
      if quietSignals.any (·.1 == n) then finish 0 else throw (.signal n)
    else finish 1

def copy (args : List String) : SessionM Unit := do
  let one (name : String) : SessionM Bool := do
    let s ← get
    if name == "-" then
      set ({ s with input := [] }.emit s.out (String.ofList s.input))
      return true
    match s.file? name with
    | some text => do
      put text
      return true
    | none => return false
  let good ← (if args.isEmpty then ["-"] else args).mapM one
  finish (if good.all id then 0 else 1)

def holds (s : Session) : List String → Option Bool
  | [] => some false
  | [x] => some (x != "")
  | ["!", x] => some (x == "")
  | ["-n", x] => some (x != "")
  | ["-z", x] => some (x == "")
  | ["-e", x] | ["-r", x] | ["-w", x] => some (s.file? x).isSome
  | ["-f", x] => some (x != "/dev/null" && (s.file? x).isSome)
  | ["-s", x] => some ((s.file? x).any (· != ""))
  | ["-d", x] | ["-t", x] | ["-x", x] | ["-L", x] => some (x == "/")
  | [a, "=", b] => some (a == b)
  | [a, "!=", b] => some (a != b)
  | ["!", a, b] => (holds s [a, b]).map (!·)
  | [a, op, b] => do
    let x ← Sum.integer? a
    let y ← Sum.integer? b
    match op with
    | "-eq" => some (x == y)
    | "-ne" => some (x != y)
    | "-lt" => some (x < y)
    | "-le" => some (x ≤ y)
    | "-gt" => some (x > y)
    | "-ge" => some (x ≥ y)
    | _ => none
  | ["!", a, op, b] => (holds s [a, op, b]).map (!·)
  | _ => none

def test (args : List String) : SessionM Unit := do
  match holds (← get) args with
  | some true => finish 0
  | some false => finish 1
  | none => finish 2

def export1 (s : Session) (arg : String) : Session :=
  let cs := arg.toList
  let name := cs.takeWhile (· != '=')
  match cs.drop name.length with
  | _ :: value => s.assign (String.ofList name) (String.ofList value)
  | [] => s

def loopCount (args : List String) : Nat := ((args.head?.bind String.toNat?).getD 1) - 1

def builtin (name : String) (args : List String) : SessionM Unit := do
  match name with
  | ":" | "true" | "wait" | "trap" | "umask" => finish 0
  | "false" => finish 1
  | "echo" => echo args
  | "printf" => printf args
  | "read" => readLine args
  | "cat" => copy args
  | "kill" => kill args
  | "test" => test args
  | "[" => if args.getLast? == some "]" then test args.dropLast else finish 2
  | "exit" | "return" => throw (.exit (← statusArg args))
  | "break" => throw (.leave (loopCount args))
  | "continue" => throw (.next (loopCount args))
  | "export" | "readonly" | "local" => do
    modify fun s => args.foldl export1 s
    finish 0
  | "unset" => do
    modify fun s => { s with bindings := s.bindings.filter fun v => !args.contains v.1 }
    finish 0
  | "set" => do
    let values := if args.head? == some "--" then args.drop 1 else args
    modify fun s => { s with arguments := values }
    finish 0
  | "shift" => do
    modify fun s => { s with arguments := s.arguments.drop (loopCount args + 1) }
    finish 0
  | _ => finish 127

end Tabc.Shell
