import Tabc.Shell.Builtin

/-!
# Running commands

The work is bounded by fuel, since a loop need not end. Where a text cannot be read as commands, the whole lines
before the fault are run and the status is 2.
-/

namespace Tabc.Shell

/-- Fields that are put together: the finished ones in reverse, and the present one. -/
structure Fields where
  done : List String
  current : Option String

namespace Fields

def append (f : Fields) (s : String) (quoted : Bool) : Fields :=
  if s.isEmpty && !quoted then f else { f with current := some (f.current.getD "" ++ s) }

def flush (f : Fields) : Fields :=
  match f.current with
  | some s => ⟨s :: f.done, none⟩
  | none => f

def split (seps : List Char) (f : Fields) (s : String) : Fields :=
  s.toList.foldl (fun f c =>
    if isBlankIn seps c then f.flush
    else if seps.contains c then Fields.flush { f with current := some (f.current.getD "") }
    else f.append c.toString false) f

def toList (f : Fields) : List String := f.flush.done.reverse

end Fields

/-- What a command prints, as it is filled in: without line breaks at its end. -/
def withoutBreaks (s : String) : String := String.ofList (s.toList.reverse.dropWhile (· == '\n')).reverse

def redirect (stream : Nat) (mark target : String) : SessionM Bool := do
  let s ← get
  match mark with
  | "<" => match s.file? target with
    | some text => do
      set { s with input := text.toList }
      return true
    | none => return false
  | "<&" => return true
  | _ =>
    let sink : Sink :=
      if mark == ">&" then
        if target == "1" then s.out else if target == "2" then s.err else .nowhere
      else if target == "/dev/null" then .nowhere
      else if target == "/dev/stdout" then s.out
      else if target == "/dev/stderr" then s.err
      else .file target
    let s := match mark, sink with
      | ">", .file name => { s with files := (name, "") :: s.files.filter fun f => f.1 != name }
      | _, _ => s
    match stream with
    | 1 => set { s with out := sink }
    | 2 => set { s with err := sink }
    | _ => set s
    return true

/-- Runs commands and then puts the streams back; the input, too, if another one was taken. -/
def withStreams (taken : Bool) (before : Session) (body : SessionM Unit) : SessionM Unit := do
  let back (t : Session) : Session :=
    { t with out := before.out, err := before.err, input := if taken then before.input else t.input }
  match body.run (← get) with
  | .ok _ t => set (back t)
  | .error h t => do
    set (back t)
    throw h

mutual

def pieceText : Nat → Piece → SessionM String
  | 0, _ => throw .exhausted
  | fuel + 1, p => do
    match p with
    | .text s => return s
    | .variable name other =>
      let v := (← get).value name
      return if v.isEmpty then other else v
    | .output command => return withoutBreaks (← capture (runText fuel command))
    | .sum expression =>
      match doubleQuoted (expression.length + 2) (expression.toList ++ ['"']) with
      | some (w, []) => do
        let text ← wordText fuel w
        match Sum.eval (← get).value text with
        | some n => return toString n
        | none => throw (.exit 2)
      | _ => throw (.exit 2)

def wordText : Nat → Word → SessionM String
  | 0, _ => throw .exhausted
  | _, [] => return ""
  | fuel + 1, (p, _) :: rest => do
    let s ← pieceText fuel p
    return s ++ (← wordText fuel rest)

def wordFields : Nat → Fields → Word → SessionM (List String)
  | 0, _, _ => throw .exhausted
  | _, f, [] => return f.toList
  | fuel + 1, f, (p, quoted) :: rest => do
    let s ← pieceText fuel p
    let kept := match p with
      | .text _ => true
      | _ => quoted
    let seps := separators (← get)
    wordFields fuel (if kept then f.append s quoted else f.split seps s) rest

def allFields : Nat → List Word → SessionM (List String)
  | 0, _ => throw .exhausted
  | _, [] => return []
  | fuel + 1, w :: rest => do
    let fs ← wordFields fuel ⟨[], none⟩ w
    return fs ++ (← allFields fuel rest)

def redirectAll : Nat → List Redirection → SessionM Bool
  | 0, _ => throw .exhausted
  | _, [] => return true
  | fuel + 1, r :: rest => do
    let target ← wordText fuel r.target
    if ← redirect r.stream r.mark target then redirectAll fuel rest else return false

def assignAll : Nat → List (String × Word) → SessionM Unit
  | 0, _ => throw .exhausted
  | _, [] => return ()
  | fuel + 1, (name, w) :: rest => do
    let value ← wordText fuel w
    modify (·.assign name value)
    assignAll fuel rest

def redirected : Nat → List Redirection → SessionM Unit → SessionM Unit
  | 0, _, _ => throw .exhausted
  | fuel + 1, rs, body => do
    if rs.isEmpty then body
    else
      let before ← get
      withStreams (rs.any fun r => r.mark == "<") before do
        if ← redirectAll fuel rs then body else finish 2

def call : Nat → List String → SessionM Unit
  | 0, _ => throw .exhausted
  | _, [] => return ()
  | fuel + 1, name :: args => match name with
    | "eval" => runText fuel (" ".intercalate args)
    | "command" => call fuel args
    | "exec" => do
      if args.isEmpty then finish 0
      else
        call fuel args
        throw (.exit (← get).status)
    | _ => builtin name args

def run : Nat → Command → SessionM Unit
  | 0, _ => throw .exhausted
  | fuel + 1, c => do
    match c with
    | .nothing => return ()
    | .simple settings words rs =>
      let fields ← allFields fuel words
      if fields.isEmpty then
        finish 0
        redirected fuel rs (assignAll fuel settings)
      else
        let before := (← get).bindings
        assignAll fuel settings
        let after := (← get).bindings
        redirected fuel rs (call fuel fields)
        if !settings.isEmpty then
          let names := settings.map Prod.fst
          let kept (v : String × String) : Bool := !names.contains v.1 || !after.contains v
          modify fun s => { s with
            bindings := s.bindings.filter kept ++ before.filter fun v => names.contains v.1 }
    | .seq a b =>
      run fuel a
      run fuel b
    | .both a b =>
      run fuel a
      if (← get).status == 0 then run fuel b
    | .either a b =>
      run fuel a
      if (← get).status != 0 then run fuel b
    | .not a =>
      run fuel a
      finish (if (← get).status == 0 then 1 else 0)
    | .pipe a b =>
      let text ← capture (run fuel a)
      let input := (← get).input
      modify fun s => { s with input := text.toList }
      apart (run fuel b)
      modify fun s => { s with input := input }
    | .group isApart a rs => redirected fuel rs (if isApart then apart (run fuel a) else run fuel a)
    | .cond test yes no =>
      run fuel test
      if (← get).status == 0 then run fuel yes
      else
        finish 0
        run fuel no
    | .loop while_ test body => repeatBody fuel while_ test body 0
    | .forEach name values body =>
      let fields ← allFields fuel values
      finish 0
      overValues fuel name body fields

def round : Nat → Command → SessionM Bool
  | 0, _ => throw .exhausted
  | fuel + 1, body => do
    match (run fuel body).run (← get) with
    | .ok _ t => do
      set t
      return true
    | .error h t => do
      set { t with status := match h with
        | .leave _ | .next _ => 0
        | _ => t.status }
      match h with
      | .leave 0 => return false
      | .leave (n + 1) => throw (.leave n)
      | .next 0 => return true
      | .next (n + 1) => throw (.next n)
      | h => throw h

def repeatBody : Nat → Bool → Command → Command → Nat → SessionM Unit
  | 0, _, _, _, _ => throw .exhausted
  | fuel + 1, while_, test, body, status => do
    run fuel test
    if ((← get).status == 0) == while_ then
      if ← round fuel body then repeatBody fuel while_ test body (← get).status
    else finish status

def overValues : Nat → String → Command → List String → SessionM Unit
  | 0, _, _, _ => throw .exhausted
  | _, _, _, [] => return ()
  | fuel + 1, name, body, v :: rest => do
    modify (·.assign name v)
    if ← round fuel body then overValues fuel name body rest

def runText : Nat → String → SessionM Unit
  | 0, _ => throw .exhausted
  | fuel + 1, text => match Command.read text with
    | some c => run fuel c
    | none => do
      let lines := Text.splitAt '\n' text.toList
      let starts := (List.range lines.length).reverse.map fun n => String.ofList (['\n'].intercalate (lines.take n))
      match starts.findSome? Command.read with
      | some c => do
        run fuel c
        throw (.exit 2)
      | none => throw (.exit 2)

end

def workBound : Nat := 100000

/-- Runs the commands of a text: the status and what was printed, its line breaks in one form. A
signal gives its number below zero as the status. -/
def execute (command input : String) : Int × String :=
  let (status, s) : Int × Session := match (runText workBound command).run (.start input) with
    | .ok _ s => (s.status, s)
    | .error (.exit n) s => (n, s)
    | .error (.signal n) s => (-(n : Int), s)
    | .error _ s => (s.status, s)
  (status, String.ofList (Text.unifyBreaks s.output.toList))

end Tabc.Shell
