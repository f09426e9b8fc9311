import Tabc.Generator.ParserSpec
import Tabc.Generator.Report

/-!
# Building parsers

`ParserSpec.build` checks a description, draws up its grammar, looks for flaws and builds the table. Flaws that
make a parser impossible are all logged before it stops.
-/

namespace Tabc.Generator

open Tabc.Grammar Tabc.Automaton

structure BuildOptions where
  start : Datum
  verbose : Bool
  reportFile : Option String
  checksRecursion : Bool

structure BuiltParser where
  draft : Draft
  table : Table
  defaulted : List (Nat × Nat)

/-- Why a file cannot be written, if so. Only the directory of the program and its parents are
there. -/
def unwritable? (file : String) : Option String :=
  let parts := Text.splitAt '/' file.toList
  let isPresentPart (p : List Char) : Bool := p.isEmpty || p == ['.'] || p == ['.', '.']
  if file.isEmpty then some "[Errno 2] No such file or directory"
  else if !(parts.dropLast.all isPresentPart) then some "[Errno 2] No such file or directory"
  else if isPresentPart (parts.getLastD []) then some "[Errno 21] Is a directory"
  else none

def BuildOptions.openReport (o : BuildOptions) : GrammarM Unit := do
  if !o.verbose then return
  match o.reportFile with
  | none => return
  | some file => match unwritable? file with
    | none => return
    | some why =>
      let name := Text.quote file
      warn (← pattern s!"Couldn't open {name}. {why}: {name}")

namespace ParserSpec

def check (s : ParserSpec) (tokens : List String) :
    GrammarM (List Strength × List (String × RuleText)) := do
  s.checkStart
  let handlerOk ← s.checkHandler
  let tokensOk ← checkTokens tokens
  let strengths ← s.checkPrecedence
  let rules ← s.checkFunctions
  if s.ruleFunctions.any fun f => f.params == 1 && f.doc.any (!·.isEmpty) then
    s.warnRedefined [] 1 (s.source.getD [])
  match strengths, rules with
  | some strengths, some rules => if handlerOk && tokensOk then return (strengths, rules) else throw .unable
  | _, _ => throw .unable

def enterStrengths (strengths : List Strength) : GrammarM Unit :=
  strengths.forM fun (term, assoc, level) => do
    match ← tryDraft (Draft.setStrength term assoc level) with
    | some text => warn text
    | none => return

def enterRules (rules : List (String × RuleText)) : GrammarM Bool :=
  rules.foldlM (fun ok (name, r) => do
    match ← tryDraft (Draft.addRule r.head r.body (some name) r.file r.line) with
    | some text => do
      complain text
      return false
    | none => return ok) true

def checkDefined (g : Draft) : GrammarM Bool := do
  g.undefined.forM fun (s, p) =>
    complain s!"{p.file}:{p.line}: Symbol {Text.quote s} used, but not defined as a token or a rule"
  return g.undefined.isEmpty

def checkTerminals (g : Draft) : GrammarM Unit := do
  let unused := g.unusedTerminals
  if !unused.isEmpty then reportAll (Report.title "Unused terminals:")
  unused.forM fun t => do
    warn s!"Token {Text.quote t} defined, but not used"
    report s!"    {t}"

def warnCount (count : Nat) (noun : String) : GrammarM Unit := do
  if count == 1 then warn s!"There is 1 unused {noun}"
  if count > 1 then warn s!"There are {count} unused {noun}s"

def checkRules (g : Draft) : GrammarM Unit := do
  g.unusedRules.forM fun p => warn s!"{p.file}:{p.line}: Rule {Text.quote p.head} defined, but not used"
  warnCount g.unusedTerminals.length "token"
  warnCount g.unusedRules.length "rule"

def checkRecursion : GrammarM Bool := do
  (← onDraft Draft.unreachable).forM fun s => warn s!"Symbol {Text.quote s} is unreachable"
  let endless := (← get).work.endless
  endless.forM fun s => complain s!"Infinite recursion detected for symbol {Text.quote s}"
  return endless.isEmpty

def assocName : Assoc → String
  | .left => "left"
  | .right => "right"
  | .nonassoc => "nonassoc"

def checkStrengths (g : Draft) : GrammarM Bool := do
  g.unusedStrengths.forM fun (s, p) =>
    complain s!"Precedence rule '{assocName p.assoc}' defined for unknown symbol {Text.quote s}"
  return g.unusedStrengths.isEmpty

def buildTable : GrammarM Table := do
  let (t, failure) ← onDraft Draft.fillTable
  reportAll (Report.states (.of (← get).work) t failure.isNone)
  match failure with
  | none => return t
  | some x => throw (.draft (Draft.tableError x))

def warnConflicts (count : Nat) (kind : String) : GrammarM Unit := do
  if count == 1 then warn s!"1 {kind} conflict"
  if count > 1 then warn s!"{count} {kind} conflicts"

def logConflicts (t : Table) : GrammarM Unit := do
  warnConflicts t.shiftReduce.length "shift/reduce"
  warnConflicts t.reduceReduce.length "reduce/reduce"
  if t.shiftReduce.isEmpty && t.reduceReduce.isEmpty then return
  let names := Report.Names.of (← get).work
  let mark (s : String) : String := "WARNING: " ++ s
  reportAll ((Report.title "Conflicts:" ++ Report.shiftReduce names t).map mark)
  (Report.reduceReduce names t).forM fun line => do
    report (mark line)
    warn line

/-- States with one action only that is a reduction. A state whose only action is none at all is
refused. -/
def defaultedStates (t : Table) : GrammarM (List (Nat × Nat)) := do
  if t.rows.any fun r => r.entries.length == 1 && r.entries.any (·.move.isNone) then stop .wrongKind
  return t.rows.toList.zipIdx.filterMap fun (r, i) => r.defaulted?.map (i, ·)

def build (s : ParserSpec) (o : BuildOptions) : GrammarM BuiltParser := do
  let s := match o.start with
    | .atom .none => s
    | start => { s with start := start }
  let some tokens ← s.readTokens | throw .unable
  o.openReport
  report "Created by PLY (http://www.dabeaz.com/ply)"
  let (strengths, rules) ← s.check tokens
  if s.handler.isNone then warn "no p_error() function is defined"
  modify fun w => { w with work := .fresh tokens }
  enterStrengths strengths
  let rulesOk ← enterRules rules
  let startFlaw ← tryDraft (Draft.setStart s.start)
  match startFlaw with
  | some text => complain (← pattern text)
  | none => pure ()
  if !rulesOk || startFlaw.isSome then throw .unable
  let g := (← get).work
  let definedOk ← checkDefined g
  checkTerminals g
  if o.verbose then reportAll (Report.rules g)
  checkRules g
  if o.verbose then reportAll (Report.symbols g)
  let recursionOk ← if o.checksRecursion then checkRecursion else pure true
  let strengthsOk ← checkStrengths g
  if !(definedOk && recursionOk && strengthsOk) then throw .unable
  let t ← buildTable
  if o.verbose then logConflicts t
  return ⟨(← get).work, t, ← defaultedStates t⟩

end ParserSpec

end Tabc.Generator
