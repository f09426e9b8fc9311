import Tabc.Text.Lines
import Tabc.Text.Percent
import Tabc.Automaton.Draft

/-!
# Building with a log

A generator makes its remarks in a log and describes what it builds in a report. Both outlive a failure.
-/

namespace Tabc.Generator

open Tabc.Grammar

inductive BuildError where
  | unable
  | draft (e : DraftError)
deriving DecidableEq

structure Workshop (ω : Type) where
  log : Array String
  report : Array String
  reporting : Bool
  work : ω

abbrev BuildM (ω : Type) := EStateM BuildError (Workshop ω)

def Workshop.fresh {ω : Type} (reporting : Bool) (work : ω) : Workshop ω := ⟨#[], #[], reporting, work⟩

section

variable {ω : Type}

def stop {α : Type} (f : Fault) : BuildM ω α := throw (.draft (.fault f))

def warn (text : String) : BuildM ω Unit := modify fun w => { w with log := w.log.push ("WARNING: " ++ text) }

def complain (text : String) : BuildM ω Unit := modify fun w => { w with log := w.log.push ("ERROR: " ++ text) }

def pattern (text : String) : BuildM ω String :=
  match Text.fillNothing text.toList with
  | .ok cs => return String.ofList cs
  | .error f => stop f

def report (text : String) : BuildM ω Unit :=
  modify fun w => if w.reporting then { w with report := w.report.push text } else w

def reportAll (lines : List String) : BuildM ω Unit := lines.forM report

end

abbrev GrammarM := BuildM Draft

def onDraft {α : Type} (act : DraftM α) : GrammarM α := do
  let w ← get
  match act.run w.work with
  | .ok a g => do
    set { w with work := g }
    return a
  | .error e g => do
    set { w with work := g }
    throw (.draft e)

def tryDraft (act : DraftM Unit) : GrammarM (Option String) := do
  let w ← get
  match act.run w.work with
  | .ok _ g => do
    set { w with work := g }
    return none
  | .error (.objection place o) g => do
    set { w with work := g }
    return some (place ++ o.message)
  | .error e g => do
    set { w with work := g }
    throw (.draft e)

end Tabc.Generator
