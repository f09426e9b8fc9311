import Tabc.Proofs.Core.Steps
import Tabc.Target.Build

/-!
# Steps of building that take no code

A step that leaves a part of the state alone, whether it fails or not, and does not fail for want of fuel
(`Spares`). Most steps of building take no instruction and wait for no label (`Still`).
-/

namespace Tabc.Core

open Target Target.Build

variable {α β γ σ : Type}

/-- A computation that does not fail for want of fuel. -/
def Fair (x : Except Fault α) : Prop := x ≠ .error .exhausted

namespace Fair

@[grind .]
theorem pure (a : α) : Fair (pure a : Except Fault α) := fun h => by cases h

@[grind ←]
theorem throw {e : Fault} (he : e ≠ .exhausted) : Fair (throw e : Except Fault α) := fun h => by
  cases h
  exact he rfl

@[grind ←]
theorem bind {x : Except Fault α} {f : α → Except Fault β} (hx : Fair x) (hf : ∀ a, Fair (f a)) : Fair (x >>= f) := by
  cases x with
  | ok a => exact hf a
  | error e => exact throw fun he => hx (he ▸ rfl)

@[grind ←]
theorem mapM {f : α → Except Fault β} (hf : ∀ a, Fair (f a)) (l : List α) : Fair (l.mapM f) := by
  induction l with
  | nil => exact .pure _
  | cons a l ih =>
    rw [List.mapM_cons]
    exact .bind (hf a) fun _ => .bind ih fun _ => .pure _

end Fair

/-- How a step ends that leaves a part of the state alone. -/
def Spared (part : σ → γ) (s : σ) : EStateM.Result Fault σ α → Prop
  | .ok _ s' => part s' = part s
  | .error e s' => part s' = part s ∧ e ≠ .exhausted

def Spares (part : σ → γ) (x : EStateM Fault σ α) : Prop := ∀ s, Spared part s (x.run s)

namespace Spares

variable {part : σ → γ} {x : EStateM Fault σ α} {f : α → EStateM Fault σ β}

@[grind .]
theorem pure (a : α) : Spares part (pure a : EStateM Fault σ α) := fun _ => rfl

@[grind .]
theorem get : Spares part (get : EStateM Fault σ σ) := fun _ => rfl

@[grind ←]
theorem modify {f : σ → σ} (hf : ∀ s, part (f s) = part s) : Spares part (modify f : EStateM Fault σ Unit) := hf

@[grind ←]
theorem throw {e : Fault} (he : e ≠ .exhausted) : Spares part (throw e : EStateM Fault σ α) := fun _ => ⟨rfl, he⟩

@[grind ←]
theorem bind (hx : Spares part x) (hf : ∀ a, Spares part (f a)) : Spares part (x >>= f) := by
  intro s
  have hs := hx s
  rw [EStateM.run_bind]
  cases h : x.run s with
  | ok a s1 =>
    rw [h] at hs
    have hs1 := hf a s1
    dsimp only
    cases h1 : (f a).run s1 with
    | ok b s2 => rw [h1] at hs1; exact hs1.trans hs
    | error e s2 => rw [h1] at hs1; exact ⟨hs1.1.trans hs, hs1.2⟩
  | error e s1 => rwa [h] at hs

@[grind ←]
theorem map {f : α → β} (hx : Spares part x) : Spares part (f <$> x) := by
  exact hx.bind fun a => .pure _

@[grind ←]
theorem mapM {f : α → EStateM Fault σ β} (hf : ∀ a, Spares part (f a)) (l : List α) : Spares part (l.mapM f) := by
  induction l with
  | nil => exact .pure _
  | cons a l ih =>
    rw [List.mapM_cons]
    exact (hf a).bind fun _ => ih.bind fun _ => .pure _

@[grind ←]
theorem ofExcept {x : Except Fault α} (hx : Fair x) : Spares part (MonadExcept.ofExcept x : EStateM Fault σ α) := by
  cases x with
  | ok a => exact .pure a
  | error e => exact .throw fun he => hx (he ▸ rfl)

@[grind ←]
theorem orNone (hx : Spares part x) :
    Spares part (tryCatch (some <$> x) fun _ => Pure.pure none : EStateM Fault σ (Option α)) := by
  intro s
  have hs := (hx.map (f := some)) s
  simp only [EStateM.run, tryCatch, tryCatchThe, MonadExceptOf.tryCatch, EStateM.tryCatch] at hs ⊢
  cases h : (some <$> x) s with
  | ok a s1 => rwa [h] at hs
  | error e s1 => rw [h] at hs; exact hs.1

theorem left_eq (h : Spares part x) (hrun : x.run s = .ok a s') : part s' = part s := by
  have hs := h s
  rwa [hrun] at hs

end Spares

/-- The code that is left, and the labels that count for jumps. -/
def Build.left (s : Build) : List Instr × List Operand × List Operand := (s.queue, s.seen, s.waiting)

/-- A step that takes no instruction and waits for no label. -/
abbrev Still (act : BuildM α) : Prop := Spares Build.left act

def noPart (_ : ScopeTable) : Unit := ()

/-- An operation on a table that does not fail for want of fuel. -/
abbrev FairOn (x : ScopeM α) : Prop := Spares noPart x

@[grind .]
theorem fairOn_set (t : ScopeTable) : FairOn (set t) := fun _ => rfl

@[grind .]
theorem fairOn_modify (f : ScopeTable → ScopeTable) : FairOn (modify f) := fun _ => rfl

@[grind ←]
theorem Still.onTable {act : ScopeM α} (h : FairOn act) : Still (onTable act) := by
  intro s
  have hs := h s.table
  rw [Target.Build.onTable]
  simp only [EStateM.run_bind, EStateM.run_get]
  cases hrun : act.run s.table with
  | ok a t => rfl
  | error e t =>
    rw [hrun] at hs
    exact ⟨rfl, hs.2⟩

@[grind ←]
theorem fair_ask (known : Option ScopeTable) {act : ScopeM α} (h : FairOn act) : Fair (ask known act) := by
  cases known with
  | none => exact .throw (by simp)
  | some t =>
    have hs := h t
    rw [ask]
    cases hrun : act.run t with
    | ok a t' => exact .pure a
    | error e t' =>
      rw [hrun] at hs
      exact .throw hs.2

section Tables

variable (name : String) (type : Held) (types : List Held) (names : List ParamName) (scopes : List Scope)

@[grind .]
theorem fair_emittedIn : Fair (ScopeTable.emittedIn name types scopes) := by
  induction scopes with
  | nil => exact .throw (by simp)
  | cons σ rest ih =>
    unfold ScopeTable.emittedIn
    grind

theorem fair_namedIn (os : List Overload) : Fair (ScopeTable.namedIn names os) := by
  induction os with
  | nil => exact .pure _
  | cons o rest ih =>
    cases o with
    | declared => unfold ScopeTable.namedIn; grind
    | _ => exact .throw (by simp)

@[grind .]
theorem fair_byNamesIn : Fair (ScopeTable.byNamesIn name names scopes) := by
  induction scopes with
  | nil => exact .throw (by simp)
  | cons σ rest ih =>
    have := fair_namedIn names
    unfold ScopeTable.byNamesIn
    grind

@[grind .]
theorem fairOn_declareVariable : FairOn (ScopeTable.declareVariable name type) := by
  unfold ScopeTable.declareVariable
  grind

@[grind .]
theorem fairOn_lookupVariable : FairOn (ScopeTable.lookupVariable name) := by
  unfold ScopeTable.lookupVariable
  grind

@[grind .]
theorem fairOn_closeScope : FairOn ScopeTable.closeScope := by
  unfold ScopeTable.closeScope
  grind

@[grind .]
theorem fairOn_emitFunction : FairOn (ScopeTable.emitFunction name types type) := by
  unfold ScopeTable.emitFunction ScopeTable.freshName
  grind

@[grind .]
theorem fairOn_emittedFunction : FairOn (ScopeTable.emittedFunction name types) := by
  have := fair_emittedIn name types
  unfold ScopeTable.emittedFunction
  grind [Fair]

@[grind .]
theorem fairOn_functionByNames : FairOn (ScopeTable.functionByNames name names) := by
  have := fair_byNamesIn name names
  unfold ScopeTable.functionByNames
  grind [Fair]

end Tables

attribute [local grind =] ScopeTable.updateVariable.eq_def

section Steps

variable (known : Option ScopeTable) (o a b : Operand) (t : Ty)

@[grind .]
theorem fair_ident : Fair (ident .fourth o) := by
  unfold ident
  grind

@[grind .]
theorem fair_literalType (i : Instr) (value : Atom) : Fair (literalType .fourth i value) := by
  unfold literalType
  grind

@[grind .]
theorem still_declare : Still (declare o t) := by
  unfold declare
  grind

@[grind .]
theorem still_typeOf : Still (typeOf o) := by
  unfold typeOf
  grind

@[grind .]
theorem still_isNew : Still (isNew o) := by
  unfold isNew
  grind

@[grind .]
theorem still_declared : Still (declared .fourth o t) := by
  unfold declared
  grind

@[grind .]
theorem still_openPart (n : Target.Node) : Still (openPart n) := fun _ => rfl

@[grind .]
theorem still_setPart (k : Nat) (n : Target.Node) : Still (setPart k n) := .modify fun _ => rfl

@[grind .]
theorem still_setLength (n : Option Int) : Still (setLength o n) := .modify fun _ => rfl

@[grind .]
theorem still_settleEmpties (l : List (Nat × Operand)) : Still (settleEmpties t l) := by
  induction l with
  | nil => exact .modify fun _ => rfl
  | cons p rest ih =>
    unfold settleEmpties
    grind

@[grind .]
theorem still_literal (value : Atom) : Still (literal .fourth o value) := by
  unfold literal
  grind

@[grind .]
theorem still_binaryType (op : String) : Still (binaryType .fourth op a b) := by
  unfold binaryType
  grind

@[grind .]
theorem still_binary (op : String) : Still (binary .fourth o a b op) := by
  unfold binary
  grind

@[grind .]
theorem still_unary (op : String) : Still (unary .fourth o op a) := by
  unfold unary
  grind

theorem undeclaredFault_ne_exhausted : undeclaredFault .fourth known o a ≠ .exhausted := by
  have := fun x => fair_ask known (fairOn_lookupVariable x)
  unfold undeclaredFault
  grind [Fair]

@[grind .]
theorem still_assign : Still (Target.Build.assign .fourth known o a) := by
  refine .bind (.ofExcept (fair_ident o)) fun id => .bind (still_isNew o) fun new =>
    of_ite (.bind (.orNone (still_typeOf a)) fun found => ?_) (.pure _)
  cases found with
  | none => exact .throw (undeclaredFault_ne_exhausted known o a)
  | some own => cases own <;> grind

@[grind .]
theorem still_ret : Still (ret .fourth o) := by
  unfold ret
  grind

@[grind .]
theorem still_endLabel : Still endLabel := by
  unfold endLabel
  grind

@[grind .]
theorem still_endChain : Still endChain := by
  unfold endChain
  grind [Build.left]

@[grind .]
theorem still_insertCondition (items cond : List Target.Node) : Still (insertCondition items cond) := by
  unfold insertCondition
  grind [Build.left]

end Steps

end Tabc.Core
