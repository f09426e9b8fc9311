import Mathlib
import Tabc.Syntax.Parser
import Tabc.Proofs.Core.Steps

/-!
# The parser on a list of tokens

`onTape e` is the parser of an edition that takes its tokens from a list and keeps the rules that it reduces;
`readTokens` reads a whole list.
-/

namespace Tabc

open Parsing Automaton Tabc.Core

/-- The tokens not read yet, and the rules reduced so far, the last one first. -/
structure Tape where
  unread : List Token
  reduced : List Nat

/-- Runs a computation on the first part of a state. -/
def onFirst {ε σ τ α : Type} (x : EStateM ε σ α) : EStateM ε (σ × τ) α := fun (s, t) =>
  match x s with
  | .ok a s => .ok a (s, t)
  | .error e s => .error e (s, t)

def tokenSym (t : Token) : Sym Symbol Node :=
  ⟨.tok t.kind, some (.atom t.value), ⟨some t.line, some t.pos, none, none⟩, true⟩

/-- Takes the next token of the tape. -/
def readTape : EStateM Fault (Session × Tape) (Option (Sym Symbol Node)) := fun (p, tape) =>
  match tape.unread with
  | [] => .ok none (p, tape)
  | t :: ts => .ok (some (tokenSym t)) (p, { tape with unread := ts })

def recordOn : Note Symbol Node → Tape → Tape
  | .reduce rule _ _, tape => { tape with reduced := rule :: tape.reduced }
  | _, tape => tape

def onTape (e : Edition) : Machine Symbol Node (Session × Tape) Fault :=
  { machine e with
    token := readTape
    place := fun s => (machine e).place s.1
    reduce := fun rule head args below => onFirst ((machine e).reduce rule head args below)
    onError := fun s => onFirst ((machine e).onError s)
    ready := fun s => (machine e).ready s.1
    setReady := fun b s => ((machine e).setReady b s.1, s.2)
    note := fun _ n s => .ok () (s.1, recordOn n s.2) }

def readTokens (e : Edition) (ts : List Token) : Except Fault (List Node) :=
  match ((onTape e).run (moveBound ts.length) Machine.start).run (.fresh, ⟨ts, []⟩) with
  | .ok (.finished _) s => .ok (forest e s.1.statements)
  | .ok .exhausted _ => .error .exhausted
  | .error x _ => .error x

variable {ts : List Token} {s : Sym Symbol Node} {o : Outcome Symbol Node} {s' : Session × Tape}

theorem readTokens_of_run
    (h : ((onTape e).run (moveBound ts.length) Machine.start).run (.fresh, ⟨ts, []⟩) = .ok (.finished v) (p, tape)) :
    readTokens e ts = .ok (forest e p.statements) := by
  unfold readTokens
  rw [h]

def endSym : Sym Symbol Node := ⟨.eof, none, .unknown, false⟩

/-- The tokens that are not shifted yet, given the symbol read ahead and the rest of the tape. -/
inductive Ahead : Option (Sym Symbol Node) → List Token → List Token → Prop
  | unread (ts : List Token) : Ahead none ts ts
  | token (t : Token) (ts : List Token) : Ahead (some (tokenSym t)) ts (t :: ts)
  | ended : Ahead (some endSym) [] []

variable {e : Edition} {c : Config Symbol Node} {p : Session} {tape : Tape}

def nextSym : List Token → Sym Symbol Node
  | [] => endSym
  | t :: _ => tokenSym t

theorem Ahead.eq_nextSym {unread : List Token} (h : Ahead (some s) unread ts) : s = nextSym ts := by
  cases h <;> rfl

theorem run_fetch (hpushed : c.pushed = []) (h : Ahead c.lookahead tape.unread ts) :
    ∃ tape', ((onTape e).fetch c).run (p, tape) =
      .ok (nextSym ts, { c with lookahead := some (nextSym ts) }) (p, tape') ∧
      tape'.reduced = tape.reduced ∧ Ahead (some (nextSym ts)) tape'.unread ts := by
  unfold Machine.fetch
  cases hlook : c.lookahead with
  | some s =>
    rw [hlook] at h
    rw [← h.eq_nextSym]
    have hc : { c with lookahead := some s } = c := by rw [← hlook]
    exact ⟨tape, by rw [hc]; rfl, rfl, h⟩
  | none =>
    rw [hlook] at h
    rw [hpushed]
    generalize hts : tape.unread = unread at h
    cases h with
    | unread ts =>
      cases ts with
      | nil =>
        refine ⟨tape, ?_, rfl, ?_⟩
        · simp [onTape, readTape, EStateM.run, bind, EStateM.bind, pure, EStateM.pure, hts,
            Machine.endSym, nextSym, endSym, machine]
        · rw [hts]
          exact .ended
      | cons t ts =>
        refine ⟨{ tape with unread := ts }, ?_, rfl, .token t ts⟩
        simp [onTape, readTape, EStateM.run, bind, EStateM.bind, pure, EStateM.pure, hts, nextSym]

def phraseSym (head : Phrase) (v : Node) : Sym Symbol Node := ⟨.phrase head, some v, .unknown, false⟩

def valuesOf (args : List (Sym Symbol Node)) : List Node := args.map fun s => s.value.getD .none

/-- The machine after a reduction. -/
def Reduces (c : Config Symbol Node) (clause : Clause) (v : Node) (j : Nat) : Config Symbol Node :=
  { c with
    state := j, states := j :: c.states.drop clause.body.length
    symbols := phraseSym clause.head v :: c.symbols.drop clause.body.length }

theorem run_clause (e : Edition) (rule : Nat) (head : Sym Symbol Node) (args below : List (Sym Symbol Node))
    (p : Session) : ((machine e).reduce rule head args below).run p =
      match ((clauseOf (clauses e).toArray rule).act.apply e (valuesOf args)).run p with
      | .error x p' => .error x p'
      | .ok v p' => .ok (.symbol { head with value := some v }) p' := by
  unfold machine
  simp only [bind, EStateM.bind, EStateM.run, valuesOf]
  cases (clauseOf (clauses e).toArray rule).act.apply e (args.map fun s => s.value.getD .none) p <;> rfl

/-- A reduction: the action of the rule, and the state that its phrase leads to. -/
def Session.reduction (e : Edition) (p : Session) (c : Config Symbol Node) (rule : Nat) :
    EStateM.Result Fault Session (Outcome Symbol Node) :=
  let clause := clauseOf (clauses e).toArray rule
  match (clause.act.apply e (valuesOf (c.symbols.take clause.body.length).reverse)).run p with
  | .error x p' => .error x p'
  | .ok v p' =>
    match (machine e).goto ((c.states.drop clause.body.length).headD 0) (.phrase clause.head) with
    | none => .error .noKey p'
    | some j => .ok (.next (Reduces c clause v j)) p'

theorem run_reduceBy_text (e : Edition) (c : Config Symbol Node) (rule : Nat) (p : Session) :
    ((machine e).reduceBy c rule).run p = p.reduction e c rule := by
  have hnote : ∀ note, ((machine e).note c note).run p = .ok () p := fun _ => rfl
  have hhead : ∀ args : List (Sym Symbol Node), ((machine e).headSym rule args).run p =
      .ok ⟨(machine e).head rule, none, .unknown, false⟩ p := fun _ => rfl
  have hclause : (machine e).size rule = (clauseOf (clauses e).toArray rule).body.length ∧
      (machine e).head rule = .phrase (clauseOf (clauses e).toArray rule).head := ⟨rfl, rfl⟩
  unfold Machine.reduceBy Session.reduction
  dsimp only
  rw [run_bind_of_ok (hnote _), run_bind_of_ok (hhead _), EStateM.run_bind, run_clause, hclause.1, hclause.2]
  generalize clauseOf (clauses e).toArray rule = clause
  cases (clause.act.apply e (valuesOf (c.symbols.take clause.body.length).reverse)).run p with
  | error x p' => rfl
  | ok v p' =>
    cases (machine e).goto ((c.states.drop clause.body.length).headD 0) (.phrase clause.head) <;> rfl

/-- What became of the session, with a tape beside it. -/
def Tape.beside {α : Type} (tape : Tape) : EStateM.Result Fault Session α → EStateM.Result Fault (Session × Tape) α
  | .ok a p => .ok a (p, tape)
  | .error x p => .error x (p, tape)

theorem run_reduceBy (e : Edition) (c : Config Symbol Node) (rule : Nat) (p : Session) (tape : Tape) :
    ((onTape e).reduceBy c rule).run (p, tape) =
      Tape.beside { tape with reduced := rule :: tape.reduced } (p.reduction e c rule) := by
  have hnote : ∀ note : Note Symbol Node, ((onTape e).note c note).run (p, tape) =
      .ok () (p, recordOn note tape) := fun _ => rfl
  have hhead : ∀ (s : Session × Tape) (args : List (Sym Symbol Node)), ((onTape e).headSym rule args).run s =
      .ok ⟨(machine e).head rule, none, .unknown, false⟩ s := fun _ _ => rfl
  have hred : ∀ (head : Sym Symbol Node) (args below : List (Sym Symbol Node)) (s : Session × Tape),
      ((onTape e).reduce rule head args below).run s =
        s.2.beside (((machine e).reduce rule head args below).run s.1) := by
    rintro head args below ⟨p, tape⟩
    change onFirst ((machine e).reduce rule head args below) (p, tape) = _
    unfold onFirst EStateM.run
    dsimp only
    cases (machine e).reduce rule head args below p <;> rfl
  have hclause : (onTape e).size rule = (clauseOf (clauses e).toArray rule).body.length ∧
      (machine e).head rule = .phrase (clauseOf (clauses e).toArray rule).head ∧
      (onTape e).head rule = .phrase (clauseOf (clauses e).toArray rule).head := ⟨rfl, rfl, rfl⟩
  unfold Machine.reduceBy Session.reduction
  rw [run_bind_of_ok (hnote _), run_bind_of_ok (hhead _ _), EStateM.run_bind, hred, run_clause, hclause.1,
    hclause.2.1, hclause.2.2, show (onTape e).goto = (machine e).goto from rfl]
  generalize clauseOf (clauses e).toArray rule = clause
  dsimp only
  cases (clause.act.apply e (valuesOf (c.symbols.take clause.body.length).reverse)).run p with
  | error x p' => rfl
  | ok v p' =>
    cases (machine e).goto ((c.states.drop clause.body.length).headD 0) (.phrase clause.head) <;> rfl

theorem exists_of_reduction
    (hclause : clauseOf (clauses e).toArray rule = clause) (h : p.reduction e c rule = .ok o p') :
    ∃ v j, o = .next (Reduces c clause v j) ∧
      (clause.act.apply e (valuesOf (c.symbols.take clause.body.length).reverse)).run p = .ok v p' ∧
      (machine e).goto ((c.states.drop clause.body.length).headD 0) (.phrase clause.head) = some j := by
  subst hclause
  unfold Session.reduction at h
  dsimp only at h
  split at h
  · cases h
  rename_i hval
  split at h
  · cases h
  rename_i hj
  cases h
  exact ⟨_, _, rfl, hval, hj⟩

theorem exists_of_run_reduceBy (h : ((onTape e).reduceBy c rule).run (p, tape) = .ok o s') :
    p.reduction e c rule = .ok o s'.1 ∧ s'.2 = { tape with reduced := rule :: tape.reduced } := by
  rw [run_reduceBy] at h
  cases hr : p.reduction e c rule <;> rw [hr] at h <;> cases h
  exact ⟨rfl, rfl⟩

def Shifts (c : Config Symbol Node) (s : Sym Symbol Node) (target : Nat) : Config Symbol Node :=
  { c with
    state := target, states := target :: c.states, symbols := s :: c.symbols, lookahead := none
    guard := c.guard - 1 }

theorem run_step_defaulted (h : (machine e).defaulted c.state = some rule) :
    ((onTape e).step c).run (p, tape) = ((onTape e).reduceBy c rule).run (p, tape) := by
  have hd : (onTape e).defaulted c.state = some rule := h
  unfold Machine.step
  simp only [hd]
  rfl

theorem run_step_looking (h : (machine e).defaulted c.state = none)
    (hfetch : ((onTape e).fetch c).run (p, tape) = .ok (s, { c with lookahead := some s }) (p, tape')) :
    ((onTape e).step c).run (p, tape) = match (machine e).action c.state s.kind with
      | some (.shift target) => .ok (.next (Shifts c s target)) (p, tape')
      | some (.reduce rule) => ((onTape e).reduceBy { c with lookahead := some s } rule).run (p, tape')
      | some .accept => .ok (.finished (c.symbols.head?.bind Sym.value)) (p, tape')
      | none => ((onTape e).recover { c with lookahead := some s } s).run (p, tape') := by
  have hd : (onTape e).defaulted c.state = none := h
  have hnote : ((onTape e).note c .state).run (p, tape) = .ok () (p, tape) := rfl
  unfold Machine.step
  rw [run_bind_of_ok hnote]
  simp only [hd]
  rw [run_bind_of_ok hfetch]
  have hstack : ((onTape e).note { c with lookahead := some s } .stack).run (p, tape') = .ok () (p, tape') := rfl
  rw [run_bind_of_ok hstack]
  have ha : (onTape e).action c.state s.kind = (machine e).action c.state s.kind := rfl
  rw [ha]
  cases (machine e).action c.state s.kind with
  | none => rfl
  | some m => cases m <;> rfl

theorem run_onError (he : e ≠ .first) (s : Option (Sym Symbol Node)) (st : Session × Tape)
    : ((onTape e).onError s).run st ≠ .ok r st' := by
  intro h
  cases e with
  | first => exact he rfl
  | second => cases h
  | third => cases h
  | fourth => cases h

theorem run_recover (he : e ≠ .first) (hguard : c.guard = 0) : ((onTape e).recover c s).run (p, tape) ≠ .ok o s' := by
  intro h
  obtain ⟨_, _, -, h⟩ := of_run_bind h
  obtain ⟨_, _, -, h⟩ := of_run_bind h
  simp only [hguard, beq_self_eq_true, Bool.true_or, if_true] at h
  obtain ⟨_, _, -, h⟩ := of_run_bind h
  obtain ⟨reply, _, hreply, -⟩ := of_run_bind h
  exact run_onError he _ _ hreply

end Tabc
