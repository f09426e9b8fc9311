import Tabc.Proofs.Automaton.States
import Tabc.Proofs.Automaton.Rows
import Tabc.Proofs.Parsing.Tape

/-!
# Reductions are derivations

In a derivation `Rightmost cs form rules word` every step replaces the last phrase of the form. The stack of
the machine with the tokens to come is such a form (`Valid`), since a state knows what is on the stack and
every action of a row was asked for by an item.
-/

open List

namespace Tabc

open Automaton
open Parsing Automaton Grammar Tabc.Core

/-- A derivation of a word from a form that always replaces the last phrase, with the numbers of
the rules it uses. -/
inductive Rightmost (cs : List Clause) : List Symbol → List Nat → List Symbol → Prop
  | done (word : List Symbol) : Rightmost cs word [] word
  | replace {i : Nat} {c : Clause} {before : List Symbol} {after : List TokenKind}
    {rules : List Nat} {word : List Symbol} (hc : cs[i]? = some c)
    (h : Rightmost cs (before ++ c.body ++ after.map .tok) rules word) :
    Rightmost cs (before ++ .phrase c.head :: after.map .tok) ((i + 1) :: rules) word

/-- The token kinds with a number of their own, in the order of these numbers. -/
def kinds : List TokenKind :=
  [.plus, .minus, .percent, .times, .divide, .lparen, .rparen, .lbracket, .rbracket, .atLeast,
    .atMost, .notEqual, .equal, .assign, .greater, .less, .and, .or, .not, .xor, .period, .arrow,
    .none, .bool, .string, .float, .integer, .ident, .newline, .tab, .colon, .comma, .dot, .kwWhile,
    .kwFor, .kwIn, .kwRange, .kwIf, .kwElif, .kwElse, .kwReturn, .kwInt, .kwStr, .kwFloat, .kwBool,
    .kwDef, .kwPrint, .kwAppend]

def phrases : List Phrase :=
  [.program, .block, .statementList, .statement, .plainStatement, .expression, .type, .primitiveType,
    .collectionType, .primitiveLiteral, .list, .tuple, .assignment, .functionDec, .parametersOrEmpty,
    .parameterList, .parameter, .functionCall, .argumentsOrEmpty, .argumentList, .returnStmt,
    .ifStmt, .elifStmt, .elseStmt, .forRange, .range, .forEach, .whileStmt, .empty]

def symbolOf (n : Nat) : Option Symbol :=
  if n < 60 then kinds[n]?.map .tok
  else if n = 60 then some .eof
  else if n = 62 then some .error
  else phrases[n - 64]?.map .phrase

def Symbol.numbered (s : Symbol) : Bool := symbolOf s.code == some s

theorem code_tok_lt (k : TokenKind) : k.code < 49 := by
  cases k <;> simp [TokenKind.code]

/-- Only a symbol that shares its number with others can be taken for one. -/
theorem eq_of_code_eq {s : Symbol} (s' : Symbol) (hs' : s'.numbered = true) (h : s.code = s'.code) : s = s' := by
  have hs'' : symbolOf s.code = some s' := by
    rw [h]
    exact beq_iff_eq.1 hs'
  have hs : symbolOf s.code = some s ∨ symbolOf s.code = none := by
    cases s with
    | tok k => cases k <;> first | exact .inl rfl | exact .inr rfl
    | phrase p => cases p <;> exact .inl rfl
    | eof => exact .inl rfl
    | error => exact .inl rfl
  rcases hs with hs | hs
  · exact Option.some.inj (hs.symm.trans hs'')
  · rw [hs] at hs''
    cases hs''

variable {e : Edition} {c : Clause} {i : Nat}

theorem numbered_of_mem (hc : c ∈ clauses e) {s : Symbol} (hs : s ∈ c.body) : s.numbered = true := by
  have hall : ∀ c ∈ clauses e, ∀ s ∈ c.body, s.numbered = true := by
    cases e <;> decide +kernel
  exact hall c hc s hs

theorem eq_body_of_codes (hc : c ∈ clauses e) (h : ss.map Symbol.code = c.body.map Symbol.code) : ss = c.body := by
  refine ext_getElem (by simpa using congrArg List.length h) fun i hi hi' => ?_
  refine eq_of_code_eq _ (numbered_of_mem hc (getElem_mem hi')) ?_
  have hget := congrArg (·[i]?) h
  simpa [hi, hi'] using hget

theorem size_rules (e : Edition) : (grammar e).rules.size = (clauses e).length + 1 := by simp [grammar]

theorem rule_succ (h : (clauses e)[i]? = some c) :
    (grammar e).rule (i + 1) = ⟨c.head.code, c.body.map Symbol.code, c.strength, (i : Int)⟩ := by
  unfold Rules.rule
  simp [grammar, h]

theorem clauseOf_succ (h : (clauses e)[i]? = some c) : clauseOf (clauses e).toArray (i + 1) = c := by
  unfold clauseOf
  simp [h]

def rowOf (e : Edition) (state : Nat) : Row := (parseTable e).rows.getD state default

theorem parseTable_eq (e : Edition) : parseTable e = buildTable e := by
  cases e <;> rfl

theorem rowOf_cases (e : Edition) (i : Nat) : rowOf e i = default ∨
    ∃ q, (states (grammar e))[i]? = some q ∧ (rowOf e i).Of (grammar e) q
      ((lookaheads (grammar e) (states (grammar e)).toArray).getD i []) := by
  unfold rowOf
  rw [parseTable_eq]
  unfold buildTable
  dsimp only
  split
  · rename_i t ht
    obtain ⟨hsize, hrows⟩ := rows_of_build ht
    cases hq : (states (grammar e))[i]? with
    | none =>
      left
      rw [Array.getD_eq_getD_getElem?, Array.getElem?_eq_none]
      · rfl
      · rw [hsize]
        exact List.getElem?_eq_none_iff.1 hq
    | some q =>
      right
      obtain ⟨row, hrow, hof⟩ := hrows i q hq
      refine ⟨q, rfl, ?_⟩
      have hget : t.rows.getD i default = row := by
        rw [Array.getD_eq_getD_getElem?, hrow]
        rfl
      rw [hget]
      exact hof
  · left
    rfl

theorem exists_asked {s : Nat} (h : (rowOf e i).move? s = some m) :
    ∃ q it, (states (grammar e))[i]? = some q ∧ Asked (grammar e) q s m it := by
  rcases rowOf_cases e i with hrow | ⟨q, hq, hof⟩
  · rw [hrow] at h
    cases h
  · obtain ⟨it, hit⟩ := hof.asked h
    exact ⟨q, it, hq, hit⟩

theorem exists_goto {s j : Nat} (h : (rowOf e i).goto? s = some j) :
    ∃ q, (states (grammar e))[i]? = some q ∧ q.goto? s = some j := by
  rcases rowOf_cases e i with hrow | ⟨q, hq, hof⟩
  · rw [hrow] at h
    cases h
  · exact ⟨q, hq, hof.goto? h⟩

theorem explored_states (e : Edition) : ∃ n, Explored (grammar e) (states (grammar e)) n := by
  obtain ⟨n, h, -⟩ := explored_itemSets (grammar e) (stateBound (grammar e))
  exact ⟨n, h⟩

/-- The states on the stack of a machine are those that its symbols lead to. -/
structure Poised (e : Edition) (c : Config Symbol Node) : Prop where
  top : ∃ below, c.states = c.state :: below
  path : Path (states (grammar e)) c.states (c.symbols.map fun s => s.kind.code)

namespace Poised

variable {e : Edition} {c : Config Symbol Node} {q : ItemSet} {it : Item}

theorem body_on_top (h : Poised e c) (hq : (states (grammar e))[c.state]? = some q)
    (hit : it ∈ q.items) (hfinal : it.next? (grammar e) = none) :
    Spelled (grammar e) (states (grammar e)) it.rule
      ((grammar e).rule it.rule).body.length c.states (c.symbols.map fun s => s.kind.code) := by
  obtain ⟨n, hex⟩ := explored_states e
  obtain ⟨below, hbelow⟩ := h.top
  have hpath := h.path
  rw [hbelow] at hpath
  have hsp := hpath.spells hex hq hit
  have hdot : it.dot = ((grammar e).rule it.rule).body.length :=
    le_antisymm hsp.length (List.getElem?_eq_none_iff.1 hfinal)
  rw [hbelow, ← hdot]
  exact hsp

variable {s : Sym Symbol Node}

theorem shift (h : Poised e c) (hact : (machine e).action c.state s.kind = some (.shift target)) :
    (grammar e).isTerminal s.kind.code = true ∧ Poised e (Shifts c s target) := by
  obtain ⟨below, hbelow⟩ := h.top
  obtain ⟨q, it, hq, hasked⟩ := exists_asked hact
  obtain ⟨hterm, hgoto⟩ := hasked.goto
  have hpath := h.path
  rw [hbelow] at hpath
  refine ⟨hterm, ⟨_, rfl⟩, ?_⟩
  change Path _ (target :: c.states) (s.kind.code :: c.symbols.map _)
  rw [hbelow]
  exact hpath.move hq hgoto

/-- A reduction takes the body of a clause off the stack. -/
theorem reduction (h : Poised e c) {r s : Nat}
    (hmove : (rowOf e c.state).move? s = some (.reduce r)) (hrun : p.reduction e c r = .ok o p') :
    ∃ i clause v j, r = i + 1 ∧ (clauses e)[i]? = some clause ∧ o = .next (Reduces c clause v j) ∧
      (c.symbols.take clause.body.length).map Sym.kind = clause.body.reverse ∧
      (clause.act.apply e (valuesOf (c.symbols.take clause.body.length).reverse)).run p = .ok v p' ∧
      Poised e (Reduces c clause v j) := by
  obtain ⟨q, it, hq, hasked⟩ := exists_asked hmove
  obtain ⟨hit, hfinal, rfl, hrule⟩ := hasked.complete
  have hsp := h.body_on_top hq hit hfinal
  obtain ⟨n, hex⟩ := explored_states e
  obtain ⟨q0, hq0, hbegin⟩ := hsp.below
  -- the rule was predicted, so it is one of the clauses
  obtain ⟨i, hi, clause, hc⟩ : ∃ i, it.rule = i + 1 ∧ ∃ clause, (clauses e)[i]? = some clause := by
    rcases hex.begins (mem_of_getElem? hq0) hbegin with hzero | ⟨_, _, _, _, hmem⟩
    · exact absurd hzero hrule
    have hlt := (mem_rulesOf.1 hmem).1
    rw [size_rules] at hlt
    exact ⟨it.rule - 1, by omega, _, getElem?_eq_getElem (by omega)⟩
  have hbody : ((grammar e).rule it.rule).body = clause.body.map Symbol.code := by rw [hi, rule_succ hc]
  obtain ⟨hsym, -, -, hpath⟩ := hsp
  simp only [hbody, length_map] at hsym hpath
  have htaken : (c.symbols.take clause.body.length).map Sym.kind = clause.body.reverse := by
    refine reverse_eq_iff.1 (eq_body_of_codes (mem_of_getElem? hc) ?_)
    have hbody' := congrArg List.reverse hsym
    rw [reverse_reverse, take_of_length_le (l := clause.body.map _) (by simp)] at hbody'
    rw [map_reverse, map_map, map_take]
    exact hbody'
  rw [hi] at hrun
  obtain ⟨v, j, ho, hval, hgoto⟩ := exists_of_reduction (clauseOf_succ hc) hrun
  obtain ⟨q1, hq1, hj⟩ := exists_goto hgoto
  obtain ⟨top, below, hbelow⟩ := hpath.exists_cons
  rw [hbelow] at hpath hq1
  refine ⟨i, clause, v, j, hi, hc, ho, htaken, hval, ⟨_, rfl⟩, ?_⟩
  unfold Reduces
  simp only [map_cons, map_drop, hbelow]
  exact hpath.move hq1 hj

theorem accept (h : Poised e c) (hact : (machine e).action c.state s.kind = some .accept) :
    c.symbols.map Sym.kind = [.phrase .program] ∧ s.kind.code = (grammar e).endMark := by
  obtain ⟨n, hex⟩ := explored_states e
  obtain ⟨q, it, hq, hasked⟩ := exists_asked hact
  obtain ⟨hit, hfinal, hzero, hend⟩ := hasked.start
  obtain ⟨hsym, -, ⟨q0, hq0, hbegin⟩, hpath⟩ := h.body_on_top hq hit hfinal
  rw [hzero] at hsym hq0 hbegin hpath
  -- below the start phrase is the first state, and nothing is below that
  obtain ⟨top, below, hbelow⟩ := hpath.exists_cons
  rw [hbelow] at hq0
  have htop : top = 0 := hex.eq_zero_of_mem hq0 hbegin
  rw [hbelow, htop] at hpath
  obtain ⟨-, hempty⟩ := hpath.eq_of_zero hex
  have hcodes : c.symbols.map (fun s => s.kind.code) = [Phrase.program.code] := by
    rw [← take_append_drop 1 (c.symbols.map _)]
    exact congrArg₂ (· ++ ·) hsym hempty
  refine ⟨?_, hend⟩
  obtain ⟨sym, hsyms, hcode⟩ := map_eq_singleton_iff.1 hcodes
  rw [hsyms, map_singleton, eq_of_code_eq (.phrase .program) rfl hcode]

end Poised

def symbolsOf (ts : List Token) : List Symbol := (ts.map Token.kind).map .tok

/-- What holds between two moves on a tape that began with `ts`. -/
structure Valid (e : Edition) (ts : List Token) (c : Config Symbol Node) (tape : Tape) : Prop where
  guard : c.guard = 0
  pushed : c.pushed = []
  poised : Poised e c
  form : ∃ rest, Ahead c.lookahead tape.unread rest ∧
    Rightmost (clauses e) ((c.symbols.map Sym.kind).reverse ++ symbolsOf rest) tape.reduced (symbolsOf ts)

theorem valid_start (e : Edition) (ts : List Token) : Valid e ts Machine.start ⟨ts, []⟩ where
  guard := rfl
  pushed := rfl
  poised := ⟨⟨[], rfl⟩, .start⟩
  form := ⟨_, .unread ts, .done _⟩

namespace Valid

variable {e : Edition} {ts : List Token} {c : Config Symbol Node} {tape : Tape}

variable {s : Sym Symbol Node} {p : Session} {o : Outcome Symbol Node} {s' : Session × Tape}

variable (h : Valid e ts c tape)

include h

theorem look
    (hform : Rightmost (clauses e) ((c.symbols.map Sym.kind).reverse ++ symbolsOf rest) tape.reduced (symbolsOf ts))
    (hred : tape'.reduced = tape.reduced) (hahead : Ahead (some s) tape'.unread rest) :
    Valid e ts { c with lookahead := some s } tape' :=
  ⟨h.guard, h.pushed, ⟨h.poised.top, h.poised.path⟩, rest, hahead, by rw [hred]; exact hform⟩

theorem shift (hlook : c.lookahead = some s) (hact : (machine e).action c.state s.kind = some (.shift target)) :
    Valid e ts (Shifts c s target) tape := by
  obtain ⟨hterm, hpoised⟩ := h.poised.shift hact
  obtain ⟨rest, hahead, hform⟩ := h.form
  rw [hlook] at hahead
  refine ⟨by simp [Shifts, h.guard], h.pushed, hpoised, ?_⟩
  generalize tape.unread = unread at hahead
  cases hahead with
  | token t _ => exact ⟨_, .unread unread, by simpa [Shifts, symbolsOf, tokenSym] using hform⟩
  | ended =>
    -- no item stands before the end of the input
    cases e <;> exact absurd hterm (by decide)

theorem accept (hlook : c.lookahead = some s) (hact : (machine e).action c.state s.kind = some .accept) :
    tape.unread = [] ∧ Rightmost (clauses e) [.phrase .program] tape.reduced (symbolsOf ts) := by
  obtain ⟨hkinds, hend⟩ := h.poised.accept hact
  obtain ⟨rest, hahead, hform⟩ := h.form
  rw [hlook] at hahead
  generalize tape.unread = unread at hahead
  cases hahead with
  | token t _ =>
    have hlt := code_tok_lt t.kind
    have hcode : t.kind.code = 60 := hend
    omega
  | ended => exact ⟨rfl, by simpa [hkinds, symbolsOf] using hform⟩

omit h

/-- What a move may lead to: the invariant, or at the end a derivation of the whole tape. -/
def Leads (e : Edition) (ts : List Token) (tape : Tape) : Outcome Symbol Node → Prop
  | .next c => Valid e ts c tape
  | .finished _ => tape.unread = [] ∧ Rightmost (clauses e) [.phrase .program] tape.reduced (symbolsOf ts)

theorem reduceBy (h : Valid e ts c tape) {r s : Nat} (hmove : (rowOf e c.state).move? s = some (.reduce r))
    (hrun : ((onTape e).reduceBy c r).run (p, tape) = .ok o s') : Leads e ts s'.2 o := by
  obtain ⟨hrun, hs'⟩ := exists_of_run_reduceBy hrun
  obtain ⟨i, clause, v, j, rfl, hclause, rfl, hbody, -, hpoised⟩ := h.poised.reduction hmove hrun
  obtain ⟨rest, hahead, hform⟩ := h.form
  rw [hs']
  refine ⟨h.guard, h.pushed, hpoised, rest, hahead, ?_⟩
  rw [← take_append_drop clause.body.length c.symbols, map_append, reverse_append, hbody, reverse_reverse] at hform
  unfold Reduces
  rw [map_cons, reverse_cons, List.append_assoc]
  exact .replace hclause hform

theorem step (he : e ≠ .first) (h : Valid e ts c tape)
    (hstep : ((onTape e).step c).run (p, tape) = .ok o s') : Leads e ts s'.2 o := by
  cases hd : (machine e).defaulted c.state with
  | some rule =>
    rw [run_step_defaulted hd] at hstep
    obtain ⟨s, hs⟩ := Row.Of.exists_of_defaulted? hd
    exact h.reduceBy hs hstep
  | none =>
    obtain ⟨rest, hahead, hform⟩ := h.form
    obtain ⟨tape', hfetch, hred, hahead'⟩ := run_fetch h.pushed hahead
    have hlook := h.look hform hred hahead'
    rw [run_step_looking hd hfetch] at hstep
    cases hact : (machine e).action c.state (nextSym rest).kind with
    | none =>
      rw [hact] at hstep
      exact absurd hstep (run_recover he hlook.guard)
    | some m =>
      rw [hact] at hstep
      cases m with
      | shift target =>
        cases hstep
        exact hlook.shift rfl hact
      | reduce rule => exact hlook.reduceBy hact hstep
      | accept =>
        cases hstep
        exact hlook.accept rfl hact

theorem run (he : e ≠ .first) (h : Valid e ts c tape)
    (hrun : ((onTape e).run fuel c).run (p, tape) = .ok (.finished v) s') :
    s'.2.unread = [] ∧ Rightmost (clauses e) [.phrase .program] s'.2.reduced (symbolsOf ts) := by
  induction fuel generalizing c p tape with
  | zero => cases hrun
  | succ fuel ih =>
    obtain ⟨o, ⟨p1, tape1⟩, hstep, hrest⟩ := of_run_bind hrun
    have hvalid := h.step he hstep
    cases o with
    | next c' => exact ih hvalid hrest
    | finished v' =>
      cases hrest
      exact hvalid

end Valid

end Tabc
