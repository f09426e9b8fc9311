import Tabc.Proofs.Parsing.Texts

/-!
# A parser that has read lines before

Two sessions that differ by a number of lines, and in nothing else that the parser looks at, take the same
moves on a text; a message names the other line. `alongside_parse` says this of a session that is `Settled`,
next to a new one.
-/

open List

namespace Tabc

open Parsing Automaton Tabc.Core

variable {e : Edition} {c : Config Symbol Node} {p : Session}

def Token.lower (d : Nat) (t : Token) : Token := { t with line := t.line + d }

/-- A symbol some lines further down. -/
def lowerSym (d : Nat) (s : Sym Symbol Node) : Sym Symbol Node :=
  { s with span := { s.span with line := s.span.line.map (· + (d : Int)) } }

/-- A machine some lines further down. -/
def lowerConfig (d : Nat) (c : Config Symbol Node) : Config Symbol Node :=
  { c with symbols := c.symbols.map (lowerSym d), lookahead := c.lookahead.map (lowerSym d) }

/-- What a move leads to, some lines further down. -/
def lowerOutcome (d : Nat) : Outcome Symbol Node → Outcome Symbol Node
  | .next c => .next (lowerConfig d c)
  | .finished v => .finished v

def Statement.lower (d : Nat) (s : Statement) : Statement := { s with line := s.line + d }

/-- The same fault some lines further down: only the refusal of a token names lines. -/
inductive Fault.Lower (d : Nat) : Fault → Fault → Prop
  | refusal (line column : Nat) (t : Option Token) :
    Fault.Lower d (.failed (.syntaxAt line column ((t.map Token.render).getD "None")))
      (.failed (.syntaxAt (line + d) (column + d) ((t.map fun t => (t.lower d).render).getD "None")))
  | same {x : Fault} (h : ∀ r, x ≠ .failed r) : Fault.Lower d x x

/-- A source that stands some lines further down in the same text. -/
structure Source.Below (d : Nat) (s t : Source) : Prop where
  rest : t.rest = s.rest
  pos : t.pos = s.pos
  line : t.line = s.line + d
  current : t.current = s.current + d
  reached : t.reached = s.reached + d
  tabs : ∀ n, 0 < n → t.tabs.lookup (n + d) = s.tabs.lookup n
  line_pos : 0 < s.line
  current_pos : 0 < s.current
  reached_pos : 0 < s.reached

/-- A session that stands some lines further down in the same text. -/
structure Session.Below (d : Nat) (p q : Session) : Prop where
  source : p.source.Below d q.source
  lists : q.lists = p.lists
  tuples : q.tuples = p.tuples
  statements : q.statements = p.statements.map (Statement.lower d)

/-- Two steps that end alike, the second one some lines further down. -/
inductive Alongside (d : Nat) {α : Type} (f : α → α) :
    EStateM.Result Fault Session α → EStateM.Result Fault Session α → Prop
  | ok (a : α) {p q : Session} (h : p.Below d q) : Alongside d f (.ok a p) (.ok (f a) q)
  | error {x y : Fault} (p q : Session) (h : x.Lower d y) : Alongside d f (.error x p) (.error y q)

variable {d : Nat}

@[simp] theorem lowerSym_endSym : lowerSym d endSym = endSym := rfl

@[simp] theorem lowerSym_tokenSym (t : Token) : lowerSym d (tokenSym t) = tokenSym (t.lower d) := rfl

@[simp] theorem lowerSym_phraseSym (head : Phrase) (v : Node) : lowerSym d (phraseSym head v) = phraseSym head v := rfl

theorem valuesOf_map_lowerSym (args : List (Sym Symbol Node)) :
    valuesOf (args.map (lowerSym d)) = valuesOf args := by simp [valuesOf, lowerSym, Function.comp_def]

theorem owners_map_lower (o : Outline) (i : Nat) (ss : List Statement) :
    o.owners .fourth i (ss.map (Statement.lower d)) = o.owners .fourth i ss := by
  induction ss generalizing o i with
  | nil => rfl
  | cons s ss ih =>
    simp only [map_cons, Outline.owners, ih]
    rfl

theorem assemble_map_lower (ss : List Statement) (owners : List (Option Nat)) (i : Nat) :
    assemble .fourth ((ss.map (Statement.lower d)).zip owners) i = assemble .fourth (ss.zip owners) i := by
  induction ss generalizing owners i with
  | nil => rfl
  | cons s ss ih =>
    cases owners with
    | nil => rfl
    | cons owner owners =>
      rw [map_cons, zip_cons_cons, zip_cons_cons, assemble, ih]
      rfl

theorem forest_map_lower (ss : List Statement) : forest .fourth (ss.map (Statement.lower d)) = forest .fourth ss := by
  unfold forest
  rw [owners_map_lower, assemble_map_lower]

theorem Source.parallel_below (d : Nat) : Parallel .fourth (Token.lower d) (Below d) where
  rest h := h.rest
  token h k v := by rw [h.line, h.pos]; rfl
  skip h rest n := ⟨rfl, by rw [h.pos], h.line, h.current, h.reached, h.tabs, h.line_pos, h.current_pos, h.reached_pos⟩
  print h _ := ⟨h.rest, h.pos, h.line, h.current, h.reached, h.tabs, h.line_pos, h.current_pos, h.reached_pos⟩
  act {s t s' t'} h h' text action := by
    rw [h.line, h.pos]
    cases action with
    | newline =>
      have hline : t'.line + text.length = s'.line + text.length + d := by
        rw [h'.line]
        omega
      refine ⟨rfl, ⟨h'.rest, h'.pos, hline, h'.current, hline, h'.tabs, ?_, h'.current_pos, ?_⟩⟩
      all_goals exact Nat.add_pos_left h'.line_pos _
    | tabs =>
      refine ⟨rfl, ⟨h'.rest, h'.pos, h'.line, h'.current, h'.reached, fun n hn => ?_, h'.line_pos,
        h'.current_pos, h'.reached_pos⟩⟩
      simp only [Source.act, lookup_append, h'.tabs n hn, tabLine, h'.line, lookup_cons, lookup_nil]
      have hbeq : (n + d == s'.line + d) = (n == s'.line) := by
        rw [Bool.eq_iff_iff, beq_iff_eq, beq_iff_eq]
        omega
      rw [hbeq]
    | _ => exact ⟨rfl, h'⟩

theorem Alongside.bind {α β : Type} {f : α → α} {g : β → β} {x y : ParseM α} {k k' : α → ParseM β}
    {q : Session} (hx : Alongside d f (x.run p) (y.run q))
    (hk : ∀ a p q, p.Below d q → Alongside d g ((k a).run p) ((k' (f a)).run q)) :
    Alongside d g ((x >>= k).run p) ((y >>= k').run q) := by
  rw [EStateM.run_bind, EStateM.run_bind]
  generalize x.run p = r at hx
  generalize y.run q = r' at hx
  cases hx with
  | ok a h => exact hk a _ _ h
  | error p q h => exact .error p q h

namespace Session

variable {p q : Session}

variable {s : Sym Symbol Node}

theorem Below.record (h : p.Below d q) (n : Node) :
    Alongside d id ((Tabc.record .fourth n).run p) ((Tabc.record .fourth n).run q) := by
  have hs := h.source
  refine .ok n ⟨⟨hs.rest, hs.pos, hs.line, hs.reached, hs.reached, hs.tabs, hs.line_pos,
    hs.reached_pos, hs.reached_pos⟩, h.lists, h.tuples, ?_⟩
  have htabs : q.source.tabCount (p.source.current + d) = p.source.tabCount p.source.current := by
    unfold Source.tabCount
    rw [hs.tabs _ hs.current_pos]
  simp [h.statements, hs.current, htabs, Statement.lower]

theorem Below.apply (h : p.Below d q) (act : Act) (vs : List Node) :
    Alongside d id ((act.apply .fourth vs).run p) ((act.apply .fourth vs).run q) := by
  have hmakes := act.makes .fourth vs
  generalize act.apply .fourth vs = x at hmakes ⊢
  cases hmakes with
  | node v => exact .ok _ h
  | unmet => exact .error _ _ (.same fun _ => by simp)
  | @lists f _ hx hf =>
    have hchanges := hf p.lists
    rw [hx, hx, h.lists]
    cases hr : f p.lists with
    | ok r => exact .ok _ ⟨h.source, rfl, h.tuples, h.statements⟩
    | error y => exact .error _ _ (.same fun _ => by rw [hr] at hchanges; simp [hchanges])
  | @tuples f _ hx hf =>
    have hchanges := hf p.tuples
    rw [hx, hx, h.tuples]
    cases hr : f p.tuples with
    | ok r => exact .ok _ ⟨h.source, h.lists, rfl, h.statements⟩
    | error y => exact .error _ _ (.same fun _ => by rw [hr] at hchanges; simp [hchanges])
  | statement v => exact h.record v

variable (h : p.Below d q)

include h

theorem Below.reduction (he : e = .fourth) (c : Config Symbol Node) (rule : Nat) :
    Alongside d (lowerOutcome d) (p.reduction e c rule) (q.reduction e (lowerConfig d c) rule) := by
  unfold Session.reduction
  generalize clauseOf (clauses e).toArray rule = clause
  have hvalues : valuesOf (((lowerConfig d c).symbols.take clause.body.length).reverse) =
      valuesOf ((c.symbols.take clause.body.length).reverse) := by
    unfold lowerConfig
    rw [← map_take, ← map_reverse, valuesOf_map_lowerSym]
  have hstates : (lowerConfig d c).states = c.states := rfl
  simp only [hvalues, hstates]
  have happly := h.apply clause.act (valuesOf ((c.symbols.take clause.body.length).reverse))
  rw [← he] at happly
  generalize EStateM.run _ p = r at happly ⊢
  generalize EStateM.run _ q = r' at happly ⊢
  cases happly with
  | error p q hx => exact .error p q hx
  | ok v h' =>
    cases (machine e).goto ((c.states.drop clause.body.length).headD 0) (.phrase clause.head) with
    | none => exact .error _ _ (.same fun _ => by simp)
    | some j =>
      have hlower : Reduces (lowerConfig d c) clause v j = lowerConfig d (Reduces c clause v j) := by
        simp [Reduces, lowerConfig]
      dsimp only [id]
      rw [hlower]
      exact .ok (Outcome.next _) h'

theorem Below.look (he : e = .fourth) (c : Config Symbol Node) :
    (q.look e (lowerConfig d c)).1 = lowerSym d (p.look e c).1 ∧
      (p.look e c).2.Below d (q.look e (lowerConfig d c)).2 := by
  subst he
  unfold Session.look lowerConfig
  cases c.lookahead with
  | some s => exact ⟨rfl, h⟩
  | none =>
    obtain ⟨htoken, hsource⟩ := (Source.parallel_below d).next h.source
    dsimp only [Option.map_none]
    rw [htoken]
    refine ⟨?_, hsource, h.lists, h.tuples, h.statements⟩
    cases (p.source.next .fourth).1 <;> rfl

theorem Below.refusal (hs : s = endSym ∨ ∃ t, s = tokenSym t) : (p.refusal s).Lower d (q.refusal (lowerSym d s)) := by
  unfold Session.refusal
  rw [h.source.reached, h.source.current]
  rcases hs with rfl | ⟨t, rfl⟩
  · exact .refusal _ _ none
  have hkind : ∀ t, ((tokenSym t).kind == .eof) = false := fun _ => rfl
  rw [lowerSym_tokenSym]
  exact .refusal _ _ (some t)

theorem Below.move (he : e = .fourth) (c : Config Symbol Node) (hs : s = endSym ∨ ∃ t, s = tokenSym t) :
    Alongside d (lowerOutcome d) (p.move e c s) (q.move e (lowerConfig d c) (lowerSym d s)) := by
  have hstate : (lowerConfig d c).state = c.state := rfl
  have hkind : (lowerSym d s).kind = s.kind := rfl
  unfold Session.move
  rw [hstate, hkind]
  cases (machine e).action c.state s.kind with
  | none => exact .error _ _ (h.refusal hs)
  | some m =>
    cases m with
    | shift target => exact .ok (Outcome.next _) h
    | reduce rule => exact h.reduction he { c with lookahead := some s } rule
    | accept =>
      have hvalue : (lowerConfig d c).symbols.head?.bind Sym.value = c.symbols.head?.bind Sym.value := by
        unfold lowerConfig
        cases c.symbols <;> rfl
      rw [hvalue]
      exact .ok (Outcome.finished _) h

theorem Below.step (he : e = .fourth) (hc : Plain c) :
    Alongside d (lowerOutcome d) (((machine e).step c).run p) (((machine e).step (lowerConfig d c)).run q) := by
  have hlower : Plain (lowerConfig d c) := by
    refine ⟨hc.guard, hc.pushed, fun s hs => ?_⟩
    obtain ⟨s', hs', rfl⟩ := Option.map_eq_some_iff.1 hs
    rcases hc.lookahead s' hs' with rfl | ⟨t, rfl⟩
    · exact .inl rfl
    · exact .inr ⟨t.lower d, rfl⟩
  have hstate : (lowerConfig d c).state = c.state := rfl
  rw [run_step_text he hc, run_step_text he hlower, hstate]
  cases (machine e).defaulted c.state with
  | some rule => exact h.reduction he c rule
  | none =>
    obtain ⟨hsym, hbelow⟩ := h.look he c
    rw [hsym]
    exact hbelow.move he c ((hc.look p).lookahead _ rfl)

end Session

theorem Session.Below.run (h : p.Below d q) (he : e = .fourth) (fuel : Nat) (hc : Plain c) :
    Alongside d id (((machine e).run fuel c).run p) (((machine e).run fuel (lowerConfig d c)).run q) := by
  induction fuel generalizing c p q with
  | zero => exact .ok _ h
  | succ fuel ih =>
    unfold Machine.run
    rw [EStateM.run_bind, EStateM.run_bind]
    have hstep := h.step he hc
    generalize hr : ((machine e).step c).run p = r at hstep
    generalize ((machine e).step (lowerConfig d c)).run q = r' at hstep
    cases hstep with
    | error p q hx => exact .error p q hx
    | ok o h' =>
      cases o with
      | next c' => exact ih h' (hc.step he hr)
      | finished v => exact .ok _ h'

/-- Nothing is left over from earlier texts: no literal is open, and the line that the next statement will
be put on is the one that the next text begins on and has no tabs yet. -/
structure Session.Settled (p : Session) : Prop where
  lists : p.lists = []
  tuples : p.tuples = []
  current : p.source.current = p.source.line
  tabs : p.source.tabs.lookup p.source.line = none

/-- The lines that a source remembers are those it has come to. -/
structure Source.Ordered (s : Source) : Prop where
  line_pos : 0 < s.line
  current_pos : 0 < s.current
  reached : s.reached = s.line
  tabs : ∀ run ∈ s.tabs, run.1 ≤ s.line

theorem Session.Settled.below (h : p.Settled) (hp : p.source.Ordered) (text : List Char) :
    Session.Below (p.source.line - 1) { Session.fresh with source := Source.fresh.input text }
      { p with statements := [], source := p.source.input text } := by
  have hline := hp.line_pos
  have hreached := hp.reached
  have hcurrent := h.current
  refine ⟨⟨rfl, rfl, ?_, ?_, ?_, fun n hn => ?_, ?_, ?_, ?_⟩, h.lists, h.tuples, rfl⟩
  iterate 3 (simp only [Source.input, Source.fresh]; omega)
  · -- a run of tabs can only be that of the line on which the text begins
    change p.source.tabs.lookup (n + (p.source.line - 1)) = none
    by_cases hn1 : n = 1
    · rw [hn1, Nat.add_sub_cancel' hline]
      exact h.tabs
    rw [lookup_eq_none_iff]
    intro run hrun
    have hle := hp.tabs run hrun
    rw [bne_iff_ne]
    omega
  all_goals exact Nat.one_pos

theorem alongside_parse (h : p.Settled) (hp : p.source.Ordered) (text : List Char) :
    Alongside (p.source.line - 1) id ((Session.parse .fourth text).run .fresh)
      ((Session.parse .fourth text).run p) := by
  have hrun := (h.below hp text).run rfl (moveBound text.length) plain_start
  unfold Session.parse
  rw [run_bind_of_ok (EStateM.run_modify ..), run_bind_of_ok (EStateM.run_modify ..)]
  refine hrun.bind fun r p q hpq => ?_
  cases r with
  | exhausted => exact .error _ _ (.same fun _ => by simp)
  | finished v =>
    have htrees : forest .fourth q.statements = forest .fourth p.statements := by rw [hpq.statements, forest_map_lower]
    have hs := hpq.source
    have hcleared : Session.Below _ { p with source := p.source.clearTabs } { q with source := q.source.clearTabs } :=
      ⟨⟨hs.rest, hs.pos, hs.line, hs.current, hs.reached, fun _ _ => rfl, hs.line_pos,
        hs.current_pos, hs.reached_pos⟩, hpq.lists, hpq.tuples, hpq.statements⟩
    change Alongside _ id (.ok (forest .fourth p.statements) _) (.ok (forest .fourth q.statements) _)
    rw [htrees]
    exact .ok _ hcleared

end Tabc
