import Tabc.Proofs.Parsing.Tokens

/-!
# Texts and their tokens

What the parser does with a text it does with its tokens (`Scans`) on a tape: the machine takes the same moves
and the same trees are recorded. So a text whose tokens are accepted is parsed (`parse_of_tape`).
-/

namespace Tabc

open Parsing Tabc.Core
open Statement (node)
open Machine (start)

variable {e : Edition}

variable {fuel : Nat} {ts : List Token} {v : Option Node}

def Source.starting (s : Source) (line : Nat) : Source := { s with current := line }

theorem parallel_starting (c : Nat) : Source.Parallel e id fun s t => t = s.starting c where
  rest h := by rw [h]; rfl
  token h _ _ := by rw [h]; rfl
  skip h _ _ := by rw [h]; rfl
  print h _ := by rw [h]; rfl
  act h h' text action := by
    subst h h'
    cases action <;> exact ⟨rfl, rfl⟩

theorem next_starting (s : Source) (c : Nat) : (s.starting c).next e = ((s.next e).1, (s.next e).2.starting c) := by
  obtain ⟨htoken, hsource⟩ := (parallel_starting c).next (rfl : s.starting c = _)
  exact Prod.ext (by simpa using htoken) hsource

theorem Scans.starting (h : Scans e s ts) (c : Nat) : Scans e (s.starting c) ts := by
  induction h with
  | stop h h' => exact .stop (by rw [next_starting, h]) (by rw [next_starting, h'])
  | token h _ ih => exact .token (by rw [next_starting, h]) ih

variable {x : ParseM Node} {f : List (List Node) → Except Fault (Node × List (List Node))}

/-- A computation that changes the open lists. -/
def OnLists (f : List (List Node) → Except Fault (Node × List (List Node))) (x : ParseM Node) : Prop :=
  ∀ p : Session, x.run p = match f p.lists with
    | .ok (v, lists) => .ok v { p with lists := lists }
    | .error y => .error y p

/-- A computation that changes the open tuples. -/
def OnTuples (f : List (List Node) → Except Fault (Node × List (List Node))) (x : ParseM Node) : Prop :=
  ∀ p : Session, x.run p = match f p.tuples with
    | .ok (v, tuples) => .ok v { p with tuples := tuples }
    | .error y => .error y p

theorem run_get_bind {σ : Type} (f : σ → EStateM Fault σ α) (s : σ) :
    (get >>= f : EStateM Fault σ α).run s = (f s).run s := rfl

/-- A change to the open literals that makes them more by a number, or fails because there is none. -/
def Changes (d : Int) (f : List (List Node) → Except Fault (Node × List (List Node))) : Prop :=
  ∀ stack, match f stack with
    | .ok (_, stack') => (stack'.length : Int) = stack.length + d
    | .error y => y = .outOfRange

theorem changes_openLiteral (v : Node) (others : List Node) :
    Changes 1 fun stack => (openLiteral stack v others).map (Node.none, ·) := by
  intro stack
  cases hv : v.isNone <;> rcases stack with _ | ⟨_ | ⟨item, items⟩, outer⟩ <;> simp [openLiteral, hv, Except.map]

theorem changes_growLiteral (v : Node) : Changes 0 fun stack => (growLiteral stack v).map (Node.none, ·) := by
  intro stack
  cases hv : v.isNone <;> cases stack <;> simp [growLiteral, hv, Except.map]

theorem changes_closeLiteral (kind : String) : Changes (-1) (closeLiteral kind) := by
  intro stack
  rcases stack with _ | ⟨items, _ | ⟨around, outer⟩⟩ <;> simp [closeLiteral]

/-- By how many an action makes the open lists more. -/
def Act.listDepth : Act → Int
  | .listHead => 1
  | .listTail => -1
  | _ => 0

def Act.tupleDepth : Act → Int
  | .tupleHead => 1
  | .tupleTail => -1
  | _ => 0

/-- An action that changes nothing when it is given some number of values. -/
def Act.quiet : Act → Nat → Bool
  | .listHead, 2 | .listBody, 3 | .listTail, _ | .tupleHead, 4 | .tupleBody, 3 | .tupleTail, _ => false
  | .statement, _ + 1 => false
  | _, _ => true

/-- The ways in which an action makes its node. -/
inductive Act.Makes (e : Edition) (act : Act) (n : Nat) : ParseM Node → Prop
  | node (v : Node) (hact : act.quiet n = true) : act.Makes e n (pure v)
  | unmet : act.Makes e n (throw (.unmet none))
  | lists {g y} (hy : OnLists g y) (hg : Changes act.listDepth g)
    (hact : act.tupleDepth = 0 ∧ act ≠ .statement) : act.Makes e n y
  | tuples {g y} (hy : OnTuples g y) (hg : Changes act.tupleDepth g)
    (hact : act.listDepth = 0 ∧ act ≠ .statement) : act.Makes e n y
  | statement (v : Node) (hact : act = .statement) : act.Makes e n (record e v)

theorem run_onLists (g : List (List Node) → Except Fault (List (List Node))) :
    OnLists (fun stack => (g stack).map (Node.none, ·)) (onLists g) := by
  intro p
  rw [onLists, run_get_bind]
  dsimp only
  cases g p.lists <;> rfl

theorem run_onTuples (g : List (List Node) → Except Fault (List (List Node))) :
    OnTuples (fun stack => (g stack).map (Node.none, ·)) (onTuples g) := by
  intro p
  rw [onTuples, run_get_bind]
  dsimp only
  cases g p.tuples <;> rfl

theorem onLists_listTail (vs : List Node) : OnLists (closeLiteral "list") (Act.apply e .listTail vs) := by
  intro p
  unfold Act.apply
  rw [run_get_bind]
  cases closeLiteral "list" p.lists <;> rfl

theorem onTuples_tupleTail (vs : List Node) : OnTuples (closeLiteral "tuple") (Act.apply e .tupleTail vs) := by
  intro p
  unfold Act.apply
  rw [run_get_bind]
  cases closeLiteral "tuple" p.tuples <;> rfl

theorem Act.makes (e : Edition) (act : Act) (vs : List Node) : act.Makes e vs.length (act.apply e vs) := by
  cases act with
  | listTail => exact .lists (onLists_listTail vs) (changes_closeLiteral _) (by decide)
  | tupleTail => exact .tuples (onTuples_tupleTail vs) (changes_closeLiteral _) (by decide)
  | listHead | listBody | tupleHead | tupleBody | statement =>
    -- The values are taken apart as far as the action looks at them.
    repeat' first
      | exact .node _ rfl
      | exact .lists (run_onLists _) (changes_openLiteral _ _) (by decide)
      | exact .lists (run_onLists _) (changes_growLiteral _) (by decide)
      | exact .tuples (run_onTuples _) (changes_openLiteral _ _) (by decide)
      | exact .tuples (run_onTuples _) (changes_growLiteral _) (by decide)
      | exact .statement _ rfl
      | cases ‹List Node›
  | typeOf | primType =>
    cases vs with
    | nil => exact .node _ rfl
    | cons v vs =>
      unfold Act.apply
      dsimp only
      split <;> first | exact .node _ rfl | exact .unmet
  | collType =>
    rcases vs with _ | ⟨o, _ | ⟨v, _ | ⟨c, _ | _⟩⟩⟩
    case cons.cons.cons.nil =>
      unfold Act.apply
      dsimp only
      split <;> exact .node _ rfl
    all_goals exact .node _ rfl
  | _ => repeat' first | exact .node _ rfl | cases ‹List Node›

/-- A machine that has met no error: nothing is pushed back, and what it has read ahead is a token or the
end of the text. -/
structure Plain (c : Config Symbol Node) : Prop where
  guard : c.guard = 0
  pushed : c.pushed = []
  lookahead : ∀ s ∈ c.lookahead, s = endSym ∨ ∃ t, s = tokenSym t

/-- The symbol that a machine sees next, and the session after it was read. -/
def Session.look (e : Edition) (p : Session) (c : Config Symbol Node) : Sym Symbol Node × Session :=
  match c.lookahead with
  | some s => (s, p)
  | none => (((p.source.next e).1.map tokenSym).getD endSym, { p with source := (p.source.next e).2 })

def Session.refusal (p : Session) (s : Sym Symbol Node) : Fault :=
  .failed (.syntaxAt p.source.reached p.source.current
    (((if s.kind == .eof then none else some s).map symText).getD "None"))

def Session.move (e : Edition) (p : Session) (c : Config Symbol Node) (s : Sym Symbol Node) :
    EStateM.Result Fault Session (Outcome Symbol Node) :=
  match (machine e).action c.state s.kind with
  | some (.shift target) => .ok (.next (Shifts c s target)) p
  | some (.reduce rule) => p.reduction e { c with lookahead := some s } rule
  | some .accept => .ok (.finished (c.symbols.head?.bind Sym.value)) p
  | none => .error (p.refusal s) { p with ready := false }

variable {c : Config Symbol Node} {p q : Session}

theorem run_fetch_text (hc : c.pushed = []) (p : Session) :
    ((machine e).fetch c).run p = .ok ((p.look e c).1, { c with lookahead := some (p.look e c).1 }) (p.look e c).2 := by
  unfold Machine.fetch Session.look
  cases hlook : c.lookahead with
  | some s =>
    have hsame : { c with lookahead := some s } = c := by rw [← hlook]
    rw [hsame]
    rfl
  | none =>
    rw [hc]
    rfl

theorem run_recover_text (he : e = .fourth) (hc : c.guard = 0) (s : Sym Symbol Node) (p : Session) :
    ((machine e).recover c s).run p = .error (p.refusal s) { p with ready := false } := by
  have hnote : ((machine e).note c .error).run p = .ok () p := rfl
  have hget : (get : ParseM Session).run p = .ok p p := rfl
  have hset : (modify ((machine e).setReady false) : ParseM Unit).run p = .ok () { p with ready := false } := rfl
  have hend : (machine e).isEnd s.kind = (s.kind == .eof) := rfl
  have herror : ∀ o : Option (Sym Symbol Node), ((machine e).onError o).run { p with ready := false } =
      .error (.failed (.syntaxAt p.source.reached p.source.current ((o.map symText).getD "None")))
        { p with ready := false } := by
    intro o
    rw [he]
    rfl
  unfold Machine.recover
  rw [run_bind_of_ok hnote, run_bind_of_ok hget]
  simp only [hc, beq_self_eq_true, Bool.true_or, if_true]
  rw [run_bind_of_ok hset, EStateM.run_bind, herror]
  rfl

theorem run_step_text (he : e = .fourth) (hc : Plain c) (p : Session) :
    ((machine e).step c).run p = match (machine e).defaulted c.state with
      | some rule => p.reduction e c rule
      | none => (p.look e c).2.move e c (p.look e c).1 := by
  have hnote : ∀ c note (p : Session), ((machine e).note c note).run p = .ok () p := fun _ _ _ => rfl
  unfold Machine.step
  rw [run_bind_of_ok (hnote _ _ _)]
  cases (machine e).defaulted c.state with
  | some rule =>
    rw [run_bind_of_ok (hnote _ _ _), run_bind_of_ok (hnote _ _ _), run_reduceBy_text]
  | none =>
    rw [run_bind_of_ok (run_fetch_text hc.pushed p)]
    generalize (p.look e c).1 = s
    generalize (p.look e c).2 = p'
    rw [run_bind_of_ok (hnote _ _ _)]
    unfold Session.move
    cases (machine e).action c.state s.kind with
    | none => exact run_recover_text he (c := { c with lookahead := some s }) hc.guard s p'
    | some m =>
      cases m with
      | shift target => rfl
      | reduce rule => exact run_reduceBy_text e _ _ _
      | accept => rfl

theorem plain_start : Plain start := ⟨rfl, rfl, fun _ h => by cases h⟩

theorem Plain.look (h : Plain c) (p : Session) : Plain { c with lookahead := some (p.look e c).1 } := by
  refine ⟨h.guard, h.pushed, fun s hs => ?_⟩
  obtain rfl := Option.some.inj hs
  unfold Session.look
  cases hlook : c.lookahead with
  | some s => exact h.lookahead s hlook
  | none =>
    cases (p.source.next e).1 with
    | none => exact .inl rfl
    | some t => exact .inr ⟨t, rfl⟩

theorem Plain.reduces (h : Plain c) (clause : Clause) (v : Node) (j : Nat) :
    Plain (Reduces c clause v j) := ⟨h.guard, h.pushed, h.lookahead⟩

theorem Plain.shifts (h : Plain c) (s : Sym Symbol Node) (target : Nat) : Plain (Shifts c s target) := by
  refine ⟨?_, h.pushed, fun _ h => by cases h⟩
  simp [Shifts, h.guard]

theorem Plain.step (he : e = .fourth) (hc : Plain c)
    (h : ((machine e).step c).run p = .ok (.next c') p') : Plain c' := by
  have hreduction : ∀ {c c' : Config Symbol Node} {rule : Nat} {p p' : Session}, Plain c →
      p.reduction e c rule = .ok (.next c') p' → Plain c' := by
    intro c c' rule p p' hc h
    obtain ⟨v, j, hc', -⟩ := exists_of_reduction rfl h
    cases hc'
    exact hc.reduces _ _ _
  rw [run_step_text he hc] at h
  split at h
  · exact hreduction hc h
  unfold Session.move at h
  split at h
  · cases h
    exact hc.shifts _ _
  · exact hreduction (hc.look p) h
  · cases h
  · cases h

/-- A session that reads a text and one that reads its tokens from a tape. -/
structure Agrees (e : Edition) (p q : Session) (unread : List Token) : Prop where
  lists : p.lists = q.lists
  tuples : p.tuples = q.tuples
  nodes : p.statements.map node = q.statements.map node
  scans : Scans e p.source unread

namespace Agrees

variable {q' : Session} {tape tape' : Tape} {o : Outcome Symbol Node}

theorem apply (h : Agrees e p q ts) {act : Act} {v : Node} (hrun : (act.apply e vs).run q = .ok v q') :
    ∃ p', (act.apply e vs).run p = .ok v p' ∧ Agrees e p' q' ts := by
  have hmakes := act.makes e vs
  generalize act.apply e vs = x at hmakes hrun ⊢
  cases hmakes with
  | node v =>
    cases hrun
    exact ⟨p, rfl, h⟩
  | unmet => cases hrun
  | @lists f _ hx =>
    rw [hx] at hrun
    rw [hx, h.lists]
    cases hf : f q.lists <;> rw [hf] at hrun <;> cases hrun
    exact ⟨_, rfl, rfl, h.tuples, h.nodes, h.scans⟩
  | @tuples f _ hx =>
    rw [hx] at hrun
    rw [hx, h.tuples]
    cases hf : f q.tuples <;> rw [hf] at hrun <;> cases hrun
    exact ⟨_, rfl, h.lists, rfl, h.nodes, h.scans⟩
  | statement v =>
    cases hrun
    refine ⟨_, rfl, h.lists, h.tuples, ?_, h.scans.starting _⟩
    have hnodes := h.nodes
    simp_all

theorem reduceBy (h : Agrees e p q tape.unread)
    (hrun : ((onTape e).reduceBy c rule).run (q, tape) = .ok o (q', tape')) :
    ∃ p', p.reduction e c rule = .ok o p' ∧ Agrees e p' q' tape'.unread := by
  obtain ⟨hrun, htape⟩ := exists_of_run_reduceBy hrun
  obtain ⟨v, j, rfl, hval, hgoto⟩ := exists_of_reduction rfl hrun
  obtain ⟨p', hp', h'⟩ := h.apply hval
  cases htape
  refine ⟨p', ?_, h'⟩
  unfold Session.reduction
  simp only [hp', hgoto]

theorem fetch (h : Agrees e p q tape.unread) (hc : c.pushed = []) :
    ∃ tape', ((onTape e).fetch c).run (q, tape) =
        .ok ((p.look e c).1, { c with lookahead := some (p.look e c).1 }) (q, tape') ∧
      Agrees e (p.look e c).2 q tape'.unread := by
  obtain ⟨unread, reduced⟩ := tape
  unfold Machine.fetch Session.look
  cases hlook : c.lookahead with
  | some s =>
    have hsame : { c with lookahead := some s } = c := by rw [← hlook]
    exact ⟨⟨unread, reduced⟩, by rw [hsame]; rfl, h⟩
  | none =>
    rw [hc]
    have hscans : Scans e p.source unread := h.scans
    cases hscans with
    | stop hnext hnext' =>
      rw [hnext]
      exact ⟨⟨[], reduced⟩, rfl, h.lists, h.tuples, h.nodes, .stop hnext' hnext'⟩
    | token hnext hts =>
      rw [hnext]
      exact ⟨⟨_, reduced⟩, rfl, h.lists, h.tuples, h.nodes, hts⟩

theorem step (he : e = .fourth) (h : Agrees e p q tape.unread) (hc : Plain c)
    (hrun : ((onTape e).step c).run (q, tape) = .ok o (q', tape')) :
    ∃ p', ((machine e).step c).run p = .ok o p' ∧ Agrees e p' q' tape'.unread := by
  rw [run_step_text he hc]
  cases hd : (machine e).defaulted c.state with
  | some rule =>
    rw [run_step_defaulted hd] at hrun
    exact h.reduceBy hrun
  | none =>
    obtain ⟨tape1, hfetch, hlook⟩ := h.fetch hc.pushed
    rw [run_step_looking hd hfetch] at hrun
    unfold Session.move
    cases hact : (machine e).action c.state (p.look e c).1.kind with
    | none =>
      rw [hact] at hrun
      exact absurd hrun (run_recover (by rw [he]; decide) hc.guard)
    | some m =>
      rw [hact] at hrun
      cases m with
      | reduce rule => exact hlook.reduceBy hrun
      | shift | accept =>
        cases hrun
        exact ⟨_, rfl, hlook⟩

theorem run (he : e = .fourth) (h : Agrees e p q tape.unread)
    (hc : Plain c) (hrun : ((onTape e).run fuel c).run (q, tape) = .ok r (q', tape')) :
    ∃ p', ((machine e).run fuel c).run p = .ok r p' ∧ Agrees e p' q' tape'.unread := by
  induction fuel generalizing c p q tape with
  | zero =>
    cases hrun
    exact ⟨p, rfl, h⟩
  | succ fuel ih =>
    unfold Machine.run at hrun ⊢
    obtain ⟨o, ⟨q1, tape1⟩, hstep, hrest⟩ := of_run_bind hrun
    obtain ⟨p1, hp1, h1⟩ := h.step he hc hstep
    rw [run_bind_of_ok hp1]
    cases o with
    | next c' => exact ih h1 (hc.step he hp1) hrest
    | finished v =>
      cases hrest
      exact ⟨p1, rfl, h1⟩

end Agrees

theorem run_add (h : ((onTape e).run fuel c).run st = .ok (.finished v) st') (more : Nat) :
    ((onTape e).run (fuel + more) c).run st = .ok (.finished v) st' := by
  induction fuel generalizing c st with
  | zero => cases h
  | succ fuel ih =>
    obtain ⟨outcome, st1, hstep, hrest⟩ := of_run_bind h
    rw [Nat.add_right_comm, Machine.run, run_bind_of_ok hstep]
    cases outcome with
    | next c => exact ih hrest
    | finished v => exact hrest

/-- A text whose tokens are accepted is parsed by a parser with any history, and the same trees are
recorded. -/
theorem exists_parse_of_tape (he : e = .fourth)
    (hscans : Scans e (p.source.input text) ts) (hfuel : fuel ≤ moveBound text.length)
    (hrun : ((onTape e).run fuel start).run ({ p with statements := [] }, ⟨ts, []⟩) = .ok (.finished v) (q, tape)) :
    ∃ r p', ((machine e).run (moveBound text.length) start).run
        { p with statements := [], source := p.source.input text } = .ok (.finished r) p' ∧
      (Session.parse e text).run p = .ok (forest e p'.statements) { p' with source := p'.source.clearTabs } ∧
      p'.statements.map node = q.statements.map node := by
  obtain ⟨more, hmore⟩ := Nat.exists_eq_add_of_le hfuel
  have hrun' := run_add hrun more
  rw [← hmore] at hrun'
  have hagrees : Agrees e { p with statements := [], source := p.source.input text }
      { p with statements := [] } ts := ⟨rfl, rfl, rfl, hscans⟩
  obtain ⟨p', hp', hagrees'⟩ := hagrees.run he plain_start hrun'
  refine ⟨v, p', hp', ?_, hagrees'.nodes⟩
  rw [Session.parse, run_bind_of_ok (EStateM.run_modify ..), run_bind_of_ok hp']
  rfl

end Tabc
