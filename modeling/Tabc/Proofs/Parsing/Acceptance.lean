import Tabc.Proofs.Parsing.Expressions

/-!
# What the parser accepts

The parser accepts an assignment of a written expression (`Written.run_assignment`). Whatever it accepts, the
rules it has reduced are a rightmost derivation (`reductions_rightmost`).
-/

open List hiding head

namespace Tabc

open Parsing
open Tabc.Symbol (tok phrase)
open Expression

/-- The rules from an assignment up to the program. -/
def upward : List Clause :=
  [⟨.assignment, [tok .ident, tok .assign, phrase .expression, tok .newline], .assign, false⟩,
    ⟨.statement, [phrase .assignment], .statement, false⟩,
    ⟨.block, [phrase .statement], .single, false⟩,
    ⟨.program, [phrase .block], .pass, false⟩,
    ⟨.assignment, [tok .ident, tok .colon, phrase .type, tok .assign, phrase .expression,
      tok .newline], .assignTyped, false⟩]

theorem assignment_known :
    shifts .fourth [] .ident = true ∧ shifts .fourth [tok .ident] .assign = true ∧
    shifts .fourth (start ++ [phrase .expression]) .newline = true ∧
    ∀ c ∈ upward, c ∈ clauses .fourth ∧ predicts .fourth [] c.head = true ∧
      Viable .fourth [phrase c.head] ∧ reduces .fourth c.body .eof = true := by decide +kernel

theorem mayFollow_upward (hc : c ∈ upward) : MayFollow .fourth [] (phrase c.head) .eof := by
  have hup : ∀ c' ∈ upward, ∀ s, c'.body = [s] → MayFollow .fourth [] (phrase c'.head) .eof →
      MayFollow .fourth [] s .eof := by
    intro c' hc' s hbody h
    obtain ⟨hmem, hpredicts, -⟩ := assignment_known.2.2.2 c' hc'
    exact MayFollow.inherit hmem hpredicts [] hbody h
  have hprogram := MayFollow.finish .fourth
  have hblock := hup _ (by decide : upward[3] ∈ upward) _ rfl hprogram
  have hstatement := hup _ (by decide : upward[2] ∈ upward) _ rfl hblock
  have hassignment := hup _ (by decide : upward[1] ∈ upward) _ rfl hstatement
  simp only [upward, mem_cons, not_mem_nil, or_false] at hc
  rcases hc with rfl | rfl | rfl | rfl | rfl
  · exact hassignment
  · exact hstatement
  · exact hblock
  · exact hprogram
  · exact hassignment

variable {body : List Symbol} {ts : List Token} {o : Option Operator} {act : Act} {unary : Bool}
  {bound : Nat} {vs : List Node} {ws : List Word} {p q : Session}

/-- A rule is complete before a symbol that may follow it. -/
theorem Pushes.complete {before : List Symbol} {s : Symbol} (h : Pushes bound before (· = s) body vs ws p q)
    (hknown : ⟨head, body, act, unary⟩ ∈ clauses .fourth ∧ predicts .fourth before head = true ∧
      Viable .fourth (before ++ [phrase head]) ∧ reduces .fourth (before ++ body) s = true)
    (hfollow : MayFollow .fourth before (phrase head) s) (hval : (act.apply .fourth vs).run q = .ok v q') :
    Pushes (bound + 1) before (· = s) [phrase head] [v] ws p q' := by
  obtain ⟨hmem, hpredicts, hviable, hred⟩ := hknown
  refine h.reduce hmem hval ?_ hviable
  rintro _ rfl
  exact ⟨before, rfl, hpredicts, hfollow, hred⟩

theorem pushes_upward (hc : ⟨head, body, act, unary⟩ ∈ upward) (h : Pushes bound [] (· = .eof) body vs ws p q)
    (hval : (act.apply .fourth vs).run q = .ok v q') : Pushes (bound + 1) [] (· = .eof) [phrase head] [v] ws p q' :=
  h.complete (assignment_known.2.2.2 _ hc) (mayFollow_upward hc) hval

/-- The session after one more statement. -/
def recorded (p : Session) (n : Node) : Session :=
  { p with
    statements := p.statements ++ [⟨p.source.current, p.source.tabCount p.source.current, n⟩]
    source := { p.source with current := p.source.reached } }

theorem run_of_block (h : Pushes bound [] (· = .eof) [phrase .block] [v] ws p q) (hts : ts.map wordOf = ws)
    (hbound : bound + 2 ≤ moveBound ts.length) :
    ∃ v tape, ((onTape .fourth).run (moveBound ts.length) Machine.start).run (p, ⟨ts, []⟩) =
      .ok (.finished v) (q, tape) := by
  have hprogram := pushes_upward (mem_of_getElem? (i := 3) rfl) h rfl
  obtain ⟨js, is, args, -, hpile, -, -, moves, hmoves, hstretch⟩ := hprogram [] [] ts [] hts rfl
  rw [hpile, List.append_nil] at hstretch
  have hstart : (Situation.mk [stateAfter .fourth []] [] ts p).Of Machine.start p ⟨ts, []⟩ :=
    { states := by rw [stateAfter_nil]; rfl
      state := by rw [stateAfter_nil]; rfl
      symbols := rfl
      guard := rfl
      pushed := rfl
      ahead := .unread ts
      session := rfl }
  obtain ⟨c, p', tape, hlast, hrun⟩ := hstretch _ _ _ hstart
  obtain rfl : p' = q := hlast.session
  have hfuel : moveBound ts.length = (moveBound ts.length - moves - 1 + 1) + moves := by omega
  obtain ⟨v, tape', haccept⟩ := hlast.accept (action_accept .fourth) (moveBound ts.length - moves - 1)
  exact ⟨v, tape', by rw [hfuel, hrun, haccept]⟩

theorem run_of_assignment (hc : ⟨.assignment, body, act, unary⟩ ∈ upward)
    (hread : Pushes bound [] (· = .eof) body vs ws p q) {n : Node}
    (hval : (act.apply .fourth vs).run q = .ok n q) (hts : ts.map wordOf = ws)
    (hbound : bound + 5 ≤ moveBound ts.length) :
    ∃ v tape, ((onTape .fourth).run (moveBound ts.length) Machine.start).run (p, ⟨ts, []⟩) =
      .ok (.finished v) (recorded q n, tape) := by
  have hstatement : Pushes (bound + 2) [] (· = .eof) [phrase .statement] [n] ws p (recorded q n) :=
    pushes_upward (mem_of_getElem? (i := 1) rfl) (pushes_upward hc hread hval) rfl
  exact run_of_block (pushes_upward (mem_of_getElem? (i := 2) rfl) hstatement rfl) hts hbound

def assignmentWords (x : String) (ws : List Word) : List Word :=
  (.ident, .text x) :: (.assign, .text "=") :: (ws ++ [(.newline, .text "\n")])

theorem run_assignment {n : Node}
    (h : Pushes (4 * ws.length) start (Expression.Follows o) [phrase .expression] [n] ws p q)
    (hts : ts.map wordOf = assignmentWords x ws) :
    ∃ v tape, ((onTape .fourth).run (moveBound ts.length) Machine.start).run (p, ⟨ts, []⟩) =
      .ok (.finished v) (recorded q (.assign (.ident x) .none n), tape) := by
  obtain ⟨hident, hassign, hnewline, -⟩ := assignment_known
  have hright : Pushes (4 * ws.length + 1) start (· = .eof) [phrase .expression, tok .newline]
      [n, .atom (.text "\n")] (ws ++ [(.newline, .text "\n")]) p q :=
    h.next (Expression.follows_weak (by decide)) _ hnewline (pushes_nil _ _ q)
  have hread := Pushes.first (.text x) hident (.first (.text "=") hassign hright)
  refine run_of_assignment (mem_of_getElem? (i := 0) rfl) hread rfl hts ?_
  rw [← length_map (f := wordOf), hts]
  simp [moveBound, assignmentWords]
  omega

theorem Expression.Reads.run_assignment {n : Node} (h : Reads .assigned o n ws)
    (hts : ts.map wordOf = assignmentWords x ws) :
    ∃ v tape, ((onTape .fourth).run (moveBound ts.length) Machine.start).run (p, ⟨ts, []⟩) =
      .ok (.finished v) (recorded p (.assign (.ident x) .none n), tape) := Tabc.run_assignment (h p) hts

/-! ### A condition and an assignment -/

/-- The rules reduced for `if a:` and an assignment on the next line, each with what stands before it and what
comes next. -/
def guardedRules : List (List Symbol × Clause × Symbol) :=
  [([tok .kwIf], ⟨.expression, [tok .ident], .name, false⟩, tok .colon),
    ([], ⟨.ifStmt, [tok .kwIf, phrase .expression, tok .colon], .ifThen, false⟩, tok .newline),
    ([], ⟨.plainStatement, [phrase .ifStmt], .pass, false⟩, tok .newline),
    ([], ⟨.statement, [phrase .plainStatement, tok .newline], .statement, false⟩, tok .ident),
    ([], ⟨.block, [phrase .statement], .single, false⟩, tok .ident),
    ([phrase .block], ⟨.assignment, start ++ [phrase .expression, tok .newline], .assign, false⟩, .eof),
    ([phrase .block], ⟨.statement, [phrase .assignment], .statement, false⟩, .eof),
    ([], ⟨.block, [phrase .block, phrase .statement], .extend, false⟩, .eof)]

theorem guarded_known :
    (∀ x ∈ guardedRules, x.2.1 ∈ clauses .fourth ∧ predicts .fourth x.1 x.2.1.head = true ∧
      Viable .fourth (x.1 ++ [phrase x.2.1.head]) ∧ reduces .fourth (x.1 ++ x.2.1.body) x.2.2 = true) ∧
    (shifts .fourth [] .kwIf = true ∧ shifts .fourth [tok .kwIf] .ident = true ∧
      shifts .fourth [tok .kwIf, phrase .expression] .colon = true ∧
      shifts .fourth [phrase .plainStatement] .newline = true ∧ shifts .fourth [phrase .block] .ident = true ∧
      shifts .fourth [phrase .block, tok .ident] .assign = true ∧
      shifts .fourth (phrase .block :: start ++ [phrase .expression]) .newline = true) ∧
    kernelAfter .fourth start = kernelAfter .fourth (phrase .block :: start) := by decide +kernel

/-- The words of `if a:` and, on the next line, `x = 1`. -/
def guarded : List Word :=
  [(.kwIf, .text "if"), (.ident, .text "a"), (.colon, .text ":"), (.newline, .text "\n")] ++
    assignmentWords "x" [(.integer, .int 1)]

def guardedTrees : List Node := [.ifThen (.ident "a") .none, .assign (.ident "x") .none (.literal "int" (.int 1))]

theorem run_guarded (p : Session) (hts : ts.map wordOf = guarded) :
    ∃ v tape, ((onTape .fourth).run (moveBound ts.length) Machine.start).run (p, ⟨ts, []⟩) =
      .ok (.finished v) (guardedTrees.foldl recorded p, tape) := by
  obtain ⟨hrules, ⟨hif, hcond, hcolon, hnewline, hident, hassign, hend⟩, hsame⟩ := guarded_known
  have hknown := fun i x (hx : guardedRules[i]? = some x) => hrules x (mem_of_getElem? hx)
  have hread := fun i x (hx : guardedRules[i]? = some x) mid s hbody =>
    MayFollow.inherit (s := s) (a := x.2.2) (hknown i x hx).1 (hknown i x hx).2.1 mid hbody
  -- The first line, which ends where the second one begins.
  have hcond : Pushes 2 [tok .kwIf] (· = tok .colon) [phrase .expression] [.ident "a"] [(.ident, .text "a")] p p :=
    (Pushes.first (.text "a") hcond (pushes_nil _ _ p)).complete (hknown 0 _ rfl) (.read hcolon) rfl
  have hplain : MayFollow .fourth [] (phrase .plainStatement) (tok .newline) := .read hnewline
  have hhead := ((hcond.next rfl (.text ":") hcolon (pushes_nil _ (· = tok .newline) p)).first (.text "if") hif).complete
    (hknown 1 _ rfl) (hread 2 _ rfl [] _ rfl hplain) rfl
  have hblock : MayFollow .fourth [] (phrase .block) (tok .ident) := .read hident
  have hline := ((hhead.complete (hknown 2 _ rfl) hplain rfl).next rfl (.text "\n") hnewline
    (pushes_nil _ (· = tok .ident) p)).complete (hknown 3 _ rfl) (hread 4 _ rfl [] _ rfl hblock) rfl
  -- The second line, which ends the text.
  have heof : MayFollow .fourth [] (phrase .block) .eof := mayFollow_upward (mem_of_getElem? (i := 2) rfl)
  have hstatement := hread 7 _ rfl [phrase .block] _ rfl heof
  have hright := fun q => (((Written.int 0 1).reads .assigned rfl q).congr hsame).next (follows_weak (by decide))
    (.text "\n") hend (pushes_nil _ (· = .eof) q)
  have hassignment := fun q => ((Pushes.first (.text "x") hident (.first (.text "=") hassign (hright q))).complete
    (hknown 5 _ rfl) (hread 6 _ rfl [] _ rfl hstatement) rfl).complete (hknown 6 _ rfl) hstatement rfl
  refine run_of_block (((hline.complete (hknown 4 _ rfl) hblock rfl).append rfl (hassignment _)).complete
    (hknown 7 _ rfl) heof rfl) hts ?_
  rw [← length_map (f := wordOf), hts]
  decide

/-- The parser reads the words of an assignment as one assignment of the expression. -/
theorem readTokens_of_written (h : Written 0 o e ws)
    (hts : ts.map wordOf = assignmentWords x ws) :
    readTokens .fourth ts = .ok [.assign (.ident x) .none e.node] := by
  obtain ⟨v, tape, hrun⟩ := (h.reads .assigned rfl).run_assignment hts
  have hforest : forest .fourth (recorded .fresh (.assign (.ident x) .none e.node)).statements =
      [.assign (.ident x) .none e.node] := rfl
  rw [readTokens_of_run hrun, hforest]

/-- The rules reduced on accepted tokens, the last one first, are a rightmost derivation of them. -/
theorem reductions_rightmost (ts : List Token) {fuel : Nat} {p p' : Session} {tape : Tape}
    {v : Option Node} (h : ((onTape .fourth).run fuel Machine.start).run (p, ⟨ts, []⟩) =
      .ok (.finished v) (p', tape)) :
    Rightmost (clauses .fourth) [.phrase .program] tape.reduced (symbolsOf ts) :=
  ((valid_start .fourth ts).run (by decide) h).2

def tokensOf (ws : List Word) : List Token := ws.map fun w => ⟨w.1, w.2, 1, 0⟩

theorem map_wordOf_tokensOf (ws : List Word) : (tokensOf ws).map wordOf = ws := by
  simp [tokensOf, wordOf, Function.comp_def]

/-- The words of `x = 2 * (f(y) + 1)`. -/
def product : List Word :=
  assignmentWords "x" [(.integer, .int 2), (.times, .text "*"), Expression.lparen,
    (.ident, .text "f"), Expression.lparen, (.ident, .text "y"), Expression.rparen,
    (.plus, .text "+"), (.integer, .int 1), Expression.rparen]

theorem reductions_rightmost_product :
    ∃ v p tape, ((onTape .fourth).run (moveBound (tokensOf product).length) Machine.start).run
        (.fresh, ⟨tokensOf product, []⟩) = .ok (.finished v) (p, tape) ∧
      Rightmost (clauses .fourth) [.phrase .program] tape.reduced (symbolsOf (tokensOf product)) := by
  have hargs : ∀ a ∈ [Expression.Part.mk none (.name "y") [(.ident, .text "y")]],
      Written 0 a.root a.tree a.words := by
    intro a ha
    obtain rfl := mem_singleton.1 ha
    exact .name 0 "y"
  have hsum : Written 0 _ _ _ := .operator .plus "+" (by decide) (.call (.name 0 "f") hargs) (by simp) (.int _ 1)
  have hproduct : Written 0 _ _ _ := .operator .times "*" (by decide) (.int 0 2) (by simp) (.paren _ hsum)
  obtain ⟨v, tape, hrun⟩ := (hproduct.reads .assigned rfl).run_assignment (map_wordOf_tokensOf product)
  exact ⟨v, _, tape, hrun, reductions_rightmost _ hrun⟩

end Tabc
