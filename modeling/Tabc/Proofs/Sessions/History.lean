import Tabc.Proofs.Sessions.Single

/-!
# Texts one after another

A parser that is settled after some texts reads the next one as a new parser does (`parse_after_texts`). A
refused text can leave tabs behind, and then a statement is lost (`lost_after_tab`).
-/

namespace Tabc

open Session
open Parsing Automaton Tabc.Core

namespace Session

/-- The parser after some texts, whatever became of them. -/
def after (e : Edition) (p : Session) (texts : List (List Char)) : Session :=
  texts.foldl (fun p text => leaves ((parse e text).run p)) p

/-- A parser accepts some texts one after another. -/
def accepts (e : Edition) (p : Session) : List (List Char) → Bool
  | [] => true
  | text :: texts =>
    match (parse e text).run p with
    | .ok _ p' => p'.accepts e texts
    | .error .. => false

theorem after_cons (e : Edition) (p : Session) (text : List Char) (texts : List (List Char)) :
    p.after e (text :: texts) = (leaves ((parse e text).run p)).after e texts := List.foldl_cons ..

theorem exists_of_accepts (h : p.accepts e (text :: texts) = true) :
    ∃ trees p', (parse e text).run p = .ok trees p' ∧ p'.accepts e texts = true := by
  rw [accepts] at h
  cases hparse : (parse e text).run p with
  | ok trees p' =>
    rw [hparse] at h
    exact ⟨trees, p', rfl, h⟩
  | error x p' =>
    rw [hparse] at h
    cases h

theorem accepts_of_parse (hparse : (parse e text).run p = .ok trees p')
    (h : p'.accepts e texts = true) : p.accepts e (text :: texts) = true := by
  rw [accepts, hparse]
  exact h

end Session

theorem settled_fresh : fresh.Settled := ⟨rfl, rfl, rfl, rfl⟩

theorem ordered_fresh : fresh.source.Ordered := ⟨Nat.one_pos, Nat.one_pos, rfl, fun _ h => by cases h⟩

theorem ordered_after {p : Session} (h : p.source.Ordered) (texts : List (List Char)) :
    (p.after .fourth texts).source.Ordered := by
  induction texts generalizing p with
  | nil => exact h
  | cons text texts ih =>
    rw [after_cons]
    exact ih (ordered_parse h text)

theorem settled_after {p : Session} (h : p.Settled) (hp : p.source.Ordered)
    (haccepts : p.accepts .fourth texts = true) : (p.after .fourth texts).Settled := by
  induction texts generalizing p with
  | nil => exact h
  | cons text texts ih =>
    obtain ⟨trees, p', hparse, haccepts'⟩ := exists_of_accepts haccepts
    have hordered := ordered_parse hp text
    rw [hparse] at hordered
    rw [after_cons, hparse]
    exact ih (settled_parse h hp hparse) hordered haccepts'

/-- Earlier texts do not matter if they were accepted or left nothing behind: the next one gives the
trees that a new parser gives, or the fault with the lines that it has. All texts go to one parser, which
counts its lines on; a second parser that begins at line one with the lines of the first is another matter. -/
theorem parse_after_texts (earlier : List (List Char)) (text : List Char) :
    let p := Session.fresh.after .fourth earlier
    (Session.fresh.accepts .fourth earlier = true → p.Settled) ∧
    (p.Settled → Alongside (p.source.line - 1) id ((Session.parse .fourth text).run .fresh)
      ((Session.parse .fourth text).run p)) :=
  ⟨settled_after settled_fresh ordered_fresh, fun h => alongside_parse h (ordered_after ordered_fresh earlier) text⟩

def assignLine : List Char := "x = 1\n".toList

def assignTree : Node := .assign (.ident "x") .none (.literal "int" (.int 1))

/-- The line is read by any parser, but its statement is put on the line that the parser remembers, and is
lost if there are tabs on it. -/
theorem parse_assignLine (p : Session) :
    ∃ p', (parse .fourth assignLine).run p =
      .ok (if p.source.tabCount p.source.current = 0 then [assignTree] else []) p' := by
  have hscans : ∃ ts, ScansPlainly .fourth (p.source.input assignLine) ts ∧
      ts.map Expression.wordOf = assignmentWords "x" [(.integer, .int 1)] :=
    ⟨_, .token rfl rfl (.token rfl rfl (.token rfl rfl (.token rfl rfl (.stop rfl rfl rfl)))), rfl⟩
  obtain ⟨ts, hscans, hwords⟩ := hscans
  obtain ⟨v, tape, hrun⟩ := ((Expression.Written.int 0 1).reads .assigned rfl).run_assignment
    hwords
  exact parse_single hscans rfl hrun rfl

theorem parse_after_assignLine :
    let p := Session.fresh.after .fourth [assignLine]
    Session.fresh.accepts .fourth [assignLine] = true ∧ p.Settled ∧
      Alongside (p.source.line - 1) id ((Session.parse .fourth assignLine).run .fresh)
        ((Session.parse .fourth assignLine).run p) := by
  have haccepts : fresh.accepts .fourth [assignLine] = true := by
    obtain ⟨p', hparse⟩ := parse_assignLine .fresh
    exact accepts_of_parse hparse rfl
  obtain ⟨hsettled, halongside⟩ := parse_after_texts [assignLine] assignLine
  exact ⟨haccepts, hsettled haccepts, halongside (hsettled haccepts)⟩

theorem incomplete_first : ∀ it ∈ itemsAfter .fourth [], it.next? (grammar .fourth) ≠ none := by decide +kernel

variable {e : Edition}

theorem next_ne_none_of_first (he : e = .fourth)
    (hq : (Automaton.states (grammar e))[0]? = some q) (hit : it ∈ q.items) :
    it.next? (grammar e) ≠ none := by
  have hviable : Viable e [] := by
    rw [he]
    decide +kernel
  obtain ⟨q', hq', hitems, -⟩ := hviable.row
  rw [stateAfter_nil, hq] at hq'
  cases hq'
  rw [hitems] at hit
  subst he
  exact incomplete_first it hit

theorem refuses_end (he : e = .fourth) : (machine e).defaulted 0 = none ∧ (machine e).action 0 .eof = none := by
  have hreduce : ∀ s r, (rowOf e 0).move? s ≠ some (.reduce r) := by
    intro s r hmove
    obtain ⟨q, it, hq, hasked⟩ := exists_asked hmove
    obtain ⟨hit, hfinal, -, -⟩ := hasked.complete
    exact next_ne_none_of_first he hq hit hfinal
  constructor
  · by_contra hsome
    obtain ⟨r, hr⟩ := Option.ne_none_iff_exists'.1 hsome
    obtain ⟨s, hs⟩ := Row.Of.exists_of_defaulted? hr
    exact hreduce s r hs
  · by_contra hsome
    obtain ⟨m, hm⟩ := Option.ne_none_iff_exists'.1 hsome
    obtain ⟨q, it, hq, hasked⟩ := exists_asked hm
    cases m with
    | shift target => exact absurd hasked.goto.1 (by rw [he]; decide)
    | reduce r => exact hreduce _ r hm
    | accept =>
      obtain ⟨hit, hfinal, -⟩ := hasked.start
      exact next_ne_none_of_first he hq hit hfinal

theorem leaves_parse_of_empty (he : e = .fourth) (h : (p.source.input text).next e = (none, s)) :
    leaves ((parse e text).run p) = ⟨s, p.lists, p.tuples, [], false⟩ := by
  have hlook : look e { p with statements := [], source := p.source.input text }
      Machine.start = (endSym, { p with statements := [], source := s }) := by
    unfold look Machine.start
    rw [h]
    rfl
  have hfuel : moveBound text.length = 1000 * (text.length + 10) - 1 + 1 := by
    unfold moveBound
    omega
  obtain ⟨hdefaulted, haction⟩ := refuses_end he
  have hstep := run_step_text he plain_start { p with statements := [], source := p.source.input text }
  rw [hlook] at hstep
  unfold move at hstep
  simp only [Machine.start, hdefaulted, endSym, haction] at hstep
  unfold parse
  rw [run_bind_of_ok (EStateM.run_modify ..), EStateM.run_bind, hfuel, Machine.run, EStateM.run_bind]
  simp only [Machine.start]
  rw [hstep]
  rfl

theorem lost_after_tab : ∃ p' p'',
    (Session.parse .fourth assignLine).run (Session.fresh.after .fourth ["\t".toList]) = .ok [] p' ∧
    (Session.parse .fourth assignLine).run .fresh = .ok [assignTree] p'' := by
  have htab : (fresh.source.input "\t".toList).next .fourth = (none, ⟨[], 1, 1, [(1, 1)], 1, 1, ""⟩) := rfl
  have hafter : fresh.after .fourth ["\t".toList] = ⟨⟨[], 1, 1, [(1, 1)], 1, 1, ""⟩, [], [], [], false⟩ := by
    rw [after_cons, leaves_parse_of_empty rfl htab]
    rfl
  obtain ⟨p', hp'⟩ := parse_assignLine (fresh.after .fourth ["\t".toList])
  obtain ⟨p'', hp''⟩ := parse_assignLine .fresh
  rw [hafter] at hp' ⊢
  exact ⟨p', p'', hp', hp''⟩

end Tabc
