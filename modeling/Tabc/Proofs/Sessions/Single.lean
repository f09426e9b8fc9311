import Tabc.Proofs.Sessions.Residue

/-!
# Texts of one or two statements

A text of one statement gives this statement, unless there are tabs on the line that the parser remembers for
it (`parse_single`). In a text of two lines the second one may be indented (`parse_guarded`).
-/

namespace Tabc

open Parsing

variable {e : Edition}

/-- The tokens that a source gives before it ends, with no tabs between them. -/
inductive ScansPlainly (e : Edition) : Source → List Token → Prop
  | stop {s s' : Source} (h : s.next e = (none, s')) (h' : s'.next e = (none, s'))
    (htabs : s'.tabs = s.tabs) : ScansPlainly e s []
  | token {s s' : Source} {t : Token} {ts : List Token} (h : s.next e = (some t, s'))
    (htabs : s'.tabs = s.tabs) (hts : ScansPlainly e s' ts) : ScansPlainly e s (t :: ts)

namespace ScansPlainly

variable {s : Source} {ts : List Token}

theorem scans (h : ScansPlainly e s ts) : Scans e s ts := by
  induction h with
  | stop h h' _ => exact .stop h h'
  | token h _ _ ih => exact .token h ih

theorem starting (h : ScansPlainly e s ts) (c : Nat) : ScansPlainly e (s.starting c) ts := by
  induction h with
  | @stop s s' h h' htabs =>
    have htabs' : (s'.starting c).tabs = (s.starting c).tabs := htabs
    exact .stop (by rw [next_starting, h]) (by rw [next_starting, h']) htabs'
  | @token s s' _ _ h htabs _ ih =>
    have htabs' : (s'.starting c).tabs = (s.starting c).tabs := htabs
    exact .token (by rw [next_starting, h]) htabs' ih

theorem next (h : ScansPlainly e s ts) : (s.next e).2.tabs = s.tabs ∧ ∃ ts', ScansPlainly e (s.next e).2 ts' := by
  cases h with
  | stop h h' htabs =>
    rw [h]
    exact ⟨htabs, [], .stop h' h' rfl⟩
  | token h htabs hts =>
    rw [h]
    exact ⟨htabs, _, hts⟩

end ScansPlainly

/-- While such a text is read, its first statement is still to come and belongs on a given line, or has been
put there. -/
structure Arrives (tabs : List (Nat × Nat)) (line : Nat) (p : Session) : Prop where
  scans : ∃ ts, ScansPlainly .fourth p.source ts
  kept : p.source.tabs = tabs
  first : p.statements = [] ∧ p.source.current = line ∨
    ∃ s ss, p.statements = s :: ss ∧ s.tabs = (tabs.lookup line).getD 0

theorem lasting_arrives (tabs : List (Nat × Nat)) (line : Nat) : Lasting (Arrives tabs line) where
  next {p} h := by
    obtain ⟨ts, hts⟩ := h.scans
    obtain ⟨htabs, hscans⟩ := hts.next
    refine ⟨hscans, htabs.trans h.kept, ?_⟩
    rcases h.first with ⟨hnone, hcurrent⟩ | hsome
    · exact .inl ⟨hnone, p.source.lines_next.1.trans hcurrent⟩
    · exact .inr hsome
  act {p p'} h hact := by
    cases hact with
    | literals lists tuples => exact ⟨h.scans, h.kept, h.first⟩
    | recorded n =>
      obtain ⟨ts, hts⟩ := h.scans
      refine ⟨⟨ts, hts.starting _⟩, h.kept, .inr ?_⟩
      rcases h.first with ⟨hnone, hcurrent⟩ | ⟨s, ss, hsome, htabs⟩
      · refine ⟨_, [], by rw [recorded, hnone]; rfl, ?_⟩
        rw [hcurrent]
        unfold Source.tabCount
        rw [h.kept]
      · exact ⟨s, ss ++ [_], by rw [recorded, hsome]; rfl, htabs⟩
  refuse h := ⟨h.scans, h.kept, h.first⟩

/-- A text whose tokens are read as one simple statement gives this statement, but it is put on the line that
the parser remembers, and is lost if there are tabs on it. -/
theorem parse_single {p : Session} {ts : List Token} {n : Node}
    (hscans : ScansPlainly .fourth (p.source.input text) ts) (hn : n.isCompound = false) {q : Session}
    (hrun : ((onTape .fourth).run (moveBound ts.length) Machine.start).run
      ({ p with statements := [] }, ⟨ts, []⟩) = .ok (.finished v) (q, tape))
    (hq : q.statements.map Statement.node = [n]) :
    ∃ p', (Session.parse .fourth text).run p = .ok (if p.source.tabCount p.source.current = 0 then [n] else []) p' := by
  have hfuel : moveBound ts.length ≤ moveBound text.length := by
    have hlength : ts.length ≤ text.length := hscans.scans.length_le
    unfold moveBound
    omega
  obtain ⟨r, p', hrun', hparse, hnodes⟩ := exists_parse_of_tape (by decide) hscans.scans hfuel hrun
  have hbegins := (lasting_arrives p.source.tabs p.source.current).run rfl
    (p := { p with statements := [], source := p.source.input text })
    ⟨⟨ts, hscans⟩, rfl, .inl ⟨rfl, rfl⟩⟩ (moveBound text.length) plain_start
  rw [hrun'] at hbegins
  obtain ⟨s, hs, hnode⟩ : ∃ s, p'.statements = [s] ∧ s.node = n := List.map_eq_singleton_iff.1 (hnodes.trans hq)
  have htabs : s.tabs = p.source.tabCount p.source.current := by
    rcases hbegins.first with ⟨hnone, -⟩ | ⟨s', ss, hsome, htabs⟩
    · exact absurd (hs.symm.trans hnone) (by simp)
    · obtain ⟨rfl, -⟩ := List.cons.inj (hs.symm.trans hsome)
      exact htabs
  rw [hparse, hs, ← htabs, ← hnode]
  rw [← hnode] at hn
  simp only [forest, assemble, Outline.owners, List.zip_cons_cons, List.zip_nil_left, hn]
  by_cases h : s.tabs = 0
  · simp [h]
  · simp [h]

/-! ## An indented line -/

/-- The text of a condition and an assignment in its body. -/
def guardedText : List Char := "if a:\n\tx = 1\n".toList

/-- The source of the text after some tokens. -/
def guardedSource : Nat → Source
  | 0 => Source.fresh.input guardedText
  | n + 1 => ((guardedSource n).next .fourth).2

theorem tabs_guardedSource (n : Nat) : (guardedSource n).tabs = [] ∨ (guardedSource n).tabs = [(2, 1)] := by
  have hlast : ∀ n, guardedSource (n + 8) = guardedSource 8 := fun n => by
    induction n with
    | zero => rfl
    | succ n ih => rw [guardedSource, ih]; rfl
  by_cases hn : n < 8
  · interval_cases n <;> first | exact .inl rfl | exact .inr rfl
  · obtain ⟨k, rfl⟩ := Nat.exists_eq_add_of_le' (Nat.le_of_not_lt hn)
    rw [hlast]
    exact .inr rfl

/-- While the text is read, only its second line has tabs. -/
structure Indents (p : Session) : Prop where
  source : ∃ n c, p.source = (guardedSource n).starting c
  first : p.statements = [] ∧ p.source.current = 1 ∨ ∃ s ss, p.statements = s :: ss ∧ s.tabs = 0
  each : ∀ s ∈ p.statements, s.tabs ≤ 1

theorem lasting_indents : Lasting Indents where
  next {p} h := by
    obtain ⟨n, c, hn⟩ := h.source
    refine ⟨⟨n + 1, c, by rw [hn, next_starting]; rfl⟩, ?_, h.each⟩
    exact h.first.imp_left (And.imp_right p.source.lines_next.1.trans)
  act {p p'} h hact := by
    cases hact with
    | literals lists tuples => exact ⟨h.source, h.first, h.each⟩
    | recorded n =>
      obtain ⟨k, c, hk⟩ := h.source
      have hcount : ∀ line, p.source.tabCount line ≤ 1 ∧ (line = 1 → p.source.tabCount line = 0) := fun line => by
        have htabs : p.source.tabs = [] ∨ p.source.tabs = [(2, 1)] := by rw [hk]; exact tabs_guardedSource k
        unfold Source.tabCount
        rcases htabs with htabs | htabs <;> rw [htabs]
        · simp
        · by_cases hline : line = 2
          · simp [hline]
          · simp [List.lookup_cons, beq_eq_false_iff_ne.2 hline]
      refine ⟨⟨k, p.source.reached, by rw [recorded, hk]; rfl⟩, .inr ?_, fun s hs => ?_⟩
      · rcases h.first with ⟨hnone, hcurrent⟩ | ⟨s, ss, hs, hzero⟩
        · exact ⟨_, [], by rw [recorded, hnone]; rfl, (hcount _).2 hcurrent⟩
        · exact ⟨s, ss ++ [_], by rw [recorded, hs]; rfl, hzero⟩
      · rcases List.mem_append.1 hs with hs | hs
        · exact h.each s hs
        · rw [List.mem_singleton.1 hs]
          exact (hcount _).1
  refuse h := ⟨h.source, h.first, h.each⟩

theorem parse_guarded : ∃ trees p, (Session.parse .fourth guardedText).run .fresh = .ok trees p ∧
    ∃ s s', p.statements = [s, s'] ∧ [s.node, s'.node] = guardedTrees ∧ s.tabs = 0 ∧ s'.tabs ≤ 1 := by
  have hscans := scans_tokens .fourth (Source.fresh.input guardedText)
  have hwords : ((Source.fresh.input guardedText).tokens .fourth).1.map Expression.wordOf = guarded := rfl
  obtain ⟨v, tape, hrun⟩ := run_guarded .fresh hwords
  obtain ⟨r, p, hmachine, hparse, hnodes⟩ := exists_parse_of_tape (p := .fresh) rfl hscans (by decide +kernel) hrun
  have hindents := lasting_indents.run rfl
    (p := { Session.fresh with statements := [], source := Session.fresh.source.input guardedText })
    ⟨⟨0, 1, rfl⟩, .inl ⟨rfl, rfl⟩, fun _ h => by cases h⟩ (moveBound guardedText.length) plain_start
  rw [hmachine] at hindents
  obtain ⟨s, s', hs, hnode⟩ : ∃ s s', p.statements = [s, s'] ∧ [s.node, s'.node] = guardedTrees := by
    obtain ⟨s, rest, hs, hnode, hrest⟩ := List.map_eq_cons_iff.1 hnodes
    obtain ⟨s', rfl, hnode'⟩ := List.map_eq_singleton_iff.1 hrest
    exact ⟨s, s', hs, by rw [hnode, hnode']; rfl⟩
  refine ⟨_, _, hparse, s, s', hs, hnode, ?_, hindents.each s' (hs ▸ .tail _ (.head _))⟩
  rcases hindents.first with ⟨hnone, -⟩ | ⟨s₁, ss, hsome, hzero⟩
  · exact absurd (hs.symm.trans hnone) (by simp)
  · obtain ⟨rfl, -⟩ := List.cons.inj (hs.symm.trans hsome)
    exact hzero

end Tabc
