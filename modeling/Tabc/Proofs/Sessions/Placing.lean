import Tabc.Proofs.Sessions.History

/-!
# The lines of statements

A statement is put on the line that was remembered when the one before it ended, and by then the scanner may
have read one token more. No statement begins with a line break, so in a text that is accepted this token was
none, and each statement has the line of its first token (`statements_on_their_lines`).
-/

open List

namespace Tabc

open Parsing Tabc.Core
open List (append_assoc)

/-- The tokens before a statement and its own tokens. -/
abbrev Span := List Token × List Token

/-- A form of the grammar behind some tokens, the tokens derived from it, and the statements among them. -/
inductive Parts : List Token → List Symbol → List Token → List Span → Prop
  | nil (before : List Token) : Parts before [] [] []
  | token {before ts : List Token} {ss : List Symbol} {E : List Span} (t : Token)
    (h : Parts (before ++ [t]) ss ts E) : Parts before (.tok t.kind :: ss) (t :: ts) E
  | phrase {before ts ts' : List Token} {ss : List Symbol} {E E' : List Span} {c : Clause} (hc : c ∈ clauses .fourth) (hbody : Parts before c.body ts E)
    (h : Parts (before ++ ts) ss ts' E') : Parts before (.phrase c.head :: ss) (ts ++ ts')
      ((if c.act = .statement then [(before, ts)] else E) ++ E')

/-- A symbol that derives no tokens that begin with a line break, nor none at all. -/
def Symbol.solid : Symbol → Bool
  | .tok .newline | .phrase .empty | .phrase .argumentsOrEmpty | .phrase .parametersOrEmpty => false
  | _ => true

theorem clauses_parted : ∀ c ∈ clauses .fourth,
    ((Symbol.phrase c.head).pending = true → c.act ≠ .statement ∧ ∀ s ∈ c.body, s.pending = true) ∧
    ((Symbol.phrase c.head).pending = false → c.act ≠ .statement → ∀ s ∈ c.body, s.pending = false) ∧
    (c.act = .statement → ∀ s ∈ c.body, s.pending = true) ∧
    ((Symbol.phrase c.head).solid = true ∨ c.act = .statement → c.body.head?.any Symbol.solid = true) := by
  decide +kernel

namespace Parts

variable {before ts ts' : List Token} {ss ss' : List Symbol} {E E' : List Span}

theorem append (h : Parts before ss ts E) (h' : Parts (before ++ ts) ss' ts' E') :
    Parts before (ss ++ ss') (ts ++ ts') (E ++ E') := by
  induction h with
  | nil => simpa using h'
  | token t _ ih => exact .token t (ih (by simpa using h'))
  | phrase hc hbody _ _ ih =>
    rw [append_assoc, append_assoc]
    exact .phrase hc hbody (ih (by simpa using h'))

theorem split (h : Parts before (ss ++ ss') ts E) : ∃ ts1 ts2 E1 E2, ts = ts1 ++ ts2 ∧ E = E1 ++ E2 ∧
    Parts before ss ts1 E1 ∧ Parts (before ++ ts1) ss' ts2 E2 := by
  induction ss generalizing before ts E with
  | nil => exact ⟨[], ts, [], E, rfl, rfl, .nil _, by simpa using h⟩
  | cons s ss ih =>
    cases h with
    | token t h =>
      obtain ⟨ts1, ts2, E1, E2, rfl, rfl, h1, h2⟩ := ih h
      exact ⟨t :: ts1, ts2, E1, E2, rfl, rfl, .token t h1, by simpa using h2⟩
    | phrase hc hbody h =>
      obtain ⟨ts1, ts2, E1, E2, rfl, rfl, h1, h2⟩ := ih h
      exact ⟨_ ++ ts1, ts2, _ ++ E1, E2, by simp, by simp, .phrase hc hbody h1, by simpa using h2⟩

/-- Inside a statement there is none. -/
theorem eq_nil_of_pending (h : Parts before ss ts E) (hss : ∀ s ∈ ss, s.pending = true) : E = [] := by
  induction h with
  | nil => rfl
  | token t _ ih => exact ih (forall_mem_cons.1 hss).2
  | phrase hc _ _ ihbody ih =>
    obtain ⟨hs, hss⟩ := forall_mem_cons.1 hss
    obtain ⟨hact, hbody⟩ := (clauses_parted _ hc).1 hs
    rw [if_neg hact, ihbody hbody, ih hss]
    rfl

/-- Where there are only statements they follow one another. -/
theorem adjoin (h : Parts before ss ts E) (hss : ∀ s ∈ ss, s.pending = false) :
    before :: E.map (fun x => x.1 ++ x.2) = E.map Prod.fst ++ [before ++ ts] ∧ (E.map Prod.snd).flatten = ts := by
  induction h with
  | nil => simp
  | token t => exact absurd (forall_mem_cons.1 hss).1 (by simp [Symbol.pending])
  | @phrase before ts ts' ss E E' c hc hbody _ ihbody ih =>
    obtain ⟨hs, hss⟩ := forall_mem_cons.1 hss
    obtain ⟨hrest, hflat⟩ := ih hss
    have hfirst : before :: (if c.act = .statement then [(before, ts)] else E).map (fun x => x.1 ++ x.2) =
        (if c.act = .statement then [(before, ts)] else E).map Prod.fst ++ [before ++ ts] ∧
        ((if c.act = .statement then [(before, ts)] else E).map Prod.snd).flatten = ts := by
      split
      · simp
      · rename_i hact
        exact ihbody ((clauses_parted c hc).2.1 hs hact)
    constructor
    · rw [map_append, ← cons_append, hfirst.1, map_append, append_assoc,
        append_assoc, singleton_append, hrest, append_assoc]
    · rw [map_append, flatten_append, hfirst.2, hflat]

theorem first (h : Parts before ss ts E) (hs : ss.head?.any Symbol.solid = true) :
    ∃ t rest, ts = t :: rest ∧ t.kind ≠ .newline := by
  induction h with
  | nil => cases hs
  | token t _ _ =>
    refine ⟨t, _, rfl, fun hkind => ?_⟩
    rw [hkind] at hs
    cases hs
  | phrase hc _ _ ihbody _ =>
    obtain ⟨t, rest, rfl, ht⟩ := ihbody ((clauses_parted _ hc).2.2.2 (.inl hs))
    exact ⟨t, rest ++ _, rfl, ht⟩

/-- A statement is derived from a clause, and its tokens stand where they are said to. -/
theorem span_of_mem (h : Parts before ss ts E) (hx : x ∈ E) :
    ∃ c ∈ clauses .fourth, c.act = .statement ∧ (∃ E', Parts x.1 c.body x.2 E') ∧
      ∃ after, before ++ ts = x.1 ++ x.2 ++ after := by
  induction h with
  | nil => cases hx
  | token _ _ ih => simpa using ih hx
  | @phrase before ts ts' ss E E' c hc hbody _ ihbody ih =>
    rcases mem_append.1 hx with hx | hx
    · split at hx
      · rename_i hact
        obtain rfl := mem_singleton.1 hx
        exact ⟨c, hc, hact, ⟨E, hbody⟩, ts', by simp⟩
      · obtain ⟨c', hc', hact, hparts, after, heq⟩ := ihbody hx
        exact ⟨c', hc', hact, hparts, after ++ ts', by rw [← append_assoc, heq, append_assoc]⟩
    · simpa using ih hx

/-- If no clause has a body of more weight than its head, the tokens have no more than the form. -/
theorem weight_le {w : Symbol → Int} (hw : ∀ c ∈ clauses .fourth, (c.body.map w).sum ≤ w (.phrase c.head))
    (h : Parts before ss ts E) : (ts.map fun t => w (.tok t.kind)).sum ≤ (ss.map w).sum := by
  induction h with
  | nil => exact Int.le_refl 0
  | token t _ ih => exact Int.add_le_add_left ih _
  | phrase hc _ _ ihbody ih =>
    rw [map_append, sum_append, map_cons]
    exact Int.add_le_add (ihbody.trans (hw _ hc)) ih

end Parts

def breaks (ts : List Token) : Nat := (ts.map Token.breaks).sum

@[simp] theorem breaks_cons (t : Token) (ts : List Token) : breaks (t :: ts) = t.breaks + breaks ts := rfl

@[simp] theorem breaks_append (ts ts' : List Token) : breaks (ts ++ ts') = breaks ts + breaks ts' := by simp [breaks]

/-- A line is the one after some tokens of a text, unless a line break comes next. -/
def OnLine (ts : List Token) (line : Nat) (before : List Token) : Prop :=
  line = 1 + breaks before ∨ ∃ t rest, ts = before ++ t :: rest ∧ t.kind = .newline

/-- The stack has taken some tokens of a text; each line is that on which the statement before it ended. -/
structure Placed (ts : List Token) (ss : List (Sym Symbol Node)) (ahead : Option (Sym Symbol Node))
    (p : Session) : Prop where
  ordered : p.source.Ordered
  form : ∃ done rest unread E, ts = done ++ rest ∧ Ahead ahead unread rest ∧
    Scans .fourth p.source unread ∧ p.source.line + breaks unread = 1 + breaks ts ∧
    Parts [] (ss.map Sym.kind).reverse done E ∧
    List.Forall₂ (OnLine ts) (p.statements.map Statement.line ++ [p.source.current]) ([] :: E.map fun x => x.1 ++ x.2)

namespace Placed

variable {ts : List Token} {ss args below : List (Sym Symbol Node)} {ahead : Option (Sym Symbol Node)} {p p' : Session}

theorem look (h : Placed ts ss none p) :
    Placed ts ss (some (((p.source.next .fourth).1.map tokenSym).getD endSym))
      { p with source := (p.source.next .fourth).2 } := by
  obtain ⟨done, rest, unread, E, hts, hahead, hscans, hline, hparts, hlines⟩ := h.form
  obtain ⟨hcurrent, -, hnext⟩ := p.source.lines_next
  rw [← hcurrent] at hlines
  refine ⟨h.ordered.next, ?_⟩
  cases hahead with
  | unread =>
    cases hscans with
    | stop hstop hend =>
      rw [hstop] at hnext hlines ⊢
      exact ⟨done, [], [], E, hts, .ended, .stop hend hend, hnext ▸ hline, hparts, hlines⟩
    | @token _ s' t unread htoken hscans =>
      rw [htoken] at hnext hlines ⊢
      refine ⟨done, t :: unread, unread, E, hts, .token t unread, hscans, ?_, hparts, hlines⟩
      rw [hnext, ← hline]
      simp [Nat.add_assoc]

theorem shift {t : Token} (h : Placed ts ss (some (tokenSym t)) p) : Placed ts (tokenSym t :: ss) none p := by
  obtain ⟨done, rest, unread, E, hts, hahead, hscans, hline, hparts, hlines⟩ := h.form
  obtain rfl : rest = t :: unread := by
    generalize hs : some (tokenSym t) = ahead at hahead
    cases hahead with
    | unread | ended => cases hs
    | token t' =>
      cases t
      simp_all [tokenSym]
  refine ⟨h.ordered, done ++ [t], unread, unread, E, by simp [hts], .unread unread, hscans, hline, ?_, hlines⟩
  have happend := hparts.append (.token t (.nil _))
  simpa [tokenSym] using happend

theorem reduce (h : Placed ts (args ++ below) ahead p)
    (hclause : clause ∈ clauses .fourth) (hbody : args.map Sym.kind = clause.body.reverse)
    (hval : (clause.act.apply .fourth (valuesOf args.reverse)).run p = .ok v p') :
    Placed ts (phraseSym clause.head v :: below) ahead p' := by
  obtain ⟨done, rest, unread, E, hts, hahead, hscans, hline, hparts, hlines⟩ := h.form
  rw [map_append, reverse_append, hbody, reverse_reverse] at hparts
  obtain ⟨ts1, ts2, E1, E2, rfl, rfl, hbelow, hparts⟩ := hparts.split
  have heffect := effect_of_clause hclause hbody hval
  have hsource := heffect.source
  have hstatements := heffect.lines
  have hform : Parts [] ((phraseSym clause.head v :: below).map Sym.kind).reverse (ts1 ++ ts2)
      (E1 ++ if clause.act = .statement then [(ts1, ts2)] else E2) := by
    simpa [phraseSym] using hbelow.append (.phrase hclause hparts (.nil _))
  by_cases hact : clause.act = .statement
  · obtain rfl : E2 = [] := hparts.eq_nil_of_pending ((clauses_parted clause hclause).2.2.1 hact)
    rw [if_pos hact] at hsource hstatements hform
    have hreached := h.ordered.reached
    have hended : OnLine ts p.source.reached (ts1 ++ ts2) := by
      rw [hts, breaks_append _ rest] at hline
      cases hahead with
      | unread | ended => exact .inl (by omega)
      | token t unread =>
        by_cases hkind : t.kind = .newline
        · exact .inr ⟨t, unread, hts, hkind⟩
        · rw [breaks_cons, Token.breaks, if_neg hkind] at hline
          exact .inl (by omega)
    refine ⟨?_, ts1 ++ ts2, rest, unread, _, hts, hahead,
      hsource ▸ hscans.starting _, by rw [hsource]; exact hline, hform, ?_⟩
    · rw [hsource]
      exact ⟨h.ordered.line_pos, hreached ▸ h.ordered.line_pos, hreached, h.ordered.tabs⟩
    rw [hstatements, hsource]
    have happend := rel_append hlines (List.Forall₂.cons hended .nil)
    simpa using happend
  · rw [if_neg hact] at hsource hstatements hform
    refine ⟨hsource ▸ h.ordered, ts1 ++ ts2, rest, unread, _, hts, hahead, hsource ▸ hscans, by rw [hsource]; exact hline, hform, ?_⟩
    rw [hstatements, hsource]
    exact hlines

theorem line_of_mem (h : Parts [] forms ts E) (hx : x ∈ E) (hline : OnLine ts line x.1) : line = 1 + breaks x.1 := by
  obtain ⟨c, hc, hact, ⟨_, hbody⟩, after, hts⟩ := h.span_of_mem hx
  obtain ⟨t, rest, hx2, ht⟩ := hbody.first ((clauses_parted c hc).2.2.2 (.inr hact))
  rcases hline with hline | ⟨t', rest', hts', ht'⟩
  · exact hline
  · rw [hts', nil_append, append_assoc, append_cancel_left_eq, hx2] at hts
    exact absurd ((List.cons.inj hts).1 ▸ ht') ht

end Placed

/-- When a text is accepted its tokens are those of the statements one after another, and each of them is on the
line that the tokens before it lead to. -/
theorem kept_placed (ts : List Token) : Kept .fourth (Placed ts) fun p =>
    ∃ E, Parts [] [.phrase .program] ts E ∧ (E.map Prod.snd).flatten = ts ∧
      p.statements.map Statement.line = E.map fun x => 1 + breaks x.1 where
  look h := h.look
  shift h := h.shift
  reduce h := h.reduce
  accept {s p} h hs := by
    obtain ⟨done, rest, unread, E, hts, hahead, hscans, hline, hparts, hlines⟩ := h.form
    obtain ⟨rfl, rfl⟩ : rest = [] ∧ unread = [] := by
      generalize hs : some endSym = ahead at hahead
      cases hahead with
      | unread | token => cases hs
      | ended => exact ⟨rfl, rfl⟩
    rw [List.append_nil] at hts
    subst hts
    rw [map_singleton, hs] at hparts
    obtain ⟨hstarts, hflat⟩ := hparts.adjoin (by simp [Symbol.pending])
    rw [hstarts, ← List.forall₂_reverse_iff, reverse_append, reverse_append] at hlines
    cases hlines with
    | cons _ hlines =>
      have hlines := List.forall₂_map_right_iff.1 (List.forall₂_reverse_iff.1 hlines)
      have hmem := (List.forall₂_and_left E _).2 ⟨fun x hx => hx, hlines.flip⟩
      have heq : List.Forall₂ Eq (E.map fun x => 1 + breaks x.1) (p.statements.map Statement.line) :=
        List.forall₂_map_left_iff.2 (hmem.imp fun x line hx => (Placed.line_of_mem hparts hx.1 hx.2).symm)
      rw [List.forall₂_eq_eq_eq] at heq
      exact ⟨E, hparts, hflat, heq.symm⟩

theorem parts_of_parse {text : List Char} {trees : List Node} {p : Session}
    (hparse : (Session.parse .fourth text).run .fresh = .ok trees p)
    (hscans : Scans .fourth (Source.fresh.input text) ts) :
    ∃ E, Parts [] [.phrase .program] ts E ∧ (E.map Prod.snd).flatten = ts ∧
      p.statements.map Statement.line = E.map fun x => 1 + breaks x.1 := by
  have hstart : Placed ts [] none { Session.fresh with source := Source.fresh.input text } :=
    ⟨⟨Nat.one_pos, Nat.one_pos, rfl, fun _ h => by cases h⟩, [], ts, ts, [], rfl, .unread ts, hscans, rfl,
      .nil [], .cons (.inl rfl) .nil⟩
  obtain ⟨_, hparts, rfl⟩ := (kept_placed ts).parse rfl hstart hparse
  exact hparts

/-- In a text that is accepted every statement is recorded with the line of its first token, which is one more
than the line breaks before it, and at the end all three lines are the same. -/
theorem statements_on_their_lines (text : List Char) {trees : List Node} {p : Session}
    (hparse : (Session.parse .fourth text).run .fresh = .ok trees p) :
    p.source.current = p.source.reached ∧ p.source.reached = p.source.line ∧
    ∃ ts E, Scans .fourth (Source.fresh.input text) ts ∧ Parts [] [.phrase .program] ts E ∧
      (E.map Prod.snd).flatten = ts ∧ p.statements.map Statement.line = E.map fun x => 1 + breaks x.1 := by
  have hsettled := settled_parse settled_fresh ordered_fresh hparse
  have hordered := ordered_parse ordered_fresh text
  rw [hparse] at hordered
  have hscans := scans_tokens .fourth (Source.fresh.input text)
  obtain ⟨E, hE⟩ := parts_of_parse hparse hscans
  exact ⟨hsettled.current.trans hordered.reached.symm, hordered.reached, _, E, hscans, hE⟩

/-- Weights with which a condition is unfinished before its colon. -/
def unfinished : Symbol → Int
  | .tok .kwIf => 1
  | .tok .colon => -1
  | _ => 0

/-- The condition is on the first line, and the assignment in its body on the second. -/
theorem guarded_on_its_lines : ∃ trees p, (Session.parse .fourth guardedText).run .fresh = .ok trees p ∧
    p.statements.map Statement.node = guardedTrees ∧ p.statements.map Statement.line = [1, 2] := by
  obtain ⟨trees, p, hparse, s, s', hs, hnodes, -⟩ := parse_guarded
  obtain ⟨-, -, ts, E, hscans, hparts, hflat, hlines⟩ := statements_on_their_lines guardedText hparse
  refine ⟨trees, p, hparse, by rw [hs]; exact hnodes, ?_⟩
  obtain ⟨x, y, rfl⟩ : ∃ x y, E = [x, y] := length_eq_two.1 (by simpa [hs] using (congrArg length hlines).symm)
  obtain ⟨hx, hy, -⟩ : [] = x.1 ∧ x.1 ++ x.2 = y.1 ∧ y.1 ++ y.2 = ts := by
    simpa using (hparts.adjoin (by simp [Symbol.pending])).1
  rw [← hx, nil_append] at hy
  rw [hlines, map_cons, map_singleton, ← hx, ← hy]
  -- The first statement begins with the keyword, has a colon, and ends before a token that is no line break.
  have hfirst : ∀ k < 8, 0 < k → ((ts.take k).map fun t => unfinished (.tok t.kind)).sum ≤ 0 →
      ts[k]?.map Token.kind ≠ some .newline → breaks (ts.take k) = 1 := by
    rw [← hscans.tokens_eq]
    decide +kernel
  have hlength : ts.length = 8 := by rw [← hscans.tokens_eq]; rfl
  obtain ⟨c, hc, hact, ⟨_, hbody⟩, -⟩ := hparts.span_of_mem (.head _)
  obtain ⟨c', hc', hact', ⟨_, hbody'⟩, after, hts⟩ := hparts.span_of_mem (.tail _ (.head _))
  obtain ⟨t, rest, hx2, -⟩ := hbody.first ((clauses_parted c hc).2.2.2 (.inr hact))
  obtain ⟨t', rest', hy2, ht'⟩ := hbody'.first ((clauses_parted c' hc').2.2.2 (.inr hact'))
  have hw : ∀ c ∈ clauses .fourth, (c.body.map unfinished).sum ≤ unfinished (.phrase c.head) := by decide +kernel
  rw [nil_append, ← hy, hy2, append_assoc] at hts
  have htake : ts.take x.2.length = x.2 := by rw [hts, take_left]
  have hbreaks : breaks x.2 = 1 := by
    have h := hfirst x.2.length (by rw [← hlength, hts]; simp) (by simp [hx2])
    rw [htake] at h
    exact h ((hbody.weight_le hw).trans (hw c hc)) (by simp [hts, ht'])
  rw [hbreaks]
  rfl

end Tabc
