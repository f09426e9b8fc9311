import Tabc.Proofs.Parsing.Acceptance
import Tabc.Proofs.Scanning.Portions
import Tabc.Proofs.Sessions.Lines

/-!
# What a text leaves behind

Whatever becomes of a text, no tabs are remembered below the line that was reached (`ordered_parse`). When it is
accepted the parser is settled (`settled_parse`): open literals and statements without a line have symbols on
the stack.
-/

open List

namespace Tabc

open Parsing Automaton Tabc.Core

variable {e : Edition}

def leaves {α : Type} : EStateM.Result Fault Session α → Session
  | .ok _ p | .error _ p => p

variable {p p' : Session} {v : Node} {stack stack' : List (List Node)}
  {f : List (List Node) → Except Fault (List (List Node))}

theorem leaves_bind {α β : Type} {P : Session → Prop} {x : ParseM α} {f : α → ParseM β}
    (hx : P (leaves (x.run p))) (hf : ∀ a p', x.run p = .ok a p' → P p' → P (leaves ((f a).run p'))) :
    P (leaves ((x >>= f).run p)) := by
  rw [EStateM.run_bind]
  cases h : x.run p with
  | ok a p' =>
    rw [h] at hx
    exact hf a p' h hx
  | error y p' =>
    rw [h] at hx
    exact hx

namespace Source

variable {s s' : Source}

theorem Ordered.taken {o : Option Token} (h : s.Ordered) (htaken : s.taken .fourth = some (o, s')) : s'.Ordered := by
  obtain ⟨p, -, hp⟩ := between_of_taken htaken
  have hle : s.line ≤ s'.line := hp.line ▸ Nat.le_add_right _ _
  refine ⟨h.line_pos.trans_le hle, hp.current ▸ h.current_pos, ?_, fun run hrun => ?_⟩
  · rw [hp.reached]
    split
    · rw [hp.line, ‹p.breaks = 0›]
      exact h.reached
    · rfl
  · rw [hp.tabs] at hrun
    rcases mem_append.1 hrun with hrun | hrun
    · exact (h.tabs run hrun).trans hle
    cases p with
    | tabs line text =>
      rw [mem_singleton.1 hrun]
      exact hp.fits.1.trans_le hle
    | _ => cases hrun

theorem Ordered.next (h : s.Ordered) : (s.next .fourth).2.Ordered :=
  next_induction (R := fun s r => s.Ordered → r.2.Ordered) (fun _ _ h => h) (fun htaken h => h.taken htaken)
    (fun htaken hr h => hr (h.taken htaken)) s h

/-- Only a line break changes the line, by its length. -/
theorem lines_of_taken {o : Option Token} (h : s.taken .fourth = some (o, s')) :
    s'.current = s.current ∧ (o = none → s'.reached = s.reached) ∧ s'.line = s.line + (o.map Token.breaks).getD 0 := by
  obtain ⟨p, rfl, hp⟩ := between_of_taken h
  refine ⟨hp.current, fun h => ?_, by rw [hp.line, hp.breaks]⟩
  rw [hp.reached, if_pos (by rw [← hp.breaks, h]; rfl)]

theorem lines_next (s : Source) :
    (s.next .fourth).2.current = s.current ∧ ((s.next .fourth).1 = none → (s.next .fourth).2.reached = s.reached) ∧
      (s.next .fourth).2.line = s.line + ((s.next .fourth).1.map Token.breaks).getD 0 := by
  refine next_induction (R := fun s r => r.2.current = s.current ∧ (r.1 = none → r.2.reached = s.reached) ∧
    r.2.line = s.line + (r.1.map Token.breaks).getD 0) (fun s _ => ⟨rfl, fun _ => rfl, rfl⟩)
    lines_of_taken (fun htaken hr => ?_) s
  obtain ⟨hcurrent, hreached, hline⟩ := lines_of_taken htaken
  exact ⟨hr.1.trans hcurrent, fun h => (hr.2.1 h).trans (hreached rfl), hr.2.2.trans (by rw [hline]; rfl)⟩

end Source

/-- A session and a later one with other open literals. -/
inductive Session.Acted (p : Session) : Session → Prop
  | literals (lists tuples : List (List Node)) : Session.Acted p { p with lists := lists, tuples := tuples }
  | recorded (n : Node) : Session.Acted p (recorded p n)

theorem acted_apply (act : Act) (vs : List Node) (p : Session) : p.Acted (leaves ((act.apply .fourth vs).run p)) := by
  have hsame : p.Acted p := .literals p.lists p.tuples
  have hmakes := act.makes .fourth vs
  generalize act.apply .fourth vs = x at hmakes ⊢
  cases hmakes with
  | node | unmet => exact hsame
  | @lists f _ hx =>
    rw [hx]
    cases f p.lists with
    | ok r => exact .literals r.2 p.tuples
    | error y => exact hsame
  | @tuples f _ hx =>
    rw [hx]
    cases f p.tuples with
    | ok r => exact .literals p.lists r.2
    | error y => exact hsame
  | statement => exact .recorded _

/-- A property that reading a token and acting keep. -/
structure Lasting (P : Session → Prop) : Prop where
  next {p : Session} (h : P p) : P { p with source := (p.source.next .fourth).2 }
  act {p p' : Session} (h : P p) (hact : p.Acted p') : P p'
  refuse {p : Session} (h : P p) : P { p with ready := false }

namespace Lasting

variable {P : Session → Prop} {p : Session}

theorem reduction (hP : Lasting P) (he : e = .fourth) (h : P p) (c : Config Symbol Node)
    (rule : Nat) : P (leaves (p.reduction e c rule)) := by
  have hacted := acted_apply (clauseOf (clauses e).toArray rule).act
    (valuesOf (c.symbols.take (clauseOf (clauses e).toArray rule).body.length).reverse) p
  rw [← he] at hacted
  have happly := hP.act h hacted
  unfold Session.reduction
  dsimp only
  split
  · rename_i heq
    rw [heq] at happly
    exact happly
  · rename_i heq
    rw [heq] at happly
    split <;> exact happly

theorem look (hP : Lasting P) (he : e = .fourth) (h : P p) (c : Config Symbol Node) : P (p.look e c).2 := by
  subst he
  unfold Session.look
  cases c.lookahead with
  | some s => exact h
  | none => exact hP.next h

variable {c : Config Symbol Node}

theorem step (hP : Lasting P) (he : e = .fourth) (h : P p) (hc : Plain c) :
    P (leaves (((machine e).step c).run p)) := by
  rw [run_step_text he hc]
  cases (machine e).defaulted c.state with
  | some rule => exact hP.reduction he h c rule
  | none =>
    have hlook := hP.look he h c
    dsimp only
    unfold Session.move
    split
    · exact hlook
    · exact hP.reduction he hlook _ _
    · exact hlook
    · exact hP.refuse hlook

theorem run (hP : Lasting P) (he : e = .fourth) (h : P p) (fuel : Nat) (hc : Plain c) :
    P (leaves (((machine e).run fuel c).run p)) := by
  induction fuel generalizing c p with
  | zero => exact h
  | succ fuel ih =>
    refine leaves_bind (hP.step he h hc) fun o p' hstep hp' => ?_
    cases o with
    | next c' => exact ih hp' (hc.step he hstep)
    | finished v => exact hp'

end Lasting

theorem lasting_ordered : Lasting fun p => p.source.Ordered where
  next h := h.next
  act h hact := by
    cases hact with
    | literals _ _ => exact h
    | recorded _ => exact ⟨h.line_pos, h.line_pos.trans_eq h.reached.symm, h.reached, h.tabs⟩
  refuse h := h

/-- After a text the lines that are remembered are those the parser has come to. -/
theorem ordered_parse (h : p.source.Ordered) (text : List Char) :
    (leaves ((Session.parse .fourth text).run p)).source.Ordered := by
  have hinput : (p.source.input text).Ordered := ⟨h.line_pos, h.current_pos, h.reached, h.tabs⟩
  refine leaves_bind (P := fun p => p.source.Ordered) hinput fun _ p1 hp1 _ => ?_
  cases hp1
  refine leaves_bind (P := fun p => p.source.Ordered)
    (lasting_ordered.run rfl hinput _ plain_start) fun r p2 _ hp2 => ?_
  cases r with
  | exhausted => exact hp2
  | finished v => exact ⟨hp2.line_pos, hp2.current_pos, hp2.reached, fun _ h => by cases h⟩

/-- What an action does to the open literals and to the line of the next statement. -/
structure Act.Effect (act : Act) (p p' : Session) : Prop where
  lists : (p'.lists.length : Int) = p.lists.length + act.listDepth
  tuples : (p'.tuples.length : Int) = p.tuples.length + act.tupleDepth
  source : p'.source = if act = .statement then { p.source with current := p.source.reached } else p.source
  lines : p'.statements.map Statement.line =
    if act = .statement then p.statements.map Statement.line ++ [p.source.current]
    else p.statements.map Statement.line

theorem effect_apply {act : Act} {vs : List Node} (hquiet : act.quiet vs.length = true →
    act.listDepth = 0 ∧ act.tupleDepth = 0 ∧ act ≠ .statement)
    (h : (act.apply .fourth vs).run p = .ok v p') : act.Effect p p' := by
  have hmakes := act.makes .fourth vs
  generalize act.apply .fourth vs = x at h hmakes
  cases hmakes with
  | node v hact =>
    cases h
    obtain ⟨hlists, htuples, hact⟩ := hquiet hact
    exact ⟨by simp [hlists], by simp [htuples], by simp [hact], by simp [hact]⟩
  | unmet => cases h
  | @lists g _ hx hg hact =>
    have hchanges := hg p.lists
    rw [hx] at h
    cases hr : g p.lists <;> rw [hr] at h hchanges <;> cases h
    exact ⟨hchanges, by simp [hact.1], by simp [hact.2], by simp [hact.2]⟩
  | @tuples g _ hx hg hact =>
    have hchanges := hg p.tuples
    rw [hx] at h
    cases hr : g p.tuples <;> rw [hr] at h hchanges <;> cases h
    exact ⟨by simp [hact.1], hchanges, by simp [hact.2], by simp [hact.2]⟩
  | statement v hact =>
    cases h
    subst hact
    exact ⟨by simp [Act.listDepth], by simp [Act.tupleDepth], rfl, by simp⟩

/-- What every move keeps, and what then holds when a text is accepted. A property speaks of the symbols on the
stack, the symbol read ahead and the session. -/
structure Kept (e : Edition) (I : List (Sym Symbol Node) → Option (Sym Symbol Node) → Session → Prop)
    (F : Session → Prop) : Prop where
  look {ss : List (Sym Symbol Node)} {p : Session} (h : I ss none p) :
    I ss (some (((p.source.next e).1.map tokenSym).getD endSym)) { p with source := (p.source.next e).2 }
  shift {ss : List (Sym Symbol Node)} {p : Session} {t : Token} (h : I ss (some (tokenSym t)) p) :
    I (tokenSym t :: ss) none p
  reduce {args below : List (Sym Symbol Node)} {ahead : Option (Sym Symbol Node)} {p p' : Session}
    {clause : Clause} {v : Node} (h : I (args ++ below) ahead p) (hclause : clause ∈ clauses e)
    (hbody : args.map Sym.kind = clause.body.reverse)
    (hval : (clause.act.apply e (valuesOf args.reverse)).run p = .ok v p') :
    I (phraseSym clause.head v :: below) ahead p'
  accept {s : Sym Symbol Node} {p : Session} (h : I [s] (some endSym) p) (hs : s.kind = .phrase .program) : F p

namespace Kept

variable {I : List (Sym Symbol Node) → Option (Sym Symbol Node) → Session → Prop} {F : Session → Prop}
  {c : Config Symbol Node} {o : Outcome Symbol Node}

/-- What a move leads to. -/
def Leads (e : Edition) (I : List (Sym Symbol Node) → Option (Sym Symbol Node) → Session → Prop)
    (F : Session → Prop) (p : Session) : Outcome Symbol Node → Prop
  | .next c => I c.symbols c.lookahead p ∧ Plain c ∧ Poised e c
  | .finished _ => F p

variable (hI : Kept e I F) (h : I c.symbols c.lookahead p) (hplain : Plain c) (hpoised : Poised e c)

include hI h hplain hpoised

theorem reduction {r s : Nat} (hmove : (rowOf e c.state).move? s = some (.reduce r))
    (hrun : p.reduction e c r = .ok o p') : Leads e I F p' o := by
  obtain ⟨i, clause, v, j, -, hclause, rfl, hbody, hval, hpoised'⟩ := hpoised.reduction hmove hrun
  refine ⟨?_, hplain.reduces _ _ _, hpoised'⟩
  rw [← take_append_drop clause.body.length c.symbols] at h
  exact hI.reduce h (mem_of_getElem? hclause) hbody hval

theorem step (he : e = .fourth) (hstep : ((machine e).step c).run p = .ok o p') : Leads e I F p' o := by
  rw [run_step_text he hplain] at hstep
  cases hd : (machine e).defaulted c.state with
  | some rule =>
    rw [hd] at hstep
    obtain ⟨s, hs⟩ := Row.Of.exists_of_defaulted? hd
    exact hI.reduction h hplain hpoised hs hstep
  | none =>
    rw [hd] at hstep
    have hlook : I c.symbols (some (p.look e c).1) (p.look e c).2 := by
      unfold Session.look
      cases hahead : c.lookahead with
      | some s =>
        rw [hahead] at h
        exact h
      | none =>
        rw [hahead] at h
        exact hI.look h
    have hplain' := hplain.look (e := e) p
    unfold Session.move at hstep
    cases hact : (machine e).action c.state (p.look e c).1.kind with
    | none =>
      rw [hact] at hstep
      cases hstep
    | some m =>
      rw [hact] at hstep
      cases m with
      | shift target =>
        cases hstep
        obtain ⟨hterm, hshifted⟩ := hpoised.shift hact
        refine ⟨?_, hplain.shifts _ _, hshifted⟩
        rcases hplain'.lookahead _ rfl with hend | ⟨t, ht⟩
        · -- no item stands before the end of the input
          rw [hend, he] at hterm
          exact absurd hterm (by decide)
        · rw [ht] at hlook
          simpa [Shifts, ht] using hI.shift hlook
      | reduce rule =>
        exact hI.reduction hlook hplain' ⟨hpoised.top, hpoised.path⟩ hact hstep
      | accept =>
        cases hstep
        obtain ⟨hkinds, hend⟩ := hpoised.accept hact
        obtain ⟨s, hs, hkind⟩ := map_eq_singleton_iff.1 hkinds
        rw [hs] at hlook
        rcases hplain'.lookahead _ rfl with heof | ⟨t, ht⟩
        · exact hI.accept (heof ▸ hlook) hkind
        have hlt := code_tok_lt t.kind
        rw [ht] at hend
        have hcode : t.kind.code = 60 := hend
        omega

theorem run (he : e = .fourth) {v : Option Node}
    (hrun : ((machine e).run fuel c).run p = .ok (.finished v) p') : F p' := by
  induction fuel generalizing c p with
  | zero => cases hrun
  | succ fuel ih =>
    obtain ⟨o, p1, hstep, hrest⟩ := of_run_bind hrun
    have hleads := hI.step h hplain hpoised he hstep
    cases o with
    | next c' => exact ih hleads.1 hleads.2.1 hleads.2.2 hrest
    | finished v' =>
      cases hrest
      exact hleads

omit h hplain hpoised in
theorem parse (he : e = .fourth) (h : I [] none { p with statements := [], source := p.source.input text })
    (hparse : (Session.parse e text).run p = .ok trees p') :
    ∃ p2, F p2 ∧ p' = { p2 with source := p2.source.clearTabs } := by
  unfold Session.parse at hparse
  have hparse := of_run_bind_ok hparse rfl
  obtain ⟨r, p2, hrun, hparse⟩ := of_run_bind hparse
  cases r with
  | exhausted => cases hparse
  | finished v =>
    cases hparse
    exact ⟨p2, hI.run (c := Machine.start) h plain_start ⟨⟨[], rfl⟩, .start⟩ he hrun, rfl⟩

end Kept

/-- A symbol that belongs to a statement whose end has not been seen. -/
def Symbol.pending : Symbol → Bool
  | .phrase .program | .phrase .block | .phrase .statement | .eof => false
  | _ => true

theorem clauses_tallied : ∀ c ∈ clauses .fourth,
    (c.act.quiet c.body.length = true → c.act.listDepth = 0 ∧ c.act.tupleDepth = 0 ∧ c.act ≠ .statement) ∧
    (c.body.count (.phrase .list) : Int) + c.act.listDepth = (if c.head = .list then 1 else 0 : Nat) ∧
    (c.body.count (.phrase .tuple) : Int) + c.act.tupleDepth = (if c.head = .tuple then 1 else 0 : Nat) ∧
    (c.act = .statement ∨ (Symbol.phrase c.head).pending = true ∨ ∀ s ∈ c.body, s.pending = false) := by decide +kernel

theorem effect_of_clause {clause : Clause} (hclause : clause ∈ clauses .fourth)
    {args : List (Sym Symbol Node)} (hbody : args.map Sym.kind = clause.body.reverse)
    (hval : (clause.act.apply .fourth (valuesOf args.reverse)).run p = .ok v p') : clause.act.Effect p p' := by
  have hlength : (valuesOf args.reverse).length = clause.body.length := by
    simpa [valuesOf] using congrArg List.length hbody
  exact effect_apply (by rw [hlength]; exact (clauses_tallied clause hclause).1) hval

/-- Each open literal has its phrase on the stack, and a statement whose line has ended but that is not on
its line yet has a pending symbol. -/
structure Tallied (ss : List (Sym Symbol Node)) (ahead : Option (Sym Symbol Node)) (p : Session) : Prop where
  lists : p.lists.length = (ss.map Sym.kind).count (.phrase .list)
  tuples : p.tuples.length = (ss.map Sym.kind).count (.phrase .tuple)
  line : p.source.current = p.source.reached ∨ ∃ s ∈ ss ++ ahead.toList, s.kind.pending = true

namespace Tallied

variable {ss args below : List (Sym Symbol Node)} {ahead : Option (Sym Symbol Node)} {clause : Clause}

theorem look (h : Tallied ss none p) :
    Tallied ss (some (((p.source.next .fourth).1.map tokenSym).getD endSym))
      { p with source := (p.source.next .fourth).2 } := by
  refine ⟨h.lists, h.tuples, ?_⟩
  obtain ⟨hcurrent, hreached, -⟩ := p.source.lines_next
  cases htoken : (p.source.next .fourth).1 with
  | some t => exact .inr ⟨tokenSym t, by simp, rfl⟩
  | none =>
    rcases h.line with hline | ⟨s, hs, hpending⟩
    · exact .inl (by rw [hcurrent, hreached htoken, hline])
    · exact .inr ⟨s, by simpa using Or.inl hs, hpending⟩

theorem shift {t : Token} (h : Tallied ss (some (tokenSym t)) p) : Tallied (tokenSym t :: ss) none p := by
  refine ⟨by simpa [tokenSym] using h.lists, by simpa [tokenSym] using h.tuples, ?_⟩
  rcases h.line with hline | ⟨s, hs, hpending⟩
  · exact .inl hline
  · exact .inr ⟨s, by simpa [or_comm] using hs, hpending⟩

theorem reduce (h : Tallied (args ++ below) ahead p) (hclause : clause ∈ clauses .fourth)
    (hbody : args.map Sym.kind = clause.body.reverse)
    (hval : (clause.act.apply .fourth (valuesOf args.reverse)).run p = .ok v p') :
    Tallied (phraseSym clause.head v :: below) ahead p' := by
  obtain ⟨-, hlists, htuples, hline⟩ := clauses_tallied clause hclause
  have heffect := effect_of_clause hclause hbody hval
  have hsplit : (args ++ below).map Sym.kind = clause.body.reverse ++ below.map Sym.kind := by
    rw [map_append, hbody]
  have hkinds : (phraseSym clause.head v :: below).map Sym.kind = .phrase clause.head :: below.map Sym.kind := rfl
  refine ⟨?_, ?_, ?_⟩
  · have hcount := h.lists
    have heff := heffect.lists
    rw [hsplit, count_append, count_reverse] at hcount
    rw [hkinds, count_cons]
    simp only [beq_iff_eq, Symbol.phrase.injEq]
    omega
  · have hcount := h.tuples
    have heff := heffect.tuples
    rw [hsplit, count_append, count_reverse] at hcount
    rw [hkinds, count_cons]
    simp only [beq_iff_eq, Symbol.phrase.injEq]
    omega
  · have hsource := heffect.source
    by_cases hact : clause.act = .statement
    · rw [if_pos hact] at hsource
      exact .inl (by rw [hsource])
    rw [if_neg hact] at hsource
    rw [hsource]
    rcases h.line with hl | ⟨s, hs, hpending⟩
    · exact .inl hl
    right
    rw [List.append_assoc, mem_append] at hs
    rcases hs with hs | hs
    · have hs' : s.kind ∈ clause.body := by
        rw [← mem_reverse, ← hbody]
        exact mem_map_of_mem hs
      rcases hline with hline | hline | hline
      · exact absurd hline hact
      · exact ⟨_, .head _, hline⟩
      · rw [hline _ hs'] at hpending
        cases hpending
    · exact ⟨s, .tail _ hs, hpending⟩

end Tallied

/-- When a text is accepted no literal is open, and the next statement begins where it ended. -/
theorem kept_tallied : Kept .fourth Tallied
    fun p => p.lists = [] ∧ p.tuples = [] ∧ p.source.current = p.source.reached where
  look h := h.look
  shift h := h.shift
  reduce h := h.reduce
  accept {s p} h hs := by
    refine ⟨?_, ?_, ?_⟩
    · rw [← length_eq_zero_iff, h.lists, map_singleton, hs]
      rfl
    · rw [← length_eq_zero_iff, h.tuples, map_singleton, hs]
      rfl
    rcases h.line with hline | ⟨s', hs', hpending⟩
    · exact hline
    simp only [Option.toList_some, cons_append, nil_append, mem_pair] at hs'
    rcases hs' with rfl | rfl
    · rw [hs] at hpending
      cases hpending
    · cases hpending

theorem settled_parse (h : p.Settled) (hp : p.source.Ordered)
    (hparse : (Session.parse .fourth text).run p = .ok trees p') : p'.Settled := by
  have hordered := ordered_parse hp text
  rw [hparse] at hordered
  have hstart : Tallied [] none { p with statements := [], source := p.source.input text } :=
    ⟨by rw [h.lists]; rfl, by rw [h.tuples]; rfl, .inl (h.current.trans hp.reached.symm)⟩
  obtain ⟨p2, ⟨hlists, htuples, hcurrent⟩, rfl⟩ := kept_tallied.parse rfl hstart hparse
  exact ⟨hlists, htuples, hcurrent.trans hordered.reached, rfl⟩

end Tabc
