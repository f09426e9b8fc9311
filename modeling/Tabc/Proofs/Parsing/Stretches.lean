import Tabc.Proofs.Parsing.Prefixes
import Tabc.Proofs.Parsing.Writings

/-!
# Stretches of a run

A `Situation` is what matters of the machine between two moves, and `Stretch e n s s'` says that `n` moves
lead from one to the other, whatever the rest of the machine holds.
-/

open List hiding head

namespace Tabc

open Parsing Automaton Tabc.Core Expression

/-- The stacks of the machine, the tokens to come and the session. -/
structure Situation where
  states : List Nat
  symbols : List (Sym Symbol Node)
  rest : List Token
  session : Session

structure Situation.Of (s : Situation) (c : Config Symbol Node) (p : Session) (tape : Tape) :
    Prop where
  states : c.states = s.states
  state : c.state = s.states.headD 0
  symbols : c.symbols = s.symbols
  guard : c.guard = 0
  pushed : c.pushed = []
  ahead : Ahead c.lookahead tape.unread s.rest
  session : p = s.session

/-- Some moves lead from one situation to another. -/
def Stretch (e : Edition) (n : Nat) (s s' : Situation) : Prop :=
  ∀ c p tape, s.Of c p tape → ∃ c' p' tape', s'.Of c' p' tape' ∧
    ∀ fuel, ((onTape e).run (fuel + n) c).run (p, tape) = ((onTape e).run fuel c').run (p', tape')

@[simp] theorem value_phraseSym (head : Phrase) (v : Node) : (phraseSym head v).value = some v := rfl

@[simp] theorem kind_nextSym_cons (t : Token) (ts : List Token) : (nextSym (t :: ts)).kind = .tok t.kind := rfl

@[simp] theorem value_tokenSym (t : Token) : (tokenSym t).value = some (.atom t.value) := rfl

variable {e : Edition} {n : Nat} {s s' : Situation} {c : Config Symbol Node} {p : Session} {tape : Tape}

theorem Stretch.refl (e : Edition) (s : Situation) : Stretch e 0 s s := fun c p tape h => ⟨c, p, tape, h, fun _ => rfl⟩

theorem Stretch.trans (h : Stretch e n s s') (h' : Stretch e n' s' s'') : Stretch e (n + n') s s'' := by
  intro c p tape hc
  obtain ⟨c1, p1, tape1, hc1, hrun1⟩ := h c p tape hc
  obtain ⟨c2, p2, tape2, hc2, hrun2⟩ := h' c1 p1 tape1 hc1
  refine ⟨c2, p2, tape2, hc2, fun fuel => ?_⟩
  rw [← hrun2, ← hrun1]
  congr 2
  omega

theorem run_of_step {c' : Config Symbol Node} {s' : Session × Tape}
    (h : ((onTape e).step c).run (p, tape) = .ok (.next c') s') (fuel : Nat) :
    ((onTape e).run (fuel + 1) c).run (p, tape) = ((onTape e).run fuel c').run s' := by
  rw [Machine.run, run_bind_of_ok h]

variable {i : Nat} {is : List Nat} {ss : List (Sym Symbol Node)}

theorem Stretch.shift {j : Nat} {t : Token} (hkind : t.kind = k)
    (h : (machine e).action i (.tok k) = some (.shift j)) :
    Stretch e 1 ⟨i :: is, ss, t :: rest, p⟩ ⟨j :: i :: is, tokenSym t :: ss, rest, p⟩ := by
  intro c p' tape hc
  have hstate : c.state = i := hc.state
  have hd : (machine e).defaulted c.state = none := by
    rcases defaulted_of_action h with hd | ⟨r, hr, -⟩
    · rw [hstate, hd]
    · cases hr
  obtain ⟨tape', hfetch, -, hahead⟩ := run_fetch hc.pushed hc.ahead
  have hstep := run_step_looking hd hfetch
  have hlook : (machine e).action c.state (nextSym (t :: rest)).kind = some (.shift j) := by
    rw [hstate, ← h, ← hkind]
    rfl
  rw [hlook] at hstep
  refine ⟨_, _, _, ?_, run_of_step hstep⟩
  have hunread : tape'.unread = rest := by
    generalize tape'.unread = unread, hlook' : some (nextSym (t :: rest)) = look at hahead
    cases hahead with
    | unread => cases hlook'
    | token => rfl
  exact {
    states := by simp [Shifts, hc.states]
    state := rfl
    symbols := by simp [Shifts, hc.symbols, nextSym]
    guard := by simp [Shifts, hc.guard]
    pushed := hc.pushed
    ahead := by rw [hunread]; exact .unread rest
    session := hc.session }

theorem Situation.Of.step_reduce (h : s.Of c p tape)
    (hact : (machine e).action (s.states.headD 0) (nextSym s.rest).kind = some (.reduce rule)) :
    ∃ c' tape', s.Of c' p tape' ∧ ((onTape e).step c).run (p, tape) = ((onTape e).reduceBy c' rule).run (p, tape') := by
  rw [← h.state] at hact
  rcases defaulted_of_action hact with hd | ⟨r, hr, hd⟩
  · obtain ⟨tape', hfetch, -, hahead⟩ := run_fetch h.pushed h.ahead
    have hstep := run_step_looking hd hfetch
    rw [hact] at hstep
    exact ⟨{ c with lookahead := some (nextSym s.rest) }, tape',
      ⟨h.states, h.state, h.symbols, h.guard, h.pushed, hahead, h.session⟩, hstep⟩
  · cases hr
    exact ⟨c, tape, h, run_step_defaulted hd⟩

theorem Stretch.reduce (hc : (clauses e)[i]? = some ⟨head, body, act, unary⟩) (js : List Nat)
    (args : List (Sym Symbol Node))
    (hjs : js.length = body.length) (hargs : args.length = body.length)
    (hact : (machine e).action ((js ++ i0 :: is).headD 0) (nextSym rest).kind = some (.reduce (i + 1)))
    (hval : (act.apply e (valuesOf args.reverse)).run p = .ok v p')
    (hgoto : (machine e).goto i0 (.phrase head) = some j) :
    Stretch e 1 ⟨js ++ i0 :: is, args ++ ss, rest, p⟩ ⟨j :: i0 :: is, phraseSym head v :: ss, rest, p'⟩ := by
  intro c p0 tape h
  obtain ⟨c1, tape1, h1, hstep⟩ := h.step_reduce hact
  have hsession : p0 = p := h.session
  have hdrop : c1.states.drop body.length = i0 :: is := by rw [h1.states, ← hjs, drop_left]
  have htake : c1.symbols.take body.length = args := by rw [h1.symbols, ← hargs, take_left]
  rw [run_reduceBy, Session.reduction, clauseOf_succ hc] at hstep
  rw [htake, hsession, hval] at hstep
  rw [hdrop, headD_cons, hgoto] at hstep
  rw [← hsession] at hstep
  refine ⟨_, _, _, ?_, run_of_step hstep⟩
  exact {
    states := by simp [Reduces, hdrop]
    state := rfl
    symbols := by
      simp only [Reduces, h1.symbols]
      rw [← hargs, drop_left]
    guard := h1.guard
    pushed := h1.pushed
    ahead := h1.ahead
    session := rfl }

/-- A bounded number of moves leads from one situation to another. -/
def Within (e : Edition) (bound : Nat) (s s' : Situation) : Prop := ∃ n ≤ bound, Stretch e n s s'

theorem Stretch.within (h : Stretch e n s s') : Within e n s s' := ⟨n, le_rfl, h⟩

theorem Within.trans (h : Within e b s s') (h' : Within e b' s' s'') : Within e (b + b') s s'' := by
  obtain ⟨n, hn, h⟩ := h
  obtain ⟨n', hn', h'⟩ := h'
  exact ⟨n + n', by omega, h.trans h'⟩

theorem Within.mono (h : Within e b s s') (hb : b ≤ b') : Within e b' s s' := by
  obtain ⟨n, hn, h⟩ := h
  exact ⟨n, hn.trans hb, h⟩

theorem Situation.Of.accept (h : (Situation.mk (i :: is) ss [] p).Of c p tape)
    (hact : (machine e).action i .eof = some .accept) (fuel : Nat) :
    ∃ v tape', ((onTape e).run (fuel + 1) c).run (p, tape) = .ok (.finished v) (p, tape') := by
  have hstate : c.state = i := h.state
  have hd : (machine e).defaulted c.state = none := by
    rcases defaulted_of_action hact with hd | ⟨r, hr, -⟩
    · rw [hstate, hd]
    · cases hr
  obtain ⟨tape', hfetch, -, -⟩ := run_fetch h.pushed h.ahead
  have hstep := run_step_looking hd hfetch
  have hlook : (machine e).action c.state (nextSym []).kind = some .accept := by
    rw [hstate]
    exact hact
  rw [hlook] at hstep
  refine ⟨c.symbols.head?.bind Sym.value, tape', ?_⟩
  rw [Machine.run, run_bind_of_ok hstep]
  rfl

/-- After a prefix the parser reads some words and pushes symbols with known values, provided that what comes
next is as wanted. -/
def Pushes (bound : Nat) (before : List Symbol) (follow : Symbol → Prop) (more : List Symbol)
    (vs : List Node) (ws : List Word) (p p' : Session) : Prop :=
  ∀ (is : List Nat) (ss : List (Sym Symbol Node)) (ts rest : List Token), ts.map wordOf = ws →
    follow (nextSym rest).kind → ∃ js is' args, js.length = more.length ∧
      js ++ stateAfter .fourth before :: is = stateAfter .fourth (before ++ more) :: is' ∧
      args.length = more.length ∧ valuesOf args.reverse = vs ∧
      Within .fourth bound ⟨stateAfter .fourth before :: is, ss, ts ++ rest, p⟩
        ⟨js ++ stateAfter .fourth before :: is, args ++ ss, rest, p'⟩

/-- A rule that begins after a prefix is complete: some prefix with the same state after the rule shows what
may follow. -/
def Completes (before : List Symbol) (head : Phrase) (body : List Symbol) (s : Symbol) : Prop :=
  ∃ origin, kernelAfter .fourth (origin ++ body) = kernelAfter .fourth (before ++ body) ∧
    predicts .fourth origin head = true ∧ MayFollow .fourth origin (.phrase head) s ∧
    reduces .fourth (origin ++ body) s = true

theorem isNonterminal_head : ∀ c ∈ clauses .fourth, (grammar .fourth).isNonterminal c.head.code = true := by
  decide +kernel

theorem pushes_nil (before : List Symbol) (f : Symbol → Prop) (p : Session) : Pushes 0 before f [] [] [] p p := by
  intro is ss ts rest hts _
  obtain rfl := map_eq_nil_iff.1 hts
  exact ⟨[], is, [], rfl, by rw [List.append_nil]; rfl, rfl, rfl, (Stretch.refl _ _).within⟩

namespace Pushes

variable {b : Nat} {before more : List Symbol} {f f' : Symbol → Prop} {vs : List Node}
  {ws : List Word} {p' p'' : Session}

theorem mono (h : Pushes b before f more vs ws p p') (hb : b ≤ b') : Pushes b' before f more vs ws p p' := by
  intro is ss ts rest hts hrest
  obtain ⟨js, is', args, hjs, hpile, hargs, hvs, hrun⟩ := h is ss ts rest hts hrest
  exact ⟨js, is', args, hjs, hpile, hargs, hvs, hrun.mono hb⟩

theorem follow (h : Pushes b before f more vs ws p p') (hf : ∀ s, f' s → f s) : Pushes b before f' more vs ws p p' :=
  fun is ss ts rest hts hrest => h is ss ts rest hts (hf _ hrest)

theorem congr (h : Pushes b before f more vs ws p p')
    (hsame : kernelAfter .fourth before = kernelAfter .fourth before') :
    Pushes b before' f more vs ws p p' := by
  unfold Pushes at h ⊢
  rw [stateAfter_congr hsame, stateAfter_congr (kernelAfter_congr hsame more)] at h
  exact h

/-- The parser goes on with what comes after a token. -/
theorem first (a : Atom) (hshift : shifts .fourth before k = true)
    (h : Pushes b (before ++ [.tok k]) f more vs ws p p') :
    Pushes (b + 1) before f (.tok k :: more) (.atom a :: vs) ((k, a) :: ws) p p' := by
  intro is ss ts rest hts hrest
  obtain ⟨t, ts, rfl, ht, hts⟩ := map_eq_cons_iff.1 hts
  have hkind : t.kind = k := congrArg Prod.fst ht
  have hvalue : t.value = a := congrArg Prod.snd ht
  obtain ⟨js, is', args, hjs, hpile, hargs, hvs, hrun⟩ := h (stateAfter .fourth before :: is) (tokenSym t :: ss) ts
    rest hts hrest
  refine ⟨js ++ [stateAfter .fourth (before ++ [.tok k])], is', args ++ [tokenSym t], by simp [hjs], ?_,
    by simp [hargs], by rw [← hvs]; simp [valuesOf, hvalue], ?_⟩
  · rw [List.append_assoc, singleton_append, hpile]
    simp
  · have hmove : Within .fourth 1 ⟨stateAfter .fourth before :: is, ss, t :: (ts ++ rest), p⟩ _ :=
      (Stretch.shift hkind (action_of_shifts hshift)).within
    simpa [Nat.add_comm] using hmove.trans hrun

/-- What was pushed is followed by what a token leads to. -/
theorem append (h : Pushes b before f more vs ws p p') (hk : f (.tok k))
    (h' : Pushes b' (before ++ more) f' more' vs' ((k, a) :: ws') p' p'') :
    Pushes (b + b') before f' (more ++ more') (vs ++ vs') (ws ++ (k, a) :: ws') p p'' := by
  intro is ss ts rest hts hrest
  obtain ⟨tx, ty, rfl, htx, hty⟩ := map_eq_append_iff.1 hts
  have hnext : f (nextSym (ty ++ rest)).kind := by
    obtain ⟨t, ty, rfl, ht, -⟩ := map_eq_cons_iff.1 hty
    rw [cons_append, kind_nextSym_cons, show t.kind = k from congrArg Prod.fst ht]
    exact hk
  obtain ⟨js, is', args, hjs, hpile, hargs, hvs, hrun⟩ := h is ss tx (ty ++ rest) htx hnext
  obtain ⟨js', is'', args', hjs', hpile', hargs', hvs', hrun'⟩ := h' is' (args ++ ss) ty rest hty hrest
  rw [← hpile] at hpile' hrun'
  refine ⟨js' ++ js, is'', args' ++ args, by simp [hjs, hjs', Nat.add_comm], ?_,
    by simp [hargs, hargs', Nat.add_comm], by rw [← hvs, ← hvs']; simp [valuesOf], ?_⟩
  · rw [List.append_assoc, hpile', List.append_assoc]
  · simpa using hrun.trans hrun'

theorem next (h : Pushes b before f more vs ws p p') (hk : f (.tok k)) (a : Atom)
    (hshift : shifts .fourth (before ++ more) k = true)
    (h' : Pushes b' (before ++ more ++ [.tok k]) f' more' vs' ws' p' p'') :
    Pushes (b + (b' + 1)) before f' (more ++ .tok k :: more') (vs ++ .atom a :: vs') (ws ++ (k, a) :: ws') p p'' :=
  h.append hk (first a hshift h')

theorem reduce (h : Pushes b before f body vs ws p p') (hc : ⟨head, body, act, unary⟩ ∈ clauses .fourth)
    (hval : (act.apply .fourth vs).run p' = .ok v p'') (hdone : ∀ s, f s → Completes before head body s)
    (hviable : Viable .fourth (before ++ [.phrase head])) :
    Pushes (b + 1) before f [.phrase head] [v] ws p p'' := by
  intro is ss ts rest hts hrest
  obtain ⟨js, is', args, hjs, hpile, hargs, hvs, hrun⟩ := h is ss ts rest hts hrest
  obtain ⟨origin, hsame, hpredicts, hfollow, hred⟩ := hdone _ hrest
  obtain ⟨i, hi, hact⟩ := action_of_reduces hc hpredicts hfollow hred
  rw [stateAfter_congr hsame] at hact
  have hact : (machine .fourth).action ((js ++ stateAfter .fourth before :: is).headD 0)
      (nextSym rest).kind = some (.reduce (i + 1)) := by rw [hpile, headD_cons, hact]
  have hgoto := goto_of_viable (isNonterminal_head _ hc) hviable
  refine ⟨[stateAfter .fourth (before ++ [.phrase head])], stateAfter .fourth before :: is,
    [phraseSym head v], by simp, by rw [singleton_append], by simp, rfl, ?_⟩
  exact hrun.trans (Stretch.reduce hi js args hjs hargs hact (by rw [hvs, hval]) hgoto).within

end Pushes

end Tabc
