import Tabc.Proofs.Parsing.Tape

/-!
# Every text has tokens

Every rule of the scanner takes at least one character, so a source comes to its end (`scans_tokens`) and has
no more tokens than characters.
-/

open List

namespace Tabc

namespace Pattern

/-- The length of the shortest texts that may match. -/
def least : Pattern → Nat
  | .empty | .star _ => 0
  | .one _ => 1
  | .seq p q => p.least + q.least
  | .alt p q => min p.least q.least

variable {k : List Char → Option (List Char)} {cs r : List Char}

theorem exists_of_repeatClass (h : repeatClass c k cs = some r) : ∃ rest, k rest = some r ∧ rest <:+ cs := by
  induction cs with
  | nil => exact ⟨[], h, suffix_rfl⟩
  | cons d cs ih =>
    rw [repeatClass] at h
    split at h
    · rcases (Option.orElse_eq_some _ _ _).1 h with h | ⟨-, h⟩
      · obtain ⟨rest, hrest, hsuffix⟩ := ih h
        exact ⟨rest, hrest, hsuffix.trans (suffix_cons _ _)⟩
      · exact ⟨_, h, suffix_rfl⟩
    · exact ⟨_, h, suffix_rfl⟩

theorem exists_of_repeatWhile (hbody : ∀ {cs k}, body cs k = some r → ∃ rest, k rest = some r ∧ rest <:+ cs)
    (h : repeatWhile body fuel cs k = some r) : ∃ rest, k rest = some r ∧ rest <:+ cs := by
  induction fuel generalizing cs with
  | zero => exact ⟨cs, h, suffix_rfl⟩
  | succ fuel ih =>
    rcases (Option.orElse_eq_some _ _ _).1 h with h | ⟨-, h⟩
    · obtain ⟨rest, hrest, hsuffix⟩ := hbody h
      split at hrest
      · obtain ⟨rest', hrest', hsuffix'⟩ := ih hrest
        exact ⟨rest', hrest', hsuffix'.trans hsuffix⟩
      · cases hrest
    · exact ⟨cs, h, suffix_rfl⟩

theorem exists_of_run {p : Pattern} (h : p.run cs k = some r) :
    ∃ rest, k rest = some r ∧ rest <:+ cs ∧ rest.length + p.least ≤ cs.length := by
  induction p generalizing cs k with
  | empty => exact ⟨cs, h, suffix_rfl, le_rfl⟩
  | one c =>
    cases cs with
    | nil => cases h
    | cons d cs =>
      rw [run] at h
      split at h
      · exact ⟨cs, h, suffix_cons _ _, le_rfl⟩
      · cases h
  | seq p q ihp ihq =>
    obtain ⟨rest, h, hsuffix, hle⟩ := ihp h
    obtain ⟨rest', h, hsuffix', hle'⟩ := ihq h
    exact ⟨rest', h, hsuffix'.trans hsuffix, by rw [least]; omega⟩
  | alt p q ihp ihq =>
    rcases (Option.orElse_eq_some _ _ _).1 h with h | ⟨-, h⟩
    · obtain ⟨rest, h, hsuffix, hle⟩ := ihp h
      exact ⟨rest, h, hsuffix, by rw [least]; omega⟩
    · obtain ⟨rest, h, hsuffix, hle⟩ := ihq h
      exact ⟨rest, h, hsuffix, by rw [least]; omega⟩
  | star p ih =>
    suffices hrest : ∃ rest, k rest = some r ∧ rest <:+ cs by
      obtain ⟨rest, hrest, hsuffix⟩ := hrest
      exact ⟨rest, hrest, hsuffix, hsuffix.length_le⟩
    cases p with
    | one c => exact exists_of_repeatClass h
    | _ =>
      refine exists_of_repeatWhile (fun h => ?_) h
      obtain ⟨rest, hrest, hsuffix, -⟩ := ih h
      exact ⟨rest, hrest, hsuffix⟩

theorem suffix_of_run {p : Pattern} (h : p.run cs some = some r) : r <:+ cs ∧ r.length + p.least ≤ cs.length := by
  obtain ⟨_, hr, hrest⟩ := exists_of_run h
  exact Option.some.inj hr ▸ hrest

end Pattern

theorem exists_of_firstMatch (h : firstMatch rules cs = some (action, text, left)) :
    ∃ r ∈ rules, r.action = action ∧ r.pattern.run cs some = some left ∧ text ++ left = cs := by
  induction rules with
  | nil => cases h
  | cons r rules ih =>
    rw [firstMatch, Pattern.match?] at h
    cases hrun : r.pattern.run cs some with
    | none =>
      rw [hrun] at h
      obtain ⟨r', hr', hmatch⟩ := ih h
      exact ⟨r', .tail _ hr', hmatch⟩
    | some rest =>
      rw [hrun] at h
      cases h
      obtain ⟨⟨text, rfl⟩, -⟩ := Pattern.suffix_of_run hrun
      exact ⟨r, .head _, rfl, hrun, by simp⟩

namespace Source

/-- What the scanner makes of the next characters, and where it stands then. -/
def taken (e : Edition) (s : Source) : Option (Option Token × Source) :=
  match s.rest with
  | [] => none
  | c :: rest =>
    let after := { s with rest := rest, pos := s.pos + 1 }
    if c == ' ' then some (none, after)
    else match firstMatch (tokenRules e) s.rest with
      | some (action, text, left) =>
        some (act e s.line s.pos { s with rest := left, pos := s.pos + text.length } text action)
      | none =>
        if isPunctuation c then some (some ⟨.other c, .text c.toString, s.line, s.pos⟩, after)
        else some (none, after.print s!"Illegal character '{c}'")

variable {e : Edition} {s s' t : Source} {o : Option Token} {fuel : Nat}

theorem nextWithin_succ (e : Edition) (fuel : Nat) (s : Source) : s.nextWithin e (fuel + 1) = match s.taken e with
    | none => (none, s)
    | some (some t, s') => (some t, s')
    | some (none, s') => s'.nextWithin e fuel := by
  rw [nextWithin, taken]
  cases s.rest with
  | nil => rfl
  | cons c rest =>
    dsimp only
    split
    · rfl
    cases firstMatch (tokenRules e) (c :: rest) with
    | none => dsimp only; split <;> rfl
    | some found =>
      obtain ⟨action, text, left⟩ := found
      dsimp only
      generalize act e s.line s.pos _ text action = r
      obtain ⟨_ | t, s'⟩ := r <;> rfl

/-- Sources that stand alike in the same text, with tokens that differ by where they stand. -/
structure Parallel (e : Edition) (f : Token → Token) (R : Source → Source → Prop) : Prop where
  rest {s t : Source} (h : R s t) : t.rest = s.rest
  token {s t : Source} (h : R s t) (k : TokenKind) (v : Atom) :
    (⟨k, v, t.line, t.pos⟩ : Token) = f ⟨k, v, s.line, s.pos⟩
  skip {s t : Source} (h : R s t) (rest : List Char) (n : Nat) :
    R { s with rest := rest, pos := s.pos + n } { t with rest := rest, pos := t.pos + n }
  print {s t : Source} (h : R s t) (text : String) : R (s.print text) (t.print text)
  act {s t s' t' : Source} (h : R s t) (h' : R s' t') (text : List Char) (action : TokenAction) :
    (act e t.line t.pos t' text action).1 = (act e s.line s.pos s' text action).1.map f ∧
      R (act e s.line s.pos s' text action).2 (act e t.line t.pos t' text action).2

theorem Parallel.next {R : Source → Source → Prop} (hR : Parallel e f R) (h : R s t) :
    (t.next e).1 = (s.next e).1.map f ∧ R (s.next e).2 (t.next e).2 := by
  unfold Source.next
  rw [hR.rest h]
  generalize s.rest.length + 1 = fuel
  induction fuel generalizing s t with
  | zero => exact ⟨rfl, h⟩
  | succ fuel ih =>
    rw [nextWithin, nextWithin, hR.rest h]
    cases hrest : s.rest with
    | nil => exact ⟨rfl, h⟩
    | cons c rest =>
      dsimp only
      split
      · exact ih (hR.skip h rest 1)
      cases firstMatch (tokenRules e) (c :: rest) with
      | none =>
        dsimp only
        split
        · exact ⟨congrArg some (hR.token h _ _), hR.skip h rest 1⟩
        · exact ih (hR.print (hR.skip h rest 1) _)
      | some found =>
        obtain ⟨action, text, left⟩ := found
        have hact := hR.act h (hR.skip h left text.length) text action
        dsimp only
        generalize Source.act e s.line s.pos _ text action = a at hact
        generalize Source.act e t.line t.pos _ text action = b at hact
        obtain ⟨o, s'⟩ := a
        obtain ⟨_, t'⟩ := b
        obtain ⟨rfl, hact⟩ := hact
        cases o with
        | some t => exact ⟨rfl, hact⟩
        | none => exact ih hact

theorem length_of_firstMatch
    (h : firstMatch (tokenRules e) cs = some (action, text, left)) : left.length < cs.length := by
  obtain ⟨r, hr, -, hrun, -⟩ := exists_of_firstMatch h
  have hleast : ∀ r ∈ tokenRules e, 0 < r.pattern.least := by cases e <;> decide
  have hpos := hleast r hr
  have hle := (Pattern.suffix_of_run hrun).2
  omega

theorem length_of_taken (h : s.taken e = some (o, s')) : s'.rest.length < s.rest.length := by
  unfold taken at h
  cases hrest : s.rest with
  | nil =>
    rw [hrest] at h
    cases h
  | cons c rest =>
    rw [hrest] at h
    dsimp only at h
    split at h
    · cases h
      exact Nat.lt_succ_self _
    split at h
    · rename_i action text left hmatch
      have hleft : s'.rest = left := by
        cases action <;> cases h <;> rfl
      exact hleft ▸ length_of_firstMatch hmatch
    · split at h <;> cases h <;> exact Nat.lt_succ_self _

/-- What holds at the end of a text, of every token that is taken and on the way to it holds of the next
token. -/
theorem next_induction {R : Source → Option Token × Source → Prop} (hend : ∀ s, s.rest = [] → R s (none, s))
    (htoken : ∀ {s t s'}, s.taken e = some (some t, s') → R s (some t, s'))
    (hpass : ∀ {s s' r}, s.taken e = some (none, s') → R s' r → R s r) (s : Source) : R s (s.next e) := by
  suffices hwithin : ∀ fuel s, s.rest.length < fuel → R s (s.nextWithin e fuel) from
    hwithin _ s (Nat.lt_succ_self _)
  intro fuel
  induction fuel with
  | zero => exact fun s h => absurd h (Nat.not_lt_zero _)
  | succ fuel ih =>
    intro s hfuel
    rw [nextWithin_succ]
    split
    · rename_i hnone
      refine hend s ?_
      unfold taken at hnone
      repeat' split at hnone
      all_goals first | assumption | cases hnone
    · rename_i htaken
      exact htoken htaken
    rename_i htaken
    have hlt := length_of_taken htaken
    exact hpass htaken (ih _ (by omega))

/-- A token takes some of the text, and without one the text has ended. -/
theorem rest_next (s : Source) : if (s.next e).1 = none then (s.next e).2.rest = [] else
    (s.next e).2.rest.length < s.rest.length := by
  refine next_induction (R := fun s r => if r.1 = none then r.2.rest = [] else r.2.rest.length < s.rest.length)
    (fun s h => h) length_of_taken (fun {_ _ r} h hr => ?_) s
  by_cases hnone : r.1 = none
  · rwa [if_pos hnone] at hr ⊢
  · rw [if_neg hnone] at hr ⊢
    exact hr.trans (length_of_taken h)

end Source

inductive Scans (e : Edition) : Source → List Token → Prop
  | stop {s s' : Source} (h : s.next e = (none, s')) (h' : s'.next e = (none, s')) : Scans e s []
  | token {s s' : Source} {t : Token} {ts : List Token} (h : s.next e = (some t, s'))
    (hts : Scans e s' ts) : Scans e s (t :: ts)

variable {e : Edition} {s : Source} {ts : List Token}

theorem scans_tokens (e : Edition) (s : Source) : Scans e s (s.tokens e).1 := by
  suffices hwithin : ∀ fuel (s : Source), s.rest.length < fuel → Scans e s (s.tokensWithin e fuel).1 from
    hwithin _ s (Nat.lt_succ_self _)
  intro fuel
  induction fuel with
  | zero => exact fun s h => absurd h (Nat.not_lt_zero _)
  | succ fuel ih =>
    intro s hfuel
    have hrest := s.rest_next (e := e)
    rw [Source.tokensWithin]
    generalize hnext : s.next e = r at hrest ⊢
    obtain ⟨_ | t, s'⟩ := r
    · have hend : s'.next e = (none, s') := by rw [Source.next, Source.nextWithin, show s'.rest = [] from hrest]
      exact .stop hnext hend
    · have hlt : s'.rest.length < s.rest.length := hrest
      exact .token hnext (ih s' (by omega))

namespace Scans

theorem of_next (h : Scans e s' ts) (heq : s.next e = s'.next e) : Scans e s ts := by
  cases h with
  | stop h h' => exact .stop (heq.trans h) h'
  | token h hts => exact .token (heq.trans h) hts

theorem tokens_eq (h : Scans e s ts) : (s.tokens e).1 = ts := by
  have h' := scans_tokens e s
  generalize (s.tokens e).1 = ts' at h'
  induction h generalizing ts' with
  | stop h =>
    cases h' with
    | stop => rfl
    | token h' => cases h.symm.trans h'
  | token h _ ih =>
    cases h' with
    | stop h' => cases h.symm.trans h'
    | token h' hts' =>
      cases h.symm.trans h'
      rw [ih _ hts']

theorem length_le (h : Scans e s ts) : ts.length ≤ s.rest.length := by
  induction h with
  | stop => exact Nat.zero_le _
  | @token s s' _ _ hnext _ ih =>
    have hlt := s.rest_next (e := e)
    rw [hnext] at hlt
    exact Nat.succ_le_of_lt (ih.trans_lt hlt)

end Scans

end Tabc
