import Tabc.Proofs.Scanning.Words

/-!
# Lexemes

What stands behind a space does not change the token before it, so texts that alone are one token stay these
tokens when they are joined by spaces (`tokens_joined`).
-/

namespace Tabc

variable {s s' : Source} {c : Char} {cs v : List Char} {k : TokenKind} {a : Atom}

/-- A text that alone is one token, and nothing else. -/
def IsLexeme (text : List Char) (k : TokenKind) (a : Atom) : Prop :=
  ∃ s, (Source.fresh.input text).next .fourth = (some ⟨k, a, 1, 0⟩, s) ∧ s.rest = []

theorem pos_of_taken {t : Token} (h : s.taken .fourth = some (some t, s')) : t.pos = s.pos := by
  obtain ⟨p, hp, hbetween⟩ := between_of_taken h
  cases p with
  | token u text =>
    cases hp
    exact hbetween.fits.2.2.1
  | _ => cases hp

/-- A token that begins where the source stands is taken at once. -/
theorem taken_of_next {t : Token} (h : s.next .fourth = (some t, s')) (hpos : t.pos = s.pos) :
    s.taken .fourth = some (some t, s') := by
  have hlater : ∀ t ∈ (s.next .fourth).1, s.taken .fourth = some (s.next .fourth) ∨ s.pos < t.pos := by
    refine Source.next_induction (R := fun s r => ∀ t ∈ r.1, s.taken .fourth = some r ∨ s.pos < t.pos)
      (fun _ _ _ ht => by cases ht) (fun h _ _ => .inl h) (fun {s s' r} h hr t ht => .inr ?_) s
    obtain ⟨p, -, hp⟩ := between_of_taken h
    have hlt := Source.length_of_taken h
    rw [hp.rest, List.length_append] at hlt
    have hle : s'.pos ≤ t.pos := by
      rcases hr t ht with htaken | hlt
      · obtain ⟨o, s''⟩ := r
        cases ht
        exact (pos_of_taken htaken).ge
      · exact hlt.le
    have hpos := hp.pos
    omega
  rcases hlater t (by rw [h]; rfl) with htaken | hlt
  · rw [htaken, h]
  · omega

theorem run_append_space (hsharp : c ≠ '#')
    (hquoted : c = '"' ∨ c = '\'' → Pattern.quoted.run (c :: cs) some ≠ none) (v : List Char) :
    ∀ r ∈ tokenRules .fourth,
      r.pattern.run (c :: cs ++ ' ' :: v) some = (r.pattern.run (c :: cs) some).map (· ++ ' ' :: v) := by
  have hrules : ∀ r ∈ tokenRules .fourth,
      r.pattern.avoids ' ' = true ∨ r.pattern = .quoted ∨ r.pattern = .comment := by decide
  intro r hr
  rcases hrules r hr with h | h | h
  · exact Pattern.run_append v h (fun _ => rfl) _
  · have hclosing : ∀ mark, Pattern.closing mark false cs ≠ none →
        Pattern.closing mark false (cs ++ ' ' :: v) = (Pattern.closing mark false cs).map (· ++ ' ' :: v) := by
      intro mark hmark
      obtain ⟨left, hleft⟩ := Option.ne_none_iff_exists'.1 hmark
      rw [hleft, Pattern.closing_append hleft, Option.map_some]
    rw [Pattern.run_quoted] at hquoted
    rw [h, List.cons_append, Pattern.run_quoted, Pattern.run_quoted]
    split
    · exact hclosing _ (by simp_all)
    split
    · exact hclosing _ (by simp_all)
    · rfl
  · simp [h, Pattern.comment, Pattern.run, CharClass.holds_single, hsharp]

theorem ruleFor_map (h : ∀ r ∈ rules, r.pattern.run (cs ++ v) some = (r.pattern.run cs some).map (· ++ v)) :
    ruleFor rules (cs ++ v) = (ruleFor rules cs).map fun found => (found.1, found.2 ++ v) := by
  induction rules with
  | nil => rfl
  | cons r rules ih =>
    obtain ⟨hr, hrules⟩ := List.forall_mem_cons.1 h
    rw [ruleFor, ruleFor, hr, ih hrules]
    cases r.pattern.run cs some <;> rfl

theorem run_none_of_mark (cs : List Char) : ∀ r ∈ tokenRules .fourth,
    (r.pattern ≠ .quoted → r.pattern.run ('"' :: cs) some = none ∧ r.pattern.run ('\'' :: cs) some = none) ∧
    (r.action ≠ .skip → r.pattern.run ('#' :: cs) some = none) := by
  intro r hr
  fin_cases hr
  case «5» => exact ⟨fun h => absurd rfl h, fun _ => rfl⟩
  case «12» => exact ⟨fun _ => ⟨rfl, rfl⟩, fun h => absurd rfl h⟩
  all_goals exact ⟨fun _ => ⟨rfl, rfl⟩, fun _ => rfl⟩

theorem act_anywhere (h : Source.act .fourth line pos s text action = (some ⟨k, a, line, pos⟩, s')) : s'.rest = s.rest ∧
    ∀ line pos (s : Source), ∃ s', Source.act .fourth line pos s text action = (some ⟨k, a, line, pos⟩, s') ∧
      s'.rest = s.rest ∧ s'.pos = s.pos := by
  cases action <;> cases h <;> exact ⟨rfl, fun _ _ _ => ⟨_, rfl, rfl, rfl⟩⟩

/-- A lexeme is the same token wherever it stands, up to a space or the end of the text. -/
theorem next_of_lexeme (h : IsLexeme text k a) (hk : k ≠ .other '"' ∧ k ≠ .other '\'')
    (hrest : s.rest = text ++ v) (hv : v = [] ∨ ∃ u, v = ' ' :: u) :
    ∃ s', s.next .fourth = (some ⟨k, a, s.line, s.pos⟩, s') ∧ s'.rest = v ∧ s'.pos = s.pos + text.length := by
  obtain ⟨s0, hnext, hend⟩ := h
  have htaken := taken_of_next hnext rfl
  unfold Source.taken at htaken
  cases text with
  | nil => cases htaken
  | cons c cs =>
    have hrule : c ≠ '#' → (c = '"' ∨ c = '\'' → Pattern.quoted.run (c :: cs) some ≠ none) →
        ruleFor (tokenRules .fourth) (c :: cs ++ v) =
          (ruleFor (tokenRules .fourth) (c :: cs)).map fun found => (found.1, found.2 ++ v) := by
      intro hsharp hquoted
      rcases hv with rfl | ⟨u, rfl⟩
      · simp
      · exact ruleFor_map (run_append_space hsharp hquoted u)
    dsimp only [Source.input] at htaken
    split at htaken
    · cases htaken
    rename_i hc
    have hc : c ≠ ' ' := by simpa using hc
    split at htaken
    · rename_i action text left hmatch
      have hact := Option.some.inj htaken
      obtain ⟨hleft, hanywhere⟩ := act_anywhere hact
      obtain rfl : left = [] := hleft.symm.trans hend
      obtain ⟨r, hr, haction, hrun, htext⟩ := exists_of_firstMatch hmatch
      have hfound := ruleFor_of_firstMatch hmatch
      obtain rfl : text = c :: cs := by simpa using htext
      obtain ⟨hmarks, hsharp⟩ := run_none_of_mark cs r hr
      have hrule := hrule ?_ ?_
      · rw [hfound] at hrule
        obtain ⟨s', hact', hrest', hpos'⟩ := hanywhere s.line s.pos { s with rest := v, pos := s.pos + (c :: cs).length }
        exact ⟨s', next_of_ruleFor cs hrest hc hrule hact', hrest', hpos'⟩
      · rintro rfl
        have hskip : r.action ≠ .skip := by
          intro h
          rw [← haction, h] at hact
          cases hact
        cases hrun.symm.trans (hsharp hskip)
      · intro hquote hnone
        have hother : r.pattern ≠ .quoted := by
          intro h
          rw [h, hnone] at hrun
          cases hrun
        rcases hquote with rfl | rfl
        · cases hrun.symm.trans (hmarks hother).1
        · cases hrun.symm.trans (hmarks hother).2
    · rename_i hnone
      split at htaken <;> cases htaken
      rename_i hpunctuation
      obtain rfl : cs = [] := hend
      have hrule := hrule (by rintro rfl; cases hpunctuation) (by rintro (rfl | rfl) <;> simp at hk)
      rw [firstMatch_eq, Option.map_eq_none_iff] at hnone
      have hnone' : firstMatch (tokenRules .fourth) ([c] ++ v) = none := by
        rw [firstMatch_eq, hrule, hnone]
        rfl
      refine ⟨{ s with rest := v, pos := s.pos + 1 }, next_of_taken ?_, rfl, rfl⟩
      rw [List.singleton_append] at hrest hnone'
      simp only [Source.taken, hrest, beq_iff_eq, hc, if_false, hnone', hpunctuation, if_true]

/-- Kinds, values and positions of lexemes with single spaces between them. -/
def placed : Nat → List (List Char × TokenKind × Atom) → List (TokenKind × Atom × Nat)
  | _, [] => []
  | pos, w :: ws => (w.2.1, w.2.2, pos) :: placed (pos + w.1.length + 1) ws

theorem exists_scans_joined (h : ∀ w ∈ ws, IsLexeme w.1 w.2.1 w.2.2 ∧ w.2.1 ≠ .other '"' ∧ w.2.1 ≠ .other '\'')
    (hrest : s.rest = [' '].intercalate (ws.map Prod.fst)) :
    ∃ ts, Scans .fourth s ts ∧ ts.map (fun t => (t.kind, t.value, t.pos)) = placed s.pos ws := by
  induction ws generalizing s with
  | nil =>
    have hstop : s.next .fourth = (none, s) := by
      rw [Source.next, Source.nextWithin, hrest]
      rfl
    exact ⟨[], .stop hstop hstop, rfl⟩
  | cons w ws ih =>
    obtain ⟨⟨hw, hk⟩, hws⟩ := List.forall_mem_cons.1 h
    cases ws with
    | nil =>
      obtain ⟨s', hnext, hend, -⟩ := next_of_lexeme hw hk (by simpa using hrest) (.inl rfl)
      have hstop : s'.next .fourth = (none, s') := by rw [Source.next, Source.nextWithin, hend]
      exact ⟨_, .token hnext (.stop hstop hstop), rfl⟩
    | cons w' ws =>
      obtain ⟨s', hnext, hrest', hpos⟩ := next_of_lexeme hw hk
        (by simpa using hrest) (.inr ⟨_, rfl⟩)
      obtain ⟨ts, hscans, hts⟩ := ih hws (s := { s' with rest := _, pos := s'.pos + 1 }) rfl
      refine ⟨_, .token hnext (hscans.of_next (next_space hrest')), ?_⟩
      rw [List.map_cons, hts, hpos]
      rfl

/-- Lexemes with single spaces between them are the same tokens as alone. -/
theorem tokens_joined (ws : List (List Char × TokenKind × Atom))
    (h : ∀ w ∈ ws, IsLexeme w.1 w.2.1 w.2.2 ∧ w.2.1 ≠ .other '"' ∧ w.2.1 ≠ .other '\'') :
    ((Source.fresh.input ([' '].intercalate (ws.map Prod.fst))).tokens .fourth).1.map
      (fun t => (t.kind, t.value, t.pos)) = placed 0 ws := by
  obtain ⟨ts, hscans, hts⟩ := exists_scans_joined (s := Source.fresh.input ([' '].intercalate (ws.map Prod.fst))) h rfl
  rw [hscans.tokens_eq]
  exact hts

theorem tokens_joined_assignment : ((Source.fresh.input
    ([' '].intercalate [['x'], ['='], ['"', 'a', ' ', 'b', '"']])).tokens .fourth).1.map (fun t => (t.kind, t.value, t.pos)) =
      [(.ident, .text "x", 0), (.assign, .text "=", 2), (.string, .text "a b", 4)] :=
  tokens_joined [(['x'], .ident, .text "x"), (['='], .assign, .text "="), (['"', 'a', ' ', 'b', '"'], .string, .text "a b")] <| by
    simp only [List.forall_mem_cons]
    exact ⟨⟨⟨_, rfl, rfl⟩, by decide⟩, ⟨⟨_, rfl, rfl⟩, by decide⟩, ⟨⟨_, rfl, rfl⟩, by decide⟩, by simp⟩

end Tabc
