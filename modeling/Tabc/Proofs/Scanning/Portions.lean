import Tabc.Proofs.Scanning.Patterns

/-!
# The portions of a text

The scanner cuts every text into portions (`tokens_account`): tokens, spaces, runs of tabs, comments and
characters that it reports.
-/

open List

namespace Tabc

open CharClass
open List (append_nil)

inductive Portion where
  | token (t : Token) (text : List Char)
  | space
  | tabs (line : Nat) (text : List Char)
  | comment (text : List Char)
  | illegal (c : Char)

/-- The line breaks of a token. -/
def Token.breaks (t : Token) : Nat := if t.kind = .newline then (tokenText (.atom t.value)).length else 0

namespace Portion

def chars : Portion → List Char
  | token _ text | tabs _ text | comment text => text
  | space => [' ']
  | illegal c => [c]

def token? : Portion → Option Token
  | token t _ => some t
  | _ => none

/-- A line and how many tabs were met on it. -/
def run? : Portion → Option (Nat × Nat)
  | tabs line text => some (line, text.length)
  | _ => none

def report : Portion → String
  | illegal c => s!"Illegal character '{c}'" ++ "\n"
  | _ => ""

def breaks : Portion → Nat
  | token t text => if t.kind = .newline then text.count '\n' else 0
  | _ => 0

/-- A token is what the first rule that matches makes of its text, or a character for itself. -/
def Made (t : Token) (text rest : List Char) : Prop :=
  (∃ action s s', firstMatch (tokenRules .fourth) (text ++ rest) = some (action, text, rest) ∧
    Source.act .fourth t.line t.pos s text action = (some t, s')) ∨
  ∃ c, text = [c] ∧ firstMatch (tokenRules .fourth) (c :: rest) = none ∧ isPunctuation c = true ∧
    t = ⟨.other c, .text c.toString, t.line, t.pos⟩

/-- Whether a portion is what it says, at its place in the text and before what follows it. -/
def Fits (line pos : Nat) (rest : List Char) : Portion → Prop
  | token t text => text ≠ [] ∧ t.line = line ∧ t.pos = pos ∧ Made t text rest
  | space => True
  | tabs l text => l = line ∧ text ≠ [] ∧ (∀ c ∈ text, c = '\t') ∧ rest.head? ≠ some '\t'
  | comment text => text.head? = some '#' ∧ '\n' ∉ text ∧ ∀ c ∈ rest.head?, c = '\n'
  | illegal c => firstMatch (tokenRules .fourth) (c :: rest) = none ∧ isPunctuation c = false

end Portion

/-- The portions of a text from a line and a position on. -/
inductive Tiling : Nat → Nat → List Char → List Portion → Prop
  | nil (line pos : Nat) : Tiling line pos [] []
  | cons {line pos : Nat} {rest : List Char} {p : Portion} {ps : List Portion} (h : p.Fits line pos rest)
    (hrest : Tiling (line + p.breaks) (pos + p.chars.length) rest ps) : Tiling line pos (p.chars ++ rest) (p :: ps)

namespace Tiling

variable {line pos : Nat} {text : List Char} {ps : List Portion}

theorem chars (h : Tiling line pos text ps) : ps.flatMap Portion.chars = text := by
  induction h with
  | nil => rfl
  | cons _ _ ih => rw [flatMap_cons, ih]

theorem increasing (h : Tiling line pos text ps) :
    (∀ t ∈ ps.filterMap Portion.token?, pos ≤ t.pos) ∧
      ((ps.filterMap Portion.token?).map Token.pos).Pairwise (· < ·) := by
  induction h with
  | nil => simp
  | @cons line pos rest p ps h _ ih =>
    obtain ⟨hle, hlt⟩ := ih
    cases p with
    | token t text =>
      have hpos : t.pos = pos := h.2.2.1
      have hlength := length_pos_iff.2 h.1
      simp only [Portion.chars] at hle
      rw [filterMap_cons_some (f := Portion.token?) rfl, map_cons, pairwise_cons, forall_mem_map]
      refine ⟨forall_mem_cons.2 ⟨hpos.ge, fun u hu => ?_⟩, fun u hu => ?_, hlt⟩
      · have := hle u hu
        omega
      · have := hle u hu
        omega
    | _ =>
      exact ⟨fun u hu => (Nat.le_add_right _ _).trans (hle u hu), hlt⟩

end Tiling

/-- A source and a later one with a portion between them. -/
structure Portion.Between (p : Portion) (s s' : Source) : Prop where
  rest : s.rest = p.chars ++ s'.rest
  fits : p.Fits s.line s.pos s'.rest
  line : s'.line = s.line + p.breaks
  pos : s'.pos = s.pos + p.chars.length
  current : s'.current = s.current
  reached : s'.reached = if p.breaks = 0 then s.reached else s'.line
  breaks : (p.token?.map Token.breaks).getD 0 = p.breaks
  tabs : s'.tabs = s.tabs ++ p.run?.toList
  printed : s'.printed = s.printed ++ p.report

theorem between_of_act (hmatch : firstMatch (tokenRules .fourth) s.rest = some (action, text, left))
    (hact : Source.act .fourth s.line s.pos { s with rest := left, pos := s.pos + text.length } text action = (o, s')) :
    ∃ p : Portion, p.token? = o ∧ p.Between s s' := by
  obtain ⟨r, hr, haction, hrun, htext⟩ := exists_of_firstMatch hmatch
  rw [← htext] at hmatch hrun
  have hne : text ≠ [] := by
    rintro rfl
    exact absurd (Source.length_of_firstMatch hmatch) (lt_irrefl _)
  have hkept : ∀ t : Token, t.kind ≠ .newline → t.line = s.line → t.pos = s.pos →
      Source.act .fourth t.line t.pos { s with rest := left, pos := s.pos + text.length } text action =
        (some t, { s with rest := left, pos := s.pos + text.length }) →
      ∃ p : Portion, p.token? = some t ∧ p.Between s { s with rest := left, pos := s.pos + text.length } := by
    intro t hk hline hpos hact
    have hbreaks : (Portion.token t text).breaks = 0 := if_neg hk
    exact ⟨.token t text, rfl, htext.symm, ⟨hne, hline, hpos, .inl ⟨action, _, _, hmatch, hact⟩⟩, by rw [hbreaks]; rfl,
      rfl, rfl, (if_pos hbreaks).symm, (if_neg hk).trans hbreaks.symm, (append_nil _).symm,
      String.append_empty.symm⟩
  have hrules : ∀ r ∈ tokenRules .fourth, r.action ≠ .nothing ∧ r.action ≠ .keep .newline ∧
      (r.action = .newline → r.pattern = .plus (.one (.single '\n'))) ∧
      (r.action = .tabs → r.pattern = .plus (.one (.single '\t'))) ∧
      (r.action = .skip → r.pattern = .comment) := by decide
  obtain ⟨hnothing, hkeep, hnewline, htabs, hskip⟩ := hrules r hr
  rw [haction] at hnothing hkeep hnewline htabs hskip
  cases action with
  | nothing => exact absurd rfl hnothing
  | keep k =>
    cases hact
    exact hkept _ (fun hk => hkeep (congrArg _ hk)) rfl rfl rfl
  | word =>
    cases hact
    refine hkept _ ?_ rfl rfl rfl
    have hwords : ∀ k ∈ (reserved .fourth).map Prod.snd, k ≠ .newline := by decide
    cases hlook : (reserved .fourth).lookup (String.ofList text) with
    | none => simp
    | some k =>
      obtain ⟨_, _, heq, -⟩ := lookup_eq_some_iff.1 hlook
      exact hwords k (by rw [heq]; simp)
  | truth | quoted | float | integer =>
    cases hact
    exact hkept _ (by simp) rfl rfl rfl
  | newline =>
    cases hact
    rw [hnewline rfl] at hrun
    obtain ⟨c, body, rfl, hc, hbody, -⟩ := Pattern.exists_of_run_headed hrun
    have hall : ∀ d ∈ c :: body, d = '\n' := by simpa [holds_single] using And.intro hc hbody
    have hbreaks : (Portion.token ⟨.newline, .text (String.ofList (c :: body)), s.line, s.pos⟩ (c :: body)).breaks =
      (c :: body).length := count_eq_length.2 fun d hd => (hall d hd).symm
    exact ⟨.token _ (c :: body), rfl, htext.symm, ⟨hne, rfl, rfl, .inl ⟨_, s, _, hmatch, rfl⟩⟩, by rw [hbreaks], rfl, rfl,
      by rw [hbreaks]; rfl, by rw [hbreaks]; exact String.length_ofList, (append_nil _).symm,
      String.append_empty.symm⟩
  | tabs =>
    cases hact
    rw [htabs rfl] at hrun
    obtain ⟨c, body, rfl, hc, hbody, hleft⟩ := Pattern.exists_of_run_headed hrun
    have hall : ∀ d ∈ c :: body, d = '\t' := by simpa [holds_single] using And.intro hc hbody
    have hhead : left.head? ≠ some '\t' := by
      intro hhead
      simpa [holds_single] using hleft _ hhead
    exact ⟨.tabs s.line (c :: body), rfl, htext.symm, ⟨rfl, hne, hall, hhead⟩, rfl, rfl, rfl, rfl, rfl, rfl,
      String.append_empty.symm⟩
  | skip =>
    cases hact
    rw [hskip rfl] at hrun
    obtain ⟨c, body, rfl, hc, hbody, hleft⟩ := Pattern.exists_of_run_headed hrun
    have hbreak : '\n' ∉ c :: body := by
      rw [holds_single, beq_iff_eq] at hc
      rw [hc, mem_cons, not_or]
      exact ⟨by decide, fun h => by simpa [holds_dot] using hbody _ h⟩
    have hhead : ∀ d ∈ left.head?, d = '\n' := fun d hd => by simpa [holds_dot] using hleft d hd
    have hsharp : (c :: body).head? = some '#' := by simpa [holds_single] using hc
    exact ⟨.comment (c :: body), rfl, htext.symm, ⟨hsharp, hbreak, hhead⟩, rfl, rfl, rfl, rfl, rfl,
      (append_nil _).symm, String.append_empty.symm⟩

theorem between_of_taken (h : s.taken .fourth = some (o, s')) : ∃ p : Portion, p.token? = o ∧ p.Between s s' := by
  unfold Source.taken at h
  cases hrest : s.rest with
  | nil =>
    rw [hrest] at h
    cases h
  | cons c rest =>
    rw [hrest] at h
    dsimp only at h
    split at h
    · rename_i hc
      cases h
      rw [beq_iff_eq.1 hc] at hrest
      exact ⟨.space, rfl, hrest, trivial, rfl, rfl, rfl, rfl, rfl, (append_nil _).symm, String.append_empty.symm⟩
    · split at h
      · rename_i hmatch
        exact between_of_act (hrest ▸ hmatch) (Option.some.inj h)
      · rename_i hnone
        split at h <;> rename_i hc <;> cases h
        · have hfits : (Portion.token ⟨.other c, .text c.toString, s.line, s.pos⟩ [c]).Fits s.line s.pos rest :=
            ⟨by simp, rfl, rfl, .inr ⟨c, rfl, hnone, hc, rfl⟩⟩
          exact ⟨.token _ [c], rfl, hrest, hfits, rfl, rfl, rfl, rfl, rfl, (append_nil _).symm,
            String.append_empty.symm⟩
        · exact ⟨.illegal c, rfl, hrest, ⟨hnone, by simpa using hc⟩, rfl, rfl, rfl, rfl, rfl, (append_nil _).symm,
            String.append_assoc⟩

/-- Portions from one source to a later one. -/
structure Portions (ps : List Portion) (s s' : Source) : Prop where
  tiling {qs : List Portion} (h : Tiling s'.line s'.pos s'.rest qs) : Tiling s.line s.pos s.rest (ps ++ qs)
  tabs : s'.tabs = s.tabs ++ ps.filterMap Portion.run?
  printed : s'.printed = s.printed ++ String.join (ps.map Portion.report)

theorem Portions.nil (s : Source) : Portions [] s s := ⟨id, (append_nil _).symm, String.append_empty.symm⟩

theorem Portion.Between.cons (h : p.Between s s') (hps : Portions ps s' s'') : Portions (p :: ps) s s'' := by
  refine ⟨fun hqs => ?_, ?_, ?_⟩
  · have htiling := hps.tiling hqs
    rw [h.line, h.pos] at htiling
    rw [h.rest]
    exact .cons h.fits htiling
  · rw [hps.tabs, h.tabs, List.append_assoc, filterMap_cons]
    cases p.run? <;> rfl
  · rw [hps.printed, h.printed, String.append_assoc, map_cons, String.join_cons]

theorem exists_portions (s : Source) : ∃ ps, ps.filterMap Portion.token? = (s.next .fourth).1.toList ∧
    Portions ps s (s.next .fourth).2 := by
  refine Source.next_induction (R := fun s r => ∃ ps, ps.filterMap Portion.token? = r.1.toList ∧ Portions ps s r.2)
    (fun s _ => ⟨[], rfl, .nil s⟩) (fun h => ?_) (fun h hr => ?_) s
  · obtain ⟨p, hp, hbetween⟩ := between_of_taken h
    exact ⟨[p], by simp [hp], hbetween.cons (.nil _)⟩
  obtain ⟨p, hp, hbetween⟩ := between_of_taken h
  obtain ⟨ps, hps, hportions⟩ := hr
  exact ⟨p :: ps, by rw [filterMap_cons_none hp, hps], hbetween.cons hportions⟩

/-- Every text is cut into portions that follow one another without a gap. Its tokens are those among them, in
the order of their positions, the runs of tabs are remembered with their lines, and just the characters that
no rule takes are reported. -/
theorem tokens_account (text : List Char) : ∃ ps : List Portion, Tiling 1 0 text ps ∧ ps.flatMap Portion.chars = text ∧
    ((Source.fresh.input text).tokens .fourth).1 = ps.filterMap Portion.token? ∧
    (((Source.fresh.input text).tokens .fourth).1.map Token.pos).Pairwise (· < ·) ∧
    ((Source.fresh.input text).tokens .fourth).2.tabs = ps.filterMap Portion.run? ∧
    ((Source.fresh.input text).tokens .fourth).2.printed = String.join (ps.map Portion.report) := by
  suffices hwithin : ∀ fuel (s : Source), s.rest.length < fuel → ∃ ps, Tiling s.line s.pos s.rest ps ∧
      (s.tokensWithin .fourth fuel).1 = ps.filterMap Portion.token? ∧
      (s.tokensWithin .fourth fuel).2.tabs = s.tabs ++ ps.filterMap Portion.run? ∧
      (s.tokensWithin .fourth fuel).2.printed = s.printed ++ String.join (ps.map Portion.report) by
    obtain ⟨ps, htiling, htokens, htabs, hprinted⟩ := hwithin _ (Source.fresh.input text) (Nat.lt_succ_self _)
    refine ⟨ps, htiling, htiling.chars, htokens, ?_, htabs, ?_⟩
    · rw [Source.tokens, htokens]
      exact htiling.increasing.2
    · rw [Source.tokens, hprinted]
      exact String.empty_append
  intro fuel
  induction fuel with
  | zero => exact fun s h => absurd h (Nat.not_lt_zero _)
  | succ fuel ih =>
    intro s hfuel
    obtain ⟨ps, hps, hportions⟩ := exists_portions s
    have hrest := s.rest_next (e := .fourth)
    rw [Source.tokensWithin]
    generalize s.next .fourth = r at hps hportions hrest
    obtain ⟨_ | t, s'⟩ := r
    · have htiling := @hportions.tiling [] (by rw [show s'.rest = [] from hrest]; exact .nil _ _)
      rw [append_nil] at htiling
      exact ⟨ps, htiling, hps.symm, hportions.tabs, hportions.printed⟩
    · have hlt : s'.rest.length < s.rest.length := hrest
      obtain ⟨qs, htiling, htokens, htabs, hprinted⟩ := ih s' (by omega)
      refine ⟨ps ++ qs, hportions.tiling htiling, ?_, ?_, ?_⟩
      · rw [filterMap_append, hps, ← htokens]
        rfl
      · rw [filterMap_append, ← List.append_assoc, ← hportions.tabs]
        exact htabs
      · rw [map_append, String.join_append, ← String.append_assoc, ← hportions.printed]
        exact hprinted

end Tabc
