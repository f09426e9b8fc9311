import Tabc.Proofs.Nesting.Blocks

/-!
# What the outline remembers

`Tracks` ties the outline of the statements read so far to the open blocks. As long as the statements are
`Sheltered`, the owners that the outline finds are those of the blocks (`forest_eq_treesOf`).
-/

open List

namespace Tabc

open Outline (closeTo)

variable {e : Edition} {t : Nat}

def expectedAfter (expected : Nat) (s : Statement) : Nat :=
  (if s.tabs = 0 then expected else s.tabs) + if s.node.isCompound then 1 else 0

def opensAfter (s : Statement) : Bool := s.node.isCompound || s.tabs != 0

/-- Every statement with tabs follows in an open block and has no more tabs than expected. The tabs
expected are those of the last indented statement, and one more for each statement with a body from
there on. -/
def Sheltered : Nat → Bool → List Statement → Prop
  | _, _, [] => True
  | expected, opened, s :: rest =>
    (s.tabs = 0 ∨ opened = true ∧ s.tabs ≤ expected) ∧ Sheltered (expectedAfter expected s) (opensAfter s) rest

instance decidableSheltered : (expected : Nat) → (opened : Bool) → (l : List Statement) →
    Decidable (Sheltered expected opened l)
  | _, _, [] => .isTrue trivial
  | expected, _, s :: rest =>
    have := decidableSheltered (expectedAfter expected s) (opensAfter s) rest
    inferInstanceAs (Decidable (_ ∧ _))

inductive Repeats : List Owner → List Owner → Prop
  | nil : Repeats [] []
  | next (b : Owner) {bs os : List Owner} (h : Repeats bs os) : Repeats (b :: bs) (b :: os)
  | again {b : Owner} {bs os : List Owner} (h : Repeats (b :: bs) os) : Repeats (b :: bs) (b :: os)

variable {bs : List Owner} {b : Owner} {s : Statement} {l : List Statement}

/-- Closing leads to the innermost block above, or to the outermost one if none is. -/
theorem closeTo_of_repeats {os : List Owner} (h : Repeats bs os ∨ Repeats (b :: bs) os) :
    (∀ c cs, above t (b :: bs) = c :: cs → ∃ rest, closeTo t os b = (rest, c) ∧
      (Repeats cs rest ∨ Repeats (c :: cs) rest)) ∧
    (above t (b :: bs) = [] → closeTo t os b = ([], (b :: bs).getLast (cons_ne_nil b bs))) := by
  induction os generalizing b bs with
  | nil =>
    rcases h with h | h
    · cases h
      refine ⟨fun c cs hc => ⟨[], ?_, .inl ?_⟩, fun _ => rfl⟩
      · have hmem : c ∈ [b] := (dropWhile_suffix _).subset (hc ▸ mem_cons_self)
        rw [mem_singleton.1 hmem, closeTo]
      have hlen := (dropWhile_suffix (fun o : Owner => decide (t ≤ o.tabs)) (l := [b])).length_le
      unfold above at hc
      rw [hc] at hlen
      obtain rfl : cs = [] := by simpa using hlen
      exact .nil
    · cases h
  | cons p rest ih =>
    by_cases hclosed : t ≤ b.tabs
    · rw [closeTo, if_pos hclosed]
      rcases h with h | h
      · cases h with
        | next _ h =>
          rw [above_cons_of_le hclosed]
          exact ih (.inl h)
        | again h =>
          rw [above_cons_of_le hclosed]
          exact ih (.inr h)
      · cases h with
        | next _ h => exact ih (.inl h)
        | again h => exact ih (.inr h)
    · rw [closeTo, if_neg hclosed, above_cons_of_lt (by omega)]
      refine ⟨fun c cs hc => ⟨p :: rest, ?_, ?_⟩, nofun⟩
      · rw [(List.cons.inj hc).1]
      · rw [← (List.cons.inj hc).1, ← (List.cons.inj hc).2]
        exact h

/-- The outline remembers the open blocks. Without open blocks it may still remember one that is
closed. -/
inductive Tracks : Outline → List Owner → Prop
  | start : Tracks .start []
  | closed {a : Owner} {expected : Nat} (ha : a.tabs = 0) (hpos : 0 < expected) : Tracks ⟨[], some a, expected⟩ []
  | opened {b : Owner} {bs os : List Owner} {expected : Nat} (hos : Repeats (b :: bs) os)
    (hbottom : ((b :: bs).getLast (cons_ne_nil b bs)).tabs = 0) (hlt : b.tabs < expected) :
    Tracks ⟨os, some b, expected⟩ (b :: bs)

theorem above_ne_nil (h : ((b :: bs).getLast (cons_ne_nil b bs)).tabs = 0) (ht : 0 < t) : above t (b :: bs) ≠ [] := by
  intro hnil
  have hall := dropWhile_eq_nil_iff.1 hnil _ (getLast_mem (cons_ne_nil b bs))
  simp only [h, decide_eq_true_eq] at hall
  omega

theorem getLast_above {c : Owner} {cs : List Owner} (h : above t (b :: bs) = c :: cs) :
    (c :: cs).getLast (cons_ne_nil c cs) = (b :: bs).getLast (cons_ne_nil b bs) := by
  obtain ⟨pre, hpre⟩ := dropWhile_suffix (fun o : Owner => decide (t ≤ o.tabs))
  unfold above at h
  rw [h] at hpre
  simp only [← hpre]
  rw [getLast_append_of_ne_nil]

variable {o : Outline} {blocks : List Owner}

theorem place_of_lt (he : e ≠ .first) (h : t < o.expected) : o.place e t = o.dedent t := by
  unfold Outline.place
  rw [if_neg fun hc => h.ne hc.1, if_pos h]
  cases e with
  | first => exact absurd rfl he
  | _ => rfl

theorem Tracks.place_zero (he : e ≠ .first) (h : Tracks o blocks) :
    ∃ o', o.place e 0 = (none, o') ∧ Tracks o' [] ∧ o'.expected = o.expected := by
  cases h with
  | start => exact ⟨.start, rfl, .start, rfl⟩
  | @closed a expected ha hpos =>
    refine ⟨⟨[], some a, expected⟩, ?_, .closed ha hpos, rfl⟩
    rw [place_of_lt he hpos]
    simp [Outline.dedent, closeTo, ha]
  | @opened b bs os expected hos hbottom hlt =>
    have hclose := (closeTo_of_repeats (.inr hos)).2 (above_zero _)
    refine ⟨⟨[], some _, expected⟩, ?_, .closed hbottom (by omega), rfl⟩
    rw [place_of_lt he (Nat.zero_lt_of_lt hlt)]
    simp [Outline.dedent, hclose, hbottom]

/-- A sheltered statement with tabs belongs to the innermost block above it. -/
theorem Tracks.place_pos (he : e ≠ .first) (h : Tracks o blocks) (hne : blocks ≠ []) (hpos : 0 < t)
    (ht : t ≤ o.expected) :
    ∃ c cs o', above t blocks = c :: cs ∧ o.place e t = (some c, o') ∧ Tracks o' (c :: cs) ∧ o'.expected = t := by
  cases h with
  | start => exact absurd rfl hne
  | closed => exact absurd rfl hne
  | @opened b bs os expected hos hbottom hlt =>
    rcases ht.eq_or_lt with rfl | ht
    · refine ⟨b, bs, _, above_cons_of_lt hlt bs, ?_, .opened hos hbottom hlt, rfl⟩
      simp [Outline.place]
    obtain ⟨c, cs, hc⟩ := exists_cons_of_ne_nil (above_ne_nil hbottom hpos)
    obtain ⟨rest, hclose, hrest⟩ := (closeTo_of_repeats (.inr hos)).1 c cs hc
    have hct : c.tabs < t := tabs_lt_of_above hc
    have hrepeats : Repeats (c :: cs) (c :: rest) := by
      rcases hrest with hrest | hrest
      · exact .next c hrest
      · exact .again hrest
    refine ⟨c, cs, ⟨c :: rest, some c, t⟩, hc, ?_, .opened hrepeats (by rw [getLast_above hc, hbottom]) hct, rfl⟩
    rw [place_of_lt he ht]
    simp [Outline.dedent, hclose, hct]

theorem Tracks.enter (h : Tracks o blocks) (hs : blocks = [] → s.tabs = 0) (hle : s.tabs ≤ o.expected) (index : Nat) :
    Tracks (o.enter index s) (if s.node.isCompound then ⟨index, s.tabs⟩ :: blocks else blocks) := by
  unfold Outline.enter
  split
  · cases h with
    | start | closed => exact .opened (.next _ .nil) (hs rfl) (Nat.lt_succ_of_le hle)
    | opened hos hbottom _ =>
      exact .opened (.next _ hos) (by rw [getLast_cons (cons_ne_nil _ _), hbottom]) (Nat.lt_succ_of_le hle)
  · exact h

theorem expected_enter (o : Outline) (index : Nat) (s : Statement) :
    (o.enter index s).expected = o.expected + if s.node.isCompound then 1 else 0 := by
  unfold Outline.enter
  split <;> rfl

theorem Tracks.step (he : e ≠ .first) (h : Tracks o blocks)
    (hs : s.tabs = 0 ∨ blocks ≠ [] ∧ s.tabs ≤ o.expected) (index : Nat) :
    ∃ o', o.place e s.tabs = ((above s.tabs blocks).head?, o') ∧ Tracks (o'.enter index s) (entered index s blocks) ∧
      (o'.enter index s).expected = expectedAfter o.expected s ∧
      (s.tabs = 0 ∨ above s.tabs blocks ≠ []) := by
  rcases Nat.eq_zero_or_pos s.tabs with h0 | hpos
  · obtain ⟨o', hplace, hT, hexpected⟩ := h.place_zero he
    have habove : above s.tabs blocks = [] := by rw [h0, above_zero]
    have hT' := hT.enter (fun _ => h0) (h0 ▸ Nat.zero_le _) index
    rw [← habove] at hT'
    refine ⟨o', by rw [h0, hplace, above_zero, head?_nil], hT', ?_, .inl h0⟩
    rw [expected_enter, hexpected, expectedAfter, if_pos h0]
  · obtain ⟨hne, hle⟩ := hs.resolve_left hpos.ne'
    obtain ⟨c, cs, o', habove, hplace, hT, hexpected⟩ := h.place_pos he hne hpos hle
    have hT' := hT.enter nofun hexpected.ge index
    rw [← habove] at hT'
    refine ⟨o', by rw [hplace, habove, head?_cons], hT', ?_, .inr (by simp [habove])⟩
    rw [expected_enter, hexpected, expectedAfter, if_neg hpos.ne']

theorem entered_eq_nil_iff (blocks : List Owner) {index : Nat} (hs : s.tabs = 0 ∨ above s.tabs blocks ≠ []) :
    entered index s blocks = [] ↔ opensAfter s = false := by
  unfold entered opensAfter
  by_cases hc : s.node.isCompound
  · simp [hc]
  by_cases h0 : s.tabs = 0
  · simp [hc, h0, above_zero]
  · simp [hc, h0, hs.resolve_left h0]

theorem Tracks.owners_eq (he : e ≠ .first) {opened : Bool} (h : Tracks o blocks)
    (hopened : blocks = [] ↔ opened = false) (hl : Sheltered o.expected opened l) (index : Nat) :
    o.owners e index l = blockOwners blocks index l ∧ Housed blocks index l := by
  induction l generalizing o blocks opened index with
  | nil => exact ⟨rfl, trivial⟩
  | cons s rest ih =>
    obtain ⟨hs, hrest⟩ := hl
    have hs' : s.tabs = 0 ∨ blocks ≠ [] ∧ s.tabs ≤ o.expected := by
      refine hs.imp_right fun ⟨hopen, hle⟩ => ⟨fun hnil => ?_, hle⟩
      rw [hopened.1 hnil] at hopen
      cases hopen
    obtain ⟨o', hplace, hT, hexpected, habove⟩ := h.step he hs' index
    rw [← hexpected] at hrest
    obtain ⟨howners, hhoused⟩ := ih hT (entered_eq_nil_iff blocks habove) hrest (index + 1)
    refine ⟨?_, habove, hhoused⟩
    rw [Outline.owners, hplace, blockOwners]
    dsimp only
    rw [howners]

theorem forest_eq_treesOf (he : e ≠ .first) (hl : Sheltered 0 false l) : forest e l = treesOf e l := by
  obtain ⟨howners, hhoused⟩ := Tracks.start.owners_eq he (by simp) hl 0
  unfold forest
  rw [howners]
  exact (assemble_blockOwners ⟨by simp, .nil⟩ hhoused).roots

end Tabc
