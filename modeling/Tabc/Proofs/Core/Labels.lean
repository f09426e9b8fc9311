import Tabc.Proofs.Core.Machine
import Tabc.Proofs.Core.Names

/-!
# Labels in the code of core programs

Each piece of a program has a range of numbers for its labels (`Block.within_labels`). If all chains end with
a last alternative, no label stands twice (`Block.nodup_labels`).
-/

open List

namespace Tabc.Core

open Flat

theorem labels_append (a b : List Instr) : labels (a ++ b) = labels a ++ labels b := by simp [labels]

theorem labels_cons (i : Instr) (c : List Instr) : labels (i :: c) = (labelOf? i).toList ++ labels c := by
  cases h : labelOf? i <;> simp [labels, h]

@[simp] theorem labels_nil : labels [] = [] := rfl

theorem labels_term (t : Term) (r : Nat) : labels (t.code r) = [] := by
  induction t generalizing r with
  | const a => rfl
  | var x => rfl
  | unary op a ih => simp [Term.code, labels_append, ih]; rfl
  | binary a op b iha ihb => simp [Term.code, labels_append, iha, ihb]; rfl

/-- The numbers of these labels lie above `l` and up to `l + n`. -/
def Within (l n : Nat) (names : List String) : Prop := ∀ x ∈ names, ∃ k, l < k ∧ k ≤ l + n ∧ Numbered k x

namespace Within

variable {l m n : Nat} {a b names : List String}

theorem mono (h : Within l n names) (hl : l' ≤ l) (hn : l + n ≤ l' + n') : Within l' n' names :=
  fun x hx => let ⟨k, h1, h2, hk⟩ := h x hx; ⟨k, by omega, by omega, hk⟩

theorem nil (l n : Nat) : Within l n [] := by simp [Within]

theorem cons (hx : Numbered k x) (hl : l < k) (hn : k ≤ l + n) (h : Within l n names) : Within l n (x :: names) := by
  rintro y (_ | ⟨_, hy⟩)
  · exact ⟨k, hl, hn, hx⟩
  · exact h y hy

theorem union (ha : Within l n a) (hb : Within l n b) : Within l n (a ++ b) :=
  fun x hx => (mem_append.mp hx).elim (ha x) (hb x)

theorem append (ha : Within l m a) (hb : Within (l + m) n b) : Within l (m + n) (a ++ b) :=
  (ha.mono le_rfl (by omega)).union (hb.mono (by omega) (by omega))

theorem disjoint (ha : Within l m a) (hb : Within (l + m) n b) : a.Disjoint b := by
  intro x hx hy
  obtain ⟨j, -, hj, hjx⟩ := ha x hx
  obtain ⟨k, hk, -, hkx⟩ := hb x hy
  have := hjx.inj hkx
  omega

theorem two (hx : Numbered (l + 1) x) (hy : Numbered (l + 2) y) : Within l 2 [x, y] :=
  cons hx (by omega) (by omega) (cons hy (by omega) (by omega) (nil l 2))

end Within

theorem Numbered.ne (hx : Numbered j x) (hy : Numbered k y) (h : j ≠ k) : x ≠ y := by
  rintro rfl
  exact h (hx.inj hy)

attribute [local simp] labels_append labels_cons labels_term labelOf?

theorem labels_whileDo (cond : Term) (body : Block) (r l : Nat) :
    labels ((Stmt.whileDo cond body).code r l) =
      whileMark (l + 1) :: (labels (body.code (r + cond.size) (l + 2)) ++ [mark (l + 2)]) := by simp [Stmt.code]

theorem labels_forRange (x : String) (start : Option Term) (stop : Term) (step : Option Term)
    (body : Block) (r l : Nat) :
    labels ((Stmt.forRange x start stop step body).code r l) =
      rangeMark (l + 1) :: (labels (body.code (r + 3 + (Term.bound 0 start).size + stop.size +
        (Term.bound 1 step).size + 1) (l + 2)) ++ [mark (l + 2)]) := by simp [Stmt.code]

theorem labels_chain (cond : Term) (body : Block) (rest : Tail) (r l : Nat) :
    labels ((Stmt.chain cond body rest).code r l) = labels (body.code (r + cond.size) (l + 2)) ++ mark (l + 1) ::
        (labels (rest.code (body.chainEnd l) (r + cond.size + body.regs) (l + 2 + body.labels)) ++
          [body.chainEnd l]) := by simp [Stmt.code]

theorem labels_elif (cond : Term) (body : Block) (rest : Tail) (stop : String) (r l : Nat) :
    labels ((Tail.elif cond body rest).code stop r l) = labels (body.code (r + cond.size) (l + 1)) ++ mark (l + 1) ::
        labels (rest.code stop (r + cond.size + body.regs) (l + 1 + body.labels)) := by simp [Tail.code]

theorem Block.chainEnd_mem (body : Block) (l : Nat) : body.chainEnd l ∈ body.pending (l + 2) ++ [mark (l + 2)] := by
  rw [Block.pending_append]
  exact (.head _)

/-- A chain leaves nothing open but what its first alternative leaves open and itself. -/
theorem Stmt.mem_pending_chain {cond : Term} {rest : Tail} {l : Nat} {x : String}
    (h : x ∈ (Stmt.chain cond body rest).pending l) :
    x ∈ body.pending (l + 2) ++ [mark (l + 2)] := by
  rw [Stmt.pending_chain, mem_append] at h
  rcases h with h | h
  · rw [Tail.mem_pending h]
    exact body.chainEnd_mem l
  · exact mem_of_mem_tail h

mutual

theorem Stmt.pending_within : ∀ (s : Stmt) (l : Nat), ∀ x ∈ s.pending l, ∃ k, l < k ∧ k ≤ l + s.labels ∧ x = mark k
  | .assign .., l, x, h => by simp [Stmt.pending] at h
  | .print _, l, x, h => by simp [Stmt.pending] at h
  | .whileDo _ body, l, x, h | .forRange _ _ _ _ body, l, x, h => by
    obtain ⟨k, h1, h2, hk⟩ := body.pending_within (l + 2) x h
    exact ⟨k, by omega, by simp only [Stmt.labels]; omega, hk⟩
  | .chain _ body rest, l, x, h => by
    rcases mem_append.mp (Stmt.mem_pending_chain h) with hx | hx
    · obtain ⟨k, h1, h2, hk⟩ := body.pending_within (l + 2) x hx
      exact ⟨k, by omega, by simp only [Stmt.labels]; omega, hk⟩
    · exact ⟨l + 2, by omega, by simp only [Stmt.labels]; omega, by simpa using hx⟩

theorem Block.pending_within : ∀ (p : Block) (l : Nat), ∀ x ∈ p.pending l, ∃ k, l < k ∧ k ≤ l + p.labels ∧ x = mark k
  | .nil, l, x, h => by simp [Block.pending] at h
  | .cons s rest, l, x, h => by
    rw [Block.pending, mem_append] at h
    rcases h with h | h
    · obtain ⟨k, h1, h2, hk⟩ := rest.pending_within (l + s.labels) x h
      exact ⟨k, by omega, by simp only [Block.labels]; omega, hk⟩
    · obtain ⟨k, h1, h2, hk⟩ := s.pending_within l x h
      exact ⟨k, h1, by simp only [Block.labels]; omega, hk⟩

end

theorem Block.chainEnd_within (body : Block) (l : Nat) :
    ∃ k, l + 1 < k ∧ k ≤ l + 2 + body.labels ∧ body.chainEnd l = mark k := by
  cases h : body.pending (l + 2) with
  | nil => exact ⟨l + 2, by omega, by omega, by rw [Block.chainEnd, h]; rfl⟩
  | cons x rest =>
    obtain ⟨k, h1, h2, hk⟩ := body.pending_within (l + 2) x (by simp [h])
    exact ⟨k, by omega, h2, by rw [Block.chainEnd, h]; exact hk⟩

mutual

theorem Stmt.within_labels : ∀ (s : Stmt) (r l : Nat), Within l s.labels (labels (s.code r l))
  | .assign x type value, r, l => by simpa [Stmt.code, Stmt.labels] using Within.nil l 0
  | .print x, r, l => Within.nil l 0
  | .whileDo cond body, r, l => by
    have hbody := body.within_labels (r + cond.size) (l + 2)
    rw [labels_whileDo, Stmt.labels]
    exact .cons (.inr (.inl rfl)) (by omega) (by omega) ((hbody.mono (by omega) (by omega)).union
      (.cons (.inl rfl) (by omega) (by omega) (.nil _ _)))
  | .forRange x start stop step body, r, l => by
    have hbody := body.within_labels (r + 3 + (Term.bound 0 start).size + stop.size +
      (Term.bound 1 step).size + 1) (l + 2)
    rw [labels_forRange, Stmt.labels]
    exact .cons (.inr (.inr rfl)) (by omega) (by omega) ((hbody.mono (by omega) (by omega)).union
      (.cons (.inl rfl) (by omega) (by omega) (.nil _ _)))
  | .chain cond body rest, r, l => by
    have hbody := body.within_labels (r + cond.size) (l + 2)
    have hrest := rest.within_labels (body.chainEnd l) (r + cond.size + body.regs) (l + 2 + body.labels)
    obtain ⟨k, h1, h2, hk⟩ := body.chainEnd_within l
    rw [labels_chain, Stmt.labels]
    exact (hbody.mono (by omega) (by omega)).union (.cons (.inl rfl) (by omega) (by omega)
      ((hrest.mono (by omega) (by omega)).union (.cons (.inl hk) (by omega) (by omega) (.nil _ _))))

theorem Block.within_labels : ∀ (p : Block) (r l : Nat), Within l p.labels (labels (p.code r l))
  | .nil, r, l => Within.nil l 0
  | .cons s rest, r, l => by
    have hs := s.within_labels r l
    have hrest := rest.within_labels (r + s.regs) (l + s.labels)
    rw [Block.code, labels_append]
    exact hs.append hrest

theorem Tail.within_labels : ∀ (t : Tail) (stop : String) (r l : Nat), Within l t.labels (labels (t.code stop r l))
  | .done, stop, r, l => Within.nil l 0
  | .elif cond body rest, stop, r, l => by
    have hbody := body.within_labels (r + cond.size) (l + 1)
    have hrest := rest.within_labels stop (r + cond.size + body.regs) (l + 1 + body.labels)
    rw [labels_elif, Tail.labels]
    exact (hbody.mono (by omega) (by omega)).union (.cons (.inl rfl) (by omega) (by omega)
      (hrest.mono (by omega) (by omega)))
  | .otherwise body, stop, r, l => body.within_labels r l

end

theorem Block.chainEnd_eq {body : Block} (h : body.closed = true) (l : Nat) : body.chainEnd l = mark (l + 2) := by
  rw [Block.chainEnd, body.pending_eq_nil _ h]
  rfl

theorem nodup_loop {l n : Nat} (hx : Numbered (l + 1) x)
    (hy : Numbered (l + 2) y) (hbody : body.Nodup) (hwithin : Within (l + 2) n body) :
    (x :: (body ++ [y])).Nodup := by
  have hxy : x ≠ y := hx.ne hy (by omega)
  have hdisjoint := (Within.two hx hy).disjoint hwithin
  have hnodup : ([x, y] ++ body).Nodup := nodup_append'.mpr ⟨by simpa using hxy, hbody, hdisjoint⟩
  exact ((perm_append_singleton y body).cons x).nodup_iff.mpr hnodup

mutual

theorem Stmt.nodup_labels : ∀ (s : Stmt) (r l : Nat), s.closed = true → (labels (s.code r l)).Nodup
  | .assign x type value, r, l, _ => by simp [Stmt.code]
  | .print x, r, l, _ => nodup_nil
  | .whileDo cond body, r, l, h => by
    rw [labels_whileDo]
    exact nodup_loop (.inr (.inl rfl)) (.inl rfl) (body.nodup_labels _ _ h) (body.within_labels _ _)
  | .forRange x start stop step body, r, l, h => by
    rw [labels_forRange]
    exact nodup_loop (.inr (.inr rfl)) (.inl rfl) (body.nodup_labels _ _ h) (body.within_labels _ _)
  | .chain cond body rest, r, l, h => by
    simp only [Stmt.closed, Bool.and_eq_true] at h
    rw [labels_chain, Block.chainEnd_eq h.1]
    have hbody := body.within_labels (r + cond.size) (l + 2)
    have hrest := rest.within_labels (mark (l + 2)) (r + cond.size + body.regs) (l + 2 + body.labels)
    have hparts := nodup_append'.mpr ⟨body.nodup_labels _ _ h.1, rest.nodup_labels _ _ _ h.2, hbody.disjoint hrest⟩
    refine perm_middle.nodup_iff.mpr ?_
    rw [← List.append_assoc]
    exact nodup_loop (.inl rfl) (.inl rfl) hparts (hbody.append hrest)

theorem Block.nodup_labels : ∀ (p : Block) (r l : Nat), p.closed = true → (labels (p.code r l)).Nodup
  | .nil, r, l, _ => nodup_nil
  | .cons s rest, r, l, h => by
    simp only [Block.closed, Bool.and_eq_true] at h
    rw [Block.code, labels_append]
    exact nodup_append'.mpr ⟨s.nodup_labels r l h.1, rest.nodup_labels _ _ h.2,
      (s.within_labels r l).disjoint (rest.within_labels _ _)⟩

theorem Tail.nodup_labels : ∀ (t : Tail) (stop : String) (r l : Nat), t.closed = true → (labels (t.code stop r l)).Nodup
  | .done, stop, r, l, _ => nodup_nil
  | .elif cond body rest, stop, r, l, h => by
    simp only [Tail.closed, Bool.and_eq_true] at h
    rw [labels_elif]
    have hbody := body.within_labels (r + cond.size) (l + 1)
    have hrest := rest.within_labels stop (r + cond.size + body.regs) (l + 1 + body.labels)
    have hmark : Within l 1 [mark (l + 1)] := .cons (.inl rfl) (by omega) (by omega) (.nil l 1)
    have hparts := nodup_append'.mpr ⟨body.nodup_labels _ _ h.1, rest.nodup_labels _ _ _ h.2, hbody.disjoint hrest⟩
    refine perm_middle.nodup_iff.mpr ?_
    have hdisjoint := hmark.disjoint (hbody.append hrest)
    exact nodup_append'.mpr ⟨nodup_singleton _, hparts, hdisjoint⟩
  | .otherwise body, stop, r, l, h => body.nodup_labels r l h

end

end Tabc.Core
