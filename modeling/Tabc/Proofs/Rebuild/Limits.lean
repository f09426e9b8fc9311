import Tabc.Proofs.Rebuild.Recovery
import Tabc.Proofs.Rebuild.Rejection

/-!
# Programs that cannot be read back

The code of a program is not read back if a type is not known or a further condition stands inside a last
alternative (`Block.rejects`). The induction carries what may stand in the code that follows (`Follows`).
-/

open List

namespace Tabc.Core

open Bool (and_eq_true)
open Target Target.Build

variable {known : Option ScopeTable} {Γ Γ1 : Types} {r r1 l : Nat} {q : List Instr}

attribute [local simp] Stmt.plain Tail.bound Tail.legible Block.bound Block.legible

/-- An instruction of a simple program; the label of a further condition or of a jump has a number above `l`
and up to `l + n`. -/
structure Proper (l n : Nat) (i : Instr) : Prop where
  simple : Simple i
  further : ∀ f c, i = .elseBranch f c → ∃ k, l < k ∧ k ≤ l + n ∧ f = .name (mark k)
  jump : ∀ x, i = .goto (.name x) → ∃ k, l < k ∧ k ≤ l + n ∧ Numbered k x

namespace Proper

variable {m n : Nat} {i : Instr}

theorem mono (h : Proper l n i) (hl : l' ≤ l) (hn : l + n ≤ l' + n') : Proper l' n' i :=
  ⟨h.simple, fun f c hi => let ⟨k, h1, h2, hk⟩ := h.further f c hi; ⟨k, by omega, by omega, hk⟩,
    fun x hi => let ⟨k, h1, h2, hk⟩ := h.jump x hi; ⟨k, by omega, by omega, hk⟩⟩

theorem of_simple (h : Simple i) (helif : isElif i = false) (hgoto : ∀ o, i ≠ .goto o) : Proper l n i :=
  ⟨h, fun f c hi => absurd hi (ne_elseBranch helif f c), fun _ hi => absurd hi (hgoto _)⟩

theorem goto (hk : Numbered k x) (h1 : l < k) (h2 : k ≤ l + n) : Proper l n (.goto (.name x)) :=
  ⟨trivial, by simp, fun _ hi => ⟨k, h1, h2, Operand.name.inj (Instr.goto.inj hi) ▸ hk⟩⟩

theorem label (h : x = mark k ∨ x = whileMark k) : Proper l n (.label (.name x)) := of_simple ⟨k, h⟩ rfl (by simp)

theorem branch (f c : Operand) : Proper l n (.branch f c) := of_simple trivial rfl (by simp)

end Proper

theorem Term.computes_code (t : Term) (r : Nat) : ∀ i ∈ t.code r, computes i = true := by
  induction t generalizing r with
  | const a => simp [Term.code, computes]
  | var x => simp [Term.code]
  | unary op a ih =>
    simp only [Term.code, mem_append, mem_singleton]
    rintro i (hi | rfl)
    · exact ih r i hi
    · rfl
  | binary a op b iha ihb =>
    simp only [Term.code, mem_append, mem_singleton]
    rintro i ((hi | hi) | rfl)
    · exact iha r i hi
    · exact ihb _ i hi
    · rfl

theorem Term.proper (t : Term) (r : Nat) {n : Nat} : ∀ i ∈ t.code r, Proper l n i := by
  intro i hi
  have := t.computes_code r i hi
  cases i <;> first | (cases this; done) | exact .of_simple trivial rfl (by simp)

mutual

theorem Stmt.proper : ∀ (s : Stmt) (r l : Nat), s.plain = true → ∀ i ∈ s.code r l, Proper l s.labels i
  | .assign x type value, r, l, _, i, hi => by
    simp only [Stmt.code, mem_append, mem_singleton] at hi
    rcases hi with hi | rfl
    · exact value.proper r i hi
    · exact .of_simple trivial rfl (by simp)
  | .print _, _, _, h, _, _ => by simp at h
  | .whileDo cond body, r, l, h, i, hi => by
    simp only [Stmt.code, mem_append, mem_cons, not_mem_nil, or_false] at hi
    rw [Stmt.labels]
    rcases hi with ((rfl | hi) | rfl | hi) | rfl | rfl
    · exact .label (.inr rfl)
    · exact cond.proper r i hi
    · exact .branch _ _
    · exact (body.proper _ _ h i hi).mono (by omega) (by omega)
    · exact .goto (.inr (.inl rfl)) (by omega) (by omega)
    · exact .label (.inl rfl)
  | .forRange .., _, _, h, _, _ => by simp at h
  | .chain cond body rest, r, l, h, i, hi => by
    simp only [Stmt.plain, and_eq_true] at h
    obtain ⟨k, h1, h2, hstop⟩ := body.chainEnd_within l
    have hgoto : Proper l (2 + body.labels + rest.labels) (.goto (.name (body.chainEnd l))) :=
      .goto (.inl hstop) (by omega) (by omega)
    simp only [Stmt.code, mem_append, mem_cons, not_mem_nil, or_false] at hi
    rw [Stmt.labels]
    rcases hi with ((hi | rfl | hi) | rfl | rfl | hi) | rfl
    · exact cond.proper r i hi
    · exact .branch _ _
    · exact (body.proper _ _ h.1 i hi).mono (by omega) (by omega)
    · exact hgoto
    · exact .label (.inl rfl)
    · rcases rest.proper _ _ _ h.2 i hi with hi | rfl
      · exact hi.mono (by omega) (by omega)
      · exact hgoto
    · exact .label (.inl hstop)

theorem Block.proper : ∀ (p : Block) (r l : Nat), p.plain = true → ∀ i ∈ p.code r l, Proper l p.labels i
  | .nil, _, _, _, i, hi => by simp [Block.code] at hi
  | .cons s rest, r, l, h, i, hi => by
    simp only [Block.plain, and_eq_true] at h
    rw [Block.code, mem_append] at hi
    rw [Block.labels]
    rcases hi with hi | hi
    · exact (s.proper r l h.1 i hi).mono le_rfl (by omega)
    · exact (rest.proper _ _ h.2 i hi).mono (by omega) (by omega)

theorem Tail.proper : ∀ (t : Tail) (stop : String) (r l : Nat), t.plain = true →
    ∀ i ∈ t.code stop r l, Proper l t.labels i ∨ i = .goto (.name stop)
  | .done, _, _, _, _, i, hi => by simp [Tail.code] at hi
  | .elif cond body rest, stop, r, l, h, i, hi => by
    simp only [Tail.plain, and_eq_true] at h
    simp only [Tail.code, mem_append, mem_cons] at hi
    rw [Tail.labels]
    rcases hi with (hi | rfl | hi) | rfl | rfl | hi
    · exact .inl (cond.proper r i hi)
    · exact .inl ⟨trivial, fun f c hi => ⟨l + 1, by omega, by omega, (Instr.elseBranch.inj hi).1.symm⟩, by simp⟩
    · exact .inl ((body.proper _ _ h.1 i hi).mono (by omega) (by omega))
    · exact .inr rfl
    · exact .inl (.label (.inl rfl))
    · exact (rest.proper _ _ _ h.2 i hi).imp_left fun hi => hi.mono (by omega) (by omega)
  | .otherwise body, stop, r, l, h, i, hi => .inl (body.proper r l h i hi)

end

theorem Tail.simple_code {t : Tail} (h : t.plain = true) {stop : String} : ∀ i ∈ t.code stop r l, Simple i :=
  fun i hi => (t.proper stop r l h i hi).elim Proper.simple fun hi => hi ▸ trivial

/-- No jump in the code of a program goes to a label that was made before. -/
theorem Block.goto_not_mem (p : Block) (h : p.plain = true) {n : Nat} (hn : n ≤ l) :
    .goto (.name (mark n)) ∉ p.code r l := by
  intro hmem
  obtain ⟨k, hk, -, hnumbered⟩ := (p.proper r l h _ hmem).jump _ rfl
  have : n = k := Numbered.inj (.inl rfl) hnumbered
  omega

/-- What follows a piece of a program is simple code, and of the labels of the piece it has only
those of chains that the piece leaves open. -/
structure Follows (l n : Nat) (opened : List String) (q : List Instr) : Prop where
  simple : ∀ i ∈ q, Simple i
  clear : ∀ k, l < k → k ≤ l + n → mark k ∈ labels q → mark k ∈ opened

theorem Within.bounds {n k : Nat} (h : Within l n names) (hk : mark k ∈ names) : l < k ∧ k ≤ l + n := by
  obtain ⟨j, h1, h2, hj⟩ := h _ hk
  have : k = j := Numbered.inj (.inl rfl) hj
  omega

theorem Block.within_pending (p : Block) (l : Nat) : Within l p.labels (p.pending l) :=
  fun x hx => let ⟨k, h1, h2, hk⟩ := p.pending_within l x hx; ⟨k, h1, h2, .inl hk⟩

theorem Stmt.within_pending (s : Stmt) (l : Nat) : Within l s.labels (s.pending l) :=
  fun x hx => let ⟨k, h1, h2, hk⟩ := s.pending_within l x hx; ⟨k, h1, h2, .inl hk⟩

namespace Follows

variable {n : Nat} {a b : List String}

variable (h : Follows l n a q)

include h

theorem append {code : List Instr} (hcode : ∀ i ∈ code, Simple i)
    (hlabels : ∀ k, l < k → k ≤ l + n → mark k ∉ labels code) : Follows l n a (code ++ q) where
  simple i hi := (mem_append.mp hi).elim (hcode i) (h.simple i)
  clear k h1 h2 hk := by
    rw [labels_append, mem_append] at hk
    exact h.clear k h1 h2 (hk.resolve_left (hlabels k h1 h2))

theorem goto (o : Operand) : Follows l n a (.goto o :: q) where
  simple := forall_mem_cons.mpr ⟨trivial, h.simple⟩
  clear := h.clear

theorem label {j : Nat} (hj : l < j → j ≤ l + n → mark j ∈ a) : Follows l n a (.label (.name (mark j)) :: q) where
  simple := forall_mem_cons.mpr ⟨⟨j, .inl rfl⟩, h.simple⟩
  clear k h1 h2 hk := by
    rw [labels_cons, mem_append] at hk
    rcases hk with hk | hk
    · have heq : mark k = mark j := by simpa [labelOf?] using hk
      have : k = j := Numbered.inj (.inl rfl) (.inl heq)
      exact heq ▸ hj (by omega) (by omega)
    · exact h.clear k h1 h2 hk

theorem part {l' n' : Nat} (hl : l ≤ l') (hn : l' + n' ≤ l + n)
    (hab : ∀ k, l' < k → k ≤ l' + n' → mark k ∈ a → mark k ∈ b) : Follows l' n' b q where
  simple := h.simple
  clear k h1 h2 hk := hab k h1 h2 (h.clear k (by omega) (by omega) hk)

omit h

theorem not_mem (h : Follows l n [] q) (h1 : l < k) (h2 : k ≤ l + n) :
    .label (.name (mark k)) ∉ q := fun hk => not_mem_nil (h.clear k h1 h2 (mem_filterMap.mpr ⟨_, hk, rfl⟩))

end Follows

/-! What follows the parts of a piece. -/

section

variable {cond : Term} {body : Block} {rest : Tail} {s : Stmt} {p : Block}

theorem follows_whileDo (h : Follows l (Stmt.whileDo cond body).labels ((Stmt.whileDo cond body).pending l) q)
    (o : Operand) : Follows (l + 2) body.labels (body.pending (l + 2))
      (.goto o :: .label (.name (mark (l + 2))) :: q) := by
  have hbody : Follows (l + 2) body.labels (body.pending (l + 2)) q :=
    h.part (by omega) (by simp only [Stmt.labels]; omega) fun _ _ _ hk => hk
  exact (hbody.label fun hj => absurd hj (lt_irrefl _)).goto o

theorem follows_chain_body (hrest : rest.plain = true)
    (h : Follows l (Stmt.chain cond body rest).labels ((Stmt.chain cond body rest).pending l) q)
    (o : Operand) : Follows (l + 2) body.labels (body.pending (l + 2)) (.goto o :: .label (.name (mark (l + 1))) ::
        (rest.code (body.chainEnd l) r (l + 2 + body.labels) ++ .label (.name (body.chainEnd l)) :: q)) := by
  -- of the chain itself, only the label at its end may be one that the body leaves open
  have hopen : ∀ k, l + 2 < k → mark k ∈ body.pending (l + 2) ++ [mark (l + 2)] → mark k ∈ body.pending (l + 2) := by
    intro k hk hmem
    refine (mem_append.mp hmem).resolve_right fun hmem => ?_
    have : k = l + 2 := Numbered.inj (.inl rfl) (.inl (mem_singleton.mp hmem))
    omega
  have hbody : Follows (l + 2) body.labels (body.pending (l + 2)) q :=
    h.part (by omega) (by simp only [Stmt.labels]; omega) fun k hk _ hmem => hopen k hk (Stmt.mem_pending_chain hmem)
  obtain ⟨j, -, -, hj⟩ := body.chainEnd_within l
  have hend := body.chainEnd_mem l
  rw [hj] at hend ⊢
  have hstop := hbody.label fun h _ => hopen j h hend
  have hcode := hstop.append (Tail.simple_code hrest) fun k _ hk hmem =>
    absurd ((rest.within_labels (mark j) r (l + 2 + body.labels)).bounds hmem).1 (by omega)
  exact (hcode.label fun hk => by omega).goto o

theorem follows_chain_rest
    (h : Follows l (Stmt.chain cond body rest).labels ((Stmt.chain cond body rest).pending l) q) :
    Follows (l + 2 + body.labels) rest.labels [] q := by
  refine h.part (by omega) (by simp only [Stmt.labels]; omega) fun k hk _ hmem => ?_
  rcases mem_append.mp (Stmt.mem_pending_chain hmem) with hmem | hmem
  · have := ((body.within_pending _).bounds hmem).2
    omega
  · have : k = l + 2 := Numbered.inj (.inl rfl) (.inl (mem_singleton.mp hmem))
    omega

theorem follows_cons (hp : p.plain = true) (h : Follows l (Block.cons s p).labels ((Block.cons s p).pending l) q) :
    Follows l s.labels (s.pending l) (p.code r (l + s.labels) ++ q) := by
  have hs : Follows l s.labels (s.pending l) q := by
    refine h.part le_rfl (by simp only [Block.labels]; omega) fun k _ hk hmem => ?_
    refine (mem_append.mp hmem).resolve_left fun hmem => ?_
    have := ((p.within_pending _).bounds hmem).1
    omega
  exact hs.append (fun i hi => (p.proper r _ hp i hi).1) fun k _ hk hmem =>
    absurd ((p.within_labels _ _).bounds hmem).1 (by omega)

theorem follows_cons_rest (h : Follows l (Block.cons s p).labels ((Block.cons s p).pending l) q) :
    Follows (l + s.labels) p.labels (p.pending (l + s.labels)) q := by
  refine h.part (by omega) (by simp only [Block.labels]; omega) fun k hk _ hmem => ?_
  refine (mem_append.mp hmem).resolve_right fun hmem => ?_
  have := ((s.within_pending _).bounds hmem).2
  omega

theorem follows_elif_body (hrest : rest.plain = true) {n : Nat} (hn : n ≤ l)
    (h : Follows l (Tail.elif cond body rest).labels [] q) (o : Operand) :
    Follows (l + 1) body.labels (body.pending (l + 1)) (.goto o :: .label (.name (mark (l + 1))) ::
        (rest.code (mark n) r (l + 1 + body.labels) ++ .label (.name (mark n)) :: q)) := by
  have hbody : Follows (l + 1) body.labels (body.pending (l + 1)) q :=
    h.part (by omega) (by simp only [Tail.labels]; omega) fun _ _ _ hk => absurd hk not_mem_nil
  have hcode := (hbody.label (j := n) fun hk => by omega).append (Tail.simple_code hrest) fun k _ hk hmem =>
    absurd ((rest.within_labels (mark n) r (l + 1 + body.labels)).bounds hmem).1 (by omega)
  exact (hcode.label fun hk => by omega).goto o

theorem follows_elif_rest (h : Follows l (Tail.elif cond body rest).labels [] q) :
    Follows (l + 1 + body.labels) rest.labels [] q :=
  h.part (by omega) (by simp only [Tail.labels]; omega) fun _ _ _ hk => hk

theorem follows_otherwise {n : Nat} (hn : n ≤ l) (h : Follows l body.labels [] q)
    (opened : List String) : Follows l body.labels opened (.label (.name (mark n)) :: q) :=
  Follows.label (h.part le_rfl le_rfl fun _ _ _ hk => absurd hk not_mem_nil) fun hk => by omega

end

variable {C C' : List Instr → Prop}

theorem Rejects.imp (h : Rejects known code Γ r C') (hC : ∀ q, C q → C' q) : Rejects known code Γ r C :=
  fun s q σ hσ hq => h s q σ hσ (hC q hq)

theorem Rejects.append {a b : List Instr} (h : Rejects known a Γ r C') (hC : ∀ q, C q → C' (b ++ q)) :
    Rejects known (a ++ b) Γ r C := by
  intro s q σ hσ hq
  rw [List.append_assoc]
  exact h s (b ++ q) σ hσ (hC q hq)

theorem Refuses.imp {stop : String} (h : Refuses known code stop Γ r C')
    (hC : ∀ q, C q → C' q) : Refuses known code stop Γ r C :=
  fun s q σ front back ends hσ hends hq => h s q σ front back ends hσ hends (hC q hq)

/-- Statements are not read back if the first ones are, but not the rest. -/
theorem Rebuilds.rejects {a b : List Instr} (h : Rebuilds known a Γ r Γ1 r1 nodes) (h' : Rejects known b Γ1 r1 C) :
    Rejects known (a ++ b) Γ r C := by
  intro s q σ hσ hq
  obtain ⟨items, s1, σ1, hread, hσ1, -⟩ := h s (b ++ q) σ hσ
  rw [List.append_assoc]
  exact Stops.trans hread.isElif_eq_false (h' s1 q σ1 hσ1 hq)

mutual

theorem Stmt.rangeless_of_plain : ∀ s : Stmt, s.plain = true → s.rangeless = true
  | .assign .., _ => rfl
  | .print _, _ => rfl
  | .whileDo _ body, h => body.rangeless_of_plain h
  | .forRange .., h => by simp at h
  | .chain _ body rest, h => by
    simp only [Stmt.plain, and_eq_true] at h
    simp [Stmt.rangeless, body.rangeless_of_plain h.1, rest.rangeless_of_plain h.2]

theorem Block.rangeless_of_plain : ∀ p : Block, p.plain = true → p.rangeless = true
  | .nil, _ => rfl
  | .cons s rest, h => by
    simp only [Block.plain, and_eq_true] at h
    simp [Block.rangeless, s.rangeless_of_plain h.1, rest.rangeless_of_plain h.2]

theorem Tail.rangeless_of_plain : ∀ t : Tail, t.plain = true → t.rangeless = true
  | .done, _ => rfl
  | .elif _ body rest, h => by
    simp only [Tail.plain, and_eq_true] at h
    simp [Tail.rangeless, body.rangeless_of_plain h.1, rest.rangeless_of_plain h.2]
  | .otherwise body, h => body.rangeless_of_plain h

end

mutual

theorem Stmt.rejects : ∀ (s : Stmt) (Γ : Types) (r l : Nat), s.plain = true → s.tidy = true →
    (s.bound Γ && s.legible) = false → (∀ x ∈ s.vars, ¬ IsReg x) →
    Rejects known (s.code r l) Γ r (Follows l s.labels (s.pending l))
  | .assign x type value, Γ, r, l, _, _, h, hvars => by
    rw [Stmt.legible, Bool.and_true] at h
    exact rejects_assign (hvars x (by simp [Stmt.vars])) (forall_mem_cons.1 hvars).2 h _
  | .print _, _, _, _, hplain, _, _, _ => by simp at hplain
  | .whileDo cond body, Γ, r, l, hplain, htidy, h, hvars => by
    have hcond : ∀ y ∈ cond.vars, ¬ IsReg y := (forall_mem_append.1 hvars).1
    cases hasked : Γ.knows cond.asked with
    | false => exact rejects_while_cond hcond hasked
    | true =>
      simp only [Stmt.bound, Stmt.legible, hasked, Bool.true_and] at h
      have hbody := body.rejects Γ (r + cond.size) (l + 2) hplain htidy h (forall_mem_append.1 hvars).2
      exact rejects_while_body hcond hasked hbody fun q hq => follows_whileDo hq _
  | .forRange .., _, _, _, hplain, _, _, _ => by simp at hplain
  | .chain cond body rest, Γ, r, l, hplain, htidy, h, hvars => by
    simp only [Stmt.plain, Stmt.tidy, and_eq_true] at hplain htidy
    have hcond : ∀ y ∈ cond.vars, ¬ IsReg y := fun y hy => hvars y (by simp [Stmt.vars, hy])
    have hvbody : ∀ y ∈ body.vars, ¬ IsReg y := fun y hy => hvars y (by simp [Stmt.vars, hy])
    have hmark := (body.within_labels (r + cond.size) (l + 2)).not_mem (show l + 1 ≤ l + 2 by omega)
    obtain ⟨j, -, hj, hstop⟩ := body.chainEnd_within l
    cases hasked : Γ.knows cond.asked with
    | false => exact rejects_chain_cond hcond hasked
    | true =>
      cases hb : body.bound Γ && body.legible with
      | false =>
        have hbody := body.rejects Γ (r + cond.size) (l + 2) hplain.1 htidy.1 hb hvbody
        exact rejects_chain_body hcond hasked hmark hbody fun q hq => follows_chain_body hplain.2 hq _
      | true =>
        rw [and_eq_true] at hb
        have hrest : (rest.bound (body.types Γ) && rest.legible) = false := by
          simpa [Stmt.bound, Stmt.legible, hasked, hb.1, hb.2] using h
        have hbody : Rebuilds known _ Γ _ (body.types Γ) _ _ := body.rebuilds Γ (r + cond.size) (l + 2)
          (body.rangeless_of_plain hplain.1) hb.2 hb.1 hvbody
        have hfail := rest.refuses (body.types Γ) (r + cond.size + body.regs) (l + 2 + body.labels) j
          hj hplain.2 htidy.2 hrest (forall_mem_append.1 hvars).2
        rw [← hstop] at hfail
        exact rejects_chain_rest hcond hasked hmark hbody (hfail.imp fun q hq => follows_chain_rest hq)

theorem Block.rejects : ∀ (p : Block) (Γ : Types) (r l : Nat), p.plain = true → p.tidy = true →
    (p.bound Γ && p.legible) = false → (∀ x ∈ p.vars, ¬ IsReg x) →
    Rejects known (p.code r l) Γ r (Follows l p.labels (p.pending l))
  | .nil, _, _, _, _, _, h, _ => by simp at h
  | .cons s rest, Γ, r, l, hplain, htidy, h, hvars => by
    simp only [Block.plain, Block.tidy, and_eq_true] at hplain htidy
    have hvs : ∀ y ∈ s.vars, ¬ IsReg y := (forall_mem_append.1 hvars).1
    cases hs : s.bound Γ && s.legible with
    | false => exact (s.rejects Γ r l hplain.1 htidy.1 hs hvs).append fun q hq => follows_cons hplain.2 hq
    | true =>
      rw [and_eq_true] at hs
      have hrest : (rest.bound (s.types Γ) && rest.legible) = false := by simpa [hs.1, hs.2] using h
      exact (s.rebuilds Γ r l (s.rangeless_of_plain hplain.1) hs.2 hs.1 hvs).rejects
        ((rest.rejects _ _ (l + s.labels) hplain.2 htidy.2 hrest
          (forall_mem_append.1 hvars).2).imp fun q hq => follows_cons_rest hq)

theorem Tail.refuses : ∀ (t : Tail) (Γ : Types) (r l n : Nat), n ≤ l → t.plain = true →
    t.tidy = true → (t.bound Γ && t.legible) = false → (∀ x ∈ t.vars, ¬ IsReg x) →
    Refuses known (t.code (mark n) r l) (mark n) Γ r (Follows l t.labels [])
  | .done, _, _, _, _, _, _, _, h, _ => by simp at h
  | .elif cond body rest, Γ, r, l, n, hn, hplain, htidy, h, hvars => by
    simp only [Tail.plain, Tail.tidy, and_eq_true] at hplain htidy
    have hcond : ∀ y ∈ cond.vars, ¬ IsReg y := fun y hy => hvars y (by simp [Tail.vars, hy])
    have hvbody : ∀ y ∈ body.vars, ¬ IsReg y := fun y hy => hvars y (by simp [Tail.vars, hy])
    cases hasked : Γ.knows cond.asked with
    | false => exact refuses_elif_cond hcond hasked
    | true =>
      cases hb : body.bound Γ && body.legible with
      | false =>
        have hbody := body.rejects Γ (r + cond.size) (l + 1) hplain.1 (body.tidy_of_closed htidy.1) hb hvbody
        exact refuses_elif_body hcond hasked hbody fun q hq => follows_elif_body hplain.2 hn hq _
      | true =>
        rw [and_eq_true] at hb
        have hrest : (rest.bound (body.types Γ) && rest.legible) = false := by simpa [hasked, hb.1, hb.2] using h
        have hbody : Rebuilds known _ Γ _ (body.types Γ) _ _ := body.rebuilds Γ (r + cond.size) (l + 1)
          (body.rangeless_of_plain hplain.1) hb.2 hb.1 hvbody
        have hfail := rest.refuses (body.types Γ) (r + cond.size + body.regs) (l + 1 + body.labels) n
          (by omega) hplain.2 htidy.2 hrest (forall_mem_append.1 hvars).2
        exact refuses_elif_rest hcond hasked hbody (hfail.imp fun q hq => follows_elif_rest hq)
  | .otherwise body, Γ, r, l, n, hn, hplain, htidy, h, hvars => by
    have hne : body.code r l ≠ [] := by
      cases body with
      | nil => simp [Block.elifFree] at h
      | cons s rest => exact Block.code_cons_ne_nil s rest r l
    have hstop := (body.within_labels r l).not_mem hn
    have hany := body.any_isElif r l
    have hrejects (hb : (body.bound Γ && body.legible) = false) :=
      body.rejects Γ r l hplain (body.tidy_of_closed htidy) hb hvars
    cases helif : body.elifFree with
    | true =>
      rw [helif] at hany
      exact refuses_otherwise (hrejects (by simpa [helif] using h))
        (fun q hq => follows_otherwise hn hq _) hne hany hstop
    | false =>
      rw [helif] at hany
      have hbody : Rebuilds known (body.code r l) Γ r (body.types Γ) (r + body.regs) (body.trees Γ r) ∨
          Rejects known (body.code r l) Γ r (Follows l body.labels (body.pending l)) := by
        cases hb : body.bound Γ && body.legible with
        | true =>
          rw [and_eq_true] at hb
          exact .inl (body.rebuilds Γ r l (body.rangeless_of_plain hplain) hb.2 hb.1 hvars)
        | false => exact .inr (hrejects hb)
      refine refuses_mixed hbody
        (fun q hq => ⟨follows_otherwise hn hq _, (follows_otherwise hn hq []).simple⟩) hany hstop ?_
      intro f c hmem
      obtain ⟨k, h1, h2, rfl⟩ := (body.proper r l hplain _ hmem).further f c rfl
      exact ⟨mark k, rfl, fun q hq => (follows_otherwise hn hq []).not_mem h1 h2⟩

end

theorem Block.fails_code (known : Option ScopeTable) (p : Block) (hplain : p.plain = true)
    (htidy : p.tidy = true) (h : (p.bound .empty && p.legible) = false)
    (hvars : ∀ x ∈ p.vars, ¬ IsReg x) :
    Fails (Target.Build.run .fourth known (p.code 0 0)) (.fresh .fourth (p.code 0 0)) := by
  have hrejects : Rejects known (p.code 0 0) .empty 0 (Follows 0 p.labels (p.pending 0)) :=
    p.rejects .empty 0 0 hplain htidy h hvars
  have hhalts := hrejects (.fresh .fourth (p.code 0 0)) [] ScopeTable.builtins4 typed_builtins ⟨by simp, by simp⟩
  rw [List.append_nil] at hhalts
  have hfail := fails_program hhalts (show 4 * (p.code 0 0).length ≤
    Target.Build.fuelFor (p.code 0 0).length by simp [Target.Build.fuelFor])
  exact hfail.bind _

end Tabc.Core
