import Tabc.Proofs.Core.Flattening
import Tabc.Proofs.Core.Labels
import Tabc.Proofs.Core.Steps

/-!
# Flattening keeps the meaning

If a program ends in a store, the machine comes on its code to the end, in a store that agrees on all names
but registers (`ofProgram_simulates`).
-/

open List

namespace Tabc.Core

variable {V : Type} {I : Interp V} {code : List Instr}

def Agrees (s m : Store V) : Prop := ∀ x, ¬ IsReg x → m x = s x

theorem Agrees.set_var (h : Agrees s m) (x : String) (v : V) : Agrees (s.set x v) (m.set x v) := by
  intro y hy
  by_cases hxy : y = x
  · simp [hxy]
  · rw [m.set_of_ne v hxy, s.set_of_ne v hxy, h y hy]

theorem Agrees.of_keeps {r n : Nat} (h : Agrees s m) (hkeeps : Keeps r n m m') : Agrees s m' :=
  fun x hx => (hkeeps x fun ht => hx ht.isReg).trans (h x hx)

/-- The code of an expression leaves its value in its operand and changes no register but its own. -/
theorem Term.reaches (t : Term) (hat : At code pc (t.code r)) (hvars : ∀ x ∈ t.vars, ¬ IsReg x) (hm : Agrees s m)
    (hv : t.eval I s = some v) :
    ∃ m', Reaches I code (pc, m) (pc + (t.code r).length, m') ∧ m' (t.operand r) = some v ∧ Keeps r t.size m m' := by
  induction t generalizing pc r m v with
  | const a =>
    obtain rfl : I.const a.atom = v := by simpa [Term.eval] using hv
    exact ⟨m.set (reg (r + 1)) (I.const a.atom), .literal hat, m.set_self _ _, .update m (Nat.lt_add_one r) le_rfl _⟩
  | var x =>
    refine ⟨m, .refl, ?_, .refl m⟩
    rw [Term.operand, hm x (hvars x (by simp [Term.vars]))]
    exact hv
  | unary op a ih =>
    simp only [Term.eval, bind_eq_some_iff] at hv
    obtain ⟨u, hu, hv⟩ := hv
    obtain ⟨m1, hrun, hval, hkeeps⟩ := ih hat.left hvars hm hu
    refine ⟨m1.set (reg (r + a.size + 1)) v, ?_, m1.set_self _ _, hkeeps.append (.update m1 (by omega) le_rfl _)⟩
    simpa [Term.code, Nat.add_assoc] using hrun.trans (.unary hat.right hval hv)
  | binary a op b iha ihb =>
    simp only [Term.eval, bind_eq_some_iff] at hv
    obtain ⟨u, hu, w, hw, hv⟩ := hv
    obtain ⟨hva, hvb⟩ := forall_mem_append.1 hvars
    obtain ⟨m1, hrun1, hval1, hkeeps1⟩ := iha hat.left.left hva hm hu
    obtain ⟨m2, hrun2, hval2, hkeeps2⟩ := ihb hat.left.right hvb (hm.of_keeps hkeeps1) hw
    have hval : m2 (a.operand r) = some u := by rw [hkeeps2 _ (a.not_taken_operand hva r b.size), hval1]
    refine ⟨m2.set (reg (r + a.size + b.size + 1)) v, ?_, ?_,
      (hkeeps1.append hkeeps2).append (.update m2 (by omega) (by omega) _)⟩
    · have hat' := hat.right
      rw [length_append, ← Nat.add_assoc] at hat'
      simpa [Term.code, Nat.add_assoc] using hrun1.trans (hrun2.trans (.binary hat' hval hval2 hv))
    · simp [Term.operand, Term.size, Nat.add_assoc]

/-- From stores that agree on the variables, a part of the code leads to its end and to stores that agree again. -/
def Carries (I : Interp V) (code whole part : List Instr) (s s' : Store V) : Prop :=
  ∀ ⦃pc m⦄, At code pc whole → Agrees s m → ∃ m', Reaches I code (pc, m) (pc + part.length, m') ∧ Agrees s' m'

/-- An alternative of a chain leads to the end of the chain: by its body, or by what comes after it. -/
theorem reaches_alternative (hcode : (labels code).Nodup) {cond : Term}
    (hi : i = .branch (.name x) (.name (cond.operand r)) ∨ i = .elseBranch (.name x) (.name (cond.operand r)))
    (hvars : ∀ y ∈ cond.vars, ¬ IsReg y) (hv : cond.eval I s = some v)
    (hbody : I.truth v = true → Carries I code body body s s')
    (hrest : I.truth v = false → Carries I code (rest ++ [.label (.name stop)]) rest s s') :
    Carries I code (cond.code r ++ i :: body ++ .goto (.name stop) :: .label (.name x) :: rest ++
      [.label (.name stop)]) (cond.code r ++ i :: body ++ .goto (.name stop) :: .label (.name x) :: rest) s s' := by
  intro pc m hat hm
  rw [List.append_assoc] at hat
  have hbranch := hat.left.right
  have hgoto : At code (pc + (cond.code r).length + 1 + body.length) _ := hat.right.cast (by simp; omega)
  have hafter := hgoto.tail.tail
  rw [show pc + _ = pc + (cond.code r).length + 1 + body.length + 1 + 1 + rest.length by simp; omega]
  obtain ⟨m1, hreach1, hval, hkeeps⟩ := cond.reaches hat.left.left hvars hm hv
  have hm1 := hm.of_keeps hkeeps
  cases htruth : I.truth v with
  | true =>
    obtain ⟨m2, hreach2, hm2⟩ := hbody htruth hbranch.tail hm1
    exact ⟨m2, hreach1.trans ((Reaches.branch_of_true hi hbranch hval htruth).trans
      (hreach2.trans (.goto hcode hgoto hafter.right))), hm2⟩
  | false =>
    obtain ⟨m2, hreach2, hm2⟩ := hrest htruth hafter hm1
    exact ⟨m2, hreach1.trans ((Reaches.branch_of_false hcode hi hbranch hgoto.tail hval htruth).trans
      ((Reaches.label hgoto.tail).trans hreach2)), hm2⟩

mutual

theorem Stmt.reaches (hcode : (labels code).Nodup) : ∀ (fuel : Nat) (st : Stmt) {s s' : Store V}
    {out : List (Event V)} {r l : Nat}, st.plain = true → st.closed = true → (∀ x ∈ st.vars, ¬ IsReg x) →
    st.run I fuel s = some (s', out) → Carries I code (st.code r l) (st.code r l) s s'
  | 0, st, s, s', out, r, l, _, _, _, hrun => by cases hrun
  | fuel + 1, .assign x type value, s, s', out, r, l, _, _, hvars, hrun => by
    intro pc m hat hm
    obtain ⟨v, hv, ⟨⟩⟩ := bind_eq_some_iff.1 hrun
    obtain ⟨m1, hreach, hval, hkeeps⟩ := value.reaches hat.left (forall_mem_cons.1 hvars).2 hm hv
    refine ⟨m1.set x v, ?_, (hm.of_keeps hkeeps).set_var x v⟩
    simpa [Stmt.code, Nat.add_assoc] using hreach.trans (.assign hat.right hval)
  | fuel + 1, .print x, s, s', out, r, l, hplain, _, _, _ => by simp [Stmt.plain] at hplain
  | fuel + 1, .whileDo cond body, s, s', out, r, l, hplain, hclosed, hvars, hrun => by
    intro pc m hat hm
    have hcond : At code (pc + 1) (cond.code r) := hat.left.left.tail
    have hbranch : At code (pc + 1 + (cond.code r).length) _ := hat.left.right.cast (by simp; omega)
    have hback : At code (pc + 1 + (cond.code r).length + 1 + (body.code (r + cond.size) (l + 2)).length) _ :=
      hat.right.cast (by simp; omega)
    have hend : pc + ((Stmt.whileDo cond body).code r l).length =
        pc + 1 + (cond.code r).length + 1 + (body.code (r + cond.size) (l + 2)).length + 1 + 1 := by
      simp [Stmt.code]; omega
    rw [hend]
    obtain ⟨v, hv, hrun⟩ := bind_eq_some_iff.1 hrun
    obtain ⟨m1, hreach1, hval, hkeeps⟩ := cond.reaches hcond (forall_mem_append.1 hvars).1 hm hv
    have hstart : Reaches I code (pc, m) (pc + 1 + (cond.code r).length, m1) :=
      (Reaches.label hat.left.left).trans hreach1
    have hm1 := hm.of_keeps hkeeps
    cases htruth : I.truth v with
    | false =>
      simp only [htruth, Bool.false_eq_true, if_false] at hrun
      cases hrun
      exact ⟨m1, hstart.trans ((Reaches.branch_of_false hcode (.inl rfl) hbranch hback.tail hval htruth).trans
        (.label hback.tail)), hm1⟩
    | true =>
      simp only [htruth, if_true] at hrun
      obtain ⟨⟨s1, out1⟩, hbody, hrun⟩ := bind_eq_some_iff.1 hrun
      obtain ⟨⟨s2, out2⟩, hloop, ⟨⟩⟩ := bind_eq_some_iff.1 hrun
      obtain ⟨m2, hreach2, hm2⟩ := body.reaches hcode fuel hplain hclosed
        (forall_mem_append.1 hvars).2 hbody hbranch.tail hm1
      obtain ⟨m3, hreach3, hm3⟩ := Stmt.reaches hcode fuel (.whileDo cond body) hplain hclosed hvars hloop hat hm2
      rw [hend] at hreach3
      exact ⟨m3, hstart.trans ((Reaches.branch_of_true (.inl rfl) hbranch hval htruth).trans (hreach2.trans
        ((Reaches.goto hcode hback hat.left.left).trans hreach3))), hm3⟩
  | fuel + 1, .forRange .., s, s', out, r, l, hplain, _, _, _ => by simp [Stmt.plain] at hplain
  | fuel + 1, .chain cond body rest, s, s', out, r, l, hplain, hclosed, hvars, hrun => by
    intro pc m hat hm
    simp only [Stmt.plain, Stmt.closed, Bool.and_eq_true] at hplain hclosed
    rw [Stmt.code] at hat ⊢
    obtain ⟨v, hv, hrun⟩ := bind_eq_some_iff.1 hrun
    obtain ⟨m', hreach, hm'⟩ := reaches_alternative hcode (.inl rfl) (fun y hy => hvars y (by simp [Stmt.vars, hy])) hv
      (fun htruth => body.reaches hcode fuel hplain.1 hclosed.1
        (fun y hy => hvars y (by simp [Stmt.vars, hy])) (by simpa [htruth] using hrun))
      (fun htruth => rest.reaches hcode fuel hplain.2 hclosed.2
        (forall_mem_append.1 hvars).2 (by simpa [htruth] using hrun)) hat hm
    refine ⟨m', ?_, hm'⟩
    rw [length_append]
    exact hreach.trans (.label hat.right)
termination_by structural fuel => fuel

theorem Block.reaches (hcode : (labels code).Nodup) : ∀ (fuel : Nat) (p : Block) {s s' : Store V}
    {out : List (Event V)} {r l : Nat}, p.plain = true → p.closed = true → (∀ x ∈ p.vars, ¬ IsReg x) →
    p.run I fuel s = some (s', out) → Carries I code (p.code r l) (p.code r l) s s'
  | 0, p, s, s', out, r, l, _, _, _, hrun => by cases hrun
  | fuel + 1, .nil, s, s', out, r, l, _, _, _, hrun => by
    cases hrun
    exact fun _ m _ hm => ⟨m, .refl, hm⟩
  | fuel + 1, .cons st rest, s, s', out, r, l, hplain, hclosed, hvars, hrun => by
    intro pc m hat hm
    simp only [Block.plain, Block.closed, Bool.and_eq_true] at hplain hclosed
    obtain ⟨⟨s1, out1⟩, hst, hrun⟩ := bind_eq_some_iff.1 hrun
    obtain ⟨⟨s2, out2⟩, hrest, ⟨⟩⟩ := bind_eq_some_iff.1 hrun
    obtain ⟨m1, hreach1, hm1⟩ := st.reaches hcode fuel hplain.1 hclosed.1 (forall_mem_append.1 hvars).1 hst hat.left hm
    obtain ⟨m2, hreach2, hm2⟩ := rest.reaches hcode fuel hplain.2 hclosed.2
      (forall_mem_append.1 hvars).2 hrest hat.right hm1
    exact ⟨m2, by simpa [Block.code, Nat.add_assoc] using hreach1.trans hreach2, hm2⟩
termination_by structural fuel => fuel

theorem Tail.reaches (hcode : (labels code).Nodup) : ∀ (fuel : Nat) (t : Tail) {s s' : Store V}
    {out : List (Event V)} {r l : Nat} {stop : String}, t.plain = true → t.closed = true → (∀ x ∈ t.vars, ¬ IsReg x) →
    t.run I fuel s = some (s', out) → Carries I code (t.code stop r l ++ [.label (.name stop)]) (t.code stop r l) s s'
  | 0, t, s, s', out, r, l, stop, _, _, _, hrun => by cases hrun
  | fuel + 1, .done, s, s', out, r, l, stop, _, _, _, hrun => by
    cases hrun
    exact fun _ m _ hm => ⟨m, .refl, hm⟩
  | fuel + 1, .elif cond body rest, s, s', out, r, l, stop, hplain, hclosed, hvars, hrun => by
    simp only [Tail.plain, Tail.closed, Bool.and_eq_true] at hplain hclosed
    obtain ⟨v, hv, hrun⟩ := bind_eq_some_iff.1 hrun
    exact reaches_alternative hcode (.inr rfl) (fun y hy => hvars y (by simp [Tail.vars, hy])) hv
      (fun htruth => body.reaches hcode fuel hplain.1 hclosed.1
        (fun y hy => hvars y (by simp [Tail.vars, hy])) (by simpa [htruth] using hrun))
      fun htruth => rest.reaches hcode fuel hplain.2 hclosed.2
        (forall_mem_append.1 hvars).2 (by simpa [htruth] using hrun)
  | fuel + 1, .otherwise body, s, s', out, r, l, stop, hplain, hclosed, hvars, hrun =>
    fun _ _ hat => body.reaches hcode fuel hplain hclosed hvars hrun hat.left
termination_by structural fuel => fuel

end

/-- Flattening keeps the meaning of a program. -/
theorem ofProgram_simulates (I : Interp V) (p : Block) (hplain : p.plain = true)
    (hclosed : p.closed = true) (hvars : ∀ x ∈ p.vars, ¬ IsReg x) {fuel : Nat} {s s' : Store V}
    {out : List (Event V)} (hrun : p.run I fuel s = some (s', out)) :
    ∃ code m, Flat.ofProgram .fourth p.nodes = .ok code ∧ Reaches I code (0, s) (code.length, m) ∧
      step I code (code.length, m) = none ∧ ∀ x, ¬ IsReg x → m x = s' x := by
  have hcode : (labels (p.code 0 0)).Nodup := p.nodup_labels 0 0 hclosed
  obtain ⟨m, hreach, hm⟩ := p.reaches hcode fuel hplain hclosed hvars hrun (At.whole _) fun _ _ => rfl
  refine ⟨p.code 0 0, m, ofProgram_nodes p (p.tidy_of_closed hclosed), ?_, ?_, hm⟩
  · simpa using hreach
  · simp [step]

/-- Counts `x` down from three; each round notes in `y` which alternative was taken. -/
def countdown : Block :=
  .cons (.assign "x" (some (.prim .int)) (.const (.int 3)))
  (.cons (.whileDo (.binary (.var "x") ">" (.const (.int 0))) (.cons (.chain (.binary (.var "x") "==" (.const (.int 2)))
      (.cons (.assign "y" (some (.prim .int)) (.binary (.var "x") "*" (.const (.int 5)))) .nil)
      (.elif (.binary (.var "x") "==" (.const (.int 1)))
        (.cons (.assign "y" none (.binary (.var "y") "+" (.var "x"))) .nil)
        (.otherwise (.cons (.assign "y" none (.unary "-" (.var "x"))) .nil))))
    (.cons (.assign "x" none (.binary (.var "x") "-" (.const (.int 1)))) .nil))) .nil)

theorem ofProgram_simulates_countdown :
    ∃ code m, Flat.ofProgram .fourth countdown.nodes = .ok code ∧
      Reaches ints code (0, fun _ => none) (code.length, m) ∧ m "x" = some 0 ∧ m "y" = some 11 := by
  have hvars : ∀ x ∈ countdown.vars, ¬ IsReg x := by
    intro x hx hreg
    have hhead : ∀ x ∈ countdown.vars, x.toList.head? ≠ some '_' := by decide
    exact hhead x hx hreg.head
  have hrun : (countdown.run ints 20 fun _ => none).map (fun o => (o.1 "x", o.1 "y")) =
      some (some 0, some 11) := by decide
  obtain ⟨⟨s', out⟩, hrun, hs'⟩ := Option.map_eq_some_iff.mp hrun
  obtain ⟨code, m, hcode, hreach, -, hm⟩ := ofProgram_simulates ints countdown (by decide) (by decide) hvars hrun
  simp only [Prod.mk.injEq] at hs'
  refine ⟨code, m, hcode, hreach, ?_, ?_⟩
  · rw [hm _ fun h => absurd h.head (by decide), hs'.1]
  · rw [hm _ fun h => absurd h.head (by decide), hs'.2]

end Tabc.Core
