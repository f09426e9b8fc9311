import Tabc.Proofs.Rebuild.Recovery
import Tabc.Proofs.Writing.Frozen
import Tabc.Proofs.Writing.Steps
import Tabc.Typing.Check

/-!
# Output without folding

Without folding, conditions are written as they stand, and the body of the output is the frozen program.
-/

open List

namespace Tabc.Core

open Target Target.Writer
open Bool (and_eq_true)
open EStateM (run_bind run_get run_pure run_modify)

attribute [local simp] Stmt.vars Tail.vars Block.run Stmt.run Term.vars

/-- The writer has these values of variables, and none that varies. -/
structure Tracks (w : Writer) (ρ : Store Int) : Prop extends Bare w where
  variants : w.variants = []
  vars : ∀ x, w.vars.lookup x = (ρ x).map fun v => .atom (.int v)

/-- The writer does not fold, and has these values of variables. -/
structure Reflects (w : Writer) (ρ : Store Int) : Prop extends Tracks w ρ where
  folding : w.folding = false

variable {w w' : Writer} {ρ : Store Int} {Γ : Types} {x : String}

variable {op : String} {t cond : Term} {seen : List String} {body : Block}

theorem operator_eq (hop : op ∈ arithOps ++ compareOps) : operator op = op := by
  revert op
  decide

theorem Term.text_binary (a : Term) (op : String) (b : Term) :
    "(" ++ operation a.shown op b.shown ++ ")" = (Term.binary a op b).text := by
  simp only [operation, Term.plain_shown, Term.text, String.append_assoc]

theorem run_binary_unfolded {a b : Term} (h : Bare w) (hfolding : w.folding = false)
    (hop : op ∈ arithOps ++ compareOps) (hx : Leads w.temps x a.shown)
    (hy : Leads w.temps y b.shown) (hox : IsReg x ∨ Nice x) (hoy : IsReg y ∨ Nice y) (n : Nat)
    (type : Target.Node) :
    (write (.binary (.ident (reg n)) type op (.ident x) (.ident y))).run w =
      .ok .nothing { w with temps := put (reg n) (.text (Term.binary a op b).text) w.temps } := by
  refine run_reporting_ok ?_
  rw [binary]
  simp only [run_bind, run_write_ident, run_lineText, hx.run_nameValue h.registers hox,
    hy.run_nameValue h.registers hoy, run_get, hfolding, Bool.false_eq_true, if_false,
    run_isRegister_reg, if_true, operator_eq hop, Term.text_binary, setTemp, run_modify]
  rfl

/-- The writer computes an expression in registers without any output, and its operand gets its
text. -/
def Term.Unfolds (t : Term) (Γ : Types) : Prop :=
  ∀ (r : Nat) (w : Writer), Bare w → w.folding = false →
    ∃ temps, Computes (t.trees Γ r) w r t.size temps ∧ Leads temps (t.operand r) t.shown

/-- An operation leaves the texts of its operands and its own. -/
theorem Term.Unfolds.binary {a b : Term} (ha : a.Unfolds Γ) (hb : b.Unfolds Γ)
    (hop : op ∈ arithOps ++ compareOps) (hvars : ∀ x ∈ (Term.binary a op b).vars, Nice x)
    (hfinal : Final (Term.binary a op b).shown) (r : Nat) (w : Writer) (h : Bare w)
    (hfolding : w.folding = false) :
    ∃ temps, Computes ((Term.binary a op b).trees Γ r) w r (Term.binary a op b).size temps ∧
      Leads temps ((Term.binary a op b).operand r) (Term.binary a op b).shown ∧
      Leads temps (a.operand r) a.shown ∧ Leads temps (b.operand (r + a.size)) b.shown := by
  obtain ⟨hva, hvb⟩ := forall_mem_append.1 hvars
  obtain ⟨ta, hta, hla⟩ := ha r w h hfolding
  obtain ⟨tb, htb, hlb⟩ := hb (r + a.size) { w with temps := ta } { h with registers := hta.registers } hfolding
  exact hta.binary hla hva htb hlb hvb hfinal fun n temps hregs hx hy =>
    run_binary_unfolded (w := { w with temps }) { h with registers := hregs } hfolding hop hx hy
      (a.operand_cases r hva) (b.operand_cases _ hvb) n _

theorem Term.unfolds_arith (ht : t.arith = true) (hvars : ∀ x ∈ t.vars, Nice x) : t.Unfolds Γ := by
  induction t, ht using Term.arith_induction with
  | int n => exact fun r w h _ => computes_const Γ r n h
  | var x =>
    intro r w h _
    have hx := h.registers x (hvars x (by simp)).not_isReg
    exact ⟨_, .nil h.registers r, .inr ⟨hx, rfl⟩⟩
  | binary a op b ht hop _ _ iha ihb =>
    have hfinal := (Term.binary a op b).final_shown (by simp [ht]) hvars
    intro r w h hfolding
    obtain ⟨temps, hcomputes, hlead, -⟩ := Term.Unfolds.binary (iha (forall_mem_append.1 hvars).1)
      (ihb (forall_mem_append.1 hvars).2) (mem_append_left _ hop) hvars hfinal r w h hfolding
    exact ⟨temps, hcomputes, hlead⟩

theorem Term.unfolds_comparison (ht : t.comparison = true) (hvars : ∀ x ∈ t.vars, Nice x) (r : Nat)
    (w : Writer) (h : Bare w) (hfolding : w.folding = false) :
    ∃ temps last, Computes (t.trees Γ r) w r t.size temps ∧ Leads temps (t.operand r) t.shown ∧
      (t.trees Γ r).getLast? = some last ∧ ∀ (n : Nat) (w' : Writer), Bare w' → w'.folding = false →
        (∀ x, ¬ Taken (r + t.size) n x → w'.temps.lookup x = temps.lookup x) → (write last).run w' =
          .ok .nothing { w' with temps := put (reg (r + t.size)) t.shown w'.temps } := by
  have hfinal := t.final_shown (by simp [ht]) hvars
  match t, ht with
  | .binary a op b, ht =>
    simp only [Term.comparison, and_eq_true, contains_iff_mem] at ht
    obtain ⟨hva, hvb⟩ := forall_mem_append.1 hvars
    have hop : op ∈ arithOps ++ compareOps := mem_append_right _ ht.1.1
    obtain ⟨temps, hcomputes, hlead, hla, hlb⟩ := Term.Unfolds.binary
      (unfolds_arith ht.1.2 hva) (unfolds_arith ht.2 hvb) hop hvars hfinal r w h hfolding
    refine ⟨temps, .binary (.ident (reg (r + a.size + b.size + 1)))
      (.type (.prim ((Term.binary a op b).type Γ))) op (.ident (a.operand r))
      (.ident (b.operand (r + a.size))), hcomputes, hlead, by simp [Term.trees],
      fun n w' h' hfolding' hframe => ?_⟩
    have hsize : (Term.binary a op b).size = a.size + b.size + 1 := rfl
    have hna : ¬ Taken (r + (Term.binary a op b).size) n (a.operand r) := fun htaken =>
      a.not_taken_operand (fun x hx => (hva x hx).not_isReg) r (b.size + 1 + n) (htaken.mono (by omega) (by omega))
    have hnb : ¬ Taken (r + (Term.binary a op b).size) n (b.operand (r + a.size)) := fun htaken =>
      b.not_taken_operand (fun x hx => (hvb x hx).not_isReg) (r + a.size) (1 + n) (htaken.mono (by omega) (by omega))
    rw [show r + (Term.binary a op b).size = r + a.size + b.size + 1 by omega]
    exact run_binary_unfolded h' hfolding' hop (hla.congr (hframe _ hna)) (hlb.congr (hframe _ hnb))
      (a.operand_cases r hva) (b.operand_cases _ hvb) _ _

theorem run_hold (name : String) (v : Target.Node) (w : Writer) :
    ∃ held, (hold name v).run w = .ok () { w with held } := by
  rw [hold]
  simp only [run_bind, run_get]
  split
  · split
    · exact ⟨w.held, rfl⟩
    · split
      · exact ⟨_, rfl⟩
      · split
        · exact ⟨_, rfl⟩
        · exact ⟨w.held, rfl⟩
  · split
    · exact ⟨_, rfl⟩
    · exact ⟨w.held, rfl⟩

/-- The writer follows the values of these variables. -/
theorem Tracks.gives (h : Tracks w ρ) (hnames : ∀ y ∈ names, (ρ y).isSome = true) : Gives (known w) ρ names := by
  intro y hy
  obtain ⟨v, hv⟩ := Option.isSome_iff_exists.mp (hnames y hy)
  exact ⟨v, hv, by simp [known, h.variants, h.vars y, hv]⟩

theorem Tracks.run_assign (h : Tracks w ρ) (hx : Fine x)
    {held : List (String × Target.Held)} {p : Piece} {u : Target.Node}
    (hlead : Leads w.temps o t.shown) (ho : IsReg o ∨ Nice o) (ht : t.arith = true)
    (hvars : ∀ y ∈ t.vars, Fine y) (hnames : ∀ y ∈ t.vars, (ρ y).isSome = true)
    (hvalue : (assignValue x t.shown "").run w = .ok (.value p u) { w with held }) :
    ∃ v, t.eval ints ρ = some v ∧ (write (.assign (.ident x) (.text o))).run w =
      .ok (.line (x ++ " = " ++ (Term.const (.int v)).text ++ ";"))
        { w with held, vars := put x (.atom (.int v)) w.vars } := by
  obtain ⟨v, hv, heval⟩ := evaluate_text ht (fun y hy => (hvars y hy).toNice) (h.gives hnames)
  refine ⟨v, hv, ?_⟩
  have hmark : (o == "_") = false := by
    rw [beq_eq_false_iff_ne]
    rintro rfl
    rcases ho with ⟨n, hn⟩ | ho
    · simpa [← hn] using reg_ne_blank n
    obtain ⟨c, cs, hcs, hc⟩ := ho.head
    cases hcs
    exact absurd hc (by decide)
  have hside : (assignSide x false (.text o) (write (.text o))).run w = .ok (.value p u) { w with held } :=
    (run_assignSide_text h.toBare hlead ho ht hvars x _).trans hvalue
  have heval' : (evalAssign (.text o) (write (.ident x))).run { w with held } =
      .ok (.atom (.int v)) { w with held } := by
    have hknown : known { w with held } = known w := rfl
    exact run_evalAssign (hlead.run_lookUp (w := { w with held }) h.registers) (by rw [h.literals]; rfl)
      (by rw [Term.plain_shown, hknown, heval])
  exact run_reporting_ok (run_assign_of_side hx.visible (h.registers x hx.not_isReg) h.trial hmark hside
    h.variants heval')

/-- Without folding, the right side stays as it is. -/
theorem run_assignValue_unfolded (hfolding : w.folding = false) (x : String) (v : Target.Node) :
    ∃ held, (assignValue x v "").run w =
      .ok (.value (.line (x ++ " = " ++ v.plain .fourth ++ "")) v) { w with held } := by
  obtain ⟨held, hheld⟩ := run_hold x v w
  refine ⟨held, ?_⟩
  rw [assignValue, heldValue]
  simp only [run_bind, run_get, hfolding, Bool.not_false, if_true, run_pure, hheld]

/-- These variables have values. -/
def Covers (ρ : Store Int) (seen : List String) : Prop := ∀ y ∈ seen, (ρ y).isSome = true

theorem Covers.eval (h : Covers ρ seen) (ht : t.arith = true) (hvars : t.vars ⊆ seen) :
    ∃ v, t.eval ints ρ = some v := by
  have hgives : Gives (fun x => (ρ x).map fun v => .atom (.int v)) ρ t.vars := by
    intro y hy
    obtain ⟨v, hv⟩ := Option.isSome_iff_exists.mp (h y (hvars hy))
    exact ⟨v, hv, by simp [hv]⟩
  obtain ⟨v, hv, -⟩ := eval_arith ht hgives
  exact ⟨v, hv⟩

mutual

theorem Stmt.covers_pass : ∀ s : Stmt, Settled Covers s.numeric s.scoped s.targets (fun _ => true) s.pass
  | .assign x _ value => fun hnum _ ρ seen hscoped h => by
    obtain ⟨v, hv⟩ := h.eval hnum (all_contains.mp hscoped)
    refine ⟨rfl, fun y hy => ?_⟩
    rw [Stmt.pass, hv]
    by_cases hyx : y = x
    · rw [hyx, Function.update_self]
      rfl
    · rw [Function.update_of_ne hyx]
      exact h y (by simpa [Stmt.targets, hyx] using hy)
  | .print x => fun _ _ ρ seen _ h => ⟨rfl, by simpa [Stmt.pass, Stmt.targets] using h⟩
  | .whileDo _ body => body.covers_pass.guard fun _ _ _ _ => rfl
  | .forRange .. => fun hnum => by simp [Stmt.numeric] at hnum
  | .chain _ body rest => (body.covers_pass.guard fun _ _ _ _ => rfl).seq rest.covers_pass

theorem Block.covers_pass : ∀ p : Block, Settled Covers p.numeric p.scoped p.targets (fun _ => true) p.pass
  | .nil => fun _ _ ρ seen _ h => ⟨rfl, by simpa [Block.pass, Block.targets] using h⟩
  | .cons s rest => s.covers_pass.seq rest.covers_pass

theorem Tail.covers_pass : ∀ t : Tail, Settled Covers t.numeric t.scoped t.targets (fun _ => true) t.pass
  | .done => fun _ _ ρ seen _ h => ⟨rfl, by simpa [Tail.pass, Tail.targets] using h⟩
  | .elif _ body rest => (body.covers_pass.guard fun _ _ _ _ => rfl).seq rest.covers_pass
  | .otherwise body => body.covers_pass

end

/-- In this state, trees are written with these statements as their output, and the writer follows
these values afterwards. -/
def EmitsIn (w : Writer) (trees : List Target.Node) (r n : Nat) (ρ' : Store Int) (p : Block) : Prop :=
  ∃ items w', Writes trees w items w' ∧ Shows items p ∧ Reflects w' ρ' ∧ Moves w w' r n

/-- From values of variables to others, trees are written with these statements as their output. -/
def Emits (trees : List Target.Node) (r n : Nat) (ρ ρ' : Store Int) (p : Block) : Prop :=
  ∀ w, Reflects w ρ → EmitsIn w trees r n ρ' p

variable {trees trees' : List Target.Node} {r n m : Nat} {ρ1 ρ' : Store Int} {p q : Block}

theorem Emits.append (h : Emits trees r n ρ ρ1 p) (h' : Emits trees' (r + n) m ρ1 ρ' q) :
    Emits (trees ++ trees') r (n + m) ρ ρ' (p.append q) := by
  intro w hw
  obtain ⟨items, w1, hwrites, hshows, hw1, hmoves⟩ := h w hw
  obtain ⟨items', w', hwrites', hshows', hw', hmoves'⟩ := h' w1 hw1
  exact ⟨_, w', hwrites.append hwrites', hshows.append hshows', hw', hmoves.trans hmoves'⟩

theorem EmitsIn.run_block (h : EmitsIn (entered w) trees r n ρ' p) (hw : Bare w) :
    ∃ items w', (write (.block trees)).run w = .ok (.nested items) w' ∧ Shows items p ∧
      Reflects w' ρ' ∧ Moves w w' r n := by
  obtain ⟨items, w', hwrites, hshows, hw', hmoves⟩ := h
  obtain ⟨hmoves, hbare⟩ := hmoves.leave hw hw'.toBare
  exact ⟨items, leave w', hwrites.run_block, hshows, { hw' with toBare := hbare }, hmoves⟩

theorem Reflects.entered (h : Reflects w ρ) : Reflects (entered w) ρ := { h with toBare := h.toBare.entered }

theorem Reflects.setTemps {temps : List (String × Target.Node)} (h : Reflects w ρ)
    (htemps : OnlyRegs temps) : Reflects { w with temps } ρ := { h with registers := htemps }

theorem Reflects.setVar (h : Reflects w ρ) (x : String) (v : Int) (held : List (String × Target.Held)) :
    Reflects { w with held, vars := put x (.atom (.int v)) w.vars } (Function.update ρ x (some v)) where
  toBare := { h.toBare with }
  folding := h.folding
  variants := h.variants
  vars y := by
    by_cases hyx : y = x
    · rw [hyx, lookup_put_self, Function.update_self]
      rfl
    · rw [lookup_put_of_ne hyx, Function.update_of_ne hyx]
      exact h.vars y

/-- An assignment is written with the constant that it gives. -/
theorem emits_assign {value : Term} (type : Option Ty) (hvalue : value.arith = true)
    (hvars : value.vars ⊆ seen) (hfine : ∀ y ∈ (Stmt.assign x type value).vars, Fine y)
    (hΓ : Integral Γ seen) (hρ : Covers ρ seen) (r : Nat) :
    Emits ((Stmt.assign x type value).trees Γ r) r (Stmt.assign x type value).regs ρ
      ((Stmt.assign x type value).pass ρ) ((Stmt.assign x type value).frozen ρ).block := by
  intro w hw
  have hx : Fine x := hfine x (by simp)
  have hfine' : ∀ y ∈ value.vars, Fine y := (forall_mem_cons.1 hfine).2
  have hnice : ∀ y ∈ value.vars, Nice y := fun y hy => (hfine' y hy).toNice
  obtain ⟨temps, hcomputes, hlead⟩ := value.unfolds_arith hvalue hnice r w hw.toBare hw.folding
  obtain ⟨items, declared, hdecl, hshows, hscopes, hdrop⟩ :=
    hx.toNice.writes_first (w := { w with temps }) Γ { hw.toBare with registers := hcomputes.registers }
  have hw1 : Reflects { w with temps, declared } ρ := { hw with registers := hcomputes.registers, scopes := hscopes }
  obtain ⟨held, hside⟩ := run_assignValue_unfolded hw1.folding x value.shown
  obtain ⟨v, hv, hrun⟩ := hw1.run_assign hx hlead (value.operand_cases r hnice) hvalue hfine'
    (fun y hy => hρ y (hvars hy)) hside
  have hassign := hx.toNice.shows_assign (t := .const (.int v)) rfl (by simp)
  have hwrites := hdecl.append (.single hrun)
  rw [Stmt.trees, hΓ.type hvalue hvars, Stmt.pass, Stmt.frozen, Term.frozen, hv]
  exact ⟨_, _, hcomputes.writes.append hwrites, hshows.append hassign, hw1.setVar x v held,
    ⟨hcomputes.moves.temps, hdrop⟩⟩

theorem emits_print (hx : Nice x) (hΓ : Γ x = some .int) (r : Nat) :
    Emits ((Stmt.print x).trees Γ r) r (Stmt.print x).regs ρ ρ (Stmt.print x).block := by
  intro w hw
  obtain ⟨items, temps, hwrites, hshows, hmoves, hregs⟩ := hx.writes_print hΓ r hw.toBare
  exact ⟨items, _, hwrites, hshows, hw.setTemps hregs, hmoves⟩

section Heads

variable {t : Term} {o : String} {body : Target.Node} {b : Piece}

variable (hw : Bare w) (hfolding : w.folding = false) (hlead : Leads w.temps o t.shown)
  (ho : IsReg o ∨ Nice o) (hbody : (write body).run w = .ok b w')

include hw hfolding hlead ho hbody

theorem run_while_unfolded :
    (write (.whileDo (.ident o) body)).run w = .ok (.braced ("while (" ++ t.text ++ ")") b) w' := by
  refine run_reporting_ok ?_
  rw [whileDo]
  simp only [run_bind, run_write_ident, run_lineText, hlead.run_nameValue hw.registers ho,
    run_get, hfolding, Bool.not_false, if_true, hbody, Term.plain_shown, run_pure]

theorem run_if_unfolded : (write (.ifThen (.ident o) body)).run w = .ok (.braced ("if (" ++ t.text ++ ")") b) w' := by
  refine run_reporting_ok ?_
  rw [ifThen]
  simp only [run_bind, run_get, hfolding, Bool.false_eq_true, if_false, run_write_ident, run_lineText,
    hlead.run_nameValue hw.registers ho, hbody, Term.plain_shown, run_pure]

theorem run_elif_unfolded :
    (write (.elifThen (.ident o) body)).run w = .ok (.braced ("else if (" ++ t.text ++ ")") b) w' := by
  refine run_reporting_ok ?_
  rw [elifThen]
  simp only [run_bind, run_get, hfolding, Bool.false_eq_true, if_false, run_write_ident, run_lineText,
    hlead.run_nameValue hw.registers ho, hbody, Term.plain_shown, run_pure]

omit hw hfolding hlead ho hbody

theorem run_else_unfolded (hfolding : w.folding = false) (hbody : (write body).run w = .ok b w') :
    (write (.elseThen body)).run w = .ok (.braced "else" b) w' := by
  refine run_reporting_ok ?_
  rw [elseThen]
  simp only [run_bind, run_get, hfolding, Bool.false_eq_true, if_false, hbody, run_pure]

end Heads

/-- A loop is written with its condition as it stands. -/
theorem emits_while (hcond : cond.comparison = true) (hvars : ∀ y ∈ cond.vars, Nice y)
    (hbody : Emits (body.trees Γ (r + cond.size)) (r + cond.size) body.regs ρ ρ' p) :
    Emits ((Stmt.whileDo cond body).trees Γ r) r (Stmt.whileDo cond body).regs ρ ρ' (Stmt.whileDo cond p).block := by
  intro w hw
  obtain ⟨temps, last, hcomputes, hlead, hlast, hagain⟩ :=
    cond.unfolds_comparison hcond hvars r w hw.toBare hw.folding
  have hsize : 0 < cond.size := by
    match cond, hcond with
    | .binary a op b, _ => exact Nat.succ_pos _
  have hw1 := hw.setTemps hcomputes.registers
  obtain ⟨items, w2, hwrites, hshows, hw2, hmoves⟩ := hbody _ hw1.entered
  -- at the end of the body, the last operation of the condition is done again
  have hrun := hagain body.regs w2 hw2.toBare hw2.folding hmoves.temps
  have hregs := hw2.registers.put (r + cond.size) cond.shown
  have hagain' : EmitsIn (entered { w with temps }) (body.trees Γ (r + cond.size) ++ [last])
      r (cond.size + body.regs) ρ' p := by
    refine ⟨items ++ [], _, hwrites.append (.single hrun), by simpa using hshows, hw2.setTemps hregs, ?_⟩
    exact (hmoves.mono (by omega) (by omega)).comp (.setReg ⟨by omega, by omega⟩ _)
  obtain ⟨items, w', hrun, hshows, hw', hmoves⟩ := hagain'.run_block hw1.toBare
  have hnode := run_while_unfolded hw1.toBare hw1.folding hlead (cond.operand_cases r hvars) hrun
  rw [Stmt.trees, hlast]
  exact ⟨_, w', hcomputes.writes.append (.single hnode), .loop hcond hvars hshows, hw',
    (hcomputes.moves.mono le_rfl (by simp only [Stmt.regs]; omega)).comp hmoves⟩

/-- The registers for the further conditions of a chain have their texts. -/
def Tail.Worded (temps : List (String × Target.Node)) : Tail → Nat → Prop
  | .done, _ => True
  | .elif cond body rest, r => Leads temps (cond.operand r) cond.shown ∧ rest.Worded temps (r + cond.size + body.regs)
  | .otherwise _, _ => True

theorem Tail.Worded.of_moves : ∀ {t : Tail} {k : Nat}, t.numeric = true →
    t.Worded w.temps k → Moves w w' r n → r + n ≤ k → t.Worded w'.temps k
  | .done, _, _, _, _, _ => trivial
  | .elif cond body rest, k, hnum, h, hmoves, hk => by
    simp only [Tail.numeric, and_eq_true] at hnum
    refine ⟨h.1.of_moves hmoves fun htaken => ?_, Worded.of_moves hnum.2 h.2 hmoves (by omega)⟩
    match cond, hnum.1.1 with
    | .binary a op b, _ =>
      obtain ⟨j, hj, hjn, heq⟩ := htaken
      have := reg_inj.mp heq
      simp only [Term.size] at this
      omega
  | .otherwise _, _, _, _, _, _ => trivial

/-- The further conditions of a chain are computed in front of it. -/
theorem Tail.computes_heads : ∀ (t : Tail) {Γ : Types} {r : Nat} {w : Writer}, t.numeric = true →
    (∀ y ∈ t.vars, Nice y) → Bare w → w.folding = false →
    ∃ temps, Computes (t.heads Γ r) w r t.regs temps ∧ t.Worded temps r
  | .done, Γ, r, w, _, _, h, _ => ⟨_, .nil h.registers r, trivial⟩
  | .elif cond body rest, Γ, r, w, hnum, hvars, h, hfolding => by
    simp only [Tail.numeric, and_eq_true] at hnum
    have hcond : ∀ y ∈ cond.vars, Nice y := fun y hy => hvars y (by simp [hy])
    obtain ⟨temps, -, hcomputes, hlead, -⟩ := cond.unfolds_comparison hnum.1.1 hcond r w h hfolding
    obtain ⟨temps', hcomputes', hworded⟩ := rest.computes_heads
      (w := { w with temps }) hnum.2
      (forall_mem_append.1 hvars).2 { h with registers := hcomputes.registers } hfolding
    have hlater : Computes (rest.heads (body.types Γ) (r + cond.size + body.regs)) { w with temps }
        (r + cond.size) (body.regs + rest.regs) temps' := hcomputes'.mono (by omega) (by omega)
    have hall := hcomputes.append hlater
    refine ⟨temps', hall.mono le_rfl (by simp only [Tail.regs]; omega), ?_, hworded⟩
    have hnot := cond.not_taken_operand (fun y hy => (hcond y hy).not_isReg) r (body.regs + rest.regs)
    exact hlead.of_moves hcomputes'.moves fun htaken => hnot (htaken.mono (by omega) (by omega))
  | .otherwise body, Γ, r, w, _, _, h, _ =>
    ⟨_, (Computes.nil h.registers r).mono le_rfl (Nat.le_add_right _ _), trivial⟩

/-- From values of variables to others, the further alternatives of a chain are written, once their
conditions have been computed. -/
def Tail.Emits (t : Tail) (Γ : Types) (r : Nat) (ρ ρ' : Store Int) (q : Tail) : Prop :=
  ∀ w, Reflects w ρ → t.Worded w.temps r → ∃ items w', Writes (t.trees Γ r) w items w' ∧
    ShowsTail items q ∧ Reflects w' ρ' ∧ Moves w w' r t.regs

theorem emits_chain {rest q : Tail} (hcond : cond.comparison = true) (hrest : rest.numeric = true)
    (hvars : ∀ y ∈ cond.vars ++ rest.vars, Nice y)
    (hbody : Emits (body.trees Γ (r + cond.size)) (r + cond.size) body.regs ρ ρ1 p)
    (htail : rest.Emits (body.types Γ) (r + cond.size + body.regs) ρ1 ρ' q) :
    Emits ((Stmt.chain cond body rest).trees Γ r) r (Stmt.chain cond body rest).regs ρ ρ'
      (Stmt.chain cond p q).block := by
  intro w hw
  have hnice : ∀ y ∈ cond.vars, Nice y := fun y hy => hvars y (by simp [hy])
  obtain ⟨temps, -, hcomputes, hlead, -⟩ := cond.unfolds_comparison hcond hnice r w hw.toBare hw.folding
  obtain ⟨temps', hheads, hworded⟩ := rest.computes_heads
    (r := r + cond.size + body.regs) (w := { w with temps }) hrest
    (fun y hy => hvars y (by simp [hy])) { hw.toBare with registers := hcomputes.registers } hw.folding
  have hlead' : Leads temps' (cond.operand r) cond.shown := by
    have hnot := cond.not_taken_operand (fun y hy => (hnice y hy).not_isReg) r (body.regs + rest.regs)
    exact hlead.of_moves hheads.moves fun htaken => hnot (htaken.mono (by omega) (by omega))
  have hw1 := hw.setTemps hheads.registers
  obtain ⟨items, w2, hrun, hshows, hw2, hmoves⟩ := EmitsIn.run_block (hbody _ hw1.entered) hw1.toBare
  have hnode := run_if_unfolded hw1.toBare hw1.folding hlead' (cond.operand_cases r hnice) hrun
  obtain ⟨items', w', hwrites', hshows', hw', hmoves'⟩ := htail w2 hw2 (hworded.of_moves hrest hmoves le_rfl)
  refine ⟨_, w', (hcomputes.writes.append hheads.writes).append (.cons hnode hwrites'),
    .chain hcond hnice hshows hshows', hw', ?_⟩
  rw [Stmt.regs]
  exact (hcomputes.moves.mono le_rfl (by omega)).comp <| (hheads.moves.mono (by omega) (by omega)).comp <|
    (hmoves.mono (by omega) (by omega)).comp (hmoves'.mono (by omega) (by omega))

theorem Tail.emits_elif {rest q : Tail} (hcond : cond.comparison = true)
    (hrest : rest.numeric = true) (hvars : ∀ y ∈ cond.vars, Nice y)
    (hbody : Core.Emits (body.trees Γ (r + cond.size)) (r + cond.size) body.regs ρ ρ1 p)
    (htail : rest.Emits (body.types Γ) (r + cond.size + body.regs) ρ1 ρ' q) :
    (Tail.elif cond body rest).Emits Γ r ρ ρ' (.elif cond p q) := by
  intro w hw hworded
  obtain ⟨items, w2, hrun, hshows, hw2, hmoves⟩ := EmitsIn.run_block (hbody _ hw.entered) hw.toBare
  have hnode := run_elif_unfolded hw.toBare hw.folding hworded.1 (cond.operand_cases r hvars) hrun
  obtain ⟨items', w', hwrites', hshows', hw', hmoves'⟩ := htail w2 hw2 (hworded.2.of_moves hrest hmoves le_rfl)
  refine ⟨_, w', .cons hnode hwrites', .elif hcond hvars hshows hshows', hw', ?_⟩
  rw [Tail.regs]
  exact (hmoves.mono (by omega) (by omega)).comp (hmoves'.mono (by omega) (by omega))

mutual

/-- A statement is written as the frozen one. -/
theorem Stmt.emits : ∀ (s : Stmt) {Γ : Types} {seen : List String} {ρ : Store Int} {r : Nat},
    s.numeric = true → s.scoped seen = true → (∀ y ∈ s.vars, Fine y) → Integral Γ seen →
    Covers ρ seen → Emits (s.trees Γ r) r s.regs ρ (s.pass ρ) (s.frozen ρ).block
  | .assign x type value, Γ, seen, ρ, r, hnum, hscoped, hfine, hΓ, hρ =>
    emits_assign type hnum (all_contains.mp hscoped) hfine hΓ hρ r
  | .print x, Γ, seen, ρ, r, _, hscoped, hfine, hΓ, _ => by
    have hx : x ∈ seen := by simpa [Stmt.scoped] using hscoped
    exact emits_print (hfine x (by simp)).toNice (by rw [hΓ x, if_pos hx]) r
  | .whileDo cond body, Γ, seen, ρ, r, hnum, hscoped, hfine, hΓ, hρ => by
    simp only [Stmt.numeric, Stmt.scoped, and_eq_true] at hnum hscoped
    exact emits_while hnum.1 (fun y hy => (hfine y (by simp [hy])).toNice)
      (body.emits hnum.2 hscoped.2 (forall_mem_append.1 hfine).2 hΓ hρ)
  | .forRange .., _, _, _, _, hnum, _, _, _, _ => by simp [Stmt.numeric] at hnum
  | .chain cond body rest, Γ, seen, ρ, r, hnum, hscoped, hfine, hΓ, hρ => by
    simp only [Stmt.numeric, Stmt.scoped, and_eq_true] at hnum hscoped
    have hfinebody : ∀ y ∈ body.vars, Fine y := fun y hy => hfine y (by simp [hy])
    have hfree : ∀ y ∈ body.targets, ScopeTable.builtins4.has y = false :=
      fun y hy => (hfinebody y (body.targets_subset hy)).free_of_builtins
    refine emits_chain hnum.1.1 hnum.2 (fun y hy => (hfine y ?_).toNice)
      (body.emits hnum.1.2 hscoped.1.2 hfinebody hΓ hρ)
      (rest.emits hnum.2 hscoped.2 (forall_mem_append.1 hfine).2
        (body.settled hnum.1.2 hfree hscoped.1.2 hΓ).2 (body.covers_pass hnum.1.2 hfree hscoped.1.2 hρ).2)
    simp only [Stmt.vars, mem_append] at hy ⊢
    tauto

theorem Block.emits : ∀ (p : Block) {Γ : Types} {seen : List String} {ρ : Store Int} {r : Nat},
    p.numeric = true → p.scoped seen = true → (∀ y ∈ p.vars, Fine y) → Integral Γ seen →
    Covers ρ seen → Emits (p.trees Γ r) r p.regs ρ (p.pass ρ) (p.frozen ρ)
  | .nil, Γ, seen, ρ, r, _, _, _, _, _ => fun w hw => ⟨[], w, .nil w, .nil, hw, .refl w r 0⟩
  | .cons s rest, Γ, seen, ρ, r, hnum, hscoped, hfine, hΓ, hρ => by
    simp only [Block.numeric, Block.scoped, and_eq_true] at hnum hscoped
    have hfines : ∀ y ∈ s.vars, Fine y := (forall_mem_append.1 hfine).1
    have hfree : ∀ y ∈ s.targets, ScopeTable.builtins4.has y = false :=
      fun y hy => (hfines y (s.targets_subset hy)).free_of_builtins
    exact (s.emits hnum.1 hscoped.1 hfines hΓ hρ).append (rest.emits hnum.2 hscoped.2 (forall_mem_append.1 hfine).2
        (s.settled hnum.1 hfree hscoped.1 hΓ).2 (s.covers_pass hnum.1 hfree hscoped.1 hρ).2)

theorem Tail.emits : ∀ (t : Tail) {Γ : Types} {seen : List String} {ρ : Store Int} {r : Nat},
    t.numeric = true → t.scoped seen = true → (∀ y ∈ t.vars, Fine y) → Integral Γ seen →
    Covers ρ seen → t.Emits Γ r ρ (t.pass ρ) (t.frozen ρ)
  | .done, Γ, seen, ρ, r, _, _, _, _, _ => fun w hw _ => ⟨[], w, .nil w, .done, hw, .refl w r 0⟩
  | .elif cond body rest, Γ, seen, ρ, r, hnum, hscoped, hfine, hΓ, hρ => by
    simp only [Tail.numeric, Tail.scoped, and_eq_true] at hnum hscoped
    have hfinebody : ∀ y ∈ body.vars, Fine y := fun y hy => hfine y (by simp [hy])
    have hfree : ∀ y ∈ body.targets, ScopeTable.builtins4.has y = false :=
      fun y hy => (hfinebody y (body.targets_subset hy)).free_of_builtins
    exact Tail.emits_elif hnum.1.1 hnum.2 (fun y hy => (hfine y (by simp [hy])).toNice)
      (body.emits hnum.1.2 hscoped.1.2 hfinebody hΓ hρ)
      (rest.emits hnum.2 hscoped.2 (forall_mem_append.1 hfine).2
        (body.settled hnum.1.2 hfree hscoped.1.2 hΓ).2 (body.covers_pass hnum.1.2 hfree hscoped.1.2 hρ).2)
  | .otherwise .nil, Γ, seen, ρ, r, _, _, _, _, _ => fun w hw _ => ⟨[], w, .nil w, .done, hw, .refl w r 0⟩
  | .otherwise (.cons s rest), Γ, seen, ρ, r, hnum, hscoped, hfine, hΓ, hρ => by
    intro w hw _
    have hbody := (Block.cons s rest).emits (r := r) hnum hscoped hfine hΓ hρ
    obtain ⟨items, w', hrun, hshows, hw', hmoves⟩ := EmitsIn.run_block (hbody _ hw.entered) hw.toBare
    exact ⟨_, w', .single (run_else_unfolded hw.folding hrun), .otherwise hshows, hw', hmoves⟩

end

/-- Without folding, the body of the output is the frozen program. -/
theorem Block.compiles_frozen (known : Option ScopeTable) (p : Block) (hnum : p.numeric = true)
    (hscoped : p.scoped [] = true) (htidy : p.tidy = true) (hlegible : p.legible = true)
    (hfine : ∀ x ∈ p.vars, Fine x) :
    ∃ lines, Compiles known false p lines ∧ readLines lines = some (p.frozen fun _ => none) := by
  have hΓ : Integral .empty [] := fun x => by simp [Types.empty]
  have hfree : ∀ x ∈ p.targets, ScopeTable.builtins4.has x = false :=
    fun x hx => (hfine x (p.targets_subset hx)).free_of_builtins
  obtain ⟨s, hbuild⟩ := p.run_code known (p.rangeless_of_numeric hnum) hlegible
    (p.settled hnum hfree hscoped hΓ).1 fun x hx => (hfine x hx).not_isReg
  have hstart : Reflects (.fresh false) fun _ => none :=
    { bare_fresh false with folding := rfl, variants := rfl, vars := fun _ => rfl }
  have hemits := p.emits (r := 0) hnum hscoped hfine hΓ (ρ := fun _ => none) (fun x hx => by simp at hx)
  obtain ⟨items, w', hrun, hshows, hw', -⟩ := EmitsIn.run_block (hemits _ hstart.entered) hstart.toBare
  exact ⟨_, ⟨_, _, s, w', ofProgram_nodes p htidy, hbuild, hw'.toBare.run_program hrun⟩, hshows.readLines_eq⟩

/-- Without folding, a program of whole numbers goes through all stages, and the body of its output is
the program with a constant in each assignment. If it is steady, every run of it that ends is a run of
the output, with the same values printed in the same order. -/
theorem unfolded_output_prints (known : Option ScopeTable) (p : Block) (hnum : p.numeric = true)
    (hscoped : p.scoped [] = true) (htidy : p.tidy = true) (hlegible : p.legible = true)
    (hfine : ∀ x ∈ p.vars, Fine x) :
    ∃ lines q, Compiles known false p lines ∧ readLines lines = some q ∧ q = p.frozen (fun _ => none) ∧
      (p.steady (fun _ => none) (fun _ => none) = true → ∀ fuel s out,
        p.run ints fuel (fun _ => none) = some (s, out) → q.run ints fuel (fun _ => none) = some (s, out)) := by
  obtain ⟨lines, hcompiles, hread⟩ := p.compiles_frozen known hnum hscoped htidy hlegible hfine
  refine ⟨lines, _, hcompiles, hread, rfl, fun hsteady fuel s out hrun => ?_⟩
  exact (p.run_frozen fuel hsteady (fun _ _ h => h) hrun).1

/-- A loop and a chain that only assign constants. -/
def settling : Block :=
  .cons (.assign "x" (some (.prim .int)) (.binary (.const (.int 2)) "+" (.const (.int 3)))) <|
  .cons (.assign "y" (some (.prim .int)) (.binary (.var "x") "*" (.const (.int 2)))) <|
  .cons (.whileDo (.binary (.var "y") ">" (.const (.int 4)))
    (.cons (.assign "y" none (.const (.int 4))) (.cons (.print "x") .nil))) <|
  .cons (.chain (.binary (.var "x") "<" (.var "y")) (.cons (.assign "y" none (.const (.int 1))) .nil)
    (.otherwise (.cons (.assign "y" none (.binary (.var "x") "-" (.const (.int 3)))) .nil))) <|
  .cons (.print "y") .nil

theorem unfolded_output_prints_settling :
    settling.steady (fun _ => none) (fun _ => none) = true ∧
      ∃ lines q s out, Compiles none false settling lines ∧ readLines lines = some q ∧
        q.run ints 20 (fun _ => none) = some (s, out) ∧ printed out = [5, 2] := by
  have hrun : (settling.run ints 20 fun _ => none).map (fun o => printed o.2) = some [5, 2] := by decide
  obtain ⟨⟨s, out⟩, hrun, hout⟩ := Option.map_eq_some_iff.mp hrun
  obtain ⟨lines, q, hcompiles, hread, -, hsame⟩ := unfolded_output_prints none settling (by decide)
    (by decide) (by decide) (by decide) (by decide)
  have hsteady : settling.steady (fun _ => none) (fun _ => none) = true := by decide
  exact ⟨hsteady, lines, q, s, out, hcompiles, hread, hsame hsteady 20 s out hrun, hout⟩

def counting : Block :=
  .cons (.assign "x" (some (.prim .int)) (.const (.int 0))) <|
  .cons (.whileDo (.binary (.var "x") "<" (.const (.int 3)))
    (.cons (.assign "x" none (.binary (.var "x") "+" (.const (.int 1)))) (.cons (.print "x") .nil))) .nil

/-- A loop that assigns a number below its bound never ends. -/
theorem run_stuck (hs : s "x" = some v) (hv : v < 3) (fuel : Nat) :
    (Stmt.whileDo (.binary (.var "x") "<" (.const (.int 3)))
      (.cons (.assign "x" none (.const (.int 1))) (.cons (.print "x") .nil))).run ints fuel s = none := by
  induction fuel generalizing s v with
  | zero => rfl
  | succ fuel ih =>
    have hcond : (Term.binary (.var "x") "<" (.const (.int 3))).eval ints s = some 1 := by
      simp [Term.eval, hs, ints, Const.atom, hv]
    have htruth : ints.truth 1 = true := rfl
    rw [Stmt.run]
    simp only [hcond, Option.bind_eq_bind, Option.bind_some, htruth, if_true]
    -- whatever a round does, the variable is one after it
    cases hbody : (Block.cons (.assign "x" none (.const (.int 1))) (.cons (.print "x") .nil)).run ints fuel s with
    | none => rfl
    | some result =>
      obtain ⟨s1, out⟩ := result
      have hs1 : s1 "x" = some 1 := by
        rcases fuel with _ | _ | _ | fuel
        · cases hbody
        · simp at hbody
        · simp at hbody
        simp only [Block.run, Stmt.run, Term.eval, Store.set_self, Option.bind_eq_bind,
          Option.bind_some, Option.pure_def, Option.some.injEq, Prod.mk.injEq] at hbody
        rw [← hbody.1]
        rfl
      simp [ih hs1 (by decide)]

/-- The output for a loop that counts assigns the first count again and again: the program ends, and
its output never does. -/
theorem unfolded_output_diverges :
    ∃ types table, (typecheck .fourth counting.nodes).run (.fresh .fourth) = .ok types table ∧
      (∃ s out, counting.run ints 20 (fun _ => none) = some (s, out) ∧ printed out = [1, 2, 3]) ∧
      ∃ lines q, Compiles (some table) false counting lines ∧ readLines lines = some q ∧
        ∀ fuel, q.run ints fuel (fun _ => none) = none := by
  obtain ⟨types, table, hcheck, -⟩ := exists_of_outcome
    ((typecheck .fourth counting.nodes).run (.fresh .fourth)) (fun _ => true) (by decide +kernel)
  have hrun : (counting.run ints 20 fun _ => none).map (fun o => printed o.2) = some [1, 2, 3] := by
    decide
  obtain ⟨⟨s, out⟩, hrun, hout⟩ := Option.map_eq_some_iff.mp hrun
  obtain ⟨lines, hcompiles, hread⟩ := counting.compiles_frozen (some table) (by decide) (by decide)
    (by decide) (by decide) (by decide)
  refine ⟨types, table, hcheck, ⟨s, out, hrun, hout⟩, lines, _, hcompiles, hread, fun fuel => ?_⟩
  match fuel with
  | 0 | 1 => rfl
  | fuel + 2 =>
    have hassign : (Stmt.assign "x" none (.const (.int 0))).run ints (fuel + 1) (fun _ => none) =
      some (Store.set (fun _ => none) "x" 0, [.assign "x" 0]) := rfl
    have hloop := run_stuck (Store.set_self (fun _ => none) "x" 0) (by decide)
    rw [show counting.frozen (fun _ => none) = .cons (.assign "x" none (.const (.int 0)))
      (.cons (.whileDo (.binary (.var "x") "<" (.const (.int 3)))
        (.cons (.assign "x" none (.const (.int 1))) (.cons (.print "x") .nil))) .nil) from rfl,
      Block.run, hassign]
    simp [hloop]

end Tabc.Core
