import Tabc.Proofs.Declaration.Shape

/-!
# Flattened expressions

Flattening an expression appends code that computes a value and does nothing else to the state but
count registers (`evaluation_flatten`).
-/

namespace Tabc.Core.Jumps

mutual

/-- An expression: no statement stands in it. A part that is missing counts as one. -/
def isExpr : Node → Bool
  | .atom _ => true
  | .ident _ => true
  | .literal .. => true
  | .collection _ items => areExprs items
  | .binary left _ right => isExpr left && isExpr right
  | .unary _ right => isExpr right
  | .call _ (.args (some items)) => areExprs items
  | .call _ (.args none) => true
  | .index obj idx => isExpr obj && isExpr idx
  | .slice obj start stop => isExpr obj && isExpr start && isExpr stop
  | .range stop start step => isExpr stop && isExpr start && isExpr step
  | _ => false

def areExprs : List Node → Bool
  | [] => true
  | n :: rest => isExpr n && areExprs rest

end

end Tabc.Core.Jumps

namespace Tabc.Declaration

open Tabc.Core Tabc.Core.Jumps Flat

variable {α β : Type}

theorem isTemporary_reg (n : Nat) : isTemporary (reg n) = true := by
  rw [isTemporary, reg_toList]
  rfl

/-- A step that appends code of some kind and leaves the open chains alone. -/
def Emits (P : List Instr → Prop) (x : FlatM α) : Prop :=
  ∀ ⦃s a s'⦄, x.run s = .ok a s' →
    ∃ new, P new ∧ s'.code = s.code ++ new ∧ s'.chains = s.chains ∧ s'.spots = s.spots ∧ s'.labels = s.labels

namespace Emits

variable {P Q R : List Instr → Prop}

theorem bind (hx : Emits P x) (hf : ∀ a, Emits Q (f a)) (h : ∀ a b, P a → Q b → R (a ++ b)) : Emits R (x >>= f) := by
  intro s b s' hrun
  obtain ⟨a, s1, h1, h2⟩ := of_run_bind hrun
  obtain ⟨new1, hP, hcode1, hchains1, hspots1, hlabels1⟩ := hx h1
  obtain ⟨new2, hQ, hcode2, hchains2, hspots2, hlabels2⟩ := hf a h2
  exact ⟨new1 ++ new2, h _ _ hP hQ, by rw [hcode2, hcode1, List.append_assoc], hchains2.trans hchains1,
    hspots2.trans hspots1, hlabels2.trans hlabels1⟩

theorem mono (hx : Emits P x) (h : ∀ new, P new → Q new) : Emits Q x := by
  intro s a s' hrun
  obtain ⟨new, hP, hs'⟩ := hx hrun
  exact ⟨new, h new hP, hs'⟩

theorem throw (e : Fault) : Emits P (throw e : FlatM α) := fun _ _ _ h => by cases h

theorem nothing (a : α) : Emits (· = []) (pure a : FlatM α) := by
  rintro s _ _ ⟨⟩
  exact ⟨[], rfl, (List.append_nil _).symm, rfl, rfl, rfl⟩

theorem bind_pure (hx : Emits P x) (f : α → β) : Emits P (x >>= fun a => pure (f a)) := by
  refine hx.bind (fun _ => nothing _) ?_
  rintro a _ ha rfl
  rwa [List.append_nil]

theorem emit (i : Instr) : Emits (· = [i]) (emit i) := by
  intro s a s' h
  cases h
  exact ⟨[i], rfl, rfl, rfl, rfl, rfl⟩

theorem register (hf : ∀ r, isTemporary r = true → Emits P (f r)) : Emits P (newRegister .fourth >>= f) := by
  intro s b s' h
  rw [run_bind_of_ok (run_newRegister s)] at h
  obtain ⟨new, hnew, hs'⟩ := hf _ (isTemporary_reg _) h
  exact ⟨new, hnew, hs'⟩

end Emits

/-- A step that appends the code of an expression. -/
def Evaluation (x : FlatM α) : Prop := Emits Computing x

namespace Evaluation

theorem throw (e : Fault) : Evaluation (throw e : FlatM α) := Emits.throw e

theorem register (hf : ∀ r, isTemporary r = true → Evaluation (f r)) :
    Evaluation (newRegister .fourth >>= f) := Emits.register hf

theorem pure (a : α) : Evaluation (pure a : FlatM α) := (Emits.nothing a).mono fun _ h => h ▸ .nil

theorem bind (hx : Evaluation x) (hf : ∀ a, Evaluation (f a)) :
    Evaluation (x >>= f) := Emits.bind hx hf fun _ _ => .append

theorem ofExcept (x : Except Fault α) : Evaluation (MonadExcept.ofExcept x : FlatM α) := by
  cases x with
  | ok a => exact .pure a
  | error e => exact .throw e

theorem choice {c : Prop} [Decidable c] (hx : Evaluation x)
    (hy : Evaluation y) (hf : ∀ a, Evaluation (f a)) : Evaluation (if c then x >>= f else y >>= f) :=
  of_ite (hx.bind hf) (hy.bind hf)

theorem emit (hi : computes i = true) : Evaluation (Flat.emit i) :=
  (Emits.emit i).mono fun _ h => h ▸ .piece (.single hi)

theorem emitChars : (cs : List Char) → Evaluation (emitChars .fourth cs)
  | [] => .pure ()
  | _ :: rest => .register fun _ _ => (emit rfl).bind fun _ => emitChars rest

theorem emitLiteral (kind : String) (value : Atom) : Evaluation (emitLiteral .fourth kind value) := by
  refine .register fun r hr => of_ite ?_ (.bind (.emit hr) fun _ => .pure _)
  cases value with
  | text s => exact .bind (.emit hr) fun _ => (emitChars _).bind fun _ => .pure _
  | _ => exact (Evaluation.throw _).bind fun _ => .pure _

theorem defaultBound (n : Int) : Evaluation (defaultBound .fourth n) :=
  .register fun _ hr => .bind (.emit hr) fun _ => .pure _

theorem call (name reg : Operand) : Evaluation (do
    Flat.emit (.call name reg)
    let result ← newRegister .fourth
    Flat.emit (.result (.name result))
    return Operand.name result) := by
  refine Emits.bind (Q := fun new => ∃ r, isTemporary r = true ∧ new = [.result (.name r)]) (.emit _)
    (fun _ => .register fun r hr => ?_) ?_
  · exact ((Emits.emit _).bind_pure _).mono fun _ h => ⟨r, hr, h⟩
  · rintro _ _ rfl ⟨r, hr, rfl⟩
    exact .piece (.call name reg hr)

end Evaluation

theorem Elements.of_computing {code rest : List Instr} {n : Nat} (hcode : Computing code)
    (hrest : Elements (n + 1) rest) : Elements (n + 1) (code ++ rest) := by
  induction hcode with
  | nil => exact hrest
  | cons hp _ ih =>
    rw [List.append_assoc]
    exact .piece hp ih

mutual

theorem evaluation_flatten : (n : Node) → isExpr n = true → Evaluation (flatten .fourth n)
  | .atom _, _ => by simp only [flatten]; exact .throw _
  | .ident _, _ => by rw [flatten]; exact .pure _
  | .literal kind value, _ => by rw [flatten]; exact .emitLiteral kind value
  | .collection _ items, h => by
    refine .register fun r hr => Emits.bind (.emit _) (fun _ => (elements_flattenElements items h).bind_pure _) ?_
    rintro _ code rfl hcode
    exact .piece (.collection _ hr hcode)
  | .binary left _ right, h | .index left right, h => by
    simp only [isExpr, Bool.and_eq_true] at h
    exact (evaluation_flatten left h.1).bind fun _ => (evaluation_flatten right h.2).bind fun _ =>
      .register fun _ hr => .bind (.emit hr) fun _ => .pure _
  | .unary _ right, h => by
    exact (evaluation_flatten right h).bind fun _ => .register fun _ hr => .bind (.emit hr) fun _ => .pure _
  | .call callee (.args (some items)), h => by
    rw [flatten]
    exact .register fun _ _ => .register fun _ _ =>
      ((Evaluation.emit rfl).bind fun _ => evaluation_flattenArgList items h).bind fun _ =>
      (Evaluation.ofExcept _).bind fun _ => .call _ _
  | .call callee (.args none), _ => by
    rw [flatten]
    exact .register fun _ _ => .register fun _ _ => (Evaluation.emit rfl).bind fun _ =>
      (Evaluation.ofExcept _).bind fun _ => .call _ _
  | .slice obj start stop, h => by
    simp only [isExpr, Bool.and_eq_true] at h
    exact (evaluation_flatten obj h.1.1).bind fun _ => .register fun _ hr =>
      .choice (evaluation_flatten start h.1.2) (.pure _) fun _ =>
      .choice (evaluation_flatten stop h.2) (.pure _) fun _ => .bind (.emit hr) fun _ => .pure _
  | .range stop start step, h => by
    simp only [isExpr, Bool.and_eq_true] at h
    exact .register fun _ hstart => .register fun _ hstop => .register fun _ hstep =>
      .choice (evaluation_flatten start h.1.2) (.defaultBound 0) fun _ =>
      .bind (.emit hstart) fun _ => (evaluation_flatten stop h.1.1).bind fun _ =>
      .bind (.emit hstop) fun _ =>
      .choice (evaluation_flatten step h.2) (.defaultBound 1) fun _ => .bind (.emit hstep) fun _ => .pure _

theorem elements_flattenElements : (items : List Node) → areExprs items = true →
    Emits (Elements items.length) (flattenElements .fourth items)
  | [], _ => by
    exact (Emits.nothing _).mono fun _ h => h ▸ .nil
  | n :: rest, h => by
    simp only [areExprs, Bool.and_eq_true] at h
    refine Emits.bind (evaluation_flatten n h.1) (fun v => ?_) fun _ _ => Elements.of_computing
    refine (Emits.emit (.element v)).bind (fun _ => elements_flattenElements rest h.2) ?_
    rintro _ code rfl hcode
    exact .element v hcode

theorem evaluation_flattenArgList : (items : List Node) → areExprs items = true →
    Evaluation (flattenArgList .fourth items)
  | [], _ => by rw [flattenArgList]; exact .pure _
  | n :: rest, h => by
    simp only [areExprs, Bool.and_eq_true] at h
    exact (evaluation_flatten n h.1).bind fun _ => (Evaluation.emit rfl).bind fun _ =>
      evaluation_flattenArgList rest h.2

end

end Tabc.Declaration
