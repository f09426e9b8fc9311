import Tabc.Proofs.Rebuild.Statements
import Tabc.Proofs.Writing.Words

/-!
# Programs of whole numbers

If every variable is assigned above each place that reads it (`Block.scoped`), all types are known where they
are asked for, and all are whole numbers (`Block.settled`).
-/

open List

namespace Tabc.Core

mutual

/-- A statement of whole numbers. -/
def Stmt.numeric : Stmt → Bool
  | .assign _ _ value => value.arith
  | .print _ => true
  | .whileDo cond body => cond.comparison && body.numeric
  | .forRange .. => false
  | .chain cond body rest => cond.comparison && body.numeric && rest.numeric

def Block.numeric : Block → Bool
  | .nil => true
  | .cons s rest => s.numeric && rest.numeric

def Tail.numeric : Tail → Bool
  | .done => true
  | .elif cond body rest => cond.comparison && body.numeric && rest.numeric
  | .otherwise body => body.numeric

end

mutual

/-- The variables that a statement assigns, from the top down. -/
def Stmt.targets : Stmt → List String
  | .assign x _ _ => [x]
  | .print _ => []
  | .whileDo _ body => body.targets
  | .forRange x _ _ _ body => x :: body.targets
  | .chain _ body rest => body.targets ++ rest.targets

def Block.targets : Block → List String
  | .nil => []
  | .cons s rest => s.targets ++ rest.targets

def Tail.targets : Tail → List String
  | .done => []
  | .elif _ body rest => body.targets ++ rest.targets
  | .otherwise body => body.targets

end

mutual

/-- A statement reads only variables that are assigned above or are among those seen so far. -/
def Stmt.scoped : Stmt → List String → Bool
  | .assign _ _ value, seen => value.vars.all seen.contains
  | .print x, seen => seen.contains x
  | .whileDo cond body, seen => cond.vars.all seen.contains && body.scoped seen
  | .forRange x start stop step body, seen =>
    (start.elim [] Term.vars ++ stop.vars ++ step.elim [] Term.vars).all seen.contains && body.scoped (seen ++ [x])
  | .chain cond body rest, seen => cond.vars.all seen.contains && body.scoped seen && rest.scoped (seen ++ body.targets)

def Block.scoped : Block → List String → Bool
  | .nil, _ => true
  | .cons s rest, seen => s.scoped seen && rest.scoped (seen ++ s.targets)

def Tail.scoped : Tail → List String → Bool
  | .done, _ => true
  | .elif cond body rest, seen => cond.vars.all seen.contains && body.scoped seen && rest.scoped (seen ++ body.targets)
  | .otherwise body, seen => body.scoped seen

end

/-- Just these variables have types, and all are whole numbers. -/
def Integral (Γ : Types) (seen : List String) : Prop := ∀ x, Γ x = if x ∈ seen then some .int else none

variable {Γ : Types} {seen : List String}

theorem Term.asked_subset (t : Term) : t.asked ⊆ t.vars ∧ t.direct ⊆ t.vars := by
  induction t with
  | const a => simp [Term.asked, Term.direct]
  | var x => simp [Term.asked, Term.direct, Term.vars]
  | unary op a ih =>
    refine ⟨append_subset.mpr ⟨ih.1, ?_⟩, by simp [Term.direct]⟩
    split
    · simp
    · exact ih.2
  | binary a op b iha ihb =>
    have ha : a.vars ⊆ (Term.binary a op b).vars := subset_append_left _ _
    have hb : b.vars ⊆ (Term.binary a op b).vars := subset_append_right _ _
    refine ⟨append_subset.mpr ⟨append_subset.mpr ⟨List.Subset.trans iha.1 ha, List.Subset.trans ihb.1 hb⟩, ?_⟩,
      by simp [Term.direct]⟩
    split
    · simp
    · exact append_subset.mpr ⟨List.Subset.trans iha.2 ha, List.Subset.trans ihb.2 hb⟩

namespace Integral

variable (h : Integral Γ seen)

include h

theorem knows (hnames : names ⊆ seen) : Γ.knows names = true := by
  rw [Types.knows, all_eq_true]
  intro x hx
  rw [h x, if_pos (hnames hx)]
  rfl

theorem taken (hx : ScopeTable.builtins4.has x = false) : Γ.taken x = seen.contains x := by
  rw [Types.taken, hx, h x]
  by_cases hmem : x ∈ seen <;> simp [hmem]

theorem type {t : Term} (ht : t.arith = true) (hvars : t.vars ⊆ seen) : t.type Γ = .int := by
  induction t, ht using Term.arith_induction with
  | int n => rfl
  | var x => rw [Term.type, h x, if_pos (hvars (by simp [Term.vars]))]; rfl
  | binary a op b _ hmem _ _ iha ihb =>
    rw [Term.vars, append_subset] at hvars
    have hop : Target.Build.isComparison op = false := by
      rcases mem_arithOps.1 hmem with rfl | rfl | rfl <;> rfl
    rw [Term.type, iha hvars.1, ihb hvars.2, binaryType, hop]
    rfl

theorem assigned (hx : ScopeTable.builtins4.has x = false) : Integral (Γ.assigned x .int) (seen ++ [x]) := by
  intro y
  rw [Types.assigned, h.taken hx]
  by_cases hmem : x ∈ seen
  · rw [if_pos (by simpa using hmem), h y]
    by_cases hy : y = x <;> simp [hy, hmem]
  rw [if_neg (by simpa using hmem)]
  by_cases hy : y = x
  · simp [hy]
  · rw [Function.update_of_ne hy, h y]
    simp [hy]

end Integral

theorem all_contains : names.all seen.contains = true ↔ names ⊆ seen := by simp [subset_def]

section Settled

variable {β : Type} {I : β → List String → Prop} {n n' : Bool} {below below' : List String → Bool}
  {targets targets' : List String} {bound bound' : β → Bool} {step step' : β → β}

/-- Below the variables that `I` says something about, a part finds what it asks for and takes a step to where
`I` holds of its targets too. -/
def Settled (I : β → List String → Prop) (numeric : Bool) (below : List String → Bool) (targets : List String)
    (bound : β → Bool) (step : β → β) : Prop :=
  numeric = true → (∀ x ∈ targets, ScopeTable.builtins4.has x = false) → ∀ ⦃b seen⦄, below seen = true → I b seen →
    bound b = true ∧ I (step b) (seen ++ targets)

theorem Settled.guard {known : β → Bool} {cond : Term}
    (hcond : ∀ ⦃b seen⦄, I b seen → cond.vars ⊆ seen → known b = true) (h : Settled I n below targets bound step) :
    Settled I (cond.comparison && n) (fun seen => cond.vars.all seen.contains && below seen) targets
      (fun b => known b && bound b) step := by
  intro hnum hfree b seen hscoped hb
  simp only [Bool.and_eq_true] at hnum hscoped ⊢
  obtain ⟨hbound, hstep⟩ := h hnum.2 hfree hscoped.2 hb
  exact ⟨⟨hcond hb (all_contains.mp hscoped.1), hbound⟩, hstep⟩

theorem Settled.seq (h : Settled I n below targets bound step) (h' : Settled I n' below' targets' bound' step') :
    Settled I (n && n') (fun seen => below seen && below' (seen ++ targets)) (targets ++ targets')
      (fun b => bound b && bound' (step b)) (fun b => step' (step b)) := by
  intro hnum hfree b seen hscoped hb
  simp only [Bool.and_eq_true] at hnum hscoped ⊢
  obtain ⟨hfree, hfree'⟩ := forall_mem_append.1 hfree
  obtain ⟨hbound, hstep⟩ := h hnum.1 hfree hscoped.1 hb
  obtain ⟨hbound', hstep'⟩ := h' hnum.2 hfree' hscoped.2 hstep
  rw [List.append_assoc] at hstep'
  exact ⟨⟨hbound, hbound'⟩, hstep'⟩

end Settled

theorem Integral.knows_asked {cond : Term} ⦃Γ : Types⦄ ⦃seen : List String⦄ (h : Integral Γ seen)
    (hvars : cond.vars ⊆ seen) : Γ.knows cond.asked = true := h.knows (List.Subset.trans cond.asked_subset.1 hvars)

mutual

theorem Stmt.settled : ∀ s : Stmt, Settled Integral s.numeric s.scoped s.targets s.bound s.types
  | .assign x _ value => fun hnum hfree Γ seen hscoped h => by
    have hvars := all_contains.mp hscoped
    constructor
    · simp [Stmt.bound, h.knows_asked hvars, h.knows (List.Subset.trans value.asked_subset.2 hvars)]
    · rw [Stmt.types, h.type hnum hvars]
      exact h.assigned (hfree x (by simp [Stmt.targets]))
  | .print x => fun _ _ Γ seen hscoped h => by
    have hx : x ∈ seen := by simpa [Stmt.scoped] using hscoped
    exact ⟨by simp [Stmt.bound, h x, hx], by simpa [Stmt.types, Stmt.targets] using h⟩
  | .whileDo _ body => body.settled.guard Integral.knows_asked
  | .forRange .. => fun hnum => by simp [Stmt.numeric] at hnum
  | .chain _ body rest => (body.settled.guard Integral.knows_asked).seq rest.settled

theorem Block.settled : ∀ p : Block, Settled Integral p.numeric p.scoped p.targets p.bound p.types
  | .nil => fun _ _ Γ seen _ h => ⟨rfl, by simpa [Block.types, Block.targets] using h⟩
  | .cons s rest => s.settled.seq rest.settled

theorem Tail.settled : ∀ t : Tail, Settled Integral t.numeric t.scoped t.targets t.bound t.types
  | .done => fun _ _ Γ seen _ h => ⟨rfl, by simpa [Tail.types, Tail.targets] using h⟩
  | .elif _ body rest => (body.settled.guard Integral.knows_asked).seq rest.settled
  | .otherwise body => body.settled

end

mutual

theorem Stmt.rangeless_of_numeric : ∀ s : Stmt, s.numeric = true → s.rangeless = true
  | .assign .., _ => rfl
  | .print _, _ => rfl
  | .whileDo _ body, h => body.rangeless_of_numeric (by simp_all [Stmt.numeric])
  | .forRange .., h => by simp [Stmt.numeric] at h
  | .chain _ body rest, h => by
    simp only [Stmt.numeric, Bool.and_eq_true] at h
    simp [Stmt.rangeless, body.rangeless_of_numeric h.1.2, rest.rangeless_of_numeric h.2]

theorem Block.rangeless_of_numeric : ∀ p : Block, p.numeric = true → p.rangeless = true
  | .nil, _ => rfl
  | .cons s rest, h => by
    simp only [Block.numeric, Bool.and_eq_true] at h
    simp [Block.rangeless, s.rangeless_of_numeric h.1, rest.rangeless_of_numeric h.2]

theorem Tail.rangeless_of_numeric : ∀ t : Tail, t.numeric = true → t.rangeless = true
  | .done, _ => rfl
  | .elif _ body rest, h => by
    simp only [Tail.numeric, Bool.and_eq_true] at h
    simp [Tail.rangeless, body.rangeless_of_numeric h.1.2, rest.rangeless_of_numeric h.2]
  | .otherwise body, h => body.rangeless_of_numeric h

end

mutual

theorem Stmt.targets_subset : ∀ s : Stmt, s.targets ⊆ s.vars
  | .assign x _ value => by simp [Stmt.targets, Stmt.vars]
  | .print x => by simp [Stmt.targets]
  | .whileDo cond body => subset_append_of_subset_right _ body.targets_subset
  | .forRange x start stop step body => cons_subset_cons _ (subset_append_of_subset_right _ body.targets_subset)
  | .chain cond body rest =>
    append_subset.mpr ⟨List.Subset.trans body.targets_subset (by simp [Stmt.vars]),
      List.Subset.trans rest.targets_subset (by simp [Stmt.vars])⟩

theorem Block.targets_subset : ∀ p : Block, p.targets ⊆ p.vars
  | .nil => by simp [Block.targets]
  | .cons s rest =>
    append_subset.mpr ⟨List.Subset.trans s.targets_subset (by simp [Block.vars]),
      List.Subset.trans rest.targets_subset (by simp [Block.vars])⟩

theorem Tail.targets_subset : ∀ t : Tail, t.targets ⊆ t.vars
  | .done => by simp [Tail.targets]
  | .elif cond body rest =>
    append_subset.mpr ⟨List.Subset.trans body.targets_subset (by simp [Tail.vars]),
      List.Subset.trans rest.targets_subset (by simp [Tail.vars])⟩
  | .otherwise body => body.targets_subset

end

end Tabc.Core
