import Tabc.Proofs.Writing.Unfolded

/-!
# Output of a program with other names

Without folding, the output of a renamed program of whole numbers is the output of the program with these
names, as long as none of them begins with an underscore: that is taken for a register.
-/

open List

namespace Tabc.Core

variable (f : String → String)

def Term.rename : Term → Term
  | .const a => .const a
  | .var x => .var (f x)
  | .unary op a => .unary op a.rename
  | .binary a op b => .binary a.rename op b.rename

mutual

def Stmt.rename : Stmt → Stmt
  | .assign x type value => .assign (f x) type (value.rename f)
  | .print x => .print (f x)
  | .whileDo cond body => .whileDo (cond.rename f) body.rename
  | .forRange x start stop step body =>
    .forRange (f x) (start.map (·.rename f)) (stop.rename f) (step.map (·.rename f)) body.rename
  | .chain cond body rest => .chain (cond.rename f) body.rename rest.rename

def Block.rename : Block → Block
  | .nil => .nil
  | .cons s rest => .cons s.rename rest.rename

def Tail.rename : Tail → Tail
  | .done => .done
  | .elif cond body rest => .elif (cond.rename f) body.rename rest.rename
  | .otherwise body => .otherwise body.rename

end

variable {f}

namespace Term

theorem vars_rename (t : Term) : (t.rename f).vars = t.vars.map f := by
  induction t <;> simp_all [rename, vars]

theorem arith_rename (t : Term) : (t.rename f).arith = t.arith := by
  induction t with
  | const a => rfl
  | _ => simp_all [rename, arith]

theorem comparison_rename (t : Term) : (t.rename f).comparison = t.comparison := by
  cases t <;> simp [rename, comparison, arith_rename]

theorem eval_rename {ρ ρ' : Store Int} (h : ∀ x, ρ' (f x) = ρ x) (t : Term) :
    (t.rename f).eval ints ρ' = t.eval ints ρ := by
  induction t <;> simp_all [rename, eval]

theorem frozen_rename {ρ ρ' : Store Int} (h : ∀ x, ρ' (f x) = ρ x) (t : Term) :
    (t.rename f).frozen ρ' = (t.frozen ρ).rename f := by
  rw [frozen, frozen, eval_rename h]
  split <;> rfl

end Term

section

attribute [local simp] Stmt.rename Stmt.numeric Stmt.closed Stmt.tidy Stmt.elifFree Stmt.legible Stmt.vars Stmt.targets
  Block.rename Block.numeric Block.closed Block.tidy Block.elifFree Block.legible Block.vars Block.targets
  Tail.rename Tail.numeric Tail.closed Tail.tidy Tail.elifFree Tail.legible Tail.vars Tail.targets
  Term.vars_rename Term.arith_rename Term.comparison_rename

mutual

theorem Stmt.shape_rename : (s : Stmt) → (s.rename f).numeric = s.numeric ∧ (s.rename f).closed = s.closed ∧
    (s.rename f).tidy = s.tidy ∧ (s.rename f).elifFree = s.elifFree ∧ (s.rename f).legible = s.legible ∧
    (s.rename f).vars = s.vars.map f ∧ (s.rename f).targets = s.targets.map f
  | .assign .. | .print _ => by simp
  | .whileDo _ body => by simp [body.shape_rename]
  | .forRange _ start _ step body => by
    cases start <;> cases step <;> simp [body.shape_rename]
  | .chain _ body rest => by simp [body.shape_rename, rest.shape_rename]

theorem Block.shape_rename : (p : Block) → (p.rename f).numeric = p.numeric ∧ (p.rename f).closed = p.closed ∧
    (p.rename f).tidy = p.tidy ∧ (p.rename f).elifFree = p.elifFree ∧ (p.rename f).legible = p.legible ∧
    (p.rename f).vars = p.vars.map f ∧ (p.rename f).targets = p.targets.map f
  | .nil => ⟨rfl, rfl, rfl, rfl, rfl, rfl, rfl⟩
  | .cons s rest => by simp [s.shape_rename, rest.shape_rename]

theorem Tail.shape_rename : (t : Tail) → (t.rename f).numeric = t.numeric ∧ (t.rename f).closed = t.closed ∧
    (t.rename f).tidy = t.tidy ∧ (t.rename f).elifFree = t.elifFree ∧ (t.rename f).legible = t.legible ∧
    (t.rename f).vars = t.vars.map f ∧ (t.rename f).targets = t.targets.map f
  | .done => ⟨rfl, rfl, rfl, rfl, rfl, rfl, rfl⟩
  | .elif _ body rest => by simp [body.shape_rename, rest.shape_rename]
  | .otherwise body => by simp [body.shape_rename]

end

end

theorem Term.scoped_rename {seen : List String} {t : Term} (h : t.vars.all seen.contains = true) :
    (t.rename f).vars.all (seen.map f).contains = true := by
  simp only [Term.vars_rename, all_eq_true, mem_map, contains_iff_mem] at h ⊢
  rintro _ ⟨x, hx, rfl⟩
  exact ⟨x, h x hx, rfl⟩

mutual

theorem Stmt.scoped_rename : (s : Stmt) → {seen : List String} → s.numeric = true → s.scoped seen = true →
    (s.rename f).scoped (seen.map f) = true
  | .assign _ _ _, _, _, h => Term.scoped_rename h
  | .print x, _, _, h => contains_iff_mem.2 (mem_map_of_mem (contains_iff_mem.1 h))
  | .whileDo cond body, _, hnum, h => by
    simp only [Stmt.numeric, Stmt.rename, Stmt.scoped, Bool.and_eq_true] at hnum h ⊢
    exact ⟨Term.scoped_rename h.1, body.scoped_rename hnum.2 h.2⟩
  | .chain cond body rest, _, hnum, h => by
    simp only [Stmt.numeric, Stmt.rename, Stmt.scoped, Bool.and_eq_true, body.shape_rename, ← map_append] at hnum h ⊢
    exact ⟨⟨Term.scoped_rename h.1.1, body.scoped_rename hnum.1.2 h.1.2⟩, rest.scoped_rename hnum.2 h.2⟩

theorem Block.scoped_rename : (p : Block) → {seen : List String} → p.numeric = true → p.scoped seen = true →
    (p.rename f).scoped (seen.map f) = true
  | .nil, _, _, _ => rfl
  | .cons s rest, _, hnum, h => by
    simp only [Block.numeric, Block.rename, Block.scoped, Bool.and_eq_true, s.shape_rename, ← map_append] at hnum h ⊢
    exact ⟨s.scoped_rename hnum.1 h.1, rest.scoped_rename hnum.2 h.2⟩

theorem Tail.scoped_rename : (t : Tail) → {seen : List String} → t.numeric = true → t.scoped seen = true →
    (t.rename f).scoped (seen.map f) = true
  | .done, _, _, _ => rfl
  | .elif cond body rest, _, hnum, h => by
    simp only [Tail.numeric, Tail.rename, Tail.scoped, Bool.and_eq_true, body.shape_rename, ← map_append] at hnum h ⊢
    exact ⟨⟨Term.scoped_rename h.1.1, body.scoped_rename hnum.1.2 h.1.2⟩, rest.scoped_rename hnum.2 h.2⟩
  | .otherwise body, _, hnum, h => body.scoped_rename hnum h

end

mutual

theorem Stmt.frozen_rename (hf : f.Injective) : (s : Stmt) → {ρ ρ' : Store Int} → (∀ x, ρ' (f x) = ρ x) →
    (s.rename f).frozen ρ' = (s.frozen ρ).rename f ∧ ∀ x, (s.rename f).pass ρ' (f x) = s.pass ρ x
  | .assign x _ value, _, _, h =>
    ⟨by simp [Stmt.rename, Stmt.frozen, value.frozen_rename h], fun y => by
      simp [Stmt.rename, Stmt.pass, Function.update_apply, hf.eq_iff, value.eval_rename h, h]⟩
  | .print _, _, _, h => ⟨rfl, h⟩
  | .whileDo _ body, _, _, h | .forRange _ _ _ _ body, _, _, h =>
    ⟨by simp [Stmt.rename, Stmt.frozen, body.frozen_rename hf h], (body.frozen_rename hf h).2⟩
  | .chain _ body rest, _, _, h => by
    obtain ⟨hbody, h⟩ := body.frozen_rename hf h
    obtain ⟨hrest, h⟩ := rest.frozen_rename hf h
    exact ⟨by simp [Stmt.rename, Stmt.frozen, hbody, hrest], h⟩

theorem Block.frozen_rename (hf : f.Injective) : (p : Block) → {ρ ρ' : Store Int} → (∀ x, ρ' (f x) = ρ x) →
    (p.rename f).frozen ρ' = (p.frozen ρ).rename f ∧ ∀ x, (p.rename f).pass ρ' (f x) = p.pass ρ x
  | .nil, _, _, h => ⟨rfl, h⟩
  | .cons s rest, _, _, h => by
    obtain ⟨hs, h⟩ := s.frozen_rename hf h
    obtain ⟨hrest, h⟩ := rest.frozen_rename hf h
    exact ⟨by simp [Block.rename, Block.frozen, hs, hrest], h⟩

theorem Tail.frozen_rename (hf : f.Injective) : (t : Tail) → {ρ ρ' : Store Int} → (∀ x, ρ' (f x) = ρ x) →
    (t.rename f).frozen ρ' = (t.frozen ρ).rename f ∧ ∀ x, (t.rename f).pass ρ' (f x) = t.pass ρ x
  | .done, _, _, h | .otherwise .nil, _, _, h => ⟨rfl, h⟩
  | .elif _ body rest, _, _, h => by
    obtain ⟨hbody, h⟩ := body.frozen_rename hf h
    obtain ⟨hrest, h⟩ := rest.frozen_rename hf h
    exact ⟨by simp [Tail.rename, Tail.frozen, hbody, hrest], h⟩
  | .otherwise (.cons s rest), _, _, h => by
    obtain ⟨hs, h⟩ := s.frozen_rename hf h
    obtain ⟨hrest, h⟩ := rest.frozen_rename hf h
    exact ⟨by simp [Tail.rename, Block.rename, Tail.frozen, hs, hrest], h⟩

end

/-- Without folding, a program of whole numbers and the same program with other names for its variables
go through all stages, and the body of the second output is that of the first with the other names. -/
theorem unfolded_output_rename (known known' : Option ScopeTable) (p : Block) (hnum : p.numeric = true)
    (hscoped : p.scoped [] = true) (htidy : p.tidy = true) (hlegible : p.legible = true)
    (hfine : ∀ x ∈ p.vars, Fine x) (hf : f.Injective) (hfine' : ∀ x ∈ p.vars, Fine (f x)) :
    ∃ lines lines' q, Compiles known false p lines ∧ readLines lines = some q ∧
      Compiles known' false (p.rename f) lines' ∧ readLines lines' = some (q.rename f) := by
  obtain ⟨hnum', -, htidy', -, hlegible', hvars, -⟩ := p.shape_rename
  obtain ⟨lines, hcompiles, hread⟩ := p.compiles_frozen known hnum hscoped htidy hlegible hfine
  obtain ⟨lines', hcompiles', hread'⟩ := (p.rename f).compiles_frozen known' (hnum' ▸ hnum)
    (p.scoped_rename hnum hscoped) (htidy' ▸ htidy) (hlegible' ▸ hlegible) (by simpa [hvars] using hfine')
  have hfrozen : ((p.rename f).frozen fun _ => none) = (p.frozen fun _ => none).rename f :=
    (p.frozen_rename hf fun _ => rfl).1
  exact ⟨lines, lines', _, hcompiles, hread, hcompiles', hfrozen ▸ hread'⟩

theorem unfolded_output_rename_settling :
    ∃ lines lines' q, Compiles none false settling lines ∧ readLines lines = some q ∧
      Compiles none false (settling.rename (Equiv.swap "x" "total")) lines' ∧
      readLines lines' = some (q.rename (Equiv.swap "x" "total")) :=
  unfolded_output_rename none none settling (by decide) (by decide) (by decide) (by decide) (by decide)
    (Equiv.swap "x" "total").injective (by decide)

/-- With an underscore in front of its name, a variable is not written. -/
theorem unfolded_output_underscore :
    let p : Block := .cons (.assign "x" (some (.prim .int)) (.const (.int 1))) .nil
    ∃ lines lines' q, Compiles none false p lines ∧ readLines lines = some q ∧
      Compiles none false (p.rename ("_" ++ ·)) lines' ∧ readLines lines' ≠ some (q.rename ("_" ++ ·)) := by
  intro p
  obtain ⟨lines, hcompiles, hread⟩ := p.compiles_frozen none (by decide) (by decide) (by decide) (by decide) (by decide)
  refine ⟨lines, [], _, hcompiles, hread, ⟨_, _, _, _, rfl, rfl, rfl⟩, fun h => ?_⟩
  cases h

end Tabc.Core
