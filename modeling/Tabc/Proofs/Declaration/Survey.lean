import Mathlib
import Tabc.Target.Node

/-!
# Declarations in target trees

`survey` goes over a target tree in the order of its text, each function on its own, and lists the targets that
have no declaration in front of them and the variables that are declared again. Registers are passed over.
-/

open List

namespace Tabc.Declaration

/-- Registers have names that begin with an underscore. -/
def isTemporary (x : String) : Bool := x.toList.head? == some '_'

/-- What may be wrong with a variable of a function. -/
inductive Flaw where
  /-- It is a target in front of its declaration. -/
  | undeclared (name : String)
  /-- It is declared again. -/
  | repeated (name : String)
deriving DecidableEq

/-- A walk that lists flaws, on the variables that were declared so far. -/
abbrev Survey := StateM (List String) (List Flaw)

namespace Survey

def both (m m' : Survey) : Survey := do return (← m) ++ (← m')

def declares (x : String) : Survey := fun D =>
  if isTemporary x then ([], D) else (if D.contains x then [.repeated x] else [], x :: D)

/-- A variable is the target of an operation. -/
def assigns (x : String) : Survey := fun D => (if isTemporary x || D.contains x then [] else [.undeclared x], D)

/-- A function, which has these parameters and no other variables from outside. -/
def inside (xs : List String) (m : Survey) : Survey := fun D => ((m xs).1, D)

theorem both_assoc (m1 m2 m3 : Survey) : both (both m1 m2) m3 = both m1 (both m2 m3) := by
  funext D
  exact Prod.ext (List.append_assoc ..) rfl

@[simp] theorem nothing_both (m : Survey) : both (pure []) m = m := rfl

@[simp] theorem both_nothing (m : Survey) : both m (pure []) = m := by
  funext D
  exact Prod.ext (List.append_nil _) rfl

theorem declares_temporary (h : isTemporary x = true) : declares x = pure [] := by
  funext D
  simp [declares, h]
  rfl

theorem assigns_temporary (h : isTemporary x = true) : assigns x = pure [] := by
  funext D
  simp [assigns, h]
  rfl

end Survey

open Survey
open Target.Node (settle)

def paramNames : Target.Node → List String
  | .params items => items.filterMap fun
    | .param _ (.source (.ident x)) => some x
    | _ => none
  | _ => []

def declaring : Target.Node → Survey
  | .ident x => declares x
  | _ => pure []

def targeting : Target.Node → Survey
  | .ident x => assigns x
  | _ => pure []

mutual

def survey : Target.Node → Survey
  | .declaration id _ => declaring id
  | .assign id _ | .binary id _ _ _ _ | .unary id _ _ _ => targeting id
  | .ifThen _ body | .elifThen _ body | .elseThen body | .whileDo _ body | .forRange _ _ body
  | .forEach _ _ _ _ body => survey body
  | .function _ ps body _ => inside (paramNames ps) (survey body)
  | .block items => surveyAll items
  | _ => pure []

def surveyAll : List Target.Node → Survey
  | [] => pure []
  | n :: rest => both (survey n) (surveyAll rest)

end

theorem surveyAll_append (a b : List Target.Node) : surveyAll (a ++ b) = both (surveyAll a) (surveyAll b) := by
  induction a with
  | nil => simp [surveyAll]
  | cons n a ih => rw [cons_append, surveyAll, surveyAll, ih, both_assoc]

theorem surveyAll_singleton (n : Target.Node) : surveyAll [n] = survey n := by rw [surveyAll, surveyAll, both_nothing]

/-- Trees that declare nothing and have no targets, apart from registers. -/
def Plain (items : List Target.Node) : Prop := ∀ n ∈ items, survey n = pure []

theorem Plain.surveyAll_eq (h : Plain items) : surveyAll items = pure [] := by
  induction items with
  | nil => rfl
  | cons n items ih =>
    obtain ⟨hn, hitems⟩ := forall_mem_cons.1 h
    rw [surveyAll, hn, ih hitems, nothing_both]

theorem Plain.nil : Plain [] := nofun

theorem Plain.append (ha : Plain a) (hb : Plain b) : Plain (a ++ b) := forall_mem_append.2 ⟨ha, hb⟩

mutual

theorem survey_settle (h : ∀ n, survey (part n) = pure []) (n : Target.Node) : survey (n.settle part) = survey n := by
  cases n with
  | later k => rw [settle, h, survey] <;> nofun
  | ifThen _ body | elifThen _ body | elseThen body | whileDo _ body | forRange _ _ body
  | forEach _ _ _ _ body | function _ _ body _ => simp only [settle, survey, survey_settle h body]
  | block items => simp only [settle, survey, surveyAll_settleAll h items]
  | _ => simp only [settle, survey]

theorem surveyAll_settleAll (h : ∀ n, survey (part n) = pure []) :
    (items : List Target.Node) → surveyAll (Target.Node.settleAll part items) = surveyAll items
  | [] => rfl
  | n :: rest => by rw [Target.Node.settleAll, surveyAll, surveyAll, survey_settle h n, surveyAll_settleAll h rest]

end

variable {taken : String → Prop} {D N N1 N' : List String} {m m' : Survey} {x : String}

/-- The variables that were declared so far are the names of a scope, apart from registers and names that
are taken otherwise. -/
structure Agrees (taken : String → Prop) (D N : List String) : Prop where
  declared : ∀ x ∈ N, isTemporary x = true ∨ taken x ∨ x ∈ D
  known : ∀ x ∈ D, x ∈ N

/-- The only flaw is a target whose name is taken otherwise. -/
def Excused (taken : String → Prop) (f : Flaw) : Prop := ∃ x, f = .undeclared x ∧ taken x

/-- A walk from one scope to another lists nothing but what is excused, and keeps up with the scope. -/
def Surveys (taken : String → Prop) (m : Survey) (N N' : List String) : Prop :=
  ∀ ⦃D⦄, Agrees taken D N → (∀ f ∈ (m D).1, Excused taken f) ∧ Agrees taken (m D).2 N'

namespace Surveys

theorem both (h : Surveys taken m N N1) (h' : Surveys taken m' N1 N') : Surveys taken (both m m') N N' := by
  intro D hD
  obtain ⟨hm, hD1⟩ := h hD
  obtain ⟨hm', hD'⟩ := h' hD1
  exact ⟨forall_mem_append.2 ⟨hm, hm'⟩, hD'⟩

/-- A scope that gets no new names but registers and names that are taken otherwise. -/
theorem nothing (hsub : ∀ x ∈ N, x ∈ N')
    (hnew : ∀ x ∈ N', x ∈ N ∨ isTemporary x = true ∨ taken x) : Surveys taken (pure []) N N' := by
  intro D hD
  refine ⟨nofun, fun x hx => ?_, fun x hx => hsub x (hD.known x hx)⟩
  rcases hnew x hx with hx | hx | hx
  · exact hD.declared x hx
  · exact .inl hx
  · exact .inr (.inl hx)

theorem refl (N : List String) : Surveys taken (pure []) N N := nothing (fun _ => id) fun _ => .inl

theorem declares (hx : x ∉ N) (hN' : ∀ y, y ∈ N' ↔ y = x ∨ y ∈ N) : Surveys taken (Survey.declares x) N N' := by
  cases htemp : isTemporary x with
  | true =>
    rw [Survey.declares_temporary htemp]
    refine nothing (fun y hy => (hN' y).2 (.inr hy)) fun y hy => ?_
    rcases (hN' y).1 hy with rfl | hy
    · exact .inr (.inl htemp)
    · exact .inl hy
  | false =>
    intro D hD
    have hnew : D.contains x = false := by simpa using fun h => hx (hD.known x h)
    rw [Survey.declares, htemp, hnew]
    refine ⟨nofun, fun y hy => ?_, fun y hy => (hN' y).2 ?_⟩
    · rcases (hN' y).1 hy with rfl | hy
      · exact .inr (.inr (.head _))
      · exact (hD.declared y hy).imp_right (.imp_right (.tail _))
    · exact (mem_cons.1 hy).imp_right (hD.known y)

theorem assigns (hx : x ∈ N) : Surveys taken (Survey.assigns x) N N := by
  intro D hD
  refine ⟨fun f hf => ?_, hD⟩
  rw [Survey.assigns] at hf
  split at hf
  · cases hf
  rename_i hflaw
  rw [Bool.or_eq_true, not_or, contains_iff_mem] at hflaw
  rw [mem_singleton.1 hf]
  exact ⟨x, rfl, ((hD.declared x hx).resolve_left hflaw.1).resolve_right hflaw.2⟩

theorem inside (h : Surveys taken m N1 N') (hxs : Agrees taken xs N1) :
    Surveys taken (Survey.inside xs m) N N := fun _ hD => ⟨(h hxs).1, hD⟩

end Surveys

end Tabc.Declaration
