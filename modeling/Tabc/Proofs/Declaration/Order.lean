import Tabc.Proofs.Declaration.Flattened
import Tabc.Proofs.Declaration.Reading
import Tabc.Pipeline

/-!
# Declarations of generated programs

In the tree of a program with chains in order, every variable is declared once in the text of its function,
in front of all its targets (`declared_of_generate`). But the declaration may stand in a block that has ended
there (`exists_undeclared_of_accepted`).
-/

open List

namespace Tabc.Declaration

open Tabc.Core Tabc.Core.Jumps Survey

/-- A block, at whose end its declarations are forgotten. -/
def Survey.enclosed (m : Survey) : Survey := fun D => ((m D).1, D)

mutual

/-- The flaws of a tree, where declarations count to the end of their block. -/
def inspect : Target.Node → Survey
  | .declaration id _ => declaring id
  | .assign id _ | .binary id _ _ _ _ | .unary id _ _ _ => targeting id
  | .ifThen _ body | .elifThen _ body | .elseThen body | .whileDo _ body | .forRange _ _ body
  | .forEach _ _ _ _ body => enclosed (inspect body)
  | .function _ ps body _ => inside (paramNames ps) (inspect body)
  | .block items => inspectAll items
  | _ => pure []

def inspectAll : List Target.Node → Survey
  | [] => pure []
  | n :: rest => both (inspect n) (inspectAll rest)

end

def named : Target.Node → List String
  | .ident x => [x]
  | _ => []

mutual

/-- The variables that are declared in the block of a loop or an alternative; with `deep`, the tree is a part
of such a block. -/
def buried (deep : Bool) : Target.Node → List String
  | .declaration id _ => if deep then named id else []
  | .ifThen _ body | .elifThen _ body | .elseThen body | .whileDo _ body | .forRange _ _ body
  | .forEach _ _ _ _ body => buried true body
  | .function _ _ body _ => buried false body
  | .block items => buriedAll deep items
  | _ => []

def buriedAll (deep : Bool) : List Target.Node → List String
  | [] => []
  | n :: rest => buried deep n ++ buriedAll deep rest

end

/-- A walk that forgets is at most behind in some variables: what it lists is listed by the other walk or is
one of these, and so is what the other walk knows in the end. With `deep`, it learns no others either. -/
structure Lags (B : List String) (deep : Bool) (m m' : Survey) (D E : List String) : Prop where
  flaws : ∀ x, .undeclared x ∈ (m D).1 → .undeclared x ∈ (m' E).1 ∨ x ∈ B
  knows : ∀ x ∈ (m' E).2, x ∈ (m D).2 ∨ x ∈ B
  learns : deep = true → ∀ x ∈ (m D).2, x ∈ D ∨ x ∈ B

variable {B D E : List String} {deep : Bool} {m1 m2 m1' m2' : Survey}

theorem Lags.nothing (h : ∀ x ∈ E, x ∈ D ∨ x ∈ B) : Lags B deep (pure []) (pure []) D E := ⟨nofun, h, fun _ _ => .inl⟩

theorem Lags.both (h1 : Lags B deep m1 m1' D E)
    (h2 : Lags B deep m2 m2' (m1 D).2 (m1' E).2) : Lags B deep (both m1 m2) (both m1' m2') D E := by
  refine ⟨fun x hx => ?_, h2.knows, fun hdeep x hx => ?_⟩
  · rcases mem_append.1 hx with hx | hx
    · exact (h1.flaws x hx).imp_left fun h => mem_append.2 (.inl h)
    · exact (h2.flaws x hx).imp_left fun h => mem_append.2 (.inr h)
  · rcases h2.learns hdeep x hx with hx | hx
    · exact h1.learns hdeep x hx
    · exact .inr hx

theorem Lags.enclosed (h : Lags B true m1 m1' D E) : Lags B deep (enclosed m1) m1' D E := by
  refine ⟨h.flaws, fun x hx => ?_, fun _ _ => .inl⟩
  rcases h.knows x hx with hx | hx
  · exact h.learns rfl x hx
  · exact .inr hx

theorem Lags.inside {xs : List String} (h : Lags B false m1 m1' xs xs) (hE : ∀ x ∈ E, x ∈ D ∨ x ∈ B) :
    Lags B deep (inside xs m1) (inside xs m1') D E := ⟨h.flaws, hE, fun _ _ => .inl⟩

theorem Lags.declaration (id : Target.Node) (hE : ∀ x ∈ E, x ∈ D ∨ x ∈ B)
    (hB : deep = true → ∀ x ∈ named id, x ∈ B) : Lags B deep (declaring id) (declaring id) D E := by
  cases id with
  | ident x =>
    rw [declaring]
    cases htemp : isTemporary x with
    | true =>
      rw [declares_temporary htemp]
      exact .nothing hE
    | false =>
      have hstate (D : List String) : (declares x D).2 = x :: D := by simp [declares, htemp]
      have hflaws (D : List String) (y : String) : .undeclared y ∉ (declares x D).1 := by
        simp only [declares, htemp]
        split <;> simp
      refine ⟨fun y hy => absurd hy (hflaws D y), fun y hy => ?_, fun hdeep y hy => ?_⟩
      · rw [hstate, mem_cons] at hy ⊢
        rcases hy with rfl | hy
        · exact .inl (.inl rfl)
        · exact (hE y hy).imp_left .inr
      · rw [hstate, mem_cons] at hy
        rcases hy with rfl | hy
        · exact .inr (hB hdeep y (.head _))
        · exact .inl hy
  | _ => exact .nothing hE

theorem Lags.target (id : Target.Node) (hE : ∀ x ∈ E, x ∈ D ∨ x ∈ B) :
    Lags B deep (targeting id) (targeting id) D E := by
  cases id with
  | ident x =>
    rw [targeting]
    refine ⟨fun y hy => ?_, hE, fun _ _ => .inl⟩
    simp only [assigns] at hy ⊢
    split at hy
    · cases hy
    rename_i hx
    obtain rfl : y = x := Flaw.undeclared.inj (mem_singleton.1 hy)
    rw [Bool.or_eq_true, not_or, contains_iff_mem] at hx
    by_cases hy' : y ∈ E
    · exact .inr ((hE y hy').resolve_left hx.2)
    · simp [hx.1, hy']
  | _ => exact .nothing hE

mutual

theorem lags_inspect (n : Target.Node) (deep : Bool) (D E : List String) (hB : ∀ x ∈ buried deep n, x ∈ B)
    (hE : ∀ x ∈ E, x ∈ D ∨ x ∈ B) : Lags B deep (inspect n) (survey n) D E := by
  cases n with
  | declaration id _ =>
    exact .declaration id hE fun hdeep => by simpa [buried, hdeep] using hB
  | assign id _ | binary id _ _ _ _ | unary id _ _ _ =>
    exact .target id hE
  | ifThen _ body | elifThen _ body | elseThen body | whileDo _ body | forRange _ _ body
  | forEach _ _ _ _ body =>
    exact (lags_inspect body true D E hB hE).enclosed
  | function _ ps body _ =>
    exact (lags_inspect body false _ _ hB fun _ => .inl).inside hE
  | block items =>
    exact lags_inspectAll items deep D E hB hE
  | _ => simpa [survey] using .nothing hE

theorem lags_inspectAll : (items : List Target.Node) → (deep : Bool) → (D E : List String) →
    (∀ x ∈ buriedAll deep items, x ∈ B) → (∀ x ∈ E, x ∈ D ∨ x ∈ B) →
    Lags B deep (inspectAll items) (surveyAll items) D E
  | [], _, _, _, _, hE => .nothing hE
  | n :: rest, deep, D, E, hB, hE => by
    rw [buriedAll, forall_mem_append] at hB
    have hn := lags_inspect n deep D E hB.1 hE
    exact hn.both (lags_inspectAll rest deep _ _ hB.2 hn.knows)

end

def functionsIn (p : List Node) : List String := (withinAll p).filterMap functionOf?

def Taken (p : List Node) (x : String) : Prop := x ∈ keys ScopeTable.builtins4 ∨ x ∈ functionsIn p

/-- Checks a program and gives its target tree. -/
def generate (p : List Node) : PipelineM Target.Node := do
  let table ← Pipeline.check .fourth p
  let code ← Pipeline.flatten .fourth p
  Pipeline.build .fourth table code

theorem exists_of_run_stage {α σ : Type} {k : Stage} {act : EStateM Fault σ α} {start t : σ} {a : α}
    {printed : σ → String} {out out' : String}
    (h : (Pipeline.stage k act start printed).run out = .ok (a, t) out') : act.run start = .ok a t := by
  rw [Pipeline.stage] at h
  cases hact : act.run start with
  | ok a1 t1 =>
    rw [hact] at h
    cases h
    rfl
  | error x t1 =>
    rw [hact] at h
    cases h

theorem exists_of_run_generate {p : List Node} {tree : Target.Node} {out out' : String}
    (h : (generate p).run out = .ok tree out') : ∃ types table code s,
      (typecheck .fourth p).run (.fresh .fourth) = .ok types table ∧
      Flat.ofProgram .fourth p = .ok code ∧
      (Target.Build.run .fourth (some table) code).run (.fresh .fourth code) = .ok tree s := by
  obtain ⟨table, out1, hcheck, h1⟩ := of_run_bind h
  obtain ⟨⟨types, table'⟩, out2, hstage, h2⟩ := of_run_bind hcheck
  cases h2
  obtain ⟨code, out3, hflatten, h3⟩ := of_run_bind h1
  obtain ⟨⟨tree', s⟩, out4, hbuild, h4⟩ := of_run_bind h3
  cases h4
  refine ⟨types, table, code, s, exists_of_run_stage hstage, ?_, exists_of_run_stage hbuild⟩
  rw [Pipeline.flatten] at hflatten
  cases hcode : Flat.ofProgram .fourth p with
  | ok code' =>
    rw [hcode] at hflatten
    cases hflatten
    rfl
  | error x =>
    rw [hcode] at hflatten
    cases hflatten

/-- In the tree of an accepted program with chains in order, no variable is declared twice in a function, and
none is a target in front of its declaration, unless its name is taken by a function. So where a target is
not in the block of its declaration, that is a block inside a loop or an alternative. -/
theorem declared_of_generate {p : List Node} {tree : Target.Node} {out out' : String}
    (hstmts : areStmts false p = true) (horderly : ∀ n ∈ withinAll p, orderly n = true)
    (h : (generate p).run out = .ok tree out') :
    ∃ items, tree = .block items ∧ (∀ f ∈ (surveyAll items []).1, ∃ x, f = .undeclared x ∧ Taken p x) ∧
      ∀ x, .undeclared x ∈ (inspectAll items []).1 → Taken p x ∨ x ∈ buriedAll false items := by
  obtain ⟨-, table, code, s, -, hcode, hrun⟩ := exists_of_run_generate h
  obtain ⟨htidy, honce⟩ := tidy_of_ofProgram hstmts horderly
    (fun n hn f hf => show Taken p f from .inr (mem_filterMap.2 ⟨n, hn, hf⟩)) hcode
  obtain ⟨items, rfl, hflaws⟩ := excused_of_run ⟨htidy, honce⟩ (fun x hx => .inl hx) hrun
  refine ⟨items, rfl, hflaws, fun x hx => ?_⟩
  have hlags : Lags (buriedAll false items) false (inspectAll items) (surveyAll items) [] [] :=
    lags_inspectAll items false [] [] (fun _ => id) nofun
  rcases hlags.flaws x hx with hx | hx
  · obtain ⟨y, hy, htaken⟩ := hflaws _ hx
    cases hy
    exact .inl htaken
  · exact .inr hx

/-- What two walks list for the tree of a program: the flaws in the order of its text, and those that come
from the ends of blocks as well. -/
def findings (p : List Node) : Option (List Flaw × List Flaw) :=
  match (generate p).run "" with
  | .ok (.block items) _ => some ((surveyAll items []).1, (inspectAll items []).1)
  | _ => none

theorem exists_of_findings (h : findings p = some (a, b)) :
    ∃ items out, (generate p).run "" = .ok (.block items) out ∧ (surveyAll items []).1 = a ∧
      (inspectAll items []).1 = b := by
  rw [findings] at h
  split at h
  · rename_i items out hrun
    cases h
    exact ⟨items, out, hrun, rfl, rfl⟩
  · cases h

/-- A function, and a chain inside a loop that declares one variable in both alternatives. -/
def branching : List Node :=
  let int : Node := .type (.prim .int)
  [.funDef (.ident "f") (.params (some [.param int (.ident "n")]))
      (.block [.assign (.ident "n") .none (.binary (.ident "n") "+" (.literal "int" (.int 1))), .ret (.ident "n")]) int,
    .assign (.ident "a") (.type (.prim .bool)) (.literal "bool" (.bool true)),
    .whileDo (.ident "a") (.block [ .ifThen (.ident "a") (.block [.assign (.ident "x") int (.literal "int" (.int 1))]),
      .elseThen (.block [.assign (.ident "x") int (.literal "int" (.int 2))])])]

theorem declared_of_generate_branching : ∃ items out, (generate branching).run "" = .ok (.block items) out ∧
    (inspectAll items []).1 = [.undeclared "x"] ∧
    (∀ f ∈ (surveyAll items []).1, ∃ x, f = .undeclared x ∧ Taken branching x) ∧
    (Taken branching "x" ∨ "x" ∈ buriedAll false items) := by
  have hfindings : findings branching = some ([], [.undeclared "x"]) := by decide +kernel
  obtain ⟨items, out, hrun, -, hinspect⟩ := exists_of_findings hfindings
  obtain ⟨_, hitems, hsurvey, hscoped⟩ := declared_of_generate (by decide) (by decide) hrun
  cases hitems
  exact ⟨items, out, hrun, hinspect, hsurvey, hscoped "x" (by rw [hinspect]; exact .head _)⟩

/-- Two accepted programs with a target that has no declaration in its block or one around it: a variable
that was declared in an alternative before, and the variable of a loop with the name of a function, which is
declared nowhere. -/
theorem exists_undeclared_of_accepted :
    let int : Node := .type (.prim .int)
    let again : List Node := [.assign (.ident "a") (.type (.prim .bool)) (.literal "bool" (.bool true)),
      .ifThen (.ident "a") (.block [.assign (.ident "y") int (.literal "int" (.int 1))]),
      .assign (.ident "y") int (.literal "int" (.int 2))]
    let reused : List Node :=
      [.funDef (.ident "f") (.params none) (.block [.ret (.literal "int" (.int 1))]) int,
        .forRange (.ident "f") (.range (.literal "int" (.int 3)) .none .none)
          (.block [.assign (.ident "f") .none (.literal "int" (.int 2))])]
    (∃ items out, (generate again).run "" = .ok (.block items) out ∧ (surveyAll items []).1 = [] ∧
      (inspectAll items []).1 = [.undeclared "y"]) ∧
    ∃ items out, (generate reused).run "" = .ok (.block items) out ∧
      (surveyAll items []).1 = [.undeclared "f", .undeclared "f"] ∧
      (inspectAll items []).1 = [.undeclared "f", .undeclared "f"] :=
  ⟨exists_of_findings (by decide +kernel), exists_of_findings (by decide +kernel)⟩

end Tabc.Declaration
