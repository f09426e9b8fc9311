import Tabc.Proofs.Typing.Strays

/-!
# Overloads of a name

Whatever is opened, closed and declared, with or without success, no two functions of one name and scope have
parameters of the same types or names (`Unambiguous`), so a search finds the only function that fits.
-/

open List

namespace Tabc

open EStateM (run_bind run_get)

def Overload.names : Overload → List ParamName
  | .declared names _ _ => names
  | _ => []

/-- The functions are those of a program, and any two of them differ in the types and in the names of
their parameters. -/
structure Unambiguous (os : List Overload) : Prop where
  declared : ∀ o ∈ os, o = .declared o.names o.types o.result
  apart : os.Pairwise fun o o' => o.types ≠ o'.types ∧ o.names ≠ o'.names

namespace ScopeTable

open Tabc.Core

/-- An operation that opens or closes a scope or declares a name. -/
inductive Act where
  | openScope
  | closeScope
  | variable (name : String) (type : Held)
  | function (name : String) (params : List (ParamName × Held)) (result : Held)

def Act.perform : Act → ScopeM Unit
  | .openScope => ScopeTable.openScope
  | .closeScope => ScopeTable.closeScope
  | .variable name type => declareVariable name type
  | .function name params result => declareFunction name params result

/-- The table after an operation, also where the operation is refused. -/
def after (t : ScopeTable) (act : Act) : ScopeTable :=
  match act.perform.run t with
  | .ok _ t' => t'
  | .error _ t' => t'

def afterAll (acts : List Act) : ScopeTable := acts.foldl after (fresh .fourth)

/-- The functions of a name in a scope are the built-in ones or unambiguous. -/
def Distinct (σ : Scope) : Prop :=
  ∀ ⦃name os⦄, σ.find? name = some (.functions os) → builtins4.find? name = some (.functions os) ∨ Unambiguous os

variable {name : String} {names : List ParamName} {types : List Held} {os : List Overload}
  {σ : Scope} {scopes : List Scope} {t : ScopeTable}

theorem apart_of_clear (h : clear name names types os = .ok ()) :
    ∀ o ∈ os, o = .declared o.names o.types o.result ∧ o.types ≠ types ∧ o.names ≠ names := by
  induction os with
  | nil => exact forall_mem_nil _
  | cons o rest ih =>
    rw [clear.eq_def] at h
    dsimp only at h
    split at h
    · cases h
    rename_i htypes
    cases o with
    | declared names' types' result =>
      dsimp only at h
      split at h
      · cases h
      rename_i hnames
      have htypes : types' ≠ types := by simpa [Overload.types] using htypes
      have hnames : names' ≠ names := by simpa using hnames
      exact forall_mem_cons.2 ⟨⟨rfl, htypes, hnames⟩, ih h⟩
    | emitted => cases h
    | whole => cases h

theorem clear_of_clearIn (h : clearIn name names types scopes = .ok ()) (hσ : σ ∈ scopes)
    (hos : σ.find? name = some (.functions os)) : clear name names types os = .ok () := by
  induction scopes with
  | nil => cases hσ
  | cons τ rest ih =>
    rw [clearIn] at h
    split at h
    · rename_i os' hτ
      cases hclear : clear name names types os' with
      | error fault =>
        rw [hclear] at h
        cases h
      | ok u =>
        rw [hclear] at h
        rcases mem_cons.1 hσ with rfl | hσ
        · cases hτ.symm.trans hos
          exact hclear
        · exact ih h hσ
    · cases h
    rename_i hτ
    rcases mem_cons.1 hσ with rfl | hσ
    · cases hτ.symm.trans hos
    · exact ih h hσ

/-- A built-in name has a function of the target program in front, so it takes no further function. -/
theorem clear_builtin_ne_ok (h : builtins4.find? name = some (.functions os)) : clear name names types os ≠ .ok () := by
  have hfirst : ∀ p ∈ builtins4, ∃ x ts r rest, p.2 = .functions (.emitted x ts r :: rest) := by simp [builtins4]
  obtain ⟨x, ts, r, rest, hos⟩ := hfirst (name, .functions os) (by
    obtain ⟨l, k, hl, -⟩ := lookup_eq_some_iff.1 h
    simp [hl])
  cases hos
  intro hclear
  cases (apart_of_clear hclear _ (.head _)).1

theorem unambiguous_concat (h : Unambiguous os) (hclear : clear name names types os = .ok ()) (result : Held) :
    Unambiguous (os ++ [.declared names types result]) where
  declared o ho := by
    rcases mem_append.1 ho with ho | ho
    · exact h.declared o ho
    · cases mem_singleton.1 ho
      rfl
  apart := by
    refine pairwise_append.2 ⟨h.apart, pairwise_singleton _ _, fun o ho o' ho' => ?_⟩
    obtain rfl := mem_singleton.1 ho'
    exact (apart_of_clear hclear o ho).2

theorem distinct_nil : Distinct [] := fun _ _ hnil => by cases hnil

theorem distinct_setTop (h : ∀ σ ∈ t.scopes, Distinct σ) (hσ : Distinct σ) : ∀ τ ∈ (t.setTop σ).scopes, Distinct τ := by
  rw [Core.scopes_setTop]
  exact forall_mem_cons.2 ⟨hσ, fun τ hτ => h τ (mem_of_mem_tail hτ)⟩

theorem top_mem (h : t.top.find? name = some entry) : t.top ∈ t.scopes := by
  rw [top] at h ⊢
  cases hscopes : t.scopes with
  | nil =>
    rw [hscopes] at h
    cases h
  | cons σ rest => exact (.head _)

theorem distinct_top (h : ∀ σ ∈ t.scopes, Distinct σ) : Distinct t.top := by
  rw [top]
  cases hscopes : t.scopes with
  | nil => exact distinct_nil
  | cons σ rest => exact h σ (by simp [hscopes])

theorem Distinct.bind (h : Distinct σ) (hnew : σ.find? name = none)
    (hentry : ∀ os, entry = .functions os → Unambiguous os) : Distinct (σ.bind name entry) := by
  intro other os hos
  rw [find?_bind hnew] at hos
  split at hos
  · exact .inr (hentry os (Option.some.inj hos))
  · exact h hos

theorem Distinct.adjust (h : Distinct σ)
    (hf : ∀ entry os, σ.find? name = some entry → f entry = .functions os → Unambiguous os) :
    Distinct (σ.adjust name f) := by
  intro other os hos
  rw [Tabc.find?_adjust] at hos
  split at hos
  · rename_i hother
    obtain ⟨entry, hentry, hos⟩ := Option.map_eq_some_iff.1 hos
    exact .inr (hf entry os (hother ▸ hentry) hos)
  · exact h hos

theorem distinct_closeScope (h : ∀ σ ∈ t.scopes, Distinct σ) : ∀ σ ∈ (t.after .closeScope).scopes, Distinct σ := by
  have hafter : t.after .closeScope = t ∨ (t.after .closeScope).scopes = t.scopes.tail := by
    simp only [after, Act.perform, closeScope, run_bind, run_get]
    rcases t.scopes with - | ⟨σ, - | ⟨σ', rest⟩⟩
    · exact .inl rfl
    · exact .inl rfl
    · exact .inr rfl
  rcases hafter with hafter | hafter
  · rwa [hafter]
  · rw [hafter]
    exact fun σ hσ => h σ (mem_of_mem_tail hσ)

theorem distinct_declareVariable (h : ∀ σ ∈ t.scopes, Distinct σ) (name : String) (type : Held) :
    ∀ σ ∈ (t.after (.variable name type)).scopes, Distinct σ := by
  simp only [after, Act.perform, declareVariable, run_bind, run_get]
  by_cases hnew : t.top.has name = true
  · rwa [if_pos hnew]
  rw [if_neg hnew]
  refine distinct_setTop h ((distinct_top h).bind (by simpa [Scope.has] using hnew) ?_)
  rintro os ⟨⟩

theorem distinct_declareFunction (h : ∀ σ ∈ t.scopes, Distinct σ) (name : String)
    (params : List (ParamName × Held)) (result : Held) :
    ∀ σ ∈ (t.after (.function name params result)).scopes, Distinct σ := by
  simp only [after, Act.perform, declareFunction, run_bind, run_get]
  cases hfind : t.top.find? name with
  | none =>
    refine distinct_setTop h ((distinct_top h).bind hfind ?_)
    rintro os ⟨⟩
    exact ⟨by simp [Overload.names, Overload.types, Overload.result], pairwise_singleton _ _⟩
  | some entry =>
    cases entry with
    | «variable» type => exact h
    | functions os =>
      cases hclear : clearIn name (params.map (·.1)) (params.map (·.2)) t.scopes with
      | error fault => exact h
      | ok u =>
        have hos : clear name (params.map (·.1)) (params.map (·.2)) os = .ok () :=
          clear_of_clearIn hclear (top_mem hfind) hfind
        refine distinct_setTop h ((distinct_top h).adjust fun entry os' hentry hos' => ?_)
        cases hfind.symm.trans hentry
        cases hos'
        have hold : Unambiguous os := (distinct_top h hfind).resolve_left fun hb => clear_builtin_ne_ok hb hos
        exact unambiguous_concat hold hos result

theorem distinct_after (h : ∀ σ ∈ t.scopes, Distinct σ) (act : Act) : ∀ σ ∈ (t.after act).scopes, Distinct σ := by
  cases act with
  | openScope => exact forall_mem_cons.2 ⟨distinct_nil, h⟩
  | closeScope => exact distinct_closeScope h
  | «variable» name type => exact distinct_declareVariable h name type
  | function name params result => exact distinct_declareFunction h name params result

theorem distinct_afterAll (acts : List Act) : ∀ σ ∈ (afterAll acts).scopes, Distinct σ := by
  have hfresh : ∀ σ ∈ (fresh .fourth).scopes, Distinct σ := by
    intro σ hσ
    cases mem_singleton.1 hσ
    exact fun _ _ hos => .inl hos
  exact List.foldlRecOn (motive := fun t => ∀ σ ∈ t.scopes, Distinct σ) acts after hfresh
    fun t h act _ => distinct_after h act

theorem filter_eq_singleton {α β : Type} [BEq β] [LawfulBEq β] {f : α → β} {l : List α} {a : α}
    (h : l.Pairwise fun b c => f b ≠ f c) (ha : a ∈ l) : (l.filter fun b => f b == f a) = [a] := by
  induction l with
  | nil => cases ha
  | cons b l ih =>
    obtain ⟨hb, hl⟩ := pairwise_cons.1 h
    rcases mem_cons.1 ha with rfl | ha
    · have hrest : ∀ c ∈ l, ¬ (f c == f a) = true := fun c hc => by simpa using (hb c hc).symm
      simpa using filter_eq_nil_iff.2 hrest
    · rw [filter_cons_of_neg (by simpa using hb a ha)]
      exact ih hl ha

theorem namedIn_eq_find? (h : ∀ o ∈ os, o = .declared o.names o.types o.result) :
    namedIn names os = .ok (os.find? fun o => o.names == names) := by
  induction os with
  | nil => rfl
  | cons o rest ih =>
    obtain ⟨ho, hrest⟩ := forall_mem_cons.1 h
    cases o with
    | declared names' types result =>
      rw [namedIn, find?_cons]
      cases hnames : names' == names with
      | true => simp [Overload.names, hnames, pure, Except.pure]
      | false => simpa [Overload.names, hnames] using ih hrest
    | _ => cases ho

theorem resultIn_of_findIn (h : findIn name scopes = some (.functions os))
    (ho : os.find? (fun o => o.types == types) = some o) :
    resultIn .fourth name types report scopes = (report, .ok o.result) := by
  induction scopes with
  | nil => cases h
  | cons σ rest ih =>
    rw [findIn] at h
    rw [resultIn]
    cases hσ : σ.find? name with
    | none =>
      rw [hσ] at h
      exact ih h
    | some entry =>
      rw [hσ] at h
      cases h
      have hfourth : (Edition.fourth == Edition.second) = false := rfl
      simp [hfourth, ho]

theorem byNamesIn_of_findIn (h : findIn name scopes = some (.functions os)) (ho : namedIn names os = .ok (some o)) :
    byNamesIn name names scopes = .ok (o.types, o.result) := by
  induction scopes with
  | nil => cases h
  | cons σ rest ih =>
    rw [findIn] at h
    rw [byNamesIn]
    cases hσ : σ.find? name with
    | none =>
      rw [hσ] at h
      exact ih h
    | some entry =>
      rw [hσ] at h
      cases h
      simp only [ho]
      rfl

theorem run_lookupFunction (h : findIn name t.scopes = some (.functions os)) (hos : Unambiguous os) (ho : o ∈ os) :
    (lookupFunction .fourth name o.types).run t = .ok o.result t := by
  have hfind : os.find? (fun o' => o'.types == o.types) = some o := by
    rw [← head?_filter, filter_eq_singleton (hos.apart.imp And.left) ho]
    rfl
  simp only [lookupFunction, run_bind, run_get, resultIn_of_findIn h hfind]
  simp [EStateM.run_modify]

theorem run_functionByNames (h : findIn name t.scopes = some (.functions os)) (hos : Unambiguous os) (ho : o ∈ os) :
    (functionByNames name o.names).run t = .ok (o.types, o.result) t := by
  have hfind : os.find? (fun o' => o'.names == o.names) = some o := by
    rw [← head?_filter, filter_eq_singleton (hos.apart.imp And.right) ho]
    rfl
  have hnamed : namedIn o.names os = .ok (some o) := by rw [namedIn_eq_find? hos.declared, hfind]
  simp only [functionByNames, run_bind, run_get, byNamesIn_of_findIn h hnamed]
  rfl

/-- After any operations, the functions of a name in a scope are those built in or no two of them
have the same types or names of parameters. A name that is not built in then stands for the functions
of the innermost scope that has it, and a search among these, by types or by names, that has a match gives
the only one. -/
theorem overloads_unambiguous (acts : List Act) :
    (∀ σ ∈ (afterAll acts).scopes, ∀ name os, σ.find? name = some (.functions os) →
      builtins4.find? name = some (.functions os) ∨ Unambiguous os) ∧
    ∀ name os, builtins4.find? name = none → findIn name (afterAll acts).scopes = some (.functions os) → ∀ o ∈ os,
        (os.filter fun o' => o'.types == o.types) = [o] ∧
        (os.filter fun o' => o'.names == o.names) = [o] ∧
        (lookupFunction .fourth name o.types).run (afterAll acts) = .ok o.result (afterAll acts) ∧
        (functionByNames name o.names).run (afterAll acts) = .ok (o.types, o.result) (afterAll acts) := by
  refine ⟨distinct_afterAll acts, fun name os hname hfind o ho => ?_⟩
  obtain ⟨σ, hσ, hos⟩ := exists_of_findSome?_eq_some (findIn_eq_findSome? .. ▸ hfind)
  have hos : Unambiguous os := (distinct_afterAll acts σ hσ hos).resolve_left (by simp [hname])
  exact ⟨filter_eq_singleton (hos.apart.imp And.left) ho,
    filter_eq_singleton (hos.apart.imp And.right) ho, run_lookupFunction hfind hos ho,
    run_functionByNames hfind hos ho⟩

/-- A third function with the types of the first one is refused, and the second one is still found. -/
theorem overloads_unambiguous_refused :
    let int : Held := .type (.prim .int)
    let str : Held := .type (.prim .str)
    let acts : List Act := [.function "f" [(.ident "x", int)] int, .function "f" [(.ident "y", str)] str,
      .function "f" [(.ident "z", int)] str]
    builtins4.find? "f" = none ∧ findIn "f" (afterAll acts).scopes = some (.functions
        [.declared [.ident "x"] [int] int, .declared [.ident "y"] [str] str]) ∧
      (lookupFunction .fourth "f" [str]).run (afterAll acts) = .ok str (afterAll acts) :=
  ⟨rfl, rfl, ((overloads_unambiguous _).2 "f" _ rfl rfl (.declared [.ident "y"] [_] _)
    (mem_cons_of_mem _ mem_cons_self)).2.2.1⟩

end ScopeTable

end Tabc
