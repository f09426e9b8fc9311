import Tabc.Proofs.Rebuild.Instructions
import Tabc.Proofs.Typing.Scopes

/-!
# Variables that are read are in scope

`strays` lists the identifiers that are read where no variable of their name is in scope. Checking that ends
well leaves two kinds of them: identifiers in the bounds of a range, which are never looked at, and a variable
in the right side of the assignment that declares it (`role_of_mem_strays`).
-/

open List

namespace Tabc

/-- The names of the variables of the open scopes, the innermost scope first. -/
abbrev Names := List (List String)

namespace Names

def knows (Γ : Names) (x : String) : Bool := Γ.any (·.contains x)

/-- Declares a variable in the innermost scope, unless it is in scope already. -/
def declare (x : String) (Γ : Names) : Names := if Γ.knows x then Γ else (x :: Γ.headD []) :: Γ.tail

variable {Γ : Names} {x y : String}

theorem tail_declare : (Γ.declare x).tail = Γ.tail := by
  rw [declare]
  split <;> rfl

theorem knows_of_tail (h : knows Γ.tail x = true) : Γ.knows x = true := by
  cases Γ with
  | nil => exact h
  | cons s rest => simp_all [knows]

theorem knows_declare_self : (Γ.declare x).knows x = true := by
  rw [declare]
  split
  · assumption
  · simp [knows]

theorem knows_declare (h : Γ.knows y = true) : (Γ.declare x).knows y = true := by
  rw [declare]
  split
  · exact h
  cases Γ with
  | nil => cases h
  | cons s rest => simp_all [knows]; tauto

end Names

inductive Role where
  | bound
  /-- In the right side of the assignment that declares it. -/
  | own
  /-- Anywhere else. -/
  | plain
deriving DecidableEq

/-- An identifier that is read where no variable of its name is in scope. -/
structure Stray where
  role : Role
  name : String
deriving DecidableEq

abbrev Walk := StateM Names (List Stray)

namespace Walk

def both (m m' : Walk) : Walk := do return (← m) ++ (← m')

/-- A walk in a scope of its own, in which some variables are declared. What else it declares is gone
after it. -/
def enclosed (xs : List String) (m : Walk) : Walk := fun Γ => ((m (xs :: Γ)).1, Γ)

def declaring (xs : List String) : Walk := fun Γ => ([], xs.foldl (fun Γ x => Γ.declare x) Γ)

/-- Gives the strays of some names another role. -/
def marked (role : Role) (p : String → Bool) (m : Walk) : Walk := fun Γ =>
  ((m Γ).1.map fun s => if p s.name then { s with role := role } else s, (m Γ).2)

theorem mem_both : s ∈ (both m m' Γ).1 ↔ s ∈ (m Γ).1 ∨ s ∈ (m' (m Γ).2).1 := mem_append

end Walk

namespace Node

def names (n : Node) : List String := n.nameText.toOption.toList

def paramNames (n : Node) : List String :=
  (n.parts.toOption.getD []).flatMap fun
    | .param _ var => var.names
    | _ => []

end Node

open Walk

mutual

def strays : Node → Walk
  | .ident x => fun Γ => (if Γ.knows x then [] else [⟨.plain, x⟩], Γ)
  | .expression a | .unary _ a | .ret a | .call _ a => strays a
  | .list items | .collection _ items | .block items => straysAll items
  | .params items | .args items => straysOption items
  | .binary a _ b | .index a b | .append a b => both (strays a) (strays b)
  | .slice a b c => both (strays a) (both (strays b) (strays c))
  | .range stop start step => both (strays start) (both (strays stop) (strays step))
  | .assign left _ right => fun Γ =>
    let isNew x := left.names.contains x && !Γ.knows x
    both (marked .own isNew (strays right)) (declaring left.names) Γ
  | .ifThen cond body | .elifThen cond body | .whileDo cond body => both (strays cond) (enclosed [] (strays body))
  | .elseThen body => enclosed [] (strays body)
  | .forEach var coll body => both (strays coll) (both (declaring var.names) (strays body))
  | .forRange var bounds body =>
    both (enclosed [] (marked .bound (fun _ => true) (strays bounds))) (enclosed var.names (strays body))
  | .funDef _ ps body _ => enclosed ps.paramNames (strays body)
  | .atom _ | .type _ | .shape _ | .literal _ _ | .param _ _ => pure []

/-- The strays of some trees, one after the other. -/
def straysAll : List Node → Walk
  | [] => pure []
  | n :: rest => both (strays n) (straysAll rest)

def straysOption : Option (List Node) → Walk
  | some items => straysAll items
  | none => pure []

end

theorem both_nothing (m : Walk) : both m (pure []) = m := by
  simp [both]

theorem straysAll_single (n : Node) : straysAll [n] = strays n := both_nothing _

theorem straysAll_append (ns ns' : List Node) : straysAll (ns ++ ns') = both (straysAll ns) (straysAll ns') := by
  induction ns with
  | nil => rfl
  | cons n rest ih =>
    rw [cons_append, straysAll, ih]
    funext Γ
    exact Prod.ext (append_assoc ..).symm rfl

theorem strays_of_passes {n : Node} (h : n.passes = true) : strays n = straysAll n.steps := by
  cases n with
  | params items | args items => cases items <;> rfl
  | _ => simp_all [Node.passes, Node.steps, Node.members, strays, straysAll, both_nothing]

variable {pass : String → Prop} {Γ : Names} {x : String}

def Covers (pass : String → Prop) : Names → List Scope → Prop
  | _, [] => True
  | Γ, s :: rest => (∀ x type, s.find? x = some (.variable type) → Γ.knows x = true ∨ pass x) ∧ Covers pass Γ.tail rest

namespace Covers

variable {scopes : List Scope}

theorem knows (h : Covers pass Γ scopes)
    (hx : ScopeTable.findIn x scopes = some (.variable type)) : Γ.knows x = true ∨ pass x := by
  induction scopes generalizing Γ with
  | nil => cases hx
  | cons s rest ih =>
    rw [ScopeTable.findIn] at hx
    split at hx
    · rename_i entry hentry
      cases hx
      exact h.1 x type hentry
    · exact (ih h.2 hx).imp_left Names.knows_of_tail

theorem declare (h : Covers pass Γ scopes) (x : String) : Covers pass (Γ.declare x) scopes := by
  cases scopes with
  | nil => trivial
  | cons s rest =>
    refine ⟨fun y type hy => (h.1 y type hy).imp_left Names.knows_declare, ?_⟩
    rw [Names.tail_declare]
    exact h.2

theorem cons (h : Covers pass Γ rest)
    (hs : ∀ x type, s.find? x = some (.variable type) → x ∈ xs) : Covers pass (xs :: Γ) (s :: rest) := by
  refine ⟨fun x type hx => .inl ?_, h⟩
  simp [Names.knows, hs x type hx]

theorem tail (h : Covers pass Γ scopes) : Covers pass Γ.tail scopes.tail := by
  cases scopes with
  | nil => trivial
  | cons s rest => exact h.2

theorem top {t : ScopeTable} (h : Covers pass Γ t.scopes)
    (hx : t.top.find? x = some (.variable type)) : Γ.knows x = true ∨ pass x := by
  cases hscopes : t.scopes with
  | nil => simp [ScopeTable.top, hscopes, Scope.find?] at hx
  | cons s rest =>
    rw [hscopes] at h
    exact h.1 x type (by simpa [ScopeTable.top, hscopes] using hx)

theorem mono {pass' : String → Prop} (h : Covers pass Γ scopes)
    (hpass : ∀ s ∈ scopes, ∀ x type, s.find? x = some (.variable type) → pass x → pass' x) :
    Covers pass' Γ scopes := by
  induction scopes generalizing Γ with
  | nil => trivial
  | cons s rest ih =>
    obtain ⟨hs, hrest⟩ := forall_mem_cons.1 hpass
    exact ⟨fun x type hx => (h.1 x type hx).imp_right (hs x type hx), ih h.2 hrest⟩

end Covers

open ScopeTable

variable {α β : Type}

/-- Checking that ends well lets only excused strays pass, and the walk keeps up with the scopes. -/
def Excuses (pass : String → Prop) (m : Walk) (x : CheckM α) : Prop :=
  ∀ ⦃Γ t a t'⦄, x.run t = .ok a t' → Covers pass Γ t.scopes →
    (∀ s ∈ (m Γ).1, s.role = .plain → pass s.name) ∧ Covers pass (m Γ).2 t'.scopes

/-- A step opens a scope in which only some names are variables, and keeps the scopes around it
covered. -/
def Enters (pass : String → Prop) (xs : List String) (x : CheckM α) : Prop :=
  ∀ ⦃Γ t a t'⦄, x.run t = .ok a t' → Covers pass Γ t.scopes →
    ∃ s rest, t'.scopes = s :: rest ∧ Covers pass Γ rest ∧ ∀ y type, s.find? y = some (.variable type) → y ∈ xs

def SameScopes (t t' : ScopeTable) : Prop := t'.scopes = t.scopes

instance : Std.Refl SameScopes := ⟨fun _ => rfl⟩

instance : IsTrans ScopeTable SameScopes := ⟨fun _ _ _ h h' => h'.trans h⟩

/-- The innermost scope is gone. -/
def Tails (t t' : ScopeTable) : Prop := t'.scopes = t.scopes.tail

namespace Excuses

variable {m m' : Walk} {x : CheckM α} {f : α → CheckM β}

theorem throw (fault : Fault) : Excuses pass m (throw fault : CheckM α) := fun _ _ _ _ h => by cases h

theorem nothing (hx : Along SameScopes x) : Excuses pass (pure []) x := by
  intro Γ t a t' h hΓ
  refine ⟨nofun, ?_⟩
  rw [show t'.scopes = t.scopes from hx h]
  exact hΓ

theorem andThen (hx : Excuses pass m x) (hf : ∀ a, Along SameScopes (f a)) : Excuses pass m (x >>= f) := by
  intro Γ t b t' h hΓ
  obtain ⟨a, t1, h1, h2⟩ := Core.of_run_bind h
  rw [show t'.scopes = t1.scopes from hf a h2]
  exact hx h1 hΓ

theorem after (hx : Along SameScopes x) (hf : ∀ a, Excuses pass m (f a)) : Excuses pass m (x >>= f) := by
  intro Γ t b t' h hΓ
  obtain ⟨a, t1, h1, h2⟩ := Core.of_run_bind h
  exact hf a h2 ((show t1.scopes = t.scopes from hx h1) ▸ hΓ)

theorem both (hx : Excuses pass m x) (hf : ∀ a, Excuses pass m' (f a)) : Excuses pass (both m m') (x >>= f) := by
  intro Γ t b t' h hΓ
  obtain ⟨a, t1, h1, h2⟩ := Core.of_run_bind h
  obtain ⟨hm, hΓ1⟩ := hx h1 hΓ
  obtain ⟨hm', hΓ2⟩ := hf a h2 hΓ1
  exact ⟨forall_mem_append.2 ⟨hm, hm'⟩, hΓ2⟩

/-- A walk before it that lists nothing plain and declares nothing. -/
theorem skip (hm : ∀ Γ, (m Γ).2 = Γ) (hplain : ∀ Γ, ∀ s ∈ (m Γ).1, s.role ≠ .plain)
    (hx : Excuses pass m' x) : Excuses pass (Walk.both m m') x := by
  intro Γ t a t' h hΓ
  obtain ⟨hm', hΓ'⟩ := hx h ((hm Γ).symm ▸ hΓ)
  refine ⟨fun s hs => ?_, hΓ'⟩
  rcases mem_both.1 hs with hs | hs
  · exact fun hrole => absurd hrole (hplain Γ s hs)
  · exact hm' s hs

/-- A body in a scope of its own: the step before it opens the scope, the one after it closes it. -/
theorem enclosed {γ : Type} {g : α → β → CheckM γ}
    (hx : Enters pass xs x) (hf : ∀ a, Excuses pass m (f a)) (hgrows : ∀ a, Along Grows (f a))
    (hg : ∀ a b, Along Tails (g a b)) :
    Excuses pass (enclosed xs m) (x >>= fun a => f a >>= g a) := by
  intro Γ t c t' h hΓ
  obtain ⟨a, t1, h1, h⟩ := Core.of_run_bind h
  obtain ⟨b, t2, h2, h3⟩ := Core.of_run_bind h
  obtain ⟨s, rest, hscopes, hrest, hvars⟩ := hx h1 hΓ
  have hbody : Covers pass (xs :: Γ) t1.scopes := hscopes ▸ hrest.cons hvars
  obtain ⟨s', hscopes', -⟩ := hgrows a h2 hscopes
  refine ⟨(hf a h2 hbody).1, ?_⟩
  rw [show t'.scopes = t2.scopes.tail from hg a b h3, hscopes']
  exact hrest

end Excuses

theorem tails_closeScope : Along Tails closeScope := by
  intro t _ t' h
  have h := Core.of_run_bind_ok h rfl
  split at h
  · rename_i heq
    cases h
    simp [Tails, heq]
  · cases h

theorem sameScopes_expect (result : Held) : Along SameScopes (expect result) := by
  rintro t _ _ ⟨⟩
  rfl

theorem sameScopes_unexpect : Along SameScopes unexpect := by
  refine .bind .get fun t => ?_
  split
  · exact .throw _
  · rintro t _ _ ⟨⟩
    rfl

theorem Along.tails_same {x : CheckM α} (hx : Along Tails x)
    (hf : ∀ a, Along SameScopes (f a)) : Along Tails (x >>= f) := .comp
  (fun t t1 t' (h : t1.scopes = t.scopes.tail) (h' : t'.scopes = t1.scopes) => h'.trans h) hx hf

variable {t t' : ScopeTable} {u : Unit} {params : List (ParamName × Held)}

theorem scopes_of_declareVariable (h : (declareVariable x type).run t = .ok u t') :
    ∃ s, t'.scopes = s :: t.scopes.tail ∧
      ∀ y type', s.find? y = some (.variable type') → y = x ∨ t.top.find? y = some (.variable type') := by
  have h := Core.of_run_bind_ok h rfl
  split at h
  · cases h
  rename_i hnew
  cases h
  refine ⟨t.top.bind x (.variable type), ?_, fun y type' hy => ?_⟩
  · exact Core.scopes_setTop ..
  rw [Core.find?_bind (by simpa [Scope.has] using hnew)] at hy
  split at hy
  · exact .inl ‹_›
  · exact .inr hy

theorem covers_declareVariable (h : (declareVariable x type).run t = .ok u t')
    (hΓ : Covers pass Γ t.scopes) : Covers pass (Γ.declare x) t'.scopes := by
  obtain ⟨s, hscopes, hvars⟩ := scopes_of_declareVariable h
  rw [hscopes]
  refine ⟨fun y type' hy => ?_, by rw [Names.tail_declare]; exact hΓ.tail⟩
  rcases hvars y type' hy with rfl | hy
  · exact .inl Names.knows_declare_self
  · exact (hΓ.top hy).imp_left Names.knows_declare

theorem find?_adjust (f : Entry → Entry) (s : Scope) (y : String) :
    (s.adjust x f).find? y = if y = x then (s.find? y).map f else s.find? y := by
  induction s with
  | nil => simp [Scope.adjust, Scope.find?]
  | cons p rest ih =>
    obtain ⟨n, entry⟩ := p
    simp only [Scope.adjust, Scope.find?, lookup_cons] at ih ⊢
    by_cases hn : n = x
    · subst hn
      by_cases hy : y = n
      · subst hy
        simp
      · have : (y == n) = false := by simpa using hy
        simp [List.lookup, hy, this]
    · have hne : (n == x) = false := by simpa using hn
      rw [hne]
      simp only [Bool.false_eq_true, if_false, lookup_cons]
      by_cases hy : y = n
      · subst hy
        simp [hn]
      have : (y == n) = false := by simpa using hy
      simp only [this]
      exact ih

theorem scopes_of_declareFunction (h : (declareFunction x params result).run t = .ok u t') :
    ∃ s, t'.scopes = s :: t.scopes.tail ∧
      ∀ y type, s.find? y = some (.variable type) → t.top.find? y = some (.variable type) := by
  have h := Core.of_run_bind_ok h rfl
  dsimp only at h
  split at h
  · split at h
    · cases h
    · cases h
      refine ⟨_, Core.scopes_setTop .., fun y type hy => ?_⟩
      rw [find?_adjust] at hy
      split at hy
      · obtain ⟨entry, hentry, heq⟩ := Option.map_eq_some_iff.1 hy
        cases entry <;> simp_all
      · exact hy
  · cases h
  rename_i hnew
  cases h
  refine ⟨_, Core.scopes_setTop .., fun y type hy => ?_⟩
  rw [Core.find?_bind hnew] at hy
  split at hy
  · cases hy
  · exact hy

theorem covers_declareFunction (h : (declareFunction x params result).run t = .ok u t') (hΓ : Covers pass Γ t.scopes) :
    Covers pass Γ t'.scopes := by
  obtain ⟨s, hscopes, hvars⟩ := scopes_of_declareFunction h
  rw [hscopes]
  exact ⟨fun y type hy => hΓ.top (hvars y type hy), hΓ.tail⟩

theorem names_of_nameText {n : Node} (h : n.nameText = .ok x) : n.names = [x] := by
  simp [Node.names, h, Except.toOption]

/-- Only some names may be new variables, and these stand in the innermost scope. -/
def Fills (xs : List String) (t t' : ScopeTable) : Prop :=
  ∀ ⦃s rest⦄, t.scopes = s :: rest → ∃ s', t'.scopes = s' :: rest ∧
    ∀ y type, s'.find? y = some (.variable type) → y ∈ xs ∨ s.find? y = some (.variable type)

variable {xs : List String}

instance : Std.Refl (Fills xs) := ⟨fun _ s _ h => ⟨s, h, fun _ _ => .inr⟩⟩

instance : IsTrans ScopeTable (Fills xs) where
  trans t t1 t' h h' s rest hscopes := by
    obtain ⟨s1, hscopes1, hvars1⟩ := h hscopes
    obtain ⟨s', hscopes', hvars'⟩ := h' hscopes1
    exact ⟨s', hscopes', fun y type hy => (hvars' y type hy).elim .inl (hvars1 y type)⟩

theorem fills_declareVariable (hx : x ∈ xs) (type : Held) : Along (Fills xs) (declareVariable x type) := by
  intro t _ t' h s rest hscopes
  obtain ⟨s', hscopes', hvars⟩ := scopes_of_declareVariable h
  refine ⟨s', by simpa [hscopes] using hscopes', fun y type' hy => ?_⟩
  rcases hvars y type' hy with rfl | hy
  · exact .inl hx
  · exact .inr (by simpa [ScopeTable.top, hscopes] using hy)

theorem Enters.after {x : CheckM α} (hx : Excuses pass (pure []) x)
    (hf : ∀ a, Enters pass xs (f a)) : Enters pass xs (x >>= f) := by
  intro Γ t b t' h hΓ
  obtain ⟨a, t1, h1, h2⟩ := Core.of_run_bind h
  exact hf a h2 (hx h1 hΓ).2

theorem enters_openScope {x : CheckM α} (hx : Along (Fills xs) x) : Enters pass xs (openScope >>= fun _ => x) := by
  intro Γ t _ t' h hΓ
  have h2 := Core.of_run_bind_ok h rfl
  obtain ⟨s, hscopes, hvars⟩ := hx h2 rfl
  exact ⟨s, t.scopes, hscopes, hΓ, fun y type hy => (hvars y type hy).resolve_right nofun⟩

namespace Typing

theorem fills_declareParams (h : (Node.block items).paramNames ⊆ xs) :
    Along (Fills xs) (declareParams .fourth items) := by
  induction items with
  | nil => exact .pure _
  | cons n rest ih =>
    rw [declareParams.eq_def]
    split
    · exact .pure _
    · rename_i type var _ heq
      obtain ⟨rfl, rfl⟩ := List.cons.inj heq
      have hnames : (Node.block (.param type var :: rest)).paramNames = var.names ++ (Node.block rest).paramNames := rfl
      rw [hnames, append_subset] at h
      intro t _ t' hrun
      obtain ⟨name, hname, h2⟩ := Core.of_run_ofExcept hrun
      have hmem : name ∈ xs := h.1 (by simp [names_of_nameText hname])
      exact Along.bind (fills_declareVariable hmem _) (fun _ => ih h.2) h2
    · exact .throw _

theorem enters_openRange (known : Bool) (var : Node) (tree : String) :
    Enters pass var.names (openRange .fourth known var tree) := by
  refine .after (.nothing (along_needTable known)) fun _ => enters_openScope ?_
  intro t _ t' h
  obtain ⟨name, hname, h2⟩ := Core.of_run_ofExcept h
  have hmem : name ∈ var.names := by simp [names_of_nameText hname]
  refine Along.bind .get (fun t => ?_) h2
  split
  · split
    · exact .throw _
    · exact .pure _
  · exact fills_declareVariable hmem _

theorem enters_openFunction (known : Bool) (name params result : Node) :
    Enters pass params.paramNames (openFunction .fourth known name params result) := by
  intro Γ t _ t' h hΓ
  obtain ⟨items, hitems, h2⟩ := Core.of_run_ofExcept h
  have hnames : params.paramNames = (Node.block items).paramNames := by
    rw [Node.paramNames, hitems]
    rfl
  rw [hnames]
  have hsame {γ : Type} {x : CheckM γ} (hx : Along SameScopes x) : Excuses pass (pure []) x := .nothing hx
  refine Enters.after (hsame (.ofExcept _)) (fun n => .after (hsame (along_needTable known)) fun _ =>
    .after (hsame (.ofExcept _)) fun ps => .after ?_ fun _ => .after (hsame (sameScopes_expect _)) fun _ =>
    enters_openScope (fills_declareParams (List.Subset.refl _))) h2 hΓ
  exact fun Γ t _ t' h hΓ => ⟨nofun, covers_declareFunction h hΓ⟩

theorem excuses_openEach (known : Bool) (var : Node) (coll : Option Ty) (tree : String) :
    Excuses pass (declaring var.names) (openEach .fourth known var coll tree) := by
  refine .after (along_needTable known) fun _ Γ t _ t' h hΓ => ?_
  obtain ⟨name, hname, h2⟩ := Core.of_run_ofExcept h
  refine ⟨nofun, ?_⟩
  rw [names_of_nameText hname]
  have h2 := Core.of_run_bind_ok h2 rfl
  split at h2
  · rename_i found _
    have hsame : Along SameScopes (do
        if found.present then
          let want ← MonadExcept.ofExcept (inside coll)
          if found = want then pure ()
          else throw (.rejected (.loopMismatch (want.plain .fourth) (found.plain .fourth) tree)) : CheckM Unit) := by
      split
      · refine .bind (.ofExcept _) fun want => ?_
        split
        · exact .pure _
        · exact .throw _
      · exact .pure _
    exact Covers.declare (hsame h2 ▸ hΓ) name
  · obtain ⟨want, -, h3⟩ := Core.of_run_ofExcept h2
    exact covers_declareVariable h3 hΓ

variable {known : Bool}

theorem excuses_lookup (name : String) : Excuses pass (straysAll [.ident name]) (lookupVariable name) := by
  intro Γ t _ t' h hΓ
  have hscopes : t'.scopes = t.scopes := (along_lookupVariable name h).scopes_eq
  have h := Core.of_run_bind_ok h rfl
  rw [straysAll_single, strays, hscopes]
  refine ⟨fun s hs _ => ?_, hΓ⟩
  split at h
  · rename_i hfound
    rcases hΓ.knows hfound with hknows | hpass
    · simp [hknows] at hs
    dsimp only at hs
    split at hs
    · cases hs
    · exact mem_singleton.1 hs ▸ hpass
  · cases h
  · cases h

theorem pass_of_mem_marked (hrole : role ≠ .plain)
    (h : ∀ s ∈ (m Γ).1, s.role = .plain → pass s.name ∨ p s.name = true) :
    ∀ s ∈ (marked role p m Γ).1, s.role = .plain → pass s.name := by
  intro s hs hplain
  obtain ⟨s0, hs0, rfl⟩ := mem_map.1 hs
  split at hplain
  · exact absurd hplain hrole
  rename_i hp
  rw [if_neg hp]
  exact (h s0 hs0 hplain).resolve_right hp

theorem excuses_declared {type : Held} {right : Node}
    (hright : ∀ pass, Excuses pass (strays right) (check .fourth known right)) {t t1 t2 : ScopeTable}
    {u : Unit} {got : Option Ty} (hx : findIn x t.scopes = none)
    (hdeclare : (declareVariable x type).run t = .ok u t1)
    (hcheck : (check .fourth known right).run t1 = .ok got t2) (hΓ : Covers pass Γ t.scopes) :
    (∀ s ∈ (strays right Γ).1, s.role = .plain → pass s.name ∨ s.name = x ∧ Γ.knows x = false) ∧
      Covers pass ((strays right Γ).2.declare x) t2.scopes := by
  obtain ⟨s1, hscopes1, hvars⟩ := scopes_of_declareVariable hdeclare
  have hΓ1 : Covers (fun y => pass y ∨ y = x ∧ Γ.knows x = false) Γ t1.scopes := by
    rw [hscopes1]
    refine ⟨fun y type' hy => ?_, hΓ.tail.mono fun _ _ _ _ _ => .inl⟩
    rcases hvars y type' hy with rfl | hy
    · cases hknows : Γ.knows y with
      | true => exact .inl rfl
      | false => exact .inr (.inr ⟨rfl, rfl⟩)
    · exact (hΓ.top hy).imp_right .inl
  obtain ⟨hstrays, hΓ2⟩ := hright _ hcheck hΓ1
  refine ⟨hstrays, ?_⟩
  obtain ⟨s2, hscopes2, -⟩ := along_check .fourth known right hcheck hscopes1
  rw [hscopes2] at hΓ2 ⊢
  refine ⟨fun y type' hy => ?_, ?_⟩
  · rcases hΓ2.1 y type' hy with hy | hy | ⟨rfl, -⟩
    · exact .inl (Names.knows_declare hy)
    · exact .inr hy
    · exact .inl Names.knows_declare_self
  · -- The scopes around the innermost one do not have the variable.
    rw [Names.tail_declare]
    refine hΓ2.2.mono fun s hs y type' hy hpass => ?_
    rcases hpass with hpass | ⟨rfl, -⟩
    · exact hpass
    rw [findIn_eq_findSome?, findSome?_eq_none_iff] at hx
    rw [hx s (mem_of_mem_tail hs)] at hy
    cases hy

theorem excuses_assign (left type : Node) (hright : ∀ pass, Excuses pass (strays right) (check .fourth known right)) :
    Excuses pass (strays (.assign left type right)) (check .fourth known (.assign left type right)) := by
  intro Γ t _ t' h hΓ
  obtain ⟨name, hname, h2⟩ := Core.of_run_ofExcept h
  suffices hwalk : (∀ s ∈ (strays right Γ).1, s.role = .plain → pass s.name ∨ s.name = name ∧ Γ.knows name = false) ∧
      Covers pass ((strays right Γ).2.declare name) t'.scopes by
    rw [strays, names_of_nameText hname]
    refine ⟨fun s hs hplain => ?_, hwalk.2⟩
    rcases mem_both.1 hs with hs | hs
    · refine pass_of_mem_marked (by decide : Role.own ≠ .plain)
        (fun s hs hplain => (hwalk.1 s hs hplain).imp_right ?_) s hs hplain
      rintro ⟨hs, hknows⟩
      simp [hs, hknows]
    · cases hs
  obtain ⟨_, t1, h1, h3⟩ := Core.of_run_bind h2
  have hΓ1 : Covers pass Γ t1.scopes := (show t1.scopes = t.scopes from along_needTable (R := SameScopes) known h1) ▸ hΓ
  have h4 := Core.of_run_bind_ok h3 rfl
  split at h4
  · obtain ⟨want, t2, hlookup, h5⟩ := Core.of_run_bind h4
    have hΓ2 : Covers pass Γ t2.scopes := (along_lookupVariable name hlookup).scopes_eq ▸ hΓ1
    obtain ⟨hstrays, hΓ3⟩ := Excuses.andThen (hright pass) (fun _ => .bind (.ofExcept _) fun _ => .ofExcept _) h5 hΓ2
    exact ⟨fun s hs hplain => .inl (hstrays s hs hplain), hΓ3.declare name⟩
  · rename_i hnew
    dsimp only at h4
    split at h4
    · cases h4
    obtain ⟨_, t2, hdeclare, h5⟩ := Core.of_run_bind h4
    obtain ⟨got, t3, hcheck, h6⟩ := Core.of_run_bind h5
    have hsame : t'.scopes = t3.scopes := Along.bind (R := SameScopes) (.ofExcept _) (fun _ => .ofExcept _) h6
    rw [hsame]
    exact excuses_declared hright hnew hdeclare hcheck hΓ1

theorem excuses_rules : Rules .fourth id (fun _ => True)
    (fun ns x _ => Along Grows x ∧ ∀ pass, Excuses pass (straysAll ns) x) where
  good _ _ := trivial
  throw _ _ := ⟨.throw _, fun _ => .throw _⟩
  lift _ := ⟨.ofExcept _, fun _ => .nothing (.ofExcept _)⟩
  bind hx hf := ⟨.bind hx.1 fun a => (hf a).1, fun pass => straysAll_append .. ▸ .both (hx.2 pass) fun a => (hf a).2 pass⟩
  node hn h := ⟨h.1, fun pass => by
    rw [straysAll_single, strays_of_passes hn]
    exact h.2 pass⟩
  lookup name := ⟨(along_lookupVariable name).mono fun _ _ => Stays.grows, fun _ => excuses_lookup name⟩
  callee _ hf := ⟨.bind (.ofExcept _) fun name => (hf name).1, fun pass => .after (.ofExcept _) fun name => (hf name).2 pass⟩
  function name types := ⟨(along_lookupFunction .fourth name types).mono fun _ _ => Stays.grows,
    fun _ => .nothing ((along_lookupFunction .fourth name types).mono fun _ _ => Stays.scopes_eq)⟩
  ret _ _ _ _ := ⟨.bind .get fun _ => .bind (.ofExcept _) fun _ => .pure _,
    fun _ => .nothing (.bind .get fun _ => .bind (.ofExcept _) fun _ => .pure _)⟩
  scope h := ⟨(grows_rules .fourth).scope (n := .none) (y := pure ()) h.1, fun pass => by
    rw [straysAll_single]
    exact .enclosed (enters_openScope (.pure _)) (fun _ => straysAll_single _ ▸ h.2 pass) (fun _ => h.1)
      fun _ _ => .tails_same tails_closeScope fun _ => .pure _⟩
  assign _ h := ⟨along_assign _ _ h.1, fun pass => by
    rw [straysAll_single]
    exact excuses_assign _ _ fun pass => straysAll_single _ ▸ h.2 pass⟩
  forEach _ hcoll hbody := ⟨along_forEach _ hcoll.1 hbody.1, fun pass => by
    rw [straysAll_single]
    exact .both (straysAll_single _ ▸ hcoll.2 pass) fun t => .both (excuses_openEach _ _ t _) fun _ =>
      .andThen (straysAll_single _ ▸ hbody.2 pass) fun _ => .pure _⟩
  forRange _ hbody := ⟨(grows_rules .fourth).forRange trivial hbody.1, fun pass => by
    rw [straysAll_single]
    refine .skip (fun _ => rfl) (fun Γ s hs hplain => ?_) (.enclosed (enters_openRange _ _ _)
      (fun _ => straysAll_single _ ▸ hbody.2 pass) (fun _ => hbody.1)
      fun _ _ => .tails_same tails_closeScope fun _ => .pure _)
    obtain ⟨s0, -, rfl⟩ := mem_map.1 hs
    cases hplain⟩
  funDef _ hbody := ⟨(grows_rules .fourth).funDef trivial hbody.1, fun pass => by
    rw [straysAll_single]
    exact .enclosed (enters_openFunction _ _ _ _) (fun _ => straysAll_single _ ▸ hbody.2 pass) (fun _ => hbody.1)
      fun _ _ => .tails_same (.tails_same tails_closeScope fun _ => sameScopes_unexpect) fun _ => .pure _⟩

end Typing

open Typing

theorem excuses_typecheck (pass : String → Prop) (p : List Node) : Excuses pass (straysAll p) (typecheck .fourth p) := by
  induction p with
  | nil => exact .nothing (.pure _)
  | cons n rest ih => exact .both (straysAll_single n ▸ (excuses_rules.holds true n trivial).2 pass) fun _ => .andThen ih fun _ => .pure _

theorem covers_fresh : Covers pass [[]] (fresh .fourth).scopes := by
  refine ⟨fun x type hx => ?_, trivial⟩
  obtain ⟨l, l', heq, -⟩ := lookup_eq_some_iff.1 hx
  have hmem : (x, Entry.variable type) ∈ builtins4 := by rw [heq]; simp
  have hnone : ∀ entry ∈ builtins4, ∀ type, entry.2 ≠ .variable type := by simp [builtins4]
  exact absurd rfl (hnone _ hmem type)

/-- In a program that checking accepts, an identifier that is read where no variable of its name is in
scope stands in a bound of a range, or in the right side of the assignment that declares it. -/
theorem role_of_mem_strays {p : List Node} {types : List (Option Ty)} {t : ScopeTable}
    (h : (typecheck .fourth p).run (fresh .fourth) = .ok types t) :
    ∀ s ∈ (straysAll p [[]]).1, s.role = .bound ∨ s.role = .own := by
  intro s hs
  have hplain := (excuses_typecheck (fun _ => False) p h covers_fresh).1 s hs
  cases hrole : s.role with
  | bound => exact .inl rfl
  | own => exact .inr rfl
  | plain => exact (hplain hrole).elim

/-- A loop inside a function: its bound and the first right side in its body have the strays. -/
theorem role_of_mem_strays_loop :
    let int : Node := .type (.prim .int)
    let body : Node := .block [.assign (.ident "y") int (.binary (.ident "y") "+" (.ident "i"))]
    let p : List Node := [.funDef (.ident "f") (.params (some [.param int (.ident "a")]))
      (.block [.forRange (.ident "i") (.range (.ident "n") .none .none) body, .ret (.ident "a")]) int]
    (∃ types t, (typecheck .fourth p).run (fresh .fourth) = .ok types t) ∧
      (straysAll p [[]]).1 = [⟨.bound, "n"⟩, ⟨.own, "y"⟩] ∧
      ∀ s ∈ (straysAll p [[]]).1, s.role = .bound ∨ s.role = .own := by
  intro int body p
  obtain ⟨types, t, h⟩ : ∃ types t, (typecheck .fourth p).run (fresh .fourth) = .ok types t := ⟨_, _, rfl⟩
  exact ⟨⟨types, t, h⟩, by decide, role_of_mem_strays h⟩

theorem exists_strays_of_accepted :
    let int : Node := .type (.prim .int)
    let loop : Node := .forRange (.ident "i") (.range (.ident "n") .none .none)
      (.block [.assign (.ident "x") int (.ident "i")])
    let own : Node := .assign (.ident "x") int (.ident "x")
    (∃ types t, (typecheck .fourth [loop]).run (fresh .fourth) = .ok types t) ∧
      (straysAll [loop] [[]]).1 = [⟨.bound, "n"⟩] ∧
      (∃ types t, (typecheck .fourth [own]).run (fresh .fourth) = .ok types t) ∧
      (straysAll [own] [[]]).1 = [⟨.own, "x"⟩] := ⟨⟨_, _, rfl⟩, by decide, ⟨_, _, rfl⟩, by decide⟩

end Tabc
