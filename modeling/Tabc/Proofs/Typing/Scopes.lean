import Tabc.Proofs.Core.Steps
import Tabc.Proofs.Typing.Traversal

/-!
# Checking respects scopes

Whatever tree is checked, the scopes around the innermost one are left as they are, and that one only grows
(`Scope.Grows`). An expression changes nothing but what is reported.
-/

open List

namespace Tabc

/-- A variable keeps its type; the functions of a name stay, and more may follow. -/
inductive Entry.Grows : Entry → Entry → Prop where
  | variable (type : Held) : Grows (.variable type) (.variable type)
  | functions {os os' : List Overload} (h : os <+: os') : Grows (.functions os) (.functions os')

namespace Entry.Grows

theorem refl : (a : Entry) → Grows a a
  | .variable type => .variable type
  | .functions os => .functions os.prefix_refl

theorem trans : Grows a b → Grows b c → Grows a c
  | .variable type, .variable _ => .variable type
  | .functions h, .functions h' => .functions (h.trans h')

end Entry.Grows

/-- Every entry of a scope is still there, and has only grown. -/
def Scope.Grows (s s' : Scope) : Prop :=
  ∀ ⦃name entry⦄, s.find? name = some entry → ∃ entry', s'.find? name = some entry' ∧ entry.Grows entry'

namespace Scope

theorem Grows.refl (s : Scope) : s.Grows s := fun _ entry h => ⟨entry, h, .refl entry⟩

theorem Grows.trans {s s1 s' : Scope} (h : s.Grows s1) (h' : s1.Grows s') : s.Grows s' := by
  intro name entry hname
  obtain ⟨entry1, hname1, hgrows⟩ := h hname
  obtain ⟨entry', hname', hgrows'⟩ := h' hname1
  exact ⟨entry', hname', hgrows.trans hgrows'⟩

theorem grows_bind {s : Scope} (h : s.find? name = none) (entry : Entry) : s.Grows (s.bind name entry) := by
  have hbind : s.bind name entry = s ++ [(name, entry)] := by simp [Scope.bind, has, h]
  intro other old hold
  refine ⟨old, ?_, .refl old⟩
  rw [hbind, find?, lookup_append]
  simp [show s.lookup other = some old from hold]

theorem grows_adjust {f : Entry → Entry} (hf : ∀ entry : Entry, entry.Grows (f entry)) (name : String) :
    (s : Scope) → s.Grows (s.adjust name f)
  | [] => .refl []
  | (n, entry) :: rest => by
    intro other old hold
    simp only [adjust, find?, lookup_cons] at hold ⊢
    by_cases hn : n == name
    · rw [if_pos hn, lookup_cons]
      cases hother : other == n with
      | true =>
        simp only [hother] at hold ⊢
        exact ⟨f entry, rfl, Option.some.inj hold ▸ hf entry⟩
      | false =>
        simp only [hother] at hold ⊢
        exact ⟨old, hold, .refl old⟩
    · rw [if_neg hn, lookup_cons]
      cases hother : other == n with
      | true =>
        simp only [hother] at hold ⊢
        exact ⟨old, hold, .refl old⟩
      | false =>
        simp only [hother] at hold ⊢
        exact grows_adjust hf name rest hold

end Scope

namespace ScopeTable

theorem findIn_eq_findSome? (name : String) : (scopes : List Scope) → findIn name scopes = scopes.findSome? (·.find? name)
  | [] => rfl
  | σ :: rest => by
    rw [findIn, findSome?_cons, findIn_eq_findSome? name rest]
    cases σ.find? name <;> rfl

/-- Only the innermost scope may have changed, and it has only grown. -/
def Grows (t t' : ScopeTable) : Prop :=
  ∀ ⦃top below⦄, t.scopes = top :: below → ∃ top', t'.scopes = top' :: below ∧ top.Grows top'

/-- Nothing but the report may have changed. -/
def Stays (t t' : ScopeTable) : Prop := t' = { t with printed := t'.printed }

variable {t t' t1 : ScopeTable}

theorem Grows.of_scopes_eq (h : t'.scopes = t.scopes) : t.Grows t' := fun top _ htop => ⟨top, h.trans htop, .refl top⟩

instance : Std.Refl Grows where
  refl _ := .of_scopes_eq rfl

instance : IsTrans ScopeTable Grows where
  trans t t1 t' h h' := by
    intro top below htop
    obtain ⟨top1, htop1, hgrows⟩ := h htop
    obtain ⟨top', htop', hgrows'⟩ := h' htop1
    exact ⟨top', htop', hgrows.trans hgrows'⟩

instance : Std.Refl Stays where
  refl _ := rfl

instance : IsTrans ScopeTable Stays where
  trans t t1 t' h h' := by
    rw [Stays, h', h]

theorem Stays.scopes_eq (h : t.Stays t') : t'.scopes = t.scopes := by rw [h]

theorem Stays.grows (h : t.Stays t') : t.Grows t' := .of_scopes_eq h.scopes_eq

theorem grows_setTop (h : t.top.Grows s) : t.Grows (t.setTop s) := by
  intro top below htop
  have : t.top = top := by simp [ScopeTable.top, htop]
  exact ⟨s, by simp [setTop, htop], this ▸ h⟩

variable {R : ScopeTable → ScopeTable → Prop} {α β : Type}

/-- A scope was opened, after the innermost one may have grown. -/
def Opens (t t' : ScopeTable) : Prop :=
  ∀ ⦃top below⦄, t.scopes = top :: below → ∃ inner top', t'.scopes = inner :: top' :: below ∧ top.Grows top'

/-- The innermost scope was closed, and the one around it may have grown. -/
def Closes (t t' : ScopeTable) : Prop :=
  ∀ ⦃inner top below⦄, t.scopes = inner :: top :: below → ∃ top', t'.scopes = top' :: below ∧ top.Grows top'

theorem Grows.opens (h : t.Grows t1) (h' : t1.Opens t') : t.Opens t' := by
  intro top below htop
  obtain ⟨top1, htop1, hgrows⟩ := h htop
  obtain ⟨inner, top', htop', hgrows'⟩ := h' htop1
  exact ⟨inner, top', htop', hgrows.trans hgrows'⟩

theorem Opens.grows (h : t.Opens t1) (h' : t1.Grows t') : t.Opens t' := by
  intro top below htop
  obtain ⟨inner1, top', htop1, hgrows⟩ := h htop
  obtain ⟨inner, htop', -⟩ := h' htop1
  exact ⟨inner, top', htop', hgrows⟩

theorem Opens.closes (h : t.Opens t1) (h' : t1.Closes t') : t.Grows t' := by
  intro top below htop
  obtain ⟨inner, top1, htop1, hgrows⟩ := h htop
  obtain ⟨top', htop', hgrows'⟩ := h' htop1
  exact ⟨top', htop', hgrows.trans hgrows'⟩

theorem Closes.grows (h : t.Closes t1) (h' : t1.Grows t') : t.Closes t' := by
  intro inner top below htop
  obtain ⟨top1, htop1, hgrows⟩ := h htop
  obtain ⟨top', htop', hgrows'⟩ := h' htop1
  exact ⟨top', htop', hgrows.trans hgrows'⟩

end ScopeTable

namespace Along

open ScopeTable

variable {α β : Type} {x : ScopeM α} {f : α → ScopeM β}

theorem grows_opens (hx : Along Grows x) (hf : ∀ a, Along Opens (f a)) : Along Opens (x >>= f) :=
  comp (S := Opens) (fun _ _ _ => Grows.opens) hx hf

theorem opens_grows (hx : Along Opens x) (hf : ∀ a, Along Grows (f a)) : Along Opens (x >>= f) :=
  comp (S := Grows) (fun _ _ _ => Opens.grows) hx hf

theorem closes_grows (hx : Along Closes x) (hf : ∀ a, Along Grows (f a)) : Along Closes (x >>= f) :=
  comp (S := Grows) (fun _ _ _ => Closes.grows) hx hf

/-- A body between the step that opens its scope and the one that closes it. -/
theorem opened {γ : Type} {g : α → β → ScopeM γ} (hx : Along Opens x) (hf : ∀ a, Along Grows (f a))
    (hg : ∀ a b, Along Closes (g a b)) : Along Grows (x >>= fun a => f a >>= g a) := by
  intro t c t' h
  obtain ⟨a, t1, h1, h⟩ := Core.of_run_bind h
  obtain ⟨b, t2, h2, h3⟩ := Core.of_run_bind h
  exact ((hx h1).grows (hf a h2)).closes (hg a b h3)

end Along

namespace ScopeTable

variable {t t' t1 : ScopeTable} {R : ScopeTable → ScopeTable → Prop} {α β : Type}

theorem along_openScope : Along Opens openScope := by
  rintro t _ _ ⟨⟩ top below htop
  exact ⟨[], top, by simp [htop], .refl top⟩

theorem along_closeScope : Along Closes closeScope := by
  intro t _ t' h inner top below htop
  have h2 := Core.of_run_bind_ok h rfl
  rw [htop] at h2
  cases h2
  exact ⟨top, rfl, .refl top⟩

theorem along_expect (result : Held) : Along Grows (expect result) := by
  rintro t _ _ ⟨⟩
  exact .of_scopes_eq rfl

theorem along_unexpect : Along Grows unexpect := by
  refine .bind .get fun t => ?_
  split
  · exact .throw _
  · rintro t _ _ ⟨⟩
    exact .of_scopes_eq rfl

variable (name : String)

theorem along_declareVariable (type : Held) : Along Grows (declareVariable name type) := by
  intro t _ t' h
  have h2 := Core.of_run_bind_ok h rfl
  split at h2
  · cases h2
  case isFalse hnew =>
    cases h2
    refine grows_setTop (Scope.grows_bind ?_ _)
    simpa [Scope.has] using hnew

theorem grows_addOverload (t : ScopeTable) (name : String) (o : Overload) : t.Grows (t.addOverload name o) := by
  refine grows_setTop (Scope.grows_adjust (fun entry => ?_) name t.top)
  rcases entry with type | os
  · exact .variable type
  · exact .functions (prefix_append os [o])

theorem along_declareFunction (params : List (ParamName × Held)) (result : Held) :
    Along Grows (declareFunction name params result) := by
  intro t _ t' h
  have h2 := Core.of_run_bind_ok h rfl
  dsimp only at h2
  split at h2
  · split at h2
    · cases h2
    · cases h2
      exact grows_addOverload t name _
  · cases h2
  case h_3 hnew =>
    cases h2
    exact trans_of Grows (grows_setTop (Scope.grows_bind hnew _)) (.of_scopes_eq rfl)

theorem along_declareWhole (params : List Datum) (result : Held) :
    Along Grows (declareWhole name params result) := by
  intro t _ t' h
  have h2 := Core.of_run_bind_ok h rfl
  split at h2
  · cases h2
  · cases h2
  case h_3 hnew =>
    cases h2
    exact grows_setTop (Scope.grows_bind hnew _)

theorem along_lookupVariable : Along Stays (lookupVariable name) := by
  refine .bind .get fun t => ?_
  split
  · exact .pure _
  · exact .throw _
  · exact .throw _

theorem along_lookupFunction (e : Edition) (name : String) (types : List Held) :
    Along Stays (lookupFunction e name types) := by
  refine .bind .get fun t => ?_
  refine .bind ?_ fun _ => ?_
  · rintro t _ _ ⟨⟩
    rfl
  · split
    · exact .pure _
    · exact .throw _

end ScopeTable

namespace Typing

open ScopeTable

variable {R : ScopeTable → ScopeTable → Prop}

theorem along_needTable [Std.Refl R] (known : Bool) : Along R (needTable known) := by
  cases known
  · exact .throw _
  · exact .pure _

theorem along_declareParams (e : Edition) (items : List Node) : Along Grows (declareParams e items) := by
  induction items with
  | nil => exact .pure _
  | cons n rest ih =>
    rw [declareParams.eq_def]
    split
    · exact .pure _
    · rename_i heq
      obtain ⟨rfl, rfl⟩ := List.cons.inj heq
      exact .bind (.ofExcept _) fun name => .bind (along_declareVariable name _) fun _ => ih
    · exact .throw _

theorem along_openFunction (e : Edition) (known : Bool) (name params result : Node) :
    Along Opens (openFunction e known name params result) := by
  refine .grows_opens (.ofExcept _) fun items => ?_
  have hopen : Along Opens (do
      ScopeTable.expect (Held.ofNode e result)
      ScopeTable.openScope
      declareParams e items) :=
    .grows_opens (along_expect _) fun _ => .opens_grows along_openScope fun _ => along_declareParams e items
  split
  case h_1 | h_2 =>
    refine .grows_opens (along_needTable known) fun _ => ?_
    split
    · exact .grows_opens (along_declareWhole _ _ _) fun _ => hopen
    · exact .grows_opens (.throw _) fun _ => hopen
  case h_3 | h_4 =>
    exact .grows_opens (.ofExcept _) fun n => .grows_opens (along_needTable known) fun _ =>
      .grows_opens (.ofExcept _) fun _ => .grows_opens (along_declareFunction n _ _) fun _ => hopen

theorem along_openRange (e : Edition) (known : Bool) (var : Node) (tree : String) :
    Along Opens (openRange e known var tree) := by
  refine .grows_opens (along_needTable known) fun _ => .opens_grows along_openScope fun _ =>
    .bind (.ofExcept _) fun name => ?_
  split
  · refine .bind .get fun t => ?_
    split
    · split
      · exact .throw _
      · exact .pure _
    · exact along_declareVariable name _
  · exact along_declareVariable name _

theorem along_openEach_fourth (known : Bool) (var : Node) (coll : Option Ty) (tree : String) :
    Along Grows (openEach .fourth known var coll tree) := by
  refine .bind (along_needTable known) fun _ => .bind (.ofExcept _) fun name => .bind .get fun t => ?_
  split
  · split
    · refine .bind (.ofExcept _) fun want => ?_
      split
      · exact .pure _
      · exact .throw _
    · exact .pure _
  · exact .bind (.ofExcept _) fun _ => along_declareVariable name _

theorem along_openEach (he : e ≠ .fourth) (known : Bool) (var : Node)
    (coll : Option Ty) (tree : String) : Along Opens (openEach e known var coll tree) := by
  refine .grows_opens (along_needTable known) fun _ => ?_
  split
  case h_1 | h_2 =>
    refine .opens_grows along_openScope fun _ => .bind (.ofExcept _) fun name => ?_
    split
    · exact .throw _
    · exact along_declareVariable name _
  case h_3 =>
    exact .opens_grows along_openScope fun _ => .bind (.ofExcept _) fun name =>
      .bind (.ofExcept _) fun _ => along_declareVariable name _
  case h_4 => exact absurd rfl he

theorem along_closeFunction : Along Closes closeFunction := .closes_grows along_closeScope fun _ => along_unexpect

end Typing

namespace Node

/-- The trees of expressions. A bound of a slice may be missing. -/
inductive Expression : Node → Prop where
  | literal (kind : String) (value : Atom) : Expression (.literal kind value)
  | ident (name : String) : Expression (.ident name)
  | collection (kind : String) {items : List Node} (h : ∀ n ∈ items, Expression n) : Expression (.collection kind items)
  | binary (op : String) {left right : Node} (hleft : Expression left) (hright : Expression right) :
    Expression (.binary left op right)
  | unary (op : String) {right : Node} (hright : Expression right) : Expression (.unary op right)
  | call (callee : Node) {args : Node} (h : ∀ n ∈ args.members, Expression n) : Expression (.call callee args)
  | index {obj idx : Node} (hobj : Expression obj) (hidx : Expression idx) : Expression (.index obj idx)
  | slice {obj start stop : Node} (hobj : Expression obj) (hstart : start.given → Expression start)
    (hstop : stop.given → Expression stop) : Expression (.slice obj start stop)

theorem Expression.checked {m n : Node} (h : n.Expression) (hm : m ∈ n.checked) : m.Expression := by
  cases h with
  | slice hobj hstart hstop => grind [Node.checked]
  | _ => grind [Node.checked]

end Node

namespace Typing

open ScopeTable

variable {e : Edition} {known : Bool}

theorem along_assign (left type : Node) (h : Along Grows (check e known right)) :
    Along Grows (check e known (.assign left type right)) := by
  refine .bind (.ofExcept _) fun name => .bind (along_needTable known) fun _ => .bind .get fun t => ?_
  split
  · exact .bind ((along_lookupVariable name).mono fun _ _ => Stays.grows) fun _ => .bind h fun _ =>
      .bind (.ofExcept _) fun _ => .ofExcept _
  · dsimp only
    split
    · exact .throw _
    · exact .bind (along_declareVariable name _) fun _ => .bind h fun _ =>
        .bind (.ofExcept _) fun _ => .ofExcept _

theorem along_forEach (var : Node) (hcoll : Along Grows (check e known coll))
    (hbody : Along Grows (checkBody e known body)) : Along Grows (check e known (.forEach var coll body)) := by
  refine .bind hcoll fun t => ?_
  by_cases he : e = .fourth
  · subst he
    exact .bind (along_openEach_fourth known var t _) fun _ => .bind hbody fun _ => .pure _
  · refine .opened (along_openEach he known var t _) (fun _ => hbody) fun _ _ => ?_
    rw [if_pos (by simpa using he)]
    exact .closes_grows along_closeScope fun _ => .pure _

theorem grows_rules (e : Edition) : Rules e id (fun _ => True) (fun _ x _ => Along Grows x) where
  good _ _ := trivial
  throw _ _ := .throw _
  lift _ := .ofExcept _
  bind hx hf := .bind hx hf
  node _ h := h
  lookup name := (along_lookupVariable name).mono fun _ _ => Stays.grows
  callee _ hf := .bind (.ofExcept _) hf
  function name types := (along_lookupFunction e name types).mono fun _ _ => Stays.grows
  ret _ _ _ _ := .bind .get fun _ => .bind (.ofExcept _) fun _ => .pure _
  scope h := .opened along_openScope (fun _ => h) fun _ _ => .closes_grows along_closeScope fun _ => .pure _
  assign _ hright := along_assign _ _ hright
  forEach _ hcoll hbody := along_forEach _ hcoll hbody
  forRange _ hbody := by
    exact .opened (along_openRange e _ _ _) (fun _ => hbody) fun _ _ => .closes_grows along_closeScope fun _ => .pure _
  funDef _ hbody := by
    exact .opened (along_openFunction e _ _ _ _) (fun _ => hbody)
      fun _ _ => .closes_grows along_closeFunction fun _ => .pure _

/-- Checking any tree leaves the scopes around the innermost one as they are, and that one grows. -/
theorem along_check (e : Edition) (known : Bool) (n : Node) : Along Grows (check e known n) :=
  (grows_rules e).holds known n trivial

theorem stays_rules (e : Edition) : Rules e id Node.Expression (fun _ x _ => Along Stays x) where
  good := Node.Expression.checked
  throw _ _ := .throw _
  lift _ := .ofExcept _
  bind hx hf := .bind hx hf
  node _ h := h
  lookup name := along_lookupVariable name
  callee _ hf := .bind (.ofExcept _) hf
  function name types := along_lookupFunction e name types
  ret h := by cases h
  scope h := by
    intro t _ t' hrun
    obtain ⟨_, t1, hx, hrun⟩ := Core.of_run_bind (Core.of_run_bind_ok hrun rfl)
    obtain ⟨_, t2, hclose, hrun⟩ := Core.of_run_bind hrun
    cases hrun
    have hclose := Core.of_run_bind_ok hclose rfl
    rw [h hx] at hclose
    cases hscopes : t.scopes with
    | nil => simp [hscopes] at hclose
    | cons s rest =>
      simp only [hscopes] at hclose
      cases hclose
      simp [Stays, ← hscopes]
  assign h := by cases h
  forEach h := by cases h
  forRange h := by cases h
  funDef h := by cases h

/-- Checking that ends well leaves the scopes around the innermost one as they are. The innermost one
keeps its entries: variables with their types, and functions with more after them at most. An
expression leaves the whole table as it is. -/
theorem check_keeps_scopes (e : Edition) {n : Node} {t t' : ScopeTable} {ty : Option Ty} {top : Scope}
    {below : List Scope} (ht : t.scopes = top :: below)
    (h : (check e true n).run t = .ok ty t') :
    (∃ top', t'.scopes = top' :: below ∧ top.Grows top') ∧ (n.Expression → t.Stays t') :=
  ⟨along_check e true n h ht, fun hn => (stays_rules e).holds true n hn h⟩

/-- A further function of a name, in a scope that has the name already. -/
theorem check_keeps_scopes_overload :
    let float : Held := .type (.prim .float)
    let top : Scope := [("x", .variable float), ("f", .functions [.declared [] [] float])]
    let t : ScopeTable := { ScopeTable.fresh .fourth with scopes := top :: ScopeTable.baseScopes .fourth }
    let n : Node := .funDef (.ident "f") (.params (some [.param (.type (.prim .int)) (.ident "x")]))
      (.block [.assign (.ident "y") (.type (.prim .int)) (.ident "x"), .ret (.ident "y")])
      (.type (.prim .int))
    ∃ ty t', (check .fourth true n).run t = .ok ty t' ∧
      ∃ top', t'.scopes = top' :: ScopeTable.baseScopes .fourth ∧ top.Grows top' := by
  intro float top t n
  obtain ⟨ty, t', h⟩ : ∃ ty t', (check .fourth true n).run t = .ok ty t' := ⟨_, _, rfl⟩
  exact ⟨ty, t', h, (check_keeps_scopes .fourth rfl h).1⟩

end Typing

end Tabc
