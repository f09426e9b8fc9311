import Tabc.Proofs.Typing.Scopes

/-!
# Checking does not depend on names

If the new names tell apart what the old ones do, checking the renamed trees on the renamed table ends as
checking the trees does and leaves the renamed table behind (`Renamed`). The messages of faults may differ.
-/

open List

namespace Tabc

namespace Node

def callee? : Node → Option Node
  | .call callee _ => some callee
  | _ => Option.none

def CallsName (n : Node) : Prop := ∀ m ∈ n.callee?, m.isIdent = true

instance : DecidablePred CallsName := fun n => inferInstanceAs (Decidable (∀ m ∈ n.callee?, m.isIdent = true))

def Named (n : Node) : Prop := n.Placed ∧ n.CallsName

variable {r : String → String}

variable {n : Node}

theorem exists_of_isIdent (h : n.isIdent = true) : ∃ name, n = .ident name := by
  cases n <;> simp_all [isIdent]

theorem parts_rename (n : Node) : (n.rename r).parts = n.parts.map (renameAll r) := by
  cases n with
  | params items | args items => cases items <;> rfl
  | _ => rfl

theorem children_of_parts {items : List Node} (h : n.parts = .ok items) : n.children = items := by
  cases n with
  | params given | args given | block given =>
    cases h
    rfl
  | _ => cases h

end Node

variable {r : String → String}

def ParamName.rename (r : String → String) : ParamName → ParamName
  | .ident s => .ident (r s)
  | .text s => .text s

/-- The function with other names of its parameters. -/
def Overload.rename (r : String → String) : Overload → Overload
  | .declared names types result => .declared (names.map (ParamName.rename r)) types result
  | .emitted name types result => .emitted name types result
  | .whole params result => .whole params result

/-- The entry with other names of parameters. -/
def Entry.rename (r : String → String) : Entry → Entry
  | .variable t => .variable t
  | .functions os => .functions (os.map (Overload.rename r))

def Scope.rename (r : String → String) (s : Scope) : Scope := s.map fun (name, entry) => (r name, entry.rename r)

def ScopeTable.rename (r : String → String) (t : ScopeTable) : ScopeTable :=
  { t with scopes := t.scopes.map (Scope.rename r) }

theorem ParamName.rename_injective (hr : Function.Injective r) : Function.Injective (ParamName.rename r) := by
  rintro (a | a) (b | b) h
  · rw [hr (ParamName.ident.inj h)]
  · cases h
  · cases h
  · exact h

@[simp] theorem Overload.types_rename (o : Overload) : (o.rename r).types = o.types := by
  cases o <;> rfl

@[simp] theorem Overload.result_rename (o : Overload) : (o.rename r).result = o.result := by
  cases o <;> rfl

namespace Scope

section

variable (hr : Function.Injective r)

include hr

theorem find?_rename (s : Scope) (name : String) :
    (s.rename r).find? (r name) = (s.find? name).map (Entry.rename r) := by
  induction s with
  | nil => rfl
  | cons p rest ih =>
    obtain ⟨n, entry⟩ := p
    simp only [rename, map_cons, find?, lookup_cons] at ih ⊢
    rw [hr.beq_eq]
    split
    · rfl
    · exact ih

theorem has_rename (s : Scope) (name : String) : (s.rename r).has (r name) = s.has name := by
  rw [has, has, find?_rename hr, Option.isSome_map]

theorem adjust_rename (hfg : ∀ entry : Entry, g (entry.rename r) = (f entry).rename r) (s : Scope) (name : String) :
    (s.rename r).adjust (r name) g = (s.adjust name f).rename r := by
  induction s with
  | nil => rfl
  | cons p rest ih =>
    simp only [rename, map_cons, adjust] at ih ⊢
    rw [hr.beq_eq]
    split
    · rw [hfg, map_cons]
    · rw [ih, map_cons]

theorem bind_rename (s : Scope) (name : String) (entry : Entry) :
    (s.rename r).bind (r name) (entry.rename r) = (s.bind name entry).rename r := by
  rw [bind, bind, has_rename hr]
  split
  · exact adjust_rename (f := fun _ => entry) hr (fun _ => rfl) s name
  · simp [rename]

end

end Scope

namespace ScopeTable

theorem scopes_rename (t : ScopeTable) : (t.rename r).scopes = t.scopes.map (Scope.rename r) := rfl

theorem top_rename (t : ScopeTable) : (t.rename r).top = t.top.rename r := by
  cases h : t.scopes <;> simp [top, rename, h, Scope.rename]

theorem setTop_rename (t : ScopeTable) (s : Scope) : (t.rename r).setTop (s.rename r) = (t.setTop s).rename r := by
  cases h : t.scopes <;> simp [setTop, rename, h]

theorem findIn_rename (hr : Function.Injective r) (name : String) (scopes : List Scope) :
    findIn (r name) (scopes.map (Scope.rename r)) = (findIn name scopes).map (Entry.rename r) := by
  simp only [findIn_eq_findSome?, findSome?_map, map_findSome?, Function.comp_def, Scope.find?_rename hr]

theorem rename_fresh (h : ∀ name ∈ builtins4.map Prod.fst, r name = name) :
    (fresh .fourth).rename r = fresh .fourth := by
  have hnames : r "print" = "print" ∧ r "input_int" = "input_int" ∧ r "input_float" = "input_float" ∧
      r "input_bool" = "input_bool" ∧ r "input_str" = "input_str" := by
    refine ⟨h _ ?_, h _ ?_, h _ ?_, h _ ?_, h _ ?_⟩ <;> decide
  simp [rename, fresh, baseScopes, builtins4, Scope.rename, Entry.rename, Overload.rename, Prim.name, hnames]

theorem clear_rename (hr : Function.Injective r) (name : String) (names : List ParamName)
    (types : List Held) (os : List Overload) :
    (clear (r name) (names.map (ParamName.rename r)) types (os.map (Overload.rename r))).isOk =
      (clear name names types os).isOk := by
  induction os with
  | nil => rfl
  | cons o rest ih =>
    cases htypes : o.types == types with
    | true => cases o <;> simp [clear, htypes] <;> rfl
    | false =>
      cases o with
      | declared names' types' result =>
        have htypes' : (types' == types) = false := htypes
        simp only [map_cons, Overload.rename, clear, Overload.types, htypes',
          (map_injective_iff.2 (ParamName.rename_injective hr)).beq_eq]
        cases names' == names
        · exact ih
        · rfl
      | emitted _ _ _ => simp [clear, htypes, Overload.rename]
      | whole _ _ => simp [clear, htypes, Overload.rename]

theorem clearIn_rename (hr : Function.Injective r) (name : String) (names : List ParamName)
    (types : List Held) (scopes : List Scope) :
    (clearIn (r name) (names.map (ParamName.rename r)) types (scopes.map (Scope.rename r))).isOk =
      (clearIn name names types scopes).isOk := by
  induction scopes with
  | nil => rfl
  | cons s rest ih =>
    rw [map_cons, clearIn, clearIn, Scope.find?_rename hr]
    match s.find? name with
    | none => exact ih
    | some (.variable _) => rfl
    | some (.functions os) =>
      have hos := clear_rename hr name names types os
      simp only [Option.map_some, Entry.rename]
      cases h : clear name names types os <;> cases h' : clear (r name) (names.map (ParamName.rename r)) types
          (os.map (Overload.rename r)) <;> rw [h, h'] at hos
      · rfl
      · cases hos
      · cases hos
      · exact ih

variable {α β : Type}

/-- Two steps end alike: well and with the same value, or with a fault. The second one leaves the
renamed table behind. -/
inductive Renamed (r : String → String) :
    EStateM.Result Fault ScopeTable α → EStateM.Result Fault ScopeTable α → Prop where
  | ok (a : α) (t : ScopeTable) : Renamed r (.ok a t) (.ok a (t.rename r))
  | error (fault fault' : Fault) (t : ScopeTable) : Renamed r (.error fault t) (.error fault' (t.rename r))

/-- On every renamed table the second step does what the first does on the table. -/
def Copies (r : String → String) (x y : ScopeM α) : Prop := ∀ t, Renamed r (x.run t) (y.run (t.rename r))

namespace Copies

theorem pure (a : α) : Copies r (pure a : ScopeM α) (pure a) := fun t => .ok a t

theorem throw (fault fault' : Fault) : Copies r (throw fault : ScopeM α) (throw fault') :=
  fun t => .error fault fault' t

theorem ofExcept (x : Except Fault α) : Copies r (MonadExcept.ofExcept x : ScopeM α) (MonadExcept.ofExcept x) := by
  cases x with
  | ok a => exact .pure a
  | error fault => exact .throw fault fault

theorem of_toOption {x y : Except Fault α} (h : x.toOption = y.toOption) :
    Copies r (MonadExcept.ofExcept x : ScopeM α) (MonadExcept.ofExcept y) := by
  match x, y, h with
  | .ok _, .ok _, rfl => exact .pure _
  | .error _, .error _, _ => exact .throw _ _

theorem bind {x y : ScopeM α} {f g : α → ScopeM β} (hx : Copies r x y)
    (hf : ∀ a, Copies r (f a) (g a)) : Copies r (x >>= f) (y >>= g) := by
  intro t
  rw [EStateM.run_bind, EStateM.run_bind]
  have ht := hx t
  generalize x.run t = out, y.run (t.rename r) = out' at ht ⊢
  cases ht with
  | ok a t' => exact hf a t'
  | error fault fault' t' => exact .error fault fault' t'

/-- A step that goes by what the table holds. -/
theorem get_bind {f g : ScopeTable → ScopeM α} (h : ∀ t, Copies r (f t) (g (t.rename r))) :
    Copies r (get >>= f) (get >>= g) := fun t => h t t

theorem set (t : ScopeTable) : Copies r (set t : ScopeM PUnit) (set (t.rename r)) := fun _ => .ok _ t

theorem modify (h : ∀ t, g (t.rename r) = (f t).rename r) : Copies r (modify f : ScopeM PUnit) (modify g) := fun t => by
  change Renamed r _ (.ok () (g (t.rename r)))
  rw [h t]
  exact .ok _ (f t)

end Copies

theorem copies_openScope : Copies r openScope openScope := .modify fun _ => rfl

theorem copies_closeScope : Copies r closeScope closeScope := by
  refine .get_bind fun t => ?_
  match h : t.scopes with
  | _ :: s :: rest => simpa [rename, h] using .modify fun _ => rfl
  | [] | [_] => simpa [rename, h] using .throw _ _

theorem copies_expect (result : Held) : Copies r (expect result) (expect result) := .modify fun _ => rfl

theorem copies_unexpect : Copies r unexpect unexpect := by
  refine .get_bind fun t => ?_
  rw [show (t.rename r).expected = t.expected from rfl]
  split
  · exact .throw _ _
  · exact .modify fun _ => rfl

section

variable (hr : Function.Injective r)

include hr

variable (name : String)

theorem copies_declareVariable (type : Held) :
    Copies r (declareVariable name type) (declareVariable (r name) type) := by
  refine .get_bind fun t => ?_
  rw [top_rename, Scope.has_rename hr]
  split
  · exact .throw _ _
  have := Scope.bind_rename hr t.top name (.variable type)
  rw [Entry.rename] at this
  rw [this, setTop_rename]
  exact .set _

theorem copies_lookupVariable : Copies r (lookupVariable name) (lookupVariable (r name)) := by
  refine .get_bind fun t => ?_
  rw [rename, findIn_rename hr]
  match findIn name t.scopes with
  | some (.variable type) => exact .pure type
  | some (.functions _) => exact .throw _ _
  | none => exact .throw _ _

theorem addOverload_rename (t : ScopeTable) (name : String) (o : Overload) :
    (t.rename r).addOverload (r name) (o.rename r) = (t.addOverload name o).rename r := by
  rw [addOverload, addOverload, top_rename, ← setTop_rename]
  refine congrArg _ (Scope.adjust_rename hr (fun entry => ?_) t.top name)
  cases entry <;> simp [Entry.rename]

theorem copies_declareFunction (params : List (ParamName × Held)) (result : Held) :
    Copies r (declareFunction name params result)
      (declareFunction (r name) (params.map fun p => (p.1.rename r, p.2)) result) := by
  refine .get_bind fun t => ?_
  have hnames : (params.map fun p => (p.1.rename r, p.2)).map (·.1) =
      (params.map (·.1)).map (ParamName.rename r) := by simp
  have htypes : (params.map fun p => (p.1.rename r, p.2)).map (·.2) = params.map (·.2) := by simp
  rw [top_rename, Scope.find?_rename hr, hnames, htypes]
  generalize params.map (·.1) = names
  generalize params.map (·.2) = types
  match t.top.find? name with
  | none =>
    have hbind := Scope.bind_rename hr t.top name (.functions [.declared names types result])
    simp only [Entry.rename, map_cons, map_nil, Overload.rename] at hbind
    simp only [Option.map_none, hbind, setTop_rename]
    exact .set _
  | some (.variable _) => exact .throw _ _
  | some (.functions _) =>
    have hclear := clearIn_rename hr name names types t.scopes
    have hadd := addOverload_rename hr t name (.declared names types result)
    simp only [Option.map_some, Entry.rename, Overload.rename] at hadd ⊢
    rw [hadd, scopes_rename]
    generalize clearIn name names types t.scopes = x, clearIn _ _ types _ = y at hclear ⊢
    match x, y, hclear with
    | .ok _, .ok _, _ => exact .set _
    | .error _, .error _, _ => exact .throw _ _

theorem resultIn_rename (types : List Held) (report : String) (scopes : List Scope) :
    let found := resultIn .fourth name types report scopes
    let found' := resultIn .fourth (r name) types report (scopes.map (Scope.rename r))
    found'.1 = found.1 ∧ found'.2.toOption = found.2.toOption := by
  induction scopes generalizing report with
  | nil => exact ⟨rfl, rfl⟩
  | cons s rest ih =>
    rw [map_cons, resultIn, resultIn, Scope.find?_rename hr]
    match s.find? name with
    | none => exact ih report
    | some (.variable _) => exact ⟨rfl, rfl⟩
    | some (.functions os) =>
      have hmiss : missReport (os.map (Overload.rename r)) types = missReport os types := by
        rw [missReport, missReport, getLast?_map]
        cases os.getLast? <;> simp
      have hfind : (os.map (Overload.rename r)).find? (fun o => Edition.fourth == .second || o.types == types) =
          (os.find? fun o => Edition.fourth == .second || o.types == types).map (Overload.rename r) := by
        simp [find?_map]
      simp only [Option.map_some, Entry.rename, hmiss, hfind]
      cases os.find? fun o => Edition.fourth == .second || o.types == types with
      | some o => simp
      | none => exact ih _

theorem copies_lookupFunction (types : List Held) :
    Copies r (lookupFunction .fourth name types) (lookupFunction .fourth (r name) types) := by
  refine .get_bind fun t => ?_
  obtain ⟨hreport, hfound⟩ := resultIn_rename hr name types "" t.scopes
  rw [scopes_rename]
  generalize resultIn .fourth name types "" t.scopes = found, resultIn .fourth _ types "" _ = found' at hreport hfound ⊢
  obtain ⟨report, outcome⟩ := found
  obtain ⟨report', outcome'⟩ := found'
  obtain rfl : report' = report := hreport
  refine .bind (.modify fun _ => rfl) fun _ => ?_
  match outcome, outcome', hfound with
  | .ok _, .ok _, rfl => exact .pure _
  | .error _, .error _, _ => exact .throw _ _

end

end ScopeTable

namespace Typing

open ScopeTable

theorem copies_needTable (known : Bool) : Copies r (needTable known) (needTable known) := by
  cases known
  · exact .throw _ _
  · exact .pure _

theorem copies_nameText {α : Type} {n : Node} (hn : n.isIdent = true) {f g : String → CheckM α}
    (h : ∀ name, Copies r (f name) (g (r name))) :
    Copies r (MonadExcept.ofExcept n.nameText >>= f) (MonadExcept.ofExcept (n.rename r).nameText >>= g) := by
  obtain ⟨name, rfl⟩ := Node.exists_of_isIdent hn
  exact fun t => h name t

theorem mapM_parameter_rename {items : List Node} (h : ∀ n ∈ items, n.Throughout Node.Named) :
    (Node.renameAll r items).mapM (parameter .fourth) =
      (items.mapM (parameter .fourth)).map fun ps => ps.map fun p => (p.1.rename r, p.2) := by
  induction items with
  | nil => rfl
  | cons n rest ih =>
    obtain ⟨hn, hrest⟩ := forall_mem_cons.1 h
    have hn : parameter .fourth (n.rename r) = (parameter .fourth n).map fun p => (p.1.rename r, p.2) := by
      cases n with
      | param type var =>
        obtain ⟨name, rfl⟩ := Node.exists_of_isIdent (hn.here.1 var (.head _))
        rfl
      | _ => rfl
    rw [Node.renameAll, mapM_cons, mapM_cons, hn, ih hrest]
    cases parameter .fourth n with
    | error _ => rfl
    | ok p => cases rest.mapM (parameter .fourth) <;> rfl

section

variable (hr : Function.Injective r)

include hr

theorem copies_declareParams {items : List Node} (h : ∀ n ∈ items, n.Throughout Node.Named) :
    Copies r (declareParams .fourth items) (declareParams .fourth (Node.renameAll r items)) := by
  induction items with
  | nil => exact .pure _
  | cons n rest ih =>
    obtain ⟨hn, hrest⟩ := forall_mem_cons.1 h
    cases n with
    | param type var =>
      exact copies_nameText (hn.here.1 var (.head _)) fun name =>
        .bind (copies_declareVariable hr name _) fun _ => ih hrest
    | _ => exact .throw _ _

theorem copies_openFunction (known : Bool) {name params : Node}
    (hname : name.isIdent = true) (hparams : params.Throughout Node.Named) (result : Node) :
    Copies r (openFunction .fourth known name params result)
      (openFunction .fourth known (name.rename r) (params.rename r) result) := by
  rw [openFunction, openFunction, Node.parts_rename]
  cases hitems : params.parts with
  | error fault => exact .throw _ _
  | ok items =>
    have hnamed : ∀ n ∈ items, n.Throughout Node.Named := fun n hn => hparams.child (Node.children_of_parts hitems ▸ hn)
    refine copies_nameText hname fun n => .bind (copies_needTable known) fun _ => ?_
    rw [mapM_parameter_rename hnamed]
    cases items.mapM (parameter .fourth) with
    | error _ => exact .throw _ _
    | ok ps =>
      have hopen := Copies.bind (copies_declareFunction hr n ps (Held.ofNode .fourth result))
        fun _ => .bind (copies_expect (Held.ofNode .fourth result)) fun _ =>
          .bind copies_openScope fun _ => copies_declareParams hr hnamed
      exact fun t => hopen t

theorem copies_openEach (known : Bool) {var : Node}
    (hvar : var.isIdent = true) (coll : Option Ty) (tree tree' : String) :
    Copies r (openEach .fourth known var coll tree) (openEach .fourth known (var.rename r) coll tree') := by
  refine .bind (copies_needTable known) fun _ => copies_nameText hvar fun name => .get_bind fun t => ?_
  rw [scopes_rename, findIn_rename hr]
  match findIn name t.scopes with
  | some (.variable found) =>
    simp only [Option.map_some, Entry.rename]
    split
    · refine .bind (.ofExcept _) fun want => ?_
      split
      · exact .pure _
      · exact .throw _ _
    · exact .pure _
  | some (.functions _) | none => exact .bind (.ofExcept _) fun _ => copies_declareVariable hr name _

theorem copies_openRange (known : Bool) {var : Node} (hvar : var.isIdent = true) (tree tree' : String) :
    Copies r (openRange .fourth known var tree) (openRange .fourth known (var.rename r) tree') := by
  refine .bind (copies_needTable known) fun _ => .bind copies_openScope fun _ =>
    copies_nameText hvar fun name => .get_bind fun t => ?_
  rw [scopes_rename, findIn_rename hr]
  match findIn name t.scopes with
  | some (.variable found) =>
    simp only [Option.map_some, Entry.rename]
    split
    · exact .throw _ _
    · exact .pure _
  | some (.functions _) | none => exact copies_declareVariable hr name _

end

theorem copies_closeFunction : Copies r closeFunction closeFunction := .bind copies_closeScope fun _ => copies_unexpect

/-! The tree that a rule is given stands in its messages only. -/

theorem initial_toOption (want : Held) (got : Option Ty) (tree tree' : String) :
    (initial .fourth want got tree).toOption = (initial .fourth want got tree').toOption := by
  unfold initial
  repeat' first | rfl | split

theorem later_toOption (want : Held) (got : Option Ty) (tree tree' : String) :
    (later .fourth want got tree).toOption = (later .fourth want got tree').toOption := by
  unfold later
  split <;> rfl

theorem returned_toOption (expected : List Held) (got : Option Ty) (tree tree' : String) :
    (returned .fourth expected got tree).toOption = (returned .fourth expected got tree').toOption := by
  unfold returned
  repeat' first | rfl | split

theorem copies_assign (hr : Function.Injective r) {left right : Node} (type : Node) (hleft : left.isIdent = true)
    (hright : Copies r (check .fourth known right) (check .fourth known (right.rename r))) :
    Copies r (check .fourth known (.assign left type right))
      (check .fourth known (Node.rename r (.assign left type right))) := by
  refine copies_nameText hleft fun name => .bind (copies_needTable known) fun _ => .get_bind fun t => ?_
  rw [scopes_rename, findIn_rename hr]
  cases findIn name t.scopes with
  | some entry =>
    exact .bind (copies_lookupVariable hr name) fun want => .bind hright fun got =>
      .bind (.of_toOption (later_toOption want got _ _)) fun _ => .ofExcept _
  | none =>
    dsimp only [Option.map_none]
    split
    · exact .throw _ _
    · exact .bind (copies_declareVariable hr name _) fun _ => .bind hright fun got =>
        .bind (.of_toOption (initial_toOption _ got _ _)) fun _ => .ofExcept _

/-- Checking a renamed tree on a renamed table follows checking the tree. -/
theorem copies_rules (hr : Function.Injective r) :
    Rules .fourth r (Node.Throughout Node.Named) (fun _ x y => Copies r x y) where
  good := Node.Throughout.checked
  throw := .throw
  lift := .of_toOption
  bind := .bind
  node _ h := h
  lookup := copies_lookupVariable hr
  callee h := copies_nameText (h.here.2 _ rfl)
  function := copies_lookupFunction hr
  ret _ got tree tree' := .get_bind fun t => .bind (.of_toOption (returned_toOption t.expected got _ _)) fun _ => .pure _
  scope h := .bind copies_openScope fun _ => .bind h fun _ => .bind copies_closeScope fun _ => .pure _
  assign h hright := copies_assign hr _ (h.here.1 _ (.head _)) hright
  forEach h hcoll hbody := by
    exact .bind hcoll fun t => .bind (copies_openEach hr _ (h.here.1 _ (.head _)) t _ _) fun _ =>
      .bind hbody fun _ => .pure _
  forRange h hbody := by
    exact .bind (copies_openRange hr _ (h.here.1 _ (.head _)) _ _) fun _ => .bind hbody fun _ =>
      .bind copies_closeScope fun _ => .pure _
  funDef h hbody := by
    exact .bind (copies_openFunction hr _ (h.here.1 _ (.head _)) (h.part 1 rfl) _) fun _ => .bind hbody fun _ =>
      .bind copies_closeFunction fun _ => .pure _

/-- Checking trees under other names, on a table with the same other names, ends as checking the trees
does: well and with the same types, or with a fault. It leaves the same table behind, under the other
names. -/
theorem typecheck_rename (hr : Function.Injective r) {p : List Node}
    (hplaces : ∀ n ∈ p, n.Throughout Node.Placed) (hcalls : ∀ n ∈ p, n.Throughout Node.CallsName)
    (t : ScopeTable) :
    Renamed r ((typecheck .fourth p).run t) ((typecheck .fourth (p.map (Node.rename r))).run (t.rename r)) := by
  have h : Copies r (typecheck .fourth p) (typecheck .fourth (p.map (Node.rename r))) := by
    induction p with
    | nil => exact .pure _
    | cons n rest ih =>
      obtain ⟨hplace, hplaces⟩ := forall_mem_cons.1 hplaces
      obtain ⟨hcall, hcalls⟩ := forall_mem_cons.1 hcalls
      exact .bind ((copies_rules hr).holds true n (hplace.and hcall)) fun _ =>
        .bind (ih hplaces hcalls) fun _ => .pure _
  exact h t

/-- A function whose parameter has the name of a later variable, under exchanged names. -/
theorem typecheck_rename_swap :
    let r : String → String := Equiv.swap "x" "y"
    let int : Node := .type (.prim .int)
    let p : List Node :=
      [.funDef (.ident "f") (.params (some [.param int (.ident "x")]))
        (.block [.assign (.ident "y") int (.binary (.ident "x") "+" (.literal "int" (.int 1))), .ret (.ident "y")]) int,
      .assign (.ident "x") int (.call (.ident "f") (.args (some [.literal "int" (.int 3)]))),
      .whileDo (.binary (.ident "x") "<" (.literal "int" (.int 9)))
        (.block [.assign (.ident "x") .none (.call (.ident "f") (.args (some [.ident "x"])))])]
    ∃ types t', (typecheck .fourth p).run (fresh .fourth) = .ok types t' ∧
      (typecheck .fourth (p.map (Node.rename r))).run (fresh .fourth) = .ok types (t'.rename r) := by
  intro r int p
  obtain ⟨types, t', h⟩ : ∃ types t', (typecheck .fourth p).run (fresh .fourth) = .ok types t' := ⟨_, _, rfl⟩
  have hfresh : (fresh .fourth).rename r = fresh .fourth := rename_fresh (by decide)
  have hrenamed := typecheck_rename (Equiv.swap "x" "y").injective (p := p) (by decide)
    (by decide) (fresh .fourth)
  rw [h, hfresh] at hrenamed
  refine ⟨types, t', h, ?_⟩
  generalize (typecheck .fourth (p.map (Node.rename r))).run (fresh .fourth) = out at hrenamed
  cases hrenamed
  rfl

end Typing

end Tabc
