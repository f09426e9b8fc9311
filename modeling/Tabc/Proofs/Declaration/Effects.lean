import Tabc.Proofs.Declaration.Shape
import Tabc.Proofs.Rebuild.Consumption
import Tabc.Proofs.Rebuild.Instructions

/-!
# What single steps declare

The names in the innermost scope of the builder are followed through its steps. A step that computes adds
nothing but registers (`Drift`, `Computes`); a declaration adds one name that was not there (`Adds`).
-/

open List

namespace Tabc.Declaration

open ScopeTable
open Tabc.Core Target Target.Build

attribute [local simp] survey

def keys (σ : Scope) : List String := σ.map Prod.fst

theorem mem_keys_iff {x : String} : x ∈ keys σ ↔ σ.has x = true := by
  rw [Scope.has, Scope.find?]
  simp [keys]

theorem keys_adjust (x : String) (f : Entry → Entry) (σ : Scope) : keys (σ.adjust x f) = keys σ := by
  induction σ with
  | nil => rfl
  | cons p σ ih =>
    rw [Scope.adjust]
    split
    · rfl
    · simpa [keys] using ih

theorem keys_bind {x : String} (h : x ∉ keys σ) (entry : Entry) : keys (σ.bind x entry) = keys σ ++ [x] := by
  have hhas : σ.has x = false := by simpa [mem_keys_iff] using h
  simp [Scope.bind, hhas, keys]

def names (s : Build) : List String := keys s.table.top

/-- The names in the scopes around it. -/
def outer (s : Build) : List (List String) := s.table.scopes.tail.map keys

/-- What is left open are parts without flaws, and the empty collections are in registers. -/
structure Sound (s : Build) : Prop where
  parts : Plain s.parts
  empties : ∀ p ∈ s.empties, isRegister p.2 = true

/-- From one state to another the innermost scope gets nothing but registers, and the open chains and the
scopes around are the same. -/
structure Drift (s s' : Build) : Prop where
  sound : Sound s'
  ends : s'.ends.map Prod.fst = s.ends.map Prod.fst
  outer : outer s' = outer s
  kept : ∀ x ∈ names s, x ∈ names s'
  fresh : ∀ x ∈ names s', x ∈ names s ∨ isTemporary x = true

namespace Drift

variable {s s1 s' : Build}

theorem refl (hs : Sound s) : Drift s s := ⟨hs, rfl, rfl, fun _ => id, fun _ => .inl⟩

theorem trans (h : Drift s s1) (h' : Drift s1 s') : Drift s s' where
  sound := h'.sound
  ends := h'.ends.trans h.ends
  outer := h'.outer.trans h.outer
  kept x hx := h'.kept x (h.kept x hx)
  fresh x hx := (h'.fresh x hx).elim (h.fresh x) .inr

theorem of_table (hs' : Sound s') (htable : s'.table = s.table)
    (hends : s'.ends.map Prod.fst = s.ends.map Prod.fst) : Drift s s' := by
  refine ⟨hs', hends, by rw [Declaration.outer, htable]; rfl, ?_, ?_⟩
  · intro x hx
    rwa [names, htable]
  intro x hx
  rw [names, htable] at hx
  exact .inl hx

theorem of_eq (hs' : Sound s') (htable : s'.table = s.table) (hends : s'.ends = s.ends) :
    Drift s s' := of_table hs' htable (by rw [hends])

theorem surveys {taken : String → Prop} (h : Drift s s') : Surveys taken (pure []) (names s) (names s') :=
  .nothing h.kept fun x hx => (h.fresh x hx).imp_right .inl

end Drift

/-- From a sound state no code is taken and nothing but registers is declared. -/
def Drifting (s s' : Build) : Prop := Sound s → Drift s s' ∧ s'.queue = s.queue

instance : Std.Refl Drifting := ⟨fun _ hs => ⟨.refl hs, rfl⟩⟩

instance : IsTrans Build Drifting where
  trans _ _ _ h h' hs :=
    let ⟨hd, hq⟩ := h hs
    ⟨hd.trans (h' hd.sound).1, (h' hd.sound).2.trans hq⟩

abbrev Drifts {α : Type} (x : BuildM α) : Prop := Along Drifting x

theorem Drifts.modify (hf : ∀ s, Drifting s (f s)) : Drifts (modify f : BuildM Unit) := by
  rintro s _ _ ⟨⟩
  exact hf s

theorem Sound.of_eq (hs : Sound s) (hparts : s'.parts = s.parts)
    (hempties : s'.empties = s.empties) : Sound s' := ⟨hparts ▸ hs.parts, hempties ▸ hs.empties⟩

variable {α : Type} {s s1 s' : Build} {x : String}

theorem exists_of_run_onTable (h : (onTable act).run s = .ok a s') :
    ∃ t, act.run s.table = .ok a t ∧ s' = { s with table := t } := by
  have h2 := of_run_bind_ok h rfl
  cases hact : act.run s.table with
  | ok b t =>
    rw [hact] at h2
    cases h2
    exact ⟨t, rfl, rfl⟩
  | error e t =>
    rw [hact] at h2
    cases h2

theorem run_lookupVariable_table {t t' : ScopeTable} {h : Held}
    (hrun : (lookupVariable x).run t = .ok h t') : t' = t := by
  have h2 := of_run_bind_ok hrun rfl
  split at h2
  · cases h2
    rfl
  · cases h2
  · cases h2

theorem drifts_typeOf (o : Operand) : Drifts (typeOf o) := by
  cases o with
  | name y =>
    refine Along.bind ?_ fun h => ?_
    · intro s a s' h hs
      obtain ⟨t, ht, rfl⟩ := exists_of_run_onTable h
      rw [run_lookupVariable_table ht]
      exact ⟨.refl hs, rfl⟩
    · cases h with
      | target t => exact .pure t
      | _ => exact .throw _
  | _ => exact .throw _

theorem drifts_isNew (o : Operand) : Drifts (isNew o) := by
  cases o with
  | name y => exact Along.get.bind fun _ => .pure _
  | names l => exact .throw _
  | _ => exact .pure true

theorem drifts_elementType (o : Operand) : Drifts (elementType o) := by
  refine (drifts_typeOf o).bind fun t => ?_
  split
  · exact .pure _
  · exact .throw _

/-- One name that the scope did not have is declared. -/
structure Adds (x : String) (s s' : Build) : Prop where
  sound : Sound s'
  queue : s'.queue = s.queue
  ends : s'.ends = s.ends
  outer : outer s' = outer s
  new : x ∉ names s
  names : ∀ y, y ∈ names s' ↔ y = x ∨ y ∈ names s

theorem Adds.drift (h : Adds x s s') (hx : isTemporary x = true) : Drift s s' where
  sound := h.sound
  ends := by rw [h.ends]
  outer := h.outer
  kept y hy := (h.names y).2 (.inr hy)
  fresh y hy := by
    rcases (h.names y).1 hy with rfl | hy
    · exact .inr hx
    · exact .inl hy

theorem tail_setTop (t : ScopeTable) (σ : Scope) : (t.setTop σ).scopes.tail = t.scopes.tail := by
  rw [scopes_setTop]
  rfl

theorem scopes_setTop_bind {t : ScopeTable} (hx : x ∉ keys t.top) (entry : Entry) :
    keys (t.setTop (t.top.bind x entry)).top = keys t.top ++ [x] ∧
      (t.setTop (t.top.bind x entry)).scopes.tail = t.scopes.tail := ⟨by rw [top_setTop, keys_bind hx], tail_setTop ..⟩

theorem adds_declare {t : Ty} (hs : Sound s) (h : (declare (.name x) t).run s = .ok u s') : Adds x s s' := by
  obtain ⟨t', ht, rfl⟩ := exists_of_run_onTable h
  have h2 := of_run_bind_ok ht rfl
  split at h2
  · cases h2
  rename_i hnew
  rw [← mem_keys_iff] at hnew
  cases h2
  obtain ⟨hkeys, htail⟩ := scopes_setTop_bind hnew (.variable (.target t))
  refine ⟨hs.of_eq rfl rfl, rfl, rfl, ?_, hnew, fun y => ?_⟩
  · simp [outer, htail]
  · simp only [names, hkeys, mem_append, mem_singleton]
    exact or_comm

theorem drifts_declare (ho : isRegister o = true) (t : Ty) : Drifts (declare o t) := by
  cases o with
  | name y =>
    intro s a s' h hs
    have hadds := adds_declare hs h
    exact ⟨hadds.drift ho, hadds.queue⟩
  | _ => cases ho

theorem keys_headD_adjust (f : Entry → Entry) (σs : List Scope) :
    keys ((σs.map fun σ => σ.adjust x f).headD []) = keys (σs.headD []) := by
  cases σs <;> simp [keys_adjust]

theorem drifts_updateVariable (hx : isTemporary x = true) (h : Held) : Drifts (onTable (updateVariable x h)) := by
  intro s a s' hrun hs
  obtain ⟨t, ht, rfl⟩ := exists_of_run_onTable hrun
  cases ht
  refine ⟨?_, rfl⟩
  dsimp only
  split
  · refine ⟨hs.of_eq rfl rfl, rfl, ?_, ?_, ?_⟩
    · simp [outer, map_tail, Function.comp_def, keys_adjust]
    · intro y hy
      simpa only [names, top, keys_headD_adjust] using hy
    · intro y hy
      exact .inl (by simpa only [names, top, keys_headD_adjust] using hy)
  · rename_i hnew
    have hfree : x ∉ keys s.table.top := by
      intro hmem
      rw [mem_keys_iff] at hmem
      cases hscopes : s.table.scopes with
      | nil => simp [top, hscopes, Scope.has, Scope.find?] at hmem
      | cons σ rest =>
        simp only [top, hscopes, headD_cons] at hmem
        exact hnew (by simp [hscopes, hmem])
    obtain ⟨hkeys, htail⟩ := scopes_setTop_bind hfree (.variable h)
    refine ⟨hs.of_eq rfl rfl, rfl, by simp [outer, htail], ?_, ?_⟩
    · intro y hy
      simp only [names, hkeys]
      exact mem_append_left _ hy
    · intro y hy
      simp only [names, hkeys, mem_append, mem_singleton] at hy
      rcases hy with hy | rfl
      · exact .inl hy
      · exact .inr hx

def Neutral (made : Made) : Prop := made = .nothing ∨ ∃ items, made = .stmts items ∧ Plain items

/-- A step that declares nothing but registers, and makes nothing but what computes into them. -/
def Computes (x : BuildM Made) : Prop :=
  ∀ ⦃s made s'⦄, Sound s → x.run s = .ok made s' → (Drift s s' ∧ s'.queue = s.queue) ∧ Neutral made

namespace Computes

theorem throw (e : Fault) : Computes (throw e) := fun _ _ _ _ h => by cases h

theorem nothing : Computes (pure .nothing) := by
  rintro s _ _ hs ⟨⟩
  exact ⟨⟨.refl hs, rfl⟩, .inl rfl⟩

theorem stmts (h : Plain items) : Computes (pure (.stmts items)) := by
  rintro s _ _ hs ⟨⟩
  exact ⟨⟨.refl hs, rfl⟩, .inr ⟨items, rfl, h⟩⟩

theorem bind {x : BuildM α} (hx : Drifts x) (hf : ∀ a, Computes (f a)) : Computes (x >>= f) := by
  intro s made s' hs h
  obtain ⟨a, s1, h1, h2⟩ := of_run_bind h
  obtain ⟨hd1, hq1⟩ := hx h1 hs
  obtain ⟨⟨hd2, hq2⟩, hmade⟩ := hf a hd1.sound h2
  exact ⟨⟨hd1.trans hd2, hq2.trans hq1⟩, hmade⟩

theorem declared (hx : isTemporary x = true) {t : Ty} {f : Target.Node × Target.Node → BuildM Made}
    (hf : Computes (f (.ident x, .declaration (.ident x) (.type t)))) :
    Computes (declared .fourth (.name x) t >>= f) := by
  intro s made s' hs h
  obtain ⟨p, s1, h1, h2⟩ := of_run_bind h
  obtain ⟨_, s2, hdeclare, hp⟩ := of_run_bind h1
  cases hp
  obtain ⟨hd1, hq1⟩ := drifts_declare (o := .name x) hx t hdeclare hs
  obtain ⟨⟨hd2, hq2⟩, hmade⟩ := hf hd1.sound h2
  exact ⟨⟨hd1.trans hd2, hq2.trans hq1⟩, hmade⟩

end Computes

variable {n : Target.Node} {known : Option ScopeTable} {items : List Target.Node}

theorem drifts_openPart (hn : survey n = pure []) : Drifts (openPart n) := by
  rintro s _ _ ⟨⟩ hs
  refine ⟨.of_eq ⟨?_, hs.empties⟩ rfl rfl, rfl⟩
  intro m hm
  rcases mem_append.1 hm with hm | hm
  · exact hs.parts m hm
  · exact mem_singleton.1 hm ▸ hn

theorem drifts_setPart (k : Nat) (hn : survey n = pure []) : Drifts (setPart k n) := by
  rintro s _ _ ⟨⟩ hs
  refine ⟨.of_eq ⟨?_, hs.empties⟩ rfl rfl, rfl⟩
  intro m hm
  rcases mem_or_eq_of_mem_set hm with hm | rfl
  · exact hs.parts m hm
  · exact hn

theorem ident_bind {β : Type} (f : Target.Node → BuildM β) :
    (MonadExcept.ofExcept (ident .fourth (.name x)) >>= f) = f (.ident x) := rfl

theorem plain_computed {t : Target.Node} (hx : isTemporary x = true)
    (hn : survey n = Survey.assigns x) : Plain [.declaration (.ident x) t, n] := by
  simp [Plain, declaring, hn, Survey.declares_temporary hx, Survey.assigns_temporary hx]

section

variable {reg : Operand} (hreg : isRegister reg = true)

include hreg

theorem exists_register : ∃ x, reg = .name x ∧ isTemporary x = true := by
  cases reg with
  | name x => exact ⟨x, rfl, hreg⟩
  | _ => cases hreg

theorem computes_literal (value : Atom) : Computes (literal .fourth reg value) := by
  obtain ⟨x, rfl, hx⟩ := exists_register hreg
  exact .bind (.ofExcept _) fun t => .declared hx (.stmts (plain_computed hx rfl))

theorem computes_bound (value : Operand) : Computes (bound .fourth reg value) := by
  obtain ⟨x, rfl, hx⟩ := exists_register hreg
  exact .declared hx (.stmts (plain_computed hx rfl))

theorem computes_binary (a b : Operand) (op : String) : Computes (binary .fourth reg a b op) := by
  obtain ⟨x, rfl, hx⟩ := exists_register hreg
  rw [binary, ident_bind]
  refine .bind (.ofExcept _) fun a' => .bind (.ofExcept _) fun b' => .bind (drifts_isNew _) fun new =>
    of_ite ?_ (.bind (drifts_typeOf _) fun _ => .throw _)
  refine .bind ?_ fun t => .bind (drifts_declare hreg t) fun _ => .stmts (plain_computed hx rfl)
  exact of_ite (.pure _) ((drifts_typeOf a).bind fun _ => (drifts_typeOf b).bind fun _ => .pure _)

theorem computes_unary (op : String) (a : Operand) : Computes (unary .fourth reg op a) := by
  obtain ⟨x, rfl, hx⟩ := exists_register hreg
  rw [unary, ident_bind]
  have hdone (t : Ty) (a' : Target.Node) : Computes (do
      declare (.name x) t
      return Made.stmts [.declaration (.ident x) (.type t), .unary (.ident x) (.type t) op a']) :=
    .bind (drifts_declare hreg t) fun _ => .stmts (plain_computed hx rfl)
  refine .bind (.ofExcept _) fun a' => .bind (drifts_isNew _) fun new =>
    of_ite (of_ite (hdone _ a') (.bind (drifts_typeOf a) fun t => hdone t a')) ?_
  exact .bind (drifts_typeOf _) fun _ => .throw _

theorem computes_string (length : Int) : Computes (string .fourth reg length) := by
  obtain ⟨x, rfl, hx⟩ := exists_register hreg
  refine .bind (drifts_openPart (by simp)) fun n => .bind ?_ fun _ => .declared hx (.stmts (plain_computed hx rfl))
  exact .modify fun _ hs => ⟨.of_eq (hs.of_eq rfl rfl) rfl rfl, rfl⟩

theorem computes_index (obj idx : Operand) : Computes (index .fourth reg obj idx) := by
  refine .bind (.ofExcept _) fun r => .bind (.ofExcept _) fun o => .bind (.ofExcept _) fun i =>
    .bind (drifts_elementType obj) fun t => ?_
  exact .bind (drifts_declare hreg t) fun _ => .stmts (by simp [Plain])

theorem computes_slice (obj start stop : Operand) : Computes (slice .fourth reg obj start stop) :=
  .bind (.ofExcept _) fun _ => .bind (.ofExcept _) fun _ => .bind (.ofExcept _) fun _ =>
    .bind (.ofExcept _) fun _ => .bind (drifts_typeOf obj) fun t =>
    .bind (drifts_declare hreg t) fun _ => .stmts (by simp [Plain])

end

theorem computes_char (value : String) : Computes (char value) := by
  refine .bind .get fun s => ?_
  split
  · exact .throw _
  rename_i n length count _
  have hrest : Computes (do
      modify fun s => { s with
        text := if count + 1 = length then none else some (n, length, count + 1) }
      return .nothing) := .bind (.modify fun _ hs => ⟨.of_eq (hs.of_eq rfl rfl) rfl rfl, rfl⟩) fun _ => .nothing
  dsimp only
  split
  · exact .bind (drifts_setPart n (by simp)) fun _ => hrest
  · exact hrest

theorem computes_openCall (call : Operand) (length : Int) : Computes (openCall call length) := by
  refine .bind (drifts_openPart (by simp)) fun n => .bind ?_ fun _ => .nothing
  exact .modify fun _ hs => ⟨.of_eq (hs.of_eq rfl rfl) rfl rfl, rfl⟩

theorem computes_argument (value : Operand) : Computes (argument value) := by
  refine .bind .get fun s => ?_
  split
  · exact .throw _
  split
  · exact .throw _
  · refine .bind (drifts_setPart _ (by simp)) fun _ => of_ite (.bind ?_ fun _ => .nothing) .nothing
    exact .modify fun _ hs => ⟨.of_eq (hs.of_eq rfl rfl) rfl rfl, rfl⟩

theorem computes_checkLength (coll : Operand) : Computes (checkLength .fourth coll) := by
  refine .bind .get fun s => ?_
  split
  · exact .throw _
  · exact of_ite (.throw _) .nothing

theorem computes_core (hi : computes i = true) (fuel : Nat) : Computes (buildCore .fourth known (fuel + 1) i) := by
  have hmodify {f : Build → Build} {x : BuildM Made} (hx : Computes x) (hf : Drifts (modify f : BuildM Unit)) :
      Computes (x >>= fun made => modify f >>= fun _ => pure made) := by
    intro s made s' hs h
    obtain ⟨made1, s1, h1, h2⟩ := of_run_bind h
    obtain ⟨⟨hd1, hq1⟩, hmade⟩ := hx hs h1
    obtain ⟨_, s2, h3, h4⟩ := of_run_bind h2
    obtain ⟨hd2, hq2⟩ := hf h3 hd1.sound
    cases h4
    exact ⟨⟨hd1.trans hd2, hq2.trans hq1⟩, hmade⟩
  cases i with
  | literal reg value => exact computes_literal hi value
  | binary reg a b op => exact computes_binary hi a b op
  | unary reg op a => exact computes_unary hi op a
  | loopStart reg value | loopStop reg value | loopStep reg value =>
    exact hmodify (computes_bound hi value) (.modify fun _ hs => ⟨.of_eq (hs.of_eq rfl rfl) rfl rfl, rfl⟩)
  | string reg length => exact computes_string hi length
  | index reg obj idx => exact computes_index hi obj idx
  | slice reg obj start stop => exact computes_slice hi obj start stop
  | char reg value => exact computes_char value
  | args reg call length => exact computes_openCall call length
  | arg value => exact computes_argument value
  | length reg coll => exact computes_checkLength coll
  | _ => cases hi

theorem drifts_settleEmpties (t : Ty) : (l : List (Nat × Operand)) →
    (∀ p ∈ l, isRegister p.2 = true) → Drifts (settleEmpties t l)
  | [], _ => .modify fun s hs => ⟨.of_eq ⟨hs.parts, nofun⟩ rfl rfl, rfl⟩
  | (n, head) :: rest, h => by
    obtain ⟨hhead, hrest⟩ := forall_mem_cons.1 h
    refine Along.bind (drifts_setPart n (by simp)) fun _ => ?_
    cases head with
    | name y => exact (drifts_updateVariable hhead _).bind fun _ => drifts_settleEmpties t rest hrest
    | _ => cases hhead

/-- From one state to another these statements were made: a survey of them keeps up with the innermost
scope, and the scopes around it are the same. -/
structure Step (taken : String → Prop) (items : List Target.Node) (s s' : Build) : Prop where
  sound : Sound s'
  outer : outer s' = outer s
  surveys : Surveys taken (surveyAll items) (names s) (names s')

variable {taken : String → Prop}

theorem Drift.step (h : Drift s s') (hitems : Plain items) :
    Step taken items s s' := ⟨h.sound, h.outer, hitems.surveyAll_eq ▸ h.surveys⟩

theorem Step.refl (hs : Sound s) : Step taken [] s s := (Drift.refl hs).step .nil

theorem Step.trans (h : Step taken a s s1) (h' : Step taken b s1 s') : Step taken (a ++ b) s s' :=
  ⟨h'.sound, h'.outer.trans h.outer, surveyAll_append a b ▸ h.surveys.both h'.surveys⟩

theorem Step.congr {t t' : Build} (h : Step taken items s s') (htable : t.table = s.table)
    (ht' : Sound t') (htable' : t'.table = s'.table) : Step taken items t t' := by
  refine ⟨ht', ?_, ?_⟩
  · rw [Declaration.outer, Declaration.outer, htable, htable']
    exact h.outer
  · rw [names, names, htable, htable']
    exact h.surveys

theorem run_of_tryCatch_some {x : BuildM α} (h : (tryCatch (some <$> x) fun _ => pure none).run s = .ok (some a) s') :
    x.run s = .ok a s' := by
  simp only [EStateM.run, tryCatch, tryCatchThe, MonadExceptOf.tryCatch, EStateM.tryCatch] at h ⊢
  cases hx : x s with
  | ok b s1 =>
    have hmap : (some <$> x) s = .ok (some b) s1 := by
      have := EStateM.run_map some x s
      simp only [EStateM.run, hx] at this
      exact this
    rw [hmap] at h
    cases h
    rfl
  | error e s1 =>
    have hmap : (some <$> x) s = .error e s1 := by
      have := EStateM.run_map some x s
      simp only [EStateM.run, hx] at this
      exact this
    rw [hmap] at h
    cases h

/-- What an assignment does: its variable is declared if the scope does not have it. -/
structure Assigns (taken : String → Prop) (items : List Target.Node) (s s' : Build) : Prop where
  step : Step taken items s s'
  queue : s'.queue = s.queue
  ends : s'.ends.map Prod.fst = s.ends.map Prod.fst

theorem exists_of_run_assign (hs : Sound s) (h : (Target.Build.assign .fourth known name value).run s = .ok made s') :
    ∃ items, made = .stmts items ∧ Assigns taken items s s' := by
  cases name with
  | name x =>
    rw [Target.Build.assign, ident_bind] at h
    have h2 := of_run_bind_ok h rfl
    split at h2
    · obtain ⟨found, s1, hcatch, h3⟩ := of_run_bind h2
      split at h3
      · cases h3
      rename_i own
      have hfound := drifts_typeOf value (run_of_tryCatch_some hcatch) hs
      -- What is done to the type and the empty collections declares registers only.
      have hdeclare {t : Ty} {s2 : Build} (hd : Drift s s2 ∧ s2.queue = s.queue) (hrun : (do
            declare (.name x) t
            return Made.stmts [.declaration (.ident x) (.type t), .assign (.ident x) (.ofOperand value)]
            : BuildM Made).run s2 = .ok made s') :
          ∃ items, made = .stmts items ∧ Assigns taken items s s' := by
        obtain ⟨_, s3, h1, h2⟩ := of_run_bind hrun
        cases h2
        have hadds := adds_declare hd.1.sound h1
        have hx : x ∈ names s' := (hadds.names x).2 (.inl rfl)
        refine ⟨_, rfl, ⟨hadds.sound, hadds.outer.trans hd.1.outer, ?_⟩, hadds.queue.trans hd.2,
          by rw [hadds.ends, hd.1.ends]⟩
        exact hd.1.surveys.both ((Surveys.declares hadds.new hadds.names).both ((Surveys.assigns hx).both (.refl _)))
      have hsettle {t : Ty} (hrun : (do
            setLength (.name x) ((← get).lengthOf value)
            settleEmpties t (← get).empties
            declare (.name x) t
            return Made.stmts [.declaration (.ident x) (.type t), .assign (.ident x) (.ofOperand value)]
            : BuildM Made).run s1 = .ok made s') :
          ∃ items, made = .stmts items ∧ Assigns taken items s s' := by
        have hrun := of_run_bind_ok hrun rfl
        have hrun := of_run_bind_ok hrun rfl
        have hrun := of_run_bind_ok hrun rfl
        obtain ⟨_, s3, h1, hrun⟩ := of_run_bind hrun
        have hs2 : Drift s1 { s1 with lengths := put (.name x) (s1.lengthOf value) s1.lengths } :=
          .of_eq (hfound.1.sound.of_eq rfl rfl) rfl rfl
        obtain ⟨hd3, hq3⟩ := drifts_settleEmpties t _ hs2.sound.empties h1 hs2.sound
        exact hdeclare ⟨hfound.1.trans (hs2.trans hd3), hq3.trans hfound.2⟩ hrun
      cases own with
      | prim p => exact hdeclare hfound h3
      | coll kind t => exact hsettle h3
      | bare kind => exact hsettle h3
    · rename_i hold
      cases h2
      have hx : x ∈ names s := by
        rw [names, mem_keys_iff]
        simpa using hold
      exact ⟨_, rfl, ⟨hs, rfl, (Surveys.assigns hx).both (.refl _)⟩, rfl, rfl⟩
  | _ => cases h

end Tabc.Declaration
