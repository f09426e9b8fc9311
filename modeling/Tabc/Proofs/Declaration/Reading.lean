import Tabc.Proofs.Declaration.Progress

/-!
# Reading whole programs back

The statements of a program keep up with the names in the scope (`reads`), so the survey of its tree lists
nothing but targets whose names are taken by functions (`excused_of_run`).
-/

open List

namespace Tabc.Declaration

open Tabc.Core Target Target.Build

variable {taken : String → Prop} {known : Option ScopeTable} {s s1 s' : Build} {fuel : Nat}

section Loops

variable {made : Made} {f : String} {c : Operand} {q : List Instr}
  {bounds : Operand × Operand × Operand} {head : List Target.Node} {var : Target.Node} {x : Operand}

theorem assigns_eachIndex {head head' : EachHead} (hs : Sound s)
    (hdecl : head.decl = none) (h : (eachIndex .fourth head x coll idx).run s = .ok head' s') :
    Assigns taken head'.decl.toList s s' := by
  have h1 := of_run_bind_ok h rfl
  obtain ⟨t, s1, ht, h2⟩ := of_run_bind h1
  obtain ⟨hd1, hq1⟩ := drifts_typeOf coll ht hs
  have hnone {s2 : Build} (hd : Drift s s2) (hq : s2.queue = s.queue) : Assigns taken head.decl.toList s s2 := by
    rw [hdecl]
    exact ⟨hd.step .nil, hq, hd.ends⟩
  split at h2
  · obtain ⟨new, s2, hnew, h3⟩ := of_run_bind h2
    obtain ⟨hd2, hq2⟩ := drifts_isNew x hnew hd1.sound
    split at h3
    · obtain ⟨_, s3, hdeclare, h4⟩ := of_run_bind h3
      cases x with
      | name y =>
        cases h4
        have hadds := adds_declare hd2.sound hdeclare
        refine ⟨⟨hadds.sound, hadds.outer.trans (hd2.outer.trans hd1.outer), ?_⟩,
          hadds.queue.trans (hq2.trans hq1), by rw [hadds.ends, hd2.ends, hd1.ends]⟩
        exact (hd1.trans hd2).surveys.both ((Surveys.declares hadds.new hadds.names).both (.refl _))
      | _ => cases h4
    · cases h3
      exact hnone (hd1.trans hd2) (hq2.trans hq1)
  · cases h2
    exact hnone hd1 hq1

theorem exists_of_eachNode {head : EachHead} (h : eachNode .fourth head = .ok (front, loop)) :
    ∃ var place length coll, front = head.decl.toList ∧
      loop = fun body => .forEach var place length coll (.block body) := by
  obtain ⟨var, place, coll, length, decl⟩ := head
  cases var with
  | name x =>
    cases place with
    | name y =>
      cases coll with
      | name z =>
        cases h
        exact ⟨_, _, _, _, rfl, rfl⟩
      | _ => cases h
    | _ => cases h
  | _ => cases h

variable (ih : ∀ n < fuel, Reads taken known n)

include ih

theorem progress_rangeBody (hr : Ready taken s.queue) (hs : Sound s)
    (h : (rangeHead .fourth known fuel bounds head var (.branch (.name f) c)).run s = .ok made s') :
    ∃ new, made = .stmts (head ++ new) ∧ Progress taken new s s' := by
  obtain _ | fuel := fuel
  · cases h
  obtain ⟨items, s1, hbody, h1⟩ := of_run_bind h
  cases h1
  obtain ⟨⟨_, rfl, hnew⟩, -⟩ := (ih fuel (by omega)).body hr hs hbody
  refine ⟨_, rfl, hnew.congr ?_⟩
  rw [surveyAll_singleton, survey, survey]

theorem progress_rangeTest (hreg : isRegister r = true) (hr : Ready taken q) (hq : s.queue = .branch (.name f) c :: q)
    (hs : Sound s)
    (h : (rangeHead .fourth known fuel bounds head var (.binary r a b op)).run s = .ok made s') :
    ∃ new, made = .stmts (head ++ new) ∧ Progress taken new s s' := by
  obtain _ | fuel := fuel
  · cases h
  simp only [rangeHead, Bool.false_eq_true, ↓reduceIte] at h
  obtain ⟨made1, s1, hmade, h1⟩ := of_run_bind h
  have he := (evaluates fuel).piece (.single (i := .binary r a b op) hreg) (nil_append _).symm hs hmade
  have hrest (extra : List Target.Node) (hextra : Plain extra)
      (h2 : (do rangeHead .fourth known fuel bounds (head ++ extra) var (← pop)).run s1 = .ok made s') :
      ∃ new, made = .stmts (head ++ new) ∧ Progress taken new s s' := by
    obtain ⟨s2, -, hd, rfl, h3⟩ := of_run_pop he.drift.sound (he.queue.trans hq) h2
    obtain ⟨new, rfl, hnew⟩ := progress_rangeBody (fun n hn => ih n (by omega)) hr hd.sound h3
    refine ⟨extra ++ new, by simp, (hnew.after (he.drift.trans hd) ?_).congr ?_⟩
    · exact hq ▸ suffix_cons _ _
    · rw [surveyAll_append, hextra.surveyAll_eq, Survey.nothing_both]
  split at h1
  · exact hrest [] .nil (by rwa [List.append_nil])
  obtain ⟨head', hadd, h2⟩ := of_run_ofExcept h1
  rcases he.neutral with rfl | ⟨items, rfl, hitems⟩
  · cases hadd
  · cases hadd
    exact hrest items hitems h2

theorem progress_range {start r a b : Operand} {op : String} (hreg : isRegister r = true) (hr : Ready taken q)
    (hq : s.queue = .binary r a b op :: .branch (.name f) c :: q) (hs : Sound s)
    (h : (rangeHead .fourth known fuel bounds [] .none (.assign x start)).run s = .ok made s') :
    ∃ items, made = .stmts items ∧ Progress taken items s s' := by
  obtain _ | fuel := fuel
  · cases h
  simp only [rangeHead, Bool.false_eq_true, ↓reduceIte] at h
  obtain ⟨made1, s1, hmade, h1⟩ := of_run_bind h
  obtain ⟨n, rfl, hcore⟩ := exists_of_run_buildInstr hmade
  obtain ⟨items, rfl, hitems⟩ := exists_of_run_assign hs hcore
  have hrest (var : Target.Node)
      (h2 : (do rangeHead .fourth known (n + 2) bounds items var (← pop)).run s1 = .ok made s') :
      ∃ items, made = .stmts items ∧ Progress taken items s s' := by
    obtain ⟨s2, -, hd, hq3, h3⟩ := of_run_pop hitems.step.sound (hitems.queue.trans hq) h2
    obtain ⟨new, rfl, hnew⟩ := progress_rangeTest (fun n hn => ih n (by omega)) hreg hr hq3 hd.sound h3
    refine ⟨_, rfl, hitems.step.trans ((hd.step .nil).trans hnew.step), hnew.ready,
      hnew.ends.trans (hd.ends.trans hitems.ends), ?_⟩
    exact hnew.suffix.trans (hq3.symm ▸ hq ▸ suffix_cons _ _)
  split at h1
  · exact hrest _ h1
  · exact hrest _ h1

theorem progress_eachBody {head : EachHead} (hr : Ready taken s.queue) (hs : Sound s)
    (h : (eachHead .fourth known fuel head [] (.branch (.name f) c)).run s = .ok made s') :
    ∃ new, made = .stmts (head.decl.toList ++ new) ∧ Progress taken new s s' := by
  obtain _ | fuel := fuel
  · cases h
  obtain ⟨⟨front, loop⟩, hnode, h1⟩ := of_run_ofExcept h
  obtain ⟨var, place, length, coll, rfl, rfl⟩ := exists_of_eachNode hnode
  obtain ⟨items, s2, hbody, h2⟩ := of_run_bind h1
  cases h2
  obtain ⟨⟨_, rfl, hnew⟩, -⟩ := (ih fuel (by omega)).body hr hs hbody
  refine ⟨_, rfl, hnew.congr ?_⟩
  rw [surveyAll_singleton, survey, survey]

theorem progress_each {v coll idx : Operand} {head : EachHead} (hdecl : head.decl = none) (hr : Ready taken q)
    (hq : s.queue = .index x coll idx :: .branch (.name f) c :: q) (hs : Sound s)
    (h : (eachHead .fourth known fuel head [] (.loopVar v)).run s = .ok made s') :
    ∃ items, made = .stmts items ∧ Progress taken items s s' := by
  obtain _ | fuel := fuel
  · cases h
  obtain ⟨s1, -, hd1, hq1, h1⟩ := of_run_pop hs hq h
  obtain _ | fuel := fuel
  · cases h1
  obtain ⟨head', s2, hindex, h2⟩ := of_run_bind h1
  have hitems : Assigns taken head'.decl.toList s1 s2 := assigns_eachIndex hd1.sound hdecl hindex
  obtain ⟨s3, -, hd3, rfl, h3⟩ := of_run_pop hitems.step.sound (hitems.queue.trans hq1) h2
  obtain ⟨new, rfl, hnew⟩ := progress_eachBody (fun n hn => ih n (by omega)) hr hd3.sound h3
  refine ⟨_, rfl, (hd1.step .nil).trans (hitems.step.trans ((hd3.step .nil).trans hnew.step)),
    hnew.ready, hnew.ends.trans (hd3.ends.trans (hitems.ends.trans hd1.ends)), hnew.suffix.trans ?_⟩
  rw [hq]
  exact (suffix_cons _ _).trans (suffix_cons _ _)

end Loops

/-- These names are declared, and no others but registers. -/
structure Declares (xs : List String) (s s' : Build) : Prop where
  sound : Sound s'
  queue : s'.queue = s.queue
  ends : s'.ends = s.ends
  outer : outer s' = outer s
  kept : ∀ x ∈ names s, x ∈ names s'
  added : ∀ x ∈ xs, x ∈ names s'
  fresh : ∀ x ∈ names s', x ∈ names s ∨ isTemporary x = true ∨ x ∈ xs

variable {x name : String} {xs : List String} {made : Made} {params : List (Made × Operand)}
  {q : List Instr} {i : Instr} {items : List Target.Node}

theorem Adds.declares (h : Adds x s s') : Declares [x] s s' where
  sound := h.sound
  queue := h.queue
  ends := h.ends
  outer := h.outer
  kept y hy := (h.names y).2 (.inr hy)
  added y hy := (h.names y).2 (.inl (mem_singleton.1 hy))
  fresh y hy := by
    rcases (h.names y).1 hy with rfl | hy
    · exact .inr (.inr (mem_singleton.2 rfl))
    · exact .inl hy

theorem Declares.trans {ys : List String} (h : Declares xs s s1) (h' : Declares ys s1 s') :
    Declares (xs ++ ys) s s' where
  sound := h'.sound
  queue := h'.queue.trans h.queue
  ends := h'.ends.trans h.ends
  outer := h'.outer.trans h.outer
  kept x hx := h'.kept x (h.kept x hx)
  added x hx := (mem_append.1 hx).elim (fun hx => h'.kept x (h.added x hx)) (h'.added x)
  fresh x hx := by
    have := h.fresh x
    have := h'.fresh x hx
    grind

theorem Declares.after_register (h : Declares xs s1 s') (hx : Adds x s s1)
    (htemp : isTemporary x = true) : Declares xs s s' where
  sound := h.sound
  queue := h.queue.trans hx.queue
  ends := h.ends.trans hx.ends
  outer := h.outer.trans hx.outer
  kept y hy := h.kept y ((hx.names y).2 (.inr hy))
  added := h.added
  fresh y hy := by
    rcases h.fresh y hy with hy | hy
    · rcases (hx.names y).1 hy with rfl | hy
      · exact .inr (.inl htemp)
      · exact .inl hy
    · exact .inr hy

theorem exists_declares_of_declareParams :
    (l : List (ParamName × Operand × Ty)) → (∀ p ∈ l, isRegister p.2.1 = true) →
    ∀ {done s s'}, Sound s → (declareParams .fourth done l).run s = .ok u s' →
    ∃ xs, l.map Prod.fst = xs.map ParamName.ident ∧ Declares xs s s'
  | [], _, done, s, s', hs, h => by
    cases h
    exact ⟨[], rfl, hs, rfl, rfl, rfl, fun _ => id, nofun, fun _ => .inl⟩
  | (name, reg, t) :: rest, hl, done, s, s', hs, h => by
    obtain ⟨hreg, hrest⟩ := forall_mem_cons.1 hl
    obtain ⟨y, rfl, hy⟩ := exists_register hreg
    cases name with
    | ident x =>
      obtain ⟨_, s1, h1, h2⟩ := of_run_bind h
      obtain ⟨_, s2, h3, h4⟩ := of_run_bind h2
      have hx := adds_declare hs h1
      have hreg := adds_declare hx.sound h3
      obtain ⟨xs, hxs, hd⟩ := exists_declares_of_declareParams rest hrest hreg.sound h4
      exact ⟨x :: xs, by rw [map_cons, map_cons, hxs], hx.declares.trans (hd.after_register hreg hy)⟩
    | text _ => cases h

theorem declares_emitFunction (hs : Sound s)
    (h : (onTable (ScopeTable.emitFunction name types result)).run s = .ok emitted s') :
    Declares [name] s s' := by
  obtain ⟨t, ht, rfl⟩ := exists_of_run_onTable h
  obtain ⟨fresh, t1, hfresh, h1⟩ := of_run_bind ht
  have hfresh := of_run_bind_ok hfresh rfl
  split at hfresh
  · cases hfresh
  rename_i n rest _
  cases hfresh
  have h2 := of_run_bind_ok h1 rfl
  have hdeclares {t : ScopeTable} (htail : t.scopes.tail = s.table.scopes.tail)
      (hkept : ∀ x ∈ keys s.table.top, x ∈ keys t.top) (hname : name ∈ keys t.top)
      (hfresh : ∀ x ∈ keys t.top, x ∈ keys s.table.top ∨ x = name) :
      Declares [name] s { s with table := t } :=
    ⟨hs.of_eq rfl rfl, rfl, rfl, by simp only [outer, htail], hkept, fun x hx => mem_singleton.1 hx ▸ hname,
      fun x hx => (hfresh x hx).imp_right fun hx => .inr (mem_singleton.2 hx)⟩
  split at h2
  · rename_i os hfind
    cases h2
    have hmem : name ∈ keys s.table.top := by
      rw [mem_keys_iff]
      exact Option.isSome_iff_exists.2 ⟨_, hfind⟩
    refine hdeclares (tail_setTop ..) ?_ ?_ ?_
    all_goals rw [ScopeTable.addOverload, top_setTop, keys_adjust]
    · exact fun x hx => hx
    · exact hmem
    · exact fun x hx => .inl hx
  · cases h2
  rename_i hfind
  cases h2
  have hmem : name ∉ keys (ScopeTable.top { s.table with numbers := rest }) := by
    rw [mem_keys_iff, Scope.has, hfind]
    simp
  refine hdeclares (tail_setTop ..) ?_ ?_ ?_
  all_goals rw [top_setTop, keys_bind hmem]
  · exact fun x hx => mem_append_left _ hx
  · exact mem_append_right _ (mem_singleton.2 rfl)
  · exact fun x hx => (mem_append.1 hx).imp_right mem_singleton.1

theorem eq_of_paramName (h : paramName .fourth made = .ident x) : made = .operand (.tree (.ident x)) := by
  unfold paramName at h
  split at h
  · cases h
    rfl
  · cases h
  · cases h

theorem paramNames_eq
    (h : ((((params.map fun p => paramName .fourth p.1).zip (params.map (·.2))).zip types).map fun ((n, r), t) => (n, r, t)).map Prod.fst = xs.map ParamName.ident) :
    paramNames (.params ((params.zip types).map fun ((m, _), t) => Target.Node.param (.type t) (paramVar m))) = xs := by
  induction params generalizing types xs with
  | nil => simpa [paramNames] using h
  | cons p params ih =>
    obtain ⟨made, reg⟩ := p
    cases types with
    | nil => simpa [paramNames] using h
    | cons t types =>
      cases xs with
      | nil => simp at h
      | cons x xs =>
        simp only [map_cons, zip_cons_cons, List.cons.injEq] at h
        obtain rfl := eq_of_paramName h.1
        have := ih h.2
        exact congrArg (x :: ·) this

theorem exists_of_run_paramList (hps : ∀ p ∈ ps, isParam p = true) (hq : s.queue = ps ++ q)
    (h : (paramList .fourth fuel ps.length acc).run s = .ok params s') :
    ∃ extra, params = acc ++ extra ∧ (∀ p ∈ extra, isRegister p.2 = true) ∧ s' = { s with queue := q } := by
  induction ps generalizing fuel acc s with
  | nil =>
    obtain _ | fuel := fuel
    · cases h
    cases h
    exact ⟨[], (List.append_nil _).symm, nofun, by rw [← nil_append q, ← hq]⟩
  | cons p ps ih =>
    obtain ⟨hp, hrest⟩ := forall_mem_cons.1 hps
    obtain _ | fuel := fuel
    · cases h
    rw [paramList, if_neg (by simp only [length_cons]; omega), run_bind_of_ok (run_pop hq)] at h
    obtain ⟨made, s1, hmade, h1⟩ := of_run_bind h
    obtain ⟨n, rfl, hcore⟩ := exists_of_run_buildInstr hmade
    cases p with
    | param reg name =>
      cases hcore
      simp only [Instr.register?, length_cons, Nat.cast_succ, add_sub_cancel_right] at h1
      obtain ⟨extra, rfl, hextra, rfl⟩ := ih hrest rfl h1
      exact ⟨(.operand name, reg) :: extra, by rw [List.append_assoc]; rfl, forall_mem_cons.2 ⟨hp, hextra⟩, rfl⟩
    | _ => cases hp

theorem exists_of_run_openFunction (hs : Sound s) (hparams : ∀ p ∈ params, isRegister p.2 = true)
    (h : (openFunction .fourth known name params).run s = .ok make s') :
    ∃ s1 emitted nodes result, Declares [name] s s1 ∧
      Declares (paramNames nodes) { s1 with table := { s1.table with scopes := [] :: s1.table.scopes } } s' ∧
      make = fun body => .function emitted nodes (.block body) result := by
  obtain ⟨⟨types, result⟩, -, h1⟩ := of_run_ofExcept h
  obtain ⟨converted, -, h2⟩ := of_run_ofExcept h1
  obtain ⟨resultType, -, h3⟩ := of_run_ofExcept h2
  obtain ⟨emitted, s1, hemit, h4⟩ := of_run_bind h3
  have hname := declares_emitFunction hs hemit
  obtain ⟨_, s2, hopen, h5⟩ := of_run_bind h4
  obtain ⟨t, ht, rfl⟩ := exists_of_run_onTable hopen
  cases ht
  obtain ⟨_, s3, hdeclare, h6⟩ := of_run_bind h5
  cases h6
  have hopened : Sound { s1 with table := { s1.table with scopes := [] :: s1.table.scopes } } :=
    hname.sound.of_eq rfl rfl
  have hregs (p : ParamName × Operand × Ty) (hp : p ∈ (((params.map fun p => paramName .fourth p.1).zip
      (params.map (·.2))).zip converted).map fun ((n, r), t) => (n, r, t)) : isRegister p.2.1 = true := by
    obtain ⟨⟨⟨n, r⟩, t⟩, hmem, rfl⟩ := mem_map.1 hp
    obtain ⟨⟨made, _⟩, hmade, rfl⟩ := mem_map.1 (of_mem_zip (of_mem_zip hmem).1).2
    exact hparams _ hmade
  obtain ⟨xs, hxs, hdeclares⟩ := exists_declares_of_declareParams _ hregs hopened hdeclare
  rw [← paramNames_eq hxs] at hdeclares
  exact ⟨s1, _, _, _, hname, hdeclares, rfl⟩

/-- At the end of a function the scope around it is the innermost one again. -/
theorem names_closeScope (hs : Sound s)
    (houter : outer s = outer { s3 with table := { s3.table with scopes := [] :: s3.table.scopes } })
    (h : (onTable ScopeTable.closeScope).run s = .ok u s') :
    names s' = names s3 ∧ outer s' = outer s3 ∧ Sound s' ∧ s'.queue = s.queue ∧ s'.ends = s.ends := by
  obtain ⟨t, ht, rfl⟩ := exists_of_run_onTable h
  have ht := of_run_bind_ok ht rfl
  split at ht
  · rename_i top σ rest hscopes
    cases ht
    cases hs3 : s3.table.scopes with
    | nil => simp [outer, hscopes, hs3] at houter
    | cons σ3 rest3 =>
      simp only [outer, hscopes, hs3, tail_cons, map_cons, List.cons.injEq] at houter
      refine ⟨?_, ?_, hs.of_eq rfl rfl, rfl, rfl⟩
      · simpa [names, ScopeTable.top, hs3] using houter.1
      · simpa [outer, hs3] using houter.2
  · cases ht

theorem progress_function {r : Operand} {ps : List Instr} (ih : ∀ n < fuel, Reads taken known n)
    (hname : taken name) (hps : ∀ p ∈ ps, isParam p = true) (hr : Ready taken q)
    (hq : s.queue = ps ++ q) (hs : Sound s)
    (h : (functionHead .fourth known fuel name (.params r ps.length)).run s = .ok made s') :
    ∃ items, made = .stmts items ∧ Progress taken items s s' := by
  obtain _ | fuel := fuel
  · cases h
  obtain ⟨params, s1, hparams, h1⟩ := of_run_bind h
  obtain ⟨_, rfl, hregs, rfl⟩ := exists_of_run_paramList hps hq hparams
  obtain ⟨make, s2, hopen, h2⟩ := of_run_bind h1
  have hs1 : Sound { s with queue := q } := hs.of_eq rfl rfl
  obtain ⟨s3, emitted, nodes, result, hemit, hdeclare, rfl⟩ := exists_of_run_openFunction hs1 hregs hopen
  obtain ⟨items, s4, hbody, h3⟩ := of_run_bind h2
  have hqueue : s2.queue = q := hdeclare.queue.trans hemit.queue
  obtain ⟨_, rfl, hnew⟩ := (ih fuel (by omega)).functionBody (hqueue ▸ hr) hdeclare.sound hbody
  obtain ⟨_, s5, hclose, h4⟩ := of_run_bind h3
  cases h4
  obtain ⟨hnames, houter, hsound, hqueue', hends⟩ := names_closeScope hnew.step.sound
    (hnew.step.outer.trans hdeclare.outer) hclose
  have hagrees : Agrees taken (paramNames nodes) (names s2) := by
    refine ⟨fun x hx => ?_, hdeclare.added⟩
    rcases hdeclare.fresh x hx with hx | hx | hx
    · cases hx
    · exact .inl hx
    · exact .inr (.inr hx)
  refine ⟨_, rfl, ⟨hsound, houter.trans hemit.outer, ?_⟩, hqueue' ▸ hnew.ready, ?_, ?_⟩
  · rw [surveyAll_singleton, hnames]
    refine (Surveys.nothing hemit.kept fun x hx => ?_).both (hnew.step.surveys.inside hagrees)
    refine (hemit.fresh x hx).imp_right (.imp_right fun hx => ?_)
    rw [mem_singleton.1 hx]
    exact hname
  · rw [hends, hnew.ends, hdeclare.ends, hemit.ends]
  · rw [hqueue']
    exact hnew.suffix.trans (hqueue ▸ hq ▸ suffix_append _ _)

theorem Progress.built (h : Progress taken items s s') : Built taken i (.stmts items) s s' := ⟨h, nofun⟩

theorem built_single (hi : stands i = true) (hr : Ready taken s.queue) (hs : Sound s)
    (h : (buildCore .fourth known (fuel + 1) i).run s = .ok made s') : Built taken i made s s' := by
  cases i with
  | assign name value =>
    obtain ⟨items, rfl, hitems⟩ := exists_of_run_assign hs h
    refine Progress.built ⟨hitems.step, hitems.queue ▸ hr, hitems.ends, ?_⟩
    rw [hitems.queue]
  | append obj value idx =>
    exact ((computes_append obj value idx).evaluated hs h).built hr suffix_rfl
  | ret value =>
    exact ((computes_ret value).evaluated hs h).built hr suffix_rfl
  | goto label =>
    exact ((computes_goto label).evaluated hs h).built hr suffix_rfl
  | label o =>
    cases o with
    | name x =>
      have hx : labelKind x = .plain := by simpa [stands] using hi
      rw [buildCore_label, hx] at h
      cases h
      exact ⟨⟨.refl hs, hr, rfl, suffix_rfl⟩, fun o ho => by cases ho; exact .inr ⟨rfl, rfl⟩⟩
    | _ => cases hi
  | _ => cases hi

/-- A function whose name looks like the word of a loop fails at its parameters. -/
theorem labelKind_of_params {l : String} {r : Operand} {n : Int} (hl : labelKind l ≠ .plain)
    (hq : s.queue = .params r n :: q)
    (h : (buildCore .fourth known (fuel + 1) (.label (.name l))).run s = .ok made s') :
    labelKind l = .function := by
  have hparams {fuel : Nat} {made : Made} {s s' : Build}
      (h : (buildInstr .fourth known fuel (.params r n)).run s = .ok made s') : False := by
    obtain ⟨n, rfl, hcore⟩ := exists_of_run_buildInstr h
    cases hcore
  rw [buildCore_label] at h
  cases hkind : labelKind l with
  | plain => exact absurd hkind hl
  | function => rfl
  | forRange =>
    rw [hkind] at h
    rw [run_bind_of_ok (run_pop hq)] at h
    obtain ⟨_, _, hget, h1⟩ := of_run_bind h
    obtain _ | fuel := fuel
    · cases h1
    obtain ⟨made, s1, hmade, -⟩ := of_run_bind h1
    exact (hparams hmade).elim
  | forEach | whileDo =>
    rw [hkind] at h
    rw [run_bind_of_ok (run_pop hq)] at h
    obtain _ | fuel := fuel
    · cases h
    obtain ⟨made, s1, hmade, -⟩ := of_run_bind h
    exact (hparams hmade).elim

theorem built_core (ih : ∀ n ≤ fuel, Reads taken known n) (hr : Ready taken (i :: s.queue))
    (hs : Sound s) (h : (buildCore .fourth known (fuel + 1) i).run s = .ok made s') :
    Built taken i made s s' := by
  have honce : (labels s.queue).Nodup := nodup_labels_of_suffix (suffix_cons _ _) hr.once
  have hready {q : List Instr} (hq : Tidy taken q) (hsuffix : q <:+ s.queue) : Ready taken q :=
    ⟨hq, nodup_labels_of_suffix hsuffix honce⟩
  have htidy := hr.tidy
  generalize hwhole : i :: s.queue = whole at htidy
  cases htidy with
  | nil => cases hwhole
  | piece hp hq =>
    obtain ⟨j, p, rfl⟩ := hp.exists_cons
    rw [cons_append] at hwhole
    obtain ⟨rfl, hqueue⟩ := List.cons.inj hwhole
    have hsuffix := hqueue ▸ suffix_append p _
    exact ((evaluates _).piece hp hqueue hs (buildInstr_ok h)).built (hready hq hsuffix) hsuffix
  | single hi hq =>
    obtain ⟨rfl, rfl⟩ := List.cons.inj hwhole
    exact built_single hi (hready hq suffix_rfl) hs h
  | @loop l hl cond hcond done c q hq =>
    obtain ⟨rfl, hqueue⟩ := List.cons.inj hwhole
    rw [buildCore_label, hl] at h
    obtain ⟨j, s1, hpop, h1⟩ := of_run_bind h
    obtain ⟨hd, hq1⟩ := drift_pop hs hpop
    have hsuffix : q <:+ s.queue := hqueue ▸ (suffix_cons _ q).trans (suffix_append cond _)
    obtain ⟨items, rfl, hitems⟩ := (ih fuel le_rfl).whileHead (hready hq hsuffix) hcond
      (hq1.symm.trans hqueue) hd.sound .nil h1
    exact (hitems.after_pop hs hpop).built
  | @range l hl x start r hreg a b op done c q hq =>
    obtain ⟨rfl, hqueue⟩ := List.cons.inj hwhole
    rw [buildCore_label, hl] at h
    obtain ⟨s1, hpop, hd, hq1, h1⟩ := of_run_pop hs hqueue h
    have h2 := of_run_bind_ok h1 rfl
    have hsuffix : q <:+ s.queue := ⟨[_, _, _], hqueue.symm⟩
    obtain ⟨items, rfl, hitems⟩ := progress_range (fun n hn => ih n hn.le) hreg (hready hq hsuffix) hq1 hd.sound h2
    exact (hitems.after_pop hs hpop).built
  | @each l hl v x coll idx done c q hq =>
    obtain ⟨rfl, hqueue⟩ := List.cons.inj hwhole
    rw [buildCore_label, hl] at h
    obtain ⟨s1, hpop, hd, hq1, h1⟩ := of_run_pop hs hqueue h
    have hsuffix : q <:+ s.queue := ⟨[_, _, _], hqueue.symm⟩
    obtain ⟨items, rfl, hitems⟩ := progress_each (fun n hn => ih n hn.le) rfl (hready hq hsuffix) hq1 hd.sound h1
    exact (hitems.after_pop hs hpop).built
  | @function l hl hname r ps hps q hq =>
    obtain ⟨rfl, hqueue⟩ := List.cons.inj hwhole
    have hsuffix : q <:+ s.queue := hqueue ▸ (suffix_append ps q).trans (suffix_cons _ _)
    have hkind := labelKind_of_params hl hqueue h
    rw [buildCore_label, hkind] at h
    obtain ⟨s1, hpop, hd, hq1, h1⟩ := of_run_pop hs hqueue h
    obtain ⟨items, rfl, hitems⟩ := progress_function (fun n hn => ih n hn.le) hname hps
      (hready hq hsuffix) hq1 hd.sound h1
    exact (hitems.after_pop hs hpop).built
  | chain c hf hq =>
    obtain ⟨rfl, rfl⟩ := List.cons.inj hwhole
    obtain ⟨items, rfl, hitems⟩ := (ih fuel le_rfl).chain (hready hq suffix_rfl) hf hs h
    exact hitems.built
  | further f c hq =>
    obtain ⟨rfl, rfl⟩ := List.cons.inj hwhole
    cases h

theorem reads (fuel : Nat) : Reads taken known fuel := by
  induction fuel using Nat.strong_induction_on with
  | _ fuel ih =>
    obtain _ | fuel := fuel
    · constructor <;> (intro; intros; rename_i h; cases h)
    have hlast := ih fuel (Nat.lt_succ_self fuel)
    refine ⟨fun hr hs h => ?_, progress_body hlast, progress_chain hlast, progress_more hlast,
      progress_otherwise hlast, drift_condition hlast, progress_whileHead hlast, progress_functionBody hlast⟩
    obtain ⟨n, hn, hcore⟩ := exists_of_run_buildInstr h
    exact built_core (fun m hm => ih m (by omega)) hr hs hcore

theorem grown_program (hr : Ready taken s.queue) (hs : Sound s)
    (h : (program .fourth known fuel acc).run s = .ok items s') :
    Grown taken acc items s s' := by
  induction fuel generalizing s acc with
  | zero => cases h
  | succ fuel ih =>
    have h1 := of_run_bind_ok h rfl
    split at h1
    · cases h1
      exact ⟨[], (List.append_nil _).symm, .refl hs, hr, rfl, suffix_rfl⟩
    obtain ⟨i, s1, hpop, h2⟩ := of_run_bind h1
    obtain ⟨hd, hq⟩ := drift_pop hs hpop
    obtain ⟨made, s2, hmade, h3⟩ := of_run_bind h2
    have hp := ((reads fuel).instr (hq ▸ hr) hd.sound hmade).progress.after_pop hs hpop
    split at h3
    · exact .absent hp (by decide) (ih hp.ready hp.step.sound h3)
    · obtain ⟨acc', hadd, h4⟩ := of_run_ofExcept h3
      exact .added hp hadd (ih hp.ready hp.step.sound h4)

/-- In the tree of a program, a survey lists nothing but targets whose names are taken by functions. -/
theorem excused_of_run {n : Target.Node} (hr : Ready taken code) (hbuiltin : ∀ x ∈ keys ScopeTable.builtins4, taken x)
    (h : (Target.Build.run .fourth known code).run (.fresh .fourth code) = .ok n s') :
    ∃ items, n = .block items ∧ ∀ f ∈ (surveyAll items []).1, Excused taken f := by
  obtain ⟨items, s1, hrun, h1⟩ := of_run_bind h
  cases h1
  have hfresh : Sound (.fresh .fourth code) := ⟨.nil, nofun⟩
  obtain ⟨_, rfl, hnew⟩ := grown_program hr hfresh hrun
  refine ⟨_, rfl, ?_⟩
  rw [surveyAll_settleAll]
  · have hagrees : Agrees taken [] (names (.fresh .fourth code)) :=
      ⟨fun x hx => .inr (.inl (hbuiltin x hx)), nofun⟩
    exact (hnew.step.surveys hagrees).1
  · intro k
    rw [part, getD_eq_getElem?_getD]
    cases hk : s'.parts[k]? with
    | none => simp [Target.Node.none, survey]
    | some m => exact hnew.step.sound.parts m (mem_of_getElem? hk)

end Tabc.Declaration
