import Tabc.Proofs.Jumps.Effects

/-!
# Where jumps go

Labels stand once and every jump has its label exactly if no chain without a last alternative stands inside
the first alternative of another chain (`jumpsWellFormed_iff`): its label, left on the stack, would be marked
a second time.
-/

open List hiding flatten range

namespace Tabc.Core.Jumps

open Flat
open Quiet (emit)
open List (append_assoc)
open Bool (and_eq_true)

/-- A statement that a further or last alternative may follow. -/
def opens : Node → Bool
  | .ifThen .. => true
  | .elifThen .. => true
  | _ => false

/-- A further or last alternative of a chain. -/
def continues : Node → Bool
  | .elifThen .. => true
  | .elseThen .. => true
  | _ => false

mutual

/-- A statement; `follows` says whether it stands directly behind a condition of a chain, as further and
last alternatives must. -/
def isStmt (follows : Bool) : Node → Bool
  | .assign left _ right => isExpr left && isExpr right
  | .append obj value => isExpr obj && isExpr value
  | .ret value => isExpr value
  | .ifThen cond body => isExpr cond && isBody body
  | .elifThen cond body => follows && isExpr cond && isBody body
  | .elseThen body => follows && isBody body
  | .whileDo cond body => isExpr cond && isBody body
  | .forRange var range body => isExpr var && isExpr range && isBody body
  | .forEach var coll body => isExpr var && isExpr coll && isBody body
  | .funDef _ _ body _ => isBody body
  | n => isExpr n

def isBody : Node → Bool
  | .block items => areStmts false items
  | _ => false

def areStmts (follows : Bool) : List Node → Bool
  | [] => true
  | n :: rest => isStmt follows n && areStmts (opens n) rest

end

mutual

/-- How many chains inside a statement have no last alternative. -/
def unclosedIn : Node → Nat
  | .ifThen _ body => unclosedBody body
  | .elifThen _ body => unclosedBody body
  | .elseThen body => unclosedBody body
  | .whileDo _ body => unclosedBody body
  | .forRange _ _ body => unclosedBody body
  | .forEach _ _ body => unclosedBody body
  | .funDef _ _ body _ => unclosedBody body
  | _ => 0

def unclosedBody : Node → Nat
  | .block items => unclosed false items
  | _ => 0

def unclosed (follows : Bool) : List Node → Nat
  | [] => follows.toNat
  | n :: rest => (follows && !continues n).toNat + unclosedIn n + unclosed (opens n) rest

end

mutual

/-- In a statement, every chain inside the first alternative of a chain ends with a last alternative. -/
def sheltered : Node → Bool
  | .ifThen _ body => unclosedBody body == 0
  | .elifThen _ body => shelteredBody body
  | .elseThen body => shelteredBody body
  | .whileDo _ body => shelteredBody body
  | .forRange _ _ body => shelteredBody body
  | .forEach _ _ body => shelteredBody body
  | .funDef _ _ body _ => shelteredBody body
  | _ => true

def shelteredBody : Node → Bool
  | .block items => allSheltered items
  | _ => true

def allSheltered : List Node → Bool
  | [] => true
  | n :: rest => sheltered n && allSheltered rest

end

mutual

theorem sheltered_of_unclosedIn (n : Node) (h : unclosedIn n = 0) : sheltered n = true := by
  cases n with
  | ifThen _ body => simpa [sheltered, unclosedIn] using h
  | elifThen _ body | elseThen body | whileDo _ body | forRange _ _ body | forEach _ _ body
  | funDef _ _ body _ =>
    exact shelteredBody_of_unclosedBody body (by simpa [unclosedIn] using h)
  | _ => simp [sheltered]

theorem shelteredBody_of_unclosedBody (n : Node) (h : unclosedBody n = 0) : shelteredBody n = true := by
  cases n with
  | block items =>
    exact allSheltered_of_unclosed false items (by simpa [unclosedBody] using h)
  | _ => simp [shelteredBody]

theorem allSheltered_of_unclosed : ∀ (follows : Bool) (p : List Node), unclosed follows p = 0 → allSheltered p = true
  | _, [], _ => rfl
  | follows, n :: rest, h => by
    rw [unclosed] at h
    rw [allSheltered, sheltered_of_unclosedIn n (by omega), allSheltered_of_unclosed (opens n) rest (by omega)]
    rfl

end

/-- A label with a number above `lo` and up to `hi`. -/
def Made (lo hi : Nat) (x : String) : Prop := ∃ what k, lo < k ∧ k ≤ hi ∧ x = labelName .fourth what k

variable {x y : String} {cond n : Node} {follows : Bool}

theorem Made.mono (h : Made lo hi x) (hlo : lo' ≤ lo) (hhi : hi ≤ hi') : Made lo' hi' x := by
  obtain ⟨what, k, h1, h2, hx⟩ := h
  exact ⟨what, k, by omega, by omega, hx⟩

theorem Made.ne (hx : Made lo mid x) (hy : Made mid hi y) : x ≠ y := by
  obtain ⟨what, k, -, hk, rfl⟩ := hx
  obtain ⟨what', k', hk', -, rfl⟩ := hy
  intro h
  have := labelName_inj h
  omega

/-- Flattening went from one state to another. On the stack of open chains, `own` became `own'` above
the chains `below`; the labels `marks` and the jumps `jumps` were added. If all went well, no label
was marked twice, and jumps and open chains have labels that were marked now or belong to `own`; if
not, some label was marked twice. -/
structure Ran (well : Bool) (below own own' marks jumps : List String) (s s' : Flat) : Prop where
  adds : Adds s s' marks jumps
  before : s.chains = own ++ below
  after : s'.chains = own' ++ below
  later : s.labels ≤ s'.labels
  made : ∀ x ∈ marks, Made s.labels s'.labels x
  opened : ∀ x ∈ own', x ∈ own ∨ Made s.labels s'.labels x
  jump : well = true → ∀ x ∈ jumps, x ∈ own ∨ x ∈ marks
  left : well = true → ∀ x ∈ own', x ∈ own ∨ x ∈ marks
  once : well = true ↔ marks.Nodup

namespace Ran

variable {well well1 : Bool} {below own own1 own' marks marks1 jumps jumps1 : List String} {s s1 s' : Flat}

theorem trans (h : Ran well below own own1 marks jumps s s1) (h' : Ran well1 below own1 own' marks1 jumps1 s1 s') :
    Ran (well && well1) below own own' (marks ++ marks1) (jumps ++ jumps1) s s' where
  adds := h.adds.trans h'.adds
  before := h.before
  after := h'.after
  later := h.later.trans h'.later
  made := by
    intro x hx
    rcases mem_append.mp hx with hx | hx
    · exact (h.made x hx).mono le_rfl h'.later
    · exact (h'.made x hx).mono h.later le_rfl
  opened := by
    intro x hx
    rcases h'.opened x hx with hx | hx
    · exact (h.opened x hx).imp id fun hx => hx.mono le_rfl h'.later
    · exact .inr (hx.mono h.later le_rfl)
  jump := by
    intro hw x hx
    rw [and_eq_true] at hw
    rcases mem_append.mp hx with hx | hx
    · have := h.jump hw.1 x hx
      grind
    · have := h'.jump hw.2 x hx
      have := h.left hw.1 x
      grind
  left := by
    intro hw x hx
    rw [and_eq_true] at hw
    have := h'.left hw.2 x hx
    have := h.left hw.1 x
    grind
  once := by
    rw [and_eq_true, h.once, h'.once, nodup_append']
    have hdisjoint : marks.Disjoint marks1 := fun x hx hy => (h.made x hx).ne (h'.made x hy) rfl
    tauto

/-- The open chains of a body come on top of those of the list that it stands in. -/
theorem shift (h : Ran well (own ++ below) [] own' marks jumps s s') :
    Ran well below own (own' ++ own) marks jumps s s' where
  adds := h.adds
  before := h.before
  after := by rw [h.after, append_assoc]
  later := h.later
  made := h.made
  opened x hx := by
    have := h.opened x
    grind
  jump hw x hx := .inr ((h.jump hw x hx).resolve_left (by simp))
  left hw x hx := by
    have := h.left hw x
    grind
  once := h.once

theorem of_quiet {α : Type} {x : FlatM α} {a : α} (hx : Quiet x) (h : x.run s = .ok a s')
    (hs : s.chains = own ++ below) : Ran true below own own [] [] s s' := by
  obtain ⟨hadds, hlabels, hchains⟩ := hx h
  exact ⟨hadds, hs, hchains.trans hs, hlabels.ge, by simp, fun _ => .inl, by simp, fun _ _ => .inl, by simp⟩

/-- A statement that makes two labels, runs its body and marks both labels once. -/
theorem wrap (h : Ran well below1 own1 own2 marks jumps s1 s')
    (hx : x = labelName .fourth word (s.labels + 1)) (hy : y = labelName .fourth word' (s.labels + 2))
    (hs : s.chains = own ++ below) (hlabels : s1.labels = s.labels + 2)
    (hs'' : s''.chains = own' ++ below) (hlabels' : s''.labels = s'.labels)
    (hadds : Adds s s'' (x :: y :: marks) jumps1)
    (hjumps : ∀ z ∈ jumps1, z = x ∨ z = y ∨ z ∈ jumps) (hown : ∀ z ∈ own1, z ∈ own)
    (hown' : ∀ z ∈ own', z ∈ own ∨ z = y ∨ z ∈ own2) :
    Ran well below own own' (x :: y :: marks) jumps1 s s'' := by
  have hlater := h.later
  have hmadex : Made s.labels (s.labels + 1) x := ⟨word, _, by omega, le_rfl, hx⟩
  have hmadey : Made (s.labels + 1) (s.labels + 2) y := ⟨word', _, by omega, le_rfl, hy⟩
  have hmade : ∀ z ∈ marks, Made (s.labels + 2) s''.labels z := by
    intro z hz
    have := h.made z hz
    rwa [hlabels, ← hlabels'] at this
  refine ⟨hadds, hs, hs'', by omega, ?_, ?_, ?_, ?_, ?_⟩
  · intro z hz
    rcases mem_cons.mp hz with rfl | hz
    · exact hmadex.mono le_rfl (by omega)
    · rcases mem_cons.mp hz with rfl | hz
      · exact hmadey.mono (by omega) (by omega)
      · exact (hmade z hz).mono (by omega) le_rfl
  · intro z hz
    rcases hown' z hz with hz | rfl | hz
    · exact .inl hz
    · exact .inr (hmadey.mono (by omega) (by omega))
    · exact (h.opened z hz).imp (hown z) fun hz => hz.mono (by omega) hlabels'.ge
  · intro hw z hz
    have := h.jump hw z
    grind
  · intro hw z hz
    have := h.left hw z
    grind
  · have hxy : x ≠ y := hmadex.ne hmadey
    have hxm : x ∉ marks := fun hm => (hmadex.mono le_rfl (by omega)).ne (hmade x hm) rfl
    have hym : y ∉ marks := fun hm => hmadey.ne (hmade y hm) rfl
    rw [h.once]
    simp [hxy, hxm, hym]

end Ran

variable {below own marks jumps : List String} {s s0 s1 s2 s' : Flat} {body : Node}

/-- What running a body does; `left` is the number of chains that it leaves open. -/
def BodyRuns (body : Node) : Prop :=
  ∀ ⦃s s'⦄, (flattenBody .fourth body).run s = .ok () s' → ∃ own' marks jumps,
    Ran (shelteredBody body) s.chains [] own' marks jumps s s' ∧ own'.length = unclosedBody body

/-- What running a statement does that is neither the head nor an alternative of a chain. -/
def RunsAround (n body : Node) : Prop :=
  ∀ ⦃s a s' below own⦄, (flatten .fourth n).run s = .ok a s' → s.chains = own ++ below →
    ∃ own' marks jumps, Ran (shelteredBody body) below own (own' ++ own) marks jumps s s' ∧
      own'.length = unclosedBody body

/-- A head and an end around a body, which make two labels and mark both of them once. -/
theorem Ran.around (hbody : BodyRuns body) (hrun : (flattenBody .fourth body).run s1 = .ok () s2)
    (hx : x = labelName .fourth word (s.labels + 1))
    (hy : y = labelName .fourth word' (s.labels + 2)) (hs : s.chains = own ++ below)
    (hlabels : s1.labels = s.labels + 2) (hchains : s1.chains = s.chains)
    (hhead : Adds s s1 first heads) (hend : Adds s2 s' last ends)
    (hmarks : (first ++ last).Perm [x, y]) (hlabels' : s'.labels = s2.labels)
    (hchains' : s'.chains = s2.chains) (hjumps : ∀ z ∈ heads ++ ends, z = x ∨ z = y) :
    ∃ own' marks jumps, Ran (shelteredBody body) below own (own' ++ own) marks jumps s s' ∧
      own'.length = unclosedBody body := by
  obtain ⟨own', m, j, hran, hlength⟩ := hbody hrun
  rw [hchains, hs] at hran
  have hperm : (first ++ m ++ last).Perm (x :: y :: m) := by
    rw [append_assoc]
    refine (perm_append_comm.append_left first).trans ?_
    rw [← append_assoc]
    exact hmarks.append_right m
  refine ⟨own', x :: y :: m, heads ++ j ++ ends, ?_, hlength⟩
  refine hran.shift.wrap hx hy hs hlabels (hchains'.trans hran.shift.after) hlabels'
    (((hhead.trans hran.adds).trans hend).perm hperm) ?_ (fun z hz => hz) (fun z hz => .inr (.inr hz))
  intro z hz
  have := hjumps z
  grind

theorem Ran.loop (hbody : BodyRuns body) (hcalm : Calm s s0) (hx : x = labelName .fourth word (s0.labels + 1))
    (hy : y = labelName .fourth "" (s0.labels + 2))
    (hhead : Calm { s0 with labels := s0.labels + 2, code := s0.code ++ [.label (.name x)] } s1)
    (hrun : (flattenBody .fourth body).run { s1 with code := s1.code ++ [.branch (.name y) c] } = .ok () s2)
    (hs' : s' = { s2 with code := s2.code ++ [.goto (.name x)] ++ [.label (.name y)] })
    (hs : s.chains = own ++ below) :
    ∃ own' marks jumps, Ran (shelteredBody body) below own (own' ++ own) marks jumps s s' ∧
      own'.length = unclosedBody body := by
  subst hs'
  have hfirst : Adds s { s1 with code := s1.code ++ [.branch (.name y) c] } [x] [y] := by
    have hmark : Adds s0 { s0 with labels := s0.labels + 2, code := s0.code ++ [.label (.name x)] }
        [x] [] := .append [.label (.name x)] rfl
    have hbranch : Adds s1 { s1 with code := s1.code ++ [.branch (.name y) c] } [] [y] :=
      .append [.branch (.name y) c] rfl
    exact ((hcalm.adds.trans hmark).trans hhead.adds).trans hbranch
  have hlast : Adds s2 { s2 with code := s2.code ++ [.goto (.name x)] ++ [.label (.name y)] }
      [y] [x] := .append [.goto (.name x), .label (.name y)] (append_assoc ..)
  rw [hcalm.labels] at hx hy
  have hlabels : s1.labels = s.labels + 2 := hhead.labels.trans (by rw [← hcalm.labels])
  refine Ran.around hbody hrun hx hy hs hlabels (hhead.chains.trans hcalm.chains) hfirst hlast (.refl _) rfl rfl ?_
  intro z hz
  simpa [or_comm] using hz

/-- A loop: what goes before it, its label, its head with the way out, its body and the jump back. -/
def loop {α : Type} (before : FlatM α) (word : String) (head : α → FlatM Operand) (body : Node) : FlatM Operand := do
  let a ← before
  let again ← newLabel .fourth word
  let done ← newLabel .fourth ""
  Flat.mark again
  let c ← head a
  unlessJump done c
  flattenBody .fourth body
  jump again
  Flat.mark done
  return .nothing

theorem runsAround_loop {α : Type} {n : Node} (before : FlatM α) (word : String) (head : α → FlatM Operand)
    (hn : flatten .fourth n = loop before word head body) (hbefore : Quiet before)
    (hhead : ∀ a, Quiet (head a)) (hbody : BodyRuns body) : RunsAround n body := by
  intro s a s' below own h hs
  rw [hn] at h
  obtain ⟨_, s0, h0, h⟩ := of_run_bind h
  rw [run_bind_of_ok (run_newLabel ..), run_bind_of_ok (run_newLabel ..), run_bind_of_ok (run_mark ..)] at h
  obtain ⟨c, s1, h1, h⟩ := of_run_bind h
  rw [run_bind_of_ok (run_unlessJump ..)] at h
  obtain ⟨_, s2, hb, h⟩ := of_run_bind h
  cases h
  exact Ran.loop hbody (hbefore h0) rfl rfl (hhead _ h1) hb rfl hs

theorem runsAround_whileDo (hcond : isExpr cond = true) : BodyRuns body → RunsAround (.whileDo cond body) body :=
  runsAround_loop (pure ()) "WHILE" (fun _ => flatten .fourth cond)
    (by rw [flatten]; rfl) (.pure _) fun _ => quiet_flatten cond hcond

theorem forRange_eq_loop (var range body : Node) :
    flatten .fourth (.forRange var range body) = loop (flatten .fourth range) "FORRANGE" (fun bounds => do
      emit (.assign (← flatten .fourth var) (← MonadExcept.ofExcept (bounds.part 0)))
      let cond ← newRegister .fourth
      emit (.binary (.name cond) (← flatten .fourth var) (← MonadExcept.ofExcept (bounds.part 2)) "<")
      return .name cond) body := by rw [flatten]; simp [loop]

theorem runsAround_forRange (hvar : isExpr var = true)
    (hrange : isExpr range = true) : BodyRuns body → RunsAround (.forRange var range body) body := by
  have hv := quiet_flatten var hvar
  refine runsAround_loop _ _ _ (forRange_eq_loop var range body) (quiet_flatten range hrange) fun bounds => ?_
  exact hv.bind fun _ => .bind (.ofExcept _) fun _ => .bind (emit rfl rfl) fun _ =>
    .bind Quiet.newRegister fun _ => hv.bind fun _ => .bind (.ofExcept _) fun _ => .bind (emit rfl rfl) fun _ => .pure _

theorem flatten_forEach (var coll body : Node) :
    flatten .fourth (.forEach var coll body) = loop (do
      let c ← flatten .fourth coll
      let length ← newRegister .fourth
      emit (.length (.name length) c)
      let idx ← newRegister .fourth
      emit (.literal (.name idx) (.int 1))
      return (c, idx)) "FORLIST" (fun (c, idx) => do
      let cond ← newRegister .fourth
      emit (.loopVar (← flatten .fourth var))
      emit (.index (← flatten .fourth var) c (.name idx))
      return .name cond) body := by rw [flatten]; simp [loop]

theorem runsAround_forEach (hvar : isExpr var = true)
    (hcoll : isExpr coll = true) : BodyRuns body → RunsAround (.forEach var coll body) body := by
  have hv := quiet_flatten var hvar
  refine runsAround_loop _ _ _ (flatten_forEach var coll body) ?_ fun _ => ?_
  · exact (quiet_flatten coll hcoll).bind fun _ => .bind Quiet.newRegister fun _ => .bind (emit rfl rfl) fun _ =>
      .bind Quiet.newRegister fun _ => .bind (emit rfl rfl) fun _ => .pure _
  · exact .bind Quiet.newRegister fun _ => hv.bind fun _ => .bind (emit rfl rfl) fun _ =>
      hv.bind fun _ => .bind (emit rfl rfl) fun _ => .pure _

theorem runsAround_funDef (hbody : BodyRuns body) : RunsAround (.funDef name params body result) body := by
  intro s a s' below own h hs
  obtain ⟨skip, s1, hhead, h⟩ := of_run_bind h
  obtain ⟨_, s2, hb, h⟩ := of_run_bind h
  cases h
  obtain ⟨word, -, hhead⟩ := of_run_ofExcept hhead
  rw [run_bind_of_ok (run_newLabel ..), run_bind_of_ok (run_mark ..)] at hhead
  obtain ⟨reg, t2, h2, hhead⟩ := of_run_bind hhead
  obtain ⟨items, t3, h3, hhead⟩ := of_run_bind hhead
  obtain ⟨_, t4, h4, hhead⟩ := of_run_bind hhead
  obtain ⟨_, t5, h5, hhead⟩ := of_run_bind hhead
  cases hhead
  have hcalm := (((Quiet.newRegister h2).trans (Along.ofExcept _ h3)).trans
    (emit rfl rfl h4)).trans (Quiet.emitParams _ h5)
  have hfirst : Adds s s1 [labelName .fourth word (s.labels + 2)] [labelName .fourth "" (s.labels + 1)] :=
    (Adds.append [.goto (.name _), .label (.name _)] (append_assoc ..)).trans hcalm.adds
  exact Ran.around hbody hb rfl rfl hs hcalm.labels hcalm.chains hfirst
    (.append [.label (.name _)] rfl) (List.Perm.swap ..) rfl rfl (by simp [targets, targetOf?])

/-- What running a statement does, with its effect on the number of open chains. -/
def Runs (follows : Bool) (n : Node) : Prop :=
  ∀ ⦃s a s' below own⦄, (flatten .fourth n).run s = .ok a s' → s.chains = own ++ below → (follows = true → own ≠ []) →
    ∃ own' marks jumps, Ran (sheltered n) below own own' marks jumps s s' ∧
      own'.length + follows.toNat = own.length + (follows && !continues n).toNat + unclosedIn n + (opens n).toNat ∧
      (opens n = true → own' ≠ [])

theorem run_chainEnd (h : chainEnd.run s = .ok x s') : ∃ rest, s.chains = x :: rest ∧ s' = s := by
  simp only [chainEnd, EStateM.run_bind, EStateM.run_get] at h
  cases hs : s.chains with
  | nil => rw [hs] at h; cases h
  | cons y rest => rw [hs] at h; cases h; exact ⟨rest, rfl, rfl⟩

theorem run_openChain (x : String) (s : Flat) : (openChain x).run s = .ok () { s with chains := x :: s.chains } := rfl

theorem run_markChain (h : markChain.run s = .ok u s') :
    ∃ x rest, s.chains = x :: rest ∧
      s' = { s with code := s.code ++ [.label (.name x)], spots := s.code.length :: s.spots } := by
  rw [markChain, run_bind_of_ok (EStateM.run_modify ..)] at h
  obtain ⟨x, s1, hx, h⟩ := of_run_bind h
  obtain ⟨rest, hrest, rfl⟩ := run_chainEnd hx
  cases h
  exact ⟨x, rest, hrest, rfl⟩

/-- How the code of a first alternative is made: the label at its end is the one on top of the stack
after its body. -/
theorem exists_of_run_ifThen (h : (flatten .fourth (.ifThen cond body)).run s = .ok a s') :
    ∃ c s0 s2 x rest, (flatten .fourth cond).run s = .ok c s0 ∧ (flattenBody .fourth body).run { s0 with
          code := s0.code ++ [.branch (.name (labelName .fourth "" (s0.labels + 1))) c]
          labels := s0.labels + 2
          chains := labelName .fourth "" (s0.labels + 2) :: s0.chains } = .ok () s2 ∧
      s2.chains = x :: rest ∧ s'.chains = s2.chains ∧ s'.labels = s2.labels ∧
      s'.spots = (s2.code.length + 2) :: s2.spots ∧
      s'.code = s2.code ++ [.goto (.name x)] ++
        [.label (.name (labelName .fourth "" (s0.labels + 1)))] ++ [.label (.name x)] := by
  obtain ⟨c, s0, hc, h⟩ := of_run_bind h
  rw [run_bind_of_ok (run_newLabel ..), run_bind_of_ok (run_newLabel ..),
    run_bind_of_ok (run_openChain ..), run_bind_of_ok (run_unlessJump ..)] at h
  obtain ⟨_, s2, hb, h⟩ := of_run_bind h
  obtain ⟨x, t, hx, hend⟩ := of_run_bind h
  obtain ⟨rest, hrest, rfl⟩ := run_chainEnd hx
  rw [run_bind_of_ok (run_jump ..), run_bind_of_ok (run_mark ..)] at hend
  obtain ⟨_, t', hmark, hend⟩ := of_run_bind hend
  obtain ⟨y, rest', hrest', rfl⟩ := run_markChain hmark
  obtain ⟨rfl, rfl⟩ : y = x ∧ rest' = rest := by
    simpa [eq_comm] using hrest'.symm.trans hrest
  cases hend
  exact ⟨c, s0, t, y, rest', hc, hb, hrest, rfl, rfl, by simp, rfl⟩

theorem runs_ifThen (hcond : isExpr cond = true) (hbody : BodyRuns body) : Runs follows (.ifThen cond body) := by
  intro s a s' below own h hs _
  obtain ⟨c, s0, s2, x, rest, hc, hb, hx, hchains', hlabels', -, hcode⟩ := exists_of_run_ifThen h
  have hcalm := quiet_flatten cond hcond hc
  obtain ⟨own2, marks, jumps, hran, hlength⟩ := hbody hb
  set fail := labelName .fourth "" (s0.labels + 1) with hfail
  set stop := labelName .fourth "" (s0.labels + 2) with hstop
  have hafter : s'.chains = (own2 ++ stop :: own) ++ below := by
    rw [hchains', hran.after, hcalm.chains, hs]
    simp
  have hadds : Adds s s' (marks ++ [fail, x]) ([fail] ++ jumps ++ [x]) := by
    have hbranch : Adds s0 { s0 with
        code := s0.code ++ [.branch (.name fail) c]
        labels := s0.labels + 2
        chains := stop :: s0.chains } [] [fail] := .append [.branch (.name fail) c] rfl
    have hend : Adds s2 s' [fail, x] [x] :=
      .append [.goto (.name x), .label (.name fail), .label (.name x)] (by simp [hcode])
    exact ((hcalm.adds.trans hbranch).trans hran.adds).trans hend
  have hlength' : (own2 ++ stop :: own).length + follows.toNat =
      own.length + (follows && !continues (.ifThen cond body)).toNat + unclosedIn (.ifThen cond body) +
        (opens (.ifThen cond body)).toNat := by
    simp [continues, opens, unclosedIn, hlength]
    omega
  have htop := hx.symm.trans hran.after
  cases hclosed : own2 with
  | nil =>
    -- the body has left nothing on the stack, so the label on top is the chain's own
    rw [hclosed] at hlength hafter hlength' htop
    have hzero : unclosedBody body = 0 := hlength.symm
    obtain rfl : x = stop := (List.cons.inj htop).1
    have hwell : sheltered (.ifThen cond body) = shelteredBody body := by
      rw [sheltered, hzero, shelteredBody_of_unclosedBody body hzero]
      rfl
    refine ⟨stop :: own, fail :: stop :: marks, [fail] ++ jumps ++ [stop], ?_, hlength', by simp⟩
    rw [hwell]
    refine hran.wrap (by rw [hfail, hcalm.labels]) (by rw [hstop, hcalm.labels]) hs
      (by simp [hcalm.labels]) hafter hlabels' (hadds.perm perm_append_comm) ?_ (by simp) ?_
    · grind
    · grind
  | cons top more =>
    -- the label on top was marked in the body, and is marked again
    rw [hclosed] at hlength hafter hlength' htop
    obtain rfl : x = top := (List.cons.inj htop).1
    have hwell : sheltered (.ifThen cond body) = false := by
      rw [sheltered, ← hlength]
      rfl
    have hlabels : s0.labels = s.labels := hcalm.labels
    have hlater : s0.labels + 2 ≤ s2.labels := hran.later
    have hmade : ∀ z ∈ marks, Made s.labels s'.labels z := by
      intro z hz
      exact (hran.made z hz).mono (by rw [← hlabels]; simp) hlabels'.ge
    have hfailMade : Made s.labels s'.labels fail := ⟨"", _, by omega, by omega, hfail⟩
    have hxMade : Made s.labels s'.labels x :=
      ((hran.opened x (by simp [hclosed])).resolve_left (by simp)).mono (by rw [← hlabels]; simp) hlabels'.ge
    have htwice : ¬ (marks ++ [fail, x]).Nodup := by
      intro hnodup
      have hnodup' := nodup_append'.mp hnodup
      have hwell' := hran.once.mpr hnodup'.1
      have hmem := (hran.left hwell' x (by simp [hclosed])).resolve_left (by simp)
      exact hnodup'.2.2 hmem (by simp)
    refine ⟨x :: more ++ stop :: own, marks ++ [fail, x], [fail] ++ jumps ++ [x], ?_, hlength', by simp⟩
    rw [hwell]
    refine ⟨hadds, hs, hafter, by omega, ?_, ?_, by simp, by simp, by simp [htwice]⟩
    · intro z hz
      rcases mem_append.mp hz with hz | hz
      · exact hmade z hz
      · rcases mem_pair.mp hz with rfl | rfl
        · exact hfailMade
        · exact hxMade
    · intro z hz
      rcases mem_append.mp hz with hz | hz
      · exact .inr (((hran.opened z (hclosed ▸ hz)).resolve_left (by simp)).mono (by rw [← hlabels]; simp) hlabels'.ge)
      · rcases mem_cons.mp hz with rfl | hz
        · exact .inr ⟨"", _, by omega, by omega, hstop⟩
        · exact .inl hz

theorem run_setAside (s : Flat) : setAside.run s = .ok s.code { s with code := [] } := rfl

theorem run_splice {n : Nat} (h : (splice old).run s = .ok n s') :
    ∃ spot more, s.spots = spot :: more ∧ n = s.code.length ∧
      s' = { s with code := old.take spot ++ s.code ++ old.drop spot } := by
  simp only [splice, EStateM.run_bind, EStateM.run_get] at h
  cases hs : s.spots with
  | nil => rw [hs] at h; cases h
  | cons spot more => rw [hs] at h; cases h; exact ⟨spot, more, rfl, rfl, rfl⟩

theorem run_closeChain (h : closeChain.run s = .ok u s') :
    ∃ x rest, s.chains = x :: rest ∧ s' = { s with chains := rest, spots := s.spots.tail } := by
  simp only [closeChain, EStateM.run_bind, EStateM.run_modify, EStateM.run_get] at h
  cases hs : s.chains with
  | nil => simp only [hs] at h; cases h
  | cons x rest => simp only [hs] at h; cases h; exact ⟨x, rest, rfl, rfl⟩

/-- How the code of a further alternative is made: apart from the code so far, which it is put into. -/
theorem exists_of_run_elifThen (h : (flatten .fourth (.elifThen cond body)).run s = .ok a s') :
    ∃ c s0 s2 x rest spot more, (flatten .fourth cond).run { s with code := [] } = .ok c s0 ∧
      (flattenBody .fourth body).run { s0 with
          code := s0.code ++ [.elseBranch (.name (labelName .fourth "" (s0.labels + 1))) c]
          labels := s0.labels + 1 } = .ok () s2 ∧
      s2.chains = x :: rest ∧ s2.spots = spot :: more ∧ s'.chains = s2.chains ∧
      s'.labels = s2.labels ∧ s'.spots = (spot + (s2.code.length + 2)) :: more ∧
      s'.code = s.code.take spot ++ (s2.code ++ [.goto (.name x)] ++
        [.label (.name (labelName .fourth "" (s0.labels + 1)))]) ++ s.code.drop spot := by
  rw [flatten, run_bind_of_ok (run_setAside ..)] at h
  obtain ⟨c, s0, hc, h⟩ := of_run_bind h
  rw [run_bind_of_ok (run_newLabel ..), run_bind_of_ok (run_emit ..)] at h
  obtain ⟨_, s2, hb, h⟩ := of_run_bind h
  obtain ⟨x, t, hx, hend⟩ := of_run_bind h
  obtain ⟨rest, hrest, rfl⟩ := run_chainEnd hx
  rw [run_bind_of_ok (run_jump ..), run_bind_of_ok (run_mark ..)] at hend
  obtain ⟨n, t', hsplice, hend⟩ := of_run_bind hend
  obtain ⟨spot, more, hspots, rfl, rfl⟩ := run_splice hsplice
  cases hend
  have hspots : t.spots = spot :: more := hspots
  exact ⟨c, s0, t, x, rest, spot, more, hc, hb, hrest, hspots, rfl, rfl, by simp [hspots], rfl⟩

theorem runs_elifThen (hcond : isExpr cond = true) (hbody : BodyRuns body) : Runs true (.elifThen cond body) := by
  intro s a s' below own h hs hown
  obtain ⟨c, s0, s2, x, rest, spot, -, hc, hb, hx, -, hchains', hlabels', -, hcode⟩ := exists_of_run_elifThen h
  have hcalm := quiet_flatten cond hcond hc
  obtain ⟨own2, marks, jumps, hran, hlength⟩ := hbody hb
  set fail := labelName .fourth "" (s0.labels + 1) with hfail
  have hlabels : s0.labels = s.labels := hcalm.labels
  have hlater : s0.labels + 1 ≤ s2.labels := hran.later
  have hchains2 : s2.chains = own2 ++ own ++ below := by
    rw [hran.after, append_assoc, ← hs]
    exact congrArg (own2 ++ ·) hcalm.chains
  have hmem : x ∈ own2 ++ own := by
    -- the stack has a chain of this list on top, as a condition stands before
    obtain ⟨y, more, hmore⟩ := exists_cons_of_ne_nil (hown rfl)
    cases hown2 : own2 with
    | nil => grind
    | cons z zs => grind
  have hmade : ∀ z ∈ marks, Made (s.labels + 1) s'.labels z := by
    intro z hz
    exact (hran.made z hz).mono (by rw [← hlabels]) hlabels'.ge
  have hfailMade : Made s.labels (s.labels + 1) fail := ⟨"", _, by omega, by omega, hfail⟩
  have hadds : Adds s s' (fail :: marks) ([fail] ++ jumps ++ [x]) := by
    have hbranch : Adds s0 { s0 with
        code := s0.code ++ [.elseBranch (.name fail) c]
        labels := s0.labels + 1 } [] [fail] := .append [.elseBranch (.name fail) c] rfl
    have hend : Adds s2 { s2 with code := s2.code ++ [.goto (.name x)] ++ [.label (.name fail)] } [fail] [x] :=
      .append [.goto (.name x), .label (.name fail)] (append_assoc ..)
    have hnew := ((hcalm.adds.trans hbranch).trans hran.adds).trans hend
    exact (Adds.splice rfl rfl hnew rfl hcode).perm (perm_append_singleton ..)
  refine ⟨own2 ++ own, fail :: marks, [fail] ++ jumps ++ [x], ⟨hadds, hs, hchains'.trans hchains2,
    by omega, ?_, ?_, ?_, ?_, ?_⟩, ?_, ?_⟩
  · intro z hz
    rcases mem_cons.mp hz with rfl | hz
    · exact hfailMade.mono le_rfl (by omega)
    · exact (hmade z hz).mono (by omega) le_rfl
  · intro z hz
    rcases mem_append.mp hz with hz | hz
    · exact .inr (((hran.opened z hz).resolve_left (by simp)).mono (by rw [← hlabels]; simp) hlabels'.ge)
    · exact .inl hz
  · intro hwell z hz
    have := hran.jump hwell z
    have := hran.left hwell z
    grind
  · intro hwell z hz
    have := hran.left hwell z
    grind
  · have hfailMarks : fail ∉ marks := fun hm => hfailMade.ne (hmade fail hm) rfl
    rw [sheltered, hran.once]
    simp [hfailMarks]
  · simp [continues, opens, unclosedIn, hlength]
    omega
  · have := hown rfl
    simp [this]

theorem exists_of_run_elseThen (h : (flatten .fourth (.elseThen body)).run s = .ok a s') :
    ∃ s2 spot more x rest, (flattenBody .fourth body).run { s with code := [] } = .ok () s2 ∧
      s2.chains = x :: rest ∧ s2.spots = spot :: more ∧ s' = { s2 with
        code := s.code.take spot ++ s2.code ++ s.code.drop spot, chains := rest, spots := more } := by
  rw [flatten, run_bind_of_ok (run_setAside ..)] at h
  obtain ⟨_, s2, hb, h⟩ := of_run_bind h
  obtain ⟨n, t, hsplice, h⟩ := of_run_bind h
  obtain ⟨spot, more, hspots, -, rfl⟩ := run_splice hsplice
  obtain ⟨_, t, hclose, hend⟩ := of_run_bind h
  obtain ⟨x, rest, hchains, rfl⟩ := run_closeChain hclose
  cases hend
  exact ⟨s2, spot, more, x, rest, hb, hchains, hspots, by simp [hspots]⟩

theorem runs_elseThen (hbody : BodyRuns body) : Runs true (.elseThen body) := by
  intro s a s' below own h hs hown
  obtain ⟨s2, spot, _, top, rest, hb, htop, -, hs'⟩ := exists_of_run_elseThen h
  have hlabels' : s'.labels = s2.labels := by rw [hs']
  obtain ⟨own2, marks, jumps, hran, hlength⟩ := hbody hb
  have hlater : s.labels ≤ s'.labels := hran.later.trans hlabels'.ge
  have hchains2 : s2.chains = own2 ++ own ++ below := by
    rw [hran.after, append_assoc, ← hs]
  obtain ⟨more, hmore, hsub⟩ : ∃ more, s'.chains = more ++ below ∧ own2 ++ own = top :: more := by
    obtain ⟨y, ys, hys⟩ := exists_cons_of_ne_nil (hown rfl)
    cases hown2 : own2 with
    | nil => grind
    | cons z zs => grind
  have hopened : ∀ z ∈ own2, Made s.labels s'.labels z := by
    intro z hz
    exact ((hran.opened z hz).resolve_left (by simp)).mono le_rfl hlabels'.ge
  refine ⟨more, marks, jumps, ⟨Adds.splice rfl rfl hran.adds rfl (by rw [hs']), hs, hmore, hlater, ?_, ?_,
    ?_, ?_, ?_⟩, ?_, by simp [opens]⟩
  · intro z hz
    exact (hran.made z hz).mono le_rfl hlabels'.ge
  · intro z hz
    grind
  · intro hwell z hz
    exact .inr ((hran.jump hwell z hz).resolve_left (by simp))
  · intro hwell z hz
    have := hran.left hwell z
    grind
  · exact hran.once
  · have := congrArg List.length hsub
    simp [continues, opens, unclosedIn, ← hlength] at this ⊢
    omega

theorem runs_of_quiet (h : Quiet (flatten .fourth n)) (hsheltered : sheltered n = true)
    (hunclosed : unclosedIn n = 0) (hopens : opens n = false) (hcontinues : continues n = false) :
    Runs follows n := by
  intro s a s' below own hrun hs _
  refine ⟨own, [], [], ?_, ?_, by simp [hopens]⟩
  · rw [hsheltered]
    exact .of_quiet h hrun hs
  · simp [hcontinues, hunclosed, hopens]

theorem runs_of_around (h : RunsAround n body) (hsheltered : sheltered n = shelteredBody body)
    (hunclosed : unclosedIn n = unclosedBody body) (hopens : opens n = false)
    (hcontinues : continues n = false) : Runs follows n := by
  intro s a s' below own hrun hs _
  obtain ⟨own', marks, jumps, hran, hlength⟩ := h hrun hs
  refine ⟨own' ++ own, marks, jumps, hsheltered ▸ hran, ?_, by simp [hopens]⟩
  simp [hcontinues, hunclosed, hopens, ← hlength]
  omega

theorem runs_expr (h : isExpr n = true) : Runs follows n := by
  have hquiet := quiet_flatten n h
  cases n with
  | atom | ident | literal | collection | binary | unary | call | index | slice | range =>
    exact runs_of_quiet hquiet rfl rfl rfl rfl
  | _ => simp [isExpr] at h

/-- What running statements does, with its effect on the number of open chains. -/
def RunsAll (follows : Bool) (p : List Node) : Prop :=
  ∀ ⦃s s' below own⦄, (flattenAll .fourth p).run s = .ok () s' → s.chains = own ++ below →
    (follows = true → own ≠ []) → ∃ own' marks jumps, Ran (allSheltered p) below own own' marks jumps s s' ∧
        own'.length + follows.toNat = own.length + unclosed follows p

mutual

theorem runs_stmt (n : Node) (follows : Bool) (h : isStmt follows n = true) : Runs follows n := by
  cases n with
  | assign left _ right | append left right =>
    simp only [isStmt, and_eq_true] at h
    refine runs_of_quiet ?_ rfl rfl rfl rfl
    exact (quiet_flatten left h.1).bind fun _ => (quiet_flatten right h.2).bind fun _ =>
      (emit rfl rfl).bind fun _ => .pure _
  | ret value =>
    refine runs_of_quiet ?_ rfl rfl rfl rfl
    exact (quiet_flatten value h).bind fun _ => (emit rfl rfl).bind fun _ => .pure _
  | ifThen cond body =>
    simp only [isStmt, and_eq_true] at h
    exact runs_ifThen h.1 (bodyRuns body h.2)
  | elifThen cond body =>
    simp only [isStmt, and_eq_true] at h
    obtain ⟨⟨rfl, hcond⟩, hbody⟩ := h
    exact runs_elifThen hcond (bodyRuns body hbody)
  | elseThen body =>
    simp only [isStmt, and_eq_true] at h
    obtain ⟨rfl, hbody⟩ := h
    exact runs_elseThen (bodyRuns body hbody)
  | whileDo cond body =>
    simp only [isStmt, and_eq_true] at h
    exact runs_of_around (runsAround_whileDo h.1 (bodyRuns body h.2)) rfl rfl rfl rfl
  | forRange var range body =>
    simp only [isStmt, and_eq_true] at h
    exact runs_of_around (runsAround_forRange h.1.1 h.1.2 (bodyRuns body h.2)) rfl rfl rfl rfl
  | forEach var coll body =>
    simp only [isStmt, and_eq_true] at h
    exact runs_of_around (runsAround_forEach h.1.1 h.1.2 (bodyRuns body h.2)) rfl rfl rfl rfl
  | funDef name params body result => exact runs_of_around (runsAround_funDef (bodyRuns body h)) rfl rfl rfl rfl
  | _ => exact runs_expr h

theorem bodyRuns (body : Node) (h : isBody body = true) : BodyRuns body := by
  cases body with
  | block items =>
    intro s s' hrun
    obtain ⟨own', marks, jumps, hran, hlength⟩ := runsAll items false h hrun (nil_append _).symm (by simp)
    refine ⟨own', marks, jumps, by rw [shelteredBody]; exact hran, ?_⟩
    rw [unclosedBody]
    simpa using hlength
  | _ => simp [isBody] at h

theorem runsAll : ∀ (p : List Node) (follows : Bool), areStmts follows p = true → RunsAll follows p
  | [], follows, _ => by
    intro s s' below own hrun hs _
    exact ⟨own, [], [], .of_quiet (.pure ()) hrun hs, by simp [unclosed]⟩
  | n :: rest, follows, h => by
    simp only [areStmts, and_eq_true] at h
    intro s s' below own hrun hs hown
    obtain ⟨a, s1, hn, hrest⟩ := of_run_bind hrun
    obtain ⟨own1, marks, jumps, hran, hlength, hopen⟩ := runs_stmt n follows h.1 hn hs hown
    obtain ⟨own', marks', jumps', hran', hlength'⟩ := runsAll rest (opens n) h.2 hrest hran.after hopen
    refine ⟨own', marks ++ marks', jumps ++ jumps', ?_, ?_⟩
    · exact hran.trans hran'
    · rw [unclosed]
      omega

end

/-- Every label in the code stands there once, and so does the label of every jump. -/
def JumpsWellFormed (code : List Instr) : Prop :=
  (∀ l ∈ labels code, (labels code).count l = 1) ∧ ∀ l ∈ targets code, (labels code).count l = 1

theorem jumpsWellFormed_iff_nodup {code : List Instr} :
    JumpsWellFormed code ↔ (labels code).Nodup ∧ ∀ l ∈ targets code, l ∈ labels code := by
  constructor
  · rintro ⟨honce, hjumps⟩
    refine ⟨nodup_iff_count_le_one.mpr fun l => ?_, fun l hl => ?_⟩
    · by_cases hl : l ∈ labels code
      · exact (honce l hl).le
      · rw [count_eq_zero_of_not_mem hl]
        exact Nat.zero_le 1
    · exact one_le_count_iff.mp (hjumps l hl).ge
  · rintro ⟨hnodup, hjumps⟩
    exact ⟨fun l hl => count_eq_one_of_mem hnodup hl, fun l hl => count_eq_one_of_mem hnodup (hjumps l hl)⟩

/-- Labels and jumps in the code of a program are well formed exactly if every chain inside the first
alternative of a chain ends with a last alternative. -/
theorem jumpsWellFormed_iff (p : List Node) (hp : areStmts false p = true) {code : List Instr}
    (h : Flat.ofProgram .fourth p = .ok code) : JumpsWellFormed code ↔ allSheltered p = true := by
  cases hrun : (flattenAll .fourth p).run Flat.empty with
  | error x s =>
    rw [Flat.ofProgram, hrun] at h
    cases h
  | ok u s =>
    obtain rfl : s.code = code := by
      rw [Flat.ofProgram, hrun] at h
      exact Except.ok.inj h
    obtain ⟨own', marks, jumps, hran, -⟩ :=
      runsAll p false hp hrun (show Flat.empty.chains = [] ++ [] from rfl) (by simp)
    have hlabels : (labels s.code).Perm marks := hran.adds.marks
    have htargets : (targets s.code).Perm jumps := hran.adds.jumps
    rw [jumpsWellFormed_iff_nodup, hlabels.nodup_iff, ← hran.once]
    refine ⟨And.left, fun hwell => ⟨hwell, fun l hl => ?_⟩⟩
    exact hlabels.mem_iff.mpr ((hran.jump hwell l (htargets.mem_iff.mp hl)).resolve_left (by simp))

/-- A loop around a chain of three alternatives. The chain in the first one is closed, those in the others
are not; a function with a chain of its own follows. -/
def ladder : List Node :=
  let set (n : Int) : Node := .assign (.ident "x") .none (.literal "int" (.int n))
  let test (n : Int) : Node := .binary (.ident "x") "==" (.literal "int" (.int n))
  [set 0, .whileDo (test 0) (.block
      [.ifThen (test 1) (.block [.ifThen (test 2) (.block [set 3]), .elseThen (.block [set 4])]),
      .elifThen (test 5) (.block [.ifThen (test 6) (.block [set 7])]),
      .elseThen (.block [.ifThen (test 8) (.block [set 9])])]),
    .funDef (.ident "f") (.params (some [])) (.block [.ifThen (test 1) (.block [.ret (.ident "x")])])
      (.type (.prim .int))]

theorem jumpsWellFormed_ladder : ∃ code, Flat.ofProgram .fourth ladder = .ok code ∧ JumpsWellFormed code := by
  have hok : (Flat.ofProgram .fourth ladder).isOk = true := by decide +kernel
  cases h : Flat.ofProgram .fourth ladder with
  | ok code => exact ⟨code, rfl, (jumpsWellFormed_iff ladder (by decide) h).mpr (by decide)⟩
  | error x =>
    rw [h] at hok
    cases hok

instance (code : List Instr) : Decidable (JumpsWellFormed code) := inferInstanceAs (Decidable (_ ∧ _))

/-- A condition whose body is a condition, both without a last alternative. -/
def nestedConditions : List Node :=
  [.ifThen (.ident "a") (.block [.ifThen (.ident "a") (.block [.assign (.ident "x") .none (.literal "int" (.int 1))])])]

theorem not_jumpsWellFormed_nestedConditions : areStmts false nestedConditions = true ∧
    ∃ code, Flat.ofProgram .fourth nestedConditions = .ok code ∧ ¬ JumpsWellFormed code :=
  ⟨by decide, _, rfl, by decide +kernel⟩

end Tabc.Core.Jumps
