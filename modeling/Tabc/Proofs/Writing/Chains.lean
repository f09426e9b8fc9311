import Tabc.Proofs.Writing.Effects
import Tabc.Proofs.Writing.Steps

/-!
# Chains of unknown conditions

With folding, a chain is followed by two flags. The one for a decided chain outlives it, and then a chain of
conditions with unknown values loses all branches but the first one.
-/

namespace Tabc.Target.Node

/-- A tree that is no statement. -/
def simple : Node → Bool
  | .atom _ | .list _ | .source _ | .type _ | .shape _ | .later _ | .ident _ | .range _ _ _ | .args _
  | .returnStmt _ | .call _ _ | .string _ _ | .literal _ _ _ => true
  | _ => false

mutual

/-- Assignments and chains whose conditions are among some names, which are not assigned. -/
def branching (conds : List String) : Node → Bool
  | .block items => branchingAll conds items
  | .assign (.ident x) v => !conds.contains x && v.simple
  | .ifThen (.ident c) body | .elifThen (.ident c) body => conds.contains c && body.branching conds
  | .elseThen body => body.branching conds
  | _ => false

def branchingAll (conds : List String) : List Node → Bool
  | [] => true
  | n :: rest => n.branching conds && branchingAll conds rest

end

def isFurther : Node → Bool
  | .elifThen _ _ | .elseThen _ => true
  | _ => false

/-- What stands in front of the body of a branch. -/
def heading : Node → String
  | .ifThen (.ident c) _ => "if (" ++ c ++ ")"
  | .elifThen (.ident c) _ => "else if (" ++ c ++ ")"
  | _ => "else"

end Node

namespace Writer

open Tabc.Core
open EStateM (run_get)

variable {R : Writer → Writer → Prop} {conds : List String} {c : String} {s s' : Writer} {body : WriterM Piece}

theorem run_of_reporting {n : Node} (h : (reporting n act).run s = .ok p s') : act.run s = .ok p s' := by
  cases hact : act.run s with
  | ok b s1 =>
    rw [reporting, run_tryCatch_ok hact] at h
    exact h
  | error e s1 =>
    simp only [reporting, EStateM.run, MonadExcept.tryCatch, tryCatchThe, MonadExceptOf.tryCatch,
      EStateM.tryCatch] at hact h
    rw [hact] at h
    cases e <;> cases h

theorem keeps_reporting (n : Node) (h : Keeps R act) : Keeps R (reporting n act) :=
  fun _ _ _ hrun => h _ (run_of_reporting hrun)

variable [Frame R]

@[grind .]
theorem keeps_typeText (t : Ty) : Keeps R (typeText t) := by
  unfold typeText
  grind

@[grind .]
theorem keeps_callText (name args : Node) : Keeps R (callText name args) := by
  have harg : ∀ v, Keeps R (argText v) := fun v => by
    unfold argText
    grind
  unfold callText
  split <;> split <;> refine .bind ?_ fun values => .bind (.mapM (fun v => ?_) _) fun _ => ?_
  all_goals grind

theorem keeps_write_simple {n : Node} (h : n.simple = true) : Keeps R (write n) := by
  rw [write.eq_def]
  refine keeps_reporting n ?_
  cases n with
  | source t => cases t <;> grind
  | _ => grind [Node.simple]

/-- A name that is taken neither for a register nor for a constant. -/
structure Condition (c : String) : Prop where
  visible : Visible c
  notConstant : c ∉ ["True", "true", "False", "false", "NONE_LITERAL"]

/-- The writer folds, and the conditions have no values, or stand for themselves. -/
structure Ready (conds : List String) (s : Writer) : Prop where
  folding : s.folding = true
  condition : ∀ c ∈ conds, Condition c
  unknown : ∀ c ∈ conds, (s.vars.lookup c).getD (.text c) = .text c

theorem Ready.run_value (h : Ready conds s) (hc : c ∈ conds) : (value (.ident c)).run s = .ok (.text c) s := by
  have hcontents : (nameContents c).run s = .ok (.text c) s := by
    rw [nameContents, run_bind_of_ok (h.condition c hc).visible.run_isRegister, if_neg Bool.false_ne_true,
      run_bind_of_ok (run_get s)]
    split
    · rfl
    · rw [h.unknown c hc]
      rfl
  exact run_tryCatch_ok hcontents _

theorem Condition.undecided (h : Condition c) : (Node.text c).rulesOut = false ∧ (Node.text c).isTrue = false := by
  have hne : ∀ k ∈ ["True", "true", "False", "false", "NONE_LITERAL"], (c == k) = false ∧ (k == c) = false := by
    intro k hk
    have hck : c ≠ k := fun heq => h.notConstant (heq ▸ hk)
    exact ⟨beq_eq_false_iff_ne.mpr hck, beq_eq_false_iff_ne.mpr hck.symm⟩
  simp [Node.rulesOut, Node.isFalse, Node.isTrue, Node.isText, Node.text, Node.plain, Atom.plain, hne]

/-- The chain is decided as it was, and its first branch stays in the output. -/
structure Steady (conds : List String) (s s' : Writer) : Prop where
  ready : Ready conds s'
  decided : s'.decided = s.decided
  hasHead : s.hasHead = true → s'.hasHead = true

/-- Where the conditions are unknown, they stay so. -/
def Steadily (conds : List String) (s s' : Writer) : Prop := Ready conds s → Steady conds s s'

theorem Steadily.of_eq (hfolding : s'.folding = s.folding) (hvars : s'.vars = s.vars)
    (hdecided : s'.decided = s.decided) (hhead : s'.hasHead = s.hasHead) : Steadily conds s s' :=
  fun h => ⟨⟨hfolding.trans h.folding, h.condition, hvars ▸ h.unknown⟩, hdecided, hhead.trans⟩

instance : Frame (Steadily conds) where
  quiet h := .of_eq h.folding h.vars h.decided h.hasHead
  trans h h' hs := by
    have h1 := h hs
    have h2 := h' h1.ready
    exact ⟨h2.ready, h2.decided.trans h1.decided, fun hhead => h2.hasHead (h1.hasHead hhead)⟩

theorem keeps_setVar (hx : x ∈ conds → v = .text x) : Keeps (Steadily conds) (setVar x v) := by
  refine .update fun s hs => ⟨⟨hs.folding, hs.condition, fun c hc => ?_⟩, rfl, id⟩
  by_cases hcx : c = x
  · rw [hcx, lookup_put_self, hx (hcx ▸ hc)]
    rfl
  · rw [lookup_put_of_ne hcx]
    exact hs.unknown c hc

variable (h : Keeps (Steadily conds) body)

include h

theorem keeps_tryBody : Keeps (Steadily conds) (tryBody body) := by
  refine .bind .get fun s => ?_
  split
  · exact .bind (.update fun s => .of_eq rfl rfl rfl rfl) fun _ => .bind h fun _ =>
      .bind (keeps_forgetVariants fun x => keeps_setVar fun _ => rfl) fun _ => .update fun s => .of_eq rfl rfl rfl rfl
  · exact .pure _

/-- A body is tried and then written. -/
theorem steady_of_run (hs : Ready conds s) {k : Piece → WriterM Piece}
    (hrun : (do tryBody body; k (← body)).run s = .ok p s') :
    ∃ b s1, Steady conds s s1 ∧ (k b).run s1 = .ok p s' := by
  obtain ⟨_, s1, htry, hrun⟩ := of_run_bind hrun
  obtain ⟨b, s2, hb, hrun⟩ := of_run_bind hrun
  exact ⟨b, s2, Frame.trans (keeps_tryBody h _ htry) (h _ hb) hs, hrun⟩

omit h in
/-- The first branch of a chain on an unknown condition sets the flag, whatever it was. -/
theorem run_ifThen (hs : Ready conds s) (hc : c ∈ conds) :
    (ifThen (write (.ident c)) (value (.ident c)) body).run s = (do
      tryBody body
      let b ← body
      if !b.present then return .nothing else return .braced ("if (" ++ c ++ ")") b : WriterM Piece).run
        { s with hasHead := true } := by
  rw [ifThen, run_bind_of_ok (run_get s), if_pos hs.folding, run_bind_of_ok (hs.run_value hc)]
  simp only [(hs.condition c hc).undecided, Bool.false_eq_true, if_false]
  rfl

/-- What becomes of a first branch. -/
theorem first_of_run (hs : Ready conds s) (hc : c ∈ conds)
    (hrun : (ifThen (write (.ident c)) (value (.ident c)) body).run s = .ok p s') :
    Steady conds { s with hasHead := true } s' ∧ (p = .nothing ∨ ∃ b, p = .braced ("if (" ++ c ++ ")") b) := by
  have hset : Ready conds { s with hasHead := true } := ⟨hs.folding, hs.condition, hs.unknown⟩
  rw [run_ifThen hs hc] at hrun
  obtain ⟨b, s2, hthrough, hrun⟩ := steady_of_run h hset hrun
  split at hrun
  · cases hrun
    exact ⟨hthrough, .inl rfl⟩
  · cases hrun
    exact ⟨hthrough, .inr ⟨b, rfl⟩⟩

theorem keeps_ifThen (hc : c ∈ conds) : Keeps (Steadily conds) (ifThen (write (.ident c)) (value (.ident c)) body) := by
  intro s p s' hrun hs
  have hfirst := (first_of_run h hs hc hrun).1
  exact ⟨hfirst.ready, hfirst.decided, fun _ => hfirst.hasHead rfl⟩

/-- What becomes of a further branch with a condition. -/
theorem elif_of_run (hs : Ready conds s) (hc : c ∈ conds)
    (hrun : (elifThen (write (.ident c)) (value (.ident c)) body).run s = .ok q s') :
    Steady conds s s' ∧ (s.hasHead = true →
      q = .nothing ∨ s.decided = false ∧ ∃ b, q = .braced ("else if (" ++ c ++ ")") b) := by
  rw [elifThen, run_bind_of_ok (run_get s), if_pos hs.folding, run_bind_of_ok (run_get s)] at hrun
  split at hrun
  · cases hrun
    exact ⟨⟨hs, rfl, id⟩, fun _ => .inl rfl⟩
  next hdecided =>
  rw [run_bind_of_ok (hs.run_value hc)] at hrun
  simp only [(hs.condition c hc).undecided, Bool.or_false, Bool.false_eq_true, if_false] at hrun
  obtain ⟨b, s2, hthrough, hrun⟩ := steady_of_run h hs hrun
  split at hrun
  · cases hrun
    exact ⟨hthrough, fun _ => .inl rfl⟩
  obtain ⟨_, _, ⟨⟩, hrun⟩ := of_run_bind hrun
  split at hrun
  · cases hrun
    exact ⟨hthrough, fun _ => .inr ⟨by simpa using hdecided, b, rfl⟩⟩
  next hhead =>
  cases hrun
  exact ⟨hthrough, fun h => absurd (hthrough.hasHead h) hhead⟩

/-- What becomes of a last branch. -/
theorem else_of_run (hs : Ready conds s) (hrun : (elseThen body).run s = .ok q s') :
    Steady conds s s' ∧ (s.hasHead = true → q = .nothing ∨ s.decided = false ∧ ∃ b, q = .braced "else" b) := by
  rw [elseThen, run_bind_of_ok (run_get s), if_pos hs.folding] at hrun
  obtain ⟨b, s2, hthrough, hrun⟩ := steady_of_run h hs hrun
  obtain ⟨_, _, ⟨⟩, hrun⟩ := of_run_bind hrun
  split at hrun
  · cases hrun
    exact ⟨hthrough, fun _ => .inl rfl⟩
  next hopen =>
  simp only [Bool.or_eq_true, not_or, Bool.not_eq_true] at hopen
  obtain ⟨_, _, ⟨⟩, hrun⟩ := of_run_bind hrun
  split at hrun
  · next hhead =>
    obtain ⟨_, _, hjoin, ⟨⟩⟩ := of_run_bind hrun
    obtain rfl : s2 = s' := by
      cases hb : b.joined <;> rw [hb] at hjoin <;> cases hjoin
      rfl
    exact ⟨hthrough, fun h => by simp [hthrough.hasHead h] at hhead⟩
  · obtain ⟨b', s3, hb', ⟨⟩⟩ := of_run_bind hrun
    exact ⟨Frame.trans (fun _ => hthrough) (h _ hb') hs, fun _ => .inr ⟨hthrough.decided.symm.trans hopen.1, b', rfl⟩⟩

omit h

theorem keeps_block (h : Keeps (Steadily conds) items) : Keeps (Steadily conds) (block items) :=
  .bind (.update fun _ => .of_eq rfl rfl rfl rfl) fun _ => .bind h fun _ =>
    .bind (.update fun _ => .of_eq rfl rfl rfl rfl) fun _ => .pure _

theorem exists_of_branching_assign {id v : Node} (h : (Node.assign id v).branching conds = true) :
    ∃ x, id = .ident x ∧ x ∉ conds ∧ v.simple = true := by
  cases id with
  | ident x => exact ⟨x, rfl, by simpa [Node.branching] using h⟩
  | _ => cases h

theorem exists_of_branching_ifThen {cond b : Node} (h : (Node.ifThen cond b).branching conds = true) :
    ∃ c, cond = .ident c ∧ c ∈ conds ∧ b.branching conds = true := by
  cases cond with
  | ident c => exact ⟨c, rfl, by simpa [Node.branching] using h⟩
  | _ => cases h

theorem exists_of_branching_elifThen {cond b : Node} (h : (Node.elifThen cond b).branching conds = true) :
    ∃ c, cond = .ident c ∧ c ∈ conds ∧ b.branching conds = true := by
  cases cond with
  | ident c => exact ⟨c, rfl, by simpa [Node.branching] using h⟩
  | _ => cases h

mutual

theorem keeps_write (conds : List String) : ∀ n : Node, n.branching conds = true → Keeps (Steadily conds) (write n)
  | .block items, h => by
    exact keeps_reporting _ (keeps_block (keeps_writeAll conds items h))
  | .assign id v, h => by
    obtain ⟨x, rfl, hx, hv⟩ := exists_of_branching_assign h
    exact keeps_reporting _ (keeps_assign x v (run_write_ident x) (keeps_write_simple hv) fun _ =>
      keeps_setVar fun hmem => absurd hmem hx)
  | .ifThen cond body, h => by
    obtain ⟨c, rfl, hc, hbody⟩ := exists_of_branching_ifThen h
    exact keeps_reporting _ (keeps_ifThen (keeps_write conds body hbody) hc)
  | .elifThen cond body, h => by
    obtain ⟨c, rfl, hc, hbody⟩ := exists_of_branching_elifThen h
    exact keeps_reporting _ (fun _ _ _ hrun hs => (elif_of_run (keeps_write conds body hbody) hs hc hrun).1)
  | .elseThen body, h => by
    exact keeps_reporting _ (fun _ _ _ hrun hs => (else_of_run (keeps_write conds body h) hs hrun).1)

theorem keeps_writeAll (conds : List String) :
    ∀ items : List Node, Node.branchingAll conds items = true → Keeps (Steadily conds) (writeAll items)
  | [], _ => by
    exact .pure _
  | n :: rest, h => by
    simp only [Node.branchingAll, Bool.and_eq_true] at h
    exact .bind (keeps_write conds n h.1) fun _ => .bind (keeps_writeAll conds rest h.2) fun _ => .pure _

end

/-- A branch of a chain that has its first one is left out, or written if the chain is not decided. -/
def Follows (decided : Bool) (n : Node) (q : Piece) : Prop :=
  q = .nothing ∨ decided = false ∧ ∃ b, q = .braced n.heading b

theorem follows_of_write {n : Node} (hn : n.branching conds = true) (hfurther : n.isFurther = true)
    (hs : Ready conds s) (hhead : s.hasHead = true) (hrun : (write n).run s = .ok q s') :
    Follows s.decided n q := by
  cases n with
  | elifThen cond body =>
    obtain ⟨c, rfl, hc, hbody⟩ := exists_of_branching_elifThen hn
    exact (elif_of_run (keeps_write conds body hbody) hs hc (run_of_reporting hrun)).2 hhead
  | elseThen body =>
    exact (else_of_run (keeps_write conds body hn) hs (run_of_reporting hrun)).2 hhead
  | _ => cases hfurther

theorem follows_of_writeAll (hn : Node.branchingAll conds rest = true)
    (hfurther : rest.all Node.isFurther = true) (hs : Ready conds s) (hhead : s.hasHead = true)
    (hrun : (writeAll rest).run s = .ok qs s') : List.Forall₂ (Follows s.decided) rest qs := by
  induction rest generalizing s qs with
  | nil =>
    cases hrun
    exact .nil
  | cons n rest ih =>
    simp only [Node.branchingAll, List.all_cons, Bool.and_eq_true] at hn hfurther
    obtain ⟨q, s1, hq, hrun⟩ := of_run_bind hrun
    obtain ⟨qs, s2, hqs, ⟨⟩⟩ := of_run_bind hrun
    have hstep := keeps_write conds n hn.1 _ hq hs
    have hrest := ih hn.2 hfurther.2 hstep.ready (hstep.hasHead hhead) hqs
    rw [hstep.decided] at hrest
    exact .cons (follows_of_write hn.1 hfurther.1 hs hhead hq) hrest

/-- With folding, a chain of unknown conditions is written the same whether or not an earlier chain has a
first branch in the output. Its own first branch is left out or written, and so are the further ones if no
earlier chain was decided; else they are all left out, and so are those of later chains. -/
theorem chain_of_writeAll (hs : Ready conds s) {body : Node} {rest : List Node}
    (hchain : Node.branchingAll conds (.ifThen (.ident c) body :: rest) = true)
    (hfurther : rest.all Node.isFurther = true) {ps : List Piece}
    (hrun : (writeAll (.ifThen (.ident c) body :: rest)).run s = .ok ps s') :
    (∀ b, (writeAll (.ifThen (.ident c) body :: rest)).run { s with hasHead := b } = .ok ps s') ∧
      s'.decided = s.decided ∧ ∃ p qs, ps = p :: qs ∧ (p = .nothing ∨ ∃ b, p = .braced ("if (" ++ c ++ ")") b) ∧
        List.Forall₂ (Follows s.decided) rest qs := by
  have hdecided := (keeps_writeAll conds _ hchain _ hrun hs).decided
  simp only [Node.branchingAll, Bool.and_eq_true] at hchain
  obtain ⟨_, ⟨⟩, hc, hbody⟩ := exists_of_branching_ifThen hchain.1
  obtain ⟨p, s1, hp, hrun⟩ := of_run_bind hrun
  obtain ⟨qs, s2, hqs, ⟨⟩⟩ := of_run_bind hrun
  have hinner := run_of_reporting hp
  obtain ⟨hfirst, hpiece⟩ := first_of_run (keeps_write conds body hbody) hs hc hinner
  refine ⟨fun b => ?_, hdecided, p, qs, rfl, hpiece, ?_⟩
  · have hagain : (write (.ifThen (.ident c) body)).run { s with hasHead := b } = .ok p s1 := by
      have hs' : Ready conds { s with hasHead := b } := ⟨hs.folding, hs.condition, hs.unknown⟩
      refine run_reporting_ok ((run_ifThen hs' hc).trans ?_)
      rw [← hinner, run_ifThen hs hc]
    rw [writeAll, run_bind_of_ok hagain, run_bind_of_ok hqs]
    rfl
  · have hrest := follows_of_writeAll hchain.2 hfurther hfirst.ready (hfirst.hasHead rfl) hqs
    rwa [hfirst.decided] at hrest

def twoBranches : List Node :=
  [.ifThen (.ident "c") (.assign (.ident "x") (.ident "y")), .elseThen (.assign (.ident "x") (.ident "y"))]

theorem chain_of_twoBranches : ∃ ps s', (writeAll twoBranches).run (.fresh true) = .ok ps s' ∧
    ∀ b, (writeAll twoBranches).run { Writer.fresh true with hasHead := b } = .ok ps s' := by
  have hpresent : (EStateM.run' (writeAll twoBranches) (.fresh true)).isSome = true := by decide +kernel
  have hcond : Condition "c" := ⟨⟨'c', [], rfl, by decide⟩, by decide⟩
  have hready : Ready ["c"] (.fresh true) := ⟨rfl, by simpa using hcond, by simp [Writer.fresh]⟩
  cases hrun : (writeAll twoBranches).run (.fresh true) with
  | ok ps s' => exact ⟨ps, s', rfl, (chain_of_writeAll hready (by decide) rfl hrun).1⟩
  | error e s' =>
    rw [EStateM.run', hrun] at hpresent
    cases hpresent

/-- Where an earlier chain was decided, the last branch is lost. -/
theorem twoBranches_lose_else :
    (EStateM.run' (writeAll twoBranches) (.fresh true)).map (·.map Piece.present) = some [true, true] ∧
    (EStateM.run' (writeAll twoBranches) { Writer.fresh true with decided := true }).map
      (·.map Piece.present) = some [true, false] := by
  decide +kernel

end Writer

end Tabc.Target
