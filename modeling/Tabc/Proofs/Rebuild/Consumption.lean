import Tabc.Proofs.Rebuild.Chains
import Tabc.Proofs.Rebuild.Stillness

/-!
# What building takes off the code

Building only ever takes instructions off the front of the code, and for each jump that it takes off it
waits for a label (`Used`). In code as core programs have it (`Simple`), a body that is built up to a
label has taken that label off (`label_mem_of_body`).
-/

open List

namespace Tabc.Core

open Target Target.Build
open EStateM (run_bind run_get)

variable {known : Option ScopeTable} {s s' : Build} {α β : Type}

/-- The state before an instruction was taken off. -/
def back (i : Instr) (s : Build) : Build := { s with queue := i :: s.queue }

variable {i : Instr} {fuel : Nat}

theorem eq_of_run_pop (h : pop.run s = .ok i s') : s.queue = i :: s'.queue ∧ s' = { s with queue := s'.queue } := by
  cases hq : s.queue with
  | nil =>
    simp only [pop, run_bind, run_get, hq] at h
    cases h
  | cons j q =>
    rw [run_pop hq] at h
    cases h
    exact ⟨rfl, rfl⟩

theorem eq_back_of_run_pop (h : pop.run s = .ok i s') : s = back i s' := by
  obtain ⟨hq, hs'⟩ := eq_of_run_pop h
  rw [hs', back, ← hq]

/-- A step that makes statements, if it does not fail. -/
def Makes (act : BuildM Made) : Prop := ∀ s a s', act.run s = .ok a s' → ∃ items, a = .stmts items ∧ items ≠ []

namespace Makes

theorem stmts (h : items ≠ []) : Makes (pure (.stmts items)) :=
  fun _ _ _ hrun => by
    cases hrun
    exact ⟨items, rfl, h⟩

theorem throw (e : Fault) : Makes (throw e) := fun _ _ _ h => by cases h

theorem bind {f : α → BuildM Made} (hf : ∀ a, Makes (f a)) : Makes (x >>= f) := by
  intro s a s' h
  obtain ⟨b, s1, -, h'⟩ := of_run_bind h
  exact hf b s1 a s' h'

end Makes

theorem makes_literal (o : Operand) (a : Atom) : Makes (literal .fourth o a) :=
  .bind fun _ => .bind fun _ => .stmts (cons_ne_nil _ _)

theorem makes_unary (o : Operand) (op : String) (a : Operand) : Makes (unary .fourth o op a) := by
  have hnew : ∀ id x t, Makes (do
      declare o t
      return Made.stmts [.declaration id (.type t), .unary id (.type t) op x]) := fun _ _ _ =>
    .bind fun _ => .stmts (cons_ne_nil _ _)
  exact .bind fun id => .bind fun x => .bind fun _ =>
    of_ite (of_ite (.bind (hnew id x)) (.bind (hnew id x))) (.bind fun _ => .throw _)

theorem makes_binary (o a b : Operand) (op : String) : Makes (binary .fourth o a b op) :=
  .bind fun _ => .bind fun _ => .bind fun _ => .bind fun _ =>
    of_ite (.bind fun _ => .bind fun _ => .stmts (cons_ne_nil _ _)) (.bind fun _ => .throw _)

theorem makes_assign (o a : Operand) : Makes (Target.Build.assign .fourth known o a) := by
  refine .bind fun id => .bind fun new => of_ite (.bind fun found => ?_) (.stmts (cons_ne_nil _ _))
  have hnew : ∀ t, Makes (do
      declare o t
      return Made.stmts [.declaration id (.type t), .assign id (.ofOperand a)]) := fun _ =>
    .bind fun _ => .stmts (cons_ne_nil _ _)
  cases found with
  | none => exact .throw _
  | some own =>
    cases own with
    | prim p => exact .bind hnew
    | _ => exact .bind fun _ => .bind fun _ => .bind fun _ => .bind fun _ => hnew _

theorem makes_more : ∀ (fuel : Nat) {acc : List Target.Node} (i : Instr), acc ≠ [] →
    Makes (more .fourth known fuel acc i)
  | 0, _, _, _ => by rw [more]; exact .throw _
  | fuel + 1, acc, i, hacc => by
    rw [more]
    simp only [openChainScope, closeChainScope, pure_bind, bind_pure]
    refine .bind fun _ => .bind fun _ => .bind fun next => ?_
    cases next with
    | finish => exact .bind fun _ => .stmts hacc
    | otherwise => exact .bind fun _ => .bind fun _ => .stmts (by simp)
    | condition x =>
      exact .bind fun _ => .bind fun _ => .bind fun _ => .bind fun _ => .bind fun j => makes_more fuel j (by simp)

theorem makes_chain (fuel : Nat) (x c : Operand) : Makes (chain .fourth known fuel x c) := by
  obtain _ | fuel := fuel
  · rw [chain]; exact .throw _
  rw [chain]
  simp only [openChainScope, closeChainScope, pure_bind, bind_pure]
  exact .bind fun _ => .bind fun _ => .bind fun _ => .bind fun _ => .bind fun _ => .bind fun i =>
    makes_more fuel i (cons_ne_nil _ _)

theorem makes_whileHead : ∀ (fuel : Nat) (acc : List Target.Node) (i : Instr),
    Makes (whileHead .fourth known fuel acc i)
  | 0, _, _ => by rw [whileHead]; exact .throw _
  | fuel + 1, acc, i => by
    cases i with
    | branch x c => exact .bind fun _ => .bind fun _ => .stmts (by simp)
    | _ => exact .bind fun _ => .bind fun _ => .bind fun j => makes_whileHead fuel _ j

/-- Instructions as they stand in the code of programs with assignments, loops with a condition and
chains, and of the functions of such statements. -/
def Simple : Instr → Prop
  | .label (.name x) => ∃ n, x = mark n ∨ x = whileMark n
  | .goto _ | .literal .. | .unary .. | .binary .. | .assign .. | .branch .. | .elseBranch .. => True
  | .ret _ => True
  | _ => False

def AllSimple (s : Build) : Prop := ∀ i ∈ s.queue, Simple i

theorem AllSimple.suffix (h : AllSimple s) (hs : s'.queue <:+ s.queue) : AllSimple s' := fun i hi => h i (hs.subset hi)

theorem run_buildCore_of_buildInstr (h : (buildInstr .fourth known (fuel + 1) i).run s = .ok made s') :
    (buildCore .fourth known fuel i).run s = .ok made s' := by
  rw [buildInstr] at h
  simp only [EStateM.run, tryCatch, tryCatchThe, MonadExceptOf.tryCatch, EStateM.tryCatch] at h ⊢
  cases hcore : buildCore .fourth known fuel i s with
  | ok a s1 => rwa [hcore] at h
  | error e s1 =>
    rw [hcore] at h
    dsimp only at h
    split at h <;> cases h

/-- The label that is waited for because of an instruction, if some labels have been seen. -/
def jump? (seen : List Operand) : Instr → Option Operand
  | .goto label => if seen.any (·.same label) then none else some label
  | _ => none

/-- The labels that are waited for when all the code is read, the last one first. -/
def jumps (s : Build) : List Operand := (s.queue.filterMap (jump? s.seen)).reverse ++ s.waiting

/-- From one state to another, instructions were taken off the front of the code, and the labels of
their jumps are waited for. -/
structure Used (s s' : Build) : Prop where
  queue : s'.queue <:+ s.queue
  seen : s'.seen = s.seen
  jumps : jumps s' = jumps s

theorem Used.trans (h : Used s s1) (h' : Used s1 s') : Used s s' :=
  ⟨h'.queue.trans h.queue, h'.seen.trans h.seen, h'.jumps.trans h.jumps⟩

theorem Used.of_left (h : Build.left s' = Build.left s) : Used s s' := by
  simp only [Build.left, Prod.mk.injEq] at h
  exact ⟨h.1 ▸ suffix_rfl, h.2.1, by rw [Core.jumps, Core.jumps, h.1, h.2.1, h.2.2]⟩

theorem Used.back (hi : jump? s.seen i = none) : Used (back i s) s :=
  ⟨suffix_cons i s.queue, rfl, by simp [Core.jumps, Core.back, hi]⟩

/-- A step that uses simple code, if it does not fail. -/
def Uses (act : BuildM α) : Prop := ∀ s a s', AllSimple s → act.run s = .ok a s' → Used s s'

/-- A step that uses simple code together with an instruction that was taken off. -/
def UsesFrom (i : Instr) (act : BuildM α) : Prop :=
  ∀ s a s', AllSimple (back i s) → act.run s = .ok a s' → Used (back i s) s'

section Uses

variable {act x : BuildM α} {f : α → BuildM β} {i : Instr}

theorem Spares.uses (h : Still act) : Uses act := fun _ _ _ _ hrun => .of_left (h.left_eq hrun)

theorem Uses.pure (a : α) : Uses (pure a : BuildM α) := Spares.uses (.pure a)

theorem Uses.ofExcept (x : Except Fault α) : Uses (MonadExcept.ofExcept x : BuildM α) := by
  intro s a s' _ hrun
  rw [(eq_of_run_ofExcept hrun).2]
  exact .of_left rfl

theorem Uses.bind (hx : Uses x) (hf : ∀ a, Uses (f a)) : Uses (x >>= f) := by
  intro s b s' hs h
  obtain ⟨a, s1, h1, h2⟩ := of_run_bind h
  have hused := hx s a s1 hs h1
  exact hused.trans (hf a s1 b s' (hs.suffix hused.queue) h2)

theorem Uses.pop {f : Instr → BuildM β} (hf : ∀ i, UsesFrom i (f i)) : Uses (pop >>= f) := by
  intro s b s' hs h
  obtain ⟨i, s1, hpop, h1⟩ := of_run_bind h
  cases eq_back_of_run_pop hpop
  exact hf i s1 b s' hs h1

theorem UsesFrom.bind (hx : UsesFrom i x) (hf : ∀ a, Uses (f a)) : UsesFrom i (x >>= f) := by
  intro s b s' hs h
  obtain ⟨a, s1, h1, h2⟩ := of_run_bind h
  have hused := hx s a s1 hs h1
  exact hused.trans (hf a s1 b s' (hs.suffix hused.queue) h2)

theorem Uses.from (h : Uses act) (hi : ∀ seen, jump? seen i = none) : UsesFrom i act :=
  fun s a s' hs hrun => (Used.back (hi s.seen)).trans (h s a s' (hs.suffix (suffix_cons i s.queue)) hrun)

theorem usesFrom_goto (o : Operand) : UsesFrom (.goto o) (goto o) := by
  intro s a s' _ h
  rw [goto] at h
  simp only [run_bind, run_get] at h
  split at h
  · rename_i hseen
    cases h
    exact .back (by simp [jump?, hseen])
  · rename_i hseen
    cases h
    exact ⟨suffix_cons _ _, rfl, by simp [jumps, back, jump?, hseen]⟩

end Uses

/-- The steps of building use simple code. -/
structure Consumes (known : Option ScopeTable) (fuel : Nat) : Prop where
  instr : ∀ i, UsesFrom i (buildInstr .fourth known fuel i)
  core : ∀ i, UsesFrom i (buildCore .fourth known fuel i)
  body : ∀ x acc, Uses (body .fourth known fuel x acc)
  chain : ∀ x c, Uses (chain .fourth known fuel x c)
  more : ∀ acc i, UsesFrom i (more .fourth known fuel acc i)
  otherwise : ∀ acc i, UsesFrom i (otherwise .fourth known fuel acc i)
  condition : ∀ acc i, UsesFrom i (condition .fourth known fuel acc i)
  whileHead : ∀ acc i, UsesFrom i (whileHead .fourth known fuel acc i)

theorem continuation_ne_finish (ends : List (Operand × Nat)) (q : List Instr) :
    continuation ends false q ≠ .ok .finish := by
  induction q with
  | nil => rintro ⟨⟩
  | cons i q ih =>
    cases i with
    | elseBranch x c => rintro ⟨⟩
    | label o =>
      rw [continuation.eq_def]
      dsimp only
      split
      · rintro ⟨⟩
      split
      · rintro ⟨⟩
      · exact ih
    | _ => exact ih

theorem exists_label_of_finish {ends : List (Operand × Nat)}
    (h : continuation ends true (i :: q) = .ok .finish) : ∃ o, i = .label o := by
  cases i with
  | label o => exact ⟨o, rfl⟩
  | elseBranch x c => cases h
  | _ => exact absurd h (continuation_ne_finish ends q)

section Step

variable {fuel : Nat} (ih : Consumes known fuel)

include ih

/-- An instruction is a jump or a label that stands for itself, or it uses code and makes statements. -/
theorem core_cases (hi : Simple i) :
    (∃ o, i = .goto o) ∨ (∃ n, i = .label (.name (mark n))) ∨ (∀ seen, jump? seen i = none) ∧
      Uses (buildCore .fourth known (fuel + 1) i) ∧ Makes (buildCore .fourth known (fuel + 1) i) := by
  have hstill : ∀ {act : BuildM Made}, Still act → Makes act → Uses act ∧ Makes act :=
    fun hact hmakes => ⟨hact.uses, hmakes⟩
  cases i with
  | goto o => exact .inl ⟨o, rfl⟩
  | label o =>
    cases o with
    | name x =>
      obtain ⟨n, rfl | rfl⟩ := hi
      · exact .inr (.inl ⟨n, rfl⟩)
      · rw [buildCore_whileMark]
        exact .inr (.inr ⟨fun _ => rfl, .pop fun j => ih.whileHead [] j, .bind fun j => makes_whileHead fuel [] j⟩)
    | _ => exact hi.elim
  | literal | unary | binary | assign | ret | branch | elseBranch =>
    refine .inr (.inr ⟨fun _ => rfl, ?_⟩)
    first
    | exact hstill (still_literal _ _) (makes_literal _ _)
    | exact hstill (still_unary _ _ _) (makes_unary _ _ _)
    | exact hstill (still_binary _ _ _ _) (makes_binary _ _ _ _)
    | exact hstill (still_assign _ _ _) (makes_assign _ _)
    | exact hstill (still_ret _) (.bind fun _ => .stmts (cons_ne_nil _ _))
    | exact ⟨ih.chain _ _, makes_chain fuel _ _⟩
    | exact hstill (.throw (by simp)) (.throw _)
  | _ => exact hi.elim

theorem usesFrom_core (i : Instr) : UsesFrom i (buildCore .fourth known (fuel + 1) i) := by
  intro s a s' hs h
  rcases core_cases ih (hs i (.head _)) with ⟨o, rfl⟩ | ⟨n, rfl⟩ | ⟨hjump, huses, -⟩
  · exact usesFrom_goto o s a s' hs h
  · rw [buildCore_mark] at h
    exact (Uses.pure _).from (fun _ => rfl) s a s' hs h
  · exact huses.from hjump s a s' hs h

theorem uses_body (x : Operand) (acc : List Target.Node) : Uses (body .fourth known (fuel + 1) x acc) := by
  exact .pop fun i => (ih.instr i).bind fun made => of_ite (.pure _)
    (of_ite (.bind (.ofExcept _) fun _ => ih.body x _) (ih.body x acc))

theorem uses_chain (x c : Operand) : Uses (chain .fourth known (fuel + 1) x c) := by
  rw [chain]
  simp only [openChainScope, closeChainScope, pure_bind, bind_pure]
  exact .bind (Spares.uses .get) fun _ => .bind (.ofExcept _) fun _ =>
    .bind (Spares.uses (.modify fun _ => rfl)) fun _ => .bind (.ofExcept _) fun _ =>
    .bind (ih.body x []) fun _ => .pop fun i => ih.more _ i

section

variable (acc : List Target.Node)

include acc

theorem usesFrom_otherwise (i : Instr) : UsesFrom i (otherwise .fourth known (fuel + 1) acc i) := by
  exact (ih.instr i).bind fun made => of_ite
    (still_endLabel.uses.bind fun _ => of_ite (.pure _)
      (.bind (.ofExcept _) fun _ => .pop fun j => ih.otherwise _ j))
    (.pop fun j => ih.otherwise acc j)

theorem usesFrom_condition (i : Instr) : UsesFrom i (condition .fourth known (fuel + 1) acc i) := by
  cases i with
  | elseBranch x c => exact (Uses.pure _).from fun _ => rfl
  | _ =>
    refine (ih.instr _).bind fun made => ?_
    have hrest : ∀ acc, Uses (do condition .fourth known fuel acc (← pop)) := fun acc =>
      .pop fun j => ih.condition acc j
    split
    · exact hrest acc
    · exact .bind (.ofExcept _) hrest

theorem usesFrom_whileHead (i : Instr) : UsesFrom i (whileHead .fourth known (fuel + 1) acc i) := by
  cases i with
  | branch x c => exact (Uses.bind (.ofExcept _) fun _ => (ih.body x []).bind fun _ => .pure _).from fun _ => rfl
  | _ => exact (ih.instr _).bind fun _ => .bind (.ofExcept _) fun _ => .pop fun j => ih.whileHead _ j

theorem usesFrom_more (i : Instr) : UsesFrom i (more .fourth known (fuel + 1) acc i) := by
  intro s a s' hs h
  rw [more] at h
  simp only [openChainScope, closeChainScope, pure_bind, bind_pure] at h
  have h1 := of_run_bind_ok h rfl
  have h2 := of_run_bind_ok h1 rfl
  obtain ⟨next, s1, hnext, h3⟩ := of_run_bind h2
  obtain ⟨hnext, hs1⟩ := eq_of_run_ofExcept hnext
  rw [hs1] at h3
  have huses : ∀ {act : BuildM Made}, UsesFrom i act → act.run s = .ok a s' → Used (back i s) s' :=
    fun hact hrun => hact s a s' hs hrun
  cases next with
  | finish =>
    obtain ⟨o, rfl⟩ := exists_label_of_finish hnext
    exact huses ((still_endChain.uses.bind fun _ => .pure _).from fun _ => rfl) h3
  | otherwise => exact huses ((ih.otherwise [] i).bind fun _ => .bind still_endChain.uses fun _ => .pure _) h3
  | condition x =>
    exact huses ((ih.condition [] i).bind fun _ => .bind (still_insertCondition _ _).uses fun _ =>
      .bind (.ofExcept _) fun _ => .bind (ih.body x []) fun _ => .pop fun j => ih.more _ j) h3

end

end Step

theorem consumes : ∀ fuel, Consumes known fuel
  | 0 => by constructor <;> (intros; intro s a s' _ h; cases h)
  | fuel + 1 =>
    have ih := consumes fuel
    ⟨fun i s a s' hs h => ih.core i s a s' hs (run_buildCore_of_buildInstr h), usesFrom_core ih, uses_body ih,
      uses_chain ih, usesFrom_more ih, usesFrom_otherwise ih, usesFrom_condition ih, usesFrom_whileHead ih⟩

/-- An instruction becomes statements, or it is a label and stands for itself. Only a jump becomes no
statements, and it takes nothing off. -/
theorem made_of_instr (hi : Simple i)
    (h : (buildInstr .fourth known fuel i).run s = .ok made s') :
    (∃ items, made = .stmts items ∧ (items = [] → (∃ o, i = .goto o) ∧ s'.queue = s.queue)) ∨
      ∃ n, i = .label (.name (mark n)) ∧ made = .operand (.name (mark n)) ∧ s' = s := by
  obtain ⟨fuel, rfl⟩ : ∃ k, fuel = k + 2 := by
    rcases fuel with - | - | k
    · rw [buildInstr] at h; cases h
    · have hcore := run_buildCore_of_buildInstr h
      rw [buildCore] at hcore; cases hcore
    · exact ⟨k, rfl⟩
  have hcore := run_buildCore_of_buildInstr h
  rcases core_cases (consumes fuel) hi with ⟨o, rfl⟩ | ⟨n, rfl⟩ | ⟨-, -, hmakes⟩
  · rw [buildCore, goto] at hcore
    simp only [run_bind, run_get] at hcore
    refine .inl ?_
    split at hcore <;> cases hcore <;> exact ⟨[], rfl, fun _ => ⟨⟨o, rfl⟩, rfl⟩⟩
  · rw [buildCore_mark] at hcore
    cases hcore
    exact .inr ⟨n, rfl, rfl, rfl⟩
  · obtain ⟨items, rfl, hne⟩ := hmakes _ _ _ hcore
    exact .inl ⟨items, rfl, fun hnil => absurd hnil hne⟩

theorem label_mem_of_body {x : String} (hs : AllSimple s)
    (h : (body .fourth known fuel (.name x) acc).run s = .ok items s') :
    .label (.name x) ∈ s.queue := by
  induction fuel generalizing s acc with
  | zero => rw [body] at h; cases h
  | succ fuel ih =>
    obtain ⟨i, s1, hpop, h1⟩ := of_run_bind h
    obtain ⟨made, s2, hmade, h2⟩ := of_run_bind h1
    cases eq_back_of_run_pop hpop
    have hused := (consumes fuel).instr i s1 made s2 hs hmade
    have hrest : ∀ {acc}, (body .fourth known fuel (.name x) acc).run s2 = .ok items s' →
        .label (.name x) ∈ (back i s1).queue := fun h => hused.queue.subset (ih (hs.suffix hused.queue) h)
    split at h2
    · rename_i hx
      rcases made_of_instr (hs i (.head _)) hmade with ⟨new, rfl, -⟩ | ⟨n, rfl, rfl, -⟩
      · cases hx
      · obtain rfl : mark n = x := by simpa [Made.isLabel, Operand.same, Operand.present, mark_ne_empty] using hx
        exact (.head _)
    · split at h2
      · obtain ⟨acc', s3, hacc, h3⟩ := of_run_bind h2
        rw [(eq_of_run_ofExcept hacc).2] at h3
        exact hrest h3
      · exact hrest h2

end Tabc.Core
