import Tabc.Proofs.Core.Flattening
import Tabc.Proofs.Core.Labels
import Tabc.Proofs.Core.Steps
import Tabc.Target.Build

/-!
# Reading code back

The loops that build a tree differ only in where they end. `Reads` is what they have in common: some
instructions become statements, and `Reads.loopWith` carries any such loop through them. There is always fuel for
four steps for each instruction that is left.
-/

open List

namespace Tabc.Core

open Target Target.Build
open Target.Build (run)
open EStateM (run_bind)

variable {known : Option ScopeTable} {s s' s1 s2 : Build}

variable {fuel : Nat} {i : Instr} {q : List Instr} {a items : List Target.Node}

theorem buildInstr_ok (h : (buildCore .fourth known fuel i).run s = .ok made s') :
    (buildInstr .fourth known (fuel + 1) i).run s = .ok made s' := by
  exact run_tryCatch_ok h _

theorem run_pop (h : s.queue = i :: q) : pop.run s = .ok i { s with queue := q } := by simp [pop, h]

def itemsOf : Made → List Target.Node
  | .stmts items => items
  | .operand _ => []

def Quiet : Made → Prop
  | .stmts _ => True
  | .operand o => o = .nothing

def computes : Instr → Bool
  | .literal .. | .unary .. | .binary .. => true
  | _ => false

/-- An instruction, with all that belongs to it, is built whenever there is fuel for the code that is
left; the open chains are the same afterwards. -/
structure Does (known : Option ScopeTable) (i : Instr) (s : Build) (made : Made) (s' : Build) :
    Prop where
  shorter : s'.queue.length ≤ s.queue.length
  ends : s'.ends = s.ends
  run : ∀ fuel, 4 * s.queue.length + 3 ≤ fuel → (buildInstr .fourth known fuel i).run s = .ok made s'

/-- The next instructions are built, each as `P` says, and become these statements. -/
inductive Reads (known : Option ScopeTable) (P : Instr → Made → Prop) :
    Build → List Target.Node → Build → Prop
  | refl (s : Build) : Reads known P s [] s
  | step {s : Build} {i : Instr} {q : List Instr} {made : Made} {s1 : Build}
      {items : List Target.Node} {s2 : Build} (hq : s.queue = i :: q)
      (hi : Does known i { s with queue := q } made s1) (hP : P i made)
      (hrest : Reads known P s1 items s2) : Reads known P s (itemsOf made ++ items) s2

variable {P : Instr → Made → Prop}

theorem Reads.trans (h : Reads known P s a s1) (h' : Reads known P s1 b s2) : Reads known P s (a ++ b) s2 := by
  induction h with
  | refl s => exact h'
  | step hq hi hP _ ih => rw [List.append_assoc]; exact .step hq hi hP (ih h')

theorem Reads.one (hq : s.queue = i :: q) (hi : Does known i { s with queue := q } made s') (hP : P i made) :
    Reads known P s (itemsOf made) s' := by simpa using Reads.step hq hi hP (.refl s')

theorem Reads.mono {Q : Instr → Made → Prop} (h : Reads known P s a s')
    (hPQ : ∀ i made, P i made → Q i made) : Reads known Q s a s' := by
  induction h with
  | refl s => exact .refl s
  | step hq hi hP _ ih => exact .step hq hi (hPQ _ _ hP) ih

theorem Reads.ends (h : Reads known P s a s') : s'.ends = s.ends := by
  induction h with
  | refl s => rfl
  | step hq hi _ _ ih => exact ih.trans hi.ends

/-- Any instructions that leave no operand. -/
abbrev Statements (known : Option ScopeTable) : Build → List Target.Node → Build → Prop :=
  Reads known fun _ made => Quiet made

/-- An instruction that becomes statements by itself and neither jumps nor branches. -/
def single : Instr → Bool
  | .literal .. | .unary .. | .binary .. | .assign .. | .ret _ => true
  | _ => false

abbrev Operations (known : Option ScopeTable) : Build → List Target.Node → Build → Prop :=
  Reads known fun i made => single i = true ∧ ∃ items, made = .stmts items

/-- Instructions that compute values. -/
abbrev Computations (known : Option ScopeTable) : Build → List Target.Node → Build → Prop :=
  Reads known fun i made => computes i = true ∧ ∃ items, made = .stmts items

theorem Reads.operations (h : Computations known s a s') : Operations known s a s' := by
  refine h.mono fun i _ ⟨hi, hm⟩ => ⟨?_, hm⟩
  cases i <;> first | rfl | cases hi

theorem Reads.quiet (h : Operations known s a s') : Statements known s a s' := h.mono fun _ _ ⟨_, _, hm⟩ => hm ▸ trivial

theorem Reads.statements (h : Computations known s a s') : Statements known s a s' := h.operations.quiet

theorem hasWord_eq_false (hc : c ∈ word) : ∀ {text : List Char}, c ∉ text → hasWord word text = false
  | [], _ => by cases word <;> simp_all [hasWord]
  | d :: rest, h => by
    have hne : word.isPrefixOf (d :: rest) = false := by
      rw [Bool.eq_false_iff, ne_eq, isPrefixOf_iff_prefix]
      exact fun hp => h (hp.subset hc)
    rw [hasWord, hne]
    exact hasWord_eq_false hc fun hmem => h (mem_cons_of_mem d hmem)

theorem hasWord_of_append (word : List Char) : ∀ front back : List Char, hasWord word (front ++ word ++ back) = true
  | [], back => by rw [hasWord.eq_def]; simp
  | c :: front, back => by
    rw [cons_append, cons_append, hasWord, hasWord_of_append word front back, Bool.or_true]

theorem mark_ne_empty (n : Nat) : mark n ≠ "" := by
  intro h
  have := congrArg String.toList h
  simp [mark_toList] at this

theorem not_mem_mark (hc : c ≠ 'L' ∧ c ≠ '_' ∧ c.isDigit = false) (n : Nat) : c ∉ (mark n).toList := by
  rw [mark_toList, mem_append]
  rintro (h | h)
  · simp at h
    rcases h with rfl | rfl <;> simp at hc
  · have := Nat.isDigit_of_mem_toDigits (by decide) (by decide) h
    simp [hc.2.2] at this

theorem buildCore_mark (n fuel : Nat) : buildCore .fourth known (fuel + 1) (.label (.name (mark n))) =
    pure (.operand (.name (mark n))) := by
  have hF : 'F' ∉ (mark n).toList := not_mem_mark (by decide) n
  have hW : 'W' ∉ (mark n).toList := not_mem_mark (by decide) n
  rw [buildCore, hasWord_eq_false (by decide) hF, hasWord_eq_false (by decide) hF,
    hasWord_eq_false (by decide) hW, hasWord_eq_false (by decide) hF]
  simp

theorem buildCore_whileMark (n fuel : Nat) :
    buildCore .fourth known (fuel + 1) (.label (.name (whileMark n))) =
      (do whileHead .fourth known fuel [] (← pop)) := by
  have hF : 'F' ∉ (whileMark n).toList := by
    rw [whileMark_toList, mem_append]
    rintro (h | h)
    · simp at h
    · exact absurd (Nat.isDigit_of_mem_toDigits (by decide) (by decide) h) (by decide)
  have hW : hasWord "WHILE".toList (whileMark n).toList = true := by
    rw [whileMark_toList]
    exact hasWord_of_append "WHILE".toList "L_".toList ('_' :: Nat.toDigits 10 n)
  rw [buildCore, hasWord_eq_false (by decide) hF, hasWord_eq_false (by decide) hF, hW]
  simp

theorem run_label (n : Nat) (hfuel : 2 ≤ fuel) :
    (buildInstr .fourth known fuel (.label (.name (mark n)))).run s = .ok (.operand (.name (mark n))) s := by
  obtain ⟨fuel, rfl⟩ : ∃ k, fuel = k + 2 := ⟨fuel - 2, by omega⟩
  exact buildInstr_ok (by rw [buildCore_mark]; rfl)

/-- A loop takes an instruction, builds it and adds what was made, if that is as `P` says and the state then as
`I` says. -/
def Loops {α : Type} (known : Option ScopeTable) (P : Instr → Made → Prop) (I : Build → Prop)
    (loop : Nat → List Target.Node → BuildM α) : Prop :=
  ∀ fuel acc s i q made s1, s.queue = i :: q → P i made → I s1 →
    (buildInstr .fourth known fuel i).run { s with queue := q } = .ok made s1 →
    (loop (fuel + 1) acc).run s = (loop fuel (acc ++ itemsOf made)).run s1

section Loops

variable {α : Type} {I : Build → Prop} {f : Nat → List Target.Node → BuildM α}

theorem Loops.mono {Q : Instr → Made → Prop} (h : Loops known P I f) (hQP : ∀ i made, Q i made → P i made) :
    Loops known Q I f := fun fuel acc s i q made s1 hq hQ => h fuel acc s i q made s1 hq (hQP i made hQ)

/-- A loop comes through a reading. The state keeps a property on the way. -/
theorem Reads.loopWith (hI : ∀ {i q made s s1}, P i made → Does known i { s with queue := q } made s1 → I s → I s1)
    (hstep : Loops known P I f) (h : Reads known P s items s') (hs : I s) (k : Nat) :
    ∀ (fuel : Nat) (acc : List Target.Node), 4 * s.queue.length + k ≤ fuel →
    ∃ fuel', I s' ∧ 4 * s'.queue.length + k ≤ fuel' ∧ (f fuel acc).run s = (f fuel' (acc ++ items)).run s' := by
  induction h with
  | refl s => exact fun fuel acc hfuel => ⟨fuel, hs, hfuel, by simp⟩
  | @step s i q made s1 items s2 hq hi hP _ ih =>
    intro fuel acc hfuel
    have hlen := hi.shorter
    have hs1 := hI hP hi hs
    simp only [hq, length_cons] at hfuel hlen
    obtain _ | fuel := fuel
    · omega
    obtain ⟨fuel', hs', hfuel', hloop⟩ := ih hs1 fuel (acc ++ itemsOf made) (by omega)
    refine ⟨fuel', hs', hfuel', ?_⟩
    rw [hstep fuel acc s i q made s1 hq hP hs1 (hi.run fuel (by simp; omega)), hloop, List.append_assoc]

/-- The loop comes to an instruction behind a reading, with fuel for what follows. -/
theorem Reads.loop {ends : List (Operand × Nat)} (hstep : Loops known P (fun s => s.ends = ends) f)
    (h : Reads known P s items s') (hends : s.ends = ends) (hq : s'.queue = i :: q)
    (hfuel : 4 * s.queue.length ≤ fuel) :
    ∃ k, 4 * q.length + 3 ≤ k ∧ (f fuel []).run s = (f (k + 1) items).run s' := by
  obtain ⟨fuel', -, hfuel', hloop⟩ := h.loopWith (fun _ hi hs => hi.ends.trans hs) hstep hends 0 fuel [] hfuel
  rw [hq, length_cons] at hfuel'
  obtain _ | k := fuel'
  · omega
  exact ⟨k, by omega, hloop⟩

attribute [local simp] itemsOf Made.present Made.isLabel Made.addTo Operand.present

theorem loops_body (x : Operand) :
    Loops known (fun _ made => Quiet made) I fun fuel acc => body .fourth known fuel x acc := by
  intro fuel acc s i q made s1 hq hmade _ hrun
  beta_reduce
  rw [body]
  simp only [run_bind, run_pop hq, hrun]
  rcases made with (- | ⟨-, -⟩) | o
  · simp
  · simp
  · obtain rfl : o = .nothing := hmade
    simp

theorem loops_otherwise (e : Operand × Nat) (ends : List (Operand × Nat)) :
    Loops known (fun _ made => Quiet made) (fun s => s.ends = e :: ends)
      (fun fuel acc => do otherwise .fourth known fuel acc (← pop)) := by
  intro fuel acc s i q made s1 hq hmade hends hrun
  simp only [run_bind, run_pop hq]
  rw [otherwise]
  simp only [run_bind, hrun]
  rcases made with (- | ⟨-, -⟩) | o
  · simp
  · simp [endLabel, hends]
  · obtain rfl : o = .nothing := hmade
    simp

theorem loops_condition : Loops known (fun i made => Quiet made ∧ ∀ x c, i ≠ .elseBranch x c) I
    (fun fuel acc => do condition .fourth known fuel acc (← pop)) := by
  rintro fuel acc s i q made s1 hq ⟨hmade, hi⟩ - hrun
  simp only [run_bind, run_pop hq]
  rw [condition.eq_3 _ _ _ _ _ hi]
  simp only [run_bind, hrun]
  rcases made with (- | ⟨-, -⟩) | o
  · simp
  · simp
  · obtain rfl : o = .nothing := hmade
    simp

theorem computes_ne_branch (h : computes i = true) (x c : Operand) : i ≠ .branch x c ∧ i ≠ .elseBranch x c := by
  constructor <;> rintro rfl <;> cases h

theorem loops_whileHead : Loops known (fun i made => computes i = true ∧ ∃ items, made = .stmts items) I
    (fun fuel acc => do whileHead .fourth known fuel acc (← pop)) := by
  rintro fuel acc s i q _ s1 hq ⟨hi, items, rfl⟩ - hrun
  simp only [run_bind, run_pop hq]
  rw [whileHead.eq_3 _ _ _ _ _ fun x c => (computes_ne_branch hi x c).1]
  simp only [run_bind, hrun]
  simp

theorem loops_program : Loops known (fun _ made => Quiet made) I (program .fourth known) := by
  intro fuel acc s i q made s1 hq hmade _ hrun
  rw [program]
  simp only [run_bind, EStateM.run_get, hq, run_pop hq, hrun]
  rcases made with items | o
  · simp
  · obtain rfl : o = .nothing := hmade
    simp

end Loops

theorem run_body {n : Nat} (h : Statements known s items s')
    (hq : s'.queue = .label (.name (mark n)) :: q) (hfuel : 4 * s.queue.length ≤ fuel) :
    (body .fourth known fuel (.name (mark n)) []).run s = .ok items { s' with queue := q } := by
  obtain ⟨k, hk, hloop⟩ := h.loop (loops_body _) rfl hq hfuel
  rw [hloop, body]
  simp [run_pop hq, run_label n (show 2 ≤ k by omega), Made.isLabel, Operand.present, Operand.same, mark_ne_empty]

theorem run_otherwise {n k : Nat} {ends : List (Operand × Nat)} {q : List Instr} (h : Statements known s items s')
    (hends : s.ends = (.name (mark n), k) :: ends)
    (hq : s'.queue = .label (.name (mark n)) :: q) {fuel : Nat}
    (hfuel : 4 * s.queue.length ≤ fuel) :
    (do otherwise .fourth known fuel [] (← pop)).run s = .ok items { s' with queue := q } := by
  obtain ⟨k, hk, hloop⟩ := h.loop (loops_otherwise _ _) hends hq hfuel
  rw [hloop]
  simp only [run_bind, run_pop hq]
  rw [otherwise]
  simp [run_label n (show 2 ≤ k by omega), Made.isLabel, Made.present, Operand.present, Operand.same,
    mark_ne_empty, endLabel, h.ends.trans hends]

theorem run_condition (h : Computations known s items s')
    (hq : s'.queue = .elseBranch l c :: q) (hfuel : 4 * s.queue.length ≤ fuel) :
    (do condition .fourth known fuel [] (← pop)).run s = .ok (items, c) { s' with queue := q } := by
  obtain ⟨k, -, hloop⟩ := h.loop (loops_condition.mono fun _ _ ⟨hi, _, hmade⟩ =>
    ⟨hmade ▸ trivial, fun x c => (computes_ne_branch hi x c).2⟩) rfl hq hfuel
  rw [hloop]
  simp [run_pop hq, condition]

theorem run_whileHead {head : List Target.Node} {n : Nat} {c : String} {q' : List Instr}
    (h : Computations known s head s1) (hq : s1.queue = .branch (.name (mark n)) (.name c) :: q)
    (hbody : Statements known { s1 with queue := q } items s')
    (hq' : s'.queue = .label (.name (mark n)) :: q') (hfuel : 4 * s.queue.length ≤ fuel) :
    (do whileHead .fourth known fuel [] (← pop)).run s =
      .ok (.stmts (head ++ [.whileDo (.ident c) (.block (items ++ head.getLast?.toList))]))
        { s' with queue := q' } := by
  obtain ⟨k, hk, hloop⟩ := h.loop loops_whileHead rfl hq hfuel
  rw [hloop]
  simp only [run_bind, run_pop hq]
  rw [whileHead]
  simp [ident, run_body hbody hq' (show 4 * q.length ≤ k by omega)]

theorem run_program (h : Statements known s items s') (hq : s'.queue = []) (hfuel : 4 * s.queue.length + 4 ≤ fuel) :
    (program .fourth known fuel []).run s = .ok items s' := by
  obtain ⟨fuel', -, hfuel', hloop⟩ := h.loopWith (fun _ _ _ => trivial) loops_program trivial
    4 fuel [] hfuel
  obtain _ | k := fuel'
  · omega
  rw [hloop, program]
  simp [hq]

/-- The tree that is built from the code of a state. -/
def rebuilt (known : Option ScopeTable) (s : Build) : Option Target.Node :=
  match (run .fourth known s.queue).run s with
  | .ok tree _ => some tree
  | .error .. => none

theorem rebuilt_eq_some_iff : rebuilt known s = some tree ↔ ∃ s', (run .fourth known s.queue).run s = .ok tree s' := by
  unfold rebuilt
  split <;> simp_all

theorem run_of_statements (h : Statements known s items s') (hq : s'.queue = []) :
    (run .fourth known s.queue).run s = .ok (.block (Target.Node.settleAll s'.part items)) s' := by
  rw [run]
  simp [run_program h hq (show _ ≤ fuelFor s.queue.length by simp [fuelFor])]

end Tabc.Core
