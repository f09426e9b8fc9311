import Tabc.Proofs.Declaration.Expressions

/-!
# What flattening does to labels and jumps

Every step of flattening adds to the code, maybe in the middle, so labels and jumps are compared up to their
order (`Adds`). An expression adds neither (`quiet_flatten`).
-/

open List

namespace Tabc.Core.Jumps

open Flat Declaration

/-- The label that an instruction may go to. -/
def targetOf? : Instr → Option String
  | .goto (.name l) => some l
  | .branch (.name l) _ => some l
  | .elseBranch (.name l) _ => some l
  | _ => none

def targets (code : List Instr) : List String := code.filterMap targetOf?

/-- Code that is put between two parts of other code. -/
theorem perm_insert (old new : List Instr) (spot : Nat) :
    (old.take spot ++ new ++ old.drop spot).Perm (old ++ new) := by
  rw [List.append_assoc]
  refine (perm_append_comm.append_left _).trans ?_
  rw [← List.append_assoc, take_append_drop]

/-- From one state to another the code gets these labels and these jumps, wherever they are put. -/
structure Adds (s s' : Flat) (marks jumps : List String) : Prop where
  marks : (labels s'.code).Perm (labels s.code ++ marks)
  jumps : (targets s'.code).Perm (targets s.code ++ jumps)

namespace Adds

variable {s s1 s' : Flat} {marks marks' jumps jumps' : List String}

theorem refl (h : s'.code = s.code) : Adds s s' [] [] := by constructor <;> simp [h]

theorem trans (h : Adds s s1 marks jumps) (h' : Adds s1 s' marks' jumps') :
    Adds s s' (marks ++ marks') (jumps ++ jumps') := by
  constructor
  · rw [← List.append_assoc]
    exact h'.marks.trans (h.marks.append_right marks')
  · rw [← List.append_assoc]
    exact h'.jumps.trans (h.jumps.append_right jumps')

theorem perm (h : Adds s s' marks jumps) (hmarks : marks.Perm marks') : Adds s s' marks' jumps :=
  ⟨h.marks.trans (hmarks.append_left _), h.jumps⟩

theorem append (new : List Instr) (h : s'.code = s.code ++ new) : Adds s s' (labels new) (targets new) := by
  constructor <;> simp [h, labels, targets]

theorem splice (hs : s.code = old) (h1 : s1.code = []) (hnew : Adds s1 s' marks jumps) (hcode : s'.code = new)
    (h : s''.code = old.take spot ++ new ++ old.drop spot) : Adds s s'' marks jumps := by
  have hperm : s''.code.Perm (s.code ++ s'.code) := by
    rw [h, hs, hcode]
    exact perm_insert ..
  have hmarks := hnew.marks
  have hjumps := hnew.jumps
  rw [h1] at hmarks hjumps
  constructor
  · have := hperm.filterMap labelOf?
    rw [filterMap_append] at this
    exact this.trans (hmarks.append_left _)
  · have := hperm.filterMap targetOf?
    rw [filterMap_append] at this
    exact this.trans (hjumps.append_left _)

end Adds

variable {α β : Type}

/-- From one state to another no label and no jump is added, no label is counted and no chain is begun or
ended. -/
structure Calm (s s' : Flat) : Prop where
  adds : Adds s s' [] []
  labels : s'.labels = s.labels
  chains : s'.chains = s.chains

theorem Calm.trans (h : Calm s s1) (h' : Calm s1 s') : Calm s s' :=
  ⟨h.adds.trans h'.adds, h'.labels.trans h.labels, h'.chains.trans h.chains⟩

instance : Std.Refl Calm := ⟨fun _ => ⟨.refl rfl, rfl, rfl⟩⟩

instance : IsTrans Flat Calm := ⟨fun _ _ _ => .trans⟩

/-- A step that leaves labels, jumps and open chains alone. -/
abbrev Quiet (x : FlatM α) : Prop := Along Calm x

namespace Quiet

theorem emit (hlabel : labelOf? i = none) (htarget : targetOf? i = none) : Quiet (emit i) := by
  intro s a s' h
  cases h
  have hadds : Adds s { s with code := s.code ++ [i] } (labels [i]) (targets [i]) := .append [i] rfl
  simp only [Core.labels, targets, filterMap_cons, hlabel, htarget, filterMap_nil] at hadds
  exact ⟨hadds, rfl, rfl⟩

theorem newRegister : Quiet (newRegister .fourth) := by
  intro s a s' h
  cases h
  exact ⟨.refl rfl, rfl, rfl⟩

theorem emitParams : ∀ ps : List Node, Quiet (emitParams .fourth ps)
  | [] => .pure ()
  | p :: rest => by
    refine newRegister.bind fun r => ?_
    cases p with
    | param type var => exact (emit rfl rfl).bind fun _ => emitParams rest
    | _ => exact (Along.throw _).bind fun _ => emitParams rest

theorem of_evaluation (hx : Evaluation x) : Quiet x := by
  intro s a s' h
  obtain ⟨new, hnew, hcode, hchains, -, hcount⟩ := hx h
  have htargets : targets new = [] := hnew.filterMap_eq fun i hi => by cases i <;> first | rfl | cases hi
  have hadds : Adds s s' (labels new) (targets new) := .append new hcode
  rw [hnew.labels_eq, htargets] at hadds
  exact ⟨hadds, hcount, hchains⟩

end Quiet

theorem quiet_flatten (n : Node) (h : isExpr n = true) : Quiet (flatten .fourth n) :=
  Quiet.of_evaluation (evaluation_flatten n h)

theorem labelName_toList (what : String) (n : Nat) :
    ∃ start, (labelName .fourth what n).toList = start ++ '_' :: Nat.toDigits 10 n := by
  unfold labelName
  split
  · exact ⟨['L'], by simp; rfl⟩
  · exact ⟨'L' :: '_' :: what.toList, by simp; rfl⟩

theorem takeWhile_reverse_of_not_mem (h : '_' ∉ digits) :
    (start ++ '_' :: digits).reverse.takeWhile (· != '_') = digits.reverse := by
  have hall : ∀ c ∈ digits.reverse, (c != '_') = true := by
    intro c hc
    have hne : c ≠ '_' := by rintro rfl; exact h (mem_reverse.mp hc)
    simpa using hne
  rw [reverse_append, reverse_cons, List.append_assoc, takeWhile_append_of_pos hall]
  simp

/-- A label is decided by its number: its digits stand behind the last underscore. -/
theorem labelName_inj {m n : Nat} (h : labelName .fourth what m = labelName .fourth what' n) : m = n := by
  obtain ⟨start, hm⟩ := labelName_toList what m
  obtain ⟨start', hn⟩ := labelName_toList what' n
  rw [h, hn] at hm
  have hdigits := congrArg (fun l => l.reverse.takeWhile (· != '_')) hm
  simp only [takeWhile_reverse_of_not_mem Nat.underscore_not_in_toDigits, reverse_inj] at hdigits
  simpa [← Nat.toList_repr, String.toList_inj] using hdigits.symm

end Tabc.Core.Jumps
