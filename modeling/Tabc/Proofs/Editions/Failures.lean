import Tabc.Proofs.Jumps.Splicing
import Tabc.Proofs.Sessions.Placing
import Tabc.Proofs.Writing.Steps

/-!
# How a compilation fails

A failure of the compiler has a wording that begins with the name of what failed, unless a condition of a
stage does not hold and says nothing about it. Flattening has no such condition.
-/

open List

namespace Tabc

namespace Pipeline

def Failure.opening : Failure → String
  | .spaces _ => "Leading spaces detected at line "
  | .stage s _ => s.label

variable {s : Stage} {fault : Fault} {p p' : String}

theorem or_of_run_bind {α β : Type} {x : PipelineM α} {f : α → PipelineM β}
    (h : (x >>= f).run p = .error (s, fault) p') :
    x.run p = .error (s, fault) p' ∨ ∃ a p1, (f a).run p1 = .error (s, fault) p' := by
  rw [EStateM.run_bind] at h
  split at h
  · exact .inr ⟨_, _, h⟩
  case h_2 hrun =>
    cases h
    exact .inl hrun

theorem eq_of_run_stage {α β σ : Type} {s' : Stage} {act : EStateM Fault σ α} {start : σ}
    {printed : σ → String} {f : α × σ → β}
    (h : (do return f (← stage s' act start printed) : PipelineM β).run p = .error (s, fault) p') : s = s' := by
  obtain h | ⟨_, _, h⟩ := or_of_run_bind h
  · unfold stage at h
    split at h <;> cases h
    rfl
  · cases h

theorem isSilent_of_run_code (h : (code .fourth src).run p = .error (s, fault) p')
    (hs : s = .flattening) : fault.isSilent = false := by
  obtain h | ⟨trees, _, h⟩ := or_of_run_bind h
  · cases hs.symm.trans (eq_of_run_stage h)
  obtain h | ⟨_, p, h⟩ := or_of_run_bind h
  · cases hs.symm.trans (eq_of_run_stage h)
  obtain h | ⟨_, _, h⟩ := or_of_run_bind h
  · unfold flatten Flat.ofProgram at h
    cases hflat : (Flat.flattenAll .fourth trees).run .empty with
    | ok _ _ => rw [hflat] at h; cases h
    | error _ _ => rw [hflat] at h; cases h; exact (Flat.follows_flattenAll trees).loud hflat
  · cases h

theorem eq_of_run_write {folding : Bool} {table : ScopeTable} {code : List Instr}
    (h : (build .fourth table code >>= write .fourth folding).run p = .error (s, fault) p') :
    s = .writing := by obtain h | ⟨_, _, h⟩ := or_of_run_bind h <;> exact eq_of_run_stage h

/-- The wording of a failed stage begins with its label, or there is none and the stage says nothing. -/
theorem message?_stage (h : s = .flattening → fault.isSilent = false) :
    (∃ m, (Failure.stage s fault).message? = some (s.label ++ m)) ∨
      ∃ s' ∈ [Stage.parsing, .checking, .writing], Failure.stage s fault = .stage s' (.unmet none) ∧
        (Failure.stage s fault).message? = none := by
  by_cases hsilent : fault.isSilent = true
  · obtain rfl : fault = .unmet none := by
      unfold Fault.isSilent at hsilent
      split at hsilent
      · rfl
      · cases hsilent
    cases s with
    | flattening => cases h rfl
    | accepting => exact .inl ⟨"", rfl⟩
    | _ => exact .inr ⟨_, by decide, rfl, rfl⟩
  · simp only [Failure.message?, hsilent, Bool.false_and, Bool.false_eq_true, if_false]
    cases s with
    | flattening | accepting => exact .inl ⟨"", rfl⟩
    | _ => exact .inl ⟨_, rfl⟩

theorem or_of_conclude (h : (conclude accepted front back).failure = some f) :
    (∃ s fault p, front = .error (s, fault) p ∧ f = .stage s fault) ∨
      (∃ t c p s fault p', back t c p = .error (s, fault) p' ∧ f = .stage s fault) ∨
      f = .stage .accepting (.unmet none) := by
  unfold conclude at h
  split at h
  · exact .inl ⟨_, _, _, rfl, (Option.some.inj h).symm⟩
  split at h
  case h_1 hback => exact .inr (.inl ⟨_, _, _, _, _, _, hback, (Option.some.inj h).symm⟩)
  · cases accepted
    · exact .inr (.inr (Option.some.inj h).symm)
    · cases h

/-- A failure has a wording that begins with what failed, or parsing, checking or writing met a condition
that does not hold and says nothing. -/
theorem compile_failure_opening (folding accepted : Bool) (src : String) {f : Failure}
    (h : (compile folding accepted src).failure = some f) :
    (∃ m, f.message? = some (f.opening ++ m)) ∨
      ∃ s ∈ [Stage.parsing, .checking, .writing], f = .stage s (.unmet none) ∧ f.message? = none := by
  unfold compile at h
  extract_lets ls at h
  split at h
  · obtain rfl := Option.some.inj h
    exact .inl ⟨_, by simp only [Failure.message?, Failure.opening, String.append_assoc]; rfl⟩
  · obtain ⟨s, fault, p, hcode, rfl⟩ | ⟨t, c, p, s, fault, p', hwrite, rfl⟩ | rfl := or_of_conclude h
    · exact message?_stage (isSilent_of_run_code hcode)
    · exact message?_stage fun hs => absurd (hs.symm.trans (eq_of_run_write hwrite)) (by decide)
    · exact message?_stage fun hs => by cases hs

theorem compile_failure_opening_spaces :
    (∃ m, (Failure.spaces 1).message? = some ((Failure.spaces 1).opening ++ m)) ∨
      ∃ s ∈ [Stage.parsing, .checking, .writing],
        Failure.spaces 1 = .stage s (.unmet none) ∧ (Failure.spaces 1).message? = none :=
  compile_failure_opening false true "x: int = 1\n  x = 2\n" (by decide +kernel)

/-- Checking `x: int = 1` and `x.append(2)` fails without a wording. -/
theorem check_append_silent :
    ∃ fault printed, (check .fourth [.assign (.ident "x") (.type (.prim .int)) (.literal "int" (.int 1)),
        .append (.ident "x") (.literal "int" (.int 2))]).run "" = .error (.checking, fault) printed ∧
      (Failure.stage .checking fault).message? = none := ⟨_, _, rfl, rfl⟩

end Pipeline

namespace Text

end Text

namespace Pipeline

end Pipeline

end Tabc
