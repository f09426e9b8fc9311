import Tabc.Proofs.Rebuild.Consumption
import Tabc.Proofs.Rebuild.Statements

/-!
# Instructions that cannot be built

Building comes to an end without a result at the first instruction that cannot be built (`Stops`): in an
expression, an operation for which a type is asked for that is not known (`Term.halts`).
-/

namespace Tabc.Core

open ScopeTable
open Target Target.Build

variable {known : Option ScopeTable} {s s' s1 s2 : Build} {Γ Γ1 : Types} {r l : Nat} {σ : Scope}
  {q : List Instr} {x : String}

/-- There is no result in this state. -/
def Fails {α : Type} (act : BuildM α) (s : Build) : Prop := ∀ a s', act.run s ≠ .ok a s'

namespace Fails

variable {α β : Type} {act : BuildM α}

theorem throw (e : Fault) : Fails (throw e : BuildM α) s := fun _ _ h => by cases h

theorem congr (h : Fails act' s1) (heq : act.run s = act'.run s1) : Fails act s :=
  fun a s' hrun => h a s' (heq.symm.trans hrun)

theorem bind (h : Fails act s) (f : α → BuildM β) : Fails (act >>= f) s := fun _ _ hrun =>
  let ⟨_, _, hact, _⟩ := of_run_bind hrun
  h _ _ hact

theorem after_ok (h : act.run s = .ok a s1) (hf : Fails (f a) s1) : Fails (act >>= f) s := by
  intro b s2 hrun
  rw [EStateM.run_bind, h] at hrun
  exact hf b s2 hrun

theorem run_tryCatch (h : Fails act s) :
    ∃ s', (tryCatch (some <$> act) fun _ => pure none : BuildM (Option α)).run s = .ok none s' := by
  cases hact : act.run s with
  | ok a s' => exact absurd hact (h a s')
  | error e s' =>
    refine ⟨s', ?_⟩
    simp only [EStateM.run] at hact
    simp only [EStateM.run, tryCatch, tryCatchThe, MonadExceptOf.tryCatch, EStateM.tryCatch,
      Functor.map, EStateM.map, hact]
    rfl

end Fails

/-- An instruction cannot be built, however much fuel there is. -/
def Stuck (known : Option ScopeTable) (i : Instr) (s : Build) : Prop :=
  ∀ fuel, 4 * s.queue.length + 3 ≤ fuel → Fails (buildInstr .fourth known fuel i) s

theorem stuck_of_core (h : ∀ fuel, 4 * q.length ≤ fuel →
    Fails (buildCore .fourth known (fuel + 2) i) (after s q σ)) : Stuck known i (after s q σ) := by
  intro fuel hfuel made s' hrun
  change 4 * q.length + 3 ≤ fuel at hfuel
  obtain ⟨k, rfl⟩ : ∃ k, fuel = k + 3 := ⟨fuel - 3, by omega⟩
  exact h k (by omega) made s' (run_buildCore_of_buildInstr hrun)

/-- After a reading, the next instruction is such that `Q` holds and cannot be built. -/
def Stops (known : Option ScopeTable) (P : Instr → Made → Prop) (Q : Instr → Prop) (s : Build) : Prop :=
  ∃ items s1 i q, Reads known P s items s1 ∧ s1.queue = i :: q ∧ Q i ∧ Stuck known i { s1 with queue := q }

/-- Among statements there is an instruction that cannot be built. -/
abbrev Halts (known : Option ScopeTable) : Build → Prop :=
  Stops known (fun i made => Quiet made ∧ isElif i = false) fun i => isElif i = false

/-- Among the code of an expression there is an instruction that cannot be built. -/
abbrev HaltsComputing (known : Option ScopeTable) : Build → Prop :=
  Stops known (fun i made => computes i = true ∧ ∃ items, made = .stmts items) fun i => computes i = true

section

variable {P : Instr → Made → Prop} {Q : Instr → Prop} {items : List Target.Node}

theorem Stops.trans (h : Reads known P s items s1) (h' : Stops known P Q s1) : Stops known P Q s :=
  let ⟨_, s2, i, q, hread, hrest⟩ := h'
  ⟨_, s2, i, q, h.trans hread, hrest⟩

theorem Stops.of_core (hi : Q i) (h : ∀ fuel, 4 * q.length ≤ fuel →
    Fails (buildCore .fourth known (fuel + 2) i) (after s q σ)) :
    Stops known P Q (after s (i :: q) σ) := ⟨[], _, i, q, .refl _, rfl, hi, stuck_of_core h⟩

theorem Does.isElif_eq_false (h : Does known i s made s') : isElif i = false := by
  cases i with
  | elseBranch f c =>
    have hrun := run_buildCore_of_buildInstr (h.run (4 * s.queue.length + 2 + 1) le_rfl)
    cases hrun
  | _ => rfl

theorem Reads.isElif_eq_false (h : Reads known P s items s') :
    Reads known (fun i made => P i made ∧ isElif i = false) s items s' := by
  induction h with
  | refl s => exact .refl s
  | step hq hi hP _ ih => exact .step hq hi ⟨hP, hi.isElif_eq_false⟩ ih

theorem HaltsComputing.halts (h : HaltsComputing known s) : Halts known s := by
  obtain ⟨items, s1, i, q, hread, hq, hi, hstuck⟩ := h
  refine ⟨items, s1, i, q, hread.statements.isElif_eq_false, hq, ?_, hstuck⟩
  cases i <;> first | rfl | cases hi

theorem Stops.loop {α : Type} {ends : List (Operand × Nat)} {loop : Nat → List Target.Node → BuildM α}
    (hstep : Loops known P (fun s => s.ends = ends) loop)
    (hfail : ∀ fuel acc s i q, s.queue = i :: q → Q i →
      Fails (buildInstr .fourth known fuel i) { s with queue := q } → Fails (loop (fuel + 1) acc) s)
    (h : Stops known P Q s) (hends : s.ends = ends)
    (hfuel : 4 * s.queue.length ≤ fuel) : Fails (loop fuel []) s := by
  obtain ⟨items, s1, i, q, hread, hq, hi, hstuck⟩ := h
  obtain ⟨k, hk, hloop⟩ := hread.loop hstep hends hq hfuel
  exact (hfail k _ s1 i q hq hi (hstuck k (by simp only; omega))).congr hloop

end

section

variable {fuel : Nat}

theorem fails_body (h : Halts known s) (hfuel : 4 * s.queue.length ≤ fuel) (x : Operand) :
    Fails (body .fourth known fuel x []) s := by
  refine h.loop ((loops_body x).mono fun _ _ h => h.1) ?_ rfl hfuel
  intro fuel acc s i q hq _ hfail
  exact .after_ok (run_pop hq) (hfail.bind _)

theorem fails_otherwise (h : Halts known s) {ends : List (Operand × Nat)}
    (hends : s.ends = e :: ends) (hfuel : 4 * s.queue.length ≤ fuel) :
    Fails (do otherwise .fourth known fuel [] (← pop)) s := by
  refine h.loop ((loops_otherwise e ends).mono fun _ _ h => h.1) ?_ hends hfuel
  intro fuel acc s i q hq _ hfail
  refine .after_ok (run_pop hq) ?_
  exact hfail.bind _

theorem ne_elseBranch (h : isElif i = false) (x c : Operand) : i ≠ .elseBranch x c := by
  rintro rfl
  cases h

theorem fails_condition (h : Halts known s) (hfuel : 4 * s.queue.length ≤ fuel) :
    Fails (do condition .fourth known fuel [] (← pop)) s := by
  refine h.loop (loops_condition.mono fun _ _ h => ⟨h.1, ne_elseBranch h.2⟩) ?_ rfl hfuel
  intro fuel acc s i q hq hi hfail
  refine .after_ok (run_pop hq) ?_
  rw [condition.eq_3 _ _ _ _ _ (ne_elseBranch hi)]
  exact hfail.bind _

theorem fails_whileHead (h : HaltsComputing known s) (hfuel : 4 * s.queue.length ≤ fuel) :
    Fails (do whileHead .fourth known fuel [] (← pop)) s := by
  refine h.loop loops_whileHead ?_ rfl hfuel
  intro fuel acc s i q hq hi hfail
  refine .after_ok (run_pop hq) ?_
  rw [whileHead.eq_3 _ _ _ _ _ fun x c => (computes_ne_branch hi x c).1]
  exact hfail.bind _

theorem fails_whileHead_body {x : Operand} (h : Computations known s head s1) (hq : s1.queue = .branch x (.name c) :: q)
    (hbody : Halts known { s1 with queue := q }) (hfuel : 4 * s.queue.length ≤ fuel) :
    Fails (do whileHead .fourth known fuel [] (← pop)) s := by
  obtain ⟨k, hk, hloop⟩ := h.loop loops_whileHead rfl hq hfuel
  have hfail : Fails (do whileHead .fourth known (k + 1) head (← pop)) s1 := by
    refine .after_ok (run_pop hq) ?_
    exact .after_ok rfl ((fails_body hbody (by simp only; omega) x).bind _)
  exact hfail.congr hloop

theorem fails_program (h : Halts known s) (hfuel : 4 * s.queue.length ≤ fuel) :
    Fails (program .fourth known fuel []) s := by
  refine h.loop (loops_program.mono fun _ _ h => h.1) ?_ rfl hfuel
  intro fuel acc s i q hq _ hfail
  refine .after_ok (EStateM.run_get s) ?_
  rw [hq]
  exact .after_ok (run_pop hq) (hfail.bind _)

end

theorem builtins4_find? (h : builtins4.find? x = some e) : ∃ fs, e = .functions fs := by
  have hmem : ∀ p ∈ builtins4, ∃ fs, p.2 = .functions fs := by simp [builtins4]
  obtain ⟨l1, l2, heq, -⟩ := List.lookup_eq_some_iff.mp h
  exact hmem (x, e) (by rw [heq]; simp)

theorem fails_typeOf (hσ : Typed σ Γ r) (hx : ¬ IsReg x) (hnone : Γ x = none) :
    Fails (typeOf (.name x)) (after s q σ) := by
  have hfind : σ.find? x = builtins4.find? x := by rw [hσ.names x hx, hnone, Option.map_none, Option.or_none]
  intro t s' hrun
  cases he : builtins4.find? x with
  | none =>
    simp [typeOf, onTable, lookupVariable, findIn, inside, hfind, he] at hrun
    cases hrun
  | some e =>
    obtain ⟨fs, rfl⟩ := builtins4_find? he
    simp [typeOf, onTable, lookupVariable, findIn, inside, hfind, he] at hrun
    cases hrun

theorem Term.exists_of_direct {t : Term} (h : Γ.knows t.direct = false) : ∃ x, t = .var x ∧ Γ x = none := by
  cases t with
  | var x => exact ⟨x, rfl, by simpa [Term.direct, Types.knows] using h⟩
  | _ => simp [Term.direct, Types.knows] at h

theorem fails_unary (hy : σ.find? y = none) (hop : op ≠ "!") (ha : Fails (typeOf (.name a)) (after s q σ)) :
    Fails (unary .fourth (.name y) op (.name a)) (after s q σ) := by
  have hhas : σ.has y = false := by simp [Scope.has, hy]
  have hop' : (op == "!") = false := by simpa using hop
  refine .after_ok rfl (.after_ok rfl (.after_ok run_isNew ?_))
  rw [hhas, hop']
  exact ha.bind _

theorem fails_binary (hy : σ.find? y = none)
    (h : Fails (Target.Build.binaryType .fourth op (.name a) (.name b)) (after s q σ)) :
    Fails (Target.Build.binary .fourth (.name y) (.name a) (.name b) op) (after s q σ) := by
  have hhas : σ.has y = false := by simp [Scope.has, hy]
  refine .after_ok rfl (.after_ok rfl (.after_ok rfl (.after_ok run_isNew ?_)))
  rw [hhas]
  exact h.bind _

theorem fails_binaryType (hop : isComparison op = false) (h : Fails (typeOf (.name a)) (after s q σ) ∨
      σ.find? a = some (targetVar p) ∧ Fails (typeOf (.name b)) (after s q σ)) :
    Fails (Target.Build.binaryType .fourth op (.name a) (.name b)) (after s q σ) := by
  rw [Target.Build.binaryType, hop]
  rcases h with h | ⟨ha, h⟩
  · exact h.bind _
  · exact .after_ok (run_typeOf ha) (h.bind _)

/-- The code of an expression is not read back if a type is asked for that is not known. -/
theorem Term.halts (t : Term) (hσ : Typed σ Γ r) (hvars : ∀ x ∈ t.vars, ¬ IsReg x)
    (hasked : Γ.knows t.asked = false) (s : Build) (q : List Instr) :
    HaltsComputing known (after s (t.code r ++ q) σ) := by
  induction t generalizing σ r q with
  | const a => simp [Term.asked, Types.knows] at hasked
  | var x => simp [Term.asked, Types.knows] at hasked
  | unary op a ih =>
    rw [Term.code, List.append_assoc]
    rw [Term.asked, Types.knows_append, Bool.and_eq_false_iff] at hasked
    cases ha : Γ.knows a.asked with
    | false => exact ih hσ hvars ha _
    | true =>
      have hrest := hasked.resolve_left (by simp [ha])
      obtain ⟨σ1, hread, hσ1, -, -⟩ := a.computations hσ hvars ha
      have hop : op ≠ "!" := by rintro rfl; simp [Types.knows] at hrest
      rw [if_neg (by simpa using hop)] at hrest
      obtain ⟨x, rfl, hx⟩ := Term.exists_of_direct hrest
      refine Stops.trans (hread known [] s _) (.of_core rfl fun fuel _ => ?_)
      exact fails_unary (hσ1.regs _ (Nat.lt_succ_self _)) hop (fails_typeOf hσ1 (hvars x (by simp [Term.vars])) hx)
  | binary a op b iha ihb =>
    obtain ⟨hva, hvb⟩ := List.forall_mem_append.1 hvars
    rw [Term.code, List.append_assoc, List.append_assoc]
    rw [Term.asked, Types.knows_append, Types.knows_append, Bool.and_eq_false_iff] at hasked
    cases ha : Γ.knows a.asked with
    | false => exact iha hσ hva ha _
    | true =>
      obtain ⟨σ1, hread1, hσ1, hval1, -⟩ := a.computations hσ hva ha
      refine Stops.trans (hread1 known [] s _) ?_
      cases hb : Γ.knows b.asked with
      | false => exact ihb hσ1 hvb hb _
      | true =>
        have hrest := hasked.resolve_left (by simp [ha, hb])
        obtain ⟨σ2, hread2, hσ2, -, hkeeps⟩ := b.computations hσ1 hvb hb
        refine Stops.trans (hread2 known [] s _) (.of_core rfl fun fuel _ => ?_)
        have hop : isComparison op = false := by
          by_contra hop
          simp [hop, Types.knows] at hrest
        rw [hop, if_neg (by simp), Types.knows_append] at hrest
        refine fails_binary (hσ2.regs _ (by omega)) (fails_binaryType (p := a.type Γ) hop ?_)
        cases hda : Γ.knows a.direct with
        | false =>
          obtain ⟨x, rfl, hx⟩ := Term.exists_of_direct hda
          exact .inl (fails_typeOf hσ2 (hva x (by simp [Term.vars])) hx)
        | true =>
          obtain ⟨x, rfl, hx⟩ := Term.exists_of_direct (by simpa [hda] using hrest)
          refine .inr ⟨?_, fails_typeOf hσ2 (hvb x (by simp [Term.vars])) hx⟩
          rw [hkeeps _ (a.not_taken_operand hva r _), hval1 hda]

end Tabc.Core
