import Tabc.Proofs.Rebuild.Faults

/-!
# Code that cannot be read back

A statement or the rest of a chain is not read back if one of its parts is not (`Rejects`, `Refuses`), or if a
further condition stands inside its last alternative (`refuses_mixed`): it is taken for one of the chain
itself, and its label is looked for in code that no longer has it.
-/

open List

namespace Tabc.Core

open Target Target.Build
open EStateM (run_get)
open List (append_assoc)

variable {known : Option ScopeTable} {s s1 : Build} {Γ Γ1 : Types} {r r1 l : Nat} {σ : Scope}
  {q : List Instr} {x : String}

/-- Code is not read back, if what follows it is as `C` says. -/
def Rejects (known : Option ScopeTable) (code : List Instr) (Γ : Types) (r : Nat) (C : List Instr → Prop) : Prop :=
  ∀ (s : Build) (q : List Instr) (σ : Scope), Typed σ Γ r → C q → Halts known (after s (code ++ q) σ)

theorem rejects_assign {value : Term} (hx : ¬ IsReg x) (hvars : ∀ y ∈ value.vars, ¬ IsReg y)
    (h : (Γ.knows value.asked && (Γ.taken x || Γ.knows value.direct)) = false)
    (C : List Instr → Prop) :
    Rejects known (value.code r ++ [.assign (.name x) (.name (value.operand r))]) Γ r C := by
  intro s q σ hσ _
  rw [append_assoc]
  cases hasked : Γ.knows value.asked with
  | false => exact (value.halts hσ hvars hasked s _).halts
  | true =>
    rw [hasked, Bool.true_and, Bool.or_eq_false_iff] at h
    obtain ⟨y, rfl, hy⟩ := Term.exists_of_direct h.2
    refine Stops.of_core rfl fun fuel _ => ?_
    have htype := fails_typeOf (s := s) (q := q) hσ (hvars y (by simp [Term.vars])) hy
    refine .after_ok rfl (.after_ok run_isNew ?_)
    rw [hσ.has_iff hx rfl, h.1]
    obtain ⟨s', hcatch⟩ := htype.run_tryCatch
    exact .after_ok hcatch (.throw _)

section Loops

variable {cond : Term} {code : List Instr} {m n : Nat} {C C' : List Instr → Prop}

theorem rejects_while_cond (hvars : ∀ y ∈ cond.vars, ¬ IsReg y) (hasked : Γ.knows cond.asked = false) :
    Rejects known (.label (.name (whileMark m)) :: cond.code r ++
        .branch (.name (mark n)) (.name (cond.operand r)) :: code ++
        [.goto (.name (whileMark m)), .label (.name (mark n))]) Γ r C := by
  intro s q σ hσ _
  simp only [cons_append, append_assoc, nil_append]
  refine Stops.of_core rfl fun fuel hfuel => ?_
  rw [buildCore_whileMark]
  exact fails_whileHead (cond.halts hσ hvars hasked s _) (Nat.le_succ_of_le hfuel)

theorem rejects_while_body (hvars : ∀ y ∈ cond.vars, ¬ IsReg y)
    (hasked : Γ.knows cond.asked = true) (hbody : Rejects known code Γ (r + cond.size) C')
    (hC : ∀ q, C q → C' (.goto (.name (whileMark m)) :: .label (.name (mark n)) :: q)) :
    Rejects known (.label (.name (whileMark m)) :: cond.code r ++
        .branch (.name (mark n)) (.name (cond.operand r)) :: code ++
        [.goto (.name (whileMark m)), .label (.name (mark n))]) Γ r C := by
  intro s q σ hσ hq
  simp only [cons_append, append_assoc, nil_append]
  obtain ⟨σ1, hcond, hσ1, -, -⟩ := cond.computations hσ hvars hasked
  refine Stops.of_core rfl fun fuel hfuel => ?_
  rw [buildCore_whileMark]
  exact fails_whileHead_body (hcond known [] s _) rfl (hbody s _ σ1 hσ1 (hC q hq)) (Nat.le_succ_of_le hfuel)

end Loops

section Chains

variable {fuel : Nat} {items : List Target.Node}

theorem fails_chain {f stop : Operand} (c : String) (hstop : chainLabel f s.queue = .ok stop)
    (h : Fails (body .fourth known fuel f []) { s with ends := (stop, 0) :: s.ends }) :
    Fails (chain .fourth known (fuel + 1) f (.name c)) s := by
  refine .after_ok (run_get s) ?_
  rw [hstop]
  exact .after_ok rfl (.after_ok rfl (.after_ok rfl (.after_ok rfl (h.bind _))))

theorem fails_more_otherwise (hnext : continuation s.ends true s.queue = .ok .otherwise)
    (h : Fails (do otherwise .fourth known fuel [] (← pop)) s) :
    Fails (do more .fourth known (fuel + 1) items (← pop)) s := by
  cases hq : s.queue with
  | nil => rw [hq] at hnext; cases hnext
  | cons i q =>
    rw [hq] at hnext
    refine .after_ok (run_pop hq) ?_
    refine .after_ok (run_get _) (.after_ok (run_get _) ?_)
    simp only [hnext]
    refine .after_ok rfl (.after_ok rfl (Fails.bind (fun rest s1 hrun => h rest s1 ?_) _))
    rw [EStateM.run_bind, run_pop hq]
    exact hrun

theorem fails_more_condition (hnext : continuation s.ends true s.queue = .ok (.condition f))
    (h : ∀ head s1, (do condition .fourth known fuel [] (← pop)).run s = .ok head s1 →
      ∀ ends, Fails (body .fourth known fuel f []) { s1 with ends := ends }) :
    Fails (do more .fourth known (fuel + 1) items (← pop)) s := by
  cases hq : s.queue with
  | nil => rw [hq] at hnext; cases hnext
  | cons i q =>
    rw [hq] at hnext
    refine .after_ok (run_pop hq) ?_
    refine .after_ok (run_get _) (.after_ok (run_get _) ?_)
    simp only [hnext]
    refine .after_ok rfl (.after_ok rfl fun made s' hrun => ?_)
    obtain ⟨⟨head, c⟩, s1, hcond, hrun⟩ := of_run_bind hrun
    obtain ⟨items, s2, hinsert, hrun⟩ := of_run_bind hrun
    obtain ⟨c', s3, hident, hrun⟩ := of_run_bind hrun
    obtain ⟨rest, s4, hbody, hrun⟩ := of_run_bind hrun
    have hcond' : (do condition .fourth known fuel [] (← pop)).run s = .ok (head, c) s1 := by
      rw [EStateM.run_bind, run_pop hq]
      exact hcond
    obtain ⟨ends, rfl⟩ : ∃ ends, s2 = { s1 with ends := ends } := by
      have hinsert := of_run_bind_ok hinsert rfl
      split at hinsert
      · cases hinsert
      cases hinsert
      exact ⟨_, rfl⟩
    rw [(eq_of_run_ofExcept hident).2] at hbody
    exact h _ _ hcond' _ _ _ hbody

end Chains

/-- The rest of a chain, which ends at a label, is not read back, if what follows is as `C` says. -/
def Refuses (known : Option ScopeTable) (code : List Instr) (stop : String) (Γ : Types) (r : Nat)
    (C : List Instr → Prop) : Prop :=
  ∀ (s : Build) (q : List Instr) (σ : Scope) (front back : List Target.Node)
    (ends : List (Operand × Nat)), Typed σ Γ r → s.ends = (.name stop, front.length) :: ends → C q →
    ∀ fuel, 4 * (code ++ Instr.label (.name stop) :: q).length + 1 ≤ fuel →
      Fails (do more .fourth known fuel (front ++ back) (← pop)) (after s (code ++ Instr.label (.name stop) :: q) σ)

section

variable {cond : Term} {code rest : List Instr} {stop : String} {n : Nat}
  {C C' : List Instr → Prop} {nodes : List Target.Node}

variable (hvars : ∀ y ∈ cond.vars, ¬ IsReg y)

include hvars

theorem rejects_chain_cond (hasked : Γ.knows cond.asked = false) :
    Rejects known (alternative .branch cond r n code stop rest ++ [.label (.name stop)]) Γ r C := by
  intro s q σ hσ _
  simp only [alternative, append_assoc]
  exact (cond.halts hσ hvars hasked s _).halts

theorem rejects_chain_body (hasked : Γ.knows cond.asked = true) (hmark : mark n ∉ labels code)
    (hbody : Rejects known code Γ (r + cond.size) C')
    (hC : ∀ q, C q → C' (.goto (.name stop) :: .label (.name (mark n)) :: (rest ++ .label (.name stop) :: q))) :
    Rejects known (alternative .branch cond r n code stop rest ++ [.label (.name stop)]) Γ r C := by
  intro s q σ hσ hq
  simp only [alternative, cons_append, append_assoc, nil_append]
  obtain ⟨σ1, hcond, hσ1, -, -⟩ := cond.computations hσ hvars hasked
  refine Stops.trans (hcond known [] s _).statements.isElif_eq_false (.of_core rfl fun fuel hfuel => ?_)
  let t : Build := { s with ends := (.name stop, 0) :: s.ends }
  exact fails_chain _ (chainLabel_eq hmark) (fails_body (hbody t _ σ1 hσ1 (hC q hq)) hfuel _)

theorem rejects_chain_rest (hasked : Γ.knows cond.asked = true) (hmark : mark n ∉ labels code)
    (hbody : Rebuilds known code Γ (r + cond.size) Γ1 r1 nodes)
    (hrest : Refuses known rest stop Γ1 r1 C) :
    Rejects known (alternative .branch cond r n code stop rest ++ [.label (.name stop)]) Γ r C := by
  intro s q σ hσ hq
  simp only [alternative, cons_append, append_assoc, nil_append]
  obtain ⟨σ1, hcond, hσ1, -, -⟩ := cond.computations hσ hvars hasked
  refine Stops.trans (hcond known [] s _).statements.isElif_eq_false (.of_core rfl fun fuel hfuel => ?_)
  let t : Build := { s with ends := (.name stop, 0) :: s.ends }
  obtain ⟨items, s2, σ2, hitems, hσ2, -⟩ := hbody.jumped hσ1 t stop
    (.label (.name (mark n)) :: (rest ++ .label (.name stop) :: q))
  have hlen := hfuel
  simp only [length_append, length_cons] at hlen
  have hfail := hrest s2 q σ2 [] [.ifThen (.ident (cond.operand r)) (.block items)] s.ends hσ2
    hitems.ends hq fuel (by simp only [length_append, length_cons]; omega)
  exact hfail.congr (run_chain (chainLabel_eq hmark) (run_body hitems rfl hfuel))

theorem refuses_elif_cond (hasked : Γ.knows cond.asked = false) :
    Refuses known (alternative .elseBranch cond r n code stop rest) stop Γ r C := by
  intro s q σ front back ends hσ hends _ fuel hfuel
  obtain _ | k := fuel
  · omega
  simp only [alternative, cons_append, append_assoc] at hfuel ⊢
  refine fails_more_condition (cond.continuation_eq r hends) fun head s1 hrun => ?_
  exact absurd hrun (fails_condition (cond.halts hσ hvars hasked s _).halts (Nat.le_of_succ_le_succ hfuel) head s1)

theorem refuses_elif_body (hasked : Γ.knows cond.asked = true) (hbody : Rejects known code Γ (r + cond.size) C')
    (hC : ∀ q, C q → C' (.goto (.name stop) :: .label (.name (mark n)) :: (rest ++ .label (.name stop) :: q))) :
    Refuses known (alternative .elseBranch cond r n code stop rest) stop Γ r C := by
  intro s q σ front back ends hσ hends hq fuel hfuel
  obtain _ | k := fuel
  · omega
  simp only [alternative, cons_append, append_assoc] at hfuel ⊢
  obtain ⟨σ1, hcond, hσ1, -, -⟩ := cond.computations hσ hvars hasked
  have hlen := Nat.le_of_succ_le_succ hfuel
  refine fails_more_condition (cond.continuation_eq r hends) fun head s1 hrun ends' => ?_
  rw [run_condition (hcond known [] s _) rfl hlen] at hrun
  cases hrun
  simp only [length_append, length_cons] at hlen
  exact fails_body (hbody { s with ends := ends' } _ σ1 hσ1 (hC q hq))
    (show 4 * (code ++ _).length ≤ k by simp only [length_append, length_cons]; omega) _

theorem refuses_elif_rest (hasked : Γ.knows cond.asked = true)
    (hbody : Rebuilds known code Γ (r + cond.size) Γ1 r1 nodes)
    (hrest : Refuses known rest stop Γ1 r1 C) :
    Refuses known (alternative .elseBranch cond r n code stop rest) stop Γ r C := by
  intro s q σ front back ends hσ hends hq fuel hfuel
  obtain _ | k := fuel
  · omega
  simp only [alternative, cons_append, append_assoc] at hfuel ⊢
  obtain ⟨σ1, hcond, hσ1, -, -⟩ := cond.computations hσ hvars hasked
  let t : Build := { s with ends := (.name stop, front.length + (cond.trees Γ r).length) :: ends }
  obtain ⟨items, s2, σ2, hitems, hσ2, -⟩ := hbody.jumped hσ1 t stop
    (.label (.name (mark n)) :: (rest ++ .label (.name stop) :: q))
  have hends2 : s2.ends = (.name stop, (front ++ cond.trees Γ r).length) :: ends := by
    rw [length_append]
    exact hitems.ends
  have hlen := Nat.le_of_succ_le_succ hfuel
  have hhead := run_condition (hcond known [] s _) rfl hlen
  simp only [length_append, length_cons] at hlen
  have hrun := run_body hitems rfl (show 4 * (code ++ _).length ≤ k by
    simp only [length_append, length_cons]; omega)
  have hfail := hrest s2 q σ2 (front ++ cond.trees Γ r) (back ++ [.elifThen (.ident (cond.operand r))
    (.block items)]) ends hσ2 hends2 hq k
    (by simp only [length_append, length_cons]; omega)
  exact hfail.congr (run_more_condition (cond.continuation_eq r hends) hhead hends hrun back)

omit hvars

theorem refuses_otherwise (hbody : Rejects known code Γ r C')
    (hC : ∀ q, C q → C' (.label (.name stop) :: q)) (hne : code ≠ [])
    (helif : code.any isElif = false) (hstop : stop ∉ labels code) :
    Refuses known code stop Γ r C := by
  intro s q σ front back ends hσ hends hq fuel hfuel
  obtain _ | k := fuel
  · omega
  exact fails_more_otherwise (continuation_otherwise hends hne helif hstop)
    (fails_otherwise (hbody s _ σ hσ (hC q hq)) hends (Nat.le_of_succ_le_succ hfuel))

end

theorem exists_isElif (h : code.any isElif = true) :
    ∃ front f c back, code = front ++ .elseBranch f c :: back ∧ front.any isElif = false := by
  rw [any_eq_true, ← find?_isSome, Option.isSome_iff_exists] at h
  obtain ⟨i, hi⟩ := h
  rw [find?_eq_some_iff_append] at hi
  obtain ⟨hi, front, back, rfl, hfront⟩ := hi
  cases i with
  | elseBranch f c =>
    refine ⟨front, f, c, back, rfl, ?_⟩
    rw [any_eq_false]
    intro j hj
    simpa using hfront j hj
  | _ => cases hi

/-- A last alternative with a further condition inside: the chain is taken to continue with this
condition, and its label is looked for behind the alternative. -/
theorem refuses_mixed {stop : String} {C C' : List Instr → Prop} {nodes : List Target.Node}
    (hbody : Rebuilds known code Γ r Γ1 r1 nodes ∨ Rejects known code Γ r C')
    (hC : ∀ q, C q → C' (.label (.name stop) :: q) ∧ ∀ i ∈ Instr.label (.name stop) :: q, Simple i)
    (helif : code.any isElif = true) (hstop : stop ∉ labels code)
    (hmark : ∀ f c, .elseBranch f c ∈ code → ∃ x, f = .name x ∧ ∀ q, C q →
      .label (.name x) ∉ Instr.label (.name stop) :: q) :
    Refuses known code stop Γ r C := by
  intro s q σ front back ends hσ hends hq fuel hfuel
  obtain _ | k := fuel
  · omega
  obtain ⟨a, f, c, b, rfl, ha⟩ := exists_isElif helif
  have hnext : continuation s.ends true (a ++ .elseBranch f c :: b ++ .label (.name stop) :: q) =
      .ok (.condition f) := by
    rw [hends, append_assoc]
    rw [labels_append, mem_append, not_or] at hstop
    exact continuation_condition hstop.1 ha
  obtain ⟨x, rfl, hx⟩ := hmark f c (by simp)
  refine fails_more_condition hnext fun head s1 hrun ends' items s2 hrun' => ?_
  rcases hbody with hbody | hbody
  · obtain ⟨items, s3, σ3, hread, -, -⟩ := hbody s (.label (.name stop) :: q) σ hσ
    obtain ⟨fuel', -, -, hloop⟩ := hread.isElif_eq_false.loopWith (fun _ _ _ => trivial)
      (loops_condition.mono fun _ _ h => ⟨h.1, ne_elseBranch h.2⟩) trivial 0 k [] (Nat.le_of_succ_le_succ hfuel)
    have hsimple : AllSimple (after s3 (.label (.name stop) :: q) σ3) := (hC q hq).2
    have hsuffix := (Uses.pop fun i => (consumes fuel').condition _ i) _ _ _ hsimple (hloop.symm.trans hrun) |>.queue
    have hmem := label_mem_of_body (s := { s1 with ends := ends' }) (hsimple.suffix hsuffix) hrun'
    exact hx q hq (hsuffix.subset hmem)
  · exact fails_condition (hbody s _ σ hσ (hC q hq).1) (Nat.le_of_succ_le_succ hfuel) _ _ hrun

end Tabc.Core
