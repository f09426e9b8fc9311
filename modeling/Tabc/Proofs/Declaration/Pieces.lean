import Tabc.Proofs.Declaration.Effects

/-!
# Reading the code of expressions

A piece of code is taken off as a whole, declares nothing but registers, and makes nothing that counts in
a survey (`evaluates`).
-/

open List hiding length

namespace Tabc.Declaration

open Tabc.Core Target Target.Build

variable {s s1 s' : Build} {α β : Type}

/-- What reading a piece does to the state, with this code left afterwards. -/
structure Evaluated (q : List Instr) (s s' : Build) (made : Made) : Prop where
  drift : Drift s s'
  queue : s'.queue = q
  neutral : Neutral made

variable {made : Made} {q : List Instr} {i : Instr} {known : Option ScopeTable} {fuel : Nat}
  {reg : Operand} {acc items : List Target.Node} {head : Target.Node}

theorem Computes.evaluated (h : Computes x) (hs : Sound s)
    (hrun : x.run s = .ok made s') : Evaluated s.queue s s' made := ⟨(h hs hrun).1.1, (h hs hrun).1.2, (h hs hrun).2⟩

theorem Evaluated.after (hd : Drift s s1) (h : Evaluated q s1 s' made) :
    Evaluated q s s' made := ⟨hd.trans h.drift, h.queue, h.neutral⟩

theorem Drifts.peel (hx : Drifts x) (hs : Sound s) (h : (x >>= f).run s = .ok b s') :
    ∃ a s1, Drift s s1 ∧ s1.queue = s.queue ∧ (f a).run s1 = .ok b s' := by
  obtain ⟨a, s1, h1, h2⟩ := of_run_bind h
  exact ⟨a, s1, (hx h1 hs).1, (hx h1 hs).2, h2⟩

theorem drift_pop (hs : Sound s) (h : pop.run s = .ok i s') : Drift s s' ∧ s.queue = i :: s'.queue := by
  obtain ⟨hqueue, hs'⟩ := eq_of_run_pop h
  refine ⟨?_, hqueue⟩
  rw [hs']
  exact .of_eq (hs.of_eq rfl rfl) rfl rfl

theorem of_run_pop (hs : Sound s) (hq : s.queue = i :: q) (h : (pop >>= f).run s = .ok b s') :
    ∃ s1, pop.run s = .ok i s1 ∧ Drift s s1 ∧ s1.queue = q ∧ (f i).run s1 = .ok b s' := by
  obtain ⟨j, s1, hpop, h⟩ := of_run_bind h
  obtain ⟨hd, hq1⟩ := drift_pop hs hpop
  obtain ⟨rfl, hrest⟩ := List.cons.inj (hq1.symm.trans hq)
  exact ⟨s1, hpop, hd, hrest, h⟩

theorem drifts_emittedFunction (name : String) (types : List Held) :
    Drifts (onTable (ScopeTable.emittedFunction name types)) := by
  intro s a s' h hs
  obtain ⟨t, ht, rfl⟩ := exists_of_run_onTable h
  have h2 := of_run_bind_ok ht rfl
  split at h2
  · cases h2
    exact ⟨.refl hs, rfl⟩
  · cases h2

/-- What is known of reading pieces with some fuel. -/
structure Evaluates (fuel : Nat) : Prop where
  piece : ∀ {known i p q s made s'}, Piece (i :: p) → s.queue = p ++ q → Sound s →
    (buildInstr .fourth known fuel i).run s = .ok made s' → Evaluated q s s' made
  collect : ∀ {known head reg op length n code q items elem acc s made s'}, isRegister reg = true →
    Elements n code → s.queue = code ++ q → Sound s → Plain acc →
    (collect .fourth known fuel head reg op length n items elem acc).run s = .ok made s' →
    Evaluated q s s' made

theorem exists_of_run_buildInstr (h : (buildInstr .fourth known fuel i).run s = .ok made s') :
    ∃ n, fuel = n + 2 ∧ (buildCore .fourth known (n + 1) i).run s = .ok made s' := by
  match fuel, h with
  | 0, h => cases h
  | 1, h => cases run_buildCore_of_buildInstr h
  | n + 2, h => exact ⟨n, rfl, run_buildCore_of_buildInstr h⟩

theorem evaluated_call (hresult : isRegister result = true) (hq : s.queue = .result result :: q) (hs : Sound s)
    (h : (call .fourth fuel name reg).run s = .ok made s') : Evaluated q s s' made := by
  obtain _ | fuel := fuel
  · cases h
  have h := of_run_bind_ok h rfl
  split at h
  · cases h
  obtain ⟨types, s1, hd1, hq1, h⟩ := Drifts.peel (Along.mapM (fun n => by
    split
    · exact drifts_typeOf _
    · exact .throw _) _) hs h
  cases name with
  | name callee =>
    obtain ⟨found, s2, hd2, hq2, h⟩ := (drifts_emittedFunction callee _).peel hd1.sound h
    obtain ⟨t, s3, hd3, hq3, h⟩ := Drifts.peel (.ofExcept _) hd2.sound h
    obtain ⟨s4, -, hd4, rfl, h⟩ := of_run_pop hd3.sound (by rw [hq3, hq2, hq1, hq]) h
    obtain ⟨made1, s5, hbuild, h⟩ := of_run_bind h
    obtain ⟨n, rfl, hcore⟩ := exists_of_run_buildInstr hbuild
    obtain ⟨x, rfl, hx⟩ := exists_register hresult
    have hdeclared := (Computes.declared hx (.stmts (plain_computed hx rfl))).evaluated hd4.sound h
    exact hdeclared.after (hd1.trans (hd2.trans (hd3.trans hd4)))
  | _ => cases h

theorem Piece.exists_cons (h : Piece p) : ∃ i q, p = i :: q := by
  cases h with
  | single => exact ⟨_, _, rfl⟩
  | call => exact ⟨_, _, rfl⟩
  | collection => exact ⟨_, _, rfl⟩

theorem Piece.ne_element (h : Piece (i :: p)) (value : Operand) : i ≠ .element value := by
  rintro rfl
  cases h with
  | single h => cases h

theorem plain_addTo (hmade : Neutral made) (h : made.addTo acc = .ok acc') (hacc : Plain acc) : Plain acc' := by
  rcases hmade with rfl | ⟨items, rfl, hitems⟩
  · cases h
  · cases h
    exact hacc.append hitems

theorem computes_collected (elem : Option Ty) (t : Ty) (hreg : isRegister reg = true) (hacc : Plain acc) : Computes (do
      declare reg t
      setLength reg (some length)
      match elem with
      | some _ => return .stmts (acc ++ [.collection head (.type t) items])
      | none =>
        let n ← openPart (.type t)
        modify fun s => { s with empties := (n, reg) :: s.empties }
        return .stmts (acc ++ [.collection head (.later n) items])) := by
  have hdone (n : Target.Node) : Plain (acc ++ [.collection head n items]) := hacc.append (by simp [Plain, survey])
  refine .bind (drifts_declare hreg t) fun _ => .bind ?_ fun _ => ?_
  · exact .modify fun _ hs => ⟨.of_eq (hs.of_eq rfl rfl) rfl rfl, rfl⟩
  split
  · exact .stmts (hdone _)
  refine .bind (drifts_openPart (by simp [survey])) fun n => .bind ?_ fun _ => .stmts (hdone _)
  exact .modify fun _ hs => ⟨.of_eq ⟨hs.parts, forall_mem_cons.2 ⟨hreg, hs.empties⟩⟩ rfl rfl, rfl⟩

theorem evaluated_collect {n : Nat} (ih : Evaluates fuel) {op : String} {length : Int}
    {code : List Instr} {elem : Option Ty} (hreg : isRegister reg = true) (hcode : Elements n code)
    (hq : s.queue = code ++ q) (hs : Sound s) (hacc : Plain acc)
    (h : (collect .fourth known (fuel + 1) head reg op length n items elem acc).run s = .ok made s') :
    Evaluated q s s' made := by
  rw [collect] at h
  cases hcode with
  | nil =>
    rw [nil_append] at hq
    exact hq ▸ (computes_collected elem _ hreg hacc).evaluated hs h
  | element value hcode =>
    obtain ⟨s1, -, hd1, hrest, h⟩ := of_run_pop hs hq h
    obtain ⟨v, s2, hd2, hq2, h⟩ := Drifts.peel (.ofExcept _) hd1.sound h
    rw [Nat.cast_succ, add_sub_cancel_right] at h
    exact (ih.collect hreg hcode (hq2.trans hrest) hd2.sound hacc h).after (hd1.trans hd2)
  | @piece _ _ n hp hcode =>
    obtain ⟨i, p, rfl⟩ := hp.exists_cons
    rw [List.append_assoc] at hq
    obtain ⟨s1, -, hd1, hrest, h⟩ := of_run_pop hs hq h
    split at h
    · exact absurd rfl (hp.ne_element _)
    obtain ⟨made1, s2, hbuild, h⟩ := of_run_bind h
    have hpiece := ih.piece hp hrest hd1.sound hbuild
    have hcollect {elem : Option Ty} {s3 : Build} (hd3 : Drift s2 s3) (hq3 : s3.queue = s2.queue)
        (h : (MonadExcept.ofExcept (made1.addTo acc) >>= fun acc =>
          collect .fourth known fuel head reg op length (n + 1 : Nat) items elem acc : BuildM Made).run s3 =
            .ok made s') : Evaluated q s s' made := by
      obtain ⟨acc', hacc', hrest⟩ := of_run_ofExcept h
      refine (ih.collect hreg hcode (hq3.trans hpiece.queue) hd3.sound ?_ hrest).after
        (hd1.trans (hpiece.drift.trans hd3))
      exact plain_addTo hpiece.neutral hacc' hacc
    cases elem with
    | some t => exact hcollect (.refl hpiece.drift.sound) rfl h
    | none =>
      dsimp only at h
      split at h
      · obtain ⟨t, s3, hd3, hq3, h⟩ := Drifts.peel ((drifts_typeOf _).map some) hpiece.drift.sound h
        exact hcollect hd3 hq3 h
      · cases h

theorem evaluates (fuel : Nat) : Evaluates fuel := by
  induction fuel using Nat.strong_induction_on with
  | _ fuel ih =>
    refine ⟨fun {known i p q s made s'} hp hq hs h => ?_,
      fun {known head reg op length n code q items elem acc s made s'} hreg hcode hq hs hacc h => ?_⟩
    · obtain ⟨n, rfl, hcore⟩ := exists_of_run_buildInstr h
      cases hp with
      | single hi =>
        rw [nil_append] at hq
        exact hq ▸ (computes_core hi n).evaluated hs hcore
      | call name reg hresult => exact evaluated_call hresult hq hs hcore
      | collection op hreg hitems =>
        obtain ⟨x, rfl, hx⟩ := exists_register hreg
        exact (ih n (by omega)).collect hreg hitems hq hs .nil hcore
    · cases fuel with
      | zero => cases h
      | succ fuel => exact evaluated_collect (ih fuel (by omega)) hreg hcode hq hs hacc h

end Tabc.Declaration
