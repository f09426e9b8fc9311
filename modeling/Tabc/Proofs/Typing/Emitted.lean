import Tabc.Proofs.Typing.Overloads

/-!
# Names of emitted functions

An emitted function has its name in the program followed by the next number of a fixed list. These numbers are
all different and have four digits each, so no two emitted names are equal, whatever they begin with.
-/

open List

namespace Tabc

open EStateM (run_bind run_get)

namespace Scope

/-- No number of a list comes twice or is a bit of `seen`. -/
def unseen (seen : Nat) : List Nat → Bool
  | [] => true
  | n :: rest => !seen.testBit n && unseen (seen ||| 2 ^ n) rest

theorem nodup_of_unseen (seen : Nat) (h : unseen seen ns = true) : ns.Nodup ∧ ∀ n ∈ ns, seen.testBit n = false := by
  induction ns generalizing seen with
  | nil => simp
  | cons n rest ih =>
    rw [unseen, Bool.and_eq_true, Bool.not_eq_true'] at h
    obtain ⟨hrest, hmem⟩ := ih _ h.2
    simp only [Nat.testBit_or, Nat.testBit_two_pow, Bool.or_eq_false_iff, decide_eq_false_iff_not] at hmem
    exact ⟨nodup_cons.2 ⟨fun hn => (hmem n hn).2 rfl, hrest⟩, forall_mem_cons.2 ⟨h.1, fun m hm => (hmem m hm).1⟩⟩

theorem suffixes_length : suffixes.length = 1000 := by decide +kernel

theorem suffixes_nodup : suffixes.Nodup := (nodup_of_unseen 0 (by decide +kernel)).1

theorem length_of_mem_suffixes {n : Nat} (h : n ∈ suffixes) : (Nat.repr n).toList.length = 4 := by
  have hbounds : ∀ n ∈ suffixes, 1000 ≤ n ∧ n < 10000 := by decide +kernel
  have hle := Nat.length_repr_le_iff (n := n) (k := 4) (by decide)
  have hlt := Nat.length_repr_le_iff (n := n) (k := 3) (by decide)
  have := hbounds n h
  rw [String.length_toList]
  omega

theorem eq_of_append_toString {a b : String} {m n : Nat} (hm : m ∈ suffixes) (hn : n ∈ suffixes)
    (h : a ++ toString m = b ++ toString n) : m = n := by
  have h := congrArg String.toList h
  rw [String.toList_append, String.toList_append] at h
  have hlength := (length_of_mem_suffixes hm).trans (length_of_mem_suffixes hn).symm
  exact Nat.repr_inj.1 (String.toList_inj.1 (append_inj' h hlength).2)

end Scope

namespace ScopeTable

/-- An operation on a table. -/
inductive Call where
  | freshName (name : String)
  | emitFunction (name : String) (types : List Held) (result : Held)
  | change (act : Act)
  | lookupVariable (name : String)
  | lookupFunction (name : String) (types : List Held)
  | functionByNames (name : String) (names : List ParamName)
  | emittedFunction (name : String) (types : List Held)
  | updateVariable (name : String) (type : Held)
  | expect (result : Held)
  | unexpect

/-- The name that an operation puts a number behind. -/
def Call.base? : Call → Option String
  | .freshName name | .emitFunction name _ _ => some name
  | _ => none

/-- A step that makes no name. -/
def silently (x : ScopeM α) : ScopeM (Option String) := do
  let _ ← x
  return none

def Call.perform : Call → ScopeM (Option String)
  | .freshName name => some <$> ScopeTable.freshName name
  | .emitFunction name types result => some <$> ScopeTable.emitFunction name types result
  | .change act => silently act.perform
  | .lookupVariable name => silently (ScopeTable.lookupVariable name)
  | .lookupFunction name types => silently (ScopeTable.lookupFunction .fourth name types)
  | .functionByNames name names => silently (ScopeTable.functionByNames name names)
  | .emittedFunction name types => silently (ScopeTable.emittedFunction name types)
  | .updateVariable name type => silently (ScopeTable.updateVariable name type)
  | .expect result => silently (ScopeTable.expect result)
  | .unexpect => silently ScopeTable.unexpect

/-- The names that operations make one after another, and the table at their end. An operation that is
refused makes no name, and the next one goes on from the table it leaves. -/
def made (t : ScopeTable) : List Call → List String × ScopeTable
  | [] => ([], t)
  | c :: rest => match c.perform.run t with
    | .ok name t' => (name.toList ++ (made t' rest).1, (made t' rest).2)
    | .error _ t' => made t' rest

variable {t : ScopeTable} {c : Call}

/-- The table that a step leaves, whether it is refused or not. -/
def leftBy : EStateM.Result Fault ScopeTable α → ScopeTable
  | .ok _ t => t
  | .error _ t => t

theorem run_silently (x : ScopeM α) (h : (leftBy (x.run t)).numbers = t.numbers) : ∃ t', t'.numbers = t.numbers ∧
    ((silently x).run t = .ok none t' ∨ ∃ fault, (silently x).run t = .error fault t') := by
  refine ⟨_, h, ?_⟩
  rw [silently, run_bind]
  cases x.run t with
  | ok a t' => exact .inl rfl
  | error fault t' => exact .inr ⟨fault, rfl⟩

theorem change_numbers (act : Act) : (leftBy (act.perform.run t)).numbers = t.numbers := by
  cases act with
  | openScope => rfl
  | closeScope =>
    simp only [Act.perform, closeScope, run_bind, run_get]
    split <;> rfl
  | «variable» name type =>
    simp only [Act.perform, declareVariable, run_bind, run_get]
    split <;> rfl
  | function name params result =>
    simp only [Act.perform, declareFunction, run_bind, run_get]
    repeat' split
    all_goals rfl

/-- An operation without a name to make leaves the numbers alone. -/
theorem run_of_base?_eq_none (hc : c.base? = none) (t : ScopeTable) : ∃ t', t'.numbers = t.numbers ∧
    (c.perform.run t = .ok none t' ∨ ∃ fault, c.perform.run t = .error fault t') := by
  cases c with
  | freshName | emitFunction => cases hc
  | change act => exact run_silently _ (change_numbers act)
  | expect result => exact run_silently _ rfl
  | _ =>
    refine run_silently _ ?_
    simp only [lookupVariable, lookupFunction, functionByNames, emittedFunction, updateVariable, unexpect,
      run_bind, run_get, EStateM.run_modify]
    repeat' split
    all_goals rfl

/-- Without a number left, an operation that is to make a name is refused and changes nothing. -/
theorem run_of_numbers_eq_nil (hc : c.base? = some name) (ht : t.numbers = []) :
    c.perform.run t = .error .outOfRange t := by
  have hfresh : (freshName name).run t = .error .outOfRange t := by
    rw [freshName, run_bind, run_get]
    simp only [ht]
    rfl
  cases c with
  | freshName =>
    cases hc
    rw [Call.perform, EStateM.run_map, hfresh]
    rfl
  | emitFunction =>
    cases hc
    rw [Call.perform, EStateM.run_map, emitFunction, run_bind, hfresh]
    rfl
  | _ => cases hc

/-- An operation that is to make a name takes the next number. It makes the name, unless it declares a function
under the name of a variable. -/
theorem run_of_numbers_eq_cons {n : Nat} {rest : List Nat} (hc : c.base? = some name) (ht : t.numbers = n :: rest) :
    ∃ t', t'.numbers = rest ∧ (c.perform.run t = .ok (some (name ++ toString n)) t' ∨
      (c ≠ .freshName name ∧ ∃ type, t.top.find? name = some (.variable type)) ∧ c.perform.run t = .error .noPart t') := by
  have hfresh : (freshName name).run t = .ok (name ++ toString n) { t with numbers := rest } := by simp [freshName, ht]
  cases c with
  | freshName =>
    cases hc
    refine ⟨{ t with numbers := rest }, rfl, .inl ?_⟩
    rw [Call.perform, EStateM.run_map, hfresh]
    rfl
  | emitFunction =>
    cases hc
    have htop : top { t with numbers := rest } = t.top := rfl
    simp only [Call.perform, EStateM.run_map, emitFunction, run_bind, hfresh, run_get, htop]
    cases hfind : t.top.find? name with
    | none => exact ⟨_, rfl, .inl rfl⟩
    | some entry =>
      cases entry with
      | functions os => exact ⟨_, rfl, .inl rfl⟩
      | «variable» type => exact ⟨_, rfl, .inr ⟨⟨by simp, type, rfl⟩, rfl⟩⟩
  | _ => cases hc

/-- Operations take a number for each name that they are to make, and names end with numbers that were left. -/
theorem made_spec (calls : List Call) (ht : t.numbers <:+ Scope.suffixes) :
    (made t calls).2.numbers = t.numbers.drop (calls.countP (·.base?.isSome)) ∧ (made t calls).1.Nodup ∧
      ∀ x ∈ (made t calls).1, ∃ a, ∃ n ∈ t.numbers, x = a ++ toString n := by
  induction calls generalizing t with
  | nil => simp [made]
  | cons c calls ih =>
    rw [made, countP_cons]
    cases hc : c.base? with
    | none =>
      obtain ⟨t', ht', hrun | ⟨fault, hrun⟩⟩ := run_of_base?_eq_none hc t <;>
      · rw [← ht'] at ht ⊢
        simpa [hrun] using ih ht
    | some name =>
      cases hn : t.numbers with
      | nil => simpa [run_of_numbers_eq_nil hc hn, hn] using ih ht
      | cons n rest =>
        rw [hn] at ht
        obtain ⟨t', rfl, hrun⟩ := run_of_numbers_eq_cons hc hn
        obtain ⟨hnumbers, hnodup, hends⟩ := ih ((suffix_cons n _).trans ht)
        have hlater : ∀ x ∈ (made t' calls).1, ∃ a, ∃ m ∈ n :: t'.numbers, x = a ++ toString m := by
          intro x hx
          obtain ⟨a, m, hm, hx⟩ := hends x hx
          exact ⟨a, m, .tail _ hm, hx⟩
        obtain hrun | ⟨-, hrun⟩ := hrun
        · have hnew : name ++ toString n ∉ (made t' calls).1 := by
            intro hmem
            obtain ⟨a, m, hm, heq⟩ := hends _ hmem
            obtain rfl := Scope.eq_of_append_toString (ht.subset (.head _)) (ht.subset (.tail _ hm)) heq
            exact (nodup_cons.1 (Scope.suffixes_nodup.sublist ht.sublist)).1 hm
          rw [hrun]
          exact ⟨by simpa using hnumbers, nodup_cons.2 ⟨hnew, hnodup⟩,
            forall_mem_cons.2 ⟨⟨name, n, .head _, rfl⟩, hlater⟩⟩
        · rw [hrun]
          exact ⟨by simpa using hnumbers, hnodup, hlater⟩

/-- Whatever is done with a new table, the names made are pairwise different. The first thousand operations that are
to make a name do so, unless one declares a function under the name of a variable; any later one is refused and
changes nothing. -/
theorem made_names_apart (calls : List Call) :
    (made (fresh .fourth) calls).1.Nodup ∧ ∀ (c : Call) (name : String), c.base? = some name →
      let t := (made (fresh .fourth) calls).2
      (calls.countP (·.base?.isSome) < 1000 → ∃ (n : Nat) (t' : ScopeTable),
        c.perform.run t = .ok (some (name ++ toString n)) t' ∨
        (c ≠ .freshName name ∧ ∃ type, t.top.find? name = some (.variable type)) ∧ c.perform.run t = .error .noPart t') ∧
      (1000 ≤ calls.countP (·.base?.isSome) → c.perform.run t = .error .outOfRange t) := by
  obtain ⟨hnumbers, hnodup, -⟩ := made_spec calls (t := fresh .fourth) suffix_rfl
  refine ⟨hnodup, fun c name hc => ⟨fun hlt => ?_, fun hle => ?_⟩⟩
  · rw [← Scope.suffixes_length] at hlt
    obtain ⟨t', -, hrun⟩ := run_of_numbers_eq_cons hc (hnumbers.trans (drop_eq_getElem_cons hlt))
    exact ⟨_, t', hrun⟩
  · exact run_of_numbers_eq_nil hc (hnumbers.trans (drop_eq_nil_of_le (Scope.suffixes_length.trans_le hle)))

/-- The first name is made, and after a thousand the next one is refused. -/
theorem made_names_apart_thousand :
    let calls := replicate 1000 (Call.freshName "f1")
    let t := (made (fresh .fourth) calls).2
    (∃ n t', (Call.freshName "f1").perform.run (fresh .fourth) = .ok (some ("f1" ++ Nat.repr n)) t') ∧
      calls.countP (·.base?.isSome) = 1000 ∧ (made (fresh .fourth) calls).1.Nodup ∧
      (Call.emitFunction "f" [] .nothing).perform.run t = .error .outOfRange t := by
  have hcount (k : Nat) : (replicate k (Call.freshName "f1")).countP (·.base?.isSome) = k := by
    simp [countP_replicate, Call.base?]
  obtain ⟨n, t', hrun⟩ := ((made_names_apart []).2 (.freshName "f1") "f1" rfl).1 (by decide)
  obtain ⟨hnodup, hnext⟩ := made_names_apart (replicate 1000 (.freshName "f1"))
  exact ⟨⟨n, t', hrun.resolve_right fun h => h.1.1 rfl⟩, hcount 1000, hnodup,
    (hnext (.emitFunction "f" [] .nothing) "f" rfl).2 (hcount 1000).ge⟩

end ScopeTable

end Tabc
