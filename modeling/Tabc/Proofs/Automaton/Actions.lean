import Tabc.Proofs.Automaton.Follow

/-!
# Actions known from kernels

Building the table of a grammar in which the start symbol stands in no other body never fails
(`exists_build`). What it does in the state of a kernel is known from the kernel's closure and the terminals
that may follow (`move?_shift`, `move?_reduce`, `goto?_stateOf`).
-/

open List

namespace Tabc.Automaton

open Tabc.Grammar Tabc.Core

variable {g : Rules}

/-- The start symbol stands in the added rule only, and the end of the input in no rule. -/
structure Started (g : Rules) : Prop extends Proper g where
  body : (g.rule 0).body = [g.start]
  alone : ∀ r < g.rules.size, g.start ∈ (g.rule r).body → r = 0
  ends : g.isTerminal g.endMark = false

theorem closeQueue_final (h : ∀ x ∈ queue, x.next? g = none) : closeQueue g fuel queue seen = queue := by
  induction fuel generalizing queue seen with
  | zero => rfl
  | succ fuel ih =>
    cases queue with
    | nil => rfl
    | cons i queue =>
      unfold closeQueue
      rw [h i mem_cons_self]
      exact congrArg (i :: ·) (ih fun x hx => h x (.tail _ hx))

@[simp] theorem closure_nil (g : Rules) : closure g [] = [] := closeQueue_final (by simp)

theorem rule_eq_zero_of_accept (hg : Started g) {j : Nat} {q : ItemSet}
    (hq : (states g)[j]? = some q) {i : Item} (hi : i ∈ q.items) (hfinal : i.next? g = none)
    (hzero : i.rule = 0) : ∀ x ∈ q.items, x.rule = 0 := by
  have hex := explored_all hg.size
  have hknown := (hex.tidy hg.size j hq).known
  have hdot : i.dot = 1 := by
    have hle := (mem_allItems.1 (hknown i hi)).2
    have hge := List.getElem?_eq_none_iff.1 hfinal
    rw [hzero, hg.body, length_singleton] at hle hge
    omega
  have hk := hex.mem_kernel (mem_of_getElem? hq) hi (by omega)
  cases j with
  | zero =>
    obtain ⟨q', hq', hk'⟩ := hex.first
    obtain rfl : q = q' := Option.some.inj (hq.symm.trans hq')
    rw [hk', mem_singleton] at hk
    rw [hk] at hdot
    cases hdot
  | succ j =>
    obtain ⟨_, p, -, hp, hf⟩ := hex.entered j q hq
    have hentry : q.entry = g.start := by
      have he := entry_of_mem_kernel hf hk
      rw [hzero, hdot, hg.body] at he
      exact (Option.some.inj he).symm
    -- every item of the kernel has moved over the start symbol
    have hkernel : ∀ x ∈ q.kernel, x.rule = 0 ∧ x.next? g = none := by
      intro x hx
      have he := entry_of_mem_kernel hf hx
      rw [hentry] at he
      rw [hf.2.1] at hx
      obtain ⟨y, hy, -, rfl⟩ := mem_gotoKernel.1 hx
      have hy' := mem_allItems.1 ((hex.tidy hg.size _ hp).known y hy)
      have hrule : y.rule = 0 := hg.alone y.rule hy'.1 (mem_of_getElem? he)
      refine ⟨hrule, ?_⟩
      unfold Item.next? Item.advance
      rw [hrule, hg.body, getElem?_eq_none (by simp)]
    have hitems : q.items = q.kernel := by
      rw [hex.closed q (mem_of_getElem? hq)]
      exact closeQueue_final fun x hx => (hkernel x hx).2
    exact fun x hx => (hkernel x (hitems ▸ hx)).1

namespace Filling

variable {i : Item} {f : Filling}

theorem reducing_ne_accept {it : Item} {s : Nat} {present : Option (Move × Item)}
    (h : ∀ it, present ≠ some (.accept, it)) : reducing g i s present ≠ some (.accept, it) := by
  intro hm
  unfold reducing at hm
  split at hm
  · cases hm
  · split at hm
    · cases hm
    · split at hm <;> cases hm
  · split at hm <;> cases hm
  · exact h _ rfl

theorem exists_run_reduces (ss : List Nat) (h : ∀ s it, f.present s ≠ some (.accept, it)) :
    ∃ f', (ss.forM (reduce g state i)).run f = .ok () f' := by
  induction ss generalizing f with
  | nil => exact ⟨f, rfl⟩
  | cons s ss ih =>
    obtain ⟨f1, hf1, hchange⟩ := (run_reduce g state i s f).resolve_left fun hacc => absurd hacc.1.choose_spec (h s _)
    have h1 : ∀ x it, f1.present x ≠ some (.accept, it) := by
      intro x it
      rw [hchange x]
      split
      · exact reducing_ne_accept (h s)
      · exact h x it
    obtain ⟨f', hf'⟩ := ih h1
    refine ⟨f', ?_⟩
    rw [forM_eq_forM, forM_cons, run_bind_of_ok hf1]
    exact hf'

def AllAsked (g : Rules) (q : ItemSet) (f : Filling) : Prop := ∀ s m it, f.present s = some (m, it) → Asked g q s m it

theorem exists_run_item (hg : Started g) (hq : (states g)[j]? = some q)
    (hi : i ∈ q.items) (hf : AllAsked g q f) (state : Nat) :
    ∃ f', (item g q state ((lookaheads g (states g).toArray).getD j []) i).run f = .ok () f' := by
  unfold item
  cases hnext : i.next? g with
  | none =>
    by_cases hzero : i.rule = 0
    · rw [if_pos (by simpa using hzero)]
      exact ⟨_, rfl⟩
    rw [if_neg (by simpa using hzero)]
    obtain ⟨set, hset⟩ := exists_lookahead hg.toProper hq hi hnext hzero
    rw [hset]
    refine exists_run_reduces set.toList fun s it hacc => hzero ?_
    obtain ⟨hit, hfinal, hrule, -⟩ := (hf s _ it hacc).start
    exact rule_eq_zero_of_accept hg hq hit hfinal hrule i hi
  | some s =>
    dsimp only
    split
    · rename_i hterm
      cases hgoto : q.goto? s with
      | none => exact ⟨_, rfl⟩
      | some target =>
        rcases run_shift g state i s target f with ⟨⟨m, it, hm, rfl | ⟨k, rfl, hk⟩⟩, -⟩ | ⟨f', hrun, -⟩
        · obtain ⟨-, -, -, hend⟩ := (hf s _ it hm).start
          rw [hend, hg.ends] at hterm
          cases hterm
        · have hk' := ((hf s _ it hm).goto).2
          rw [hgoto] at hk'
          exact absurd (Option.some.inj hk').symm hk
        · exact ⟨f', hrun⟩
    · exact ⟨_, rfl⟩

theorem exists_run_items (hg : Started g) (hq : (states g)[j]? = some q)
    (is : List Item) (his : ∀ i ∈ is, i ∈ q.items) (hf : AllAsked g q f) (state : Nat) :
    ∃ f', (is.forM (item g q state ((lookaheads g (states g).toArray).getD j []))).run f = .ok () f' := by
  induction is generalizing f with
  | nil => exact ⟨f, rfl⟩
  | cons i is ih =>
    have hi := his i (.head _)
    obtain ⟨f1, hf1⟩ := exists_run_item hg hq hi hf state
    have hasked : AllAsked g q f1 := by
      intro s m it hm
      rw [run_item hf1 s] at hm
      exact .asking hi (fun m it => hf s m it) hm
    obtain ⟨f', hf'⟩ := ih (fun x hx => his x (.tail _ hx)) hasked
    refine ⟨f', ?_⟩
    rw [forM_eq_forM, forM_cons, run_bind_of_ok hf1]
    exact hf'

end Filling

theorem exists_run_addRow (hg : Started g) (hq : (states g)[j]? = some q) (t : Table) :
    ∃ t', (Table.addRow g q ((lookaheads g (states g).toArray).getD j [])).run t = .ok () t' := by
  unfold Table.addRow
  rw [EStateM.run_bind, EStateM.run_get]
  dsimp only
  obtain ⟨f, hf⟩ := Filling.exists_run_items hg hq q.items (fun _ h => h)
    (f := ⟨⟨q.items, [], [], [], []⟩, t.shiftReduce, t.reduceReduce, t.reduced⟩)
    (fun s m it h => by cases h) t.rows.size
  rw [hf]
  exact ⟨_, rfl⟩

theorem exists_build (hg : Started g) (reduced : Array Int) : ∃ t, Table.build g reduced = .ok t := by
  have hfold : ∀ (qs : List (ItemSet × Nat)) (t : Table),
      (∀ p ∈ qs, (states g)[p.2]? = some p.1) → ∃ t', (qs.forM fun p =>
        Table.addRow g p.1 ((lookaheads g (states g).toArray).getD p.2 [])).run t = .ok () t' := by
    intro qs
    induction qs with
    | nil => exact fun t _ => ⟨t, rfl⟩
    | cons p qs ih =>
      intro t hqs
      obtain ⟨t1, ht1⟩ := exists_run_addRow hg (hqs p (.head _)) t
      obtain ⟨t', ht'⟩ := ih t1 fun p hp => hqs p (.tail _ hp)
      refine ⟨t', ?_⟩
      rw [forM_eq_forM, forM_cons, run_bind_of_ok ht1]
      exact ht'
  obtain ⟨t, ht⟩ := hfold (states g).zipIdx (.empty reduced) fun p hp => mem_zipIdx_iff_getElem?.1 hp
  refine ⟨t, ?_⟩
  have hfill : (Table.fill g).run (.empty reduced) = .ok () t := by
    exact ht
  unfold Table.build
  rw [hfill]

namespace Filling

variable {q : ItemSet} {ahead : List (Nat × SymbolSet)} {s : Nat}

theorem not_reduceWins_of_shiftWins (h : shiftWins g s rule = true) :
    reduceWins g s rule = false ∧ clashes g s rule = false := by
  unfold shiftWins at h
  unfold reduceWins clashes
  generalize (g.rule rule).prec.assoc = assoc at h ⊢
  cases assoc <;> simp at h ⊢ <;> omega

theorem not_shiftWins_of_reduceWins (h : reduceWins g s rule = true) :
    shiftWins g s rule = false ∧ clashes g s rule = false := by
  unfold reduceWins at h
  unfold shiftWins clashes
  generalize (g.rule rule).prec.assoc = assoc at h ⊢
  cases assoc <;> simp at h ⊢ <;> omega

/-- The terminal is shifted, whatever complete rules ask for. -/
def Shifted (target : Nat) (present : Option (Move × Item)) : Prop := ∃ it, present = some (.shift target, it)

/-- Nothing is to be done, or a reduction that gives way to the terminal. -/
def Yielding (g : Rules) (s : Nat) (present : Option (Move × Item)) : Prop :=
  ∀ m it, present = some (m, it) → m = .reduce it.rule ∧ shiftWins g s it.rule = true

variable {i c : Item} {present : Option (Move × Item)} {target : Nat}

theorem reducing_yielding (hi : shiftWins g s i.rule = true) (target : Nat) :
    (Yielding g s present → Yielding g s (reducing g i s present)) ∧
      (Shifted target present → Shifted target (reducing g i s present)) := by
  constructor
  · intro h
    have hnew : Yielding g s (some (.reduce i.rule, i)) := by
      rintro m it ⟨⟩
      exact ⟨rfl, hi⟩
    cases present with
    | none => exact hnew
    | some mi =>
      obtain ⟨m, it⟩ := mi
      obtain ⟨rfl, hit⟩ := h m it rfl
      unfold reducing
      dsimp only
      split
      · exact hnew
      · exact h
  · rintro ⟨it, rfl⟩
    obtain ⟨hred, hcl⟩ := not_reduceWins_of_shiftWins hi
    refine ⟨it, ?_⟩
    unfold reducing
    simp [hred, hcl]

theorem foldl_reducing_yielding (hi : shiftWins g s i.rule = true) (xs : List Nat) (present : Option (Move × Item)) :
    (Yielding g s present → Yielding g s (xs.foldl (fun p x => if x = s then reducing g i s p else p) present)) ∧
    (Shifted target present →
      Shifted target (xs.foldl (fun p x => if x = s then reducing g i s p else p) present)) := by
  induction xs generalizing present with
  | nil => exact ⟨id, id⟩
  | cons x xs ih =>
    rw [foldl_cons]
    split
    · exact ⟨fun h => (ih _).1 ((reducing_yielding hi target).1 h),
        fun h => (ih _).2 ((reducing_yielding hi target).2 h)⟩
    · exact ih present

theorem asking_complete (q : ItemSet) (ahead : List (Nat × SymbolSet)) (hi : i.next? g = none)
    (hlose : i.rule ≠ 0 ∧ shiftWins g s i.rule = true) (target : Nat)
    (present : Option (Move × Item)) :
    (Yielding g s present → Yielding g s (asking g q ahead s present i)) ∧
      (Shifted target present → Shifted target (asking g q ahead s present i)) := by
  unfold asking
  rw [hi]
  dsimp only
  rw [if_neg hlose.1]
  split
  · exact ⟨id, id⟩
  · exact foldl_reducing_yielding hlose.2 _ present

theorem asking_before (hi : i.next? g = some s) (hterm : g.isTerminal s = true)
    (hgoto : q.goto? s = some target) (h : Yielding g s present ∨ Shifted target present) :
    Shifted target (asking g q ahead s present i) := by
  unfold asking
  simp only [hi, hterm, hgoto, and_self, if_true]
  rcases h with h | ⟨it, rfl⟩
  · cases present with
    | none => exact ⟨i, rfl⟩
    | some mi =>
      obtain ⟨m, it⟩ := mi
      obtain ⟨rfl, hit⟩ := h m it rfl
      refine ⟨i, ?_⟩
      unfold shifting
      simp [hit]
  · exact ⟨it, rfl⟩

theorem asking_other (hi : i.next? g = some x) (hx : x ≠ s)
    (present : Option (Move × Item)) : asking g q ahead s present i = present := by
  unfold asking
  rw [hi]
  simp [hx]

theorem foldl_asking_shift (ahead : List (Nat × SymbolSet)) (hterm : g.isTerminal s = true)
    (hgoto : q.goto? s = some target) (is : List Item)
    (hlose : ∀ i ∈ is, i.next? g = none → i.rule ≠ 0 ∧ shiftWins g s i.rule = true)
    (present : Option (Move × Item)) :
    (Shifted target present → Shifted target (is.foldl (asking g q ahead s) present)) ∧
    (Yielding g s present → (∃ i ∈ is, i.next? g = some s) →
      Shifted target (is.foldl (asking g q ahead s) present)) := by
  induction is generalizing present with
  | nil => exact ⟨id, fun _ ⟨_, h, _⟩ => absurd h not_mem_nil⟩
  | cons i is ih =>
    obtain ⟨ihs, ihy⟩ := ih (fun x hx => hlose x (.tail _ hx)) (asking g q ahead s present i)
    rw [foldl_cons]
    cases hi : i.next? g with
    | none =>
      obtain ⟨hy, hs⟩ := asking_complete q ahead hi (hlose i (.head _) hi) target present
      refine ⟨fun h => ihs (hs h), fun h hex => ihy (hy h) ?_⟩
      obtain ⟨x, hx, hnext⟩ := hex
      rcases mem_cons.1 hx with rfl | hx
      · rw [hi] at hnext
        cases hnext
      · exact ⟨x, hx, hnext⟩
    | some x =>
      by_cases hx : x = s
      · have hbefore : ∀ h : Yielding g s present ∨ Shifted target present,
            Shifted target (asking g q ahead s present i) := asking_before (hx ▸ hi) hterm hgoto
        exact ⟨fun h => ihs (hbefore (.inr h)), fun h _ => ihs (hbefore (.inl h))⟩
      · rw [asking_other hi hx] at ihs ihy ⊢
        refine ⟨ihs, fun h hex => ihy h ?_⟩
        obtain ⟨y, hy, hnext⟩ := hex
        rcases mem_cons.1 hy with rfl | hy
        · rw [hi] at hnext
          exact absurd (Option.some.inj hnext) hx
        · exact ⟨y, hy, hnext⟩

/-- Nothing is to be done, or a shift that gives way to the rule. -/
def Waiting (g : Rules) (s rule : Nat) (present : Option (Move × Item)) : Prop :=
  ∀ m it, present = some (m, it) → (∃ j, m = .shift j) ∧ reduceWins g s rule = true

theorem foldl_reducing_self (c : Item) (xs : List Nat) :
    xs.foldl (fun p x => if x = s then reducing g c s p else p) (some (.reduce c.rule, c)) =
      some (.reduce c.rule, c) := by
  induction xs with
  | nil => rfl
  | cons x xs ih =>
    rw [foldl_cons]
    split
    · rw [show reducing g c s (some (.reduce c.rule, c)) = some (.reduce c.rule, c) by simp [reducing]]
      exact ih
    · exact ih

theorem reducing_waiting (h : Waiting g s c.rule present) : reducing g c s present = some (.reduce c.rule, c) := by
  cases present with
  | none => rfl
  | some mi =>
    obtain ⟨m, it⟩ := mi
    obtain ⟨⟨j, rfl⟩, hwin⟩ := h m it rfl
    unfold reducing
    simp [hwin]

theorem foldl_reducing_waiting {xs : List Nat} (hs : s ∈ xs) (h : Waiting g s c.rule present) :
    xs.foldl (fun p x => if x = s then reducing g c s p else p) present = some (.reduce c.rule, c) := by
  induction xs with
  | nil => cases hs
  | cons x xs ih =>
    rw [foldl_cons]
    by_cases hx : x = s
    · rw [if_pos hx, reducing_waiting h, foldl_reducing_self]
    · rw [if_neg hx]
      exact ih (mem_of_ne_of_mem (Ne.symm hx) hs)

theorem asking_self (hnext : c.next? g = none) (hrule : c.rule ≠ 0) {set : SymbolSet}
    (hset : ahead.lookup c.rule = some set) (hs : s ∈ set.toList)
    (h : Waiting g s c.rule present ∨ present = some (.reduce c.rule, c)) :
    asking g q ahead s present c = some (.reduce c.rule, c) := by
  unfold asking
  simp only [hnext, hrule, hset, if_false]
  rcases h with h | rfl
  · exact foldl_reducing_waiting hs h
  · exact foldl_reducing_self c _

theorem asking_losing (q : ItemSet) (ahead : List (Nat × SymbolSet)) (hi : i.next? g = some s)
    (hwin : reduceWins g s c.rule = true) (present : Option (Move × Item)) :
    (Waiting g s c.rule present → Waiting g s c.rule (asking g q ahead s present i)) ∧
      (present = some (.reduce c.rule, c) → asking g q ahead s present i = some (.reduce c.rule, c)) := by
  unfold asking
  rw [hi]
  dsimp only
  split
  · split
    · constructor
      · intro h
        cases present with
        | none =>
          rintro m it ⟨⟩
          exact ⟨⟨_, rfl⟩, hwin⟩
        | some mi =>
          obtain ⟨m, it⟩ := mi
          obtain ⟨⟨j, rfl⟩, -⟩ := h m it rfl
          exact h
      · rintro rfl
        obtain ⟨hsh, hcl⟩ := not_shiftWins_of_reduceWins hwin
        unfold shifting
        simp [hsh, hcl]
    · exact ⟨id, id⟩
  · exact ⟨id, id⟩

theorem foldl_asking_reduce (hnext : c.next? g = none) (hrule : c.rule ≠ 0) {set : SymbolSet}
    (hset : ahead.lookup c.rule = some set) (hs : s ∈ set.toList) (is : List Item)
    (honly : ∀ i ∈ is, i.next? g = none → i = c)
    (hwin : ∀ i ∈ is, i.next? g = some s → reduceWins g s c.rule = true)
    (present : Option (Move × Item)) :
    (present = some (.reduce c.rule, c) → is.foldl (asking g q ahead s) present = some (.reduce c.rule, c)) ∧
    (Waiting g s c.rule present → c ∈ is → is.foldl (asking g q ahead s) present = some (.reduce c.rule, c)) := by
  induction is generalizing present with
  | nil => exact ⟨id, fun _ h => absurd h not_mem_nil⟩
  | cons i is ih =>
    obtain ⟨ihd, ihw⟩ := ih (fun x hx => honly x (.tail _ hx))
      (fun x hx => hwin x (.tail _ hx)) (asking g q ahead s present i)
    rw [foldl_cons]
    cases hi : i.next? g with
    | none =>
      obtain rfl := honly i (.head _) hi
      exact ⟨fun h => ihd (asking_self hnext hrule hset hs (.inr h)),
        fun h _ => ihd (asking_self hnext hrule hset hs (.inl h))⟩
    | some x =>
      have hne : c ≠ i := by
        rintro rfl
        rw [hi] at hnext
        cases hnext
      by_cases hx : x = s
      · obtain ⟨hwait, hdone⟩ := asking_losing q ahead (hx ▸ hi) (hwin i (.head _) (hx ▸ hi)) present
        exact ⟨fun h => ihd (hdone h), fun h hc => ihw (hwait h) (mem_of_ne_of_mem hne hc)⟩
      · rw [asking_other hi hx] at ihd ihw ⊢
        exact ⟨ihd, fun h hc => ihw h (mem_of_ne_of_mem hne hc)⟩

end Filling

/-- The kernel that a kernel is led to by some symbols. -/
def walk (g : Rules) (k : List Item) (ss : List Nat) : List Item := ss.foldl (fun k s => gotoKernel g (closure g k) s) k

variable {k : List Item}

theorem along_body (hsize : 0 < g.rules.size) (hk : Reached g k)
    (hx : (⟨r, 0⟩ : Item) ∈ closure g k) (hd : d ≤ (g.rule r).body.length) :
    Reached g (walk g k ((g.rule r).body.take d)) ∧
      (automaton g).along (stateOf g k) ((g.rule r).body.take d) = stateOf g (walk g k ((g.rule r).body.take d)) ∧
      (⟨r, d⟩ : Item) ∈ closure g (walk g k ((g.rule r).body.take d)) := by
  induction d with
  | zero => exact ⟨hk, rfl, hx⟩
  | succ d ih =>
    obtain ⟨hreach, halong, hmem⟩ := ih (by omega)
    obtain ⟨s, hnext⟩ : ∃ s, (g.rule r).body[d]? = some s := ⟨_, getElem?_eq_getElem (Nat.lt_of_succ_le hd)⟩
    rw [take_add_one, hnext]
    generalize (g.rule r).body.take d = ss at hreach halong hmem
    have hadv : (⟨r, d + 1⟩ : Item) ∈ gotoKernel g (closure g (walk g k ss)) s :=
      mem_gotoKernel.2 ⟨⟨r, d⟩, hmem, hnext, rfl⟩
    obtain ⟨q, hq, -, -⟩ := hreach.state
    obtain ⟨hgoto, hreach'⟩ := hreach.goto? hsize rfl (ne_nil_of_mem hadv) hq
    have hwalk : walk g k (ss ++ [s]) = gotoKernel g (closure g (walk g k ss)) s := by simp [walk]
    refine ⟨hwalk ▸ hreach', ?_, ?_⟩
    · have hstep : (automaton g).along (stateOf g k) (ss ++ [s]) =
          (automaton g).goto ((automaton g).along (stateOf g k) ss) s := by simp [Moves.along]
      rw [Option.toList_some, hstep, halong, goto_automaton hq, hgoto, hwalk]
      rfl
    · rw [Option.toList_some, hwalk]
      exact kernel_subset_closure hadv

theorem mem_items_stateOf (hk : Reached g k) (hx : x ∈ closure g k) : x ∈ (automaton g).items (stateOf g k) := by
  obtain ⟨q, hq, -, hitems⟩ := hk.state
  rw [items_automaton hq, hitems]
  exact hx

/-- A terminal that may follow a symbol in the state of a kernel. -/
def FollowsIn (g : Rules) (k : List Item) (s a : Nat) : Prop := Follows g (stateOf g k) s a

namespace FollowsIn

variable {k : List Item} {s a : Nat}

theorem read (hsize : 0 < g.rules.size) (hk : Reached g k)
    (hi : i ∈ closure g (gotoKernel g (closure g k) s)) (ha : i.next? g = some a)
    (hterm : g.isTerminal a = true) : FollowsIn g k s a := by
  obtain ⟨q, hq, -, -⟩ := hk.state
  have hne : gotoKernel g (closure g k) s ≠ [] := by
    intro hnil
    rw [hnil, closure_nil] at hi
    cases hi
  obtain ⟨hgoto, hreach⟩ := hk.goto? hsize rfl hne hq
  refine Follows.read ?_ ha hterm
  rw [goto_automaton hq, hgoto]
  exact mem_items_stateOf hreach hi

theorem inherit (hsize : 0 < g.rules.size) (hk : Reached g k) (hr : r ≠ 0)
    (hbegin : (⟨r, 0⟩ : Item) ∈ closure g k) (hbody : (g.rule r).body = ss ++ [s])
    (h : FollowsIn g k (g.rule r).head a) : FollowsIn g (walk g k ss) s a := by
  have hd : ss.length ≤ (g.rule r).body.length := by
    rw [hbody]
    simp
  have htake : (g.rule r).body.take ss.length = ss := by
    rw [hbody]
    simp
  have halong := (along_body hsize hk hbegin hd).2.1
  rw [htake] at halong
  unfold FollowsIn
  rw [← halong]
  exact .inherit hr (mem_items_stateOf hk hbegin) hbody h

end FollowsIn

theorem exists_row {t : Table} (ht : Table.build g reduced = .ok t) (hk : Reached g k) :
    ∃ q row, (states g)[stateOf g k]? = some q ∧ q.items = closure g k ∧ t.rows[stateOf g k]? = some row ∧
      row.Of g q ((lookaheads g (states g).toArray).getD (stateOf g k) []) := by
  obtain ⟨q, hq, -, hitems⟩ := hk.state
  obtain ⟨row, hrow, hof⟩ := (rows_of_build ht).2 _ q hq
  exact ⟨q, row, hq, hitems, hrow, hof⟩

end Tabc.Automaton
