import Tabc.Proofs.Writing.Numeric

/-!
# Frozen assignments

`Block.frozen` puts into every assignment the value that its right side has when the text is read once from the
top down (`Block.pass`). If what is certain on every run gives these values (`Block.steady`), the runs are the
same (`Block.run_frozen`).
-/

open List

namespace Tabc.Core

namespace Store

variable {V : Type} {κ κ' s : Store V}

def Within (κ s : Store V) : Prop := ∀ x v, κ x = some v → s x = some v

/-- Takes the values of some variables away. -/
def forget (κ : Store V) (names : List String) : Store V := fun x => if x ∈ names then none else κ x

/-- The values that two stores have in common. -/
def meet [DecidableEq V] (κ κ' : Store V) : Store V := fun x => if κ x = κ' x then κ x else none

theorem Within.forget (h : κ.Within s) (names : List String) : (κ.forget names).Within s := by
  intro x v hx
  rw [Store.forget] at hx
  split at hx
  · cases hx
  · exact h x v hx

theorem forget_forget (κ : Store V) (names : List String) : (κ.forget names).forget names = κ.forget names := by
  funext x
  by_cases hx : x ∈ names <;> simp [forget, hx]

theorem Within.forget_of_eq (h : κ.Within s) (hframe : ∀ x, x ∉ names → s' x = s x) : (κ.forget names).Within s' := by
  intro x v hx
  rw [Store.forget] at hx
  split at hx
  · cases hx
  · next hmem => rw [hframe x hmem, h x v hx]

theorem Within.meet_left [DecidableEq V] (h : κ.Within s) : (κ.meet κ').Within s := by
  intro x v hx
  rw [Store.meet] at hx
  split at hx
  · exact h x v hx
  · cases hx

theorem Within.meet_right [DecidableEq V] (h : κ'.Within s) : (κ.meet κ').Within s := by
  intro x v hx
  rw [Store.meet] at hx
  split at hx
  · next heq => exact h x v (heq ▸ hx)
  · cases hx

theorem Within.update (h : κ.Within s)
    (ho : ∀ w, o = some w → w = v) : Store.Within (Function.update κ x o) (s.set x v) := by
  intro y w hy
  by_cases hyx : y = x
  · subst hyx
    rw [Function.update_self] at hy
    rw [set_self, ho w hy]
  · rw [Function.update_of_ne hyx] at hy
    rw [set_of_ne s v hyx, h y w hy]

end Store

variable {V : Type} {I : Interp V}

/-- What values of some variables say about an expression holds in every store that has them. -/
theorem Term.eval_of_within {κ s : Store V} (h : κ.Within s) {t : Term}
    (ht : t.eval I κ = some v) : t.eval I s = some v := by
  induction t generalizing v with
  | const a => exact ht
  | var x => exact h x v ht
  | unary op a ih =>
    simp only [Term.eval, bind_eq_some_iff] at ht ⊢
    obtain ⟨u, hu, hv⟩ := ht
    exact ⟨u, ih hu, hv⟩
  | binary a op b iha ihb =>
    simp only [Term.eval, bind_eq_some_iff] at ht ⊢
    obtain ⟨u, hu, w, hw, hv⟩ := ht
    exact ⟨u, iha hu, w, ihb hw, hv⟩

mutual

theorem Stmt.run_frame : ∀ (fuel : Nat) (st : Stmt) {s s' : Store V} {out : List (Event V)}
    {x : String}, st.run I fuel s = some (s', out) → x ∉ st.targets → s' x = s x
  | 0, st, s, s', out, x, hrun, _ => by cases hrun
  | fuel + 1, .assign y _ value, s, s', out, x, hrun, hx => by
    obtain ⟨v, -, ⟨⟩⟩ := bind_eq_some_iff.1 hrun
    exact s.set_of_ne v (by simpa [Stmt.targets] using hx)
  | fuel + 1, .print y, s, s', out, x, hrun, _ => by
    obtain ⟨v, -, ⟨⟩⟩ := bind_eq_some_iff.1 hrun
    rfl
  | fuel + 1, .whileDo cond body, s, s', out, x, hrun, hx => by
    obtain ⟨v, -, hrun⟩ := bind_eq_some_iff.1 hrun
    split at hrun
    · obtain ⟨⟨s1, out1⟩, hbody, hrun⟩ := bind_eq_some_iff.1 hrun
      obtain ⟨⟨s2, out2⟩, hloop, ⟨⟩⟩ := bind_eq_some_iff.1 hrun
      rw [Stmt.run_frame fuel (.whileDo cond body) hloop hx, body.run_frame fuel hbody hx]
    · cases hrun
      rfl
  | fuel + 1, .forRange y start stop step body, s, s', out, x, hrun, hx => by
    simp only [Stmt.run, bind_eq_some_iff] at hrun
    obtain ⟨a, -, b, -, c, -, hrun⟩ := hrun
    exact body.runEach_frame fuel hrun hx
  | fuel + 1, .chain cond body rest, s, s', out, x, hrun, hx => Tail.run_frame (fuel + 1) (.elif cond body rest) hrun hx
termination_by fuel => (fuel, 1)

theorem Block.run_frame : ∀ (fuel : Nat) (p : Block) {s s' : Store V} {out : List (Event V)}
    {x : String}, p.run I fuel s = some (s', out) → x ∉ p.targets → s' x = s x
  | 0, p, s, s', out, x, hrun, _ => by cases hrun
  | fuel + 1, .nil, s, s', out, x, hrun, _ => by
    cases hrun
    rfl
  | fuel + 1, .cons st rest, s, s', out, x, hrun, hx => by
    simp only [Block.targets, mem_append, not_or] at hx
    obtain ⟨⟨s1, out1⟩, hst, hrun⟩ := bind_eq_some_iff.1 hrun
    obtain ⟨⟨s2, out2⟩, hrest, ⟨⟩⟩ := bind_eq_some_iff.1 hrun
    rw [rest.run_frame fuel hrest hx.2, st.run_frame fuel hst hx.1]
termination_by fuel => (fuel, 0)

theorem Block.runEach_frame : ∀ (fuel : Nat) (p : Block) {y : String} {values : List V}
    {s s' : Store V} {out : List (Event V)} {x : String},
    p.runEach I y fuel values s = some (s', out) → x ∉ y :: p.targets → s' x = s x
  | 0, p, y, values, s, s', out, x, hrun, _ => by cases hrun
  | fuel + 1, p, y, [], s, s', out, x, hrun, _ => by
    cases hrun
    rfl
  | fuel + 1, p, y, v :: more, s, s', out, x, hrun, hx => by
    have hmem := hx
    simp only [mem_cons, not_or] at hmem
    obtain ⟨⟨s1, out1⟩, hbody, hrun⟩ := bind_eq_some_iff.1 hrun
    obtain ⟨⟨s2, out2⟩, hmore, ⟨⟩⟩ := bind_eq_some_iff.1 hrun
    rw [p.runEach_frame fuel hmore hx, p.run_frame fuel hbody hmem.2, s.set_of_ne v hmem.1]
termination_by fuel => (fuel, 0)

theorem Tail.run_frame : ∀ (fuel : Nat) (t : Tail) {s s' : Store V} {out : List (Event V)}
    {x : String}, t.run I fuel s = some (s', out) → x ∉ t.targets → s' x = s x
  | 0, t, s, s', out, x, hrun, _ => by cases hrun
  | fuel + 1, .done, s, s', out, x, hrun, _ => by
    cases hrun
    rfl
  | fuel + 1, .elif cond body rest, s, s', out, x, hrun, hx => by
    simp only [Tail.targets, mem_append, not_or] at hx
    obtain ⟨v, -, hrun⟩ := bind_eq_some_iff.1 hrun
    split at hrun
    · exact body.run_frame fuel hrun hx.1
    · exact rest.run_frame fuel hrun hx.2
  | fuel + 1, .otherwise body, s, s', out, x, hrun, hx => body.run_frame fuel hrun hx
termination_by fuel => (fuel, 0)

end

mutual

/-- The values after one pass over the text of a statement. -/
def Stmt.pass : Stmt → Store Int → Store Int
  | .assign x _ value, ρ => Function.update ρ x (value.eval ints ρ)
  | .print _, ρ => ρ
  | .whileDo _ body, ρ => body.pass ρ
  | .forRange _ _ _ _ body, ρ => body.pass ρ
  | .chain _ body rest, ρ => rest.pass (body.pass ρ)

def Block.pass : Block → Store Int → Store Int
  | .nil, ρ => ρ
  | .cons s rest, ρ => rest.pass (s.pass ρ)

def Tail.pass : Tail → Store Int → Store Int
  | .done, ρ => ρ
  | .elif _ body rest, ρ => rest.pass (body.pass ρ)
  | .otherwise body, ρ => body.pass ρ

end

/-- The constant that an expression is with these values, or else the expression. -/
def Term.frozen (t : Term) (ρ : Store Int) : Term :=
  match t.eval ints ρ with
  | some v => .const (.int v)
  | none => t

mutual

/-- A statement with a constant in each assignment. -/
def Stmt.frozen : Stmt → Store Int → Stmt
  | .assign x _ value, ρ => .assign x none (value.frozen ρ)
  | .print x, _ => .print x
  | .whileDo cond body, ρ => .whileDo cond (body.frozen ρ)
  | .forRange x start stop step body, ρ => .forRange x start stop step (body.frozen ρ)
  | .chain cond body rest, ρ => .chain cond (body.frozen ρ) (rest.frozen (body.pass ρ))

def Block.frozen : Block → Store Int → Block
  | .nil, _ => .nil
  | .cons s rest, ρ => .cons (s.frozen ρ) (rest.frozen (s.pass ρ))

def Tail.frozen : Tail → Store Int → Tail
  | .done, _ => .done
  | .elif cond body rest, ρ => .elif cond (body.frozen ρ) (rest.frozen (body.pass ρ))
  | .otherwise .nil, _ => .done
  | .otherwise (.cons s rest), ρ => .otherwise (.cons (s.frozen ρ) (rest.frozen (s.pass ρ)))

end

mutual

/-- The values that are certain after a statement, whatever a run does in it. -/
def Stmt.sure : Stmt → Store Int → Store Int
  | .assign x _ value, κ => Function.update κ x (value.eval ints κ)
  | .print _, κ => κ
  | .whileDo _ body, κ => κ.forget body.targets
  | .forRange x _ _ _ body, κ => κ.forget (x :: body.targets)
  | .chain _ body rest, κ => (body.sure κ).meet (rest.sure κ)

def Block.sure : Block → Store Int → Store Int
  | .nil, κ => κ
  | .cons s rest, κ => rest.sure (s.sure κ)

def Tail.sure : Tail → Store Int → Store Int
  | .done, κ => κ
  | .elif _ body rest, κ => (body.sure κ).meet (rest.sure κ)
  | .otherwise body, κ => body.sure κ

end

mutual

/-- In a statement, what is certain gives each assignment the value that one pass gives it. The body of
a loop starts with what no round of it changes. -/
def Stmt.steady : Stmt → Store Int → Store Int → Bool
  | .assign _ _ value, ρ, κ => value.eval ints κ == value.eval ints ρ
  | .print _, _, _ => true
  | .whileDo _ body, ρ, κ => body.steady ρ (κ.forget body.targets)
  | .forRange .., _, _ => false
  | .chain _ body rest, ρ, κ => body.steady ρ κ && rest.steady (body.pass ρ) κ

def Block.steady : Block → Store Int → Store Int → Bool
  | .nil, _, _ => true
  | .cons s rest, ρ, κ => s.steady ρ κ && rest.steady (s.pass ρ) (s.sure κ)

def Tail.steady : Tail → Store Int → Store Int → Bool
  | .done, _, _ => true
  | .elif _ body rest, ρ, κ => body.steady ρ κ && rest.steady (body.pass ρ) κ
  | .otherwise body, ρ, κ => body.steady ρ κ

end

theorem Term.eval_frozen {ρ κ s : Store Int} (h : κ.Within s) {t : Term}
    (heq : t.eval ints κ = t.eval ints ρ) (ht : t.eval ints s = some v) :
    (t.frozen ρ).eval ints s = some v := by
  rw [Term.frozen]
  cases hρ : t.eval ints ρ with
  | none => exact ht
  | some w =>
    have hw : t.eval ints s = some w := Term.eval_of_within h (heq.trans hρ)
    rw [ht] at hw
    cases hw
    rfl

mutual

/-- A steady statement runs as the frozen one does, and leaves what is certain after it. -/
theorem Stmt.run_frozen : ∀ (fuel : Nat) (st : Stmt) {ρ κ s s' : Store Int} {out : List (Event Int)},
    st.steady ρ κ = true → κ.Within s → st.run ints fuel s = some (s', out) →
    (st.frozen ρ).run ints fuel s = some (s', out) ∧ (st.sure κ).Within s'
  | 0, st, ρ, κ, s, s', out, _, _, hrun => by cases hrun
  | fuel + 1, .assign x _ value, ρ, κ, s, s', out, hsteady, hκ, hrun => by
    have heq : value.eval ints κ = value.eval ints ρ := by simpa [Stmt.steady] using hsteady
    obtain ⟨v, hv, ⟨⟩⟩ := bind_eq_some_iff.1 hrun
    refine ⟨by simp [Stmt.frozen, Stmt.run, Term.eval_frozen hκ heq hv], hκ.update fun w hw => ?_⟩
    have := Term.eval_of_within hκ hw
    rw [hv] at this
    exact (Option.some.inj this).symm
  | fuel + 1, .print x, ρ, κ, s, s', out, _, hκ, hrun => by
    refine ⟨hrun, ?_⟩
    obtain ⟨v, -, ⟨⟩⟩ := bind_eq_some_iff.1 hrun
    exact hκ
  | fuel + 1, .whileDo cond body, ρ, κ, s, s', out, hsteady, hκ, hrun => by
    -- the invariant of the loop is what no round changes
    have hframe : (κ.forget (Stmt.whileDo cond body).targets).Within s' := hκ.forget_of_eq fun x hx =>
      Stmt.run_frame (fuel + 1) (.whileDo cond body) hrun hx
    refine ⟨?_, hframe⟩
    rw [Stmt.frozen]
    simp only [Stmt.run, bind_eq_some_iff] at hrun ⊢
    obtain ⟨v, hv, hrun⟩ := hrun
    refine ⟨v, hv, ?_⟩
    split at hrun
    · next htruth =>
      obtain ⟨⟨s1, out1⟩, hbody, hrun⟩ := bind_eq_some_iff.1 hrun
      obtain ⟨⟨s2, out2⟩, hloop, ⟨⟩⟩ := bind_eq_some_iff.1 hrun
      have hbody' := (body.run_frozen fuel hsteady (hκ.forget _) hbody).1
      have hκ1 : (κ.forget body.targets).Within s1 := hκ.forget_of_eq fun x hx => body.run_frame fuel hbody hx
      have hagain : (Stmt.whileDo cond body).steady ρ (κ.forget body.targets) = true := by
        rw [Stmt.steady, Store.forget_forget]
        exact hsteady
      have hloop' := (Stmt.run_frozen fuel (.whileDo cond body) hagain hκ1 hloop).1
      rw [Stmt.frozen] at hloop'
      simp [htruth, hbody', hloop']
    · next htruth => simpa [htruth] using hrun
  | fuel + 1, .forRange .., ρ, κ, s, s', out, hsteady, _, _ => by simp [Stmt.steady] at hsteady
  | fuel + 1, .chain cond body rest, ρ, κ, s, s', out, hsteady, hκ, hrun =>
    Tail.run_frozen (fuel + 1) (.elif cond body rest) hsteady hκ hrun
termination_by fuel => (fuel, 1)

/-- Steady statements run as the frozen ones do, and leave what is certain after them. -/
theorem Block.run_frozen : ∀ (fuel : Nat) (p : Block) {ρ κ s s' : Store Int} {out : List (Event Int)},
    p.steady ρ κ = true → κ.Within s → p.run ints fuel s = some (s', out) →
    (p.frozen ρ).run ints fuel s = some (s', out) ∧ (p.sure κ).Within s'
  | 0, p, ρ, κ, s, s', out, _, _, hrun => by cases hrun
  | fuel + 1, .nil, ρ, κ, s, s', out, _, hκ, hrun => by
    refine ⟨hrun, ?_⟩
    cases hrun
    exact hκ
  | fuel + 1, .cons st rest, ρ, κ, s, s', out, hsteady, hκ, hrun => by
    simp only [Block.steady, Bool.and_eq_true] at hsteady
    obtain ⟨⟨s1, out1⟩, hst, hrun⟩ := bind_eq_some_iff.1 hrun
    obtain ⟨⟨s2, out2⟩, hrest, ⟨⟩⟩ := bind_eq_some_iff.1 hrun
    obtain ⟨hst', hκ1⟩ := st.run_frozen fuel hsteady.1 hκ hst
    obtain ⟨hrest', hκ2⟩ := rest.run_frozen fuel hsteady.2 hκ1 hrest
    exact ⟨by simp [Block.frozen, Block.run, hst', hrest'], hκ2⟩
termination_by fuel => (fuel, 0)

theorem Tail.run_frozen : ∀ (fuel : Nat) (t : Tail) {ρ κ s s' : Store Int} {out : List (Event Int)},
    t.steady ρ κ = true → κ.Within s → t.run ints fuel s = some (s', out) →
    (t.frozen ρ).run ints fuel s = some (s', out) ∧ (t.sure κ).Within s'
  | 0, t, ρ, κ, s, s', out, _, _, hrun => by cases hrun
  | fuel + 1, .done, ρ, κ, s, s', out, _, hκ, hrun => by
    refine ⟨hrun, ?_⟩
    cases hrun
    exact hκ
  | fuel + 1, .elif cond body rest, ρ, κ, s, s', out, hsteady, hκ, hrun => by
    simp only [Tail.steady, Bool.and_eq_true] at hsteady
    rw [Tail.frozen]
    simp only [Tail.run, bind_eq_some_iff] at hrun ⊢
    obtain ⟨v, hv, hrun⟩ := hrun
    split at hrun
    · next htruth =>
      obtain ⟨hbody, hsure⟩ := body.run_frozen fuel hsteady.1 hκ hrun
      exact ⟨⟨v, hv, by rw [if_pos htruth, hbody]⟩, hsure.meet_left⟩
    · next htruth =>
      obtain ⟨hrest, hsure⟩ := rest.run_frozen fuel hsteady.2 hκ hrun
      exact ⟨⟨v, hv, by rw [if_neg htruth, hrest]⟩, hsure.meet_right⟩
  | fuel + 1, .otherwise .nil, ρ, κ, s, s', out, _, hκ, hrun => by
    match fuel, hrun with
    | fuel + 1, hrun =>
      obtain ⟨rfl, rfl⟩ := hrun
      exact ⟨rfl, hκ⟩
  | fuel + 1, .otherwise (.cons st rest), ρ, κ, s, s', out, hsteady, hκ, hrun => by
    obtain ⟨hrun', hsure⟩ := (Block.cons st rest).run_frozen fuel hsteady hκ hrun
    exact ⟨hrun', hsure⟩
termination_by fuel => (fuel, 0)

end

end Tabc.Core
