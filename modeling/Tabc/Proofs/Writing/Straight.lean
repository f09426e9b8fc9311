import Tabc.Proofs.Typing.Scopes
import Tabc.Proofs.Writing.Unfolded

/-!
# Output of straight programs

An accepted program of assignments of arithmetic has the same output with and without folding: a declaration
for each new variable, and assignments of values (`straight_output_exact`). Names that hold `list_slice` are
left out (`straight_output_fails`).
-/

open List

namespace Tabc.Core

open Target Target.Writer
open EStateM (run_bind run_get run_pure)

/-- A program of assignments of arithmetic. -/
def Block.straight : Block → Bool
  | .nil => true
  | .cons (.assign _ _ value) rest => value.arith && rest.straight
  | .cons .. => false

/-- A straight program is a list of assignments. -/
theorem Block.straight_induction {motive : (p : Block) → p.straight = true → Prop} (nil : motive .nil rfl)
    (cons : ∀ x type value rest h, value.arith = true → ∀ hrest, motive rest hrest →
      motive (.cons (.assign x type value) rest) h) : ∀ (p : Block) (h : p.straight = true), motive p h
  | .nil, _ => nil
  | .cons (.assign x type value) rest, h => by
    have hparts := h
    simp only [Block.straight, Bool.and_eq_true] at hparts
    exact cons x type value rest h hparts.1 hparts.2 (straight_induction nil cons rest hparts.2)
  | .cons (.print _) _, h | .cons (.whileDo ..) _, h | .cons (.forRange ..) _, h | .cons (.chain ..) _, h => by
    simp [Block.straight] at h

/-- The variables that get a value in a run, with their values. -/
def settings (out : List (Event Int)) : List (String × Int) :=
  out.filterMap fun
    | .assign x v => some (x, v)
    | .print _ => none

/-- The lines that give variables their values; those that were not seen so far are declared. -/
def settingLines : List String → List (String × Int) → List String
  | _, [] => []
  | seen, (x, v) :: rest => (if seen.contains x then [] else ["int_t " ++ x ++ ";"]) ++
    (x ++ " = " ++ toString v ++ ";") :: settingLines (seen ++ [x]) rest

variable {op : String} {seen : List String} {types : List (Option Ty)} {table : ScopeTable}

/-- An operation is read in the same way without its brackets. -/
theorem read_operation (hop : op ∈ arithOps) (ha : a.arith = true)
    (hb : b.arith = true) (hxa : ∀ x ∈ a.vars, Nice x) (hxb : ∀ x ∈ b.vars, Nice x) :
    Expr.read (operation a.shown op b.shown) = some (Term.binary a op b).expr := by
  have hop' := mem_append_left compareOps hop
  have hlex : Lexes (operation a.shown op b.shown).toList (a.words ++ .mark op :: b.words) := by
    have hright := lexes_nil.arith hb hxb trivial
    have hleft := (hright.operator hop').blank.arith ha hxa (.inl rfl)
    simpa [operation, Term.plain_shown] using hleft
  have hlen := length_pos_iff.mpr (Term.begins ha hxa).1
  have hparse := Parses.inner hop' ((Parses.arith ha hxa).mono (m := 16 * (a.words.length + b.words.length)) (by omega))
    ((Parses.arith hb hxb).mono (by omega)) (Term.begins ha hxa) (Term.begins hb hxb) (by omega)
  exact read_eq hlex hparse (by simp; omega)

/-- An operation on two numbers is done as it stands. -/
theorem evaluate_operation (hop : op ∈ arithOps) (env : Env) (v u : Int) :
    ∃ n, ints.binary op v u = some n ∧
      evaluate env (operation (.atom (.int v)) op (.atom (.int u))) = .ok (.atom (.int n)) := by
  have hread := read_operation (a := .const (.int v)) (b := .const (.int u)) hop rfl rfl
    (forall_mem_nil _) (forall_mem_nil _)
  have harith : (Term.binary (.const (.int v)) op (.const (.int u))).arith = true := by simpa [Term.arith] using hop
  have hgives : Gives env (fun _ => none) (Term.binary (.const (.int v)) op (.const (.int u))).vars := forall_mem_nil _
  obtain ⟨n, hn, heval⟩ := eval_arith harith hgives
  refine ⟨n, hn, ?_⟩
  rw [evaluate]
  exact hread ▸ heval

/-- What stands for an expression whose variables all have values: a variable stands for itself, and any
other expression is its value. -/
def Term.settled (ρ : Store Int) : Term → Term
  | .var x => .var x
  | t => t.frozen ρ

variable {w w' : Writer} {ρ : Store Int} {Γ : Types} {x : String} {t : Term} {v : Int}

theorem Term.settled_cases (hv : t.eval ints ρ = some v) :
    (∃ x, t = .var x ∧ t.settled ρ = .var x) ∨ (∀ r, ∃ n, t.operand r = reg n) ∧ t.settled ρ = .const (.int v) := by
  cases t with
  | var x => exact .inl ⟨x, rfl, rfl⟩
  | const _ | unary _ _ | binary _ _ _ => exact .inr ⟨fun r => ⟨_, rfl⟩, by simp only [settled, frozen, hv]⟩

theorem Tracks.run_value (h : Tracks w ρ) (hv : t.eval ints ρ = some v)
    (hlead : Leads w.temps (t.operand r) (t.settled ρ).shown) (hvars : ∀ x ∈ t.vars, Nice x) :
    (value (.ident (t.operand r))).run w = .ok (.atom (.int v)) w := by
  have hcontents : (nameContents (t.operand r)).run w = .ok (.atom (.int v)) w := by
    rcases Term.settled_cases hv with ⟨x, rfl, -⟩ | ⟨hreg, hsettled⟩
    · have hx := hvars x (by simp [Term.vars])
      have hlookup : w.vars.lookup x = some (.atom (.int v)) := by
        rw [h.vars x, show ρ x = some v from hv]
        rfl
      simp only [nameContents, Term.operand, run_bind, hx.run_isRegister, run_get,
        h.variants, contains_nil, Bool.false_eq_true, if_false, hlookup, Option.getD_some, run_pure]
    · obtain ⟨n, hn⟩ := hreg r
      rw [hsettled, hn] at hlead
      have heval : evaluate (known w) (Term.const (.int v)).text = _ := evaluate_int _ v
      have hfind : w.literals.lookup (reg n) = none := by
        rw [h.literals]
        rfl
      rw [hn, nameContents]
      simp only [run_bind, run_isRegister_reg, if_true, hlead.run_lookUp h.registers, run_get,
        hfind, computeLiteral, Term.plain_shown, heval, run_pure]
  exact run_tryCatch_ok hcontents _

/-- With folding, an operation on numbers is done. -/
theorem Tracks.run_binary (h : Tracks w ρ) (hfolding : w.folding = true) {a b : Term}
    (hop : op ∈ arithOps) {r s n : Nat} (ha : a.eval ints ρ = some v)
    (hb : b.eval ints ρ = some u) (hk : ints.binary op v u = some k)
    (hla : Leads w.temps (a.operand r) (a.settled ρ).shown)
    (hlb : Leads w.temps (b.operand s) (b.settled ρ).shown) (hxa : ∀ x ∈ a.vars, Nice x)
    (hxb : ∀ x ∈ b.vars, Nice x) :
    (write (.binary (.ident (reg n)) (.type (.prim .int)) op (.ident (a.operand r))
      (.ident (b.operand s)))).run w = .ok .nothing { w with temps := put (reg n) (.atom (.int k)) w.temps } := by
  have htemp : (binaryTemp (reg n) (.type (.prim .int)) op (.atom (.int v)) (.atom (.int u))).run w =
      .ok () { w with temps := put (reg n) (.atom (.int k)) w.temps } := by
    obtain ⟨k', hk', heval⟩ := evaluate_operation hop (fun _ => none) v u
    cases hk.symm.trans hk'
    have hint : (Target.Node.type (.prim .int)).isPrim .int = .ok true := rfl
    have hcut (n : Int) : (Target.Node.atom (.int n)).cutFraction = .ok (.atom (.int n)) := rfl
    have hwhole : (Target.Node.atom (.int k)).whole = .ok (.atom (.int k)) := rfl
    rw [binaryTemp]
    simp only [run_bind, run_lift_ok hint, if_true, run_lift_ok (hcut _), isLiteral, Target.Node.isNumber,
      Bool.and_self, Bool.false_eq_true, if_false, run_lift_ok heval, run_lift_ok hwhole, setTemp, EStateM.run_modify]
  refine run_reporting_ok ?_
  rw [binary]
  simp only [run_bind, run_write_ident, run_lineText, hla.run_nameValue h.registers (a.operand_cases r hxa),
    hlb.run_nameValue h.registers (b.operand_cases s hxb), run_get, hfolding, h.trial, if_true, Bool.false_eq_true,
    if_false, run_isRegister_reg, h.run_value ha hla hxa, h.run_value hb hlb hxb,
    operator_eq (mem_append_left _ hop), htemp, run_pure]

theorem Tracks.setTemps {temps : List (String × Target.Node)} (h : Tracks w ρ) (htemps : OnlyRegs temps) :
    Tracks { w with temps } ρ := { h with registers := htemps }

theorem Tracks.computes_settled (hΓ : Integral Γ seen) (hρ : Covers ρ seen) (ht : t.arith = true)
    (hseen : t.vars ⊆ seen) (hvars : ∀ x ∈ t.vars, Nice x) (r : Nat) (h : Tracks w ρ)
    (hfolding : w.folding = true) :
    ∃ temps, Computes (t.trees Γ r) w r t.size temps ∧ Leads temps (t.operand r) (t.settled ρ).shown := by
  induction t generalizing r w with
  | const a =>
    match a, ht with
    | .int n, _ => exact computes_const Γ r n h.toBare
  | var x =>
    have hx := h.registers x (hvars x (by simp [Term.vars])).not_isReg
    exact ⟨_, .nil h.registers r, .inr ⟨hx, rfl⟩⟩
  | unary op a => simp [Term.arith] at ht
  | binary a op b iha ihb =>
    have htype := hΓ.type ht hseen
    obtain ⟨k, hk⟩ := hρ.eval ht hseen
    simp only [Term.arith, Bool.and_eq_true, contains_iff_mem] at ht
    obtain ⟨hsa, hsb⟩ := append_subset.mp hseen
    obtain ⟨hxa, hxb⟩ := forall_mem_append.1 hvars
    obtain ⟨v, hv⟩ := hρ.eval ht.1.2 hsa
    obtain ⟨u, hu⟩ := hρ.eval ht.2 hsb
    have hop : ints.binary op v u = some k := by simpa [Term.eval, hv, hu] using hk
    obtain ⟨ta, hta, hla⟩ := iha ht.1.2 hsa hxa r h hfolding
    obtain ⟨tb, htb, hlb⟩ := ihb ht.2 hsb hxb (r + a.size) (h.setTemps hta.registers) hfolding
    have hsettled : ((Term.binary a op b).settled ρ).shown = .atom (.int k) := by
      simp only [Term.settled, Term.frozen, hk]
      rfl
    obtain ⟨temps, hcomputes, hlead, -⟩ := hta.binary hla hxa htb hlb hxb (.inl ⟨k, rfl⟩)
      fun n temps hregs hx hy => by
        rw [htype]
        exact (h.setTemps hregs).run_binary hfolding ht.1.1 hv hu hop hx hy hxa hxb
    exact ⟨temps, hcomputes, hsettled ▸ hlead⟩

/-- The values of all variables may be put in their places. -/
def Holds (held : List (String × Target.Held)) (depth : Nat) (ρ : Store Int) : Prop :=
  ∀ x, held.lookup x = (ρ x).map fun v => ⟨.atom (.int v), depth, true⟩

variable (h : Holds w.held w.depth ρ)

include h

theorem Holds.run_heldValue (hfolding : w.folding = true) (hv : t.eval ints ρ = some v) :
    (heldValue (t.settled ρ).shown).run w = .ok (.atom (.int v)) w := by
  rw [heldValue]
  simp only [run_bind, run_get, hfolding, Bool.not_true, Bool.false_eq_true, if_false]
  rcases Term.settled_cases hv with ⟨x, rfl, hsettled⟩ | ⟨-, hsettled⟩
  · have hfind : (Term.var x).shown.find? w.held = .ok (some ⟨.atom (.int v), w.depth, true⟩) := by
      have hx := h x
      rw [show ρ x = some v from hv] at hx
      exact congrArg Except.ok hx
    rw [hsettled]
    simp only [run_lift_ok hfind, if_true, run_pure]
  · have hfind : (Term.const (.int v)).shown.find? w.held = .ok none := rfl
    rw [hsettled]
    rfl

theorem Holds.run_hold (x : String) (v : Int) :
    (hold x (.atom (.int v))).run w = .ok () { w with held := put x ⟨.atom (.int v), w.depth, true⟩ w.held } := by
  have hx := h x
  rw [hold]
  simp only [run_bind, run_get, Target.Node.isNumber, Bool.true_or, if_true]
  cases hρ : ρ x with
  | none =>
    rw [hρ] at hx
    simp only [hx, Option.map_none]
    rfl
  | some u =>
    rw [hρ] at hx
    simp only [hx, Option.map_some, Bool.not_true, Bool.false_eq_true, if_false, lt_irrefl]
    rfl

theorem Holds.run_assignValue (hfolding : w.folding = true) (hv : t.eval ints ρ = some v)
    (x : String) : (assignValue x (t.settled ρ).shown "").run w =
      .ok (.value (.line (x ++ " = " ++ (Target.Node.atom (.int v)).plain .fourth ++ "")) (.atom (.int v)))
        { w with held := put x ⟨.atom (.int v), w.depth, true⟩ w.held } := by
  rw [assignValue]
  simp only [run_bind, h.run_heldValue hfolding hv, h.run_hold x v, run_pure]

omit h

theorem Holds.set {held : List (String × Target.Held)} {depth : Nat} (h : Holds held depth ρ) (x : String)
    (v : Int) : Holds (put x ⟨.atom (.int v), depth, true⟩ held) depth (ρ.set x v) := by
  intro y
  by_cases hyx : y = x
  · rw [hyx, lookup_put_self, Store.set_self]
    rfl
  · rw [lookup_put_of_ne hyx, Store.set_of_ne _ _ hyx]
    exact h y

theorem Tracks.set (h : Tracks w ρ) (x : String) (v : Int) (held : List (String × Target.Held)) :
    Tracks { w with held, vars := put x (.atom (.int v)) w.vars } (ρ.set x v) where
  toBare := { h.toBare with }
  variants := h.variants
  vars y := by
    by_cases hyx : y = x
    · rw [hyx, lookup_put_self, Store.set_self]
      rfl
    · rw [lookup_put_of_ne hyx, Store.set_of_ne _ _ hyx]
      exact h.vars y

/-- Outside of all loops and branches, the writer knows the values of the variables, which are those that
have been declared; with folding, it may put them in their places. -/
structure Certain (w : Writer) (ρ : Store Int) : Prop extends Tracks w ρ where
  holds : w.folding = true → Holds w.held w.depth ρ
  declared : ∀ x, w.declared.any (·.contains x) = (ρ x).isSome

/-- A variable without a value is declared. -/
theorem Certain.writes_declaration (h : Certain w ρ) (hx : Nice x) :
    ∃ declared, Writes (if (ρ x).isSome then [] else [declarationOf x .int]) w
      (if (ρ x).isSome then [] else [.line ("int_t " ++ x ++ ";")]) { w with declared } ∧ declared ≠ [] ∧
      declared.drop 1 = w.declared.drop 1 ∧
      ∀ y, declared.any (·.contains y) = (decide (y = x) || (ρ y).isSome) := by
  cases hρ : (ρ x).isSome with
  | true =>
    refine ⟨w.declared, .nil w, h.scopes, rfl, fun y => ?_⟩
    by_cases hyx : y = x
    · rw [hyx, h.declared x, hρ]
      simp
    · simpa [hyx] using h.declared y
  | false =>
    obtain ⟨top, rest, hscopes⟩ := exists_cons_of_ne_nil h.scopes
    have hrun := hx.run_declaration hscopes
    rw [h.declared x, hρ] at hrun
    have hwrites := Writes.single hrun
    rw [hx.blockItems_declaration] at hwrites
    refine ⟨(top ++ [x]) :: rest, hwrites, by simp, by simp [hscopes], fun y => ?_⟩
    have hy := h.declared y
    rw [hscopes] at hy
    rw [← hy]
    by_cases hyx : y = x <;> simp [hyx]

theorem Certain.exists_side (h : Certain w ρ) (hΓ : Integral Γ seen) (hρ : Covers ρ seen)
    (ht : t.arith = true) (hseen : t.vars ⊆ seen) (hvars : ∀ y ∈ t.vars, Nice y)
    (hv : t.eval ints ρ = some v) (r : Nat) (x : String) :
    ∃ temps, ∃ u : Term, Computes (t.trees Γ r) w r t.size temps ∧ Leads temps (t.operand r) u.shown ∧
      u.arith = true ∧ u.vars ⊆ t.vars ∧ u.eval ints ρ = some v ∧ ∀ declared, ∃ held p n,
        (assignValue x u.shown "").run { w with temps, declared } = .ok (.value p n) { w with temps, declared, held } ∧
        (w.folding = true → held = put x ⟨.atom (.int v), w.depth, true⟩ w.held) := by
  by_cases hfolding : w.folding = true
  · obtain ⟨temps, hcomputes, hlead⟩ :=
      Tracks.computes_settled hΓ hρ ht hseen hvars r h.toTracks hfolding
    have hu : (t.settled ρ).arith = true ∧ (t.settled ρ).vars ⊆ t.vars ∧ (t.settled ρ).eval ints ρ = some v := by
      rcases Term.settled_cases hv with ⟨y, rfl, -⟩ | ⟨-, hsettled⟩
      · exact ⟨rfl, List.Subset.refl _, hv⟩
      · rw [hsettled]
        exact ⟨rfl, nil_subset _, rfl⟩
    refine ⟨temps, t.settled ρ, hcomputes, hlead, hu.1, hu.2.1, hu.2.2, fun declared => ?_⟩
    have hside := Holds.run_assignValue (w := { w with temps, declared }) (h.holds hfolding) hfolding hv x
    exact ⟨_, _, _, hside, fun _ => rfl⟩
  · rw [Bool.not_eq_true] at hfolding
    obtain ⟨temps, hcomputes, hlead⟩ := t.unfolds_arith ht hvars r w h.toBare hfolding
    refine ⟨temps, t, hcomputes, hlead, ht, List.Subset.refl _, hv, fun declared => ?_⟩
    obtain ⟨held, hside⟩ := run_assignValue_unfolded (w := { w with temps, declared }) hfolding x t.shown
    exact ⟨held, _, _, hside, fun h => absurd (h.symm.trans hfolding) (by decide)⟩

theorem Certain.writes_assign {value : Term} (type : Option Ty) (hΓ : Integral Γ seen)
    (hρ : ∀ y, (ρ y).isSome = seen.contains y) (hvalue : value.arith = true)
    (hvars : value.vars ⊆ seen) (hfine : ∀ y ∈ (Stmt.assign x type value).vars, Fine y) (r : Nat)
    (h : Certain w ρ) :
    ∃ v w', value.eval ints ρ = some v ∧ Writes ((Stmt.assign x type value).trees Γ r) w
        ((settingLines seen [(x, v)]).map .line) w' ∧ Certain w' (ρ.set x v) ∧
      Moves w w' r (Stmt.assign x type value).regs := by
  have hx : Fine x := hfine x (by simp [Stmt.vars])
  have hfine' : ∀ y ∈ value.vars, Fine y := (forall_mem_cons.1 hfine).2
  have hnice : ∀ y ∈ value.vars, Nice y := fun y hy => (hfine' y hy).toNice
  have hcovers : Covers ρ seen := fun y hy => by rw [hρ y]; simpa using hy
  obtain ⟨v, hv⟩ := hcovers.eval hvalue hvars
  obtain ⟨temps, u, hcomputes, hlead, hu, huvars, hueval, hside⟩ := h.exists_side hΓ hcovers hvalue hvars hnice hv r x
  have h1 : Certain { w with temps } ρ := { h with registers := hcomputes.registers }
  obtain ⟨declared, hdecl, hscopes, hdrop, hdeclared⟩ := h1.writes_declaration hx.toNice
  have h2 : Tracks { w with temps, declared } ρ := { h1.toTracks with scopes := hscopes }
  obtain ⟨held, p, n, hside, hheld⟩ := hside declared
  obtain ⟨_, hv', hrun⟩ := h2.run_assign hx hlead (value.operand_cases r hnice) hu
    (fun y hy => hfine' y (huvars hy)) (fun y hy => hcovers y (hvars (huvars hy))) hside
  cases hueval.symm.trans hv'
  have hline := hx.toNice.not_mem_assign (t := .const (.int v)) rfl nofun
  have hwrites := hcomputes.writes.append (hdecl.append (.single hrun))
  rw [blockItems_line hline.1 hline.2] at hwrites
  have htaken : Γ.taken x = (ρ x).isSome := by rw [hΓ.taken hx.free_of_builtins, hρ x]
  have hlines : (settingLines seen [(x, v)]).map Piece.line =
      (if (ρ x).isSome then [] else [.line ("int_t " ++ x ++ ";")]) ++
        [.line (x ++ " = " ++ (Term.const (.int v)).text ++ ";")] := by
    rw [hρ x, settingLines]
    cases seen.contains x <;> rfl
  refine ⟨v, _, hv, ?_, ⟨h2.set x v held, fun hfolding => ?_, fun y => ?_⟩, ⟨hcomputes.moves.temps, hdrop⟩⟩
  · rw [Stmt.trees, Types.assignment, hΓ.type hvalue hvars, htaken, hlines]
    exact hwrites
  · rw [hheld hfolding]
    exact (h.holds hfolding).set x v
  rw [hdeclared y]
  by_cases hyx : y = x
  · simp [hyx]
  · simp [hyx, Store.set_of_ne _ _ hyx]

theorem settingLines_cons (seen : List String) (x : String) (v : Int) (rest : List (String × Int)) :
    settingLines seen ((x, v) :: rest) = settingLines seen [(x, v)] ++ settingLines (seen ++ [x]) rest := by
  simp [settingLines]

/-- A straight program runs to its end, and is written as the assignments of its run. -/
theorem Block.writes_straight (p : Block)
    (r : Nat) (hstraight : p.straight = true) (hscoped : p.scoped seen = true) (hfine : ∀ x ∈ p.vars, Fine x)
    (hΓ : Integral Γ seen) (hρ : ∀ y, (ρ y).isSome = seen.contains y) (h : Certain w ρ) : ∃ s out w',
      (∀ fuel, p.targets.length < fuel → p.run ints fuel ρ = some (s, out)) ∧
      Writes (p.trees Γ r) w ((settingLines seen (settings out)).map .line) w' ∧ Certain w' s ∧
      Moves w w' r p.regs := by
  induction p, hstraight using Block.straight_induction generalizing Γ seen ρ w r with
  | nil =>
    refine ⟨ρ, [], w, fun fuel hfuel => ?_, .nil w, h, .refl w r _⟩
    obtain _ | fuel := fuel
    · omega
    rfl
  | cons x type value rest _ hvalue _ ih =>
    simp only [Block.scoped, Bool.and_eq_true] at hscoped
    have hx : Fine x := hfine x (by simp [Block.vars, Stmt.vars])
    obtain ⟨v, w1, hv, hwrites, h1, hmoves⟩ := h.writes_assign type hΓ hρ hvalue
      (all_contains.mp hscoped.1) (forall_mem_append.1 hfine).1 r
    have hΓ1 := ((Stmt.assign x type value).settled hvalue
      (fun y hy => by simpa [mem_singleton.mp hy] using hx.free_of_builtins) hscoped.1 hΓ).2
    have hρ1 : ∀ y, (ρ.set x v y).isSome = (seen ++ [x]).contains y := by
      intro y
      by_cases hyx : y = x
      · simp [hyx]
      · simp [Store.set_of_ne _ _ hyx, hρ y, hyx]
    obtain ⟨s, out, w', hrun, hwrites', h', hmoves'⟩ := ih (r + value.size) hscoped.2
      (forall_mem_append.1 hfine).2 hΓ1 hρ1 h1
    refine ⟨s, .assign x v :: out, w', fun fuel hfuel => ?_, ?_, h', hmoves.trans hmoves'⟩
    · obtain ⟨fuel, rfl⟩ : ∃ k, fuel = k + 2 := ⟨fuel - 2, by simp [Block.targets, Stmt.targets] at hfuel; omega⟩
      rw [Block.run, Stmt.run, hv]
      simp [hrun (fuel + 1) (by simp [Block.targets, Stmt.targets] at hfuel; omega)]
    · rw [show settings (.assign x v :: out) = (x, v) :: settings out from rfl, settingLines_cons, map_append]
      exact hwrites.append hwrites'

theorem exists_functions_of_builtins4 (hx : ScopeTable.builtins4.has x = true) :
    ∃ os, ScopeTable.builtins4.find? x = some (.functions os) := by
  have hall : ∀ e ∈ ScopeTable.builtins4, ∃ os, e.2 = .functions os := by simp [ScopeTable.builtins4]
  obtain ⟨entry, hentry⟩ := Option.isSome_iff_exists.mp hx
  obtain ⟨front, rest, hlist, -⟩ := lookup_eq_some_iff.mp hentry
  obtain ⟨os, rfl⟩ := hall (x, entry) (by simp [hlist])
  exact ⟨os, hentry⟩

/-- An accepted assignment is not to a built-in function. -/
theorem free_of_check_assign {t t' : ScopeTable} (ht : t.scopes = [top]) (htop : ScopeTable.builtins4.Grows top)
    (h : (Typing.check .fourth true (.assign (.ident x) type right)).run t = .ok ty t') :
    ScopeTable.builtins4.has x = false := by
  rw [Bool.eq_false_iff]
  intro hx
  obtain ⟨os, hos⟩ := exists_functions_of_builtins4 hx
  obtain ⟨_, hfind, hgrows⟩ := htop hos
  obtain ⟨os', hfindIn⟩ : ∃ os', ScopeTable.findIn x t.scopes = some (.functions os') := by
    cases hgrows with
    | functions _ => exact ⟨_, by rw [ht, ScopeTable.findIn, hfind]⟩
  have hlookup : (ScopeTable.lookupVariable x).run t =
      .error (.unmet (some s!"When looking for {x}, found function when expecting variable")) t := by
    rw [ScopeTable.lookupVariable, run_bind, run_get]
    simp only [hfindIn]
    rfl
  have h2 := of_run_bind_ok h rfl
  have h4 := of_run_bind_ok h2 rfl
  have h6 := of_run_bind_ok h4 rfl
  rw [hfindIn] at h6
  obtain ⟨_, _, h7, -⟩ := of_run_bind h6
  cases hlookup.symm.trans h7

/-- No variable of an accepted straight program has the name of a built-in function. -/
theorem Block.free_of_typecheck (p : Block) {t t' : ScopeTable} {types : List (Option Ty)}
    (hstraight : p.straight = true) (ht : t.scopes = [top]) (htop : ScopeTable.builtins4.Grows top)
    (h : (typecheck .fourth p.nodes).run t = .ok types t') :
    ∀ x ∈ p.targets, ScopeTable.builtins4.has x = false := by
  induction p, hstraight using Block.straight_induction generalizing t t' top types with
  | nil => simp [Block.targets]
  | cons x type value rest _ _ _ ih =>
    obtain ⟨_, t1, hcheck, h1⟩ := of_run_bind h
    obtain ⟨_, t2, hrest, -⟩ := of_run_bind h1
    obtain ⟨top1, ht1, hgrows⟩ := Typing.along_check .fourth true _ hcheck ht
    intro y hy
    rcases mem_append.mp hy with hy | hy
    · rw [mem_singleton.mp hy]
      exact free_of_check_assign ht htop hcheck
    · exact ih ht1 (htop.trans hgrows) hrest y hy

theorem Block.straight_cases (p : Block) (h : p.straight = true) :
    p.numeric = true ∧ p.tidy = true ∧ p.legible = true := by
  induction p, h using Block.straight_induction with
  | nil => exact ⟨rfl, rfl, rfl⟩
  | cons x type value rest _ hvalue _ ih =>
    simpa [Block.numeric, Stmt.numeric, Block.tidy, Stmt.tidy, Block.legible, Stmt.legible, hvalue] using ih

theorem Block.vars_subset (p : Block) (h : p.straight = true)
    (hscoped : p.scoped seen = true) : p.vars ⊆ seen ++ p.targets := by
  induction p, h using Block.straight_induction generalizing seen with
  | nil => simp [Block.vars]
  | cons x _ value rest _ _ _ ih =>
    simp only [Block.scoped, Bool.and_eq_true] at hscoped
    have hvalue := all_contains.mp hscoped.1
    have hrest := ih hscoped.2
    intro y hy
    simp only [Block.vars, Stmt.vars, Block.targets, Stmt.targets, List.append_assoc] at hy hrest ⊢
    rcases mem_append.mp hy with hy | hy
    · rcases mem_cons.mp hy with rfl | hy
      · simp
      · exact mem_append_left _ (hvalue hy)
    · exact hrest hy

theorem Block.fine_of_typecheck (p : Block) (hstraight : p.straight = true) (hscoped : p.scoped [] = true)
    (hnames : ∀ x ∈ p.vars, Nice x ∧ Text.occurs "list_slice".toList x.toList = false)
    (hcheck : (typecheck .fourth p.nodes).run (.fresh .fourth) = .ok types table) :
    ∀ x ∈ p.vars, Fine x :=
  fun x hx => ⟨(hnames x hx).1, p.free_of_typecheck hstraight rfl (.refl _) hcheck x
    (p.vars_subset hstraight hscoped hx), (hnames x hx).2⟩

theorem Block.compiles_straight (known : Option ScopeTable) (folding : Bool) (p : Block)
    (hstraight : p.straight = true) (hscoped : p.scoped [] = true) (hfine : ∀ x ∈ p.vars, Fine x) :
    ∃ s out, (∀ fuel, p.targets.length < fuel → p.run ints fuel (fun _ => none) = some (s, out)) ∧
      Compiles known folding p (settingLines [] (settings out)) := by
  obtain ⟨hnum, htidy, hlegible⟩ := p.straight_cases hstraight
  have hΓ : Integral .empty [] := fun x => by simp [Types.empty]
  obtain ⟨b, hbuild⟩ := p.run_code known (p.rangeless_of_numeric hnum) hlegible
    (p.settled hnum (fun x hx => (hfine x (p.targets_subset hx)).free_of_builtins) hscoped hΓ).1
    fun x hx => (hfine x hx).not_isReg
  have hstart : Certain (entered (.fresh folding)) fun _ => none :=
    { (bare_fresh folding).entered with
      variants := rfl
      vars := fun _ => rfl
      holds := fun _ _ => rfl
      declared := fun _ => rfl }
  obtain ⟨s, out, w', hrun, hwrites, hw', hmoves⟩ :=
    p.writes_straight 0 hstraight hscoped hfine hΓ (fun _ => rfl) hstart
  obtain ⟨-, hbare⟩ := hmoves.leave (bare_fresh folding) hw'.toBare
  have hprogram := hbare.run_program hwrites.run_block
  rw [piecesLines_map_line] at hprogram
  exact ⟨s, out, hrun, _, _, b, _, ofProgram_nodes p htidy, hbuild, hprogram⟩

/-- A program of assignments of arithmetic that the checker accepts runs to its end. With and without folding,
it goes through all stages, and the body of its output has for each assignment of the run the declaration of
the variable if it is the first one, and the assignment of its value. -/
theorem straight_output_exact (folding : Bool) (p : Block) (hstraight : p.straight = true)
    (hscoped : p.scoped [] = true)
    (hnames : ∀ x ∈ p.vars, Nice x ∧ Text.occurs "list_slice".toList x.toList = false)
    {types : List (Option Ty)} {table : ScopeTable}
    (hcheck : (typecheck .fourth p.nodes).run (.fresh .fourth) = .ok types table) :
    ∃ s out, (∀ fuel, p.targets.length < fuel → p.run ints fuel (fun _ => none) = some (s, out)) ∧
      Compiles (some table) folding p (settingLines [] (settings out)) :=
  p.compiles_straight (some table) folding hstraight hscoped (p.fine_of_typecheck hstraight hscoped hnames hcheck)

/-- Two variables, one of them assigned twice. -/
def reassigning : Block :=
  .cons (.assign "a" (some (.prim .int)) (.const (.int 6))) <|
  .cons (.assign "b" (some (.prim .int)) (.binary (.var "a") "*" (.binary (.var "a") "-" (.const (.int 8))))) <|
  .cons (.assign "a" none (.binary (.var "b") "+" (.var "a"))) .nil

theorem straight_output_exact_reassigning :
    ∃ types table, (typecheck .fourth reassigning.nodes).run (.fresh .fourth) = .ok types table ∧
      ∀ folding, Compiles (some table) folding reassigning
        ["int_t a;", "a = 6;", "int_t b;", "b = -12;", "a = -6;"] := by
  obtain ⟨types, table, hcheck, -⟩ := exists_of_outcome
    ((typecheck .fourth reassigning.nodes).run (.fresh .fourth)) (fun _ => true) (by decide +kernel)
  refine ⟨types, table, hcheck, fun folding => ?_⟩
  obtain ⟨s, out, hrun, hcompiles⟩ := straight_output_exact folding reassigning (by decide) (by decide)
    (by decide) hcheck
  have hout : (reassigning.run ints 4 fun _ => none).map (fun o => settingLines [] (settings o.2)) =
      some ["int_t a;", "a = 6;", "int_t b;", "b = -12;", "a = -6;"] := by decide +kernel
  rw [hrun 4 (by decide), Option.map_some, Option.some_inj] at hout
  exact hout ▸ hcompiles

/-- A sum with a variable whose name is taken for a part of a list. -/
def slicing : Block :=
  .cons (.assign "my_list_slice" (some (.prim .int)) (.const (.int 1))) <|
  .cons (.assign "y" (some (.prim .int)) (.binary (.var "my_list_slice") "+" (.const (.int 1)))) .nil

/-- The way of a program through all stages. -/
def attempt (folding : Bool) (p : Block) : Except Fault String := do
  let code ← Flat.ofProgram .fourth p.nodes
  match (typecheck .fourth p.nodes).run (.fresh .fourth) with
  | .error x _ => throw x
  | .ok _ table => match (Target.Build.run .fourth (some table) code).run (.fresh .fourth code) with
    | .error x _ => throw x
    | .ok tree _ => match (program tree).run (.fresh folding) with
      | .error x _ => throw x
      | .ok text _ => return text

theorem attempt_of_compiles {folding : Bool} {lines : List String}
    (hcheck : (typecheck .fourth p.nodes).run (.fresh .fourth) = .ok types table)
    (h : Compiles (some table) folding p lines) :
    attempt folding p = .ok (page "" (unlines lines) cleanUp) := by
  obtain ⟨code, tree, s, w, hcode, htree, htext⟩ := h
  rw [attempt, hcode, hcheck]
  simp only [bind, Except.bind, htree, htext]
  rfl

/-- A variable whose name holds the name of the operation on lists stops the output of a program that is
accepted and runs to its end. -/
theorem straight_output_fails :
    ∃ types table, (typecheck .fourth slicing.nodes).run (.fresh .fourth) = .ok types table ∧
      slicing.straight = true ∧ slicing.scoped [] = true ∧ (∀ x ∈ slicing.vars, Nice x) ∧
      (∃ s, slicing.run ints 3 (fun _ => none) = some (s, [.assign "my_list_slice" 1, .assign "y" 2])) ∧
      ∀ lines, ¬ Compiles (some table) false slicing lines := by
  obtain ⟨types, table, hcheck, -⟩ := exists_of_outcome
    ((typecheck .fourth slicing.nodes).run (.fresh .fourth)) (fun _ => true) (by decide +kernel)
  have hattempt : attempt false slicing = .error .noKey := by decide +kernel
  refine ⟨types, table, hcheck, by decide, by decide, by decide, ⟨_, rfl⟩, ?_⟩
  intro lines h
  cases (attempt_of_compiles hcheck h).symm.trans hattempt

/-- Folding breaks no program of assignments of arithmetic that the checker accepts: the output is
the same with and without it. -/
theorem folding_keeps_output (p : Block) (hstraight : p.straight = true) (hscoped : p.scoped [] = true)
    (hnames : ∀ x ∈ p.vars, Nice x ∧ Text.occurs "list_slice".toList x.toList = false)
    {types : List (Option Ty)} {table : ScopeTable}
    (hcheck : (typecheck .fourth p.nodes).run (.fresh .fourth) = .ok types table) :
    ∃ text, ∀ folding, attempt folding p = .ok text := by
  have hfine := p.fine_of_typecheck hstraight hscoped hnames hcheck
  obtain ⟨s, out, hrun, -⟩ := p.compiles_straight (some table) true hstraight hscoped hfine
  refine ⟨page "" (unlines (settingLines [] (settings out))) cleanUp, fun folding => ?_⟩
  obtain ⟨s', out', hrun', hcompiles⟩ := p.compiles_straight (some table) folding hstraight hscoped hfine
  have hsame := (hrun _ (Nat.lt_succ_self _)).symm.trans (hrun' _ (Nat.lt_succ_self _))
  cases hsame
  exact attempt_of_compiles hcheck hcompiles

theorem folding_keeps_output_reassigning : ∃ text, ∀ folding, attempt folding reassigning = .ok text := by
  obtain ⟨types, table, hcheck, -⟩ := exists_of_outcome
    ((typecheck .fourth reassigning.nodes).run (.fresh .fourth)) (fun _ => true) (by decide +kernel)
  exact folding_keeps_output reassigning (by decide) (by decide) (by decide) hcheck

/-- A loop in a condition that is true from the start. -/
def certainLoop : Block :=
  .cons (.assign "x" (some (.prim .int)) (.const (.int 1))) <|
  .cons (.chain (.binary (.var "x") "==" (.const (.int 1))) (.cons (.whileDo (.binary (.var "x") "<" (.const (.int 3)))
      (.cons (.assign "x" none (.binary (.var "x") "+" (.const (.int 1)))) .nil)) .nil) .done) .nil

theorem folding_breaks_output :
    (attempt false certainLoop).toBool = true ∧ attempt true certainLoop = .error .wrongKind := by
  constructor <;> decide +kernel

end Tabc.Core
