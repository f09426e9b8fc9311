import Tabc.Folding.Eval
import Tabc.Proofs.Core.Meaning
import Tabc.Proofs.Writing.Words

/-!
# Reading and computing expressions

Folding reads the expression that was written (`read_text`) and computes its value (`evaluate_text`). `Parses`
says that some words are an expression on a level of binding, whatever closes it.
-/

open List

namespace Tabc.Core

open Tabc.Expr (Word words)

variable {ws : List Word}

attribute [local simp] Term.words Term.constWords

/-- The operation of an arithmetic operator. -/
def arithOp : String → BinOp
  | "+" => .add
  | "-" => .sub
  | _ => .mul

def compareOp : String → CmpOp
  | "<" => .lt
  | "<=" => .le
  | ">" => .gt
  | ">=" => .ge
  | "==" => .eq
  | _ => .ne

def Term.expr : Term → Expr
  | .const (.int (.negSucc n)) => .unary .neg (.const (.int (n + 1 : Nat)))
  | .const a => .const a.atom
  | .var x => .name x
  | .unary _ a => a.expr
  | .binary a op b =>
    if compareOps.contains op then .compare a.expr [(compareOp op, b.expr)]
    else .binary (arithOp op) a.expr b.expr

/-- No operand or argument follows for an expression on this level or a tighter one. -/
def Closed (level : Nat) : List Word → Prop
  | [] => True
  | .mark m :: _ => m ∉ ["(", ".", "[", "**"] ∧ (∀ k, level ≤ k → Expr.operatorAt k m = none) ∧
    (level ≤ 3 → m ∉ compareOps)
  | _ => False

theorem Closed.mono (h : Closed level rest) (hl : level ≤ level') : Closed level' rest := by
  match rest, h with
  | [], _ => trivial
  | .mark m :: _, ⟨h1, h2, h3⟩ => exact ⟨h1, fun k hk => h2 k (hl.trans hk), fun hk => h3 (hl.trans hk)⟩

def Parses (ws : List Word) (x : Expr) (n level : Nat) : Prop :=
  ∀ rest fuel, Closed level rest → n ≤ fuel → Expr.parse fuel level (ws ++ rest) = some (x, rest)

namespace Parses

variable {x y : Expr} {vs : List Word} {m n level : Nat}

theorem mono (h : Parses ws x n level) (hn : n ≤ m) : Parses ws x m level :=
  fun rest fuel hrest hfuel => h rest fuel hrest (hn.trans hfuel)

variable {rest : List Word} {fuel : Nat}

theorem trailers_closed (h : Closed 10 rest) (hfuel : 1 ≤ fuel) (x : Expr) :
    Expr.trailers fuel x rest = some (x, rest) := by
  obtain _ | fuel := fuel
  · omega
  match rest, h with
  | [], _ => rfl
  | .mark m :: _, ⟨h, _⟩ =>
    rw [Expr.trailers] <;> simp_all

theorem operands_closed (h : Closed level rest) (hfuel : 1 ≤ fuel) (x : Expr) :
    Expr.operands fuel level x rest = some (x, rest) := by
  obtain _ | fuel := fuel
  · omega
  match rest, h with
  | [], _ => rfl
  | .mark m :: _, ⟨_, h, _⟩ => simp [Expr.operands, h level le_rfl]

theorem comparisons_closed (h : Closed 3 rest) (hfuel : 1 ≤ fuel) : Expr.comparisons fuel rest = some ([], rest) := by
  obtain _ | fuel := fuel
  · omega
  match rest, h with
  | [], _ => rfl
  | .mark m :: more, ⟨_, _, h⟩ =>
    have hm := h le_rfl
    simp only [compareOps, mem_cons, not_mem_nil, or_false, not_or] at hm
    have : Expr.comparisonAt (.mark m :: more) = none := by rw [Expr.comparisonAt] <;> simp_all
    simp [Expr.comparisons, this]

theorem alternatives_closed (h : Closed level rest) (hfuel : 1 ≤ fuel) (x : Expr) :
    Expr.alternatives fuel x rest = some (x, rest) ∧ Expr.conjuncts fuel x rest = some (x, rest) := by
  obtain _ | fuel := fuel
  · omega
  match rest, h with
  | [], _ => exact ⟨rfl, rfl⟩
  | .mark m :: _, _ => exact ⟨rfl, rfl⟩

theorem parse_operands (h1 : 4 ≤ level) (h2 : level < 10) (ws : List Word) :
    Expr.parse (fuel + 1) level ws = (Expr.parse fuel (level + 1) ws).bind fun p =>
      Expr.operands fuel level p.1 p.2 := by rw [Expr.parse] <;> first | omega | rfl

theorem loosen (h : Parses ws x n (level + 1)) (hlevel : level < 10) (hn : 1 ≤ n)
    (hnot : ∀ rest, ws ≠ .name "not" :: rest) (hws : ws ≠ []) : Parses ws x (n + 1) level := by
  intro rest fuel hrest hfuel
  obtain _ | fuel := fuel
  · omega
  have hparse := h rest fuel (hrest.mono (by omega)) (by omega)
  have hfuel : 1 ≤ fuel := by omega
  have hends := alternatives_closed hrest hfuel x
  by_cases h4 : 4 ≤ level
  · rw [parse_operands h4 hlevel, hparse]
    exact operands_closed hrest hfuel x
  obtain rfl | rfl | rfl | rfl : level = 0 ∨ level = 1 ∨ level = 2 ∨ level = 3 := by omega
  · rw [Expr.parse]
    simp [hparse, hends]
  · rw [Expr.parse]
    simp [hparse, hends]
  · obtain ⟨w, ws, rfl⟩ := exists_cons_of_ne_nil hws
    rw [Expr.parse, ← hparse]
    intro more hmore
    rw [cons_append, List.cons.injEq] at hmore
    exact hnot ws (by rw [hmore.1])
  · rw [Expr.parse]
    simp [hparse, comparisons_closed hrest hfuel]

theorem loosen_to (h : Parses ws x n level) (hlevel : level ≤ 10) (hn : 1 ≤ n)
    (hnot : ∀ rest, ws ≠ .name "not" :: rest) (hws : ws ≠ []) :
    ∀ k ≤ level, Parses ws x (n + k) (level - k)
  | 0, _ => h
  | k + 1, hk => by
    have ih := h.loosen_to hlevel hn hnot hws k (by omega)
    rw [show level - k = (level - (k + 1)) + 1 by omega] at ih
    exact ih.loosen (by omega) (by omega) hnot hws

theorem primary (hw : ∀ m ∈ ["-", "+", "~"], w ≠ .mark m) (h : ∀ rest fuel, Closed 10 rest → n ≤ fuel →
      Expr.parse (fuel + 1) 11 (w :: ws ++ rest) = some (x, rest)) : Parses (w :: ws) x (n + 2) 10 := by
  intro rest fuel hrest hfuel
  obtain ⟨fuel, rfl⟩ : ∃ k, fuel = k + 2 := ⟨fuel - 2, by omega⟩
  have hparse := h rest fuel hrest (by omega)
  rw [Expr.parse, hparse]
  · match rest, hrest with
    | [], _ => rfl
    | .mark m :: more, ⟨hm, _⟩ =>
      simp only [Option.bind_eq_bind, Option.bind_some]
      split
      · next heq => simp_all
      · rfl
  · rintro more ⟨⟩
    exact hw "-" (by simp) rfl
  · rintro more ⟨⟩
    exact hw "+" (by simp) rfl
  · rintro more ⟨⟩
    exact hw "~" (by simp) rfl

theorem const (a : Atom) : Parses [.const a] (.const a) 3 10 :=
  primary (by simp) fun _ _ hrest hfuel => trailers_closed hrest hfuel _

theorem neg (h : Parses ws x n 10) : Parses (.mark "-" :: ws) (.unary .neg x) (n + 1) 10 := by
  intro rest fuel hrest hfuel
  obtain _ | fuel := fuel
  · omega
  rw [cons_append, Expr.parse, h rest fuel hrest (by omega)]
  rfl

theorem name (hs : Nice s) : Parses [.name s] (.name s) 3 10 := by
  refine primary (by simp) fun rest fuel hrest hfuel => ?_
  obtain ⟨h1, h2, h3, h₄⟩ := hs.free
  have hkey : Expr.keywords.contains s = false := by simpa using h1
  rw [cons_append, Expr.parse, hkey]
  · exact trailers_closed hrest hfuel _
  · rintro ⟨⟩; exact h2 rfl
  · rintro ⟨⟩; exact h3 rfl
  · rintro ⟨⟩; exact h₄ rfl

theorem closed_closing (level : Nat) (rest : List Word) : Closed level (.mark ")" :: rest) :=
  ⟨by decide, fun k _ => by rw [Expr.operatorAt] <;> simp, fun _ => by decide⟩

theorem brackets (h : Parses ws x n 0) (hn : 1 ≤ n) : Parses (.mark "(" :: ws ++ [.mark ")"]) x (n + 2) 10 := by
  refine primary (by simp) fun rest fuel hrest hfuel => ?_
  have hparse := h (.mark ")" :: rest) fuel (closed_closing 0 rest) hfuel
  have htrail := trailers_closed hrest (hn.trans hfuel) x
  simp [Expr.parse, hparse, htrail]

theorem operation {m : String} (ha : Parses ws x n (level + 1))
    (hb : Parses vs y n (level + 1)) (h1 : 4 ≤ level) (h2 : level < 10)
    (hop : Expr.operatorAt level m = some op) (hm : ∀ rest, Closed (level + 1) (.mark m :: rest))
    (hn : 1 ≤ n) : Parses (ws ++ .mark m :: vs) (.binary op x y) (n + 2) level := by
  intro rest fuel hrest hfuel
  obtain ⟨fuel, rfl⟩ : ∃ k, fuel = k + 2 := ⟨fuel - 2, by omega⟩
  have hleft := ha (.mark m :: (vs ++ rest)) (fuel + 1) (hm _) (by omega)
  have hright := hb rest fuel (hrest.mono (by omega)) (by omega)
  rw [List.append_assoc, cons_append, parse_operands h1 h2, hleft]
  simp [Expr.operands, hop, hright, operands_closed hrest (show 1 ≤ fuel by omega)]

theorem comparison {m : String} (ha : Parses ws x n 4) (hb : Parses vs y n 4)
    (hop : ∀ rest, Expr.comparisonAt (.mark m :: rest) = some (op, rest))
    (hm : ∀ rest, Closed 4 (.mark m :: rest)) (hn : 1 ≤ n) :
    Parses (ws ++ .mark m :: vs) (.compare x [(op, y)]) (n + 2) 3 := by
  intro rest fuel hrest hfuel
  obtain ⟨fuel, rfl⟩ : ∃ k, fuel = k + 2 := ⟨fuel - 2, by omega⟩
  have hleft := ha (.mark m :: (vs ++ rest)) (fuel + 1) (hm _) (by omega)
  have hright := hb rest fuel (hrest.mono (by omega)) (by omega)
  have hmore := comparisons_closed hrest (show 1 ≤ fuel by omega)
  rw [List.append_assoc, Expr.parse]
  simp [hleft, Expr.comparisons, hop, hright, hmore]

def Begins (ws : List Word) : Prop := ws ≠ [] ∧ ∀ rest, ws ≠ .name "not" :: rest

theorem Begins.append (h : Begins ws) (us : List Word) : Begins (ws ++ us) := by
  obtain ⟨w, ws, rfl⟩ := exists_cons_of_ne_nil h.1
  refine ⟨by simp, fun rest heq => ?_⟩
  rw [cons_append, List.cons.injEq] at heq
  exact h.2 ws (by rw [heq.1])

theorem operatorAt_eq_none (hk : 10 ≤ k) (m : String) : Expr.operatorAt k m = none := by
  unfold Expr.operatorAt
  split <;> first | omega | rfl

theorem operatorAt_compare {m : String} (hm : m ∈ compareOps) (k : Nat) : Expr.operatorAt k m = none := by
  unfold Expr.operatorAt
  rcases mem_compareOps.1 hm with rfl | rfl | rfl | rfl | rfl | rfl <;> split <;> simp_all

theorem exists_level {m : String} (hm : m ∈ arithOps) : ∃ level, 8 ≤ level ∧ level < 10 ∧
    Expr.operatorAt level m = some (arithOp m) ∧ ∀ rest, Closed (level + 1) (.mark m :: rest) := by
  have hclosed : ∀ level, 8 ≤ level → Expr.operatorAt 9 m = none ∨ level = 9 →
      ∀ rest, Closed (level + 1) (.mark m :: rest) := by
    intro level h8 h9 rest
    refine ⟨?_, fun k hk => ?_, fun h => by omega⟩
    · rcases mem_arithOps.1 hm with rfl | rfl | rfl <;> decide
    rcases Nat.lt_or_ge k 10 with h | h
    · obtain rfl : k = 9 := by omega
      exact h9.resolve_right (by omega)
    · exact operatorAt_eq_none h m
  rcases mem_arithOps.1 hm with rfl | rfl | rfl
  · exact ⟨8, by omega, by omega, rfl, hclosed 8 le_rfl (.inl rfl)⟩
  · exact ⟨8, by omega, by omega, rfl, hclosed 8 le_rfl (.inl rfl)⟩
  · exact ⟨9, by omega, by omega, rfl, hclosed 9 (by omega) (.inr rfl)⟩

theorem inner (hop : op ∈ arithOps ++ compareOps) (ha : Parses ws x n 10)
    (hb : Parses vs y n 10) (hws : Begins ws) (hvs : Begins vs) (hn : 1 ≤ n) :
    Parses (ws ++ .mark op :: vs) (if compareOps.contains op then .compare x [(compareOp op, y)]
      else .binary (arithOp op) x y) (n + 11) 0 := by
  have hbegins := hws.append (.mark op :: vs)
  have ha := ha.loosen_to le_rfl hn hws.2 hws.1
  have hb := hb.loosen_to le_rfl hn hvs.2 hvs.1
  rcases mem_append.mp hop with hop | hop
  · have hcompare : compareOps.contains op = false := by
      rcases mem_arithOps.1 hop with rfl | rfl | rfl <;> rfl
    obtain ⟨level, h1, h2, hlevel, hclosed⟩ := exists_level hop
    have ha := ha (9 - level) (by omega)
    have hb := hb (9 - level) (by omega)
    rw [show 10 - (9 - level) = level + 1 by omega] at ha hb
    have h := ha.operation hb (by omega) h2 hlevel hclosed (by omega)
    have h := h.loosen_to (by omega) (by omega) hbegins.2 hbegins.1 level le_rfl
    rw [hcompare, show 0 = level - level by omega]
    exact h.mono (by omega)
  · have hcompare : compareOps.contains op = true := by simpa using hop
    have hread : ∀ rest, Expr.comparisonAt (.mark op :: rest) = some (compareOp op, rest) := by
      rcases mem_compareOps.1 hop with rfl | rfl | rfl | rfl | rfl | rfl <;> exact fun _ => rfl
    have hclosed : ∀ rest, Closed 4 (.mark op :: rest) := by
      refine fun rest => ⟨?_, fun k _ => operatorAt_compare hop k, fun h => by omega⟩
      rcases mem_compareOps.1 hop with rfl | rfl | rfl | rfl | rfl | rfl <;> decide
    have h := (ha 6 (by omega)).comparison (hb 6 (by omega)) hread hclosed (by omega)
    rw [hcompare]
    exact (h.loosen_to (by omega) (by omega) hbegins.2 hbegins.1 3 le_rfl).mono (by omega)

theorem binary {a b : Term} {op : String} (hop : op ∈ arithOps ++ compareOps)
    (ha : Parses a.words a.expr (16 * a.words.length) 10)
    (hb : Parses b.words b.expr (16 * b.words.length) 10) (hwa : Begins a.words)
    (hwb : Begins b.words) : Parses (Term.binary a op b).words (Term.binary a op b).expr
      (16 * (Term.binary a op b).words.length) 10 := by
  have hlen := length_pos_iff.mpr hwa.1
  have h := inner hop (ha.mono (m := 16 * (a.words.length + b.words.length)) (by omega))
    (hb.mono (by omega)) hwa hwb (by omega)
  have hbrackets := h.brackets (by omega)
  simp only [Term.words, List.append_assoc, cons_append, length_cons, length_append, length_nil] at hbrackets ⊢
  exact hbrackets.mono (by omega)

end Parses

open Parses (Begins)

variable {t : Term}

theorem Term.begins (ht : t.arith = true) (hx : ∀ x ∈ t.vars, Nice x) : Begins t.words := by
  match t, ht with
  | .const (.int (.ofNat n)), _ | .const (.int (.negSucc n)), _ => constructor <;> simp
  | .var x, _ =>
    refine ⟨by simp, ?_⟩
    rintro rest ⟨⟩
    exact (hx "not" (by simp [Term.vars])).free.1 (by decide)
  | .binary a op b, _ => constructor <;> simp

theorem Parses.arith (ht : t.arith = true) (hx : ∀ x ∈ t.vars, Nice x) :
    Parses t.words t.expr (16 * t.words.length) 10 := by
  induction t, ht using Term.arith_induction with
  | int n =>
    cases n with
    | ofNat n => exact (Parses.const _).mono (by simp)
    | negSucc n => exact (Parses.const _).neg.mono (by simp)
  | var x => exact (Parses.name (hx x (by simp [Term.vars]))).mono (by simp)
  | binary a op b _ hop ha hb iha ihb =>
    obtain ⟨hxa, hxb⟩ := forall_mem_append.1 hx
    exact Parses.binary (mem_append_left _ hop) (iha hxa) (ihb hxb) (Term.begins ha hxa) (Term.begins hb hxb)

theorem read_eq {n : Nat} (hlex : Lexes s.toList ws)
    (h : Parses ws x n 0) (hn : n ≤ 20 * (ws.length + 2)) : Expr.read s = some x := by
  have hparse := h [] (20 * (ws.length + 2)) trivial hn
  rw [List.append_nil] at hparse
  simp [Expr.read, hlex _ 0 (Nat.lt_succ_self _), hparse]

theorem read_text (ht : (t.arith || t.comparison) = true) (hx : ∀ x ∈ t.vars, Nice x) :
    Expr.read t.text = some t.expr := by
  have hlex := lexes_text ht hx
  have hparse : Parses t.words t.expr (16 * t.words.length) 10 ∧ Begins t.words := by
    rw [Bool.or_eq_true] at ht
    rcases ht with ht | ht
    · exact ⟨.arith ht hx, Term.begins ht hx⟩
    match t, ht with
    | .binary a op b, ht =>
      simp only [Term.comparison, Bool.and_eq_true, contains_iff_mem] at ht
      obtain ⟨hxa, hxb⟩ := forall_mem_append.1 hx
      refine ⟨.binary (mem_append_right _ ht.1.1) (.arith ht.1.2 hxa) (.arith ht.2 hxb)
        (Term.begins ht.1.2 hxa) (Term.begins ht.2 hxb), ?_⟩
      constructor <;> simp
  have hlen := length_pos_iff.mpr hparse.2.1
  exact read_eq hlex (hparse.1.loosen_to le_rfl (by omega) hparse.2.2 hparse.2.1 10 le_rfl) (by omega)

/-- The environment gives these variables the values of a store. -/
def Gives (env : Env) (s : Store Int) (names : List String) : Prop :=
  ∀ x ∈ names, ∃ v, s x = some v ∧ env x = some (.atom (.int v))

theorem binary_arith (hop : op ∈ arithOps) (v w : Int) :
    ∃ r, ints.binary op v w = some r ∧ Arith.binary (arithOp op) (.int v) (.int w) = .ok (.int r) := by
  rcases mem_arithOps.1 hop with rfl | rfl | rfl <;> exact ⟨_, rfl, rfl⟩

theorem not_mem_compareOps (hop : op ∈ arithOps) : compareOps.contains op = false := by
  rcases mem_arithOps.1 hop with rfl | rfl | rfl <;> rfl

theorem eval_arith (ht : t.arith = true) (h : Gives env s t.vars) :
    ∃ v, t.eval ints s = some v ∧ t.expr.eval env = .ok (.atom (.int v)) := by
  induction t, ht using Term.arith_induction with
  | int n => cases n <;> exact ⟨_, rfl, rfl⟩
  | var x =>
    obtain ⟨v, hs, henv⟩ := h x (by simp [Term.vars])
    exact ⟨v, hs, by simp [Term.expr, Expr.eval, Expr.nameValue, henv]; rfl⟩
  | binary a op b _ hmem _ _ iha ihb =>
    obtain ⟨v, hv, hva⟩ := iha (forall_mem_append.1 h).1
    obtain ⟨w, hw, hwb⟩ := ihb (forall_mem_append.1 h).2
    obtain ⟨r, hr, hop⟩ := binary_arith hmem v w
    refine ⟨r, by simp [Term.eval, hv, hw, hr], ?_⟩
    rw [Term.expr, not_mem_compareOps hmem, if_neg (by simp), Expr.eval, hva, hwb]
    change (do return Target.Node.atom (← Arith.binary (arithOp op) (.int v) (.int w))) = _
    rw [hop]
    rfl

theorem evaluate_text (ht : t.arith = true) (hx : ∀ x ∈ t.vars, Nice x) (h : Gives env s t.vars) :
    ∃ v, t.eval ints s = some v ∧ evaluate env t.text = .ok (.atom (.int v)) := by
  obtain ⟨v, hv, heval⟩ := eval_arith ht h
  exact ⟨v, hv, by rw [evaluate, read_text (by simp [ht]) hx]; exact heval⟩

theorem evaluate_int (env : Env) (n : Int) : evaluate env (Atom.int n).plain = .ok (.atom (.int n)) := by
  have hgives : Gives env (fun _ => none) (Term.const (.int n)).vars := forall_mem_nil _
  obtain ⟨_, hn, heval⟩ := evaluate_text (t := .const (.int n)) rfl (forall_mem_nil _) hgives
  cases hn
  exact heval

end Tabc.Core
