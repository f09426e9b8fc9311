import Tabc.Proofs.Nesting.Outlines
import Tabc.Proofs.Sessions.Single

/-!
# Statements kept, lost and moved

`visitAll` lists the statements of a forest, each before those in its body. On the trees that the parser
returns this is the list of recorded statements if, and unless two are alike only if, they are sheltered
(`visitAll_parse`).
-/

open List

namespace Tabc

open Outline (owners)

variable {e : Edition} {t : Nat}

mutual

/-- A statement without its body, followed by the statements in it. -/
def visit : Node → List Node
  | .ifThen c body => .ifThen c .none :: visitBody body
  | .elifThen c body => .elifThen c .none :: visitBody body
  | .elseThen body => .elseThen .none :: visitBody body
  | .whileDo c body => .whileDo c .none :: visitBody body
  | .forRange v r body => .forRange v r .none :: visitBody body
  | .forEach v c body => .forEach v c .none :: visitBody body
  | .funDef n ps body r => .funDef n ps .none r :: visitBody body
  | n => [n]

def visitBody : Node → List Node
  | .block items => visitAll items
  | .list items => visitAll items
  | _ => []

def visitAll : List Node → List Node
  | [] => []
  | n :: rest => visit n ++ visitAll rest

end

def Statement.bare (s : Statement) : Node := s.node.withBody .none

theorem visit_withBody {n : Node} (h : n.isCompound = true) (items : List Node) :
    visit (n.withBody (bodyOf e items)) = n.withBody .none :: visitAll items := by
  have hbody : visitBody (bodyOf e items) = visitAll items := by
    cases e <;> simp [bodyOf, visitBody]
  cases n <;> simp [Node.isCompound] at h <;> simp [Node.withBody, visit, hbody]

theorem visit_simple {n : Node} (h : n.isCompound = false) : visit n = [n.withBody .none] := by
  cases n <;> simp [Node.isCompound] at h <;> simp [Node.withBody, visit]

theorem visitAll_append (xs ys : List Node) : visitAll (xs ++ ys) = visitAll xs ++ visitAll ys := by
  induction xs with
  | nil => simp [visitAll]
  | cons x xs ih => rw [cons_append, visitAll, visitAll, ih, List.append_assoc]

theorem visitAll_treesOf (l : List Statement) : visitAll (treesOf e l) = l.map Statement.bare := by
  induction l using treesOf.induct with
  | case1 => simp [visitAll]
  | case2 s rest hs ihbody ihrest =>
    rw [treesOf, if_pos hs, visitAll, visit_withBody hs, ihbody, ihrest, cons_append,
      ← map_append, takeWhile_append_dropWhile]
    rfl
  | case3 s rest hs ih =>
    rw [treesOf, if_neg hs, visitAll, visit_simple (by simpa using hs), ih]
    rfl

/-- How many statements stand in the trees at the top level and in those that wait for their owner. -/
def total (trees : List Node × List (Nat × Node)) : Nat :=
  (visitAll trees.1).length + (visitAll (trees.2.map Prod.snd)).length

/-- A statement is neither at the top level nor in a body. -/
def isLost (p : Statement × Option Nat) : Bool := p.1.tabs != 0 && p.2.isNone

theorem length_visitAll_filter (owned : List (Nat × Node)) (index : Nat) :
    (visitAll ((owned.filter (·.1 == index)).map Prod.snd)).length +
      (visitAll ((owned.filter (·.1 != index)).map Prod.snd)).length =
      (visitAll (owned.map Prod.snd)).length := by
  induction owned with
  | nil => rfl
  | cons x owned ih =>
    by_cases hx : x.1 = index
    · simp [hx, visitAll] at ih ⊢
      omega
    · simp [hx, visitAll] at ih ⊢
      omega

theorem length_visit_le (n : Node) (items : List Node) :
    (visit (if n.isCompound then n.withBody (bodyOf e items) else n)).length ≤ (visitAll items).length + 1 := by
  split
  · rename_i hn
    rw [visit_withBody hn, length_cons]
  rename_i hn
  rw [visit_simple (Bool.eq_false_iff.2 hn)]
  exact Nat.le_add_left _ _

variable {L : List (Statement × Option Nat)} {o : Outline} {l : List Statement}

/-- Lost statements are missing from the trees, and no statement stands in them twice. -/
theorem total_assemble (h : ∀ p ∈ L, p.1.tabs = 0 → p.2 = none) (index : Nat) :
    total (assemble e L index) + L.countP isLost ≤ L.length := by
  induction L generalizing index with
  | nil => simp [assemble, total, visitAll]
  | cons p L ih =>
    obtain ⟨s, owner⟩ := p
    have hrest := ih (fun p hp => h p (.tail _ hp)) (index + 1)
    have hsplit := length_visitAll_filter (assemble e L (index + 1)).2 index
    have hnode := length_visit_le (e := e) s.node (((assemble e L (index + 1)).2.filter (·.1 == index)).map Prod.snd)
    rw [assemble, countP_cons, length_cons]
    unfold total at hrest ⊢
    dsimp only
    by_cases h0 : s.tabs = 0
    · obtain rfl : owner = none := h (s, owner) (.head _) h0
      have hkept : isLost (s, none) = false := by simp [isLost, h0]
      rw [hkept, h0, beq_self_eq_true, if_pos rfl, visitAll, length_append]
      simp only [Bool.false_eq_true, if_false]
      omega
    · rw [if_neg (by simpa using h0)]
      cases owner with
      | none =>
        have hlost : isLost (s, none) = true := by simp [isLost, h0]
        rw [hlost, if_pos rfl]
        dsimp only
        omega
      | some i =>
        have hkept : isLost (s, some i) = false := by simp [isLost]
        rw [hkept]
        simp only [Bool.false_eq_true, if_false, map_cons, visitAll, length_append]
        omega

/-- The statements at the top level are those of the later statements and some before. -/
theorem roots_suffix (L L' : List (Statement × Option Nat)) (index : Nat) :
    (assemble e L' (index + L.length)).1 <:+ (assemble e (L ++ L') index).1 := by
  induction L generalizing index with
  | nil => exact suffix_rfl
  | cons p L ih =>
    have hrest := ih (index + 1)
    rw [Nat.add_right_comm, Nat.add_assoc] at hrest
    rw [cons_append, assemble]
    dsimp only
    split
    · exact hrest.trans (suffix_cons _ _)
    · exact hrest

/-- The tabs expected are positive as soon as there is an owner. -/
def Outline.Expects (o : Outline) : Prop := o.current.isSome = true → 0 < o.expected

theorem Outline.Expects.dedent (h : o.Expects) (t : Nat) :
    (o.dedent t).2.Expects ∧ (t = 0 → (o.dedent t).1 = none) := by
  unfold Outline.dedent
  cases hcurrent : o.current with
  | none => exact ⟨h, fun _ => rfl⟩
  | some owner =>
    dsimp only
    split
    · rename_i hlt
      exact ⟨fun _ => Nat.zero_lt_of_lt hlt, fun h0 => absurd hlt (by omega)⟩
    · exact ⟨fun _ => h (by rw [hcurrent]; rfl), fun _ => rfl⟩

theorem Outline.Expects.place (he : e ≠ .first) (h : o.Expects) (t : Nat) :
    (o.place e t).2.Expects ∧ (t = 0 → (o.place e t).1 = none) := by
  by_cases hlt : t < o.expected
  · rw [place_of_lt he hlt]
    exact h.dedent t
  unfold Outline.place
  split
  · rename_i hc
    exact ⟨h, fun h0 => absurd (h hc.2) (by omega)⟩
  · exact ⟨h, fun _ => rfl⟩

theorem Outline.Expects.enter (h : o.Expects) (index : Nat) (s : Statement) : (o.enter index s).Expects := by
  unfold Outline.enter
  split
  · exact fun _ => Nat.succ_pos _
  · exact h

theorem owner_eq_none (he : e ≠ .first) (h : o.Expects) (index : Nat) (l : List Statement) :
    ∀ p ∈ l.zip (o.owners e index l), p.1.tabs = 0 → p.2 = none := by
  induction l generalizing o index with
  | nil => exact fun p hp => by cases hp
  | cons s rest ih =>
    obtain ⟨hexpects, hnone⟩ := h.place he s.tabs
    rw [owners, zip_cons_cons]
    refine forall_mem_cons.2 ⟨fun h0 => ?_, ih (hexpects.enter index s) (index + 1)⟩
    rw [hnone h0, Option.map_none]

theorem length_owners (o : Outline) (index : Nat) (l : List Statement) : (o.owners e index l).length = l.length := by
  induction l generalizing o index with
  | nil => rfl
  | cons s rest ih => rw [owners, length_cons, length_cons, ih]

/-- A first statement without shelter is lost, or comes first, or follows a simple statement at the
top level. -/
theorem exists_of_not_sheltered (he : e ≠ .first) (h : Tracks o blocks) (hopened : blocks = [] ↔ opened = false)
    (hl : ¬Sheltered o.expected opened l) (index : Nat) :
    (∃ p ∈ l.zip (o.owners e index l), isLost p = true) ∨
    (∃ s rest, l = s :: rest ∧ s.tabs ≠ 0 ∧ opened = false) ∨
    ∃ l1 p s l2, l = l1 ++ p :: s :: l2 ∧ opensAfter p = false ∧ s.tabs ≠ 0 := by
  induction l generalizing o blocks opened index with
  | nil => exact absurd trivial hl
  | cons s rest ih =>
    by_cases hs : s.tabs = 0 ∨ opened = true ∧ s.tabs ≤ o.expected
    · have hs' : s.tabs = 0 ∨ blocks ≠ [] ∧ s.tabs ≤ o.expected := by
        refine hs.imp_right fun ⟨hopen, hle⟩ => ⟨fun hnil => ?_, hle⟩
        rw [hopened.1 hnil] at hopen
        cases hopen
      obtain ⟨o', hplace, hT, hexpected, habove⟩ := h.step he hs' index
      have hrest : ¬Sheltered (o'.enter index s).expected (opensAfter s) rest := by
        rw [hexpected]
        exact fun hrest => hl ⟨hs, hrest⟩
      rcases ih hT (entered_eq_nil_iff blocks habove) hrest (index + 1) with
        ⟨p, hp, hlost⟩ | ⟨s', rest', rfl, hs', hclosed⟩ | ⟨l1, p, s', l2, rfl, hp, hs'⟩
      · left
        refine ⟨p, ?_, hlost⟩
        rw [owners, hplace]
        exact .tail _ hp
      · exact .inr (.inr ⟨[], s, s', rest', rfl, hclosed, hs'⟩)
      · exact .inr (.inr ⟨s :: l1, p, s', l2, rfl, hp, hs'⟩)
    · obtain ⟨h0, hshelter⟩ := not_or.1 hs
      cases opened with
      | false => exact .inr (.inl ⟨s, rest, rfl, h0, rfl⟩)
      | true =>
        left
        have hlt : o.expected < s.tabs := by simpa using hshelter
        have hplace : o.place e s.tabs = (none, o) := by
          unfold Outline.place
          rw [if_neg fun hc => hlt.ne' hc.1, if_neg hlt.not_gt]
        refine ⟨(s, none), ?_, by simp [isLost, h0]⟩
        rw [owners, hplace]
        exact (.head _)

theorem exists_zip_split (h : w.length = (l1 ++ p :: s :: l2).length) :
    ∃ (L1 : List (Statement × Option Nat)) (a b : Option Nat) (w2 : List (Option Nat)),
      (l1 ++ p :: s :: l2).zip w = L1 ++ (p, a) :: (s, b) :: l2.zip w2 := by
  induction l1 generalizing w with
  | nil =>
    match w, h with
    | a :: b :: w2, _ => exact ⟨[], a, b, w2, rfl⟩
  | cons x l1 ih =>
    match w, h with
    | a :: w, h =>
      obtain ⟨L1, a', b, w2, hzip⟩ := ih (Nat.succ.inj h)
      exact ⟨(x, a) :: L1, a', b, w2, by rw [cons_append, zip_cons_cons, hzip]; rfl⟩

theorem length_visitAll_roots_le (h : ∀ p ∈ L, p.1.tabs = 0 → p.2 = none) (index : Nat) :
    (visitAll (assemble e L index).1).length + L.countP isLost ≤ L.length := by
  have htotal := total_assemble (e := e) h index
  unfold total at htotal
  omega

theorem visitAll_ne_of_unhoused (hp : opensAfter p = false)
    (hs : s.tabs ≠ 0) (hnone : ∀ q ∈ L2, q.1.tabs = 0 → q.2 = none) (hlen : L2.length ≤ ms.length)
    (hdistinct : (ns ++ p.bare :: s.bare :: ms).Nodup) (index : Nat) :
    visitAll (assemble e (L1 ++ (p, a) :: (s, b) :: L2) index).1 ≠ ns ++ p.bare :: s.bare :: ms := by
  intro h
  obtain ⟨hsimple, h0⟩ : p.node.isCompound = false ∧ p.tabs = 0 := by simpa [opensAfter] using hp
  obtain ⟨before, hroots⟩ := roots_suffix L1 ((p, a) :: (s, b) :: L2) index
  -- The roots from `p` on: `p` itself, and those behind `s`.
  have hlater : (assemble e ((p, a) :: (s, b) :: L2) (index + L1.length)).1 =
      p.node :: (assemble e L2 (index + L1.length + 1 + 1)).1 := by
    rw [assemble, assemble]
    simp [h0, hs, hsimple]
  rw [← hroots, hlater, visitAll_append, visitAll, visit_simple hsimple] at h
  rw [← h] at hdistinct
  obtain ⟨-, hmid, hnotin⟩ := nodup_append.1 hdistinct
  have hbefore : p.bare ∉ visitAll before := fun hmem => hnotin _ hmem _ (.head _) rfl
  have htail : visitAll (assemble e L2 (index + L1.length + 1 + 1)).1 = s.bare :: ms :=
    ((append_cons_inj_of_notMem hbefore (nodup_cons.1 hmid).1).1 h).2.2
  have hle := length_visitAll_roots_le (e := e) hnone (index + L1.length + 1 + 1)
  rw [htail, length_cons] at hle
  omega

/-- If no two statements are alike, a forest keeps them in their order only under shelter. -/
theorem sheltered_of_visitAll_forest (he : e ≠ .first) (hdistinct : (l.map Statement.bare).Nodup)
    (h : visitAll (forest e l) = l.map Statement.bare) : Sheltered 0 false l := by
  by_contra hl
  have hnone := owner_eq_none he (o := .start) nofun 0 l
  have hlen := congrArg List.length h
  rw [length_map] at hlen
  unfold forest at h hlen
  have hzip : (l.zip (Outline.start.owners e 0 l)).length = l.length := by
    rw [length_zip, length_owners, Nat.min_self]
  rcases exists_of_not_sheltered he .start (by simp) hl 0 with
    ⟨p, hp, hlost⟩ | ⟨s, rest, rfl, hs, -⟩ | ⟨l1, p, s, l2, rfl, hp, hs⟩
  · have hle := length_visitAll_roots_le (e := e) hnone 0
    have hpos : 0 < (l.zip (Outline.start.owners e 0 l)).countP isLost := countP_pos_iff.2 ⟨p, hp, hlost⟩
    omega
  · rw [owners, zip_cons_cons] at hnone hlen
    have hle := length_visitAll_roots_le (e := e) (fun q hq => hnone q (.tail _ hq)) (0 + 1)
    rw [assemble] at hlen
    dsimp only at hlen
    rw [if_neg (by simpa using hs), length_cons] at hlen
    rw [length_zip, length_owners] at hle
    omega
  · obtain ⟨L1, a, b, w2, hsplit⟩ := exists_zip_split (length_owners .start 0 _)
    rw [hsplit] at h hnone
    rw [map_append] at h hdistinct
    refine visitAll_ne_of_unhoused hp hs ?_ ?_ hdistinct 0 h
    · exact fun q hq => hnone q (by simp [hq])
    · rw [length_zip, length_map]
      exact Nat.min_le_left _ _

theorem trees_of_parse (h : (Session.parse e text).run p = .ok trees session) :
    trees = forest e session.statements := by
  obtain ⟨_, _, -, h⟩ := Core.of_run_bind h
  obtain ⟨result, _, -, h⟩ := Core.of_run_bind h
  cases result with
  | exhausted => cases h
  | finished v => cases h; rfl

/-- The statements of the trees that the parser returns are the recorded ones in their order if these
are sheltered, and, unless two of them are alike, only if they are. -/
theorem visitAll_parse {text : List Char} {trees : List Node} {session : Session}
    (h : (Session.parse .fourth text).run .fresh = .ok trees session) :
    (Sheltered 0 false session.statements → visitAll trees = session.statements.map Statement.bare) ∧
    ((session.statements.map Statement.bare).Nodup → visitAll trees = session.statements.map Statement.bare →
      Sheltered 0 false session.statements) := by
  rw [trees_of_parse h]
  refine ⟨fun hl => ?_, sheltered_of_visitAll_forest (by decide)⟩
  rw [forest_eq_treesOf (by decide) hl, visitAll_treesOf]

/-- A statement in the body of a condition is sheltered, and is visited after the condition. -/
theorem visitAll_parse_guarded : ∃ trees session, (Session.parse .fourth guardedText).run .fresh = .ok trees session ∧
    Sheltered 0 false session.statements ∧ (session.statements.map Statement.bare).Nodup ∧
    visitAll trees = guardedTrees := by
  obtain ⟨trees, session, hparse, s, s', hs, hnodes, h0, h1⟩ := parse_guarded
  obtain ⟨hnode, hnode'⟩ : s.node = .ifThen (.ident "a") .none ∧
      s'.node = .assign (.ident "x") .none (.literal "int" (.int 1)) := by
    simpa [guardedTrees] using hnodes
  have hbare : session.statements.map Statement.bare = guardedTrees := by
    rw [hs, map_cons, map_singleton, Statement.bare, Statement.bare, hnode, hnode']
    rfl
  have hsheltered : Sheltered 0 false session.statements := by
    rw [hs]
    refine ⟨.inl h0, .inr ⟨by simp [opensAfter, hnode, Node.isCompound], ?_⟩, trivial⟩
    simpa [expectedAfter, hnode, h0, Node.isCompound] using h1
  have hdistinct : (session.statements.map Statement.bare).Nodup := by
    rw [hbare]
    simp [guardedTrees]
  exact ⟨trees, session, hparse, hsheltered, hdistinct, ((visitAll_parse hparse).1 hsheltered).trans hbare⟩

/-- A statement with a tab where nothing is open. -/
def overindented : List Statement := [⟨1, 0, .ret (.ident "x")⟩, ⟨2, 1, .ret (.ident "y")⟩]

/-- A statement with a tab after a block has been closed. -/
def strayed : List Statement :=
  [⟨1, 0, .ifThen (.ident "a") .none⟩, ⟨2, 1, .ret (.ident "x")⟩, ⟨3, 0, .ret (.ident "y")⟩, ⟨4, 1, .ret (.ident "z")⟩]

/-- Without shelter a statement is lost or put into a block that is closed. -/
theorem visitAll_forest_ne :
    visitAll (forest .fourth overindented) ≠ overindented.map Statement.bare ∧
    visitAll (forest .fourth strayed) ≠ strayed.map Statement.bare := by
  have hlost : visitAll (forest .fourth overindented) = [.ret (.ident "x")] := rfl
  have hmoved : visitAll (forest .fourth strayed) =
      [.ifThen (.ident "a") .none, .ret (.ident "x"), .ret (.ident "z"), .ret (.ident "y")] := rfl
  rw [hlost, hmoved]
  simp [overindented, strayed, Statement.bare, Node.withBody]

end Tabc
