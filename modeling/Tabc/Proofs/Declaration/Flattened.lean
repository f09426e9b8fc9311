import Tabc.Proofs.Jumps.Targets

/-!
# The shape of flattened programs

Flattening gives tidy code (`tidy_of_ofProgram`), if the chains inside an alternative end with a last
alternative of their own and no further condition stands inside a last alternative (`orderly`).
-/

open List hiding flatten range

namespace Tabc.Declaration

open Tabc.Core Tabc.Core.Jumps
open Bool (and_eq_true)
open Target.Build (hasWord functionName between lastUnderscore)
open Flat

theorem labelName_toList_of_ne (h : what ≠ "") (n : Nat) :
    (labelName .fourth what n).toList = "L_".toList ++ what.toList ++ '_' :: Nat.toDigits 10 n := by
  have hwhat : (what == "") = false := by simpa using h
  simp [labelName, hwhat]
  rfl

theorem labelKind_labelName (n : Nat) : labelKind (labelName .fourth "" n) = .plain := by
  have hF : 'F' ∉ (labelName .fourth "" n).toList := not_mem_mark (by decide) n
  have hW : 'W' ∉ (labelName .fourth "" n).toList := not_mem_mark (by decide) n
  rw [labelKind, hasWord_eq_false (by decide) hF, hasWord_eq_false (by decide) hF,
    hasWord_eq_false (by decide) hW, hasWord_eq_false (by decide) hF]
  rfl

/-- A letter of capitals stands in a label only if it stands in its word. -/
theorem not_mem_labelName (h : what ≠ "") (hwhat : c ∉ what.toList)
    (hc : c ≠ 'L' ∧ c ≠ '_' ∧ c.isDigit = false) (n : Nat) : c ∉ (labelName .fourth what n).toList := by
  rw [labelName_toList_of_ne h]
  intro hmem
  simp only [mem_append, mem_cons] at hmem
  rcases hmem with (hmem | hmem) | rfl | hmem
  · simp at hmem
    rcases hmem with rfl | rfl <;> simp at hc
  · exact hwhat hmem
  · simp at hc
  · have := Nat.isDigit_of_mem_toDigits (by decide) (by decide) hmem
    simp [hc.2.2] at this

theorem hasWord_labelName (h : what ≠ "") (n : Nat) : hasWord what.toList (labelName .fourth what n).toList = true := by
  rw [labelName_toList_of_ne h]
  exact hasWord_of_append _ _ _

theorem labelKind_while (n : Nat) : labelKind (labelName .fourth "WHILE" n) = .whileDo := by
  have hF : 'F' ∉ (labelName .fourth "WHILE" n).toList := not_mem_labelName (by decide) (by decide) (by decide) n
  rw [labelKind, hasWord_eq_false (by decide) hF, hasWord_eq_false (by decide) hF, hasWord_labelName (by decide)]
  rfl

theorem labelKind_forRange (n : Nat) : labelKind (labelName .fourth "FORRANGE" n) = .forRange := by
  rw [labelKind, hasWord_labelName (by decide)]
  rfl

theorem labelKind_forEach (n : Nat) : labelKind (labelName .fourth "FORLIST" n) = .forEach := by
  have hG : 'G' ∉ (labelName .fourth "FORLIST" n).toList := not_mem_labelName (by decide) (by decide) (by decide) n
  rw [labelKind, hasWord_eq_false (by decide) hG, hasWord_labelName (by decide)]
  rfl

theorem functionLabel_toList (f : String) (n : Nat) :
    (labelName .fourth ("FUNC_" ++ f) n).toList = "L_FUNC_".toList ++ f.toList ++ '_' :: Nat.toDigits 10 n := by
  rw [labelName_toList_of_ne (by simp [String.append_eq_empty_iff])]
  simp

theorem labelKind_function (f : String) (n : Nat) : labelKind (labelName .fourth ("FUNC_" ++ f) n) ≠ .plain := by
  have hword : hasWord "FUNC".toList (labelName .fourth ("FUNC_" ++ f) n).toList = true := by
    rw [functionLabel_toList]
    exact hasWord_of_append "FUNC".toList "L_".toList ('_' :: f.toList ++ '_' :: Nat.toDigits 10 n)
  simp only [labelKind, hword, ↓reduceIte]
  split_ifs <;> simp

theorem lastUnderscore_eq (h : '_' ∉ digits) : lastUnderscore (front ++ '_' :: digits) = front.length := by
  have hnone : digits.reverse.findIdx? (· == '_') = none := by
    rw [findIdx?_eq_none_iff]
    intro c hc
    have hne : c ≠ '_' := by
      rintro rfl
      exact h (mem_reverse.1 hc)
    simpa using hne
  simp [lastUnderscore, findIdx?_append, hnone, findIdx?_cons]

theorem functionName_labelName (f : String) (n : Nat) : functionName (labelName .fourth ("FUNC_" ++ f) n) = f := by
  rw [functionName, functionLabel_toList, lastUnderscore_eq Nat.underscore_not_in_toDigits, between, take_left' rfl]
  simp

variable {α β : Type}

mutual

/-- A statement and all statements inside it. -/
def within : Node → List Node
  | .ifThen cond body => .ifThen cond body :: withinBody body
  | .elifThen cond body => .elifThen cond body :: withinBody body
  | .elseThen body => .elseThen body :: withinBody body
  | .whileDo cond body => .whileDo cond body :: withinBody body
  | .forRange var range body => .forRange var range body :: withinBody body
  | .forEach var coll body => .forEach var coll body :: withinBody body
  | .funDef name params body result => .funDef name params body result :: withinBody body
  | n => [n]

def withinBody : Node → List Node
  | .block items => withinAll items
  | _ => []

def withinAll : List Node → List Node
  | [] => []
  | n :: rest => within n ++ withinAll rest

end

def isFurther : Node → Bool
  | .elifThen .. => true
  | _ => false

def isName : Node → Bool
  | .ident _ => true
  | _ => false

/-- The chains inside an alternative end with a last alternative, and inside a last alternative there is
no further condition. The variable of a loop is a name. -/
def orderly : Node → Bool
  | .ifThen _ body | .elifThen _ body => unclosedBody body == 0
  | .elseThen body => unclosedBody body == 0 && !(withinBody body).any isFurther
  | .forRange var _ _ | .forEach var _ _ => isName var
  | _ => true

theorem exists_of_isName {n : Node} (h : isName n = true) : ∃ x, n = .ident x := by
  cases n with
  | ident x => exact ⟨x, rfl⟩
  | _ => cases h

/-- The name of the function that a statement defines. -/
def functionOf? : Node → Option String
  | .funDef name _ _ _ => name.nameText.toOption
  | _ => none

/-- What is asked of a statement: it is orderly, and if it defines a function, the name is taken. Where it
must be free of further conditions, it is none. -/
structure Fine (taken : String → Prop) (free : Bool) (n : Node) : Prop where
  orderly : orderly n = true
  function : ∀ f, functionOf? n = some f → taken f
  free : free = true → isFurther n = false

variable {taken : String → Prop} {free : Bool} {body : Node} {s s' : Flat}

/-- A step that appends tidy code. If it leaves no chain open, the open chains are the same; if it must be
free of further conditions, there are none in the code. -/
def Writes (taken : String → Prop) (free : Bool) (left : Nat) (x : FlatM α) : Prop :=
  ∀ ⦃s a s'⦄, x.run s = .ok a s' → ∃ new, s'.code = s.code ++ new ∧ Tidy taken new ∧
    (free = true → new.any isElif = false) ∧ (left = 0 → s'.chains = s.chains ∧ s'.spots = s.spots)

theorem Evaluation.writes (h : Evaluation x) (left : Nat) : Writes taken free left x := by
  intro s a s' hrun
  obtain ⟨new, hnew, hcode, hchains, hspots, -⟩ := h hrun
  exact ⟨new, hcode, .of_computing hnew, fun _ => hnew.any_isElif, fun _ => ⟨hchains, hspots⟩⟩

theorem tidy_label (hl : labelKind l = .plain) : Tidy taken [.label (.name l)] := .single (by simp [stands, hl]) .nil

theorem writes_emit (hi : stands i = true) (helif : isElif i = false) (b : β) (left : Nat) :
    Writes taken free left (do emit i; return b) := by
  intro s _ s' h
  cases h
  exact ⟨[i], rfl, .single hi .nil, fun _ => by simp [helif], fun _ => ⟨rfl, rfl⟩⟩

theorem Evaluation.writes_bind (hx : Evaluation x)
    (hf : ∀ a, Writes taken free left (f a)) : Writes taken free left (x >>= f) := by
  intro s b s' h
  obtain ⟨a, s1, h1, h2⟩ := of_run_bind h
  obtain ⟨front, hfront, hcode, hchains, hspots, -⟩ := hx h1
  obtain ⟨new, hcode', hnew, hfree, hclosed⟩ := hf a h2
  refine ⟨front ++ new, by rw [hcode', hcode, List.append_assoc],
    (Tidy.of_computing hfront).append hnew, fun h => ?_, fun h => ?_⟩
  · rw [any_append, hfront.any_isElif, hfree h]
    rfl
  · exact ⟨(hclosed h).1.trans hchains, (hclosed h).2.trans hspots⟩

theorem isElif_of_isParam (h : isParam i = true) : isElif i = false := by
  cases i with
  | param => rfl
  | _ => cases h

theorem params_emitParams : (ps : List Node) →
    Emits (fun new => new.length = ps.length ∧ ∀ p ∈ new, isParam p = true) (emitParams .fourth ps)
  | [] => (Emits.nothing _).mono (by rintro _ rfl; simp)
  | p :: rest => by
    refine .register fun r hr => ?_
    cases p with
    | param type var =>
      refine (Emits.emit _).bind (fun _ => params_emitParams rest) ?_
      rintro _ code rfl ⟨hlength, hcode⟩
      exact ⟨by simp [hlength], forall_mem_cons.2 ⟨hr, hcode⟩⟩
    | _ => exact fun _ _ _ h => by cases h

theorem exists_of_functionWord (h : functionWord .fourth name = .ok word) :
    ∃ f, name.nameText = .ok f ∧ word = "FUNC_" ++ f := by
  simp only [functionWord] at h
  cases hname : name.nameText with
  | ok f =>
    rw [hname] at h
    cases h
    exact ⟨f, rfl, rfl⟩
  | error e =>
    rw [hname] at h
    cases h

section Loops

variable (hbody : Writes taken free (unclosedBody body) (flattenBody .fourth body))

include hbody

/-- A loop is tidy if what goes before it only computes and its head goes with its label. -/
theorem writes_loop {n : Node} {before : FlatM α} {word : String} {head : α → FlatM Operand}
    (hn : flatten .fourth n = loop before word head body) (hbefore : Evaluation before)
    (hhead : ∀ a, Emits (fun new => new.any isElif = false ∧ ∀ k done c code, Tidy taken code → Tidy taken
      (.label (.name (labelName .fourth word k)) :: (new ++ .branch (.name done) c :: code))) (head a)) :
    Writes taken free (unclosedBody body) (flatten .fourth n) := by
  intro s a s' h
  rw [hn] at h
  obtain ⟨b, s0, h0, h⟩ := of_run_bind h
  obtain ⟨front, hfront, hcode, hchains, hspots, -⟩ := hbefore h0
  rw [run_bind_of_ok (run_newLabel ..), run_bind_of_ok (run_newLabel ..), run_bind_of_ok (run_mark ..)] at h
  obtain ⟨c, s1, h1, h⟩ := of_run_bind h
  obtain ⟨test, ⟨helif, htest⟩, hcode1, hchains1, hspots1, -⟩ := hhead b h1
  rw [run_bind_of_ok (run_unlessJump ..)] at h
  obtain ⟨_, s2, hb, h⟩ := of_run_bind h
  obtain ⟨inner, hcode2, hinner, hfree, hclosed⟩ := hbody hb
  cases h
  have hend := hinner.append (.single (i := .goto (.name (labelName .fourth word (s0.labels + 1)))) rfl
    (tidy_label (labelKind_labelName (s0.labels + 2))))
  refine ⟨_, ?_, (Tidy.of_computing hfront).append
    (htest (s0.labels + 1) (labelName .fourth "" (s0.labels + 2)) c _ hend), fun hf => ?_, fun hleft => ?_⟩
  · simp [hcode2, hcode1, hcode]
  · simp [any_append, hfront.any_isElif, helif, hfree hf, isElif]
  · exact ⟨(hclosed hleft).1.trans (hchains1.trans hchains), (hclosed hleft).2.trans (hspots1.trans hspots)⟩

theorem writes_whileDo {cond : Node} (hcond : isExpr cond = true) :
    Writes taken free (unclosedBody body) (flatten .fourth (.whileDo cond body)) := by
  have hloop : flatten .fourth (.whileDo cond body) =
      loop (pure ()) "WHILE" (fun _ => flatten .fourth cond) body := by rw [flatten]; rfl
  refine writes_loop hbody hloop (.pure _) fun _ => (evaluation_flatten cond hcond).mono fun test htest => ?_
  exact ⟨htest.any_isElif, fun k done c code => .loop (labelKind_while k) htest done c⟩

theorem writes_forRange (hrange : isExpr range = true) :
    Writes taken free (unclosedBody body) (flatten .fourth (.forRange (.ident x) range body)) := by
  refine writes_loop hbody (forRange_eq_loop ..) (evaluation_flatten range hrange) fun bounds => ?_
  intro s a s' h
  obtain ⟨start, -, h⟩ := of_run_ofExcept h
  rw [run_bind_of_ok (run_emit ..), run_bind_of_ok (run_newRegister ..), run_bind_of_ok (Core.run_ident ..)] at h
  obtain ⟨stop, -, h⟩ := of_run_ofExcept h
  cases h
  have hreg : isRegister (.name (reg (s.registers + 1))) = true := isTemporary_reg _
  exact ⟨[.assign (.name x) start, .binary (.name (reg (s.registers + 1))) (.name x) stop "<"],
    ⟨rfl, fun k done c code => .range (labelKind_forRange k) _ _ hreg _ _ _ done c⟩,
    by simp, rfl, rfl, rfl⟩

theorem writes_forEach (hcoll : isExpr coll = true) :
    Writes taken free (unclosedBody body) (flatten .fourth (.forEach (.ident x) coll body)) := by
  refine writes_loop hbody (flatten_forEach ..) ?_ fun b => ?_
  · exact (evaluation_flatten coll hcoll).bind fun _ => .register fun _ _ => .bind (.emit rfl) fun _ =>
      .register fun _ hr => .bind (.emit hr) fun _ => .pure _
  intro s a s' h
  cases h
  exact ⟨[.loopVar (.name x), .index (.name x) b.1 (.name b.2)],
    ⟨rfl, fun k done c code => .each (labelKind_forEach k) _ _ _ _ done c⟩, by simp, rfl, rfl, rfl⟩

theorem writes_funDef (hname : ∀ f, functionOf? (.funDef name params body result) = some f → taken f) :
    Writes taken free (unclosedBody body) (flatten .fourth (.funDef name params body result)) := by
  intro s a s' h
  obtain ⟨skip, s1, hhead, h1⟩ := of_run_bind h
  obtain ⟨_, s2, hb, h2⟩ := of_run_bind h1
  obtain ⟨inner, hcode2, hinner, hfree, hclosed⟩ := hbody hb
  cases h2
  obtain ⟨word, hword, hhead1⟩ := of_run_ofExcept hhead
  obtain ⟨f, hf, rfl⟩ := exists_of_functionWord hword
  have htaken : taken f := hname f (by rw [functionOf?, hf]; rfl)
  rw [run_bind_of_ok (run_newLabel ..), run_bind_of_ok (run_mark ..), run_bind_of_ok (run_newRegister ..)] at hhead1
  obtain ⟨items, -, hhead2⟩ := of_run_ofExcept hhead1
  rw [run_bind_of_ok (run_emit ..)] at hhead2
  obtain ⟨_, t3, hparams, hhead3⟩ := of_run_bind hhead2
  cases hhead3
  obtain ⟨ps, ⟨hlength, hps⟩, hcode1, hchains1, hspots1, -⟩ := params_emitParams items hparams
  have hskip := labelKind_labelName (s.labels + 1)
  have htidy := Tidy.single (i := .goto (.name (labelName .fourth "" (s.labels + 1)))) rfl
    (.function (labelKind_function f (s.labels + 2)) ((functionName_labelName f _).symm ▸ htaken)
      (.name (reg (s.registers + 1))) hps (hinner.append (tidy_label hskip)))
  refine ⟨_, ?_, htidy, ?_, ?_⟩
  · simp [hcode2, hcode1, hlength]
  · intro hf
    have hnone : ps.any isElif = false := any_eq_false.2 fun p hp => by simp [isElif_of_isParam (hps p hp)]
    simp [any_append, hnone, hfree hf, isElif]
  · intro hleft
    exact ⟨(hclosed hleft).1.trans hchains1, (hclosed hleft).2.trans hspots1⟩

end Loops

/-- Code of a chain so far: it becomes tidy with anything tidy that continues or ends the chain. -/
def Pending (taken : String → Prop) (stop : String) (code : List Instr) : Prop :=
  ∀ rest, Tidy taken rest → Ending stop rest → Tidy taken (code ++ rest)

/-- A list of statements has been written so far behind some code, with these chains open before it. Either
no chain of it can be continued; or its last statement is an alternative of a chain, whose end is on top of
the stacks. -/
inductive Written (taken : String → Prop) (free : Bool) (base : List Instr) (chains : List String)
    (spots : List Nat) : Bool → Flat → Prop where
  | settled {s : Flat} (new : List Instr) (hcode : s.code = base ++ new) (hnew : Tidy taken new)
    (hfree : free = true → new.any isElif = false) (hchains : s.chains = chains) (hspots : s.spots = spots) :
    Written taken free base chains spots false s
  | unsettled {s : Flat} (new : List Instr) (stop : String)
    (hcode : s.code = base ++ new ++ [.label (.name stop)]) (hnew : Pending taken stop new)
    (hfree : free = true → new.any isElif = false) (hstop : labelKind stop = .plain)
    (hchains : s.chains = stop :: chains) (hspots : s.spots = (base ++ new).length :: spots) :
    Written taken free base chains spots true s

variable {follows : Bool} {base : List Instr} {chains : List String} {spots : List Nat}

theorem Written.exists_tidy (h : Written taken free base chains spots follows s) :
    ∃ new, s.code = base ++ new ∧ Tidy taken new ∧ (free = true → new.any isElif = false) := by
  cases h with
  | settled new hcode hnew hfree _ _ => exact ⟨new, hcode, hnew, hfree⟩
  | unsettled new stop hcode hnew hfree hstop _ _ =>
    refine ⟨new ++ [.label (.name stop)], by rw [hcode, List.append_assoc], ?_, ?_⟩
    · exact hnew _ (tidy_label hstop) (.finish hstop [])
    · intro hf
      simp [any_append, hfree hf, isElif]

/-- What a statement does to a list that has been written so far. -/
def WritesStmt (taken : String → Prop) (follows free : Bool) (n : Node) : Prop :=
  ∀ ⦃base chains spots s a s'⦄, Written taken free base chains spots follows s →
    (flatten .fourth n).run s = .ok a s' → ∃ chains' spots', Written taken free base chains' spots' (opens n) s' ∧
        ((follows && !continues n).toNat + unclosedIn n = 0 → chains' = chains ∧ spots' = spots)

theorem Writes.stmt {n : Node} (h : Writes taken free (unclosedIn n) (flatten .fourth n))
    (hopens : opens n = false) (hcontinues : continues n = false) : WritesStmt taken follows free n := by
  intro base chains spots s a s' hw hrun
  obtain ⟨old, hcode, hold, hfree⟩ := hw.exists_tidy
  obtain ⟨new, hcode', hnew, hfree', hclosed⟩ := h hrun
  rw [hopens]
  refine ⟨s'.chains, s'.spots, .settled (old ++ new) (by simp [hcode', hcode]) (hold.append hnew) ?_ rfl rfl,
    fun hleft => ?_⟩
  · intro hf
    rw [any_append, hfree hf, hfree' hf]
    rfl
  · have hfollows : follows = false := by
      cases follows
      · rfl
      · simp [hcontinues] at hleft
    subst hfollows
    cases hw with
    | settled _ _ _ _ hchains hspots =>
      rw [← hchains, ← hspots]
      exact hclosed (by omega)

section Chains

variable (hbody : Writes taken free (unclosedBody body) (flattenBody .fourth body)) (hclosed : unclosedBody body = 0)

include hbody hclosed

theorem writes_ifThen {cond : Node} (hcond : isExpr cond = true) :
    WritesStmt taken follows free (.ifThen cond body) := by
  intro base chains spots s a s' hw h
  obtain ⟨old, hcode, hold, hfree⟩ := hw.exists_tidy
  obtain ⟨c, s0, s2, stop, rest, hc, hb, hstop, hchains', -, hspots', hcode'⟩ := exists_of_run_ifThen h
  obtain ⟨test, htest, hcode0, hchains0, hspots0, -⟩ := evaluation_flatten cond hcond hc
  obtain ⟨inner, hcode2, hinner, hfree2, hsame⟩ := hbody hb
  obtain ⟨hchains2, hspots2⟩ := hsame hclosed
  obtain ⟨rfl, rfl⟩ := List.cons.inj (hchains2.symm.trans hstop)
  set fail := labelName .fourth "" (s0.labels + 1) with hfail
  set stop := labelName .fourth "" (s0.labels + 2) with hstop
  have hplain : labelKind fail = .plain ∧ labelKind stop = .plain := ⟨labelKind_labelName _, labelKind_labelName _⟩
  have hpending : Pending taken stop
      (old ++ (test ++ .branch (.name fail) c :: (inner ++ [.goto (.name stop), .label (.name fail)]))) := by
    intro rest hrest hending
    have hback : Tidy taken (.goto (.name stop) :: .label (.name fail) :: rest) :=
      .single rfl (.single (by simp [stands, hplain]) hrest)
    have hchain : Tidy taken (.branch (.name fail) c :: (inner ++ .goto (.name stop) :: .label (.name fail) :: rest)) :=
      .chain c ⟨inner, stop, rest, rfl, hending⟩ (hinner.append hback)
    simpa using hold.append ((Tidy.of_computing htest).append hchain)
  refine ⟨s.chains, s.spots, .unsettled _ stop ?_ hpending ?_ hplain.2 ?_ ?_, ?_⟩
  · simp [hcode', hcode2, hcode0, hcode]
  · intro hf
    simp [any_append, hfree hf, htest.any_isElif, hfree2 hf, isElif]
  · exact hchains'.trans (hchains2.trans (by rw [hchains0]))
  · simp [hspots', hspots2, hspots0, hcode2, hcode0, hcode]
    omega
  intro hleft
  cases hw with
  | settled _ _ _ _ hchains hspots => exact ⟨hchains, hspots⟩
  | unsettled => simp [continues] at hleft

theorem writes_elifThen {cond : Node} (hcond : isExpr cond = true) (hnotfree : free = false) :
    WritesStmt taken true free (.elifThen cond body) := by
  intro base chains spots s a s' hw h
  cases hw with
  | unsettled old stop hcode hold _ hstop hchains hspots =>
  obtain ⟨c, s0, s2, stop', rest, spot, more, hc, hb, hstop', hspot, hchains', -, hspots', hcode'⟩ :=
    exists_of_run_elifThen h
  obtain ⟨test, htest, hcode0, hchains0, hspots0, -⟩ := evaluation_flatten cond hcond hc
  obtain ⟨inner, hcode2, hinner, -, hsame⟩ := hbody hb
  obtain ⟨hchains2, hspots2⟩ := hsame hclosed
  obtain ⟨rfl, rfl⟩ := List.cons.inj (hchains.symm.trans (hchains0.symm.trans (hchains2.symm.trans hstop')))
  obtain ⟨rfl, rfl⟩ := List.cons.inj (hspots.symm.trans (hspots0.symm.trans (hspots2.symm.trans hspot)))
  set fail := labelName .fourth "" (s0.labels + 1) with hfail
  have hplain : labelKind fail = .plain := labelKind_labelName _
  have hpending : Pending taken stop (old ++
      (test ++ .elseBranch (.name fail) c :: (inner ++ [.goto (.name stop), .label (.name fail)]))) := by
    intro rest hrest hending
    have hback : Tidy taken (.goto (.name stop) :: .label (.name fail) :: rest) :=
      .single rfl (.single (by simp [stands, hplain]) hrest)
    have hfurther : Tidy taken (.elseBranch (.name fail) c ::
        (inner ++ .goto (.name stop) :: .label (.name fail) :: rest)) := .further _ c (hinner.append hback)
    simpa using hold _ ((Tidy.of_computing htest).append hfurther) (.further fail c inner htest hending)
  refine ⟨chains, spots, .unsettled _ stop ?_ hpending ?_ hstop ?_ ?_, fun _ => ⟨rfl, rfl⟩⟩
  · simp only [hcode', hcode, take_left, drop_left, hcode2, hcode0]
    simp
  · intro hf
    cases hf.symm.trans hnotfree
  · exact hchains'.trans hstop'
  · simp [hspots', hcode2, hcode0]
    omega

omit hbody in
theorem writes_elseThen (hbody : Writes taken true (unclosedBody body) (flattenBody .fourth body)) :
    WritesStmt taken true free (.elseThen body) := by
  intro base chains spots s a s' hw h
  cases hw with
  | unsettled old stop hcode hold hfree hstop hchains hspots =>
  obtain ⟨s2, spot, more, stop', rest, hb, hstop', hspot, rfl⟩ := exists_of_run_elseThen h
  obtain ⟨inner, hcode2, hinner, helif, hsame⟩ := hbody hb
  obtain ⟨hchains2, hspots2⟩ := hsame hclosed
  obtain ⟨rfl, rfl⟩ := List.cons.inj (hchains.symm.trans (hchains2.symm.trans hstop'))
  obtain ⟨rfl, rfl⟩ := List.cons.inj (hspots.symm.trans (hspots2.symm.trans hspot))
  have htidy : Tidy taken (old ++ (inner ++ [.label (.name stop)])) :=
    hold _ (hinner.append (tidy_label hstop)) (.last [] hstop (helif rfl))
  refine ⟨chains, spots, .settled _ ?_ htidy ?_ rfl rfl, fun _ => ⟨rfl, rfl⟩⟩
  · simp only [hcode, take_left, drop_left, hcode2]
    simp
  · intro hf
    simp [any_append, hfree hf, helif rfl, isElif]

end Chains

def WritesAll (taken : String → Prop) (follows free : Bool) (p : List Node) : Prop :=
  ∀ ⦃base chains spots s u s'⦄, Written taken free base chains spots follows s →
    (flattenAll .fourth p).run s = .ok u s' →
    (∃ new, s'.code = base ++ new ∧ Tidy taken new ∧ (free = true → new.any isElif = false)) ∧
      (unclosed follows p = 0 → s'.chains = chains ∧ s'.spots = spots)

theorem Fine.of_free {n : Node} (h : Fine taken free n) (hfurther : isFurther n = false) :
    Fine taken true n := ⟨h.orderly, h.function, fun _ => hfurther⟩

mutual

theorem writes_stmt (n : Node) (follows free : Bool) (h : isStmt follows n = true)
    (hfine : ∀ m ∈ within n, Fine taken free m) : WritesStmt taken follows free n := by
  cases n with
  | assign left _ right | append left right =>
    simp only [isStmt, and_eq_true] at h
    refine Writes.stmt ?_ rfl rfl
    exact (evaluation_flatten left h.1).writes_bind fun _ =>
      (evaluation_flatten right h.2).writes_bind fun _ => writes_emit rfl rfl _ _
  | ret value =>
    refine Writes.stmt ?_ rfl rfl
    exact (evaluation_flatten value h).writes_bind fun _ => writes_emit rfl rfl _ _
  | ifThen cond body =>
    simp only [isStmt, and_eq_true] at h
    obtain ⟨hhere, hinside⟩ := forall_mem_cons.1 hfine
    exact writes_ifThen (writes_body body free h.2 hinside) (by simpa [orderly] using hhere.orderly) h.1
  | elifThen cond body =>
    simp only [isStmt, and_eq_true] at h
    obtain ⟨⟨rfl, hcond⟩, hbody⟩ := h
    obtain ⟨hhere, hinside⟩ := forall_mem_cons.1 hfine
    have hnotfree : free = false := by
      cases free
      · rfl
      · cases hhere.free rfl
    exact writes_elifThen (writes_body body free hbody hinside) (by simpa [orderly] using hhere.orderly) hcond hnotfree
  | elseThen body =>
    simp only [isStmt, and_eq_true] at h
    obtain ⟨rfl, hbody⟩ := h
    obtain ⟨hhere, hinside⟩ := forall_mem_cons.1 hfine
    have horderly := hhere.orderly
    simp only [orderly, and_eq_true, beq_iff_eq, Bool.not_eq_true', any_eq_false] at horderly
    exact writes_elseThen horderly.1 (writes_body body true hbody fun m hm =>
      (hinside m hm).of_free (by simpa using horderly.2 m hm))
  | whileDo cond body =>
    simp only [isStmt, and_eq_true] at h
    exact Writes.stmt (writes_whileDo (writes_body body free h.2 (forall_mem_cons.1 hfine).2) h.1) rfl rfl
  | forRange var range body =>
    simp only [isStmt, and_eq_true] at h
    obtain ⟨hhere, hinside⟩ := forall_mem_cons.1 hfine
    obtain ⟨x, rfl⟩ := exists_of_isName hhere.orderly
    exact Writes.stmt (writes_forRange (writes_body body free h.2 hinside) h.1.2) rfl rfl
  | forEach var coll body =>
    simp only [isStmt, and_eq_true] at h
    obtain ⟨hhere, hinside⟩ := forall_mem_cons.1 hfine
    obtain ⟨x, rfl⟩ := exists_of_isName hhere.orderly
    exact Writes.stmt (writes_forEach (writes_body body free h.2 hinside) h.1.2) rfl rfl
  | funDef name params body result =>
    obtain ⟨hhere, hinside⟩ := forall_mem_cons.1 hfine
    exact Writes.stmt (writes_funDef (writes_body body free h hinside) hhere.function) rfl rfl
  | _ => exact ((evaluation_flatten _ h).writes _).stmt rfl rfl

theorem writes_body (body : Node) (free : Bool) (h : isBody body = true)
    (hfine : ∀ m ∈ withinBody body, Fine taken free m) :
    Writes taken free (unclosedBody body) (flattenBody .fourth body) := by
  cases body with
  | block items =>
    intro s u s' hrun
    obtain ⟨⟨new, hcode, hnew, hfree⟩, hclosed⟩ := writes_all items false free h hfine
      (.settled [] (List.append_nil _).symm .nil (fun _ => rfl) rfl rfl) hrun
    exact ⟨new, hcode, hnew, hfree, hclosed⟩
  | _ => simp [isBody] at h

theorem writes_all : (p : List Node) → (follows free : Bool) → areStmts follows p = true →
    (∀ m ∈ withinAll p, Fine taken free m) → WritesAll taken follows free p
  | [], follows, free, _, _ => by
    intro base chains spots s u s' hw hrun
    cases hrun
    refine ⟨hw.exists_tidy, fun hleft => ?_⟩
    cases hw with
    | settled _ _ _ _ hchains hspots => exact ⟨hchains, hspots⟩
    | unsettled => simp [unclosed] at hleft
  | n :: rest, follows, free, h, hfine => by
    simp only [areStmts, and_eq_true] at h
    obtain ⟨hhere, hrest⟩ := forall_mem_append.1 hfine
    intro base chains spots s u s' hw hrun
    obtain ⟨a, s1, hn, hrun1⟩ := of_run_bind hrun
    obtain ⟨chains1, spots1, hw1, hsame1⟩ := writes_stmt n follows free h.1 hhere hw hn
    obtain ⟨htidy, hsame⟩ := writes_all rest (opens n) free h.2 hrest hw1 hrun1
    refine ⟨htidy, fun hleft => ?_⟩
    rw [unclosed] at hleft
    obtain ⟨rfl, rfl⟩ := hsame1 (by omega)
    exact hsame (by omega)

end

mutual

theorem sheltered_of_orderly (n : Node) (h : ∀ m ∈ within n, orderly m = true) : sheltered n = true := by
  cases n with
  | ifThen _ body =>
    have hhere := (forall_mem_cons.1 h).1
    simpa [orderly, sheltered] using hhere
  | elifThen _ body | elseThen body | whileDo _ body | forRange _ _ body | forEach _ _ body
  | funDef _ _ body _ =>
    exact shelteredBody_of_orderly body (forall_mem_cons.1 h).2
  | _ => simp [sheltered]

theorem shelteredBody_of_orderly (body : Node) (h : ∀ m ∈ withinBody body, orderly m = true) :
    shelteredBody body = true := by
  cases body with
  | block items =>
    exact allSheltered_of_orderly items h
  | _ => simp [shelteredBody]

theorem allSheltered_of_orderly : (p : List Node) → (∀ m ∈ withinAll p, orderly m = true) → allSheltered p = true
  | [], _ => rfl
  | n :: rest, h => by
    obtain ⟨hn, hrest⟩ := forall_mem_append.1 h
    rw [allSheltered, sheltered_of_orderly n hn, allSheltered_of_orderly rest hrest]
    rfl

end

theorem tidy_of_ofProgram {code : List Instr} (hstmts : areStmts false p = true)
    (horderly : ∀ m ∈ withinAll p, orderly m = true)
    (htaken : ∀ m ∈ withinAll p, ∀ f, functionOf? m = some f → taken f)
    (h : ofProgram .fourth p = .ok code) : Tidy taken code ∧ (labels code).Nodup := by
  cases hrun : (flattenAll .fourth p).run Flat.empty with
  | error x s =>
    rw [ofProgram, hrun] at h
    cases h
  | ok u s =>
    obtain rfl : s.code = code := by
      rw [ofProgram, hrun] at h
      exact Except.ok.inj h
    constructor
    · obtain ⟨⟨new, hcode, hnew, -⟩, -⟩ := writes_all p false false hstmts
        (fun m hm => ⟨horderly m hm, htaken m hm, Bool.noConfusion⟩)
        (.settled [] (List.append_nil _).symm .nil (fun _ => rfl) rfl rfl) hrun
      rw [show s.code = new from hcode]
      exact hnew
    · obtain ⟨own', marks, jumps, hran, -⟩ :=
        runsAll p false hstmts hrun (show Flat.empty.chains = [] ++ [] from rfl) (by simp)
      have hlabels : (labels s.code).Perm marks := hran.adds.marks
      rw [hlabels.nodup_iff]
      exact hran.once.1 (allSheltered_of_orderly p horderly)

end Tabc.Declaration
