import Recognizer.Proofs.Mending

/-!
# Completing expressions

Every expression that was cut short at the end of the lexemes can be completed with
names, closing brackets and `>`, and so can lists of expressions and of parameters.
No room is needed beyond that of the calls that the run has made.
-/
namespace Recognizer

/-- The pieces that complete expressions. -/
def Piece.tails : List Piece := [.x, .mark .closeParen, .mark .closeBracket, .mark .greater]

theorem Piece.allowed {P : Piece → Prop} {ps qs : List Piece} (hP : ∀ p ∈ qs, P p)
    (h : ∀ p ∈ ps, p ∈ qs) : ∀ p ∈ ps, P p := fun p hp => hP p (h p hp)

namespace Grammar

/-- What may follow a phrase: nothing that continues it, and no `<`, which would
continue a name that it ends with. -/
def Phrase.Precedes (p : Phrase) : List Lexeme → Prop := Avoids (.less :: p.stops)

theorem Phrase.Precedes.endsBefore {p : Phrase} {v : List Lexeme} (h : p.Precedes v) :
    p.EndsBefore v := fun x hx hk => h x hx (List.mem_cons_of_mem _ hk)

/-- A name by itself is an operand. -/
theorem reads_name {known : Bytes → Bool} {x : Lexeme} {v : List Lexeme}
    (hx : x.kind = .identifier) (hv : Avoids [.less] v) : Reads known .postfixed 0 (x :: v) v :=
  .postfixed (.name hx fun _ y hy => by simpa using hv y hy) .bare

variable {prefs : GrammarPreferences} {P : Piece → Prop} {N : Bytes → Prop} {n : Nat}
  {F : List Lexeme → Prop}

theorem Supplies.of_reads {p : Phrase} {k : Nat} (hp : p.Separates) (hk : k ≤ n)
    (h : ∀ known x v, Lexeme.piece x = .x → p.Precedes v → Reads known p k (x :: v) v) :
    Supplies prefs n p.rule [.x] p.Precedes := by
  intro s e v he hv hs ho
  obtain ⟨x, e, rfl, hx, he⟩ := List.map_eq_cons_iff.1 he
  obtain rfl := List.map_eq_nil_iff.1 he
  have hrun := ((h (Setting.known ⟨prefs, s.size, s.table⟩) x v hx hv).exact hp
    hv.endsBefore).fits n hk
  rw [← List.singleton_append, ← hs, Setting.ready_rest ho] at hrun
  exact ⟨_, hrun, rfl, rfl⟩

theorem reads_x {known : Bytes → Bool} {p : Phrase} {x : Lexeme} {v : List Lexeme}
    (hx : x.piece = .x) (hv : p.Precedes v) :
    Reads known .postfixed 0 (x :: v) v ∧ Reads known .prefixed 0 (x :: v) v := by
  have hw : x.text = Bytes.ofAscii ['x'] := congrArg Prod.snd hx
  have h : Reads known .postfixed 0 (x :: v) v :=
    reads_name (congrArg Prod.fst hx) (hv.mono (by simp))
  refine ⟨h, .unsigned (fun y hy hc => ?_) h⟩
  cases hy
  rw [Lexeme.Is, hw] at hc
  exact absurd hc.2 (by decide)

theorem supplies_expression (hn : 1 ≤ n) :
    Supplies prefs n expression [.x] (Phrase.Precedes .expression) :=
  .of_reads (p := .expression) trivial hn fun _ _ _ hx hv => .of_prefixed (reads_x hx hv).2

theorem supplies_operand (l : Level) :
    Supplies prefs n l.operand.rule [.x] l.operand.Precedes := by
  refine .of_reads ?_ (Nat.zero_le n) fun known x v hx hv => ?_
  · cases l <;> trivial
  · have h : Reads known .prefixed 0 (x :: v) v := (reads_x hx hv).2
    have hmultiplicative : Reads known (.level .multiplicative) 0 (x :: v) v := .of_operand h
    have hadditive : Reads known (.level .additive) 0 (x :: v) v := .of_operand hmultiplicative
    have hrelational : Reads known (.level .relational) 0 (x :: v) v := .of_operand hadditive
    have hequality : Reads known (.level .equality) 0 (x :: v) v := .of_operand hrelational
    have hconjunction : Reads known (.level .conjunction) 0 (x :: v) v := .of_operand hequality
    cases l <;> assumption

theorem supplies_postfixExpr :
    Supplies prefs n postfixExpr [.x] (Phrase.Precedes .postfixed) :=
  .of_reads (p := .postfixed) trivial (Nat.zero_le n) fun _ _ _ hx hv => (reads_x hx hv).1

theorem supplies_templateArguments (hn : 1 ≤ n) :
    Supplies prefs n templateArguments [.x, .mark .greater] F := by
  obtain ⟨n, rfl⟩ : ∃ m, n = m + 1 := ⟨n - 1, by omega⟩
  have hlist : Supplies prefs n additiveList [.x] (Begins .greater) :=
    (supplies_operand .relational).separated (fun v hv => hv.avoids (by decide))
      fun v hv => hv.avoids (by decide)
  exact .call (hlist.andThen (.kind .greater) (.begins rfl))

/-- A call that is not refused has room. -/
theorem Runs.one_le_of_call {seen : Test → Prop} {g : Guarded} {s t : State} {b : Bool}
    (h : Runs (body prefs) seen n (.call g) s b t) (ho : t.overflow = none) : 1 ≤ n := by
  cases h with
  | call => exact Nat.succ_pos _
  | refuse => exact absurd ho s.overflow_refuse
  | refused hs => cases ho.symm.trans hs

/-- A rule that begins with a call that is not refused has room. -/
theorem Runs.one_le_of_andThen {seen : Test → Prop} {g : Guarded} {q : Rule} {s t : State}
    {b : Bool} (h : Runs (body prefs) seen n ((Rule.call g).andThen q) s b t)
    (ho : t.overflow = none) : 1 ≤ n := by
  cases h with
  | yes hf hy => exact hf.one_le_of_call (hy.overflow_eq_none ho)
  | no hf hn => exact hf.one_le_of_call (hn.overflow_eq_none ho)

theorem straight_operand (l : Level) : l.operand.rule.Meets .straight := by
  have hprefix : prefixExpr.Meets .straight := plain_prefixExpr.straight
  have step {r : Rule} {ks : List Kind} (hr : r.Meets .straight) :
      (Rule.operators r ks).Meets .straight := by simp [Rule.operators, hr]
  cases l with
  | multiplicative => exact hprefix
  | additive => exact step hprefix
  | relational => exact step (step hprefix)
  | equality => exact step (step (step hprefix))
  | conjunction => exact step (step (step (step hprefix)))
  | disjunction => exact step (step (step (step (step hprefix))))

namespace Mends

section Expressions

variable (hP : ∀ p ∈ Piece.tails, P p)
include hP

theorem level {l : Level} (h : Mends prefs P N n l.operand.rule l.operand.Precedes) :
    Mends prefs P N n l.rule (Phrase.Precedes (.level l)) := by
  have hstops : (Phrase.level l).stops = l.operators ++ l.operand.stops := l.stops_eq
  have hoperand (v : List Lexeme) (hv : Phrase.Precedes (.level l) v) : l.operand.Precedes v := by
    refine hv.mono fun k hk => ?_
    rw [hstops]
    rcases List.mem_cons.1 hk with rfl | hk
    · simp
    · exact List.mem_cons_of_mem _ (List.mem_append_right _ hk)
  have hlink (table : SymbolTable) (v : List Lexeme) (hv : Phrase.Precedes (.level l) v) :
      (separator l.operators).holds table v = false := by
    rw [holds_separator]
    cases v with
    | nil => rfl
    | cons x v =>
      have hx := hv x rfl
      rw [hstops] at hx
      simpa using fun hk => hx (List.mem_cons_of_mem _ (List.mem_append_left _ hk))
  have hx : ∀ p ∈ [Piece.x], P p := Piece.allowed hP (by decide)
  rw [l.rule_eq]
  exact andThen h (.of_straight (straight_operand l))
    (links h (straight_operand l) ((supplies_operand l).renews hx) hoperand hlink)
    (.done hlink) (.nil hoperand) (by simp)

/-- What completes an expression that was just opened, and closes it. -/
theorem renews_closedBy {k : Kind} (hk : k ∉ .less :: (Phrase.expression).stops)
    (hPk : P (.mark k)) : Renews prefs P n (Rule.inOrder [expression, .kind k]) F := by
  intro s b t h ho
  refine ⟨[.x, .mark k], ?_, (supplies_expression (h.one_le_of_andThen ho)).andThen (.kind k)
    (.avoids hk)⟩
  simpa using ⟨hP .x (by decide), hPk⟩

theorem renews_expression : Renews prefs P n expression (Phrase.Precedes .expression) :=
  fun _ _ _ h ho => ⟨[.x], Piece.allowed hP (by decide),
    supplies_expression (h.one_le_of_call ho)⟩

theorem renews_templateArguments : Renews prefs P n templateArguments F :=
  fun _ _ _ h ho => ⟨[.x, .mark .greater], Piece.allowed hP (by decide),
    supplies_templateArguments (h.one_le_of_call ho)⟩

section Calls

variable (he : Mends prefs P N n expression (Phrase.Precedes .expression))
include he

omit hP in
/-- An expression and the lexeme that closes it. -/
theorem closedBy {k : Kind} (hk : k ∉ .less :: (Phrase.expression).stops) (hPk : P (.mark k)) :
    Mends prefs P N n (Rule.inOrder [expression, .kind k]) F :=
  andThen he (.of_straight plain_expression.straight) (take _) (.kind k) (.avoids hk)
    (by simpa using hPk)

theorem arguments : Mends prefs P N n Grammar.arguments F :=
  delimited he plain_expression.straight (renews_expression hP) (fun v hv => hv.avoids (by decide))
    (by decide) (hP _ (by decide))

theorem suffixPart : Mends prefs P N n Grammar.suffixPart F := by
  have hbracket : P (.mark .closeBracket) := hP _ (by decide)
  refine takeThen (take _) (when (arguments hP he) ?_) .identifier
    (Piece.allowed hP (by decide))
  exact branchTake (closedBy he (by decide) hbracket) (take _)
    (renews_closedBy hP (by decide) hbracket)

/-- A primary, which ends with a name or with the lexeme that closes it. -/
theorem primary (ht : Mends prefs P N n templateArguments (Avoids [.less])) :
    Mends prefs P N n Grammar.primary (Avoids [.less]) := by
  have hparen : P (.mark .closeParen) := hP _ (by decide)
  have hliteral : Mends prefs P N n literal (Avoids [.less]) :=
    orElse (take _) trivial (orElse (take _) trivial (orElse (take _) trivial (take _)))
  have htype : Mends prefs P N n basicType (Avoids [.less]) :=
    orElse (take _) trivial (orElse (take _) trivial (take _))
  have hname : Mends prefs P N n templateName (Avoids [.less]) :=
    branchTake ht accept (renews_templateArguments hP)
  have hbare : Supplies prefs n templateName [] (Avoids [.less]) :=
    .skip .accept fun table e v he hv => by
      obtain rfl := List.map_eq_nil_iff.1 he
      exact hv.kind (by simp) table
  refine takeThen hname ?_ hbare (by simp)
  refine orElse hliteral (by simp [literal]) ?_
  refine branchTake (closedBy he (by decide) hparen) ?_ (renews_closedBy hP (by decide) hparen)
  exact orElse htype (by simp [basicType]) (orElse (take _) trivial (take _))

theorem postfixExpr (hprimary : Mends prefs P N n Grammar.primary (Avoids [.less])) :
    Mends prefs P N n Grammar.postfixExpr (Phrase.Precedes .postfixed) := by
  have hsuffix (table : SymbolTable) (v : List Lexeme) (hv : Phrase.Precedes .postfixed v) :
      (Test.oneOf suffixStarts).holds table v = false :=
    Avoids.oneOf hv (fun k hk => List.mem_cons_of_mem _ hk) table
  have hpart : Grammar.suffixPart.Meets .straight :=
    Rule.Meets.straight (by simp [Grammar.suffixPart, Test.refuses, closers])
  exact andThen hprimary (.of_straight plain_primary.straight)
    (loop (suffixPart hP he) (.of_straight hpart) hsuffix) (.done hsuffix)
    (.nil fun v hv => hv.mono (by simp)) (by simp)

theorem prefixExpr (hprimary : Mends prefs P N n Grammar.primary (Avoids [.less])) :
    Mends prefs P N n Grammar.prefixExpr (Phrase.Precedes .prefixed) := by
  have hsign : Mends prefs P N n
      (Rule.oneOf [.kind .minus, .kind .bang, .keyword .const]).optional anything :=
    optional (orElse (take _) trivial (orElse (take _) trivial (take _)))
  exact andThen hsign (.of_straight (by simp)) (postfixExpr hP he hprimary)
    supplies_postfixExpr .anything (Piece.allowed hP (by decide))

end Calls

/-- Expressions and template arguments, in any room. -/
theorem calls (n : Nat) : Mends prefs P N n expression (Phrase.Precedes .expression) ∧
    ∀ F, Mends prefs P N n templateArguments F := by
  induction n with
  | zero =>
    exact ⟨.call fun m hm => absurd hm (by simp), fun F => .call fun m hm => absurd hm (by simp)⟩
  | succ n ih =>
    obtain ⟨he, ht⟩ := ih
    have hprefix := prefixExpr hP he (primary hP he (ht _))
    have hmultiplicative := level hP (l := .multiplicative) hprefix
    have hadditive := level hP (l := .additive) hmultiplicative
    have hrelational := level hP (l := .relational) hadditive
    have hequality := level hP (l := .equality) hrelational
    have hconjunction := level hP (l := .conjunction) hequality
    constructor
    · refine .call fun m hm => ?_
      cases hm
      exact level hP (l := .disjunction) hconjunction
    · refine fun F => .call fun m hm => ?_
      cases hm
      have hx : Renews prefs P n additive (Phrase.Precedes (.level .additive)) :=
        (supplies_operand .relational).renews (Piece.allowed hP (by decide))
      have hlist : Mends prefs P N n additiveList (Begins .greater) :=
        separated hadditive plain_additive.straight hx (fun v hv => hv.avoids (by decide))
          fun v hv => hv.avoids (by decide)
      exact andThen hlist (.of_straight (by simp [additiveList, Rule.separated,
        plain_additive.straight])) (take _) (.kind .greater) (.begins rfl)
          (Piece.allowed hP (by decide))

end Expressions
end Mends
end Grammar
end Recognizer
