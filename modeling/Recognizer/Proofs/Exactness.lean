import Recognizer.Proofs.Phrase
import Recognizer.Proofs.Program

/-!
# Exactness of expressions

An expression is accepted exactly when it can be read off the lexemes as a phrase
whose nesting fits into the room, and a phrase that does not fit makes the depth
guard fire. In one direction the phrases follow the course of an accepting run; in
the other the run follows the phrase, because what follows a phrase never
continues it.
-/
namespace Recognizer.Grammar

/-- What stays as it is while an expression is read. -/
structure Setting where
  prefs : GrammarPreferences
  size : Nat
  table : SymbolTable

namespace Setting

variable (E : Setting)

/-- The names that the symbol table knows. -/
def known (w : Bytes) : Bool := (E.table.lookup? w).isSome

/-- The state before some lexemes, with no refused call. -/
def ready (s : List Lexeme) : State := ⟨s, E.size, E.table, none⟩

@[simp] theorem rest_ready (s : List Lexeme) : (E.ready s).rest = s := rfl
@[simp] theorem table_ready (s : List Lexeme) : (E.ready s).table = E.table := rfl
@[simp] theorem overflow_ready (s : List Lexeme) : (E.ready s).overflow = none := rfl
@[simp] theorem passes_ready (s : List Lexeme) (q : Test) :
    (E.ready s).passes q = q.holds E.table s := rfl

/-- A state without a refused call is the one before its lexemes. -/
theorem ready_rest {s : State} (ho : s.overflow = none) (prefs : GrammarPreferences) :
    Setting.ready ⟨prefs, s.size, s.table⟩ s.rest = s := by
  cases s
  simp_all [ready]

end Setting

variable {E : Setting} {n j k : Nat} {r q : Rule} {s t u : List Lexeme}

/-- The rule takes one lexeme if it satisfies the predicate, and nothing else. -/
structure Picks (E : Setting) (r : Rule) (f : Lexeme → Bool) : Prop where
  hit : ∀ n x s, f x = true → FullRuns (body E.prefs) n r (E.ready (x :: s)) true (E.ready s)
  miss : ∀ n s, (∀ x ∈ s.head?, f x = false) →
    FullRuns (body E.prefs) n r (E.ready s) false (E.ready s)

namespace Picks

variable {f g : Lexeme → Bool} {m : State}

theorem take {c : Test} (hc : ∀ s, c.holds E.table s = s.head?.any f) :
    Picks E (.take c) f where
  hit n x s hx :=
    Runs.take (s := E.ready (x :: s)) (by simp) (by simpa [hx] using hc (x :: s))
  miss n s hs := by
    refine .miss (fun _ => trivial) ?_
    rw [Setting.passes_ready, hc]
    cases s with
    | nil => rfl
    | cons x s => simpa using hs x rfl

theorem kind (k : Kind) : Picks E (Rule.kind k) (·.kind == k) :=
  take fun s => by cases s <;> rfl

theorem keyword (w : Keyword) :
    Picks E (Rule.keyword w) (fun x => x.kind == .identifier && x.text == w.bytes) :=
  take fun s => by cases s <;> rfl

theorem orElse (hr : Picks E r f) (hq : Picks E q g) :
    Picks E (r.orElse q) (fun x => f x || g x) where
  hit n x s hx := by
    cases hf : f x with
    | true => exact .yes (hr.hit n x s hf) .accept
    | false =>
      refine .no (hr.miss n (x :: s) (by simpa using hf)) (hq.hit n x s ?_)
      simpa [hf] using hx
  miss n s hs := by
    refine .no (hr.miss n s fun x hx => ?_) (hq.miss n s fun x hx => ?_)
    · exact (Bool.or_eq_false_iff.1 (hs x hx)).1
    · exact (Bool.or_eq_false_iff.1 (hs x hx)).2

/-- Acceptance shows the lexeme that was taken. -/
theorem of_accept (h : Picks E r f) (hrun : FullRuns (body E.prefs) n r (E.ready s) true m) :
    ∃ x t, s = x :: t ∧ f x = true ∧ m = E.ready t := by
  cases s with
  | nil => cases (hrun.unique (h.miss n [] (by simp))).1
  | cons x s =>
    cases hf : f x with
    | true => exact ⟨x, s, rfl, hf, (hrun.unique (h.hit n x s hf)).2⟩
    | false => cases (hrun.unique (h.miss n (x :: s) (by simpa using hf))).1

/-- Rejection shows that no such lexeme is next. -/
theorem of_reject (h : Picks E r f) (hrun : FullRuns (body E.prefs) n r (E.ready s) false m) :
    (∀ x ∈ s.head?, f x = false) ∧ m = E.ready s := by
  have hs : ∀ x ∈ s.head?, f x = false := by
    cases s with
    | nil => simp
    | cons x s =>
      simp only [List.head?_cons, Option.mem_def, Option.some.injEq, forall_eq']
      refine Bool.eq_false_iff.2 fun hf => ?_
      cases (hrun.unique (h.hit n x s hf)).1
  exact ⟨hs, (hrun.unique (h.miss n s hs)).2⟩

end Picks

/-- The rule reads `s` up to `t` when there is room for `k` nested calls, and makes
the depth guard fire when there is not. -/
structure Exact (E : Setting) (r : Rule) (k : Nat) (s t : List Lexeme) : Prop where
  fits : ∀ n, k ≤ n → FullRuns (body E.prefs) n r (E.ready s) true (E.ready t)
  deep : ∀ n, n < k → ∃ m, FullRuns (body E.prefs) n r (E.ready s) false m ∧ m.overflow ≠ none

namespace Exact

variable {f : Lexeme → Bool} {x : Lexeme} {c : Test} {first : Rule}

theorem accept : Exact E .accept 0 s s where
  fits _ _ := .accept
  deep _ hn := absurd hn (Nat.not_lt_zero _)

theorem pick (h : Picks E r f) (hx : f x = true) : Exact E r 0 (x :: s) s where
  fits n _ := h.hit n x s hx
  deep _ hn := absurd hn (Nat.not_lt_zero _)

/-- Two rules in turn need room for the deeper one. -/
theorem andThen (hr : Exact E r j s u) (hq : Exact E q k u t) :
    Exact E (r.andThen q) (max j k) s t where
  fits n hn := .yes (hr.fits n (by omega)) (hq.fits n (by omega))
  deep n hn := by
    by_cases hj : j ≤ n
    · obtain ⟨m, hm, ho⟩ := hq.deep n (by omega)
      exact ⟨m, .yes (hr.fits n hj) hm, ho⟩
    · obtain ⟨m, hm, ho⟩ := hr.deep n (by omega)
      exact ⟨m, .no hm .reject, ho⟩

/-- A rule without calls before another one needs no room. -/
theorem before (hr : Exact E r 0 s u) (hq : Exact E q k u t) : Exact E (r.andThen q) k s t := by
  simpa using andThen hr hq

/-- A rule without calls after another one needs no room. -/
theorem after (hr : Exact E r k s u) (hq : Exact E q 0 u t) : Exact E (r.andThen q) k s t := by
  simpa using andThen hr hq

/-- A lexeme that is taken decides for the second rule. -/
theorem yes (h : Picks E first f) (hx : f x = true) (hr : Exact E r k s t) :
    Exact E (.branch first r q) k (x :: s) t where
  fits n hn := .yes (h.hit n x s hx) (hr.fits n hn)
  deep n hn := by
    obtain ⟨m, hm, ho⟩ := hr.deep n hn
    exact ⟨m, .yes (h.hit n x s hx) hm, ho⟩

/-- A lexeme that is not taken decides for the third rule. -/
theorem no (h : Picks E first f) (hs : ∀ x ∈ s.head?, f x = false) (hq : Exact E q k s t) :
    Exact E (.branch first r q) k s t where
  fits n hk := .no (h.miss n s hs) (hq.fits n hk)
  deep n hk := by
    obtain ⟨m, hm, ho⟩ := hq.deep n hk
    exact ⟨m, .no (h.miss n s hs) hm, ho⟩

theorem peekYes (hc : c.holds E.table s = true) (hr : Exact E r k s t) :
    Exact E (.branch (.peek c) r q) k s t where
  fits n hk := .yes (.peek (fun _ => trivial) hc) (hr.fits n hk)
  deep n hk := by
    obtain ⟨m, hm, ho⟩ := hr.deep n hk
    exact ⟨m, .yes (.peek (fun _ => trivial) hc) hm, ho⟩

theorem peekNo (hc : c.holds E.table s = false) (hq : Exact E q k s t) :
    Exact E (.branch (.peek c) r q) k s t where
  fits n hk := .no (.peek (fun _ => trivial) hc) (hq.fits n hk)
  deep n hk := by
    obtain ⟨m, hm, ho⟩ := hq.deep n hk
    exact ⟨m, .no (.peek (fun _ => trivial) hc) hm, ho⟩

theorem done (hc : c.holds E.table s = false) : Exact E (.loop c r) 0 s s where
  fits _ _ := .done (fun _ => trivial) hc
  deep _ hn := absurd hn (Nat.not_lt_zero _)

theorem again (hc : c.holds E.table s = true) (hr : Exact E r j s u)
    (hl : Exact E (.loop c r) k u t) : Exact E (.loop c r) (max j k) s t where
  fits n hn := .again (fun _ => trivial) hc (hr.fits n (by omega)) (hl.fits n (by omega))
  deep n hn := by
    by_cases hj : j ≤ n
    · obtain ⟨m, hm, ho⟩ := hl.deep n (by omega)
      exact ⟨m, .again (fun _ => trivial) hc (hr.fits n hj) hm, ho⟩
    · obtain ⟨m, hm, ho⟩ := hr.deep n (by omega)
      exact ⟨m, .stop (fun _ => trivial) hc hm, ho⟩

/-- A call takes one more room than the body of the production. -/
theorem call {g : Guarded} (h : Exact E (body E.prefs g) k s t) :
    Exact E (.call g) (k + 1) s t where
  fits n hn := by
    obtain ⟨n, rfl⟩ : ∃ m, n = m + 1 := ⟨n - 1, by omega⟩
    exact .call rfl (h.fits n (by omega))
  deep n hn := by
    cases n with
    | zero => exact ⟨_, .refuse fun _ => trivial, State.overflow_refuse _⟩
    | succ n =>
      obtain ⟨m, hm, ho⟩ := h.deep n (by omega)
      exact ⟨m, .call rfl hm, ho⟩

end Exact
/-- A level and those inside it. -/
def Level.inner : Level → List Level
  | disjunction => [disjunction, conjunction, equality, relational, additive, multiplicative]
  | conjunction => [conjunction, equality, relational, additive, multiplicative]
  | equality => [equality, relational, additive, multiplicative]
  | relational => [relational, additive, multiplicative]
  | additive => [additive, multiplicative]
  | multiplicative => [multiplicative]

/-- The kinds that continue a level or one of the levels inside it. -/
def Level.stops (l : Level) : List Kind := l.inner.flatMap Level.operators ++ suffixStarts

/-- The rule of a level. -/
def Level.rule : Level → Rule
  | disjunction => Grammar.disjunction
  | conjunction => Grammar.conjunction
  | equality => Grammar.equality
  | relational => Grammar.relational
  | additive => Grammar.additive
  | multiplicative => Grammar.multiplicative

/-- The test for a lexeme of one of the kinds, as lists and as levels ask it. -/
def separator (ks : List Kind) : Test := if ks = [.comma] then .kind .comma else .oneOf ks

namespace Phrase

/-- The rule of a phrase. -/
def rule : Phrase → Rule
  | expression => Grammar.expression
  | level l => l.rule
  | prefixed => prefixExpr
  | postfixed => postfixExpr
  | primary => Grammar.primary
  | arguments =>
    Rule.inOrder [.orElse (.peek (.kind .closeParen)) (.separated Grammar.expression),
      .kind .closeParen]
  | templateArguments => Grammar.templateArguments
  | suffixes => .loop (.oneOf suffixStarts) suffixPart
  | chain ks p => .loop (separator ks) (.andThen (.take (separator ks)) p.rule)

/-- The kinds that continue a phrase. -/
def stops : Phrase → List Kind
  | expression => Level.stops .disjunction
  | level l => l.stops
  | prefixed | postfixed | suffixes => suffixStarts
  | primary | arguments | templateArguments => []
  | chain ks p => ks ++ p.stops

/-- The lexemes between the phrases of a chain continue none of them. -/
def Separates : Phrase → Prop
  | chain ks p => (∀ k ∈ ks, k ∉ p.stops) ∧ p.Separates
  | _ => True

/-- No lexeme that continues the phrase is next. -/
def EndsBefore (p : Phrase) (t : List Lexeme) : Prop := ∀ x ∈ t.head?, x.kind ∉ p.stops

variable {p : Phrase} {x : Lexeme}

theorem EndsBefore.cons (hx : x.kind ∉ p.stops) : p.EndsBefore (x :: s) := by
  simpa [EndsBefore] using hx

theorem EndsBefore.of_stops (hp : p.stops = []) : p.EndsBefore s := by
  simp [EndsBefore, hp]

end Phrase

namespace Level

variable (l : Level)

theorem rule_eq : l.rule =
    .andThen l.operand.rule (Phrase.chain l.operators l.operand).rule := by
  cases l <;> rfl

theorem stops_eq : l.stops = (Phrase.chain l.operators l.operand).stops := by
  cases l <;> rfl

theorem separates : (Phrase.chain l.operators l.operand).Separates := by
  cases l <;> exact ⟨by decide, trivial⟩

end Level

theorem holds_separator (ks : List Kind) (table : SymbolTable) (s : List Lexeme) :
    (separator ks).holds table s = s.head?.any (ks.contains ·.kind) := by
  unfold separator
  split
  · next h =>
    subst h
    cases s with
    | nil => rfl
    | cons x s => simp [Test.holds, Bool.beq_eq_decide_eq]
  · cases s <;> rfl

theorem picks_separator (ks : List Kind) :
    Picks E (.take (separator ks)) (ks.contains ·.kind) := .take (holds_separator ks E.table)

/-- A chain is empty or begins with one of its separators. -/
theorem Reads.chain_head {known : Bytes → Bool} {ks : List Kind} {p : Phrase}
    (h : Reads known (.chain ks p) k s t) : s = t ∨ ∃ x u, s = x :: u ∧ x.kind ∈ ks := by
  cases h with
  | last => exact .inl rfl
  | link hx => exact .inr ⟨_, _, rfl, hx⟩

/-- What stands before a chain ends before it. -/
theorem Reads.endsBefore_chain {known : Bytes → Bool} {ks : List Kind} {p : Phrase}
    (h : Reads known (.chain ks p) k s t) (hp : (Phrase.chain ks p).Separates)
    (ht : (Phrase.chain ks p).EndsBefore t) : p.EndsBefore s := by
  rcases h.chain_head with rfl | ⟨x, u, rfl, hx⟩
  · exact fun x hx hk => ht x hx (List.mem_append_right ks hk)
  · simpa [Phrase.EndsBefore] using hp.1 _ hx

theorem picks_literal : Picks E literal fun x =>
    (x.kind == .identifier && x.text == Keyword.true_.bytes) ||
      ((x.kind == .identifier && x.text == Keyword.false_.bytes) ||
        (x.kind == .integer || x.kind == .real)) :=
  (Picks.keyword _).orElse ((Picks.keyword _).orElse ((Picks.kind _).orElse (Picks.kind _)))

/-- The lexemes that are a primary by themselves when they are not literals. -/
theorem picks_plainName :
    ∃ f : Lexeme → Bool, (∀ x, f x = (x.kind == .identifier)) ∧
      Picks E (.oneOf [basicType, .keyword .typename, .kind .identifier]) f := by
  refine ⟨_, ?_, ((Picks.keyword .bool).orElse ((Picks.keyword .int).orElse
    (Picks.keyword .double))).orElse ((Picks.keyword .typename).orElse (Picks.kind .identifier))⟩
  intro x
  cases x.kind == .identifier <;> simp

theorem picks_known :
    Picks E (.take .known) fun x => x.kind == .identifier && E.known x.text :=
  .take fun s => by cases s <;> rfl

/-! ### From phrases to runs -/

namespace Exact

variable {x y : Lexeme}

theorem prefixed_signed (hx : x.kind = .minus ∨ x.kind = .bang ∨ x.Is .const)
    (h : Exact E postfixExpr k s t) : Exact E prefixExpr k (x :: s) t := by
  have hpick := (Picks.kind (E := E) .minus).orElse
    ((Picks.kind .bang).orElse (Picks.keyword .const))
  refine before (yes hpick ?_ accept) h
  rcases hx with hx | hx | hx
  · simp [hx]
  · simp [hx]
  · simp [hx.1, hx.2]

/-- The first lexeme of a postfix expression is no prefix operator but `const`. -/
theorem prefixed_unsigned (hs : ∀ x ∈ s.head?, ¬ x.Is .const)
    (hk : ∀ x ∈ s.head?, x.kind ≠ .minus ∧ x.kind ≠ .bang)
    (h : Exact E postfixExpr k s t) : Exact E prefixExpr k s t := by
  have hpick := (Picks.kind (E := E) .minus).orElse
    ((Picks.kind .bang).orElse (Picks.keyword .const))
  refine before (no hpick ?_ accept) h
  intro x hx
  have := hs x hx
  have := hk x hx
  simp_all [Lexeme.Is]

theorem arguments_none (hx : x.kind = .closeParen) :
    Exact E (Phrase.rule .arguments) 0 (x :: s) s :=
  before (peekYes (by simp [Test.holds, hx]) accept)
    (pick (Picks.kind .closeParen) (by simp [hx]))

theorem arguments_some (hs : ∀ x ∈ s.head?, x.kind ≠ .closeParen) (hx : x.kind = .closeParen)
    (he : Exact E expression j s u)
    (hc : Exact E (Phrase.rule (.chain [.comma] .expression)) k u (x :: t)) :
    Exact E (Phrase.rule .arguments) (max j k) s t := by
  refine after (peekNo ?_ (andThen he hc)) (pick (Picks.kind .closeParen) (by simp [hx]))
  cases s with
  | nil => rfl
  | cons y s => simpa [Test.holds] using hs y rfl

/-- A suffix is read, and then those after it. -/
theorem suffix (hx : x.kind ∈ suffixStarts) (hr : Exact E suffixPart j (x :: s) u)
    (hl : Exact E (Phrase.rule .suffixes) k u t) :
    Exact E (Phrase.rule .suffixes) (max j k) (x :: s) t :=
  again (by simpa [Test.holds] using hx) hr hl

theorem suffix_field (hx : x.kind = .dot) (hy : y.kind = .identifier) :
    Exact E suffixPart 0 (x :: y :: s) s :=
  yes (Picks.kind .dot) (by simp [hx]) (pick (Picks.kind .identifier) (by simp [hy]))

theorem suffix_application (hx : x.kind = .openParen)
    (h : Exact E (Phrase.rule .arguments) k s t) : Exact E suffixPart k (x :: s) t :=
  no (Picks.kind .dot) (by simp [hx]) <| peekYes (by simp [Test.holds, hx]) <|
    before (pick (Picks.kind .openParen) (by simp [hx])) h

theorem suffix_subscript (hx : x.kind = .openBracket) (hy : y.kind = .closeBracket)
    (h : Exact E expression k s (y :: t)) : Exact E suffixPart k (x :: s) t :=
  no (Picks.kind .dot) (by simp [hx]) <| peekNo (by simp [Test.holds, hx]) <|
    yes (Picks.kind .openBracket) (by simp [hx]) <|
      after h (pick (Picks.kind .closeBracket) (by simp [hy]))

theorem suffix_reference (hx : x.kind = .ampersand) : Exact E suffixPart 0 (x :: s) s :=
  no (Picks.kind .dot) (by simp [hx]) <| peekNo (by simp [Test.holds, hx]) <|
    no (Picks.kind .openBracket) (by simp [hx]) (pick (Picks.kind .ampersand) (by simp [hx]))

/-- A known name that no `<` follows is read as a name, and so is an unknown one. -/
theorem primary_name (hx : x.kind = .identifier)
    (hs : E.known x.text = true → ∀ y ∈ s.head?, y.kind ≠ .less) :
    Exact E primary 0 (x :: s) s := by
  cases hk : E.known x.text with
  | true =>
    refine yes picks_known (by simp [hx, hk]) (no (Picks.kind .less) ?_ accept)
    intro y hy
    simpa using hs hk y hy
  | false =>
    refine no picks_known (by simp [hk]) ?_
    obtain ⟨f, hf, hpick⟩ := picks_plainName (E := E)
    by_cases hl : (x.text = Keyword.true_.bytes ∨ x.text = Keyword.false_.bytes)
    · exact yes picks_literal (by simpa [hx] using hl) accept
    · refine no picks_literal ?_ (no (Picks.kind .openParen) (by simp [hx]) (pick hpick ?_))
      · simpa [hx] using hl
      · simp [hf, hx]

theorem primary_number (hx : x.kind = .integer ∨ x.kind = .real) :
    Exact E primary 0 (x :: s) s := by
  refine no picks_known ?_ (yes picks_literal ?_ accept)
  · rcases hx with hx | hx <;> simp [hx]
  · rcases hx with hx | hx <;> simp [hx]

theorem primary_group (hx : x.kind = .openParen) (hy : y.kind = .closeParen)
    (h : Exact E expression k s (y :: t)) : Exact E primary k (x :: s) t :=
  no picks_known (by simp [hx]) <| no picks_literal (by simp [hx]) <|
    yes (Picks.kind .openParen) (by simp [hx]) <|
      after h (pick (Picks.kind .closeParen) (by simp [hy]))

theorem primary_template (hx : x.kind = .identifier) (hk : E.known x.text = true)
    (hy : y.kind = .less) (h : Exact E templateArguments k s t) :
    Exact E primary k (x :: y :: s) t :=
  yes picks_known (by simp [hx, hk]) (yes (Picks.kind .less) (by simp [hy]) h)

end Exact

/-- A phrase is read by its rule, unless what follows would continue it. -/
theorem Reads.exact {p : Phrase} (h : Reads E.known p k s t) (hp : p.Separates)
    (ht : p.EndsBefore t) : Exact E p.rule k s t := by
  induction h with
  | expression _ ih => exact .call (ih trivial ht)
  | @level l _ _ _ _ _ _ hc ihp ihc =>
    rw [Phrase.EndsBefore, Phrase.stops, l.stops_eq] at ht
    rw [Phrase.rule, l.rule_eq]
    exact .andThen (ihp l.separates.2 (hc.endsBefore_chain l.separates ht)) (ihc l.separates ht)
  | @last ks p s =>
    refine .done ?_
    rw [holds_separator]
    cases s with
    | nil => rfl
    | cons x s => simpa using fun hx => ht x rfl (List.mem_append_left _ hx)
  | @link ks p j k x s u t hx _ hc ihp ihc =>
    refine .again (j := j) (u := u) ?_ (.before (u := s) ?_ ?_) (ihc hp ht)
    · simpa [holds_separator] using hx
    · exact .pick (picks_separator ks) (by simpa using hx)
    · exact ihp hp.2 (hc.endsBefore_chain hp ht)
  | signed hx _ ih => exact .prefixed_signed hx (ih trivial ht)
  | unsigned hs h ih =>
    refine .prefixed_unsigned hs ?_ (ih trivial ht)
    obtain ⟨x, u, rfl, hx⟩ := h.postfixed_start
    simp only [List.head?_cons, Option.mem_def, Option.some.injEq, forall_eq']
    constructor <;> intro hk <;> simp [hk] at hx
  | postfixed _ _ ihp ihc => exact .andThen (ihp trivial (.of_stops rfl)) (ihc trivial ht)
  | @bare s =>
    refine .done ?_
    cases s with
    | nil => rfl
    | cons x s => simpa [Test.holds, Phrase.stops] using ht x rfl
  | field hx hy _ ih =>
    simpa using Exact.suffix (by simp [hx, suffixStarts]) (.suffix_field hx hy) (ih trivial ht)
  | application hx _ _ ihp ihc =>
    exact .suffix (by simp [hx, suffixStarts])
      (.suffix_application hx (ihp trivial (.of_stops rfl)))
      (ihc trivial ht)
  | subscript hx hy _ _ ihp ihc =>
    exact .suffix (by simp [hx, suffixStarts])
      (.suffix_subscript hx hy (ihp trivial (.cons (by rw [hy]; decide)))) (ihc trivial ht)
  | reference hx _ ih =>
    simpa using Exact.suffix (by simp [hx, suffixStarts]) (.suffix_reference hx) (ih trivial ht)
  | noArguments hx => exact .arguments_none hx
  | @arguments _ _ x _ _ t hx he hc ihp ihc =>
    have hsep : (Phrase.chain [.comma] .expression).Separates := ⟨by decide, trivial⟩
    have hend : (Phrase.chain [.comma] .expression).EndsBefore (x :: t) :=
      .cons (by rw [hx]; decide)
    refine .arguments_some ?_ hx (ihp trivial (hc.endsBefore_chain hsep hend)) (ihc hsep hend)
    obtain ⟨y, u, rfl, hy⟩ := he.operand_start rfl
    simp only [List.head?_cons, Option.mem_def, Option.some.injEq, forall_eq']
    intro hk
    simp [hk, operandStarts] at hy
  | name hx hs => exact .primary_name hx hs
  | number hx => exact .primary_number hx
  | group hx hy _ ih =>
    exact .primary_group hx hy (ih trivial (.cons (by rw [hy]; decide)))
  | template hx hk hy _ ih =>
    exact .primary_template hx hk hy (ih trivial (.of_stops rfl))
  | @templateArguments _ _ x _ _ t hx _ hc ihp ihc =>
    have hsep : (Phrase.chain [.comma] (.level .additive)).Separates := ⟨by decide, trivial⟩
    have hend : (Phrase.chain [.comma] (.level .additive)).EndsBefore (x :: t) :=
      .cons (by rw [hx]; decide)
    exact .call <| .after (.andThen (ihp trivial (hc.endsBefore_chain hsep hend)) (ihc hsep hend))
      (.pick (.kind .greater) (by simp [hx]))

/-! ### From runs to phrases -/

/-- What the rule reads on acceptance is a phrase that fits into the room. -/
def Recognizes (E : Setting) (n : Nat) (r : Rule) (p : Phrase) : Prop :=
  ∀ ⦃s m⦄, FullRuns (body E.prefs) n r (E.ready s) true m →
    ∃ k ≤ n, ∃ t, m = E.ready t ∧ Reads E.known p k s t

namespace Recognizes

variable {p : Phrase}

/-- A chain is recognized round by round. -/
theorem chain {ks : List Kind} (hp : Recognizes E n p.rule p) :
    Recognizes E n (Phrase.rule (.chain ks p)) (.chain ks p) := by
  intro s m hrun
  generalize hs : E.ready s = σ at hrun
  generalize hb : true = b at hrun
  induction hrun using Runs.loop_induction generalizing s with
  | done σ => exact ⟨0, Nat.zero_le n, s, hs.symm, .last⟩
  | again σ μ τ b _ _ hround _ ih =>
    subst hs
    obtain ⟨μ', hsep, hitem⟩ := hround.of_andThen
    obtain ⟨x, u, rfl, hx, rfl⟩ := (picks_separator ks).of_accept hsep
    obtain ⟨j, hj, v, rfl, hread⟩ := hp hitem
    obtain ⟨k, hk, t, rfl, hreads⟩ := ih rfl hb
    exact ⟨max j k, by omega, t, rfl, .link (by simpa using hx) hread hreads⟩
  | stop => cases hb

theorem level {l : Level} (hp : Recognizes E n l.operand.rule l.operand) :
    Recognizes E n l.rule (.level l) := by
  intro s m hrun
  rw [l.rule_eq] at hrun
  obtain ⟨m', hfirst, hrest⟩ := hrun.of_andThen
  obtain ⟨j, hj, u, rfl, hread⟩ := hp hfirst
  obtain ⟨k, hk, t, rfl, hreads⟩ := hp.chain hrest
  exact ⟨max j k, by omega, t, rfl, .level hread hreads⟩

section Calls

variable (he : Recognizes E n expression .expression)
  (ht : Recognizes E n templateArguments .templateArguments)
include he

/-- An expression and the lexeme that closes it. -/
theorem enclosed {k : Kind} {s : List Lexeme} {m : State}
    (hrun : FullRuns (body E.prefs) n (.inOrder [expression, .kind k]) (E.ready s) true m) :
    ∃ j ≤ n, ∃ y t, m = E.ready t ∧ y.kind = k ∧ Reads E.known .expression j s (y :: t) := by
  obtain ⟨m', hexpr, hclose⟩ := hrun.of_andThen
  obtain ⟨j, hj, u, rfl, hread⟩ := he hexpr
  obtain ⟨y, t, rfl, hy, rfl⟩ := (Picks.kind k).of_accept hclose
  exact ⟨j, hj, y, t, rfl, by simpa using hy, hread⟩

theorem arguments : Recognizes E n (Phrase.rule .arguments) .arguments := by
  intro s m hrun
  have hchain : Recognizes E n (Phrase.rule (.chain [.comma] .expression)) _ := chain he
  obtain ⟨m₁, hinner, hclose⟩ := hrun.of_andThen
  rcases hinner.of_orElse with hpeek | ⟨m₂, hpeek, hlist⟩
  · cases hpeek
    obtain ⟨x, t, rfl, hx, rfl⟩ := (Picks.kind .closeParen).of_accept hclose
    exact ⟨0, Nat.zero_le n, t, rfl, .noArguments (by simpa using hx)⟩
  · cases hpeek
    obtain ⟨m₃, hfirst, hrest⟩ := hlist.of_andThen
    obtain ⟨j, hj, u, rfl, hread⟩ := he hfirst
    obtain ⟨k, hk, v, rfl, hreads⟩ := hchain hrest
    obtain ⟨x, t, rfl, hx, rfl⟩ := (Picks.kind .closeParen).of_accept hclose
    exact ⟨max j k, by omega, t, rfl, .arguments (by simpa using hx) hread hreads⟩

/-- A suffix, and then those after it. -/
theorem suffixes : Recognizes E n (Phrase.rule .suffixes) .suffixes := by
  intro s m hrun
  generalize hs : E.ready s = σ at hrun
  generalize hb : true = b at hrun
  induction hrun using Runs.loop_induction generalizing s with
  | done σ => exact ⟨0, Nat.zero_le n, s, hs.symm, .bare⟩
  | again σ μ τ b _ _ hround _ ih =>
    subst hs
    cases hround with
    | yes hdot hname =>
      obtain ⟨x, u, rfl, hx, rfl⟩ := (Picks.kind .dot).of_accept hdot
      obtain ⟨y, v, rfl, hy, rfl⟩ := (Picks.kind .identifier).of_accept hname
      obtain ⟨k, hk, t, rfl, hreads⟩ := ih rfl hb
      exact ⟨k, hk, t, rfl, .field (by simpa using hx) (by simpa using hy) hreads⟩
    | no hdot hother =>
      obtain ⟨-, rfl⟩ := (Picks.kind .dot).of_reject hdot
      rcases hother.of_when with ⟨-, happ⟩ | ⟨-, hother⟩
      · obtain ⟨μ', hopen, hargs⟩ := happ.of_andThen
        obtain ⟨x, u, rfl, hx, rfl⟩ := (Picks.kind .openParen).of_accept hopen
        obtain ⟨j, hj, v, rfl, hread⟩ := arguments he hargs
        obtain ⟨k, hk, t, rfl, hreads⟩ := ih rfl hb
        exact ⟨max j k, by omega, t, rfl, .application (by simpa using hx) hread hreads⟩
      · cases hother with
        | yes hopen hexpr =>
          obtain ⟨x, u, rfl, hx, rfl⟩ := (Picks.kind .openBracket).of_accept hopen
          obtain ⟨j, hj, y, v, rfl, hy, hread⟩ := enclosed he hexpr
          obtain ⟨k, hk, t, rfl, hreads⟩ := ih rfl hb
          exact ⟨max j k, by omega, t, rfl, .subscript (by simpa using hx) hy hread hreads⟩
        | no hopen hamp =>
          obtain ⟨-, rfl⟩ := (Picks.kind .openBracket).of_reject hopen
          obtain ⟨x, u, rfl, hx, rfl⟩ := (Picks.kind .ampersand).of_accept hamp
          obtain ⟨k, hk, t, rfl, hreads⟩ := ih rfl hb
          exact ⟨k, hk, t, rfl, .reference (by simpa using hx) hreads⟩
  | stop => cases hb

include ht

theorem primary : Recognizes E n Grammar.primary .primary := by
  intro s m hrun
  cases hrun with
  | yes hknown hname =>
    obtain ⟨x, u, rfl, hx, rfl⟩ := picks_known.of_accept hknown
    simp only [Bool.and_eq_true, beq_iff_eq] at hx
    cases hname with
    | yes hless hargs =>
      obtain ⟨y, v, rfl, hy, rfl⟩ := (Picks.kind .less).of_accept hless
      obtain ⟨k, hk, t, rfl, hread⟩ := ht hargs
      exact ⟨k, hk, t, rfl, .template hx.1 hx.2 (by simpa using hy) hread⟩
    | no hless hacc =>
      obtain ⟨hnext, rfl⟩ := (Picks.kind .less).of_reject hless
      cases hacc
      exact ⟨0, Nat.zero_le n, u, rfl, .name hx.1 fun _ y hy => by simpa using hnext y hy⟩
  | no hknown hother =>
    obtain ⟨hnext, rfl⟩ := picks_known.of_reject hknown
    -- a name that is read as a literal or as a plain name is not known
    have hname (x : Lexeme) (u : List Lexeme) (hs : s = x :: u) (hx : x.kind = .identifier) :
        Reads E.known .primary 0 s u := by
      subst hs
      have hunknown : E.known x.text = false := by simpa [hx] using hnext x rfl
      exact .name hx fun hk => absurd hk (by simp [hunknown])
    cases hother with
    | yes hliteral hacc =>
      obtain ⟨x, u, rfl, hx, rfl⟩ := picks_literal.of_accept hliteral
      cases hacc
      refine ⟨0, Nat.zero_le n, u, rfl, ?_⟩
      simp only [Bool.or_eq_true, Bool.and_eq_true, beq_iff_eq] at hx
      rcases hx with hx | hx | hx
      · exact hname x u rfl hx.1
      · exact hname x u rfl hx.1
      · exact .number hx
    | no hliteral hother =>
      obtain ⟨-, rfl⟩ := picks_literal.of_reject hliteral
      cases hother with
      | yes hopen hexpr =>
        obtain ⟨x, u, rfl, hx, rfl⟩ := (Picks.kind .openParen).of_accept hopen
        obtain ⟨j, hj, y, t, rfl, hy, hread⟩ := enclosed he hexpr
        exact ⟨j, hj, t, rfl, .group (by simpa using hx) hy hread⟩
      | no hopen hplain =>
        obtain ⟨-, rfl⟩ := (Picks.kind .openParen).of_reject hopen
        obtain ⟨f, hf, hpick⟩ := picks_plainName (E := E)
        obtain ⟨x, u, rfl, hx, rfl⟩ := hpick.of_accept hplain
        exact ⟨0, Nat.zero_le n, u, rfl, hname x u rfl (by simpa [hf] using hx)⟩

theorem postfixed : Recognizes E n postfixExpr .postfixed := by
  intro s m hrun
  obtain ⟨m', hprimary, hsuffixes⟩ := hrun.of_andThen
  obtain ⟨j, hj, u, rfl, hread⟩ := primary he ht hprimary
  obtain ⟨k, hk, t, rfl, hreads⟩ := suffixes he hsuffixes
  exact ⟨max j k, by omega, t, rfl, .postfixed hread hreads⟩

theorem prefixed : Recognizes E n prefixExpr .prefixed := by
  intro s m hrun
  have hpick := (Picks.kind (E := E) .minus).orElse
    ((Picks.kind .bang).orElse (Picks.keyword .const))
  obtain ⟨m', hsign, hpostfix⟩ := hrun.of_andThen
  cases hsign with
  | yes hsign hacc =>
    obtain ⟨x, u, rfl, hx, rfl⟩ := hpick.of_accept hsign
    cases hacc
    obtain ⟨k, hk, t, rfl, hread⟩ := postfixed he ht hpostfix
    refine ⟨k, hk, t, rfl, .signed ?_ hread⟩
    simpa [Lexeme.Is] using hx
  | no hsign hacc =>
    obtain ⟨hs, rfl⟩ := hpick.of_reject hsign
    cases hacc
    obtain ⟨k, hk, t, rfl, hread⟩ := postfixed he ht hpostfix
    refine ⟨k, hk, t, rfl, .unsigned (fun x hx hc => ?_) hread⟩
    have := hs x hx
    simp_all [Lexeme.Is]

/-- Every level, from the innermost to the outermost. -/
theorem levels (l : Level) : Recognizes E n l.rule (.level l) := by
  have hmultiplicative : Recognizes E n Grammar.multiplicative (.level .multiplicative) :=
    level (l := .multiplicative) (prefixed he ht)
  have hadditive : Recognizes E n Grammar.additive (.level .additive) :=
    level (l := .additive) hmultiplicative
  have hrelational : Recognizes E n Grammar.relational (.level .relational) :=
    level (l := .relational) hadditive
  have hequality : Recognizes E n Grammar.equality (.level .equality) :=
    level (l := .equality) hrelational
  have hconjunction : Recognizes E n Grammar.conjunction (.level .conjunction) :=
    level (l := .conjunction) hequality
  cases l with
  | multiplicative => exact hmultiplicative
  | additive => exact hadditive
  | relational => exact hrelational
  | equality => exact hequality
  | conjunction => exact hconjunction
  | disjunction => exact level (l := .disjunction) hconjunction

end Calls

/-- The guarded productions inside expressions, in any room. -/
theorem calls (E : Setting) (n : Nat) : Recognizes E n expression .expression ∧
    Recognizes E n templateArguments .templateArguments := by
  induction n with
  | zero => exact ⟨fun s m h => (by cases h), fun s m h => (by cases h)⟩
  | succ n ih =>
    obtain ⟨he, ht⟩ := ih
    constructor
    · intro s m hrun
      cases hrun with
      | call _ hrun =>
        obtain ⟨k, hk, t, rfl, hread⟩ := levels he ht .disjunction hrun
        exact ⟨k + 1, by omega, t, rfl, .expression hread⟩
    · intro s m hrun
      have hitem : Recognizes E n additive (.level .additive) := levels he ht .additive
      have hchain : Recognizes E n (Phrase.rule (.chain [.comma] (.level .additive))) _ :=
        chain hitem
      cases hrun with
      | call _ hrun =>
        obtain ⟨m₁, hlist, hclose⟩ := hrun.of_andThen
        obtain ⟨m₂, hfirst, hrest⟩ := hlist.of_andThen
        obtain ⟨j, hj, u, rfl, hread⟩ := hitem hfirst
        obtain ⟨k, hk, v, rfl, hreads⟩ := hchain hrest
        obtain ⟨x, t, rfl, hx, rfl⟩ := (Picks.kind .greater).of_accept hclose
        exact ⟨max j k + 1, by omega, t, rfl,
          .templateArguments (by simpa using hx) hread hreads⟩

end Recognizes
/-- An accepted expression is a phrase that fits into the room. -/
theorem reads_of_expression {m : State}
    (h : FullRuns (body E.prefs) n expression (E.ready s) true m) :
    ∃ k ≤ n, ∃ t, m = E.ready t ∧ Reads E.known .expression k s t := (Recognizes.calls E n).1 h

theorem Reads.expression_pos {known : Bytes → Bool} (h : Reads known .expression k s t) :
    0 < k := by
  cases h with
  | expression => exact Nat.succ_pos _

/-- The setting in which a parser reads expressions. -/
def Setting.ofParser (p : Parser) : Setting := ⟨p.preferences, p.state.size, p.state.table⟩

theorem Setting.ready_ofParser {p : Parser} (hp : p.state.overflow = none) (ts : List Lexeme) :
    (Setting.ofParser p).ready ts = (p.reading ts).state := by
  simp [ready, ofParser, Parser.reading, hp]

/-- Expressions are recognized exactly. Where nothing that continues an expression
follows, a parser reads just the lexemes given if and only if they are an
expression whose nesting fits under the limit, and an expression that is nested
too deeply is rejected with the depth guard fired. -/
theorem accepts_expression_iff (p : Parser) (ts rest : List Lexeme)
    (hp : p.state.rest = ts ++ rest) (ho : p.depthExceeded = false)
    (hrest : ∀ x ∈ rest.head?, x.kind ∉ Level.stops .disjunction) :
    ((p.apply expression).1 = true ∧ (p.apply expression).2.state.rest = rest ↔
      ∃ k, Reads (Setting.ofParser p).known .expression k ts [] ∧
        p.depth + k ≤ p.limits.maxDepth) ∧
    ∀ k, Reads (Setting.ofParser p).known .expression k ts [] →
      p.limits.maxDepth < p.depth + k →
      (p.apply expression).1 = false ∧ (p.apply expression).2.depthExceeded = true := by
  have hready : p.state = (Setting.ofParser p).ready (ts ++ rest) := by
    rw [← hp]
    exact (Setting.ready_rest (by simpa [Parser.depthExceeded] using ho) _).symm
  have hrun := runs_perform p.preferences p.room productive_expression p.state
  rw [hready] at hrun
  -- a phrase that nothing follows is read by the rule where nothing continues it
  have hexact {k} (h : Reads (Setting.ofParser p).known .expression k ts []) :
      Exact (Setting.ofParser p) expression k (ts ++ rest) rest := by
    refine (h.append fun x hx hk => hrest x hx ?_).exact trivial hrest
    rw [hk]
    decide
  simp only [Parser.answer_apply, Parser.state_apply, Parser.depthExceeded]
  rw [hready]
  refine ⟨⟨?_, ?_⟩, ?_⟩
  · rintro ⟨haccept, hleft⟩
    rw [haccept] at hrun
    obtain ⟨k, hk, t, ht, hread⟩ := reads_of_expression (E := .ofParser p) hrun
    obtain rfl : t = rest := by rw [← hleft, ht, Setting.rest_ready]
    have hpos := hread.expression_pos
    exact ⟨k, hread.truncate, by simp only [Parser.room] at hk; omega⟩
  · rintro ⟨k, hread, hk⟩
    have hroom : k ≤ p.room := by simp only [Parser.room]; omega
    obtain ⟨haccept, hleft⟩ := hrun.unique ((hexact hread).fits p.room hroom)
    rw [haccept, hleft]
    exact ⟨rfl, rfl⟩
  · intro k hread hk
    have hroom : p.room < k := by
      have hpos := hread.expression_pos
      simp only [Parser.room]
      omega
    obtain ⟨m, hm, ho⟩ := (hexact hread).deep p.room hroom
    obtain ⟨hreject, hleft⟩ := hrun.unique hm
    rw [hreject, hleft]
    exact ⟨rfl, by simpa [Option.isSome_iff_ne_none] using ho⟩

/-- A parser before a call with template arguments, where `t` is a known name. -/
def nestedCall : Parser :=
  Parser.setTable (.new .development {} (Bytes.ofAscii "f(a[1], -(b)) < t<x + 1> ;".toList))
    (SymbolTable.fresh.declare (Bytes.ofAscii ['t']) .type)

theorem accepts_expression_iff_nestedCall :
    ∃ k, Reads (Setting.ofParser nestedCall).known .expression k
      (nestedCall.state.rest.take 19) [] ∧ nestedCall.depth + k ≤ 128 :=
  (accepts_expression_iff nestedCall (nestedCall.state.rest.take 19)
    (nestedCall.state.rest.drop 19) (by simp) (by decide +kernel) (by decide +kernel)).1.1
    (by decide +kernel)

end Recognizer.Grammar
