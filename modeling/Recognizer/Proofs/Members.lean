import Recognizer.Proofs.Declarations
import Recognizer.Proofs.Soundness

/-!
# The members of a structure

A member has one of seven forms. Four of them are tried in turn from the same lexeme, and
the order in which that happens does not matter, because no two of them accept the same
lexemes. The other three are chosen by the first lexeme alone: the name of the structure is
taken for a constructor, and `typedef` for a type definition, whatever follows. So a member
of another form that begins with one of these words is not read.
-/
namespace Recognizer.Grammar

variable {prefs : GrammarPreferences} {n : Nat} {r q : Rule} {s t m : State} {b : Bool}
  {name : Bytes}

/-- The forms of a member that are tried in turn. -/
def triedForms : List Production := [.dataMember, .assignOperator, .applyOperator, .indexOperator]

/-- The forms of a member of the structure with the name. -/
def memberForms (name : Bytes) : List Production :=
  [.constructor name, .destructor name, .typeDefinition] ++ triedForms

/-- The first lexeme does not choose another form: the name of the structure chooses a
constructor, and `typedef` none of the forms that are tried in turn. -/
structure Reached (name : Bytes) (s : State) (f : Production) : Prop where
  word : s.passes (.word name) = true → f = .constructor name
  typedef : s.passes (.keyword .typedef) = true → f ∉ triedForms

theorem State.passes_kind {x : Lexeme} {u : List Lexeme} (hs : s.rest = x :: u) (k : Kind) :
    s.passes (.kind k) = (x.kind == k) := by
  rw [passes, hs]
  rfl

/-! ### Rules that decline -/

/-- A run that declares nothing changes nothing but the lexemes. -/
theorem Runs.given_back (h : FullRuns (body prefs) n r s b t) (ho : t.overflow = none)
    (htable : t.table = s.table) : { t with rest := s.rest } = s := by
  have hsize := h.size_eq
  have hs := h.overflow_eq_none ho
  cases s
  simp_all

/-- The rule rejects without a refused call and leaves the declared names as they are. -/
def Declines (prefs : GrammarPreferences) (n : Nat) (r : Rule) (s : State) : Prop :=
  ∃ t, FullRuns (body prefs) n r s false t ∧ t.overflow = none ∧ t.table = s.table

namespace Declines

theorem miss {c : Test} (ho : s.overflow = none) (hc : s.passes c = false) :
    Declines prefs n (.take c) s := ⟨s, .miss (fun _ => trivial) hc, ho, rfl⟩

theorem reject (h : Declines prefs n r s) : Declines prefs n (r.andThen q) s := by
  obtain ⟨t, h, ht⟩ := h
  exact ⟨t, .no h .reject, ht⟩

theorem yes {p : Rule} (hr : FullRuns (body prefs) n r s true m) (hm : m.table = s.table)
    (hq : Declines prefs n q m) : Declines prefs n (.branch r q p) s := by
  obtain ⟨t, h, ht, htable⟩ := hq
  exact ⟨t, .yes hr h, ht, htable.trans hm⟩

/-- A lexeme is taken or missed, and what comes after it may rely on it. -/
theorem take {c : Test} (ho : s.overflow = none) (hc : c.wantsLexeme = true)
    (hq : FullRuns (body prefs) n (.take c) s true s.advance → Declines prefs n q s.advance) :
    Declines prefs n ((Rule.take c).andThen q) s := by
  cases hp : s.passes c with
  | false => exact reject (miss ho hp)
  | true =>
    have htake : FullRuns (body prefs) n (.take c) s true s.advance :=
      .take (Test.rest_ne_nil hc hp) hp
    exact yes htake rfl (hq htake)

/-- What declines is given back as if it had not been tried. -/
theorem attemptOr (hr : Declines prefs n r s) (hq : FullRuns (body prefs) n q s b t) :
    FullRuns (body prefs) n ((Rule.attempt r).orElse q) s b t := by
  obtain ⟨m, hm, ho, htable⟩ := hr
  exact .no (.restore hm) (hm.given_back ho htable ▸ hq)

end Declines

/-- An attempt at a rule that declares nothing is kept, or it changes nothing. -/
theorem Stays.attemptOr (hr : Stays prefs n r) (ht : t.overflow = none)
    (h : FullRuns (body prefs) n ((Rule.attempt r).orElse q) s b t) :
    b = true ∧ FullRuns (body prefs) n r s true t ∨ FullRuns (body prefs) n q s b t := by
  rcases h.of_attemptOr with hkept | ⟨m, hf, hn⟩
  · exact .inl hkept
  · have hm : m.overflow = none := hn.overflow_eq_none ht
    exact .inr (hf.given_back hm (hr hf) ▸ hn)

/-! ### Forms that are tried in turn -/

theorem Stays.dataMember : Stays prefs n Grammar.dataMember :=
  fun _ _ _ h => h.table_eq (by simp [Grammar.dataMember, plain_expression.steady])

theorem Stays.assignOperator : Stays prefs n Grammar.assignOperator :=
  take.andThen <| take.andThen <| take.andThen <| (of_plain plain_singleParameter).andThen compound

/-- An expression is read up to `operator`, which stands before the lexemes given. -/
def ReadsOperator (prefs : GrammarPreferences) (n : Nat) (s : State) (u : List Lexeme) : Prop :=
  ∃ m o, FullRuns (body prefs) n expression s true m ∧ m.rest = o :: u ∧ o.Is .operator

/-- An accepted expression has changed nothing but the lexemes. -/
theorem accepted_expression (h : FullRuns (body prefs) n expression s true m) :
    0 < n ∧ s.overflow = none ∧ m.overflow = none ∧ m.table = s.table ∧
      ∃ x u, s.rest = x :: u ∧ x.kind ∈ operandStarts := by
  cases h with
  | call ho hbody =>
    have h := Runs.call ho hbody
    rw [← Setting.ready_rest ho prefs] at h
    obtain ⟨k, -, u, rfl, hread⟩ := reads_of_expression (E := ⟨prefs, s.size, s.table⟩) h
    exact ⟨Nat.succ_pos _, ho, rfl, rfl, hread.operand_start rfl⟩

/-- Where no operand begins, a prefix expression is rejected at once. -/
theorem prefixExpr_misses {E : Setting} {ts : List Lexeme}
    (hs : ∀ x ∈ ts.head?, x.kind ∉ operandStarts) :
    FullRuns (body E.prefs) n prefixExpr (E.ready ts) false (E.ready ts) := by
  have hkind (k : Kind) (hk : k ∈ operandStarts) : ∀ x ∈ ts.head?, (x.kind == k) = false :=
    fun x hx => beq_eq_false_iff_ne.2 fun heq => hs x hx (heq ▸ hk)
  have hname := hkind .identifier (by decide)
  obtain ⟨f, hf, hplain⟩ := picks_plainName (E := E)
  have hsign := ((Picks.kind (E := E) .minus).orElse ((Picks.kind .bang).orElse
    (Picks.keyword .const))).miss n ts fun x hx => by
      simp [hkind .minus (by decide) x hx, hkind .bang (by decide) x hx, hname x hx]
  have hknown := (picks_known (E := E)).miss n ts fun x hx => by simp [hname x hx]
  have hliteral := (picks_literal (E := E)).miss n ts fun x hx => by
    simp [hname x hx, hkind .integer (by decide) x hx, hkind .real (by decide) x hx]
  have hopen := (Picks.kind (E := E) .openParen).miss n ts (hkind .openParen (by decide))
  have hother := hplain.miss n ts fun x hx => (hf x).trans (hname x hx)
  have hprimary : FullRuns (body E.prefs) n primary (E.ready ts) false (E.ready ts) :=
    .no hknown (.no hliteral (.no hopen hother))
  exact .yes (.no hsign .accept) (.no hprimary .reject)

/-- Where no operand begins, an expression is rejected without a call inside it. -/
theorem declines_expression (ho : s.overflow = none)
    (hs : ∀ x ∈ s.rest.head?, x.kind ∉ operandStarts) :
    Declines prefs (n + 1) expression s := by
  have hprefix := prefixExpr_misses (E := ⟨prefs, s.size, s.table⟩) (n := n) hs
  rw [Setting.ready_rest ho] at hprefix
  -- one rejection for each level of precedence
  exact ⟨s, .call ho (.no (.no (.no (.no (.no (.no hprefix .reject) .reject) .reject) .reject)
    .reject) .reject), ho, rfl⟩

/-! ### No two of the forms that are tried in turn -/

section Operators

variable {e : Lexeme} {u : List Lexeme}

/-- A data member ends where an operator has its parentheses, its brackets or its `=`. -/
theorem ReadsOperator.declines_dataMember (h : ReadsOperator prefs n s (e :: u))
    (he : e.kind ≠ .semicolon)
    (hbracket : e.kind = .openBracket → ∀ x ∈ u.head?, x.kind ∉ operandStarts) :
    Declines prefs n dataMember s := by
  obtain ⟨m, o, hexpr, hm, ho⟩ := h
  obtain ⟨hn, -, hoverflow, htable, -⟩ := accepted_expression hexpr
  have hrest : m.advance.rest = e :: u := by rw [State.rest_advance, hm, List.tail_cons]
  refine .yes hexpr htable (.take hoverflow rfl fun _ => ?_)
  by_cases hk : e.kind = .openBracket
  · obtain ⟨n, rfl⟩ := Nat.exists_eq_add_of_lt hn
    have hopen : FullRuns (body prefs) (0 + n + 1) (.kind .openBracket) m.advance true
        m.advance.advance :=
      .take (hrest ▸ List.cons_ne_nil e u) ((State.passes_kind hrest _).trans (beq_iff_eq.2 hk))
    refine .reject (.yes hopen rfl (.reject (declines_expression hoverflow ?_)))
    rw [State.rest_advance, hrest]
    exact hbracket hk
  · have hmiss : FullRuns (body prefs) n (.kind .openBracket) m.advance false m.advance :=
      .miss (fun _ => trivial) ((State.passes_kind hrest _).trans (beq_eq_false_iff_ne.2 hk))
    exact .yes (.no hmiss .accept) rfl
      (.miss hoverflow ((State.passes_kind hrest _).trans (beq_eq_false_iff_ne.2 he)))

/-- An assignment operator would have an `=` behind `operator`. -/
theorem ReadsOperator.declines_assignOperator (h : ReadsOperator prefs n s (e :: u))
    (he : e.kind ≠ .equals) : Declines prefs n assignOperator s := by
  obtain ⟨m, o, hexpr, hm, ho⟩ := h
  obtain ⟨-, hs, hoverflow, -, -⟩ := accepted_expression hexpr
  refine .take hs rfl fun hvoid => .take hs rfl fun hoperator => .reject (.miss hs ?_)
  obtain ⟨v, hv, hvoid, -⟩ := hvoid.taken_keyword
  obtain ⟨o', ho', hoperator, -⟩ := hoperator.taken_keyword
  rw [ho'] at hv
  have hconst : ¬ v.Is .const := hvoid.not_is (by decide)
  obtain ⟨-, hrest, -⟩ := hexpr.expression_name hv hvoid.1 hconst hoperator.1 (.inl rfl)
  rw [hm] at hrest
  have hthird : s.advance.advance.rest = e :: u := (List.cons.inj hrest).2.symm
  exact (State.passes_kind hthird _).trans (beq_eq_false_iff_ne.2 he)

/-- And a call operator would have a parenthesis there. -/
theorem ReadsOperator.declines_applyOperator (h : ReadsOperator prefs n s (e :: u))
    (he : e.kind ≠ .openParen) : Declines prefs n applyOperator s := by
  obtain ⟨m, o, hexpr, hm, ho⟩ := h
  obtain ⟨-, -, hoverflow, htable, -⟩ := accepted_expression hexpr
  have hrest : m.advance.rest = e :: u := by rw [State.rest_advance, hm, List.tail_cons]
  refine .yes hexpr htable (.take hoverflow rfl fun _ => .reject (.miss hoverflow ?_))
  exact (State.passes_kind hrest _).trans (beq_eq_false_iff_ne.2 he)

end Operators

/-- What an assignment operator begins with can be read as an operator. -/
theorem readsOperator_assignOperator (h : FullRuns (body prefs) n assignOperator s true t) :
    ∃ e u, ReadsOperator prefs n s (e :: u) ∧ e.kind = .equals := by
  obtain ⟨m₁, hvoid, h⟩ := h.of_andThen
  obtain ⟨m₂, hoperator, h⟩ := h.of_andThen
  obtain ⟨m₃, hequals, h⟩ := h.of_andThen
  obtain ⟨m₄, hparameter, -⟩ := h.of_andThen
  obtain ⟨m₅, hopen, hparameter⟩ := hparameter.of_andThen
  obtain ⟨m₆, hparameter, -⟩ := hparameter.of_andThen
  obtain ⟨m₇, hexpr, -⟩ := hparameter.of_andThen
  obtain ⟨hn, hs, -⟩ := accepted_expression hexpr
  obtain ⟨v, hv, hisVoid, rfl⟩ := hvoid.taken_keyword
  obtain ⟨o, ho, hisOperator, rfl⟩ := hoperator.taken_keyword
  obtain ⟨e, he, hkind, rfl⟩ := hequals.taken
  obtain ⟨-, -, -, rfl⟩ := hopen.taken
  obtain ⟨n, rfl⟩ := Nat.exists_eq_add_of_lt hn
  rw [ho] at hv
  have hconst : ¬ v.Is .const := hisVoid.not_is (by decide)
  have hname : FullRuns (body prefs) (0 + n + 1) expression s true s.advance :=
    Runs.of_name hv hisVoid.1 hconst hisOperator.1 hs
  exact ⟨e, _, ⟨s.advance, o, hname, by rw [ho, he], hisOperator⟩, hkind⟩

theorem readsOperator_applyOperator (h : FullRuns (body prefs) n applyOperator s true t) :
    ∃ e u, ReadsOperator prefs n s (e :: u) ∧ e.kind = .openParen := by
  obtain ⟨m₁, hexpr, h⟩ := h.of_andThen
  obtain ⟨m₂, hoperator, h⟩ := h.of_andThen
  obtain ⟨m₃, hopen, -⟩ := h.of_andThen
  obtain ⟨o, ho, hoperator, -⟩ := hoperator.taken_keyword
  obtain ⟨e, he, hopen, -⟩ := hopen.taken
  exact ⟨e, _, ⟨m₁, o, hexpr, by rw [ho, he], hoperator⟩, hopen⟩

/-- What stands behind the bracket of an index operator begins no expression. -/
theorem readsOperator_indexOperator (h : FullRuns (body prefs) n indexOperator s true t) :
    ∃ e u, ReadsOperator prefs n s (e :: u) ∧ e.kind = .openBracket ∧
      ∀ x ∈ u.head?, x.kind ∉ operandStarts := by
  obtain ⟨m₁, hexpr, h⟩ := h.of_andThen
  obtain ⟨m₂, hoperator, h⟩ := h.of_andThen
  obtain ⟨m₃, hopen, h⟩ := h.of_andThen
  obtain ⟨m₄, hclose, -⟩ := h.of_andThen
  obtain ⟨o, ho, hoperator, -⟩ := hoperator.taken_keyword
  obtain ⟨e, he, hopen, -⟩ := hopen.taken
  obtain ⟨c, hc, hclose, -⟩ := hclose.taken
  refine ⟨e, m₃.rest, ⟨m₁, o, hexpr, by rw [ho, he], hoperator⟩, hopen, ?_⟩
  rw [hc]
  rintro x ⟨rfl⟩
  rw [hclose]
  decide

/-- The forms that are tried in turn, as one rule. -/
def triedInTurn : Rule :=
  (Rule.attempt dataMember).orElse <| (Rule.attempt assignOperator).orElse <|
    (Rule.attempt applyOperator).orElse (.attempt indexOperator)

/-- Trying the forms in turn accepts what one of them accepts. -/
theorem triedInTurn_iff (ht : t.overflow = none) :
    FullRuns (body prefs) n triedInTurn s true t ↔
      ∃ f ∈ triedForms, FullRuns (body prefs) n (f.rule prefs) s true t := by
  simp only [triedForms, List.mem_cons, List.not_mem_nil, or_false, exists_eq_or_imp,
    exists_eq_left]
  constructor
  · intro h
    rcases Stays.dataMember.attemptOr ht h with ⟨-, h⟩ | h
    · exact .inl h
    rcases Stays.assignOperator.attemptOr ht h with ⟨-, h⟩ | h
    · exact .inr (.inl h)
    rcases Stays.applyOperator.attemptOr ht h with ⟨-, h⟩ | h
    · exact .inr (.inr (.inl h))
    cases h with
    | keep h => exact .inr (.inr (.inr h))
  · rintro (h | h | h | h)
    · exact .yes (.keep h) .accept
    · obtain ⟨e, u, hreads, he⟩ := readsOperator_assignOperator h
      have hdata := hreads.declines_dataMember (by simp [he]) (by simp [he])
      exact hdata.attemptOr (.yes (.keep h) .accept)
    · obtain ⟨e, u, hreads, he⟩ := readsOperator_applyOperator h
      have hdata := hreads.declines_dataMember (by simp [he]) (by simp [he])
      have hassign := hreads.declines_assignOperator (by simp [he])
      exact hdata.attemptOr (hassign.attemptOr (.yes (.keep h) .accept))
    · obtain ⟨e, u, hreads, he, hnext⟩ := readsOperator_indexOperator h
      have hdata := hreads.declines_dataMember (by simp [he]) fun _ => hnext
      have hassign := hreads.declines_assignOperator (by simp [he])
      have happly := hreads.declines_applyOperator (by simp [he])
      exact hdata.attemptOr (hassign.attemptOr (happly.attemptOr (.keep h)))

/-! ### Forms that are chosen by their first lexeme -/

/-- A choice by the next lexeme runs as one of its two rules. -/
theorem runs_when {c : Test} : FullRuns (body prefs) n (.when c r q) s b t ↔
    s.passes c = true ∧ FullRuns (body prefs) n r s b t ∨
      s.passes c = false ∧ FullRuns (body prefs) n q s b t := by
  constructor
  · exact Runs.of_when
  · rintro (⟨hp, h⟩ | ⟨hp, h⟩)
    · exact .yes (.peek (fun _ => trivial) hp) h
    · exact .no (.peek (fun _ => trivial) hp) h

theorem passes_of_take {c : Test} (h : FullRuns (body prefs) n (.take c) s true t) :
    s.passes c = true := by
  cases h with
  | take _ hp => exact hp

/-- The form begins with an operand or with `void`, and so with no tilde. -/
theorem starts_of_triedForm {f : Production} (hf : f ∈ triedForms)
    (h : FullRuns (body prefs) n (f.rule prefs) s true t) : s.passes (.kind .tilde) = false := by
  have hoperand {q : Rule} (h : FullRuns (body prefs) n (expression.andThen q) s true t) :
      ∃ x u, s.rest = x :: u ∧ x.kind ∈ operandStarts := by
    obtain ⟨m, hexpr, -⟩ := h.of_andThen
    exact (accepted_expression hexpr).2.2.2.2
  have hstart : ∃ x u, s.rest = x :: u ∧ x.kind ∈ operandStarts := by
    simp only [triedForms, List.mem_cons, List.not_mem_nil, or_false] at hf
    rcases hf with rfl | rfl | rfl | rfl
    · exact hoperand h
    · obtain ⟨m, hvoid, -⟩ := Runs.of_andThen (r := .keyword .void) h
      obtain ⟨v, hv, hvoid, -⟩ := hvoid.taken_keyword
      exact ⟨v, _, hv, hvoid.1 ▸ by decide⟩
    · exact hoperand h
    · exact hoperand h
  obtain ⟨x, u, hx, hk⟩ := hstart
  refine (State.passes_kind hx _).trans (beq_eq_false_iff_ne.2 fun heq => ?_)
  rw [heq] at hk
  exact absurd hk (by decide)

/-- A member is accepted just where one of its forms is that the first lexeme leaves to be
tried, and with the same lexemes and names left. -/
theorem member_iff (ht : t.overflow = none) :
    FullRuns (body prefs) n (member name) s true t ↔
      ∃ f ∈ memberForms name, FullRuns (body prefs) n (f.rule prefs) s true t ∧
        Reached name s f := by
  constructor
  · intro h
    rcases runs_when.1 h with ⟨hword, h⟩ | ⟨hword, h⟩
    · exact ⟨.constructor name, by simp [memberForms], h, fun _ => rfl,
        fun _ => by simp [triedForms]⟩
    rcases runs_when.1 h with ⟨htilde, h⟩ | ⟨htilde, h⟩
    · exact ⟨.destructor name, by simp [memberForms], h, by simp [hword],
        fun _ => by simp [triedForms]⟩
    rcases runs_when.1 h with ⟨htypedef, h⟩ | ⟨htypedef, h⟩
    · exact ⟨.typeDefinition, by simp [memberForms], h, by simp [hword],
        fun _ => by simp [triedForms]⟩
    obtain ⟨f, hf, h⟩ := (triedInTurn_iff ht).1 h
    exact ⟨f, List.mem_append_right _ hf, h, by simp [hword], by simp [htypedef]⟩
  · rintro ⟨f, hf, h, hreached⟩
    have hword (hne : f ≠ .constructor name) : s.passes (.word name) = false :=
      Bool.eq_false_iff.2 fun hp => hne (hreached.word hp)
    rcases List.mem_append.1 hf with hf | hf
    · simp only [List.mem_cons, List.not_mem_nil, or_false] at hf
      rcases hf with rfl | rfl | rfl
      · obtain ⟨m, hname, -⟩ := Runs.of_andThen (r := .word name) h
        exact runs_when.2 (.inl ⟨passes_of_take hname, h⟩)
      · obtain ⟨m, htilde, -⟩ := Runs.of_andThen (r := .kind .tilde) h
        exact runs_when.2 (.inr ⟨hword (by simp), runs_when.2 (.inl ⟨passes_of_take htilde, h⟩)⟩)
      · obtain ⟨m, htypedef, -⟩ := Runs.of_andThen (r := .keyword .typedef) h
        obtain ⟨x, hx, hkeyword, -⟩ := htypedef.taken_keyword
        have htilde : s.passes (.kind .tilde) = false := by
          rw [State.passes_kind hx, hkeyword.1]
          rfl
        exact runs_when.2 (.inr ⟨hword (by simp), runs_when.2 (.inr ⟨htilde,
          runs_when.2 (.inl ⟨passes_of_take htypedef, h⟩)⟩)⟩)
    · have hne : f ≠ .constructor name := by
        rintro rfl
        simp [triedForms] at hf
      have htypedef : s.passes (.keyword .typedef) = false :=
        Bool.eq_false_iff.2 fun hp => hreached.typedef hp hf
      exact runs_when.2 (.inr ⟨hword hne, runs_when.2 (.inr ⟨starts_of_triedForm hf h,
        runs_when.2 (.inr ⟨htypedef, (triedInTurn_iff ht).2 ⟨f, hf, h⟩⟩)⟩)⟩)

end Recognizer.Grammar

namespace Recognizer.Parser

open Grammar

/-- The production is accepted, which leads to the parser `q` without the depth guard
firing. -/
def Accepts (p : Parser) (f : Production) (q : Parser) : Prop :=
  p.apply (f.rule p.preferences) = (true, q) ∧ q.depthExceeded = false

theorem accepts_iff {p q : Parser} {f : Production} : p.Accepts f q ↔
    ∃ t, FullRuns (body p.preferences) p.room (f.rule p.preferences) p.state true t ∧
      t.overflow = none ∧ q = p.adopt t := by
  constructor
  · rintro ⟨h, hq⟩
    have hruns := runs_apply (f.productive p.preferences) h
    refine ⟨q.state, hruns, depthExceeded_eq_false_iff.1 hq, ?_⟩
    obtain rfl : (p.apply (f.rule p.preferences)).2 = q := by rw [h]
    rw [state_apply]
    rfl
  · rintro ⟨t, hruns, ht, rfl⟩
    refine ⟨?_, by rw [depthExceeded_eq_false_iff, state_adopt, ht]⟩
    rw [apply, run, (perform_eq_iff (f.productive p.preferences)).2 hruns]

/-- A member of a structure is the union of its forms, each tried from the same place, but
for the forms that its first lexeme keeps from being tried: behind the name of the structure
only a constructor is read, and behind `typedef` no data member and no operator. -/
theorem accepts_member_iff (p q : Parser) (name : Bytes) :
    p.Accepts (.member name) q ↔
      ∃ f ∈ memberForms name, p.Accepts f q ∧ Reached name p.state f := by
  simp only [accepts_iff]
  constructor
  · rintro ⟨t, h, ht, hq⟩
    obtain ⟨f, hf, hform, hreached⟩ := (member_iff ht).1 h
    exact ⟨f, hf, ⟨t, hform, ht, hq⟩, hreached⟩
  · rintro ⟨f, hf, ⟨t, h, ht, hq⟩, hreached⟩
    exact ⟨t, (member_iff ht).2 ⟨f, hf, h, hreached⟩, ht, hq⟩

/-- The parser before some source text. -/
def before (text : String) : Parser := new .development {} (Bytes.ofAscii text.toList)

/-- A data member of the type that is being declared is accepted by itself, up to its end,
and rejected as a member. -/
theorem member_preempted :
    (∃ q, (before "node next;").Accepts .dataMember q ∧ q.isExhausted = true) ∧
      ((before "node next;").apply (member (Bytes.ofAscii ['n', 'o', 'd', 'e']))).1 = false ∧
      ((before "node next;").apply
        (member (Bytes.ofAscii ['n', 'o', 'd', 'e']))).2.depthExceeded = false := by
  have haccepts : ((before "node next;").apply dataMember).1 = true ∧
      ((before "node next;").apply dataMember).2.depthExceeded = false ∧
      ((before "node next;").apply dataMember).2.isExhausted = true := by decide +kernel
  have hrejects : ((before "node next;").apply
        (member (Bytes.ofAscii ['n', 'o', 'd', 'e']))).1 = false ∧
      ((before "node next;").apply
        (member (Bytes.ofAscii ['n', 'o', 'd', 'e']))).2.depthExceeded = false := by
    decide +kernel
  generalize before "node next;" = p at haccepts hrejects ⊢
  exact ⟨⟨_, ⟨Prod.ext haccepts.1 rfl, haccepts.2.1⟩, haccepts.2.2⟩, hrejects⟩

/-- So is one of a type that is called `typedef`. -/
example : ((before "typedef next;").apply dataMember).1 = true ∧
    ((before "typedef next;").apply (member (Bytes.ofAscii ['n', 'o', 'd', 'e']))).1 = false := by
  decide +kernel

end Recognizer.Parser
