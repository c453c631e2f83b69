import Recognizer.Proofs.Program

/-!
# Locality of statements

An accepted statement depends on its own lexemes alone, except that it may ask at
their end whether an `else` follows. The forms of a statement that are tried and
given back never run past its end: none of them takes a semicolon or a brace other
than as its last lexeme.
-/
namespace Recognizer.Grammar

/-- The kinds that end statements and open or close their blocks. -/
def closers : List Kind := [.semicolon, .openBrace, .closeBrace]

/-- The test fails on lexemes of the kinds given. -/
def Test.refuses (ks : List Kind) : Test → Bool
  | kind k => !ks.contains k
  | oneOf ls => ls.all (!ks.contains ·)
  | word _ | known => !ks.contains .identifier
  | finish | negate _ => false
  | both t u => t.refuses ks || u.refuses ks

theorem Test.holds_of_refuses {q : Test} {ks : List Kind} {table : SymbolTable} {x : Lexeme}
    {rest : List Lexeme} (hq : q.refuses ks = true) (hx : x.kind ∈ ks) :
    q.holds table (x :: rest) = false := by
  induction q with
  | kind k =>
    simp only [Test.refuses, Bool.not_eq_true', List.contains_eq_mem, decide_eq_false_iff_not] at hq
    simp only [Test.holds, beq_eq_false_iff_ne, ne_eq]
    exact fun h => hq (h ▸ hx)
  | oneOf ls =>
    simp only [Test.refuses, List.all_eq_true, Bool.not_eq_true', List.contains_eq_mem,
      decide_eq_false_iff_not] at hq
    simpa [Test.holds] using fun h => hq _ h hx
  | word w | known =>
    simp only [Test.refuses, Bool.not_eq_true', List.contains_eq_mem, decide_eq_false_iff_not] at hq
    have : x.kind ≠ .identifier := fun h => hq (h ▸ hx)
    simp [Test.holds, this]
  | finish | negate => cases hq
  | both t u iht ihu =>
    rcases Bool.or_eq_true_iff.1 hq with h | h
    · simp [Test.holds, iht h]
    · simp [Test.holds, ihu h]

namespace Rule

namespace Demand

/-- Calls are of expressions and of their template arguments. -/
def inner (g : Guarded) : Prop := g = .expression ∨ g = .templateArguments

/-- Nothing is given back. -/
def straight : Demand where
  call := inner
  attempt := False

/-- Nothing is given back or declared, and none of the kinds is taken. -/
def avoiding (ks : List Kind) : Demand where
  take t := t.refuses ks = true
  call := inner
  attempt := False
  declare := False
  enclosed := False

/-- Nothing is given back or declared, and no closer is taken. -/
def plain : Demand := avoiding closers

/-- Nothing is declared. -/
def steady : Demand where
  call := inner
  declare := False
  enclosed := False

@[simp] theorem take_straight {t : Test} : straight.take t := trivial
@[simp] theorem loop_straight {r : Rule} : straight.loop r := trivial
@[simp] theorem call_straight {g : Guarded} : straight.call g ↔ inner g := Iff.rfl
@[simp] theorem declare_straight : straight.declare := trivial
@[simp] theorem enclosed_straight : straight.enclosed := trivial
@[simp] theorem take_avoiding {ks : List Kind} {t : Test} :
    (avoiding ks).take t ↔ t.refuses ks = true := Iff.rfl
@[simp] theorem loop_avoiding {ks : List Kind} {r : Rule} : (avoiding ks).loop r := trivial
@[simp] theorem call_avoiding {ks : List Kind} {g : Guarded} :
    (avoiding ks).call g ↔ inner g := Iff.rfl
@[simp] theorem take_plain {t : Test} : plain.take t ↔ t.refuses closers = true := Iff.rfl
@[simp] theorem loop_plain {r : Rule} : plain.loop r := trivial
@[simp] theorem call_plain {g : Guarded} : plain.call g ↔ inner g := Iff.rfl
@[simp] theorem take_steady {t : Test} : steady.take t := trivial
@[simp] theorem loop_steady {r : Rule} : steady.loop r := trivial
@[simp] theorem call_steady {g : Guarded} : steady.call g ↔ inner g := Iff.rfl
@[simp] theorem attempt_steady : steady.attempt := trivial

end Demand

/-- A rule that meets one demand meets every weaker one. -/
theorem Meets.mono {d e : Demand} (htake : ∀ t, d.take t → e.take t)
    (hloop : ∀ r, d.loop r → e.loop r) (hcall : ∀ g, d.call g → e.call g)
    (hattempt : d.attempt → e.attempt) (hdeclare : d.declare → e.declare)
    (henclosed : d.enclosed → e.enclosed) {r : Rule} (h : r.Meets d) : r.Meets e := by
  induction r with
  | accept | reject | peek => trivial
  | take t => exact htake t h
  | branch first yes no ihf ihy ihn => exact ⟨ihf h.1, ihy h.2.1, ihn h.2.2⟩
  | attempt r ih => exact ⟨hattempt h.1, ih h.2⟩
  | loop t r ih => exact ⟨hloop r h.1, ih h.2⟩
  | declare k next ih => exact ⟨hdeclare h.1, fun name => ih name (h.2 name)⟩
  | enclosed r ih => exact ⟨henclosed h.1, ih h.2⟩
  | call g => exact hcall g h

/-- A plain rule is straight. -/
theorem Meets.straight {r : Rule} (h : r.Meets .plain) : r.Meets .straight :=
  Meets.mono (d := .plain) (e := .straight) (fun _ _ => trivial) (fun _ _ => trivial)
    (fun _ => id) id (fun _ => trivial) (fun _ => trivial) h

/-- A plain rule is steady. -/
theorem Meets.steady {r : Rule} (h : r.Meets .plain) : r.Meets .steady :=
  Meets.mono (d := .plain) (e := .steady) (fun _ _ => trivial) (fun _ _ => trivial)
    (fun _ => id) (fun _ => trivial) id id h

end Rule

section Plain

open Rule

variable {prefs : GrammarPreferences}

@[simp] theorem plain_expression : expression.Meets .plain := .inl rfl
@[simp] theorem plain_templateArguments : templateArguments.Meets .plain := .inr rfl

@[simp] theorem plain_separated {r : Rule} : (separated r).Meets .plain ↔ r.Meets .plain := by
  simp [separated, Test.refuses, closers]

@[simp] theorem plain_operators {r : Rule} {ks : List Kind} :
    (operators r ks).Meets .plain ↔ r.Meets .plain ∧ (Test.oneOf ks).refuses closers = true := by
  simp +contextual [operators]

@[simp] theorem plain_arguments : arguments.Meets .plain := by
  simp [arguments, delimited, Test.refuses, closers]

@[simp] theorem plain_primary : primary.Meets .plain := by
  simp [primary, templateName, literal, basicType, Test.refuses, closers]

@[simp] theorem plain_postfixExpr : postfixExpr.Meets .plain := by
  simp [postfixExpr, suffixPart, Test.refuses, closers]

@[simp] theorem plain_prefixExpr : prefixExpr.Meets .plain := by
  simp [prefixExpr, Test.refuses, closers]

@[simp] theorem plain_additive : additive.Meets .plain := by
  simp [additive, multiplicative, Test.refuses, closers]

/-- The productions inside expressions are plain. -/
theorem plain_body {g : Guarded} (hg : Demand.inner g) : (body prefs g).Meets .plain := by
  rcases hg with rfl | rfl
  · simp [body, disjunction, conjunction, equality, relational, Test.refuses, closers]
  · simp [body, closedAdditiveList, additiveList, Test.refuses, closers]

@[simp] theorem plain_condition : condition.Meets .plain := by
  simp [condition, Test.refuses, closers]

@[simp] theorem plain_parameter : parameter.Meets .plain := by
  simp [parameter, Test.refuses, closers]

@[simp] theorem plain_parameters : parameters.Meets .plain := by
  simp [parameters, delimited, Test.refuses, closers]

@[simp] theorem plain_singleParameter : singleParameter.Meets .plain := by
  simp [singleParameter, Test.refuses, closers]

@[simp] theorem plain_templateHeader : templateHeader.Meets .plain := by
  simp [templateHeader, parameterList, Test.refuses, closers]

@[simp] theorem plain_initialValue : initialValue.Meets .plain := by
  simp [initialValue, expressionList, Test.refuses, closers]

@[simp] theorem plain_initialization : (initialization prefs).Meets .plain := by
  unfold initialization
  split <;> simp

end Plain

/-- A lexeme that ends a statement or bounds a block is among those to come. -/
def State.Closes (s : State) : Prop := ∃ z ∈ s.rest, z.kind ∈ closers

namespace State

variable {s t : State}

theorem Closes.rest_ne_nil (h : s.Closes) : s.rest ≠ [] := by
  obtain ⟨z, hz, -⟩ := h
  exact List.ne_nil_of_mem hz

theorem Closes.of_suffix (h : t.Closes) (hs : t.rest <:+ s.rest) : s.Closes := by
  obtain ⟨z, hz, hk⟩ := h
  exact ⟨z, hs.subset hz, hk⟩

end State

namespace Runs

variable {prefs : GrammarPreferences} {seen : Test → Prop} {n : Nat} {r : Rule} {s t : State}
  {b : Bool}

/-- Straight rules run in the same way under all preferences. -/
theorem transfer (h : Runs (body prefs) seen n r s b t) (hr : r.Meets .straight)
    (prefs' : GrammarPreferences) : Runs (body prefs') seen n r s b t := by
  induction h with
  | accept => exact .accept
  | reject => exact .reject
  | peek hs hp => exact .peek hs hp
  | take hs hp => exact .take hs hp
  | miss hs hp => exact .miss hs hp
  | yes _ _ ihf ihy => exact .yes (ihf hr.1) (ihy hr.2.1)
  | no _ _ ihf ihn => exact .no (ihf hr.1) (ihn hr.2.2)
  | keep | restore => exact absurd hr.1 id
  | done hs hp => exact .done hs hp
  | again hs hp _ _ ihb ihl => exact .again hs hp (ihb hr.2) (ihl hr)
  | stop hs hp _ ih => exact .stop hs hp (ih hr.2)
  | declare hs _ ih => exact .declare hs (ih (hr.2 _))
  | nameless hs hn => exact .nameless hs hn
  | enclosed _ ih => exact .enclosed (ih hr.2)
  | @call _ g _ _ _ hs _ ih =>
    have hbody : body prefs g = body prefs' g := by
      rcases hr with rfl | rfl <;> rfl
    exact .call hs (hbody ▸ ih (plain_body hr).straight)
  | refuse hs => exact .refuse hs
  | refused hs => exact .refused hs

/-- A straight run that does not end at the end never stood there. -/
theorem open_of_straight (h : Runs (body prefs) seen n r s b t) (hr : r.Meets .straight)
    (ht : t.rest ≠ []) : OpenRuns (body prefs) n r s b t := by
  have before {u v : State} (h : v.rest <:+ u.rest) (hv : v.rest ≠ []) : u.rest ≠ [] := by
    intro hu
    exact hv (List.suffix_nil.1 (hu ▸ h))
  induction h with
  | accept => exact .accept
  | reject => exact .reject
  | peek _ hp => exact .peek (absurd · ht) hp
  | take hs hp => exact .take hs hp
  | miss _ hp => exact .miss (absurd · ht) hp
  | yes _ hy ihf ihy => exact .yes (ihf hr.1 (before hy.suffix ht)) (ihy hr.2.1 ht)
  | no _ hn ihf ihn => exact .no (ihf hr.1 (before hn.suffix ht)) (ihn hr.2.2 ht)
  | keep | restore => exact absurd hr.1 id
  | done _ hp => exact .done (absurd · ht) hp
  | again _ hp hb hl ihb ihl =>
    have hm := before hl.suffix ht
    exact .again (absurd · (before hb.suffix hm)) hp (ihb hr.2 hm) (ihl hr ht)
  | stop _ hp hb ih => exact .stop (absurd · (before hb.suffix ht)) hp (ih hr.2 ht)
  | declare hs _ ih => exact .declare hs (ih (hr.2 _) ht)
  | nameless _ hn => exact .nameless (absurd · ht) hn
  | enclosed _ ih => exact .enclosed (ih hr.2 ht)
  | call hs _ ih => exact .call hs (ih (plain_body hr).straight ht)
  | refuse => exact .refuse (absurd · ht)
  | refused hs => exact .refused hs

/-- A plain rule never passes a closer, so it does not see the end behind one. -/
theorem open_of_plain (h : Runs (body prefs) seen n r s b t) (hr : r.Meets .plain)
    (hs : s.Closes) : OpenRuns (body prefs) n r s b t ∧ t.Closes := by
  induction h with
  | accept => exact ⟨.accept, hs⟩
  | reject => exact ⟨.reject, hs⟩
  | peek _ hp => exact ⟨.peek (absurd · hs.rest_ne_nil) hp, hs⟩
  | @take _ q s hne hp =>
    refine ⟨.take hne hp, ?_⟩
    obtain ⟨z, hz, hk⟩ := hs
    obtain ⟨x, rest, hx⟩ := List.exists_cons_of_ne_nil hne
    rw [hx] at hz
    rcases List.mem_cons.1 hz with rfl | hz
    · rw [State.passes, hx, Test.holds_of_refuses hr hk] at hp
      cases hp
    · exact ⟨z, by simpa [hx] using hz, hk⟩
  | miss _ hp => exact ⟨.miss (absurd · hs.rest_ne_nil) hp, hs⟩
  | yes _ _ ihf ihy =>
    obtain ⟨hf, hm⟩ := ihf hr.1 hs
    obtain ⟨hy, ht⟩ := ihy hr.2.1 hm
    exact ⟨.yes hf hy, ht⟩
  | no _ _ ihf ihn =>
    obtain ⟨hf, hm⟩ := ihf hr.1 hs
    obtain ⟨hn, ht⟩ := ihn hr.2.2 hm
    exact ⟨.no hf hn, ht⟩
  | keep | restore => exact absurd hr.1 id
  | done _ hp => exact ⟨.done (absurd · hs.rest_ne_nil) hp, hs⟩
  | again _ hp _ _ ihb ihl =>
    obtain ⟨hb, hm⟩ := ihb hr.2 hs
    obtain ⟨hl, ht⟩ := ihl hr hm
    exact ⟨.again (absurd · hs.rest_ne_nil) hp hb hl, ht⟩
  | stop _ hp _ ih =>
    obtain ⟨hb, ht⟩ := ih hr.2 hs
    exact ⟨.stop (absurd · hs.rest_ne_nil) hp hb, ht⟩
  | declare | nameless | enclosed => exact absurd hr.1 id
  | call ho _ ih =>
    obtain ⟨hb, ht⟩ := ih (plain_body hr) hs
    exact ⟨.call ho hb, ht⟩
  | refuse => exact ⟨.refuse (absurd · hs.rest_ne_nil), hs⟩
  | refused ho => exact ⟨.refused ho, hs⟩

/-- A steady rule leaves the declared names as they are. -/
theorem table_eq (h : Runs (body prefs) seen n r s b t) (hr : r.Meets .steady) :
    t.table = s.table := by
  induction h with
  | accept | reject | peek | take | miss | done | refuse | refused => rfl
  | yes _ _ ihf ihy => exact (ihy hr.2.1).trans (ihf hr.1)
  | no _ _ ihf ihn => exact (ihn hr.2.2).trans (ihf hr.1)
  | keep _ ih | restore _ ih => exact ih hr.2
  | declare | nameless | enclosed => exact absurd hr.1 id
  | again _ _ _ _ ihb ihl => exact (ihl hr).trans (ihb hr.2)
  | stop _ _ _ ih => exact ih hr.2
  | call _ _ ih => exact ih (plain_body hr).steady

/-- A steady attempt that is given back without a refused call changes nothing. -/
theorem eq_of_restore (h : Runs (body prefs) seen n (.attempt r) s false t)
    (hr : r.Meets .steady) (ht : t.overflow = none) : t = s := by
  have htable := h.table_eq (show (Rule.attempt r).Meets .steady from ⟨trivial, hr⟩)
  have hsize := h.size_eq
  have hoverflow := h.overflow_eq_none ht
  cases h with
  | restore => cases s; simp_all

end Runs

variable {prefs : GrammarPreferences} {n : Nat} {r q : Rule}

/-- Where a closer follows, no run of the rule sees the end. -/
def Bounded (prefs : GrammarPreferences) (r : Rule) : Prop :=
  ∀ ⦃n s b t⦄, FullRuns (body prefs) n r s b t → s.Closes → OpenRuns (body prefs) n r s b t

namespace Bounded

theorem of_plain (hr : r.Meets .plain) : Bounded prefs r :=
  fun _ _ _ _ h hs => (h.open_of_plain hr hs).1

theorem take (c : Test) : Bounded prefs (.take c) := by
  intro n s b t h hs
  cases h with
  | take hne hp => exact .take hne hp
  | miss _ hp => exact .miss (absurd · hs.rest_ne_nil) hp

theorem andThen (hr : r.Meets .plain) (hq : Bounded prefs q) : Bounded prefs (r.andThen q) := by
  intro n s b t h hs
  cases h with
  | yes hf hy =>
    obtain ⟨hf, hm⟩ := hf.open_of_plain hr hs
    exact .yes hf (hq hy hm)
  | no hf hn =>
    cases hn
    exact .no (hf.open_of_plain hr hs).1 .reject

theorem label : Bounded prefs Grammar.label :=
  of_plain (by simp [Grammar.label, Test.refuses, closers])

theorem simple : Bounded prefs Grammar.simple := andThen (by simp) (take _)

theorem assignment : Bounded prefs Grammar.assignment :=
  andThen (by simp) <| andThen (by simp [Test.refuses, closers]) <| andThen (by simp) (take _)

theorem construction : Bounded prefs (Grammar.construction prefs) :=
  andThen (by simp) <| andThen (by simp [Test.refuses, closers]) <| andThen (by simp) (take _)

end Bounded

/-- Where a closer follows it, an accepting run of the rule does not see the end. -/
def Local (prefs : GrammarPreferences) (n : Nat) (r : Rule) : Prop :=
  ∀ ⦃s t⦄, FullRuns (body prefs) n r s true t → t.Closes → OpenRuns (body prefs) n r s true t

namespace Local

variable {s t : State}

theorem of_straight (hr : r.Meets .straight) : Local prefs n r :=
  fun _ _ h ht => h.open_of_straight hr ht.rest_ne_nil

theorem of_plain (hr : r.Meets .plain) : Local prefs n r := of_straight hr.straight

theorem andThen (hr : Local prefs n r) (hq : Local prefs n q) : Local prefs n (r.andThen q) := by
  intro s t h ht
  obtain ⟨m, hf, hy⟩ := h.of_andThen
  exact .yes (hr hf (ht.of_suffix hy.suffix)) (hq hy ht)

theorem loop {c : Test} (hr : Local prefs n r) : Local prefs n (.loop c r) := by
  intro s t h ht
  generalize hb : true = b at h
  induction h using Runs.loop_induction with
  | done s _ hc => exact .done (absurd · ht.rest_ne_nil) hc
  | again s m t b _ hc hround hl ih =>
    have hm := ht.of_suffix hl.suffix
    have hs := hm.of_suffix hround.suffix
    exact .again (absurd · hs.rest_ne_nil) hc (hr hround hm) (ih ht hb)
  | stop => cases hb

end Local

/-- An accepting run of the rule needs a closer, and at the end of the lexemes it
asks only tests that `last` allows, and those only as its last step. -/
def Closing (prefs : GrammarPreferences) (last : Test → Prop) (n : Nat) (r : Rule) : Prop :=
  ∀ ⦃s t⦄, FullRuns (body prefs) n r s true t →
    s.Closes ∧ Runs (body prefs) (fun c => last c ∧ t.rest = []) n r s true t

namespace Closing

variable {last last' : Test → Prop} {s t : State}

theorem isLocal (h : Closing prefs last n r) : Local prefs n r :=
  fun _ _ hrun ht => (h hrun).2.mono fun _ hc => ht.rest_ne_nil hc.2

/-- What asks for nothing in the end is decided by the lexemes given. -/
theorem isOpen (h : Closing prefs (fun _ => False) n r)
    (hrun : FullRuns (body prefs) n r s true t) : OpenRuns (body prefs) n r s true t :=
  (h hrun).2.mono fun _ hc => hc.1

theorem reject : Closing prefs last n .reject := by
  intro s t h
  cases h

theorem kind {k : Kind} (hk : k ∈ closers) : Closing prefs last n (Rule.kind k) := by
  intro s t h
  cases h with
  | take hne hp =>
    refine ⟨?_, .take hne hp⟩
    obtain ⟨x, rest, hx⟩ := List.exists_cons_of_ne_nil hne
    simp only [State.passes, hx, Test.holds, beq_iff_eq] at hp
    exact ⟨x, by simp [hx], hp ▸ hk⟩

theorem andThen (hr : Local prefs n r) (hq : Closing prefs last n q) :
    Closing prefs last n (r.andThen q) := by
  intro s t h
  obtain ⟨m, hf, hy⟩ := h.of_andThen
  obtain ⟨hm, hy⟩ := hq hy
  exact ⟨hm.of_suffix hf.suffix, .yes (hr hf hm).of_open hy⟩

theorem when {c : Test} (hr : Closing prefs last n r) (hq : Closing prefs last n q) :
    Closing prefs last n (Rule.when c r q) := by
  intro s t h
  rcases h.of_when with ⟨hp, hy⟩ | ⟨hp, hn⟩
  · obtain ⟨hs, hy⟩ := hr hy
    exact ⟨hs, .yes (.peek (absurd · hs.rest_ne_nil) hp) hy⟩
  · obtain ⟨hs, hn⟩ := hq hn
    exact ⟨hs, .no (.peek (absurd · hs.rest_ne_nil) hp) hn⟩

theorem takeOr {c : Test} (hr : Closing prefs last n (.take c)) (hq : Closing prefs last n q) :
    Closing prefs last n ((Rule.take c).orElse q) := by
  intro s t h
  rcases h.of_orElse with hf | ⟨m, hf, hn⟩
  · obtain ⟨hs, hf⟩ := hr hf
    exact ⟨hs, .yes hf .accept⟩
  · cases hf with
    | miss _ hp =>
      obtain ⟨hs, hn⟩ := hq hn
      exact ⟨hs, .no (.miss (absurd · hs.rest_ne_nil) hp) hn⟩

/-- Another rule is tried after an attempt that is open whenever the other one accepts. -/
theorem attemptUnless (hr : Closing prefs last n r) (hq : Closing prefs last n q)
    (hopen : ∀ s m t, FullRuns (body prefs) n r s false m →
      FullRuns (body prefs) n q { m with rest := s.rest } true t → s.Closes →
      OpenRuns (body prefs) n r s false m) :
    Closing prefs last n ((Rule.attempt r).orElse q) := by
  intro s t h
  rcases h.of_attemptOr with ⟨-, hf⟩ | ⟨m, hf, hn⟩
  · obtain ⟨hs, hf⟩ := hr hf
    exact ⟨hs, .yes (.keep hf) .accept⟩
  · obtain ⟨hs, hn'⟩ := hq hn
    have hs : s.Closes := hs
    exact ⟨hs, .no (.restore (hopen s m t hf hn hs).of_open) hn'⟩

/-- After a bounded attempt another rule is tried from the same lexemes. -/
theorem attemptOr (hr : Closing prefs last n r) (hb : Bounded prefs r)
    (hq : Closing prefs last n q) : Closing prefs last n ((Rule.attempt r).orElse q) :=
  attemptUnless hr hq fun _ _ _ hf _ hs => hb hf hs

theorem attempt (hr : Closing prefs last n r) : Closing prefs last n (.attempt r) := by
  intro s t h
  cases h with
  | keep h =>
    obtain ⟨hs, h⟩ := hr h
    exact ⟨hs, .keep h⟩

theorem enclosed (hr : Closing prefs last n r) : Closing prefs last n (.enclosed r) := by
  intro s t h
  cases h with
  | enclosed h =>
    obtain ⟨hs, h⟩ := hr h
    exact ⟨hs, .enclosed h⟩

theorem declare {k : Symbol.Kind} {next : Bytes → Rule}
    (hnext : ∀ name, Closing prefs last n (next name)) :
    Closing prefs last n (.declare k next) := by
  intro s t h
  cases h with
  | declare hs h =>
    obtain ⟨hm, h⟩ := hnext _ h
    exact ⟨hm.of_suffix (List.tail_suffix _), .declare hs h⟩

theorem call {g : Guarded} (hbody : ∀ m, m + 1 = n → Closing prefs last m (body prefs g)) :
    Closing prefs last n (.call g) := by
  intro s t h
  cases h with
  | call ho h =>
    obtain ⟨hs, h⟩ := hbody _ rfl h
    exact ⟨hs, .call ho h⟩

/-! ### Statements -/

/-- The question that a conditional asks after its first branch. -/
def asksElse (c : Test) : Prop := c = .keyword .else_

theorem simple : Closing prefs last n Grammar.simple :=
  andThen (.of_plain plain_expression) (kind (by decide))

theorem assignment : Closing prefs last n Grammar.assignment :=
  andThen (.of_plain plain_expression) <| andThen (.of_straight (by simp)) <|
    andThen (.of_plain plain_expression) (kind (by decide))

theorem construction : Closing prefs last n (Grammar.construction prefs) :=
  andThen (.of_plain plain_expression) <| andThen (.of_straight (by simp)) <|
    andThen (.of_plain (by simp)) (kind (by decide))

theorem typeDefinition : Closing prefs last n Grammar.typeDefinition :=
  andThen (.of_straight (by simp)) <| andThen (.of_plain plain_expression) <|
    declare fun _ => kind (by decide)

theorem returnStatement : Closing prefs last n Grammar.returnStatement :=
  andThen (.of_straight (by simp)) <| andThen (.of_plain (by simp)) (kind (by decide))

theorem breakStatement : Closing prefs last n Grammar.breakStatement :=
  andThen (.of_straight (by simp)) (kind (by decide))

theorem gotoStatement : Closing prefs last n Grammar.gotoStatement :=
  andThen (.of_straight (by simp)) <| andThen (.of_straight (by simp)) (kind (by decide))

/-- The tests by which a control statement is chosen. -/
def controlTests : List Test :=
  [.keyword .return_, .keyword .if_, .keyword .switch, .keyword .while_, .keyword .do_,
    .kind .openBrace, .keyword .break_, .keyword .goto]

/-- What begins like no control statement is rejected as one at once. -/
theorem control_rejects {seen : Test → Prop} (hseen : s.rest = [] → ∀ c, seen c)
    (hs : ∀ c ∈ controlTests, s.passes c = false) :
    Runs (body prefs) seen n (Grammar.control prefs) s false s := by
  have hno (c : Test) (hc : c ∈ controlTests) : Runs (body prefs) seen n (.peek c) s false s :=
    .peek (fun he => hseen he c) (hs c hc)
  refine .no (hno _ (by decide)) <| .no (hno _ (by decide)) <| .no (hno _ (by decide)) <|
    .no (hno _ (by decide)) <| .no (hno _ (by decide)) <| .no (hno _ (by decide)) <|
      .no (hno _ (by decide)) ?_
  split
  · exact .no (hno _ (by decide)) .reject
  · exact .reject

/-- The keyword of a type definition begins no control statement. -/
theorem typedef_start (h : FullRuns (body prefs) n (.keyword .typedef) s true t) :
    s.rest ≠ [] ∧ ∀ table, ∀ c ∈ controlTests, c.holds table s.rest = false := by
  cases h with
  | take hne hp =>
    refine ⟨hne, fun table => ?_⟩
    obtain ⟨x, rest, hx⟩ := List.exists_cons_of_ne_nil hne
    simp only [State.passes, hx, Test.keyword, Test.holds, Bool.and_eq_true, beq_iff_eq] at hp ⊢
    simp only [controlTests, Test.keyword, List.mem_cons, List.not_mem_nil, or_false,
      forall_eq_or_imp, forall_eq, Test.holds, hp.1, hp.2]
    decide

/-- A type definition begins like no control statement. -/
theorem typeDefinition_start (h : FullRuns (body prefs) n Grammar.typeDefinition s true t) :
    s.rest ≠ [] ∧ ∀ table, ∀ c ∈ controlTests, c.holds table s.rest = false := by
  obtain ⟨m, hf, -⟩ := h.of_andThen
  exact typedef_start hf

/-- So does one that runs up to the end. -/
theorem typeDefinition_begins {b : Bool} {table : SymbolTable}
    (h : FullRuns (body prefs) n Grammar.typeDefinition s b t) (hb : b = true ∨ t.rest = []) :
    ∀ c ∈ controlTests, c.holds table s.rest = false := by
  cases h with
  | yes hf _ => exact (typedef_start hf).2 table
  | no hf hn =>
    cases hn
    cases hf
    have hs : s.rest = [] := hb.resolve_left (by simp)
    rw [hs]
    simp [controlTests, Test.keyword, Test.holds]

/-- A control statement that was tried before it was given back at once. -/
theorem control_of_typeDefinition {m : State} {b : Bool}
    (hf : FullRuns (body prefs) n (Grammar.control prefs) s false m)
    (h : FullRuns (body prefs) n Grammar.typeDefinition { m with rest := s.rest } b t)
    (hb : b = true ∨ t.rest = []) : m = s ∧ ∀ c ∈ controlTests, s.passes c = false := by
  have hstart : ∀ c ∈ controlTests, s.passes c = false :=
    typeDefinition_begins (s := { m with rest := s.rest }) h hb
  have hreject : FullRuns (body prefs) n (Grammar.control prefs) s false s :=
    control_rejects (fun _ _ => trivial) hstart
  exact ⟨(hf.unique hreject).2, hstart⟩

section Statements

variable (hs : Closing prefs asksElse n statement)
include hs

theorem compound : Closing prefs last n Grammar.compound :=
  andThen (.of_straight (by simp)) (enclosed (andThen (.loop hs.isLocal) (kind (by decide))))

theorem switchStatement : Closing prefs last n Grammar.switchStatement := by
  have hcase : Local prefs n caseClause :=
    .andThen (.of_straight (by simp)) <| .andThen (.of_plain plain_expression) <|
      .andThen (.of_straight (by simp)) (.loop hs.isLocal)
  exact andThen (.of_straight (by simp)) <| andThen (.of_plain plain_condition) <|
    andThen (.of_straight (by simp)) <| andThen (.loop hcase) (kind (by decide))

theorem whileStatement : Closing prefs asksElse n Grammar.whileStatement :=
  andThen (.of_straight (by simp)) (andThen (.of_plain plain_condition) hs)

theorem doStatement : Closing prefs last n Grammar.doStatement :=
  andThen (.of_straight (by simp)) <| andThen hs.isLocal <| andThen (.of_straight (by simp)) <|
    andThen (.of_plain plain_condition) (kind (by decide))

/-- The first branch of a conditional, and the second one if there is one. -/
theorem branches : Closing prefs asksElse n
    (statement.andThen (.branch (.keyword .else_) statement .accept)) := by
  intro s t h
  obtain ⟨m, hf, hy⟩ := h.of_andThen
  cases hy with
  | yes helse hy =>
    obtain ⟨hm, hy⟩ := hs hy
    have helse := helse.open_of_straight (by simp) hm.rest_ne_nil
    have hopen := hs.isLocal hf (hm.of_suffix helse.suffix)
    exact ⟨(hs hf).1, .yes hopen.of_open (.yes helse.of_open hy)⟩
  | no helse hacc =>
    cases helse with
    | miss _ hp =>
      cases hacc
      obtain ⟨hc, hf⟩ := hs hf
      exact ⟨hc, .yes hf (.no (.miss (fun h => ⟨rfl, h⟩) hp) .accept)⟩

theorem conditional : Closing prefs asksElse n Grammar.conditional :=
  andThen (.of_straight (by simp)) (andThen (.of_plain plain_condition) (branches hs))

theorem control : Closing prefs asksElse n (Grammar.control prefs) := by
  have hgoto : Closing prefs asksElse n (if prefs.allowGoto then
      Rule.when (.keyword .goto) Grammar.gotoStatement .reject else .reject) := by
    split
    · exact gotoStatement.when reject
    · exact reject
  exact returnStatement.when <| (conditional hs).when <| (switchStatement hs).when <|
    (whileStatement hs).when <| (doStatement hs).when <| (compound hs).when <|
      breakStatement.when hgoto

/-- A control statement, or else a type definition, which is rejected as one at once. -/
theorem controlOr : Closing prefs asksElse n
    ((Rule.attempt (Grammar.control prefs)).orElse Grammar.typeDefinition) := by
  intro s t h
  rcases h.of_attemptOr with ⟨-, hf⟩ | ⟨m, hf, hn⟩
  · obtain ⟨hc, hf⟩ := control hs hf
    exact ⟨hc, .yes (.keep hf) .accept⟩
  · obtain ⟨hc, hopen⟩ := typeDefinition hn
    obtain ⟨rfl, hstart⟩ := control_of_typeDefinition hf hn (.inl rfl)
    exact ⟨hc, .no (.restore (control_rejects (absurd · hc.rest_ne_nil) hstart)) hopen⟩

theorem statementBody : Closing prefs asksElse n (Grammar.statementBody prefs) := by
  have hforms : Closing prefs asksElse n (Rule.oneOf [.attempt Grammar.simple,
      .attempt Grammar.assignment, .attempt (Grammar.construction prefs),
      .attempt (Grammar.control prefs), Grammar.typeDefinition]) :=
    simple.attemptOr .simple <| assignment.attemptOr .assignment <|
      construction.attemptOr .construction (controlOr hs)
  intro s t h
  cases h with
  | yes hf hy =>
    cases hf with
    | keep hf =>
      obtain ⟨hm, hy⟩ := hs hy
      have hopen := hf.open_of_straight (by simp [label]) hm.rest_ne_nil
      exact ⟨hm.of_suffix hf.suffix, .yes (.keep hopen.of_open) hy⟩
  | no hf hn =>
    cases hf with
    | restore hf =>
      obtain ⟨hc, hn⟩ := hforms hn
      have hc : s.Closes := hc
      exact ⟨hc, .no (.restore (Bounded.label hf hc).of_open) hn⟩

end Statements
end Closing

/-- Accepted statements are local in any room. -/
theorem closing_statement (prefs : GrammarPreferences) (n : Nat) :
    Closing prefs Closing.asksElse n statement := by
  induction n using Nat.strongRecOn with
  | ind n ih => exact .call fun m hm => .statementBody (ih m (by omega))

/-- The forms of a statement that are tried before the control statements. -/
def earlierForms (prefs : GrammarPreferences) : List Rule :=
  [simple, assignment, construction prefs]

theorem earlierForms_steady {r : Rule} (hr : r ∈ earlierForms prefs) : r.Meets .steady := by
  simp only [earlierForms, List.mem_cons, List.not_mem_nil, or_false] at hr
  rcases hr with rfl | rfl | rfl
  · simp [simple, plain_expression.steady]
  · simp [assignment, plain_expression.steady]
  · simp [construction, plain_expression.steady, plain_initialization.steady]

theorem earlierForms_bounded {r : Rule} (hr : r ∈ earlierForms prefs) : Bounded prefs r := by
  simp only [earlierForms, List.mem_cons, List.not_mem_nil, or_false] at hr
  rcases hr with rfl | rfl | rfl
  · exact .simple
  · exact .assignment
  · exact .construction

theorem earlierForms_productive {r : Rule} (hr : r ∈ earlierForms prefs) :
    r.Meets .productive := by
  simp only [earlierForms, List.mem_cons, List.not_mem_nil, or_false] at hr
  rcases hr with rfl | rfl | rfl
  · simp [simple]
  · simp [assignment]
  · simp

/-- A steady attempt is kept, or it leaves the lexemes and the names to the next rule. -/
theorem attemptOr_cases {s t : State} {b : Bool} (hr : r.Meets .steady)
    (h : FullRuns (body prefs) n ((Rule.attempt r).orElse q) s b t) (ht : t.overflow = none) :
    (b = true ∧ FullRuns (body prefs) n r s true t) ∨
    (∃ u, FullRuns (body prefs) n r s false u ∧ u.overflow = none) ∧
      FullRuns (body prefs) n q s b t := by
  rcases h.of_attemptOr with hkept | ⟨u, hf, hn⟩
  · exact .inl hkept
  · have hu : u.overflow = none := hn.overflow_eq_none ht
    have hsame := (Runs.restore hf).eq_of_restore hr hu
    rw [hsame] at hn
    exact .inr ⟨⟨u, hf, hu⟩, hn⟩

/-- The forms of a statement, in the order in which they are tried. -/
def statementForms (prefs : GrammarPreferences) : Rule :=
  (Rule.attempt simple).orElse <| (Rule.attempt assignment).orElse <|
    (Rule.attempt (construction prefs)).orElse <|
      (Rule.attempt (control prefs)).orElse typeDefinition

/-- A statement is one of the forms that are tried first, or all of these are rejected and
what comes after them decides. -/
theorem forms_cases {s t : State} {b : Bool}
    (h : FullRuns (body prefs) n (statementForms prefs) s b t) (ht : t.overflow = none) :
    (b = true ∧ ∃ r ∈ earlierForms prefs, FullRuns (body prefs) n r s true t) ∨
    (∀ r ∈ earlierForms prefs, ∃ u, FullRuns (body prefs) n r s false u ∧ u.overflow = none) ∧
      FullRuns (body prefs) n ((Rule.attempt (control prefs)).orElse typeDefinition) s b t := by
  have hsteady {r : Rule} (hr : r ∈ earlierForms prefs) := earlierForms_steady hr
  rcases attemptOr_cases (hsteady (by simp [earlierForms])) h ht with
    ⟨hb, h⟩ | ⟨hsimple, hrest⟩
  · exact .inl ⟨hb, _, by simp [earlierForms], h⟩
  rcases attemptOr_cases (hsteady (by simp [earlierForms])) hrest ht with
    ⟨hb, h⟩ | ⟨hassign, hrest⟩
  · exact .inl ⟨hb, _, by simp [earlierForms], h⟩
  rcases attemptOr_cases (hsteady (by simp [earlierForms])) hrest ht with
    ⟨hb, h⟩ | ⟨hconstruct, hrest⟩
  · exact .inl ⟨hb, _, by simp [earlierForms], h⟩
  refine .inr ⟨?_, hrest⟩
  simpa [earlierForms] using ⟨hsimple, hassign, hconstruct⟩

end Recognizer.Grammar
