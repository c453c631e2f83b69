import Recognizer.Proofs.Completion

/-!
# Rules that stray

An attempt that is given back may have run past a closer, into what follows the
declaration it was tried on. The attempts of the grammar do so only behind their
opening brace, and what has come before that brace decides against the rules that
are tried next.
-/
namespace Recognizer.Grammar

/-- The second list is what remains of the first behind lexemes of other kinds. -/
def Skips (ks : List Kind) (u v : List Lexeme) : Prop := ∃ c, u = c ++ v ∧ ∀ x ∈ c, x.kind ∉ ks

namespace Skips

variable {ks : List Kind} {u v w : List Lexeme} {y z : Lexeme}

theorem refl (u : List Lexeme) : Skips ks u u := ⟨[], rfl, by simp⟩

theorem trans (h : Skips ks u v) (h' : Skips ks v w) : Skips ks u w := by
  obtain ⟨c, rfl, hc⟩ := h
  obtain ⟨d, rfl, hd⟩ := h'
  exact ⟨c ++ d, by simp, fun x hx => (List.mem_append.1 hx).elim (hc x) (hd x)⟩

theorem tail {q : Test} {table : SymbolTable} (hq : q.refuses ks = true)
    (hp : q.holds table u = true) : Skips ks u u.tail := by
  cases u with
  | nil => exact refl []
  | cons x u =>
    refine ⟨[x], rfl, ?_⟩
    simp only [List.mem_singleton, forall_eq]
    intro hx
    rw [Test.holds_of_refuses hq hx] at hp
    cases hp

/-- The first lexeme of one of the kinds is determined. -/
theorem unique (h : Skips ks u (y :: v)) (h' : Skips ks u (z :: w)) (hy : y.kind ∈ ks)
    (hz : z.kind ∈ ks) : y :: v = z :: w := by
  have first {y : Lexeme} {v : List Lexeme} (h : Skips ks u (y :: v)) (hy : y.kind ∈ ks) :
      u.dropWhile (fun x => x.kind ∉ ks) = y :: v := by
    obtain ⟨c, rfl, hc⟩ := h
    rw [List.dropWhile_append_of_pos (by simpa using hc)]
    simp [hy]
  exact (first h hy).symm.trans (first h' hz)

end Skips

variable {prefs : GrammarPreferences} {n : Nat} {r q : Rule} {s t m : State} {b : Bool}
  {k : Kind} {x a c : Lexeme} {z : List Lexeme}

namespace Runs

open Rule

variable {seen : Test → Prop}

/-- A rule that avoids some kinds, in the calls too, skips lexemes of other kinds. -/
theorem skips {ks : List Kind} (hbody : ∀ g, Demand.inner g → (body prefs g).Meets (.avoiding ks))
    (h : Runs (body prefs) seen n r s b t) (hr : r.Meets (.avoiding ks)) :
    Skips ks s.rest t.rest := by
  induction h with
  | accept | reject | peek | miss | done | refuse | refused => exact .refl _
  | take _ hp => exact .tail hr hp
  | yes _ _ ihf ihy => exact (ihf hr.1).trans (ihy hr.2.1)
  | no _ _ ihf ihn => exact (ihf hr.1).trans (ihn hr.2.2)
  | again _ _ _ _ ihb ihl => exact (ihb hr.2).trans (ihl hr)
  | stop _ _ _ ih => exact ih hr.2
  | call _ _ ih => exact ih (hbody _ hr)
  | keep | restore | declare | nameless | enclosed => exact absurd hr.1 id

/-- A plain rule takes no closer. -/
theorem skips_of_plain (h : Runs (body prefs) seen n r s b t) (hr : r.Meets .plain) :
    Skips closers s.rest t.rest := h.skips (fun _ => plain_body) hr

/-- What was taken stood first. -/
theorem taken (h : Runs (body prefs) seen n (.kind k) s true t) :
    ∃ x, s.rest = x :: t.rest ∧ x.kind = k ∧ t = s.advance := by
  cases h with
  | take hne hp =>
    obtain ⟨x, u, hx⟩ := List.exists_cons_of_ne_nil hne
    refine ⟨x, by simp [hx], ?_, rfl⟩
    simpa [State.passes, hx, Test.holds] using hp

theorem taken_keyword {w : Keyword} (h : Runs (body prefs) seen n (.keyword w) s true t) :
    ∃ x, s.rest = x :: t.rest ∧ x.Is w ∧ t = s.advance := by
  cases h with
  | take hne hp =>
    obtain ⟨x, u, hx⟩ := List.exists_cons_of_ne_nil hne
    refine ⟨x, by simp [hx], ?_, rfl⟩
    simpa [State.passes, hx, Test.keyword, Test.holds, Lexeme.Is] using hp

/-- Where there is room, a name before another name is read as an expression by itself. -/
theorem of_name (hs : s.rest = x :: a :: z) (hx : x.kind = .identifier) (hc : ¬ x.Is .const)
    (ha : a.kind = .identifier) (ho : s.overflow = none) :
    FullRuns (body prefs) (n + 1) expression s true s.advance := by
  have hread : Reads (Setting.known ⟨prefs, s.size, s.table⟩) .expression 1 s.rest (a :: z) := by
    rw [hs]
    refine .of_prefixed (.unsigned (by simpa using hc) (reads_name hx ?_))
    simp [Avoids, ha]
  have hrun := (hread.exact trivial (.cons (by rw [ha]; decide))).fits (n + 1) (by omega)
  have hend : Setting.ready ⟨prefs, s.size, s.table⟩ (a :: z) = s.advance := by
    rw [← Setting.ready_rest (s := s.advance) ho, State.rest_advance, hs]
    rfl
  rwa [Setting.ready_rest ho, hend] at hrun

/-- A name before another name is read as an expression by itself. -/
theorem expression_name (h : FullRuns (body prefs) n expression s b t)
    (hs : s.rest = x :: a :: z) (hx : x.kind = .identifier) (hc : ¬ x.Is .const)
    (ha : a.kind = .identifier) (hb : b = true ∨ t.overflow = none) :
    b = true ∧ t.rest = a :: z ∧ t.overflow = none := by
  cases h with
  | refuse => exact absurd (hb.resolve_left (by simp)) s.overflow_refuse
  | refused ho => exact absurd (hb.resolve_left (by simp)) (by simp [ho])
  | call ho h =>
    obtain ⟨rfl, rfl⟩ := (Runs.call ho h).unique (of_name hs hx hc ha ho)
    exact ⟨rfl, by simp [hs], ho⟩

/-- A plain run is open when a closer is ahead or some lexemes are left in the end. -/
theorem open_of_plain_or {u : List Lexeme} (h : Runs (body prefs) seen n r s b t)
    (hr : r.Meets .plain) (hs : s.Closes ∨ u ≠ []) (hu : u <:+ t.rest) :
    OpenRuns (body prefs) n r s b t ∧ (t.Closes ∨ u ≠ []) := by
  rcases hs with hs | hs
  · obtain ⟨hopen, ht⟩ := h.open_of_plain hr hs
    exact ⟨hopen, .inl ht⟩
  · refine ⟨h.open_of_straight hr.straight fun ht => hs ?_, .inr hs⟩
    rw [ht] at hu
    exact List.suffix_nil.1 hu

end Runs

/-- A name that was found stands first. -/
theorem State.rest_of_identifier? {name : Bytes} (h : s.identifier? = some name) :
    ∃ x, s.rest = x :: s.rest.tail ∧ x.kind = .identifier := by
  obtain ⟨x, rest, hx⟩ := List.exists_cons_of_ne_nil (State.rest_ne_nil_of_identifier? h)
  simp only [State.identifier?, hx, Option.ite_none_right_eq_some] at h
  exact ⟨x, by simp [hx], h.1⟩

/-- A name is skipped. -/
theorem Skips.of_identifier? {ks : List Kind} {name : Bytes} (h : s.identifier? = some name)
    (hks : Kind.identifier ∉ ks) : Skips ks s.rest s.rest.tail := by
  obtain ⟨x, hx, hk⟩ := State.rest_of_identifier? h
  exact ⟨[x], hx, by simpa [hk] using hks⟩

/-- An accepted run of the rule ends with the first closer. -/
def Shuts (prefs : GrammarPreferences) (n : Nat) (r : Rule) : Prop :=
  ∀ ⦃s t⦄, FullRuns (body prefs) n r s true t →
    ∃ y, Skips closers s.rest (y :: t.rest) ∧ y.kind ∈ closers

namespace Shuts

theorem kind (hk : k ∈ closers) : Shuts prefs n (Rule.kind k) := by
  intro s t h
  obtain ⟨x, hx, rfl, -⟩ := h.taken
  exact ⟨x, hx ▸ .refl _, hk⟩

theorem andThen (hr : r.Meets .plain) (hq : Shuts prefs n q) : Shuts prefs n (r.andThen q) := by
  intro s t h
  obtain ⟨m, hf, hy⟩ := h.of_andThen
  obtain ⟨y, hm, hy⟩ := hq hy
  exact ⟨y, (hf.skips_of_plain hr).trans hm, hy⟩

theorem declare {k : Symbol.Kind} {next : Bytes → Rule}
    (hnext : ∀ name, Shuts prefs n (next name)) : Shuts prefs n (.declare k next) := by
  intro s t h
  cases h with
  | declare hname h =>
    obtain ⟨y, hm, hy⟩ := hnext _ h
    exact ⟨y, (Skips.of_identifier? hname (by decide)).trans hm, hy⟩

/-- Two such rules end at the same place. -/
theorem rest_eq {s' t' : State} (hr : Shuts prefs n r) (hq : Shuts prefs n q)
    (h : FullRuns (body prefs) n r s true t) (h' : FullRuns (body prefs) n q s' true t')
    (hs : s.rest = s'.rest) : t.rest = t'.rest := by
  obtain ⟨y, hy, hky⟩ := hr h
  obtain ⟨z, hz, hkz⟩ := hq h'
  rw [← hs] at hz
  exact (List.cons.inj (hy.unique hz hky hkz)).2

theorem simple : Shuts prefs n Grammar.simple := andThen (by simp) (kind (by decide))

theorem assignment : Shuts prefs n Grammar.assignment :=
  andThen (by simp) <| andThen (by simp [Test.refuses, closers]) <|
    andThen (by simp) (kind (by decide))

theorem construction : Shuts prefs n (Grammar.construction prefs) :=
  andThen (by simp) <| andThen (by simp [Test.refuses, closers]) <|
    andThen (by simp) (kind (by decide))

theorem typeDefinition : Shuts prefs n Grammar.typeDefinition :=
  andThen (by simp [Test.refuses, closers]) <| andThen (by simp) <|
    declare fun _ => kind (by decide)

end Shuts

theorem earlierForms_shuts {r : Rule} (hr : r ∈ earlierForms prefs) : Shuts prefs n r := by
  simp only [earlierForms, List.mem_cons, List.not_mem_nil, or_false] at hr
  rcases hr with rfl | rfl | rfl
  · exact .simple
  · exact .assignment
  · exact .construction

/-- A run that comes to no statement. It is the same under all preferences, and where a
closer is ahead or some lexemes are left it does not see the end. -/
structure Firm (n : Nat) (r : Rule) (s : State) (b : Bool) (t : State) : Prop where
  full : ∀ prefs, FullRuns (body prefs) n r s b t
  isOpen : s.Closes ∨ t.rest ≠ [] → ∀ prefs, OpenRuns (body prefs) n r s b t

namespace Firm

theorem rest_ne_nil (hs : s.Closes ∨ t.rest ≠ []) (h : t.rest <:+ s.rest) : s.rest ≠ [] := by
  rcases hs with hs | ht
  · exact hs.rest_ne_nil
  · exact fun hs => ht (List.suffix_nil.1 (hs ▸ h))

theorem of_plain (h : FullRuns (body prefs) n r s b t) (hr : r.Meets .plain) : Firm n r s b t where
  full := h.transfer hr.straight
  isOpen hs := (h.open_of_plain_or hr hs (List.suffix_refl _)).1.transfer hr.straight

theorem miss {c : Test} (hp : s.passes c = false) : Firm n (.take c) s false s where
  full _ := .miss (fun _ => trivial) hp
  isOpen hs _ := .miss (absurd · (rest_ne_nil hs (List.suffix_refl _))) hp

theorem reject (h : Firm n r s false t) : Firm n (r.andThen q) s false t where
  full prefs := .no (h.full prefs) .reject
  isOpen hs prefs := .no (h.isOpen hs prefs) .reject

theorem andThen (hf : FullRuns (body prefs) n r s true m) (hr : r.Meets .plain)
    (h : Firm n q m b t) : Firm n (r.andThen q) s b t where
  full prefs' := .yes (hf.transfer hr.straight prefs') (h.full prefs')
  isOpen hs prefs' := by
    obtain ⟨hopen, hm⟩ := hf.open_of_plain_or hr hs (h.full prefs).suffix
    exact .yes (hopen.transfer hr.straight prefs') (h.isOpen hm prefs')

/-- What is tried instead of a rule that takes or sees no lexeme. -/
theorem otherwise {first : Rule} {c : Test} (hp : s.passes c = false)
    (hfirst : first = .take c ∨ first = .peek c) (h : Firm n q s b t) :
    Firm n (first.orElse q) s b t where
  full prefs := by
    rcases hfirst with rfl | rfl
    · exact .no (.miss (fun _ => trivial) hp) (h.full prefs)
    · exact .no (.peek (fun _ => trivial) hp) (h.full prefs)
  isOpen hs prefs := by
    have hne := rest_ne_nil hs (h.full prefs).suffix
    rcases hfirst with rfl | rfl
    · exact .no (.miss (absurd · hne) hp) (h.isOpen hs prefs)
    · exact .no (.peek (absurd · hne) hp) (h.isOpen hs prefs)

theorem declare {k : Symbol.Kind} {next : Bytes → Rule} {name : Bytes}
    (hname : s.identifier? = some name) (h : Firm n (next name) (s.declare name k).advance b t) :
    Firm n (.declare k next) s b t where
  full prefs := .declare hname (h.full prefs)
  isOpen hs prefs := by
    refine .declare hname (h.isOpen (hs.imp_left fun hs => ?_) prefs)
    obtain ⟨w, hw, hk⟩ := hs
    obtain ⟨x, hx, hkx⟩ := State.rest_of_identifier? hname
    rw [hx] at hw
    rcases List.mem_cons.1 hw with rfl | hw
    · rw [hkx] at hk
      exact absurd hk (by decide)
    · exact ⟨w, hw, hk⟩

theorem nameless {k : Symbol.Kind} {next : Bytes → Rule} (hn : s.identifier? = none) :
    Firm n (.declare k next) s false s where
  full _ := .nameless (fun _ => trivial) hn
  isOpen hs _ := .nameless (absurd · (rest_ne_nil hs (List.suffix_refl _))) hn

end Firm

/-- A rejected run of the rule comes to a statement only from the states given. -/
def Strays (prefs : GrammarPreferences) (n : Nat) (r : Rule) (E : State → Prop) : Prop :=
  ∀ ⦃s t⦄, FullRuns (body prefs) n r s false t → E s ∨ Firm n r s false t

namespace Strays

variable {E : State → Prop}

theorem any : Strays prefs n r fun _ => True := fun _ _ _ => .inl trivial

theorem andThen (hr : r.Meets .plain) (hq : Strays prefs n q E) :
    Strays prefs n (r.andThen q) fun s => ∃ m, FullRuns (body prefs) n r s true m ∧ E m := by
  intro s t h
  rcases h.rejected_andThen with hf | ⟨m, hf, hy⟩
  · exact .inr (Firm.of_plain hf hr).reject
  · exact (hq hy).imp (fun he => ⟨m, hf, he⟩) (.andThen hf hr)

theorem takeOr {c : Test} (hq : Strays prefs n q E) :
    Strays prefs n ((Rule.take c).orElse q) E := by
  intro s t h
  obtain ⟨m, hf, hn⟩ := h.rejected_orElse
  cases hf with
  | miss _ hp => exact (hq hn).imp_right (.otherwise hp (.inl rfl))

theorem declare {k : Symbol.Kind} {next : Bytes → Rule}
    (hnext : ∀ name, Strays prefs n (next name) E) : Strays prefs n (.declare k next) fun s =>
      ∃ name, s.identifier? = some name ∧ E (s.declare name k).advance := by
  intro s t h
  cases h with
  | nameless _ hn => exact .inr (.nameless hn)
  | @declare _ _ _ _ name _ _ hname h =>
    exact (hnext name h).imp (fun he => ⟨name, hname, he⟩) (.declare hname)

variable {name : Bytes}

theorem structureBody :
    Strays prefs n (Grammar.structureBody name) fun s => Begins .openBrace s.rest := by
  intro s t h
  rcases h.rejected_andThen with hf | ⟨m, hf, -⟩
  · cases hf with
    | miss _ hp => exact .inr (Firm.miss hp).reject
  · obtain ⟨x, hx, hk, -⟩ := hf.taken
    exact .inl ⟨x, _, hx, hk⟩

/-- The members of a structure are opened by a brace. -/
theorem begins_of_structureBody
    (h : FullRuns (body prefs) n (Grammar.structureBody name) s true t) :
    Begins .openBrace s.rest := by
  obtain ⟨m, hf, -⟩ := h.of_andThen
  obtain ⟨x, hx, hk, -⟩ := hf.taken
  exact ⟨x, _, hx, hk⟩

theorem structureEnd : Strays prefs n ((Grammar.structureBody name).andThen (.kind .semicolon))
    fun s => Begins .openBrace s.rest := by
  intro s t h
  rcases h.rejected_andThen with hbody | ⟨m, hbody, -⟩
  · exact (structureBody hbody).imp_right .reject
  · exact .inl (begins_of_structureBody hbody)

theorem specializationEnd : Strays prefs n
    (.andThen (.orElse (.peek (.kind .semicolon)) (Grammar.structureBody name)) (.kind .semicolon))
    fun s => Begins .openBrace s.rest := by
  intro s t h
  rcases h.rejected_andThen with hbody | ⟨m, hbody, hend⟩
  · obtain ⟨m, hpeek, hbody⟩ := hbody.rejected_orElse
    cases hpeek with
    | peek _ hp =>
      exact (structureBody hbody).imp_right fun h => (Firm.otherwise hp (.inr rfl) h).reject
  rcases hbody.of_orElse with hpeek | ⟨m', hpeek, hbody⟩
  · -- a semicolon that was seen is not missed
    cases hpeek with
    | peek _ hp =>
      cases hend with
      | miss _ hp' => cases hp.symm.trans hp'
  · cases hpeek
    exact .inl (begins_of_structureBody hbody)

end Strays

/-- The lexemes begin with `struct` and a name, and go on with the list given. -/
def Heads (u z : List Lexeme) : Prop :=
  ∃ x a, u = x :: a :: z ∧ x.Is .struct ∧ a.kind = .identifier

theorem heads_of_declare {w : Bytes} {kind : Symbol.Kind}
    (h : FullRuns (body prefs) n (.keyword .struct) s true m) (hw : m.identifier? = some w) :
    Heads s.rest (m.declare w kind).advance.rest := by
  obtain ⟨x, hx, hk, -⟩ := h.taken_keyword
  obtain ⟨a, u, ha⟩ := List.exists_cons_of_ne_nil (State.rest_ne_nil_of_identifier? hw)
  refine ⟨x, a, by simp [hx, ha, State.declare], hk, ?_⟩
  simp only [State.identifier?, ha, Option.ite_none_right_eq_some] at hw
  exact hw.1

namespace Strays

theorem structureDeclaration : Strays prefs n Grammar.structureDeclaration fun s =>
    ∃ z, Heads s.rest z ∧ Begins .openBrace z := by
  intro s t h
  have hstray := andThen (r := .keyword .struct) (by simp [Test.refuses, closers])
    (declare fun _ => takeOr structureEnd) h
  refine hstray.imp_left ?_
  rintro ⟨m, hm, w, hw, hb⟩
  exact ⟨_, heads_of_declare hm hw, hb⟩

/-- A specialization strays only behind a brace that follows its arguments. -/
theorem specialization : Strays prefs n Grammar.specialization fun s =>
    ∃ c z, Heads s.rest (c :: z) ∧ c.kind = .less ∧ ∃ m m', m.rest = z ∧
      FullRuns (body prefs) n templateArguments m true m' ∧ Begins .openBrace m'.rest := by
  intro s t h
  have hstray := andThen (r := .keyword .struct) (by simp [Test.refuses, closers])
    (declare fun _ => andThen (r := .kind .less) (by simp [Test.refuses, closers])
      (andThen (r := templateArguments) (by simp) specializationEnd)) h
  refine hstray.imp_left ?_
  rintro ⟨m, hm, w, hw, m₁, hless, m₂, hargs, hb⟩
  obtain ⟨c, hc, hk, -⟩ := hless.taken
  exact ⟨c, m₁.rest, hc ▸ heads_of_declare hm hw, hk, m₁, m₂, rfl, hargs, hb⟩

end Strays

/-! ### Procedures that begin like structures -/

/-- What follows the type of a procedure. -/
def procedureEnd : Rule :=
  .andThen procedureName (.andThen parameters (.orElse (.kind .semicolon) compound))

/-- In a procedure that begins with `struct` and a name, `struct` is the type. -/
theorem procedureEnd_of_heads (h : FullRuns (body prefs) n procedure s b t)
    (hs : Heads s.rest z) (hb : b = true ∨ t.overflow = none) :
    ∃ m a, m.rest = a :: z ∧ a.kind = .identifier ∧
      FullRuns (body prefs) n procedureEnd m b t := by
  obtain ⟨x, a, hs, hx, ha⟩ := hs
  have hconst : ¬ x.Is .const := hx.not_is (by decide)
  have hvoid {m : State} : ¬ FullRuns (body prefs) n (.keyword .void) s true m := by
    intro h
    obtain ⟨y, hy, hk, -⟩ := h.taken_keyword
    rw [hs] at hy
    obtain ⟨rfl, -⟩ := List.cons.inj hy
    exact hx.not_is (by decide) hk
  cases h with
  | @yes _ _ _ _ _ m _ _ htype hy =>
    rcases htype.of_orElse with hf | ⟨m', hf, hexpr⟩
    · exact absurd hf hvoid
    · cases hf
      obtain ⟨-, hm, -⟩ := hexpr.expression_name hs hx.1 hconst ha (.inl rfl)
      exact ⟨m, a, hm, ha, hy⟩
  | no htype hn =>
    cases hn
    obtain ⟨m', hf, hexpr⟩ := htype.rejected_orElse
    cases hf
    cases (hexpr.expression_name hs hx.1 hconst ha hb).1

/-- The parameters of a procedure are opened by a parenthesis. -/
theorem parameters_stuck (h : FullRuns (body prefs) n (.andThen parameters q) s b t)
    (hs : s.rest = c :: z) (hc : c.kind ≠ .openParen) : b = false ∧ t.rest ≠ [] := by
  have hopen {m : State} : ¬ FullRuns (body prefs) n (.kind .openParen) s true m := by
    intro h
    obtain ⟨y, hy, hk, -⟩ := h.taken
    rw [hs] at hy
    obtain ⟨rfl, -⟩ := List.cons.inj hy
    exact hc hk
  cases h with
  | yes hparameters =>
    obtain ⟨m, hf, -⟩ := hparameters.of_andThen
    exact absurd hf hopen
  | no hparameters hn =>
    cases hn
    rcases hparameters.rejected_andThen with hf | ⟨m, hf, -⟩
    · cases hf
      exact ⟨rfl, by simp [hs]⟩
    · exact absurd hf hopen

/-- The body of a procedure, or what stands for it, begins with a closer. -/
theorem procedureBody_stuck
    (h : FullRuns (body prefs) n (.orElse (.kind .semicolon) compound) s b t)
    (hs : s.rest = c :: z) (hc : c.kind ∉ closers) : b = false ∧ t.rest ≠ [] := by
  have hopen {l : Kind} (hl : l ∈ closers) {m : State} :
      ¬ FullRuns (body prefs) n (.kind l) s true m := by
    intro h
    obtain ⟨y, hy, hk, -⟩ := h.taken
    rw [hs] at hy
    obtain ⟨rfl, -⟩ := List.cons.inj hy
    exact hc (hk ▸ hl)
  cases h with
  | yes hf => exact absurd hf (hopen (by decide))
  | no hf hcompound =>
    cases hf
    cases hcompound with
    | yes hf => exact absurd hf (hopen (by decide))
    | no hf hn =>
      cases hf
      cases hn
      exact ⟨rfl, by simp [hs]⟩

/-- After its type a procedure is stuck, or its parameters follow a name or an operator. -/
theorem procedureEnd_cases (h : FullRuns (body prefs) n procedureEnd s b t)
    (hs : s.rest = a :: c :: z) : b = false ∧ t.rest ≠ [] ∨ ∃ m, FullRuns (body prefs) n
      (.andThen parameters (.orElse (.kind .semicolon) compound)) m b t ∧
        (m.rest = c :: z ∨ m.rest = z ∧ c.kind ≠ .openBrace) := by
  cases h with
  | @yes _ _ _ _ _ m _ _ hf hy =>
    refine .inr ⟨m, hy, ?_⟩
    cases hf with
    | yes hkey hop =>
      obtain ⟨y, hy, -, rfl⟩ := hkey.taken_keyword
      cases hop with
      | take _ hp =>
        refine .inr ⟨by simp [hs], fun hc => ?_⟩
        simp [State.passes, hs, Test.holds, hc] at hp
    | no hkey hname =>
      cases hkey
      cases hname with
      | declare _ hacc =>
        cases hacc
        exact .inl (by simp [State.declare, hs])
  | no hf hn =>
    cases hn
    refine .inl ⟨rfl, ?_⟩
    cases hf with
    | yes hkey hop =>
      obtain ⟨y, hy, -, rfl⟩ := hkey.taken_keyword
      cases hop
      simp [hs]
    | no hkey hname =>
      cases hkey
      cases hname with
      | declare _ hacc => cases hacc
      | nameless => simp [hs]

/-- A procedure cannot be read where a structure has its members. -/
theorem procedure_stuck_brace (h : FullRuns (body prefs) n procedure s b t)
    (hs : Heads s.rest z) (hz : Begins .openBrace z) (hb : b = true ∨ t.overflow = none) :
    b = false ∧ t.rest ≠ [] := by
  obtain ⟨c, z, rfl, hc⟩ := hz
  obtain ⟨m, a, hm, -, h⟩ := procedureEnd_of_heads h hs hb
  rcases procedureEnd_cases h hm with hstuck | ⟨m', h, hm' | ⟨-, hne⟩⟩
  · exact hstuck
  · exact parameters_stuck h hm' (by simp [hc])
  · exact absurd hc hne

/-- The last lexeme of what ends with a lexeme of the kind. -/
theorem Runs.last_taken (h : FullRuns (body prefs) n (r.andThen (.kind k)) s true t) :
    ∃ x, x :: t.rest <:+ s.rest ∧ x.kind = k := by
  obtain ⟨m, hf, hy⟩ := h.of_andThen
  obtain ⟨x, hx, hk, -⟩ := hy.taken
  exact ⟨x, hx ▸ hf.suffix, hk⟩

/-- A procedure cannot be read where template arguments end before a brace: its
parameters would end there too, but with another lexeme. -/
theorem procedure_stuck_arguments {m m' : State} (h : FullRuns (body prefs) n procedure s b t)
    (hs : Heads s.rest (c :: m.rest)) (hc : c.kind = .less)
    (hargs : FullRuns (body prefs) n templateArguments m true m')
    (hm' : Begins .openBrace m'.rest) (hb : b = true ∨ t.overflow = none) :
    b = false ∧ t.rest ≠ [] := by
  obtain ⟨p, a, hp, -, h⟩ := procedureEnd_of_heads h hs hb
  rcases procedureEnd_cases h hp with hstuck | ⟨p', h, hp' | ⟨hp', -⟩⟩
  · exact hstuck
  · exact parameters_stuck h hp' (by simp [hc])
  -- the parameters start where the arguments do
  have hskips : Skips closers p'.rest m'.rest := hp' ▸ hargs.skips_of_plain (by simp)
  obtain ⟨o, u, ho, hbrace⟩ := hm'
  have hcloses : p'.Closes := by
    obtain ⟨w, hw, -⟩ := hskips
    exact ⟨o, by simp [hw, ho], by simp [hbrace, closers]⟩
  cases h with
  | no hf hn =>
    cases hn
    exact ⟨rfl, (hf.open_of_plain plain_parameters hcloses).2.rest_ne_nil⟩
  | @yes _ _ _ _ _ l _ _ hf hy =>
    have hl : l.rest ≠ [] := (hf.open_of_plain plain_parameters hcloses).2.rest_ne_nil
    -- where the parameters end, no closer follows
    have hopen (y : Lexeme) (v : List Lexeme) (hy : l.rest = y :: v) : y.kind ∉ closers := by
      intro hk
      have hsame : m'.rest = l.rest := by
        rw [ho, hy]
        rw [ho] at hskips
        have hl' := hf.skips_of_plain plain_parameters
        rw [hy] at hl'
        exact hskips.unique hl' (by simp [hbrace, closers]) hk
      have hparen : ∃ x, x :: l.rest <:+ p'.rest ∧ x.kind = .closeParen := by
        obtain ⟨m₁, hopen, hinside⟩ := hf.of_andThen
        obtain ⟨x, hx, hk⟩ := hinside.last_taken
        exact ⟨x, hx.trans hopen.suffix, hk⟩
      have hgreater : ∃ x, x :: m'.rest <:+ m.rest ∧ x.kind = .greater := by
        cases hargs with
        | call _ hargs => exact hargs.last_taken
      obtain ⟨x, hx, hxk⟩ := hparen
      obtain ⟨y, hy, hyk⟩ := hgreater
      rw [hsame, ← hp'] at hy
      have := (List.suffix_of_suffix_length_le hx hy (by simp)).eq_of_length (by simp)
      obtain ⟨rfl, -⟩ := List.cons.inj this
      cases hxk.symm.trans hyk
    obtain ⟨y, v, hyv⟩ := List.exists_cons_of_ne_nil hl
    exact procedureBody_stuck hy hyv (hopen y v hyv)

end Recognizer.Grammar
