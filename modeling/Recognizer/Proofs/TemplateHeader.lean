import Recognizer.Proofs.Members

/-!
# Template headers

The parameters of a template stand between `<` and `>`, and a `>` is also an operator of
expressions. So the header of a template is read up to its own `>` just when the last of
its parameters has a name: an expression goes on at a `>`, and a name does not.
-/
namespace Recognizer.Grammar

/-! ### Where an expression ends -/

section Ends

variable {prefs : GrammarPreferences} {n : Nat} {r q : Rule} {s t : State}

/-- Accepted runs of the rule end before none of the kinds. -/
def Exhausts (prefs : GrammarPreferences) (n : Nat) (r : Rule) (ks : List Kind) : Prop :=
  ∀ ⦃s t⦄, FullRuns (body prefs) n r s true t → ∀ x ∈ t.rest.head?, x.kind ∉ ks

namespace Exhausts

variable {ks ls : List Kind}

theorem andThen (hq : Exhausts prefs n q ks) : Exhausts prefs n (r.andThen q) ks := by
  intro s t h
  obtain ⟨m, -, h⟩ := h.of_andThen
  exact hq h

theorem not_mem_of_passes (h : s.passes (.oneOf ks) = false) : ∀ x ∈ s.rest.head?, x.kind ∉ ks := by
  intro x hx
  obtain ⟨u, hu⟩ := List.head?_eq_some_iff.1 hx
  simpa [State.passes, hu, Test.holds] using h

theorem loop : Exhausts prefs n (.loop (.oneOf ks) r) ks := by
  intro s t h
  generalize hb : true = b at h
  induction h using Runs.loop_induction with
  | done s _ hq => exact not_mem_of_passes hq
  | again _ _ _ _ _ _ _ _ ih => exact ih hb
  | stop => cases hb

/-- Further operands end where the first one may end. -/
theorem rounds (hr : Exhausts prefs n r ls) (hs : ∀ x ∈ s.rest.head?, x.kind ∉ ls)
    (h : FullRuns (body prefs) n (.loop (.oneOf ks) (.andThen (.anyKind ks) r)) s true t) :
    ∀ x ∈ t.rest.head?, x.kind ∉ ls := by
  generalize hb : true = b at h
  induction h using Runs.loop_induction with
  | done => exact hs
  | again s m t b _ _ hround _ ih =>
    subst hb
    obtain ⟨u, -, hround⟩ := hround.of_andThen
    exact ih (hr hround) rfl
  | stop => cases hb

/-- A level goes on with its own operators, and each of its operands with those inside. -/
theorem operators (hr : Exhausts prefs n r ls) :
    Exhausts prefs n (.operators r ks) (ks ++ ls) := by
  intro s t h x hx hk
  obtain ⟨m, hfirst, h⟩ := h.of_andThen
  exact (List.mem_append.1 hk).elim (loop h x hx) (hr.rounds (hr hfirst) h x hx)

end Exhausts

/-- An accepted expression does not end before a lexeme that continues one. -/
theorem endsBefore_of_expression (h : FullRuns (body prefs) n expression s true t) :
    Phrase.expression.EndsBefore t.rest := by
  have hprefixed (n : Nat) : Exhausts prefs n prefixExpr suffixStarts := .andThen (.andThen .loop)
  cases h with
  | call _ h =>
    have hlevels := (hprefixed _).operators.operators.operators.operators.operators.operators h
    intro x hx
    exact hlevels x hx

end Ends

/-! ### Lists of parameters -/

/-- A parameter, with or without a name, before the lexemes it leaves. -/
inductive ReadsParameter (known : Bytes → Bool) : Bool → Nat → List Lexeme → List Lexeme →
    Prop where
  | bare {k s t} : Reads known .expression k s t → ReadsParameter known false k s t
  | named {k x s t} (hx : x.kind = .identifier) : Reads known .expression k s (x :: t) →
      ReadsParameter known true k s t

/-- Parameters with commas between them, of which the last has a name or has none. -/
inductive ReadsParameters (known : Bytes → Bool) (b : Bool) : Nat → List Lexeme → List Lexeme →
    Prop where
  | last {k s t} : ReadsParameter known b k s t → ReadsParameters known b k s t
  | link {c j k x s u t} (hx : x.kind = .comma) : ReadsParameter known c j s (x :: u) →
      ReadsParameters known b k u t → ReadsParameters known b (max j k) s t

section Parameters

variable {known : Bytes → Bool} {b : Bool} {k : Nat} {s t : List Lexeme} {x : Lexeme}

/-- What follows the lexeme behind a parameter does not matter. -/
theorem ReadsParameter.relocate (h : ReadsParameter known b k s (x :: t)) :
    ∃ w, s = w ++ x :: t ∧ ∀ v, ReadsParameter known b k (w ++ x :: v) (x :: v) := by
  cases h with
  | bare h =>
    obtain ⟨w, rfl, hw⟩ := h.relocate
    exact ⟨w, rfl, fun v => .bare (hw _ fun y hy hk => ⟨y, hy, hk⟩)⟩
  | @named _ y _ _ hy h =>
    obtain ⟨w, rfl, hw⟩ := h.relocate
    refine ⟨w ++ [y], by simp, fun v => ?_⟩
    rw [List.append_assoc]
    exact .named hy (hw _ fun z hz hk => ⟨z, hz, hk⟩)

/-- A list of parameters ends with its last parameter, in the place of which another one of
the same nesting may stand. -/
theorem ReadsParameters.exists_last (h : ReadsParameters known b k s t) :
    ∃ w u j, s = w ++ u ∧ ReadsParameter known b j u t ∧
      ∀ c u' t', ReadsParameter known c j u' t' → ReadsParameters known c k (w ++ u') t' := by
  induction h with
  | @last k s t h => exact ⟨[], s, k, rfl, h, fun c u' t' h' => .last h'⟩
  | @link c j k x s u t hx hfirst _ ih =>
    obtain ⟨w, rfl, hw⟩ := hfirst.relocate
    obtain ⟨w', u', i, rfl, hlast, hother⟩ := ih
    refine ⟨w ++ x :: w', u', i, by simp, hlast, fun c v t' h' => ?_⟩
    rw [List.append_assoc]
    exact .link hx (hw _) (hother c v t' h')

/-- The name of the last parameter may be left out. -/
theorem ReadsParameters.unnamed (h : ReadsParameters known true k s t) :
    ∃ w x, s = w ++ x :: t ∧ x.kind = .identifier ∧ ReadsParameters known false k w [] := by
  obtain ⟨w, u, j, rfl, hlast, hother⟩ := h.exists_last
  cases hlast with
  | @named _ x _ _ hx hexpr =>
    obtain ⟨u, rfl, hu⟩ := hexpr.relocate
    refine ⟨w ++ u, x, by simp, hx, hother _ _ _ (.bare ?_)⟩
    simpa using hu [] (by simp [Reads.Tame])

/-- A name may be put behind the last parameter if it has none. -/
theorem ReadsParameters.name (h : ReadsParameters known false k s []) (hx : x.kind = .identifier)
    (v : List Lexeme) : ReadsParameters known true k (s ++ x :: v) v := by
  obtain ⟨w, u, j, rfl, hlast, hother⟩ := h.exists_last
  rw [List.append_assoc]
  refine hother _ _ _ ?_
  cases hlast with
  | bare hexpr =>
    refine .named hx (hexpr.append ?_)
    rintro y ⟨rfl⟩
    rw [hx]
    decide

/-- Behind the name of the last parameter anything may follow. -/
theorem ReadsParameters.append (h : ReadsParameters known true k s []) (v : List Lexeme) :
    ReadsParameters known true k (s ++ v) v := by
  obtain ⟨w, x, rfl, hx, hbare⟩ := h.unnamed
  simpa using hbare.name hx v

end Parameters

section Runs

variable {E : Setting} {n j k : Nat} {b : Bool} {s t : List Lexeme} {m : State}

/-- The rule of a list of parameters behind its first one. -/
def furtherParameters : Rule := .loop (.kind .comma) (.andThen (.kind .comma) parameter)

/-- Nothing that follows is read as more of a parameter without a name. -/
def Bounds (b : Bool) (t : List Lexeme) : Prop :=
  b = false → Phrase.expression.EndsBefore t ∧ ∀ x ∈ t.head?, x.kind ≠ .identifier

theorem bounds_true : Bounds true t := fun h => absurd h (by decide)

theorem ReadsParameter.exact (h : ReadsParameter E.known b k s t) (ht : Bounds b t) :
    Exact E parameter k s t := by
  cases h with
  | bare hexpr =>
    obtain ⟨hend, hname⟩ := ht rfl
    exact .after (hexpr.exact trivial hend) (.no (Picks.kind .identifier) (by simpa using hname)
      .accept)
  | named hx hexpr =>
    have hend := hexpr.exact trivial (.cons (by rw [hx]; decide))
    exact .after hend (.yes (Picks.kind .identifier) (by simp [hx]) .accept)

theorem ReadsParameters.exact (h : ReadsParameters E.known b k s t) (ht : Bounds b t)
    (hcomma : ∀ x ∈ t.head?, x.kind ≠ .comma) : Exact E parameterList k s t := by
  -- the list is split behind its first parameter, as the rule reads it
  suffices ∃ i j u, k = max i j ∧ Exact E parameter i s u ∧ Exact E furtherParameters j u t by
    obtain ⟨i, j, u, rfl, hfirst, hothers⟩ := this
    exact .andThen hfirst hothers
  induction h with
  | @last k s t h =>
    refine ⟨k, 0, t, by simp, h.exact ht, .done ?_⟩
    cases t with
    | nil => rfl
    | cons x t => simpa [Test.holds] using hcomma
  | @link c j k x s u t hx hfirst _ ih =>
    obtain ⟨i, l, v, rfl, hsecond, hothers⟩ := ih ht hcomma
    have hbounds : Bounds c (x :: u) := fun _ => ⟨.cons (by rw [hx]; decide), by simp [hx]⟩
    refine ⟨j, max i l, x :: u, rfl, hfirst.exact hbounds, .again ?_ (.before ?_ hsecond) hothers⟩
    · simp [Test.holds, hx]
    · exact .pick (Picks.kind .comma) (by simp [hx])

/-- A parameter that is accepted fits into the room, and ends with its name or where its
expression ends. -/
theorem reads_of_parameter (h : FullRuns (body E.prefs) n parameter (E.ready s) true m) :
    ∃ b, ∃ k ≤ n, ∃ t, m = E.ready t ∧ ReadsParameter E.known b k s t ∧
      (b = false → Phrase.expression.EndsBefore t) := by
  obtain ⟨m', hexpr, hname⟩ := h.of_andThen
  have hend := endsBefore_of_expression hexpr
  obtain ⟨k, hk, u, rfl, hread⟩ := reads_of_expression hexpr
  cases hname with
  | yes hname haccept =>
    cases haccept
    obtain ⟨x, t, rfl, hx, rfl⟩ := (Picks.kind .identifier).of_accept hname
    exact ⟨true, k, hk, t, rfl, .named (by simpa using hx) hread, by simp⟩
  | no hname haccept =>
    cases haccept
    obtain ⟨-, rfl⟩ := (Picks.kind .identifier).of_reject hname
    exact ⟨false, k, hk, u, rfl, .bare hread, fun _ => hend⟩

theorem reads_of_furtherParameters {u : List Lexeme} {c : Bool}
    (hfirst : ReadsParameter E.known c j s u) (hj : j ≤ n)
    (hc : c = false → Phrase.expression.EndsBefore u)
    (h : FullRuns (body E.prefs) n furtherParameters (E.ready u) true m) :
    ∃ b, ∃ k ≤ n, ∃ t, m = E.ready t ∧ ReadsParameters E.known b k s t ∧
      (b = false → Phrase.expression.EndsBefore t) := by
  generalize hu : E.ready u = σ at h
  generalize hb : true = a at h
  induction h using Runs.loop_induction generalizing s u c j with
  | done σ => exact ⟨c, j, hj, u, hu.symm, .last hfirst, hc⟩
  | again σ μ τ a _ _ hround _ ih =>
    subst hu
    obtain ⟨m', hcomma, hround⟩ := hround.of_andThen
    obtain ⟨x, v, rfl, hx, rfl⟩ := (Picks.kind .comma).of_accept hcomma
    obtain ⟨d, i, hi, w, rfl, hsecond, hd⟩ := reads_of_parameter hround
    obtain ⟨b, k, hk, t, rfl, hothers, hend⟩ := ih hsecond hi hd rfl hb
    exact ⟨b, max j k, by omega, t, rfl, .link (by simpa using hx) hfirst hothers, hend⟩
  | stop => cases hb

/-- So is a list of parameters. -/
theorem reads_of_parameterList
    (h : FullRuns (body E.prefs) n parameterList (E.ready s) true m) :
    ∃ b, ∃ k ≤ n, ∃ t, m = E.ready t ∧ ReadsParameters E.known b k s t ∧
      (b = false → Phrase.expression.EndsBefore t) := by
  obtain ⟨m', hfirst, hothers⟩ := h.of_andThen
  obtain ⟨c, j, hj, u, rfl, hfirst, hc⟩ := reads_of_parameter hfirst
  exact reads_of_furtherParameters hfirst hj hc hothers

end Runs

/-! ### The closing bracket -/

/-- A list of parameters begins with the operand of its first one. -/
theorem ReadsParameters.operand_start {known : Bytes → Bool} {b : Bool} {k : Nat}
    {s t : List Lexeme} (h : ReadsParameters known b k s t) :
    ∃ x u, s = x :: u ∧ x.kind ∈ operandStarts := by
  have hfirst {c : Bool} {j : Nat} {u : List Lexeme} (h : ReadsParameter known c j s u) :
      ∃ x u, s = x :: u ∧ x.kind ∈ operandStarts := by
    cases h with
    | bare h | named _ h => exact h.operand_start rfl
  cases h with
  | last h | link _ h _ => exact hfirst h

/-- The header of a template. -/
def headerOf (t l : Lexeme) (P : List Lexeme) (g : Lexeme) (rest : List Lexeme) : List Lexeme :=
  t :: l :: (P ++ g :: rest)

section Header

variable {E : Setting} {n k : Nat} {t l g : Lexeme} {P rest : List Lexeme} {m : State}

/-- A header is read up to its closing bracket if its list of parameters is. -/
theorem ReadsParameters.header (ht : t.Is .template) (hl : l.kind = .less) (hg : g.kind = .greater)
    (hrest : ∀ x ∈ rest.head?, ¬ x.Is .requires)
    (h : ReadsParameters E.known true k (P ++ g :: rest) (g :: rest)) :
    Exact E templateHeader k (headerOf t l P g rest) rest := by
  obtain ⟨x, u, hx, hstart⟩ := h.operand_start
  have hpeek : (Test.kind .greater).holds E.table (P ++ g :: rest) = false := by
    rw [hx]
    refine beq_eq_false_iff_ne.2 fun hk => ?_
    rw [hk] at hstart
    exact absurd hstart (by decide)
  have hlist := h.exact (E := E) bounds_true (by simp [hg])
  have hend : Exact E (.branch (.keyword .requires) condition .accept) 0 rest rest :=
    .no (Picks.keyword .requires) (by simpa [Lexeme.Is] using hrest) .accept
  refine .before (.pick (Picks.keyword .template) (by simpa [Lexeme.Is] using ht)) ?_
  refine .before (.pick (Picks.kind .less) (by simp [hl])) ?_
  refine .after (.peekNo hpeek hlist) ?_
  exact .before (.pick (Picks.kind .greater) (by simp [hg])) hend

/-- Of two ends of one list that are equally long the first lexemes agree. -/
theorem head_eq_of_suffix {x y : Lexeme} {w : List Lexeme} (hx : x :: rest <:+ w)
    (hy : y :: rest <:+ w) : x = y := by
  have hle := List.suffix_of_suffix_length_le hx hy (by simp)
  exact (List.cons.inj (hle.eq_of_length (by simp))).1

/-- A condition ends with its parenthesis. -/
theorem closeParen_of_condition {s t : State} (h : FullRuns (body E.prefs) n condition s true t) :
    ∃ c, c.kind = .closeParen ∧ c :: t.rest <:+ s.rest := by
  obtain ⟨m₁, hopen, h⟩ := h.of_andThen
  obtain ⟨m₂, hexpr, hclose⟩ := h.of_andThen
  obtain ⟨c, hc, hkind, rfl⟩ := hclose.taken
  refine ⟨c, hkind, ?_⟩
  rw [← hc]
  exact hexpr.suffix.trans hopen.suffix

/-- A header that is read up to its closing bracket has its list of parameters end there, and
that with a name: an expression would have gone on at the bracket. -/
theorem reads_of_templateHeader (hg : g.kind = .greater)
    (hP : ∃ x u, P = x :: u ∧ x.kind ∈ operandStarts)
    (h : FullRuns (body E.prefs) n templateHeader (E.ready (headerOf t l P g rest)) true m)
    (hm : m.rest = rest) :
    ∃ k ≤ n, ReadsParameters E.known true k (P ++ g :: rest) (g :: rest) := by
  obtain ⟨m₁, htemplate, h⟩ := h.of_andThen
  obtain ⟨_, _, hcons, -, rfl⟩ := (Picks.keyword .template).of_accept htemplate
  obtain ⟨rfl, rfl⟩ := List.cons.inj hcons
  obtain ⟨m₂, hless, h⟩ := h.of_andThen
  obtain ⟨_, _, hcons, -, rfl⟩ := (Picks.kind .less).of_accept hless
  obtain ⟨rfl, rfl⟩ := List.cons.inj hcons
  obtain ⟨m₃, hlist, h⟩ := h.of_andThen
  obtain ⟨m₄, hgreater, hend⟩ := h.of_andThen
  -- the first parameter does not begin with the bracket
  replace hlist : FullRuns (body E.prefs) n parameterList (E.ready (P ++ g :: rest)) true m₃ := by
    obtain ⟨x, u, rfl, hx⟩ := hP
    rcases Runs.of_when (c := .kind .greater) hlist with ⟨hp, -⟩ | ⟨-, hlist⟩
    · rw [eq_of_beq (show (x.kind == Kind.greater) = true from hp)] at hx
      exact absurd hx (by decide)
    · exact hlist
  have hsuffix := hlist.suffix
  obtain ⟨b, k, hk, u, rfl, hread, hends⟩ := reads_of_parameterList hlist
  obtain ⟨g', v, rfl, hg', rfl⟩ := (Picks.kind .greater).of_accept hgreater
  have hclosing : g :: rest <:+ P ++ g :: rest := List.suffix_append _ _
  cases hend with
  | yes hrequires hcondition =>
    -- the condition ends where the header does, but with another lexeme
    obtain ⟨c, hc, hlast⟩ := closeParen_of_condition hcondition
    rw [hm] at hlast
    replace hlast := (hlast.trans hrequires.suffix).trans ((List.suffix_cons _ _).trans hsuffix)
    rw [head_eq_of_suffix hlast hclosing, hg] at hc
    cases hc
  | no hrequires haccept =>
    obtain ⟨-, rfl⟩ := (Picks.keyword .requires).of_reject hrequires
    cases haccept
    obtain rfl : v = rest := hm
    obtain rfl := head_eq_of_suffix hsuffix hclosing
    cases b with
    | true => exact ⟨k, hk, hread⟩
    | false =>
      refine absurd ?_ (hends rfl _ rfl)
      rw [hg]
      decide

/-- The bracket closes the header just when the last parameter has a name, which may then be
left out. -/
theorem closes_iff (hP : FullRuns (body E.prefs) n parameterList (E.ready P) true (E.ready [])) :
    (∃ k ≤ n, ReadsParameters E.known true k (P ++ g :: rest) (g :: rest)) ↔
      ∃ A x, P = A ++ [x] ∧ x.kind = .identifier ∧
        FullRuns (body E.prefs) n parameterList (E.ready A) true (E.ready []) := by
  constructor
  · rintro ⟨k, hk, h⟩
    obtain ⟨A, x, hA, hx, hread⟩ := h.unnamed
    refine ⟨A, x, ?_, hx, ?_⟩
    · exact List.append_cancel_right (by simpa using hA)
    · exact (hread.exact (by simp [Bounds, Phrase.EndsBefore]) (by simp)).fits n hk
  · rintro ⟨A, x, rfl, hx, hA⟩
    obtain ⟨b, k, hk, u, hu, hread, -⟩ := reads_of_parameterList hA
    obtain rfl : u = [] := (congrArg State.rest hu).symm
    cases b with
    | true =>
      -- the list would end before the last name
      have hshort := (hread.append [x]).exact (E := E) bounds_true (by simp [hx])
      cases ((hshort.fits n hk).unique hP).2
    | false => exact ⟨k, hk, by simpa using hread.name hx (g :: rest)⟩

end Header

end Recognizer.Grammar

namespace Recognizer.Parser

open Grammar

theorem productive_parameterList : parameterList.Meets .productive := by
  simp [parameterList, parameter, expression]

/-- A list of parameters is read in full just when its run ends at the end. -/
theorem readsFully_parameterList {p : Parser} (hp : p.state.overflow = none) {ts : List Lexeme} :
    (∃ q, p.ReadsFully parameterList ts q) ↔ FullRuns (body p.preferences) p.room parameterList
      ((Setting.ofParser p).ready ts) true ((Setting.ofParser p).ready []) := by
  constructor
  · rintro ⟨q, hq, hrest, -⟩
    have hrun := runs_apply productive_parameterList hq
    rw [← Setting.ready_ofParser hp] at hrun
    obtain ⟨-, -, -, u, hu, -⟩ := reads_of_parameterList (E := .ofParser p) hrun
    rw [hu] at hrun hrest
    obtain rfl : u = [] := hrest
    exact hrun
  · intro hrun
    rw [Setting.ready_ofParser hp] at hrun
    have hperform := (perform_eq_iff productive_parameterList).2 hrun
    refine ⟨_, readsFully_snd ?_⟩
    rw [depthExceeded_eq_false_iff, answer_apply, state_apply]
    exact ⟨congrArg Prod.fst hperform, congrArg (·.2.rest) hperform,
      congrArg (·.2.overflow) hperform⟩

/-- The list of parameters ends with a name, before which it is accepted as well. -/
def NamesLast (p : Parser) (P : List Lexeme) : Prop :=
  ∃ A x, P = A ++ [x] ∧ x.kind = .identifier ∧ ∃ q, p.ReadsFully parameterList A q

/-- A header is read up to its closing bracket just when the last of its parameters has a
name. Let a list of parameters be accepted in full. Then the header made of it is accepted up
to the bracket, if no `requires` follows, exactly when the list ends with a name before
which it is accepted in full as well; and then the depth guard does not fire. -/
theorem accepts_templateHeader_iff (p q : Parser) (t l g : Lexeme) (P rest : List Lexeme)
    (ht : t.Is .template) (hl : l.kind = .less) (hg : g.kind = .greater)
    (hrest : ∀ x ∈ rest.head?, ¬ x.Is .requires) (hP : p.ReadsFully parameterList P q) :
    (((p.reading (headerOf t l P g rest)).apply templateHeader).1 = true ∧
        ((p.reading (headerOf t l P g rest)).apply templateHeader).2.state.rest = rest ↔
      p.NamesLast P) ∧
    (p.NamesLast P →
      ((p.reading (headerOf t l P g rest)).apply templateHeader).2.depthExceeded = false) := by
  have hp : p.state.overflow = none :=
    (runs_apply productive_parameterList hP.1).overflow_eq_none
      (depthExceeded_eq_false_iff.1 hP.2.2)
  have hlist := (readsFully_parameterList hp).1 ⟨q, hP⟩
  have hnames : p.NamesLast P ↔ ∃ k ≤ p.room,
      ReadsParameters (Setting.ofParser p).known true k (P ++ g :: rest) (g :: rest) := by
    simp only [NamesLast, readsFully_parameterList hp]
    exact (closes_iff (E := .ofParser p) hlist).symm
  -- what the header does is a run from the setting of the parser
  generalize ha : (p.reading (headerOf t l P g rest)).apply templateHeader = a
  obtain ⟨b, q'⟩ := a
  have hrun := runs_apply productive_templateHeader ha
  rw [← Setting.ready_ofParser hp] at hrun
  have haccepted (h : p.NamesLast P) : true = b ∧ (Setting.ofParser p).ready rest = q'.state := by
    obtain ⟨k, hk, hread⟩ := hnames.1 h
    exact ((hread.header ht hl hg hrest).fits _ hk).unique hrun
  refine ⟨⟨?_, ?_⟩, ?_⟩
  · rintro ⟨rfl, hclosed⟩
    obtain ⟨_, _, -, _, -, hread, -⟩ := reads_of_parameterList (E := .ofParser p) hlist
    exact hnames.2 (reads_of_templateHeader (E := .ofParser p) hg hread.operand_start hrun hclosed)
  · intro h
    obtain ⟨rfl, hstate⟩ := haccepted h
    exact ⟨rfl, congrArg State.rest hstate.symm⟩
  · intro h
    rw [depthExceeded_eq_false_iff, ← (haccepted h).2]
    rfl

/-- A header of which each parameter has a name. -/
def namedHeader : Parser := before "template <typename T, int n> void f();"

theorem namedHeader_closes : (namedHeader.apply templateHeader).1 = true ∧
    (namedHeader.apply templateHeader).2.state.rest = namedHeader.state.rest.drop 8 := by
  have hparts : namedHeader.state.rest = headerOf
      ⟨.identifier, 0, Keyword.template.bytes⟩ ⟨.less, 9, [60]⟩
      ((namedHeader.state.rest.drop 2).take 5) ⟨.greater, 27, [62]⟩
      (namedHeader.state.rest.drop 8) := by decide +kernel
  have hiff := accepts_templateHeader_iff namedHeader _ ⟨.identifier, 0, Keyword.template.bytes⟩
    ⟨.less, 9, [60]⟩ ⟨.greater, 27, [62]⟩ ((namedHeader.state.rest.drop 2).take 5)
    (namedHeader.state.rest.drop 8) ⟨rfl, rfl⟩ rfl rfl (by decide +kernel)
    (readsFully_snd (by decide +kernel))
  rw [← hparts] at hiff
  refine hiff.1.2 ⟨(namedHeader.state.rest.drop 2).take 4, ⟨.identifier, 26, [110]⟩,
    by decide +kernel, rfl, _, readsFully_snd (by decide +kernel)⟩

/-- A header of which the only parameter has no name. -/
def unnamedHeader : Parser := before "template <T> void f();"

/-- Its parameter is accepted by itself, and the header is rejected. -/
theorem unnamedHeader_not_closed : ∃ t l g P rest q,
    t.Is .template ∧ l.kind = .less ∧ g.kind = .greater ∧ P ≠ [] ∧
    (∀ x ∈ rest.head?, ¬ x.Is .requires) ∧
    unnamedHeader.state.rest = headerOf t l P g rest ∧
    unnamedHeader.ReadsFully parameterList P q ∧
    (unnamedHeader.apply templateHeader).1 = false ∧
    (unnamedHeader.apply templateHeader).2.depthExceeded = false := by
  refine ⟨⟨.identifier, 0, Keyword.template.bytes⟩, ⟨.less, 9, [60]⟩, ⟨.greater, 11, [62]⟩,
    (unnamedHeader.state.rest.drop 2).take 1, unnamedHeader.state.rest.drop 4, _,
    ⟨rfl, rfl⟩, rfl, rfl, ?_, ?_, ?_, readsFully_snd ?_, ?_⟩ <;> decide +kernel

end Recognizer.Parser
