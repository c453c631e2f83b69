import Recognizer.Proofs.Conditional
import Recognizer.Proofs.Declarations

/-!
# Initialized constructions

Preferences that refuse initializations differ from those that admit them in one form of
a statement. Where a construction with an initialization is admitted, it is tried before
the control statements, and it may read lexemes that would otherwise be read as one:
`while (c) x = 1;` is both. The control statement then ends at the same semicolon, unless
it is a conditional with a second branch or a loop that ends with its condition.
-/
namespace Recognizer

namespace GrammarPreferences

/-- The preferences with initializations refused. -/
def strict (prefs : GrammarPreferences) : GrammarPreferences :=
  { prefs with rejectInitialization := true }

/-- The preferences with initializations admitted. -/
def lenient (prefs : GrammarPreferences) : GrammarPreferences :=
  { prefs with rejectInitialization := false }

end GrammarPreferences

namespace Grammar

variable {prefs prefs' : GrammarPreferences} {seen : Test → Prop} {n k : Nat} {r : Rule}
  {s t t' m : State} {b : Bool} {E : Setting} {u v : List Lexeme}

/-- Reads `identifier initialization ";"` -/
def valued : Rule := .inOrder [.kind .identifier, initialValue, .kind .semicolon]

/-- Reads `expression identifier initialization ";"` -/
def initialized : Rule := .andThen expression valued

theorem initialization_strict :
    initialization prefs.strict = .andThen initialValue .reject := rfl

/-- No initialization is accepted where they are refused. -/
theorem not_initialization_strict
    (h : FullRuns (body prefs') n (initialization prefs.strict) s true t) : False := by
  rw [initialization_strict] at h
  obtain ⟨m, -, hreject⟩ := h.of_andThen
  cases hreject

/-- Where initializations are admitted, a construction comes out as before, or it is
accepted with its initialization. -/
theorem construction_lenient (h : FullRuns (body prefs') n (construction prefs.strict) s b t) :
    FullRuns (body prefs') n (construction prefs.lenient) s b t ∨
      b = false ∧ ∃ u, FullRuns (body prefs') n (construction prefs.lenient) s true u ∧
        FullRuns (body prefs') n initialized s true u ∧ u.overflow = t.overflow := by
  have hsemicolon {m u : State} (h : FullRuns (body prefs') n
      (.orElse (.peek (.kind .semicolon)) (initialization prefs.strict)) m true u) :
      FullRuns (body prefs') n
        (.orElse (.peek (.kind .semicolon)) (initialization prefs.lenient)) m true u := by
    rcases h.of_orElse with hpeek | ⟨m', -, hinit⟩
    · exact .yes hpeek .accept
    · exact (not_initialization_strict hinit).elim
  cases b with
  | true =>
    obtain ⟨m₁, hexpr, h⟩ := h.of_andThen
    obtain ⟨m₂, hname, h⟩ := h.of_andThen
    obtain ⟨m₃, hvalue, hend⟩ := h.of_andThen
    exact .inl (.yes hexpr (.yes hname (.yes (hsemicolon hvalue) hend)))
  | false =>
    rcases h.rejected_andThen with hexpr | ⟨m₁, hexpr, h⟩
    · exact .inl (.no hexpr .reject)
    rcases h.rejected_andThen with hname | ⟨m₂, hname, h⟩
    · exact .inl (.yes hexpr (.no hname .reject))
    rcases h.rejected_andThen with hvalue | ⟨m₃, hvalue, hend⟩
    · obtain ⟨m₃, hpeek, hinit⟩ := hvalue.rejected_orElse
      rw [initialization_strict] at hinit
      rcases hinit.rejected_andThen with hinit | ⟨m₄, hinit, hreject⟩
      · exact .inl (.yes hexpr (.yes hname (.no (.no hpeek hinit) .reject)))
      cases hreject
      have hinit' : FullRuns (body prefs') n
          (.orElse (.peek (.kind .semicolon)) (initialization prefs.lenient)) _ true t :=
        .no hpeek hinit
      cases hpeek
      -- the initialization is read, and a semicolon decides
      cases hp : t.passes (.kind .semicolon) with
      | true =>
        have hend : FullRuns (body prefs') n (.kind .semicolon) t true t.advance :=
          .take (Test.rest_ne_nil rfl hp) hp
        exact .inr ⟨rfl, t.advance, .yes hexpr (.yes hname (.yes hinit' hend)),
          .yes hexpr (.yes hname (.yes hinit hend)), rfl⟩
      | false =>
        exact .inl (.yes hexpr (.yes hname (.yes hinit' (.miss (fun _ => trivial) hp))))
    · exact .inl (.yes hexpr (.yes hname (.yes (hsemicolon hvalue) hend)))

/-- A state without a refused call is ready in some setting. -/
theorem Setting.exists_ready (ho : s.overflow = none) (prefs : GrammarPreferences) :
    ∃ (E : Setting) (u : List Lexeme), E.prefs = prefs ∧ E.ready u = s :=
  ⟨⟨prefs, s.size, s.table⟩, s.rest, rfl, ready_rest ho prefs⟩

theorem Exact.eq_of_accepted (h : Exact E r k u v)
    (hrun : FullRuns (body E.prefs) n r (E.ready u) true m) : m = E.ready v := by
  by_cases hk : k ≤ n
  · exact (hrun.unique (h.fits n hk)).2
  · obtain ⟨m', hm', -⟩ := h.deep n (by omega)
    cases (hrun.unique hm').1

theorem Exact.not_rejected (h : Exact E r k u v)
    (hrun : FullRuns (body E.prefs) n r (E.ready u) false m) (ho : m.overflow = none) : False := by
  by_cases hk : k ≤ n
  · cases (hrun.unique (h.fits n hk)).1
  · obtain ⟨m', hm', ho'⟩ := h.deep n (by omega)
    exact ho' ((hrun.unique hm').2 ▸ ho)

/-- A name with an initialization can be read as a call or as an assignment. -/
theorem exact_of_valued (h : FullRuns (body E.prefs) n valued (E.ready u) true t)
    (hconst : ∀ x ∈ u.head?, ¬ x.Is .const) :
    ∃ r ∈ [simple, assignment], ∃ k v, Exact E r k u v := by
  have hexpr : Recognizes E n expression .expression := (Recognizes.calls E n).1
  have hchain : Recognizes E n (Phrase.rule (.chain [.comma] .expression)) _ := hexpr.chain
  obtain ⟨m₁, hname, h⟩ := h.of_andThen
  obtain ⟨m₂, hvalue, hend⟩ := h.of_andThen
  obtain ⟨x, u, rfl, hx, rfl⟩ := (Picks.kind .identifier).of_accept hname
  replace hx : x.kind = .identifier := by simpa using hx
  replace hconst : ¬ x.Is .const := hconst x rfl
  cases hvalue with
  | yes hopen hlist =>
    obtain ⟨o, u, rfl, ho, rfl⟩ := (Picks.kind .openParen).of_accept hopen
    obtain ⟨m₃, hitems, hclose⟩ := hlist.of_andThen
    obtain ⟨m₄, hfirst, hmore⟩ := hitems.of_andThen
    obtain ⟨i, -, w, rfl, hread⟩ := hexpr hfirst
    obtain ⟨j, -, w, rfl, hreads⟩ := hchain hmore
    obtain ⟨c, w, rfl, hc, rfl⟩ := (Picks.kind .closeParen).of_accept hclose
    obtain ⟨z, v, rfl, hz, rfl⟩ := (Picks.kind .semicolon).of_accept hend
    have hargs := Reads.arguments (by simpa using hc) hread hreads
    obtain ⟨k, hk⟩ := reads_call hx hconst (by simpa using ho)
      (by rw [show z.kind = .semicolon by simpa using hz]; decide) hargs
    exact ⟨simple, by simp, k, v, hk.after (.pick (.kind .semicolon) hz)⟩
  | no hopen hother =>
    obtain ⟨-, rfl⟩ := (Picks.kind .openParen).of_reject hopen
    obtain ⟨m₃, hequals, hvalue⟩ := hother.of_andThen
    obtain ⟨e, u, rfl, he, rfl⟩ := (Picks.kind .equals).of_accept hequals
    obtain ⟨j, -, w, rfl, hread⟩ := hexpr hvalue
    obtain ⟨z, v, rfl, hz, rfl⟩ := (Picks.kind .semicolon).of_accept hend
    replace he : e.kind = .equals := by simpa using he
    have hname : Reads E.known .expression 1 (x :: e :: u) (e :: u) :=
      .of_prefixed (.unsigned (by simpa using hconst) (reads_name hx (by simp [Avoids, he])))
    refine ⟨assignment, by simp, _, v, .andThen (hname.exact trivial ?_) <|
      .before (.pick (.kind .equals) (by simp [he])) <|
        .after (hread.exact trivial ?_) (.pick (.kind .semicolon) hz)⟩
    · exact .cons (by rw [he]; decide)
    · exact .cons (by rw [show z.kind = .semicolon by simpa using hz]; decide)

/-- An initialized construction ends with the first closer, which is a semicolon. -/
theorem skips_of_initialized (h : FullRuns (body prefs) n initialized s true t) :
    ∃ y, Skips closers s.rest (y :: t.rest) ∧ y.kind = .semicolon := by
  obtain ⟨m₁, hexpr, h⟩ := h.of_andThen
  obtain ⟨m₂, hname, h⟩ := h.of_andThen
  obtain ⟨m₃, hinit, hend⟩ := h.of_andThen
  obtain ⟨y, hy, hk, -⟩ := hend.taken
  refine ⟨y, hy ▸ ?_, hk⟩
  exact ((hexpr.skips_of_plain plain_expression).trans (hname.skips_of_plain
    (by simp [Test.refuses, closers]))).trans (hinit.skips_of_plain plain_initialValue)

/-- What is read as a control statement or as a type definition begins with a brace or with
one of the keywords. -/
theorem controlOr_start {x : Lexeme}
    (h : FullRuns (body prefs) n ((Rule.attempt (control prefs)).orElse typeDefinition) s true t)
    (hs : s.rest = x :: u) : x.kind = .openBrace ∨
      ∃ w ∈ [Keyword.return_, .if_, .switch, .while_, .do_, .break_, .goto, .typedef], x.Is w := by
  have hkey (w : Keyword) : s.passes (.keyword w) = true ↔ x.Is w := by
    simp [State.passes, hs, Test.keyword, Test.holds, Lexeme.Is]
  have hbrace : s.passes (.kind .openBrace) = true ↔ x.kind = .openBrace := by
    simp [State.passes, hs, Test.holds]
  by_cases hall : ∀ c ∈ Closing.controlTests, s.passes c = false
  · have hcontrol : FullRuns (body prefs) n (control prefs) s false s :=
      Closing.control_rejects (fun _ _ => trivial) hall
    rcases h.of_orElse with hf | ⟨m, hf, htypedef⟩
    · cases hf with
      | keep hf => cases (hf.unique hcontrol).1
    · obtain ⟨m', htypedef, -⟩ := Runs.of_andThen (r := .keyword .typedef) htypedef
      obtain ⟨y, hy, hk, -⟩ := htypedef.taken_keyword
      cases hf
      obtain ⟨rfl, -⟩ := List.cons.inj (hs.symm.trans hy)
      exact .inr ⟨.typedef, by simp, hk⟩
  · simp only [Closing.controlTests, List.mem_cons, List.not_mem_nil, or_false, forall_eq_or_imp,
      forall_eq, ← Bool.not_eq_true, hkey, hbrace] at hall
    simp only [List.mem_cons, List.not_mem_nil, or_false, exists_eq_or_imp, exists_eq_left]
    grind

/-- A statement that begins with a name and an initialization is read as one of the forms
that are tried first. -/
theorem earlier_of_valued (h : FullRuns (body prefs) (n + 1) statement m true t)
    (ho : t.overflow = none) (hv : FullRuns (body prefs) k valued m true t') :
    ∃ r ∈ earlierForms prefs, FullRuns (body prefs) n r m true t := by
  obtain ⟨x, y, w, hw, hy⟩ : ∃ x y w, m.rest = x :: y :: w ∧ y.kind ≠ .colon := by
    obtain ⟨m₁, hname, h⟩ := hv.of_andThen
    obtain ⟨m₂, hinit, -⟩ := h.of_andThen
    obtain ⟨x, hx, -, -⟩ := hname.taken
    cases hinit with
    | yes hopen _ =>
      obtain ⟨o, ho, hk, -⟩ := hopen.taken
      exact ⟨x, o, _, ho ▸ hx, by simp [hk]⟩
    | no hopen hother =>
      cases hopen
      obtain ⟨m₃, hequals, -⟩ := hother.of_andThen
      obtain ⟨e, he, hk, -⟩ := hequals.taken
      exact ⟨x, e, _, he ▸ hx, by simp [hk]⟩
  rcases statement_cases h ho hw hy with ⟨-, hearlier⟩ | ⟨hrejects, hlater⟩
  · exact hearlier
  exfalso
  have hm : m.overflow = none := h.overflow_eq_none ho
  have hconst : ¬ x.Is .const := by
    intro hx
    rcases controlOr_start hlater hw with hbrace | ⟨w, hmem, hxw⟩
    · cases hx.1.symm.trans hbrace
    · simp only [List.mem_cons, List.not_mem_nil, or_false] at hmem
      rcases hmem with rfl | rfl | rfl | rfl | rfl | rfl | rfl | rfl <;>
        exact hx.not_is (by decide) hxw
  obtain ⟨E, u, rfl, rfl⟩ := Setting.exists_ready hm prefs
  obtain rfl : u = x :: y :: w := hw
  obtain ⟨r, hr, j, v, hexact⟩ := exact_of_valued hv (by simpa using hconst)
  have hmem : r ∈ earlierForms E.prefs := by
    simp only [earlierForms, List.mem_cons, List.not_mem_nil, or_false] at hr ⊢
    exact hr.imp_right .inl
  obtain ⟨u, hu, huo⟩ := hrejects r hmem
  exact hexact.not_rejected hu huo

/-- So is a statement that begins with neither a name nor a brace. -/
theorem earlier_of_start {x : Lexeme} (h : FullRuns (body prefs) (n + 1) statement m true t)
    (ho : t.overflow = none) (hm : m.rest = x :: u) (hname : x.kind ≠ .identifier)
    (hbrace : x.kind ≠ .openBrace) :
    ∃ r ∈ earlierForms prefs, FullRuns (body prefs) n r m true t := by
  cases h with
  | call _ h =>
    cases h with
    | yes hf _ =>
      cases hf with
      | keep hf =>
        obtain ⟨m', hx, -⟩ := hf.of_andThen
        obtain ⟨y, hy, hk, -⟩ := hx.taken
        obtain ⟨rfl, -⟩ := List.cons.inj (hm.symm.trans hy)
        exact absurd hk hname
    | no hf hn =>
      have hlabel : label.Meets .steady := by simp [label]
      obtain rfl := hf.eq_of_restore hlabel (hn.overflow_eq_none ho)
      rcases forms_cases hn ho with ⟨-, hearlier⟩ | ⟨-, hlater⟩
      · exact hearlier
      · rcases controlOr_start hlater hm with hx | ⟨w, -, hx⟩
        · exact absurd hx hbrace
        · exact absurd hx.1 hname

/-- From the first state no expression runs past the second one, if a name is next there. -/
def Halts (prefs : GrammarPreferences) (n : Nat) (s m : State) : Prop :=
  ∀ ⦃x w m'⦄, m.rest = x :: w → x.kind = .identifier →
    FullRuns (body prefs) n expression s true m' → m' = m

/-- A statement behind the start of an initialized construction is read as one of the forms
that are tried first, if no expression runs past the place where a name begins it. -/
theorem earlier_of_initialized (hskip : Skips closers s.rest m.rest)
    (hends : Halts prefs k s m)
    (h : FullRuns (body prefs) n statement m true t) (ho : t.overflow = none)
    (hi : FullRuns (body prefs) k initialized s true t') :
    ∃ j, ∃ r ∈ earlierForms prefs, FullRuns (body prefs) j r m true t := by
  obtain ⟨x, w, hm⟩ := List.exists_cons_of_ne_nil (closing_statement prefs n h).1.rest_ne_nil
  obtain ⟨n, rfl⟩ : ∃ j, n = j + 1 := by
    cases h with
    | call => exact ⟨_, rfl⟩
  refine ⟨n, ?_⟩
  by_cases hname : x.kind = .identifier
  · obtain ⟨m', hexpr, hvalued⟩ := hi.of_andThen
    obtain rfl := hends hm hname hexpr
    exact earlier_of_valued h ho hvalued
  · refine earlier_of_start h ho hm hname fun hbrace => ?_
    obtain ⟨y, hy, hk⟩ := skips_of_initialized hi
    rw [hm] at hskip
    obtain ⟨rfl, -⟩ := List.cons.inj
      (hskip.unique hy (by simp [hbrace, closers]) (by simp [hk, closers]))
    cases hbrace.symm.trans hk

/-- Then the statement ends where the construction does, and declares nothing. -/
theorem rest_eq_of_initialized (hskip : Skips closers s.rest m.rest)
    (hends : Halts prefs k s m)
    (h : FullRuns (body prefs) n statement m true t) (ho : t.overflow = none)
    (hi : FullRuns (body prefs) k initialized s true t') :
    t.rest = t'.rest ∧ t.table = m.table := by
  obtain ⟨j, r, hr, hrun⟩ := earlier_of_initialized hskip hends h ho hi
  obtain ⟨y, hy, hky⟩ := earlierForms_shuts hr hrun
  obtain ⟨z, hz, hkz⟩ := skips_of_initialized hi
  have hsame := (hskip.trans hy).unique hz hky (by simp [hkz, closers])
  exact ⟨(List.cons.inj hsame).2, hrun.table_eq (earlierForms_steady hr)⟩

/-- A keyword, other than `const`, is read as a name. -/
theorem halts_of_keyword {w : Keyword} (h : FullRuns (body prefs) n (.keyword w) s true m)
    (hw : Keyword.const.bytes ≠ w.bytes) (hs : s.overflow = none) : Halts prefs k s m := by
  obtain ⟨E, u, rfl, rfl⟩ := Setting.exists_ready hs prefs
  intro x v m' hm hx hexpr
  obtain ⟨i, u, rfl, hi, rfl⟩ := (Picks.keyword w).of_accept h
  replace hi : i.Is w := by simpa [Lexeme.Is] using hi
  obtain rfl : u = x :: v := hm
  have hconst : ¬ i.Is .const := hi.not_is hw.symm
  have hread : Reads E.known .expression 1 (i :: x :: v) (x :: v) :=
    .of_prefixed (.unsigned (by simpa using hconst) (reads_name hi.1 (by simp [Avoids, hx])))
  exact (hread.exact trivial (.cons (by rw [hx]; decide))).eq_of_accepted hexpr

/-- With a condition in parentheses behind it, it is read as a call. -/
theorem halts_of_condition {w : Keyword}
    (h : FullRuns (body prefs) n ((Rule.keyword w).andThen condition) s true m)
    (hw : Keyword.const.bytes ≠ w.bytes) (hs : s.overflow = none) : Halts prefs k s m := by
  obtain ⟨E, u, rfl, rfl⟩ := Setting.exists_ready hs prefs
  intro x v m' hm hx hexpr
  obtain ⟨m₁, hkey, hcond⟩ := h.of_andThen
  obtain ⟨m₂, hopen, hcond⟩ := hcond.of_andThen
  obtain ⟨i, u, rfl, hi, rfl⟩ := (Picks.keyword w).of_accept hkey
  replace hi : i.Is w := by simpa [Lexeme.Is] using hi
  have hconst : ¬ i.Is .const := hi.not_is hw.symm
  obtain ⟨o, u, rfl, ho, rfl⟩ := (Picks.kind .openParen).of_accept hopen
  obtain ⟨j, -, c, v', rfl, hc, hread⟩ := (Recognizes.calls E n).1.enclosed hcond
  obtain rfl : v' = x :: v := hm
  obtain ⟨i', hexact⟩ := reads_call hi.1 hconst (by simpa using ho) (by rw [hx]; decide)
    (.arguments hc hread .last)
  exact hexact.eq_of_accepted hexpr

/-! ### Control statements -/

/-- Between the two lists stands the start of a conditional or of a loop that goes on in the
second one. -/
def Resumes (u v : List Lexeme) : Prop :=
  ∃ x ∈ u.head?, ∃ y ∈ v.head?, x.Is .if_ ∧ y.Is .else_ ∨ x.Is .do_ ∧ y.Is .while_

/-- The control statements. -/
def controlForms : List Rule :=
  [returnStatement, conditional, switchStatement, whileStatement, doStatement, compound,
    breakStatement, gotoStatement]

theorem control_accepted (h : FullRuns (body prefs) n (control prefs) s true t) :
    ∃ r ∈ controlForms, FullRuns (body prefs) n r s true t := by
  have when {c : Test} {r q : Rule} (hr : r ∈ controlForms)
      (hq : FullRuns (body prefs) n q s true t →
        ∃ r ∈ controlForms, FullRuns (body prefs) n r s true t)
      (h : FullRuns (body prefs) n (.when c r q) s true t) :
      ∃ r ∈ controlForms, FullRuns (body prefs) n r s true t := by
    cases h with
    | yes hf hy =>
      cases hf
      exact ⟨r, hr, hy⟩
    | no hf hn =>
      cases hf
      exact hq hn
  have hreject (h : FullRuns (body prefs) n .reject s true t) :
      ∃ r ∈ controlForms, FullRuns (body prefs) n r s true t := by cases h
  refine when (by simp [controlForms]) (when (by simp [controlForms]) <|
    when (by simp [controlForms]) <| when (by simp [controlForms]) <|
      when (by simp [controlForms]) <| when (by simp [controlForms]) <|
        when (by simp [controlForms]) ?_) h
  split
  · exact when (by simp [controlForms]) hreject
  · exact hreject

theorem Shuts.returnStatement : Shuts prefs n Grammar.returnStatement :=
  .andThen (by simp [Test.refuses, closers]) <| .andThen (by simp) (.kind (by decide))

theorem Shuts.breakStatement : Shuts prefs n Grammar.breakStatement :=
  .andThen (by simp [Test.refuses, closers]) (.kind (by decide))

theorem Shuts.gotoStatement : Shuts prefs n Grammar.gotoStatement :=
  .andThen (by simp [Test.refuses, closers]) <| .andThen (by simp [Test.refuses, closers])
    (.kind (by decide))

section Initialized

variable (hi : FullRuns (body prefs) k Grammar.initialized s true t')
include hi

/-- A statement that ends with the first closer ends as the construction does. -/
theorem Shuts.of_initialized (hr : Shuts prefs n r) (hsteady : r.Meets .steady)
    (h : FullRuns (body prefs) n r s true t) : t.rest = t'.rest ∧ t.table = s.table := by
  obtain ⟨y, hy, hky⟩ := hr h
  obtain ⟨z, hz, hkz⟩ := skips_of_initialized hi
  exact ⟨(List.cons.inj (hy.unique hz hky (by simp [hkz, closers]))).2, h.table_eq hsteady⟩

/-- No brace is opened before the construction ends. -/
theorem not_openBrace_of_initialized (hm : Skips closers s.rest m.rest)
    (h : FullRuns (body prefs) n (.kind .openBrace) m true t) : False := by
  obtain ⟨y, hy, hky, -⟩ := h.taken
  obtain ⟨z, hz, hkz⟩ := skips_of_initialized hi
  rw [hy] at hm
  obtain ⟨rfl, -⟩ := List.cons.inj (hm.unique hz (by simp [hky, closers]) (by simp [hkz, closers]))
  cases hky.symm.trans hkz

/-- A statement behind a condition ends as the construction does. -/
theorem statement_of_initialized {w : Keyword} (hw : Keyword.const.bytes ≠ w.bytes)
    (hcond : FullRuns (body prefs) n ((Rule.keyword w).andThen condition) s true m)
    (h : FullRuns (body prefs) n statement m true t) (ho : t.overflow = none) :
    t.rest = t'.rest ∧ t.table = s.table := by
  have hplain : ((Rule.keyword w).andThen condition).Meets .plain := by
    simp [Test.refuses, closers]
  have hs : s.overflow = none := hcond.overflow_eq_none (h.overflow_eq_none ho)
  obtain ⟨hrest, htable⟩ := rest_eq_of_initialized (hcond.skips_of_plain hplain)
    (halts_of_condition hcond hw hs) h ho hi
  exact ⟨hrest, htable.trans (hcond.table_eq hplain.steady)⟩

/-- A conditional has no second branch there. -/
theorem conditional_of_initialized (h : FullRuns (body prefs) n conditional s true t)
    (ho : t.overflow = none) (hfree : ¬ Resumes s.rest t'.rest) :
    t.rest = t'.rest ∧ t.table = s.table := by
  obtain ⟨m₁, hkey, h⟩ := h.of_andThen
  obtain ⟨m₂, hcond, h⟩ := h.of_andThen
  obtain ⟨m₃, hstatement, h⟩ := h.of_andThen
  have hends := statement_of_initialized hi (by decide) (.yes hkey hcond) hstatement
    (h.overflow_eq_none ho)
  cases h with
  | no helse hacc =>
    cases helse
    cases hacc
    exact hends
  | yes helse _ =>
    obtain ⟨x, hx, hif, -⟩ := hkey.taken_keyword
    obtain ⟨y, hy, helse, -⟩ := helse.taken_keyword
    exact absurd ⟨x, by simp [hx], y, by simp [← hends.1, hy], .inl ⟨hif, helse⟩⟩ hfree

/-- A loop that begins with its statement goes on behind it. -/
theorem doStatement_of_initialized (h : FullRuns (body prefs) n doStatement s true t)
    (ho : t.overflow = none) : Resumes s.rest t'.rest := by
  obtain ⟨m₁, hkey, h⟩ := h.of_andThen
  have hhalts : Halts prefs k s m₁ :=
    halts_of_keyword hkey (by decide) (hkey.overflow_eq_none (h.overflow_eq_none ho))
  have hskip := hkey.skips_of_plain (by simp [Test.refuses, closers])
  obtain ⟨m₂, hstatement, h⟩ := h.of_andThen
  obtain ⟨hrest, -⟩ := rest_eq_of_initialized hskip hhalts hstatement (h.overflow_eq_none ho) hi
  obtain ⟨m₃, hwhile, -⟩ := h.of_andThen
  obtain ⟨x, hx, hdo, -⟩ := hkey.taken_keyword
  obtain ⟨y, hy, hwhile, -⟩ := hwhile.taken_keyword
  exact ⟨x, by simp [hx], y, by simp [← hrest, hy], .inr ⟨hdo, hwhile⟩⟩

/-- A control statement that is also an initialized construction ends as one, unless it is
a conditional or a loop that goes on behind it. -/
theorem control_of_initialized (h : FullRuns (body prefs) n (control prefs) s true t)
    (ho : t.overflow = none) (hfree : ¬ Resumes s.rest t'.rest) :
    t.rest = t'.rest ∧ t.table = s.table := by
  obtain ⟨r, hr, h⟩ := control_accepted h
  simp only [controlForms, List.mem_cons, List.not_mem_nil, or_false] at hr
  rcases hr with rfl | rfl | rfl | rfl | rfl | rfl | rfl | rfl
  · exact Shuts.returnStatement.of_initialized hi
      (by simp [returnStatement, plain_expression.steady]) h
  · exact conditional_of_initialized hi h ho hfree
  · obtain ⟨m₁, hkey, h⟩ := h.of_andThen
    obtain ⟨m₂, hcond, h⟩ := h.of_andThen
    obtain ⟨m₃, hbrace, -⟩ := h.of_andThen
    have hskip := (hkey.skips_of_plain (by simp [Test.refuses, closers])).trans
      (hcond.skips_of_plain plain_condition)
    exact (not_openBrace_of_initialized hi hskip hbrace).elim
  · obtain ⟨m₁, hkey, h⟩ := h.of_andThen
    obtain ⟨m₂, hcond, h⟩ := h.of_andThen
    exact statement_of_initialized hi (by decide) (.yes hkey hcond) h ho
  · exact absurd (doStatement_of_initialized hi h ho) hfree
  · obtain ⟨m₁, hbrace, -⟩ := h.of_andThen
    exact (not_openBrace_of_initialized hi (.refl _) hbrace).elim
  · exact Shuts.breakStatement.of_initialized hi (by simp [breakStatement]) h
  · exact Shuts.gotoStatement.of_initialized hi (by simp [gotoStatement]) h

end Initialized

/-! ### Type definitions -/

/-- Expressions take neither a closer nor an `=`. -/
theorem skips_of_expression (h : FullRuns (body prefs) n expression s b t) :
    Skips (.equals :: closers) s.rest t.rest := by
  have hadditive : additive.Meets (.avoiding (.equals :: closers)) := by
    simp [additive, multiplicative, prefixExpr, postfixExpr, suffixPart, primary, templateName,
      literal, basicType, arguments, expression, templateArguments, Rule.delimited,
      Rule.separated, Rule.operators, Test.refuses, closers, Rule.Demand.inner]
  refine h.skips (fun g hg => ?_) (.inl rfl)
  rcases hg with rfl | rfl
  · simpa [body, disjunction, conjunction, equality, relational, Rule.operators, Test.refuses,
      closers] using hadditive
  · simpa [body, closedAdditiveList, additiveList, Rule.separated, Test.refuses, closers]
      using hadditive

/-- The lexemes before the first closer. -/
def lead (u : List Lexeme) : List Lexeme := u.takeWhile (·.kind ∉ closers)

theorem lead_append {c : List Lexeme} {y : Lexeme} (hc : ∀ x ∈ c, x.kind ∉ closers)
    (hy : y.kind ∈ closers) : lead (c ++ y :: v) = c := by
  rw [lead, List.takeWhile_append_of_pos (by simpa using hc)]
  simp [hy]

/-- A type definition has no `=` and ends with a name. -/
theorem lead_of_typeDefinition (h : FullRuns (body prefs) n typeDefinition s true t) :
    (∀ x ∈ lead s.rest, x.kind ≠ .equals) ∧
      ∃ c x, lead s.rest = c ++ [x] ∧ x.kind = .identifier := by
  obtain ⟨m₁, hkey, h⟩ := h.of_andThen
  obtain ⟨m₂, hexpr, h⟩ := h.of_andThen
  obtain ⟨d, hd, hword, -⟩ := hkey.taken_keyword
  obtain ⟨c, hc, havoid⟩ := skips_of_expression hexpr
  cases h with
  | declare hname hend =>
    obtain ⟨a, ha, hka⟩ := State.rest_of_identifier? hname
    obtain ⟨y, hy, hky, -⟩ := hend.taken
    have hrest : s.rest = (d :: c ++ [a]) ++ y :: t.rest := by
      rw [hd, hc, ha, ← hy]
      simp [State.declare]
    have havoids : ∀ x ∈ d :: c ++ [a], x.kind ∉ .equals :: closers := by
      intro x hx
      rcases List.mem_cons.1 hx with rfl | hx
      · rw [hword.1]; decide
      rcases List.mem_append.1 hx with hx | hx
      · exact havoid x hx
      · rw [List.mem_singleton.1 hx, hka]; decide
    have hlead : lead s.rest = d :: c ++ [a] := by
      rw [hrest]
      refine lead_append (fun x hx hk => havoids x hx (List.mem_cons_of_mem _ hk)) ?_
      rw [hky]; decide
    refine ⟨fun x hx hk => havoids x (hlead ▸ hx) ?_, d :: c, a, hlead, hka⟩
    simp [hk]

/-- An initialization has an `=` or ends with a parenthesis. -/
theorem skips_of_initialValue (h : FullRuns (body prefs) n initialValue s true t) :
    ∃ d, s.rest = d ++ t.rest ∧ (∀ x ∈ d, x.kind ∉ closers) ∧
      ((∃ x ∈ d, x.kind = .equals) ∨ ∃ c x, d = c ++ [x] ∧ x.kind = .closeParen) := by
  obtain ⟨d, hd, hdc⟩ := h.skips_of_plain plain_initialValue
  refine ⟨d, hd, hdc, ?_⟩
  cases h with
  | yes hopen hlist =>
    obtain ⟨m, hitems, hclose⟩ := hlist.of_andThen
    obtain ⟨o, ho, -, -⟩ := hopen.taken
    obtain ⟨c, hc⟩ := hitems.suffix
    obtain ⟨p, hp, hkp, -⟩ := hclose.taken
    refine .inr ⟨o :: c, p, (List.append_left_inj t.rest).1 ?_, hkp⟩
    simp [← hd, ho, ← hc, hp]
  | no hopen hother =>
    cases hopen
    obtain ⟨m, hequals, hexpr⟩ := hother.of_andThen
    obtain ⟨e, he, hke, -⟩ := hequals.taken
    obtain ⟨c, hc⟩ := hexpr.suffix
    have hsplit : d = e :: c := by
      refine (List.append_left_inj t.rest).1 ?_
      simp [← hd, he, ← hc]
    exact .inl ⟨e, by simp [hsplit], hke⟩

/-- So has the construction. -/
theorem lead_of_initialized (h : FullRuns (body prefs) n initialized s true t) :
    (∃ x ∈ lead s.rest, x.kind = .equals) ∨
      ∃ c x, lead s.rest = c ++ [x] ∧ x.kind = .closeParen := by
  obtain ⟨m₁, hexpr, h⟩ := h.of_andThen
  obtain ⟨m₂, hname, h⟩ := h.of_andThen
  obtain ⟨m₃, hinit, hend⟩ := h.of_andThen
  obtain ⟨c, hc, hcc⟩ := hexpr.skips_of_plain plain_expression
  obtain ⟨a, ha, hka, -⟩ := hname.taken
  obtain ⟨z, hz, hkz, -⟩ := hend.taken
  obtain ⟨d, hd, hdc, hends⟩ := skips_of_initialValue hinit
  have hlead : lead s.rest = c ++ a :: d := by
    have hrest : s.rest = (c ++ a :: d) ++ z :: t.rest := by simp [hc, ha, hd, hz]
    rw [hrest]
    refine lead_append (fun x hx => ?_) (by rw [hkz]; decide)
    rcases List.mem_append.1 hx with hx | hx
    · exact hcc x hx
    rcases List.mem_cons.1 hx with rfl | hx
    · rw [hka]; decide
    · exact hdc x hx
  rw [hlead]
  rcases hends with ⟨x, hx, hk⟩ | ⟨d, x, rfl, hk⟩
  · exact .inl ⟨x, by simp [hx], hk⟩
  · exact .inr ⟨c ++ a :: d, x, by simp, hk⟩

/-- A type definition that is rejected has taken no closer. -/
theorem skips_of_typeDefinition (h : FullRuns (body prefs) n typeDefinition s false t) :
    Skips closers s.rest t.rest := by
  have hkeyword : (Rule.keyword .typedef).Meets .plain := by simp [Test.refuses, closers]
  rcases h.rejected_andThen with hkey | ⟨m₁, hkey, h⟩
  · exact hkey.skips_of_plain hkeyword
  refine (hkey.skips_of_plain hkeyword).trans ?_
  rcases h.rejected_andThen with hexpr | ⟨m₂, hexpr, h⟩
  · exact hexpr.skips_of_plain plain_expression
  refine (hexpr.skips_of_plain plain_expression).trans ?_
  cases h with
  | nameless => exact .refl _
  | declare hname hend =>
    cases hend
    exact .of_identifier? hname (by decide)

/-- What is an initialized construction is neither a type definition nor cut short as one. -/
theorem typeDefinition_of_initialized (hi : FullRuns (body prefs) k initialized s true t')
    (h : FullRuns (body prefs) n typeDefinition s b t) : b = false ∧ t.rest ≠ [] := by
  cases b with
  | true =>
    exfalso
    obtain ⟨hequals, c, x, hc, hx⟩ := lead_of_typeDefinition h
    rcases lead_of_initialized hi with ⟨y, hy, hk⟩ | ⟨d, y, hd, hk⟩
    · exact hequals y hy hk
    · have hxy : x = y := by simpa using (List.append_inj_right' (hc.symm.trans hd) rfl)
      rw [hxy, hk] at hx
      cases hx
  | false =>
    refine ⟨rfl, fun ht => ?_⟩
    obtain ⟨c, hc, hcc⟩ := skips_of_typeDefinition h
    obtain ⟨y, ⟨d, hd, -⟩, hk⟩ := skips_of_initialized hi
    refine hcc y ?_ (by rw [hk]; decide)
    rw [ht, List.append_nil] at hc
    rw [← hc, hd]
    simp

end Grammar
end Recognizer
