import Recognizer.Proofs.Exactness
import Recognizer.Proofs.Locality

/-!
# Conditionals compose

An accepted statement can stand as the first branch of a conditional: followed by
an `else` and another statement it is read as before, or else a conditional at its
end takes the `else` and the statement behind it. Keywords are not reserved, so the
conditional is read as one unless its lexemes begin with an expression statement,
an assignment or a construction, which are tried first.
-/
namespace Recognizer.Grammar

variable {prefs : GrammarPreferences} {n k : Nat} {r q : Rule} {e : Lexeme} {w : List Lexeme}

/-- An open run has the same course before other lexemes and in a larger room. -/
theorem Runs.lift {s t : State} {b : Bool} (h : OpenRuns (body prefs) n r s b t)
    (ht : t.overflow = none) (k : Nat) (v : List Lexeme) :
    FullRuns (body prefs) (n + k) r (s.extend v) b (t.extend v) :=
  (h.extend_of_open _).room_mono ht (Nat.le_add_right n k)

/-- From the state given, a statement uses up the lexemes in every room from `k` on. -/
def ReadsAll (prefs : GrammarPreferences) (k : Nat) (s : State) : Prop :=
  ∀ m, k ≤ m → ∃ t, FullRuns (body prefs) m statement s true t ∧ t.rest = [] ∧ t.overflow = none

/-- Before an `else` and another statement, the rule accepts what it accepts alone,
and stops before the `else` or uses up everything. -/
structure Hangs (prefs : GrammarPreferences) (k : Nat) (e : Lexeme) (w : List Lexeme) (n : Nat)
    (r : Rule) : Prop where
  closing : Closing prefs Closing.asksElse n r
  follow : ∀ ⦃s t⦄, FullRuns (body prefs) n r s true t → t.rest = [] → t.overflow = none →
    ReadsAll prefs k { t with rest := w } →
    ∃ t', FullRuns (body prefs) (n + k) r (s.extend (e :: w)) true t' ∧
      (t' = t.extend (e :: w) ∨ t'.rest = [] ∧ t'.overflow = none)

namespace Hangs

/-- A rule that asks nothing at its end stops before the `else`. -/
theorem of_closing (h : ∀ last, Closing prefs last n r) : Hangs prefs k e w n r where
  closing := h _
  follow s t hrun _ ho _ := by
    have hopen := (h fun _ => False).isOpen hrun
    exact ⟨_, hopen.lift ho k (e :: w), .inl rfl⟩

theorem andThen (hr : Local prefs n r) (hq : Hangs prefs k e w n q) :
    Hangs prefs k e w n (r.andThen q) where
  closing := hq.closing.andThen hr
  follow s t hrun ht ho hw := by
    obtain ⟨m, hf, hy⟩ := hrun.of_andThen
    have hopen := hr hf (hq.closing hy).1
    obtain ⟨t', hy', ht'⟩ := hq.follow hy ht ho hw
    exact ⟨t', .yes (hopen.lift (hy.overflow_eq_none ho) k _) hy', ht'⟩

theorem when {c : Test} (hr : Hangs prefs k e w n r) (hq : Hangs prefs k e w n q) :
    Hangs prefs k e w n (Rule.when c r q) where
  closing := hr.closing.when hq.closing
  follow s t hrun ht ho hw := by
    have hne := ((hr.closing.when hq.closing) hrun).1.rest_ne_nil
    have hpeek : (s.extend (e :: w)).passes c = s.passes c := Test.holds_append hne _
    rcases hrun.of_when with ⟨hp, hy⟩ | ⟨hp, hn⟩
    · obtain ⟨t', hy', ht'⟩ := hr.follow hy ht ho hw
      exact ⟨t', .yes (.peek (fun _ => trivial) (hpeek.trans hp)) hy', ht'⟩
    · obtain ⟨t', hn', ht'⟩ := hq.follow hn ht ho hw
      exact ⟨t', .no (.peek (fun _ => trivial) (hpeek.trans hp)) hn', ht'⟩

/-- A bounded attempt comes out as before. -/
theorem attemptOr (hr : Hangs prefs k e w n r) (hb : Bounded prefs r)
    (hq : Hangs prefs k e w n q) : Hangs prefs k e w n ((Rule.attempt r).orElse q) where
  closing := hr.closing.attemptOr hb hq.closing
  follow s t hrun ht ho hw := by
    rcases hrun.of_attemptOr with ⟨-, hf⟩ | ⟨m, hf, hn⟩
    · obtain ⟨t', hf', ht'⟩ := hr.follow hf ht ho hw
      exact ⟨t', .yes (.keep hf') .accept, ht'⟩
    · have hs : s.Closes := (hq.closing hn).1
      have hm : m.overflow = none := hn.overflow_eq_none ho
      obtain ⟨t', hn', ht'⟩ := hq.follow hn ht ho hw
      exact ⟨t', .no (.restore ((hb hf hs).lift hm k (e :: w))) hn', ht'⟩

theorem call {g : Guarded} (hbody : ∀ m, m + 1 = n → Hangs prefs k e w m (body prefs g)) :
    Hangs prefs k e w n (.call g) where
  closing := .call fun m hm => (hbody m hm).closing
  follow s t hrun ht ho hw := by
    cases hrun with
    | @call m _ _ _ _ hs hrun =>
      obtain ⟨t', hrun', ht'⟩ := (hbody _ rfl).follow hrun ht ho hw
      rw [Nat.add_right_comm]
      exact ⟨t', .call hs hrun', ht'⟩

/-- After a first branch the `else` and the statement behind it are taken, unless the
first branch has used up everything. -/
theorem takesElse {s t t' : State} (he : e.Is .else_) (ht : t.rest = [])
    (hw : ReadsAll prefs k { t with rest := w })
    (hs : FullRuns (body prefs) (n + k) statement s true t')
    (ht' : t' = t.extend (e :: w) ∨ t'.rest = [] ∧ t'.overflow = none) :
    ∃ u, FullRuns (body prefs) (n + k)
      (statement.andThen (.branch (.keyword .else_) statement .accept)) s true u ∧
      u.rest = [] ∧ u.overflow = none := by
  rcases ht' with rfl | ⟨hr', ho'⟩
  · obtain ⟨u, hu, hur, huo⟩ := hw (n + k) (Nat.le_add_left k n)
    have hnext : (t.extend (e :: w)).advance = { t with rest := w } := by
      simp [State.extend, State.advance, ht]
    have htake : FullRuns (body prefs) (n + k) (.keyword .else_) (t.extend (e :: w)) true
        { t with rest := w } := by
      rw [← hnext]
      refine .take (by simp) ?_
      simp [State.passes, Test.keyword, Test.holds, ht, he.1, he.2]
    exact ⟨u, .yes hs (.yes htake hu), hur, huo⟩
  · refine ⟨t', .yes hs (.no (.miss (fun _ => trivial) ?_) .accept), hr', ho'⟩
    simp [State.passes, Test.keyword, Test.holds, hr']

section Statements

variable (he : e.Is .else_) (hs : Hangs prefs k e w n statement)
include hs

theorem whileStatement : Hangs prefs k e w n Grammar.whileStatement :=
  andThen (.of_straight (by simp)) (andThen (.of_plain plain_condition) hs)

include he

/-- A conditional without a second branch takes the `else`, unless its first branch
has taken it. -/
theorem branches : Hangs prefs k e w n
    (statement.andThen (.branch (.keyword .else_) statement .accept)) where
  closing := hs.closing.branches
  follow s t hrun ht ho hw := by
    obtain ⟨l, hf, hy⟩ := hrun.of_andThen
    cases hy with
    | @yes _ _ _ _ _ m _ _ helse hy =>
      have hm := (hs.closing hy).1
      have helse := helse.open_of_straight (by simp) hm.rest_ne_nil
      have hopen := hs.closing.isLocal hf (hm.of_suffix helse.suffix)
      have hmo : m.overflow = none := hy.overflow_eq_none ho
      obtain ⟨t', hy', ht'⟩ := hs.follow hy ht ho hw
      exact ⟨t', .yes (hopen.lift (helse.overflow_eq_none hmo) k _)
        (.yes (helse.lift hmo k _) hy'), ht'⟩
    | no helse hacc =>
      cases helse with
      | miss _ hp =>
        cases hacc
        obtain ⟨t', hf', ht'⟩ := hs.follow hf ht ho hw
        obtain ⟨u, hu, hur, huo⟩ := takesElse he ht hw hf' ht'
        exact ⟨u, hu, .inr ⟨hur, huo⟩⟩

theorem conditional : Hangs prefs k e w n Grammar.conditional :=
  andThen (.of_straight (by simp)) (andThen (.of_plain plain_condition) (branches he hs))

theorem control : Hangs prefs k e w n (Grammar.control prefs) := by
  have hgoto : Hangs prefs k e w n (if prefs.allowGoto then
      Rule.when (.keyword .goto) Grammar.gotoStatement .reject else .reject) := by
    split
    · exact when (of_closing fun _ => .gotoStatement) (of_closing fun _ => .reject)
    · exact of_closing fun _ => .reject
  exact when (of_closing fun _ => .returnStatement) <| when (conditional he hs) <|
    when (of_closing fun _ => hs.closing.switchStatement) <| when (whileStatement hs) <|
      when (of_closing fun _ => hs.closing.doStatement) <|
        when (of_closing fun _ => hs.closing.compound) <|
          when (of_closing fun _ => .breakStatement) hgoto

/-- A control statement hangs, and a type definition does not. -/
theorem controlOr : Hangs prefs k e w n
    ((Rule.attempt (Grammar.control prefs)).orElse Grammar.typeDefinition) where
  closing := hs.closing.controlOr
  follow s t hrun ht ho hw := by
    rcases hrun.of_attemptOr with ⟨-, hf⟩ | ⟨m, hf, hn⟩
    · obtain ⟨t', hf', ht'⟩ := (control he hs).follow hf ht ho hw
      exact ⟨t', .yes (.keep hf') .accept, ht'⟩
    · obtain ⟨rfl, hstart⟩ := Closing.control_of_typeDefinition hf hn (.inl rfl)
      have hclosing : Closing prefs (fun _ => False) n Grammar.typeDefinition := .typeDefinition
      have hreject : OpenRuns (body prefs) n (Grammar.control prefs) m false m :=
        Closing.control_rejects (absurd · (hclosing hn).1.rest_ne_nil) hstart
      have hmo : m.overflow = none := hn.overflow_eq_none ho
      exact ⟨_, .no (.restore (hreject.lift hmo k _)) ((hclosing.isOpen hn).lift ho k _),
        .inl rfl⟩

theorem statementBody : Hangs prefs k e w n (Grammar.statementBody prefs) := by
  have hforms : Hangs prefs k e w n (Rule.oneOf [.attempt Grammar.simple,
      .attempt Grammar.assignment, .attempt (Grammar.construction prefs),
      .attempt (Grammar.control prefs), Grammar.typeDefinition]) :=
    (of_closing fun _ => .simple).attemptOr .simple <|
      (of_closing fun _ => .assignment).attemptOr .assignment <|
        (of_closing fun _ => .construction).attemptOr .construction (controlOr he hs)
  refine ⟨hs.closing.statementBody, fun s t hrun ht ho hw => ?_⟩
  cases hrun with
  | yes hf hy =>
    cases hf with
    | @keep _ _ _ m hf =>
      have hm := (hs.closing hy).1
      have hopen := hf.open_of_straight (by simp [Grammar.label]) hm.rest_ne_nil
      obtain ⟨t', hy', ht'⟩ := hs.follow hy ht ho hw
      exact ⟨t', .yes (.keep (hopen.lift (hy.overflow_eq_none ho) k _)) hy', ht'⟩
  | no hf hn =>
    cases hf with
    | @restore _ _ _ m hf =>
      have hc : s.Closes := (hforms.closing hn).1
      have hm : m.overflow = none := hn.overflow_eq_none ho
      obtain ⟨t', hn', ht'⟩ := hforms.follow hn ht ho hw
      exact ⟨t', .no (.restore ((Bounded.label hf hc).lift hm k (e :: w))) hn', ht'⟩

end Statements
end Hangs

/-- Statements can stand as first branches, in any room. -/
theorem hangs_statement (prefs : GrammarPreferences) (k : Nat) (he : e.Is .else_)
    (w : List Lexeme) (n : Nat) : Hangs prefs k e w n statement := by
  induction n using Nat.strongRecOn with
  | ind n ih => exact .call fun m hm => .statementBody he (ih m (by omega))

/-- A bounded rule leaves the lexemes behind a closer. -/
theorem Bounded.suffix {s t : State} {b : Bool} (hb : Bounded prefs r) (hr : r.Meets .productive)
    (h : FullRuns (body prefs) n r s b t) {u v : List Lexeme} {z : Lexeme}
    (hs : s.rest = u ++ z :: v) (hz : z.kind ∈ closers) : v <:+ t.rest := by
  -- the run on the lexemes up to the closer does not see the end, so it is the same run
  have hshort := runs_perform prefs n hr { s with rest := u ++ [z] }
  have hopen := hb hshort ⟨z, by simp, hz⟩
  have hlong := hopen.extend_of_open v
  have hsame : State.extend { s with rest := u ++ [z] } v = s := by
    cases s
    simp_all [State.extend]
  rw [hsame] at hlong
  rw [(h.unique hlong).2]
  exact List.suffix_append _ _

/-- A statement that does not begin with a label is one of the forms that are tried
first, or all of these are rejected and what comes after them decides. -/
theorem statement_cases {s t : State} {b : Bool} {x y : Lexeme} {rest : List Lexeme}
    (h : FullRuns (body prefs) (n + 1) statement s b t) (ht : t.overflow = none)
    (hs : s.rest = x :: y :: rest) (hy : y.kind ≠ .colon) :
    (b = true ∧ ∃ r ∈ earlierForms prefs, FullRuns (body prefs) n r s true t) ∨
    (∀ r ∈ earlierForms prefs, ∃ u, FullRuns (body prefs) n r s false u ∧ u.overflow = none) ∧
      FullRuns (body prefs) n ((Rule.attempt (control prefs)).orElse typeDefinition) s b t := by
  cases h with
  | refused ho => cases ht.symm.trans ho
  | call _ h =>
    refine forms_cases ?_ ht
    cases h with
    | yes hf _ =>
      exfalso
      cases hf with
      | keep hf =>
        obtain ⟨m, hx, hc⟩ := hf.of_andThen
        cases hx
        cases hc with
        | take _ hp => simp [State.passes, hs, Test.holds, hy] at hp
    | no hf hn =>
      have hlabel : label.Meets .steady := by simp [label]
      obtain rfl := hf.eq_of_restore hlabel (hn.overflow_eq_none ht)
      exact hn

/-- A condition and two statements that are read alone are read as a conditional. -/
theorem conditional_reads {E : Setting} {j : Nat} {C S₁ S₂ : List Lexeme} {i o c : Lexeme}
    {t₁ t₂ : State} (hi : i.Is .if_) (ho : o.kind = .openParen) (hc : c.kind = .closeParen)
    (he : e.Is .else_) (hC : Reads E.known .expression j C []) (hj : j ≤ n)
    (h₁ : FullRuns (body E.prefs) n statement (E.ready S₁) true t₁) (hr₁ : t₁.rest = [])
    (ho₁ : t₁.overflow = none)
    (h₂ : FullRuns (body E.prefs) n statement { t₁ with rest := S₂ } true t₂)
    (hr₂ : t₂.rest = []) (ho₂ : t₂.overflow = none) :
    ∃ t, FullRuns (body E.prefs) (n + n) conditional
      (E.ready (i :: o :: (C ++ c :: (S₁ ++ e :: S₂)))) true t ∧
      t.rest = [] ∧ t.overflow = none := by
  have hif := (Picks.keyword .if_ (E := E)).hit (n + n) i (o :: (C ++ c :: (S₁ ++ e :: S₂)))
    (by simp [hi.1, hi.2])
  have hexpr : Exact E expression j (C ++ c :: (S₁ ++ e :: S₂)) (c :: (S₁ ++ e :: S₂)) :=
    (hC.append (by simp [hc])).exact trivial (.cons (by rw [hc]; decide))
  have hcondition : Exact E condition j (o :: (C ++ c :: (S₁ ++ e :: S₂))) (S₁ ++ e :: S₂) :=
    .before (.pick (.kind .openParen) (by simp [ho]))
      (.after hexpr (.pick (.kind .closeParen) (by simp [hc])))
  have hall : ReadsAll E.prefs n { t₁ with rest := S₂ } :=
    fun m hm => ⟨t₂, h₂.room_mono ho₂ hm, hr₂, ho₂⟩
  obtain ⟨t', hs, ht'⟩ := (hangs_statement E.prefs n he S₂ n).follow h₁ hr₁ ho₁ hall
  obtain ⟨u, hu, hur, huo⟩ := Hangs.takesElse he hr₁ hall hs ht'
  exact ⟨u, .yes hif (.yes (hcondition.fits (n + n) (by omega)) hu), hur, huo⟩

/-- A name and arguments in parentheses are read as a call, before what continues none. -/
theorem reads_call {E : Setting} {j : Nat} {w v : List Lexeme} {i o z : Lexeme}
    (hi : i.kind = .identifier) (hconst : ¬ i.Is .const) (ho : o.kind = .openParen)
    (hz : z.kind ∉ Level.stops .disjunction) (hw : Reads E.known .arguments j w (z :: v)) :
    ∃ k, Exact E expression k (i :: o :: w) (z :: v) := by
  have hname : Reads E.known .primary 0 (i :: o :: w) (o :: w) := .name hi (by simp [ho])
  have hprefixed := (hname.postfixed (.application ho hw .bare)).unsigned (by simpa using hconst)
  exact ⟨_, hprefixed.of_prefixed.exact trivial (.cons hz)⟩

/-- The conditional with the condition and the branches given. -/
def conditionalOf (i o : Lexeme) (C : List Lexeme) (c : Lexeme) (S₁ : List Lexeme) (e : Lexeme)
    (S₂ : List Lexeme) : List Lexeme := i :: o :: (C ++ c :: (S₁ ++ e :: S₂))

section Composition

variable {E : Setting} {C S₁ S₂ : List Lexeme} {i o c : Lexeme} {t t₁ t₂ : State} {b : Bool}
  {j : Nat}

/-- A form that is tried before the control statements stops inside the first branch. -/
theorem rest_ne_nil_of_earlierForm (hr : r ∈ earlierForms E.prefs)
    (h : FullRuns (body E.prefs) n r (E.ready (conditionalOf i o C c S₁ e S₂)) b t)
    (h₁ : FullRuns (body E.prefs) k statement (E.ready S₁) true t₁) : t.rest ≠ [] := by
  obtain ⟨z, hz, hk⟩ := (closing_statement E.prefs k h₁).1
  obtain ⟨u, v, huv⟩ := List.append_of_mem hz
  have hsuffix := (earlierForms_bounded hr).suffix (earlierForms_productive hr) h
    (u := i :: o :: (C ++ c :: u)) (v := v ++ e :: S₂) (z := z) (by
      simp only [Setting.rest_ready] at huv
      simp [conditionalOf, huv]) hk
  intro ht
  rw [ht] at hsuffix
  simpa using List.suffix_nil.1 hsuffix

/-- The composition, for runs. -/
theorem conditional_iff (hi : i.Is .if_) (ho : o.kind = .openParen) (hc : c.kind = .closeParen)
    (he : e.Is .else_) (hC : Reads E.known .expression j C []) (hj : j ≤ n)
    (h₁ : FullRuns (body E.prefs) n statement (E.ready S₁) true t₁) (hr₁ : t₁.rest = [])
    (ho₁ : t₁.overflow = none)
    (h₂ : FullRuns (body E.prefs) n statement { t₁ with rest := S₂ } true t₂)
    (hr₂ : t₂.rest = []) (ho₂ : t₂.overflow = none)
    (h : FullRuns (body E.prefs) n statement (E.ready (conditionalOf i o C c S₁ e S₂)) b t)
    (ht : t.overflow = none) :
    b = true ∧ t.rest = [] ↔ ∀ r ∈ earlierForms E.prefs,
      (perform E.prefs n r (E.ready (conditionalOf i o C c S₁ e S₂))).1 = false := by
  obtain ⟨n, rfl⟩ : ∃ m, n = m + 1 := by
    cases n with
    | zero =>
      cases h
      exact absurd ht (State.overflow_refuse _)
    | succ n => exact ⟨n, rfl⟩
  -- what a form answers inside the statement it answers at the statement's own room
  have hanswer {r : Rule} (hr : r ∈ earlierForms E.prefs) {b : Bool} {u : State}
      (h : FullRuns (body E.prefs) n r (E.ready (conditionalOf i o C c S₁ e S₂)) b u)
      (hu : u.overflow = none) :
      (perform E.prefs (n + 1) r (E.ready (conditionalOf i o C c S₁ e S₂))).1 = b := by
    have hperform := runs_perform E.prefs (n + 1) (earlierForms_productive hr)
      (E.ready (conditionalOf i o C c S₁ e S₂))
    exact (hperform.unique (h.room_mono hu (Nat.le_succ n))).1
  rcases statement_cases h ht rfl (by rw [ho]; decide) with ⟨-, r, hr, hrun⟩ | ⟨hreject, hrest⟩
  · constructor
    · intro hall
      exact absurd hall.2 (rest_ne_nil_of_earlierForm hr hrun h₁)
    · intro hall
      cases (hanswer hr hrun ht).symm.trans (hall r hr)
  · have hforms : ∀ r ∈ earlierForms E.prefs,
        (perform E.prefs (n + 1) r (E.ready (conditionalOf i o C c S₁ e S₂))).1 = false := by
      intro r hr
      obtain ⟨u, hu, huo⟩ := hreject r hr
      exact hanswer hr hu huo
    refine ⟨fun _ => hforms, fun _ => ?_⟩
    obtain ⟨u, hu, hur, huo⟩ := conditional_reads hi ho hc he hC hj h₁ hr₁ ho₁ h₂ hr₂ ho₂
    have hcontrol : FullRuns (body E.prefs) (n + 1 + (n + 1)) (control E.prefs)
        (E.ready (conditionalOf i o C c S₁ e S₂)) true u := by
      refine .no (.peek (fun _ => trivial) ?_) (.yes (.peek (fun _ => trivial) ?_) hu)
      · simp only [Setting.passes_ready, conditionalOf, Test.keyword, Test.holds, hi.1, hi.2]
        decide
      · simp [conditionalOf, Test.keyword, Test.holds, hi.1, hi.2]
    have hlong := hrest.room_mono ht (show n ≤ n + 1 + (n + 1) by omega)
    obtain ⟨hb, rfl⟩ := hlong.unique (.yes (.keep hcontrol) .accept)
    exact ⟨hb, hur⟩

/-- None of the forms that are tried first accepts a condition and a brace. -/
theorem earlierForm_rejects (hi : i.Is .if_) (ho : o.kind = .openParen)
    (hc : c.kind = .closeParen) {z : Lexeme} {v : List Lexeme} (hz : z.kind = .openBrace)
    (hC : Reads E.known .expression j C []) (hr : r ∈ earlierForms E.prefs)
    (h : FullRuns (body E.prefs) n r (E.ready (i :: o :: (C ++ c :: z :: v))) b t) :
    b = false := by
  -- the expression ends before the brace, whatever room there is
  have hexpr {m : State} (h : FullRuns (body E.prefs) n expression
      (E.ready (i :: o :: (C ++ c :: z :: v))) true m) : m = E.ready (z :: v) := by
    have hconst : ¬ i.Is .const := hi.not_is (by decide)
    have hargs : Reads E.known .arguments _ (C ++ c :: z :: v) (z :: v) :=
      .arguments hc (hC.append (by simp [hc])) .last
    obtain ⟨k, hk⟩ := reads_call hi.1 hconst ho (by rw [hz]; decide) hargs
    obtain ⟨-, -, t, rfl, -⟩ := reads_of_expression h
    have hlong := h.room_mono rfl (Nat.le_add_right n k)
    exact (hlong.unique (hk.fits (n + k) (Nat.le_add_left k n))).2
  have hkind {k : Kind} (hk : z.kind ≠ k) {m : State}
      (h : FullRuns (body E.prefs) n (.kind k) (E.ready (z :: v)) true m) : False := by
    obtain ⟨x, u, hx, hxk, -⟩ := (Picks.kind k).of_accept h
    cases hx
    exact hk (by simpa using hxk)
  refine Bool.eq_false_iff.2 fun hb => ?_
  subst hb
  simp only [earlierForms, List.mem_cons, List.not_mem_nil, or_false] at hr
  rcases hr with rfl | rfl | rfl
  · obtain ⟨m, he, hsemicolon⟩ := h.of_andThen
    cases hexpr he
    exact hkind (by rw [hz]; decide) hsemicolon
  all_goals
    obtain ⟨m, he, h⟩ := h.of_andThen
    obtain ⟨m', hnext, -⟩ := h.of_andThen
    cases hexpr he
    exact hkind (by rw [hz]; decide) hnext

end Composition

/-- Conditionals compose. Let an expression and two statements be accepted in full,
the second statement from the table that the first one leaves. Provided that the
depth guard does not fire, the conditional made of them is accepted in full exactly
when none of the forms that are tried before control statements accepts what it
begins with. A first branch that begins with a brace is always taken. -/
theorem accepts_conditional_iff (p p₀ p₁ p₂ : Parser) (i o c e : Lexeme)
    (C S₁ S₂ : List Lexeme) (hi : i.Is .if_) (ho : o.kind = .openParen)
    (hc : c.kind = .closeParen) (he : e.Is .else_) (hC : p.ReadsFully expression C p₀)
    (h₁ : p.ReadsFully statement S₁ p₁) (h₂ : p₁.ReadsFully statement S₂ p₂)
    (hguard : ((p.reading (conditionalOf i o C c S₁ e S₂)).apply statement).2.depthExceeded =
      false) :
    ((∃ q, p.ReadsFully statement (conditionalOf i o C c S₁ e S₂) q) ↔
      ∀ r ∈ earlierForms p.preferences,
        ((p.reading (conditionalOf i o C c S₁ e S₂)).apply r).1 = false) ∧
    ((∃ z ∈ S₁.head?, z.kind = .openBrace) →
      ∃ q, p.ReadsFully statement (conditionalOf i o C c S₁ e S₂) q) := by
  obtain ⟨b, q, hq⟩ : ∃ b q, (p.reading (conditionalOf i o C c S₁ e S₂)).apply statement =
      (b, q) := ⟨_, _, rfl⟩
  have hprefs := (Parser.apply_eq h₁.1).1
  have hroom := (Parser.apply_eq h₁.1).2
  have hrun := Parser.runs_apply productive_statement hq
  have hrunC := Parser.runs_apply productive_expression hC.1
  have hrun₁ := Parser.runs_apply productive_statement h₁.1
  have hrun₂ := Parser.runs_apply productive_statement h₂.1
  have hclear {q : Parser} (h : q.depthExceeded = false) : q.state.overflow = none := by
    simpa [Parser.depthExceeded] using h
  have hqo : q.state.overflow = none := hclear (by rw [hq] at hguard; exact hguard)
  have hready := Setting.ready_ofParser (p := p) (hrun.overflow_eq_none hqo)
  rw [← hready] at hrun hrunC hrun₁
  obtain ⟨j, hj, C', hC', hread⟩ := reads_of_expression (E := .ofParser p) hrunC
  obtain rfl : C' = [] := by
    have := hC.2.1
    rwa [hC'] at this
  have hsecond : (p₁.reading S₂).state = { p₁.state with rest := S₂ } := rfl
  rw [hsecond, show (p₁.reading S₂).preferences = p.preferences from hprefs,
    show (p₁.reading S₂).room = p.room from hroom] at hrun₂
  have hiff := conditional_iff (E := .ofParser p) hi ho hc he hread hj hrun₁ h₁.2.1
    (hclear h₁.2.2) hrun₂ h₂.2.1 (hclear h₂.2.2) hrun hqo
  have hfull : (∃ q, p.ReadsFully statement (conditionalOf i o C c S₁ e S₂) q) ↔
      b = true ∧ q.state.rest = [] := by
    constructor
    · rintro ⟨q', hq', hrest, -⟩
      cases hq.symm.trans hq'
      exact ⟨rfl, hrest⟩
    · rintro ⟨rfl, hrest⟩
      exact ⟨q, hq, hrest, by simp [Parser.depthExceeded, hqo]⟩
  rw [hfull]
  have hforms (r : Rule) : ((p.reading (conditionalOf i o C c S₁ e S₂)).apply r).1 =
      (perform p.preferences p.room r
        ((Setting.ofParser p).ready (conditionalOf i o C c S₁ e S₂))).1 := by
    rw [hready]
    exact Parser.answer_apply _ r
  simp only [hforms]
  refine ⟨hiff, ?_⟩
  rintro ⟨z, hz, hbrace⟩
  obtain ⟨v, rfl⟩ : ∃ v, S₁ = z :: v := by
    cases S₁ with
    | nil => cases hz
    | cons x v => cases hz; exact ⟨v, rfl⟩
  refine hiff.2 fun r hr => ?_
  exact earlierForm_rejects (E := .ofParser p) hi ho hc hbrace hread hr
    (runs_perform p.preferences p.room (earlierForms_productive hr) _)

/-- A conditional whose first branch is an assignment in braces. -/
def bracedConditional : Parser :=
  .new .development {} (Bytes.ofAscii "if (a) \x7b x = 1; \x7d else y = 2;".toList)

theorem accepts_conditional_iff_braced :
    ∃ q, bracedConditional.ReadsFully statement bracedConditional.state.rest q := by
  have hparts : bracedConditional.state.rest = conditionalOf
      ⟨.identifier, 0, Keyword.if_.bytes⟩ ⟨.openParen, 3, [40]⟩
      ((bracedConditional.state.rest.drop 2).take 1) ⟨.closeParen, 5, [41]⟩
      ((bracedConditional.state.rest.drop 4).take 6) ⟨.identifier, 18, Keyword.else_.bytes⟩
      (bracedConditional.state.rest.drop 11) := by decide +kernel
  rw [hparts]
  refine (accepts_conditional_iff bracedConditional _ _ _ _ _ _ _ _ _ _ ⟨rfl, rfl⟩ rfl rfl
    ⟨rfl, rfl⟩ (Parser.readsFully_snd ?_) (Parser.readsFully_snd ?_) (Parser.readsFully_snd ?_)
    ?_).2 ?_ <;> decide +kernel

/-- A conditional whose first branch is an assignment without braces, which is read as
the construction of a variable. -/
def plainConditional : Parser :=
  .new .development {} (Bytes.ofAscii "if (a) x = 1; else y = 2;".toList)

/-- Without braces the parts of a conditional may be accepted and the whole not. -/
theorem plainConditional_stops_early : ∃ i o c e C S₁ S₂ p₀ p₁ p₂,
    i.Is .if_ ∧ o.kind = .openParen ∧ c.kind = .closeParen ∧ e.Is .else_ ∧
    plainConditional.state.rest = conditionalOf i o C c S₁ e S₂ ∧
    plainConditional.ReadsFully expression C p₀ ∧ plainConditional.ReadsFully statement S₁ p₁ ∧
    p₁.ReadsFully statement S₂ p₂ ∧
    ((plainConditional.reading (conditionalOf i o C c S₁ e S₂)).apply statement).2.depthExceeded =
      false ∧
    ¬ ∃ q, plainConditional.ReadsFully statement (conditionalOf i o C c S₁ e S₂) q := by
  refine ⟨⟨.identifier, 0, Keyword.if_.bytes⟩, ⟨.openParen, 3, [40]⟩, ⟨.closeParen, 5, [41]⟩,
    ⟨.identifier, 14, Keyword.else_.bytes⟩, (plainConditional.state.rest.drop 2).take 1,
    (plainConditional.state.rest.drop 4).take 4, plainConditional.state.rest.drop 9, _, _, _,
    ⟨rfl, rfl⟩, rfl, rfl, ⟨rfl, rfl⟩, by decide +kernel, Parser.readsFully_snd ?_,
    Parser.readsFully_snd ?_, Parser.readsFully_snd ?_, ?_, ?_⟩
  case refine_5 =>
    rintro ⟨q, hq, hrest, -⟩
    have hleft := congrArg (fun x => x.2.state.rest.length) hq
    simp only [hrest, List.length_nil] at hleft
    revert hleft
    decide +kernel
  all_goals decide +kernel

end Recognizer.Grammar
