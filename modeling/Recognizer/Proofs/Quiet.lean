import Recognizer.Proofs.Locality

/-!
# Quiet continuations

Calls are made behind an opening lexeme, a comma or an `=`, or where an expression
has to begin. So lexemes of other kinds that are put behind those of a run do not
make the depth guard fire, as long as a closer ends them: either the run comes out as
before, or it goes on among the new lexemes and makes no call there.
-/
namespace Recognizer.Grammar

/-- The kinds behind which a call is made. -/
def openers : List Kind := [.openParen, .openBracket, .less, .comma, .equals]

/-- The test holds of lexemes of the kinds given alone. -/
def Test.within (ks : List Kind) : Test → Bool
  | kind k => ks.contains k
  | _ => false

namespace Rule

/-- The rule takes an opener or rejects. -/
def opens : Rule → Bool
  | take t => t.within openers
  | _ => false

/-- The rule makes no call unless it has taken an opener. -/
def late : Rule → Bool
  | accept | reject | peek _ | take _ => true
  | branch first yes no => first.late && (first.opens || yes.late) && no.late
  | loop _ r => r.late
  | attempt _ | declare _ _ | enclosed _ | call _ => false

/-- The rule asks one question, which is denied at the end. -/
def asks : Rule → Bool
  | peek t | take t => t.wantsLexeme
  | _ => false

/-- Where a part of the rule may come out differently because lexemes follow, no call
is made next. -/
def prudent : Rule → Bool
  | accept | reject | call _ => true
  | peek t | take t => t.wantsLexeme
  | branch first yes no => first.prudent && yes.prudent && no.prudent &&
      (first.opens || (yes.late && (first.asks || no.late)))
  | loop t r => t.wantsLexeme && r.prudent && r.late
  | attempt _ | declare _ _ | enclosed _ => false

end Rule

/-- The lexemes hold a closer, and no opener before it. -/
def Calm (w : List Lexeme) : Prop :=
  ∃ c z u, w = c ++ z :: u ∧ z.kind ∈ closers ∧ ∀ x ∈ c, x.kind ∉ openers

namespace Calm

variable {w : List Lexeme} {x : Lexeme} {q : Test} {table : SymbolTable}

theorem ne_nil (h : Calm w) : w ≠ [] := by
  obtain ⟨c, z, u, rfl, -⟩ := h
  simp

theorem head (h : Calm (x :: w)) : x.kind ∉ openers := by
  obtain ⟨c, z, u, hw, hz, hc⟩ := h
  cases c with
  | nil =>
    obtain ⟨rfl, -⟩ := List.cons.inj hw
    exact fun hx => absurd hz (by revert hx; generalize x.kind = k; cases k <;> decide)
  | cons y c =>
    obtain ⟨rfl, -⟩ := List.cons.inj hw
    exact hc x (by simp)

/-- What refuses closers takes no more than the lexemes before the closer. -/
theorem tail (h : Calm w) (hq : q.refuses closers = true) (hp : q.holds table w = true) :
    Calm w.tail := by
  obtain ⟨c, z, u, rfl, hz, hc⟩ := h
  cases c with
  | nil =>
    rw [List.nil_append, Test.holds_of_refuses hq hz] at hp
    cases hp
  | cons y c => exact ⟨c, z, u, rfl, hz, fun x hx => hc x (List.mem_cons_of_mem _ hx)⟩

theorem not_within (h : Calm w) (hq : q.within openers = true) : q.holds table w = false := by
  obtain ⟨x, w, rfl⟩ := List.exists_cons_of_ne_nil h.ne_nil
  cases q with
  | kind k =>
    simp only [Test.holds, beq_eq_false_iff_ne, ne_eq]
    rintro rfl
    exact h.head (by simpa [Test.within] using hq)
  | _ => cases hq

end Calm

variable {prefs : GrammarPreferences} {n : Nat} {r q : Rule} {s t t' : State} {b b' : Bool}
  {w : List Lexeme}

/-- A late rule makes no call among calm lexemes. -/
theorem Runs.calm_of_late (h : FullRuns (body prefs) n r s b t) (hr : r.Meets .plain)
    (hl : r.late = true) (hs : Calm s.rest) : t.overflow = s.overflow ∧ Calm t.rest := by
  induction h with
  | accept | reject | peek | miss | done => exact ⟨rfl, hs⟩
  | take _ hp => exact ⟨rfl, hs.tail hr hp⟩
  | @yes _ first yes no _ m _ _ hf hy ihf ihy =>
    simp only [Rule.late, Bool.and_eq_true, Bool.or_eq_true] at hl
    obtain ⟨ho, hm⟩ := ihf hr.1 hl.1.1 hs
    rcases hl.1.2 with hopens | hlate
    · cases first with
      | take c =>
        cases hf with
        | take _ hp => exact absurd hp (by simp [State.passes, hs.not_within hopens])
      | _ => cases hopens
    · obtain ⟨ho', ht⟩ := ihy hr.2.1 hlate hm
      exact ⟨ho'.trans ho, ht⟩
  | no _ _ ihf ihn =>
    simp only [Rule.late, Bool.and_eq_true] at hl
    obtain ⟨ho, hm⟩ := ihf hr.1 hl.1.1 hs
    obtain ⟨ho', ht⟩ := ihn hr.2.2 hl.2 hm
    exact ⟨ho'.trans ho, ht⟩
  | again _ _ _ _ ihb ihl =>
    obtain ⟨ho, hm⟩ := ihb hr.2 hl hs
    obtain ⟨ho', ht⟩ := ihl hr hl hm
    exact ⟨ho'.trans ho, ht⟩
  | stop _ _ _ ih => exact ih hr.2 hl hs
  | keep | restore | declare | nameless | enclosed | call | refuse | refused => cases hl

theorem State.passes_append {c : Test} (hs : s.rest ≠ []) (w : List Lexeme) :
    (s.extend w).passes c = s.passes c := Test.holds_append hs w

/-- A question that was denied at the end is answered as before or granted. -/
theorem State.passes_extend {c : Test} (hc : c.wantsLexeme = true) (s : State)
    (w : List Lexeme) : (s.extend w).passes c = s.passes c ∨
      s.rest = [] ∧ s.passes c = false ∧ (s.extend w).passes c = true := by
  by_cases hs : s.rest = []
  · have hfalse : s.passes c = false := Bool.eq_false_iff.2 fun hp => Test.rest_ne_nil hc hp hs
    cases hw : (s.extend w).passes c with
    | false => exact .inl hfalse.symm
    | true => exact .inr ⟨hs, hfalse, rfl⟩
  · exact .inl (State.passes_append hs w)

namespace Runs

/-- A rule that asks one question comes out as before, or accepts. -/
theorem same_of_asks (h : FullRuns (body prefs) n r s b t)
    (h' : FullRuns (body prefs) n r (s.extend w) b' t') (ha : r.asks = true) :
    b' = b ∧ t' = t.extend w ∨ b' = true := by
  cases r with
  | peek c =>
    cases h with
    | peek _ hp =>
      cases h' with
      | peek _ hp' =>
        rcases s.passes_extend ha w with hw | ⟨-, -, hw⟩
        · exact .inl ⟨hp'.symm.trans (hw.trans hp), rfl⟩
        · exact .inr (hp'.symm.trans hw)
  | take c =>
    cases h' with
    | take => exact .inr rfl
    | miss _ hp' =>
      cases h with
      | miss => exact .inl ⟨rfl, rfl⟩
      | take hne hp =>
        rw [State.passes_append hne, hp] at hp'
        cases hp'
  | _ => cases ha

/-- Calm lexemes do not open anything. -/
theorem same_of_opens (h : FullRuns (body prefs) n r s b t)
    (h' : FullRuns (body prefs) n r (s.extend w) b' t') (ho : r.opens = true) (hw : Calm w) :
    b' = b ∧ t' = t.extend w := by
  cases r with
  | take c =>
    cases h with
    | take hne hp =>
      cases h' with
      | take => exact ⟨rfl, State.advance_extend hne w⟩
      | miss _ hp' =>
        rw [State.passes_append hne, hp] at hp'
        cases hp'
    | miss _ hp =>
      cases h' with
      | miss => exact ⟨rfl, rfl⟩
      | take _ hp' =>
        by_cases hs : s.rest = []
        · simp [State.passes, hs, hw.not_within ho] at hp'
        · rw [State.passes_append hs, hp] at hp'
          cases hp'
  | _ => cases ho

/-- Where a part comes out differently, what comes next makes no call. -/
theorem same_or_late {yes no : Rule} (h : FullRuns (body prefs) n r s b t)
    (h' : FullRuns (body prefs) n r (s.extend w) b' t') (hw : Calm w)
    (hnext : r.opens = true ∨ yes.late = true ∧ (r.asks = true ∨ no.late = true))
    (ht : t'.overflow = none ∧ (b' = b ∧ t' = t.extend w ∨ Calm t'.rest)) :
    b' = b ∧ t' = t.extend w ∨ t'.overflow = none ∧ Calm t'.rest ∧
      (b' = true → yes.late = true) ∧ (b' = false → no.late = true) := by
  obtain ⟨ho, hsame | hcalm⟩ := ht
  · exact .inl hsame
  rcases hnext with hopens | ⟨hyes, hasks | hno⟩
  · exact .inl (h.same_of_opens h' hopens hw)
  · rcases h.same_of_asks h' hasks with hsame | rfl
    · exact .inl hsame
    · exact .inr ⟨ho, hcalm, fun _ => hyes, nofun⟩
  · exact .inr ⟨ho, hcalm, fun _ => hyes, fun _ => hno⟩

end Runs

section Prudent

open Rule

theorem prudent_prefixExpr : prefixExpr.prudent = true ∧ prefixExpr.late = true := by decide

theorem prudent_operators {ks : List Kind} (h : r.prudent = true ∧ r.late = true) :
    (operators r ks).prudent = true ∧ (operators r ks).late = true := by
  simp [operators, andThen, prudent, late, anyKind, opens, asks, h]

theorem prudent_separated (h : r.prudent = true) : (separated r).prudent = true := by
  simp [separated, andThen, prudent, late, kind, opens, Test.within, openers, h]

/-- The productions inside expressions are prudent. -/
theorem prudent_body {g : Guarded} (hg : Demand.inner g) : (body prefs g).prudent = true := by
  have hadditive : additive.prudent = true ∧ additive.late = true :=
    prudent_operators (prudent_operators prudent_prefixExpr)
  rcases hg with rfl | rfl
  · exact (prudent_operators (prudent_operators (prudent_operators (prudent_operators
      hadditive)))).1
  · have hlist : additiveList.prudent = true := prudent_separated hadditive.1
    simp [body, closedAdditiveList, andThen, prudent, hlist, kind, late]

end Prudent

/-- A late rule that is run among calm lexemes, with no call refused before, ends among them. -/
theorem Runs.settles_of_late {p : Prop} (h : FullRuns (body prefs) n r s b t)
    (hr : r.Meets .plain) (hl : r.late = true) (hs : Calm s.rest) (ho : s.overflow = none) :
    t.overflow = none ∧ (p ∨ Calm t.rest) := by
  obtain ⟨ho', ht⟩ := h.calm_of_late hr hl hs
  exact ⟨ho'.trans ho, .inr ht⟩

/-- Calm lexemes that are put behind those of a run do not make the depth guard fire:
the run comes out as before, or it ends among them. -/
theorem Runs.quiet_extend (h : FullRuns (body prefs) n r s b t) (hr : r.Meets .plain)
    (hp : r.prudent = true) (ho : t.overflow = none) (hw : Calm w)
    (h' : FullRuns (body prefs) n r (s.extend w) b' t') :
    t'.overflow = none ∧ (b' = b ∧ t' = t.extend w ∨ Calm t'.rest) := by
  induction h generalizing b' t' with
  | accept | reject =>
    cases h'
    exact ⟨ho, .inl ⟨rfl, rfl⟩⟩
  | @peek _ c s _ _ hc =>
    cases h' with
    | peek _ hc' =>
      refine ⟨ho, ?_⟩
      rcases s.passes_extend hp w with hsame | ⟨hs, -⟩
      · exact .inl ⟨hc'.symm.trans (hsame.trans hc), rfl⟩
      · exact .inr (by simpa [hs] using hw)
  | @take _ c s hne hc =>
    cases h' with
    | take => exact ⟨ho, .inl ⟨rfl, State.advance_extend hne w⟩⟩
    | miss _ hc' =>
      rw [State.passes_append hne, hc] at hc'
      cases hc'
  | @miss _ c s _ hc =>
    cases h' with
    | miss => exact ⟨ho, .inl ⟨rfl, rfl⟩⟩
    | take _ hc' =>
      refine ⟨ho, .inr ?_⟩
      rcases s.passes_extend hp w with hsame | ⟨hs, -⟩
      · exact absurd (hc'.symm.trans hsame) (by simp [hc])
      · have hcalm : Calm (s.extend w).rest := by simpa [hs] using hw
        exact hcalm.tail hr hc'
  | @yes _ first yes no _ m _ _ hf hy ihf ihy =>
    simp only [Rule.prudent, Bool.and_eq_true, Bool.or_eq_true] at hp
    obtain ⟨⟨⟨hpf, hpy⟩, -⟩, hnext⟩ := hp
    have hmo : m.overflow = none := hy.overflow_eq_none ho
    cases h' with
    | yes hf' hy' =>
      rcases hf.same_or_late hf' hw hnext (ihf hr.1 hpf hmo hf') with
        ⟨-, rfl⟩ | ⟨hmo', hm, hlate, -⟩
      · exact ihy hr.2.1 hpy ho hy'
      · exact hy'.settles_of_late hr.2.1 (hlate rfl) hm hmo'
    | no hf' hn' =>
      rcases hf.same_or_late hf' hw hnext (ihf hr.1 hpf hmo hf') with
        ⟨hb, -⟩ | ⟨hmo', hm, -, hlate⟩
      · cases hb
      · exact hn'.settles_of_late hr.2.2 (hlate rfl) hm hmo'
  | @no _ first yes no _ m _ _ hf hn ihf ihn =>
    simp only [Rule.prudent, Bool.and_eq_true, Bool.or_eq_true] at hp
    obtain ⟨⟨⟨hpf, -⟩, hpn⟩, hnext⟩ := hp
    have hmo : m.overflow = none := hn.overflow_eq_none ho
    cases h' with
    | yes hf' hy' =>
      rcases hf.same_or_late hf' hw hnext (ihf hr.1 hpf hmo hf') with
        ⟨hb, -⟩ | ⟨hmo', hm, hlate, -⟩
      · cases hb
      · exact hy'.settles_of_late hr.2.1 (hlate rfl) hm hmo'
    | no hf' hn' =>
      rcases hf.same_or_late hf' hw hnext (ihf hr.1 hpf hmo hf') with
        ⟨-, rfl⟩ | ⟨hmo', hm, -, hlate⟩
      · exact ihn hr.2.2 hpn ho hn'
      · exact hn'.settles_of_late hr.2.2 (hlate rfl) hm hmo'
  | @done _ c _ s _ hc =>
    simp only [Rule.prudent, Bool.and_eq_true] at hp
    have hlate : (Rule.loop c _).late = true := hp.2
    rcases s.passes_extend hp.1.1 w with hsame | ⟨hs, -⟩
    · cases h' with
      | done => exact ⟨ho, .inl ⟨rfl, rfl⟩⟩
      | again _ hc' | stop _ hc' => exact absurd (hc'.symm.trans hsame) (by simp [hc])
    · have hcalm : Calm (s.extend w).rest := by simpa [hs] using hw
      exact h'.settles_of_late hr hlate hcalm ho
  | @again _ c _ s m _ _ _ hc hround hl ihb ihl =>
    have hp' := hp
    simp only [Rule.prudent, Bool.and_eq_true] at hp
    have hlate : (Rule.loop c _).late = true := hp.2
    have hs := Test.rest_ne_nil hp.1.1 hc
    have hmo : m.overflow = none := hl.overflow_eq_none ho
    cases h' with
    | done _ hc' =>
      rw [State.passes_append hs, hc] at hc'
      cases hc'
    | again _ _ hround' hl' =>
      obtain ⟨hmo', hm⟩ := ihb hr.2 hp.1.2 hmo hround'
      rcases hm with ⟨-, rfl⟩ | hm
      · exact ihl hr hp' ho hl'
      · exact hl'.settles_of_late hr hlate hm hmo'
    | stop _ _ hround' =>
      obtain ⟨hmo', hm⟩ := ihb hr.2 hp.1.2 hmo hround'
      rcases hm with ⟨hb, -⟩ | hm
      · cases hb
      · exact ⟨hmo', .inr hm⟩
  | @stop _ c _ s _ _ hc hround ih =>
    simp only [Rule.prudent, Bool.and_eq_true] at hp
    have hlate : (Rule.loop c _).late = true := hp.2
    have hs := Test.rest_ne_nil hp.1.1 hc
    cases h' with
    | done _ hc' =>
      rw [State.passes_append hs, hc] at hc'
      cases hc'
    | again _ _ hround' hl' =>
      obtain ⟨hmo', hm⟩ := ih hr.2 hp.1.2 ho hround'
      rcases hm with ⟨hb, -⟩ | hm
      · cases hb
      · exact hl'.settles_of_late hr hlate hm hmo'
    | stop _ _ hround' => exact ih hr.2 hp.1.2 ho hround'
  | keep | restore | declare | nameless | enclosed => exact absurd hr.1 id
  | call hs _ ih =>
    cases h' with
    | call _ h' => exact ih (plain_body hr) (prudent_body hr) ho h'
    | refused hs' => cases hs.symm.trans hs'
  | @refuse _ s => exact absurd ho s.overflow_refuse
  | refused hs => cases ho.symm.trans hs

/-- Calm lexemes that are put behind those of a run do not make the depth guard fire. -/
def Quiet (prefs : GrammarPreferences) (n : Nat) (r : Rule) : Prop :=
  ∀ ⦃s b t w b' t'⦄, FullRuns (body prefs) n r s b t → t.overflow = none → Calm w →
    FullRuns (body prefs) n r (s.extend w) b' t' → t'.overflow = none

/-- The rule is quiet, and the depth guard stays silent where it starts among calm
lexemes. -/
structure Calms (prefs : GrammarPreferences) (n : Nat) (r : Rule) : Prop where
  quiet : Quiet prefs n r
  inside : ∀ ⦃s b t⦄, FullRuns (body prefs) n r s b t → Calm s.rest → s.overflow = none →
    t.overflow = none

theorem Calms.take {c : Test} : Calms prefs n (.take c) where
  quiet s b t w b' t' h ho _ h' := by
    have hs : s.overflow = none := h.overflow_eq_none ho
    cases h' <;> exact hs
  inside s b t h _ ho := by cases h <;> exact ho

theorem Quiet.andThen (hr : r.Meets .plain) (hp : r.prudent = true) (hq : Calms prefs n q) :
    Quiet prefs n (r.andThen q) := by
  intro s b t w b' t' h ho hw h'
  -- the first rule comes out as before or ends among the calm lexemes
  have first {b b' : Bool} {m m' : State} (hf : FullRuns (body prefs) n r s b m)
      (hm : m.overflow = none) (hf' : FullRuns (body prefs) n r (s.extend w) b' m') :=
    hf.quiet_extend hr hp hm hw hf'
  cases h with
  | @yes _ _ _ _ _ m _ _ hf hy =>
    have hm : m.overflow = none := hy.overflow_eq_none ho
    cases h' with
    | yes hf' hy' =>
      obtain ⟨hmo, ⟨-, rfl⟩ | hcalm⟩ := first hf hm hf'
      · exact hq.quiet hy ho hw hy'
      · exact hq.inside hy' hcalm hmo
    | no hf' hn' =>
      cases hn'
      exact (first hf hm hf').1
  | no hf hn =>
    cases hn
    cases h' with
    | yes hf' hy' =>
      obtain ⟨hmo, ⟨hb, -⟩ | hcalm⟩ := first hf ho hf'
      · cases hb
      · exact hq.inside hy' hcalm hmo
    | no hf' hn' =>
      cases hn'
      exact (first hf ho hf').1

theorem Calms.andThen (hr : r.Meets .plain) (hp : r.prudent = true) (hl : r.late = true)
    (hq : Calms prefs n q) : Calms prefs n (r.andThen q) where
  quiet := .andThen hr hp hq
  inside s b t h hs ho := by
    cases h with
    | yes hf hy =>
      obtain ⟨hmo, hm⟩ := hf.calm_of_late hr hl hs
      exact hq.inside hy hm (hmo.trans ho)
    | no hf hn =>
      cases hn
      exact (hf.calm_of_late hr hl hs).1.trans ho

/-- What an opener has to come before is not read among calm lexemes. -/
theorem Calms.opener {k : Kind} (hk : k ∈ openers) (hq : Quiet prefs n q) :
    Calms prefs n ((Rule.kind k).andThen q) where
  quiet s b t w b' t' h ho hw h' := by
    have hopens : (Rule.kind k).opens = true := by
      simpa [Rule.kind, Rule.opens, Test.within] using hk
    cases h with
    | yes hf hy =>
      cases h' with
      | yes hf' hy' =>
        obtain ⟨-, rfl⟩ := hf.same_of_opens hf' hopens hw
        exact hq hy ho hw hy'
      | no hf' => cases (hf.same_of_opens hf' hopens hw).1
    | no hf hn =>
      cases hn
      cases h' with
      | yes hf' => cases (hf.same_of_opens hf' hopens hw).1
      | no hf' hn' =>
        cases hn'
        obtain ⟨-, rfl⟩ := hf.same_of_opens hf' hopens hw
        exact ho
  inside s b t h hs ho := by
    have hmiss : s.passes (.kind k) = false :=
      hs.not_within (by simpa [Test.within] using hk)
    cases h with
    | yes hf =>
      cases hf with
      | take _ hp => rw [hmiss] at hp; cases hp
    | no hf hn =>
      cases hn
      cases hf with
      | miss => exact ho

namespace Quiet

theorem simple : Quiet prefs n Grammar.simple := andThen (by simp) rfl .take

theorem assignment : Quiet prefs n Grammar.assignment :=
  andThen (by simp) rfl (.opener (by decide) (andThen (by simp) rfl .take))

theorem construction : Quiet prefs n (Grammar.construction prefs) := by
  have hinitial : (Rule.orElse (.peek (.kind .semicolon)) (initialization prefs)).prudent = true ∧
      (Rule.orElse (.peek (.kind .semicolon)) (initialization prefs)).late = true := by
    unfold initialization
    split <;> decide
  exact andThen (by simp) rfl <| .andThen (by simp [Test.refuses, closers]) rfl rfl <|
    .andThen (by simp) hinitial.1 hinitial.2 .take

end Quiet
end Recognizer.Grammar
