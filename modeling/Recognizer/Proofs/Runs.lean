import Recognizer.Proofs.Demand

/-!
# Runs of a rule

`Runs` is the big-step semantics of rules, with one constructor for each way in
which a step can go. It also records what a run asks for once the lexemes are
used up: `seen` holds of the tests that may be asked at the end. With every test
allowed it agrees with `Rule.run` (`run_eq_iff`); with none allowed the run is
decided by the lexemes it was given, whatever follows them (`Runs.extend`).
-/
namespace Recognizer.Grammar

namespace State

/-- The state with more lexemes behind the remaining ones. -/
def extend (s : State) (v : List Lexeme) : State := { s with rest := s.rest ++ v }

@[simp] theorem rest_extend (s : State) (v : List Lexeme) : (s.extend v).rest = s.rest ++ v := rfl
@[simp] theorem table_extend (s : State) (v : List Lexeme) : (s.extend v).table = s.table := rfl
@[simp] theorem overflow_extend (s : State) (v : List Lexeme) :
    (s.extend v).overflow = s.overflow := rfl
@[simp] theorem rest_advance (s : State) : s.advance.rest = s.rest.tail := rfl
@[simp] theorem table_advance (s : State) : s.advance.table = s.table := rfl
@[simp] theorem overflow_advance (s : State) : s.advance.overflow = s.overflow := rfl

theorem advance_extend {s : State} (hs : s.rest ≠ []) (v : List Lexeme) :
    (s.extend v).advance = s.advance.extend v := by
  obtain ⟨x, rest, hx⟩ := List.exists_cons_of_ne_nil hs
  simp [advance, extend, hx]

theorem identifier?_extend {s : State} (hs : s.rest ≠ []) (v : List Lexeme) :
    (s.extend v).identifier? = s.identifier? := by
  obtain ⟨x, rest, hx⟩ := List.exists_cons_of_ne_nil hs
  simp [identifier?, hx]

theorem rest_ne_nil_of_identifier? {s : State} {name : Bytes} (h : s.identifier? = some name) :
    s.rest ≠ [] := by
  intro hs
  simp [identifier?, hs] at h

theorem overflow_refuse (s : State) : s.refuse.overflow ≠ none := by
  cases h : s.overflow <;> simp [refuse, h]

end State

theorem Test.rest_ne_nil {t : Test} (ht : t.wantsLexeme = true) {s : State}
    (h : s.passes t = true) : s.rest ≠ [] := by
  intro hs
  simp only [State.passes, hs] at h
  induction t with
  | kind | oneOf | word | known => simp [Test.holds] at h
  | finish | negate => simp [Test.wantsLexeme] at ht
  | both t u iht ihu =>
    simp only [Test.wantsLexeme, Bool.or_eq_true] at ht
    simp only [Test.holds, Bool.and_eq_true] at h
    rcases ht with ht | ht
    · exact iht ht h.1
    · exact ihu ht h.2

/-- A test looks at the first lexeme alone. -/
theorem Test.holds_append {t : Test} {table : SymbolTable} {u : List Lexeme} (hu : u ≠ [])
    (v : List Lexeme) : t.holds table (u ++ v) = t.holds table u := by
  obtain ⟨x, u, rfl⟩ := List.exists_cons_of_ne_nil hu
  induction t with
  | kind | oneOf | word | known | finish => rfl
  | negate t ih => simp only [Test.holds, ih]
  | both t u iht ihu => simp only [Test.holds, iht, ihu]

/-- The rule `r` has a run from `s` to `t` with the answer given, in the room
given. At the end of the lexemes the run asks only tests that `seen` allows. -/
inductive Runs (body : Guarded → Rule) (seen : Test → Prop) :
    Nat → Rule → State → Bool → State → Prop where
  | accept {n s} : Runs body seen n .accept s true s
  | reject {n s} : Runs body seen n .reject s false s
  | peek {n t s b} (hs : s.rest = [] → seen t) (ht : s.passes t = b) :
      Runs body seen n (.peek t) s b s
  | take {n t s} (hs : s.rest ≠ []) (ht : s.passes t = true) :
      Runs body seen n (.take t) s true s.advance
  | miss {n t s} (hs : s.rest = [] → seen t) (ht : s.passes t = false) :
      Runs body seen n (.take t) s false s
  | yes {n first yes no s m b t} : Runs body seen n first s true m →
      Runs body seen n yes m b t → Runs body seen n (.branch first yes no) s b t
  | no {n first yes no s m b t} : Runs body seen n first s false m →
      Runs body seen n no m b t → Runs body seen n (.branch first yes no) s b t
  | keep {n r s t} : Runs body seen n r s true t → Runs body seen n (.attempt r) s true t
  | restore {n r s t} : Runs body seen n r s false t →
      Runs body seen n (.attempt r) s false { t with rest := s.rest }
  | done {n t r s} (hs : s.rest = [] → seen t) (ht : s.passes t = false) :
      Runs body seen n (.loop t r) s true s
  | again {n t r s m b u} (hs : s.rest = [] → seen t) (ht : s.passes t = true) :
      Runs body seen n r s true m → Runs body seen n (.loop t r) m b u →
      Runs body seen n (.loop t r) s b u
  | stop {n t r s u} (hs : s.rest = [] → seen t) (ht : s.passes t = true) :
      Runs body seen n r s false u → Runs body seen n (.loop t r) s false u
  | declare {n k next s name b t} (hs : s.identifier? = some name) :
      Runs body seen n (next name) (s.declare name k).advance b t →
      Runs body seen n (.declare k next) s b t
  | nameless {n k next s} (hs : s.rest = [] → seen (.kind .identifier))
      (hn : s.identifier? = none) : Runs body seen n (.declare k next) s false s
  | enclosed {n r s b t} : Runs body seen n r { s with table := s.table.push } b t →
      Runs body seen n (.enclosed r) s b { t with table := t.table.close }
  | call {n g s b t} (hs : s.overflow = none) : Runs body seen n (body g) s b t →
      Runs body seen (n + 1) (.call g) s b t
  | refuse {g s} (hs : s.rest = [] → seen .finish) : Runs body seen 0 (.call g) s false s.refuse
  | refused {n g s o} (hs : s.overflow = some o) : Runs body seen (n + 1) (.call g) s false s

/-- A run of the whole source: every test may be asked at the end. -/
abbrev FullRuns (body : Guarded → Rule) := Runs body fun _ => True

/-- A run that is decided by the lexemes given, whatever follows them. -/
abbrev OpenRuns (body : Guarded → Rule) := Runs body fun _ => False

namespace Runs

variable {body : Guarded → Rule} {seen : Test → Prop} {n : Nat} {r : Rule} {s t : State} {b : Bool}

/-- A run may be allowed to ask more at the end. -/
theorem mono {seen' : Test → Prop} (hseen : ∀ q, seen q → seen' q)
    (h : Runs body seen n r s b t) : Runs body seen' n r s b t := by
  induction h with
  | accept => exact .accept
  | reject => exact .reject
  | peek hs ht => exact .peek (fun h => hseen _ (hs h)) ht
  | take hs ht => exact .take hs ht
  | miss hs ht => exact .miss (fun h => hseen _ (hs h)) ht
  | yes _ _ ihf ihy => exact .yes ihf ihy
  | no _ _ ihf ihn => exact .no ihf ihn
  | keep _ ih => exact .keep ih
  | restore _ ih => exact .restore ih
  | done hs ht => exact .done (fun h => hseen _ (hs h)) ht
  | again hs ht _ _ ihb ihl => exact .again (fun h => hseen _ (hs h)) ht ihb ihl
  | stop hs ht _ ih => exact .stop (fun h => hseen _ (hs h)) ht ih
  | declare hs _ ih => exact .declare hs ih
  | nameless hs hn => exact .nameless (fun h => hseen _ (hs h)) hn
  | enclosed _ ih => exact .enclosed ih
  | call hs _ ih => exact .call hs ih
  | refuse hs => exact .refuse fun h => hseen _ (hs h)
  | refused hs => exact .refused hs

/-- A run that is decided by the lexemes given may be allowed any question. -/
theorem of_open (h : OpenRuns body n r s b t) : Runs body seen n r s b t :=
  h.mono fun _ => False.elim

/-- No run, accepting or rejecting, gives back more than it was given. -/
theorem suffix (h : Runs body seen n r s b t) : t.rest <:+ s.rest := by
  induction h with
  | accept | reject | peek | miss | done | nameless | refuse | refused | restore =>
    exact List.suffix_refl _
  | take => exact List.tail_suffix _
  | yes _ _ ihf ihy => exact ihy.trans ihf
  | no _ _ ihf ihn => exact ihn.trans ihf
  | keep _ ih | stop _ _ _ ih | enclosed _ ih | call _ _ ih => exact ih
  | again _ _ _ _ ihb ihl => exact ihl.trans ihb
  | declare _ _ ih => exact ih.trans (List.tail_suffix _)

/-- A refused call stays on record. -/
theorem overflow_eq_none (h : Runs body seen n r s b t) (ht : t.overflow = none) :
    s.overflow = none := by
  induction h with
  | accept | reject | peek | take | miss | done | nameless => exact ht
  | yes _ _ ihf ihy => exact ihf (ihy ht)
  | no _ _ ihf ihn => exact ihf (ihn ht)
  | keep _ ih | restore _ ih | stop _ _ _ ih | declare _ _ ih | enclosed _ ih | call _ _ ih =>
    exact ih ht
  | again _ _ _ _ ihb ihl => exact ihb (ihl ht)
  | @refuse _ s => exact absurd ht s.overflow_refuse
  | refused hs => exact ht

/-- The end of the source stays where it is. -/
theorem size_eq (h : Runs body seen n r s b t) : t.size = s.size := by
  induction h with
  | accept | reject | peek | take | miss | done | nameless | refuse | refused => rfl
  | yes _ _ ihf ihy => exact ihy.trans ihf
  | no _ _ ihf ihn => exact ihn.trans ihf
  | keep _ ih | restore _ ih | stop _ _ _ ih | declare _ _ ih | enclosed _ ih | call _ _ ih =>
    exact ih
  | again _ _ _ _ ihb ihl => exact ihl.trans ihb

/-- An accepting run of a consuming rule moves forward. -/
theorem length_lt (hb : ∀ g, (body g).consumes = true) (h : Runs body seen n r s b t)
    (ha : b = true) (hr : r.consumes = true) : t.rest.length < s.rest.length := by
  induction h with
  | accept | peek | done => simp [Rule.consumes] at hr
  | reject | miss | restore | stop | nameless | refuse | refused => cases ha
  | @take _ t s hs ht =>
    have := List.length_pos_iff.2 hs
    simp only [State.rest_advance, List.length_tail]
    omega
  | yes hf hy ihf ihy =>
    simp only [Rule.consumes, Bool.and_eq_true, Bool.or_eq_true] at hr
    have hlf := hf.suffix.length_le
    have hly := hy.suffix.length_le
    rcases hr.1 with hr | hr
    · have := ihf rfl hr; omega
    · have := ihy ha hr; omega
  | no hf _ _ ihn =>
    simp only [Rule.consumes, Bool.and_eq_true] at hr
    have hlf := hf.suffix.length_le
    have := ihn ha hr.2
    omega
  | keep _ ih | enclosed _ ih => exact ih ha hr
  | again => simp [Rule.consumes] at hr
  | @declare _ _ _ s _ _ _ hs h _ =>
    have hne := State.rest_ne_nil_of_identifier? hs
    have hl := h.suffix.length_le
    have := List.length_pos_iff.2 hne
    simp only [State.rest_advance, State.declare, List.length_tail] at hl
    omega
  | @call _ g _ _ _ _ _ ih => exact ih ha (hb g)

/-- The answer and the final state of a run are determined. -/
theorem unique {seen' : Test → Prop} {b' : Bool} {t' : State} (h : Runs body seen n r s b t)
    (h' : Runs body seen' n r s b' t') : b = b' ∧ t = t' := by
  induction h generalizing b' t' with
  | accept | reject | refuse => cases h'; exact ⟨rfl, rfl⟩
  | peek _ ht =>
    cases h' with
    | peek _ ht' => exact ⟨ht.symm.trans ht', rfl⟩
  | take _ ht | miss _ ht =>
    cases h' with
    | take _ ht' | miss _ ht' => simp_all
  | yes _ _ ihf ihy =>
    cases h' with
    | yes hf hy => obtain ⟨-, rfl⟩ := ihf hf; exact ihy hy
    | no hf _ => cases (ihf hf).1
  | no _ _ ihf ihn =>
    cases h' with
    | yes hf _ => cases (ihf hf).1
    | no hf hn => obtain ⟨-, rfl⟩ := ihf hf; exact ihn hn
  | keep _ ih =>
    cases h' with
    | keep h => exact ih h
    | restore h => cases (ih h).1
  | restore _ ih =>
    cases h' with
    | keep h => cases (ih h).1
    | restore h => obtain ⟨-, rfl⟩ := ih h; exact ⟨rfl, rfl⟩
  | done _ ht =>
    cases h' with
    | done => exact ⟨rfl, rfl⟩
    | again _ ht' | stop _ ht' => simp_all
  | again _ ht _ _ ihb ihl =>
    cases h' with
    | done _ ht' => simp_all
    | again _ _ hb hl => obtain ⟨-, rfl⟩ := ihb hb; exact ihl hl
    | stop _ _ hb => cases (ihb hb).1
  | stop _ ht _ ih =>
    cases h' with
    | done _ ht' => simp_all
    | again _ _ hb _ => cases (ih hb).1
    | stop _ _ hb => exact ih hb
  | declare hs _ ih =>
    cases h' with
    | declare hs' h => cases hs.symm.trans hs'; exact ih h
    | nameless _ hn => cases hs.symm.trans hn
  | nameless _ hn =>
    cases h' with
    | declare hs' _ => cases hn.symm.trans hs'
    | nameless => exact ⟨rfl, rfl⟩
  | enclosed _ ih =>
    cases h' with
    | enclosed h => obtain ⟨rfl, rfl⟩ := ih h; exact ⟨rfl, rfl⟩
  | call hs _ ih =>
    cases h' with
    | call _ h => exact ih h
    | refused hs' => cases hs.symm.trans hs'
  | refused hs =>
    cases h' with
    | call hs' _ => cases hs.symm.trans hs'
    | refused => exact ⟨rfl, rfl⟩

/-- An accepted sequence is an accepting run of each of its parts. -/
theorem of_andThen {q : Rule} (h : Runs body seen n (r.andThen q) s true t) :
    ∃ m, Runs body seen n r s true m ∧ Runs body seen n q m true t := by
  cases h with
  | yes hf hy => exact ⟨_, hf, hy⟩
  | no _ hn => cases hn

/-- A rejected sequence ends in the part that rejects. -/
theorem rejected_andThen {q : Rule} (h : Runs body seen n (r.andThen q) s false t) :
    Runs body seen n r s false t ∨
      ∃ m, Runs body seen n r s true m ∧ Runs body seen n q m false t := by
  cases h with
  | yes hf hy => exact .inr ⟨_, hf, hy⟩
  | no hf hn =>
    cases hn
    exact .inl hf

/-- An accepted choice is an accepting run of the first rule, or of the second one after it. -/
theorem of_orElse {q : Rule} (h : Runs body seen n (r.orElse q) s true t) :
    Runs body seen n r s true t ∨
      ∃ m, Runs body seen n r s false m ∧ Runs body seen n q m true t := by
  cases h with
  | yes hf hy =>
    cases hy
    exact .inl hf
  | no hf hn => exact .inr ⟨_, hf, hn⟩

/-- In a rejected choice both rules reject, one after the other. -/
theorem rejected_orElse {q : Rule} (h : Runs body seen n (r.orElse q) s false t) :
    ∃ m, Runs body seen n r s false m ∧ Runs body seen n q m false t := by
  cases h with
  | yes _ hy => cases hy
  | no hf hn => exact ⟨_, hf, hn⟩

/-- An attempt is kept, or it is given back and the other rule decides. -/
theorem of_attemptOr {q : Rule} (h : Runs body seen n ((Rule.attempt r).orElse q) s b t) :
    b = true ∧ Runs body seen n r s true t ∨
      ∃ m, Runs body seen n r s false m ∧ Runs body seen n q { m with rest := s.rest } b t := by
  cases h with
  | yes hf hy =>
    cases hy
    cases hf with
    | keep hf => exact .inl ⟨rfl, hf⟩
  | no hf hn =>
    cases hf with
    | restore hf => exact .inr ⟨_, hf, hn⟩

/-- A choice by the next lexeme runs as one of its two rules. -/
theorem of_when {c : Test} {q : Rule} (h : Runs body seen n (.when c r q) s b t) :
    s.passes c = true ∧ Runs body seen n r s b t ∨
      s.passes c = false ∧ Runs body seen n q s b t := by
  cases h with
  | yes hf hy =>
    cases hf with
    | peek _ hp => exact .inl ⟨hp, hy⟩
  | no hf hn =>
    cases hf with
    | peek _ hp => exact .inr ⟨hp, hn⟩

/-- What holds when a loop ends, and passes from its later rounds to its earlier
ones, holds of its runs. -/
@[elab_as_elim] theorem loop_induction {q : Test}
    {motive : ∀ s t b, Runs body seen n (.loop q r) s b t → Prop}
    (done : ∀ s (hs : s.rest = [] → seen q) (hq : s.passes q = false),
      motive s s true (.done hs hq))
    (again : ∀ s m t b (hs : s.rest = [] → seen q) (hq : s.passes q = true)
      (hr : Runs body seen n r s true m) (hl : Runs body seen n (.loop q r) m b t),
      motive m t b hl → motive s t b (.again hs hq hr hl))
    (stop : ∀ s t (hs : s.rest = [] → seen q) (hq : s.passes q = true)
      (hr : Runs body seen n r s false t), motive s t false (.stop hs hq hr))
    (h : Runs body seen n (.loop q r) s b t) : motive s t b h := by
  suffices ∀ l (h : Runs body seen n l s b t) (hl : l = .loop q r), motive s t b (hl ▸ h) from
    this _ h rfl
  intro l h
  induction h with
  | done hs ht => intro hl; cases hl; exact done _ hs ht
  | again hs ht hr hn _ ih =>
    intro hl
    cases hl
    exact again _ _ _ _ hs ht hr hn (ih done again stop hn rfl)
  | stop hs ht hr => intro hl; cases hl; exact stop _ _ hs ht hr
  | _ => intro hl; cases hl

/-- A run keeps its course when lexemes that answer its last questions as the
end did are put behind its own. -/
theorem extend {v : List Lexeme} (h : Runs body seen n r s b t)
    (hv : ∀ q, seen q → ∀ table, q.holds table v = q.holds table []) :
    FullRuns body n r (s.extend v) b (t.extend v) := by
  have passes (s : State) (q : Test) (hs : s.rest = [] → seen q) :
      (s.extend v).passes q = s.passes q := by
    by_cases he : s.rest = []
    · simpa only [State.passes, State.rest_extend, State.table_extend, he, List.nil_append]
        using hv q (hs he) s.table
    · exact Test.holds_append he v
  induction h with
  | accept => exact .accept
  | reject => exact .reject
  | @peek _ q s _ hs ht => exact .peek (fun _ => trivial) ((passes s q hs).trans ht)
  | @take _ q s hs ht =>
    rw [← State.advance_extend hs]
    exact .take (by simp [hs]) ((passes s q (absurd · hs)).trans ht)
  | @miss _ q s hs ht => exact .miss (fun _ => trivial) ((passes s q hs).trans ht)
  | yes _ _ ihf ihy => exact .yes ihf ihy
  | no _ _ ihf ihn => exact .no ihf ihn
  | keep _ ih => exact .keep ih
  | @restore _ _ _ t _ ih => exact Runs.restore (t := t.extend v) ih
  | @done _ q _ s hs ht => exact .done (fun _ => trivial) ((passes s q hs).trans ht)
  | @again _ q _ s _ _ _ hs ht _ _ ihb ihl =>
    exact .again (fun _ => trivial) ((passes s q hs).trans ht) ihb ihl
  | @stop _ q _ s _ hs ht _ ih =>
    exact .stop (fun _ => trivial) ((passes s q hs).trans ht) ih
  | @declare _ k _ s name _ _ hs _ ih =>
    have hne := State.rest_ne_nil_of_identifier? hs
    rw [← State.advance_extend (s := s.declare name k) hne] at ih
    exact .declare ((State.identifier?_extend hne v).trans hs) ih
  | @nameless _ _ _ s hs hn =>
    refine .nameless (fun _ => trivial) ?_
    by_cases he : s.rest = []
    · have := hv _ (hs he) s.table
      cases v with
      | nil => simpa [State.extend] using hn
      | cons x v => simpa [State.identifier?, he, Test.holds] using this
    · exact (State.identifier?_extend he v).trans hn
  | @enclosed _ _ s _ t _ ih => exact Runs.enclosed (s := s.extend v) ih
  | call hs _ ih => exact .call hs ih
  | @refuse _ s hs =>
    have hm : s.refuse.extend v = (s.extend v).refuse := by
      by_cases he : s.rest = []
      · have hv := hv _ (hs he) s.table
        simp only [Test.holds, List.isEmpty_nil, List.isEmpty_iff] at hv
        simp [hv, State.extend, State.refuse, State.position]
      · obtain ⟨x, rest, hx⟩ := List.exists_cons_of_ne_nil he
        simp [State.refuse, State.extend, State.position, hx]
    rw [hm]
    exact .refuse fun _ => trivial
  | refused hs => exact .refused hs

/-- A run that is decided by the lexemes given goes on in the same way before any others. -/
theorem extend_of_open (h : OpenRuns body n r s b t) (v : List Lexeme) :
    FullRuns body n r (s.extend v) b (t.extend v) := h.extend fun _ => False.elim

/-- A run in which no call is refused has the same course in any larger room. -/
theorem room_mono {m : Nat} (h : Runs body seen n r s b t) (ht : t.overflow = none)
    (hm : n ≤ m) : Runs body seen m r s b t := by
  induction h generalizing m with
  | accept => exact .accept
  | reject => exact .reject
  | peek hs hp => exact .peek hs hp
  | take hs hp => exact .take hs hp
  | miss hs hp => exact .miss hs hp
  | yes _ hy ihf ihy => exact .yes (ihf (hy.overflow_eq_none ht) hm) (ihy ht hm)
  | no _ hn ihf ihn => exact .no (ihf (hn.overflow_eq_none ht) hm) (ihn ht hm)
  | keep _ ih => exact .keep (ih ht hm)
  | restore _ ih => exact .restore (ih ht hm)
  | done hs hp => exact .done hs hp
  | again hs hp _ hl ihb ihl =>
    exact .again hs hp (ihb (hl.overflow_eq_none ht) hm) (ihl ht hm)
  | stop hs hp _ ih => exact .stop hs hp (ih ht hm)
  | declare hs _ ih => exact .declare hs (ih ht hm)
  | nameless hs hn => exact .nameless hs hn
  | enclosed _ ih => exact .enclosed (ih ht hm)
  | call hs _ ih =>
    obtain ⟨m, rfl⟩ : ∃ k, m = k + 1 := ⟨m - 1, by omega⟩
    exact .call hs (ih ht (by omega))
  | @refuse _ s => exact absurd ht s.overflow_refuse
  | refused hs => cases ht.symm.trans hs

end Runs

section Agreement

variable {body : Guarded → Rule}

/-- A loop on enough fuel runs as its rule does. -/
theorem runs_loop (hb : ∀ g, (body g).consumes = true) {n : Nat} {q : Test} {r : Rule}
    {step : Step} (hr : r.consumes = true)
    (hstep : ∀ s, FullRuns body n r s (step s).1 (step s).2) (clock : List Lexeme) (s : State)
    (hs : s.rest.length ≤ clock.length) :
    FullRuns body n (.loop q r) s (Step.loop q step clock s).1 (Step.loop q step clock s).2 := by
  induction clock generalizing s with
  | nil =>
    have hnil : s.rest.length = 0 := by simpa using hs
    by_cases hp : s.passes q = true
    · have hrun := hstep s
      cases hanswer : (step s).1 with
      | true =>
        rw [hanswer] at hrun
        have := hrun.length_lt hb rfl hr
        omega
      | false =>
        rw [hanswer] at hrun
        simpa [Step.loop, hp] using Runs.stop (fun _ => trivial) hp hrun
    · simpa [Step.loop, hp] using Runs.done (fun _ => trivial) (by simpa using hp)
  | cons x clock ih =>
    by_cases hp : s.passes q = true
    · have hrun := hstep s
      rcases hm : step s with ⟨answer, m⟩
      rw [hm] at hrun
      cases answer with
      | true =>
        have hlt : m.rest.length < s.rest.length := hrun.length_lt hb rfl hr
        have hnext := ih m (by simp only [List.length_cons] at hs; omega)
        simpa [Step.loop, hp, hm] using Runs.again (fun _ => trivial) hp hrun hnext
      | false => simpa [Step.loop, hp, hm] using Runs.stop (fun _ => trivial) hp hrun
    · simpa [Step.loop, hp] using Runs.done (fun _ => trivial) (by simpa using hp)

/-- Rules whose calls run as they should run as they should. -/
theorem runs_exec (hb : ∀ g, (body g).consumes = true) {n : Nat} {callee : Guarded → Step}
    (hc : ∀ g s, FullRuns body n (.call g) s (callee g s).1 (callee g s).2) {r : Rule}
    (hr : r.Meets .productive) (s : State) :
    FullRuns body n r s (r.exec callee s).1 (r.exec callee s).2 := by
  induction r generalizing s with
  | accept => exact .accept
  | reject => exact .reject
  | peek => exact .peek (fun _ => trivial) rfl
  | take t =>
    by_cases hp : s.passes t = true
    · simpa [Rule.exec, hp] using Runs.take (Test.rest_ne_nil hr hp) hp
    · simpa [Rule.exec, hp] using Runs.miss (fun _ => trivial) (by simpa using hp)
  | branch first yes no ihf ihy ihn =>
    obtain ⟨hf, hy, hn⟩ := hr
    have hfirst := ihf hf s
    rcases hm : first.exec callee s with ⟨answer, m⟩
    rw [hm] at hfirst
    cases answer with
    | true => simpa [Rule.exec, Step.branch, hm] using Runs.yes hfirst (ihy hy m)
    | false => simpa [Rule.exec, Step.branch, hm] using Runs.no hfirst (ihn hn m)
  | attempt r ih =>
    have hrun := ih hr.2 s
    rcases hm : r.exec callee s with ⟨answer, m⟩
    rw [hm] at hrun
    cases answer with
    | true => simpa [Rule.exec, Step.attempt, hm] using Runs.keep hrun
    | false => simpa [Rule.exec, Step.attempt, hm] using Runs.restore hrun
  | loop t r ih => exact runs_loop hb hr.1 (ih hr.2) s.rest s (Nat.le_refl _)
  | declare k next ih =>
    cases hname : s.identifier? with
    | some name =>
      simpa [Rule.exec, hname] using Runs.declare hname (ih name (hr.2 name) _)
    | none => simpa [Rule.exec, hname] using Runs.nameless (fun _ => trivial) hname
  | enclosed r ih => exact .enclosed (ih hr.2 _)
  | call g => exact hc g s

/-- Guarded calls run as they should. -/
theorem runs_enter (hb : ∀ g, (body g).consumes = true) (hp : ∀ g, (body g).Meets .productive)
    (n : Nat) (g : Guarded) (s : State) :
    FullRuns body n (.call g) s (enter body n g s).1 (enter body n g s).2 := by
  induction n generalizing g s with
  | zero => exact .refuse fun _ => trivial
  | succ n ih =>
    cases ho : s.overflow with
    | none => simpa [enter, ho] using Runs.call ho (runs_exec hb ih (hp g) s)
    | some o => simpa [enter, ho] using Runs.refused ho

/-- The runs of a rule are the results of running it. -/
theorem run_eq_iff (hb : ∀ g, (body g).consumes = true) (hp : ∀ g, (body g).Meets .productive)
    {n : Nat} {r : Rule} (hr : r.Meets .productive) {s t : State} {b : Bool} :
    r.run body n s = (b, t) ↔ FullRuns body n r s b t := by
  have hrun := runs_exec hb (runs_enter hb hp n) hr s
  constructor
  · intro h
    rw [Rule.run] at h
    rwa [h] at hrun
  · intro h
    obtain ⟨h₁, h₂⟩ := hrun.unique h
    exact Prod.ext h₁ h₂

end Agreement
end Recognizer.Grammar
