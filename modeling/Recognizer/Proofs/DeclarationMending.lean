import Recognizer.Proofs.Declarations
import Recognizer.Proofs.Quiet

/-!
# Completing declarations

Every declaration that was cut short at the end of the lexemes can be completed. A
statement is cut short behind its labels or as a type definition, because all other
forms are given back; the forms that are tried before a type definition do not get in
its way. A template whose attempts were cut short is completed as the first of them.
-/
namespace Recognizer

/-- The pieces that complete type definitions. -/
def Piece.ends : List Piece := .mark .semicolon :: tails

/-- The pieces that complete declarations, apart from the names of structures. -/
def Piece.fillers : List Piece :=
  ends ++ [.mark .openParen, .mark .less, .mark .openBrace, .mark .closeBrace, .mark .plus,
    .name Keyword.void.bytes]

namespace Grammar

variable {prefs : GrammarPreferences} {P : Piece → Prop} {N : Bytes → Prop} {n : Nat}
  {r q : Rule} {s t : State} {b : Bool} {v : List Lexeme} {F : List Lexeme → Prop}

namespace Mends

/-- A rule that gives everything back when it rejects is not cut short. -/
theorem of_given (hr : Closing prefs (fun _ => False) n r)
    (hgiven : ∀ s t, FullRuns (body prefs) n r s false t → t.rest = s.rest) :
    Mends prefs P N n r F := by
  intro s b t h hs ht ho
  cases b with
  | true => exact .of_open (hr.isOpen h) ht ho
  | false => exact absurd ((hgiven s t h).symm.trans ht) hs.rest_ne_nil

/-- A type definition and what completes it. -/
theorem typeDefinition (hP : ∀ p ∈ Piece.ends, P p) :
    Mends prefs P N n Grammar.typeDefinition F := by
  have he : Mends prefs P N n expression (Phrase.Precedes .expression) :=
    (calls (Piece.allowed hP (by decide)) n).1
  have hname : Supplies prefs n (.declare .type fun _ => .kind .semicolon)
      [.x, .mark .semicolon] F := .declare (.kind .semicolon)
  have hend : Mends prefs P N n (.declare .type fun _ => .kind .semicolon) F :=
    declare (fun _ _ => take _) (fun _ _ => .kind .semicolon) (Piece.allowed hP (by decide))
  refine branchTake (andThen he (.of_straight plain_expression.straight) hend hname
    (.avoids (by decide)) (Piece.allowed hP (by decide))) reject fun s b t h ho => ?_
  exact ⟨_, Piece.allowed hP (by decide), (supplies_expression (h.one_le_of_andThen ho)).andThen
    hname (.avoids (by decide))⟩

end Mends

/-! ### Statements -/

theorem earlierForms_quiet {r : Rule} (hr : r ∈ earlierForms prefs) : Quiet prefs n r := by
  simp only [earlierForms, List.mem_cons, List.not_mem_nil, or_false] at hr
  rcases hr with rfl | rfl | rfl
  · exact .simple
  · exact .assignment
  · exact .construction

/-- Where a silent attempt would leave the same as the rule after it, one of them does. -/
theorem Leaves.attemptOr (hr : r.Meets .productive) (hsteady : r.Meets .steady)
    (hquiet : ∀ b t, FullRuns (body prefs) n r s b t → t.overflow = none)
    (haccept : ∀ t, FullRuns (body prefs) n r s true t → t.rest = v)
    (hq : Leaves prefs n q s v) : Leaves prefs n ((Rule.attempt r).orElse q) s v := by
  have hrun := runs_perform prefs n hr s
  have ho := hquiet _ _ hrun
  cases hb : (perform prefs n r s).1 with
  | true =>
    rw [hb] at hrun
    exact .yes (.keep hrun) ⟨_, .accept, haccept _ hrun, ho⟩
  | false =>
    rw [hb] at hrun
    have hrestore := Runs.restore hrun
    rw [hrestore.eq_of_restore hsteady ho] at hrestore
    exact .no hrestore hq

/-- Before a type definition the forms that are tried first are no hindrance. -/
theorem Leaves.statementForms {w : List Lexeme} (hw : Calm w)
    (hforms : ∀ r ∈ earlierForms prefs, ∃ u, FullRuns (body prefs) n r s false u ∧
      u.overflow = none)
    (h : Leaves prefs n typeDefinition (s.extend w) v) :
    Leaves prefs n (Grammar.statementForms prefs) (s.extend w) v := by
  obtain ⟨t, hrun, ht, ho⟩ := h
  have tries {r q : Rule} (hr : r ∈ earlierForms prefs) (hq : Leaves prefs n q (s.extend w) v) :
      Leaves prefs n ((Rule.attempt r).orElse q) (s.extend w) v := by
    obtain ⟨u, hu, huo⟩ := hforms r hr
    refine .attemptOr (earlierForms_productive hr) (earlierForms_steady hr)
      (fun b t' h => earlierForms_quiet hr hu huo hw h) (fun t' h => ?_) hq
    exact ((earlierForms_shuts hr).rest_eq .typeDefinition h hrun rfl).trans ht
  obtain ⟨hne, hstart⟩ := Closing.typeDefinition_start hrun
  have hcontrol : FullRuns (body prefs) n (.attempt (control prefs)) (s.extend w) false
      (s.extend w) :=
    Runs.restore (t := s.extend w) (Closing.control_rejects (fun _ _ => trivial) (hstart _))
  refine tries (by simp [earlierForms]) <| tries (by simp [earlierForms]) <|
    tries (by simp [earlierForms]) <| .no hcontrol ⟨t, hrun, ht, ho⟩

/-- A statement that is not given back begins as a type definition. -/
theorem forms_cut (h : FullRuns (body prefs) n (statementForms prefs) s false t)
    (ht : t.rest = []) (ho : t.overflow = none) :
    (∀ r ∈ earlierForms prefs, ∃ u, FullRuns (body prefs) n r s false u ∧ u.overflow = none) ∧
      FullRuns (body prefs) n typeDefinition s false t := by
  obtain ⟨hb, -⟩ | ⟨hforms, h⟩ := forms_cases h ho
  · cases hb
  refine ⟨hforms, ?_⟩
  rcases h.of_attemptOr with ⟨hb, -⟩ | ⟨m, hcontrol, hdef⟩
  · cases hb
  · obtain ⟨rfl, -⟩ := Closing.control_of_typeDefinition hcontrol hdef (.inr ht)
    exact hdef

theorem label_accepts (h : FullRuns (body prefs) n label s true t) :
    OpenRuns (body prefs) n label s true t := by
  obtain ⟨m, hname, hcolon⟩ := h.of_andThen
  cases hname with
  | take hne hp =>
    cases hcolon with
    | take hne' hp' => exact .yes (.take hne hp) (.take hne' hp')

/-- A label is not completed by anything but a colon. -/
theorem label_rejects {w : List Lexeme} (h : FullRuns (body prefs) n label s false t)
    (hs : s.rest ≠ []) (hw : Avoids [.colon] w) :
    FullRuns (body prefs) n (.attempt label) (s.extend w) false (s.extend w) := by
  rcases h.rejected_andThen with hname | ⟨m, hname, hcolon⟩
  · cases hname with
    | miss _ hp =>
      rw [← State.passes_append hs w] at hp
      exact Runs.restore (t := s.extend w) (.no (.miss (fun _ => trivial) hp) .reject)
  · cases hname with
    | take hne hp =>
      cases hcolon with
      | miss _ hp' =>
        have hmiss : (s.extend w).advance.passes (.kind .colon) = false := by
          rw [State.advance_extend hs]
          by_cases hm : s.advance.rest = []
          · rw [State.passes, State.rest_extend, hm]
            exact hw.kind (by simp) _
          · exact (State.passes_append hm w).trans hp'
        rw [← State.passes_append hs w] at hp
        exact Runs.restore (t := (s.extend w).advance)
          (.yes (.take (by simp [hs]) hp) (.miss (fun _ => trivial) hmiss))

/-- What completes a statement behind its labels, when there is room for it. -/
theorem supplies_statement {m : State} (h : FullRuns (body prefs) n statement m b t)
    (hm : m.rest = []) (ho : t.overflow = none) :
    Supplies prefs n statement [.x, .mark .semicolon] F := by
  obtain ⟨k, rfl, hk⟩ : ∃ k, n = k + 1 ∧ 1 ≤ k := by
    cases h with
    | refuse => exact absurd ho m.overflow_refuse
    | refused hmo => cases ho.symm.trans hmo
    | @call k _ _ _ _ _ h =>
      refine ⟨k, rfl, ?_⟩
      cases h with
      | yes hlabel =>
        cases hlabel with
        | keep hlabel =>
          have := hlabel.length_lt consumes_body rfl rfl
          simp [hm] at this
      | no _ hforms =>
        rcases hforms.of_attemptOr with ⟨-, hf⟩ | ⟨m, hf, hn⟩
        · exact hf.one_le_of_andThen ho
        · exact hf.one_le_of_andThen (hn.overflow_eq_none ho)
  refine .call fun s e v he hv hs hso => ?_
  have hsimple : Supplies prefs k simple [.x, .mark .semicolon] F :=
    (supplies_expression hk).andThen (.kind .semicolon) (.avoids (by decide))
  obtain ⟨u, hrun, hu⟩ := hsimple he hv hs hso
  have hlabel : FullRuns (body prefs) k (.attempt label) s false s := by
    obtain ⟨x, e, rfl, hx, he⟩ := List.map_eq_cons_iff.1 he
    obtain ⟨y, e, rfl, hy, -⟩ := List.map_eq_cons_iff.1 he
    have hxk : x.kind = .identifier := congrArg Prod.fst hx
    have hyk : y.kind = .semicolon := congrArg Prod.fst hy
    refine Runs.restore (t := s.advance)
      (.yes (.take (by simp [hs]) ?_) (.miss (fun _ => trivial) ?_))
    · simp [State.passes, hs, Test.holds, hxk]
    · simp [State.passes, hs, Test.holds, hyk]
  exact .no hlabel (.yes (.keep hrun) ⟨u, .accept, hu⟩)

/-- What completes a type definition opens nothing and is no colon. -/
theorem calm_of_ends {e : List Lexeme} {ps : List Piece} (he : e.map Lexeme.piece = ps)
    (hps : ∀ p ∈ ps, p ∈ Piece.ends) (hv : Begins .closeBrace v) :
    Calm (e ++ v) ∧ Avoids [.colon] (e ++ v) := by
  have hends : ∀ p ∈ Piece.ends, p.1 ∉ openers ∧ p.1 ∉ [Kind.colon] := by decide
  have hkinds (x : Lexeme) (hx : x ∈ e) : x.kind ∉ openers ∧ x.kind ∉ [Kind.colon] :=
    hends x.piece (hps _ (he ▸ List.mem_map_of_mem hx))
  obtain ⟨y, u, rfl, hy⟩ := hv
  refine ⟨⟨e, y, u, rfl, by simp [hy, closers], fun x hx => (hkinds x hx).1⟩, fun x hx => ?_⟩
  cases e with
  | nil =>
    cases hx
    simp [hy]
  | cons z e =>
    cases hx
    exact (hkinds x (by simp)).2

/-- A statement whose labels are followed by one that can be mended. -/
theorem Mends.statementBody (hP : ∀ p ∈ Piece.ends, P p)
    (hstatement : Mends prefs P N n statement (Begins .closeBrace)) :
    Mends prefs P N n (Grammar.statementBody prefs) (Begins .closeBrace) := by
  intro s b t h hs ht ho
  cases b with
  | true =>
    have hclosing := (Closing.statementBody (closing_statement prefs n) h).2
    refine ⟨[], by simp, fun e v he hv => ?_⟩
    obtain rfl := List.map_eq_nil_iff.1 he
    obtain ⟨y, u, rfl, hy⟩ := hv
    refine ⟨_, hclosing.extend fun q hq table => ?_, by simp [ht], ho⟩
    rw [hq.1]
    simp [Test.keyword, Test.holds, hy]
  | false =>
    cases h with
    | @yes _ _ _ _ _ m _ _ hlabel hrun =>
      cases hlabel with
      | keep hlabel =>
        refine .after (.keep (label_accepts hlabel)) ?_
        by_cases hm : m.rest = []
        · refine ⟨[.x, .mark .semicolon], Piece.allowed hP (by decide), fun e v he hv => ?_⟩
          exact supplies_statement hrun hm ho he hv (by simp [hm]) (hrun.overflow_eq_none ho)
        · exact hstatement hrun (hs.of_suffix hlabel.suffix hm) ht ho
    | no hlabel hforms =>
      have hsame := hlabel.eq_of_restore (by simp [label]) (hforms.overflow_eq_none ho)
      cases hlabel with
      | restore hlabel =>
        rw [hsame] at hforms
        obtain ⟨hearlier, hdef⟩ := forms_cut hforms ht ho
        obtain ⟨ps, hps, h⟩ := Mends.typeDefinition (P := (· ∈ Piece.ends)) (F := anything)
          (fun _ => id) hdef hs ht ho
        refine ⟨ps, fun p hp => hP p (hps p hp), fun e v he hv => ?_⟩
        obtain ⟨hcalm, hcolon⟩ := calm_of_ends he hps hv
        exact .no (label_rejects hlabel hs.rest_ne_nil hcolon)
          (.statementForms hcalm hearlier (h he trivial))

theorem mends_statement (hP : ∀ p ∈ Piece.ends, P p) (n : Nat) :
    Mends prefs P N n statement (Begins .closeBrace) := by
  induction n using Nat.strongRecOn with
  | ind n ih => exact .call fun m hm => .statementBody hP (ih m (by omega))

/-! ### Parts of declarations -/

theorem Begins.upTo {k : Kind} (h : Begins k v) (table : SymbolTable) :
    (Test.negate (.kind k)).holds table v = false := by
  obtain ⟨x, u, rfl, hx⟩ := h
  simp [Test.holds, hx]

/-- The rule can be mended, and supplied with the pieces given. -/
structure Completes (prefs : GrammarPreferences) (P : Piece → Prop) (N : Bytes → Prop) (n : Nat)
    (r : Rule) (ps : List Piece) (F : List Lexeme → Prop) : Prop where
  mends : Mends prefs P N n r F
  supplies : Supplies prefs n r ps F
  allowed : ∀ p ∈ ps, P p

namespace Completes

variable {G : List Lexeme → Prop} {ps qs : List Piece} {y : Rule} {c : Test}

theorem renews (h : Completes prefs P N n r ps F) : Renews prefs P n r F :=
  h.supplies.renews h.allowed

theorem take {p : Piece} (h : Supplies prefs n (.take c) [p] F) (hp : P p) :
    Completes prefs P N n (.take c) [p] F := ⟨.take c, h, by simpa using hp⟩

theorem kind {k : Kind} (hk : P (.mark k)) :
    Completes prefs P N n (Rule.kind k) [.mark k] F := take (.kind k) hk

theorem andThen (hr : Completes prefs P N n r ps F) (hopen : Opens prefs n r)
    (hq : Completes prefs P N n q qs G) (hF : Leads qs G F) :
    Completes prefs P N n (r.andThen q) (ps ++ qs) G where
  mends := .andThen hr.mends hopen hq.mends hq.supplies hF hq.allowed
  supplies := hr.supplies.andThen hq.supplies hF
  allowed p hp := (List.mem_append.1 hp).elim (hr.allowed p) (hq.allowed p)

/-- A lexeme and a rule behind it. -/
theorem before {p : Piece} (h : Completes prefs P N n (.take c) [p] anything)
    (hq : Completes prefs P N n q qs F) : Completes prefs P N n ((Rule.take c).andThen q)
      (p :: qs) F := h.andThen (.of_straight trivial) hq .anything

/-- A part that its first lexeme announces and that may be missing. -/
theorem announced (hy : Completes prefs P N n y ps F)
    (hc : ∀ table v, F v → c.holds table v = false) :
    Completes prefs P N n (.branch (.take c) y .accept) [] F where
  mends := .takeThen hy.mends .accept hy.supplies hy.allowed
  supplies := .skip .accept fun table e v he hv => by
    obtain rfl := List.map_eq_nil_iff.1 he
    exact hc table v hv
  allowed := by simp

/-- A part that is missing before the lexeme that closes it. -/
theorem absent {k : Kind} (hy : Mends prefs P N n y (Begins k)) :
    Completes prefs P N n (.orElse (.peek (.kind k)) y) [] (Begins k) where
  mends := .when .accept hy
  supplies := .none k
  allowed := by simp

/-- A lexeme, or a rule that need not be supplied then. -/
theorem takeOr {p : Piece} (h : Supplies prefs n (.take c) [p] F) (hp : P p)
    (hq : Mends prefs P N n q F) : Completes prefs P N n ((Rule.take c).orElse q) [p] F where
  mends := .orElse (.take c) trivial hq
  supplies := h.takeYes .accept (.nil fun _ => id)
  allowed := by simpa using hp

theorem delimited {o k : Kind} (hr : Completes prefs P N n r ps F) (hstraight : r.Meets .straight)
    (hF : ∀ v, Begins k v → F v) (hk : k ≠ .comma) (ho : P (.mark o)) (hc : P (.mark k)) :
    Completes prefs P N n (Rule.delimited o r k) [.mark o, .mark k] G where
  mends := .delimited hr.mends hstraight hr.renews hF hk hc
  supplies := .delimited o k
  allowed := by simpa using ⟨ho, hc⟩

theorem separated (hr : Completes prefs P N n r ps F) (hstraight : r.Meets .straight)
    (hG : ∀ v, G v → F v) (hcomma : ∀ v, G v → Avoids [.comma] v) :
    Completes prefs P N n (Rule.separated r) ps G where
  mends := .separated hr.mends hstraight hr.renews hG hcomma
  supplies := hr.supplies.separated hG hcomma
  allowed := hr.allowed

/-- Items up to the lexeme that closes them. -/
theorem upTo {k : Kind} (hr : Mends prefs P N n r (Begins k)) (hopen : Opens prefs n r)
    (hk : P (.mark k)) : Completes prefs P N n (Rule.upTo k r) [.mark k] F := by
  have hloop : Completes prefs P N n (.loop (.negate (.kind k)) r) [] (Begins k) :=
    ⟨.loop hr hopen fun table _ hv => hv.upTo table, .done fun table _ hv => hv.upTo table,
      by simp⟩
  exact hloop.andThen (.loop hopen) (kind hk) (.begins rfl)

theorem declare {k : Symbol.Kind} {next : Bytes → Rule} (hx : P .x)
    (hN : N (Bytes.ofAscii ['x'])) (h : ∀ name, N name → Completes prefs P N n (next name) ps F) :
    Completes prefs P N n (.declare k next) (.x :: ps) F where
  mends := .declare (fun name hname => (h name hname).mends)
    (fun name hname => (h name hname).supplies) (h _ hN).allowed
  supplies := .declare (h _ hN).supplies
  allowed := List.forall_mem_cons.2 ⟨hx, (h _ hN).allowed⟩

theorem enclosed (hr : Completes prefs P N n r ps F) :
    Completes prefs P N n (.enclosed r) ps F :=
  ⟨hr.mends.enclosed, hr.supplies.enclosed, hr.allowed⟩

end Completes

/-- A name that is not the keyword is not taken for it. -/
theorem keyword_rejects {k : Keyword} {w : Bytes} {e : List Lexeme} {ps : List Piece}
    (he : e.map Lexeme.piece = .name w :: ps) (hw : w ≠ k.bytes) (table : SymbolTable)
    (v : List Lexeme) : (Test.keyword k).holds table (e ++ v) = false := by
  obtain ⟨x, e, rfl, hx, -⟩ := List.map_eq_cons_iff.1 he
  have ht : x.text = w := congrArg Prod.snd hx
  simp [Test.keyword, Test.holds, ht, hw]

theorem opens_structureBody {name : Bytes} : Opens prefs n (structureBody name) := by
  have hclosing : Closing prefs (fun _ => False) n (structureBody name) := .structureBody
  exact .of_closing hclosing

section Declarations

variable (hP : ∀ p ∈ Piece.fillers, P p)
include hP

namespace Completes

theorem compound :
    Completes prefs P N n Grammar.compound [.mark .openBrace, .mark .closeBrace] F := by
  have hblock : Completes prefs P N n (Rule.upTo .closeBrace statement) [.mark .closeBrace] F :=
    upTo (mends_statement (Piece.allowed hP (by decide)) n)
      (.of_closing (closing_statement prefs n)) (hP _ (by decide))
  exact before (kind (hP _ (by decide))) hblock.enclosed

theorem identifier : Completes prefs P N n (Rule.kind .identifier) [.x] F :=
  take .identifier (hP _ (by decide))

/-- A procedure is named by an operator or by any name. -/
theorem procedureName : Completes prefs P N n Grammar.procedureName [.x] F := by
  have hoperator : Supplies prefs n overloadableOperator [.mark .plus] F :=
    .take fun table x u hx => by
      have hk : x.kind = .plus := congrArg Prod.fst hx
      simp [Test.holds, hk]
  refine ⟨.takeThen (.take _) ?_ hoperator (Piece.allowed hP (by decide)), ?_,
    Piece.allowed hP (by decide)⟩
  · exact .declare (fun _ _ => .accept) (fun _ _ => .accept) (by simp)
  · refine .skip (.declare .accept) fun table e v he _ => ?_
    exact keyword_rejects he (by decide) table v

theorem enumeration : Mends prefs P N n Grammar.enumeration F := by
  have hnames : Completes prefs P N n
      (Rule.delimited .openBrace (.kind .identifier) .closeBrace) _ anything :=
    delimited (F := anything) (identifier hP) trivial (fun _ _ => trivial) (by decide)
      (hP _ (by decide)) (hP _ (by decide))
  have hrest : Completes prefs P N n (.andThen (.kind .identifier) (.andThen
      (.delimited .openBrace (.kind .identifier) .closeBrace) (.kind .semicolon))) _ F :=
    before (identifier hP) <| hnames.andThen
      (.of_straight (by simp [Rule.delimited, Rule.separated])) (kind (hP _ (by decide))) .anything
  exact .takeThen hrest.mends .reject hrest.supplies hrest.allowed

theorem destructor {name : Bytes} (hname : P (.name name)) :
    Mends prefs P N n (Grammar.destructor name) F := by
  have hrest : Completes prefs P N n (.andThen (.word name) (.andThen (.kind .openParen)
      (.andThen (.kind .closeParen) Grammar.compound))) _ F :=
    before (take (.word name) hname) <| before (kind (hP _ (by decide))) <|
      before (kind (hP _ (by decide))) (compound hP)
  exact .takeThen hrest.mends .reject hrest.supplies hrest.allowed

section Room

variable (hn : 1 ≤ n)
include hn

theorem expression :
    Completes prefs P N n Grammar.expression [.x] (Phrase.Precedes .expression) :=
  ⟨(Mends.calls (Piece.allowed hP (by decide)) n).1, supplies_expression hn,
    Piece.allowed hP (by decide)⟩

/-- A parameter is completed with a name, whatever follows. -/
theorem parameter : Completes prefs P N n Grammar.parameter [.x, .x] F := by
  have hname : Completes prefs P N n (Rule.kind .identifier).optional [.x] F :=
    ⟨.optional (.take _), .takeYes .identifier .accept .anything, Piece.allowed hP (by decide)⟩
  exact andThen (expression hP hn) (.of_straight plain_expression.straight) hname
    (.avoids (by decide))

theorem parameters :
    Completes prefs P N n Grammar.parameters [.mark .openParen, .mark .closeParen] F :=
  delimited (F := anything) (parameter hP hn) plain_parameter.straight (fun _ _ => trivial)
    (by decide) (hP _ (by decide)) (hP _ (by decide))

theorem condition : Completes prefs P N n Grammar.condition
    [.mark .openParen, .x, .mark .closeParen] F :=
  before (kind (hP _ (by decide))) <| andThen (expression hP hn)
    (.of_straight plain_expression.straight) (kind (hP _ (by decide))) (.avoids (by decide))

theorem initializerList : Completes prefs P N n Grammar.initializerList
    [.x, .mark .openParen, .mark .closeParen] (Begins .openBrace) := by
  have harguments : Completes prefs P N n arguments [.mark .openParen, .mark .closeParen]
      anything :=
    delimited (expression hP hn) plain_expression.straight (fun v hv => hv.avoids (by decide))
      (by decide) (hP _ (by decide)) (hP _ (by decide))
  have hinitializer : Completes prefs P N n initializer
      [.x, .mark .openParen, .mark .closeParen] anything :=
    before (identifier hP) harguments
  exact separated hinitializer (by simp [initializer, plain_arguments.straight])
    (fun _ _ => trivial) fun v hv => hv.avoids (by decide)

theorem constructor (name : Bytes) : Mends prefs P N n (Grammar.constructor name) F := by
  have hinitial : Completes prefs P N n
      (.branch (.kind .colon) Grammar.initializerList .accept) [] (Begins .openBrace) :=
    announced (initializerList hP hn) fun table v hv => by
      have hcolon : Avoids [.colon] v := hv.avoids (by decide)
      exact hcolon.kind (by simp) table
  have hbody := hinitial.andThen (.of_straight (Rule.Meets.straight
    (by simp [Grammar.initializerList, initializer, Test.refuses, closers])))
    (compound hP (N := N) (F := F)) (.begins rfl)
  have hrest := (parameters hP hn (F := anything)).andThen
    (.of_straight plain_parameters.straight) hbody .anything
  exact .takeThen hrest.mends .reject hrest.supplies hrest.allowed

/-- A member that is not given back is a constructor, a destructor or a type definition. -/
theorem member {name : Bytes} (hname : P (.name name)) :
    Mends prefs P N n (Grammar.member name) F := by
  refine .when (constructor hP hn name) <| .when (destructor hP hname) <|
    .when (.typeDefinition (Piece.allowed hP (by decide))) ?_
  refine .of_given (Closing.dataMember.attemptOr .dataMember .assignOr) fun s t h => ?_
  obtain ⟨m₁, h₁, h⟩ := h.rejected_orElse
  obtain ⟨m₂, h₂, h⟩ := h.rejected_orElse
  obtain ⟨m₃, h₃, h₄⟩ := h.rejected_orElse
  cases h₁
  cases h₂
  cases h₃
  cases h₄
  rfl

theorem structureBody {name : Bytes} (hname : P (.name name)) : Completes prefs P N n
    (Grammar.structureBody name) [.mark .openBrace, .mark .closeBrace] F := by
  have hclosing : Closing prefs (fun _ => False) n (Grammar.member name) := .member
  exact before (kind (hP _ (by decide))) <|
    upTo (member hP hn hname) (.of_closing hclosing) (hP _ (by decide))

theorem procedure : Completes prefs P N n Grammar.procedure
    [.name Keyword.void.bytes, .x, .mark .openParen, .mark .closeParen, .mark .semicolon] F := by
  have htype : Completes prefs P N n (.orElse (.keyword .void) Grammar.expression)
      [.name Keyword.void.bytes] (Phrase.Precedes .expression) :=
    takeOr (.word _) (hP _ (by decide)) (expression hP hn).mends
  have hend : Completes prefs P N n (.orElse (.kind .semicolon) Grammar.compound)
      [.mark .semicolon] F := takeOr (.kind _) (hP _ (by decide)) (compound hP).mends
  refine htype.andThen (.of_straight (by simp [plain_expression.straight])) ?_ (.avoids (by decide))
  refine (procedureName hP).andThen
    (.of_straight (by simp [Grammar.procedureName, overloadableOperator])) ?_ .anything
  exact (parameters hP hn).andThen (.of_straight plain_parameters.straight) hend .anything

/-- What may follow the header of a template. -/
def unrequired (v : List Lexeme) : Prop :=
  ∀ table, (Test.keyword .requires).holds table v = false

theorem templateHeader : Mends prefs P N n Grammar.templateHeader unrequired := by
  have hlist : Completes prefs P N n parameterList [.x, .x] (Begins .greater) :=
    separated (F := anything) (parameter hP hn) plain_parameter.straight (fun _ _ => trivial)
      fun v hv => hv.avoids (by decide)
  have hrequires : Completes prefs P N n
      (.branch (.keyword .requires) Grammar.condition .accept) [] unrequired :=
    announced (condition hP hn) fun table v hv => hv table
  have hclosed : Completes prefs P N n (.andThen (.kind .greater)
      (.branch (.keyword .requires) Grammar.condition .accept)) [.mark .greater] unrequired :=
    before (kind (hP _ (by decide))) hrequires
  have hparameters := (absent hlist.mends).andThen (.of_straight (Rule.Meets.straight
    (by simp [parameterList]))) hclosed (.begins rfl)
  have hrest : Completes prefs P N n (.andThen (.kind .less) _) _ unrequired :=
    before (kind (hP _ (by decide))) hparameters
  exact .takeThen hrest.mends .reject hrest.supplies hrest.allowed

section Names

variable (hN : ∀ w, N w → P (.name w)) (hx : N (Bytes.ofAscii ['x']))
include hN hx

theorem structureDeclaration : Mends prefs P N n Grammar.structureDeclaration F := by
  have hrest : Completes prefs P N n (.declare .type fun name => .orElse (.kind .semicolon)
      (.andThen (Grammar.structureBody name) (.kind .semicolon))) [.x, .mark .semicolon] F := by
    refine declare (hP _ (by decide)) hx fun name hname => ?_
    have hbody : Completes prefs P N n
        (.andThen (Grammar.structureBody name) (.kind .semicolon)) _ F :=
      (structureBody hP hn (hN name hname) (F := anything)).andThen
        opens_structureBody
        (kind (hP _ (by decide))) .anything
    exact takeOr (.kind .semicolon) (hP _ (by decide)) hbody.mends
  exact .takeThen hrest.mends .reject hrest.supplies hrest.allowed

theorem specialization : Mends prefs P N n Grammar.specialization F := by
  have harguments : Completes prefs P N n templateArguments [.x, .mark .greater] anything :=
    ⟨(Mends.calls (Piece.allowed hP (by decide)) n).2 _, supplies_templateArguments hn,
      Piece.allowed hP (by decide)⟩
  have hrest : Completes prefs P N n (.declare .type fun name => .andThen (.kind .less)
      (.andThen templateArguments (.andThen (.orElse (.peek (.kind .semicolon))
        (Grammar.structureBody name)) (.kind .semicolon))))
      [.x, .mark .less, .x, .mark .greater, .mark .semicolon] F := by
    refine declare (hP _ (by decide)) hx fun name hname => before (kind (hP _ (by decide))) ?_
    have hbody : Completes prefs P N n (.orElse (.peek (.kind .semicolon))
        (Grammar.structureBody name)) [] (Begins .semicolon) :=
      absent (structureBody hP hn (hN name hname)).mends
    refine harguments.andThen (.of_straight plain_templateArguments.straight) ?_ .anything
    exact hbody.andThen (.peekOr opens_structureBody)
      (kind (hP _ (by decide))) (.begins rfl)
  exact .takeThen hrest.mends .reject hrest.supplies hrest.allowed

/-- After the header of a template, `struct` has begun a structure or a specialization that
was cut short, or else a procedure. -/
theorem structForms {m₁ m₂ : State} (hp : s.passes (.keyword .struct) = true)
    (hd : FullRuns (body prefs) n Grammar.structureDeclaration s false m₁)
    (hspec : FullRuns (body prefs) n Grammar.specialization { m₁ with rest := s.rest } false m₂)
    (hproc : FullRuns (body prefs) n Grammar.procedure { m₂ with rest := s.rest } false t)
    (hs : s.Live N) (ht : t.rest = []) (ho : t.overflow = none) :
    Mendable prefs P n Grammar.templateEnd F s := by
  have hpeek : OpenRuns (body prefs) n (.peek (.keyword .struct)) s true s :=
    .peek (absurd · hs.rest_ne_nil) hp
  have peeks (w : List Lexeme) : (s.extend w).passes (.keyword .struct) = true :=
    (State.passes_append hs.rest_ne_nil w).trans hp
  have ho₂ : m₂.overflow = none := hproc.overflow_eq_none ho
  have ho₁ : m₁.overflow = none := hspec.overflow_eq_none ho₂
  obtain ⟨hfirm₁, hfirm₂⟩ := firm_of_procedure hd hspec hproc (.inr ⟨ht, ho⟩)
  by_cases h₁ : m₁.rest = []
  · obtain ⟨ps, hps, h⟩ := structureDeclaration hP hn hN hx (F := F) hd hs h₁ ho₁
    refine ⟨ps, hps, fun e v he hv => ?_⟩
    obtain ⟨u, hu, huv⟩ := h he hv
    exact ⟨u, runs_templateEnd.2 (.declared (peeks _) hu), huv⟩
  have hd' := hfirm₁.isOpen (.inr h₁) prefs
  by_cases h₂ : m₂.rest = []
  · obtain ⟨ps, hps, h⟩ := specialization hP hn hN hx (F := F) hspec
      ⟨hs.rest_ne_nil, hs.names⟩ h₂ ho₂
    refine ⟨ps, hps, fun e v he hv => ?_⟩
    obtain ⟨u, hu, huv⟩ := h he hv
    exact ⟨u, runs_templateEnd.2 (.specialized (peeks _) (hd'.extend_of_open _) hu), huv⟩
  · have hspec' := hfirm₂.isOpen (.inr h₂) prefs
    exact .instead (.yes hpeek (.no (.restore hd') (.restore hspec')))
      ((procedure hP hn).mends hproc ⟨hs.rest_ne_nil, hs.names⟩ ht ho)

/-- What follows the header of a template, of whose forms the first one that was cut short
is completed. -/
theorem templateEnd : Mends prefs P N n Grammar.templateEnd F := by
  intro s b t h hs ht ho
  cases b with
  | true =>
    have hclosing : Closing prefs (fun _ => False) n Grammar.templateEnd := .templateEnd
    exact .of_open (hclosing.isOpen h) ht ho
  | false =>
    cases runs_templateEnd.1 h with
    | neither hp hd hspec hproc => exact structForms hP hn hN hx hp hd hspec hproc hs ht ho
    | plain _ hp hproc =>
      exact .instead (.no (.peek (absurd · hs.rest_ne_nil) hp) .reject)
        ((procedure hP hn).mends hproc hs ht ho)

theorem template : Mends prefs P N n Grammar.template F := by
  have hend : Supplies prefs n Grammar.templateEnd [.name Keyword.void.bytes, .x,
      .mark .openParen, .mark .closeParen, .mark .semicolon] F := by
    intro s e v he hv hs ho
    have hpeek : s.passes (.keyword .struct) = false := by
      rw [State.passes, hs]
      exact keyword_rejects he (by decide) _ v
    exact .no (.no (.peek (fun _ => trivial) hpeek) .reject)
      ((procedure hP hn (N := N)).supplies he hv hs ho)
  exact .andThen (templateHeader hP hn) (.of_straight plain_templateHeader.straight)
    (templateEnd hP hn hN hx) hend (fun e v he _ table => keyword_rejects he (by decide) table v)
    (Piece.allowed hP (by decide))

/-- Every form of declaration. -/
theorem declarationBody : Mends prefs P N n Grammar.declarationBody F :=
  .when (enumeration hP) <| .when (structureDeclaration hP hn hN hx) <|
    .when (template hP hn hN hx) (procedure hP hn).mends

end Names

end Room
end Completes

/-- Declarations that were cut short can be completed, in a room for one call more. -/
theorem mends_declaration (hN : ∀ w, N w → P (.name w)) (hx : N (Bytes.ofAscii ['x']))
    (hn : 2 ≤ n) : Mends prefs P N n declaration F :=
  .call fun m hm => Completes.declarationBody hP (by omega) hN hx

end Declarations
end Grammar
end Recognizer
