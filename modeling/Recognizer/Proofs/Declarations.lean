import Recognizer.Proofs.Scoping
import Recognizer.Proofs.Stray

/-!
# Locality of declarations

An accepted declaration depends on its own lexemes alone: it ends with a semicolon or
a closing brace and asks for nothing behind it. Attempts that were given back on the
way have not looked behind it either, because one that strays rules out all that are
tried after it.
-/
namespace Recognizer.Grammar

variable {prefs : GrammarPreferences} {n : Nat} {r q : Rule} {s t m : State} {b : Bool}
  {name : Bytes}

/-! ### The symbol table -/

/-- Runs of the rule leave the declared names as they are. -/
def Stays (prefs : GrammarPreferences) (n : Nat) (r : Rule) : Prop :=
  ∀ ⦃s b t⦄, FullRuns (body prefs) n r s b t → t.table = s.table

namespace Stays

theorem of_plain (hr : r.Meets .plain) : Stays prefs n r := fun _ _ _ h => h.table_eq hr.steady

theorem take {c : Test} : Stays prefs n (.take c) := by
  intro s b t h
  cases h <;> rfl

theorem andThen (hr : Stays prefs n r) (hq : Stays prefs n q) : Stays prefs n (r.andThen q) := by
  intro s b t h
  cases h with
  | yes hf hy => exact (hq hy).trans (hr hf)
  | no hf hn =>
    cases hn
    exact hr hf

theorem compound : Stays prefs n Grammar.compound := by
  intro s b t h
  have hrun := (perform_eq_iff productive_compound).2 h
  simpa only [hrun] using table_compound prefs n s

theorem applyOperator : Stays prefs n Grammar.applyOperator :=
  (of_plain plain_expression).andThen <| take.andThen <| take.andThen <| take.andThen <|
    (of_plain plain_parameters).andThen compound

end Stays

/-! ### Members -/

/-- Compounds are local in any room. -/
theorem closing_compound {last : Test → Prop} : Closing prefs last n compound :=
  .compound (closing_statement prefs n)

/-- From the state given an expression, `operator` and a lexeme of the kind are read. -/
def Overloads (prefs : GrammarPreferences) (n : Nat) (k : Kind) (s : State) : Prop :=
  ∃ m₁ m₂ m₃, FullRuns (body prefs) n expression s true m₁ ∧
    FullRuns (body prefs) n (.keyword .operator) m₁ true m₂ ∧
    FullRuns (body prefs) n (.kind k) m₂ true m₃

namespace Overloads

variable {k l : Kind}

theorem of_accepted (h : FullRuns (body prefs) n
    (.andThen expression (.andThen (.keyword .operator) (.andThen (.kind k) r))) s true t) :
    Overloads prefs n k s := by
  obtain ⟨m₁, hexpr, h⟩ := h.of_andThen
  obtain ⟨m₂, hop, h⟩ := h.of_andThen
  obtain ⟨m₃, hk, -⟩ := h.of_andThen
  exact ⟨m₁, m₂, m₃, hexpr, hop, hk⟩

theorem unique (h : Overloads prefs n k s) (h' : Overloads prefs n l s) : k = l := by
  obtain ⟨m₁, m₂, m₃, hexpr, hop, hk⟩ := h
  obtain ⟨u₁, u₂, u₃, hexpr', hop', hl⟩ := h'
  obtain ⟨-, rfl⟩ := hexpr.unique hexpr'
  obtain ⟨-, rfl⟩ := hop.unique hop'
  obtain ⟨x, hx, rfl, -⟩ := hk.taken
  obtain ⟨y, hy, rfl, -⟩ := hl.taken
  rw [hx] at hy
  rw [(List.cons.inj hy).1]

theorem overflow_eq_none (h : Overloads prefs n k s) : s.overflow = none := by
  obtain ⟨m₁, m₂, m₃, hexpr, -⟩ := h
  cases hexpr with
  | call ho => exact ho

/-- Behind `void` and `operator` stands the lexeme that the operator is read by. -/
theorem kind_of_void {v o e : Lexeme} {u : List Lexeme} (h : Overloads prefs n k s)
    (hs : s.rest = v :: o :: e :: u) (hv : v.Is .void) (ho : o.Is .operator) : e.kind = k := by
  obtain ⟨m₁, m₂, m₃, hexpr, hop, hk⟩ := h
  have hconst : ¬ v.Is .const := hv.not_is (by decide)
  obtain ⟨-, hm₁, -⟩ := hexpr.expression_name hs hv.1 hconst ho.1 (.inl rfl)
  obtain ⟨o', hm₂, -, -⟩ := hop.taken_keyword
  obtain ⟨e', hm₃, hke, -⟩ := hk.taken
  rw [hm₁, hm₃] at hm₂
  obtain ⟨-, hm₂⟩ := List.cons.inj hm₂
  obtain ⟨rfl, -⟩ := List.cons.inj hm₂
  exact hke

end Overloads

namespace Strays

theorem assignOperator : Strays prefs n Grammar.assignOperator fun s =>
    ∃ v o e u, s.rest = v :: o :: e :: u ∧ v.Is .void ∧ o.Is .operator ∧ e.kind = .equals := by
  intro s t h
  have hstray := andThen (r := .keyword .void) (by simp [Test.refuses, closers])
    (andThen (r := .keyword .operator) (by simp [Test.refuses, closers])
      (andThen (r := .kind .equals) (by simp [Test.refuses, closers])
        (andThen (r := singleParameter) (by simp) any))) h
  refine hstray.imp_left ?_
  rintro ⟨m₁, hvoid, m₂, hoper, m₃, hequals, -⟩
  obtain ⟨v, hv, hvoid, -⟩ := hvoid.taken_keyword
  obtain ⟨o, ho, hoper, -⟩ := hoper.taken_keyword
  obtain ⟨e, he, hequals, -⟩ := hequals.taken
  exact ⟨v, o, e, m₃.rest, by rw [hv, ho, he], hvoid, hoper, hequals⟩

theorem applyOperator :
    Strays prefs n Grammar.applyOperator fun s => Overloads prefs n .openParen s := by
  intro s t h
  have hstray := andThen (r := expression) (by simp)
    (andThen (r := .keyword .operator) (by simp [Test.refuses, closers])
      (andThen (r := .kind .openParen) (by simp [Test.refuses, closers]) any)) h
  refine hstray.imp_left ?_
  rintro ⟨m₁, hexpr, m₂, hop, m₃, hk, -⟩
  exact ⟨m₁, m₂, m₃, hexpr, hop, hk⟩

end Strays

/-- After the first operator that strays, the second one would need a bracket where the
first one has a parenthesis. -/
theorem firm_of_indexOperator (hf : FullRuns (body prefs) n applyOperator s false m)
    (h : FullRuns (body prefs) n indexOperator { m with rest := s.rest } true t) :
    Firm n applyOperator s false m := by
  have hindex := Overloads.of_accepted (k := .openBracket) h
  have hsame : { m with rest := s.rest } = s := by
    have htable := Stays.applyOperator hf
    have hsize := hf.size_eq
    have hmo : m.overflow = none := hindex.overflow_eq_none
    have ho := hf.overflow_eq_none hmo
    cases s
    simp_all
  rw [hsame] at hindex
  refine (Strays.applyOperator hf).resolve_left fun happly => ?_
  cases happly.unique hindex

/-- After an assignment operator that strays, the others would need a bracket where it
has an `=`. -/
theorem firm_of_overload (hf : FullRuns (body prefs) n assignOperator s false m)
    (h : FullRuns (body prefs) n
      ((Rule.attempt applyOperator).orElse (.attempt indexOperator))
        { m with rest := s.rest } true t) :
    Firm n assignOperator s false m := by
  refine (Strays.assignOperator hf).resolve_left ?_
  rintro ⟨v, o, e, u, hu, hv, ho, he⟩
  rcases h.of_attemptOr with ⟨-, happly⟩ | ⟨m', -, hindex⟩
  · have happly := Overloads.of_accepted (k := .openParen) happly
    cases he.symm.trans (happly.kind_of_void hu hv ho)
  · cases hindex with
    | keep hindex =>
      have hindex := Overloads.of_accepted (k := .openBracket) hindex
      cases he.symm.trans (hindex.kind_of_void hu hv ho)

theorem Bounded.dataMember : Bounded prefs Grammar.dataMember :=
  .andThen (by simp) <| .andThen (by simp [Test.refuses, closers]) <|
    .andThen (by simp [Test.refuses, closers]) (.take _)

namespace Closing

variable {last : Test → Prop}

theorem assignOperator : Closing prefs last n Grammar.assignOperator :=
  andThen (.of_straight (by simp)) <| andThen (.of_straight (by simp)) <|
    andThen (.of_straight (by simp)) <| andThen (.of_plain (by simp)) closing_compound

theorem applyOperator : Closing prefs last n Grammar.applyOperator :=
  andThen (.of_plain (by simp)) <| andThen (.of_straight (by simp)) <|
    andThen (.of_straight (by simp)) <| andThen (.of_straight (by simp)) <|
      andThen (.of_plain (by simp)) closing_compound

theorem indexOperator : Closing prefs last n Grammar.indexOperator :=
  andThen (.of_plain (by simp)) <| andThen (.of_straight (by simp)) <|
    andThen (.of_straight (by simp)) <| andThen (.of_straight (by simp)) <|
      andThen (.of_plain (by simp)) closing_compound

theorem dataMember : Closing prefs last n Grammar.dataMember :=
  andThen (.of_plain (by simp)) <| andThen (.of_straight (by simp)) <|
    andThen (.of_plain (by simp [Test.refuses, closers])) (kind (by decide))

theorem applyOr : Closing prefs last n
    ((Rule.attempt Grammar.applyOperator).orElse (.attempt Grammar.indexOperator)) := by
  refine attemptUnless applyOperator (attempt indexOperator) fun s m t hf hn hs => ?_
  cases hn with
  | keep hn => exact (firm_of_indexOperator hf hn).isOpen (.inl hs) prefs

theorem assignOr : Closing prefs last n ((Rule.attempt Grammar.assignOperator).orElse
    ((Rule.attempt Grammar.applyOperator).orElse (.attempt Grammar.indexOperator))) :=
  attemptUnless assignOperator applyOr fun _ _ _ hf hn hs =>
    (firm_of_overload hf hn).isOpen (.inl hs) prefs

theorem member : Closing prefs last n (Grammar.member name) := by
  have hconstructor : Closing prefs last n (constructor name) :=
    andThen (.of_straight (by simp)) <| andThen (.of_plain (by simp)) <|
      andThen (.of_plain (by simp [initializerList, initializer, Test.refuses, closers]))
        closing_compound
  have hdestructor : Closing prefs last n (destructor name) :=
    andThen (.of_straight (by simp)) <| andThen (.of_straight (by simp)) <|
      andThen (.of_straight (by simp)) <| andThen (.of_straight (by simp)) closing_compound
  exact hconstructor.when <| hdestructor.when <| typeDefinition.when <|
    dataMember.attemptOr .dataMember assignOr

/-! ### Declarations -/

theorem structureBody : Closing prefs last n (Grammar.structureBody name) := by
  have hmember : Closing prefs (fun _ => False) n (Grammar.member name) := member
  exact andThen (.of_straight (by simp)) (andThen (.loop hmember.isLocal) (kind (by decide)))

theorem structureDeclaration : Closing prefs last n Grammar.structureDeclaration := by
  refine andThen (.of_straight (by simp)) (declare fun name => takeOr (kind (by decide)) ?_)
  have hbody : Closing prefs (fun _ => False) n (Grammar.structureBody name) := structureBody
  exact andThen hbody.isLocal (kind (by decide))

theorem specialization : Closing prefs last n Grammar.specialization := by
  refine andThen (.of_straight (by simp)) (declare fun name => ?_)
  refine andThen (.of_straight (by simp)) (andThen (.of_plain (by simp)) ?_)
  have hbody : Local prefs n
      (.orElse (.peek (.kind .semicolon)) (Grammar.structureBody name)) := by
    intro s t h ht
    rcases h.of_orElse with hf | ⟨m, hf, hn⟩
    · cases hf with
      | peek _ hp => exact .yes (.peek (absurd · ht.rest_ne_nil) hp) .accept
    · cases hf with
      | peek _ hp =>
        have hclosing : Closing prefs (fun _ => False) n (Grammar.structureBody name) :=
          structureBody
        exact .no (.peek (absurd · (hclosing hn).1.rest_ne_nil) hp) (hclosing.isOpen hn)
  exact andThen hbody (kind (by decide))

theorem procedure : Closing prefs last n Grammar.procedure :=
  andThen (.of_plain (by simp [Test.refuses, closers])) <|
    andThen (.of_straight (by simp [procedureName, overloadableOperator])) <|
      andThen (.of_plain (by simp)) (takeOr (kind (by decide)) closing_compound)

end Closing

/-- What follows the header of a template. -/
def templateEnd : Rule :=
  .orElse (.andThen (.peek (.keyword .struct))
    (.orElse (.attempt structureDeclaration) (.attempt specialization))) procedure

/-- A run of what follows the header of a template: behind `struct` it reads a structure, or a
specialization in its place, or a procedure in the place of both; elsewhere it reads a
procedure at once. -/
inductive EndsTemplate (prefs : GrammarPreferences) (seen : Test → Prop) (n : Nat) (s : State) :
    Bool → State → Prop where
  | declared {t : State} (hp : s.passes (.keyword .struct) = true) :
      Runs (body prefs) seen n structureDeclaration s true t → EndsTemplate prefs seen n s true t
  | specialized {m t : State} (hp : s.passes (.keyword .struct) = true) :
      Runs (body prefs) seen n structureDeclaration s false m →
      Runs (body prefs) seen n specialization { m with rest := s.rest } true t →
      EndsTemplate prefs seen n s true t
  | neither {m₁ m₂ : State} {b : Bool} {t : State} (hp : s.passes (.keyword .struct) = true) :
      Runs (body prefs) seen n structureDeclaration s false m₁ →
      Runs (body prefs) seen n specialization { m₁ with rest := s.rest } false m₂ →
      Runs (body prefs) seen n procedure { m₂ with rest := s.rest } b t →
      EndsTemplate prefs seen n s b t
  | plain {b : Bool} {t : State} (hs : s.rest = [] → seen (.keyword .struct))
      (hp : s.passes (.keyword .struct) = false) :
      Runs (body prefs) seen n procedure s b t → EndsTemplate prefs seen n s b t

theorem runs_templateEnd {seen : Test → Prop} :
    Runs (body prefs) seen n templateEnd s b t ↔ EndsTemplate prefs seen n s b t := by
  constructor
  · intro h
    cases h with
    | yes hf hacc =>
      cases hacc
      obtain ⟨m, hpeek, hforms⟩ := hf.of_andThen
      cases hpeek with
      | peek _ hp =>
        rcases hforms.of_attemptOr with ⟨-, hd⟩ | ⟨m, hd, hspec⟩
        · exact .declared hp hd
        · cases hspec with
          | keep hspec => exact .specialized hp hd hspec
    | no hf hproc =>
      rcases hf.rejected_andThen with hpeek | ⟨m, hpeek, hforms⟩
      · cases hpeek with
        | peek hs hp => exact .plain hs hp hproc
      · cases hpeek with
        | peek _ hp =>
          obtain ⟨m, hd, hspec⟩ := hforms.rejected_orElse
          cases hd with
          | restore hd =>
            cases hspec with
            | restore hspec => exact .neither hp hd hspec hproc
  · intro h
    have peeks (hp : s.passes (.keyword .struct) = true) :
        Runs (body prefs) seen n (.peek (.keyword .struct)) s true s :=
      .peek (absurd · (Test.rest_ne_nil rfl hp)) hp
    cases h with
    | declared hp hd => exact .yes (.yes (peeks hp) (.yes (.keep hd) .accept)) .accept
    | specialized hp hd hspec =>
      exact .yes (.yes (peeks hp) (.no (.restore hd) (.keep hspec))) .accept
    | neither hp hd hspec hproc =>
      exact .no (.yes (peeks hp) (.no (.restore hd) (.restore hspec))) hproc
    | plain hs hp hproc => exact .no (.no (.peek hs hp) .reject) hproc

theorem Heads.unique {u z z' : List Lexeme} (h : Heads u z) (h' : Heads u z') : z = z' := by
  obtain ⟨x, a, rfl, -⟩ := h
  obtain ⟨y, b, hu, -⟩ := h'
  simp only [List.cons.injEq] at hu
  exact hu.2.2

/-- A specialization is told from a structure by the `<` after its name. -/
theorem heads_of_specialization (h : FullRuns (body prefs) n specialization s true t) :
    ∃ z, Heads s.rest z ∧ Begins .less z := by
  obtain ⟨m, hstruct, h⟩ := h.of_andThen
  cases h with
  | declare hname h =>
    obtain ⟨m', hless, -⟩ := h.of_andThen
    obtain ⟨c, hc, hk, -⟩ := hless.taken
    exact ⟨_, heads_of_declare hstruct hname, c, _, hc, hk⟩

theorem Begins.unique {k l : Kind} {v : List Lexeme} (h : Begins k v) (h' : Begins l v) :
    k = l := by
  obtain ⟨x, u, rfl, rfl⟩ := h
  obtain ⟨y, w, hv, rfl⟩ := h'
  rw [(List.cons.inj hv).1]

/-- A structure or a specialization that was given back did not stray if a procedure was
read in its place, or was cut short without a refused call. -/
theorem firm_of_procedure {m₁ m₂ : State}
    (hd : FullRuns (body prefs) n structureDeclaration s false m₁)
    (hp : FullRuns (body prefs) n specialization { m₁ with rest := s.rest } false m₂)
    (h : FullRuns (body prefs) n procedure { m₂ with rest := s.rest } b t)
    (hb : b = true ∨ t.rest = [] ∧ t.overflow = none) :
    Firm n structureDeclaration s false m₁ ∧
      Firm n specialization { m₁ with rest := s.rest } false m₂ := by
  have hb' : b = true ∨ t.overflow = none := hb.imp_right And.right
  -- a procedure that is stuck is neither read nor cut short
  have stuck : ¬ (b = false ∧ t.rest ≠ []) := by
    rintro ⟨rfl, ht⟩
    exact ht (hb.resolve_left (by simp)).1
  constructor
  · refine (Strays.structureDeclaration hd).resolve_left ?_
    rintro ⟨z, hz, hbrace⟩
    exact stuck (procedure_stuck_brace h hz hbrace hb')
  · refine (Strays.specialization hp).resolve_left ?_
    rintro ⟨c, z, hz, hc, m, m', rfl, hargs, hbrace⟩
    exact stuck (procedure_stuck_arguments h hz hc hargs hbrace hb')

/-- Nor did a structure if a specialization was read in its place. -/
theorem firm_of_specialization {m₁ : State}
    (hd : FullRuns (body prefs) n structureDeclaration s false m₁)
    (h : FullRuns (body prefs) n specialization { m₁ with rest := s.rest } true t) :
    Firm n structureDeclaration s false m₁ := by
  refine (Strays.structureDeclaration hd).resolve_left ?_
  rintro ⟨z, hz, hbrace⟩
  obtain ⟨z', hz', hless⟩ := heads_of_specialization h
  rw [hz.unique hz'] at hbrace
  cases hbrace.unique hless

namespace Closing

variable {last : Test → Prop}

theorem templateEnd : Closing prefs last n Grammar.templateEnd := by
  intro s t h
  have hstructure : Closing prefs last n Grammar.structureDeclaration := structureDeclaration
  have hspecialization : Closing prefs last n Grammar.specialization := specialization
  have hprocedure : Closing prefs last n Grammar.procedure := procedure
  cases runs_templateEnd.1 h with
  | declared hp hd =>
    obtain ⟨hs, hd⟩ := hstructure hd
    exact ⟨hs, runs_templateEnd.2 (.declared hp hd)⟩
  | specialized hp hd hspec =>
    obtain ⟨hs, hspec'⟩ := hspecialization hspec
    have hopen := (firm_of_specialization hd hspec).isOpen (.inl hs) prefs
    exact ⟨hs, runs_templateEnd.2 (.specialized hp hopen.of_open hspec')⟩
  | neither hp hd hspec hproc =>
    obtain ⟨hs, hproc'⟩ := hprocedure hproc
    obtain ⟨hfirm, hfirm'⟩ := firm_of_procedure hd hspec hproc (.inl rfl)
    have hd' := hfirm.isOpen (.inl hs) prefs
    have hspec' := hfirm'.isOpen (.inl hs) prefs
    exact ⟨hs, runs_templateEnd.2 (.neither hp hd'.of_open hspec'.of_open hproc')⟩
  | plain _ hp hproc =>
    obtain ⟨hs, hproc⟩ := hprocedure hproc
    exact ⟨hs, runs_templateEnd.2 (.plain (absurd · hs.rest_ne_nil) hp hproc)⟩

theorem enumeration : Closing prefs last n Grammar.enumeration :=
  andThen (.of_straight (by simp)) <| andThen (.of_straight (by simp)) <|
    andThen (.of_straight (by simp [Rule.delimited, Rule.separated])) (kind (by decide))

theorem declarationBody : Closing prefs last n Grammar.declarationBody := by
  have htemplate : Closing prefs last n template :=
    andThen (.of_plain plain_templateHeader) templateEnd
  exact enumeration.when <| structureDeclaration.when <| htemplate.when procedure

end Closing

/-- Accepted declarations are local in any room, and ask for nothing behind them. -/
theorem closing_declaration (prefs : GrammarPreferences) (n : Nat) (last : Test → Prop) :
    Closing prefs last n declaration := .call fun _ _ => .declarationBody

end Recognizer.Grammar
