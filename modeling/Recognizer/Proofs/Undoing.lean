import Mathlib.Data.List.Chain
import Recognizer.Proofs.Declarations
import Recognizer.Proofs.Scoping

/-!
# Undone attempts

An attempt that is given back leaves its declarations in the table. A machine whose
attempts take them back as well runs alike: a rule that rejects may leave other names
behind, and that is all. A name that was left behind is popped with the block it was
declared in, declared again in the same way, or met by no further lexeme that is read.
The last point needs that no structure is named `operator`.
-/
namespace Recognizer

/-- The last symbol of a name replaces the ones before it. -/
theorem Scope.insert_insert {x y : Symbol} (h : x.name = y.name) (s : Scope) :
    Scope.insert x (Scope.insert y s) = Scope.insert x s := by
  induction s with
  | nil => simp [Scope.insert, h]
  | cons z s ih =>
    by_cases hz : y.name = z.name
    · simp [Scope.insert, h, hz]
    · by_cases hp : y.name.precedes z.name = true
      · simp [Scope.insert, h, hz, hp]
      · simp [Scope.insert, h, hz, hp, ih]

theorem SymbolTable.declare_declare (t : SymbolTable) (name : Bytes) (k l : Symbol.Kind) :
    (t.declare name k).declare name l = t.declare name l := by
  have hinsert : Scope.insert ⟨name, l⟩ (Scope.insert ⟨name, k⟩ t.innermost) =
      Scope.insert ⟨name, l⟩ t.innermost := Scope.insert_insert (by rfl) t.innermost
  simp [SymbolTable.declare, hinsert]

namespace Grammar

/-- A step that gives its lexemes back and takes its declarations back when it rejects. -/
def Step.undo (step : Step) : Step := fun s =>
  match step s with
  | (true, t) => (true, t)
  | (false, t) => (false, { t with rest := s.rest, table := s.table })

section Machines

variable (tries : Step → Step)

/-- Run a rule, given how attempts and the guarded productions run. -/
def Rule.execBy (callee : Guarded → Step) : Rule → Step
  | accept, s => (true, s)
  | reject, s => (false, s)
  | peek t, s => (s.passes t, s)
  | take t, s => if s.passes t then (true, s.advance) else (false, s)
  | branch first yes no, s =>
    Step.branch (first.execBy callee) (yes.execBy callee) (no.execBy callee) s
  | attempt r, s => tries (r.execBy callee) s
  | loop t body, s => Step.loop t (body.execBy callee) s.rest s
  | declare kind next, s =>
    match s.identifier? with
    | some name => (next name).execBy callee (s.declare name kind).advance
    | none => (false, s)
  | enclosed r, s => Step.enclosed (r.execBy callee) s
  | call g, s => callee g s

/-- Call a guarded production with room for so many nested calls, given how attempts run. -/
def enterBy (body : Guarded → Rule) : Nat → Guarded → Step
  | 0, _, s => (false, s.refuse)
  | room + 1, g, s =>
    match s.overflow with
    | some _ => (false, s)
    | none => (body g).execBy tries (enterBy body room) s

/-- Run a rule under the preferences, given how attempts run. -/
def performBy (prefs : GrammarPreferences) (room : Nat) (r : Rule) : Step :=
  r.execBy tries (enterBy tries (body prefs) room)

/-- Read a program, given how attempts run. -/
def programBy (prefs : GrammarPreferences) (room : Nat) : Step := fun s =>
  let t := (performBy tries prefs room declarations { s with table := .fresh }).2
  (t.rest.isEmpty, t)

end Machines

theorem Rule.execBy_attempt (callee : Guarded → Step) (r : Rule) :
    r.execBy Step.attempt callee = r.exec callee := by
  induction r with
  | accept | reject | peek | take | call => rfl
  | branch first yes no ihf ihy ihn =>
    funext s
    rw [Rule.execBy, Rule.exec, ihf, ihy, ihn]
  | attempt r ih | loop q r ih | enclosed r ih =>
    funext s
    rw [Rule.execBy, Rule.exec, ih]
  | declare k next ih =>
    funext s
    rw [Rule.execBy, Rule.exec]
    cases s.identifier? with
    | some name => exact congrFun (ih name) _
    | none => rfl

theorem enterBy_attempt (body : Guarded → Rule) (room : Nat) :
    enterBy Step.attempt body room = enter body room := by
  induction room with
  | zero => rfl
  | succ room ih =>
    funext g s
    cases ho : s.overflow with
    | none => simp only [enterBy, enter, ho, ih, Rule.execBy_attempt]
    | some o => simp only [enterBy, enter, ho]

/-- With the attempts of the grammar, the machine is the one that runs rules. -/
theorem programBy_attempt (prefs : GrammarPreferences) (room : Nat) :
    programBy Step.attempt prefs room = program prefs room := by
  funext s
  rw [programBy, program, performBy, perform, Rule.run, enterBy_attempt, Rule.execBy_attempt]

/-- The results are equal, except that a rejection may leave other names in the innermost
scope. -/
inductive Tally : Bool × State → Bool × State → Prop where
  | same (x : Bool × State) : Tally x x
  | rejected (t : State) {table : SymbolTable} (h : table.outer = t.table.outer) :
      Tally (false, t) (false, { t with table := table })

namespace Tally

variable {x y : Bool × State}

theorem of_eq (h : x = y) : Tally x y := h ▸ .same x

theorem rest_eq (h : Tally x y) : x.2.rest = y.2.rest := by cases h <;> rfl

theorem overflow_eq (h : Tally x y) : x.2.overflow = y.2.overflow := by cases h <;> rfl

theorem position_eq (h : Tally x y) : x.2.position = y.2.position := by cases h <;> rfl

/-- Rounds that tally, from every state that a run can come to, add up to loops that do. -/
theorem loop {f g : Step} {c : Test} {I : State → Prop} (hround : ∀ s, I s → Tally (f s) (g s))
    (hnext : ∀ s t, I s → f s = (true, t) → I t) (clock : List Lexeme) {s : State} (hs : I s) :
    Tally (Step.loop c f clock s) (Step.loop c g clock s) := by
  induction clock generalizing s with
  | nil =>
    have hfirst := hround s hs
    rw [Step.loop, Step.loop]
    generalize f s = x at hfirst
    generalize g s = y at hfirst
    split
    · cases hfirst with
      | same => exact .same _
      | rejected t h => exact .rejected t h
    · exact .same _
  | cons z clock ih =>
    have hfirst := hround s hs
    have hi := hnext s
    rw [Step.loop, Step.loop]
    generalize f s = x at hfirst hi
    generalize g s = y at hfirst
    split
    · cases hfirst with
      | same x =>
        obtain ⟨b, m⟩ := x
        cases b with
        | true => exact ih (hi m hs rfl)
        | false => exact .same _
      | rejected t h => exact .rejected t h
    · exact .same _

end Tally

variable {prefs : GrammarPreferences} {n : Nat} {r q first yes no : Rule}

/-- The machine that undoes its attempts. -/
abbrev undone (prefs : GrammarPreferences) (n : Nat) (r : Rule) : Step :=
  performBy Step.undo prefs n r

/-- The machine that undoes its attempts runs the rule in the same way. -/
def Indifferent (prefs : GrammarPreferences) (n : Nat) (r : Rule) : Prop :=
  ∀ s, perform prefs n r s = undone prefs n r s

/-- The machine that undoes its attempts runs the rule in the same way, up to the names
that a rejection leaves behind. -/
def Follows (prefs : GrammarPreferences) (n : Nat) (r : Rule) : Prop :=
  ∀ s, Tally (perform prefs n r s) (undone prefs n r s)

/-! Both machines run a compound rule by running its parts. -/

theorem perform_branch : perform prefs n (.branch first yes no) =
    Step.branch (perform prefs n first) (perform prefs n yes) (perform prefs n no) := rfl

theorem perform_andThen : perform prefs n (r.andThen q) =
    Step.branch (perform prefs n r) (perform prefs n q) (perform prefs n .reject) := rfl

theorem perform_orElse : perform prefs n (r.orElse q) =
    Step.branch (perform prefs n r) (perform prefs n .accept) (perform prefs n q) := rfl

theorem perform_attempt : perform prefs n (.attempt r) = Step.attempt (perform prefs n r) := rfl

theorem perform_enclosed : perform prefs n (.enclosed r) = Step.enclosed (perform prefs n r) := rfl

theorem undone_branch : undone prefs n (.branch first yes no) =
    Step.branch (undone prefs n first) (undone prefs n yes) (undone prefs n no) := rfl

theorem undone_andThen : undone prefs n (r.andThen q) =
    Step.branch (undone prefs n r) (undone prefs n q) (undone prefs n .reject) := rfl

theorem undone_orElse : undone prefs n (r.orElse q) =
    Step.branch (undone prefs n r) (undone prefs n .accept) (undone prefs n q) := rfl

theorem undone_attempt : undone prefs n (.attempt r) = Step.undo (undone prefs n r) := rfl

theorem undone_enclosed : undone prefs n (.enclosed r) = Step.enclosed (undone prefs n r) := rfl

/-- A call runs in the same way when the body of its production does. -/
theorem tally_call {g : Guarded} {s : State} (h : ∀ m, m + 1 = n →
    Tally (perform prefs m (body prefs g) s) (undone prefs m (body prefs g) s)) :
    Tally (perform prefs n (.call g) s) (undone prefs n (.call g) s) := by
  cases n with
  | zero => exact .same _
  | succ m =>
    have hbody := h m rfl
    cases ho : s.overflow with
    | none =>
      simpa only [perform, Rule.run, performBy, Rule.exec, Rule.execBy, enter, enterBy, ho]
        using hbody
    | some o =>
      have hrefused : perform prefs (m + 1) (.call g) s = undone prefs (m + 1) (.call g) s := by
        simp only [perform, Rule.run, performBy, Rule.exec, Rule.execBy, enter, enterBy, ho]
      exact .of_eq hrefused

namespace Indifferent

theorem follows (h : Indifferent prefs n r) : Follows prefs n r := fun s => .of_eq (h s)

theorem reject : Indifferent prefs n .reject := fun _ => rfl

theorem branch (hf : Indifferent prefs n first) (hy : Indifferent prefs n yes)
    (hn : Indifferent prefs n no) : Indifferent prefs n (.branch first yes no) := by
  intro s
  rw [perform_branch, undone_branch, funext hf, funext hy, funext hn]

theorem andThen (hr : Indifferent prefs n r) (hq : Indifferent prefs n q) :
    Indifferent prefs n (r.andThen q) :=
  branch hr hq reject

theorem loop {c : Test} (hr : Indifferent prefs n r) : Indifferent prefs n (.loop c r) := by
  intro s
  have hrun : perform prefs n (.loop c r) s = Step.loop c (perform prefs n r) s.rest s := rfl
  rw [hrun, funext hr]
  rfl

theorem declare {k : Symbol.Kind} {next : Bytes → Rule}
    (h : ∀ name, Indifferent prefs n (next name)) :
    Indifferent prefs n (.declare k next) := by
  intro s
  cases hname : s.identifier? with
  | some name =>
    simpa only [perform, Rule.run, performBy, Rule.exec, Rule.execBy, hname] using h name _
  | none => simp only [perform, Rule.run, performBy, Rule.exec, Rule.execBy, hname]

/-- An attempt of a rule that declares nothing has nothing to take back. -/
theorem attempt (hr : Indifferent prefs n r)
    (htable : ∀ s, (perform prefs n r s).2.table = s.table) : Indifferent prefs n (.attempt r) := by
  intro s
  have hs := htable s
  rw [perform_attempt, undone_attempt, ← funext hr, Step.attempt, Step.undo]
  rcases hm : perform prefs n r s with ⟨b, t⟩
  rw [hm] at hs
  cases b with
  | true => rfl
  | false => simp only [← hs]

/-- A rule that gives nothing back runs in the same way. -/
theorem exec_of_straight {callee callee' : Guarded → Step}
    (hc : ∀ g, Rule.Demand.inner g → callee g = callee' g) {r : Rule} (hr : r.Meets .straight) :
    r.exec callee = r.execBy Step.undo callee' := by
  induction r with
  | accept | reject | peek | take => rfl
  | branch first yes no ihf ihy ihn =>
    funext s
    rw [Rule.execBy, Rule.exec, ihf hr.1, ihy hr.2.1, ihn hr.2.2]
  | attempt => exact absurd hr.1 id
  | loop q r ih | enclosed r ih =>
    funext s
    rw [Rule.execBy, Rule.exec, ih hr.2]
  | declare k next ih =>
    funext s
    rw [Rule.execBy, Rule.exec]
    cases s.identifier? with
    | some name => exact congrFun (ih name (hr.2 name)) _
    | none => rfl
  | call g => exact hc g hr

theorem enter_inner (n : Nat) {g : Guarded} (hg : Rule.Demand.inner g) :
    enter (body prefs) n g = enterBy Step.undo (body prefs) n g := by
  induction n generalizing g with
  | zero => rfl
  | succ n ih =>
    funext s
    cases ho : s.overflow with
    | none =>
      simp only [enter, enterBy, ho,
        exec_of_straight (fun g hg => ih hg) (plain_body hg).straight]
    | some o => simp only [enter, enterBy, ho]

theorem of_straight (hr : r.Meets .straight) : Indifferent prefs n r :=
  fun s => congrFun (exec_of_straight (fun _ hg => enter_inner n hg) hr) s

theorem of_plain (hr : r.Meets .plain) : Indifferent prefs n r := of_straight hr.straight

end Indifferent

/-! ### Statements -/

namespace Follows

theorem branch (hf : Indifferent prefs n first) (hy : Follows prefs n yes)
    (hn : Follows prefs n no) : Follows prefs n (.branch first yes no) := by
  intro s
  rw [perform_branch, undone_branch, ← funext hf, Step.branch, Step.branch]
  rcases perform prefs n first s with ⟨b, m⟩
  cases b with
  | true => exact hy m
  | false => exact hn m

theorem andThen (hr : Follows prefs n r) (hq : Follows prefs n q) :
    Follows prefs n (r.andThen q) := by
  intro s
  have hfirst := hr s
  rw [perform_andThen, undone_andThen, Step.branch, Step.branch]
  generalize perform prefs n r s = x at hfirst
  generalize undone prefs n r s = y at hfirst
  cases hfirst with
  | same x =>
    obtain ⟨b, m⟩ := x
    cases b with
    | true => exact hq m
    | false => exact .same _
  | rejected t h => exact .rejected t h

theorem loop {c : Test} (hr : Follows prefs n r) : Follows prefs n (.loop c r) :=
  fun s => Tally.loop (I := fun _ => True) (fun t _ => hr t) (fun _ _ _ _ => trivial) s.rest trivial

theorem call {g : Guarded} (h : ∀ m, m + 1 = n → Follows prefs m (body prefs g)) :
    Follows prefs n (.call g) := fun s => tally_call fun m hm => h m hm s

/-- A block ends with the table it began with, whatever names its rejection has left. -/
theorem enclosed (hr : Follows prefs n r) : Indifferent prefs n (.enclosed r) := by
  intro s
  have hblock := hr { s with table := s.table.push }
  have houter := (declares_perform prefs n r { s with table := s.table.push }).outer
  rw [perform_enclosed, undone_enclosed, Step.enclosed, Step.enclosed]
  generalize perform prefs n r { s with table := s.table.push } = x at hblock houter
  generalize undone prefs n r { s with table := s.table.push } = y at hblock
  cases hblock with
  | same => rfl
  | rejected t h =>
    have hclose := SymbolTable.close_eq_of_outer houter
    have hclose' := SymbolTable.close_eq_of_outer (h.trans houter)
    simp only [hclose, hclose']

section Statements

variable (hs : Follows prefs n statement)
include hs

theorem conditional : Follows prefs n Grammar.conditional := by
  have helse : Follows prefs n (.branch (.keyword .else_) statement .accept) :=
    branch (.of_straight (by simp)) hs (Indifferent.of_straight (by simp)).follows
  exact andThen (Indifferent.of_straight (by simp)).follows <|
    andThen (Indifferent.of_plain plain_condition).follows (andThen hs helse)

theorem switchStatement : Follows prefs n Grammar.switchStatement := by
  have hcase : Follows prefs n caseClause :=
    andThen (Indifferent.of_straight (by simp)).follows <|
      andThen (Indifferent.of_plain plain_expression).follows <|
        andThen (Indifferent.of_straight (by simp)).follows (loop hs)
  exact andThen (Indifferent.of_straight (by simp)).follows <|
    andThen (Indifferent.of_plain plain_condition).follows <|
      andThen (Indifferent.of_straight (by simp)).follows <|
        andThen (loop hcase) (Indifferent.of_straight (by simp)).follows

theorem whileStatement : Follows prefs n Grammar.whileStatement :=
  andThen (Indifferent.of_straight (by simp)).follows <|
    andThen (Indifferent.of_plain plain_condition).follows hs

theorem doStatement : Follows prefs n Grammar.doStatement :=
  andThen (Indifferent.of_straight (by simp)).follows <| andThen hs <|
    (Indifferent.of_straight (by simp [condition, plain_expression.straight])).follows

/-- A block runs in the same way: the names that its rejection leaves are popped with it. -/
theorem compound : Indifferent prefs n Grammar.compound :=
  .andThen (.of_straight (by simp))
    (enclosed (andThen (loop hs) (Indifferent.of_straight (by simp)).follows))

theorem control : Follows prefs n (Grammar.control prefs) := by
  have peeks (c : Test) : Indifferent prefs n (.peek c) := fun _ => rfl
  have hgoto : Indifferent prefs n (if prefs.allowGoto then
      Rule.when (.keyword .goto) gotoStatement .reject else .reject) := by
    split
    · exact .of_straight (by simp [gotoStatement])
    · exact .reject
  have hreturn : Indifferent prefs n returnStatement :=
    .of_straight (by simp [returnStatement, plain_expression.straight])
  have hbreak : Indifferent prefs n breakStatement := .of_straight (by simp [breakStatement])
  exact branch (peeks _) hreturn.follows <| branch (peeks _) (conditional hs) <|
    branch (peeks _) (switchStatement hs) <| branch (peeks _) (whileStatement hs) <|
      branch (peeks _) (doStatement hs) <| branch (peeks _) (compound hs).follows <|
        branch (peeks _) hbreak.follows hgoto.follows

/-- After a control statement that is given back, a type definition is not read: they
begin with different words. -/
theorem controlOr : Follows prefs n
    ((Rule.attempt (Grammar.control prefs)).orElse typeDefinition) := by
  intro s
  have hdefinition : Indifferent prefs n typeDefinition :=
    .of_straight (by simp [typeDefinition, plain_expression.straight])
  have hcontrol := control hs s
  have houter := (declares_perform prefs n (Grammar.control prefs) s).outer
  rw [perform_orElse, undone_orElse, perform_attempt, undone_attempt, ← funext hdefinition,
    Step.branch, Step.branch, Step.attempt, Step.undo]
  by_cases hp : s.passes (.keyword .typedef) = true
  · have hne : s.rest ≠ [] := Test.rest_ne_nil rfl hp
    have htypedef : FullRuns (body prefs) n (.keyword .typedef) s true s.advance := .take hne hp
    have hstart := Closing.typedef_start htypedef
    have hreject : perform prefs n (Grammar.control prefs) s = (false, s) :=
      (perform_eq_iff productive_control).2
        (Closing.control_rejects (fun _ _ => trivial) (hstart.2 s.table))
    rw [hreject] at hcontrol ⊢
    generalize undone prefs n (Grammar.control prefs) s = y at hcontrol
    cases hcontrol <;> exact .same _
  · have hmiss (m : State) (hm : m.rest = s.rest) :
        perform prefs n typeDefinition m = (false, m) := by
      have hp' : m.passes (.keyword .typedef) = false := by
        simpa [State.passes, Test.keyword, Test.holds, hm] using hp
      simp [perform, Rule.run, typeDefinition, Rule.inOrder, Rule.andThen, Rule.keyword, Rule.exec,
        Step.branch, hp']
    generalize perform prefs n (Grammar.control prefs) s = x at hcontrol houter
    generalize undone prefs n (Grammar.control prefs) s = y at hcontrol
    cases hcontrol with
    | same x =>
      obtain ⟨b, m⟩ := x
      cases b with
      | true => exact .same _
      | false =>
        simp only [hmiss]
        exact .rejected _ houter.symm
    | rejected t h =>
      simp only [hmiss]
      exact .rejected _ houter.symm

theorem statementBody : Follows prefs n (Grammar.statementBody prefs) := by
  have tries {r : Rule} (hr : r.Meets .straight) (hproductive : r.Meets .productive)
      (hsteady : r.Meets .steady) : Indifferent prefs n (.attempt r) :=
    (Indifferent.of_straight hr).attempt fun s =>
      (runs_perform prefs n hproductive s).table_eq hsteady
  have forms {r : Rule} (hr : r ∈ earlierForms prefs) (hstraight : r.Meets .straight) :
      Indifferent prefs n (.attempt r) :=
    tries hstraight (earlierForms_productive hr) (earlierForms_steady hr)
  have haccept : Follows prefs n .accept := Indifferent.follows fun _ => rfl
  refine branch (tries (by simp [label]) (by simp [label]) (by simp [label])) hs ?_
  refine branch (forms (by simp [earlierForms]) ?_) haccept <|
    branch (forms (by simp [earlierForms]) ?_) haccept <|
      branch (forms (by simp [earlierForms]) ?_) haccept (controlOr hs)
  · simp [simple, plain_expression.straight]
  · simp [assignment, plain_expression.straight]
  · simp [construction, plain_expression.straight, plain_initialization.straight]

end Statements
end Follows

/-- Statements run in the same way, up to the names that a rejection leaves behind. -/
theorem follows_statement (prefs : GrammarPreferences) (n : Nat) : Follows prefs n statement := by
  induction n using Nat.strongRecOn with
  | ind n ih => exact .call fun m hm => .statementBody (ih m (by omega))

/-! ### Declarations -/

namespace Indifferent

theorem compound : Indifferent prefs n Grammar.compound :=
  Follows.compound (follows_statement prefs n)

/-- An attempt of a rule that leaves the table as it is. -/
theorem attempt_of_stays (hr : Indifferent prefs n r) (hproductive : r.Meets .productive)
    (hstays : Stays prefs n r) : Indifferent prefs n (.attempt r) :=
  hr.attempt fun s => hstays (runs_perform prefs n hproductive s)

theorem member (name : Bytes) : Indifferent prefs n (Grammar.member name) := by
  have hexpr : expression.Meets .straight := plain_expression.straight
  have hparameters : Grammar.parameters.Meets .straight := plain_parameters.straight
  have hsingle : singleParameter.Meets .straight := plain_singleParameter.straight
  have hconstructor : Indifferent prefs n (constructor name) :=
    .andThen (.of_straight (by simp)) <| .andThen (.of_straight hparameters) <|
      .andThen (.of_plain (by simp [initializerList, initializer, Test.refuses, closers])) compound
  have hdestructor : Indifferent prefs n (destructor name) :=
    .andThen (.of_straight (by simp)) <| .andThen (.of_straight (by simp)) <|
      .andThen (.of_straight (by simp)) <| .andThen (.of_straight (by simp)) compound
  have hdata : Indifferent prefs n (.attempt dataMember) := by
    refine attempt_of_stays (.of_straight (by simp [dataMember, hexpr])) ?_ fun s b t h => ?_
    · simp [dataMember, expression]
    · exact h.table_eq (by simp [dataMember, plain_expression.steady])
  have hassign : Indifferent prefs n (.attempt assignOperator) := by
    refine attempt_of_stays ?_
      (by simp [assignOperator, singleParameter, parameter, expression])
      (.andThen .take <| .andThen .take <| .andThen .take <|
        .andThen (.of_plain plain_singleParameter) .compound)
    exact .andThen (.of_straight (by simp)) <| .andThen (.of_straight (by simp)) <|
      .andThen (.of_straight (by simp)) <| .andThen (.of_straight hsingle) compound
  have happly : Indifferent prefs n (.attempt applyOperator) := by
    refine attempt_of_stays ?_ (by simp [applyOperator, expression])
      .applyOperator
    exact .andThen (.of_straight hexpr) <| .andThen (.of_straight (by simp)) <|
      .andThen (.of_straight (by simp)) <| .andThen (.of_straight (by simp)) <|
        .andThen (.of_straight hparameters) compound
  have hindex : Indifferent prefs n (.attempt indexOperator) := by
    refine attempt_of_stays ?_
      (by simp [indexOperator, singleParameter, parameter, expression])
      (.andThen (.of_plain plain_expression) <| .andThen .take <|
        .andThen .take <| .andThen .take <| .andThen (.of_plain plain_singleParameter) .compound)
    exact .andThen (.of_straight hexpr) <| .andThen (.of_straight (by simp)) <|
      .andThen (.of_straight (by simp)) <| .andThen (.of_straight (by simp)) <|
        .andThen (.of_straight hsingle) compound
  have haccept : Indifferent prefs n .accept := fun _ => rfl
  have peeks (c : Test) : Indifferent prefs n (.peek c) := fun _ => rfl
  exact .branch (peeks _) hconstructor <| .branch (peeks _) hdestructor <|
    .branch (peeks _) (.of_straight (by simp [typeDefinition, hexpr])) <|
      .branch hdata haccept <| .branch hassign haccept <| .branch happly haccept hindex

theorem structureBody (name : Bytes) : Indifferent prefs n (Grammar.structureBody name) :=
  .andThen (.of_straight (by simp)) (.andThen (.loop (member name)) (.of_straight (by simp)))

/-- What follows the name of a structure. -/
theorem structureEnd (name : Bytes) : Indifferent prefs n (.orElse (.kind .semicolon)
    (.andThen (Grammar.structureBody name) (.kind .semicolon))) :=
  .branch (.of_straight (by simp)) (.of_straight (by simp)) <|
    .andThen (structureBody name) (.of_straight (by simp))

/-- What follows the name of a specialization. -/
theorem specializationEnd (name : Bytes) : Indifferent prefs n
    (Rule.inOrder [.kind .less, templateArguments,
      .orElse (.peek (.kind .semicolon)) (Grammar.structureBody name), .kind .semicolon]) :=
  .andThen (.of_straight (by simp)) <|
    .andThen (.of_straight plain_templateArguments.straight) <|
      .andThen (.branch (fun _ => rfl) (fun _ => rfl) (structureBody name))
        (.of_straight (by simp))

theorem structureDeclaration : Indifferent prefs n Grammar.structureDeclaration :=
  .andThen (.of_straight (by simp)) (.declare structureEnd)

theorem specialization : Indifferent prefs n Grammar.specialization :=
  .andThen (.of_straight (by simp)) (.declare specializationEnd)

/-- What follows the name of a procedure. -/
theorem procedureRest : Indifferent prefs n
    (.andThen parameters (.orElse (.kind .semicolon) Grammar.compound)) :=
  .andThen (.of_straight plain_parameters.straight) <|
    .branch (.of_straight (by simp)) (.of_straight (by simp)) compound

theorem procedure : Indifferent prefs n Grammar.procedure :=
  .andThen (.of_straight (by simp [plain_expression.straight])) <|
    .andThen (.of_straight (by simp [procedureName, overloadableOperator])) procedureRest

end Indifferent

/-! ### Templates -/

section Templates

variable {s u : State} {x a : Lexeme} {z : List Lexeme} {next : Bytes → Rule}

/-- The state behind `struct` and a name, which is declared as a type. -/
def State.headed (s : State) (a : Lexeme) (z : List Lexeme) : State :=
  { s with rest := z, table := s.table.declare a.text .type }

/-- What `struct` and a name announce goes on behind the name. -/
theorem perform_headed (hs : s.rest = x :: a :: z) (hx : x.Is .struct) (ha : a.kind = .identifier) :
    perform prefs n ((Rule.keyword .struct).andThen (.declare .type next)) s =
      perform prefs n (next a.text) (s.headed a z) := by
  have hp : s.passes (.keyword .struct) = true := by
    simp [State.passes, hs, Test.keyword, Test.holds, hx.1, hx.2]
  have hname : s.advance.identifier? = some a.text := by
    simp [State.identifier?, State.advance, hs, ha]
  have hheaded : (s.advance.declare a.text .type).advance = s.headed a z := by
    simp [State.headed, State.declare, State.advance, hs]
  simp [perform, Rule.run, Rule.andThen, Rule.keyword, Rule.exec, Step.branch, hp, hname, hheaded]

/-- Without a name behind it, `struct` announces nothing. -/
theorem perform_headless (hp : s.passes (.keyword .struct) = true)
    (hname : s.advance.identifier? = none) :
    perform prefs n ((Rule.keyword .struct).andThen (.declare .type next)) s =
      (false, s.advance) := by
  simp [perform, Rule.run, Rule.andThen, Rule.keyword, Rule.exec, Step.branch, hp, hname]

/-- A rule that begins with a lexeme of another kind stops at once. -/
theorem perform_missed {k : Kind} (h : s.passes (.kind k) = false) :
    perform prefs n ((Rule.kind k).andThen q) s = (false, s) := by
  simp [perform, Rule.run, Rule.andThen, Rule.kind, Rule.exec, Step.branch, h]

/-- What comes after a rule that is rejected does not run. -/
theorem perform_andThen_of_rejected {t : State} (h : perform prefs n r s = (false, t)) :
    perform prefs n (r.andThen q) s = (false, t) := by
  rw [perform_andThen, Step.branch, h]
  rfl

theorem passes_of_rest {k : Kind} (hs : s.rest = z) :
    s.passes (.kind k) = true ↔ Begins k z := by
  subst hs
  cases hz : s.rest with
  | nil => simp [State.passes, Test.holds, hz, Begins]
  | cons y w => simp [State.passes, Test.holds, hz, Begins]

/-- A structure that is rejected before its members has declared its name alone. -/
theorem structureDeclaration_rejects {t : State} (hs : s.rest = x :: a :: z) (hx : x.Is .struct)
    (ha : a.kind = .identifier) (hz : ¬ Begins .openBrace z)
    (h : perform prefs n structureDeclaration s = (false, t)) : t = s.headed a z := by
  rw [structureDeclaration, perform_headed hs hx ha] at h
  have hbrace : (s.headed a z).passes (.kind .openBrace) = false := by
    simpa using mt (passes_of_rest rfl).1 hz
  have hbody : perform prefs n (.andThen (structureBody a.text) (.kind .semicolon))
      (s.headed a z) = (false, s.headed a z) :=
    perform_andThen_of_rejected (perform_missed hbrace)
  rw [perform_orElse, Step.branch] at h
  by_cases hsemi : (s.headed a z).passes (.kind .semicolon) = true
  · simp [perform, Rule.run, Rule.kind, Rule.exec, hsemi] at h
  · have hkind : perform prefs n (.kind .semicolon) (s.headed a z) = (false, s.headed a z) := by
      simp [perform, Rule.run, Rule.kind, Rule.exec, hsemi]
    rw [hkind] at h
    exact (congrArg Prod.snd (hbody.symm.trans h)).symm

/-- A structure or else a specialization, as the end of a template tries them. -/
def structForms : Rule := .orElse (.attempt structureDeclaration) (.attempt specialization)

theorem perform_structForms : perform prefs n structForms = Step.branch
    (Step.attempt (perform prefs n structureDeclaration)) (perform prefs n .accept)
    (Step.attempt (perform prefs n specialization)) := rfl

/-- Each form runs in the same way, up to the declarations that are taken back behind it. -/
theorem undone_structForms : undone prefs n structForms = Step.branch
    (Step.undo (perform prefs n structureDeclaration)) (undone prefs n .accept)
    (Step.undo (perform prefs n specialization)) := by
  rw [funext Indifferent.structureDeclaration, funext Indifferent.specialization]
  rfl

/-- Taking declarations back, the forms that begin with `struct` and a name come out in the
same way. When they are given back before a parenthesis, the name alone was declared. -/
theorem structForms_cases (hs : s.rest = x :: a :: z) (hx : x.Is .struct)
    (ha : a.kind = .identifier) :
    (∃ u, perform prefs n structForms s = (true, u) ∧ undone prefs n structForms s = (true, u)) ∨
    ∃ u, perform prefs n structForms s = (false, u) ∧
      undone prefs n structForms s = (false, { u with table := s.table }) ∧ u.rest = s.rest ∧
      (Begins .openParen z → u.table = s.table.declare a.text .type) := by
  rcases hd : perform prefs n structureDeclaration s with ⟨b, t⟩
  cases b with
  | true =>
    refine .inl ⟨t, ?_, ?_⟩
    · rw [perform_structForms, Step.branch, Step.attempt, hd]
      rfl
    · rw [undone_structForms, Step.branch, Step.undo, hd]
      rfl
  | false =>
    -- the table that the structure has left, and its name once more
    have hleft (hz : ¬ Begins .openBrace z) : t.table = s.table.declare a.text .type := by
      rw [structureDeclaration_rejects hs hx ha hz hd]
      rfl
    have hrun : perform prefs n structForms s =
        Step.attempt (perform prefs n specialization) { t with rest := s.rest } := by
      rw [perform_structForms, Step.branch, Step.attempt, hd]
    have hundo : undone prefs n structForms s =
        Step.undo (perform prefs n specialization) { t with rest := s.rest, table := s.table } := by
      rw [undone_structForms, Step.branch, Step.undo, hd]
    have hnamed (m : State) (hm : m.rest = s.rest) : perform prefs n specialization m =
        perform prefs n (Rule.inOrder [.kind .less, templateArguments,
          .orElse (.peek (.kind .semicolon)) (structureBody a.text), .kind .semicolon])
          (m.headed a z) := by
      rw [specialization, perform_headed (hm.trans hs) hx ha]
    by_cases hless : Begins .less z
    · have hbrace : ¬ Begins .openBrace z := fun h => by cases h.unique hless
      have hsame : State.headed { t with rest := s.rest } a z =
          State.headed { t with rest := s.rest, table := s.table } a z := by
        simp only [State.headed, hleft hbrace, SymbolTable.declare_declare]
      rw [hrun, hundo, Step.attempt, Step.undo, hnamed { t with rest := s.rest } rfl,
        hnamed { t with rest := s.rest, table := s.table } rfl, hsame]
      rcases perform prefs n (Rule.inOrder [.kind .less, templateArguments,
        .orElse (.peek (.kind .semicolon)) (structureBody a.text), .kind .semicolon])
        (State.headed { t with rest := s.rest, table := s.table } a z) with ⟨b, u⟩
      cases b with
      | true => exact .inl ⟨u, rfl, rfl⟩
      | false => exact .inr ⟨_, rfl, rfl, rfl, fun h => by cases h.unique hless⟩
    · have hmissed (m : State) (hm : m.rest = s.rest) :
          perform prefs n specialization m = (false, m.headed a z) := by
        rw [hnamed m hm]
        exact perform_missed (by simpa using mt (passes_of_rest rfl).1 hless)
      rw [hrun, hundo, Step.attempt, Step.undo, hmissed { t with rest := s.rest } rfl,
        hmissed { t with rest := s.rest, table := s.table } rfl]
      refine .inr ⟨_, rfl, rfl, rfl, fun hparen => ?_⟩
      have hbrace : ¬ Begins .openBrace z := fun h => by cases h.unique hparen
      simp only [State.headed, hleft hbrace, SymbolTable.declare_declare]

/-- Without a name behind `struct`, the forms that begin with it change nothing. -/
theorem structForms_headless (hp : s.passes (.keyword .struct) = true)
    (hname : s.advance.identifier? = none) :
    perform prefs n structForms s = (false, s) ∧ undone prefs n structForms s = (false, s) := by
  have hd : perform prefs n structureDeclaration s = (false, s.advance) :=
    perform_headless hp hname
  have hspec : perform prefs n specialization s = (false, s.advance) := perform_headless hp hname
  constructor
  · rw [perform_structForms, Step.branch, Step.attempt, hd]
    change Step.attempt (perform prefs n specialization) s = (false, s)
    rw [Step.attempt, hspec]
    rfl
  · rw [undone_structForms, Step.branch, Step.undo, hd]
    change Step.undo (perform prefs n specialization) s = (false, s)
    rw [Step.undo, hspec]
    rfl

/-- What follows the name of a procedure. -/
def procedureRest : Rule := .andThen parameters (.orElse (.kind .semicolon) compound)

/-- A procedure that begins with `struct` and a name, which is not `operator`, goes on
behind the name, unless its type is refused. -/
theorem perform_procedure_headed (hu : u.rest = x :: a :: z) (hx : x.Is .struct)
    (ha : a.kind = .identifier) (hop : ¬ a.Is .operator) :
    perform prefs n procedure u = if n ≠ 0 ∧ u.overflow = none then
      perform prefs n procedureRest
        { u with rest := z, table := u.table.declare a.text .procedure }
      else (false, u.refuse) := by
  have hvoid : u.passes (.keyword .void) = false := by
    have hw : Keyword.struct.bytes ≠ Keyword.void.bytes := by decide
    simp [State.passes, hu, Test.keyword, Test.holds, hx.2, hw]
  have htype : perform prefs n (.orElse (.keyword .void) expression) u =
      perform prefs n expression u := by
    simp [perform, Rule.run, Rule.orElse, Rule.keyword, Rule.exec, Step.branch, hvoid]
  have hrun : perform prefs n procedure = Step.branch
      (perform prefs n (.orElse (.keyword .void) expression)) (perform prefs n procedureEnd)
      (perform prefs n .reject) := rfl
  rw [hrun, Step.branch, htype]
  by_cases hroom : n ≠ 0 ∧ u.overflow = none
  · rw [if_pos hroom]
    obtain ⟨m, rfl⟩ := Nat.exists_eq_succ_of_ne_zero hroom.1
    have hconst : ¬ x.Is .const := hx.not_is (by decide)
    have hexpr : perform prefs (m + 1) expression u = (true, u.advance) :=
      (perform_eq_iff productive_expression).2 (.of_name hu hx.1 hconst ha hroom.2)
    have hmiss : u.advance.passes (.keyword .operator) = false := by
      simpa [State.passes, State.advance, hu, Test.keyword, Test.holds, ha, Lexeme.Is] using hop
    have hname : u.advance.identifier? = some a.text := by
      simp [State.identifier?, State.advance, hu, ha]
    have hdeclared : (u.advance.declare a.text .procedure).advance =
        { u with rest := z, table := u.table.declare a.text .procedure } := by
      simp [State.declare, State.advance, hu]
    rw [hexpr]
    simp only [perform, Rule.run, procedureEnd, procedureName, procedureRest, Rule.andThen,
      Rule.keyword, Rule.exec, Step.branch, hmiss, hname, hdeclared, Bool.false_eq_true, if_false]
  · rw [if_neg hroom]
    have hrefused : perform prefs n expression u = (false, u.refuse) := by
      cases n with
      | zero => rfl
      | succ m =>
        obtain ⟨o, ho⟩ : ∃ o, u.overflow = some o := by
          simpa [Option.ne_none_iff_exists'] using hroom
        rw [State.refuse_of_overflow ho]
        simp [perform, Rule.run, expression, Rule.exec, enter, ho]
    rw [hrefused]
    rfl

/-- Behind forms that are given back, with and without the names they have declared, a
procedure runs in the same way, up to those names. -/
theorem tally_procedure {table : SymbolTable} (hu : u.rest = x :: a :: z) (hx : x.Is .struct)
    (ha : a.kind = .identifier) (hop : ¬ a.Is .operator) (houter : table.outer = u.table.outer)
    (hparen : Begins .openParen z → u.table = table.declare a.text .type) :
    Tally (perform prefs n procedure u) (perform prefs n procedure { u with table := table }) := by
  rw [perform_procedure_headed hu hx ha hop,
    perform_procedure_headed (u := { u with table := table }) hu hx ha hop]
  split
  · by_cases hz : Begins .openParen z
    · simp only [hparen hz, SymbolTable.declare_declare]
      exact .same _
    · have hmissed (m : State) (hm : m.rest = z) :
          perform prefs n procedureRest m = (false, m) :=
        perform_andThen_of_rejected (perform_missed (by simpa using mt (passes_of_rest hm).1 hz))
      rw [hmissed _ rfl, hmissed _ rfl]
      exact .rejected { u with rest := z, table := u.table.declare a.text .procedure } houter
  · exact .rejected u.refuse houter

/-- At `struct`, the end of a template is one of its forms or else a procedure. -/
theorem templateEnd_of_struct (hp : s.passes (.keyword .struct) = true) :
    perform prefs n templateEnd s = Step.branch (perform prefs n structForms)
        (perform prefs n .accept) (perform prefs n procedure) s ∧
      undone prefs n templateEnd s = Step.branch (undone prefs n structForms)
        (undone prefs n .accept) (perform prefs n procedure) s := by
  rw [templateEnd, perform_orElse, undone_orElse, perform_andThen, undone_andThen,
    funext Indifferent.procedure]
  constructor
  · simp only [perform, Rule.run, Rule.exec, Step.branch, hp]
    rfl
  · simp only [performBy, Rule.execBy, Step.branch, hp]
    rfl

/-- Elsewhere it is a procedure. -/
theorem templateEnd_of_other (hp : s.passes (.keyword .struct) = false) :
    perform prefs n templateEnd s = perform prefs n procedure s ∧
      undone prefs n templateEnd s = perform prefs n procedure s := by
  rw [templateEnd, perform_orElse, undone_orElse, perform_andThen, undone_andThen,
    ← funext Indifferent.procedure]
  constructor
  · simp [perform, Rule.run, Rule.exec, Step.branch, hp]
  · simp [performBy, Rule.execBy, Step.branch, hp]

/-- What follows the header of a template, with its declarations taken back. -/
theorem tally_templateEnd
    (hfree : ∀ x a z, s.rest = x :: a :: z → x.Is .struct → ¬ a.Is .operator) :
    Tally (perform prefs n templateEnd s) (undone prefs n templateEnd s) := by
  cases hp : s.passes (.keyword .struct) with
  | false =>
    rw [(templateEnd_of_other hp).1, (templateEnd_of_other hp).2]
    exact .same _
  | true =>
    rw [(templateEnd_of_struct hp).1, (templateEnd_of_struct hp).2, Step.branch, Step.branch]
    obtain ⟨x, w, hxw⟩ := List.exists_cons_of_ne_nil (Test.rest_ne_nil rfl hp)
    have hx : x.Is .struct := by
      simpa [State.passes, hxw, Test.keyword, Test.holds, Lexeme.Is] using hp
    cases hname : s.advance.identifier? with
    | none =>
      rw [(structForms_headless hp hname).1, (structForms_headless hp hname).2]
      exact .same _
    | some name =>
      obtain ⟨a, z, haz⟩ := List.exists_cons_of_ne_nil (State.rest_ne_nil_of_identifier? hname)
      have hs : s.rest = x :: a :: z := by
        rw [State.rest_advance, hxw] at haz
        rw [hxw, ← haz]
        rfl
      have ha : a.kind = .identifier := by
        simp only [State.identifier?, haz, Option.ite_none_right_eq_some] at hname
        exact hname.1
      have hop := hfree x a z hs hx
      have houter := (declares_perform prefs n structForms s).outer
      have hcases := @structForms_cases prefs n s x a z hs hx ha
      rcases hcases with ⟨u, hforms, hforms'⟩ | ⟨u, hforms, hforms', hu, hparen⟩
      · rw [hforms, hforms']
        exact .same _
      · rw [hforms] at houter
        rw [hforms, hforms']
        exact tally_procedure (hu.trans hs) hx ha hop houter.symm hparen

end Templates

/-! ### Programs -/

/-- No `struct` is directly followed by `operator`. -/
def NoOperatorStruct (u : List Lexeme) : Prop :=
  u.IsChain fun x a => x.Is .struct → ¬ a.Is .operator

instance (u : List Lexeme) : Decidable (NoOperatorStruct u) :=
  inferInstanceAs (Decidable (u.IsChain _))

section Programs

variable {s : State}

theorem tally_template (hs : NoOperatorStruct s.rest) :
    Tally (perform prefs n template s) (undone prefs n template s) := by
  have hheader : Indifferent prefs n templateHeader := .of_plain plain_templateHeader
  have hrun : perform prefs n template s = Step.branch (perform prefs n templateHeader)
      (perform prefs n templateEnd) (perform prefs n .reject) s := rfl
  have hundo : undone prefs n template s = Step.branch (perform prefs n templateHeader)
      (undone prefs n templateEnd) (undone prefs n .reject) s := by
    rw [funext hheader]
    rfl
  have hsuffix := (runs_perform prefs n productive_templateHeader s).suffix
  rw [hrun, hundo, Step.branch, Step.branch]
  rcases hm : perform prefs n templateHeader s with ⟨b, m⟩
  rw [hm] at hsuffix
  cases b with
  | true =>
    refine tally_templateEnd fun x a z hrest hx => ?_
    have hbehind := hs.suffix hsuffix
    rw [hrest, List.isChain_cons_cons] at hbehind
    exact hbehind.1 hx
  | false => exact .same _

/-- A declaration runs in the same way, up to the names that a rejection leaves behind. -/
theorem tally_declaration (hs : NoOperatorStruct s.rest) :
    Tally (perform prefs n declaration s) (undone prefs n declaration s) := by
  refine tally_call fun m _ => ?_
  have hrun (c : Test) (r q : Rule) : perform prefs m (.when c r q) s =
      if s.passes c then perform prefs m r s else perform prefs m q s := by
    cases hc : s.passes c <;> simp [perform, Rule.run, Rule.when, Rule.exec, Step.branch, hc]
  have hundo (c : Test) (r q : Rule) : undone prefs m (.when c r q) s =
      if s.passes c then undone prefs m r s else undone prefs m q s := by
    cases hc : s.passes c <;> simp [performBy, Rule.when, Rule.execBy, Step.branch, hc]
  simp only [body, declarationBody, hrun, hundo]
  split
  · have henum : Indifferent prefs m enumeration :=
      .of_straight (by simp [enumeration, Rule.delimited, Rule.separated])
    exact henum.follows s
  split
  · exact Indifferent.structureDeclaration.follows s
  split
  · exact tally_template hs
  · exact Indifferent.procedure.follows s

/-- So do the declarations of a program, of which the first that is rejected is the last. -/
theorem tally_declarations (hs : NoOperatorStruct s.rest) :
    Tally (perform prefs n declarations s) (undone prefs n declarations s) := by
  refine Tally.loop (I := fun s => NoOperatorStruct s.rest) (fun t ht => tally_declaration ht)
    (fun t u ht hu => ht.suffix ?_) s.rest hs
  have hrun : FullRuns (body prefs) n declaration t true u :=
    (perform_eq_iff (by simp [declaration])).1 hu
  exact hrun.suffix

end Programs
end Grammar

namespace Parser

open Grammar

/-- Recognize the whole source as a program, given how attempts run. -/
def parseProgramBy (tries : Step → Step) (p : Parser) : Bool × Parser :=
  let fresh := { (p.restore 0) with depth := 0 }
  let (accepted, p) :=
    run { fresh with state := { fresh.state with overflow := none } }
      (programBy tries p.preferences)
  let finished := (Event.debug p.limits "Program recognition finished").withValues
    [("accepted", Event.truth accepted), ("position", toString p.position),
      ("depth_exceeded", Event.truth p.depthExceeded)]
  (accepted && !p.depthExceeded, { p with events := p.events ++ [finished] })

/-- With the attempts of the grammar, this is how a program is recognized. -/
theorem parseProgramBy_attempt (p : Parser) : p.parseProgramBy Step.attempt = p.parseProgram := by
  simp only [parseProgramBy, parseProgram, funext (programBy_attempt p.preferences)]

variable (tries : Step → Step)

theorem state_parseProgramBy (p : Parser) : (p.parseProgramBy tries).2.state =
    (performBy tries p.preferences p.limits.maxDepth declarations p.start).2 := by
  simp [parseProgramBy, run, programBy, start, restore, Lexeme.significant, room]

theorem answer_parseProgramBy (p : Parser) : (p.parseProgramBy tries).1 =
    ((p.parseProgramBy tries).2.isExhausted && !(p.parseProgramBy tries).2.depthExceeded) := by
  simp [parseProgramBy, run, programBy, isExhausted, depthExceeded]

/-- Attempts that take their declarations back, as well as their lexemes, come to the same
outcome at the same place, unless a structure may be named `operator`. -/
theorem parseProgram_undo (p : Parser) (hfree : NoOperatorStruct (Lexeme.significant p.source)) :
    (p.parseProgramBy Step.undo).1 = p.parseProgram.1 ∧
      (p.parseProgramBy Step.undo).2.position = p.parseProgram.2.position ∧
      (p.parseProgramBy Step.undo).2.depthExceeded = p.parseProgram.2.depthExceeded := by
  have htally : Tally (perform p.preferences p.limits.maxDepth declarations p.start)
      (undone p.preferences p.limits.maxDepth declarations p.start) := tally_declarations hfree
  have hrest : (p.parseProgramBy Step.undo).2.state.rest = p.parseProgram.2.state.rest := by
    rw [state_parseProgramBy, state_parseProgram, htally.rest_eq]
  have hoverflow : (p.parseProgramBy Step.undo).2.state.overflow =
      p.parseProgram.2.state.overflow := by
    rw [state_parseProgramBy, state_parseProgram, htally.overflow_eq]
  have hposition : (p.parseProgramBy Step.undo).2.position = p.parseProgram.2.position := by
    rw [position, position, state_parseProgramBy, state_parseProgram, htally.position_eq]
  refine ⟨?_, hposition, ?_⟩
  · rw [answer_parseProgramBy, ← parseProgramBy_attempt p, answer_parseProgramBy]
    rw [← parseProgramBy_attempt p] at hrest hoverflow
    simp only [isExhausted, depthExceeded, hrest, hoverflow]
  · simp only [depthExceeded, hoverflow]

/-- A structure template, tried as a structure and as a specialization before it is read as
a procedure that returns one. -/
def structReturning : Parser := new .development {}
  (Bytes.ofAscii "template <typename T> struct list(T x) \x7b if (x) typedef int y; \x7d".toList)

theorem parseProgram_undo_structReturning :
    structReturning.parseProgram.1 = true ∧
      (structReturning.parseProgramBy Step.undo).1 = structReturning.parseProgram.1 ∧
      (structReturning.parseProgramBy Step.undo).2.position =
        structReturning.parseProgram.2.position := by
  have hfree : NoOperatorStruct (Lexeme.significant structReturning.source) := by decide +kernel
  have h := parseProgram_undo structReturning hfree
  exact ⟨by decide +kernel, h.1, h.2.1⟩

end Parser
end Recognizer
