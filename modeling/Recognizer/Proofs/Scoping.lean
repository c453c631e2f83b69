import Recognizer.Proofs.Locality

/-!
# Scope discipline

A rule may add names to the innermost scope and does nothing else to the symbol table,
whether it accepts or rejects. A part with a scope of its own leaves that scope on top,
so the scope can be popped, and what is popped is the table from before.
-/
namespace Recognizer

namespace SymbolTable

/-- A table with the outer scopes of a pushed one is popped to the table below. -/
theorem pop_eq_of_outer {t u : SymbolTable} (h : u.outer = t.push.outer) : u.pop = .ok t := by
  obtain ⟨innermost, outer⟩ := u
  have houter : outer = t.innermost :: t.outer := h
  rw [houter, pop]

theorem close_eq_of_outer {t u : SymbolTable} (h : u.outer = t.push.outer) : u.close = t :=
  close_eq_of_pop (pop_eq_of_outer h)

/-- The second table has the outer scopes of the first one and all names of its
innermost scope. -/
structure Grows (t u : SymbolTable) : Prop where
  outer : u.outer = t.outer
  names : ∀ name, (t.innermost.get? name).isSome → (u.innermost.get? name).isSome

namespace Grows

variable {t u v : SymbolTable}

theorem refl (t : SymbolTable) : t.Grows t := ⟨rfl, fun _ => id⟩

theorem trans (h : t.Grows u) (h' : u.Grows v) : t.Grows v :=
  ⟨h'.outer.trans h.outer, fun name hn => h'.names name (h.names name hn)⟩

theorem declare (t : SymbolTable) (name : Bytes) (k : Symbol.Kind) :
    t.Grows (t.declare name k) := by
  refine ⟨rfl, fun other hn => ?_⟩
  rw [SymbolTable.declare, Scope.get?_insert]
  split
  · rfl
  · exact hn

theorem depth_eq (h : t.Grows u) : u.depth = t.depth := by rw [depth, depth, h.outer]

end Grows
end SymbolTable

namespace Grammar

/-- The step only adds names to the innermost scope. -/
def Step.Declares (f : Step) : Prop := ∀ s : State, s.table.Grows (f s).2.table

namespace Step.Declares

variable {f g h : Step}

theorem branch (hf : f.Declares) (hg : g.Declares) (hh : h.Declares) :
    (Step.branch f g h).Declares := by
  intro s
  have hfirst := hf s
  rcases hm : f s with ⟨b, m⟩
  rw [hm] at hfirst
  cases b with
  | true => simpa only [Step.branch, hm] using hfirst.trans (hg m)
  | false => simpa only [Step.branch, hm] using hfirst.trans (hh m)

theorem attempt (hf : f.Declares) : (Step.attempt f).Declares := by
  intro s
  have hfirst := hf s
  rcases hm : f s with ⟨b, m⟩
  rw [hm] at hfirst
  cases b <;> simpa only [Step.attempt, hm] using hfirst

/-- A step in a scope of its own leaves the table as it was. -/
theorem table_enclosed (hf : f.Declares) (s : State) : (Step.enclosed f s).2.table = s.table :=
  SymbolTable.close_eq_of_outer (hf { s with table := s.table.push }).outer

theorem loop {q : Test} (hf : f.Declares) (clock : List Lexeme) :
    (Step.loop q f clock).Declares := by
  induction clock with
  | nil =>
    intro s
    by_cases hq : s.passes q = true
    · simpa only [Step.loop, if_pos hq] using hf s
    · simpa only [Step.loop, if_neg hq] using .refl _
  | cons x clock ih =>
    intro s
    by_cases hq : s.passes q = true
    · have hfirst := hf s
      rcases hm : f s with ⟨b, m⟩
      rw [hm] at hfirst
      cases b with
      | true => simpa only [Step.loop, if_pos hq, hm] using hfirst.trans (ih m)
      | false => simpa only [Step.loop, if_pos hq, hm] using hfirst
    · simpa only [Step.loop, if_neg hq] using .refl _

end Step.Declares

/-- A rule only adds names to the innermost scope when its calls do. -/
theorem Rule.declares_exec {callee : Guarded → Step} (hc : ∀ g, (callee g).Declares) (r : Rule) :
    Step.Declares (r.exec callee) := by
  induction r with
  | accept | reject | peek => exact fun s => .refl s.table
  | take q =>
    intro s
    by_cases hq : s.passes q = true
    · simpa only [Rule.exec, if_pos hq] using .refl s.table
    · simpa only [Rule.exec, if_neg hq] using .refl s.table
  | branch first yes no ihf ihy ihn => exact ihf.branch ihy ihn
  | attempt r ih => exact ih.attempt
  | loop q r ih => exact fun s => ih.loop s.rest s
  | declare k next ih =>
    intro s
    cases hn : s.identifier? with
    | some name =>
      have hdeclared : s.table.Grows (s.declare name k).advance.table := .declare _ _ _
      simpa only [Rule.exec, hn] using hdeclared.trans (ih name _)
    | none => simpa only [Rule.exec, hn] using .refl s.table
  | enclosed r ih =>
    intro s
    have hsame : ((Rule.enclosed r).exec callee s).2.table = s.table := ih.table_enclosed s
    rw [hsame]
    exact .refl _
  | call g => exact hc g

/-- The depth guard declares nothing itself. -/
theorem declares_enter (body : Guarded → Rule) (room : Nat) (g : Guarded) :
    (enter body room g).Declares := by
  induction room generalizing g with
  | zero => exact fun s => .refl s.table
  | succ room ih =>
    intro s
    cases hs : s.overflow with
    | none => simpa only [enter, hs] using Rule.declares_exec ih (body g) s
    | some o => simpa only [enter, hs] using .refl s.table

/-- Every rule of the grammar only adds names to the innermost scope. -/
theorem declares_perform (prefs : GrammarPreferences) (room : Nat) (r : Rule) :
    (perform prefs room r).Declares := Rule.declares_exec (declares_enter _ room) r

/-- A block leaves the table as it was, whether or not it is read. -/
theorem table_compound (prefs : GrammarPreferences) (room : Nat) (s : State) :
    (perform prefs room compound s).2.table = s.table := by
  have hblock := (declares_perform prefs room (.upTo .closeBrace statement)).table_enclosed
  by_cases hq : s.passes (.kind .openBrace) = true
  · have hrun : perform prefs room compound s =
        Step.enclosed (perform prefs room (.upTo .closeBrace statement)) s.advance := by
      simp [perform, Rule.run, compound, Rule.andThen, Rule.kind, Rule.exec, Step.branch, hq]
    rw [hrun]
    exact hblock s.advance
  · have hrun : perform prefs room compound s = (false, s) := by
      simp [perform, Rule.run, compound, Rule.andThen, Rule.kind, Rule.exec, Step.branch, hq]
    rw [hrun]

/-- The productions of expressions and of their lists. -/
def expressionRules : List Rule :=
  [expression, disjunction, conjunction, equality, relational, additive, multiplicative,
    prefixExpr, postfixExpr, primary, parameter, expressionList, parameterList, arguments,
    parameters, additiveList, templateArguments]

/-- The productions of expressions declare nothing. -/
theorem table_of_mem_expressionRules {r : Rule} (hr : r ∈ expressionRules)
    (prefs : GrammarPreferences) (room : Nat) (s : State) :
    (perform prefs room r s).2.table = s.table := by
  have harguments : templateArguments.Meets .productive := trivial
  have hrule : r.Meets .productive ∧ r.Meets .plain := by
    revert r
    simp [harguments, expressionRules, disjunction, conjunction, equality, relational, additive,
      multiplicative, parameter, expressionList, parameterList, additiveList, Test.refuses,
      closers]
  exact (runs_perform prefs room hrule.1 s).table_eq hrule.2.steady

end Grammar

open Grammar

namespace Parser

/-- Try one declaration from a state, in the room that a program has. -/
def tryDeclaration (p : Parser) : Step := perform p.preferences p.limits.maxDepth declaration

/-- The state after so many declarations of the source, whether they were accepted or not. -/
def afterDeclarations (p : Parser) : Nat → State
  | 0 => p.start
  | k + 1 => (p.tryDeclaration (p.afterDeclarations k)).2

/-- The declarations of a program are tried one after another from where the one before
ended, as long as lexemes are left, and all but the last one are accepted. -/
theorem state_parseProgram_eq_afterDeclarations (p : Parser) :
    ∃ k, p.parseProgram.2.state = p.afterDeclarations k ∧ ∀ j < k,
      (p.afterDeclarations j).rest ≠ [] ∧
        (j + 1 < k → (p.tryDeclaration (p.afterDeclarations j)).1 = true) := by
  -- the loop from the state after `i` declarations ends in the state after some more
  suffices hloop : ∀ i b t, FullRuns (body p.preferences) p.limits.maxDepth declarations
      (p.afterDeclarations i) b t → ∃ k, t = p.afterDeclarations k ∧ ∀ j < k, i ≤ j →
        (p.afterDeclarations j).rest ≠ [] ∧
          (j + 1 < k → (p.tryDeclaration (p.afterDeclarations j)).1 = true) by
    have hrun := runs_perform p.preferences p.limits.maxDepth productive_declarations p.start
    obtain ⟨k, hk, hall⟩ := hloop 0 _ _ hrun
    exact ⟨k, p.state_parseProgram.trans hk, fun j hj => hall j hj (Nat.zero_le j)⟩
  intro i b t h
  have left {s : State} (hs : s.passes (.negate .finish) = true) : s.rest ≠ [] := by
    simpa [State.passes, Test.holds] using hs
  have tried {s m : State} {b : Bool} (h : FullRuns (body p.preferences) p.limits.maxDepth
      declaration s b m) : p.tryDeclaration s = (b, m) :=
    (perform_eq_iff (show declaration.Meets .productive from trivial)).2 h
  generalize hs : p.afterDeclarations i = s at h
  induction h using Runs.loop_induction generalizing i with
  | done s => exact ⟨i, hs.symm, fun j hj hi => absurd hj (Nat.not_lt.2 hi)⟩
  | again s m t b _ hp hround _ ih =>
    have hm : p.afterDeclarations (i + 1) = m := by rw [afterDeclarations, hs, tried hround]
    obtain ⟨k, hk, hall⟩ := ih (i + 1) hm
    refine ⟨k, hk, fun j hj hi => ?_⟩
    rcases Nat.eq_or_lt_of_le hi with rfl | hi
    · exact ⟨hs ▸ left hp, fun _ => by rw [hs, tried hround]⟩
    · exact hall j hj hi
  | stop s t _ hp hround =>
    refine ⟨i + 1, by rw [afterDeclarations, hs, tried hround], fun j hj hi => ?_⟩
    obtain rfl : i = j := Nat.le_antisymm hi (Nat.le_of_lt_succ hj)
    exact ⟨hs ▸ left hp, fun h => absurd h (Nat.lt_irrefl _)⟩

theorem depth_afterDeclarations (p : Parser) (k : Nat) :
    (p.afterDeclarations k).table.depth = 1 := by
  induction k with
  | zero => rfl
  | succ k ih => exact ((declares_perform _ _ _ _).depth_eq).trans ih

/-- Whatever rule a parser applies, accepting or rejecting, it keeps the number of scopes,
the outer scopes and the names of the innermost one. The productions of expressions and
blocks keep the whole table. After any rule in a scope of its own, that scope can be popped,
which gives the table from before; and a program is read from declaration to declaration
with the global scope alone. -/
theorem scope_discipline (p : Parser) :
    (∀ r, (p.apply r).2.table.depth = p.table.depth ∧ (p.apply r).2.table.outer = p.table.outer ∧
      ∀ name, (p.table.innermost.get? name).isSome →
        ((p.apply r).2.table.innermost.get? name).isSome) ∧
    (∀ r ∈ expressionRules, (p.apply r).2.table = p.table) ∧
    (p.apply compound).2.table = p.table ∧
    (∀ r, ((p.setTable p.table.push).apply r).2.table.pop = .ok p.table) ∧
    (∀ k, (p.afterDeclarations k).table.depth = 1) ∧
    ∃ k, p.parseProgram.2.state = p.afterDeclarations k ∧ ∀ j < k,
      (p.afterDeclarations j).rest ≠ [] ∧
        (j + 1 < k → (p.tryDeclaration (p.afterDeclarations j)).1 = true) := by
  have grows (q : Parser) (r : Rule) : q.table.Grows (q.apply r).2.table := by
    rw [table, table, state_apply]
    exact declares_perform q.preferences q.room r q.state
  refine ⟨fun r => ⟨(grows p r).depth_eq, (grows p r).outer, (grows p r).names⟩, fun r hr => ?_,
    ?_, fun r => SymbolTable.pop_eq_of_outer (grows (p.setTable p.table.push) r).outer,
    p.depth_afterDeclarations, p.state_parseProgram_eq_afterDeclarations⟩
  · rw [table, table, state_apply]
    exact table_of_mem_expressionRules hr _ _ _
  · rw [table, table, state_apply]
    exact table_compound _ _ _

end Parser
end Recognizer
