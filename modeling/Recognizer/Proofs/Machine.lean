import Mathlib.Computability.StateTransition
import Recognizer.Proofs.Runs

/-!
# A machine for rules

`Rule.exec` runs a rule by recursion and gives each loop a clock. Here the recursion is a
stack and there is no clock: a machine takes one step after another until its stack is
empty, and nothing but the source keeps it from running on for ever. What the machine works
with is a device, whose operations may fail. A device that realizes the states of a run leads
the machine through every run to its answer (`Realizes.halts`), so the machine halts and no
operation fails.
-/
namespace Recognizer.Grammar

open StateTransition

variable {σ ε : Type}

@[simp] theorem ok_bind {α β : Type} (a : α) (f : α → Except ε β) :
    (Except.ok a >>= f) = f a := rfl

@[simp] theorem pure_eq_ok {α : Type} (a : α) : (pure a : Except ε α) = .ok a := rfl

/-- The operations on which rules are run. Each of them may fail. -/
structure Device (σ ε : Type) where
  /-- The answer to a test. -/
  passes (s : σ) (t : Test) : Except ε Bool
  /-- Consume the next lexeme. -/
  advance (s : σ) : Except ε σ
  /-- The name of the next lexeme, if it is an identifier. -/
  identifier? (s : σ) : Except ε (Option Bytes)
  /-- Declare a name in the innermost scope. -/
  declare (s : σ) (name : Bytes) (kind : Symbol.Kind) : Except ε σ
  /-- The offset of the next lexeme. -/
  place (s : σ) : Nat
  /-- Go back to an offset. -/
  restore (s : σ) (place : Nat) : Except ε σ
  /-- Open a scope. -/
  push (s : σ) : Except ε σ
  /-- Close the innermost scope. -/
  pop (s : σ) : Except ε σ
  /-- Ask the depth guard to open a production. -/
  enter (s : σ) : Except ε (Bool × σ)
  /-- Close a guarded production. -/
  leave (s : σ) : Except ε σ

/-- What is to be done with the answer of a rule. -/
inductive Frame where
  /-- Choose how to go on. -/
  | branch (yes no : Rule)
  /-- Go back to the offset if the rule rejects. -/
  | attempt (place : Nat)
  /-- Begin the next round. -/
  | loop (t : Test) (body : Rule)
  /-- Close the scope. -/
  | scope
  /-- Close the guarded production. -/
  | guard

/-- What a machine does next: run a rule, or hand an answer to the topmost frame. -/
inductive Control where
  | run (r : Rule)
  | answer (b : Bool)

/-- A machine between two steps. -/
structure Machine (σ : Type) where
  control : Control
  stack : List Frame
  store : σ

namespace Device

variable (d : Device σ ε) (body : Guarded → Rule)

/-- The first step of a rule. -/
def begin (r : Rule) (stack : List Frame) (s : σ) : Except ε (Machine σ) :=
  match r with
  | .accept => return ⟨.answer true, stack, s⟩
  | .reject => return ⟨.answer false, stack, s⟩
  | .peek t => return ⟨.answer (← d.passes s t), stack, s⟩
  | .take t => do
    if ← d.passes s t then return ⟨.answer true, stack, ← d.advance s⟩
    else return ⟨.answer false, stack, s⟩
  | .branch first yes no => return ⟨.run first, .branch yes no :: stack, s⟩
  | .attempt r => return ⟨.run r, .attempt (d.place s) :: stack, s⟩
  | .loop t r => do
    if ← d.passes s t then return ⟨.run r, .loop t r :: stack, s⟩
    else return ⟨.answer true, stack, s⟩
  | .declare kind next => do
    match ← d.identifier? s with
    | some name => return ⟨.run (next name), stack, ← d.advance (← d.declare s name kind)⟩
    | none => return ⟨.answer false, stack, s⟩
  | .enclosed r => return ⟨.run r, .scope :: stack, ← d.push s⟩
  | .call g => do
    match ← d.enter s with
    | (true, s) => return ⟨.run (body g), .guard :: stack, s⟩
    | (false, s) => return ⟨.answer false, stack, s⟩

/-- Hand an answer to the topmost frame. -/
def resume (b : Bool) (f : Frame) (stack : List Frame) (s : σ) : Except ε (Machine σ) :=
  match f with
  | .branch yes no => return ⟨.run (if b then yes else no), stack, s⟩
  | .attempt place => do
    if b then return ⟨.answer true, stack, s⟩
    else return ⟨.answer false, stack, ← d.restore s place⟩
  | .loop t r => return ⟨if b then .run (.loop t r) else .answer false, stack, s⟩
  | .scope => return ⟨.answer b, stack, ← d.pop s⟩
  | .guard => return ⟨.answer b, stack, ← d.leave s⟩

/-- One step. A machine that has failed, and one that has an answer and no frame left, has
come to its end. -/
def step : Except ε (Machine σ) → Option (Except ε (Machine σ))
  | .error _ => none
  | .ok ⟨.answer _, [], _⟩ => none
  | .ok ⟨.answer b, f :: stack, s⟩ => some (d.resume b f stack s)
  | .ok ⟨.run r, stack, s⟩ => some (d.begin body r stack s)

/-- All steps of a rule. Without an end there is no value. -/
def eval (r : Rule) (s : σ) : Part (Except ε (Machine σ)) :=
  StateTransition.eval (d.step body) (.ok ⟨.run r, [], s⟩)

/-- The operations follow those on states, without failing. `R depth scopes s x` says that
the store `x` stands for the state `s` with so many productions and at least so many scopes
open. -/
structure Realizes (limit : Nat) (R : Nat → Nat → State → σ → Prop) : Prop where
  passes {depth scopes s x} (h : R depth scopes s x) (t : Test) :
    d.passes x t = .ok (s.passes t)
  advance {depth scopes s x} (h : R depth scopes s x) :
    ∃ y, d.advance x = .ok y ∧ R depth scopes s.advance y
  identifier? {depth scopes s x} (h : R depth scopes s x) :
    d.identifier? x = .ok s.identifier?
  declare {depth scopes s x} (h : R depth scopes s x) (name : Bytes) (kind : Symbol.Kind) :
    ∃ y, d.declare x name kind = .ok y ∧ R depth scopes (s.declare name kind) y
  restore {depth scopes s x t y} (h : R depth scopes s x) (ht : R depth scopes t y) :
    ∃ z, d.restore y (d.place x) = .ok z ∧ R depth scopes { t with rest := s.rest } z
  push {depth scopes s x} (h : R depth scopes s x) :
    ∃ y, d.push x = .ok y ∧ R depth (scopes + 1) { s with table := s.table.push } y
  pop {depth scopes s x} (h : R depth (scopes + 1) s x) :
    ∃ y, d.pop x = .ok y ∧ R depth scopes { s with table := s.table.close } y
  refuse {scopes s x} (h : R limit scopes s x) :
    ∃ y, d.enter x = .ok (false, y) ∧ R limit scopes s.refuse y
  refused {depth scopes s x o} (h : R depth scopes s x) (ho : s.overflow = some o) :
    ∃ y, d.enter x = .ok (false, y) ∧ R depth scopes s y
  enter {depth scopes s x} (h : R depth scopes s x) (ho : s.overflow = none)
    (hdepth : depth < limit) : ∃ y, d.enter x = .ok (true, y) ∧ R (depth + 1) scopes s y
  leave {depth scopes s x t y} (h : R depth scopes s x) (ht : R (depth + 1) scopes t y) :
    ∃ z, d.leave y = .ok z ∧ R depth scopes t z

namespace Realizes

variable {d body} {limit : Nat} {R : Nat → Nat → State → σ → Prop}

/-- The machine makes every run, whatever is left to be done after it. -/
theorem reaches (hd : d.Realizes limit R) {n depth scopes : Nat} {r : Rule} {s t : State}
    {b : Bool} (h : FullRuns body n r s b t) (hn : n + depth = limit) {x : σ}
    (hx : R depth scopes s x) (stack : List Frame) :
    ∃ y, Reaches (d.step body) (.ok ⟨.run r, stack, x⟩) (.ok ⟨.answer b, stack, y⟩) ∧
      R depth scopes t y := by
  induction h generalizing depth scopes x stack with
  | accept | reject => exact ⟨x, .single rfl, hx⟩
  | @peek _ q s b _ hq =>
    refine ⟨x, .single ?_, hx⟩
    simp [step, begin, hd.passes hx, hq]
  | take _ hq =>
    obtain ⟨y, hy, hR⟩ := hd.advance hx
    refine ⟨y, .single ?_, hR⟩
    simp [step, begin, hd.passes hx, hq, hy]
  | miss _ hq =>
    refine ⟨x, .single ?_, hx⟩
    simp [step, begin, hd.passes hx, hq]
  | @yes _ first yes no _ _ _ _ _ _ ihf ihy =>
    obtain ⟨y, hfirst, hy⟩ := ihf hn hx (.branch yes no :: stack)
    obtain ⟨z, hyes, hz⟩ := ihy hn hy stack
    exact ⟨z, .head rfl (hfirst.trans (.head rfl hyes)), hz⟩
  | @no _ first yes no _ _ _ _ _ _ ihf ihn =>
    obtain ⟨y, hfirst, hy⟩ := ihf hn hx (.branch yes no :: stack)
    obtain ⟨z, hno, hz⟩ := ihn hn hy stack
    exact ⟨z, .head rfl (hfirst.trans (.head rfl hno)), hz⟩
  | keep _ ih =>
    obtain ⟨y, hr, hy⟩ := ih hn hx (.attempt (d.place x) :: stack)
    exact ⟨y, .head rfl (hr.tail rfl), hy⟩
  | restore _ ih =>
    obtain ⟨y, hr, hy⟩ := ih hn hx (.attempt (d.place x) :: stack)
    obtain ⟨z, hback, hz⟩ := hd.restore hx hy
    refine ⟨z, .head rfl (hr.tail ?_), hz⟩
    simp [step, resume, hback]
  | done _ hq =>
    refine ⟨x, .single ?_, hx⟩
    simp [step, begin, hd.passes hx, hq]
  | @again _ q r _ _ _ _ _ hq _ _ ihb ihl =>
    obtain ⟨y, hround, hy⟩ := ihb hn hx (.loop q r :: stack)
    obtain ⟨z, hloop, hz⟩ := ihl hn hy stack
    refine ⟨z, .head ?_ (hround.trans (.head rfl hloop)), hz⟩
    simp [step, begin, hd.passes hx, hq]
  | @stop _ q r _ _ _ hq _ ih =>
    obtain ⟨y, hround, hy⟩ := ih hn hx (.loop q r :: stack)
    refine ⟨y, .head ?_ (hround.tail rfl), hy⟩
    simp [step, begin, hd.passes hx, hq]
  | @declare _ kind _ _ name _ _ hs _ ih =>
    obtain ⟨y, hy, hdeclared⟩ := hd.declare hx name kind
    obtain ⟨z, hz, hnext⟩ := hd.advance hdeclared
    obtain ⟨w, hrun, hw⟩ := ih hn hnext stack
    refine ⟨w, .head ?_ hrun, hw⟩
    simp [step, begin, hd.identifier? hx, hs, hy, hz]
  | nameless _ hs =>
    refine ⟨x, .single ?_, hx⟩
    simp [step, begin, hd.identifier? hx, hs]
  | enclosed _ ih =>
    obtain ⟨y, hy, hopen⟩ := hd.push hx
    obtain ⟨z, hrun, hz⟩ := ih hn hopen (.scope :: stack)
    obtain ⟨w, hw, hclosed⟩ := hd.pop hz
    refine ⟨w, .head (b := .ok ⟨.run _, .scope :: stack, y⟩) ?_ (hrun.tail ?_), hclosed⟩
    · simp [step, begin, hy]
    · simp [step, resume, hw]
  | @call _ g _ _ _ hs _ ih =>
    obtain ⟨y, hy, hentered⟩ := hd.enter hx hs (by omega)
    obtain ⟨z, hrun, hz⟩ := ih (by omega) hentered (.guard :: stack)
    obtain ⟨w, hw, hleft⟩ := hd.leave hx hz
    refine ⟨w, .head (b := .ok ⟨.run (body g), .guard :: stack, y⟩) ?_ (hrun.tail ?_), hleft⟩
    · simp [step, begin, hy]
    · simp [step, resume, hw]
  | refuse =>
    obtain rfl : depth = limit := by omega
    obtain ⟨y, hy, hrefused⟩ := hd.refuse hx
    refine ⟨y, .single ?_, hrefused⟩
    simp [step, begin, hy]
  | refused hs =>
    obtain ⟨y, hy, hrefused⟩ := hd.refused hx hs
    refine ⟨y, .single ?_, hrefused⟩
    simp [step, begin, hy]

/-- The machine comes to the answer of the run, and no operation fails. -/
theorem halts (hd : d.Realizes limit R) {n depth : Nat} {r : Rule} {s t : State} {b : Bool}
    (h : FullRuns body n r s b t) (hn : n + depth = limit) {x : σ} (scopes : Nat)
    (hx : R depth scopes s x) :
    ∃ y, d.eval body r x = Part.some (.ok ⟨.answer b, [], y⟩) ∧ R depth scopes t y := by
  obtain ⟨y, hreaches, hy⟩ := hd.reaches h hn hx []
  exact ⟨y, Part.eq_some_iff.2 (mem_eval.2 ⟨hreaches, rfl⟩), hy⟩

end Realizes
end Device
end Recognizer.Grammar
