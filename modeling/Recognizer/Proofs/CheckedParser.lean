import Recognizer.Proofs.CheckedScan
import Recognizer.Proofs.Program

/-!
# Parsing with checked operations

A store is what a machine keeps of a parser: the token under the cursor instead of all that
follow, the scopes as a list that might be empty, and counts that have to be words. Its
operations stop where they have no result. As long as the source and the limit on open
productions are words, they do what the operations on states do (`realizes_device`), so a
program is read without a stop whatever was left in the store (`parseProgram_eq`).
-/
namespace Recognizer.Checked

open Grammar

/-- A recognizer in words. -/
structure Store where
  source : Bytes
  /-- The token under the cursor. -/
  current : Option Token
  /-- The scopes, innermost first. -/
  scopes : List Scope
  /-- The number of open guarded productions. -/
  depth : Nat
  /-- Whether the depth guard has refused a call. -/
  exceeded : Bool

namespace Store

variable (word limit : Nat) (x : Store)

/-- The offset of the token under the cursor, or of the end. -/
def position : Nat :=
  match x.current with
  | some t => t.span.start
  | none => x.source.length

/-- The text of the token under the cursor, if it is an identifier. -/
def identifier? : Except Panic (Option Bytes) :=
  match x.current with
  | some t => if t.kind = .identifier then return some (← slice t.span x.source) else return none
  | none => return none

/-- The answer to a test. -/
def passes : Test → Except Panic Bool
  | .kind k => return x.current.any fun t => t.kind == k
  | .oneOf ks => return x.current.any fun t => ks.contains t.kind
  | .word w => return (← x.identifier?) == some w
  | .known => return (← x.identifier?).any fun name =>
      (x.scopes.findSome? fun s => s.get? name).isSome
  | .finish => return x.current.isNone
  | .negate t => return !(← passes t)
  | .both t u => do if ← passes t then passes u else return false

/-- Go to the first significant token from an offset on. -/
def restore (offset : Nat) : Except Panic Store :=
  return { x with current := ← significantAt word x.source offset }

/-- Move past the token under the cursor. The end stays the end. -/
def advance : Except Panic Store :=
  match x.current with
  | some t => x.restore word t.span.stop
  | none => return x

/-- Declare a name in the innermost scope, and look it up there. -/
def declare (name : Bytes) (kind : Symbol.Kind) : Except Panic Store :=
  match x.scopes with
  | [] => .error .noScope
  | scope :: outer =>
    let scope := scope.insert ⟨name, kind⟩
    match scope.get? name with
    | some _ => return { x with scopes := scope :: outer }
    | none => .error .outOfRange

/-- Open a scope. -/
def push : Store := { x with scopes := [] :: x.scopes }

/-- Close the innermost scope, unless it is the global one. -/
def pop : Except Panic Store :=
  if 1 < x.scopes.length then return { x with scopes := x.scopes.tail } else .error .globalScope

/-- Open a guarded production, unless the guard has refused a call or refuses this one. -/
def enter : Except Panic (Bool × Store) :=
  if x.exceeded then return (false, x)
  else if limit ≤ x.depth then return (false, { x with exceeded := true })
  else return (true, { x with depth := ← add word x.depth 1 })

/-- Close a guarded production. -/
def leave : Store := { x with depth := x.depth - 1 }

/-- Rules are run on a store with its operations. -/
def device : Device Store Panic where
  passes := passes
  advance := advance word
  identifier? := identifier?
  declare := declare
  place := position
  restore := restore word
  push x := .ok x.push
  pop := pop
  enter := enter word limit
  leave x := .ok x.leave

end Store

/-- The store keeps of the state what a machine needs, with so many productions and at least
so many scopes over the global one open. -/
structure Represents (source : Bytes) (depth scopes : Nat) (s : State) (x : Store) : Prop where
  source_eq : x.source = source
  current_eq : x.current = s.rest.head?.map Lexeme.token
  scopes_eq : x.scopes = s.table.scopes
  depth_eq : x.depth = depth
  exceeded_eq : x.exceeded = s.overflow.isSome
  anchored : s.Anchored source
  scopes_le : scopes ≤ s.table.outer.length

namespace Represents

variable {word limit depth scopes : Nat} {source : Bytes} {s t : State} {x y : Store}

theorem position_eq (h : Represents source depth scopes s x) : x.position = s.position := by
  rw [Store.position, State.position, h.current_eq, h.source_eq, ← h.anchored.size]
  cases s.rest <;> rfl

theorem answer_eq (h : Represents source depth scopes s x) :
    (x.current.isNone && !x.exceeded) = (s.rest.isEmpty && s.overflow.isNone) := by
  rw [h.current_eq, h.exceeded_eq, Option.not_isSome]
  cases s.rest <;> rfl

theorem identifier?_eq (h : Represents source depth scopes s x) :
    x.identifier? = .ok s.identifier? := by
  rw [Store.identifier?, State.identifier?, h.current_eq, h.source_eq]
  cases hrest : s.rest with
  | nil => rfl
  | cons z zs =>
    obtain ⟨-, hplaced, -⟩ := h.anchored.head hrest
    have hslice : slice z.token.span source = .ok z.text := slice_eq hplaced.text
    by_cases hz : z.kind = .identifier
    · simp [hslice, show z.token.kind = .identifier from hz, hz]
    · simp [show z.token.kind = z.kind from rfl, hz]

theorem passes_eq (h : Represents source depth scopes s x) (q : Test) :
    x.passes q = .ok (s.passes q) := by
  induction q with
  | kind | oneOf | finish =>
    simp only [Store.passes, h.current_eq, State.passes, Test.holds]
    cases s.rest <;> rfl
  | word w =>
    simp only [Store.passes, h.identifier?_eq, ok_bind, State.passes, Test.holds, State.identifier?]
    cases s.rest with
    | nil => rfl
    | cons z zs => by_cases hz : z.kind = .identifier <;> simp [hz]
  | known =>
    simp only [Store.passes, h.identifier?_eq, ok_bind, State.passes, Test.holds,
      State.identifier?, h.scopes_eq]
    cases s.rest with
    | nil => rfl
    | cons z zs => by_cases hz : z.kind = .identifier <;> simp [hz, SymbolTable.lookup?]
  | negate q ih => simp only [Store.passes, ih, ok_bind, pure_eq_ok, State.passes, Test.holds]
  | both q u ihq ihu =>
    simp only [Store.passes, ihq, ihu, ok_bind, pure_eq_ok, State.passes, Test.holds]
    cases q.holds s.table s.rest <;> rfl

/-- Reading on from an offset leads to the significant lexemes behind it. -/
theorem restore_eq (h : Represents source depth scopes s x) (hsource : source.length < word)
    (offset : Nat) : ∃ y, x.restore word offset = .ok y ∧
      Represents source depth scopes { s with rest := Lexeme.significantFrom source offset } y := by
  refine ⟨{ x with current := (Lexeme.significantFrom source offset).head?.map Lexeme.token },
    ?_, h.source_eq, rfl, h.scopes_eq, h.depth_eq, h.exceeded_eq, ?_, h.scopes_le⟩
  · rw [Store.restore, h.source_eq, significantAt_eq hsource]
    rfl
  · exact .of_significantFrom h.anchored.size rfl

theorem advance_eq (h : Represents source depth scopes s x) (hsource : source.length < word) :
    ∃ y, x.advance word = .ok y ∧ Represents source depth scopes s.advance y := by
  rw [Store.advance, h.current_eq]
  cases hrest : s.rest with
  | nil =>
    have hadvance : s.advance = s := by
      rw [State.advance, hrest, List.tail_nil, ← hrest]
    exact ⟨x, rfl, by rwa [hadvance]⟩
  | cons z zs =>
    have hbehind : Lexeme.significantFrom source z.stop = s.rest.tail := by
      have hplace := h.anchored.rest
      rw [hrest] at hplace
      rw [hrest, List.tail_cons]
      exact (Lexeme.significantFrom_eq_cons hplace.symm).2.2.2.2
    have hnext := h.restore_eq hsource z.stop
    rwa [hbehind] at hnext

/-- A declared name is found in the scope in which it was declared. -/
theorem declare_eq (h : Represents source depth scopes s x) (name : Bytes) (kind : Symbol.Kind) :
    ∃ y, x.declare name kind = .ok y ∧
      Represents source depth scopes (s.declare name kind) y := by
  refine ⟨{ x with scopes := (s.declare name kind).table.scopes }, ?_, h.source_eq, h.current_eq,
    rfl, h.depth_eq, h.exceeded_eq, ⟨h.anchored.size, h.anchored.rest⟩, h.scopes_le⟩
  have hget : (Scope.insert ⟨name, kind⟩ s.table.innermost).get? name = some ⟨name, kind⟩ := by
    simp [Scope.get?_insert]
  simp [Store.declare, h.scopes_eq, SymbolTable.scopes, hget, State.declare, SymbolTable.declare]

/-- Only scopes that were opened are closed. -/
theorem pop_eq (h : Represents source depth (scopes + 1) s x) :
    ∃ y, x.pop = .ok y ∧ Represents source depth scopes { s with table := s.table.close } y := by
  obtain ⟨rest, size, ⟨innermost, outer⟩, overflow⟩ := s
  cases outer with
  | nil => exact absurd h.scopes_le (Nat.not_succ_le_zero _)
  | cons scope outer =>
    refine ⟨{ x with scopes := scope :: outer }, ?_, h.source_eq, h.current_eq, rfl, h.depth_eq,
      h.exceeded_eq, ⟨h.anchored.size, h.anchored.rest⟩, Nat.le_of_succ_le_succ h.scopes_le⟩
    simp [Store.pop, h.scopes_eq, SymbolTable.scopes]

end Represents

/-- The operations on stores do what those on states do, and none of them stops. -/
theorem Store.realizes_device {word limit : Nat} {source : Bytes} (hsource : source.length < word)
    (hlimit : limit < word) : (device word limit).Realizes limit (Represents source) where
  passes h := h.passes_eq
  advance h := h.advance_eq hsource
  identifier? h := h.identifier?_eq
  declare h := h.declare_eq
  restore {_ _ s x t y} h ht := by
    have hback := ht.restore_eq hsource x.position
    rwa [h.position_eq, ← h.anchored.rest, ← h.position_eq] at hback
  push {_ _ s x} h := by
    refine ⟨_, rfl, h.source_eq, h.current_eq, ?_, h.depth_eq, h.exceeded_eq,
      ⟨h.anchored.size, h.anchored.rest⟩, Nat.succ_le_succ h.scopes_le⟩
    rw [push, h.scopes_eq]
    rfl
  pop h := h.pop_eq
  refuse {_ s x} h := by
    cases ho : s.overflow with
    | some o =>
      refine ⟨x, ?_, by rwa [State.refuse_of_overflow ho]⟩
      simp [device, Store.enter, h.exceeded_eq, ho]
    | none =>
      refine ⟨{ x with exceeded := true }, ?_, h.source_eq, h.current_eq, h.scopes_eq, h.depth_eq,
        ?_, ⟨h.anchored.size, h.anchored.rest⟩, h.scopes_le⟩
      · simp [device, Store.enter, h.exceeded_eq, h.depth_eq, ho]
      · simp [State.refuse, ho]
  refused {_ _ s x _} h ho := by
    refine ⟨x, ?_, h⟩
    simp [device, Store.enter, h.exceeded_eq, ho]
  enter {depth _ s x} h ho hdepth := by
    refine ⟨{ x with depth := depth + 1 }, ?_, h.source_eq, h.current_eq, h.scopes_eq, rfl,
      h.exceeded_eq, h.anchored, h.scopes_le⟩
    have hopen : add word x.depth 1 = .ok (depth + 1) := by
      rw [h.depth_eq]
      exact add_eq (by omega)
    have hroom : ¬ limit ≤ x.depth := by
      rw [h.depth_eq]
      omega
    simp [device, Store.enter, h.exceeded_eq, ho, hroom, hopen]
  leave {depth _ _ _ t y} _ ht := by
    refine ⟨_, rfl, ht.source_eq, ht.current_eq, ht.scopes_eq, ?_, ht.exceeded_eq, ht.anchored,
      ht.scopes_le⟩
    rw [leave, ht.depth_eq]
    rfl

namespace Store

/-- The store at the first token of a source, with nothing declared and nothing open. -/
def opening (word : Nat) (source : Bytes) : Except Panic Store :=
  return ⟨source, ← significantAt word source 0, [[]], 0, false⟩

/-- Read the whole source of a store as a program, from its first token. There is no value
as long as reading does not end. -/
def parseProgram (word limit : Nat) (prefs : GrammarPreferences) (x : Store) :
    Part (Except Panic (Bool × Store)) :=
  match opening word x.source with
  | .error e => Part.some (.error e)
  | .ok y => ((device word limit).eval (body prefs) declarations y).map fun ended => do
    let m ← ended
    return (m.store.current.isNone && !m.store.exceeded, m.store)

variable {word : Nat} {source : Bytes} (hsource : source.length < word)
include hsource

/-- A store can be opened on every source. -/
theorem opening_eq : ∃ x, opening word source = .ok x ∧
    Represents source 0 0 ⟨Lexeme.significant source, source.length, .fresh, none⟩ x := by
  refine ⟨⟨source, (Lexeme.significant source).head?.map Lexeme.token, [[]], 0, false⟩, ?_, rfl,
    rfl, rfl, rfl, rfl, .of_significantFrom rfl rfl, Nat.le_refl _⟩
  rw [opening, significantAt_eq hsource]
  rfl

/-- Whatever is in a store, its source is read as a program without a stop: the answer is that
of a parser, and the store ends as the parser does. -/
theorem parseProgram_eq {limits : Limits} (hlimit : limits.maxDepth < word)
    (prefs : GrammarPreferences) {x : Store} (hx : x.source = source) :
    ∃ y, x.parseProgram word limits.maxDepth prefs =
        Part.some (.ok ((Parser.new limits prefs source).parseProgram.1, y)) ∧
      Represents source 0 0 (Parser.new limits prefs source).parseProgram.2.state y := by
  obtain ⟨z, hopening, hz⟩ := opening_eq hsource
  obtain ⟨y, heval, hy⟩ := (realizes_device hsource hlimit).halts
    (runs_perform prefs limits.maxDepth productive_declarations _) rfl 0 hz
  rw [Parser.answer_parseProgram, Parser.state_parseProgram]
  refine ⟨y, ?_, hy⟩
  simp only [parseProgram, hx, hopening, heval, Part.map_some, ok_bind, hy.answer_eq, pure_eq_ok]
  rfl

end Store
end Recognizer.Checked
