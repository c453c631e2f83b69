import Recognizer.Proofs.Program

/-!
# Parsers move by move

A parser runs a rule in the room that its limits leave, and the room stands for the count of
open productions. Here the parser is followed move by move instead: it reads, it enters a
guarded production and it leaves one, each time with its own operations. Every move is kept,
also those of alternatives that are given up. Move by move a parser comes to the answer and
to the parser that running the rule gives (`accounts_course`, `accounts_programCourse`).
-/
namespace Recognizer

open Grammar

namespace Parser

/-- What a parser does in one move. -/
inductive Act where
  /-- Lexemes are consumed or given back, names declared, scopes opened or closed. -/
  | read
  /-- The guard is asked to open a guarded production. -/
  | enter (g : Guarded)
  /-- A guarded production is closed. -/
  | leave
  deriving DecidableEq, Repr

/-- One move, from a parser to the next. -/
structure Move where
  act : Act
  before : Parser
  after : Parser

/-- The moves that are made. -/
inductive Move.Lawful : Move → Prop where
  | read (p : Parser) {s : State} (h : s.overflow = p.state.overflow) :
      Lawful ⟨.read, p, { p with state := s }⟩
  | enter (p : Parser) (g : Guarded) : Lawful ⟨.enter g, p, p.enter.2⟩
  | leave (p : Parser) : Lawful ⟨.leave, p, p.leave⟩

/-- A parser under way, with the moves that it has made, the latest first. -/
structure Course where
  now : Parser
  moves : List Move

namespace Course

/-- Make a move. -/
def go (c : Course) (act : Act) (p : Parser) : Course := ⟨p, ⟨act, c.now, p⟩ :: c.moves⟩

/-- Go on in another state. -/
def read (c : Course) (s : State) : Course := c.go .read { c.now with state := s }

/-- Repeat a body as long as the test holds. -/
def loop (t : Test) (body : Course → Bool × Course) : List Lexeme → Course → Bool × Course
  | [], c => if c.now.state.passes t then (false, (body c).2) else (true, c)
  | _ :: clock, c =>
    if c.now.state.passes t then
      match body c with
      | (true, c) => loop t body clock c
      | (false, c) => (false, c)
    else (true, c)

/-- Run a rule move by move, given how the guarded productions are called. -/
def follow (callee : Guarded → Course → Bool × Course) : Rule → Course → Bool × Course
  | .accept, c => (true, c)
  | .reject, c => (false, c)
  | .peek t, c => (c.now.state.passes t, c)
  | .take t, c =>
    if c.now.state.passes t then (true, c.read c.now.state.advance) else (false, c)
  | .branch first yes no, c =>
    match follow callee first c with
    | (true, c) => follow callee yes c
    | (false, c) => follow callee no c
  | .attempt r, c =>
    match follow callee r c with
    | (true, d) => (true, d)
    | (false, d) => (false, d.read { d.now.state with rest := c.now.state.rest })
  | .loop t r, c => loop t (follow callee r) c.now.state.rest c
  | .declare kind next, c =>
    match c.now.state.identifier? with
    | some name => follow callee (next name) (c.read (c.now.state.declare name kind).advance)
    | none => (false, c)
  | .enclosed r, c =>
    let (answer, d) := follow callee r (c.read { c.now.state with table := c.now.state.table.push })
    (answer, d.read { d.now.state with table := d.now.state.table.close })
  | .call g, c => callee g c

/-- Call a guarded production: ask the guard, run the body and leave. Without room the guard
refuses. -/
def call (body : Guarded → Rule) : Nat → Guarded → Course → Bool × Course
  | 0, g, c => (false, c.go (.enter g) c.now.enter.2)
  | room + 1, g, c =>
    match c.now.enter with
    | (false, p) => (false, c.go (.enter g) p)
    | (true, p) =>
      let (answer, d) := follow (call body room) (body g) (c.go (.enter g) p)
      (answer, d.go .leave d.now.leave)

end Course

/-- The moves of a parser through a rule. -/
def course (p : Parser) (r : Rule) : Bool × Course :=
  Course.follow (Course.call (body p.preferences) p.room) r ⟨p, []⟩

/-- The moves of a parser through a program, the first of which empties the table. -/
def programCourse (p : Parser) : Bool × Course :=
  let start := (Course.mk p []).read { p.state with table := .fresh }
  let finish := (Course.follow (Course.call (body p.preferences) p.room) declarations start).2
  (finish.now.state.rest.isEmpty, finish)

/-- The moves, the latest first, lead from one parser to the other. -/
inductive Linked (p : Parser) : List Move → Parser → Prop where
  | nil : Linked p [] p
  | cons {ms : List Move} {m : Move} (hm : m.Lawful) (h : Linked p ms m.before) :
      Linked p (m :: ms) m.after

namespace Linked

variable {p q r : Parser} {ms ns : List Move}

theorem trans (h : Linked p ms q) (h' : Linked q ns r) : Linked p (ns ++ ms) r := by
  induction h' with
  | nil => exact h
  | cons hm _ ih => exact .cons hm ih

end Linked

section Adopt

variable (p : Parser) {s t : State}

@[simp] theorem limits_adopt (s : State) : (p.adopt s).limits = p.limits := by
  unfold adopt
  split <;> rfl

@[simp] theorem room_adopt (s : State) : (p.adopt s).room = p.room := by
  rw [room, room, limits_adopt, depth_adopt]

/-- A state in which no other call was refused is taken over without a report. -/
theorem adopt_of_overflow (h : s.overflow = p.state.overflow) :
    p.adopt s = { p with state := s } := by
  unfold adopt
  cases ho : p.state.overflow <;> simp [ho, h]

/-- Of two states in turn the first refused call is reported. -/
theorem adopt_adopt (hs : ∀ o, p.state.overflow = some o → s.overflow = some o)
    (ht : ∀ o, s.overflow = some o → t.overflow = some o) :
    (p.adopt s).adopt t = p.adopt t := by
  cases hp : p.state.overflow with
  | some o => simp [adopt, hp, hs o hp]
  | none =>
    cases hso : s.overflow with
    | some o => simp [adopt, hp, hso, ht o hso]
    | none => cases hto : t.overflow <;> simp [adopt, hp, hso, hto]

theorem leave_adopt (s : State) :
    (adopt { p with depth := p.depth + 1 } s).leave = p.adopt s := by
  unfold adopt
  cases p.state.overflow <;> cases s.overflow <;> rfl

end Adopt

/-- The outcome of a course that goes on from `c` is that of a step from its state: it has
the same answer, and its parser has taken over the new state. The new moves are linked. -/
structure Accounts (c : Course) (x : Bool × Course) (y : Bool × State) : Prop where
  answer : x.1 = y.1
  now : x.2.now = c.now.adopt y.2
  latched : ∀ o, c.now.state.overflow = some o → y.2.overflow = some o
  moves : ∃ ms, x.2.moves = ms ++ c.moves ∧ Linked c.now ms x.2.now

namespace Accounts

variable {c d : Course} {x x' : Bool × Course} {y y' : Bool × State} {b b' : Bool} {s t : State}

theorem state_eq (h : Accounts c x y) : x.2.now.state = y.2 := by rw [h.now, state_adopt]

theorem room_eq (h : Accounts c x y) : x.2.now.room = c.now.room := by rw [h.now, room_adopt]

theorem stay (b : Bool) (c : Course) : Accounts c (b, c) (b, c.now.state) where
  answer := rfl
  now := by rw [adopt_of_overflow _ rfl]
  latched _ := id
  moves := ⟨[], rfl, .nil⟩

theorem trans (h : Accounts c x y) (h' : Accounts x.2 x' y') : Accounts c x' y' where
  answer := h'.answer
  now := by
    rw [h'.now, h.now, adopt_adopt _ h.latched]
    rw [← h.state_eq]
    exact h'.latched
  latched o ho := h'.latched o (by rw [h.state_eq]; exact h.latched o ho)
  moves := by
    obtain ⟨ms, hms, hlinked⟩ := h.moves
    obtain ⟨ns, hns, hlinked'⟩ := h'.moves
    exact ⟨ns ++ ms, by rw [hns, hms, List.append_assoc], hlinked.trans hlinked'⟩

/-- A move that refuses no call is accounted for. -/
theorem read (b : Bool) (c : Course) (h : s.overflow = c.now.state.overflow) :
    Accounts c (b, c.read s) (b, s) where
  answer := rfl
  now := by rw [adopt_of_overflow _ h]; rfl
  latched o ho := h.trans ho
  moves := ⟨[⟨.read, c.now, { c.now with state := s }⟩], rfl, .cons (.read c.now h) .nil⟩

end Accounts

section Follow

variable {n : Nat} {callee : Guarded → Course → Bool × Course} {callee' : Guarded → Step}

/-- The course of a step is accounted for wherever there is so much room. -/
def Keeps (n : Nat) (f : Course → Bool × Course) (g : Step) : Prop :=
  ∀ c, c.now.room = n → Accounts c (f c) (g c.now.state)

theorem Keeps.cases {f : Course → Bool × Course} {g : Step} (h : Keeps n f g) {c : Course}
    (hc : c.now.room = n) : ∃ b d, f c = (b, d) ∧ g c.now.state = (b, d.now.state) ∧
      d.now.room = n ∧ Accounts c (b, d) (b, d.now.state) := by
  have haccounts := h c hc
  refine ⟨(f c).1, (f c).2, rfl, ?_, haccounts.room_eq.trans hc, ?_⟩
  · rw [haccounts.answer, haccounts.state_eq]
  · have hstate : (f c).2.now.state = (g c.now.state).2 := haccounts.state_eq
    rw [hstate]
    refine ⟨rfl, haccounts.now, haccounts.latched, haccounts.moves⟩

theorem Keeps.loop {f : Course → Bool × Course} {g : Step} (h : Keeps n f g) (t : Test)
    (clock : List Lexeme) : Keeps n (Course.loop t f clock) (Step.loop t g clock) := by
  induction clock with
  | nil =>
    intro c hc
    obtain ⟨b, d, hf, hg, -, haccounts⟩ := h.cases hc
    by_cases ht : c.now.state.passes t = true
    · simp only [Course.loop, Step.loop, if_pos ht, hf, hg]
      exact haccounts.trans (.stay false d)
    · simpa only [Course.loop, Step.loop, if_neg ht] using .stay true c
  | cons z clock ih =>
    intro c hc
    obtain ⟨b, d, hf, hg, hd, haccounts⟩ := h.cases hc
    by_cases ht : c.now.state.passes t = true
    · simp only [Course.loop, Step.loop, if_pos ht, hf, hg]
      cases b with
      | true => exact haccounts.trans (ih d hd)
      | false => exact haccounts
    · simpa only [Course.loop, Step.loop, if_neg ht] using .stay true c

theorem keeps_follow (hcall : ∀ g, Keeps n (callee g) (callee' g)) (r : Rule) :
    Keeps n (Course.follow callee r) (r.exec callee') := by
  induction r with
  | accept => exact fun c _ => .stay true c
  | reject => exact fun c _ => .stay false c
  | peek t => exact fun c _ => .stay _ c
  | take t =>
    intro c _
    by_cases ht : c.now.state.passes t = true
    · simpa only [Course.follow, Rule.exec, if_pos ht] using .read true c rfl
    · simpa only [Course.follow, Rule.exec, if_neg ht] using .stay false c
  | branch first yes no ihf ihy ihn =>
    intro c hc
    obtain ⟨b, d, hf, hg, hd, haccounts⟩ := ihf.cases hc
    simp only [Course.follow, Rule.exec, Step.branch, hf, hg]
    cases b with
    | true => exact haccounts.trans (ihy d hd)
    | false => exact haccounts.trans (ihn d hd)
  | attempt r ih =>
    intro c hc
    obtain ⟨b, d, hf, hg, -, haccounts⟩ := ih.cases hc
    simp only [Course.follow, Rule.exec, Step.attempt, hf, hg]
    cases b with
    | true => exact haccounts
    | false => exact haccounts.trans (.read false d rfl)
  | loop t r ih => exact fun c hc => ih.loop t c.now.state.rest c hc
  | declare kind next ih =>
    intro c hc
    cases hname : c.now.state.identifier? with
    | some name =>
      simp only [Course.follow, Rule.exec, hname]
      have hread := Accounts.read true c (s := (c.now.state.declare name kind).advance) rfl
      exact hread.trans (ih name _ hc)
    | none => simpa only [Course.follow, Rule.exec, hname] using .stay false c
  | enclosed r ih =>
    intro c hc
    have hopen : Accounts c (true, c.read { c.now.state with table := c.now.state.table.push })
        (true, { c.now.state with table := c.now.state.table.push }) := .read true c rfl
    obtain ⟨b, d, hf, hg, -, haccounts⟩ :=
      ih.cases (c := c.read { c.now.state with table := c.now.state.table.push }) hc
    have hg : r.exec callee' { c.now.state with table := c.now.state.table.push } =
      (b, d.now.state) := hg
    simp only [Course.follow, Rule.exec, Step.enclosed, hf, hg]
    exact hopen.trans (haccounts.trans (.read b d rfl))
  | call g => exact hcall g

/-- The guard refuses every call after a refused one, refuses the first one without room, and
otherwise counts it. -/
theorem enter_cases (p : Parser) :
    (p.depthExceeded = true ∧ p.enter = (false, p)) ∨
    (p.depthExceeded = false ∧ p.limits.maxDepth ≤ p.depth ∧
      p.enter = (false, p.adopt p.state.refuse)) ∨
    (p.depthExceeded = false ∧ p.depth < p.limits.maxDepth ∧
      p.enter = (true, { p with depth := p.depth + 1 })) := by
  unfold enter
  cases hexceeded : p.depthExceeded with
  | true => exact .inl ⟨rfl, rfl⟩
  | false =>
    by_cases hdepth : p.limits.maxDepth ≤ p.depth
    · exact .inr (.inl ⟨rfl, hdepth, by simp [hdepth]⟩)
    · exact .inr (.inr ⟨rfl, Nat.lt_of_not_le hdepth, by simp [hdepth]⟩)

/-- A refused call, which the guard reports if it is the first. -/
theorem Accounts.refused (g : Guarded) (c : Course) (h : c.now.enter.1 = false) :
    Accounts c (false, c.go (.enter g) c.now.enter.2) (false, c.now.state.refuse) where
  answer := rfl
  now := by
    change c.now.enter.2 = c.now.adopt c.now.state.refuse
    rcases c.now.enter_cases with ⟨hexceeded, henter⟩ | ⟨-, -, henter⟩ | ⟨-, -, henter⟩
    · obtain ⟨o, ho⟩ := Option.isSome_iff_exists.1 hexceeded
      rw [henter, State.refuse_of_overflow ho, adopt_of_overflow _ rfl]
    · rw [henter]
    · rw [henter] at h
      cases h
  latched o ho := by rw [State.refuse_of_overflow ho, ho]
  moves := ⟨[⟨.enter g, c.now, c.now.enter.2⟩], rfl, .cons (.enter c.now g) .nil⟩

/-- A guarded call is accounted for: it is left at the depth at which it was entered. -/
theorem keeps_call (body : Guarded → Rule) (n : Nat) (g : Guarded) :
    Keeps n (Course.call body n g) (Grammar.enter body n g) := by
  induction n generalizing g with
  | zero =>
    intro c hc
    refine .refused g c ?_
    rcases c.now.enter_cases with ⟨-, henter⟩ | ⟨-, -, henter⟩ | ⟨-, hroom, -⟩
    · rw [henter]
    · rw [henter]
    · exact absurd hc (Nat.sub_ne_zero_of_lt hroom)
  | succ n ih =>
    intro c hc
    rcases c.now.enter_cases with ⟨hexceeded, henter⟩ | ⟨-, hfull, -⟩ | ⟨hsilent, -, henter⟩
    · obtain ⟨o, ho⟩ := Option.isSome_iff_exists.1 hexceeded
      have hrefused := Accounts.refused g c (by rw [henter])
      rw [State.refuse_of_overflow ho] at hrefused
      simpa only [Course.call, Grammar.enter, henter, ho] using hrefused
    · rw [room, Nat.sub_eq_zero_of_le hfull] at hc
      cases hc
    · have ho : c.now.state.overflow = none := depthExceeded_eq_false_iff.1 hsilent
      have hentered : Linked c.now [⟨.enter g, c.now, c.now.enter.2⟩] c.now.enter.2 :=
        .cons (.enter c.now g) .nil
      rw [henter] at hentered
      have hroom : (c.go (.enter g) { c.now with depth := c.now.depth + 1 }).now.room = n := by
        change c.now.limits.maxDepth - (c.now.depth + 1) = n
        rw [Nat.sub_add_eq, ← room, hc, Nat.add_sub_cancel]
      obtain ⟨b, d, hf, hg, -, haccounts⟩ := (keeps_follow ih (body g)).cases hroom
      have hg : (body g).exec (Grammar.enter body n) c.now.state = (b, d.now.state) := hg
      simp only [Course.call, Grammar.enter, henter, ho, hf, hg]
      refine ⟨rfl, ?_, haccounts.latched, ?_⟩
      · calc d.now.leave = (adopt { c.now with depth := c.now.depth + 1 } d.now.state).leave :=
              congrArg leave haccounts.now
          _ = c.now.adopt d.now.state := leave_adopt _ _
      · obtain ⟨ms, hms, hlinked⟩ := haccounts.moves
        refine ⟨⟨.leave, d.now, d.now.leave⟩ :: (ms ++ [⟨.enter g, c.now, _⟩]), ?_,
          .cons (.leave d.now) (hentered.trans hlinked)⟩
        simpa [Course.go] using hms

/-- Move by move, a parser comes to the outcome of a rule. -/
theorem accounts_course (p : Parser) (r : Rule) :
    Accounts ⟨p, []⟩ (p.course r) (perform p.preferences p.room r p.state) :=
  keeps_follow (keeps_call _ _) r ⟨p, []⟩ rfl

theorem accounts_programCourse (p : Parser) :
    Accounts ⟨p, []⟩ p.programCourse (program p.preferences p.room p.state) := by
  have hreset : Accounts ⟨p, []⟩ (true, (Course.mk p []).read { p.state with table := .fresh })
      (true, { p.state with table := .fresh }) := .read true ⟨p, []⟩ rfl
  have hread := hreset.trans (keeps_follow (keeps_call (body p.preferences) p.room) declarations
    ((Course.mk p []).read { p.state with table := .fresh }) rfl)
  refine ⟨?_, hread.now, hread.latched, hread.moves⟩
  exact congrArg (List.isEmpty ·.rest) hread.state_eq

end Follow

end Parser
end Recognizer
