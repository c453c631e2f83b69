import Recognizer.Proofs.Course
import Recognizer.Proofs.Outcome

/-!
# The accounts of the depth guard

What one move does to the count of open productions, to the record of a refused call and to
the events is read off the move (`Move.Lawful.regular`), and what a whole run does follows
by induction over its moves. Every production is left at the depth at which it was entered,
the first refused call is reported once, and a program in which a call was refused anywhere
is rejected.
-/
namespace Recognizer

open Grammar

namespace Parser

@[simp] theorem depthExceeded_adopt (p : Parser) (s : State) :
    (p.adopt s).depthExceeded = s.overflow.isSome := by
  rw [depthExceeded, state_adopt]

/-- The first refused call is reported with its offset. -/
theorem events_adopt_of_some {p : Parser} {s : State} {offset : Nat}
    (hp : p.state.overflow = none) (hs : s.overflow = some offset) :
    (p.adopt s).events = p.events ++ [depthEvent p.limits offset] := by
  simp [adopt, hp, hs]

/-- One event has been added on the way to `q`: the report on a call that was refused at the
offset, which is an error with the code of the depth guard. -/
structure Reports (offset : Nat) (p q : Parser) : Prop where
  events : q.events = p.events ++ [depthEvent p.limits offset]
  level : (depthEvent p.limits offset).level = .error
  code : (depthEvent p.limits offset).code.text = "E087"

theorem reports_adopt {p : Parser} {s : State} {offset : Nat} (hp : p.state.overflow = none)
    (hs : s.overflow = some offset) : Reports offset p (p.adopt s) :=
  ⟨events_adopt_of_some hp hs, rfl, rfl⟩

/-- Nothing else is reported. -/
theorem events_adopt_of_eq {p : Parser} {s : State}
    (h : s.overflow.isSome = p.depthExceeded) : (p.adopt s).events = p.events := by
  rw [depthExceeded] at h
  unfold adopt
  cases hp : p.state.overflow with
  | some o => rfl
  | none =>
    have hs : s.overflow = none := by simpa [hp] using h
    rw [hs]

/-- The guard refuses a call for the first time. -/
def Move.Fires (m : Move) : Prop := m.before.depthExceeded = false ∧ m.after.depthExceeded = true

instance : DecidablePred Move.Fires := fun _ => inferInstanceAs (Decidable (_ ∧ _))

/-- What a move may do under a guard that allows so many open productions: the count stays
within the limit, a refused call stays on record, and the first one is refused on entering
a production with the count at the limit and reported as an error. Nothing else is. -/
structure Move.Regular (limit : Nat) (m : Move) : Prop where
  before_le : m.before.depth ≤ limit
  after_le : m.after.depth ≤ limit
  latched : m.before.depthExceeded = true → m.after.depthExceeded = true
  fires : m.Fires → (∃ g, m.act = .enter g) ∧ m.before.depth = limit ∧
    Reports m.before.position m.before m.after
  silent : ¬ m.Fires → m.after.events = m.before.events

namespace Move

variable {limit : Nat} {m : Move}

/-- A move that leaves the record and the events as they are is regular within the limit. -/
theorem Regular.of_silent (hbefore : m.before.depth ≤ limit) (hafter : m.after.depth ≤ limit)
    (hflag : m.after.depthExceeded = m.before.depthExceeded)
    (hevents : m.after.events = m.before.events) : m.Regular limit where
  before_le := hbefore
  after_le := hafter
  latched h := hflag.trans h
  fires := by
    rintro ⟨hsilent, hfired⟩
    rw [hflag, hsilent] at hfired
    cases hfired
  silent _ := hevents

/-- The first refused call is reported. -/
theorem Regular.of_refused {p : Parser} (g : Guarded) (hsilent : p.depthExceeded = false)
    (hdepth : p.depth = p.limits.maxDepth) :
    Regular p.limits.maxDepth ⟨.enter g, p, p.adopt p.state.refuse⟩ := by
  have hnone := depthExceeded_eq_false_iff.1 hsilent
  have hoffset : p.state.refuse.overflow = some p.position := by
    simp [State.refuse, hnone, position]
  have hreports := reports_adopt hnone hoffset
  have hfired : (p.adopt p.state.refuse).depthExceeded = true := by simp [hoffset]
  have hle : p.depth ≤ p.limits.maxDepth := Nat.le_of_eq hdepth
  exact ⟨hle, by rwa [depth_adopt], fun _ => hfired, fun _ => ⟨⟨g, rfl⟩, hdepth, hreports⟩,
    fun h => absurd ⟨hsilent, hfired⟩ h⟩

/-- Every move from within the limit is regular. -/
theorem Lawful.regular (h : m.Lawful) (hdepth : m.before.depth ≤ m.before.limits.maxDepth) :
    m.Regular m.before.limits.maxDepth := by
  cases h with
  | read p h => exact .of_silent hdepth hdepth (congrArg Option.isSome h) rfl
  | leave p => exact .of_silent hdepth (Nat.le_trans (Nat.sub_le _ _) hdepth) rfl rfl
  | enter p g =>
    rcases p.enter_cases with ⟨-, henter⟩ | ⟨hsilent, hfull, henter⟩ | ⟨-, hroom, henter⟩
    · rw [henter]
      exact .of_silent hdepth hdepth rfl rfl
    · rw [henter]
      exact .of_refused g hsilent (Nat.le_antisymm hdepth hfull)
    · rw [henter]
      exact .of_silent hdepth hroom rfl rfl

theorem Lawful.limits_eq (h : m.Lawful) : m.after.limits = m.before.limits := by
  cases h with
  | read | leave => rfl
  | enter p g =>
    rcases p.enter_cases with ⟨-, henter⟩ | ⟨-, -, henter⟩ | ⟨-, -, henter⟩ <;> simp [henter]

end Move

namespace Linked

variable {p q : Parser} {ms : List Move}

theorem limits_eq (h : Linked p ms q) : q.limits = p.limits := by
  induction h with
  | nil => rfl
  | cons hm _ ih => exact hm.limits_eq.trans ih

/-- Linked moves stay within the limit and are all regular. -/
theorem regular (h : Linked p ms q) (hp : p.depth ≤ p.limits.maxDepth) :
    q.depth ≤ p.limits.maxDepth ∧ ∀ m ∈ ms, m.Regular p.limits.maxDepth := by
  induction h with
  | nil => exact ⟨hp, by simp⟩
  | @cons ms m hm h ih =>
    obtain ⟨hdepth, hall⟩ := ih
    rw [← h.limits_eq] at hdepth
    have hregular := hm.regular hdepth
    rw [h.limits_eq] at hregular
    exact ⟨hregular.after_le, List.forall_mem_cons.2 ⟨hregular, hall⟩⟩

/-- A refused call stays on record to the end. -/
theorem latched (h : Linked p ms q) (hall : ∀ m ∈ ms, m.Regular p.limits.maxDepth) :
    (p.depthExceeded = true → q.depthExceeded = true) ∧
      ∀ m ∈ ms, m.after.depthExceeded = true → q.depthExceeded = true := by
  induction h with
  | nil => exact ⟨id, by simp⟩
  | @cons ms m hm h ih =>
    obtain ⟨hregular, hall⟩ := List.forall_mem_cons.1 hall
    obtain ⟨hstart, hmoves⟩ := ih hall
    refine ⟨fun hp => hregular.latched (hstart hp), List.forall_mem_cons.2 ⟨id, ?_⟩⟩
    exact fun m hm hfired => hregular.latched (hmoves m hm hfired)

/-- A call that is on record in the end was on record before or refused in a move. -/
theorem fires (h : Linked p ms q) (hq : q.depthExceeded = true) :
    p.depthExceeded = true ∨ ∃ m ∈ ms, m.Fires := by
  induction h with
  | nil => exact .inl hq
  | @cons ms m hm h ih =>
    cases hbefore : m.before.depthExceeded with
    | false => exact .inr ⟨m, List.mem_cons_self, hbefore, hq⟩
    | true =>
      refine (ih hbefore).imp_right ?_
      rintro ⟨m', hm', hfires⟩
      exact ⟨m', List.mem_cons_of_mem _ hm', hfires⟩

end Linked

/-- The guard refused a call in one of the moves. -/
def Course.Fired (c : Course) : Prop := ∃ m ∈ c.moves, m.Fires

instance : DecidablePred Course.Fired := fun _ => inferInstanceAs (Decidable (∃ _ ∈ _, _))

/-- A parser makes the moves of a course and comes to the outcome `x`. All moves are
regular, so that the count of open productions stays within the limit. In the end the count
is what it was, a refused call is still on record, and if it is the first it has been
reported once. -/
structure Balanced (p : Parser) (c : Bool × Course) (x : Bool × Parser) : Prop where
  answer : c.1 = x.1
  now : c.2.now = x.2
  linked : Linked p c.2.moves x.2
  regular : ∀ m ∈ c.2.moves, m.Regular p.limits.maxDepth
  depth_eq : x.2.depth = p.depth
  latched : p.depthExceeded = true → x.2.depthExceeded = true
  reported : p.depthExceeded = false → x.2.depthExceeded = true → ∃ offset, Reports offset p x.2
  silent : x.2.depthExceeded = p.depthExceeded → x.2.events = p.events

namespace Balanced

variable {p : Parser} {c : Bool × Course} {x : Bool × Parser} {f : Nat → Step}

/-- A course that accounts for a step is balanced. -/
theorem of_accounts (h : Accounts ⟨p, []⟩ c (f p.room p.state))
    (hp : p.depth ≤ p.limits.maxDepth) : Balanced p c (p.run f) := by
  have hnow : c.2.now = (p.run f).2 := h.now
  have hlinked : Linked p c.2.moves (p.run f).2 := by
    obtain ⟨ms, hms, hlinked⟩ := h.moves
    rw [List.append_nil] at hms
    rwa [hms, ← hnow]
  have hregular := (hlinked.regular hp).2
  refine ⟨h.answer, hnow, hlinked, hregular, depth_adopt p _, (hlinked.latched hregular).1, ?_, ?_⟩
  · intro hsilent hfired
    have hnone := depthExceeded_eq_false_iff.1 hsilent
    rw [run, depthExceeded_adopt, Option.isSome_iff_exists] at hfired
    obtain ⟨offset, hoffset⟩ := hfired
    exact ⟨offset, reports_adopt hnone hoffset⟩
  · intro hflag
    rw [run, depthExceeded_adopt] at hflag
    exact events_adopt_of_eq hflag

/-- From a silent guard, a call is on record in the end exactly when it was refused in one of
the moves. -/
theorem fired_iff (h : Balanced p c x) (hp : p.depthExceeded = false) :
    c.2.Fired ↔ x.2.depthExceeded = true := by
  constructor
  · rintro ⟨m, hm, hfires⟩
    exact (h.linked.latched h.regular).2 m hm hfires.2
  · intro hx
    refine (h.linked.fires hx).resolve_left ?_
    rw [hp]
    decide

end Balanced

/-- The parser at the first lexeme of its source, with no production open and no call on
record: a program is read from here. -/
def rewound (p : Parser) : Parser :=
  { (p.restore 0) with
    depth := 0
    state := { (p.restore 0).state with overflow := none } }

/-- The moves of a program are balanced. -/
theorem balanced_rewound (p : Parser) :
    Balanced p.rewound p.rewound.programCourse (p.rewound.run (program p.preferences)) :=
  .of_accounts (f := program p.preferences) p.rewound.accounts_programCourse (Nat.zero_le _)

/-- A program is accepted when its declarations end at the end of the source and the guard
refused no call on the way. -/
theorem answer_parseProgram_iff (p : Parser) : p.parseProgram.1 = true ↔
    p.rewound.programCourse.1 = true ∧ ¬ p.rewound.programCourse.2.Fired := by
  have hbalanced := p.balanced_rewound
  have hanswer : p.parseProgram.1 = ((p.rewound.run (program p.preferences)).1 &&
      !(p.rewound.run (program p.preferences)).2.depthExceeded) := rfl
  rw [hbalanced.answer, hbalanced.fired_iff rfl, hanswer]
  simp

/-- The depth guard keeps its accounts. From within the limit the moves of every rule and of
a program are balanced, whether or not it is accepted. A program is accepted only if the
guard refused no call on the way, not even in an alternative that was given up, and nesting
is reported as too deep exactly when the guard refused a call. -/
theorem depth_guard_balanced :
    (∀ p : Parser, p.depth ≤ p.limits.maxDepth →
      (∀ r, Balanced p (p.course r) (p.apply r)) ∧
      Balanced p p.programCourse (p.run (program p.preferences))) ∧
    (∀ p : Parser, p.parseProgram.1 = true ↔
      p.rewound.programCourse.1 = true ∧ ¬ p.rewound.programCourse.2.Fired) ∧
    ∀ (limits : Limits) (prefs : GrammarPreferences) (source : Bytes),
      (∃ offset position depth, (Recognition.ofSource limits prefs source).result =
        .error (.tooDeep offset position depth)) ↔
      (new limits prefs source).rewound.programCourse.2.Fired := by
  refine ⟨fun p hp => ⟨fun r => .of_accounts (p.accounts_course r) hp,
    .of_accounts p.accounts_programCourse hp⟩, answer_parseProgram_iff, ?_⟩
  intro limits prefs source
  have hfired : (new limits prefs source).rewound.programCourse.2.Fired ↔
      (new limits prefs source).parseProgram.2.depthExceeded = true :=
    (new limits prefs source).balanced_rewound.fired_iff rfl
  rw [hfired, Recognition.result_eq_verdict, Recognition.verdict_eq_tooDeep_iff, depthExceeded]

/-- Blocks within blocks, as many as eight open productions allow. The last statement is
tried as an expression first, for which the guard has no room. -/
def cramped : Parser :=
  new { Limits.development with maxDepth := 8 } {} (Bytes.ofAscii
    "void f() \x7b\x7b\x7b\x7b\x7b\x7b\x7b break; \x7d\x7d\x7d\x7d\x7d\x7d\x7d".toList)

/-- Its end is reached, and yet it is rejected. The refused call is the one thing reported. -/
theorem depth_guard_balanced_cramped :
    (cramped.apply declarations).2.depth = cramped.depth ∧
    (∃ e, (cramped.apply declarations).2.events = cramped.events ++ [e] ∧ e.level = .error ∧
      e.code.text = "E087") ∧
    cramped.rewound.programCourse.1 = true ∧ cramped.rewound.programCourse.2.Fired ∧
    cramped.parseProgram.1 = false := by
  have hdepth : cramped.depth ≤ cramped.limits.maxDepth := by decide
  have hbalanced := (depth_guard_balanced.1 cramped hdepth).1 declarations
  have hexceeded : (cramped.apply declarations).2.depthExceeded = true := by decide +kernel
  obtain ⟨offset, hreports⟩ := hbalanced.reported rfl hexceeded
  have hfired : cramped.rewound.programCourse.2.Fired := by decide +kernel
  have hrejected : ¬ cramped.parseProgram.1 = true := fun h =>
    ((depth_guard_balanced.2.1 cramped).1 h).2 hfired
  exact ⟨hbalanced.depth_eq, ⟨_, hreports.events, hreports.level, hreports.code⟩,
    by decide +kernel, hfired, by simpa using hrejected⟩

end Parser
end Recognizer
