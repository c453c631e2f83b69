import Recognizer.Proofs.Course
import Recognizer.Proofs.Headroom
import Recognizer.Proofs.Machine
import Recognizer.Proofs.Places

/-!
# Progress and termination

Every production that accepts has moved forward, and none goes back behind the place from
which it started. So each round of a loop takes a lexeme from those that are left, and the
machine that runs the rules on a parser, with no clock on its loops and no bound on its
recursion but the depth guard, halts on every source.
-/
namespace Recognizer

open Grammar StateTransition

namespace Grammar

/-- Every production that accepts has consumed a lexeme. -/
theorem Production.consumes (prefs : GrammarPreferences) (p : Production) :
    (p.rule prefs).consumes = true := by
  cases p with
  | initialization =>
    rw [rule, Grammar.initialization]
    split <;> rfl
  | control =>
    rw [rule, Grammar.control]
    split <;> rfl
  | _ => rfl

/-- The rules that read a part of a source: the productions, the bodies that are called
through the depth guard, and lists of what such a rule reads. -/
inductive Constituent (prefs : GrammarPreferences) : Rule → Prop where
  | production (p : Production) : Constituent prefs (p.rule prefs)
  | body (g : Guarded) : Constituent prefs (body prefs g)
  | separated {r : Rule} : Constituent prefs r → Constituent prefs (.separated r)
  | delimited {r : Rule} (opening closing : Kind) :
      Constituent prefs r → Constituent prefs (.delimited opening r closing)

theorem Constituent.consumes {prefs : GrammarPreferences} {r : Rule} (h : Constituent prefs r) :
    r.consumes = true := by
  induction h with
  | production p => exact p.consumes prefs
  | body g => exact consumes_body g
  | separated _ ih => rw [Rule.consumes_separated, ih]
  | delimited => exact Rule.consumes_delimited

theorem Constituent.productive {prefs : GrammarPreferences} {r : Rule} (h : Constituent prefs r) :
    r.Meets .productive := by
  induction h with
  | production p => exact p.productive prefs
  | body g => exact productive_body g
  | separated _ ih => exact Rule.productive_separated.2 ih
  | delimited _ _ _ ih => exact Rule.productive_delimited.2 ih

/-- The rule is what some loop in another rule repeats. -/
inductive Rule.RepeatedIn (round : Rule) : Rule → Prop where
  | loop {t : Test} : RepeatedIn round (.loop t round)
  | inner {t : Test} {r : Rule} : RepeatedIn round r → RepeatedIn round (.loop t r)
  | first {first yes no : Rule} : RepeatedIn round first → RepeatedIn round (.branch first yes no)
  | yes {first yes no : Rule} : RepeatedIn round yes → RepeatedIn round (.branch first yes no)
  | no {first yes no : Rule} : RepeatedIn round no → RepeatedIn round (.branch first yes no)
  | attempt {r : Rule} : RepeatedIn round r → RepeatedIn round (.attempt r)
  | declare {kind : Symbol.Kind} {next : Bytes → Rule} (name : Bytes) :
      RepeatedIn round (next name) → RepeatedIn round (.declare kind next)
  | enclosed {r : Rule} : RepeatedIn round r → RepeatedIn round (.enclosed r)

/-- The rounds of the loops of a productive rule consume a lexeme. -/
theorem Rule.RepeatedIn.productive {round r : Rule} (h : RepeatedIn round r)
    (hr : r.Meets .productive) : round.consumes = true ∧ round.Meets .productive := by
  induction h with
  | loop => exact hr
  | inner _ ih => exact ih hr.2
  | first _ ih => exact ih hr.1
  | yes _ ih => exact ih hr.2.1
  | no _ ih => exact ih hr.2.2
  | attempt _ ih | enclosed _ ih => exact ih hr.2
  | declare name _ ih => exact ih (hr.2 name)

end Grammar

namespace Parser

/-- Rules are run on a parser with its own operations, none of which fails. -/
def device : Device Parser Empty where
  passes p t := .ok (p.state.passes t)
  advance p := .ok p.advance
  identifier? p := .ok p.state.identifier?
  declare p name kind := .ok { p with state := p.state.declare name kind }
  place := position
  restore p place := .ok (p.restore place)
  push p := .ok (p.setTable p.table.push)
  pop p := .ok (p.setTable p.table.close)
  enter p := .ok p.enter
  leave p := .ok p.leave

/-- The parser `q` is the parser `p` after a run to the state given, with so many productions
open. -/
structure Stands (p : Parser) (depth : Nat) (s : State) (q : Parser) : Prop where
  eq : q = (p.adopt s).atDepth depth
  le : p.depth ≤ depth
  anchored : s.Anchored p.source
  latched : ∀ o, p.state.overflow = some o → s.overflow = some o

namespace Stands

variable {p q : Parser} {depth : Nat} {s t : State}

theorem state_eq (h : p.Stands depth s q) : q.state = s := by
  rw [h.eq, state_atDepth, state_adopt]

/-- A move that leaves the record of refused calls as it is. -/
theorem read (h : p.Stands depth s q) (ht : t.Anchored p.source)
    (hflag : t.overflow = s.overflow) : p.Stands depth t { q with state := t } := by
  refine ⟨?_, h.le, ht, fun o ho => hflag.trans (h.latched o ho)⟩
  rw [h.eq]
  unfold adopt
  rw [hflag]
  cases p.state.overflow <;> cases s.overflow <;> rfl

/-- A move that consumes lexemes or leaves them as they are. -/
theorem forward (h : p.Stands depth s q) (hsize : t.size = s.size) (hrest : t.rest <:+ s.rest)
    (hflag : t.overflow = s.overflow) : p.Stands depth t { q with state := t } :=
  h.read (h.anchored.suffix hsize hrest).1 hflag

theorem depth_eq (h : p.Stands depth s q) : q.depth = depth := by
  rw [h.eq]
  rfl

theorem limits_eq (h : p.Stands depth s q) : q.limits = p.limits := by
  rw [h.eq]
  exact p.limits_adopt s

theorem source_eq (h : p.Stands depth s q) : q.source = p.source := by
  rw [h.eq]
  change (p.adopt s).source = p.source
  unfold adopt
  split <;> rfl

theorem depthExceeded_eq (h : p.Stands depth s q) : q.depthExceeded = s.overflow.isSome := by
  rw [depthExceeded, h.state_eq]

/-- Lexemes are given back by reading on from where another state stands. -/
theorem restore {r : Parser} (h : p.Stands depth s q) (ht : p.Stands depth t r) :
    p.Stands depth { t with rest := s.rest } (r.restore q.position) := by
  obtain rfl := h.state_eq
  obtain rfl := ht.state_eq
  have hrest : q.state.rest = Lexeme.significantFrom r.source q.position := by
    rw [ht.source_eq]
    exact h.anchored.rest
  rw [Parser.restore, ← hrest]
  exact ht.read (.of_significantFrom ht.anchored.size h.anchored.rest) rfl

/-- The guard refuses a call after a refused one, and where there is no room. -/
theorem refuse (h : p.Stands depth s q)
    (hfull : s.overflow ≠ none ∨ p.limits.maxDepth ≤ depth) :
    ∃ r, q.enter = (false, r) ∧ p.Stands depth s.refuse r := by
  have hlatch (o : Nat) (ho : s.overflow = some o) : s.refuse.overflow = some o := by
    rwa [State.refuse_of_overflow ho]
  rcases q.enter_cases with ⟨hfired, henter⟩ | ⟨-, -, henter⟩ | ⟨hsilent, hroom, -⟩
  · rw [h.depthExceeded_eq, Option.isSome_iff_exists] at hfired
    obtain ⟨o, ho⟩ := hfired
    exact ⟨q, henter, by rwa [State.refuse_of_overflow ho]⟩
  · refine ⟨_, henter, ?_, h.le, (h.anchored.suffix (t := s.refuse) rfl (List.suffix_refl _)).1,
      fun o ho => hlatch o (h.latched o ho)⟩
    rw [h.state_eq, h.eq, adopt_atDepth, p.adopt_adopt h.latched hlatch]
  · rw [h.depthExceeded_eq, Option.isSome_eq_false_iff, Option.isNone_iff_eq_none] at hsilent
    rw [h.limits_eq, h.depth_eq] at hroom
    rcases hfull with hfull | hfull
    · exact absurd hsilent hfull
    · omega

/-- The guard opens a production where there is room and no call was refused. -/
theorem enter (h : p.Stands depth s q) (hsilent : s.overflow = none)
    (hroom : depth < p.limits.maxDepth) :
    q.enter = (true, { q with depth := depth + 1 }) ∧
      p.Stands (depth + 1) s { q with depth := depth + 1 } := by
  constructor
  · rcases q.enter_cases with ⟨hfired, -⟩ | ⟨-, hfull, -⟩ | ⟨-, -, henter⟩
    · rw [h.depthExceeded_eq, hsilent] at hfired
      cases hfired
    · rw [h.limits_eq, h.depth_eq] at hfull
      omega
    · rw [henter, h.depth_eq]
  · exact ⟨by rw [h.eq]; rfl, Nat.le_succ_of_le h.le, h.anchored, h.latched⟩

end Stands

theorem realizes_device (p : Parser) :
    device.Realizes (max p.depth p.limits.maxDepth) fun depth _ s q => p.Stands depth s q where
  passes h t := by
    obtain rfl := h.state_eq
    rfl
  advance h := by
    obtain rfl := h.state_eq
    exact ⟨_, rfl, h.forward rfl (List.tail_suffix _) rfl⟩
  identifier? h := by
    obtain rfl := h.state_eq
    rfl
  declare h name kind := by
    obtain rfl := h.state_eq
    exact ⟨_, rfl, h.forward rfl (List.suffix_refl _) rfl⟩
  restore h ht := ⟨_, rfl, h.restore ht⟩
  push h := by
    obtain rfl := h.state_eq
    exact ⟨_, rfl, h.forward rfl (List.suffix_refl _) rfl⟩
  pop h := by
    obtain rfl := h.state_eq
    exact ⟨_, rfl, h.forward rfl (List.suffix_refl _) rfl⟩
  refuse h := by
    obtain ⟨r, henter, hr⟩ := h.refuse (.inr (Nat.le_max_right ..))
    exact ⟨r, congrArg Except.ok henter, hr⟩
  refused h ho := by
    obtain ⟨r, henter, hr⟩ := h.refuse (.inl (by simp [ho]))
    rw [State.refuse_of_overflow ho] at hr
    exact ⟨r, congrArg Except.ok henter, hr⟩
  enter h ho hdepth := by
    have hle := h.le
    obtain ⟨henter, hr⟩ := h.enter ho (by omega)
    exact ⟨_, congrArg Except.ok henter, hr⟩
  leave h ht := ⟨_, rfl, by rw [ht.eq]; rfl, h.le, ht.anchored, ht.latched⟩

/-- The machine that runs a rule on a parser halts, with what the rule answers and with the
parser to which it leads. -/
theorem eval_device {p : Parser} (hp : p.state.Anchored p.source) {r : Rule}
    (hr : r.Meets .productive) : device.eval (body p.preferences) r p =
      Part.some (.ok ⟨.answer (p.apply r).1, [], (p.apply r).2⟩) := by
  have hstands : p.Stands p.depth p.state p :=
    ⟨by rw [adopt_of_overflow p rfl]; rfl, Nat.le_refl _, hp, fun _ => id⟩
  have hruns := runs_perform p.preferences p.room hr p.state
  obtain ⟨q, heval, hq⟩ := p.realizes_device.halts hruns (by rw [room]; omega) 0 hstands
  have hdepth (t : State) : (p.adopt t).atDepth p.depth = p.adopt t := by
    rw [← depth_adopt p t]
    rfl
  rw [heval, hq.eq, hdepth]
  rfl

/-- The guarded productions that are open, of those that a machine has entered. -/
def guards : List Frame → Nat
  | [] => 0
  | .guard :: stack => guards stack + 1
  | _ :: stack => guards stack

/-- The depth guard bounds the recursion of a machine that has started on the parser `p`. -/
structure Bounds (p : Parser) (m : Machine Parser) : Prop where
  limits_eq : m.store.limits = p.limits
  depth_eq : m.store.depth = p.depth + guards m.stack
  depth_le : m.store.depth ≤ max p.depth p.limits.maxDepth

namespace Bounds

variable {p : Parser} {m m' : Machine Parser} {body : Guarded → Rule}

/-- A step opens a production only where there is room, and closes only one that it opened. -/
theorem step (h : p.Bounds m) (hstep : device.step body (.ok m) = some (.ok m')) :
    p.Bounds m' := by
  obtain ⟨control, stack, q⟩ := m
  obtain ⟨hlimits, hdepth, hle⟩ := h
  cases control with
  | run r =>
    cases r with
    | accept | reject | peek | branch | attempt | enclosed =>
      cases hstep
      exact ⟨hlimits, hdepth, hle⟩
    | take | loop | declare =>
      simp only [Device.step, Device.begin, device, ok_bind, Option.some.injEq] at hstep
      split at hstep <;> cases hstep <;> exact ⟨hlimits, hdepth, hle⟩
    | call g =>
      simp only [Device.step, Device.begin, device, ok_bind, Option.some.injEq] at hstep
      dsimp only at hlimits hdepth hle
      rcases q.enter_cases with ⟨-, henter⟩ | ⟨-, -, henter⟩ | ⟨-, hroom, henter⟩
      · rw [henter] at hstep
        cases hstep
        exact ⟨hlimits, hdepth, hle⟩
      · rw [henter] at hstep
        cases hstep
        exact ⟨by rw [limits_adopt, hlimits], by rw [depth_adopt, hdepth], by rwa [depth_adopt]⟩
      · rw [henter] at hstep
        cases hstep
        rw [hlimits] at hroom
        exact ⟨hlimits, congrArg (· + 1) hdepth, Nat.le_trans hroom (Nat.le_max_right ..)⟩
  | answer b =>
    cases stack with
    | nil => cases hstep
    | cons f stack =>
      cases f with
      | branch | loop | scope =>
        cases hstep
        exact ⟨hlimits, hdepth, hle⟩
      | attempt place =>
        cases b <;> cases hstep <;> exact ⟨hlimits, hdepth, hle⟩
      | guard =>
        cases hstep
        exact ⟨hlimits, congrArg (· - 1) hdepth, Nat.le_trans (Nat.sub_le ..) hle⟩

/-- So the guard bounds the recursion at all times. -/
theorem reaches (h : p.Bounds m) {c : Except Empty (Machine Parser)}
    (hc : Reaches (device.step body) (.ok m) c) : ∃ m', c = .ok m' ∧ p.Bounds m' := by
  induction hc with
  | refl => exact ⟨m, rfl, h⟩
  | @tail c c' _ hstep ih =>
    obtain ⟨m', rfl, hm'⟩ := ih
    cases c' with
    | error e => exact e.elim
    | ok n => exact ⟨n, rfl, hm'.step hstep⟩

end Bounds

/-- The parser at the first lexeme of its source, with nothing declared and no production
open: a program is read from here. -/
def opening (p : Parser) : Parser := { p with depth := 0, state := p.start }

theorem state_apply_opening (p : Parser) :
    (p.opening.apply declarations).2.state = p.parseProgram.2.state := by
  rw [state_apply, state_parseProgram]
  rfl

/-- A rule never goes back behind the place from which it started, and moves forward when it
accepts and consumes. -/
theorem position_apply {p : Parser} (hp : p.state.Anchored p.source) {r : Rule}
    (hr : r.Meets .productive) : p.position ≤ (p.apply r).2.position ∧
      ((p.apply r).1 = true → r.consumes = true → p.position < (p.apply r).2.position) := by
  have hruns := runs_apply (q := (p.apply r).2) hr rfl
  obtain ⟨-, hle, hlt⟩ := hp.suffix hruns.size_eq hruns.suffix
  refine ⟨hle, fun haccepts hconsumes => hlt fun hrest => ?_⟩
  have hlength := hruns.length_lt consumes_body haccepts hconsumes
  rw [hrest] at hlength
  exact Nat.lt_irrefl _ hlength

/-- Nor does a program. -/
theorem position_run_program {p : Parser} (hp : p.state.Anchored p.source) :
    p.position ≤ (p.run (program p.preferences)).2.position := by
  have hruns := runs_perform p.preferences p.room productive_declarations
    { p.state with table := .fresh }
  rw [position, position, run, state_adopt]
  exact (hp.suffix hruns.size_eq hruns.suffix).2.1

/-- Reading goes on and comes to an end. From every place of a source, a production moves
forward when it accepts and never goes back behind that place, nor does a program. Every
round of every loop consumes a lexeme. The machine that runs a rule halts with the answer of
the rule and never has more productions open than the depth guard allows; so recognition
halts, in the state that the verdict is about. -/
theorem recognition_progresses_and_halts :
    (∀ p : Parser, p.state.Anchored p.source →
      p.position ≤ (p.run (program p.preferences)).2.position ∧
      ∀ r, Constituent p.preferences r →
        p.position ≤ (p.apply r).2.position ∧
        ((p.apply r).1 = true → p.position < (p.apply r).2.position)) ∧
    (∀ (prefs : GrammarPreferences) (r round : Rule), Constituent prefs r ∨ r = declarations →
      round.RepeatedIn r → ∀ (room : Nat) (s : State), (perform prefs room round s).1 = true →
        (perform prefs room round s).2.rest.length < s.rest.length) ∧
    (∀ p : Parser, p.state.Anchored p.source →
      ∀ r, Constituent p.preferences r ∨ r = declarations →
        device.eval (body p.preferences) r p =
          Part.some (.ok ⟨.answer (p.apply r).1, [], (p.apply r).2⟩) ∧
        ∀ m, Reaches (device.step (body p.preferences)) (.ok ⟨.run r, [], p⟩) (.ok m) →
          m.store.depth = p.depth + guards m.stack ∧
          m.store.depth ≤ max p.depth p.limits.maxDepth) ∧
    ∀ (limits : Limits) (prefs : GrammarPreferences) (source : Bytes), ∃ b q,
      device.eval (body prefs) declarations (new limits prefs source).opening =
        Part.some (.ok ⟨.answer b, [], q⟩) ∧
      (Recognition.ofSource limits prefs source).result =
        Recognition.verdict limits source q.state := by
  have hproductive {prefs : GrammarPreferences} {r : Rule}
      (h : Constituent prefs r ∨ r = declarations) : r.Meets .productive := by
    rcases h with h | rfl
    · exact h.productive
    · exact productive_declarations
  refine ⟨?_, ?_, ?_, ?_⟩
  · intro p hp
    refine ⟨position_run_program hp, fun r hr => ?_⟩
    obtain ⟨hle, hlt⟩ := position_apply hp hr.productive
    exact ⟨hle, fun haccepts => hlt haccepts hr.consumes⟩
  · intro prefs r round hr hround room s haccepts
    obtain ⟨hconsumes, hmeets⟩ := hround.productive (hproductive hr)
    exact (runs_perform prefs room hmeets s).length_lt consumes_body haccepts hconsumes
  · intro p hp r hr
    refine ⟨eval_device hp (hproductive hr), fun m hm => ?_⟩
    have hstart : p.Bounds ⟨.run r, [], p⟩ := ⟨rfl, rfl, Nat.le_max_left ..⟩
    obtain ⟨m', hm', hbounds⟩ := hstart.reaches hm
    cases hm'
    exact ⟨hbounds.depth_eq, hbounds.depth_le⟩
  · intro limits prefs source
    refine ⟨_, _, eval_device (p := (new limits prefs source).opening)
      (anchored_start (p := new limits prefs source) rfl) productive_declarations, ?_⟩
    rw [Recognition.result_eq_verdict, state_apply_opening]

/-- A parser that has been set back to an offset within a name. -/
def midway : Parser :=
  (new .development {} (Bytes.ofAscii "of(x, 1.5) - y;".toList)).restore 1

/-- It reads an expression up to the semicolon, with a list of arguments on the way. -/
theorem recognition_progresses_and_halts_midway :
    midway.position = 1 ∧ midway.position < (midway.apply expression).2.position ∧
    (∃ q, device.eval (body {}) expression midway = Part.some (.ok ⟨.answer true, [], q⟩)) ∧
    suffixPart.RepeatedIn postfixExpr ∧
    (perform {} 8 suffixPart midway.state.advance).2.rest.length <
      midway.state.advance.rest.length := by
  have hanchored : midway.state.Anchored midway.source := .of_significantFrom rfl rfl
  have hconstituent : Constituent midway.preferences expression := .production .expression
  have haccepts : (midway.apply expression).1 = true := by decide +kernel
  have hround : suffixPart.RepeatedIn postfixExpr := .yes .loop
  have hreads : (perform {} 8 suffixPart midway.state.advance).1 = true := by decide +kernel
  obtain ⟨hmoves, hloops, hhalts, -⟩ := recognition_progresses_and_halts
  have heval := (hhalts midway hanchored expression (.inl hconstituent)).1
  rw [haccepts] at heval
  exact ⟨by decide +kernel, ((hmoves midway hanchored).2 expression hconstituent).2 haccepts,
    ⟨_, heval⟩, hround,
    hloops {} postfixExpr suffixPart (.inl (.production .postfixExpr)) hround 8 _ hreads⟩

end Parser
end Recognizer
