import Recognizer.Proofs.Exactness
import Recognizer.Proofs.Outcome

/-!
# The room that a rule needs

A rule that is run from a state needs room for so many nested calls: with that room its run is
always the same one, and in any smaller room the depth guard refuses a call. What a rule needs
is the most that any part of its run needs, and a call needs one more than its production. An
alternative that is given up counts like any other part, because a call that is refused in it
stays on record.
-/
namespace Recognizer
namespace Grammar

/-- From `s` the rule needs room for `k` nested calls: with that room its run answers `b` in the
state `t`, and without it no run is free of refused calls. -/
structure Needs (prefs : GrammarPreferences) (k : Nat) (r : Rule) (s : State) (b : Bool)
    (t : State) : Prop where
  runs : ∀ n, k ≤ n → FullRuns (body prefs) n r s b t
  le_room : ∀ n c u, FullRuns (body prefs) n r s c u → u.overflow = none → k ≤ n

namespace Needs

variable {prefs : GrammarPreferences} {j k n : Nat} {r q first : Rule} {s t u : State} {b c : Bool}

/-- A run without refused calls has the room that is needed, and is the run in that room. -/
theorem settle (h : Needs prefs k r s b t) (hrun : FullRuns (body prefs) n r s c u)
    (hu : u.overflow = none) : k ≤ n ∧ c = b ∧ u = t := by
  have hk := h.le_room n c u hrun hu
  exact ⟨hk, hrun.unique (h.runs n hk)⟩

theorem cast (h : Needs prefs j r s b t) (hk : j = k) : Needs prefs k r s b t := hk ▸ h

/-- A run that is the same in every room needs none. -/
theorem of_runs (h : ∀ n, FullRuns (body prefs) n r s b t) : Needs prefs 0 r s b t where
  runs n _ := h n
  le_room _ _ _ _ _ := Nat.zero_le _

theorem accept : Needs prefs 0 .accept s true s := of_runs fun _ => .accept

theorem peek {p : Test} (hp : s.passes p = b) : Needs prefs 0 (.peek p) s b s :=
  of_runs fun _ => .peek (fun _ => trivial) hp

/-- A rule that comes to the same end whatever its calls do needs no room. -/
theorem calm (hr : r.Meets .productive) (h : ∀ callee, r.exec callee s = (b, t)) :
    Needs prefs 0 r s b t :=
  of_runs fun _ => (perform_eq_iff hr).1 (h _)

section Lexemes

variable {size : Nat} {table : SymbolTable} {f : Lexeme → Bool} {x : Lexeme} {xs ys : List Lexeme}

theorem hit (h : Picks ⟨prefs, size, table⟩ r f) (hx : f x = true) :
    Needs prefs 0 r ⟨x :: xs, size, table, none⟩ true ⟨xs, size, table, none⟩ :=
  of_runs fun n => h.hit n x xs hx

theorem miss (h : Picks ⟨prefs, size, table⟩ r f) (hx : f x = false) :
    Needs prefs 0 r ⟨x :: xs, size, table, none⟩ false ⟨x :: xs, size, table, none⟩ :=
  of_runs fun n => h.miss n (x :: xs) (by simpa using hx)

/-- Reading a phrase needs the room of its nesting. -/
theorem phrase {p : Phrase} (h : Reads (Setting.mk prefs size table).known p k xs ys)
    (hp : p.Separates) (hys : p.EndsBefore ys) :
    Needs prefs k p.rule ⟨xs, size, table, none⟩ true ⟨ys, size, table, none⟩ where
  runs := (h.exact hp hys).fits
  le_room n c u hrun hu := by
    refine Nat.le_of_not_lt fun hn => ?_
    obtain ⟨v, hdeep, hv⟩ := (h.exact hp hys).deep n hn
    obtain ⟨-, rfl⟩ := hrun.unique hdeep
    exact hv hu

end Lexemes

theorem yes (hf : Needs prefs j first s true u) (hr : Needs prefs k r u b t) :
    Needs prefs (max j k) (.branch first r q) s b t where
  runs n hn := .yes (hf.runs n (by omega)) (hr.runs n (by omega))
  le_room n c v hrun hv := by
    cases hrun with
    | yes hfirst hrest =>
      obtain ⟨hj, -, rfl⟩ := hf.settle hfirst (hrest.overflow_eq_none hv)
      exact Nat.max_le.2 ⟨hj, hr.le_room n _ _ hrest hv⟩
    | no hfirst hrest => cases (hf.settle hfirst (hrest.overflow_eq_none hv)).2.1

theorem no (hf : Needs prefs j first s false u) (hq : Needs prefs k q u b t) :
    Needs prefs (max j k) (.branch first r q) s b t where
  runs n hn := .no (hf.runs n (by omega)) (hq.runs n (by omega))
  le_room n c v hrun hv := by
    cases hrun with
    | yes hfirst hrest => cases (hf.settle hfirst (hrest.overflow_eq_none hv)).2.1
    | no hfirst hrest =>
      obtain ⟨hj, -, rfl⟩ := hf.settle hfirst (hrest.overflow_eq_none hv)
      exact Nat.max_le.2 ⟨hj, hq.le_room n _ _ hrest hv⟩

theorem le_room_attempt (h : Needs prefs k r s b t)
    (hrun : FullRuns (body prefs) n (.attempt r) s c u) (hu : u.overflow = none) : k ≤ n := by
  cases hrun with
  | keep hrun => exact h.le_room n _ _ hrun hu
  | restore hrun => exact h.le_room n _ _ hrun hu

theorem keep (h : Needs prefs k r s true t) : Needs prefs k (.attempt r) s true t where
  runs n hn := .keep (h.runs n hn)
  le_room _ _ _ hrun hu := h.le_room_attempt hrun hu

/-- An alternative that is given up needs its room all the same. -/
theorem restore (h : Needs prefs k r s false t) :
    Needs prefs k (.attempt r) s false { t with rest := s.rest } where
  runs n hn := .restore (h.runs n hn)
  le_room _ _ _ hrun hu := h.le_room_attempt hrun hu

variable {p : Test}

theorem done (hp : s.passes p = false) : Needs prefs 0 (.loop p r) s true s :=
  of_runs fun _ => .done (fun _ => trivial) hp

theorem again (hp : s.passes p = true) (hr : Needs prefs j r s true u)
    (hl : Needs prefs k (.loop p r) u b t) : Needs prefs (max j k) (.loop p r) s b t where
  runs n hn := .again (fun _ => trivial) hp (hr.runs n (by omega)) (hl.runs n (by omega))
  le_room n c v hrun hv := by
    cases hrun with
    | done _ hp' => cases hp.symm.trans hp'
    | again _ _ hround hrest =>
      obtain ⟨hj, -, rfl⟩ := hr.settle hround (hrest.overflow_eq_none hv)
      exact Nat.max_le.2 ⟨hj, hl.le_room n _ _ hrest hv⟩
    | stop _ _ hround => cases (hr.settle hround hv).2.1

theorem declare {kind : Symbol.Kind} {next : Bytes → Rule} {name : Bytes}
    (hs : s.identifier? = some name)
    (h : Needs prefs k (next name) (s.declare name kind).advance b t) :
    Needs prefs k (.declare kind next) s b t where
  runs n hn := .declare hs (h.runs n hn)
  le_room n c v hrun hv := by
    cases hrun with
    | declare hs' hrun =>
      cases hs.symm.trans hs'
      exact h.le_room n _ _ hrun hv
    | nameless _ hs' => cases hs.symm.trans hs'

theorem enclosed (h : Needs prefs k r { s with table := s.table.push } b t) :
    Needs prefs k (.enclosed r) s b { t with table := t.table.close } where
  runs n hn := .enclosed (h.runs n hn)
  le_room n c v hrun hv := by
    cases hrun with
    | enclosed hrun => exact h.le_room n _ _ hrun hv

/-- A call takes one more room than its production. -/
theorem call {g : Guarded} (hs : s.overflow = none) (h : Needs prefs k (body prefs g) s b t) :
    Needs prefs (k + 1) (.call g) s b t where
  runs n hn := by
    obtain ⟨n, rfl⟩ : ∃ m, n = m + 1 := ⟨n - 1, by omega⟩
    exact .call hs (h.runs n (by omega))
  le_room n c v hrun hv := by
    cases hrun with
    | call _ hrun => exact Nat.succ_le_succ (h.le_room _ _ _ hrun hv)
    | refuse => exact absurd hv (State.overflow_refuse _)
    | refused hs' => cases hs.symm.trans hs'

end Needs
end Grammar

open Grammar

namespace Recognition

/-- The source is accepted under just those limits that leave room for `k` nested calls, and
under all others it is said to be nested too deeply. -/
def NestsTo (source : Bytes) (k : Nat) : Prop :=
  ∀ (limits : Limits) (prefs : GrammarPreferences),
    ((ofSource limits prefs source).result = .ok () ↔ k ≤ limits.maxDepth) ∧
    ((∃ offset position, (ofSource limits prefs source).result =
      .error (.tooDeep offset position limits.maxDepth)) ↔ limits.maxDepth < k)

/-- A source nests to what its declarations need, read off lexemes of the same kinds and texts
as its own. -/
theorem nestsTo_of_needs {source : Bytes} {xs : List Lexeme} {k : Nat}
    (hxs : (Lexeme.significant source).map Lexeme.piece = xs.map Lexeme.piece)
    (h : ∀ prefs, ∃ table, Needs prefs k declarations ⟨xs, source.length, .fresh, none⟩ true
      ⟨[], source.length, table, none⟩) :
    NestsTo source k := by
  intro limits prefs
  obtain ⟨table, hneeds⟩ := h prefs
  have hstart : (Parser.new limits prefs source).start.Alike
      ⟨xs, source.length, .fresh, none⟩ := ⟨hxs, rfl, rfl⟩
  have halike : (Parser.new limits prefs source).parseProgram.2.state.Alike
      (perform prefs limits.maxDepth declarations ⟨xs, source.length, .fresh, none⟩).2 := by
    rw [Parser.state_parseProgram]
    exact (blind_perform prefs limits.maxDepth declarations hstart).2
  have hrun := runs_perform prefs limits.maxDepth productive_declarations
    ⟨xs, source.length, .fresh, none⟩
  rw [result_eq_verdict]
  generalize (Parser.new limits prefs source).parseProgram.2.state = v at halike ⊢
  generalize (perform prefs limits.maxDepth declarations _).2 = u at hrun halike
  by_cases hk : k ≤ limits.maxDepth
  · obtain ⟨-, rfl⟩ := hrun.unique (hneeds.runs _ hk)
    have hrest : v.rest = [] := List.map_eq_nil_iff.1 halike.pieces
    have hsilent : v.overflow.isSome = false := halike.overflow
    simp [verdict, hrest, hsilent, hk]
  · have hrefused : v.overflow.isSome = true := by
      rw [halike.overflow, Option.isSome_iff_ne_none]
      exact fun hu => hk (hneeds.le_room _ _ _ hrun hu)
    simp [verdict, hrefused, hk, Nat.lt_of_not_le hk]

end Recognition
end Recognizer
