import Mathlib.Data.List.Induction
import Recognizer.Proofs.Admission

/-!
# What is counted

Lexemes are counted one by one, and the counts are those of the list of all lexemes that are
counted: each of them is in one class, and each class has its number. A tokenizer begins every
source with fresh counts. So what it has counted is told by the source that came last and by
the preferences that were chosen last before it.
-/
namespace Recognizer

namespace Kind

/-- Brackets, separators, the dot and the tilde. -/
def marks : List Kind :=
  [.dot, .openParen, .closeParen, .openBracket, .closeBracket, .openBrace, .closeBrace, .comma,
    .semicolon, .colon, .tilde]

theorem classOf_eq_identifier_iff (k : Kind) : k.classOf = .identifier ↔ k = .identifier := by
  cases k <;> decide

theorem classOf_eq_literal_iff (k : Kind) : k.classOf = .literal ↔ k = .integer ∨ k = .real := by
  cases k <;> decide

theorem classOf_eq_punctuation_iff (k : Kind) : k.classOf = .punctuation ↔ k ∈ marks := by
  cases k <;> decide

/-- Of the kinds with one spelling those are operators that are neither blanks nor marks. -/
theorem classOf_eq_operation_iff (k : Kind) : k.classOf = .operation ↔
    k.spelling?.isSome = true ∧ k.isBlank = false ∧ k ∉ marks := by
  cases k <;> decide

theorem classOf_eq_whitespace_iff (k : Kind) : k.classOf = .whitespace ↔ k.isBlank = true := by
  cases k <;> decide

theorem classOf_eq_special_iff (k : Kind) :
    k.classOf = .special ↔ k = .comment ∨ k = .invalid := by
  cases k <;> decide

theorem isTrivia_iff (k : Kind) : k.isTrivia = true ↔ k = .comment ∨ k.isBlank = true := by
  cases k <;> decide

end Kind

namespace Metrics

/-- The number of lexemes in each class, where comments are told from other special ones, and
the length of the longest identifier, or zero if there is none. -/
def tally (xs : List Lexeme) : Metrics where
  total := xs.length
  identifiers := xs.countP (·.kind.classOf = .identifier)
  literals := xs.countP (·.kind.classOf = .literal)
  punctuation := xs.countP (·.kind.classOf = .punctuation)
  operators := xs.countP (·.kind.classOf = .operation)
  comments := xs.countP (·.kind = .comment)
  invalid := xs.countP (·.kind = .invalid)
  maxIdentifier := ((xs.filter (·.kind = .identifier)).map (·.text.length)).max?.getD 0
  whitespace := xs.countP (·.kind.classOf = .whitespace)

/-- The same numbers by kinds in place of classes. -/
theorem tally_eq (xs : List Lexeme) : tally xs =
    { total := xs.length
      identifiers := xs.countP (·.kind = .identifier)
      literals := xs.countP fun x => x.kind = .integer ∨ x.kind = .real
      punctuation := xs.countP (·.kind ∈ Kind.marks)
      operators := xs.countP fun x =>
        x.kind.spelling?.isSome = true ∧ x.kind.isBlank = false ∧ x.kind ∉ Kind.marks
      comments := xs.countP (·.kind = .comment)
      invalid := xs.countP (·.kind = .invalid)
      maxIdentifier := ((xs.filter (·.kind = .identifier)).map (·.text.length)).max?.getD 0
      whitespace := xs.countP (·.kind.isBlank) } := by
  simp only [tally, Kind.classOf_eq_identifier_iff, Kind.classOf_eq_literal_iff,
    Kind.classOf_eq_punctuation_iff, Kind.classOf_eq_operation_iff,
    Kind.classOf_eq_whitespace_iff, Bool.decide_eq_true]

/-- Among the lexemes that the grammar sees there is neither a blank nor a comment to count. -/
theorem tally_significant (xs : List Lexeme) :
    (tally (xs.filter Lexeme.isSignificant)).whitespace = 0 ∧
      (tally (xs.filter Lexeme.isSignificant)).comments = 0 := by
  have hseen (x : Lexeme) (hx : x ∈ xs.filter Lexeme.isSignificant) : ¬ x.kind.isTrivia = true := by
    simpa [Lexeme.isSignificant, Kind.isSignificant] using (List.mem_filter.1 hx).2
  rw [tally_eq]
  refine ⟨List.countP_eq_zero.2 fun x hx hblank => hseen x hx ?_,
    List.countP_eq_zero.2 fun x hx hcomment => hseen x hx ?_⟩
  · exact (Kind.isTrivia_iff x.kind).2 (.inr hblank)
  · exact (Kind.isTrivia_iff x.kind).2 (.inl (of_decide_eq_true hcomment))

/-- The lexemes that are counted: those that the grammar sees, or all of them. -/
def counted (prefs : LexicalPreferences) (xs : List Lexeme) : List Lexeme :=
  if prefs.includeTrivia then xs else xs.filter Lexeme.isSignificant

/-- Every lexeme that was counted was counted in one class. -/
def Adds (m : Metrics) : Prop :=
  m.total = m.identifiers + m.literals + m.punctuation + m.operators + m.comments + m.invalid +
    m.whitespace

variable {prefs : LexicalPreferences} {m : Metrics} {xs : List Lexeme} {x : Lexeme}

theorem Adds.count (h : m.Adds) (x : Lexeme) : (m.count x).Adds := by
  unfold Adds Metrics.count at *
  cases hc : x.kind.classOf with
  | special =>
    dsimp only
    split <;> dsimp only <;> omega
  | identifier | literal | punctuation | operation | whitespace =>
    dsimp only
    omega

theorem Adds.record (h : m.Adds) (x : Lexeme) : (m.record prefs x).Adds := by
  unfold Metrics.record
  split
  · exact h.count x
  · exact h

theorem adds_ofLexemes (prefs : LexicalPreferences) (xs : List Lexeme) :
    (ofLexemes prefs xs).Adds := by
  have hrun (m : Metrics) (h : m.Adds) : (xs.foldl (Metrics.record prefs) m).Adds := by
    induction xs generalizing m with
    | nil => exact h
    | cons x xs ih => exact ih _ (h.record x)
  exact hrun {} rfl

theorem maxIdentifier_tally (xs : List Lexeme) : (tally xs).maxIdentifier =
    ((xs.filter (·.kind = .identifier)).map (·.text.length)).foldl max 0 := by
  rw [List.foldl_max, Nat.zero_max, tally]

theorem maxIdentifier_tally_concat (xs : List Lexeme) (x : Lexeme) :
    (tally (xs ++ [x])).maxIdentifier =
      if x.kind = .identifier then max (tally xs).maxIdentifier x.text.length
      else (tally xs).maxIdentifier := by
  simp only [maxIdentifier_tally, List.filter_append, List.map_append, List.foldl_append]
  split <;> simp [*]

/-- To count one more lexeme is to count the longer list. -/
theorem tally_concat (xs : List Lexeme) (x : Lexeme) :
    tally (xs ++ [x]) = (tally xs).count x := by
  have hidentifier := Kind.classOf_eq_identifier_iff x.kind
  have hspecial := Kind.classOf_eq_special_iff x.kind
  have hmax := maxIdentifier_tally_concat xs x
  unfold Metrics.count
  cases hc : x.kind.classOf with
  | special => rcases hspecial.1 hc with hk | hk <;> simp_all [tally]
  | identifier | literal | punctuation | operation | whitespace => simp_all [tally]

theorem counted_concat (xs : List Lexeme) (x : Lexeme) : counted prefs (xs ++ [x]) =
    counted prefs xs ++ if x.isSignificant || prefs.includeTrivia then [x] else [] := by
  unfold counted
  cases prefs.includeTrivia <;> by_cases hx : x.isSignificant = true <;> simp [hx]

/-- What is counted one by one are the lexemes of a list. -/
theorem ofLexemes_eq (prefs : LexicalPreferences) (xs : List Lexeme) :
    ofLexemes prefs xs = if prefs.collectMetrics then tally (counted prefs xs) else {} := by
  induction xs using List.reverseRecOn with
  | nil =>
    have hnone : counted prefs [] = [] := by cases h : prefs.includeTrivia <;> simp [counted, h]
    rw [hnone]
    exact (ite_self _).symm
  | append_singleton xs x ih =>
    have hconcat : ofLexemes prefs (xs ++ [x]) = (ofLexemes prefs xs).record prefs x := by
      rw [ofLexemes, List.foldl_append]
      rfl
    rw [hconcat, ih, counted_concat, Metrics.record]
    cases hcollect : prefs.collectMetrics with
    | false => rfl
    | true =>
      simp only [Bool.true_and, if_true]
      split
      · exact (tally_concat ..).symm
      · rw [List.append_nil]

/-- Special lexemes are comments or bytes outside the alphabet. -/
theorem countP_special (xs : List Lexeme) :
    xs.countP (·.kind.classOf = .special) = (tally xs).comments + (tally xs).invalid := by
  induction xs with
  | nil => rfl
  | cons x xs ih =>
    have hone : (if x.kind.classOf = .special then 1 else 0) =
        (if x.kind = .comment then 1 else 0) + if x.kind = .invalid then 1 else 0 := by
      by_cases hcomment : x.kind = .comment <;>
        simp [Kind.classOf_eq_special_iff, hcomment]
    simp only [tally, List.countP_cons, decide_eq_true_eq] at ih ⊢
    omega

end Metrics

namespace Tokenizer

/-- What a tokenizer can be told. -/
inductive Call where
  | tokenize (source : Bytes)
  | setPreferences (p : LexicalPreferences)
  deriving DecidableEq, Repr

/-- The preferences that a call chooses. -/
def Call.choice? : Call → Option LexicalPreferences
  | tokenize _ => none
  | setPreferences p => some p

variable (limits : Limits)

/-- The tokenizer after a call. -/
def afterCall (t : Tokenizer) : Call → Tokenizer
  | .tokenize source => (t.tokenize limits source).2
  | .setPreferences p => t.setPreferences p

/-- The tokenizer after calls. -/
def after (t : Tokenizer) (calls : List Call) : Tokenizer := calls.foldl (afterCall limits) t

/-- The preferences that were chosen last, or those given. -/
def inForce (p : LexicalPreferences) (calls : List Call) : LexicalPreferences :=
  (calls.filterMap Call.choice?).getLast?.getD p

theorem preferences_after (t : Tokenizer) (calls : List Call) :
    (t.after limits calls).preferences = inForce t.preferences calls := by
  induction calls generalizing t with
  | nil => rfl
  | cons c calls ih =>
    refine (ih (t.afterCall limits c)).trans ?_
    cases c with
    | tokenize source => rfl
    | setPreferences p =>
      simp [inForce, Call.choice?, List.getLast?_cons, afterCall, setPreferences]

/-- New preferences do not change what has been counted. -/
theorem metrics_after_setPreferences (t : Tokenizer) (changes : List LexicalPreferences) :
    (t.after limits (changes.map .setPreferences)).metrics = t.metrics := by
  induction changes generalizing t with
  | nil => rfl
  | cons p changes ih => exact ih (t.setPreferences p)

theorem metrics_tokenize (t : Tokenizer) (source : Bytes) :
    (t.tokenize limits source).2.metrics = Metrics.ofLexemes t.preferences
      (Admission.ofLexemes limits (Lexeme.scan source)).taken := by
  rw [tokenize, Tokenization.ofSource]
  generalize Admission.ofLexemes limits (Lexeme.scan source) = admission
  obtain ⟨taken, fault⟩ := admission
  cases fault <;> rfl

/-- The counts are those of the last source, under the preferences in force when it came. -/
theorem metrics_after (t : Tokenizer) (before : List Call) (source : Bytes)
    (changes : List LexicalPreferences) :
    (t.after limits (before ++ .tokenize source :: changes.map .setPreferences)).metrics =
      Metrics.ofLexemes (inForce t.preferences before)
        (Admission.ofLexemes limits (Lexeme.scan source)).taken := by
  rw [after, List.foldl_append, List.foldl_cons, ← preferences_after limits]
  exact (metrics_after_setPreferences limits _ changes).trans (metrics_tokenize limits _ source)

/-- The counts are those of the last source and of nothing else, whatever the tokenizer has
counted before and whatever preferences it is given afterwards. It has counted the lexemes
before the first one that breaks a limit as the preferences in force at that time asked for:
not at all, or those that the grammar sees, or all of them. The classes add up to the total. -/
theorem metrics_of_last_source (t : Tokenizer) (before : List Call) (source : Bytes)
    (changes : List LexicalPreferences) :
    let calls := before ++ .tokenize source :: changes.map .setPreferences
    let p := inForce t.preferences before
    let m := (t.after limits calls).metrics
    (∃ i, Admission.Stops limits (Lexeme.scan source) i ∧
      let ts := (Lexeme.scan source).take i
      let cs := if p.includeTrivia then ts else ts.filter Lexeme.isSignificant
      m = (if p.collectMetrics then Metrics.tally cs else {}) ∧
      cs.countP (·.kind.classOf = .special) =
        (Metrics.tally cs).comments + (Metrics.tally cs).invalid) ∧
    m.total = m.identifiers + m.literals + m.punctuation + m.operators + m.comments +
      m.invalid + m.whitespace ∧
    ∀ stale : Metrics, (Tokenizer.after limits { t with metrics := stale } calls).metrics = m := by
  intro calls p m
  have hm : m = Metrics.ofLexemes p (Admission.ofLexemes limits (Lexeme.scan source)).taken :=
    metrics_after limits t before source changes
  obtain ⟨i, hi⟩ := Admission.exists_stops limits (Lexeme.scan source)
  refine ⟨⟨i, hi, ?_, Metrics.countP_special _⟩, ?_, fun stale => ?_⟩
  · rw [hm, Admission.ofLexemes_eq hi, Metrics.ofLexemes_eq]
    rfl
  · rw [hm]
    exact Metrics.adds_ofLexemes ..
  · rw [hm]
    exact metrics_after limits _ before source changes

end Tokenizer
end Recognizer
