import Mathlib.Data.Nat.Find
import Recognizer.Proofs.Report
import Recognizer.Tokenization

/-!
# Tokenizing under limits

Lexemes are taken one after another until one breaks a limit: it is one too many, or it is
an identifier that is too long. Tokenizing ends at the first such lexeme, with the error and
the one report that belong to it, or else it ends with all lexemes of the source.
-/
namespace Recognizer

namespace Event

theorem code_withValues (e : Event) (values : List (String × String)) :
    (e.withValues values).code = e.code := by
  induction values generalizing e with
  | nil => rfl
  | cons v vs ih => exact ih (e.withValue v.1 v.2)

end Event

namespace Admission

variable {limits : Limits} {xs : List Lexeme} {i : Nat} {x : Lexeme}

/-- A limit is broken at an index: there the lexemes are too many, or there is an identifier
that is too long. -/
def Breaks (limits : Limits) (xs : List Lexeme) (i : Nat) : Prop :=
  i = limits.maxTokens ∨
    ∃ x ∈ xs[i]?, x.kind = .identifier ∧ limits.maxIdentifier < x.text.length

instance (limits : Limits) (xs : List Lexeme) (i : Nat) : Decidable (Breaks limits xs i) :=
  inferInstanceAs (Decidable (_ ∨ _))

/-- Lexemes are taken up to an index: the first one at which a limit is broken, or the end. -/
structure Stops (limits : Limits) (xs : List Lexeme) (i : Nat) : Prop where
  within : i ≤ xs.length
  kept : ∀ j < i, ¬Breaks limits xs j
  broken : i < xs.length → Breaks limits xs i

/-- The error of the first lexeme that breaks a limit. If it breaks both, it is one too many. -/
def complaint (limits : Limits) (i : Nat) (x : Lexeme) : LexicalError :=
  if i = limits.maxTokens then .tooManyTokens (limits.maxTokens + 1)
  else .identifierTooLong x.text.length x.start

theorem exists_stops (limits : Limits) (xs : List Lexeme) : ∃ i, Stops limits xs i := by
  by_cases h : ∃ i, i < xs.length ∧ Breaks limits xs i
  · classical
    obtain ⟨hlength, hbreaks⟩ := Nat.find_spec h
    refine ⟨Nat.find h, hlength.le, fun j hj hj' => ?_, fun _ => hbreaks⟩
    exact Nat.find_min h hj ⟨hj.trans hlength, hj'⟩
  · exact ⟨xs.length, Nat.le_refl _, fun j hj hj' => h ⟨j, hj, hj'⟩,
      fun h => absurd h (Nat.lt_irrefl _)⟩

theorem fault?_eq_none (hi : i < limits.maxTokens)
    (hx : ¬(x.kind = .identifier ∧ limits.maxIdentifier < x.text.length)) :
    x.fault? limits i = none := by
  rw [Lexeme.fault?, if_neg hi.not_ge, if_neg hx]

theorem fault?_eq_complaint (hi : i ≤ limits.maxTokens) (hx : xs[i]? = some x)
    (h : Breaks limits xs i) : x.fault? limits i = some (complaint limits i x) := by
  unfold Lexeme.fault? complaint
  by_cases hcount : i = limits.maxTokens
  · rw [if_pos hcount.ge, if_pos hcount, hcount]
  · have hlong : x.kind = .identifier ∧ limits.maxIdentifier < x.text.length := by
      obtain ⟨y, hy, hlong⟩ := h.resolve_left hcount
      rw [hx] at hy
      exact Option.some.inj hy ▸ hlong
    rw [if_neg (show ¬limits.maxTokens ≤ i by omega), if_neg hcount, if_pos hlong]

/-- Lexemes without a fault are taken in their order. -/
theorem loop_append {ys : List Lexeme} {n : Nat} (taken xs : List Lexeme)
    (h : ∀ j (y : Lexeme), ys[j]? = some y → y.fault? limits (n + j) = none) :
    loop limits n taken (ys ++ xs) = loop limits (n + ys.length) (ys.reverse ++ taken) xs := by
  induction ys generalizing n taken with
  | nil => rfl
  | cons y ys ih =>
    have hfirst : y.fault? limits n = none := h 0 y rfl
    have hrest : ∀ j (z : Lexeme), ys[j]? = some z → z.fault? limits (n + 1 + j) = none := by
      intro j z hz
      rw [Nat.add_assoc, Nat.add_comm 1]
      exact h (j + 1) z hz
    rw [List.cons_append, loop, hfirst]
    simp only [ih _ hrest, List.length_cons, List.reverse_cons, List.append_assoc,
      List.singleton_append, Nat.add_assoc, Nat.add_comm 1]

/-- The lexemes before the index at which tokenizing stops are taken, and the one at it is not. -/
theorem ofLexemes_eq (h : Stops limits xs i) :
    ofLexemes limits xs = ⟨xs.take i, xs[i]?.map fun x => (x, complaint limits i x)⟩ := by
  have hcount : ∀ j < i, j < limits.maxTokens := by
    intro j hj
    by_contra hle
    exact h.kept limits.maxTokens (by omega) (.inl rfl)
  have hkept : ∀ j (y : Lexeme), (xs.take i)[j]? = some y → y.fault? limits (0 + j) = none := by
    intro j y hy
    obtain ⟨hj, -⟩ := List.getElem?_eq_some_iff.1 hy
    have hj : j < i := hj.trans_le (List.length_take_le i xs)
    rw [List.getElem?_take_of_lt hj] at hy
    rw [Nat.zero_add]
    exact fault?_eq_none (hcount j hj) fun hlong => h.kept j hj (.inr ⟨y, hy, hlong⟩)
  have hloop := loop_append [] (xs.drop i) hkept
  rw [List.take_append_drop, Nat.zero_add, List.length_take, Nat.min_eq_left h.within,
    List.append_nil] at hloop
  rw [ofLexemes, hloop]
  rcases Nat.lt_or_eq_of_le h.within with hlt | rfl
  · have hi : i ≤ limits.maxTokens := by
      by_contra hgt
      exact h.kept limits.maxTokens (by omega) (.inl rfl)
    have hx : xs[i]? = some xs[i] := List.getElem?_eq_getElem hlt
    rw [List.drop_eq_getElem_cons hlt, loop, fault?_eq_complaint hi hx (h.broken hlt), hx]
    simp
  · simp [loop]

/-- If no limit is broken, all lexemes are taken. -/
theorem ofLexemes_of_kept (h : ∀ i < xs.length, ¬Breaks limits xs i) :
    ofLexemes limits xs = ⟨xs, none⟩ := by
  have hstops : Stops limits xs xs.length :=
    ⟨Nat.le_refl _, h, fun h => absurd h (Nat.lt_irrefl _)⟩
  rw [ofLexemes_eq hstops, List.getElem?_eq_none (Nat.le_refl _), List.take_length]
  rfl

/-- The first lexeme that breaks a limit is not taken. -/
theorem ofLexemes_of_first (hx : xs[i]? = some x) (hbreaks : Breaks limits xs i)
    (hkept : ∀ j < i, ¬Breaks limits xs j) :
    ofLexemes limits xs = ⟨xs.take i, some (x, complaint limits i x)⟩ := by
  have hstops : Stops limits xs i :=
    ⟨(List.getElem?_eq_some_iff.1 hx).1.le, hkept, fun _ => hbreaks⟩
  rw [ofLexemes_eq hstops, hx]
  rfl

end Admission

namespace Tokenization

variable {limits : Limits} {prefs : LexicalPreferences} {source : Bytes}

/-- The result for a source of which lexemes were taken. -/
def ending : Admission → Except LexicalError (List Lexeme)
  | ⟨_, some (_, e)⟩ => .error e
  | ⟨taken, none⟩ => .ok taken

/-- The last report on a source of which lexemes were taken. -/
def closing (limits : Limits) (prefs : LexicalPreferences) : Admission → Event
  | ⟨_, some (x, e)⟩ => faultEvent limits x e
  | ⟨taken, none⟩ =>
    let metrics := Metrics.ofLexemes prefs taken
    (Event.success limits .tokenized "Tokenization completed").withValues
      [("tokens", toString taken.length), ("counted", toString metrics.total),
        ("invalid_bytes", toString metrics.invalid)]

theorem result_eq_ending (limits : Limits) (prefs : LexicalPreferences) (source : Bytes) :
    (ofSource limits prefs source).result =
      ending (Admission.ofLexemes limits (Lexeme.scan source)) := by
  rw [ofSource]
  generalize Admission.ofLexemes limits (Lexeme.scan source) = admission
  obtain ⟨taken, fault⟩ := admission
  cases fault <;> rfl

/-- All reports before the last one are for debugging. -/
theorem exists_notes (limits : Limits) (prefs : LexicalPreferences) (source : Bytes) :
    ∃ notes : List Event, (∀ e ∈ notes, e.level = .debug ∧ e.code = .plainDebug) ∧
      (ofSource limits prefs source).events =
        notes ++ [closing limits prefs (Admission.ofLexemes limits (Lexeme.scan source))] := by
  rw [ofSource]
  generalize Admission.ofLexemes limits (Lexeme.scan source) = admission
  obtain ⟨taken, fault⟩ := admission
  let started := (Event.debug limits "Starting lexical analysis").withValues
    [("bytes", toString source.length), ("max_tokens_allowed", toString limits.maxTokens)]
  let unknown := (taken.filter fun x => x.kind == .invalid).map (invalidEvent limits)
  refine ⟨started :: unknown, fun e he => ?_, ?_⟩
  · rcases List.mem_cons.1 he with rfl | he
    · exact ⟨Event.level_withValues .., Event.code_withValues ..⟩
    · obtain ⟨x, -, rfl⟩ := List.mem_map.1 he
      exact ⟨Event.level_withValues .., Event.code_withValues ..⟩
  · cases fault <;> rfl

/-- A choice of reports that leaves out those for debugging is made on the last report. -/
theorem filter_events {keep : Event → Bool} (hkeep : ∀ e : Event, e.level = .debug → keep e = false)
    (limits : Limits) (prefs : LexicalPreferences) (source : Bytes) :
    (ofSource limits prefs source).events.filter keep =
      [closing limits prefs (Admission.ofLexemes limits (Lexeme.scan source))].filter keep := by
  obtain ⟨notes, hnotes, hevents⟩ := exists_notes limits prefs source
  have hquiet : notes.filter keep = [] :=
    List.filter_eq_nil_iff.2 fun e he => by simp [hkeep e (hnotes e he).1]
  rw [hevents, List.filter_append, hquiet, List.nil_append]

theorem notable_events (limits : Limits) (prefs : LexicalPreferences) (source : Bytes) :
    Event.notable (ofSource limits prefs source).events =
      Event.notable [closing limits prefs (Admission.ofLexemes limits (Lexeme.scan source))] :=
  filter_events (fun e he => by rw [he]; rfl) limits prefs source

section Faults

variable {taken : List Lexeme} {x : Lexeme} {e : LexicalError}

theorem level_faultEvent : (faultEvent limits x e).level = .error := by cases e <;> rfl

theorem span_faultEvent : (faultEvent limits x e).span = some x.span := by cases e <;> rfl

theorem code_faultEvent : (faultEvent limits x e).code = e.code := by cases e <;> rfl

variable (h : Admission.ofLexemes limits (Lexeme.scan source) = ⟨taken, some (x, e)⟩)
include h

/-- An error is reported once. -/
theorem filter_isError_of_fault :
    (ofSource limits prefs source).events.filter Event.isError = [faultEvent limits x e] := by
  have hdebug : ∀ e : Event, e.level = .debug → e.isError = false :=
    fun e he => by rw [Event.isError, he]; rfl
  rw [filter_events hdebug, h]
  exact List.filter_cons_of_pos (by rw [Event.isError, closing, level_faultEvent]; rfl)

/-- An error is all that is reported, apart from the reports for debugging. -/
theorem notable_of_fault :
    Event.notable (ofSource limits prefs source).events = [faultEvent limits x e] := by
  rw [notable_events, h]
  exact List.filter_cons_of_pos (by rw [closing, level_faultEvent]; rfl)

/-- Success is not noted beside an error. -/
theorem code_ne_of_fault {f : Event} (hf : f ∈ (ofSource limits prefs source).events) :
    f.code ≠ .tokenized := by
  obtain ⟨notes, hnotes, hevents⟩ := exists_notes limits prefs source
  rw [hevents, h, List.mem_append, List.mem_singleton] at hf
  rcases hf with hf | rfl
  · rw [(hnotes f hf).2]
    decide
  · rw [closing, code_faultEvent]
    cases e with
    | identifierTooLong => exact show Code.identifierTooLong ≠ .tokenized by decide
    | tooManyTokens => exact show Code.tooManyTokens ≠ .tokenized by decide

end Faults

/-- Tokenizing is exact under its limits, whatever was tokenized before and however tokens are
counted. If no limit is broken, the result is all lexemes of the source, and that is noted
once. Otherwise the result is the error of the first lexeme that breaks one, which is one too
many even if it is too long as well; the error is reported once, at that lexeme, and success is
not noted. A log keeps that report and no other. -/
theorem tokenize_exact (limits : Limits) (t : Tokenizer) (source : Bytes) :
    let xs := Lexeme.scan source
    let outcome := (t.tokenize limits source).1
    let logged (s : Session) := (s.clear.reportAll limits outcome.events).1.events
    (∀ u : Tokenizer, (u.tokenize limits source).1.result = outcome.result) ∧
    ((∀ i < xs.length, ¬Admission.Breaks limits xs i) →
      outcome.result = .ok xs ∧
      ∃ e, Event.notable outcome.events = [e] ∧ e.level = .info ∧ e.code.text = "I020") ∧
    ∀ i x, xs[i]? = some x → Admission.Breaks limits xs i →
      (∀ j < i, ¬Admission.Breaks limits xs j) →
      ∃ error e,
        error = (if i = limits.maxTokens then .tooManyTokens (limits.maxTokens + 1)
          else .identifierTooLong x.text.length x.start) ∧
        outcome.result = .error error ∧
        outcome.events.filter Event.isError = [e] ∧ e.span = some x.span ∧ e.code = error.code ∧
        (∀ f ∈ outcome.events, f.code.text ≠ "I020") ∧
        ∀ s : Session, s.Records → logged s = [e] := by
  intro xs outcome logged
  have hresult (u : Tokenizer) : (u.tokenize limits source).1.result =
      ending (Admission.ofLexemes limits xs) := result_eq_ending limits u.preferences source
  refine ⟨fun u => (hresult u).trans (hresult t).symm, fun hkept => ?_,
    fun i x hx hbreaks hkept => ?_⟩
  · have hall := Admission.ofLexemes_of_kept hkept
    have hnotable := notable_events limits t.preferences source
    rw [hall] at hnotable
    exact ⟨(hresult t).trans (congrArg ending hall), _, hnotable, rfl, rfl⟩
  · have hfirst := Admission.ofLexemes_of_first hx hbreaks hkept
    have hnotable : Event.notable outcome.events =
        [faultEvent limits x (Admission.complaint limits i x)] := notable_of_fault hfirst
    refine ⟨_, _, rfl, (hresult t).trans (congrArg ending hfirst), filter_isError_of_fault hfirst,
      span_faultEvent, code_faultEvent, fun f hf hcode => ?_, fun s hs => ?_⟩
    · exact code_ne_of_fault hfirst hf (congrArg Code.mk hcode)
    · exact (hs.events_clear_reportAll (by rw [hnotable]; rfl)).trans hnotable

/-- Room for as many tokens as given, and for names of up to four bytes. -/
def roomFor (tokens : Nat) : Limits :=
  { Limits.development with maxTokens := tokens, maxIdentifier := 4 }

/-- A short name and a long one. -/
def twoNames : Bytes := Bytes.ofAscii "a bcdef".toList

/-- A tokenizer that has counted seven tokens before. -/
def seasoned : Tokenizer := ⟨⟨true, false⟩, { total := 7 }⟩

/-- With room for two tokens the long name is one too many, though it is too long as well. The
short name and the blank are just as many as there is room for. -/
theorem tokenize_exact_twoNames :
    (∃ x, (Lexeme.scan twoNames)[2]? = some x ∧ x.kind = .identifier ∧ 4 < x.text.length) ∧
    Admission.Breaks (roomFor 2) (Lexeme.scan twoNames) 2 ∧
    (∀ j < 2, ¬Admission.Breaks (roomFor 2) (Lexeme.scan twoNames) j) ∧
    Recognition.noting.Records ∧
    (∃ e, (seasoned.tokenize (roomFor 2) twoNames).1.result = .error (.tooManyTokens 3) ∧
      (Recognition.noting.clear.reportAll (roomFor 2)
        (seasoned.tokenize (roomFor 2) twoNames).1.events).1.events = [e] ∧
      e.span = some ⟨2, 7⟩ ∧ e.code.text = "E027") ∧
    (∀ j < (Lexeme.scan (twoNames.take 2)).length,
      ¬Admission.Breaks (roomFor 2) (Lexeme.scan (twoNames.take 2)) j) ∧
    (seasoned.tokenize (roomFor 2) (twoNames.take 2)).1.result =
      .ok [⟨.identifier, 0, [97]⟩, ⟨.space, 1, [32]⟩] := by
  obtain ⟨x, hx, hkind, hlong, hspan⟩ : ∃ x, (Lexeme.scan twoNames)[2]? = some x ∧
      x.kind = .identifier ∧ 4 < x.text.length ∧ x.span = ⟨2, 7⟩ :=
    ⟨_, rfl, rfl, by decide, rfl⟩
  have hbreaks : Admission.Breaks (roomFor 2) (Lexeme.scan twoNames) 2 := by decide
  have hkept : ∀ j < 2, ¬Admission.Breaks (roomFor 2) (Lexeme.scan twoNames) j := by decide
  have hroom : ∀ j < (Lexeme.scan (twoNames.take 2)).length,
      ¬Admission.Breaks (roomFor 2) (Lexeme.scan (twoNames.take 2)) j := by decide
  have hsession : Recognition.noting.Records := ⟨⟨.info, rfl, rfl⟩, .inr rfl⟩
  obtain ⟨error, e, rfl, hresult, -, he, hcode, -, hlogged⟩ :=
    (tokenize_exact (roomFor 2) seasoned twoNames).2.2 2 x hx hbreaks hkept
  refine ⟨⟨x, hx, hkind, hlong⟩, hbreaks, hkept, hsession,
    ⟨e, hresult, hlogged _ hsession, he.trans (congrArg some hspan), congrArg Code.text hcode⟩,
    hroom, ?_⟩
  exact ((tokenize_exact (roomFor 2) seasoned (twoNames.take 2)).2.1 hroom).1

end Tokenization
end Recognizer
