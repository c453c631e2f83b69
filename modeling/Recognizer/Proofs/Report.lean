import Recognizer.Log.Session
import Recognizer.Proofs.Encoding
import Recognizer.Proofs.Guard
import Recognizer.Proofs.Segmentation

/-!
# What recognition reports

The outcome of a recognition, the code of its error and the events that reach a log are
those of the state in which the declarations of the source end. That state stands at a
place of the source, so a rejection that is not due to the depth guard names a significant
lexeme of the source and never its end.
-/
namespace Recognizer

open Grammar

/-- The events that are not for debugging. -/
def Event.notable (es : List Event) : List Event := es.filter (·.level != .debug)

@[simp] theorem Event.notable_append (es fs : List Event) :
    notable (es ++ fs) = notable es ++ notable fs := List.filter_append ..

namespace Session

variable {s : Session} {limits : Limits}

/-- The session keeps errors and notes in memory, and no events for debugging. -/
structure Records (s : Session) : Prop where
  keeps : ∃ threshold, s.service = some ⟨.memory, threshold⟩ ∧
    Level.info.passes threshold = true
  quiet : s.settings.minLevel ≠ .debug ∨ s.lets? .debug = some false

namespace Records

theorem clear (h : s.Records) : s.clear.Records := ⟨h.keeps, h.quiet⟩

/-- An event is kept unless it is for debugging. -/
theorem report (h : s.Records) (e : Event) : (s.report limits e).1 =
    if e.level = .debug then s else { s with memory := s.memory.record limits.bufferSize e } := by
  obtain ⟨env, preferences, service, memory⟩ := s
  obtain ⟨⟨threshold, rfl, hthreshold⟩, hquiet⟩ := h
  by_cases he : e.level = .debug
  · simp only [Session.report, he, true_and]
    split
    · rfl
    · next hlevel =>
      have hdrop : Level.debug.passes threshold = false := by
        simpa [lets?, Service.lets, hlevel] using hquiet
      simp [send, Service.log, Service.lets, he, hdrop]
  · have hpass : e.level.passes threshold = true := by
      revert he hthreshold
      cases e.level <;> cases threshold <;> decide
    simp [Session.report, send, Service.log, Service.lets, he, hpass]

/-- Of several events those that are not for debugging are kept in their order. -/
theorem reportAll (h : s.Records) (es : List Event) : (s.reportAll limits es).1 =
    { s with memory :=
        (Event.notable es).foldl (MemoryLog.record limits.bufferSize) s.memory } := by
  unfold Session.reportAll Event.notable
  generalize ({} : Printed) = printed
  induction es generalizing s printed with
  | nil => rfl
  | cons e es ih =>
    rw [List.foldl_cons]
    dsimp only
    rw [h.report e]
    by_cases he : e.level = .debug
    · simp [he, ih h]
    · have hkept : Records { s with memory := s.memory.record limits.bufferSize e } :=
        ⟨h.keeps, h.quiet⟩
      simp [he, ih hkept]

/-- A log that was empty keeps a single event, however little it has room for. -/
theorem events_clear_reportAll (h : s.Records) {es : List Event}
    (hes : (Event.notable es).length ≤ 1) :
    (s.clear.reportAll limits es).1.events = Event.notable es := by
  rw [h.clear.reportAll]
  match Event.notable es, hes with
  | [], _ => rfl
  | [e], _ =>
    simp only [events, List.foldl_cons, List.foldl_nil, MemoryLog.record]
    split <;> rfl

end Records
end Session

namespace Parser

/-- Of a program, at most a refused call is reported. -/
theorem notable_parseProgram (p : Parser) : Event.notable p.parseProgram.2.events =
    Event.notable p.events ++ p.parseProgram.2.state.overflow.toList.map (depthEvent p.limits) := by
  have hevents : ∃ finished : Event, finished.level = .debug ∧ p.parseProgram.2.events =
      (p.rewound.run (program p.preferences)).2.events ++ [finished] := ⟨_, by simp, rfl⟩
  have hstate : p.parseProgram.2.state =
      (program p.preferences p.rewound.room p.rewound.state).2 := state_adopt ..
  obtain ⟨finished, hlevel, hevents⟩ := hevents
  rw [hevents, hstate, run]
  cases hdeep : (program p.preferences p.rewound.room p.rewound.state).2.overflow with
  | none =>
    rw [events_adopt_of_eq (by rw [hdeep]; rfl)]
    simp [Event.notable, hlevel, rewound, restore]
  | some offset =>
    rw [events_adopt_of_some rfl hdeep]
    simp [Event.notable, hlevel, rewound, restore, depthEvent]

end Parser

namespace Recognition

variable (limits : Limits) (prefs : GrammarPreferences) (source : Bytes)

/-- What is reported about a source whose declarations end in the state given. -/
def remark (s : State) : List Event :=
  if s.overflow.isSome then []
  else if s.rest.isEmpty then
    [(Event.success limits .accepted "Input accepted").withValues
      [("bytes", toString source.length), ("global_symbols", toString s.table.globals.length)]]
  else [rejectionEvent limits prefs s.rest.head?
    (.rejected s.position ((LineMap.ofSource source).positionAt s.position) (found s.rest.head?))]

/-- The last events about a source follow from the state in which its declarations end. -/
theorem events_eq_remark : (ofSource limits prefs source).events =
    (Parser.new limits prefs source).parseProgram.2.events ++
      remark limits prefs source (Parser.new limits prefs source).parseProgram.2.state := by
  have hanswer := Parser.answer_parseProgram_eq (Parser.new limits prefs source)
  rw [ofSource]
  generalize (Parser.new limits prefs source).parseProgram = outcome at hanswer
  obtain ⟨accepted, p⟩ := outcome
  simp only [Parser.isExhausted, Parser.depthExceeded] at hanswer
  subst hanswer
  by_cases hdeep : p.state.overflow.isSome = true
  · simp [remark, Parser.depthExceeded, hdeep]
  · by_cases hend : p.state.rest.isEmpty = true
    · simp [remark, Parser.table, hdeep, hend]
    · simp [remark, Parser.position, Parser.depthExceeded, Parser.current?, hdeep, hend]

/-- A refused call is reported once, and otherwise the outcome. -/
theorem notable_events : Event.notable (ofSource limits prefs source).events =
    let s := (Parser.new limits prefs source).parseProgram.2.state
    s.overflow.toList.map (Parser.depthEvent limits) ++
      Event.notable (remark limits prefs source s) := by
  rw [events_eq_remark, Event.notable_append, Parser.notable_parseProgram]
  rfl

/-- A text in quotes is not taken for the end. -/
theorem found_ne_endOfInput (x : Lexeme) : found (some x) ≠ RecognitionError.endOfInput := by
  intro h
  have hletters := congrArg String.toList h
  simp [found, RecognitionError.endOfInput] at hletters

/-- The text quotes a lexeme. Between the quotes stand the bytes of the lexeme, which are ASCII,
or the bytes of the replacement character in place of a single byte that is not. -/
inductive Quotes (x : Lexeme) (text : String) : Prop where
  | ascii (hx : ∀ b ∈ x.text, b < 0x80) (htext : Bytes.ofText text = 39 :: x.text ++ [39])
  | replaced (b : UInt8) (hx : x.kind = .invalid ∧ x.text = [b]) (hb : 0x80 ≤ b)
      (htext : Bytes.ofText text = [39, 0xEF, 0xBF, 0xBD, 39])

theorem ofText_found (x : Lexeme) :
    Bytes.ofText (found (some x)) = 39 :: Bytes.ofText x.text.display ++ [39] := by
  have hquote : Bytes.ofText "'" = [39] := by decide +kernel
  rw [found, Bytes.ofText_append, Bytes.ofText_append, hquote]
  rfl

/-- A significant lexeme of a source is quoted. Only a byte outside the alphabet may not be
ASCII, and it is a lexeme by itself. -/
theorem quotes_found {source : Bytes} {x : Lexeme} (hx : x ∈ Lexeme.significant source) :
    Quotes x (found (some x)) := by
  obtain ⟨hmem, hsignificant⟩ := List.mem_filter.1 hx
  have hform := (Lexeme.fits_of_mem hmem).1
  have hascii (h : ∀ b ∈ x.text, b < 0x80) : Quotes x (found (some x)) :=
    .ascii h (by rw [ofText_found, Bytes.ofText_display_of_ascii h])
  by_cases hkind : x.kind = .invalid
  · obtain ⟨b, htext, -⟩ : Kind.Form .invalid x.text := hkind ▸ hform
    by_cases hb : b < 0x80
    · exact hascii (by simpa [htext] using hb)
    · refine .replaced b ⟨hkind, htext⟩ (UInt8.not_lt.1 hb) ?_
      rw [ofText_found, Bytes.ofText_display, htext, List.flatMap_singleton, Bytes.shown, if_neg hb]
      rfl
  · refine hascii ((hform.spells hkind).ascii fun hcomment => ?_)
    simp [Lexeme.isSignificant, hcomment, Kind.isSignificant, Kind.isTrivia] at hsignificant

example : (Lexeme.significant [0xC3, 0xA9]).map (Bytes.ofText ∘ found ∘ some) =
    [[39, 0xEF, 0xBF, 0xBD, 39], [39, 0xEF, 0xBF, 0xBD, 39]] := by decide +kernel

/-- A rejection at a lexeme is logged there, if rejections are logged. -/
theorem notable_rejectionEvent (limits : Limits) (prefs : GrammarPreferences) (x : Lexeme)
    {e : RecognitionError} (he : e.code = .unexpectedToken) :
    if prefs.logRejections then
      ∃ event, Event.notable [rejectionEvent limits prefs (some x) e] = [event] ∧
        event.level = .error ∧ event.span = some x.span ∧
        event.code.text = if x.kind = .invalid then "E020" else "E050"
    else Event.notable [rejectionEvent limits prefs (some x) e] = [] := by
  unfold rejectionEvent
  split
  · refine ⟨_, rfl, rfl, rfl, ?_⟩
    by_cases hx : x.kind = .invalid
    · rw [if_pos hx]
      simp only [hx]
      rfl
    · rw [if_neg hx]
      simp only [hx, he]
      rfl
  · rfl

/-- Recognition is exact in what it reports. A source is accepted when its program is, and
accepting it is noted once. A rejection is at a significant lexeme of the source, whose
text it quotes byte for byte; it is logged once, at that lexeme, unless rejections are not
logged. That productions are nested too deeply is logged once. -/
theorem recognition_reports_exactly (limits : Limits) (prefs : GrammarPreferences)
    (source : Bytes) {session : Session} (hsession : session.Records) :
    let outcome := ofSource limits prefs source
    let logged := (session.clear.reportAll limits outcome.events).1.events
    (outcome.result = .ok () ↔ (Parser.new limits prefs source).parseProgram.1 = true) ∧
    (parses limits source = true ↔ (ofSource limits {} source).result = .ok ()) ∧
    match outcome.result with
    | .ok () => ∃ e, logged = [e] ∧ e.level = .info ∧ e.code.text = "I041"
    | .error (.tooDeep _ _ _) => ∃ e, logged = [e] ∧ e.level = .error ∧ e.code.text = "E087"
    | .error (.rejected offset position found) =>
      (RecognitionError.rejected offset position found).code.text = "E050" ∧
      position = (LineMap.ofSource source).positionAt offset ∧
      offset < source.length ∧ found ≠ RecognitionError.endOfInput ∧
      ∃ x ∈ Lexeme.significant source, x.start = offset ∧ found = "'" ++ x.text.display ++ "'" ∧
        Quotes x found ∧
        if prefs.logRejections then
          ∃ e, logged = [e] ∧ e.level = .error ∧ e.span = some x.span ∧
            e.code.text = if x.kind = .invalid then "E020" else "E050"
        else logged = [] := by
  refine ⟨result_eq_ok_iff, result_eq_ok_iff.symm, ?_⟩
  have hanchored := Parser.anchored_parseProgram (p := Parser.new limits prefs source) rfl
  have hsuffix := (Parser.new limits prefs source).rest_parseProgram_suffix
  have hnotable := notable_events limits prefs source
  rw [result_eq_verdict]
  generalize (Parser.new limits prefs source).parseProgram.2.state = s at *
  cases hdeep : s.overflow with
  | some offset =>
    have hlogged : Event.notable (ofSource limits prefs source).events =
        [Parser.depthEvent limits offset] := by
      simpa [remark, hdeep, Event.notable] using hnotable
    rw [hsession.events_clear_reportAll (by simp [hlogged]), hlogged]
    simp only [verdict, hdeep]
    exact ⟨_, rfl, rfl, rfl⟩
  | none =>
    cases hrest : s.rest with
    | nil =>
      have hlogged : ∃ e : Event, Event.notable (ofSource limits prefs source).events = [e] ∧
          e.level = .info ∧ e.code.text = "I041" :=
        ⟨_, by simpa [remark, hdeep, hrest, Event.notable] using hnotable, rfl, rfl⟩
      obtain ⟨e, hlogged, he⟩ := hlogged
      rw [hsession.events_clear_reportAll (by simp [hlogged]), hlogged]
      simp only [verdict, hdeep, hrest]
      exact ⟨e, rfl, he⟩
    | cons x xs =>
      obtain ⟨-, hplaced, hposition⟩ := hanchored.head hrest
      have hne := found_ne_endOfInput x
      have hcode (offset : Nat) (position : Position) :
          (RecognitionError.rejected offset position (found (some x))).code = .unexpectedToken := by
        rw [RecognitionError.code, if_neg hne]
      have hinside : x.start < source.length := Nat.lt_of_lt_of_le hplaced.nonempty hplaced.within
      have hmem : x ∈ Lexeme.significant source := hsuffix.subset (by simp [hrest])
      have hlogged : Event.notable (ofSource limits prefs source).events =
          Event.notable [rejectionEvent limits prefs (some x) (.rejected x.start
            ((LineMap.ofSource source).positionAt x.start) (found (some x)))] := by
        simpa [remark, hdeep, hrest, hposition] using hnotable
      have hsingle : (Event.notable (ofSource limits prefs source).events).length ≤ 1 := by
        rw [hlogged]
        exact List.length_filter_le ..
      rw [hsession.events_clear_reportAll hsingle, hlogged]
      simp only [verdict, hdeep, hrest, hposition]
      exact ⟨congrArg Code.text (hcode _ _), rfl, hinside, hne, x, hmem, rfl, rfl,
        quotes_found hmem, notable_rejectionEvent limits prefs x (hcode _ _)⟩

/-- The session that keeps errors and notes. -/
def noting : Session := { service := some ⟨.memory, .info⟩ }

/-- A byte outside the alphabet on the second line. -/
def stray : Bytes := Bytes.ofAscii "void f();\n @".toList

/-- It is quoted, and logged with a code of its own. -/
theorem recognition_reports_exactly_stray : noting.Records ∧
    (ofSource .development {} stray).result = .error (.rejected 11 ⟨11, 2, 2⟩ "'@'") ∧
    Bytes.ofText "'@'" = [39, 64, 39] ∧
    ∃ e, (noting.clear.reportAll .development
        (ofSource .development {} stray).events).1.events = [e] ∧
      e.level = .error ∧ e.span = some ⟨11, 12⟩ ∧ e.code.text = "E020" := by
  have hresult : (ofSource .development {} stray).result =
      .error (.rejected 11 ⟨11, 2, 2⟩ "'@'") := by decide +kernel
  have hlexeme : ∀ x ∈ Lexeme.significant stray, x.start = 11 →
      x = ⟨.invalid, 11, [64]⟩ := by decide +kernel
  have hsession : noting.Records := ⟨⟨.info, rfl, rfl⟩, .inr rfl⟩
  have hreport := (recognition_reports_exactly .development {} stray hsession).2.2
  rw [hresult] at hreport
  obtain ⟨-, -, -, -, x, hmem, hstart, -, hquotes, e, hlogged, hlevel, hspan, hcode⟩ := hreport
  obtain rfl := hlexeme x hmem hstart
  refine ⟨hsession, hresult, ?_, e, hlogged, hlevel, hspan, hcode⟩
  cases hquotes with
  | ascii _ htext => exact htext
  | replaced b hx hb => cases hx.2; exact absurd hb (by decide)

end Recognition
end Recognizer
