import Recognizer.Proofs.CheckedParser
import Recognizer.Proofs.Lines
import Recognizer.Proofs.Report
import Recognizer.Token.Cursor

/-!
# Recognition with checked operations

The line of an offset is found by halving the list of line starts, which works because that
list is increasing and begins with zero. With it, what is said about a source is put
together from checked operations, and none of them stops (`recognize_eq`): every byte
sequence that can be addressed is recognized, and its tokens and positions can be asked for
at every offset.
-/
namespace Recognizer

open Grammar

namespace Checked

open LineMap

section Lines

variable (word : Nat)

/-- The offset after each line feed, when the first byte has the offset given. -/
def breaks : Nat → Bytes → Except Panic (List Nat)
  | _, [] => return []
  | o, b :: bs => do
    let next ← add word o 1
    if b = 10 then return next :: (← breaks next bs) else breaks next bs

/-- Look for an offset among the line starts of a range by halving the range: the line that
starts there, or else the first line that starts behind it. -/
def search (starts : List Nat) (offset low high : Nat) : Except Panic (Except Nat Nat) :=
  if _h : low < high then do
    let middle := low + (high - low) / 2
    let start ← index starts middle
    if start = offset then return .ok middle
    else if start < offset then search starts offset (middle + 1) high
    else search starts offset low middle
  else return .error low
termination_by high - low
decreasing_by all_goals omega

/-- The line in which an offset lies, from zero on. -/
def lineOf (starts : List Nat) (offset : Nat) : Except Panic Nat := do
  match ← search starts offset 0 starts.length with
  | .ok line => return line
  | .error line => sub line 1

/-- The position of an offset, given where lines start. -/
def locate (starts : List Nat) (offset : Nat) : Except Panic Position := do
  let line ← lineOf starts offset
  let column ← sub offset (← index starts line)
  return ⟨offset, (← add word line 1).toUInt32, (← add word column 1).toUInt32⟩

/-- The position of an offset, which is cut to the end of the source. -/
def positionAt (source : Bytes) (offset : Nat) : Except Panic Position := do
  locate word (0 :: (← breaks word 0 source)) (min offset source.length)

variable {word}

theorem breaks_eq {o : Nat} {bytes : Bytes} (h : o + bytes.length < word) :
    breaks word o bytes = .ok (LineMap.breaks o bytes) := by
  induction bytes generalizing o with
  | nil => rfl
  | cons b bs ih =>
    rw [List.length_cons] at h
    simp only [breaks, LineMap.breaks, add_eq (show o + 1 < word by omega), ok_bind,
      ih (show o + 1 + bs.length < word by omega)]
    split <;> rfl

/-- The search ends at the number of lines that are reached, which is between the bounds of
its range all the time. -/
theorem search_eq {starts : List Nat} (hstarts : starts.Pairwise (· < ·)) {offset low high : Nat}
    (hlow : low ≤ reached starts offset) (hhigh : reached starts offset ≤ high)
    (hlength : high ≤ starts.length) :
    (∃ line, search starts offset low high = .ok (.ok line) ∧
      line + 1 = reached starts offset) ∨
    search starts offset low high = .ok (.error (reached starts offset)) := by
  induction hn : high - low using Nat.strongRecOn generalizing low high with
  | ind n ih =>
    rw [search]
    by_cases h : low < high
    · generalize hmiddle : low + (high - low) / 2 = middle
      obtain ⟨start, hstart⟩ : ∃ start, starts[middle]? = some start :=
        ⟨_, List.getElem?_eq_getElem (show middle < starts.length by omega)⟩
      have hreached := lt_reached_iff (o := offset) hstarts hstart
      rw [dif_pos h]
      simp only [index_eq hstart, ok_bind]
      rcases Nat.lt_trichotomy start offset with hlt | rfl | hgt
      · rw [if_neg hlt.ne, if_pos hlt]
        exact ih (high - (middle + 1)) (by omega) (hreached.2 hlt.le) hhigh hlength rfl
      · rw [if_pos rfl]
        exact .inl ⟨middle, rfl, (reached_eq hstarts hstart).symm⟩
      · rw [if_neg hgt.ne', if_neg hgt.not_gt]
        exact ih (middle - low) (by omega) hlow (by omega) (by omega) rfl
    · rw [dif_neg h]
      exact .inr (congrArg (fun line => Except.ok (Except.error line)) (by omega))

/-- The line of an offset is the last one that starts at or before it. -/
theorem lineOf_eq {starts : List Nat} (hstarts : starts.Pairwise (· < ·)) {offset : Nat}
    (hfirst : 0 < reached starts offset) :
    lineOf starts offset = .ok (reached starts offset - 1) := by
  rcases search_eq hstarts (Nat.zero_le _) (reached_le starts offset) (Nat.le_refl _) with
    ⟨line, hsearch, hline⟩ | hsearch
  · rw [lineOf, hsearch, ← hline]
    rfl
  · rw [lineOf, hsearch]
    exact sub_eq hfirst

/-- A position has its line and its column as words, if the size of the source and the number
of lines leave room to count from one. -/
theorem locate_eq {m : LineMap} (hstarts : m.starts.Pairwise (· < ·)) {offset : Nat}
    (hfirst : 0 < reached m.starts (min offset m.size)) (hlength : m.starts.length < word)
    (hsize : m.size + 1 < word) :
    locate word m.starts (min offset m.size) = .ok (m.positionAt offset) := by
  obtain ⟨start, hstart, hlast, hle⟩ := exists_last_reached hstarts hfirst
  have hline : add word (reached m.starts (min offset m.size) - 1) 1 =
      .ok (reached m.starts (min offset m.size)) := by
    have hreached := reached_le m.starts (min offset m.size)
    rw [add_eq (by omega), Nat.sub_add_cancel hfirst]
  have hcolumn : add word (min offset m.size - start) 1 = .ok (min offset m.size - start + 1) :=
    add_eq (by omega)
  simp only [locate, lineOf_eq hstarts hfirst, index_eq hstart, sub_eq hle, hline, hcolumn, ok_bind,
    pure_eq_ok, LineMap.positionAt, hlast, Option.getD_some]
  rfl

/-- Every offset has a position, also one past the end. -/
theorem positionAt_eq {source : Bytes} (hsource : source.length + 1 < word) (offset : Nat) :
    positionAt word source offset = .ok ((LineMap.ofSource source).positionAt offset) := by
  have hlength : (LineMap.ofSource source).starts.length ≤ source.length + 1 :=
    Nat.succ_le_succ ((length_breaks 0 source).trans_le List.count_le_length)
  rw [positionAt, breaks_eq (by omega), ok_bind]
  refine locate_eq (m := .ofSource source) (pairwise_starts source) ?_ (by omega) hsource
  exact (lt_reached_iff (pairwise_starts source) rfl).2 (Nat.zero_le _)

end Lines

section Outcomes

variable (word : Nat) (limits : Limits) (prefs : GrammarPreferences) (source : Bytes)

/-- What an error says was found: the text of a token in quotes, or the end. -/
def found : Option Token → Except Panic String
  | some t => return "'" ++ (← slice t.span source).display ++ "'"
  | none => return RecognitionError.endOfInput

/-- The report on a rejection at a token, or at the end. -/
def rejectionEvent (t : Option Token) (e : RecognitionError) : Except Panic Event := do
  if prefs.logRejections then
    let code := match t with
      | some t => if t.kind = .invalid then Code.invalidByte else e.code
      | none => e.code
    let place ← match t with
      | some t => pure t.span
      | none => span e.offset e.offset
    return ((Event.error limits code "Input rejected").atSpan place).withValues
      [("position", e.position.text), ("error", e.message)]
  else return (Event.debug limits "Input rejected").withValue "offset" (toString e.offset)

/-- What is said about a source after it has been read, and how it is reported. -/
def outcome (accepted : Bool) (x : Store) : Except Panic Recognition := do
  if accepted then
    let globals ← index x.scopes.reverse 0
    let event := (Event.success limits .accepted "Input accepted").withValues
      [("bytes", toString x.source.length), ("global_symbols", toString globals.length)]
    return ⟨.ok (), [event]⟩
  else
    let position ← positionAt word x.source x.position
    if x.exceeded then return ⟨.error (.tooDeep x.position position limits.maxDepth), []⟩
    else
      let e := RecognitionError.rejected x.position position (← found x.source x.current)
      return ⟨.error e, [← rejectionEvent limits prefs x.current e]⟩

/-- Read a source as a program. -/
def read : Part (Except Panic (Bool × Store)) :=
  match Store.opening word source with
  | .error e => Part.some (.error e)
  | .ok x => x.parseProgram word limits.maxDepth prefs

/-- Whether a source is a program under the default preferences. -/
def parses : Part (Except Panic Bool) :=
  (read word limits {} source).map fun ended => return (← ended).1

/-- Recognize a source. -/
def recognize : Part (Except Panic Recognition) :=
  (read word limits prefs source).map fun ended => do
    let (accepted, x) ← ended
    outcome word limits prefs accepted x

variable {word source}

theorem rejectionEvent_eq (x : Option Lexeme) (e : RecognitionError) :
    rejectionEvent limits prefs (x.map Lexeme.token) e =
      .ok (Recognition.rejectionEvent limits prefs x e) := by
  unfold rejectionEvent Recognition.rejectionEvent
  split
  · cases x with
    | none => simp [span, Span.between_self, Except.mapError]
    | some x => rfl
  · rfl

theorem found_eq {x : Option Lexeme} (h : ∀ z ∈ x, z.Placed source) :
    found source (x.map Lexeme.token) = .ok (Recognizer.found x) := by
  cases x with
  | none => rfl
  | some z =>
    have hslice : slice z.token.span source = .ok z.text := slice_eq (h z rfl).text
    rw [Option.map_some, found, hslice]
    rfl

/-- The global scope is the last one. -/
theorem index_scopes (t : SymbolTable) : index t.scopes.reverse 0 = .ok t.globals := by
  refine index_eq ?_
  rw [← List.head?_eq_getElem?, List.head?_reverse, SymbolTable.scopes, List.getLast?_cons]
  rfl

/-- What is said about a source follows from the state in which its declarations end. -/
theorem outcome_eq (hsource : source.length + 1 < word) {depth scopes : Nat} {s : State}
    {x : Store} (h : Represents source depth scopes s x) :
    outcome word limits prefs (s.rest.isEmpty && s.overflow.isNone) x =
      .ok ⟨Recognition.verdict limits source s, Recognition.remark limits prefs source s⟩ := by
  have hposition := positionAt_eq hsource s.position
  have hfound : found source (s.rest.head?.map Lexeme.token) =
      .ok (Recognizer.found s.rest.head?) := by
    refine found_eq fun z hz => ?_
    obtain ⟨zs, hrest⟩ := List.head?_eq_some_iff.1 hz
    exact (h.anchored.head hrest).2.1
  simp only [outcome, h.source_eq, h.scopes_eq, h.current_eq, h.exceeded_eq, h.position_eq,
    index_scopes, hposition, hfound, rejectionEvent_eq, ok_bind, pure_eq_ok, Recognition.verdict,
    Recognition.remark]
  cases s.overflow with
  | some o => simp
  | none => cases s.rest <;> simp

theorem read_eq (hsource : source.length < word) (hlimit : limits.maxDepth < word) :
    ∃ x, read word limits prefs source =
        Part.some (.ok ((Parser.new limits prefs source).parseProgram.1, x)) ∧
      Represents source 0 0 (Parser.new limits prefs source).parseProgram.2.state x := by
  obtain ⟨x, hopening, hx⟩ := Store.opening_eq hsource
  rw [read, hopening]
  exact Store.parseProgram_eq hsource hlimit prefs hx.source_eq

theorem parses_eq (hsource : source.length < word) (hlimit : limits.maxDepth < word) :
    parses word limits source = Part.some (.ok (Recognizer.parses limits source)) := by
  obtain ⟨x, hread, -⟩ := read_eq limits {} hsource hlimit
  rw [parses, hread, Part.map_some]
  rfl

/-- The recognition of a source does not stop, and gives its result and its last events. -/
theorem recognize_eq (hsource : source.length + 1 < word) (hlimit : limits.maxDepth < word) :
    recognize word limits prefs source =
      Part.some (.ok ⟨(Recognition.ofSource limits prefs source).result,
        Recognition.remark limits prefs source
          (Parser.new limits prefs source).parseProgram.2.state⟩) := by
  obtain ⟨x, hread, hx⟩ := read_eq limits prefs (Nat.lt_of_succ_lt hsource) hlimit
  have houtcome := outcome_eq limits prefs hsource hx
  rw [Recognition.result_eq_verdict, recognize, hread, Part.map_some, ok_bind, ← houtcome,
    Parser.answer_parseProgram, Parser.state_parseProgram]

/-- The tokens at and behind every offset cover bytes of the source. -/
theorem slice_of_mem {offset : Nat} {x : Lexeme} (h : x ∈ Lexeme.scanFrom source offset) :
    slice x.span source = .ok x.text ∧ length x.span = .ok x.text.length := by
  have hplaced := Lexeme.placed_of_mem h
  exact ⟨slice_eq hplaced.text, (sub_eq hplaced.nonempty.le).trans
    (congrArg Except.ok (Nat.add_sub_cancel_left ..))⟩

end Outcomes

/-- No checked operation stops, on any bytes and under any preferences, when the bytes can be
counted in words and so can the productions that the depth guard lets in. A source is
parsed and recognized with the answers that belong to it; the same parser reads it a second
time; and at every offset, inside a token or past the end, there is a token or the end, with
its bytes, its length and its position. -/
theorem recognition_never_panics (limits : Limits) (prefs : GrammarPreferences) (source : Bytes)
    {word : Nat} (hsource : source.length + 1 < word) (hlimit : limits.maxDepth < word) :
    parses word limits source = Part.some (.ok (Recognizer.parses limits source)) ∧
    (∃ events, recognize word limits prefs source =
        Part.some (.ok ⟨(Recognition.ofSource limits prefs source).result, events⟩) ∧
      events <:+ (Recognition.ofSource limits prefs source).events) ∧
    (∃ x y, read word limits prefs source =
        Part.some (.ok ((Parser.new limits prefs source).parseProgram.1, x)) ∧
      x.parseProgram word limits.maxDepth prefs =
        Part.some (.ok ((Parser.new limits prefs source).parseProgram.1, y))) ∧
    ∀ offset,
      scanToken word source offset =
        .ok ((Scanner.resumeAt source offset).current?.map Lexeme.token) ∧
      significantAt word source offset =
        .ok ((Lexeme.significantFrom source offset).head?.map Lexeme.token) ∧
      positionAt word source offset = .ok ((LineMap.ofSource source).positionAt offset) ∧
      ∀ x ∈ Lexeme.scanFrom source offset,
        slice x.span source = .ok x.text ∧ length x.span = .ok x.text.length := by
  have hword : source.length < word := Nat.lt_of_succ_lt hsource
  refine ⟨parses_eq limits hword hlimit, ?_, ?_, fun offset => ⟨?_, significantAt_eq hword offset,
    positionAt_eq hsource offset, fun _ => slice_of_mem⟩⟩
  · refine ⟨_, recognize_eq limits prefs hsource hlimit, ?_⟩
    rw [Recognition.events_eq_remark]
    exact List.suffix_append ..
  · obtain ⟨x, hread, hx⟩ := read_eq limits prefs hword hlimit
    obtain ⟨y, hagain, -⟩ := Store.parseProgram_eq hword hlimit prefs hx.source_eq
    exact ⟨x, y, hread, hagain⟩
  · rw [scanToken_eq hword, Scanner.resumeAt, Scanner.read]
    cases Lexeme.next? offset (source.drop offset) <;> rfl

/-- A byte that is no character, on the second line. -/
def foreign : Bytes := Bytes.ofAscii "void f();\n ".toList ++ [0x80, 0x2F]

/-- It is quoted in the rejection. Inside the first token there is a token, and past the end
there is the end. -/
theorem recognition_never_panics_foreign :
    foreign.length + 1 < UInt64.size ∧ Limits.development.maxDepth < UInt64.size ∧
    (∃ events, recognize UInt64.size .development {} foreign =
      Part.some (.ok ⟨.error (.rejected 11 ⟨11, 2, 2⟩ "'\uFFFD'"), events⟩)) ∧
    scanToken UInt64.size foreign 2 = .ok (some ⟨.identifier, ⟨2, 4⟩⟩) ∧
    significantAt UInt64.size foreign 20 = .ok none ∧
    positionAt UInt64.size foreign 20 = .ok ⟨13, 2, 4⟩ := by
  have hsource : foreign.length + 1 < UInt64.size := by decide
  have hlimit : Limits.development.maxDepth < UInt64.size := by decide
  have hresult : (Recognition.ofSource .development {} foreign).result =
      .error (.rejected 11 ⟨11, 2, 2⟩ "'\uFFFD'") := by decide +kernel
  obtain ⟨-, ⟨events, hrecognize, -⟩, -, htokens⟩ :=
    recognition_never_panics .development {} foreign hsource hlimit
  rw [hresult] at hrecognize
  obtain ⟨hidentifier, -⟩ := htokens 2
  obtain ⟨-, hend, hposition, -⟩ := htokens 20
  exact ⟨hsource, hlimit, ⟨events, hrecognize⟩, hidentifier, hend, hposition⟩

end Checked
end Recognizer
