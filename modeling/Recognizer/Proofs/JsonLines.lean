import Recognizer.Log.Service
import Recognizer.Proofs.RoundTrip

/-!
# Events as lines of JSON

A line of JSON holds the event that it is written for. The line is read as the record of the
event, and events with one record agree in all but their times. This needs the named values of an
event in order, each name once, as they are in every context that is built value by value.
-/
namespace Recognizer

namespace Context

/-- The names of a context are in order, and so no name comes twice. -/
def Ordered (c : Context) : Prop := c.Pairwise fun f g => f.1 < g.1

theorem mem_of_mem_set {name value : String} {c : Context} {g : String × String}
    (h : g ∈ c.set name value) : g = (name, value) ∨ g ∈ c := by
  induction c with
  | nil => exact .inl (List.mem_singleton.1 h)
  | cons f c ih =>
    rw [set] at h
    split at h
    · exact (List.mem_cons.1 h).imp_right (List.mem_cons_of_mem f)
    · split at h
      · exact List.mem_cons.1 h
      · rcases List.mem_cons.1 h with rfl | h
        · exact .inr List.mem_cons_self
        · exact (ih h).imp_right (List.mem_cons_of_mem f)

namespace Ordered

theorem nil : Ordered [] := List.Pairwise.nil

/-- Giving a name a value keeps the order. -/
theorem set {c : Context} (hc : c.Ordered) (name value : String) :
    (c.set name value).Ordered := by
  induction c with
  | nil => exact List.pairwise_singleton ..
  | cons f c ih =>
    obtain ⟨hf, hc⟩ := List.pairwise_cons.1 hc
    rw [Context.set]
    split
    · next heq => exact List.pairwise_cons.2 ⟨by simpa [eq_of_beq heq] using hf, hc⟩
    · next hne =>
      split
      · next hlt =>
        refine List.pairwise_cons.2 ⟨fun g hg => ?_, List.pairwise_cons.2 ⟨hf, hc⟩⟩
        rcases List.mem_cons.1 hg with rfl | hg
        · exact hlt
        · exact String.lt_trans hlt (hf g hg)
      · next hle =>
        have hlt : f.1 < name :=
          Std.lt_of_le_of_ne (String.not_lt.1 hle) fun heq => hne (beq_iff_eq.2 heq.symm)
        refine List.pairwise_cons.2 ⟨fun g hg => ?_, ih hc⟩
        rcases mem_of_mem_set hg with rfl | hg
        · exact hlt
        · exact hf g hg

theorem nodup_names {c : Context} (hc : c.Ordered) : (c.map Prod.fst).Nodup :=
  List.pairwise_map.2 (hc.imp Std.ne_of_lt)

end Ordered
end Context

theorem Level.label_injective : Function.Injective Level.label := by
  intro l m h
  cases l <;> cases m <;> first | rfl | exact absurd h (by decide)

section Lines

theorem linesAfter_of_notMem {line cs : List Char} (h : '\n' ∉ cs) :
    linesAfter line cs = [lineOf (cs.reverse ++ line)] := by
  induction cs generalizing line with
  | nil => rfl
  | cons c cs ih =>
    obtain ⟨hc, hcs⟩ := not_or.1 (mt List.mem_cons.2 h)
    rw [linesAfter, if_neg (Ne.symm hc), ih hcs, List.reverse_cons, List.append_assoc]
    rfl

/-- A text without control characters is printed on one line, as it is. -/
theorem printedLines_of_unbroken {text : String} (h : Json.Unbroken text.toList) :
    printedLines text = [text] := by
  have hnone : ∀ c ∈ text.toList, c ≠ '\n' ∧ c ≠ '\r' := fun c hc =>
    ⟨by rintro rfl; exact absurd (h _ hc) (by decide),
      by rintro rfl; exact absurd (h _ hc) (by decide)⟩
  rw [printedLines, linesAfter_of_notMem fun hmem => (hnone _ hmem).1 rfl, List.append_nil, lineOf]
  · rw [List.reverse_reverse, String.ofList_toList]
  · intro line hline
    have hmem : '\r' ∈ text.toList := List.mem_reverse.1 (hline ▸ List.mem_cons_self)
    exact (hnone _ hmem).2 rfl

end Lines

namespace Event

/-- Named values are added in order, whatever the order in which they come. -/
theorem ordered_withValues {e : Event} (he : e.context.Ordered)
    (values : List (String × String)) : (e.withValues values).context.Ordered := by
  induction values generalizing e with
  | nil => exact he
  | cons v vs ih => exact ih (he.set v.1 v.2)

/-- The record of an event names each field once and holds no number but natural ones. -/
theorem plain_datum {e : Event} (he : e.context.Ordered) : e.datum.Plain := by
  have hcontext : (Datum.record (e.context.map fun v => (v.1, .text v.2))).Plain :=
    .record (by simpa [Function.comp_def] using he.nodup_names)
      (List.forall_mem_map.2 fun v _ => .text v.2)
  have hadvice : (Datum.record [("description", .text e.code.description),
      ("recommended_action", .text e.code.action),
      ("recoverable", .bool e.code.isRecoverable)]).Plain :=
    .record (by simp) (by simp [Datum.Plain.text, Datum.Plain.bool])
  have hspan : ∀ s : Span,
      (Datum.record [("end", .natural s.stop), ("start", .natural s.start)]).Plain := fun s =>
    .record (by simp) (by simp [Datum.Plain.natural])
  refine .record ?_ ?_
  · obtain ⟨level, code, message, span, context, time⟩ := e
    cases level <;> cases span <;> cases context <;> simp [isError]
  · simp only [List.forall_mem_append, List.forall_mem_cons]
    refine ⟨⟨⟨⟨⟨⟨.text _, .text _, by simp⟩, ?_⟩, ?_⟩, .text _, .text _, .text _, by simp⟩, ?_⟩,
      .natural _, by simp⟩
    · split <;> simp [hcontext]
    · split <;> simp [hadvice]
    · split <;> simp [hspan]

/-- What a reader of the record finds in it. -/
theorem field?_datum (e : Event) :
    e.datum.field? "level" = some (.text e.level.label) ∧
      e.datum.field? "code" = some (.text e.code.text) ∧
      e.datum.field? "message" = some (.text e.message) ∧
      e.datum.field? "span" =
        e.span.map (fun s => .record [("end", .natural s.stop), ("start", .natural s.start)]) ∧
      e.datum.field? "context" =
        if e.context.isEmpty then none
        else some (.record (e.context.map fun v => (v.1, .text v.2))) := by
  -- Which fields there are depends on these three.
  obtain ⟨level, code, message, span, context, time⟩ := e
  cases level <;> cases span <;> cases context <;> exact ⟨rfl, rfl, rfl, rfl, rfl⟩

/-- Events with one record agree in everything that the record shows. -/
theorem eq_of_datum_eq {e f : Event} (h : e.datum = f.datum) :
    e.level = f.level ∧ e.code = f.code ∧ e.message = f.message ∧ e.span = f.span ∧
      e.context = f.context := by
  obtain ⟨hlevel, hcode, hmessage, hspan, hcontext⟩ := field?_datum e
  obtain ⟨hlevel', hcode', hmessage', hspan', hcontext'⟩ := field?_datum f
  rw [h] at hlevel hcode hmessage hspan hcontext
  refine ⟨?_, ?_, ?_, ?_, ?_⟩
  · have hlabel := Datum.text.inj (Option.some.inj (hlevel.symm.trans hlevel'))
    exact Level.label_injective hlabel
  · have htext := Datum.text.inj (Option.some.inj (hcode.symm.trans hcode'))
    exact congrArg Code.mk htext
  · exact Datum.text.inj (Option.some.inj (hmessage.symm.trans hmessage'))
  · refine Option.map_injective (fun s t hst => ?_) (hspan.symm.trans hspan')
    obtain ⟨hstop, hstart⟩ : s.stop = t.stop ∧ s.start = t.start := by simpa using hst
    exact congrArg₂ Span.mk hstart hstop
  · have hvalues : Function.Injective (fun v : String × String => (v.1, Datum.text v.2)) :=
      fun v w hvw => by simpa [Prod.ext_iff] using hvw
    have hsame := hcontext.symm.trans hcontext'
    split at hsame <;> split at hsame
    · next he hf => rw [List.isEmpty_iff.1 he, List.isEmpty_iff.1 hf]
    · cases hsame
    · cases hsame
    · exact List.map_injective_iff.2 hvalues (Datum.record.inj (Option.some.inj hsame))

theorem unbroken_json {e : Event} (he : e.context.Ordered) : Json.Unbroken e.json.toList := by
  rw [json, Json.line, String.toList_ofList]
  exact Json.unbroken_render (plain_datum he)

/-- A backend that writes JSON fills one line for each event that it lets through. -/
theorem lines_print_structured {e : Event} (he : e.context.Ordered) (threshold : Level) :
    ((Backend.structured threshold).print e).lines = (Backend.structured threshold).print e := by
  have hline : printedLines e.json = [e.json] := printedLines_of_unbroken (unbroken_json he)
  rw [Backend.print]
  split
  · cases h : e.isError <;> simp [Printed.one, Printed.lines, h, hline]
  · rfl

/-- A line of JSON is one line and holds the whole event. No control character is in it, it
is read back as the record of the event, and two events with one line agree in level, code,
message, span and context. -/
theorem json_lossless {e : Event} (he : e.context.Ordered) :
    (∀ c ∈ e.json.toList, 0x20 ≤ c.toNat) ∧
      printedLines e.json = [e.json] ∧
      (∃ fields, e.datum = .record fields ∧ Json.read? e.json = some (.record fields)) ∧
      ∀ f : Event, f.context.Ordered → e.json = f.json →
        e.level = f.level ∧ e.code = f.code ∧ e.message = f.message ∧ e.span = f.span ∧
          e.context = f.context := by
  -- A line that is read back as its record cannot be the line of another record.
  refine ⟨unbroken_json he, printedLines_of_unbroken (unbroken_json he),
    ⟨_, rfl, Json.read?_line (plain_datum he)⟩, fun f hf h => ?_⟩
  exact eq_of_datum_eq (Json.eq_of_line_eq (plain_datum he) (plain_datum hf) h)

/-- An event whose message and values go on as a line of JSON would. -/
def imitation : Event :=
  withValues
    { level := .error, code := .unexpectedToken, message := "int\",\n\"span\":\x7b\x7d" }
    [("found", "\\\"\r\n"), ("expected", "\x7d")]

/-- The event that is imitated. -/
def imitated : Event := { imitation with message := "int", span := some .zero }

/-- The imitation stays on its line, and its line is not the line of the other event. -/
theorem json_lossless_imitation :
    printedLines imitation.json = [imitation.json] ∧
      Json.read? imitation.json = some imitation.datum ∧ imitation.json ≠ imitated.json := by
  have hordered : imitation.context.Ordered := ordered_withValues .nil _
  obtain ⟨-, hline, ⟨fields, hfields, hread⟩, hinj⟩ := json_lossless hordered
  refine ⟨hline, hread.trans (congrArg some hfields.symm), fun h => ?_⟩
  have hspan : imitation.span = imitated.span := (hinj imitated hordered h).2.2.2.1
  exact absurd hspan (by decide)

end Event
end Recognizer
