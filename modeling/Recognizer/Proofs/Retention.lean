import Mathlib.Data.List.DropRight
import Mathlib.Data.List.Induction
import Recognizer.Limits.Build
import Recognizer.Log.Service

/-!
# What a memory log keeps

A memory log behind a threshold keeps the newest events that were let through since it was
cleared last, as many of them as it has room for. Which events were let through is told by the
history of the service alone: by the threshold that was set last before an event was logged.
-/
namespace Recognizer

/-- Limits that a build has checked leave room for an event. -/
theorem Limits.bufferSize_pos {profile : String} {limits : Limits}
    (h : limits.validate profile = .ok ()) : 0 < limits.bufferSize := by
  refine Nat.pos_of_ne_zero fun hzero => ?_
  revert h
  simp only [validate, hzero, if_true]
  split_ifs <;> simp

namespace MemoryLog

variable {capacity : Nat} {m : MemoryLog} {es : List Event}

@[simp] theorem size_push (m : MemoryLog) (e : Event) : (m.push e).size = m.size + 1 := rfl

@[simp] theorem size_dropOldest (m : MemoryLog) : m.dropOldest.size = m.size - 1 := by
  obtain ⟨oldest, newest, size⟩ := m
  cases oldest <;> rfl

/-- To record an event in a plain list: when the list is full, the events that are too many
with one more are drained from its front. -/
def drained (capacity : Nat) (es : List Event) (e : Event) : List Event :=
  (if capacity ≤ es.length then es.drop (es.length - capacity + 1) else es) ++ [e]

/-- The log counts its events and has room for all of them. -/
structure Fits (capacity : Nat) (m : MemoryLog) : Prop where
  size : m.size = m.toList.length
  within : m.size ≤ capacity

namespace Fits

theorem empty (capacity : Nat) : Fits capacity .empty := ⟨rfl, Nat.zero_le _⟩

/-- In a log that has no room to spare, one event is too many. -/
theorem toList_record (h : m.Fits capacity) (e : Event) :
    (m.record capacity e).toList = drained capacity m.toList e := by
  rw [record, drained, ← h.size]
  split
  · next hfull =>
    have hone : m.size - capacity + 1 = 1 := by
      have := h.within
      omega
    rw [toList_push, toList_dropOldest, hone, List.drop_one]
  · rw [toList_push]

theorem size_record (h : m.Fits capacity) (hcapacity : 0 < capacity) (e : Event) :
    (m.record capacity e).size = min (m.size + 1) capacity := by
  have hwithin := h.within
  rw [record]
  split
  · rw [size_push, size_dropOldest]
    omega
  · rw [size_push]
    omega

theorem record (h : m.Fits capacity) (hcapacity : 0 < capacity) (e : Event) :
    (m.record capacity e).Fits capacity where
  size := by
    have hsize := h.size
    have hwithin := h.within
    rw [h.size_record hcapacity, h.toList_record, drained, List.length_append,
      List.length_singleton]
    split
    · rw [List.length_drop]
      omega
    · omega
  within := (h.size_record hcapacity e).trans_le (Nat.min_le_right ..)

end Fits

/-- To record an event in the newest ones is to have the newest ones with it. -/
theorem drained_rtake (hcapacity : 0 < capacity) (es : List Event) (e : Event) :
    drained capacity (es.rtake capacity) e = (es ++ [e]).rtake capacity := by
  obtain ⟨n, rfl⟩ : ∃ n, capacity = n + 1 := Nat.exists_eq_add_one.2 hcapacity
  rw [List.rtake_concat_succ, drained, List.rtake, List.rtake, List.length_drop]
  split
  · next hfull =>
    rw [List.drop_drop]
    congr 2
    omega
  · next hroom =>
    have hzero : es.length - (n + 1) = 0 ∧ es.length - n = 0 := by omega
    rw [hzero.1, hzero.2]

/-- Recording the events one by one leaves the newest. -/
theorem foldl_drained (hcapacity : 0 < capacity) (es : List Event) :
    es.foldl (drained capacity) [] = es.rtake capacity := by
  induction es using List.reverseRecOn with
  | nil => exact (List.rtake_nil _).symm
  | append_singleton es e ih => rw [List.foldl_concat, ih, drained_rtake hcapacity]

theorem rtake_min (n : Nat) (es : List Event) : es.rtake (min es.length n) = es.rtake n := by
  rw [List.rtake, List.rtake]
  congr 1
  omega

theorem length_rtake (n : Nat) (es : List Event) : (es.rtake n).length = min es.length n := by
  rw [List.rtake, List.length_drop]
  omega

/-- Every event has one of the levels. -/
theorem sum_countP_level (es : List Event) :
    es.countP (·.level = .error) + es.countP (·.level = .warning) +
      es.countP (·.level = .info) + es.countP (·.level = .debug) = es.length := by
  induction es with
  | nil => rfl
  | cons e es ih =>
    simp only [List.countP_cons, List.length_cons, ← ih]
    cases e.level <;> simp <;> omega

end MemoryLog

namespace Service

/-- What can be asked of a service that keeps events in memory. -/
inductive Operation where
  | log (e : Event)
  | setThreshold (level : Level)
  | clear
  deriving DecidableEq, Repr

/-- The threshold that an operation sets. -/
def Operation.threshold? : Operation → Option Level
  | setThreshold level => some level
  | log _ | clear => none

/-- A service and its memory log after an operation. -/
def perform (limits : Limits) (s : Service × MemoryLog) : Operation → Service × MemoryLog
  | .log e => (s.1, (s.1.log limits s.2 e).1)
  | .setThreshold level => ({ s.1 with threshold := level }, s.2)
  | .clear => (s.1, .empty)

/-- A service with an empty memory log after operations, the oldest first. -/
def run (limits : Limits) (start : Level) (h : List Operation) : Service × MemoryLog :=
  h.foldl (perform limits) (⟨.memory, start⟩, .empty)

/-- The threshold that was set last, or the one at the start. -/
def inForce (start : Level) (h : List Operation) : Level :=
  (h.filterMap Operation.threshold?).getLast?.getD start

/-- The event that an operation of the history logs, if the threshold in force then lets it
through and the log is not cleared afterwards. -/
def admittedAt? (start : Level) (h : List Operation) (i : Nat) : Option Event :=
  match h[i]? with
  | some (.log e) =>
    if e.level.rank ≤ (inForce start (h.take i)).rank ∧ .clear ∉ h.drop i then some e else none
  | _ => none

/-- The events that were let through since the log was cleared last, in the order in which they
were logged. -/
def admitted (start : Level) (h : List Operation) : List Event :=
  (List.range h.length).filterMap (admittedAt? start h)

variable {limits : Limits} {start : Level} {h : List Operation}

@[simp] theorem inForce_log (start : Level) (h : List Operation) (e : Event) :
    inForce start (h ++ [.log e]) = inForce start h := by
  simp [inForce, Operation.threshold?]

@[simp] theorem inForce_clear (start : Level) (h : List Operation) :
    inForce start (h ++ [.clear]) = inForce start h := by
  simp [inForce, Operation.threshold?]

@[simp] theorem inForce_setThreshold (start : Level) (h : List Operation) (level : Level) :
    inForce start (h ++ [.setThreshold level]) = level := by
  simp [inForce, Operation.threshold?]

/-- An event that was let through stays so until the log is cleared. -/
theorem admittedAt?_concat_of_lt {i : Nat} (hi : i < h.length) (op : Operation) :
    admittedAt? start (h ++ [op]) i = if op = .clear then none else admittedAt? start h i := by
  rw [admittedAt?, admittedAt?, List.getElem?_append_left hi,
    List.take_append_of_le_length hi.le, List.drop_append_of_le_length hi.le]
  by_cases hop : op = .clear
  · subst hop
    split <;> simp
  · have hclear : .clear ∉ h.drop i ++ [op] ↔ .clear ∉ h.drop i := by
      simp [Ne.symm hop]
    simp only [hclear, if_neg hop]

/-- The last operation is judged by the threshold in force before it. -/
theorem admittedAt?_concat_length (op : Operation) :
    admittedAt? start (h ++ [op]) h.length = match op with
      | .log e => if e.level.rank ≤ (inForce start h).rank then some e else none
      | _ => none := by
  rw [admittedAt?, List.getElem?_concat_length, List.take_left, List.drop_left]
  cases op <;> simp

/-- An operation adds the event that it logs, if that is let through, and a cleared log has
nothing to keep. -/
theorem admitted_concat (op : Operation) :
    admitted start (h ++ [op]) = match op with
      | .log e => admitted start h ++ if e.level.rank ≤ (inForce start h).rank then [e] else []
      | .setThreshold _ => admitted start h
      | .clear => [] := by
  have hbefore : (List.range h.length).filterMap (admittedAt? start (h ++ [op])) =
      if op = .clear then [] else admitted start h := by
    rw [List.filterMap_congr fun i hi => admittedAt?_concat_of_lt (List.mem_range.1 hi) op]
    split
    · simp
    · rfl
  rw [admitted, List.length_append, List.length_singleton, List.range_succ,
    List.filterMap_append, hbefore, List.filterMap_cons, admittedAt?_concat_length]
  cases op with
  | log e => by_cases he : e.level.rank ≤ (inForce start h).rank <;> simp [he]
  | setThreshold level => simp
  | clear => simp

/-- The service has the threshold in force, and its log keeps the newest of the events that
were let through. -/
structure Keeps (limits : Limits) (start : Level) (h : List Operation)
    (s : Service × MemoryLog) : Prop where
  service : s.1 = ⟨.memory, inForce start h⟩
  newest : s.2.toList = (admitted start h).rtake limits.bufferSize
  fits : s.2.Fits limits.bufferSize

namespace Keeps

variable {s : Service × MemoryLog}

theorem fresh (limits : Limits) (start : Level) :
    Keeps limits start [] (⟨.memory, start⟩, .empty) where
  service := rfl
  newest := (List.rtake_nil _).symm
  fits := .empty _

/-- Every operation keeps the service in step with its history. -/
theorem perform (hs : Keeps limits start h s) (hcapacity : 0 < limits.bufferSize)
    (op : Operation) : Keeps limits start (h ++ [op]) (perform limits s op) := by
  obtain ⟨service, m⟩ := s
  obtain ⟨rfl, hnewest, hfits⟩ := hs
  cases op with
  | setThreshold level =>
    refine ⟨?_, ?_, hfits⟩
    · rw [inForce_setThreshold]
      rfl
    · rw [admitted_concat]
      exact hnewest
  | clear =>
    refine ⟨?_, ?_, .empty _⟩
    · rw [inForce_clear]
      rfl
    · rw [admitted_concat]
      exact (List.rtake_nil _).symm
  | log e =>
    by_cases he : e.level.rank ≤ (inForce start h).rank
    · have hstep : Service.perform limits (⟨.memory, inForce start h⟩, m) (.log e) =
          (⟨.memory, inForce start h⟩, m.record limits.bufferSize e) := by
        simp [Service.perform, log, lets, Level.passes, he]
      rw [hstep]
      refine ⟨by rw [inForce_log], ?_, hfits.record hcapacity e⟩
      simp only [admitted_concat, if_pos he]
      rw [hfits.toList_record, hnewest, MemoryLog.drained_rtake hcapacity]
    · have hstep : Service.perform limits (⟨.memory, inForce start h⟩, m) (.log e) =
          (⟨.memory, inForce start h⟩, m) := by
        simp [Service.perform, log, lets, Level.passes, he]
      rw [hstep]
      refine ⟨by rw [inForce_log], ?_, hfits⟩
      simp only [admitted_concat, if_neg he, List.append_nil]
      exact hnewest

end Keeps

/-- After any operations the service is in step with its history. -/
theorem keeps_run (hcapacity : 0 < limits.bufferSize) (start : Level) (h : List Operation) :
    Keeps limits start h (run limits start h) := by
  induction h using List.reverseRecOn with
  | nil => exact .fresh limits start
  | append_singleton h op ih =>
    rw [run, List.foldl_append]
    exact ih.perform hcapacity op

/-- A memory log keeps the newest of the events that were logged since it was cleared last and
that the threshold in force at the time let through: all of them in order, or as many of the
last ones as there is room for. It counts what it keeps, its counts by level add up to that, and
the errors and the events with a code are the kept ones of that kind in the same order. Draining
a plain list before each event leaves the same. Every build leaves room for an event. -/
theorem memory_keeps_newest (hcapacity : 0 < limits.bufferSize) (start : Level)
    (h : List Operation) :
    let k := (admitted start h).length
    let newest := (admitted start h).rtake (min k limits.bufferSize)
    let m := (run limits start h).2
    m.toList = newest ∧
    newest = (admitted start h).foldl (MemoryLog.drained limits.bufferSize) [] ∧
    (m.size = newest.length ∧ m.size = min k limits.bufferSize ∧ m.size ≤ limits.bufferSize) ∧
    ((∀ level, m.countLevel level = newest.countP (·.level = level)) ∧
      m.countLevel .error + m.countLevel .warning + m.countLevel .info + m.countLevel .debug =
        m.size) ∧
    m.errors = newest.filter (·.level = .error) ∧
    ∀ code, m.withCode code = newest.filter (·.code = code) := by
  intro k newest m
  obtain ⟨-, hkept, hfits⟩ := keeps_run hcapacity start h
  have hnewest : m.toList = newest := hkept.trans (MemoryLog.rtake_min ..).symm
  have hsize : m.size = newest.length := hnewest ▸ hfits.size
  have hlength : newest.length = min k limits.bufferSize := by
    rw [MemoryLog.length_rtake]
    omega
  have hcount (level : Level) : m.countLevel level = newest.countP (·.level = level) := by
    rw [MemoryLog.countLevel, hnewest]
    exact List.countP_congr fun e _ => by simp
  refine ⟨hnewest, ?_, ⟨hsize, hsize.trans hlength, hfits.within⟩, ⟨hcount, ?_⟩, ?_, fun code => ?_⟩
  · rw [MemoryLog.foldl_drained hcapacity]
    exact MemoryLog.rtake_min ..
  · simp only [hcount, MemoryLog.sum_countP_level, hsize]
  · rw [MemoryLog.errors, hnewest]
    exact List.filter_congr fun e _ => beq_eq_decide ..
  · rw [MemoryLog.withCode, hnewest]
    exact List.filter_congr fun e _ => beq_eq_decide ..

/-- Limits with room for two events. -/
def narrow : Limits := { Limits.development with bufferSize := 2 }

/-- Events before and after the log is cleared, under a threshold that is raised meanwhile. -/
def changing : List Operation :=
  [.log (.warning narrow "early"), .clear, .log (.warning narrow "first"),
    .log (.debug narrow "low"), .log (.error narrow .internalError "second"),
    .setThreshold .error, .log (.warning narrow "late"),
    .log (.error narrow .invalidByte "third")]

/-- Three events are let through, of which the log keeps two. -/
theorem memory_keeps_newest_changing : narrow.validate "development" = .ok () ∧
    admitted .info changing = [.warning narrow "first", .error narrow .internalError "second",
      .error narrow .invalidByte "third"] ∧
    (run narrow .info changing).2.toList = [.error narrow .internalError "second",
      .error narrow .invalidByte "third"] ∧
    (run narrow .info changing).2.size = 2 := by
  have hchecked : narrow.validate "development" = .ok () := by decide
  have hadmitted : admitted .info changing = [.warning narrow "first",
      .error narrow .internalError "second", .error narrow .invalidByte "third"] := rfl
  obtain ⟨hkept, -, ⟨-, hsize, -⟩, -⟩ :=
    memory_keeps_newest (Limits.bufferSize_pos hchecked) .info changing
  rw [hadmitted] at hkept hsize
  exact ⟨hchecked, hadmitted, hkept, hsize⟩

end Service
end Recognizer
