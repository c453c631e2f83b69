import Recognizer.Log.Event

/-!
# Memory logs

A memory log keeps the newest events up to a fixed number and drops the oldest
first. It is a queue of two lists, so that recording an event takes constant
time on average.
-/
namespace Recognizer

/-- The kept events: the oldest in order, then the newest in reverse. -/
structure MemoryLog where
  oldest : List Event := []
  newest : List Event := []
  /-- The number of kept events. -/
  size : Nat := 0
  deriving DecidableEq, Repr

namespace MemoryLog

/-- The log without events. -/
def empty : MemoryLog := {}

/-- The kept events in the order in which they were recorded. -/
def toList (m : MemoryLog) : List Event := m.oldest ++ m.newest.reverse

/-- Drop the oldest event. -/
def dropOldest (m : MemoryLog) : MemoryLog :=
  match m.oldest with
  | _ :: oldest => ⟨oldest, m.newest, m.size - 1⟩
  | [] => ⟨m.newest.reverse.tail, [], m.size - 1⟩

/-- Add an event behind all others. -/
def push (m : MemoryLog) (e : Event) : MemoryLog := ⟨m.oldest, e :: m.newest, m.size + 1⟩

/-- Record an event in a log that keeps at most `capacity` events. -/
def record (capacity : Nat) (m : MemoryLog) (e : Event) : MemoryLog :=
  if capacity ≤ m.size then m.dropOldest.push e else m.push e

/-- The errors among the kept events. -/
def errors (m : MemoryLog) : List Event := m.toList.filter Event.isError

/-- The kept events with a code. -/
def withCode (m : MemoryLog) (code : Code) : List Event :=
  m.toList.filter fun e => e.code == code

/-- Whether an error with the code is kept. -/
def hasError (m : MemoryLog) (code : Code) : Bool :=
  m.toList.any fun e => e.level == .error && e.code == code

/-- Whether a note with the code is kept. -/
def hasSuccess (m : MemoryLog) (code : Code) : Bool :=
  m.toList.any fun e => e.level == .info && e.code == code

/-- The number of kept events of a level. -/
def countLevel (m : MemoryLog) (level : Level) : Nat :=
  m.toList.countP fun e => e.level == level

@[simp] theorem toList_empty : empty.toList = [] := rfl

@[simp] theorem toList_push (m : MemoryLog) (e : Event) :
    (m.push e).toList = m.toList ++ [e] := by
  simp [toList, push]

@[simp] theorem toList_dropOldest (m : MemoryLog) :
    m.dropOldest.toList = m.toList.tail := by
  obtain ⟨oldest, newest, size⟩ := m
  cases oldest <;> simp [toList, dropOldest]

end MemoryLog
end Recognizer
