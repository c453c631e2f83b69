import Mathlib.Data.List.TakeWhile
import Recognizer.Source.Position

/-!
# The lines of a source

Lines start one after another, the first one at zero. So the lines that start at or before an
offset are the first ones of the list, and the last of these is the one in which the offset
lies.
-/
namespace Recognizer

namespace LineMap

variable {o a : Nat} {bytes : Bytes}

theorem lt_of_mem_breaks (h : a ∈ breaks o bytes) : o < a := by
  induction bytes generalizing o with
  | nil => cases h
  | cons b bs ih =>
    rw [breaks] at h
    split at h
    · rcases List.mem_cons.1 h with rfl | h
      · exact Nat.lt_succ_self o
      · exact Nat.lt_of_succ_lt (ih h)
    · exact Nat.lt_of_succ_lt (ih h)

theorem pairwise_breaks (o : Nat) (bytes : Bytes) : (breaks o bytes).Pairwise (· < ·) := by
  induction bytes generalizing o with
  | nil => exact .nil
  | cons b bs ih =>
    rw [breaks]
    split
    · exact .cons (fun _ h => lt_of_mem_breaks h) (ih (o + 1))
    · exact ih (o + 1)

/-- Lines start one after another. -/
theorem pairwise_starts (source : Bytes) : (ofSource source).starts.Pairwise (· < ·) :=
  .cons (fun _ h => lt_of_mem_breaks h) (pairwise_breaks 0 source)

/-- The number of lines that start at or before an offset. -/
def reached (starts : List Nat) (offset : Nat) : Nat := (starts.takeWhile (· ≤ offset)).length

theorem reached_le (starts : List Nat) (offset : Nat) : reached starts offset ≤ starts.length :=
  (List.takeWhile_sublist _).length_le

/-- Counted from zero, the lines that are reached are those that start at or before the offset. -/
theorem lt_reached_iff {starts : List Nat} (h : starts.Pairwise (· < ·)) {i : Nat}
    (ha : starts[i]? = some a) : i < reached starts o ↔ a ≤ o := by
  induction starts generalizing i with
  | nil => cases ha
  | cons first starts ih =>
    obtain ⟨hfirst, hstarts⟩ := List.pairwise_cons.1 h
    by_cases hle : first ≤ o
    · rw [reached, List.takeWhile_cons_of_pos (by simpa using hle), List.length_cons]
      cases i with
      | zero =>
        obtain rfl := Option.some.inj ha
        exact ⟨fun _ => hle, fun _ => Nat.succ_pos _⟩
      | succ i => exact Nat.succ_lt_succ_iff.trans (ih hstarts ha)
    · rw [reached, List.takeWhile_cons_of_neg (by simpa using hle)]
      have hbehind : first ≤ a := by
        cases i with
        | zero => exact (Option.some.inj ha).le
        | succ i => exact (hfirst a (List.mem_of_getElem? ha)).le
      simp only [List.length_nil, Nat.not_lt_zero, false_iff]
      omega

/-- The line that starts at an offset is the last one that is reached. -/
theorem reached_eq {starts : List Nat} (h : starts.Pairwise (· < ·)) {i : Nat}
    (ha : starts[i]? = some a) : reached starts a = i + 1 := by
  have hreached := (lt_reached_iff h ha).2 (Nat.le_refl a)
  refine Nat.le_antisymm (Nat.le_of_not_lt fun hnext => ?_) hreached
  obtain ⟨hi, rfl⟩ := List.getElem?_eq_some_iff.1 ha
  have hlength : i + 1 < starts.length := hnext.trans_le (reached_le ..)
  have hle := (lt_reached_iff h (List.getElem?_eq_getElem hlength)).1 hnext
  have hlt := List.pairwise_iff_getElem.1 h i (i + 1) hi hlength (Nat.lt_succ_self i)
  omega

/-- The last line that is reached starts at or before the offset. -/
theorem exists_last_reached {starts : List Nat} (h : starts.Pairwise (· < ·))
    (hfirst : 0 < reached starts o) : ∃ start, starts[reached starts o - 1]? = some start ∧
      (starts.takeWhile (· ≤ o)).getLast? = some start ∧ start ≤ o := by
  have hlast : reached starts o - 1 < (starts.takeWhile (· ≤ o)).length :=
    Nat.sub_lt hfirst Nat.one_pos
  have hstart := List.prefix_iff_getElem?.1 (List.takeWhile_prefix (· ≤ o)) _ hlast
  refine ⟨_, hstart, ?_, (lt_reached_iff h hstart).1 hlast⟩
  rw [List.getLast?_eq_getElem?]
  exact List.getElem?_eq_getElem hlast

end LineMap

end Recognizer
