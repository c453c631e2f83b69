import Recognizer.Proofs.Resumption

/-!
# Scans meet at line feeds

A scanner may be put on any byte, and what it reads at first need not be what the source has
there: the middle of a comment becomes names, pairs of operators are split otherwise. It agrees
with the scan of the whole source from the next line feed on, because a line feed is in no
lexeme but its own. So each line may be scanned by itself.
-/
namespace Recognizer

/-- A line feed is in no lexeme but its own. -/
theorem Kind.Form.eq_newline {k : Kind} {text : Bytes} (h : k.Form text) (hc : 10 ∈ text) :
    k = .newline ∧ text = [10] := by
  by_cases hk : k = .comment
  · subst hk
    obtain ⟨line, rfl, hline⟩ := h
    simp [hline] at hc
  · have hline : newline.Spells [10] := ⟨_, rfl, rfl⟩
    obtain ⟨w, hw, rfl⟩ := h.fixed hc hk hline rfl (by decide)
    cases k <;> cases hw <;> revert hc <;> decide

namespace Lexeme

variable {source : Bytes} {offset p : Nat}

/-- Wherever reading begins, it comes to a lexeme at a line feed that follows. -/
theorem suffix_of_newline (hp : source[p]? = some 10) (hoffset : offset ≤ p) :
    scanFrom source p = ⟨.newline, p, [10]⟩ :: scanFrom source (p + 1) ∧
      scanFrom source p <:+ scanFrom source offset := by
  obtain ⟨hlength, -⟩ := List.getElem?_eq_some_iff.1 hp
  obtain ⟨⟨k, start, text⟩, hmem, hcovers⟩ := exists_covers hoffset hlength
  have hplaced := placed_of_mem hmem
  obtain ⟨rfl, rfl⟩ := (fits_of_mem hmem).1.eq_newline (hplaced.mem_text hcovers hp)
  obtain rfl : start = p := Nat.le_antisymm hcovers.1 (Nat.le_of_lt_succ hcovers.2)
  exact ⟨hplaced.again, suffix_of_mem hmem⟩

/-- The last lexemes of a scan, if they are read from an offset on, are those that do not start
before the offset. -/
theorem filter_of_suffix (h : scanFrom source p <:+ scanFrom source offset) :
    (scanFrom source offset).filter (fun x => p ≤ x.start) = scanFrom source p := by
  obtain ⟨before, hscan⟩ := h
  have hbehind : ∀ x ∈ scanFrom source p, p ≤ x.start := fun x hx => start_le_of_mem hx
  have hbefore : ∀ x ∈ before, ¬ p ≤ x.start := by
    intro x hx
    have hmem : x ∈ scanFrom source offset := hscan ▸ List.mem_append_left _ hx
    have hlt := (placed_of_mem hmem).nonempty
    exact Nat.not_le.2 (hlt.trans_le (stop_le_of_append hscan hx))
  rw [← hscan, List.filter_append, List.filter_eq_nil_iff.2 (by simpa using hbefore),
    List.nil_append, List.filter_eq_self.2 (by simpa using hbehind)]

end Lexeme

namespace Cursor

/-- Scans resynchronize at line feeds. Wherever a scanner is put, from a line feed at or behind
its offset on it yields what a scanner at the start of the source yields there: the line feed,
and then what is read behind it. So the lexemes of two texts with a line feed between them are
those of the first text, the line feed, and those of the second text at their new offsets. -/
theorem scans_meet_at_newlines :
    (∀ (source : Bytes) (p offset : Nat), source[p]? = some 10 → offset ≤ p →
      let behind (c : Cursor) := c.toList.filter fun x => p ≤ x.start
      behind (openAt [] source offset) = behind (openAt [] source 0) ∧
      behind (openAt [] source 0) = ⟨.newline, p, [10]⟩ :: (openAt [] source (p + 1)).toList) ∧
    ∀ a b : Bytes, (openAt [] (a ++ 10 :: b) 0).toList = (openAt [] a 0).toList ++
      ⟨.newline, a.length, [10]⟩ :: (openAt [] b 0).toList.map (Lexeme.shift (a.length + 1)) := by
  refine ⟨fun source p offset hp hoffset => ?_, fun a b => ?_⟩
  · obtain ⟨hline, hsuffix⟩ := Lexeme.suffix_of_newline hp hoffset
    have hwhole := (Lexeme.suffix_of_newline hp (Nat.zero_le p)).2
    simpa only [toList_openAt_nil, Lexeme.filter_of_suffix hsuffix,
      Lexeme.filter_of_suffix hwhole, true_and] using hline
  · simp only [toList_openAt_nil]
    exact Lexeme.scan_newline a b

/-- A comment, a line feed and a number, of which the comment is entered between its solidi. -/
theorem scans_meet_at_newlines_comment :
    let source := Bytes.ofAscii "x //a.b\n1.2.3".toList
    source[7]? = some 10 ∧
      (openAt [] source 3).toList.map Lexeme.kind =
        [.slash, .identifier, .dot, .identifier, .newline, .real, .real] ∧
      (openAt [] source 3).toList.filter (fun x => 7 ≤ x.start) =
        (openAt [] source 0).toList.filter (fun x => 7 ≤ x.start) := by
  have hp : (Bytes.ofAscii "x //a.b\n1.2.3".toList)[7]? = some 10 := by decide
  exact ⟨hp, by decide +kernel, (scans_meet_at_newlines.1 _ 7 3 hp (by decide)).1⟩

end Cursor
end Recognizer
