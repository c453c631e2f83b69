import Recognizer.Log.Event
import Recognizer.Proofs.CheckedScan
import Recognizer.Proofs.Encoding

/-!
# Clipped messages

A long message is clipped at a place in its bytes that is searched backwards from the limit,
byte by byte, until no character is broken there. The search finds such a place within three
steps. What stands before it are the characters that fit, and no more of them do.
-/
namespace Recognizer

/-- A byte that goes on with a character, as all but its first byte do. -/
def continues (b : UInt8) : Bool := 0x80 ≤ b && b < 0xC0

/-- Whether no character is broken at an offset: one begins there, or the text ends. -/
def Bytes.isBoundary (bytes : Bytes) (o : Nat) : Bool :=
  match bytes[o]? with
  | some b => !continues b
  | none => o == bytes.length

namespace Checked

/-- The last place at or before an offset at which no character is broken. There is nothing
before the first byte. -/
def seekBack (bytes : Bytes) : Nat → Except Panic Nat
  | 0 => if bytes.isBoundary 0 then .ok 0 else .error .underflow
  | o + 1 => if bytes.isBoundary (o + 1) then .ok (o + 1) else seekBack bytes o

/-- The bytes of a message, clipped where no character is broken. -/
def clip (limit : Nat) (bytes : Bytes) : Except Panic Bytes :=
  if limit < bytes.length then do
    let front ← slice ⟨0, ← seekBack bytes limit⟩ bytes
    return front ++ Bytes.ofText "..."
  else return bytes

/-- The search ends at the nearest boundary. -/
theorem seekBack_eq {bytes : Bytes} {p o : Nat} (hp : p ≤ o) (hboundary : bytes.isBoundary p = true)
    (hbetween : ∀ q, p < q → q ≤ o → bytes.isBoundary q = false) : seekBack bytes o = .ok p := by
  induction o with
  | zero =>
    obtain rfl := Nat.le_zero.1 hp
    rw [seekBack, if_pos hboundary]
  | succ o ih =>
    rw [seekBack]
    rcases Nat.eq_or_lt_of_le hp with rfl | hlt
    · rw [if_pos hboundary]
    · rw [if_neg (by simp [hbetween (o + 1) hlt (Nat.le_refl _)])]
      exact ih (Nat.le_of_lt_succ hlt) fun q hq ho => hbetween q hq (Nat.le_succ_of_le ho)

end Checked

namespace Bytes

variable {cs : List Char} {c : Char} {o : Nat}

theorem continues_ofNat {n : Nat} (hn : n < 256) :
    continues (UInt8.ofNat n) = true ↔ 0x80 ≤ n ∧ n < 0xC0 := by
  have hnat : (UInt8.ofNat n).toNat = n := UInt8.toNat_ofNat_of_lt' hn
  have h80 : (0x80 : UInt8).toNat = 0x80 := rfl
  have hC0 : (0xC0 : UInt8).toNat = 0xC0 := rfl
  rw [continues, Bool.and_eq_true, decide_eq_true_iff, decide_eq_true_iff, UInt8.le_iff_toNat_le,
    UInt8.lt_iff_toNat_lt, hnat, h80, hC0]

/-- Of the bytes of a character the first one begins it and the others go on with it. -/
theorem exists_utf8EncodeChar (c : Char) : ∃ b bs, String.utf8EncodeChar c = b :: bs ∧
    continues b = false ∧ ∀ x ∈ bs, continues x = true := by
  have lead {n : Nat} (hn : n < 256) (h : n < 0x80 ∨ 0xC0 ≤ n) :
      continues (UInt8.ofNat n) = false := by
    rw [Bool.eq_false_iff, ne_eq, continues_ofNat hn]
    omega
  have further (n : Nat) : continues (UInt8.ofNat (n % 0x40 + 0x80)) = true :=
    (continues_ofNat (by omega)).2 (by omega)
  unfold String.utf8EncodeChar
  generalize c.val.toNat = v
  dsimp only
  split
  · exact ⟨_, _, rfl, lead (by omega) (by omega), by simp⟩
  · split
    · exact ⟨_, _, rfl, lead (by omega) (by omega), by simp [further, -UInt8.ofNat_add]⟩
    · split <;> exact ⟨_, _, rfl, lead (by omega) (by omega), by simp [further, -UInt8.ofNat_add]⟩

/-- Inside a character there is no boundary. -/
theorem isBoundary_encode_cons_of_lt (hfirst : 0 < o) (ho : o < c.utf8Size) :
    isBoundary (encode (c :: cs)) o = false := by
  obtain ⟨b, bs, hbytes, -, hbs⟩ := exists_utf8EncodeChar c
  have hlength := String.length_utf8EncodeChar c
  rw [hbytes, List.length_cons] at hlength
  obtain ⟨n, rfl⟩ : ∃ n, o = n + 1 := Nat.exists_eq_add_one.2 hfirst
  have hn : n < bs.length := by omega
  rw [isBoundary, encode_cons, hbytes, List.cons_append, List.getElem?_cons_succ,
    List.getElem?_append_left hn, List.getElem?_eq_getElem hn]
  simp [hbs]

/-- Behind a character the boundaries are those of the rest. -/
theorem isBoundary_encode_cons_add (c : Char) (cs : List Char) (o : Nat) :
    isBoundary (encode (c :: cs)) (c.utf8Size + o) = isBoundary (encode cs) o := by
  have hlength := String.length_utf8EncodeChar c
  rw [isBoundary, isBoundary, length_encode_cons, encode_cons,
    List.getElem?_append_right (by omega), hlength, Nat.add_sub_cancel_left]
  cases (encode cs)[o]? with
  | some b => rfl
  | none => simp

theorem isBoundary_encode_zero (cs : List Char) : isBoundary (encode cs) 0 = true := by
  cases cs with
  | nil => rfl
  | cons c cs =>
    obtain ⟨b, bs, hbytes, hb, -⟩ := exists_utf8EncodeChar c
    simp [isBoundary, encode_cons, hbytes, hb]

/-- The characters that fit end at a boundary. -/
theorem isBoundary_fitting (room : Nat) (cs : List Char) :
    isBoundary (encode cs) (encode (fitting room cs)).length = true := by
  induction cs generalizing room with
  | nil => rfl
  | cons c cs ih =>
    rw [fitting]
    split
    · rw [length_encode_cons, isBoundary_encode_cons_add]
      exact ih _
    · exact isBoundary_encode_zero _

/-- There is no boundary between the end of what fits and the end of the room. -/
theorem isBoundary_of_fitting_lt {room q : Nat} (hq : (encode (fitting room cs)).length < q)
    (hroom : q ≤ room) : isBoundary (encode cs) q = false := by
  induction cs generalizing room q with
  | nil =>
    have hq : 0 < q := hq
    simp [isBoundary, encode, hq.ne']
  | cons c cs ih =>
    rw [fitting] at hq
    split at hq
    · rw [length_encode_cons] at hq
      obtain ⟨p, rfl⟩ := Nat.exists_eq_add_of_le (show c.utf8Size ≤ q by omega)
      rw [isBoundary_encode_cons_add]
      have hrest : (encode (fitting (room - c.utf8Size) cs)).length < p := by omega
      exact ih hrest (by omega)
    · have hq : 0 < q := hq
      exact isBoundary_encode_cons_of_lt hq (by omega)

end Bytes

open Bytes

section Fitting

variable {room : Nat} {cs : List Char}

theorem fitting_prefix (room : Nat) (cs : List Char) : fitting room cs <+: cs := by
  induction cs generalizing room with
  | nil => exact List.prefix_refl _
  | cons c cs ih =>
    rw [fitting]
    split
    · exact List.cons_prefix_cons.2 ⟨rfl, ih _⟩
    · exact List.nil_prefix

theorem length_fitting_le (room : Nat) (cs : List Char) :
    (encode (fitting room cs)).length ≤ room := by
  induction cs generalizing room with
  | nil => exact Nat.zero_le _
  | cons c cs ih =>
    rw [fitting]
    split
    · have := ih (room - c.utf8Size)
      rw [length_encode_cons]
      omega
    · exact Nat.zero_le _

/-- What fits is the longest front part that does. -/
theorem prefix_fitting {p : List Char} (hp : p <+: cs) (hroom : (encode p).length ≤ room) :
    p <+: fitting room cs := by
  induction cs generalizing room p with
  | nil => simpa [fitting] using hp
  | cons c cs ih =>
    cases p with
    | nil => exact List.nil_prefix
    | cons d p =>
      obtain ⟨rfl, htail⟩ := List.cons_prefix_cons.1 hp
      rw [length_encode_cons] at hroom
      rw [fitting, if_pos (by omega)]
      exact List.cons_prefix_cons.2 ⟨rfl, ih htail (by omega)⟩

/-- A character has at most four bytes, so what does not fit leaves at most three of them. -/
theorem le_length_fitting (h : room < (encode cs).length) :
    room ≤ (encode (fitting room cs)).length + 3 := by
  induction cs generalizing room with
  | nil => exact absurd h (Nat.not_lt_zero _)
  | cons c cs ih =>
    rw [length_encode_cons] at h
    rw [fitting]
    split
    · have hrest : room - c.utf8Size < (encode cs).length := by omega
      have := ih hrest
      rw [length_encode_cons]
      omega
    · have := c.utf8Size_le_four
      omega

end Fitting

namespace Checked

/-- The search for the place where a text is clipped finds the end of what fits. -/
theorem seekBack_ofText (room : Nat) (text : String) :
    seekBack (ofText text) room = .ok (encode (fitting room text.toList)).length := by
  rw [ofText_eq]
  exact seekBack_eq (length_fitting_le ..) (isBoundary_fitting ..) fun _ => isBoundary_of_fitting_lt

theorem slice_of_prefix {front bytes : Bytes} (h : front <+: bytes) :
    slice ⟨0, front.length⟩ bytes = .ok front := by
  obtain ⟨rest, rfl⟩ := h
  refine slice_eq ?_
  rw [Span.slice?, if_pos ⟨Nat.zero_le _, by simp⟩]
  simp

/-- A message is clipped as its bytes are. -/
theorem clip_ofText (limit : Nat) (text : String) :
    clip limit (ofText text) = .ok (ofText (clipped limit text)) := by
  rw [clip, clipped, length_ofText]
  by_cases h : limit < text.utf8ByteSize
  · have hfront : encode (fitting limit text.toList) <+: ofText text := by
      rw [ofText_eq]
      exact encode_prefix <| fitting_prefix ..
    rw [if_pos h, if_neg h.not_ge, seekBack_ofText]
    simp only [Grammar.ok_bind, slice_of_prefix hfront, ofText_append, ofText_ofList]
    rfl
  · rw [if_neg h, if_pos (Nat.le_of_not_lt h)]
    rfl

end Checked

namespace Event

/-- A message is stored as it is when it has at most as many bytes as the limit allows.
Otherwise the longest front part of whole characters that has no more bytes is stored with three
dots behind it, at most three bytes short of the limit. The place where it ends is the one that
is found by going back in the bytes from the limit, which never goes back beyond the first one,
and the bytes up to there with those of the dots are the bytes of the stored text. -/
theorem message_clipped (limits : Limits) (level : Level) (code : Code) (m : String) :
    let limit := limits.maxMessage
    let stored := (coded limits level code m).message
    ((error limits code m).message = stored ∧ (warning limits m).message = stored ∧
      (info limits m).message = stored ∧ (success limits code m).message = stored ∧
      (debug limits m).message = stored) ∧
    (m.utf8ByteSize ≤ limit → stored = m) ∧
    (limit < m.utf8ByteSize → ∃ front : List Char,
      let size := (String.ofList front).utf8ByteSize
      stored = String.ofList front ++ "..." ∧ front <+: m.toList ∧
      size ≤ limit ∧ limit ≤ size + 3 ∧
      (∀ p, p <+: m.toList → (String.ofList p).utf8ByteSize ≤ limit → p <+: front) ∧
      Checked.seekBack (ofText m) limit = .ok size) ∧
    stored.utf8ByteSize ≤ limit + 3 ∧
    Checked.clip limit (ofText m) = .ok (ofText stored) ∧ text? (ofText stored) = some stored := by
  intro limit stored
  have hstored : stored = clipped limit m := rfl
  have hsize (cs : List Char) : (String.ofList cs).utf8ByteSize = (encode cs).length := by
    rw [← length_ofText, ofText_ofList]
  have hfits := length_fitting_le limit m.toList
  refine ⟨⟨rfl, rfl, rfl, rfl, rfl⟩, fun h => ?_, fun h => ⟨fitting limit m.toList, ?_⟩, ?_,
    Checked.clip_ofText limit m, text?_ofText stored⟩
  · rw [hstored, clipped, if_pos h]
  · intro size
    have hlong : limit < (encode m.toList).length := by rwa [← ofText_eq, length_ofText]
    have hfound : size = (encode (fitting limit m.toList)).length := hsize _
    refine ⟨?_, fitting_prefix .., hfound ▸ hfits, hfound ▸ le_length_fitting hlong,
      fun p hp hroom => prefix_fitting hp (hsize p ▸ hroom), ?_⟩
    · rw [hstored, clipped, if_neg h.not_ge]
    · rw [hfound]
      exact Checked.seekBack_ofText limit m
  · rw [hstored, clipped]
    split
    · omega
    · rw [String.utf8ByteSize_append, hsize]
      exact Nat.add_le_add_right hfits 3

/-- Limits that leave room for five bytes. -/
def terse : Limits := { Limits.development with maxMessage := 5 }

/-- Two letters and a character of four bytes. -/
def clef : String := String.ofList ['a', 'b', Char.ofNat 0x1D11E]

/-- The last character is dropped, though the limit is one byte short of its end. -/
theorem message_clipped_clef : terse.maxMessage < clef.utf8ByteSize ∧
    ∃ front : List Char, (info terse clef).message = String.ofList front ++ "..." ∧
      front <+: clef.toList ∧ (String.ofList front).utf8ByteSize = 2 := by
  have hlong : terse.maxMessage < clef.utf8ByteSize := by decide +kernel
  have htwo : Checked.seekBack (ofText clef) 5 = .ok 2 := by decide +kernel
  obtain ⟨front, hstored, hfront, -, -, -, hseek⟩ :=
    (message_clipped terse .info .plainInfo clef).2.2.1 hlong
  have hsize := Except.ok.inj (htwo.symm.trans hseek)
  exact ⟨hlong, front, hstored, hfront, hsize.symm⟩

end Event
end Recognizer
