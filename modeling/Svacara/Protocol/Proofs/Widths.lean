/-
The top of the length fields.

A string may have up to 2^16 - 1 bytes and a payload up to 2^32 - 1, and
the bounds checks of both decoders, done in int, pass for all of them. The
end of the slice is a sum in the width of the field. For the last two
lengths of a string and the last five of a payload it wraps to below the
start of the slice, and the slice is out of range; below them the decoders
return what was encoded.
-/
import Svacara.Protocol.Proofs.Message

namespace Svacara.Protocol

open Buf Outcome

/-- A slice whose end wrapped is out of range: the wrapped end stands
before the start. -/
theorem subslice_wrapped (data : Bytes) {m lo n : Nat} (hlo : lo ≤ m) (hn : n < m)
    (hwrap : m ≤ lo + n) : subslice data lo ((lo + n) % m) = .error .index := by
  have hend : (lo + n) % m < lo := by
    rw [Nat.mod_eq_sub_mod hwrap, Nat.mod_eq_of_lt (by omega)]
    omega
  rw [subslice, if_neg (by omega)]

-- ========================================================== frames

theorem decodeMessage_wrapped (t : UInt8) (p rest : Bytes) (hlen : p.length < 2 ^ 32)
    (hwrap : 2 ^ 32 ≤ 5 + p.length) :
    decodeMessage (encodeMessage t p ++ rest) = .error .index := by
  rw [decodeMessage_frame t p rest hlen, subslice_wrapped _ (by omega) hlen hwrap]
  rfl

-- ========================================================= strings

theorem length_encodeString (s : Bytes) : (encodeString s).length = 2 + s.length := by
  rw [encodeString, List.length_append, length_beBytes]

/-- The decoder on an encoded string, down to the cut that takes it out:
the end of it is a sum in 16 bits. -/
theorem decodeString_field (s rest : Bytes) (hlen : s.length < 2 ^ 16) :
    decodeString (encodeString s ++ rest)
      = (subslice (encodeString s ++ rest) 2 ((2 + s.length) % 2 ^ 16)
          >>= fun t => pure (t, 2 + s.length)) := by
  have htotal : (encodeString s ++ rest).length = 2 + s.length + rest.length := by
    rw [List.length_append, length_encodeString]
  have hfield : beNat (slice (encodeString s ++ rest) 0 2) = s.length := by
    have hslice : slice (encodeString s ++ rest) 0 2 = beBytes 2 s.length := by
      rw [encodeString, Nat.mod_eq_of_lt hlen, List.append_assoc]
      exact slice_mid [] _ _ rfl (length_beBytes ..).symm
    rw [hslice, beNat_beBytes hlen]
  rw [decodeString, if_neg (by omega), hfield, if_neg (by omega)]

theorem decodeString_encodeString (s rest : Bytes) (hlen : 2 + s.length < 2 ^ 16) :
    decodeString (encodeString s ++ rest) = .ok (s, 2 + s.length) := by
  have htotal : (encodeString s ++ rest).length = 2 + s.length + rest.length := by
    rw [List.length_append, length_encodeString]
  have hstring : slice (encodeString s ++ rest) 2 s.length = s := by
    rw [encodeString, List.append_assoc]
    exact slice_mid _ s rest (length_beBytes ..).symm rfl
  have hcut : subslice (encodeString s ++ rest) 2 ((2 + s.length) % 2 ^ 16) = .ok s := by
    rw [subslice, Nat.mod_eq_of_lt hlen, if_pos (by omega), Nat.add_sub_cancel_left, hstring]
  rw [decodeString_field s rest (by omega), hcut]
  rfl

theorem decodeString_wrapped (s rest : Bytes) (hlen : s.length < 2 ^ 16)
    (hwrap : 2 ^ 16 ≤ 2 + s.length) :
    decodeString (encodeString s ++ rest) = .error .index := by
  rw [decodeString_field s rest hlen, subslice_wrapped _ (by omega) hlen hwrap]
  rfl

-- ========================================================= results

/-- Strings and messages round-trip exactly where the end of the slice
does not wrap: up to 2^16 - 3 bytes of a string and 2^32 - 6 of a payload. -/
theorem wire_roundTrip_iff (s : Bytes) (t : UInt8) (p rest : Bytes)
    (hs : s.length ≤ 65535) (hp : p.length < 2 ^ 32) :
    (decodeString (encodeString s ++ rest) = .ok (s, 2 + s.length)
        ↔ 2 + s.length < 2 ^ 16)
      ∧ (decodeMessage (encodeMessage t p ++ rest) = .ok (some (t, p))
        ↔ 5 + p.length < 2 ^ 32) := by
  constructor
  · constructor
    · intro h
      by_contra hlong
      rw [decodeString_wrapped s rest (by omega) (by omega)] at h
      cases h
    · exact decodeString_encodeString s rest
  · constructor
    · intro h
      by_contra hlong
      rw [decodeMessage_wrapped t p rest hp (by omega)] at h
      cases h
    · exact decodeMessage_encodeMessage t p rest

/-- One byte each way, with a byte behind it. -/
theorem wire_roundTrip_iff_short :
    (decodeString (encodeString [97] ++ [0]) = .ok ([97], 3))
      ∧ decodeMessage (encodeMessage msgQuery [97] ++ [0]) = .ok (some (msgQuery, [97])) := by
  have h := wire_roundTrip_iff [97] msgQuery [97] [0] (by decide) (by decide)
  exact ⟨h.1.2 (by decide), h.2.2 (by decide)⟩

/-- A string of 65534 bytes: the end of the slice is 65536 in 16 bits,
which is 0. -/
theorem decodeString_out_of_range :
    decodeString (encodeString (List.replicate 65534 97))
        ≠ .ok (List.replicate 65534 97, 2 + (List.replicate 65534 (97 : UInt8)).length)
      ∧ decodeString (encodeString (List.replicate 65534 97)) = .error .index := by
  have hlen : (List.replicate 65534 (97 : UInt8)).length = 65534 := List.length_replicate
  have h := decodeString_wrapped (List.replicate 65534 97) [] (by omega) (by omega)
  rw [List.append_nil] at h
  rw [h]
  refine ⟨?_, rfl⟩
  intro hok
  cases hok

end Svacara.Protocol
