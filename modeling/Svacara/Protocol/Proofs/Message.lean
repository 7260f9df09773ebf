/-
Frames and their decoder.

A frame whose length fits the field decodes to what was encoded, whatever
follows it (`decodeMessage_encodeMessage`). Conversely, a message decoded
from less than 2^32 bytes stands encoded at the front of them
(`encodeMessage_of_decode`): up to there the sum in the slice bound does
not wrap.
-/
import Svacara.Protocol.Message
import Svacara.Lib.Outcome

namespace Svacara.Protocol

open Buf Outcome

theorem length_encodeMessage (t : UInt8) (p : Bytes) :
    (encodeMessage t p).length = 5 + p.length := by
  rw [encodeMessage, List.length_cons, List.length_append, length_beBytes]
  omega

/-- The length field of a frame. -/
theorem slice_encodeMessage (t : UInt8) (p rest : Bytes) :
    slice (encodeMessage t p ++ rest) 1 4 = beBytes 4 (p.length % 2 ^ 32) := by
  have hsplit : encodeMessage t p ++ rest
      = [t] ++ (beBytes 4 (p.length % 2 ^ 32) ++ (p ++ rest)) := by
    simp [encodeMessage]
  rw [hsplit]
  exact slice_mid [t] _ _ rfl (length_beBytes ..).symm

/-- The payload of a frame. -/
theorem slice_encodeMessage_payload (t : UInt8) (p rest : Bytes) :
    slice (encodeMessage t p ++ rest) 5 p.length = p := by
  have hsplit : encodeMessage t p ++ rest
      = (t :: beBytes 4 (p.length % 2 ^ 32)) ++ (p ++ rest) := by
    simp [encodeMessage]
  rw [hsplit]
  exact slice_mid _ p rest (by rw [List.length_cons, length_beBytes]) rfl

/-- The decoder on a frame, down to the cut that takes the payload out:
the end of it is a sum in 32 bits. -/
theorem decodeMessage_frame (t : UInt8) (p rest : Bytes) (hlen : p.length < 2 ^ 32) :
    decodeMessage (encodeMessage t p ++ rest)
      = (subslice (encodeMessage t p ++ rest) 5 ((5 + p.length) % 2 ^ 32)
          >>= fun payload => pure (some (t, payload))) := by
  have htotal : (encodeMessage t p ++ rest).length = 5 + p.length + rest.length := by
    rw [List.length_append, length_encodeMessage]
  have hfield : beNat (slice (encodeMessage t p ++ rest) 1 4) = p.length := by
    rw [slice_encodeMessage, Nat.mod_eq_of_lt hlen, beNat_beBytes hlen]
  rw [decodeMessage, if_neg (by omega), hfield, if_neg (by omega)]
  rfl

theorem decodeMessage_encodeMessage (t : UInt8) (p rest : Bytes)
    (hlen : 5 + p.length < 2 ^ 32) :
    decodeMessage (encodeMessage t p ++ rest) = .ok (some (t, p)) := by
  have htotal : (encodeMessage t p ++ rest).length = 5 + p.length + rest.length := by
    rw [List.length_append, length_encodeMessage]
  have hpayload : subslice (encodeMessage t p ++ rest) 5 ((5 + p.length) % 2 ^ 32)
      = .ok p := by
    rw [subslice, Nat.mod_eq_of_lt hlen, if_pos (by omega), Nat.add_sub_cancel_left,
      slice_encodeMessage_payload]
  rw [decodeMessage_frame t p rest (by omega), hpayload]
  rfl

/-- A buffer is its first byte, its length field, the window behind it and
the rest. -/
theorem header_split (data : Bytes) (n : Nat) (hlen : 5 ≤ data.length) :
    data = data.headD 0 :: (slice data 1 4 ++ (slice data 5 n ++ data.drop (5 + n))) := by
  cases data with
  | nil => simp at hlen
  | cons b rest =>
      have hrest : (rest.drop 4).take n ++ rest.drop (4 + n) = rest.drop 4 := by
        rw [← List.drop_drop, List.take_append_drop]
      have hdrop : (b :: rest).drop (5 + n) = rest.drop (4 + n) := by
        rw [show 5 + n = 4 + n + 1 by omega, List.drop_succ_cons]
      rw [hdrop]
      simp [slice, hrest]

theorem encodeMessage_of_decode {data : Bytes} {t : UInt8} {p : Bytes}
    (hlen : data.length < 2 ^ 32) (h : decodeMessage data = .ok (some (t, p))) :
    encodeMessage t p <+: data := by
  rw [decodeMessage] at h
  by_cases hshort : data.length < 5
  · simp [if_pos hshort] at h
  · rw [if_neg hshort] at h
    by_cases hcut : data.length < 5 + beNat (slice data 1 4)
    · simp [if_pos hcut] at h
    · rw [if_neg hcut, subslice, Nat.mod_eq_of_lt (by omega), if_pos (by omega),
        Nat.add_sub_cancel_left] at h
      -- the payload is as long as the field says, so the field encodes it
      obtain ⟨rfl, rfl⟩ : data.headD 0 = t ∧ slice data 5 (beNat (slice data 1 4)) = p := by
        simpa using h
      have hfield : (slice data 1 4).length = 4 := by
        rw [slice, List.length_take, List.length_drop]
        omega
      have hpayload : (slice data 5 (beNat (slice data 1 4))).length
          = beNat (slice data 1 4) := by
        rw [slice, List.length_take, List.length_drop]
        omega
      refine ⟨data.drop (5 + beNat (slice data 1 4)), ?_⟩
      have hbytes : beBytes 4 (beNat (slice data 1 4) % 2 ^ 32) = slice data 1 4 := by
        rw [Nat.mod_eq_of_lt (by omega)]
        have := beBytes_beNat (slice data 1 4)
        rwa [hfield] at this
      rw [encodeMessage, hpayload, hbytes, List.cons_append, List.append_assoc]
      exact (header_split data _ (by omega)).symm

end Svacara.Protocol
