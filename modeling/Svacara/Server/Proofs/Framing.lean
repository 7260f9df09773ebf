/-
How the stream has to be cut for the read loop.

The loop makes exactly one call a read, so it can only get a sequence of
frames right when there are as many reads as frames. Each read then has
its frame at its front, and as the bytes are the same in total nothing is
left over: the reads are the frames (`readLoop_frames_iff`).
-/
import Svacara.Server.ReadLoop
import Svacara.Protocol.Proofs.Message
import Mathlib.Data.List.Forall2

namespace Svacara.Serving

open Protocol Outcome

/-- A frame: its type and its payload. -/
abbrev Frame := UInt8 × Bytes

def Frame.bytes (f : Frame) : Bytes := encodeMessage f.1 f.2

/-- The call a frame should lead to. -/
def Frame.call (f : Frame) : LoopCall := .handleMessage f.1 f.2

/-- `reads` is a way in which the bytes of `frames` may arrive. -/
structure Delivers (frames : List Frame) (reads : List Bytes) : Prop where
  nonempty : ∀ data ∈ reads, data ≠ []
  fits : ∀ data ∈ reads, data.length ≤ bufSize
  bytes : reads.flatten = (frames.map Frame.bytes).flatten

-- ======================================================== one read

theorem handleRead_bytes (f : Frame) (h : f.bytes.length ≤ bufSize) :
    handleRead f.bytes = .ok f.call := by
  have hlen : 5 + f.2.length ≤ bufSize := by
    rw [← length_encodeMessage f.1]
    exact h
  have hdecode := decodeMessage_encodeMessage f.1 f.2 []
    (Nat.lt_of_le_of_lt hlen (by decide))
  rw [List.append_nil] at hdecode
  simp [handleRead, Frame.bytes, Frame.call, hdecode]

/-- A read that leads to the call of a frame starts with the frame. -/
theorem bytes_of_handleRead {data : Bytes} {f : Frame} (hfits : data.length ≤ bufSize)
    (h : handleRead data = .ok f.call) : f.bytes <+: data := by
  obtain ⟨m, hdecode, hcall⟩ := bind_eq_ok.mp h
  cases m with
  | none => simp [Frame.call] at hcall
  | some m =>
      obtain ⟨ht, hp⟩ : m.1 = f.1 ∧ m.2 = f.2 := by
        simpa [Frame.call] using hcall
      obtain rfl : m = f := Prod.ext ht hp
      exact encodeMessage_of_decode (Nat.lt_of_le_of_lt hfits (by decide)) hdecode

-- ======================================================== the loop

theorem readLoop_bytes (frames : List Frame)
    (h : ∀ f ∈ frames, f.bytes.length ≤ bufSize) :
    readLoop (frames.map Frame.bytes) = .ok (frames.map Frame.call) := by
  induction frames with
  | nil => rfl
  | cons f frames ih =>
      have hf := handleRead_bytes f (h f (by simp))
      have hrest := ih fun g hg => h g (by simp [hg])
      simp [readLoop, hf, hrest]

/-- One call a read. -/
theorem handleRead_of_readLoop {reads : List Bytes} {frames : List Frame}
    (h : readLoop reads = .ok (frames.map Frame.call)) :
    List.Forall₂ (fun f data => handleRead data = .ok f.call) frames reads := by
  induction reads generalizing frames with
  | nil =>
      cases frames with
      | nil => exact .nil
      | cons f frames => simp [readLoop] at h
  | cons data reads ih =>
      obtain ⟨call, hcall, h⟩ := bind_eq_ok.mp h
      obtain ⟨calls, hcalls, h⟩ := bind_eq_ok.mp h
      cases frames with
      | nil => simp at h
      | cons f frames =>
          obtain ⟨rfl, rfl⟩ : call = f.call ∧ calls = frames.map Frame.call := by
            simpa using h
          exact .cons hcall (ih hcalls)

/-- Front parts that are not shorter in total are the whole. -/
theorem eq_of_fronts {α : Type} {as bs : List (List α)}
    (h : List.Forall₂ (· <+: ·) as bs)
    (hlen : bs.flatten.length ≤ as.flatten.length) : bs = as := by
  have hle : ∀ {as bs : List (List α)}, List.Forall₂ (· <+: ·) as bs →
      as.flatten.length ≤ bs.flatten.length := by
    intro as bs h
    induction h with
    | nil => simp
    | cons hab _ ih =>
        have := hab.length_le
        simp only [List.flatten_cons, List.length_append]
        omega
  induction h with
  | nil => rfl
  | cons hab h ih =>
      have hfront := hab.length_le
      have hrest := hle h
      simp only [List.flatten_cons, List.length_append] at hlen
      rw [hab.eq_of_length (by omega), ih (by omega)]

/-- The loop hands on exactly the frames that were sent just when every
read brings one whole frame and nothing else. -/
theorem readLoop_frames_iff (frames : List Frame) (reads : List Bytes)
    (h : Delivers frames reads) :
    readLoop reads = .ok (frames.map Frame.call) ↔ reads = frames.map Frame.bytes := by
  constructor
  · intro hloop
    apply eq_of_fronts
    · rw [List.forall₂_map_left_iff]
      have hcalls := handleRead_of_readLoop hloop
      have hreads : List.Forall₂ (fun f data => data ∈ reads ∧ handleRead data = .ok f.call)
          frames reads := by
        apply List.forall₂_iff_get.mpr
        obtain ⟨hlen, hget⟩ := List.forall₂_iff_get.mp hcalls
        exact ⟨hlen, fun i h₁ h₂ => ⟨List.get_mem .., hget i h₁ h₂⟩⟩
      exact hreads.imp fun f data hd => bytes_of_handleRead (h.fits data hd.1) hd.2
    · rw [h.bytes]
  · rintro rfl
    apply readLoop_bytes
    intro f hf
    exact h.fits _ (List.mem_map_of_mem hf)

/-- A Begin and a query, each in a read of its own. -/
theorem readLoop_two_reads :
    Delivers [(msgBegin, []), (msgQuery, [65, 66])]
        [[4, 0, 0, 0, 0], [1, 0, 0, 0, 2, 65, 66]] ∧
      readLoop [[4, 0, 0, 0, 0], [1, 0, 0, 0, 2, 65, 66]]
        = .ok [.handleMessage msgBegin [], .handleMessage msgQuery [65, 66]] := by
  have h : Delivers [(msgBegin, []), (msgQuery, [65, 66])]
      [[4, 0, 0, 0, 0], [1, 0, 0, 0, 2, 65, 66]] :=
    ⟨by decide, by decide, by decide⟩
  exact ⟨h, (readLoop_frames_iff _ _ h).mpr (by decide)⟩

/-- Two frames in one read: the second one is dropped. One frame in two
reads: it is reported as invalid twice. -/
theorem readLoop_coalesced_and_split :
    (Delivers [(msgBegin, []), (msgAbort, [])] [[4, 0, 0, 0, 0, 6, 0, 0, 0, 0]] ∧
      readLoop [[4, 0, 0, 0, 0, 6, 0, 0, 0, 0]] = .ok [.handleMessage msgBegin []] ∧
      readLoop [[4, 0, 0, 0, 0, 6, 0, 0, 0, 0]]
        ≠ .ok (List.map Frame.call [(msgBegin, []), (msgAbort, [])])) ∧
    (Delivers [(msgQuery, [65, 66])] [[1, 0, 0], [0, 2, 65, 66]] ∧
      readLoop [[1, 0, 0], [0, 2, 65, 66]]
        = .ok [.sendError "invalid message", .sendError "invalid message"] ∧
      readLoop [[1, 0, 0], [0, 2, 65, 66]]
        ≠ .ok (List.map Frame.call [(msgQuery, [65, 66])])) := by
  refine ⟨⟨⟨?_, ?_, ?_⟩, ?_, ?_⟩, ⟨?_, ?_, ?_⟩, ?_, ?_⟩ <;> decide

end Svacara.Serving
