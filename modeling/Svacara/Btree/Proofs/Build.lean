/-
Building a node front to back, whether or not it fits.

Every function that makes a node writes a header and appends entries, in
order. `build buf ty es` is that program for a list of entries, and the
source's functions are equal to it (`Rebuild`), so there are two facts
to know about building, not two about each function:

  * entries that fit the buffer are encoded in it (`build_encodes`);
  * entries that do not fit end in a fault or in a node of which every
    key lies in the buffer and the end of the last value is missing
    (`build_written`).

# A node that is too big for its buffer

`Written buf ty n es` covers both: `buf` is the front of a buffer that
holds `es`, and it reaches at least to the end of the last key. Such a
node reads like the whole one, the missing value apart: its size is the
size of all of `es`, past the end of the buffer, and reading the cut
value faults. An append to a cut node always faults (`Written.append`
starts from a node that holds everything so far), so only the last value
can be cut, and an internal node, which has no values, never is.
-/
import Svacara.Btree.Proofs.Node

namespace Svacara.Btree

open Buf Outcome

-- ===================================================== the program

/-- Append entries, the first of them at position `idx`. -/
def appendAll : BNode → Nat → List Entry → Except Fault BNode
  | new, _, [] => .ok new
  | new, idx, e :: es => do
      let new ← nodeAppendKV new idx e.ptr e.key e.val
      appendAll new (idx + 1) es

/-- Write a node of type `ty` with the given entries to a buffer. -/
def build (buf : BNode) (ty : Nat) (es : List Entry) : Except Fault BNode := do
  let new ← setHeader buf ty es.length
  appendAll new 0 es

theorem appendAll_append (new : BNode) (idx : Nat) (es fs : List Entry) :
    appendAll new idx (es ++ fs)
      = (appendAll new idx es >>= fun new => appendAll new (idx + es.length) fs) := by
  induction es generalizing new idx with
  | nil => rfl
  | cons e es ih =>
      rw [List.cons_append, appendAll, appendAll]
      cases nodeAppendKV new idx e.ptr e.key e.val with
      | error err => rfl
      | ok new₁ =>
          rw [ok_bind, ok_bind, ih, List.length_cons,
            show idx + 1 + es.length = idx + (es.length + 1) by omega]

/-- Copying a run of a held node appends the entries of that run. -/
theorem nodeAppendRange_eq {old : BNode} {ty n : Nat} {fs : List Entry}
    (buf : BNode) (dst src cnt : Nat) (ho : Holds old ty n fs)
    (hsrc : src + cnt ≤ fs.length) (hdst : dst + cnt < 65536) :
    nodeAppendRange buf old dst src cnt
      = appendAll buf dst ((fs.drop src).take cnt) := by
  have hfits := ho.fits
  have hcount := ho.count
  have hsmall := ho.small
  induction cnt with
  | zero => rfl
  | succ c ih =>
      obtain ⟨f, hf⟩ : ∃ f, fs[src + c]? = some f :=
        ⟨_, List.getElem?_eq_getElem (by omega)⟩
      have htake : (fs.drop src).take (c + 1) = (fs.drop src).take c ++ [f] := by
        rw [List.take_add_one, List.getElem?_drop, hf]
        rfl
      have hlen : ((fs.drop src).take c).length = c := by
        rw [List.length_take, List.length_drop]
        omega
      have ih := ih (by omega) (by omega)
      rw [nodeAppendRange] at ih ⊢
      rw [List.range_succ, List.foldlM_append, ih, htake, appendAll_append, hlen]
      congr 1
      funext new
      rw [List.foldlM_cons, appendRangeStep, u16_of_lt (n := src + c) (by omega),
        u16_of_lt (n := dst + c) (by omega), ho.getPtr hf, ok_bind, ho.getKey hf,
        ok_bind, ho.getVal hf, ok_bind]
      rfl

-- ================================================ entries that fit

theorem appendAll_holds {buf : BNode} {ty n : Nat} {es : List Entry}
    (fs : List Entry) (h : Holds buf ty n es) (hn : es.length + fs.length ≤ n)
    (hfit : header + 10 * n + kvSize (es ++ fs) ≤ buf.length) :
    ∃ new, appendAll buf es.length fs = .ok new ∧ Holds new ty n (es ++ fs)
      ∧ new.length = buf.length := by
  induction fs generalizing buf es with
  | nil => exact ⟨buf, rfl, by rwa [List.append_nil], rfl⟩
  | cons f fs ih =>
      rw [List.length_cons] at hn
      have hfit' := hfit
      rw [kvSize_append, kvSize_cons] at hfit'
      obtain ⟨b, hb, hhold, hlen⟩ := nodeAppendKV_holds (e := f) h (by omega) (by omega)
      have hes : (es ++ [f]).length = es.length + 1 := by
        rw [List.length_append, List.length_singleton]
      have happ : (es ++ [f]) ++ fs = es ++ f :: fs := by
        rw [List.append_assoc, List.singleton_append]
      obtain ⟨new, hnew, hhold', hlen'⟩ := ih hhold (by omega) (by
        rw [happ, hlen]
        exact hfit)
      rw [hes] at hnew
      rw [happ] at hhold'
      refine ⟨new, ?_, hhold', hlen'.trans hlen⟩
      rw [appendAll, hb, ok_bind, hnew]

/-- Entries that fit the buffer end up in it. -/
theorem build_encodes (buf : BNode) (ty : Nat) (es : List Entry)
    (hsmall : buf.length < 65536) (hty : ty < 65536)
    (hfit : nodeSize es ≤ buf.length) :
    ∃ new, build buf ty es = .ok new ∧ Encodes new ty es
      ∧ new.length = buf.length := by
  rw [nodeSize] at hfit
  obtain ⟨b, hb, hhold, hlen⟩ := holds_setHeader buf ty es.length hsmall hty (by omega)
  obtain ⟨new, hnew, hhold', hlen'⟩ := appendAll_holds es hhold
    (by rw [List.length_nil]; omega) (by rw [List.nil_append]; omega)
  refine ⟨new, ?_, hhold', hlen'.trans hlen⟩
  rw [build, hb, ok_bind]
  exact hnew

-- ============================================= and any that do not

/-- `buf` is the front, at least up to the end of the last key, of a
buffer that holds `es`. -/
structure Written (buf : BNode) (ty n : Nat) (es : List Entry) : Prop where
  room : header + 10 * n ≤ buf.length
  keys : ∀ i e, es[i]? = some e →
    header + 10 * n + kvSize (es.take i) + 4 + e.key.length ≤ buf.length
  whole : ∃ whole, Holds whole ty n es ∧ buf = whole.take buf.length

theorem Holds.written {buf : BNode} {ty n : Nat} {es : List Entry}
    (h : Holds buf ty n es) : Written buf ty n es where
  room := by have := h.fits; omega
  keys i e he := by
    obtain ⟨-, hle⟩ := h.entry_le he
    rw [Entry.size] at hle
    omega
  whole := ⟨buf, h, List.take_length.symm⟩

section Read

variable {buf : BNode} {ty n i : Nat} {es : List Entry} {e : Entry}

theorem Written.slot (h : Written buf ty n es) (hi : i ≤ es.length) :
    Slot buf n i (kvSize (es.take i)) := by
  have hhd : header = 4 := rfl
  have hroom := h.room
  obtain ⟨whole, hw, hbuf⟩ := h.whole
  have hlen : buf.length ≤ whole.length := by
    rw [hbuf, List.length_take]
    omega
  have hslot := hw.slot hi
  have hcount := hw.count
  refine ⟨Nat.lt_of_le_of_lt hlen hw.small, hroom, hslot.le, ?_, hslot.offLt,
    hslot.at_zero, ?_⟩
  · rw [hbuf, slice_take _ (by omega)]
    exact hw.nk
  · intro j hj
    rw [hbuf, slice_take _ (by omega)]
    exact hslot.at_succ j hj

theorem Written.small (h : Written buf ty n es) : buf.length < 65536 :=
  (h.slot (Nat.zero_le _)).small

theorem Written.nkeys (h : Written buf ty n es) : nkeys buf = .ok n :=
  (h.slot (Nat.zero_le _)).nkeys

theorem Written.btype (h : Written buf ty n es) : btype buf = .ok ty := by
  have hhd : header = 4 := rfl
  have hroom := h.room
  obtain ⟨whole, hw, hbuf⟩ := h.whole
  refine uintAt_of ?_ hw.tyLt (by omega)
  rw [hbuf, slice_take _ (by omega)]
  exact hw.bt

theorem Written.kvPos (h : Written buf ty n es) (hi : i ≤ es.length) :
    kvPos buf i = .ok (header + 10 * n + kvSize (es.take i)) := by
  obtain ⟨whole, hw, -⟩ := h.whole
  have h₁ := kvSize_take_le es i
  have h₂ := hw.fits
  have h₃ := hw.small
  exact (h.slot hi).kvPos (by omega)

/-- A finished node has the size of all its entries, in the buffer or not. -/
theorem Written.nbytes (h : Written buf ty es.length es) :
    nbytes buf = .ok (nodeSize es) := by
  rw [Btree.nbytes, h.nkeys, ok_bind, h.kvPos (Nat.le_refl _), List.take_length]
  rfl

/-- Every key is there. -/
theorem Written.getKey (h : Written buf ty n es) (he : es[i]? = some e) :
    getKey buf i = .ok e.key := by
  have hroom := h.keys i e he
  obtain ⟨whole, hw, hbuf⟩ := h.whole
  obtain ⟨hi, hle⟩ := hw.entry_le he
  have hsmall := h.small
  obtain ⟨hk, -, hkey, -⟩ := (hw.entry i e he).windows
  have hlen : slice buf (header + 10 * n + kvSize (es.take i)) 2
      = leBytes 2 e.key.length := by
    rw [hbuf, slice_take _ (by omega)]
    exact hk
  have hbytes : slice buf (header + 10 * n + kvSize (es.take i) + 4) e.key.length
      = e.key := by
    rw [hbuf, slice_take _ (by omega)]
    exact hkey
  rw [Btree.getKey, h.kvPos (Nat.le_of_lt hi), ok_bind,
    uintAt_of hlen (by omega) (by omega), ok_bind, u16_of_lt (by omega),
    sliceAt, if_pos (by omega), hbytes]

/-- A value that is not all there cannot be read. -/
theorem Written.getVal_cut (h : Written buf ty n es) (he : es[i]? = some e)
    (hcut : buf.length < header + 10 * n + kvSize (es.take i) + e.size) :
    getVal buf i = .error .index := by
  have hroom := h.keys i e he
  obtain ⟨whole, hw, hbuf⟩ := h.whole
  obtain ⟨hi, hle⟩ := hw.entry_le he
  have hsmall := hw.small
  have hsmall' := h.small
  rw [Entry.size] at hcut hle
  obtain ⟨hk, hv, -, -⟩ := (hw.entry i e he).windows
  have hklen : slice buf (header + 10 * n + kvSize (es.take i)) 2
      = leBytes 2 e.key.length := by
    rw [hbuf, slice_take _ (by omega)]
    exact hk
  have hvlen : slice buf (header + 10 * n + kvSize (es.take i) + 2) 2
      = leBytes 2 e.val.length := by
    rw [hbuf, slice_take _ (by omega)]
    exact hv
  rw [Btree.getVal, h.kvPos (Nat.le_of_lt hi), ok_bind,
    uintAt_of hklen (by omega) (by omega), ok_bind, u16_of_lt (by omega),
    uintAt_of hvlen (by omega) (by omega), ok_bind, u16_of_lt (by omega),
    sliceAt, if_neg (by omega)]

/-- What a buffer holds is decided by its front. -/
theorem Holds.agree {buf' : BNode} (h : Holds buf ty n es) (hsmall : buf'.length < 65536)
    (hfit : header + 10 * n + kvSize es ≤ buf'.length)
    (hin : ∀ p l, p + l ≤ header + 10 * n + kvSize es →
      slice buf' p l = slice buf p l) : Holds buf' ty n es := by
  have hhd : header = 4 := rfl
  have hcount := h.count
  refine ⟨hsmall, h.tyLt, hcount, hfit, ?_, ?_, ?_⟩
  · rw [hin _ _ (by omega)]
    exact h.bt
  · rw [hin _ _ (by omega)]
    exact h.nk
  · intro i e he
    obtain ⟨hi, -⟩ := h.entry_le he
    have hat := h.entry i e he
    have hle : kvSize (es.take i) + e.size ≤ kvSize es := by
      rw [← kvSize_take_succ he]
      exact kvSize_take_le es (i + 1)
    refine ⟨?_, ?_, ?_⟩
    · rw [hin _ _ (by omega)]
      exact hat.ptr
    · rw [hin _ _ (by omega)]
      exact hat.offset
    · rw [hin _ _ (by omega)]
      exact hat.kv

/-- A node whose entries all fit is not cut. -/
theorem Written.holds (h : Written buf ty n es)
    (hfit : header + 10 * n + kvSize es ≤ buf.length) : Holds buf ty n es := by
  obtain ⟨whole, hw, hbuf⟩ := h.whole
  refine hw.agree h.small hfit fun p l hpl => ?_
  rw [hbuf, slice_take _ (by omega)]

/-- More room behind a node does not change what it holds. -/
theorem Holds.pad (h : Holds buf ty n es) (k : Nat) (hk : buf.length + k < 65536) :
    Holds (buf ++ make k) ty n es := by
  have hlen : (buf ++ make k).length = buf.length + k := by
    rw [List.length_append, length_make]
  have hfits := h.fits
  refine h.agree (by omega) (by omega) fun p l hpl => ?_
  have hfront : slice ((buf ++ make k).take buf.length) p l = slice (buf ++ make k) p l :=
    slice_take _ (by omega)
  rw [← hfront, List.take_left]

end Read

-- ========================================= one append, in any case

theorem putUintAt_eq_ok {w pos v : Nat} {buf new : BNode}
    (h : putUintAt w buf pos v = .ok new) :
    pos + w ≤ buf.length ∧ new = splice buf (leBytes w v) pos := by
  rw [putUintAt] at h
  split at h
  · next hin =>
      cases h
      exact ⟨hin, rfl⟩
  · cases h

theorem putUintAt_length {w pos v : Nat} {buf new : BNode}
    (h : putUintAt w buf pos v = .ok new) : new.length = buf.length := by
  obtain ⟨hin, rfl⟩ := putUintAt_eq_ok h
  exact length_splice _ _ (by rw [length_leBytes]; exact hin)

theorem copyAt_length {pos : Nat} {buf src new : BNode}
    (h : copyAt buf pos src = .ok new) :
    pos ≤ buf.length ∧ new.length = buf.length := by
  rw [copyAt] at h
  split at h
  · next hin =>
      cases h
      exact ⟨hin, length_splice _ _ (by rw [List.length_take]; omega)⟩
  · cases h

/-- An append that returns has found room for the key: the value is
copied to a position behind it, and that must be in the buffer. -/
theorem nodeAppendKV_room {buf new : BNode} {pos idx : Nat} {ptr : Ptr}
    {key val : Bytes}
    (hpos : ∀ b, setPtr buf idx ptr = .ok b → kvPos b idx = .ok pos)
    (hsmall : pos + 4 + key.length < 65536)
    (h : nodeAppendKV buf idx ptr key val = .ok new) :
    pos + 4 + key.length ≤ buf.length := by
  obtain ⟨b₁, h₁, h⟩ := bind_eq_ok.mp h
  obtain ⟨p, hp, h⟩ := bind_eq_ok.mp h
  obtain ⟨b₂, h₂, h⟩ := bind_eq_ok.mp h
  obtain ⟨b₃, h₃, h⟩ := bind_eq_ok.mp h
  obtain ⟨b₄, h₄, h⟩ := bind_eq_ok.mp h
  obtain ⟨b₅, h₅, -⟩ := bind_eq_ok.mp h
  rw [hpos b₁ h₁] at hp
  cases hp
  have hl₁ := putUintAt_length h₁
  have hl₂ := putUintAt_length h₂
  have hl₃ := putUintAt_length h₃
  have hl₄ := (copyAt_length h₄).2
  have hin := (copyAt_length h₅).1
  rw [u16_of_lt (n := key.length) (by omega), u16_of_lt (by omega)] at hin
  omega

/-- The append to a node that holds everything so far: if it returns,
the key and what the buffer has room for of the value are there. -/
theorem Holds.append_written {buf new : BNode} {ty n : Nat} {es : List Entry}
    {e : Entry} (h : Holds buf ty n es) (hlt : es.length < n)
    (hroom : header + 10 * n + kvSize es + 4 + e.key.length ≤ buf.length)
    (hsmall : header + 10 * n + kvSize es + e.size < 65536)
    (hok : nodeAppendKV buf es.length e.ptr e.key e.val = .ok new) :
    Written new ty n (es ++ [e]) ∧ new.length = buf.length := by
  have hhd : header = 4 := rfl
  have hbs := h.small
  have hsz : e.size = 4 + e.key.length + e.val.length := rfl
  -- the same append to a buffer with enough room
  obtain ⟨k, hk⟩ : ∃ k, k = header + 10 * n + kvSize es + e.size - buf.length := ⟨_, rfl⟩
  have hpad := h.pad k (by omega)
  have hlen : (buf ++ make k).length = buf.length + k := by
    rw [List.length_append, length_make]
  obtain ⟨whole, hwhole, hw, hwl⟩ := nodeAppendKV_holds (e := e) hpad hlt (by omega)
  rw [nodeAppendKV_eq hpad hlt (by omega)] at hwhole
  have hwhole := Except.ok.inj hwhole
  -- the buffer is its front
  rw [nodeAppendKV_crop h hlt hroom hsmall] at hok
  have hnew := Except.ok.inj hok
  have hp : header + 8 * es.length + (leBytes 8 e.ptr.toNat).length ≤ buf.length := by
    rw [length_leBytes]
    omega
  have hl₁ := length_splice _ _ hp
  have hkv : header + 10 * n + kvSize es
      + (e.bytes.take (buf.length - (header + 10 * n + kvSize es))).length
        ≤ (splice buf (leBytes 8 e.ptr.toNat) (header + 8 * es.length)).length := by
    rw [List.length_take]
    omega
  have hl₂ := (length_splice _ _ hkv).trans hl₁
  have hl₃ : new.length = buf.length := by
    rw [← hnew, length_splice _ _ (by rw [length_leBytes]; omega), hl₂]
  have hfront : new = whole.take new.length := by
    have hp' : header + 8 * es.length + (leBytes 8 e.ptr.toNat).length
        ≤ (buf ++ make k).length := by omega
    have hl₁' := length_splice _ _ hp'
    have hkv' : header + 10 * n + kvSize es + e.bytes.length
        ≤ (splice (buf ++ make k) (leBytes 8 e.ptr.toNat)
          (header + 8 * es.length)).length := by
      rw [Entry.length_bytes]
      omega
    have hl₂' := (length_splice _ _ hkv').trans hl₁'
    rw [hl₃, ← hwhole, putEntry, take_splice _ _ (by omega) (by omega)
        (by rw [length_leBytes]; omega),
      take_splice _ _ (by omega) (by omega) (by omega),
      take_splice _ _ (by omega) (by omega) (by omega), List.take_left,
      List.take_of_length_le (l := leBytes 2 _) (by rw [length_leBytes]; omega),
      List.take_of_length_le (l := leBytes 8 _) (by rw [length_leBytes]; omega)]
    exact hnew.symm
  refine ⟨⟨by omega, ?_, whole, hw, hfront⟩, hl₃⟩
  intro i f hf
  rw [hl₃]
  rcases Nat.lt_or_ge i es.length with hi | hi
  · rw [List.getElem?_append_left hi] at hf
    rw [List.take_append_of_le_length (Nat.le_of_lt hi)]
    exact h.written.keys i f hf
  · obtain ⟨hlt', -⟩ := List.getElem?_eq_some_iff.mp hf
    rw [List.length_append, List.length_singleton] at hlt'
    obtain rfl : i = es.length := by omega
    rw [List.getElem?_append_right (Nat.le_refl _), Nat.sub_self] at hf
    obtain rfl : e = f := by simpa using hf
    rwa [List.take_left]

/-- One append: if it returns, everything before it was in the buffer. -/
theorem Written.append {buf new : BNode} {ty n : Nat} {es : List Entry} {e : Entry}
    (h : Written buf ty n es) (hlt : es.length < n)
    (hsmall : header + 10 * n + kvSize es + e.size < 65536)
    (hok : nodeAppendKV buf es.length e.ptr e.key e.val = .ok new) :
    Written new ty n (es ++ [e]) ∧ new.length = buf.length := by
  have hhd : header = 4 := rfl
  have hroom := h.room
  have hbs := h.small
  have hsz : e.size = 4 + e.key.length + e.val.length := rfl
  have hslot : Slot buf n es.length (kvSize es) := by
    have := h.slot (Nat.le_refl es.length)
    rwa [List.take_length] at this
  have hkey : header + 10 * n + kvSize es + 4 + e.key.length ≤ buf.length := by
    refine nodeAppendKV_room (fun b hb => ?_) (by omega) hok
    obtain ⟨hin, rfl⟩ := putUintAt_eq_ok hb
    rw [u16_of_lt (by omega)] at hin ⊢
    refine Slot.kvPos (hslot.splice (by rw [length_leBytes]; omega) (by omega) ?_)
      (by omega)
    intro j hj
    rw [length_leBytes]
    omega
  exact (h.holds (by omega)).append_written hlt hkey hsmall hok

/-- A run of appends. -/
theorem Written.appendAll {buf new : BNode} {ty n : Nat} {es : List Entry}
    (fs : List Entry) (h : Written buf ty n es) (hn : es.length + fs.length ≤ n)
    (hsmall : header + 10 * n + kvSize (es ++ fs) < 65536)
    (hok : appendAll buf es.length fs = .ok new) :
    Written new ty n (es ++ fs) ∧ new.length = buf.length := by
  induction fs generalizing buf es with
  | nil =>
      cases hok
      exact ⟨by rwa [List.append_nil], rfl⟩
  | cons f fs ih =>
      rw [List.length_cons] at hn
      have hsmall' := hsmall
      rw [kvSize_append, kvSize_cons] at hsmall'
      obtain ⟨b, hb, hok⟩ := bind_eq_ok.mp hok
      obtain ⟨hw, hlen⟩ := h.append (by omega) (by omega) hb
      have happ : (es ++ [f]) ++ fs = es ++ f :: fs := by
        rw [List.append_assoc, List.singleton_append]
      have hes : (es ++ [f]).length = es.length + 1 := by
        rw [List.length_append, List.length_singleton]
      obtain ⟨hw', hlen'⟩ := ih hw (by omega) (by rw [happ]; exact hsmall)
        (by rw [hes]; exact hok)
      rw [happ] at hw'
      exact ⟨hw', hlen'.trans hlen⟩

-- =============================================== the whole program

/-- What `setHeader` leaves behind, with or without room for slots. -/
theorem setHeader_eq_ok {buf new : BNode} {ty n : Nat}
    (h : setHeader buf ty n = .ok new) :
    header ≤ buf.length ∧ slice new 2 2 = leBytes 2 n ∧ new.length = buf.length := by
  obtain ⟨b, hb, h⟩ := bind_eq_ok.mp h
  have hlb := putUintAt_length hb
  have hln := putUintAt_length h
  obtain ⟨hin, rfl⟩ := putUintAt_eq_ok h
  have hself : slice (splice b (leBytes 2 n) 2) 2 (leBytes 2 n).length = leBytes 2 n :=
    slice_splice_self _ _ (by rw [length_leBytes]; exact hin)
  rw [length_leBytes] at hself
  exact ⟨by rw [header]; omega, hself, hln.trans hlb⟩

/-- If building returns, there was room for all pointers and offsets: the
first entry is written behind them. -/
theorem build_room {buf new : BNode} {ty : Nat} {es : List Entry}
    (hsmall : nodeSize es < 65536) (h : build buf ty es = .ok new) :
    header + 10 * es.length ≤ buf.length := by
  obtain ⟨b, hb, h⟩ := bind_eq_ok.mp h
  obtain ⟨hhead, hnk, hlen⟩ := setHeader_eq_ok hb
  cases es with
  | nil => exact hhead
  | cons e es =>
      rw [nodeSize, kvSize_cons, Entry.size] at hsmall
      obtain ⟨b', hb', -⟩ := bind_eq_ok.mp h
      have hpos : ∀ b₁, setPtr b 0 e.ptr = .ok b₁ →
          kvPos b₁ 0 = .ok (header + 10 * (e :: es).length) := by
        intro b₁ hb₁
        have hl₁ := putUintAt_length hb₁
        obtain ⟨hin, rfl⟩ := putUintAt_eq_ok hb₁
        simp only [header] at hsmall hin hhead
        rw [u16_of_lt (by omega)] at hin
        rw [kvPos, nkeys_of (n := (e :: es).length) ?_ (by omega) (by omega), ok_bind]
        · rw [getOffset, if_pos rfl, pure_eq_ok, ok_bind, pure_eq_ok,
            u16_of_lt (by simp only [header]; omega)]
          congr 1
          omega
        · rw [u16_of_lt (by simp only [header]; omega), slice_splice_of_disjoint _ _
            (by rw [length_leBytes]; exact hin) (Or.inl (by simp only [header]; omega))]
          exact hnk
      have hroom := nodeAppendKV_room hpos (by omega) hb'
      omega

/-- Building returns a node with every key and all values but the end
of the last one, or faults. -/
theorem build_written {buf new : BNode} {ty : Nat} {es : List Entry}
    (hbuf : buf.length < 65536) (hty : ty < 65536) (hsmall : nodeSize es < 65536)
    (h : build buf ty es = .ok new) :
    Written new ty es.length es ∧ new.length = buf.length := by
  have hroom := build_room hsmall h
  obtain ⟨b, hb, hhold, hlen⟩ := holds_setHeader buf ty es.length hbuf hty hroom
  rw [build, hb, ok_bind] at h
  obtain ⟨hw, hl⟩ := hhold.written.appendAll es (by rw [List.length_nil]; omega)
    (by rw [List.nil_append]; exact hsmall) h
  exact ⟨hw, hl.trans hlen⟩

/-- Without values nothing can be missing. -/
theorem Written.encodes_of_bare {buf : BNode} {ty : Nat} {es : List Entry}
    (h : Written buf ty es.length es) (hbare : ∀ e ∈ es, e.val = []) :
    Encodes buf ty es := by
  refine h.holds ?_
  rcases List.eq_nil_or_concat es with rfl | ⟨init, e, rfl⟩
  · exact h.room
  · rw [List.concat_eq_append] at *
    have hkey := h.keys init.length e (by simp)
    have hval := hbare e (by simp)
    rw [List.take_left] at hkey
    rw [kvSize_append, kvSize_cons, kvSize_nil, Entry.size, hval, List.length_nil]
    omega

end Svacara.Btree
