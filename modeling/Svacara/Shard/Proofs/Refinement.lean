/-
Shards against a single store.

A DB whose shards are correct ordered maps spreads a map over them: each
shard has the bindings of the keys that hash to it (`Spread`). A call
keeps this, and all answers but the visits of an iterator are those of
the single store. An iterator walks the shard of the key it was sought
with, so it visits what the single store's would just when none of that
lies in another shard (`call_sharded`); along a run, the answers agree
just when every seek is of this kind (`answers_sharded_iff`).
-/
import Svacara.Shard.Shard
import Svacara.Storage.Recovery

namespace Svacara.Shard

open Kvstore SortedMap Outcome

variable {σ τ : Type}

/-- The shard of a key among `n`. -/
def slot (crc : Bytes → UInt32) (n : Nat) (key : Bytes) : Nat := (crc key).toNat % n

section

variable (crc : Bytes → UInt32) (kv : Storage σ) (one : Storage τ)

/-- Each shard has the bindings of its own keys. -/
def Spread (shards : List σ) (t : τ) : Prop :=
  ∀ i s, shards[i]? = some s → ∀ key,
    kv.get s key = if slot crc shards.length key = i then one.get t key else none

/-- No entry that a seek would visit lies outside the shard of the key
sought. -/
def Nearby (content : τ → List (Bytes × Bytes)) (n : Nat) (t : τ) : Call → Prop
  | .seek key => ∀ e ∈ fromFloor key (content t), slot crc n e.1 = slot crc n key
  | _ => True

/-- The same of every call of a run, in the state it is made in. -/
def AllNearby (content : τ → List (Bytes × Bytes)) (n : Nat) : τ → List Call → Prop
  | _, [] => True
  | t, c :: calls =>
      Nearby crc content n t c ∧ AllNearby content n (storeCall one t c).2 calls

end

-- ======================================================= placement

variable {crc : Bytes → UInt32} {kv : Storage σ} {one : Storage τ}
  {shards : List σ} {config : ShardConfig} {t : τ}

theorem place_hash (crc : Bytes → UInt32) (hcfg : config.strategy = hashShard)
    (hne : shards ≠ []) (key : Bytes) :
    ∃ s, shards[slot crc shards.length key]? = some s ∧
      place crc shards config key = .ok (slot crc shards.length key, s) := by
  have hpos : 0 < shards.length := List.length_pos_of_ne_nil hne
  have hlt : slot crc shards.length key < shards.length := Nat.mod_lt _ hpos
  obtain ⟨s, hs⟩ : ∃ s, shards[slot crc shards.length key]? = some s :=
    ⟨_, List.getElem?_eq_getElem hlt⟩
  have hshard : shardForKey crc shards.length config key
      = .ok (slot crc shards.length key : Nat) := by
    simp [shardForKey, hcfg, hpos.ne', slot]
  refine ⟨s, hs, ?_⟩
  rw [place, hshard, ok_bind, if_neg (by omega)]
  simp [hs]

-- ========================================================= content

variable {contentS : σ → List (Bytes × Bytes)} {contentT : τ → List (Bytes × Bytes)}

/-- A shard's entries are the whole store's with its own keys. -/
theorem content_shard (hS : kv.IsOrdered contentS) (hT : one.IsOrdered contentT)
    (h : Spread crc kv one shards t) {i : Nat} {s : σ} (hs : shards[i]? = some s) :
    contentS s = (contentT t).filter fun e => decide (slot crc shards.length e.1 = i) := by
  apply Sorted.ext (hS.sorted s) ((hT.sorted t).filter _)
  intro key
  rw [← hS.get_eq, h i s hs,
    lookup_filter (fun key => decide (slot crc shards.length key = i)), ← hT.get_eq]
  simp

/-- Replacing the key's own shard and the single store by ones that differ
from the old in the key's binding only, and agree on it. -/
theorem Spread.update (h : Spread crc kv one shards t) {s s' : σ} {t' : τ} {key : Bytes}
    (hs : shards[slot crc shards.length key]? = some s)
    (hkey : kv.get s' key = one.get t' key)
    (hS : ∀ k, k ≠ key → kv.get s' k = kv.get s k)
    (hT : ∀ k, k ≠ key → one.get t' k = one.get t k) :
    Spread crc kv one (shards.set (slot crc shards.length key) s') t' := by
  intro i s₀ hi k
  rw [List.length_set]
  have hlt := (List.getElem?_eq_some_iff.mp hs).1
  by_cases hslot : slot crc shards.length key = i
  · obtain rfl : s' = s₀ := by
      rw [hslot, List.getElem?_set_self (hslot ▸ hlt)] at hi
      exact Option.some.inj hi
    by_cases hk : k = key
    · rw [hk, hkey, if_pos hslot]
    · rw [hS k hk, hT k hk, h i s (hslot ▸ hs)]
  · rw [List.getElem?_set_ne hslot] at hi
    rw [h i s₀ hi]
    by_cases hk : k = key
    · rw [hk, if_neg hslot, if_neg hslot]
    · rw [hT k hk]

-- =========================================================== steps

/-- One call: the map stays spread, and the answer is the single store's
just when the call is near. -/
theorem call_sharded (hS : kv.IsOrdered contentS) (hT : one.IsOrdered contentT)
    (hcfg : config.strategy = hashShard) (hne : shards ≠ [])
    (h : Spread crc kv one shards t) (c : Call) :
    ∃ a shards', DB.call crc kv (.sharded shards config) c = .ok (a, .sharded shards' config) ∧
      shards'.length = shards.length ∧ Spread crc kv one shards' (storeCall one t c).2 ∧
      (a = (storeCall one t c).1 ↔ Nearby crc contentT shards.length t c) := by
  cases c with
  | get key =>
      obtain ⟨s, hs, hplace⟩ := place_hash crc hcfg hne key
      refine ⟨.got (kv.get s key), shards, ?_, rfl, h, ?_⟩
      · simp [DB.call, DB.get, hplace]
      · simp [storeCall, Nearby, h _ s hs]
  | set key val =>
      obtain ⟨s, hs, hplace⟩ := place_hash crc hcfg hne key
      refine ⟨.set (kv.set s key val).1,
        shards.set (slot crc shards.length key) (kv.set s key val).2, ?_,
        List.length_set, ?_, ?_⟩
      · simp [DB.call, DB.set, hplace]
      · apply h.update hs
        · rw [hS.get_set]
          exact (hT.get_set ..).symm
        · exact fun k hk => hS.get_set_of_ne s key val k hk
        · exact fun k hk => hT.get_set_of_ne t key val k hk
      · simp [storeCall, Nearby, hS.set_ok, hT.set_ok]
  | del key =>
      obtain ⟨s, hs, hplace⟩ := place_hash crc hcfg hne key
      refine ⟨.deleted (kv.del s key).1,
        shards.set (slot crc shards.length key) (kv.del s key).2, ?_,
        List.length_set, ?_, ?_⟩
      · simp [DB.call, DB.del, hplace]
      · apply h.update hs
        · rw [hS.get_del]
          exact (hT.get_del ..).symm
        · exact fun k hk => hS.get_del_of_ne s key k hk
        · exact fun k hk => hT.get_del_of_ne t key k hk
      · simp [storeCall, Nearby, hS.del_ok, hT.del_ok, h _ s hs]
  | seek key =>
      obtain ⟨s, hs, hplace⟩ := place_hash crc hcfg hne key
      refine ⟨.visited (kv.seek s key), shards, ?_, rfl, h, ?_⟩
      · simp [DB.call, DB.seek, hplace]
      · have hvisit := fromFloor_filter_eq_iff (k := key)
          (fun k => decide (slot crc shards.length k = slot crc shards.length key))
          (hT.sorted t)
        simp only [storeCall, Nearby, Answer.visited.injEq]
        rw [hS.seek_eq, hT.seek_eq, content_shard hS hT h hs, hvisit]
        simp

-- ============================================================ runs

/-- Along a run the answers agree just when every seek is near. -/
theorem answers_iff_of_spread (hS : kv.IsOrdered contentS) (hT : one.IsOrdered contentT)
    (hcfg : config.strategy = hashShard) (hne : shards ≠ [])
    (h : Spread crc kv one shards t) (calls : List Call) :
    DB.answers crc kv (.sharded shards config) calls = .ok (storeAnswers one t calls)
      ↔ AllNearby crc one contentT shards.length t calls := by
  induction calls generalizing shards t with
  | nil => simp [DB.answers, storeAnswers, AllNearby]
  | cons c calls ih =>
      obtain ⟨a, shards', hcall, hlen, hspread, ha⟩ := call_sharded hS hT hcfg hne h c
      have hne' : shards' ≠ [] := by
        rw [← List.length_pos_iff, hlen, List.length_pos_iff]
        exact hne
      have hrest := ih hne' hspread
      rw [hlen] at hrest
      rw [AllNearby, ← ha, ← hrest, DB.answers, hcall, ok_bind, storeAnswers]
      constructor
      · intro heq
        obtain ⟨as, has, heq⟩ := bind_eq_ok.mp heq
        obtain ⟨rfl, rfl⟩ : a = (storeCall one t c).1 ∧
            as = storeAnswers one (storeCall one t c).2 calls := by simpa using heq
        exact ⟨rfl, has⟩
      · rintro ⟨rfl, has⟩
        simp [has]

/-- Empty shards spread an empty store. -/
theorem spread_empty (hS : kv.IsOrdered contentS) (hT : one.IsOrdered contentT)
    (hempty : ∀ s ∈ shards, contentS s = []) (ht : contentT t = []) :
    Spread crc kv one shards t := by
  intro i s hs key
  rw [hS.get_eq, hT.get_eq, hempty s (List.mem_of_getElem? hs), ht]
  simp

/-- Hashed shards answer every call as the single store does just when no
seek would visit an entry outside the shard of its key. -/
theorem answers_sharded_iff (crc : Bytes → UInt32) (kv : Storage σ) (one : Storage τ)
    (hS : kv.IsOrdered contentS) (hT : one.IsOrdered contentT)
    (config : ShardConfig) (hcfg : config.strategy = hashShard)
    (shards : List σ) (hne : 1 ≤ shards.length) (hempty : ∀ s ∈ shards, contentS s = [])
    (t : τ) (ht : contentT t = []) (calls : List Call) :
    DB.answers crc kv (.sharded shards config) calls = .ok (storeAnswers one t calls)
      ↔ AllNearby crc one contentT shards.length t calls :=
  answers_iff_of_spread hS hT hcfg (List.length_pos_iff.mp hne)
    (spread_empty hS hT hempty ht) calls

/-- With one shard every call is near. -/
theorem allNearby_one (content : τ → List (Bytes × Bytes)) (t : τ) (calls : List Call) :
    AllNearby crc one content 1 t calls := by
  induction calls generalizing t with
  | nil => trivial
  | cons c calls ih =>
      refine ⟨?_, ih _⟩
      cases c with
      | seek key =>
          intro e _
          simp [slot, Nat.mod_one]
      | get key => trivial
      | set key val => trivial
      | del key => trivial

/-- Two of four shards in use, with a seek that finds all it should in the
shard of its key. -/
theorem answers_two_keys :
    DB.answers Storage.checksumIEEE memory
        (.sharded (List.replicate 4 Memory.empty) { strategy := hashShard })
        [.set [97] [1], .set [100] [2], .seek [100], .get [97]]
      = .ok [.set none, .set none, .visited [([100], [2])], .got (some [1])] := by
  have hiff := answers_sharded_iff Storage.checksumIEEE memory memory memory_isOrdered
    memory_isOrdered { strategy := hashShard } rfl (List.replicate 4 Memory.empty)
    (by simp) (by simp [Memory.empty]) Memory.empty rfl
    [.set [97] [1], .set [100] [2], .seek [100], .get [97]]
  refine (hiff.mpr ⟨trivial, trivial, ?_, trivial, trivial⟩).trans ?_
  · show ∀ e ∈ fromFloor _ _, _
    decide +kernel
  · decide +kernel

/-- Two keys in different shards: a seek of the first never reaches the
second. -/
theorem answers_skip_other_shard :
    DB.answers Storage.checksumIEEE memory
        (.sharded (List.replicate 4 Memory.empty) { strategy := hashShard })
        [.set [97] [1], .set [100] [2], .seek [97]]
      = .ok [.set none, .set none, .visited [([97], [1])]] ∧
    storeAnswers memory Memory.empty [.set [97] [1], .set [100] [2], .seek [97]]
      = [.set none, .set none, .visited [([97], [1]), ([100], [2])]] ∧
    DB.answers Storage.checksumIEEE memory
        (.sharded (List.replicate 4 Memory.empty) { strategy := hashShard })
        [.set [97] [1], .set [100] [2], .seek [97]]
      ≠ .ok (storeAnswers memory Memory.empty
        [.set [97] [1], .set [100] [2], .seek [97]]) := by
  refine ⟨?_, ?_, ?_⟩ <;> decide +kernel

end Svacara.Shard
