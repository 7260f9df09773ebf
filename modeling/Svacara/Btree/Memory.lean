/-
Pages in memory, as the tests of `internal/btree` keep them.

`newMemTest` uses the address of a node's buffer as its pointer; here
addresses are handed out in order, and an allocation fails when none is
left. That no page lies at or above the next address is part of the
type, so every store there is obeys the contract (`memOps_lawful`).
-/
import Svacara.Btree.FreeRun

namespace Svacara.Btree

open Outcome

structure MemStore where
  pages : Ptr → Option BNode
  next : Nat
  pos : 0 < next
  fresh : ∀ p : Ptr, next ≤ p.toNat → pages p = none

/-- `newMemTest`: no page yet. -/
def MemStore.empty : MemStore where
  pages _ := none
  next := 1
  pos := Nat.one_pos
  fresh _ _ := rfl

def MemStore.put (s : MemStore) (node : BNode) (h : s.next < 2 ^ 64) : MemStore where
  pages := Function.update s.pages (UInt64.ofNat s.next) (some node)
  next := s.next + 1
  pos := Nat.succ_pos _
  fresh p hp := by
    have hne : p ≠ UInt64.ofNat s.next := by
      rintro rfl
      rw [UInt64.toNat_ofNat_of_lt' h] at hp
      omega
    rw [Function.update_of_ne hne]
    exact s.fresh p (by omega)

def MemStore.del (s : MemStore) (ptr : Ptr) : MemStore where
  pages := Function.update s.pages ptr none
  next := s.next
  pos := s.pos
  fresh p hp := by
    by_cases hne : p = ptr
    · rw [hne, Function.update_self]
    · rw [Function.update_of_ne hne]
      exact s.fresh p hp

def memOps : PageOps MemStore where
  getPage s p :=
    match s.pages p with
    | some node => .ok node
    | none => .error (.panic "bad ptr")
  newPage s node :=
    if h : s.next < 2 ^ 64 then .ok (UInt64.ofNat s.next, s.put node h)
    else .error .noPage
  delPage s p :=
    match s.pages p with
    | some _ => .ok (s.del p)
    | none => .error (.panic "double free")

section Pages

variable {s : MemStore} {p : Ptr} {node : BNode}

theorem memOps_getPage_some (h : s.pages p = some node) : memOps.getPage s p = .ok node := by
  simp only [memOps, h]

theorem memOps_getPage_none (h : s.pages p = none) :
    memOps.getPage s p = .error (.panic "bad ptr") := by
  simp only [memOps, h]

theorem memOps_delPage_some (h : s.pages p = some node) :
    memOps.delPage s p = .ok (s.del p) := by
  simp only [memOps, h]

theorem memOps_delPage_none (h : s.pages p = none) :
    memOps.delPage s p = .error (.panic "double free") := by
  simp only [memOps, h]

end Pages

theorem memOps_lawful : Lawful .noPage memOps MemStore.pages where
  getPage s p n hn := memOps_getPage_some hn
  newPage s n := by
    show Returns .noPage (dite _ _ _) _
    by_cases h : s.next < 2 ^ 64
    · rw [dif_pos h]
      have hnat : (UInt64.ofNat s.next).toNat = s.next :=
        UInt64.toNat_ofNat_of_lt' h
      refine Meets.ok ⟨?_, s.fresh _ (by rw [hnat]), rfl⟩
      intro h0
      have hpos := s.pos
      have hzero : (UInt64.ofNat s.next).toNat = 0 := congrArg UInt64.toNat h0
      omega
    · rw [dif_neg h]
      exact Or.inr ⟨_, rfl, rfl⟩
  delPage s p hp := by
    obtain ⟨n, hn⟩ := Option.ne_none_iff_exists'.mp hp
    exact ⟨s.del p, memOps_delPage_some hn, rfl⟩

-- ===================================================== a free list

def MemStore.poke (s : MemStore) (ptr : Ptr) (node : BNode) : MemStore where
  pages := Function.update s.pages ptr ((s.pages ptr).map fun _ => node)
  next := s.next
  pos := s.pos
  fresh p hp := by
    by_cases hne : p = ptr
    · rw [hne] at hp ⊢
      rw [Function.update_self, s.fresh ptr hp]
      rfl
    · rw [Function.update_of_ne hne]
      exact s.fresh p hp

/-- The callbacks of a free list over the same pages. -/
def memFreeOps : FreeOps MemStore where
  getPage := memOps.getPage
  newPage := memOps.newPage
  setPage s p :=
    match s.pages p with
    | some node => .ok (node, s)
    | none => .error (.panic "bad ptr")
  poke := MemStore.poke

theorem memFreeOps_lawful : FreeLawful .noPage memFreeOps MemStore.pages where
  getPage := memOps_lawful.getPage
  getPage_none s p hp := by
    refine ⟨.panic "bad ptr", ?_⟩
    show (match s.pages p with | some node => _ | none => _) = _
    rw [hp]
  newPage := memOps_lawful.newPage
  setPage s p n hn := by
    refine ⟨s, ?_, rfl⟩
    show (match s.pages p with | some node => _ | none => _) = _
    rw [hn]
  setPage_none s p hp := by
    refine ⟨.panic "bad ptr", ?_⟩
    show (match s.pages p with | some node => _ | none => _) = _
    rw [hp]
  poke s p n hp := by
    obtain ⟨old, hold⟩ := Option.ne_none_iff_exists'.mp hp
    show Function.update s.pages p ((s.pages p).map fun _ => n) = _
    rw [hold]
    rfl

end Svacara.Btree
