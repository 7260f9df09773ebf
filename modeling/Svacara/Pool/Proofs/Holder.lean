/-
One holder at a time.

`OneHolder` is the invariant: the free connections are pairwise different
and not in use, the held ones are pairwise different and in use, and both
have been allocated, so that a connection created next is neither. What
`removeConn` does to `conns` plays no part in it.
-/
import Svacara.Pool.Proofs.Step
import Mathlib.Data.List.Nodup

namespace Svacara.Pooling

open Transaction Outcome

structure OneHolder (s : Sys) : Prop where
  free_nodup : s.pool.free.Nodup
  free_idle : ∀ c ∈ s.pool.free, (s.pool.heap c).inUse = false
  free_lt : ∀ c ∈ s.pool.free, c < s.pool.next
  held_nodup : (s.held.map Prod.snd).Nodup
  held_inUse : ∀ a c, (a, c) ∈ s.held → (s.pool.heap c).inUse = true
  held_lt : ∀ a c, (a, c) ∈ s.held → c < s.pool.next

variable {s : Sys}

/-- What is free is not held. -/
theorem OneHolder.not_held (h : OneHolder s) {c : Nat} (hc : c ∈ s.pool.free) (a : Nat) :
    (a, c) ∉ s.held := by
  intro hheld
  exact absurd (h.held_inUse a c hheld) (by simp [h.free_idle c hc])

/-- A client that holds a connection is its only holder. -/
theorem OneHolder.unique (h : OneHolder s) {a b c : Nat} (ha : (a, c) ∈ s.held)
    (hb : (b, c) ∈ s.held) : a = b :=
  congrArg Prod.fst (List.inj_on_of_nodup_map h.held_nodup ha hb rfl)

/-- What is still held after a release. -/
theorem OneHolder.mem_erase (h : OneHolder s) {a b c d : Nat} (ha : (a, c) ∈ s.held) :
    (b, d) ∈ s.held.erase (a, c) ↔ d ≠ c ∧ (b, d) ∈ s.held := by
  rw [(List.Nodup.of_map _ h.held_nodup).mem_erase_iff]
  constructor
  · rintro ⟨hne, hb⟩
    refine ⟨?_, hb⟩
    rintro rfl
    exact hne (by rw [h.unique ha hb])
  · rintro ⟨hne, hb⟩
    refine ⟨?_, hb⟩
    intro heq
    exact hne (congrArg Prod.snd heq)

-- =========================================================== steps

/-- Handing a connection that is not held to a client, in a pool in which
it is neither free nor unused any more. -/
theorem OneHolder.hand (h : OneHolder s) {p : Pool} {c : Nat} (client : Nat)
    (hnot : ∀ a, (a, c) ∉ s.held) (hfree : p.free.Sublist s.pool.free) (hc : c ∉ p.free)
    (hlt : c < p.next) (hnext : s.pool.next ≤ p.next) (huse : (p.heap c).inUse = true)
    (hheap : ∀ d, d ≠ c → p.heap d = s.pool.heap d) :
    OneHolder ⟨p, (client, c) :: s.held⟩ where
  free_nodup := h.free_nodup.sublist hfree
  free_idle d hd := by
    have hne : d ≠ c := by
      rintro rfl
      exact hc hd
    rw [hheap d hne]
    exact h.free_idle d (hfree.subset hd)
  free_lt d hd := Nat.lt_of_lt_of_le (h.free_lt d (hfree.subset hd)) hnext
  held_nodup := by
    rw [List.map_cons, List.nodup_cons]
    refine ⟨?_, h.held_nodup⟩
    intro hmem
    obtain ⟨⟨a, d⟩, ha, rfl⟩ := List.mem_map.mp hmem
    exact hnot a ha
  held_inUse a d hd := by
    rcases List.mem_cons.mp hd with heq | hrest
    · obtain ⟨-, rfl⟩ := Prod.mk.inj heq
      exact huse
    · have hne : d ≠ c := by
        rintro rfl
        exact hnot a hrest
      rw [hheap d hne]
      exact h.held_inUse a d hrest
  held_lt a d hd := by
    rcases List.mem_cons.mp hd with heq | hd
    · obtain ⟨-, rfl⟩ := Prod.mk.inj heq
      exact hlt
    · exact Nat.lt_of_lt_of_le (h.held_lt a d hd) hnext

/-- An `Acquire` hands out a connection that nobody holds. -/
theorem OneHolder.not_held_of_acquired (h : OneHolder s) {clock : Clock} {c : Nat} {p : Pool}
    (hacq : Acquired s.pool clock (.ok c) p) (a : Nat) : (a, c) ∉ s.held := by
  cases hacq with
  | reused _ rest conns hfree =>
      apply h.not_held
      simp [hfree]
  | created =>
      intro ha
      exact absurd (h.held_lt a _ ha) (by omega)

theorem OneHolder.acquire (h : OneHolder s) {clock : Clock} {c : Nat} {p : Pool} (client : Nat)
    (hacq : Acquired s.pool clock (.ok c) p) : OneHolder ⟨p, (client, c) :: s.held⟩ := by
  have hnot := h.not_held_of_acquired hacq
  cases hacq with
  | reused _ rest conns hfree =>
      have hnodup := h.free_nodup
      rw [hfree, List.nodup_cons] at hnodup
      apply h.hand client hnot
      · simp [Pool.taken, hfree]
      · exact hnodup.1
      · exact h.free_lt c (by simp [hfree])
      · exact le_refl _
      · simp [Pool.taken, Pool.modify]
      · intro d hd
        simp [Pool.taken, Pool.modify, hd]
  | created hfree =>
      apply h.hand client hnot
      · simp [Pool.grown]
      · simp [Pool.grown, hfree]
      · simp [Pool.grown]
      · simp [Pool.grown]
      · simp [Pool.grown]
      · intro d hd
        simp [Pool.grown, hd]

theorem OneHolder.release (h : OneHolder s) {a c : Nat} (ha : (a, c) ∈ s.held) (now : Time)
    (m : Manager) :
    OneHolder ⟨{ s.pool with
        heap := Function.update s.pool.heap c (s.pool.put c now), mgr := m,
        free := s.pool.free ++ [c] },
      s.held.erase (a, c)⟩ := by
  have hfree : c ∉ s.pool.free := fun hc => h.not_held hc a ha
  constructor
  · exact List.nodup_append.mpr ⟨h.free_nodup, by simp, by
      intro x hx y hy
      rw [List.mem_singleton.mp hy]
      rintro rfl
      exact hfree hx⟩
  · intro d hd
    rcases List.mem_append.mp hd with hold | hnew
    · have hne : d ≠ c := by
        rintro rfl
        exact hfree hold
      simp [hne, h.free_idle d hold]
    · simp [List.mem_singleton.mp hnew, Pool.put]
  · intro d hd
    rcases List.mem_append.mp hd with hd | hd
    · exact h.free_lt d hd
    · rw [List.mem_singleton.mp hd]
      exact h.held_lt a c ha
  · exact h.held_nodup.sublist (List.erase_sublist.map _)
  · intro b d hd
    obtain ⟨hne, hd⟩ := (h.mem_erase ha).mp hd
    simp [hne, h.held_inUse b d hd]
  · intro b d hd
    exact h.held_lt b d ((h.mem_erase ha).mp hd).2

theorem OneHolder.close (h : OneHolder s) : OneHolder ⟨s.pool.close, s.held⟩ where
  free_nodup := List.nodup_nil
  free_idle _ hc := absurd hc List.not_mem_nil
  free_lt _ hc := absurd hc List.not_mem_nil
  held_nodup := h.held_nodup
  held_inUse := h.held_inUse
  held_lt := h.held_lt

theorem OneHolder.method (h : OneHolder s) (c : Nat) (call : ConnCall) :
    OneHolder ⟨(s.pool.onConn c call).2, s.held⟩ := by
  have huse : ∀ d, ((s.pool.onConn c call).2.heap d).inUse = (s.pool.heap d).inUse := by
    intro d
    obtain ⟨tx, htx, -⟩ := onConn_heap s.pool c call d
    rw [htx]
  constructor
  · exact h.free_nodup
  · intro d hd
    rw [huse]
    exact h.free_idle d hd
  · exact h.free_lt
  · exact h.held_nodup
  · intro a d hd
    rw [huse]
    exact h.held_inUse a d hd
  · exact h.held_lt

theorem OneHolder.cases {s' : Sys} {k : Call} {a : Answer} (h : OneHolder s)
    (hstep : step s k = .ok (a, s')) : Stepped s k a s' :=
  step_cases h.free_idle h.held_inUse hstep

/-- What a client gets from an `Acquire`. -/
theorem OneHolder.of_acquire {s' : Sys} {client c : Nat} {clock : Clock} (h : OneHolder s)
    (hstep : step s (.acquire client clock) = .ok (.acquired (.ok c), s')) :
    Acquired s.pool clock (.ok c) s'.pool ∧ s'.held = (client, c) :: s.held := by
  cases h.cases hstep with
  | acquired _ _ _ p hacq => exact ⟨hacq, rfl⟩

theorem OneHolder.step {s' : Sys} {k : Call} {a : Answer} (h : OneHolder s)
    (hstep : step s k = .ok (a, s')) : OneHolder s' := by
  cases h.cases hstep with
  | acquired client clock c p hacq => exact h.acquire client hacq
  | refused => exact h
  | released client c now m hheld => exact h.release hheld now m
  | closed => exact h.close
  | called client c call => exact h.method c call
  | notReleased => exact h
  | notCalled => exact h

-- ============================================================ runs

/-- What a new pool starts with: free connections, numbered from 0. -/
theorem createConns_eq (p : Pool) (readings : Nat → Time × Time) (n : Nat)
    (hnext : p.next = 0) (hfree : p.free = []) (hconns : p.conns = []) :
    (p.createConns readings n).next = n ∧
      (p.createConns readings n).free = List.range n ∧
      (p.createConns readings n).conns = List.range n ∧
      (p.createConns readings n).config = p.config ∧
      (p.createConns readings n).closed = p.closed ∧
      ∀ c < n, ((p.createConns readings n).heap c).inUse = false ∧
        ((p.createConns readings n).heap c).tx = none := by
  induction n with
  | zero => simp [Pool.createConns, hnext, hfree, hconns]
  | succ n ih =>
      obtain ⟨ihnext, ihfree, ihconns, ihconfig, ihclosed, ihheap⟩ := ih
      simp only [Pool.createConns, Pool.createConn, ihnext, ihfree, ihconns, List.range_succ]
      refine ⟨trivial, trivial, trivial, ihconfig, ihclosed, ?_⟩
      intro c hc
      by_cases heq : c = n
      · simp [heq]
      · simp [heq, ihheap c (by omega)]

/-- A new pool has its `MinConns` connections, all free. -/
theorem newPool_eq (db : Store) (config : Config) (readings : Nat → Time × Time) :
    let n := config.withDefaults.minConns.toNat
    let p := newPool db config readings
    p.next = n ∧ p.free = List.range n ∧ p.conns = List.range n ∧
      p.config = config.withDefaults ∧ p.closed = false ∧
      ∀ c < n, (p.heap c).inUse = false ∧ (p.heap c).tx = none :=
  createConns_eq
    { config := config.withDefaults, mgr := newManager db, heap := fun _ => Conn.blank,
      next := 0, conns := [], free := [], nextID := 0, closed := false }
    readings config.withDefaults.minConns.toNat rfl rfl rfl

theorem oneHolder_init (db : Store) (config : Config) (readings : Nat → Time × Time) :
    OneHolder (Sys.init db config readings) := by
  obtain ⟨hnext, hfree, -, -, -, hheap⟩ := newPool_eq db config readings
  constructor
  · simp only [Sys.init, hfree]
    exact List.nodup_range
  · intro c hc
    simp only [Sys.init, hfree, List.mem_range] at hc
    exact (hheap c hc).1
  · intro c hc
    simp only [Sys.init, hfree, hnext, List.mem_range] at hc ⊢
    exact hc
  · exact List.nodup_nil
  · simp [Sys.init]
  · simp [Sys.init]

theorem oneHolder_run {db : Store} {config : Config} {readings : Nat → Time × Time}
    {calls : List Call} (h : run (Sys.init db config readings) calls = .ok s) :
    OneHolder s :=
  run_induction (fun _ _ _ _ hs hstep => hs.step hstep) (oneHolder_init db config readings) h

/-- In every run in which the calls return, the free connections are
different and not in use, the held ones are in use and not free, and an
`Acquire` hands out one that no client holds. -/
theorem one_holder_at_a_time (db : Store) (config : Config) (readings : Nat → Time × Time)
    (calls : List Call) (s : Sys) (h : run (Sys.init db config readings) calls = .ok s) :
    s.pool.free.Nodup ∧
      (∀ c ∈ s.pool.free, (s.pool.heap c).inUse = false) ∧
      (∀ a c, (a, c) ∈ s.held → (s.pool.heap c).inUse = true ∧ c ∉ s.pool.free) ∧
      ∀ client clock c s', step s (.acquire client clock) = .ok (.acquired (.ok c), s') →
        ∀ a, (a, c) ∉ s.held := by
  have hone := oneHolder_run h
  refine ⟨hone.free_nodup, hone.free_idle, ?_, ?_⟩
  · intro a c ha
    exact ⟨hone.held_inUse a c ha, fun hc => hone.not_held hc a ha⟩
  · intro client clock c s' hstep
    exact hone.not_held_of_acquired (hone.of_acquire hstep).1

/-- Two clients, one of which has given its connection back. -/
theorem one_holder_of_two_clients :
    ∃ s, run (Sys.init (fun _ => none) ⟨5, 1, 10, 100, sessionMode⟩ fun _ => (0, 0))
        [.acquire 7 ⟨1, 1, 1⟩, .acquire 8 ⟨2, 2, 2⟩, .release 7 0 3] = .ok s ∧
      s.held = [(8, 1)] ∧ s.pool.free = [0] ∧ (s.pool.heap 1).inUse = true := by
  refine ⟨_, rfl, rfl, rfl, ?_⟩
  exact ((one_holder_at_a_time (fun _ => none) ⟨5, 1, 10, 100, sessionMode⟩ (fun _ => (0, 0))
    [.acquire 7 ⟨1, 1, 1⟩, .acquire 8 ⟨2, 2, 2⟩, .release 7 0 3] _ rfl).2.2.1 8 1
    (List.mem_singleton.mpr rfl)).1

end Svacara.Pooling
