/-
Computations on a state that may fail and keep a log.

A program is instrumented by writing it a second time in this monad: its
steps append to the log what should be observed of them. `erase` takes
the log off again, and commutes with sequencing, so that the instrumented
program is shown to be the original one step by step. `Clean ok p s a t`
says of a run that it returned `a` in state `t` and logged nothing but
what `ok` accepts; a sequence is clean exactly if both its parts are.
-/
import Svacara.Lib.Outcome

/-- A computation on `σ` that fails with `ε` and logs `ω`. -/
def Logged (ε σ ω α : Type) := σ → Except ε ((α × σ) × List ω)

namespace Logged

open Outcome

variable {ε σ ω α β : Type}

instance : Monad (Logged ε σ ω) where
  pure a := fun s => .ok ((a, s), [])
  bind p f := fun s => do
    let (r, log) ← p s
    let (r', log') ← f r.1 r.2
    return (r', log ++ log')

/-- The state. -/
def get : Logged ε σ ω σ := fun s => .ok ((s, s), [])

def fail (e : ε) : Logged ε σ ω α := fun _ => .error e

-- ========================================================= erasure

/-- The computation without its log. -/
def erase (p : Logged ε σ ω α) (s : σ) : Except ε (α × σ) := (p s).map Prod.fst

@[simp] theorem erase_pure (a : α) (s : σ) :
    erase (pure a : Logged ε σ ω α) s = .ok (a, s) := rfl

@[simp] theorem erase_get (s : σ) : erase (get : Logged ε σ ω σ) s = .ok (s, s) := rfl

@[simp] theorem erase_fail (e : ε) (s : σ) :
    erase (fail e : Logged ε σ ω α) s = .error e := rfl

@[simp] theorem erase_bind (p : Logged ε σ ω α) (f : α → Logged ε σ ω β) (s : σ) :
    erase (p >>= f) s = (erase p s >>= fun r => erase (f r.1) r.2) := by
  show Except.map Prod.fst (p s >>= _) = (Except.map Prod.fst (p s) >>= _)
  cases p s with
  | error e => rfl
  | ok r =>
      show Except.map Prod.fst (f r.1.1 r.1.2 >>= _) = Except.map Prod.fst (f r.1.1 r.1.2)
      cases f r.1.1 r.1.2 with
      | error e => rfl
      | ok r' => rfl

-- ====================================================== clean runs

/-- From `s` the computation returns `a` in `t`, and `ok` holds of what it
logs. -/
def Clean (ok : ω → Prop) (p : Logged ε σ ω α) (s : σ) (a : α) (t : σ) : Prop :=
  ∃ log, p s = .ok ((a, t), log) ∧ ∀ e ∈ log, ok e

variable {ok : ω → Prop}

theorem Clean.erase_eq {p : Logged ε σ ω α} {s t : σ} {a : α} (h : Clean ok p s a t) :
    erase p s = .ok (a, t) := by
  obtain ⟨log, hp, -⟩ := h
  rw [erase, hp]
  rfl

/-- Where nothing is asked of the log, a run is clean. -/
theorem clean_of_erase {p : Logged ε σ ω α} {s t : σ} {a : α} (h : erase p s = .ok (a, t)) :
    Clean (fun _ => True) p s a t := by
  rw [erase] at h
  cases hp : p s with
  | error e =>
      rw [hp] at h
      cases h
  | ok r =>
      obtain ⟨r, log⟩ := r
      rw [hp] at h
      obtain rfl : r = (a, t) := Except.ok.inj h
      exact ⟨log, hp, fun _ _ => trivial⟩

@[simp] theorem clean_pure {a b : α} {s t : σ} :
    Clean ok (pure a : Logged ε σ ω α) s b t ↔ b = a ∧ t = s := by
  constructor
  · intro h
    obtain ⟨log, hp, -⟩ := h
    obtain ⟨⟨rfl, rfl⟩, -⟩ : (a = b ∧ s = t) ∧ [] = log := by
      simpa using Prod.mk.inj (Except.ok.inj hp)
    exact ⟨rfl, rfl⟩
  · intro h
    obtain ⟨rfl, rfl⟩ := h
    exact ⟨[], rfl, by simp⟩

@[simp] theorem clean_get {s t u : σ} :
    Clean ok (get : Logged ε σ ω σ) s u t ↔ u = s ∧ t = s := clean_pure

@[simp] theorem clean_fail {e : ε} {s t : σ} {a : α} :
    Clean ok (fail e : Logged ε σ ω α) s a t ↔ False := by
  constructor
  · intro h
    obtain ⟨log, hp, -⟩ := h
    cases hp
  · exact False.elim

/-- A sequence logs what its parts log. -/
theorem bind_run {p : Logged ε σ ω α} {f : α → Logged ε σ ω β} {s u : σ} {b : β}
    {log : List ω} :
    (p >>= f) s = .ok ((b, u), log) ↔ ∃ a t log₁ log₂, p s = .ok ((a, t), log₁)
      ∧ f a t = .ok ((b, u), log₂) ∧ log = log₁ ++ log₂ := by
  constructor
  · intro h
    obtain ⟨⟨⟨a, t⟩, log₁⟩, hp, hrun⟩ := bind_eq_ok.mp h
    obtain ⟨⟨r, log₂⟩, hf, hrun⟩ := bind_eq_ok.mp hrun
    obtain ⟨rfl, rfl⟩ := Prod.mk.inj (Except.ok.inj hrun)
    exact ⟨a, t, log₁, log₂, hp, hf, rfl⟩
  · intro h
    obtain ⟨a, t, log₁, log₂, hp, hf, rfl⟩ := h
    show (p s >>= _) = _
    rw [hp, ok_bind]
    show (f a t >>= _) = _
    rw [hf]
    rfl

/-- A sequence is clean if and only if its parts are. -/
theorem clean_bind {p : Logged ε σ ω α} {f : α → Logged ε σ ω β} {s u : σ} {b : β} :
    Clean ok (p >>= f) s b u ↔ ∃ a t, Clean ok p s a t ∧ Clean ok (f a) t b u := by
  constructor
  · intro h
    obtain ⟨log, hrun, hlog⟩ := h
    obtain ⟨a, t, log₁, log₂, hp, hf, rfl⟩ := bind_run.mp hrun
    obtain ⟨hlog₁, hlog₂⟩ := List.forall_mem_append.mp hlog
    exact ⟨a, t, ⟨log₁, hp, hlog₁⟩, ⟨log₂, hf, hlog₂⟩⟩
  · intro h
    obtain ⟨a, t, ⟨log₁, hp, hlog₁⟩, ⟨log₂, hf, hlog₂⟩⟩ := h
    exact ⟨log₁ ++ log₂, bind_run.mpr ⟨a, t, log₁, log₂, hp, hf, rfl⟩,
      List.forall_mem_append.mpr ⟨hlog₁, hlog₂⟩⟩

end Logged
