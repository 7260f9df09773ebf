/-
Postconditions for computations that may fail.

`Meets allow x Q` says that the computation `x` either returned a value
with `Q`, or failed with an error that `allow` accepts. With `allow`
empty it is total correctness; with one error accepted it is the
reading "unless that happens, `Q`", and the accepted error is carried
once, by the bind rule, instead of being split off at every call.
-/
import Mathlib.Logic.Basic
import Mathlib.Data.List.Forall2

namespace Outcome

variable {ε α β : Type _}

@[simp] theorem ok_bind (a : α) (f : α → Except ε β) :
    (Except.ok a >>= f) = f a := rfl

@[simp] theorem error_bind (e : ε) (f : α → Except ε β) :
    ((Except.error e : Except ε α) >>= f) = .error e := rfl

@[simp] theorem pure_eq_ok (a : α) : (pure a : Except ε α) = .ok a := rfl

/-- A sequence that returned has returned from both its parts. -/
theorem bind_eq_ok {x : Except ε α} {f : α → Except ε β} {b : β} :
    (x >>= f) = .ok b ↔ ∃ a, x = .ok a ∧ f a = .ok b := by
  cases x with
  | ok a => exact ⟨fun h => ⟨a, rfl, h⟩, fun ⟨_, ha, hf⟩ => Except.ok.inj ha ▸ hf⟩
  | error e => exact ⟨fun h => (nomatch h), fun ⟨_, ha, _⟩ => (nomatch ha)⟩

/-- A loop over a list returned what it returned for each element. -/
theorem mapM_eq_ok {f : α → Except ε β} {as : List α} {bs : List β} :
    as.mapM f = .ok bs ↔ List.Forall₂ (fun a b => f a = .ok b) as bs := by
  induction as generalizing bs with
  | nil =>
      rw [List.mapM_nil, List.forall₂_nil_left_iff, pure_eq_ok, Except.ok.injEq, eq_comm]
  | cons a as ih =>
      rw [List.mapM_cons, bind_eq_ok, List.forall₂_cons_left_iff]
      constructor
      · rintro ⟨b, hb, hrest⟩
        obtain ⟨bs', hbs, heq⟩ := bind_eq_ok.mp hrest
        exact ⟨b, bs', hb, ih.mp hbs, (Except.ok.inj heq).symm⟩
      · rintro ⟨b, bs', hb, hbs, rfl⟩
        exact ⟨b, hb, bind_eq_ok.mpr ⟨bs', ih.mpr hbs, rfl⟩⟩

/-- Every result of the loop is the result for some element. -/
theorem mapM_mem_ok {f : α → Except ε β} {as : List α} {bs : List β}
    (h : as.mapM f = .ok bs) {b : β} (hb : b ∈ bs) : ∃ a ∈ as, f a = .ok b := by
  have hall := mapM_eq_ok.mp h
  clear h
  induction hall with
  | nil => cases hb
  | cons hab _ ih =>
      rcases List.mem_cons.mp hb with rfl | hb
      · exact ⟨_, List.mem_cons_self, hab⟩
      · obtain ⟨a, ha, hf⟩ := ih hb
        exact ⟨a, List.mem_cons_of_mem _ ha, hf⟩

/-- `x` returned a value with `Q`, or failed with an error in `allow`. -/
def Meets (allow : ε → Prop) (x : Except ε α) (Q : α → Prop) : Prop :=
  (∃ a, x = .ok a ∧ Q a) ∨ ∃ e, x = .error e ∧ allow e

variable {allow : ε → Prop} {x : Except ε α} {P Q : α → Prop}

theorem Meets.of_eq {a : α} (hx : x = .ok a) (h : Q a) : Meets allow x Q :=
  Or.inl ⟨a, hx, h⟩

theorem Meets.ok {a : α} (h : Q a) : Meets allow (.ok a : Except ε α) Q :=
  Meets.of_eq rfl h

theorem Meets.mono (h : Meets allow x P) (hPQ : ∀ a, P a → Q a) :
    Meets allow x Q := by
  rcases h with ⟨a, hx, ha⟩ | herr
  · exact Meets.of_eq hx (hPQ a ha)
  · exact Or.inr herr

theorem Meets.weaken {allow' : ε → Prop} (h : Meets allow x Q)
    (hallow : ∀ e, allow e → allow' e) : Meets allow' x Q := by
  rcases h with hok | ⟨e, hx, he⟩
  · exact Or.inl hok
  · exact Or.inr ⟨e, hx, hallow e he⟩

/-- The value of a postcondition is the one returned. -/
theorem Meets.keep (h : Meets allow x Q) : Meets allow x fun a => x = .ok a ∧ Q a := by
  rcases h with ⟨a, hx, ha⟩ | herr
  · exact Or.inl ⟨a, hx, hx, ha⟩
  · exact Or.inr herr

/-- What a computation that returned guarantees. -/
theorem Meets.get {a : α} (h : Meets allow x Q) (hx : x = .ok a) : Q a := by
  rcases h with ⟨b, hb, hQ⟩ | ⟨e, he, -⟩
  · rw [hx] at hb
    cases hb
    exact hQ
  · rw [hx] at he
    cases he

/-- A computation known to return, as by evaluation, has its result. -/
theorem Meets.ok_of_isOk (h : Meets allow x Q) (hok : x.isOk = true) : ∃ a, x = .ok a ∧ Q a := by
  rcases h with ha | ⟨e, rfl, -⟩
  · exact ha
  · cases hok

/-- Sequencing: what the first part guarantees is all the second may
use, and an accepted failure of either is a failure of the whole. -/
theorem Meets.bind {f : α → Except ε β} {R : β → Prop}
    (h : Meets allow x P) (hf : ∀ a, P a → Meets allow (f a) R) :
    Meets allow (x >>= f) R := by
  rcases h with ⟨a, rfl, ha⟩ | ⟨e, rfl, he⟩
  · exact hf a ha
  · exact Or.inr ⟨e, rfl, he⟩

theorem Meets.ite {y : Except ε α} {c : Prop} [Decidable c] (hx : Meets allow x Q)
    (hy : Meets allow y Q) : Meets allow (if c then x else y) Q := by
  split
  · exact hx
  · exact hy

end Outcome
