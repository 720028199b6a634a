import Mathlib.Data.List.Basic

/-!
# Computations that may fail

A computation that may fail either returns a value or ends with an error.  Two things are
said about one: which errors it may end with, and what exactly it requires in order to
return.  Both are passed along `>>=` and through a loop over a list.
-/

namespace AsabruCommons

universe u v

variable {ε : Type u} {α β : Type v}

/-! ## The errors of a computation -/

/-- The computation returns, or it ends with an error that is allowed. -/
def EndsIn (allowed : ε → Prop) (x : Except ε α) : Prop :=
  (∃ a, x = .ok a) ∨ ∃ e, x = .error e ∧ allowed e

theorem endsIn_ok (allowed : ε → Prop) (a : α) : EndsIn allowed (.ok a : Except ε α) :=
  .inl ⟨a, rfl⟩

theorem endsIn_error_iff {allowed : ε → Prop} {e : ε} :
    EndsIn allowed (.error e : Except ε α) ↔ allowed e := by
  constructor
  · rintro (⟨a, ha⟩ | ⟨e', he, h⟩)
    · cases ha
    · cases he
      exact h
  · exact fun h ↦ .inr ⟨e, rfl, h⟩

/-- In a sequence both stages end well; the second is only reached with a value that the
first returns. -/
theorem endsIn_bind_iff {allowed : ε → Prop} {x : Except ε α} {f : α → Except ε β} :
    EndsIn allowed (x >>= f) ↔ EndsIn allowed x ∧ ∀ a, x = .ok a → EndsIn allowed (f a) := by
  cases x with
  | error e =>
      show EndsIn allowed (.error e) ↔ _
      rw [endsIn_error_iff, endsIn_error_iff]
      refine ⟨fun h ↦ ⟨h, ?_⟩, fun h ↦ h.1⟩
      intro a ha
      cases ha
  | ok a =>
      show EndsIn allowed (f a) ↔ _
      refine ⟨fun h ↦ ⟨endsIn_ok allowed a, ?_⟩, fun h ↦ h.2 a rfl⟩
      intro a' ha
      cases ha
      exact h

/-! ## What a computation requires -/

/-- The computation returns if the requirement is met, and otherwise it ends with this
error. -/
structure Requires (e : ε) (P : Prop) (x : Except ε α) : Prop where
  returns : P → ∃ a, x = .ok a
  fails : ¬ P → x = .error e

namespace Requires

variable {e : ε} {P Q : Prop} {x : Except ε α}

theorem ok (e : ε) (a : α) : Requires e True (.ok a) where
  returns _ := ⟨a, rfl⟩
  fails h := (h trivial).elim

theorem congr (h : Requires e P x) (hPQ : P ↔ Q) : Requires e Q x where
  returns hQ := h.returns (hPQ.mpr hQ)
  fails hQ := h.fails fun hP ↦ hQ (hPQ.mp hP)

/-- A sequence requires what its stages require. -/
theorem bind {f : α → Except ε β} (hx : Requires e P x) (hf : ∀ a, Requires e Q (f a)) :
    Requires e (P ∧ Q) (x >>= f) where
  returns := by
    rintro ⟨hP, hQ⟩
    obtain ⟨a, rfl⟩ := hx.returns hP
    exact (hf a).returns hQ
  fails := by
    intro h
    by_cases hP : P
    · obtain ⟨a, rfl⟩ := hx.returns hP
      exact (hf a).fails fun hQ ↦ h ⟨hP, hQ⟩
    · rw [hx.fails hP]
      rfl

/-- A loop requires of every element what its body does. -/
theorem mapM {f : α → Except ε β} {P : α → Prop} (hf : ∀ a, Requires e (P a) (f a))
    (l : List α) : Requires e (∀ a ∈ l, P a) (l.mapM f) := by
  induction l with
  | nil => exact (ok e []).congr (by simp)
  | cons a l ih =>
      rw [List.mapM_cons]
      refine ((hf a).bind fun b ↦ ih.bind fun bs ↦ ok e (b :: bs)).congr ?_
      rw [and_true, List.forall_mem_cons]

/-- If the error is not an allowed one, the computation ends well exactly when the
requirement is met. -/
theorem endsIn_iff {allowed : ε → Prop} (h : Requires e P x) (he : ¬ allowed e) :
    EndsIn allowed x ↔ P := by
  constructor
  · intro hends
    by_contra hP
    rw [h.fails hP, endsIn_error_iff] at hends
    exact he hends
  · intro hP
    exact .inl (h.returns hP)

end Requires

/-! ## Loops with a state -/

/-- A loop whose body may fail gets through a list exactly when each element of it is one
that the body gets through. -/
theorem foldlM_ok_iff {f : β → α → Except ε β} {P : α → Prop}
    (hf : ∀ b a, (∃ c, f b a = .ok c) ↔ P a) (l : List α) (b : β) :
    (∃ c, l.foldlM f b = .ok c) ↔ ∀ a ∈ l, P a := by
  induction l generalizing b with
  | nil => exact iff_of_true ⟨b, rfl⟩ (by simp)
  | cons a l ih =>
      rw [List.foldlM_cons, List.forall_mem_cons, ← hf b a]
      cases hstep : f b a with
      | error e =>
          refine iff_of_false ?_ ?_
          · rintro ⟨c, hc⟩
            cases hc
          · rintro ⟨⟨c, hc⟩, -⟩
            cases hc
      | ok b' => exact (ih b').trans ⟨fun h ↦ ⟨⟨b', rfl⟩, h⟩, fun h ↦ h.2⟩

end AsabruCommons
