import Mathlib.Logic.Basic

/-!
# Mutual exclusion

A mutex is free or has an owner, `Option τ` for threads of type `τ`.  A system has
places in its code where a thread holds the mutex, and `Mutex.Excludes` says that these
places and the owner agree: a thread is at such a place exactly if it is the owner.

An acquisition and a release keep this (`Excludes.acquire`, `Excludes.release`), and so
does every step that changes neither (`Excludes.keep`).  At most one thread holds the
mutex (`Excludes.unique`).
-/

namespace AsabruCommons

universe u

namespace Mutex

variable {τ : Type u}

/-- The threads that hold the mutex are its owner. -/
def Excludes (holds : τ → Prop) (mutex : Option τ) : Prop := ∀ t, holds t ↔ mutex = some t

variable {holds holds' : τ → Prop} {mutex : Option τ}

/-- The owner is the only thread that holds the mutex. -/
theorem Excludes.unique (h : Excludes holds mutex) {t u : τ} (ht : holds t) (hu : holds u) :
    t = u :=
  Option.some.inj (((h t).mp ht).symm.trans ((h u).mp hu))

/-- Nobody holds a mutex that is free. -/
theorem Excludes.not_holds (h : Excludes holds none) (t : τ) : ¬ holds t := fun ht ↦ by
  cases (h t).mp ht

theorem Excludes.keep (h : Excludes holds mutex) (hsame : ∀ t, holds' t ↔ holds t) :
    Excludes holds' mutex := fun t ↦ (hsame t).trans (h t)

/-- A thread takes a mutex that is free. -/
theorem Excludes.acquire (h : Excludes holds none) {t : τ} (ht : holds' t)
    (hother : ∀ u, u ≠ t → (holds' u ↔ holds u)) : Excludes holds' (some t) := by
  intro u
  by_cases hut : u = t
  · subst hut
    exact iff_of_true ht rfl
  · refine iff_of_false (fun hu ↦ h.not_holds u ((hother u hut).mp hu)) fun heq ↦ ?_
    exact hut (Option.some.inj heq).symm

/-- The owner gives it back. -/
theorem Excludes.release (h : Excludes holds mutex) {t : τ} (hown : holds t) (ht : ¬ holds' t)
    (hother : ∀ u, u ≠ t → (holds' u ↔ holds u)) : Excludes holds' none := by
  intro u
  refine iff_of_false (fun hu ↦ ?_) nofun
  by_cases hut : u = t
  · subst hut
    exact ht hu
  · exact hut (h.unique ((hother u hut).mp hu) hown)

end Mutex

end AsabruCommons
