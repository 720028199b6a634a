import Mathlib.Data.List.Induction

/-!
# A working copy and a saved one

There are two copies of a value.  Actions are done on the one, which is saved over the other
or loaded from it at any time.

An action may be lost, and that is all that can happen to it: either copy is what some of the
actions make of the first value, in their order (`exists_sublists`).  Whether an action is lost
is decided by what comes first behind it, a save or a load (`of_save`, `of_load`).
-/

namespace AsabruCommons.WorkingCopy

universe u v

structure Copies (σ : Type u) where
  working : σ
  saved : σ

inductive Move (α : Type v) where
  | act (a : α)
  | save
  | load

variable {σ : Type u} {α : Type v}

def Copies.move (act : σ → α → σ) (c : Copies σ) : Move α → Copies σ
  | .act a => ⟨act c.working a, c.saved⟩
  | .save => ⟨c.working, c.working⟩
  | .load => ⟨c.saved, c.saved⟩

def Copies.moves (act : σ → α → σ) (c : Copies σ) (ms : List (Move α)) : Copies σ :=
  ms.foldl (Copies.move act) c

/-- The action of a move. -/
def Move.action? : Move α → Option α
  | act a => some a
  | save => none
  | load => none

def actions (ms : List (Move α)) : List α := ms.filterMap Move.action?

@[simp] theorem actions_append (ms ns : List (Move α)) :
    actions (ms ++ ns) = actions ms ++ actions ns := List.filterMap_append

variable {act : σ → α → σ} {c : Copies σ}

theorem moves_append (ms ns : List (Move α)) :
    c.moves act (ms ++ ns) = (c.moves act ms).moves act ns := List.foldl_append

/-- **What the copies are.**  Some of the actions have been done on them, and nothing else. -/
theorem exists_sublists (act : σ → α → σ) (s : σ) (ms : List (Move α)) :
    ∃ kept stored : List α, kept.Sublist (actions ms) ∧ stored.Sublist (actions ms) ∧
      Copies.moves act ⟨s, s⟩ ms = ⟨kept.foldl act s, stored.foldl act s⟩ := by
  induction ms using List.reverseRecOn with
  | nil => exact ⟨[], [], .slnil, .slnil, rfl⟩
  | append_singleton ms m ih =>
      obtain ⟨kept, stored, hkept, hstored, hcopies⟩ := ih
      rw [moves_append, hcopies, actions_append]
      have hmore {as : List α} (h : as.Sublist (actions ms)) :
          as.Sublist (actions ms ++ actions [m]) := h.trans (List.sublist_append_left _ _)
      cases m with
      | act a =>
          refine ⟨kept ++ [a], stored, hkept.append (.refl _), hmore hstored, ?_⟩
          rw [List.foldl_append]
          rfl
      | save => exact ⟨kept, kept, hmore hkept, hmore hkept, rfl⟩
      | load => exact ⟨stored, stored, hmore hstored, hmore hstored, rfl⟩

/-! ## What an action decides -/

section

variable {P : σ → Prop} {b : Prop}

/-- The action does not matter to the property. -/
def Leaves (act : σ → α → σ) (P : σ → Prop) (a : α) : Prop := ∀ s, P (act s a) ↔ P s

/-- As long as no action matters, what both copies agree on stays. -/
theorem moves_of_leaves {ms : List (Move α)} (h : ∀ a ∈ actions ms, Leaves act P a)
    (hworking : P c.working ↔ b) (hsaved : P c.saved ↔ b) :
    (P (c.moves act ms).working ↔ b) ∧ (P (c.moves act ms).saved ↔ b) := by
  induction ms generalizing c with
  | nil => exact ⟨hworking, hsaved⟩
  | cons m ms ih =>
      cases m with
      | act a =>
          have hall : ∀ a' ∈ a :: actions ms, Leaves act P a' := h
          rw [List.forall_mem_cons] at hall
          exact ih hall.2 ((hall.1 _).trans hworking) hsaved
      | save => exact ih h hworking hworking
      | load => exact ih h hsaved hsaved

/-- Actions are done on the working copy only. -/
theorem moves_map_act (as : List α) :
    c.moves act (as.map Move.act) = ⟨as.foldl act c.working, c.saved⟩ := by
  induction as generalizing c with
  | nil => rfl
  | cons a as ih => exact ih

theorem foldl_of_leaves {as : List α} (h : ∀ a ∈ as, Leaves act P a) (s : σ) :
    P (as.foldl act s) ↔ P s := by
  induction as generalizing s with
  | nil => exact Iff.rfl
  | cons a as ih =>
      rw [List.forall_mem_cons] at h
      exact (ih h.2 _).trans (h.1 s)

/-- **Saved first.**  What an action decides is so from the first save on. -/
theorem of_save {a : α} {as : List α} {ms : List (Move α)} (ha : ∀ s, P (act s a) ↔ b)
    (has : ∀ a ∈ as, Leaves act P a) (hms : ∀ a ∈ actions ms, Leaves act P a) :
    (P (c.moves act (.act a :: as.map Move.act ++ .save :: ms)).working ↔ b) ∧
      (P (c.moves act (.act a :: as.map Move.act ++ .save :: ms)).saved ↔ b) := by
  rw [← List.map_cons, moves_append, moves_map_act]
  have hdone : P ((a :: as).foldl act c.working) ↔ b := (foldl_of_leaves has _).trans (ha _)
  exact moves_of_leaves (c := ⟨(a :: as).foldl act c.working, (a :: as).foldl act c.working⟩)
    hms hdone hdone

/-- **Loaded first.**  The action is as if it had not been. -/
theorem of_load (as : List α) {ms : List (Move α)} (hms : ∀ a ∈ actions ms, Leaves act P a) :
    (P (c.moves act (as.map Move.act ++ .load :: ms)).working ↔ P c.saved) ∧
      (P (c.moves act (as.map Move.act ++ .load :: ms)).saved ↔ P c.saved) := by
  rw [moves_append, moves_map_act]
  exact moves_of_leaves (c := ⟨c.saved, c.saved⟩) hms Iff.rfl Iff.rfl

end

end AsabruCommons.WorkingCopy
