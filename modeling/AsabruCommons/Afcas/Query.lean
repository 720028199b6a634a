import AsabruCommons.Afcas.Client
import Mathlib.Data.List.Infix

/-!
# Authorization queries

The URI of a query is put together from the three names without any escaping.  It
determines them exactly when none of them contains a parameter name that comes after it
or around it in the URI.
-/

namespace AsabruCommons.Afcas

open Search

namespace AfcasClient

theorem authorizationUri_inj {p o r p' o' r' : Str} :
    authorizationUri p o r = authorizationUri p' o' r' ↔
      p ++ (operationParameter ++ (o ++ (resourceParameter ++ r))) =
        p' ++ (operationParameter ++ (o' ++ (resourceParameter ++ r'))) := by
  simp only [authorizationUri, List.append_assoc, List.append_cancel_left_eq]

/-- No name contains a parameter name at which the URI could be cut instead. -/
structure Separated (p o r : Str) : Prop where
  principal : ¬ operationParameter <:+: p
  operation : ¬ operationParameter <:+: o
  operation' : ¬ resourceParameter <:+: o
  resource : ¬ resourceParameter <:+: r

instance (p o r : Str) : Decidable (Separated p o r) :=
  decidable_of_iff
    (¬ operationParameter <:+: p ∧ ¬ operationParameter <:+: o ∧ ¬ resourceParameter <:+: o ∧
      ¬ resourceParameter <:+: r)
    ⟨fun h ↦ ⟨h.1, h.2.1, h.2.2.1, h.2.2.2⟩, fun h ↦ ⟨h.1, h.2, h.3, h.4⟩⟩

/-- A parameter name can overlap neither itself nor another place where it stands. -/
theorem parameter_cases {s : Str} (hs : ∃ t, s = '&' :: t ∧ '&' ∉ t) {l m l' m' : Str}
    (h : l ++ (s ++ m) = l' ++ (s ++ m')) :
    (l = l' ∧ m = m') ∨ (∃ k, l' = l ++ (s ++ k) ∧ m = k ++ (s ++ m')) ∨
      ∃ k, l = l' ++ (s ++ k) ∧ m' = k ++ (s ++ m) := by
  obtain ⟨t, rfl, ht⟩ := hs
  exact append_sep_cases ht h

theorem operationParameter_eq : ∃ t, operationParameter = '&' :: t ∧ '&' ∉ t :=
  ⟨"operationId=".toList, rfl, by decide⟩

theorem resourceParameter_eq : ∃ t, resourceParameter = '&' :: t ∧ '&' ∉ t :=
  ⟨"resourceId=".toList, rfl, by decide⟩

theorem infix_middle (l s m : Str) : s <:+: l ++ (s ++ m) :=
  ⟨l, m, (List.append_assoc ..)⟩

/-- A text is shorter than one that contains it and more. -/
theorem append_sep_ne {s : Str} (hs : s ≠ []) (l m : Str) : l ++ s ++ m ≠ l := by
  intro h
  have hlength := congrArg List.length h
  have hpos := List.length_pos_of_ne_nil hs
  rw [List.length_append, List.length_append] at hlength
  omega

theorem self_ne_append_sep {s : Str} (hs : s ≠ []) (l m : Str) : l ≠ l ++ (s ++ m) := by
  rw [← List.append_assoc]
  exact (append_sep_ne hs l m).symm

theorem operationParameter_ne_nil : operationParameter ≠ [] := by decide

theorem resourceParameter_ne_nil : resourceParameter ≠ [] := by decide

/-- The names of a separated query can be read off its URI. -/
theorem Separated.inj {p o r : Str} (h : Separated p o r) {p' o' r' : Str}
    (heq : authorizationUri p o r = authorizationUri p' o' r') : p = p' ∧ o = o' ∧ r = r' := by
  rcases parameter_cases operationParameter_eq (authorizationUri_inj.mp heq) with
    ⟨rfl, heq'⟩ | ⟨k, -, heq'⟩ | ⟨k, rfl, -⟩
  · rcases parameter_cases resourceParameter_eq heq' with ⟨rfl, rfl⟩ | ⟨k, -, rfl⟩ | ⟨k, rfl, -⟩
    · exact ⟨rfl, rfl, rfl⟩
    · exact absurd (infix_middle ..) h.resource
    · exact absurd (infix_middle ..) h.operation'
  · -- a later operation parameter would lie in the operation, or behind a resource parameter
    have heq'' : o ++ (resourceParameter ++ r) =
        (k ++ (operationParameter ++ o')) ++ (resourceParameter ++ r') := by
      rw [heq', List.append_assoc, List.append_assoc]
    rcases parameter_cases resourceParameter_eq heq'' with ⟨rfl, -⟩ | ⟨j, -, rfl⟩ | ⟨j, rfl, -⟩
    · exact absurd (infix_middle ..) h.operation
    · exact absurd (infix_middle ..) h.resource
    · refine absurd ?_ h.operation
      rw [List.append_assoc, List.append_assoc]
      exact infix_middle ..
  · exact absurd (infix_middle ..) h.principal

/-- **When a query is unambiguous.**  No other triple has the same URI exactly when no
name contains a parameter name that could be taken for the one of the URI. -/
theorem unambiguous_iff (p o r : Str) :
    (∀ p' o' r', authorizationUri p o r = authorizationUri p' o' r' → p = p' ∧ o = o' ∧ r = r') ↔
      Separated p o r := by
  constructor
  · intro h
    refine ⟨?_, ?_, ?_, ?_⟩
    · rintro ⟨x, y, rfl⟩
      have heq := h x (y ++ (operationParameter ++ o)) r
        (authorizationUri_inj.mpr (by simp only [List.append_assoc]))
      exact append_sep_ne operationParameter_ne_nil x y heq.1
    · rintro ⟨x, y, rfl⟩
      have heq := h (p ++ (operationParameter ++ x)) y r
        (authorizationUri_inj.mpr (by simp only [List.append_assoc]))
      exact self_ne_append_sep operationParameter_ne_nil p x heq.1
    · rintro ⟨x, y, rfl⟩
      have heq := h p x (y ++ (resourceParameter ++ r))
        (authorizationUri_inj.mpr (by simp only [List.append_assoc]))
      exact append_sep_ne resourceParameter_ne_nil x y heq.2.1
    · rintro ⟨x, y, rfl⟩
      have heq := h p (o ++ (resourceParameter ++ x)) y
        (authorizationUri_inj.mpr (by simp only [List.append_assoc]))
      exact self_ne_append_sep resourceParameter_ne_nil o x heq.2.1
  · intro h p' o' r' heq
    exact h.inj heq

/-- A principal name that brings an operation with it. -/
theorem unambiguous_forged :
    ¬ ∀ p o r p' o' r', authorizationUri p o r = authorizationUri p' o' r' →
      p = p' ∧ o = o' ∧ r = r' := by
  intro h
  have heq := h "a&operationId=read".toList "write".toList "x".toList "a".toList
    "read&operationId=write".toList "x".toList (by decide)
  exact absurd heq.1 (by decide)

end AfcasClient

end AsabruCommons.Afcas
