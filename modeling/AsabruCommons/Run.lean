import Mathlib.Data.List.Basic

/-!
# Runs of a step function

A system is given by a partial step function `step : σ → ε → Option σ`: in the
state `s` the event `e` is enabled when `step s e` is some state, and is
disabled otherwise.  All nondeterminism (which thread moves next, what the
environment answers) is in the choice of the events, so a run is a list of
events and the state it ends in is computed.

* `Run.run` performs a list of events;
* `Run.Along` says of every event performed that a property of the state before
  it holds, which is how conditions on the steps of a run are stated;
* `Run.run_invariant` and `Run.run_invariant_along` are the induction rules:
  what every enabled event preserves holds at the end of every run;
* `Run.exists_run_of_backward` relates the runs of two systems.

Nothing here depends on what the states and the events are.
-/

namespace AsabruCommons

universe u v w

namespace Run

variable {σ : Type u} {ε : Type v}

/-- Perform the events of a list in order, provided each of them is enabled. -/
def run (step : σ → ε → Option σ) : σ → List ε → Option σ
  | s, [] => some s
  | s, e :: es => (step s e).bind fun t ↦ run step t es

/-- `P` holds of each event that is performed and of the state it finds. -/
def Along (step : σ → ε → Option σ) (P : σ → ε → Prop) : σ → List ε → Prop
  | _, [] => True
  | s, e :: es => P s e ∧ ∀ t, step s e = some t → Along step P t es

/-- `t` is the end of some run from `s`. -/
def Reachable (step : σ → ε → Option σ) (s t : σ) : Prop :=
  ∃ es, run step s es = some t

variable {step : σ → ε → Option σ}

@[simp] theorem run_nil (s : σ) : run step s [] = some s := rfl

/-- The first event of a run is enabled, and the rest of it runs from there. -/
theorem run_cons_eq_some {s t : σ} {e : ε} {es : List ε} :
    run step s (e :: es) = some t ↔ ∃ s', step s e = some s' ∧ run step s' es = some t := by
  simp [run, Option.bind_eq_some_iff]

/-- Running a concatenation is running its parts one after the other. -/
theorem run_append (s : σ) (es fs : List ε) :
    run step s (es ++ fs) = (run step s es).bind fun t ↦ run step t fs := by
  induction es generalizing s with
  | nil => rfl
  | cons e es ih =>
      simp only [List.cons_append, run, Option.bind_assoc]
      exact congrArg _ (funext ih)

/-- One more event at the end of a run. -/
theorem run_snoc {s t u : σ} {es : List ε} {e : ε} (h : run step s es = some t)
    (he : step t e = some u) : run step s (es ++ [e]) = some u := by
  rw [run_append, h, Option.bind_some, run, he]
  rfl

theorem Reachable.refl (s : σ) : Reachable step s s := ⟨[], rfl⟩

theorem Reachable.tail {s t u : σ} {e : ε} (h : Reachable step s t)
    (he : step t e = some u) : Reachable step s u := by
  obtain ⟨es, hes⟩ := h
  exact ⟨es ++ [e], run_snoc hes he⟩

/-! ## Invariants -/

/-- **Conditional invariance.**  A property that every enabled event preserves,
as long as the event meets the guard `G`, holds at the end of every run whose
events all meet it. -/
theorem run_invariant_along {I : σ → Prop} {G : σ → ε → Prop}
    (hstep : ∀ s e t, I s → G s e → step s e = some t → I t) {s t : σ} {es : List ε}
    (hs : I s) (hG : Along step G s es) (hrun : run step s es = some t) : I t := by
  induction es generalizing s with
  | nil =>
      obtain rfl := Option.some.inj hrun
      exact hs
  | cons e es ih =>
      obtain ⟨s', he, hes⟩ := run_cons_eq_some.mp hrun
      exact ih (hstep s e s' hs hG.1 he) (hG.2 s' he) hes

/-- `Along` one enabled event further. -/
theorem along_cons {P : σ → ε → Prop} {s t : σ} {e : ε} (h : step s e = some t) (es : List ε) :
    Along step P s (e :: es) ↔ P s e ∧ Along step P t es := by
  refine and_congr_right fun _ ↦ ⟨fun hs ↦ hs t h, fun ht t' h' ↦ ?_⟩
  obtain rfl := Option.some.inj (h.symm.trans h')
  exact ht

/-- A condition on the steps of a run and of what follows it. -/
theorem along_append {P : σ → ε → Prop} {s t : σ} {es fs : List ε} (hP : Along step P s es)
    (hrun : run step s es = some t) (hrest : Along step P t fs) : Along step P s (es ++ fs) := by
  induction es generalizing s with
  | nil =>
      obtain rfl := Option.some.inj hrun
      exact hrest
  | cons e es ih =>
      obtain ⟨s', hs, hrun⟩ := run_cons_eq_some.mp hrun
      refine (along_cons hs _).mpr ⟨hP.1, ?_⟩
      exact ih (hP.2 s' hs) hrun

/-- A condition on the steps of a run holds of those it begins with. -/
theorem along_of_append {P : σ → ε → Prop} {s : σ} {es fs : List ε}
    (h : Along step P s (es ++ fs)) : Along step P s es := by
  induction es generalizing s with
  | nil => trivial
  | cons e es ih => exact ⟨h.1, fun t ht ↦ ih (h.2 t ht)⟩

/-- A condition that the events meet in whatever state they are performed. -/
theorem along_of_forall {P : σ → ε → Prop} {es : List ε} (h : ∀ e ∈ es, ∀ s, P s e) (s : σ) :
    Along step P s es := by
  induction es generalizing s with
  | nil => trivial
  | cons e es ih =>
      obtain ⟨he, hes⟩ := List.forall_mem_cons.mp h
      exact ⟨he s, fun t _ ↦ ih hes t⟩

theorem along_true (s : σ) (es : List ε) : Along step (fun _ _ ↦ True) s es :=
  along_of_forall (fun _ _ _ ↦ trivial) s

/-- A condition on steps that can be tested can be tested along a run. -/
instance decidableAlong {P : σ → ε → Prop} [∀ s e, Decidable (P s e)] :
    ∀ (s : σ) (es : List ε), Decidable (Along step P s es)
  | _, [] => isTrue trivial
  | s, e :: es =>
      match h : step s e with
      | none => decidable_of_iff (P s e) (by simp [Along, h])
      | some t =>
          haveI := decidableAlong (P := P) t es
          decidable_of_iff (P s e ∧ Along step P t es) (along_cons h es).symm

/-- **Invariance.**  A property that every enabled event preserves holds at the
end of every run. -/
theorem run_invariant {I : σ → Prop} (hstep : ∀ s e t, I s → step s e = some t → I t)
    {s t : σ} {es : List ε} (hs : I s) (hrun : run step s es = some t) : I t :=
  run_invariant_along (fun s e t hs _ ↦ hstep s e t hs) hs (along_true s es) hrun

/-- **Termination.**  A run whose steps all decrease a measure is no longer than the
measure at its beginning. -/
theorem length_add_le {μ : σ → Nat} {G : σ → ε → Prop}
    (hstep : ∀ s e t, G s e → step s e = some t → μ t < μ s) {s t : σ} {es : List ε}
    (hG : Along step G s es) (hrun : run step s es = some t) : es.length + μ t ≤ μ s := by
  induction es generalizing s with
  | nil =>
      obtain rfl := Option.some.inj hrun
      simp
  | cons e es ih =>
      obtain ⟨s', hs, hrun⟩ := run_cons_eq_some.mp hrun
      have hrest := ih (hG.2 s' hs) hrun
      have hless := hstep s e s' hG.1 hs
      rw [List.length_cons]
      omega

/-- **Where something is lost.**  What holds at the beginning of a run and not at its end
is lost in one of its steps, which finds the invariant. -/
theorem exists_step_lost {I K : σ → Prop} {G : σ → ε → Prop}
    (hstep : ∀ s e t, I s → G s e → step s e = some t → I t) {s t : σ} {es : List ε}
    (hI : I s) (hK : K s) (hG : Along step G s es) (hrun : run step s es = some t)
    (hno : ¬ K t) :
    ∃ u e v, Reachable step s u ∧ I u ∧ K u ∧ step u e = some v ∧ ¬ K v ∧
      Reachable step v t := by
  induction es generalizing s with
  | nil =>
      obtain rfl := Option.some.inj hrun
      exact absurd hK hno
  | cons e es ih =>
      obtain ⟨s', hs, hrun⟩ := run_cons_eq_some.mp hrun
      by_cases hK' : K s'
      · obtain ⟨u, e', v, ⟨fs, hfs⟩, hrest⟩ := ih (hstep s e s' hI hG.1 hs) hK' (hG.2 s' hs) hrun
        refine ⟨u, e', v, ⟨e :: fs, ?_⟩, hrest⟩
        exact run_cons_eq_some.mpr ⟨s', hs, hfs⟩
      · exact ⟨s, e, s', .refl s, hI, hK, hs, hK', es, hrun⟩

/-- **Where something comes about.**  What holds at the end of a run and not at its beginning
comes about in one of its steps. -/
theorem exists_step_gained {K : σ → Prop} {s t : σ} {es : List ε} (hno : ¬ K s) (hK : K t)
    (hrun : run step s es = some t) :
    ∃ before e after u v, es = before ++ e :: after ∧ run step s before = some u ∧ ¬ K u ∧
      step u e = some v ∧ K v := by
  induction es generalizing s with
  | nil =>
      obtain rfl := Option.some.inj hrun
      exact absurd hK hno
  | cons e es ih =>
      obtain ⟨s', hs, hrun⟩ := run_cons_eq_some.mp hrun
      by_cases hK' : K s'
      · exact ⟨[], e, es, s, s', rfl, rfl, hno, hs, hK'⟩
      · obtain ⟨before, e', after, u, v, rfl, hbefore, hrest⟩ := ih hK' hrun
        exact ⟨e :: before, e', after, u, v, rfl, run_cons_eq_some.mpr ⟨s', hs, hbefore⟩, hrest⟩

/-- **Backward simulation.**  Every step of the one system can be followed back by some steps
of the other, from any state that is related to its end.  So every run of the one has a run of
the other that ends in a given related state. -/
theorem exists_run_of_backward {σ' : Type*} {ε' : Type*} {step' : σ' → ε' → Option σ'}
    {I : σ → Prop} {R : σ → σ' → Prop} (hI : ∀ s e t, I s → step s e = some t → I t)
    (hback : ∀ s e t, I s → step s e = some t → ∀ t', R t t' →
      ∃ s' fs, R s s' ∧ run step' s' fs = some t')
    {s t : σ} {es : List ε} (hs : I s) (hrun : run step s es = some t) {t' : σ'} (ht : R t t') :
    ∃ s' fs, R s s' ∧ run step' s' fs = some t' := by
  induction es generalizing s with
  | nil =>
      obtain rfl := Option.some.inj hrun
      exact ⟨t', [], ht, rfl⟩
  | cons e es ih =>
      obtain ⟨u, he, hes⟩ := run_cons_eq_some.mp hrun
      obtain ⟨u', gs, hu, hgs⟩ := ih (hI s e u hs he) hes
      obtain ⟨s', fs, hs', hfs⟩ := hback s e u hs he u' hu
      refine ⟨s', fs ++ gs, hs', ?_⟩
      rw [run_append, hfs]
      exact hgs

/-- Two conditions on steps that agree wherever an invariant holds are met by
the same runs. -/
theorem along_congr {I : σ → Prop} {G P Q : σ → ε → Prop}
    (hstep : ∀ s e t, I s → G s e → step s e = some t → I t)
    (hPQ : ∀ s e, I s → G s e → (P s e ↔ Q s e)) {s : σ} {es : List ε} (hs : I s)
    (hG : Along step G s es) : Along step P s es ↔ Along step Q s es := by
  induction es generalizing s with
  | nil => exact Iff.rfl
  | cons e es ih =>
      refine and_congr (hPQ s e hs hG.1) (forall_congr' fun t ↦ forall_congr' fun ht ↦ ?_)
      exact ih (hstep s e t hs hG.1 ht) (hG.2 t ht)

/-- **Loss is final.**  Suppose that a step keeps `K` exactly when it meets `P`,
and that `K` is not regained once it is lost.  Then `K` holds at the end of a run
exactly when the whole run meets `P`. -/
theorem along_iff_end {I K : σ → Prop} {P : σ → ε → Prop}
    (hstep : ∀ s e t, I s → step s e = some t → I t)
    (hkeep : ∀ s e t, I s → K s → step s e = some t → (K t ↔ P s e))
    (hlost : ∀ s e t, I s → ¬ K s → step s e = some t → ¬ K t) {s t : σ} {es : List ε}
    (hI : I s) (hK : K s) (hrun : run step s es = some t) : Along step P s es ↔ K t := by
  have hend : ∀ {s : σ} {es : List ε}, I s → ¬ K s → run step s es = some t → ¬ K t := by
    intro s es hI hK hrun
    exact (run_invariant (I := fun s ↦ I s ∧ ¬ K s)
      (fun s e t h hs ↦ ⟨hstep s e t h.1 hs, hlost s e t h.1 h.2 hs⟩) ⟨hI, hK⟩ hrun).2
  induction es generalizing s with
  | nil =>
      obtain rfl := Option.some.inj hrun
      exact iff_of_true trivial hK
  | cons e es ih =>
      obtain ⟨s', hs, hrun⟩ := run_cons_eq_some.mp hrun
      rw [along_cons hs]
      constructor
      · rintro ⟨hP, halong⟩
        exact (ih (hstep s e s' hI hs) ((hkeep s e s' hI hK hs).mpr hP) hrun).mp halong
      · intro ht
        have hK' : K s' := by
          by_contra hno
          exact hend (hstep s e s' hI hs) hno hrun ht
        exact ⟨(hkeep s e s' hI hK hs).mp hK', (ih (hstep s e s' hI hs) hK' hrun).mpr ht⟩

end Run

end AsabruCommons
