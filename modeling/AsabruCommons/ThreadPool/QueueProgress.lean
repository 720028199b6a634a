import AsabruCommons.ThreadPool.Queue
import Mathlib.Algebra.BigOperators.Group.Finset.Piecewise
import Mathlib.Algebra.Order.BigOperators.Group.Finset
import Mathlib.Algebra.Group.Action.Defs

/-!
# No wake-up of the queue is lost

`push` notifies one thread for each element, and the thread that is woken may find that
another one has taken the element in the meantime, and block again.  `quiesces` says that
this loses nothing, for any number of producers and consumers: left to itself, without
new calls and without spurious wake-ups, the queue comes to rest, and then, if a thread is
blocked, the queue is empty.  All threads together make at most eight times as many steps as
there are threads; a thread that is overtaken again and again may make more than eight of
them.

The invariant is `Covered`: as long as some thread is blocked, there is for each element
a thread that is awake in `pop`, or that has yet to notify.  That the steps come to an
end is a sum of weights (`Place.work`) in which a notification pays for the second turn
of the thread that it wakes.
-/

namespace AsabruCommons.ThreadPool.ThreadSafeQueue

open Run Mutex

variable {τ T : Type} [Fintype τ]

/-- The sum of a weight over the threads. -/
def State.total (w : Place T → Nat) (s : State τ T) : Nat := ∑ t, w (s.places t)

/-- A thread that may take an element before it blocks, or has yet to notify one. -/
def Place.awake : Place T → Nat
  | .notifying _ | .popLocking | .woken | .testing | .taking => 1
  | _ => 0

/-- The number of steps to the end of the call or to the next blocking, where the step that
notifies counts those of the thread it wakes. -/
def Place.work : Place T → Nat
  | .pushLocking _ => 8
  | .pushing _ => 7
  | .notifying _ => 6
  | .popLocking | .woken => 4
  | .testing => 3
  | .taking => 2
  | .waiting | .pushUnlocking _ | .popUnlocking _ => 1
  | .outside | .blocked => 0

theorem Place.work_le (p : Place T) : p.work ≤ 8 := by
  cases p <;> simp [Place.work]

/-- A step that nobody outside the queue makes, and no spurious wake-up. -/
def Event.Internal : Event τ T → Prop
  | .callPush _ _ | .callPop _ | .wake _ => False
  | .lock _ | .pushBack _ | .notifyOne _ _ | .test _ | .block _ | .popFront _ | .unlock _ => True

variable [DecidableEq τ] {s s' : State τ T} {e : Event τ T}

/-- What a thread that moves changes in a sum. -/
theorem total_of_update (w : Place T → Nat) {t : τ} {p : Place T}
    (h : s'.places = Function.update s.places t p) :
    s'.total w + w (s.places t) = s.total w + w p := by
  have hrest : ∑ u ∈ Finset.univ.erase t, w (s'.places u) =
      ∑ u ∈ Finset.univ.erase t, w (s.places u) :=
    Finset.sum_congr rfl fun u hu ↦ by rw [h, Function.update_of_ne (Finset.ne_of_mem_erase hu)]
  rw [State.total, State.total, ← Finset.add_sum_erase _ _ (Finset.mem_univ t), hrest,
    ← Finset.add_sum_erase _ (fun u ↦ w (s.places u)) (Finset.mem_univ t), h,
    Function.update_self]
  omega

theorem total_setPlace (s : State τ T) (t : τ) (p : Place T) (w : Place T → ℕ) :
    (s.setPlace t p).total w + w (s.places t) = s.total w + w p :=
  total_of_update w rfl

/-! ## An awake thread for each element -/

/-- While a thread is blocked, no element lacks a thread that will see to it. -/
def Covered (s : State τ T) : Prop :=
  ∀ t, s.places t = .blocked → s.queue.length ≤ s.total Place.awake

omit [DecidableEq τ] in
theorem covered_of_empty (h : s.queue = []) : Covered s := fun _ _ ↦ by
  rw [h]
  exact Nat.zero_le _

/-- A thread moves, and the queue does not grow more than the number of awake threads. -/
theorem Covered.move (h : Covered s) {t : τ} {p : Place T}
    (hplaces : s'.places = Function.update s.places t p) (hp : p ≠ .blocked)
    (hle : s'.queue.length + (s.places t).awake ≤ s.queue.length + p.awake) : Covered s' := by
  intro u hu
  have htotal := total_of_update Place.awake hplaces
  have hold : s.places u = .blocked := by
    by_cases hut : u = t
    · rw [hplaces, hut, Function.update_self] at hu
      exact absurd hu hp
    · rwa [hplaces, Function.update_of_ne hut] at hu
  have hcovered := h u hold
  omega

theorem Covered.step (h : Covered s) (hg : Guarded s) (hs : Step s e s') : Covered s' := by
  cases hs with
  | callPush val ht => exact h.move rfl nofun (by rw [ht]; exact le_rfl)
  | callPop ht => exact h.move rfl nofun (by rw [ht]; exact Nat.le_add_right _ _)
  | lockPush hm ht => exact h.move rfl nofun (by rw [ht]; exact le_rfl)
  | lockPop hm ht => exact h.move rfl nofun (by rcases ht with ht | ht <;> rw [ht] <;> exact le_rfl)
  | pushBack ht =>
      refine h.move rfl nofun ?_
      rw [ht]
      show (s.queue ++ _).length + 0 ≤ _
      rw [List.length_append]
      exact le_rfl
  | @notifyOne t u val ht hu =>
      have hut : u ≠ t := fun heq ↦ by
        rw [heq, ht] at hu
        cases hu
      have hfirst := total_setPlace s t (.pushUnlocking val) Place.awake
      have hsecond := total_setPlace (s.setPlace t (.pushUnlocking val)) u .woken Place.awake
      rw [ht] at hfirst
      rw [places_setPlace_of_ne s hut, hu] at hsecond
      simp only [Place.awake] at hfirst hsecond
      -- one thread has notified, and another one is awake instead
      intro v _
      have hcovered := h u hu
      show s.queue.length ≤ _
      omega
  | @notifyNobody t val ht hu =>
      intro v hv
      rcases places_setPlace_eq hv with ⟨-, heq⟩ | hold
      · cases heq
      · exact absurd hold (hu v)
  | testFalse ht hq => exact covered_of_empty hq
  | testTrue ht hq => exact h.move rfl nofun (by rw [ht]; exact le_rfl)
  | block ht => exact covered_of_empty (hg.waiting _ ht)
  | wake ht => exact h.move rfl nofun (by rw [ht]; exact Nat.le_add_right _ _)
  | @popFront t ret queue ht hq =>
      refine h.move rfl nofun ?_
      rw [ht, hq]
      exact le_rfl
  | unlockPush ht => exact h.move rfl nofun (by rw [ht]; exact le_rfl)
  | unlockPop ht => exact h.move rfl nofun (by rw [ht]; exact le_rfl)

theorem covered_of_run {es : List (Event τ T)}
    (h : run step (State.construct τ T) es = some s) : Covered s := by
  refine (run_invariant (I := fun s : State τ T ↦ Guarded s ∧ Covered s) ?_
    ⟨guarded_construct, covered_of_empty rfl⟩ h).2
  exact fun _ _ _ h hs ↦ ⟨h.1.step (step_cases hs), h.2.step h.1 (step_cases hs)⟩

/-! ## The end of the work -/

/-- An internal step does some of the work. -/
theorem work_lt (he : e.Internal) (hs : Step s e s') :
    s'.total Place.work < s.total Place.work := by
  have hmove : ∀ {t : τ} {p q : Place T} {u : State τ T},
      u.places = Function.update s.places t q → s.places t = p → q.work < p.work →
      u.total Place.work < s.total Place.work := by
    intro t p q u hu ht hlt
    have htotal := total_of_update Place.work hu
    rw [ht] at htotal
    omega
  cases hs with
  | callPush val ht => exact he.elim
  | callPop ht => exact he.elim
  | lockPush hm ht => exact hmove rfl ht (by simp [Place.work])
  | lockPop hm ht =>
      rcases ht with ht | ht
      · exact hmove rfl ht (by simp [Place.work])
      · exact hmove rfl ht (by simp [Place.work])
  | pushBack ht => exact hmove rfl ht (by simp [Place.work])
  | @notifyOne t u val ht hu =>
      have hut : u ≠ t := fun heq ↦ by
        rw [heq, ht] at hu
        cases hu
      have hfirst := total_setPlace s t (.pushUnlocking val) Place.work
      have hsecond := total_setPlace (s.setPlace t (.pushUnlocking val)) u .woken Place.work
      rw [ht] at hfirst
      rw [places_setPlace_of_ne s hut, hu] at hsecond
      simp only [Place.work] at hfirst hsecond
      omega
  | notifyNobody ht hu => exact hmove rfl ht (by simp [Place.work])
  | testFalse ht hq => exact hmove rfl ht (by simp [Place.work])
  | testTrue ht hq => exact hmove rfl ht (by simp [Place.work])
  | block ht => exact hmove rfl ht (by simp [Place.work])
  | wake ht => exact he.elim
  | popFront ht hq => exact hmove rfl ht (by simp [Place.work])
  | unlockPush ht => exact hmove rfl ht (by simp [Place.work])
  | unlockPop ht => exact hmove rfl ht (by simp [Place.work])

/-- The owner of the mutex can go on. -/
theorem owner_moves (h : Guarded s) {t : τ} (ht : (s.places t).Holds) :
    ∃ e : Event τ T, e.Internal ∧ (step s e).isSome := by
  cases hp : s.places t with
  | pushing val => exact ⟨.pushBack t, trivial, by simp [step, hp]⟩
  | notifying val =>
      by_cases hu : ∃ u, s.places u = .blocked
      · obtain ⟨u, hu⟩ := hu
        exact ⟨.notifyOne t (some u), trivial, by simp [step, hp, hu, Place.isBlocked]⟩
      · have hno : ∀ u, (s.places u).isBlocked = false := fun u ↦
          Bool.eq_false_iff.mpr fun hb ↦ hu ⟨u, isBlocked_iff.mp hb⟩
        exact ⟨.notifyOne t none, trivial, by simp [step, hp, hno]⟩
  | pushUnlocking val => exact ⟨.unlock t, trivial, by simp [step, hp]⟩
  | testing =>
      refine ⟨.test t, trivial, ?_⟩
      by_cases hq : s.queue = []
      · simp [step, hp, hq]
      · simp [step, hp, hq]
  | waiting => exact ⟨.block t, trivial, by simp [step, hp]⟩
  | taking =>
      obtain ⟨front, queue, hq⟩ := List.exists_cons_of_ne_nil (h.taking t hp)
      exact ⟨.popFront t, trivial, by simp [step, hp, hq, pop]⟩
  | popUnlocking ret => exact ⟨.unlock t, trivial, by simp [step, hp]⟩
  | outside | pushLocking val | popLocking | blocked | woken =>
      rw [hp] at ht
      exact ht.elim

/-- Where nobody can go on, everybody is outside or blocked. -/
theorem at_rest (h : Guarded s)
    (hstuck : ∀ e : Event τ T, e.Internal → step s e = none) (t : τ) :
    s.places t = .outside ∨ s.places t = .blocked := by
  have hnone : ∀ u, ¬ (s.places u).Holds := fun u hu ↦ by
    obtain ⟨e, he, hsome⟩ := owner_moves h hu
    rw [hstuck e he] at hsome
    cases hsome
  have hmutex : s.mutex = none := by
    cases hm : s.mutex with
    | none => rfl
    | some u => exact absurd ((h.exclusive u).mpr hm) (hnone u)
  have hlock := hstuck (.lock t) trivial
  cases hp : s.places t with
  | outside => exact .inl rfl
  | blocked => exact .inr rfl
  | pushLocking val | popLocking | woken => simp [step, hp, hmutex] at hlock
  | pushing val | notifying val | pushUnlocking val | testing | waiting | taking
  | popUnlocking ret => exact absurd (hp ▸ trivial) (hnone t)

/-- A thread that is outside or blocked makes no internal step. -/
theorem stuck_of_at_rest (h : ∀ t, s.places t = .outside ∨ s.places t = .blocked)
    (e : Event τ T) (he : e.Internal) : step s e = none := by
  cases e with
  | callPush t val | callPop t | wake t => exact he.elim
  | lock t =>
      rcases h t with ht | ht
      · simp [step, ht]
      · simp [step, ht]
  | pushBack t | test t | block t | popFront t | unlock t =>
      rcases h t with ht | ht
      · simp [step, ht]
      · simp [step, ht]
  | notifyOne t woken =>
      rcases h t with ht | ht
      · simp [step, ht]
      · simp [step, ht]

/-- **No wake-up is lost.**  From any state that is reached, without new calls and spurious
wake-ups, there are in total at most eight times as many steps as there are threads; and when
there is none left, all threads have returned or are blocked, and the queue is empty if one is
blocked. -/
theorem quiesces (es fs : List (Event τ T))
    (hs : run step (State.construct τ T) es = some s) (hfs : ∀ e ∈ fs, e.Internal)
    (hs' : run step s fs = some s') :
    fs.length ≤ 8 * Fintype.card τ ∧
      ((∀ e : Event τ T, e.Internal → step s' e = none) →
        (∀ t, s'.places t = .outside ∨ s'.places t = .blocked) ∧
          ((∃ t, s'.places t = .blocked) → s'.queue = [])) := by
  have hend : run step (State.construct τ T) (es ++ fs) = some s' := by
    rw [run_append, hs]
    exact hs'
  constructor
  · have hlength := length_add_le (μ := State.total Place.work)
      (fun _ _ _ he hs ↦ work_lt he (step_cases hs)) (along_of_forall (fun e he _ ↦ hfs e he) s)
      hs'
    have htotal : s.total Place.work ≤ 8 * Fintype.card τ := by
      have hsum := Finset.sum_le_card_nsmul Finset.univ (fun t ↦ (s.places t).work) 8
        fun t _ ↦ (s.places t).work_le
      rw [smul_eq_mul, Nat.mul_comm] at hsum
      exact hsum
    omega
  · intro hstuck
    have hrest := at_rest (guarded_of_run hend) hstuck
    refine ⟨hrest, fun ⟨t, ht⟩ ↦ ?_⟩
    have hcovered := covered_of_run hend t ht
    have hzero : s'.total Place.awake = 0 := by
      refine Finset.sum_eq_zero fun u _ ↦ ?_
      rcases hrest u with hu | hu <;> rw [hu] <;> rfl
    rw [hzero] at hcovered
    exact List.eq_nil_of_length_eq_zero (Nat.le_zero.mp hcovered)

/-- The thread that is woken comes too late, and blocks again. -/
theorem quiesces_overtaken :
    let es : List (Event (Fin 3) Nat) :=
      [.callPop 0, .lock 0, .test 0, .block 0, .callPush 1 7, .callPop 2]
    let fs : List (Event (Fin 3) Nat) :=
      [.lock 1, .pushBack 1, .notifyOne 1 (some 0), .unlock 1,
       .lock 2, .test 2, .popFront 2, .unlock 2, .lock 0, .test 0, .block 0]
    ∃ s s', run step (.construct (Fin 3) Nat) es = some s ∧ run step s fs = some s' ∧
      fs.length ≤ 8 * Fintype.card (Fin 3) ∧ s'.places 0 = .blocked ∧ s'.queue = [] := by
  intro es fs
  have hfs : ∀ e ∈ fs, e.Internal := by
    simp only [fs, List.forall_mem_cons]
    exact ⟨trivial, trivial, trivial, trivial, trivial, trivial, trivial, trivial, trivial,
      trivial, trivial, fun _ h ↦ absurd h List.not_mem_nil⟩
  obtain ⟨hlength, hrest⟩ := quiesces es fs rfl hfs rfl
  exact ⟨_, _, rfl, rfl, hlength, rfl, (hrest (stuck_of_at_rest (by decide))).2 ⟨0, rfl⟩⟩

end AsabruCommons.ThreadPool.ThreadSafeQueue
