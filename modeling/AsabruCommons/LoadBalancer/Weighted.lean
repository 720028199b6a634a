import AsabruCommons.LoadBalancer.Basic

/-!
# The weighted balancer and the end of the list

`WeightedRoundRobinStrategy::selectServer` reduces its cursor modulo the size of
the list only when it moves on to the next server.  While the weight of the
current server is being used up the cursor stays, and the list it was computed
for may have been emptied, or may belong to another balancer of the same element
type.

So whether the list is read past its end is decided by the state each request
finds, and `index_in_range_iff` says which states those are.  A balancer that
shares its cursor with no other and whose list only grows never finds one
(`index_in_range_of_undivided`).
-/

namespace AsabruCommons.LoadBalancer.WeightedRoundRobinStrategy

open CInt Run

variable {ι T : Type} [DecidableEq ι]

/-- The index with which `selectServer` reads a list of the given size. -/
def readIndex (size : Nat) (st : Statics) : Option Nat := (readCursor size st).map toSize

/-- A request reads the list at an index below its size. -/
def InRange (s : System ι T Statics) : Event ι T → Prop
  | .requestServer b =>
      ∃ k ∈ readIndex (s.servers b).length s.statics, k < (s.servers b).length
  | _ => True

/-- Weights are positive, and requests are made on non-empty lists. -/
def Valid (weight : T → Int) (s : System ι T Statics) : Event ι T → Prop
  | .addServer _ server => 0 < weight server
  | .removeAllServers _ => True
  | .requestServer b => 0 < (s.servers b).length

/-- A request made while the weight of the current server is not used up finds
the cursor inside its list, and one that moves on finds it below the greatest
`int`. -/
def Calm (s : System ι T Statics) : Event ι T → Prop
  | .requestServer b =>
      (1 < s.statics.weight → s.statics.currentIndex < (s.servers b).length) ∧
        (s.statics.weight ≤ 1 → s.statics.currentIndex < intMax)
  | _ => True

instance (weight : T → Int) (s : System ι T Statics) :
    (e : Event ι T) → Decidable (Valid weight s e)
  | .addServer _ server => inferInstanceAs (Decidable (0 < weight server))
  | .removeAllServers _ => isTrue trivial
  | .requestServer b => inferInstanceAs (Decidable (0 < (s.servers b).length))

instance (s : System ι T Statics) : (e : Event ι T) → Decidable (InRange s e)
  | .requestServer b =>
      inferInstanceAs (Decidable (∃ k ∈ readIndex (s.servers b).length s.statics,
        k < (s.servers b).length))
  | .addServer _ _ => isTrue trivial
  | .removeAllServers _ => isTrue trivial

instance (s : System ι T Statics) : (e : Event ι T) → Decidable (Calm s e)
  | .requestServer b =>
      inferInstanceAs (Decidable
        ((1 < s.statics.weight → s.statics.currentIndex < (s.servers b).length) ∧
          (s.statics.weight ≤ 1 → s.statics.currentIndex < intMax)))
  | .addServer _ _ => isTrue trivial
  | .removeAllServers _ => isTrue trivial

/-! ## The statics -/

/-- What the statics satisfy between calls, whatever lists they were used on. -/
structure Sound (st : Statics) : Prop where
  weight_nonneg : 0 ≤ st.weight
  cursor_ge : -1 ≤ st.currentIndex
  cursor_le : st.currentIndex ≤ intMax
  started : 0 < st.weight → 0 ≤ st.currentIndex

theorem sound_init : Sound {} := ⟨by decide, by decide, by decide, by decide⟩

/-- The cursor moves exactly when the last unit of weight is used. -/
theorem Sound.remaining_eq_zero {st : Statics} (h : Sound st) :
    remaining st = 0 ↔ st.weight ≤ 1 := by
  have := h.weight_nonneg
  unfold remaining
  split <;> omega

theorem Sound.remaining_nonneg {st : Statics} (h : Sound st) : 0 ≤ remaining st := by
  have := h.weight_nonneg
  unfold remaining
  split <;> omega

theorem Sound.readCursor_of_le {st : Statics} (h : Sound st) (hw : st.weight ≤ 1) (size : Nat) :
    readCursor size st = advance st.currentIndex size := if_pos (h.remaining_eq_zero.mpr hw)

theorem Sound.readCursor_of_lt {st : Statics} (h : Sound st) (hw : 1 < st.weight) (size : Nat) :
    readCursor size st = some st.currentIndex :=
  if_neg fun hzero ↦ by
    have := h.remaining_eq_zero.mp hzero
    omega

/-- The cursor that is read is a non-negative `int`. -/
theorem Sound.readCursor_range {st : Statics} (h : Sound st) {size : Nat} {c : Int}
    (hc : readCursor size st = some c) : 0 ≤ c ∧ c ≤ intMax := by
  by_cases hw : st.weight ≤ 1
  · rw [h.readCursor_of_le hw] at hc
    obtain ⟨hpos, -, hle⟩ := advance_range h.cursor_ge hc
    exact ⟨hpos, hle⟩
  · rw [h.readCursor_of_lt (by omega)] at hc
    obtain rfl := Option.some.inj hc
    exact ⟨h.started (by omega), h.cursor_le⟩

/-- **One request.**  The index it reads is below the size of a non-empty list
exactly when the state it finds is calm. -/
theorem Sound.readIndex_lt_iff {st : Statics} (h : Sound st) {size : Nat} (hsize : 0 < size) :
    (∃ k ∈ readIndex size st, k < size) ↔
      (1 < st.weight → st.currentIndex < size) ∧ (st.weight ≤ 1 → st.currentIndex < intMax) := by
  by_cases hw : st.weight ≤ 1
  · have hread := h.readCursor_of_le hw size
    constructor
    · rintro ⟨k, hk, -⟩
      obtain ⟨c, hc, -⟩ := Option.map_eq_some_iff.mp hk
      rw [hread] at hc
      exact ⟨fun hlt ↦ by omega, fun _ ↦ ((advance_eq_some h.cursor_ge).mp hc).1⟩
    · rintro ⟨-, hmax⟩
      have hadvance := advance_eq h.cursor_ge (hmax hw) hsize
      obtain ⟨hpos, hlt, hle⟩ := advance_range h.cursor_ge hadvance
      rw [← hread] at hadvance
      refine ⟨toSize ((st.currentIndex + 1) % size), ?_, ?_⟩
      · rw [readIndex, hadvance]
        rfl
      · rw [toSize_of_nonneg hpos hle]
        omega
  · have hread := h.readCursor_of_lt (by omega) size
    have hpos : 0 ≤ st.currentIndex := h.started (by omega)
    have hindex : readIndex size st = some st.currentIndex.toNat := by
      rw [readIndex, hread, Option.map_some, toSize_of_nonneg hpos h.cursor_le]
    constructor
    · rintro ⟨k, hk, hlt⟩
      rw [hindex] at hk
      obtain rfl := Option.some.inj hk
      exact ⟨fun _ ↦ by omega, fun hle ↦ absurd hle hw⟩
    · rintro ⟨hlt, -⟩
      have := hlt (by omega)
      exact ⟨st.currentIndex.toNat, hindex, by omega⟩

/-! ## Runs -/

section

variable (weight : T → Int)

/-- The invariant of a run: sound statics, and positive weights in all lists. -/
structure Inv (s : System ι T Statics) : Prop where
  sound : Sound s.statics
  positive : ∀ b, ∀ server ∈ s.servers b, 0 < weight server

variable {weight}

theorem selectServer_eq_some {servers : List T} {st : Statics} {r : T × Statics}
    (h : selectServer weight servers st = some r) :
    readCursor servers.length st = some r.2.currentIndex ∧
      servers[toSize r.2.currentIndex]? = some r.1 ∧
      r.2.weight = if remaining st = 0 then weight r.1 else remaining st := by
  obtain ⟨c, hc, h⟩ := Option.bind_eq_some_iff.mp h
  obtain ⟨server, hserver, h⟩ := Option.bind_eq_some_iff.mp h
  obtain rfl := Option.some.inj h
  exact ⟨hc, hserver, rfl⟩

/-- A call that returns leaves sound statics behind. -/
theorem Sound.selectServer {servers : List T} {st : Statics} {r : T × Statics} (h : Sound st)
    (hpos : ∀ server ∈ servers, 0 < weight server)
    (hr : selectServer weight servers st = some r) : Sound r.2 := by
  obtain ⟨hcursor, hserver, hweight⟩ := selectServer_eq_some hr
  obtain ⟨hge, hle⟩ := h.readCursor_range hcursor
  refine ⟨?_, by omega, hle, fun _ ↦ hge⟩
  rw [hweight]
  split
  · exact Int.le_of_lt (hpos _ (List.mem_of_getElem? hserver))
  · exact h.remaining_nonneg

omit [DecidableEq ι] in
theorem inv_init : Inv weight (System.init (ι := ι) (weightedRoundRobin weight) fun _ ↦ []) :=
  ⟨sound_init, fun _ _ h ↦ (List.not_mem_nil h).elim⟩

protected theorem Inv.step {s t : System ι T Statics} {e : Event ι T} (h : Inv weight s)
    (hv : Valid weight s e) (hs : step (weightedRoundRobin weight) s e = some t) :
    Inv weight t := by
  cases e with
  | addServer b server =>
      obtain rfl := Option.some.inj hs
      refine ⟨h.sound, fun c other hother ↦ ?_⟩
      rcases mem_addServer hother with hother | rfl
      · exact h.positive c other hother
      · exact hv
  | removeAllServers b =>
      obtain rfl := Option.some.inj hs
      exact ⟨h.sound, fun c other hother ↦ h.positive c other (mem_removeAllServers hother)⟩
  | requestServer b =>
      obtain ⟨r, hr, rfl⟩ := requestServer_eq_some.mp hs
      exact ⟨h.sound.selectServer (h.positive b) hr, h.positive⟩

omit [DecidableEq ι] in
/-- Between calls, the calm requests are the ones that read in range. -/
theorem Inv.inRange_iff {s : System ι T Statics} {e : Event ι T} (h : Inv weight s)
    (hv : Valid weight s e) : InRange s e ↔ Calm s e := by
  cases e with
  | addServer b server => exact Iff.rfl
  | removeAllServers b => exact Iff.rfl
  | requestServer b => exact h.sound.readIndex_lt_iff hv

end

/-- **The list is read in range exactly in the calm runs.** -/
theorem index_in_range_iff (weight : T → Int) (es : List (Event ι T))
    (hvalid : Along (step (weightedRoundRobin weight)) (Valid weight)
      (System.init (weightedRoundRobin weight) fun _ ↦ []) es) :
    Along (step (weightedRoundRobin weight)) InRange
        (System.init (weightedRoundRobin weight) fun _ ↦ []) es ↔
      Along (step (weightedRoundRobin weight)) Calm
        (System.init (weightedRoundRobin weight) fun _ ↦ []) es :=
  along_congr (fun _ _ _ h hv ↦ h.step hv) (fun _ _ h hv ↦ h.inRange_iff hv) inv_init hvalid

/-- Two servers of weight two are added and asked for three times, which leaves
the cursor on the second with one unit of its weight left.  Then the list is
replaced by a shorter one. -/
def replacedRun : List (Event Unit Int) :=
  [.addServer () 2, .addServer () 2, .requestServer (), .requestServer (), .requestServer (),
    .removeAllServers (), .addServer () 2, .requestServer ()]

theorem index_out_of_range :
    Along (step (weightedRoundRobin id)) (Valid id)
        (System.init (weightedRoundRobin id) fun _ ↦ []) replacedRun ∧
      ¬ Along (step (weightedRoundRobin id)) InRange
        (System.init (weightedRoundRobin id) fun _ ↦ []) replacedRun := by
  decide

/-- The list is replaced by one that is as long. -/
def replacedAlikeRun : List (Event Unit Int) :=
  [.addServer () 2, .addServer () 2, .requestServer (), .requestServer (), .requestServer (),
    .removeAllServers (), .addServer () 1, .addServer () 3, .requestServer (), .requestServer ()]

/-- All requests are in range in the one run and not in the other. -/
theorem index_in_range_iff_replaced :
    Along (step (weightedRoundRobin id)) InRange
        (System.init (weightedRoundRobin id) fun _ ↦ []) replacedAlikeRun ∧
      ¬ Along (step (weightedRoundRobin id)) InRange
        (System.init (weightedRoundRobin id) fun _ ↦ []) replacedRun :=
  ⟨(index_in_range_iff id replacedAlikeRun (by decide)).mpr (by decide), fun h ↦
    absurd ((index_in_range_iff id replacedRun (by decide)).mp h) (by decide)⟩

/-! ## A cursor of one's own -/

/-- Only the balancer `b₀` is asked for servers, and its list only grows. -/
def Undivided (b₀ : ι) (s : System ι T Statics) : Event ι T → Prop
  | .addServer _ _ => True
  | .removeAllServers b => b ≠ b₀
  | .requestServer b => b = b₀ ∧ ((s.servers b).length : Int) ≤ intMax

section

variable {weight : T → Int} {b₀ : ι}

/-- The cursor stays in the list of the balancer it belongs to. -/
theorem cursor_lt_step {s t : System ι T Statics} {e : Event ι T} (h : Inv weight s)
    (hc : s.statics.currentIndex < (s.servers b₀).length) (he : Undivided b₀ s e)
    (hs : step (weightedRoundRobin weight) s e = some t) :
    t.statics.currentIndex < (t.servers b₀).length := by
  cases e with
  | addServer b server =>
      obtain rfl := Option.some.inj hs
      have hle := length_le_addServer s b b₀ server
      change s.statics.currentIndex < _
      omega
  | removeAllServers b =>
      obtain rfl := Option.some.inj hs
      change s.statics.currentIndex < (Function.update s.servers b [] b₀).length
      rw [Function.update_of_ne he.symm]
      exact hc
  | requestServer b =>
      obtain ⟨r, hr, rfl⟩ := requestServer_eq_some.mp hs
      obtain ⟨rfl, -⟩ := he
      obtain ⟨hcursor, hserver, -⟩ := selectServer_eq_some hr
      obtain ⟨hge, hle⟩ := h.sound.readCursor_range hcursor
      obtain ⟨hlt, -⟩ := List.getElem?_eq_some_iff.mp hserver
      rw [toSize_of_nonneg hge hle] at hlt
      change r.2.currentIndex < (s.servers b).length
      omega

/-- **One balancer, growing.**  A balancer that shares its cursor with no other
and is never emptied reads its list in range. -/
theorem index_in_range_of_undivided {es : List (Event ι T)}
    (h : Along (step (weightedRoundRobin weight)) (fun s e ↦ Valid weight s e ∧ Undivided b₀ s e)
      (System.init (weightedRoundRobin weight) fun _ ↦ []) es) :
    Along (step (weightedRoundRobin weight)) InRange
      (System.init (weightedRoundRobin weight) fun _ ↦ []) es := by
  refine (along_congr (I := fun s ↦ Inv weight s ∧
    s.statics.currentIndex < (s.servers b₀).length) (Q := fun _ _ ↦ True) ?_ ?_ ?_ h).mpr
    (along_true _ es)
  · rintro s e t ⟨hinv, hc⟩ ⟨hv, he⟩ hs
    exact ⟨hinv.step hv hs, cursor_lt_step hinv hc he hs⟩
  · rintro s e ⟨hinv, hc⟩ ⟨hv, he⟩
    refine iff_true_intro ((hinv.inRange_iff hv).mpr ?_)
    cases e with
    | addServer b server => trivial
    | removeAllServers b => trivial
    | requestServer b =>
        obtain ⟨rfl, hle⟩ := he
        exact ⟨fun _ ↦ hc, fun _ ↦ by omega⟩
  · refine ⟨inv_init, ?_⟩
    change (-1 : Int) < 0
    decide

end

end AsabruCommons.LoadBalancer.WeightedRoundRobinStrategy
