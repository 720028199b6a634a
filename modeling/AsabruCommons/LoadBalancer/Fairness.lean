import AsabruCommons.LoadBalancer.Requests
import AsabruCommons.LoadBalancer.RoundRobin
import AsabruCommons.Rotation

/-!
# Fair rotation across reconfiguration

One balancer that nobody shares its cursor with, and any history of its methods.  The
cursor survives when the list grows, shrinks or is emptied, and `selectServer` reduces
it modulo the current size, so from whatever position the answers go round the list
(`Answers.follows`).  That makes them even: while the list has `n` servers and does not
change, `k` requests return each of them `k / n` times, rounded down or up.

The cursor is an `int`, and it overflows when it is moved on from the greatest one.
`fair_iff` says that nothing else can go wrong.
-/

namespace AsabruCommons.LoadBalancer.RoundRobinStrategy

open CInt Run Rotation

variable {T : Type}

/-- The index with which a request reads a list of the given size. -/
def readIndex (size : Nat) (st : Statics) : Option Nat :=
  (advance st.currentIndex size).map toSize

/-- A request reads the list at an index below its size. -/
def InRange (s : System Unit T Statics) : Event Unit T → Prop
  | .requestServer b =>
      ∃ k ∈ readIndex (s.servers b).length s.statics, k < (s.servers b).length
  | _ => True

/-- Requests are made on non-empty lists. -/
def NonEmpty (s : System Unit T Statics) : Event Unit T → Prop
  | .requestServer b => 0 < (s.servers b).length
  | _ => True

/-- A request finds the cursor below the greatest `int`. -/
def CursorFits (s : System Unit T Statics) : Event Unit T → Prop
  | .requestServer _ => s.statics.currentIndex < intMax
  | _ => True

/-- Of `k` answers on a list of `n` servers each position has a share of `k / n`, rounded
down or up. -/
def Evenly (n : Nat) (out : List (T × Statics)) : Prop :=
  ∀ i < n, out.countP (fun r ↦ r.2.currentIndex = (i : Int)) = out.length / n ∨
    out.countP (fun r ↦ r.2.currentIndex = (i : Int)) = (out.length + n - 1) / n

/-- Successive requests in a history are answered, and evenly. -/
def FairHistory (es : List (Event Unit T)) : Prop :=
  ∀ before k behind, es = before ++ (List.replicate k (.requestServer ()) ++ behind) →
    ∃ s t, run (step roundRobin) (System.init roundRobin fun _ ↦ []) before = some s ∧
      run (step roundRobin) s (List.replicate k (.requestServer ())) = some t ∧
      ((t.returned ()).drop (s.returned ()).length).length = k ∧
      Evenly (s.servers ()).length ((t.returned ()).drop (s.returned ()).length)

/-! ## Going round the list -/

section

variable {servers : List T}

/-- The server of an answer and its position. -/
def place (r : T × Statics) : T × Int := (r.1, r.2.currentIndex)

/-- A request moves the cursor on by one position, modulo the size. -/
theorem place_of_selectServer {st : Statics} {r : T × Statics} {p : Nat}
    (hcursor : st.currentIndex + 1 = p) (h : selectServer servers st = some r) :
    st.currentIndex < intMax ∧ r.2.currentIndex = ((p % servers.length : Nat) : Int) ∧
      (places servers)[p % servers.length]? = some (place r) := by
  have hge : -1 ≤ st.currentIndex := by omega
  obtain ⟨hadvance, -⟩ := selectServer_eq_some.mp h
  obtain ⟨hmax, -, hnext⟩ := (advance_eq_some hge).mp hadvance
  obtain ⟨q, hq, hserver⟩ := selectServer_position hge h
  have hnat : r.2.currentIndex = ((p % servers.length : Nat) : Int) := by
    rw [hnext, hcursor, Int.natCast_emod]
  obtain rfl : q = p % servers.length := Int.natCast_inj.mp (hq.symm.trans hnat)
  exact ⟨hmax, hnat, getElem?_places_eq_some.mpr ⟨hserver, hq⟩⟩

/-- The answers walk on from the cursor. -/
theorem Answers.getElem?_places {st : Statics} {p : Nat} (hcursor : st.currentIndex + 1 = p)
    {out : List (T × Statics)} (hout : Answers roundRobin servers st out) {j : Nat}
    {r : T × Statics} (hr : out[j]? = some r) :
    (places servers)[(p + j) % servers.length]? = some (place r) := by
  induction out generalizing st p j with
  | nil => cases hr
  | cons q out ih =>
      obtain ⟨-, hnext, hplace⟩ := place_of_selectServer hcursor hout.1
      cases j with
      | zero =>
          obtain rfl := Option.some.inj hr
          exact hplace
      | succ j =>
          have hcursor' : q.2.currentIndex + 1 = ((p % servers.length + 1 : Nat) : Int) := by
            rw [hnext]
            rfl
          have hmod : (p + (j + 1)) % servers.length =
              (p % servers.length + 1 + j) % servers.length := by
            have hgroup : p % servers.length + 1 + j = p % servers.length + (j + 1) := by omega
            rw [hgroup, Nat.mod_add_mod]
          rw [hmod]
          exact ih hcursor' hout.2 hr

/-- **Going round.**  The answers go round the list from the position behind the cursor. -/
theorem Answers.follows {st : Statics} {p : Nat} (hcursor : st.currentIndex + 1 = p)
    {out : List (T × Statics)} (hout : Answers roundRobin servers st out) :
    Follows ((places servers).rotate p) (out.map place) := by
  intro j a ha
  rw [List.getElem?_map, Option.map_eq_some_iff] at ha
  obtain ⟨r, hr, rfl⟩ := ha
  have hplace := Answers.getElem?_places hcursor hout hr
  obtain ⟨hlt, -⟩ := List.getElem?_eq_some_iff.mp hplace
  have hpos : 0 < (places servers).length := by omega
  rw [List.length_rotate, List.getElem?_rotate (Nat.mod_lt _ hpos), length_places,
    Nat.mod_add_mod, Nat.add_comm j p, hplace]

theorem countP_places {i : Nat} (hi : i < servers.length) :
    (places servers).countP (fun p ↦ p.2 = (i : Int)) = 1 := by
  obtain ⟨hsplit, hbefore, hbehind⟩ := places_split (List.getElem?_eq_getElem hi)
  have hzero : ∀ {l : List (T × Int)}, (∀ p ∈ l, p.2 ≠ i) →
      l.countP (fun p ↦ p.2 = (i : Int)) = 0 := fun h ↦
    List.countP_eq_zero.mpr fun p hp ↦ ne_true_of_eq_false (decide_eq_false (h p hp))
  rw [hsplit, List.countP_append, List.countP_cons, hzero hbefore, hzero hbehind,
    if_pos (decide_eq_true rfl)]

/-- Answers on a list that does not change are even. -/
theorem Answers.evenly {st : Statics} {p : Nat} (hcursor : st.currentIndex + 1 = p)
    {out : List (T × Statics)} (hout : Answers roundRobin servers st out) :
    Evenly servers.length out := by
  intro i hi
  have hone : ((places servers).rotate p).countP (fun p ↦ p.2 = (i : Int)) = 1 := by
    rw [(List.rotate_perm _ _).countP_eq, countP_places hi]
  have heven := (Answers.follows hcursor hout).countP_even hone
  rw [List.countP_map, List.length_map, List.length_rotate, length_places] at heven
  exact heven

end

/-! ## Histories -/

/-- Between calls the cursor is `-1` or more. -/
theorem cursor_ge_step {s t : System Unit T Statics} {e : Event Unit T}
    (h : -1 ≤ s.statics.currentIndex) (hs : step roundRobin s e = some t) :
    -1 ≤ t.statics.currentIndex := by
  cases e with
  | addServer b server =>
      obtain rfl := Option.some.inj hs
      exact h
  | removeAllServers b =>
      obtain rfl := Option.some.inj hs
      exact h
  | requestServer b =>
      obtain ⟨r, hr, rfl⟩ := requestServer_eq_some.mp hs
      obtain ⟨p, hp, -⟩ := selectServer_position h hr
      show -1 ≤ r.2.currentIndex
      omega

/-- A request on a non-empty list reads it in range exactly if the cursor can be moved
on. -/
theorem inRange_iff {s : System Unit T Statics} {e : Event Unit T}
    (h : -1 ≤ s.statics.currentIndex) (hne : NonEmpty s e) : InRange s e ↔ CursorFits s e := by
  cases e with
  | addServer b server => exact Iff.rfl
  | removeAllServers b => exact Iff.rfl
  | requestServer b =>
      constructor
      · rintro ⟨k, hk, -⟩
        obtain ⟨c, hc, -⟩ := Option.map_eq_some_iff.mp hk
        exact ((advance_eq_some h).mp hc).1
      · intro hmax
        have hadvance := advance_eq h hmax hne
        obtain ⟨hpos, hlt, hle⟩ := advance_range h hadvance
        refine ⟨_, Option.map_eq_some_iff.mpr ⟨_, hadvance, rfl⟩, ?_⟩
        rw [toSize_of_nonneg hpos hle]
        omega

/-- Requests that find the cursor below the greatest `int` are answered. -/
theorem exists_step {s : System Unit T Statics} {e : Event Unit T}
    (h : -1 ≤ s.statics.currentIndex) (hne : NonEmpty s e) (hmax : CursorFits s e) :
    ∃ t, step roundRobin s e = some t := by
  cases e with
  | addServer b server => exact ⟨_, rfl⟩
  | removeAllServers b => exact ⟨_, rfl⟩
  | requestServer b =>
      obtain ⟨r, hr⟩ := exists_selectServer h hmax hne
      exact ⟨_, requestServer_eq_some.mpr ⟨r, hr, rfl⟩⟩

/-- A history of such requests goes through. -/
theorem exists_run {s : System Unit T Statics} {es fs : List (Event Unit T)}
    (h : -1 ≤ s.statics.currentIndex) (hne : Along (step roundRobin) NonEmpty s (es ++ fs))
    (hmax : Along (step roundRobin) CursorFits s (es ++ fs)) :
    ∃ t, run (step roundRobin) s es = some t ∧ -1 ≤ t.statics.currentIndex ∧
      Along (step roundRobin) NonEmpty t fs ∧ Along (step roundRobin) CursorFits t fs := by
  induction es generalizing s with
  | nil => exact ⟨s, rfl, h, hne, hmax⟩
  | cons e es ih =>
      obtain ⟨s', hs⟩ := exists_step h hne.1 hmax.1
      obtain ⟨t, hrun, ht⟩ := ih (cursor_ge_step h hs) (hne.2 s' hs) (hmax.2 s' hs)
      exact ⟨t, run_cons_eq_some.mpr ⟨s', hs, hrun⟩, ht⟩

/-- **Fairness.**  In a history with requests on non-empty lists only, the list is read in
range and successive requests are answered evenly exactly if no request finds the
cursor on the greatest `int`. -/
theorem fair_iff (es : List (Event Unit T))
    (hne : Along (step roundRobin) NonEmpty (System.init roundRobin fun _ ↦ []) es) :
    (Along (step roundRobin) InRange (System.init roundRobin fun _ ↦ []) es ∧ FairHistory es) ↔
      Along (step roundRobin) CursorFits (System.init roundRobin fun _ ↦ []) es := by
  have hinit : -1 ≤ (System.init (roundRobin (T := T)) fun _ : Unit ↦ []).statics.currentIndex :=
    Int.le_refl (-1)
  have hrange : Along (step roundRobin) InRange (System.init roundRobin fun _ ↦ []) es ↔
      Along (step roundRobin) CursorFits (System.init roundRobin fun _ ↦ []) es :=
    along_congr (fun _ _ _ h _ hs ↦ cursor_ge_step h hs) (fun _ _ h hne ↦ inRange_iff h hne)
      hinit hne
  rw [hrange, and_iff_left_iff_imp]
  rintro hmax before k behind rfl
  obtain ⟨s, hbefore, hs, hne', hmax'⟩ := exists_run hinit hne hmax
  obtain ⟨t, hrun, -⟩ := exists_run hs hne' hmax'
  refine ⟨s, t, hbefore, hrun, ?_⟩
  obtain ⟨out, hlength, hout, rfl⟩ := run_requests_iff.mp hrun
  have hreturned : (Function.update s.returned () (s.returned () ++ out) ()).drop
      (s.returned ()).length = out := by
    rw [Function.update_self, List.drop_left]
  obtain ⟨p, hp⟩ : ∃ p : Nat, s.statics.currentIndex + 1 = p :=
    ⟨(s.statics.currentIndex + 1).toNat, by omega⟩
  simp only [hreturned]
  exact ⟨hlength, Answers.evenly hp hout⟩

/-! ## A list that is too long -/

/-- A list is filled, and more requests are made than it has servers. -/
def fillAndRequest (server : T) (n : Nat) : List (Event Unit T) :=
  List.replicate n (.addServer () server) ++ List.replicate (n + 1) (.requestServer ())

/-- Servers are added one by one. -/
theorem run_addServer (s : System Unit T Statics) (server : T) (n : Nat) :
    run (step roundRobin) s (List.replicate n (.addServer () server)) =
      some { s with servers := fun _ ↦ s.servers () ++ List.replicate n server } := by
  induction n generalizing s with
  | zero => simp
  | succ n ih =>
      rw [List.replicate_succ, run, step, Option.bind_some, ih]
      simp [System.addServer, List.replicate_succ]

/-- Requests do not change the list. -/
theorem along_requests {s : System Unit T Statics} (hne : 0 < (s.servers ()).length) (k : Nat) :
    Along (step roundRobin) NonEmpty s (List.replicate k (.requestServer ())) := by
  induction k generalizing s with
  | zero => trivial
  | succ k ih =>
      refine ⟨hne, fun t hs ↦ ?_⟩
      obtain ⟨r, -, rfl⟩ := requestServer_eq_some.mp hs
      exact ih hne

theorem along_fillAndRequest (server : T) {n : Nat} (hn : 0 < n) :
    Along (step roundRobin) NonEmpty (System.init roundRobin fun _ ↦ [])
      (fillAndRequest server n) := by
  refine along_append ?_ (run_addServer _ server n) (along_requests ?_ _)
  · have hadd : ∀ (s : System Unit T Statics) (n : Nat),
        Along (step roundRobin) NonEmpty s (List.replicate n (.addServer () server)) := by
      intro s n
      induction n generalizing s with
      | zero => trivial
      | succ n ih => exact ⟨trivial, fun t _ ↦ ih t⟩
    exact hadd _ n
  · simpa [System.init] using hn

/-- On a list with more servers than the greatest `int` the cursor overflows. -/
theorem length_lt_of_answers {servers : List T} {out : List (T × Statics)}
    (hout : Answers roundRobin servers {} out) (hlong : 2147483648 < out.length) :
    servers.length < 2147483648 := by
  by_contra hsize
  have hq := List.getElem?_eq_getElem (show 2147483647 < out.length by omega)
  have hplace := Answers.getElem?_places (p := 0) rfl hout hq
  rw [Nat.zero_add, Nat.mod_eq_of_lt (by omega)] at hplace
  have hcursor : (out[2147483647]).2.currentIndex = 2147483647 :=
    (getElem?_places_eq_some.mp hplace).2
  have hrest := hout.drop hq
  rw [List.drop_eq_getElem_cons (show 2147483647 + 1 < out.length by omega)] at hrest
  have hnext := (place_of_selectServer (p := 2147483648) (by rw [hcursor]; rfl) hrest.1).1
  rw [hcursor] at hnext
  exact absurd hnext (by decide)

theorem not_fair_fillAndRequest (server : T) {n : Nat} (hn : 2147483648 ≤ n) :
    ¬ FairHistory (fillAndRequest server n) := by
  intro hfair
  obtain ⟨s, t, hs, hrun, -⟩ := hfair (List.replicate n (.addServer () server)) (n + 1) []
    (by rw [List.append_nil]; rfl)
  rw [run_addServer] at hs
  obtain rfl := Option.some.inj hs
  obtain ⟨out, hlength, hout, -⟩ := run_requests_iff.mp hrun
  have hlt := length_lt_of_answers hout (by omega)
  have hsize : ([] ++ List.replicate n server).length = n := by simp
  exact absurd hn (Nat.not_le_of_lt (hsize ▸ hlt))

theorem not_fair_long :
    Along (step roundRobin) NonEmpty (System.init roundRobin fun _ ↦ [])
        (fillAndRequest 0 2147483648) ∧
      ¬ (Along (step roundRobin) InRange (System.init roundRobin fun _ ↦ [])
          (fillAndRequest 0 2147483648) ∧ FairHistory (fillAndRequest 0 2147483648)) :=
  ⟨along_fillAndRequest 0 (by decide), fun h ↦ not_fair_fillAndRequest 0 (Nat.le_refl _) h.2⟩

/-- A list that grows, is emptied, and grows again, asked in between. -/
def reconfigured : List (Event Unit Nat) :=
  [.addServer () 1, .requestServer (), .addServer () 2, .addServer () 3, .requestServer (),
    .requestServer (), .removeAllServers (), .addServer () 4, .requestServer ()]

instance (s : System Unit T Statics) : (e : Event Unit T) → Decidable (NonEmpty s e)
  | .requestServer b => inferInstanceAs (Decidable (0 < (s.servers b).length))
  | .addServer _ _ => isTrue trivial
  | .removeAllServers _ => isTrue trivial

instance (s : System Unit T Statics) : (e : Event Unit T) → Decidable (CursorFits s e)
  | .requestServer _ => inferInstanceAs (Decidable (s.statics.currentIndex < intMax))
  | .addServer _ _ => isTrue trivial
  | .removeAllServers _ => isTrue trivial

/-- All requests are in range, and those between two changes of the list are answered evenly. -/
theorem fair_iff_reconfigured :
    Along (step roundRobin) InRange (System.init roundRobin fun _ ↦ []) reconfigured ∧
      FairHistory reconfigured :=
  (fair_iff reconfigured (by decide)).mpr (by decide)

end AsabruCommons.LoadBalancer.RoundRobinStrategy
