import AsabruCommons.LoadBalancer.Basic

/-!
# Requests in succession

What a balancer answers to requests that nothing interrupts.  The statics that one
request leaves behind are those the next one finds, so the answers are a chain
(`Answers`), and a run of requests is such a chain (`run_requests_iff`).

An answer is described by its place, the server and its position in the list.
-/

namespace AsabruCommons.LoadBalancer

open CInt Run

variable {ι T S : Type} [DecidableEq ι]

/-- The answers to successive requests on one list, of which the first finds the statics
`st`. -/
def Answers (strategy : Strategy T S) (servers : List T) : S → List (T × S) → Prop
  | _, [] => True
  | st, r :: out => strategy.selectServer servers st = some r ∧ Answers strategy servers r.2 out

/-- The statics after some answers. -/
def after : S → List (T × S) → S
  | st, [] => st
  | _, r :: out => after r.2 out

/-- A run of `k` requests to one balancer is a chain of `k` answers. -/
theorem run_requests_iff {strategy : Strategy T S} {s t : System ι T S} {b : ι} {k : Nat} :
    run (step strategy) s (List.replicate k (.requestServer b)) = some t ↔
      ∃ out, out.length = k ∧ Answers strategy (s.servers b) s.statics out ∧
        t = ⟨after s.statics out, s.servers,
          Function.update s.returned b (s.returned b ++ out)⟩ := by
  induction k generalizing s with
  | zero =>
      constructor
      · intro hrun
        obtain rfl := Option.some.inj hrun
        refine ⟨[], rfl, trivial, ?_⟩
        rw [List.append_nil, Function.update_eq_self]
        rfl
      · rintro ⟨out, hout, -, rfl⟩
        obtain rfl := List.length_eq_zero_iff.mp hout
        rw [List.append_nil, Function.update_eq_self]
        rfl
  | succ k ih =>
      rw [List.replicate_succ, run_cons_eq_some]
      constructor
      · rintro ⟨s', hs, hrun⟩
        obtain ⟨r, hr, rfl⟩ := requestServer_eq_some.mp hs
        obtain ⟨out, hlength, hout, rfl⟩ := ih.mp hrun
        refine ⟨r :: out, congrArg (· + 1) hlength, ⟨hr, hout⟩, ?_⟩
        simp only [Function.update_self, Function.update_idem, List.append_assoc,
          List.singleton_append]
        rfl
      · rintro ⟨out, hlength, hout, rfl⟩
        obtain ⟨r, out, rfl⟩ := List.exists_cons_of_length_eq_add_one hlength
        refine ⟨_, requestServer_eq_some.mpr ⟨r, hout.1, rfl⟩, ih.mpr ⟨out, ?_, hout.2, ?_⟩⟩
        · exact Nat.succ.inj hlength
        · simp only [Function.update_self, Function.update_idem, List.append_assoc,
            List.singleton_append]
          rfl

section

variable {strategy : Strategy T S} {servers : List T} {st : S}

/-- The first answers are a chain. -/
theorem Answers.take {out : List (T × S)} (h : Answers strategy servers st out) (n : Nat) :
    Answers strategy servers st (out.take n) := by
  induction out generalizing st n with
  | nil => rwa [List.take_nil]
  | cons r out ih =>
      cases n with
      | zero => trivial
      | succ n => exact ⟨h.1, ih h.2 n⟩

/-- The later answers are a chain. -/
theorem Answers.drop {out : List (T × S)} (h : Answers strategy servers st out) {n : Nat}
    {r : T × S} (hr : out[n]? = some r) : Answers strategy servers r.2 (out.drop (n + 1)) := by
  induction out generalizing st n with
  | nil => cases hr
  | cons q out ih =>
      cases n with
      | zero =>
          obtain rfl := Option.some.inj hr
          exact h.2
      | succ n => exact ih h.2 hr

/-- If every answer has a successor then there are chains of any length. -/
theorem exists_answers {P : S → Prop} (hP : P st)
    (hstep : ∀ st, P st → ∃ r, strategy.selectServer servers st = some r ∧ P r.2) (k : Nat) :
    ∃ out, out.length = k ∧ Answers strategy servers st out := by
  induction k generalizing st with
  | zero => exact ⟨[], rfl, trivial⟩
  | succ k ih =>
      obtain ⟨r, hr, hnext⟩ := hstep st hP
      obtain ⟨out, hlength, hout⟩ := ih hnext
      exact ⟨r :: out, congrArg (· + 1) hlength, hr, hout⟩

end

/-! ## Places -/

/-- A server and its position. -/
def places (servers : List T) : List (T × Int) := servers.mapIdx fun i server ↦ (server, (i : Int))

theorem length_places (servers : List T) : (places servers).length = servers.length :=
  List.length_mapIdx

theorem getElem?_places (servers : List T) (i : Nat) :
    (places servers)[i]? = servers[i]?.map fun server ↦ (server, (i : Int)) :=
  List.getElem?_mapIdx

theorem getElem?_places_eq_some {servers : List T} {i : Nat} {p : T × Int} :
    (places servers)[i]? = some p ↔ servers[i]? = some p.1 ∧ p.2 = i := by
  rw [getElem?_places, Option.map_eq_some_iff]
  constructor
  · rintro ⟨server, hserver, rfl⟩
    exact ⟨hserver, rfl⟩
  · rintro ⟨hserver, hpos⟩
    exact ⟨p.1, hserver, Prod.ext rfl hpos.symm⟩

/-- The servers from some position on. -/
theorem drop_places {servers : List T} {i : Nat} {server : T} (h : servers[i]? = some server) :
    (places servers).drop i = (server, (i : Int)) :: (places servers).drop (i + 1) := by
  have hplace : (places servers)[i]? = some (server, (i : Int)) :=
    getElem?_places_eq_some.mpr ⟨h, rfl⟩
  obtain ⟨hi, hget⟩ := List.getElem?_eq_some_iff.mp hplace
  rw [List.drop_eq_getElem_cons hi, hget]

/-- Each position is there once. -/
theorem places_split {servers : List T} {i : Nat} {server : T} (h : servers[i]? = some server) :
    places servers =
        (places servers).take i ++ (server, (i : Int)) :: (places servers).drop (i + 1) ∧
      (∀ p ∈ (places servers).take i, p.2 ≠ i) ∧ ∀ p ∈ (places servers).drop (i + 1), p.2 ≠ i := by
  refine ⟨?_, fun p hp ↦ ?_, fun p hp ↦ ?_⟩
  · rw [← drop_places h, List.take_append_drop]
  · obtain ⟨j, hj⟩ := List.mem_iff_getElem?.mp hp
    rw [List.getElem?_take, Option.ite_none_right_eq_some] at hj
    have hpos := (getElem?_places_eq_some.mp hj.2).2
    omega
  · obtain ⟨j, hj⟩ := List.mem_iff_getElem?.mp hp
    rw [List.getElem?_drop] at hj
    have hpos := (getElem?_places_eq_some.mp hj).2
    omega

end AsabruCommons.LoadBalancer
