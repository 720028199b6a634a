import AsabruCommons.LoadBalancer.Basic
import Mathlib.Logic.Nontrivial.Defs

/-!
# Balancers that share a cursor

Balancers of one element type share the cursor of
`RoundRobinStrategy::selectServer`, so a request to one of them moves the cursor
of all.  `rotates_iff` says when the requests to a family of balancers do not
disturb each other: each request must find the cursor, taken modulo the size of
its own list, where the previous request to the same balancer left it.

With two or more balancers that is the case for every order of requests only if
every list has a single server (`rotates_always_iff`).
-/

namespace AsabruCommons.LoadBalancer.RoundRobinStrategy

open CInt Run

variable {ι T : Type} [DecidableEq ι]

/-- The answers of a balancer walk around its list, one position per request:
the `j`-th of them is the server at position `k + j`, modulo the size. -/
def Rotates (servers : List T) (returned : List (T × Statics)) : Prop :=
  ∃ k : Nat, ∀ j r, returned[j]? = some r →
    r.2.currentIndex = (((k + j) % servers.length : Nat) : Int) ∧
      servers[(k + j) % servers.length]? = some r.1

/-- Requests to the given balancers, in order. -/
def requests (bs : List ι) : List (Event ι T) := bs.map .requestServer

/-- The run of the requests `bs` goes through, and all balancers rotate. -/
def RunRotates (servers : ι → List T) (bs : List ι) : Prop :=
  ∃ s, run (step roundRobin) (System.init roundRobin servers) (requests bs) = some s ∧
    ∀ b, Rotates (servers b) (s.returned b)

/-- The cursor is below the greatest `int`, and if the balancer was asked before
then the cursor is, modulo the size of its list, where that request left it. -/
def Undisturbed (s : System ι T Statics) : Event ι T → Prop
  | .requestServer b =>
      s.statics.currentIndex < intMax ∧
        ∀ r ∈ (s.returned b).getLast?,
          s.statics.currentIndex % (s.servers b).length = r.2.currentIndex
  | _ => True

/-! ## Rotations -/

theorem rotates_nil (servers : List T) : Rotates servers [] := ⟨0, nofun⟩

/-- What was returned earlier rotates if everything does. -/
theorem Rotates.of_earlier {servers : List T} {out out' : List (T × Statics)}
    (h : Rotates servers out') (hpre : out <+: out') : Rotates servers out := by
  obtain ⟨k, hk⟩ := h
  obtain ⟨rest, rfl⟩ := hpre
  refine ⟨k, fun j r hr ↦ hk j r ?_⟩
  obtain ⟨hj, -⟩ := List.getElem?_eq_some_iff.mp hr
  rwa [List.getElem?_append_left hj]

/-- A first answer is a rotation of any start. -/
theorem rotates_singleton {servers : List T} {r : T × Statics} {p : Nat}
    (hp : r.2.currentIndex = p) (hr : servers[p]? = some r.1) : Rotates servers [r] := by
  obtain ⟨hlt, -⟩ := List.getElem?_eq_some_iff.mp hr
  refine ⟨p, fun j r' hr' ↦ ?_⟩
  obtain ⟨hj, rfl⟩ := List.getElem?_eq_some_iff.mp hr'
  obtain rfl : j = 0 := by simpa using hj
  rw [Nat.add_zero, Nat.mod_eq_of_lt hlt]
  exact ⟨hp, hr⟩

/-- One more answer continues a rotation exactly when it is one position on. -/
theorem Rotates.snoc_iff {servers : List T} {out : List (T × Statics)} {q r : T × Statics}
    (h : Rotates servers out) (hq : out.getLast? = some q)
    {p : Nat} (hp : r.2.currentIndex = p) (hr : servers[p]? = some r.1) :
    Rotates servers (out ++ [r]) ↔
      r.2.currentIndex = (q.2.currentIndex + 1) % (servers.length : Int) := by
  obtain ⟨m, hm⟩ : ∃ m, out.length = m + 1 :=
    Nat.exists_eq_succ_of_ne_zero fun hzero ↦ by
      rw [List.length_eq_zero_iff.mp hzero] at hq
      cases hq
  have hlast : out[m]? = some q := by
    rw [List.getLast?_eq_getElem?, hm] at hq
    exact hq
  -- The answer after `q` in a rotation that starts at `k`.
  have hnext : ∀ k : Nat, q.2.currentIndex = (((k + m) % servers.length : Nat) : Int) →
      (((k + (m + 1)) % servers.length : Nat) : Int) =
        (q.2.currentIndex + 1) % (servers.length : Int) := by
    intro k hk
    rw [hk, Int.natCast_emod, Int.natCast_emod, Int.emod_add_emod]
    push_cast
    rw [Int.add_assoc]
  constructor
  · rintro ⟨k, hk⟩
    obtain ⟨hpos, -⟩ := hk (m + 1) r (by
      rw [List.getElem?_append_right (by omega), hm, Nat.sub_self]
      rfl)
    have hq' := (hk m q (by rw [List.getElem?_append_left (by omega)]; exact hlast)).1
    rw [hpos, hnext k hq']
  · intro hpos
    obtain ⟨k, hk⟩ := h
    have hindex : (k + (m + 1)) % servers.length = p := by
      have heq := hnext k (hk m q hlast).1
      rw [← hpos, hp] at heq
      exact_mod_cast heq
    refine ⟨k, fun j r' hr' ↦ ?_⟩
    rcases Nat.lt_or_ge j out.length with hj | hj
    · rw [List.getElem?_append_left hj] at hr'
      exact hk j r' hr'
    · obtain ⟨hj', rfl⟩ := List.getElem?_eq_some_iff.mp hr'
      obtain rfl : j = m + 1 := by
        rw [List.length_append, List.length_singleton] at hj'
        omega
      have hself : (out ++ [r])[m + 1] = r := by
        simp [List.getElem_append_right, hm]
      rw [hself, hindex]
      exact ⟨hp, hr⟩

/-! ## One request -/

/-- A request moves the cursor on and reads the list there. -/
theorem selectServer_eq_some {servers : List T} {st : Statics} {r : T × Statics} :
    selectServer servers st = some r ↔
      advance st.currentIndex servers.length = some r.2.currentIndex ∧
        servers[toSize r.2.currentIndex]? = some r.1 := by
  constructor
  · intro h
    obtain ⟨c, hc, h⟩ := Option.bind_eq_some_iff.mp h
    obtain ⟨server, hserver, h⟩ := Option.bind_eq_some_iff.mp h
    obtain rfl := Option.some.inj h
    exact ⟨hc, hserver⟩
  · rintro ⟨hc, hserver⟩
    refine Option.bind_eq_some_iff.mpr ⟨_, hc, ?_⟩
    exact Option.bind_eq_some_iff.mpr ⟨_, hserver, rfl⟩

/-- The server that is returned is the one the cursor is left on. -/
theorem selectServer_position {servers : List T} {st : Statics} {r : T × Statics}
    (hc : -1 ≤ st.currentIndex) (h : selectServer servers st = some r) :
    ∃ p : Nat, r.2.currentIndex = p ∧ servers[p]? = some r.1 := by
  obtain ⟨hadvance, hserver⟩ := selectServer_eq_some.mp h
  obtain ⟨hpos, -, hle⟩ := advance_range hc hadvance
  rw [toSize_of_nonneg hpos hle] at hserver
  exact ⟨r.2.currentIndex.toNat, (Int.toNat_of_nonneg hpos).symm, hserver⟩

/-- A request on a non-empty list returns unless the cursor overflows. -/
theorem exists_selectServer {servers : List T} {st : Statics} (hc : -1 ≤ st.currentIndex)
    (hmax : st.currentIndex < intMax) (hne : 0 < servers.length) :
    ∃ r, selectServer servers st = some r := by
  have hadvance := advance_eq hc hmax hne
  obtain ⟨hpos, hlt, hle⟩ := advance_range hc hadvance
  have hindex : toSize ((st.currentIndex + 1) % servers.length) < servers.length := by
    rw [toSize_of_nonneg hpos hle]
    omega
  exact ⟨(_, ⟨_⟩), selectServer_eq_some.mpr ⟨hadvance, List.getElem?_eq_getElem hindex⟩⟩

/-! ## Runs -/

/-- The invariant of a run of requests. -/
structure Inv (servers : ι → List T) (s : System ι T Statics) : Prop where
  servers_eq : s.servers = servers
  cursor_ge : -1 ≤ s.statics.currentIndex

section

variable {servers : ι → List T}

omit [DecidableEq ι] in
theorem inv_init (servers : ι → List T) : Inv servers (System.init roundRobin servers) :=
  ⟨rfl, Int.le_refl (-1)⟩

protected theorem Inv.step {s t : System ι T Statics} {b : ι} (h : Inv servers s)
    (hs : step roundRobin s (.requestServer b) = some t) : Inv servers t := by
  obtain ⟨r, hr, rfl⟩ := requestServer_eq_some.mp hs
  obtain ⟨p, hp, -⟩ := selectServer_position h.cursor_ge hr
  refine ⟨h.servers_eq, ?_⟩
  change -1 ≤ r.2.currentIndex
  omega

/-- **One request.**  It returns and all balancers rotate on exactly when the
state it finds is undisturbed. -/
theorem rotates_step_iff {s : System ι T Statics} (h : Inv servers s) {b : ι}
    (hne : 0 < (servers b).length) (hrot : ∀ c, Rotates (servers c) (s.returned c)) :
    (∃ t, step roundRobin s (.requestServer b) = some t ∧
        ∀ c, Rotates (servers c) (t.returned c)) ↔ Undisturbed s (.requestServer b) := by
  have hlen : (s.servers b).length = (servers b).length := by rw [h.servers_eq]
  -- After a request, the balancer `b` rotates if its cursor was where it left it.
  have hself : ∀ r, selectServer (s.servers b) s.statics = some r →
      (Rotates (servers b) (s.returned b ++ [r]) ↔ ∀ q ∈ (s.returned b).getLast?,
        s.statics.currentIndex % (s.servers b).length = q.2.currentIndex) := by
    intro r hr
    obtain ⟨p, hp, hserver⟩ := selectServer_position h.cursor_ge hr
    obtain ⟨hadvance, -⟩ := selectServer_eq_some.mp hr
    obtain ⟨-, -, hnext⟩ := (advance_eq_some h.cursor_ge).mp hadvance
    rw [h.servers_eq] at hserver
    rcases hlast : (s.returned b).getLast? with - | q
    · rw [List.getLast?_eq_none_iff.mp hlast]
      exact iff_of_true (rotates_singleton hp hserver) nofun
    · rw [(hrot b).snoc_iff hlast hp hserver, hnext, hlen, Int.emod_add_cancel_right]
      obtain ⟨k, hk⟩ := hrot b
      obtain ⟨hq, -⟩ := hk _ q (by rw [← List.getLast?_eq_getElem?]; exact hlast)
      have hmod : q.2.currentIndex % ((servers b).length : Int) = q.2.currentIndex := by
        rw [hq, ← Int.natCast_emod, Nat.mod_mod]
      rw [hmod]
      constructor
      · rintro heq q' hq'
        obtain rfl := Option.some.inj hq'
        exact heq
      · intro hall
        exact hall q rfl
  constructor
  · rintro ⟨t, ht, hall⟩
    obtain ⟨r, hr, rfl⟩ := requestServer_eq_some.mp ht
    obtain ⟨hadvance, -⟩ := selectServer_eq_some.mp hr
    have hb := hall b
    simp only [Function.update_self] at hb
    exact ⟨((advance_eq_some h.cursor_ge).mp hadvance).1, (hself r hr).mp hb⟩
  · rintro ⟨hmax, hcursor⟩
    obtain ⟨r, hr⟩ := exists_selectServer h.cursor_ge hmax (hlen ▸ hne)
    refine ⟨_, requestServer_eq_some.mpr ⟨r, hr, rfl⟩, fun c ↦ ?_⟩
    by_cases hc : c = b
    · subst hc
      simp only [Function.update_self]
      exact (hself r hr).mpr hcursor
    · simp only [Function.update_of_ne hc]
      exact hrot c

/-- A history only grows. -/
theorem returned_earlier {s t : System ι T Statics} {bs : List ι}
    (hrun : run (step roundRobin) s (requests bs) = some t) (c : ι) :
    s.returned c <+: t.returned c := by
  induction bs generalizing s with
  | nil =>
      obtain rfl := Option.some.inj hrun
      exact List.prefix_refl _
  | cons b bs ih =>
      obtain ⟨s', hs, hrun⟩ := run_cons_eq_some.mp hrun
      obtain ⟨r, -, rfl⟩ := requestServer_eq_some.mp hs
      refine List.IsPrefix.trans ?_ (ih hrun)
      by_cases hc : c = b
      · subst hc
        simp only [Function.update_self]
        exact List.prefix_append _ _
      · simp only [Function.update_of_ne hc]
        exact List.prefix_refl _

theorem run_rotates_iff (hne : ∀ b, 0 < (servers b).length) {s : System ι T Statics}
    (h : Inv servers s) (hrot : ∀ c, Rotates (servers c) (s.returned c)) (bs : List ι) :
    (∃ t, run (step roundRobin) s (requests bs) = some t ∧
        ∀ c, Rotates (servers c) (t.returned c)) ↔
      Along (step roundRobin) Undisturbed s (requests bs) := by
  induction bs generalizing s with
  | nil => exact iff_of_true ⟨s, rfl, hrot⟩ trivial
  | cons b bs ih =>
      constructor
      · rintro ⟨t, hrun, hall⟩
        obtain ⟨s', hs, hrun⟩ := run_cons_eq_some.mp hrun
        have hrot' : ∀ c, Rotates (servers c) (s'.returned c) := fun c ↦
          (hall c).of_earlier (returned_earlier hrun c)
        refine (along_cons hs _).mpr ⟨(rotates_step_iff h (hne b) hrot).mp ⟨s', hs, hrot'⟩, ?_⟩
        exact (ih (h.step hs) hrot').mp ⟨t, hrun, hall⟩
      · intro halong
        obtain ⟨s', hs, hrot'⟩ := (rotates_step_iff h (hne b) hrot).mpr halong.1
        obtain ⟨t, hrun, hall⟩ := (ih (h.step hs) hrot').mpr (halong.2 s' hs)
        exact ⟨t, run_cons_eq_some.mpr ⟨s', hs, hrun⟩, hall⟩

end

/-- **The balancers rotate exactly in the undisturbed runs.** -/
theorem rotates_iff (servers : ι → List T) (hne : ∀ b, 0 < (servers b).length) (bs : List ι) :
    RunRotates servers bs ↔
      Along (step roundRobin) Undisturbed (System.init roundRobin servers) (requests bs) :=
  run_rotates_iff hne (inv_init servers) (fun c ↦ rotates_nil (servers c)) bs

instance (s : System ι T Statics) : (e : Event ι T) → Decidable (Undisturbed s e)
  | .requestServer b =>
      inferInstanceAs (Decidable (s.statics.currentIndex < intMax ∧
        ∀ r ∈ (s.returned b).getLast?,
          s.statics.currentIndex % (s.servers b).length = r.2.currentIndex))
  | .addServer _ _ => isTrue trivial
  | .removeAllServers _ => isTrue trivial

/-- Two balancers with two servers each. -/
def pair : Bool → List Nat
  | false => [1, 2]
  | true => [3, 4]

/-- Alternating requests: the first balancer returns its first server twice. -/
theorem rotates_disturbed :
    ∃ s, run (step roundRobin) (System.init roundRobin pair) (requests [false, true, false]) =
        some s ∧ (s.returned false).map Prod.fst = [1, 1] ∧
      ¬ Rotates (pair false) (s.returned false) := by
  refine ⟨_, rfl, rfl, ?_⟩
  rintro ⟨k, hk⟩
  obtain ⟨hfirst, -⟩ := hk 0 (1, ⟨0⟩) (by decide)
  obtain ⟨hsecond, -⟩ := hk 1 (1, ⟨0⟩) (by decide)
  change (0 : Int) = (((k + 0) % 2 : Nat) : Int) at hfirst
  change (0 : Int) = (((k + 1) % 2 : Nat) : Int) at hsecond
  omega

/-- Two requests to each balancer, not interleaved. -/
theorem rotates_undisturbed : RunRotates pair [false, false, true, true] :=
  (rotates_iff pair (by decide) [false, false, true, true]).mpr (by decide)

/-! ## All orders of requests -/

/-- The position of the last answer of a balancer. -/
def last (s : System ι T Statics) (b : ι) : Option Int :=
  (s.returned b).getLast?.map fun r ↦ r.2.currentIndex

section

variable {servers : ι → List T}

/-- One undisturbed request. -/
theorem Inv.along_cons {s : System ι T Statics} (h : Inv servers s) {b : ι}
    (hne : 0 < (servers b).length) {bs : List ι}
    (halong : Along (step roundRobin) Undisturbed s (requests (b :: bs))) :
    ∃ t, Inv servers t ∧ Along (step roundRobin) Undisturbed t (requests bs) ∧
      t.statics.currentIndex = (s.statics.currentIndex + 1) % ((servers b).length : Int) ∧
      last t b = some t.statics.currentIndex ∧ (∀ c, c ≠ b → last t c = last s c) ∧
      ∀ p, last s b = some p → s.statics.currentIndex % ((servers b).length : Int) = p := by
  obtain ⟨⟨hmax, hcursor⟩, hrest⟩ := halong
  rw [h.servers_eq] at hcursor
  obtain ⟨r, hr⟩ := exists_selectServer h.cursor_ge hmax hne
  have hr' : roundRobin.selectServer (s.servers b) s.statics = some r := by
    rw [h.servers_eq]
    exact hr
  have hs : step roundRobin s (.requestServer b) = some _ :=
    requestServer_eq_some.mpr ⟨r, hr', rfl⟩
  obtain ⟨hadvance, -⟩ := selectServer_eq_some.mp hr
  obtain ⟨-, -, hnext⟩ := (advance_eq_some h.cursor_ge).mp hadvance
  refine ⟨_, h.step hs, hrest _ hs, hnext, ?_, fun c hc ↦ ?_, fun p hp ↦ ?_⟩
  · simp [last]
  · simp [last, Function.update_of_ne hc]
  · obtain ⟨q, hq, rfl⟩ := Option.map_eq_some_iff.mp hp
    exact hcursor q hq

/-- Requests that alternate between a balancer with two or more servers and
another one disturb the first. -/
theorem not_rotates_alternating (hne : ∀ b, 0 < (servers b).length) {x y : ι} (hxy : x ≠ y)
    (hx : 2 ≤ (servers x).length) : ¬ RunRotates servers [x, y, x, y, x] := by
  intro hrot
  have halong := (rotates_iff servers hne _).mp hrot
  obtain ⟨s₁, hinv₁, halong, hc₁, hlast₁, -, -⟩ := (inv_init servers).along_cons (hne x) halong
  obtain ⟨s₂, hinv₂, halong, hc₂, -, hkeep₂, -⟩ := hinv₁.along_cons (hne y) halong
  obtain ⟨s₃, hinv₃, halong, hc₃, hlast₃, -, hat₃⟩ := hinv₂.along_cons (hne x) halong
  obtain ⟨s₄, hinv₄, halong, hc₄, -, hkeep₄, -⟩ := hinv₃.along_cons (hne y) halong
  obtain ⟨s₅, -, -, -, -, -, hat₅⟩ := hinv₄.along_cons (hne x) halong
  have hzero : s₁.statics.currentIndex = 0 := by
    rw [hc₁]
    exact Int.zero_emod _
  have hone : (1 : Int) % ((servers x).length : Int) = 1 :=
    Int.emod_eq_of_lt (by omega) (by omega)
  rw [hzero, Int.zero_add] at hc₂
  have hthird := hat₃ 0 (by rw [hkeep₂ x hxy, hlast₁, hzero])
  have hfifth := hat₅ _ ((hkeep₄ x hxy).trans hlast₃)
  rcases Nat.lt_or_ge 1 (servers y).length with hy | hy
  -- The second request leaves the cursor on 1, where the third does not expect it.
  · rw [Int.emod_eq_of_lt (by omega) (by omega)] at hc₂
    rw [hc₂, hone] at hthird
    omega
  -- The other balancer has one server, so its requests leave the cursor on 0.
  · have hlen : ((servers y).length : Int) = 1 := by
      have := hne y
      omega
    rw [hlen, Int.emod_one] at hc₂ hc₄
    rw [hc₂, Int.zero_add, hone] at hc₃
    rw [hc₃, hc₄, Int.zero_emod] at hfifth
    omega

/-- Balancers with one server each cannot disturb each other. -/
theorem run_rotates_of_length_eq_one (hone : ∀ b, (servers b).length = 1)
    {s : System ι T Statics} (h : Inv servers s) (hc : s.statics.currentIndex ≤ 0)
    (hrot : ∀ c, Rotates (servers c) (s.returned c)) (bs : List ι) :
    ∃ t, run (step roundRobin) s (requests bs) = some t ∧
      ∀ c, Rotates (servers c) (t.returned c) := by
  induction bs generalizing s with
  | nil => exact ⟨s, rfl, hrot⟩
  | cons b bs ih =>
      have hund : Undisturbed s (.requestServer b) := by
        refine ⟨by unfold intMax; omega, fun r hr ↦ ?_⟩
        obtain ⟨k, hk⟩ := hrot b
        obtain ⟨hpos, -⟩ := hk _ r (by rw [← List.getLast?_eq_getElem?]; exact hr)
        rw [hpos, h.servers_eq, hone b, Nat.mod_one]
        exact Int.emod_one _
      have hne : 0 < (servers b).length := by
        rw [hone b]
        exact Nat.one_pos
      obtain ⟨t, hs, hrot'⟩ := (rotates_step_iff h hne hrot).mpr hund
      have hc' : t.statics.currentIndex ≤ 0 := by
        obtain ⟨r, hr, rfl⟩ := requestServer_eq_some.mp hs
        obtain ⟨hadvance, -⟩ := selectServer_eq_some.mp hr
        obtain ⟨-, hlt, -⟩ := advance_range h.cursor_ge hadvance
        rw [h.servers_eq, hone b] at hlt
        change r.2.currentIndex ≤ 0
        omega
      obtain ⟨u, hrun, hall⟩ := ih (h.step hs) hc' hrot'
      exact ⟨u, run_cons_eq_some.mpr ⟨t, hs, hrun⟩, hall⟩

end

/-- **All orders of requests.**  Two or more balancers rotate whatever the order
of their requests exactly when each of them has one server. -/
theorem rotates_always_iff [Nontrivial ι] (servers : ι → List T)
    (hne : ∀ b, 0 < (servers b).length) :
    (∀ bs, RunRotates servers bs) ↔ ∀ b, (servers b).length = 1 := by
  constructor
  · intro hall b
    by_contra hlen
    obtain ⟨c, hc⟩ := exists_ne b
    have hb := hne b
    exact not_rotates_alternating hne hc.symm (by omega) (hall _)
  · intro hone bs
    have hcursor : (-1 : Int) ≤ 0 := by decide
    exact run_rotates_of_length_eq_one hone (inv_init servers) hcursor
      (fun c ↦ rotates_nil (servers c)) bs

end AsabruCommons.LoadBalancer.RoundRobinStrategy
