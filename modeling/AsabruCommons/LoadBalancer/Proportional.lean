import AsabruCommons.LoadBalancer.Requests
import AsabruCommons.LoadBalancer.Weighted
import AsabruCommons.Rotation

/-!
# Shares of the weighted servers

One balancer, a list of servers that does not change, and requests in succession.  The
balancer goes round its list: it gives each server as many requests in succession as
its weight says, and one to a server of weight zero (`follows_schedule`).  Two things
can stop it.

* The cursor is an `int`, and it overflows behind the last server of a list that is too
  long (`length_le_of_follows`).
* A negative weight is neither counted down nor zero.  Once it is loaded the balancer
  stays where it is (`Loaded.next_of_neg`).

Without the second one the shares are proportional exactly if the first cannot happen
(`proportional_iff`).  With arbitrary weights, `none_starves_iff` says when no server
starves.
-/

namespace AsabruCommons.LoadBalancer.WeightedRoundRobinStrategy

open CInt Run Rotation

variable {ι T : Type} [DecidableEq ι]

/-- The server of an answer and its position. -/
def place (r : T × Statics) : T × Int := (r.1, r.2.currentIndex)

/-- How many requests in succession a server is given. -/
def turns (weight : T → Int) (server : T) : Nat := max (weight server).toNat 1

/-- One round of the balancer. -/
def schedule (weight : T → Int) (servers : List T) : List (T × Int) :=
  blocks (fun p ↦ turns weight p.1) (places servers)

/-- The requests of one round. -/
def window (weight : T → Int) (servers : List T) : Nat := (servers.map (turns weight)).sum

theorem length_schedule (weight : T → Int) (servers : List T) :
    (schedule weight servers).length = window weight servers := by
  rw [schedule, length_blocks, window]
  congr 1
  refine List.ext_getElem? fun i ↦ ?_
  rw [List.getElem?_map, List.getElem?_map, getElem?_places]
  cases servers[i]? <;> rfl

/-! ## One request -/

section

variable {weight : T → Int} {servers : List T}

/-- What an answer leaves behind: the cursor on its server, and no more than the weight of
that server. -/
structure Loaded (weight : T → Int) (servers : List T) (r : T × Statics) (c : Nat) : Prop where
  cursor : r.2.currentIndex = c
  cursor_le : r.2.currentIndex ≤ intMax
  server : servers[c]? = some r.1
  weight_le : r.2.weight ≤ weight r.1
  neg : r.2.weight < 0 → weight r.1 < 0

/-- A request that moves on loads the weight of the next server. -/
theorem loaded_of_remaining_eq_zero {st : Statics} {r : T × Statics} {p : Nat}
    (hcursor : st.currentIndex + 1 = p) (hzero : remaining st = 0)
    (h : selectServer weight servers st = some r) :
    st.currentIndex < intMax ∧ Loaded weight servers r (p % servers.length) ∧
      r.2.weight = weight r.1 := by
  obtain ⟨hread, hserver, hweight⟩ := selectServer_eq_some h
  rw [readCursor, if_pos hzero] at hread
  have hge : -1 ≤ st.currentIndex := by omega
  obtain ⟨hmax, -, hnext⟩ := (advance_eq_some hge).mp hread
  obtain ⟨hpos, -, hle⟩ := advance_range hge hread
  have hnat : r.2.currentIndex = ((p % servers.length : Nat) : Int) := by
    rw [hnext, hcursor, Int.natCast_emod]
  rw [if_pos hzero] at hweight
  refine ⟨hmax, ⟨hnat, hle, ?_, Int.le_of_eq hweight, fun hneg ↦ hweight ▸ hneg⟩, hweight⟩
  rw [toSize_of_nonneg hpos hle, hnat, Int.toNat_natCast] at hserver
  exact hserver

/-- A request that does not move on stays with the server. -/
theorem Loaded.next_of_remaining_ne_zero {q r : T × Statics} {c : Nat}
    (hq : Loaded weight servers q c) (hne : remaining q.2 ≠ 0)
    (h : selectServer weight servers q.2 = some r) : r = (q.1, ⟨c, remaining q.2⟩) := by
  obtain ⟨hread, hserver, hweight⟩ := selectServer_eq_some h
  rw [readCursor, if_neg hne] at hread
  rw [if_neg hne] at hweight
  have hcursor : r.2.currentIndex = c := (Option.some.inj hread).symm.trans hq.cursor
  rw [hcursor, toSize_of_nonneg (Int.natCast_nonneg c) (hq.cursor ▸ hq.cursor_le),
    Int.toNat_natCast, hq.server] at hserver
  refine Prod.ext (Option.some.inj hserver).symm ?_
  show r.2 = ⟨c, remaining q.2⟩
  rw [← hcursor, ← hweight]

/-- Every answer leaves the cursor on its server. -/
theorem Loaded.next {q r : T × Statics} {c : Nat} (hq : Loaded weight servers q c)
    (h : selectServer weight servers q.2 = some r) :
    ∃ c', Loaded weight servers r c' := by
  by_cases hzero : remaining q.2 = 0
  · have hcursor : q.2.currentIndex + 1 = ((c + 1 : Nat) : Int) := by
      rw [hq.cursor]
      rfl
    exact ⟨_, (loaded_of_remaining_eq_zero hcursor hzero h).2.1⟩
  · obtain rfl := hq.next_of_remaining_ne_zero hzero h
    have hle := hq.weight_le
    refine ⟨c, rfl, hq.cursor ▸ hq.cursor_le, hq.server, ?_, fun hneg ↦ hq.neg ?_⟩
    · show remaining q.2 ≤ weight q.1
      unfold remaining
      split <;> omega
    · have hneg' : remaining q.2 < 0 := hneg
      unfold remaining at hneg'
      split at hneg' <;> omega

/-- A negative weight is never used up. -/
theorem Loaded.next_of_neg {q r : T × Statics} {c : Nat} (hq : Loaded weight servers q c)
    (hneg : q.2.weight < 0) (h : selectServer weight servers q.2 = some r) : r = q := by
  have hrem : remaining q.2 = q.2.weight := if_neg (by omega)
  have hnext := hq.next_of_remaining_ne_zero (by omega) h
  rw [hrem, ← hq.cursor] at hnext
  exact hnext

/-! ## Going round the list -/

/-- An answer `r` behind which the first `n` turns of a round are over. -/
structure At (weight : T → Int) (servers : List T) (r : T × Statics) (c n : Nat) : Prop where
  loaded : Loaded weight servers r c
  le : n ≤ (schedule weight servers).length
  rest : (schedule weight servers).drop n =
    List.replicate (r.2.weight - 1).toNat (place r) ++
      blocks (fun p ↦ turns weight p.1) ((places servers).drop (c + 1))

/-- What is left of a list, one element further. -/
theorem drop_eq_cons {α : Type} {l t : List α} {n : Nat} {a : α} (h : l.drop n = a :: t) :
    l[n]? = some a ∧ l.drop (n + 1) = t ∧ n + 1 ≤ l.length := by
  have hget : l[n]? = some a := by
    rw [← List.head?_drop, h]
    rfl
  obtain ⟨hn, -⟩ := List.getElem?_eq_some_iff.mp hget
  refine ⟨hget, ?_, hn⟩
  rw [← List.tail_drop, h]
  rfl

/-- The first of the turns of a server. -/
theorem at_of_loaded {q : T × Statics} {p n : Nat} (hq : Loaded weight servers q p)
    (hweight : q.2.weight = weight q.1)
    (hdrop : (schedule weight servers).drop n =
      blocks (fun p ↦ turns weight p.1) ((places servers).drop p)) :
    (schedule weight servers)[n]? = some (place q) ∧ At weight servers q p (n + 1) := by
  have hplace : (q.1, (p : Int)) = place q := by
    rw [place, hq.cursor]
  have hturns : turns weight q.1 = (q.2.weight - 1).toNat + 1 := by
    rw [turns, hweight]
    omega
  rw [drop_places hq.server, blocks_cons, hturns, List.replicate_succ, List.cons_append,
    hplace] at hdrop
  obtain ⟨hget, hrest, hle⟩ := drop_eq_cons hdrop
  exact ⟨hget, hq, hle, hrest⟩

/-- The next request takes the next turn, unless a negative weight was loaded. -/
theorem At.next {q r : T × Statics} {c n : Nat} (hq : At weight servers q c n)
    (hnonneg : 0 ≤ q.2.weight) (h : selectServer weight servers q.2 = some r) :
    (schedule weight servers)[n % (schedule weight servers).length]? = some (place r) ∧
      ∃ c' n', At weight servers r c' n' ∧
        n' % (schedule weight servers).length = (n + 1) % (schedule weight servers).length := by
  obtain ⟨hloaded, hle, hrest⟩ := hq
  by_cases hzero : remaining q.2 = 0
  · have hused : (q.2.weight - 1).toNat = 0 := by
      unfold remaining at hzero
      split at hzero <;> omega
    have hcursor : q.2.currentIndex + 1 = ((c + 1 : Nat) : Int) := by
      rw [hloaded.cursor]
      rfl
    obtain ⟨-, hnext, hweight⟩ := loaded_of_remaining_eq_zero hcursor hzero h
    rw [hused, List.replicate_zero, List.nil_append] at hrest
    obtain ⟨hc, -⟩ := List.getElem?_eq_some_iff.mp hloaded.server
    rcases Nat.lt_or_ge (c + 1) servers.length with hlt | hge
    · rw [Nat.mod_eq_of_lt hlt] at hnext
      obtain ⟨hget, hat⟩ := at_of_loaded hnext hweight hrest
      obtain ⟨hn, -⟩ := List.getElem?_eq_some_iff.mp hget
      rw [Nat.mod_eq_of_lt hn]
      exact ⟨hget, _, _, hat, rfl⟩
    · -- the round is over, and the next one begins
      have hlast : c + 1 = servers.length := by omega
      rw [hlast, Nat.mod_self] at hnext
      obtain ⟨hget, hat⟩ := at_of_loaded (n := 0) hnext hweight rfl
      have hnil : (places servers).drop (c + 1) = [] := by
        rw [hlast, ← length_places servers, List.drop_length]
      rw [hnil] at hrest
      have hn : n = (schedule weight servers).length :=
        Nat.le_antisymm hle (List.drop_eq_nil_iff.mp hrest)
      rw [hn, Nat.mod_self]
      refine ⟨hget, _, _, hat, ?_⟩
      show 1 % _ = (_ + 1) % _
      rw [Nat.add_mod_left]
  · obtain rfl := hloaded.next_of_remaining_ne_zero hzero h
    have hpos : 0 < q.2.weight := by
      unfold remaining at hzero
      split at hzero <;> omega
    have hrem : remaining q.2 = q.2.weight - 1 := if_pos hpos
    have hturns : (q.2.weight - 1).toNat = (remaining q.2 - 1).toNat + 1 := by omega
    have hplace : place q = place (q.1, (⟨c, remaining q.2⟩ : Statics)) := by
      rw [place, place, hloaded.cursor]
    obtain ⟨c', hloaded'⟩ := hloaded.next h
    obtain rfl : c' = c := Int.natCast_inj.mp hloaded'.cursor.symm
    rw [hturns, List.replicate_succ, List.cons_append, hplace] at hrest
    obtain ⟨hget, hrest, hle⟩ := drop_eq_cons hrest
    rw [Nat.mod_eq_of_lt hle]
    exact ⟨hget, c', n + 1, ⟨hloaded', hle, hrest⟩, rfl⟩

/-- The answers behind an answer take the turns behind it. -/
theorem At.answers {q : T × Statics} {c n : Nat} (hq : At weight servers q c n)
    {out : List (T × Statics)} (hout : Answers (weightedRoundRobin weight) servers q.2 out)
    (hnonneg : ∀ r ∈ q :: out, 0 ≤ r.2.weight) {j : Nat} {r : T × Statics}
    (hr : out[j]? = some r) :
    (schedule weight servers)[(n + j) % (schedule weight servers).length]? = some (place r) := by
  induction out generalizing q c n j with
  | nil => cases hr
  | cons q' out ih =>
      obtain ⟨hget, c', n', hq', hn'⟩ := hq.next (hnonneg q List.mem_cons_self) hout.1
      cases j with
      | zero =>
          obtain rfl := Option.some.inj hr
          exact hget
      | succ j =>
          have hnext := ih hq' hout.2 (fun r hr ↦ hnonneg r (List.mem_cons_of_mem q hr)) hr
          have hmod : n + (j + 1) = n + 1 + j := by omega
          rwa [hmod, Nat.add_mod, ← hn', ← Nat.add_mod]

/-- **Going round.**  As long as no negative weight is loaded the answers go round the
schedule. -/
theorem follows_schedule {out : List (T × Statics)}
    (hout : Answers (weightedRoundRobin weight) servers {} out)
    (hnonneg : ∀ r ∈ out, 0 ≤ r.2.weight) : Follows (schedule weight servers) (out.map place) := by
  intro j a ha
  rw [List.getElem?_map, Option.map_eq_some_iff] at ha
  obtain ⟨r, hr, rfl⟩ := ha
  cases out with
  | nil => cases hr
  | cons q out =>
      obtain ⟨-, hloaded, hweight⟩ := loaded_of_remaining_eq_zero (p := 0) rfl rfl hout.1
      rw [Nat.zero_mod] at hloaded
      obtain ⟨hget, hat⟩ := at_of_loaded (n := 0) hloaded hweight rfl
      cases j with
      | zero =>
          obtain rfl := Option.some.inj hr
          rw [Nat.zero_mod]
          exact hget
      | succ j =>
          have hnext := hat.answers hout.2 hnonneg hr
          rwa [Nat.zero_add, Nat.add_comm 1 j] at hnext

/-! ## Chains of answers -/

theorem Loaded.of_mem {q : T × Statics} {c : Nat} (hq : Loaded weight servers q c)
    {out : List (T × Statics)} (hout : Answers (weightedRoundRobin weight) servers q.2 out) :
    ∀ r ∈ out, ∃ c, Loaded weight servers r c := by
  induction out generalizing q c with
  | nil => exact nofun
  | cons q' out ih =>
      obtain ⟨c', hq'⟩ := hq.next hout.1
      rintro r hr
      rcases List.mem_cons.mp hr with rfl | hr
      · exact ⟨c', hq'⟩
      · exact ih hq' hout.2 r hr

theorem loaded_of_mem {out : List (T × Statics)}
    (hout : Answers (weightedRoundRobin weight) servers {} out) :
    ∀ r ∈ out, ∃ c, Loaded weight servers r c := by
  cases out with
  | nil => exact nofun
  | cons q out =>
      obtain ⟨-, hq, -⟩ := loaded_of_remaining_eq_zero (p := 0) rfl rfl hout.1
      rintro r hr
      rcases List.mem_cons.mp hr with rfl | hr
      · exact ⟨_, hq⟩
      · exact hq.of_mem hout.2 r hr

/-- Without negative weights none is ever loaded. -/
theorem nonneg_of_mem (hweight : ∀ server ∈ servers, 0 ≤ weight server)
    {out : List (T × Statics)} (hout : Answers (weightedRoundRobin weight) servers {} out) :
    ∀ r ∈ out, 0 ≤ r.2.weight := by
  intro r hr
  obtain ⟨c, hloaded⟩ := loaded_of_mem hout r hr
  by_contra hneg
  have hserver := hweight r.1 (List.mem_of_getElem? hloaded.server)
  have hnegative := hloaded.neg (by omega)
  omega

theorem exists_selectServer {st : Statics} {c : Int} (hread : readCursor servers.length st = some c)
    (hlt : toSize c < servers.length) : ∃ r, selectServer weight servers st = some r := by
  have hserver : servers[toSize c]? = some servers[toSize c] := List.getElem?_eq_getElem hlt
  refine ⟨(servers[toSize c], ⟨c, if remaining st = 0 then weight servers[toSize c]
    else remaining st⟩), ?_⟩
  simp only [selectServer, hread, hserver, Option.bind_eq_bind, Option.bind_some]
  rfl

variable (weight) in
theorem exists_selectServer_of_le (st : Statics) {p : Nat} (hne : 0 < servers.length)
    (hle : (servers.length : Int) ≤ intMax) (hcursor : st.currentIndex + 1 = p)
    (hp : p ≤ servers.length) (hzero : remaining st = 0) :
    ∃ r, selectServer weight servers st = some r := by
  have hadvance := advance_eq (c := st.currentIndex) (by omega) (by omega) hne
  obtain ⟨hpos, hlt, hmax⟩ := advance_range (by omega) hadvance
  refine exists_selectServer ((if_pos hzero).trans hadvance) ?_
  rw [toSize_of_nonneg hpos hmax]
  omega

variable (weight) in
/-- The cursor of a list that is not too long never overflows. -/
theorem exists_answers_of_le (hne : 0 < servers.length) (hle : (servers.length : Int) ≤ intMax)
    (k : Nat) :
    ∃ out, out.length = k ∧ Answers (weightedRoundRobin weight) servers {} out := by
  refine exists_answers (P := fun st ↦ st = {} ∨ ∃ r c, Loaded weight servers r c ∧ r.2 = st)
    (.inl rfl) ?_ k
  rintro st (rfl | ⟨q, c, hq, rfl⟩)
  · obtain ⟨r, hr⟩ := exists_selectServer_of_le weight {} (p := 0) hne hle rfl
      (Nat.zero_le _) rfl
    obtain ⟨-, hloaded, -⟩ := loaded_of_remaining_eq_zero (p := 0) rfl rfl hr
    exact ⟨r, hr, .inr ⟨r, _, hloaded, rfl⟩⟩
  · obtain ⟨hc, -⟩ := List.getElem?_eq_some_iff.mp hq.server
    obtain ⟨r, hr⟩ : ∃ r, selectServer weight servers q.2 = some r := by
      by_cases hzero : remaining q.2 = 0
      · have hcursor : q.2.currentIndex + 1 = ((c + 1 : Nat) : Int) := by
          rw [hq.cursor]
          rfl
        exact exists_selectServer_of_le weight _ hne hle hcursor hc hzero
      · refine exists_selectServer (if_neg hzero) ?_
        rw [hq.cursor, toSize_of_nonneg (Int.natCast_nonneg c) (hq.cursor ▸ hq.cursor_le),
          Int.toNat_natCast]
        exact hc
    obtain ⟨c', hr'⟩ := hq.next hr
    exact ⟨r, hr, .inr ⟨r, c', hr', rfl⟩⟩

/-- The turns of a round that belong to one position. -/
theorem countP_schedule {i : Nat} {server : T} (h : servers[i]? = some server) :
    (schedule weight servers).countP (fun p ↦ p.2 = (i : Int)) = turns weight server := by
  obtain ⟨hsplit, hbefore, hbehind⟩ := places_split h
  rw [schedule, hsplit]
  refine countP_blocks (a := (server, (i : Int))) (decide_eq_true rfl) (fun p hp ↦ ?_) fun p hp ↦ ?_
  · exact decide_eq_false (hbefore p hp)
  · exact decide_eq_false (hbehind p hp)

/-- In a window of one round each server has its turns. -/
theorem countP_window {out : List (T × Statics)}
    (hout : Follows (schedule weight servers) (out.map place)) {a i : Nat} {server : T}
    (h : servers[i]? = some server) (ha : a + window weight servers ≤ out.length) :
    ((out.drop a).take (window weight servers)).countP (fun r ↦ r.2.currentIndex = (i : Int)) =
      turns weight server := by
  have hle : a + (schedule weight servers).length ≤ (out.map place).length := by
    rwa [List.length_map, length_schedule]
  have hcount := hout.countP_window hle fun p ↦ p.2 = (i : Int)
  rw [countP_schedule h, length_schedule, ← List.map_drop, ← List.map_take,
    List.countP_map] at hcount
  exact hcount

variable (weight) in
/-- The first turns of a round belong to the first server, and the last ones to the last
server. -/
theorem schedule_ends {m : Nat} (h : servers.length = m + 1) :
    (∃ server, (schedule weight servers)[0]? = some (server, 0)) ∧
      ∃ server, (schedule weight servers).getLast? = some (server, (m : Int)) := by
  have hturns : ∀ server, ∃ k, turns weight server = k + 1 := fun server ↦
    Nat.exists_eq_succ_of_ne_zero (by unfold turns; omega)
  constructor
  · have hzero : servers[0]? = some servers[0] := List.getElem?_eq_getElem (by omega)
    obtain ⟨k, hk⟩ := hturns servers[0]
    obtain ⟨hsplit, -⟩ := places_split hzero
    rw [schedule, hsplit, List.take_zero, List.nil_append, blocks_cons, hk, List.replicate_succ]
    exact ⟨_, rfl⟩
  · have hm : servers[m]? = some servers[m] := List.getElem?_eq_getElem (by omega)
    obtain ⟨k, hk⟩ := hturns servers[m]
    obtain ⟨hsplit, -⟩ := places_split hm
    have hnil : (places servers).drop (m + 1) = [] := by
      rw [← h, ← length_places servers, List.drop_length]
    refine ⟨servers[m], ?_⟩
    rw [schedule, hsplit, hnil, blocks_append, blocks_cons, hk, List.replicate_succ']
    simp [blocks]

/-- **The end of the list.**  A chain of answers that goes on after a round shows that
the cursor can be moved on from the last server. -/
theorem length_le_of_follows {out : List (T × Statics)} (hne : 0 < servers.length)
    (hout : Answers (weightedRoundRobin weight) servers {} out)
    (hfollows : Follows (schedule weight servers) (out.map place))
    (hlong : window weight servers < out.length) : (servers.length : Int) ≤ intMax := by
  obtain ⟨m, hm⟩ : ∃ m, servers.length = m + 1 := Nat.exists_eq_succ_of_ne_zero (by omega)
  obtain ⟨⟨first, hfirst⟩, last, hlast⟩ := schedule_ends weight hm
  rw [List.getLast?_eq_getElem?, length_schedule] at hlast
  obtain ⟨hpos, -⟩ := List.getElem?_eq_some_iff.mp hfirst
  rw [length_schedule] at hpos
  have hplace : ∀ {j r}, out[j]? = some r →
      (schedule weight servers)[j % window weight servers]? = some (place r) := by
    intro j r hr
    rw [← length_schedule]
    exact hfollows j _ (by rw [List.getElem?_map, hr, Option.map_some])
  have hq := List.getElem?_eq_getElem (show window weight servers - 1 < out.length by omega)
  have hr := List.getElem?_eq_getElem hlong
  have hqlast := hplace hq
  rw [Nat.mod_eq_of_lt (by omega), hlast] at hqlast
  have hrfirst := hplace hr
  rw [Nat.mod_self, hfirst] at hrfirst
  have hqcursor : out[window weight servers - 1].2.currentIndex = m :=
    (congrArg Prod.snd (Option.some.inj hqlast)).symm
  have hrcursor : out[window weight servers].2.currentIndex = 0 :=
    (congrArg Prod.snd (Option.some.inj hrfirst)).symm
  have hselect : selectServer weight servers out[window weight servers - 1].2 =
      some out[window weight servers] := by
    have hrest := hout.drop hq
    have hsucc : window weight servers - 1 + 1 = window weight servers := by omega
    rw [hsucc, List.drop_eq_getElem_cons hlong] at hrest
    exact hrest.1
  rcases Nat.eq_zero_or_pos m with hzero | hmpos
  · rw [hm, hzero]
    decide
  · -- the cursor has moved from the last position to the first
    have hmoved : remaining out[window weight servers - 1].2 = 0 := by
      by_contra hstay
      obtain ⟨hread, -⟩ := selectServer_eq_some hselect
      rw [readCursor, if_neg hstay, hqcursor, hrcursor] at hread
      have heq := Option.some.inj hread
      omega
    have hcursor : out[window weight servers - 1].2.currentIndex + 1 = ((m + 1 : Nat) : Int) := by
      rw [hqcursor]
      rfl
    obtain ⟨hlt, -⟩ := loaded_of_remaining_eq_zero hcursor hmoved hselect
    omega

end

/-! ## Proportional shares -/

/-- The answers go round the list and give each server as many requests in succession as
its weight says, so any window of as many requests as there is weight has the shares in
proportion. -/
structure Proportional (weight : T → Int) (servers : List T) (returned : List (T × Statics)) :
    Prop where
  follows : Follows (blocks (fun p ↦ (weight p.1).toNat) (places servers)) (returned.map place)
  windows : ∀ (a i : Nat) (server : T), servers[i]? = some server →
    a + (servers.map fun s ↦ (weight s).toNat).sum ≤ returned.length →
    (((returned.drop a).take (servers.map fun s ↦ (weight s).toNat).sum).countP
      (fun r ↦ r.2.currentIndex = (i : Int)) : Int) = weight server

section

variable {weight : T → Int} {servers : List T}

theorem turns_eq (hweight : ∀ server ∈ servers, 1 ≤ weight server) :
    ∀ server ∈ servers, turns weight server = (weight server).toNat := by
  intro server hserver
  have hone := hweight server hserver
  unfold turns
  omega

theorem mem_of_mem_places {p : T × Int} (hp : p ∈ places servers) : p.1 ∈ servers := by
  obtain ⟨j, hj⟩ := List.mem_iff_getElem?.mp hp
  exact List.mem_of_getElem? (getElem?_places_eq_some.mp hj).1

/-- With positive weights the turns are the weights. -/
theorem proportional_of_follows (hweight : ∀ server ∈ servers, 1 ≤ weight server)
    {out : List (T × Statics)} : Proportional weight servers out ↔
      Follows (schedule weight servers) (out.map place) := by
  have hschedule : blocks (fun p ↦ (weight p.1).toNat) (places servers) =
      schedule weight servers :=
    blocks_congr fun p hp ↦ (turns_eq hweight p.1 (mem_of_mem_places hp)).symm
  have hwindow : (servers.map fun s ↦ (weight s).toNat).sum = window weight servers := by
    rw [window, List.map_congr_left (turns_eq hweight)]
  constructor
  · rintro ⟨hfollows, -⟩
    rwa [hschedule] at hfollows
  · intro hfollows
    refine ⟨by rwa [hschedule], fun a i server hserver ha ↦ ?_⟩
    have hmem := List.mem_of_getElem? hserver
    rw [hwindow] at ha ⊢
    rw [countP_window hfollows hserver ha, turns_eq hweight server hmem]
    have hone := hweight server hmem
    omega

end

/-- A run of requests to one balancer from the initial statics. -/
theorem run_init_iff {weight : T → Int} {servers : ι → List T} {b : ι} {k : Nat}
    {P : List (T × Statics) → Prop} :
    (∃ s, run (step (weightedRoundRobin weight)) (System.init (weightedRoundRobin weight) servers)
        (List.replicate k (.requestServer b)) = some s ∧ P (s.returned b)) ↔
      ∃ out, out.length = k ∧ Answers (weightedRoundRobin weight) (servers b) {} out ∧ P out := by
  have hreturned : ∀ out : List (T × Statics),
      Function.update (fun _ : ι ↦ []) b ([] ++ out) b = out := fun out ↦ Function.update_self _ _ _
  constructor
  · rintro ⟨s, hrun, hP⟩
    obtain ⟨out, hlength, hout, rfl⟩ := run_requests_iff.mp hrun
    exact ⟨out, hlength, hout, by rwa [← hreturned out]⟩
  · rintro ⟨out, hlength, hout, hP⟩
    refine ⟨_, run_requests_iff.mpr ⟨out, hlength, hout, rfl⟩, ?_⟩
    rwa [← hreturned out] at hP

/-- A list that is too long is not gone round twice. -/
theorem not_proportional_of_lt {weight : T → Int} {servers : ι → List T} {b : ι}
    (hlong : intMax < (servers b).length) (hweight : ∀ server ∈ servers b, 1 ≤ weight server) :
    ¬ ∀ k, ∃ s, run (step (weightedRoundRobin weight))
        (System.init (weightedRoundRobin weight) servers)
        (List.replicate k (.requestServer b)) = some s ∧ (s.returned b).length = k ∧
      Proportional weight (servers b) (s.returned b) := by
  intro hall
  obtain ⟨out, hlength, hout, -, hshares⟩ := run_init_iff
    (P := fun out ↦ out.length = window weight (servers b) + 1 ∧
      Proportional weight (servers b) out) |>.mp (hall _)
  have hne : 0 < (servers b).length := by
    unfold intMax at hlong
    omega
  have hle := length_le_of_follows hne hout ((proportional_of_follows hweight).mp hshares)
    (by omega)
  omega

/-- **Proportional shares.**  With positive weights the requests to one balancer are
shared in proportion, in runs of any length, exactly if the size of the list is an
`int`. -/
theorem proportional_iff (weight : T → Int) (servers : ι → List T) (b : ι)
    (hne : servers b ≠ []) (hweight : ∀ server ∈ servers b, 1 ≤ weight server) :
    (∀ k, ∃ s, run (step (weightedRoundRobin weight))
        (System.init (weightedRoundRobin weight) servers)
        (List.replicate k (.requestServer b)) = some s ∧ (s.returned b).length = k ∧
      Proportional weight (servers b) (s.returned b)) ↔
    ((servers b).length : Int) ≤ intMax := by
  constructor
  · intro hall
    by_contra hlong
    exact not_proportional_of_lt (by omega) hweight hall
  · intro hle k
    obtain ⟨out, hlength, hout⟩ := exists_answers_of_le weight
      (List.length_pos_iff.mpr hne) hle k
    refine run_init_iff (P := fun out ↦ out.length = k ∧ Proportional weight (servers b) out)
      |>.mpr ⟨out, hlength, hout, hlength, (proportional_of_follows hweight).mpr ?_⟩
    refine follows_schedule hout (nonneg_of_mem (fun server hserver ↦ ?_) hout)
    have hone := hweight server hserver
    omega

/-- Behind `2147483648` servers the cursor overflows. -/
theorem not_proportional_long :
    ¬ ∀ k, ∃ s, run (step (weightedRoundRobin id))
        (System.init (weightedRoundRobin id) fun _ : Unit ↦ List.replicate 2147483648 1)
        (List.replicate k (.requestServer ())) = some s ∧ (s.returned ()).length = k ∧
      Proportional id (List.replicate 2147483648 1) (s.returned ()) := by
  refine @not_proportional_of_lt Unit Int _ id (fun _ ↦ List.replicate 2147483648 1) () ?_
    fun server hserver ↦ ?_
  · rw [List.length_replicate]
    decide
  · rw [List.eq_of_mem_replicate hserver]
    exact Int.le_refl 1

/-- The servers of the example program: one round, and their shares in all requests. -/
theorem proportional_example :
    (run (step (weightedRoundRobin id))
        (System.init (weightedRoundRobin id) fun _ : Unit ↦ [(3 : Int), 2, 1])
        (List.replicate 6 (.requestServer ()))).map
          (fun s ↦ (s.returned ()).map Prod.fst) = some [3, 3, 3, 2, 2, 1] ∧
      ∀ k, ∃ s, run (step (weightedRoundRobin id))
          (System.init (weightedRoundRobin id) fun _ : Unit ↦ [3, 2, 1])
          (List.replicate k (.requestServer ())) = some s ∧ (s.returned ()).length = k ∧
        Proportional id [3, 2, 1] (s.returned ()) :=
  ⟨by decide, (proportional_iff id (fun _ : Unit ↦ [3, 2, 1]) () (by decide) (by decide)).mpr
    (by decide)⟩

/-! ## Starvation -/

/-- In every window of one round each server with a positive weight is returned. -/
def NoneStarves (weight : T → Int) (servers : ι → List T) (b : ι) : Prop :=
  ∀ (a i : Nat) (server : T), (servers b)[i]? = some server → 0 < weight server →
    ∃ s, run (step (weightedRoundRobin weight)) (System.init (weightedRoundRobin weight) servers)
        (List.replicate (a + ((servers b).map fun s ↦ max (weight s).toNat 1).sum)
          (.requestServer b)) = some s ∧
      ∃ r ∈ (s.returned b).drop a, r.1 = server ∧ r.2.currentIndex = i

/-- Behind a negative weight all answers are the same. -/
theorem Loaded.eq_of_mem {weight : T → Int} {servers : List T} {q : T × Statics} {c : Nat}
    (hq : Loaded weight servers q c) (hneg : q.2.weight < 0) {out : List (T × Statics)}
    (hout : Answers (weightedRoundRobin weight) servers q.2 out) : ∀ r ∈ out, r = q := by
  induction out with
  | nil => exact nofun
  | cons q' out ih =>
      obtain rfl := hq.next_of_neg hneg hout.1
      rintro r hr
      rcases List.mem_cons.mp hr with rfl | hr
      · rfl
      · exact ih hout.2 r hr

/-- While the answers go round the list each server is among those of a window. -/
theorem exists_mem_window {weight : T → Int} {servers : List T} {out : List (T × Statics)}
    (hout : Answers (weightedRoundRobin weight) servers {} out)
    (hfollows : Follows (schedule weight servers) (out.map place)) {a i : Nat} {server : T}
    (hi : servers[i]? = some server) (ha : a + window weight servers ≤ out.length) :
    ∃ r ∈ (out.drop a).take (window weight servers), r.1 = server ∧ r.2.currentIndex = i := by
  have hcount := countP_window hfollows hi ha
  have hpos : 0 < turns weight server := by
    unfold turns
    omega
  rw [← hcount, List.countP_pos_iff] at hpos
  obtain ⟨r, hr, hcursor⟩ := hpos
  have hcursor : r.2.currentIndex = i := of_decide_eq_true hcursor
  obtain ⟨c, hloaded⟩ := loaded_of_mem hout r (List.mem_of_mem_drop (List.mem_of_mem_take hr))
  obtain rfl : c = i := Int.natCast_inj.mp (hloaded.cursor.symm.trans hcursor)
  exact ⟨r, hr, Option.some.inj (hloaded.server.symm.trans hi), hcursor⟩

/-- If a server that can be returned is still returned after two rounds, then no negative
weight was loaded in these. -/
theorem nonneg_of_mem_drop {weight : T → Int} {servers : List T} {out : List (T × Statics)}
    (hout : Answers (weightedRoundRobin weight) servers {} out) {n : Nat} {r : T × Statics}
    (hr : r ∈ out.drop n) (hpos : 0 < weight r.1) : ∀ q ∈ out.take n, 0 ≤ q.2.weight := by
  intro q hq
  by_contra hneg
  obtain ⟨j, hj⟩ := List.mem_iff_getElem?.mp hq
  rw [List.getElem?_take, Option.ite_none_right_eq_some] at hj
  obtain ⟨c, hloaded⟩ := loaded_of_mem hout q (List.mem_of_mem_take hq)
  have hlater : r ∈ out.drop (j + 1) := by
    have hdrop : out.drop n = (out.drop (j + 1)).drop (n - (j + 1)) := by
      rw [List.drop_drop]
      congr 1
      omega
    rw [hdrop] at hr
    exact List.mem_of_mem_drop hr
  obtain rfl := hloaded.eq_of_mem (by omega) (hout.drop hj.2) r hlater
  have hnegative := hloaded.neg (by omega)
  omega

/-- **Starvation.**  No server starves exactly if there is none that could, or if no
weight is negative and the size of the list is an `int`. -/
theorem none_starves_iff (weight : T → Int) (servers : ι → List T) (b : ι) :
    NoneStarves weight servers b ↔
      (∀ server ∈ servers b, weight server ≤ 0) ∨
        (∀ server ∈ servers b, 0 ≤ weight server) ∧ ((servers b).length : Int) ≤ intMax := by
  constructor
  · intro hnone
    by_contra hno
    obtain ⟨hpos, hbad⟩ := not_or.mp hno
    push Not at hpos
    obtain ⟨server, hserver, hpositive⟩ := hpos
    have hpositive : 0 < weight server := by omega
    obtain ⟨i, hi⟩ := List.mem_iff_getElem?.mp hserver
    obtain ⟨hlt, -⟩ := List.getElem?_eq_some_iff.mp hi
    obtain ⟨m, hm⟩ : ∃ m, (servers b).length = m + 1 :=
      Nat.exists_eq_succ_of_ne_zero (by omega)
    obtain ⟨⟨first, hfirst⟩, -⟩ := schedule_ends weight hm
    obtain ⟨hwindow, -⟩ := List.getElem?_eq_some_iff.mp hfirst
    rw [length_schedule] at hwindow
    -- a run of three rounds, of which the last one has to return the server
    obtain ⟨out, hlength, hout, r, hr, hrserver, -⟩ := run_init_iff
      (P := fun out ↦ ∃ r ∈ out.drop (2 * window weight (servers b)), r.1 = server ∧
        r.2.currentIndex = i) |>.mp (hnone (2 * window weight (servers b)) i server hi hpositive)
    have hlength : out.length =
      2 * window weight (servers b) + window weight (servers b) := hlength
    have hrounds : (out.take (2 * window weight (servers b))).length =
        2 * window weight (servers b) := by
      rw [List.length_take]
      omega
    have hnonneg := nonneg_of_mem_drop hout hr (hrserver ▸ hpositive)
    have hout' := hout.take (2 * window weight (servers b))
    have hfollows := follows_schedule hout' hnonneg
    refine hbad ⟨fun other hother ↦ ?_, ?_⟩
    · obtain ⟨i', hi'⟩ := List.mem_iff_getElem?.mp hother
      obtain ⟨q, hq, rfl, -⟩ := exists_mem_window (a := 0) hout' hfollows hi' (by omega)
      have hq' := List.mem_of_mem_take hq
      obtain ⟨c, hloaded⟩ := loaded_of_mem hout' q hq'
      have hle := hloaded.weight_le
      have hge := hnonneg q hq'
      omega
    · exact length_le_of_follows (by omega) hout' hfollows (by omega)
  · rintro (hnonpos | ⟨hnonneg, hle⟩) a i server hi hpos
    · have hle := hnonpos server (List.mem_of_getElem? hi)
      omega
    · obtain ⟨hlt, -⟩ := List.getElem?_eq_some_iff.mp hi
      obtain ⟨out, hlength, hout⟩ := exists_answers_of_le weight (by omega) hle
        (a + window weight (servers b))
      have hfollows := follows_schedule hout (nonneg_of_mem hnonneg hout)
      obtain ⟨r, hr, hserver, hcursor⟩ := exists_mem_window hout hfollows hi hlength.ge
      exact run_init_iff (P := fun out ↦ ∃ r ∈ out.drop a, r.1 = server ∧ r.2.currentIndex = i)
        |>.mpr ⟨out, hlength, hout, r, List.mem_of_mem_take hr, hserver, hcursor⟩

/-- A server of weight `-1` behind one of weight `1`: the second window of two requests
does not return the first server. -/
theorem starves_behind_negative :
    ¬ NoneStarves id (fun _ : Unit ↦ [(1 : Int), -1]) () := by
  intro hnone
  obtain ⟨s, hrun, r, hr, -, hcursor⟩ := hnone 2 0 1 rfl (by decide)
  have hrest : (run (step (weightedRoundRobin id))
      (System.init (weightedRoundRobin id) fun _ : Unit ↦ [(1 : Int), -1])
      (List.replicate 4 (.requestServer ()))).map
        (fun s ↦ ((s.returned ()).drop 2).map fun r ↦ r.2.currentIndex) = some [1, 1] := by
    decide
  have hrun : run (step (weightedRoundRobin id))
      (System.init (weightedRoundRobin id) fun _ : Unit ↦ [(1 : Int), -1])
      (List.replicate 4 (.requestServer ())) = some s := hrun
  rw [hrun, Option.map_some] at hrest
  have hmem := List.mem_map_of_mem (f := fun r : Int × Statics ↦ r.2.currentIndex) hr
  rw [Option.some.inj hrest, hcursor] at hmem
  revert hmem
  decide

end AsabruCommons.LoadBalancer.WeightedRoundRobinStrategy
