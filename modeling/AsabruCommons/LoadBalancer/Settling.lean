import AsabruCommons.LoadBalancer.Proportional

/-!
# The weighted balancer settles

The statics of the weighted strategy belong to all balancers of one element type, and they
stay what they are when a list is changed.  So a balancer may find any cursor and any weight
left over, and `Proportional` is about the first requests of all only.

Here the requests come after anything that can have happened before.  That they are answered
is assumed, as the cursor that was left over need not be in range.  The weight that is left over
is used up on the server at the cursor, whichever that is now.  Behind that the answers go round
the list (`exists_follows_settle`), not from its first server, but with the same shares in any
window of one round (`settles`).
-/

namespace AsabruCommons.LoadBalancer.WeightedRoundRobinStrategy

open CInt Run Rotation

variable {ι T : Type} [DecidableEq ι] {weight : T → Int} {servers : List T}

/-- The requests that the weight left over still takes. -/
def leftOver (st : Statics) : Nat := (st.weight - 1).toNat

/-! ## Where the round is entered -/

omit [DecidableEq ι] in
/-- Somewhere in a round the turns of the servers before a position are over. -/
theorem exists_drop_schedule (weight : T → Int) (servers : List T) (p : Nat) :
    ∃ n, (schedule weight servers).drop n =
      blocks (fun p ↦ turns weight p.1) ((places servers).drop p) := by
  refine ⟨(blocks (fun p ↦ turns weight p.1) ((places servers).take p)).length, ?_⟩
  have hsplit : schedule weight servers =
      blocks (fun p ↦ turns weight p.1) ((places servers).take p) ++
        blocks (fun p ↦ turns weight p.1) ((places servers).drop p) := by
    rw [← blocks_append, List.take_append_drop, schedule]
  rw [hsplit, List.drop_left]

omit [DecidableEq ι] in
/-- All answers leave sound statics behind. -/
theorem sound_of_mem {st : Statics} (h : Sound st) (hpos : ∀ server ∈ servers, 0 < weight server)
    {out : List (T × Statics)} (hout : Answers (weightedRoundRobin weight) servers st out) :
    ∀ r ∈ out, Sound r.2 := by
  induction out generalizing st with
  | nil => exact nofun
  | cons q out ih =>
      have hq := h.selectServer hpos hout.1
      exact List.forall_mem_cons.mpr ⟨hq, ih hq hout.2⟩

omit [DecidableEq ι] in
/-- With nothing left over the next request enters the round. -/
theorem exists_follows_enter {st : Statics} (h : Sound st) (hw : st.weight ≤ 1)
    (hpos : ∀ server ∈ servers, 0 < weight server) {out : List (T × Statics)}
    (hout : Answers (weightedRoundRobin weight) servers st out) :
    ∃ n, Follows ((schedule weight servers).rotate n) (out.map place) := by
  cases out with
  | nil => exact ⟨0, nofun⟩
  | cons q out =>
      obtain ⟨p, hp⟩ := Int.eq_ofNat_of_zero_le (a := st.currentIndex + 1) (by
        have := h.cursor_ge
        omega)
      obtain ⟨-, hloaded, hweight⟩ := loaded_of_remaining_eq_zero hp
        (h.remaining_eq_zero.mpr hw) hout.1
      obtain ⟨n, hn⟩ := exists_drop_schedule weight servers (p % servers.length)
      obtain ⟨hget, hat⟩ := at_of_loaded hloaded hweight hn
      refine ⟨n, fun j a ha ↦ ?_⟩
      obtain ⟨hlt, -⟩ := List.getElem?_eq_some_iff.mp hget
      have hlength : 0 < (schedule weight servers).length := Nat.zero_lt_of_lt hlt
      rw [List.length_rotate, List.getElem?_rotate (Nat.mod_lt _ hlength), Nat.mod_add_mod,
        Nat.add_comm j]
      rw [List.getElem?_map, Option.map_eq_some_iff] at ha
      obtain ⟨r, hr, rfl⟩ := ha
      cases j with
      | zero =>
          obtain rfl := Option.some.inj hr
          rw [Nat.add_zero, Nat.mod_eq_of_lt hlt]
          exact hget
      | succ j =>
          have hnonneg : ∀ r ∈ q :: out, 0 ≤ r.2.weight :=
            fun r hr ↦ (sound_of_mem h hpos hout r hr).weight_nonneg
          rw [Nat.add_comm j 1, ← Nat.add_assoc]
          exact hat.answers hout.2 hnonneg hr

omit [DecidableEq ι] in
/-- **Settling.**  When the weight that is left over is used up, the answers go round. -/
theorem exists_follows_settle {st : Statics} (h : Sound st)
    (hpos : ∀ server ∈ servers, 0 < weight server) {out : List (T × Statics)}
    (hout : Answers (weightedRoundRobin weight) servers st out) :
    ∃ n, Follows ((schedule weight servers).rotate n) ((out.drop (leftOver st)).map place) := by
  induction hleft : leftOver st generalizing st out with
  | zero =>
      have hw : st.weight ≤ 1 := by
        unfold leftOver at hleft
        omega
      exact exists_follows_enter h hw hpos hout
  | succ m ih =>
      cases out with
      | nil => exact ⟨0, nofun⟩
      | cons q out =>
          have hrem : remaining st = st.weight - 1 := if_pos (by
            unfold leftOver at hleft
            omega)
          have hq : q.2.weight = st.weight - 1 := by
            obtain ⟨-, -, hweight⟩ := selectServer_eq_some hout.1
            rw [hweight, hrem, if_neg]
            unfold leftOver at hleft
            omega
          refine ih (h.selectServer hpos hout.1) hout.2 ?_
          unfold leftOver at hleft ⊢
          omega

/-! ## After any run -/

/-- **The balancer settles.**  After any calls for any balancers, if requests to one of them that
nothing interrupts are all answered (none reads the list out of range or overflows the cursor),
they have the shares of a round in every window of a round, from where the weight that was left
over is used up. -/
theorem settles (weight : T → Int) (es : List (Event ι T))
    (hvalid : Along (step (weightedRoundRobin weight)) (Valid weight)
      (System.init (weightedRoundRobin weight) fun _ ↦ []) es)
    (s t : System ι T Statics) (b : ι) (k : Nat)
    (hrun : run (step (weightedRoundRobin weight))
      (System.init (weightedRoundRobin weight) fun _ ↦ []) es = some s)
    (hrequests : run (step (weightedRoundRobin weight)) s (List.replicate k (.requestServer b)) =
      some t) :
    ∃ out, t.returned b = s.returned b ++ out ∧ out.length = k ∧
      ∀ (a i : Nat) (server : T), (s.servers b)[i]? = some server → leftOver s.statics ≤ a →
        a + ((s.servers b).map fun s ↦ (weight s).toNat).sum ≤ k →
        (((out.drop a).take ((s.servers b).map fun s ↦ (weight s).toNat).sum).countP
          (fun r ↦ r.2.currentIndex = (i : Int)) : Int) = weight server := by
  obtain ⟨out, hlength, hout, rfl⟩ := run_requests_iff.mp hrequests
  have hinv : Inv weight s :=
    run_invariant_along (fun _ _ _ h hv hs ↦ h.step hv hs) inv_init hvalid hrun
  refine ⟨out, Function.update_self .., hlength, fun a i server hserver ha hle ↦ ?_⟩
  have hweight : ∀ server ∈ s.servers b, 1 ≤ weight server := hinv.positive b
  have hwindow :
      ((s.servers b).map fun s ↦ (weight s).toNat).sum = window weight (s.servers b) := by
    rw [window, List.map_congr_left (turns_eq hweight)]
  obtain ⟨n, hfollows⟩ := exists_follows_settle hinv.sound (hinv.positive b) hout
  have hround : (a - leftOver s.statics) + ((schedule weight (s.servers b)).rotate n).length ≤
      ((out.drop (leftOver s.statics)).map place).length := by
    rw [List.length_rotate, length_schedule, List.length_map, List.length_drop, ← hwindow]
    omega
  have hcount := hfollows.countP_window hround fun p ↦ p.2 = (i : Int)
  rw [(List.rotate_perm _ n).countP_eq, countP_schedule hserver, List.length_rotate,
    length_schedule, ← List.map_drop, ← List.map_take, List.countP_map, List.drop_drop,
    Nat.add_sub_cancel' ha] at hcount
  rw [hwindow]
  have hmem := hweight server (List.mem_of_getElem? hserver)
  rw [turns_eq hweight server (List.mem_of_getElem? hserver)] at hcount
  have hnat : ((weight server).toNat : Int) = weight server := by omega
  rw [← hnat, ← hcount]
  rfl

/-- Another balancer has just begun with a server of weight three. -/
def begunElsewhere : List (Event Bool Int) :=
  [.addServer false 3, .addServer true 1, .addServer true 2, .requestServer false]

theorem settles_begunElsewhere :
    ∃ s t out, run (step (weightedRoundRobin id))
        (System.init (weightedRoundRobin id) fun _ ↦ []) begunElsewhere = some s ∧
      run (step (weightedRoundRobin id)) s (List.replicate 5 (.requestServer true)) = some t ∧
      leftOver s.statics = 2 ∧ t.returned true = s.returned true ++ out ∧
      (((out.drop 2).take 3).countP fun r ↦ r.2.currentIndex = 1 : Int) = 2 := by
  obtain ⟨out, hout, -, hcount⟩ :=
    settles id begunElsewhere (by decide) _ _ true 5 rfl rfl
  exact ⟨_, _, out, rfl, rfl, rfl, hout, hcount 2 1 2 rfl (by decide) (by decide)⟩

end AsabruCommons.LoadBalancer.WeightedRoundRobinStrategy
