import AsabruCommons.CInt
import AsabruCommons.Run

/-!
# Load balancers

A `LoadBalancer<T>` owns a list of servers and asks its strategy to choose one.
The state of the strategies is not in the strategy objects: it is in
function-local statics of `selectServer`, and there is one such set of statics
for each element type `T`.  So all balancers of one element type share them, and
the model is a `System` of balancers with one value of the statics.

Reading `servers[i]` past the end of the list is undefined behaviour, as is a
remainder by the size of an empty list and an overflow of the cursor.  In each of
these cases `selectServer` has no value and the run stops.
-/

namespace AsabruCommons.LoadBalancer

open CInt

variable {T S : Type}

/-! ## Strategies -/

/-- `(currentIndex + 1) % servers.size()`, which is computed in `std::size_t` and
stored as an `int`. -/
def advance (currentIndex : Int) (size : Nat) : Option Int :=
  (checked (currentIndex + 1)).bind fun next ↦
    if size = 0 then none else some (ofSize (toSize next % size))

/-- The implementations of `LoadBalancerStrategy<T>`: the statics of
`selectServer` before its first call, and a call. -/
structure Strategy (T S : Type) where
  init : S
  selectServer : List T → S → Option (T × S)

namespace RoundRobinStrategy

/-- The static of `RoundRobinStrategy<T>::selectServer`. -/
structure Statics where
  currentIndex : Int := -1
deriving DecidableEq, Repr

def selectServer (servers : List T) (st : Statics) : Option (T × Statics) := do
  let currentIndex ← advance st.currentIndex servers.length
  let server ← servers[toSize currentIndex]?
  return (server, ⟨currentIndex⟩)

end RoundRobinStrategy

namespace WeightedRoundRobinStrategy

/-- The statics of `WeightedRoundRobinStrategy<T>::selectServer`. -/
structure Statics where
  currentIndex : Int := -1
  weight : Int := 0
deriving DecidableEq, Repr

/-- The weight that is left after `if (weight > 0) weight--`. -/
def remaining (st : Statics) : Int := if st.weight > 0 then st.weight - 1 else st.weight

/-- The cursor with which the list is read. -/
def readCursor (size : Nat) (st : Statics) : Option Int :=
  if remaining st = 0 then advance st.currentIndex size else some st.currentIndex

/-- The list is read at one place: for the weight of the next server where the
remaining weight is zero, and for the server itself. -/
def selectServer (weight : T → Int) (servers : List T) (st : Statics) :
    Option (T × Statics) := do
  let currentIndex ← readCursor servers.length st
  let server ← servers[toSize currentIndex]?
  return (server, ⟨currentIndex, if remaining st = 0 then weight server else remaining st⟩)

end WeightedRoundRobinStrategy

def roundRobin : Strategy T RoundRobinStrategy.Statics :=
  ⟨{}, RoundRobinStrategy.selectServer⟩

/-- Here `weight` is the field that `T` inherits from `WeightedItem`. -/
def weightedRoundRobin (weight : T → Int) : Strategy T WeightedRoundRobinStrategy.Statics :=
  ⟨{}, WeightedRoundRobinStrategy.selectServer weight⟩

/-! ## Balancers -/

/-- The balancers `ι` of one element type.  Each has a list of its own, and
`returned` is the history of its requests: the server each of them returned, with
the statics it left behind. -/
structure System (ι T S : Type) where
  statics : S
  servers : ι → List T
  returned : ι → List (T × S)

/-- A call of a method of the balancer `b`. -/
inductive Event (ι T : Type) where
  | addServer (b : ι) (server : T)
  | removeAllServers (b : ι)
  | requestServer (b : ι)
deriving DecidableEq

variable {ι : Type} [DecidableEq ι]

/-- The balancers with given lists, before the first call of the strategy. -/
def System.init (strategy : Strategy T S) (servers : ι → List T) : System ι T S :=
  ⟨strategy.init, servers, fun _ ↦ []⟩

def System.addServer (s : System ι T S) (b : ι) (server : T) : System ι T S :=
  { s with servers := Function.update s.servers b (s.servers b ++ [server]) }

def System.removeAllServers (s : System ι T S) (b : ι) : System ι T S :=
  { s with servers := Function.update s.servers b [] }

def System.requestServer (strategy : Strategy T S) (s : System ι T S) (b : ι) :
    Option (System ι T S) :=
  (strategy.selectServer (s.servers b) s.statics).map fun r ↦
    ⟨r.2, s.servers, Function.update s.returned b (s.returned b ++ [r])⟩

def step (strategy : Strategy T S) (s : System ι T S) : Event ι T → Option (System ι T S)
  | .addServer b server => some (s.addServer b server)
  | .removeAllServers b => some (s.removeAllServers b)
  | .requestServer b => s.requestServer strategy b

/-! ## What a call does -/

/-- A list holds nothing but what was added to it. -/
theorem mem_addServer {s : System ι T S} {b c : ι} {server other : T}
    (h : other ∈ (s.addServer b server).servers c) : other ∈ s.servers c ∨ other = server := by
  change other ∈ Function.update s.servers b (s.servers b ++ [server]) c at h
  by_cases hc : c = b
  · subst hc
    rw [Function.update_self, List.mem_append, List.mem_singleton] at h
    exact h
  · rw [Function.update_of_ne hc] at h
    exact .inl h

theorem mem_removeAllServers {s : System ι T S} {b c : ι} {other : T}
    (h : other ∈ (s.removeAllServers b).servers c) : other ∈ s.servers c := by
  change other ∈ Function.update s.servers b [] c at h
  by_cases hc : c = b
  · subst hc
    rw [Function.update_self] at h
    exact (List.not_mem_nil h).elim
  · rwa [Function.update_of_ne hc] at h

/-- Adding a server shortens no list. -/
theorem length_le_addServer (s : System ι T S) (b c : ι) (server : T) :
    (s.servers c).length ≤ ((s.addServer b server).servers c).length := by
  change _ ≤ (Function.update s.servers b (s.servers b ++ [server]) c).length
  by_cases hc : c = b
  · subst hc
    rw [Function.update_self, List.length_append]
    exact Nat.le_add_right _ _
  · exact Nat.le_of_eq (congrArg List.length (Function.update_of_ne hc _ _).symm)

/-- Advancing a cursor in range is arithmetic modulo the size. -/
theorem advance_eq {c : Int} {size : Nat} (hc : -1 ≤ c) (hmax : c < intMax) (hs : 0 < size) :
    advance c size = some ((c + 1) % size) := by
  have hmin : intMin ≤ c + 1 := by
    unfold intMin
    omega
  have hpos : 0 ≤ c + 1 := by omega
  have hsize : toSize (c + 1) = (c + 1).toNat := toSize_of_nonneg hpos hmax
  have hmod : ((toSize (c + 1) % size : Nat) : Int) = (c + 1) % size := by
    rw [hsize, Int.natCast_emod, Int.toNat_of_nonneg hpos]
  have hfits : ((toSize (c + 1) % size : Nat) : Int) ≤ intMax := by
    have hle : toSize (c + 1) % size ≤ toSize (c + 1) := Nat.mod_le _ _
    omega
  rw [advance, checked_of_mem hmin hmax, Option.bind_some, if_neg (Nat.ne_of_gt hs),
    ofSize_of_le hfits, hmod]

/-- When the cursor can be advanced at all, and where it is then. -/
theorem advance_eq_some {c c' : Int} {size : Nat} (hc : -1 ≤ c) :
    advance c size = some c' ↔ c < intMax ∧ 0 < size ∧ c' = (c + 1) % size := by
  constructor
  · intro h
    obtain ⟨next, hnext, h'⟩ := Option.bind_eq_some_iff.mp h
    obtain ⟨-, -, hmax⟩ := checked_eq_some hnext
    have hsize : 0 < size := by
      rcases Nat.eq_zero_or_pos size with hzero | hpos
      · rw [if_pos hzero] at h'
        cases h'
      · exact hpos
    have hlt : c < intMax := by omega
    rw [advance_eq hc hlt hsize] at h
    exact ⟨hlt, hsize, (Option.some.inj h).symm⟩
  · rintro ⟨hmax, hs, rfl⟩
    exact advance_eq hc hmax hs

/-- The advanced cursor is an index of the list. -/
theorem advance_range {c c' : Int} {size : Nat} (hc : -1 ≤ c) (h : advance c size = some c') :
    0 ≤ c' ∧ c' < size ∧ c' ≤ intMax := by
  obtain ⟨hmax, hs, rfl⟩ := (advance_eq_some hc).mp h
  have hpos : 0 ≤ (c + 1) % size := Int.emod_nonneg _ (by omega)
  have hlt : (c + 1) % size < size := Int.emod_lt_of_pos _ (by omega)
  refine ⟨hpos, hlt, ?_⟩
  by_cases hsize : c + 1 < size
  · rw [Int.emod_eq_of_lt (by omega) hsize]
    omega
  · omega

theorem requestServer_eq_some {strategy : Strategy T S} {s t : System ι T S} {b : ι} :
    s.requestServer strategy b = some t ↔
      ∃ r, strategy.selectServer (s.servers b) s.statics = some r ∧
        t = ⟨r.2, s.servers, Function.update s.returned b (s.returned b ++ [r])⟩ := by
  rw [System.requestServer, Option.map_eq_some_iff]
  exact exists_congr fun r ↦ and_congr_right fun _ ↦ eq_comm

end AsabruCommons.LoadBalancer
