import AsabruCommons.Basic

/-!
# Content writers

A `BaseContentWriter` owns a queue of log items.  `Write` puts an item at its end,
and `Flush` takes the items out one by one and passes each of them to
`WriteToMedia`, which the classes derived from it implement.

The medium is a type parameter: `WriteToMedia` changes its state and says whether
the item was written.  `Flush` does not look at what it says.
-/

namespace AsabruCommons.Logger

namespace BaseContentWriter

variable {M : Type}

def Empty (queue : List Str) : Bool := queue.length = 0

/-- Both branches of the source return, with the item in the queue. -/
def Write (queue : List Str) (content : Str) : List Str := queue ++ [content]

/-- The queue and the medium after a flush. -/
def Flush (WriteToMedia : Str → M → Bool × M) : List Str → M → List Str × M
  | [], medium => ([], medium)
  | content :: queue, medium => Flush WriteToMedia queue (WriteToMedia content medium).2

/-- A flush leaves nothing in the queue. -/
theorem Flush_fst (WriteToMedia : Str → M → Bool × M) (queue : List Str) (medium : M) :
    (Flush WriteToMedia queue medium).1 = [] := by
  induction queue generalizing medium with
  | nil => rfl
  | cons content queue ih => exact ih _

/-! ## Writes that fail

A medium for any pattern of results: it remembers its calls, each with what was
returned. -/

/-- The `i`-th call returns `results i`. -/
def patternMedium (results : Nat → Bool) (content : Str) (calls : List (Str × Bool)) :
    Bool × List (Str × Bool) :=
  let result := results calls.length
  (result, calls ++ [(content, result)])

/-- The entries whose write returned this result, in the order of the calls. -/
def returned (result : Bool) (calls : List (Str × Bool)) : List Str :=
  (calls.filter fun call ↦ call.2 = result).map Prod.fst

/-- After a flush the entries that could not be written are queued in their old order, and
the entries that were written come from the queue, each once. -/
def LosesNothing (results : Nat → Bool) (queue : List Str) : Prop :=
  let (queue', calls) := Flush (patternMedium results) queue []
  (returned false calls).Sublist queue' ∧ (returned true calls).Sublist queue

/-- A flush passes each entry to the medium once, in order. -/
theorem Flush_snd (results : Nat → Bool) (queue : List Str) (calls : List (Str × Bool)) :
    (Flush (patternMedium results) queue calls).2 =
      calls ++ queue.mapIdx fun i content ↦ (content, results (calls.length + i)) := by
  induction queue generalizing calls with
  | nil => exact (List.append_nil calls).symm
  | cons content queue ih =>
      rw [Flush, patternMedium, ih, List.mapIdx_cons, List.append_assoc, List.length_append]
      simp only [List.length_singleton, List.singleton_append, Nat.add_zero, Nat.add_assoc,
        Nat.add_comm 1]

/-- The written entries are some of those in the queue. -/
theorem returned_sublist (result : Bool) (results : Nat → Bool) (queue : List Str) :
    (returned result (queue.mapIdx fun i content ↦ (content, results i))).Sublist queue := by
  have hall : (queue.mapIdx fun i content ↦ (content, results i)).map Prod.fst = queue := by
    refine List.ext_getElem? fun i ↦ ?_
    rw [List.getElem?_map, List.getElem?_mapIdx, Option.map_map]
    exact Option.map_id'
  conv_rhs => rw [← hall]
  exact List.filter_sublist.map Prod.fst

theorem returned_eq_nil_iff {result : Bool} {calls : List (Str × Bool)} :
    returned result calls = [] ↔ ∀ call ∈ calls, call.2 ≠ result := by
  rw [returned, List.map_eq_nil_iff, List.filter_eq_nil_iff]
  simp

/-- **Failing media.**  A flush loses nothing exactly if no write fails. -/
theorem losesNothing_iff (results : Nat → Bool) (queue : List Str) :
    LosesNothing results queue ↔ ∀ i < queue.length, results i = true := by
  have hsnd := Flush_snd results queue []
  simp only [List.nil_append, List.length_nil, Nat.zero_add] at hsnd
  change (returned false _).Sublist (Flush (patternMedium results) queue []).1 ∧
    (returned true _).Sublist queue ↔ _
  rw [hsnd, Flush_fst, List.sublist_nil, and_iff_left (returned_sublist true results queue),
    returned_eq_nil_iff]
  constructor
  · intro hall i hi
    have hmem : (queue[i], results i) ∈ queue.mapIdx fun i content ↦ (content, results i) :=
      List.mem_mapIdx.mpr ⟨i, hi, rfl⟩
    simpa using hall _ hmem
  · intro hall call hmem
    obtain ⟨i, hi, rfl⟩ := List.mem_mapIdx.mp hmem
    simp [hall i hi]

/-- An entry that cannot be written is not queued again. -/
theorem not_losesNothing_failing : ¬ LosesNothing (fun _ ↦ false) ["entry".toList] := by
  rintro ⟨hfailed, -⟩
  exact absurd (List.sublist_nil.mp hfailed) (by decide)

end BaseContentWriter

end AsabruCommons.Logger
