import Mathlib.Order.Defs.LinearOrder
import Mathlib.Data.List.Induction
import Mathlib.Data.List.Sort

/-!
# Ordered maps

An `OrderedMap κ ν` holds at most one value for each key and lists its entries in
the order of the keys.  That there is one entry for a key and that the entries are
in order is part of the type, so a map is determined by what it has for each key
(`OrderedMap.ext_find?`), and inserting its entries into the empty map one by one
builds it again (`OrderedMap.insertAll_entries`).
-/

namespace AsabruCommons

universe u v

/-- The entries are sorted by strictly increasing keys. -/
structure OrderedMap (κ : Type u) (ν : Type v) [LinearOrder κ] where
  entries : List (κ × ν)
  sorted : entries.Pairwise fun p q ↦ p.1 < q.1

namespace OrderedMap

variable {κ : Type u} {ν : Type v} [LinearOrder κ]

instance [DecidableEq ν] : DecidableEq (OrderedMap κ ν) := fun m n ↦
  decidable_of_iff (m.entries = n.entries) ⟨fun h ↦ by cases m; cases n; cases h; rfl, congrArg _⟩

def empty : OrderedMap κ ν := ⟨[], .nil⟩

/-- Set the value of a key in a sorted list of entries. -/
def insertEntry (k : κ) (v : ν) : List (κ × ν) → List (κ × ν)
  | [] => [(k, v)]
  | p :: ps =>
      if k < p.1 then (k, v) :: p :: ps
      else if k = p.1 then (k, v) :: ps
      else p :: insertEntry k v ps

/-- The new entry replaces the one with its key. -/
theorem mem_insertEntry {k : κ} {v : ν} {ps : List (κ × ν)}
    (h : ps.Pairwise fun p q ↦ p.1 < q.1) {q : κ × ν} :
    q ∈ insertEntry k v ps ↔ q = (k, v) ∨ q.1 ≠ k ∧ q ∈ ps := by
  induction ps with
  | nil => simp [insertEntry]
  | cons p ps ih =>
      obtain ⟨hp, hps⟩ := List.pairwise_cons.mp h
      unfold insertEntry
      split
      case isTrue hlt =>
        have hne : ∀ q ∈ p :: ps, q.1 ≠ k := by
          intro q hq
          rcases List.mem_cons.mp hq with rfl | hq
          · exact hlt.ne'
          · exact (lt_trans hlt (hp q hq)).ne'
        rw [List.mem_cons]
        exact or_congr_right ⟨fun hq ↦ ⟨hne q hq, hq⟩, fun hq ↦ hq.2⟩
      case isFalse hge =>
        split
        case isTrue heq =>
          have hne : ∀ q ∈ ps, q.1 ≠ k := fun q hq ↦ (heq ▸ hp q hq).ne'
          rw [List.mem_cons, List.mem_cons]
          refine or_congr_right ⟨fun hq ↦ ⟨hne q hq, .inr hq⟩, fun hq ↦ ?_⟩
          rcases hq with ⟨hq, rfl | hmem⟩
          · exact absurd heq.symm hq
          · exact hmem
        case isFalse hne =>
          rw [List.mem_cons, List.mem_cons, ih hps]
          constructor
          · rintro (rfl | hq | hq)
            · exact .inr ⟨fun heq ↦ hne heq.symm, .inl rfl⟩
            · exact .inl hq
            · exact .inr ⟨hq.1, .inr hq.2⟩
          · rintro (hq | ⟨hq, rfl | hmem⟩)
            · exact .inr (.inl hq)
            · exact .inl rfl
            · exact .inr (.inr ⟨hq, hmem⟩)

theorem pairwise_insertEntry (k : κ) (v : ν) {ps : List (κ × ν)}
    (h : ps.Pairwise fun p q ↦ p.1 < q.1) :
    (insertEntry k v ps).Pairwise fun p q ↦ p.1 < q.1 := by
  induction ps with
  | nil => exact List.pairwise_singleton _ _
  | cons p ps ih =>
      obtain ⟨hp, hps⟩ := List.pairwise_cons.mp h
      unfold insertEntry
      split
      case isTrue hlt =>
        refine List.pairwise_cons.mpr ⟨fun q hq ↦ ?_, h⟩
        rcases List.mem_cons.mp hq with rfl | hq
        · exact hlt
        · exact lt_trans hlt (hp q hq)
      case isFalse hge =>
        split
        case isTrue heq => exact List.pairwise_cons.mpr ⟨fun q hq ↦ heq ▸ hp q hq, hps⟩
        case isFalse hne =>
          refine List.pairwise_cons.mpr ⟨fun q hq ↦ ?_, ih hps⟩
          rcases (mem_insertEntry hps).mp hq with rfl | hq
          · exact lt_of_le_of_ne (not_lt.mp hge) (Ne.symm hne)
          · exact hp q hq.2

/-- Set the value of a key. -/
def insert (m : OrderedMap κ ν) (k : κ) (v : ν) : OrderedMap κ ν :=
  ⟨insertEntry k v m.entries, pairwise_insertEntry k v m.sorted⟩

/-- The value of a key. -/
def find? (m : OrderedMap κ ν) (k : κ) : Option ν :=
  (m.entries.find? fun p ↦ p.1 = k).map Prod.snd

/-- Insert the entries of a list, from left to right. -/
def insertAll (m : OrderedMap κ ν) (ps : List (κ × ν)) : OrderedMap κ ν :=
  ps.foldl (fun m p ↦ m.insert p.1 p.2) m

theorem ext_entries {m n : OrderedMap κ ν} (h : m.entries = n.entries) : m = n := by
  cases m
  cases n
  cases h
  rfl

/-! ## Looking up -/

/-- Different entries have different keys. -/
theorem eq_of_mem {m : OrderedMap κ ν} {p q : κ × ν} (hp : p ∈ m.entries) (hq : q ∈ m.entries)
    (h : p.1 = q.1) : p = q := by
  refine List.Pairwise.forall_of_forall_of_flip (R := fun p q ↦ p.1 = q.1 → p = q)
    (fun _ _ _ ↦ rfl) (m.sorted.imp fun hlt heq ↦ ?_) (m.sorted.imp fun hlt heq ↦ ?_) hp hq h
  · exact absurd heq hlt.ne
  · exact absurd heq hlt.ne'

theorem find?_eq_some {m : OrderedMap κ ν} {k : κ} {v : ν} :
    m.find? k = some v ↔ (k, v) ∈ m.entries := by
  constructor
  · intro h
    obtain ⟨p, hp, rfl⟩ := Option.map_eq_some_iff.mp h
    have hkey : p.1 = k := by simpa using List.find?_some hp
    exact hkey ▸ List.mem_of_find?_eq_some hp
  · intro hmem
    have hsome : (m.entries.find? fun p ↦ p.1 = k).isSome :=
      List.find?_isSome.mpr ⟨(k, v), hmem, by simp⟩
    obtain ⟨p, hp⟩ := Option.isSome_iff_exists.mp hsome
    have hkey : p.1 = k := by simpa using List.find?_some hp
    have heq := eq_of_mem (List.mem_of_find?_eq_some hp) hmem hkey
    rw [find?, hp, heq]
    rfl

/-- A map is determined by what it has for each key. -/
theorem ext_find? {m n : OrderedMap κ ν} (h : ∀ k, m.find? k = n.find? k) : m = n := by
  have hirrefl : Std.Irrefl fun p q : κ × ν ↦ p.1 < q.1 := ⟨fun p ↦ lt_irrefl p.1⟩
  have hantisymm : Std.Antisymm fun p q : κ × ν ↦ p.1 < q.1 :=
    ⟨fun p q hpq hqp ↦ absurd hqp (not_lt_of_gt hpq)⟩
  refine ext_entries (m.sorted.eq_of_mem_iff n.sorted fun p ↦ ?_)
  rw [← Prod.mk.eta (p := p), ← find?_eq_some, ← find?_eq_some, h]

theorem find?_insert (m : OrderedMap κ ν) (k k' : κ) (v : ν) :
    (m.insert k v).find? k' = if k' = k then some v else m.find? k' := by
  ext w
  rw [find?_eq_some, insert, mem_insertEntry m.sorted]
  split
  case isTrue heq =>
    subst heq
    simp [eq_comm]
  case isFalse hne =>
    rw [find?_eq_some]
    simp [hne]

/-- Change every value. -/
def mapValues {ν' : Type v} (f : ν → ν') (m : OrderedMap κ ν) : OrderedMap κ ν' :=
  ⟨m.entries.map fun p ↦ (p.1, f p.2), List.pairwise_map.mpr m.sorted⟩

theorem find?_mapValues {ν' : Type v} (f : ν → ν') (m : OrderedMap κ ν) (k : κ) :
    (m.mapValues f).find? k = (m.find? k).map f := by
  ext w
  rw [find?_eq_some, mapValues, List.mem_map, Option.map_eq_some_iff]
  constructor
  · rintro ⟨p, hp, heq⟩
    obtain ⟨rfl, rfl⟩ := Prod.mk.inj heq
    exact ⟨p.2, find?_eq_some.mpr hp, rfl⟩
  · rintro ⟨v, hv, rfl⟩
    exact ⟨(k, v), find?_eq_some.mp hv, rfl⟩

/-! ## Access that inserts -/

/-- `map[k]` as it is read: the value of a key, which is inserted if it is absent. -/
def access (m : OrderedMap κ ν) (k : κ) (default : ν) : ν × OrderedMap κ ν :=
  match m.find? k with
  | some v => (v, m)
  | none => (default, m.insert k default)

theorem access_of_find? {m : OrderedMap κ ν} {k : κ} {v : ν} (h : m.find? k = some v)
    (default : ν) : m.access k default = (v, m) := by
  rw [access, h]

theorem access_of_absent {m : OrderedMap κ ν} {k : κ} (h : m.find? k = none) (default : ν) :
    m.access k default = (default, m.insert k default) := by
  rw [access, h]

theorem insertEntry_perm {k : κ} (v : ν) {ps : List (κ × ν)} (h : ∀ p ∈ ps, p.1 ≠ k) :
    (insertEntry k v ps).Perm ((k, v) :: ps) := by
  induction ps with
  | nil => exact .refl _
  | cons p ps ih =>
      rw [insertEntry, if_neg (h p List.mem_cons_self).symm]
      split
      · exact .refl _
      · exact ((ih fun q hq ↦ h q (List.mem_cons_of_mem p hq)).cons p).trans (.swap _ _ _)

/-- Inserting an absent key adds one entry. -/
theorem entries_insert_perm {m : OrderedMap κ ν} {k : κ} (h : m.find? k = none) (v : ν) :
    (m.insert k v).entries.Perm ((k, v) :: m.entries) := by
  refine insertEntry_perm v fun p hp heq ↦ ?_
  have hfind : m.find? k = some p.2 := find?_eq_some.mpr (heq ▸ hp)
  rw [h] at hfind
  cases hfind

/-! ## Building a map from its entries -/

/-- A key greater than all others goes to the end. -/
theorem insertEntry_of_lt {k : κ} (v : ν) {ps : List (κ × ν)} (h : ∀ p ∈ ps, p.1 < k) :
    insertEntry k v ps = ps ++ [(k, v)] := by
  induction ps with
  | nil => rfl
  | cons p ps ih =>
      have hp : p.1 < k := h p List.mem_cons_self
      rw [insertEntry, if_neg (not_lt_of_gt hp), if_neg hp.ne',
        ih fun q hq ↦ h q (List.mem_cons_of_mem _ hq)]
      rfl

theorem entries_insertAll {m : OrderedMap κ ν} {ps : List (κ × ν)}
    (h : (m.entries ++ ps).Pairwise fun p q ↦ p.1 < q.1) :
    (m.insertAll ps).entries = m.entries ++ ps := by
  induction ps generalizing m with
  | nil => exact (List.append_nil _).symm
  | cons p ps ih =>
      have hlast : (m.insert p.1 p.2).entries = m.entries ++ [p] :=
        insertEntry_of_lt p.2 fun q hq ↦
          (List.pairwise_append.mp h).2.2 q hq p List.mem_cons_self
      have hnext := ih (m := m.insert p.1 p.2) (by rwa [hlast, List.append_assoc])
      rw [hlast, List.append_assoc] at hnext
      exact hnext

/-- Inserting the entries of a map one by one builds the map. -/
theorem insertAll_entries (m : OrderedMap κ ν) : empty.insertAll m.entries = m :=
  ext_entries (entries_insertAll m.sorted)

/-- The last value that a list of entries has for a key. -/
def lookupLast (ps : List (κ × ν)) (k : κ) : Option ν :=
  (ps.reverse.find? fun p ↦ p.1 = k).map Prod.snd

theorem insertAll_concat (m : OrderedMap κ ν) (ps : List (κ × ν)) (p : κ × ν) :
    m.insertAll (ps ++ [p]) = (m.insertAll ps).insert p.1 p.2 := List.foldl_concat ..

theorem lookupLast_concat (ps : List (κ × ν)) (p : κ × ν) (k : κ) :
    lookupLast (ps ++ [p]) k = if k = p.1 then some p.2 else lookupLast ps k := by
  rw [lookupLast, List.reverse_concat, List.find?_cons]
  by_cases hk : k = p.1
  · simp [hk]
  · have hne : decide (p.1 = k) = false := decide_eq_false fun h ↦ hk h.symm
    rw [if_neg hk, hne]
    rfl

/-- Of the entries that are inserted the last one for a key counts. -/
theorem find?_insertAll (m : OrderedMap κ ν) (ps : List (κ × ν)) (k : κ) :
    (m.insertAll ps).find? k = (lookupLast ps k).or (m.find? k) := by
  induction ps using List.reverseRecOn with
  | nil => rfl
  | append_singleton ps p ih =>
      rw [insertAll_concat, find?_insert, ih, lookupLast_concat]
      split
      · rfl
      · rfl

theorem lookupLast_isSome {ps : List (κ × ν)} {k : κ} :
    (lookupLast ps k).isSome ↔ ∃ p ∈ ps, p.1 = k := by
  simp [lookupLast]

theorem mem_of_lookupLast {ps : List (κ × ν)} {k : κ} {v : ν} (h : lookupLast ps k = some v) :
    (k, v) ∈ ps := by
  obtain ⟨p, hp, rfl⟩ := Option.map_eq_some_iff.mp h
  have hkey : p.1 = k := by simpa using List.find?_some hp
  exact hkey ▸ List.mem_reverse.mp (List.mem_of_find?_eq_some hp)

theorem lookupLast_of_getLast? {ps : List (κ × ν)} {k : κ} {v : ν}
    (h : ps.getLast? = some (k, v)) : lookupLast ps k = some v := by
  obtain ⟨qs, rfl⟩ := List.getLast?_eq_some_iff.mp h
  rw [lookupLast_concat, if_pos rfl]

/-- An entry whose key is not repeated is the last one for its key. -/
theorem lookupLast_of_mem {ps : List (κ × ν)} (hnodup : (ps.map Prod.fst).Nodup) {p : κ × ν}
    (hp : p ∈ ps) : lookupLast ps p.1 = some p.2 := by
  induction ps using List.reverseRecOn with
  | nil => cases hp
  | append_singleton ps q ih =>
      rw [List.map_append, List.map_singleton, List.nodup_append] at hnodup
      rw [lookupLast_concat]
      rcases List.mem_append.mp hp with hp | hp
      · have hne : p.1 ≠ q.1 :=
          hnodup.2.2 p.1 (List.mem_map_of_mem hp) q.1 List.mem_cons_self
        rw [if_neg hne, ih hnodup.1 hp]
      · obtain rfl := List.mem_singleton.mp hp
        rw [if_pos rfl]

/-- The map of a list without repeated keys has the entries of the list. -/
theorem mem_entries_insertAll {ps : List (κ × ν)} (hnodup : (ps.map Prod.fst).Nodup) {p : κ × ν} :
    p ∈ (empty.insertAll ps).entries ↔ p ∈ ps := by
  have hfind : (empty.insertAll ps).find? p.1 = lookupLast ps p.1 := by
    rw [find?_insertAll]
    exact Option.or_none ..
  rw [← Prod.mk.eta (p := p), ← find?_eq_some, hfind]
  exact ⟨mem_of_lookupLast, lookupLast_of_mem hnodup⟩

/-- The map of a list without repeated keys has the entries of the list in another order. -/
theorem entries_insertAll_perm {ps : List (κ × ν)} (hnodup : (ps.map Prod.fst).Nodup) :
    (empty.insertAll ps).entries.Perm ps := by
  have hentries : (empty.insertAll ps).entries.Nodup :=
    (empty.insertAll ps).sorted.imp fun h heq ↦ h.ne (congrArg Prod.fst heq)
  exact (List.perm_ext_iff_of_nodup hentries hnodup.of_map).mpr fun _ ↦
    mem_entries_insertAll hnodup

theorem nodup_keys (m : OrderedMap κ ν) : (m.entries.map Prod.fst).Nodup :=
  List.pairwise_map.mpr (m.sorted.imp ne_of_lt)

/-! ## The greatest key -/

/-- The last entry has the greatest key. -/
theorem le_of_getLast? {m : OrderedMap κ ν} {p q : κ × ν} (hp : p ∈ m.entries)
    (hq : m.entries.getLast? = some q) : p.1 ≤ q.1 := by
  obtain ⟨ps, hps⟩ := List.getLast?_eq_some_iff.mp hq
  have hsorted := m.sorted
  rw [hps, List.pairwise_append] at hsorted
  rw [hps, List.mem_append, List.mem_singleton] at hp
  rcases hp with hp | rfl
  · exact (hsorted.2.2 p hp q List.mem_cons_self).le
  · exact le_rfl

theorem getLast?_eq_some_of_forall_le {m : OrderedMap κ ν} {p : κ × ν} (hp : p ∈ m.entries)
    (h : ∀ q ∈ m.entries, q.1 ≤ p.1) : m.entries.getLast? = some p := by
  cases hlast : m.entries.getLast? with
  | none =>
      rw [List.getLast?_eq_none_iff.mp hlast] at hp
      cases hp
  | some q =>
      have hq := List.mem_of_getLast? hlast
      rw [eq_of_mem hp hq (le_antisymm (le_of_getLast? hp hlast) (h q hq))]

end OrderedMap

end AsabruCommons
