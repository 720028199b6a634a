import AsabruCommons.Http.Reserialised
import Mathlib.Algebra.GroupWithZero.Nat

/-!
# A request that is passed on

A proxy that reads a request and writes it again may change its header fields
(`reparse_iff`): a name is trimmed further, the value of the field that is written last
loses its trailing spaces, and names that have become equal are merged, which moves other
fields to the end.  Each of these can make room for another one at the next proxy.

`passes_settle` says that this comes to an end.  Any text that is accepted is accepted by
every proxy behind the first one, with the same method, path, content and content length;
and after at most as many passes as there are characters in its header fields, with one more
for each field, the request is passed on unchanged.

The measure is `bulk`: it leaves `Content-Length` out, which `SetContent` restores each
time.  A pass makes it smaller or changes nothing (`pass_cases`).
-/

namespace AsabruCommons

namespace OrderedMap

universe u v

variable {κ : Type u} {ν : Type v} [LinearOrder κ]

/-- A weight that is summed over the entries of a list. -/
def weigh (w : κ × ν → Nat) (ps : List (κ × ν)) : Nat := (ps.map w).sum

omit [LinearOrder κ] in
@[simp] theorem weigh_cons (w : κ × ν → Nat) (p : κ × ν) (ps : List (κ × ν)) :
    weigh w (p :: ps) = w p + weigh w ps := by
  rw [weigh, List.map_cons, List.sum_cons, weigh]

/-- Inserting an entry adds its weight at most. -/
theorem weigh_insert_le (w : κ × ν → Nat) (m : OrderedMap κ ν) (k : κ) (v : ν) :
    weigh w (m.insert k v).entries ≤ weigh w m.entries + w (k, v) := by
  have hentries : ∀ ps : List (κ × ν),
      weigh w (insertEntry k v ps) ≤ weigh w ps + w (k, v) := by
    intro ps
    induction ps with
    | nil => simp [insertEntry, weigh]
    | cons p ps ih =>
        unfold insertEntry
        split
        · simp only [weigh_cons]
          omega
        · split
          · simp only [weigh_cons]
            omega
          · simp only [weigh_cons]
            omega
  exact hentries m.entries

theorem weigh_insertAll_le (w : κ × ν → Nat) (m : OrderedMap κ ν) (ps : List (κ × ν)) :
    weigh w (m.insertAll ps).entries ≤ weigh w m.entries + weigh w ps := by
  induction ps generalizing m with
  | nil => exact Nat.le_add_right _ _
  | cons p ps ih =>
      have hinsert : weigh w (m.insert p.1 p.2).entries ≤ weigh w m.entries + w p :=
        weigh_insert_le w m p.1 p.2
      have hrest := ih (m.insert p.1 p.2)
      rw [weigh_cons]
      exact hrest.trans (by omega)

end OrderedMap

namespace Http

open OrderedMap

/-! ## The measure -/

/-- The characters of a field, and one more, so that no field is without weight. -/
def fieldWeight (p : Str × Str) : Nat :=
  if p.1 = contentLength then 0 else p.1.length + p.2.length + 1

/-- The weight of the header fields but `Content-Length`. -/
def HttpRequest.bulk (r : HttpRequest) : Nat := weigh fieldWeight r.headers.entries

theorem fieldWeight_of_eq {p : Str × Str} (h : p.1 = contentLength) : fieldWeight p = 0 := if_pos h

theorem fieldWeight_of_ne {p : Str × Str} (h : p.1 ≠ contentLength) :
    fieldWeight p = p.1.length + p.2.length + 1 := if_neg h

/-- What becomes of the last value is shorter, if it is not the value. -/
theorem Stripped.length_trimmed_space_lt {v : Str} (h : Stripped v)
    (hne : trimmed (' ' :: v) ≠ v) : (trimmed (' ' :: v)).length < v.length := by
  have hlast : v.getLast? = some ' ' := by
    by_contra hno
    exact hne (h.trimmed_space_iff.mpr hno)
  obtain ⟨w, rfl⟩ := List.getLast?_eq_some_iff.mp hlast
  have hlf : '\n' ∉ ' ' :: (w ++ [' ']) := by
    rw [List.mem_cons, not_or]
    exact ⟨by decide, h.lf_notMem⟩
  have hcons : ' ' :: (w ++ [' ']) = (' ' :: w) ++ [' '] := rfl
  have hle := length_dropWhile_space_le (v := w) (z := ((' ' :: w).rdropWhile
    (· = ' ')).rdropWhile (· = '\r'))
    ((List.rdropWhile_prefix _ _).trans (List.rdropWhile_prefix _ _))
  rw [trimmed_of_lf_notMem hlf, hcons, List.rdropWhile_concat_pos _ _ _ (by decide),
    List.length_append, List.length_singleton]
  omega

theorem trimmed_contentLength : trimmed contentLength = contentLength := by decide

/-- A field whose name is trimmed, and whose value is not longer than it was, weighs less
or is the same. -/
theorem fieldWeight_trimmed {p : Str × Str} {value : Str}
    (hvalue : value = p.2 ∨ p.1 ≠ contentLength ∧ value.length < p.2.length) :
    (trimmed p.1, value) = p ∨ fieldWeight (trimmed p.1, value) < fieldWeight p := by
  by_cases hlength : p.1 = contentLength
  · left
    rcases hvalue with hsame | ⟨hne, -⟩
    · rw [hsame, hlength, trimmed_contentLength, ← hlength]
    · exact absurd hlength hne
  · have hshort : value.length ≤ p.2.length := by
      rcases hvalue with hsame | ⟨-, hlt⟩
      · exact hsame ▸ le_rfl
      · exact hlt.le
    have hname : (trimmed p.1).length ≤ p.1.length := (isInfix_trimmed p.1).length_le
    rw [fieldWeight_of_ne hlength]
    by_cases hto : trimmed p.1 = contentLength
    · right
      rw [fieldWeight_of_eq hto]
      omega
    · rw [fieldWeight_of_ne (p := (trimmed p.1, value)) hto]
      by_cases hsame : trimmed p.1 = p.1
      · rcases hvalue with heq | ⟨-, hlt⟩
        · left
          rw [hsame, heq]
        · right
          show (trimmed p.1).length + value.length + 1 < _
          omega
      · right
        have hlt := length_trimmed_lt hsame
        show (trimmed p.1).length + value.length + 1 < _
        omega

/-- The fields that are read again weigh less, or are the same. -/
theorem reread_cases {p : Str × Str} {ps : List (Str × Str)} (h : ∀ q ∈ p :: ps, Stored q)
    (hlength : ∀ q ∈ p :: ps, q.1 = contentLength → q.2.getLast? ≠ some ' ') :
    reread p ps = p :: ps ∨ weigh fieldWeight (reread p ps) < weigh fieldWeight (p :: ps) := by
  have hp := h p List.mem_cons_self
  induction ps generalizing p with
  | nil =>
      have hvalue : trimmed (' ' :: p.2) = p.2 ∨
          p.1 ≠ contentLength ∧ (trimmed (' ' :: p.2)).length < p.2.length := by
        by_cases hsame : trimmed (' ' :: p.2) = p.2
        · exact .inl hsame
        · refine .inr ⟨fun heq ↦ hsame ?_, hp.value.length_trimmed_space_lt hsame⟩
          exact hp.value.trimmed_space_iff.mpr (hlength p List.mem_cons_self heq)
      rcases fieldWeight_trimmed hvalue with heq | hlt
      · left
        rw [reread, heq]
      · right
        rw [reread, weigh_cons, weigh_cons]
        exact Nat.add_lt_add_right hlt _
  | cons q ps ih =>
      have hrest := ih (fun q' hq' ↦ h q' (List.mem_cons_of_mem p hq'))
        (fun q' hq' ↦ hlength q' (List.mem_cons_of_mem p hq'))
        (h q (List.mem_cons_of_mem p List.mem_cons_self))
      rw [reread, hp.value.trimmed_space_cr]
      rcases @fieldWeight_trimmed p p.2 (.inl rfl) with heq | hlt
      · rcases hrest with hsame | hless
        · left
          rw [heq, hsame]
        · right
          rw [heq, weigh_cons, weigh_cons]
          exact Nat.add_lt_add_left hless _
      · right
        have hle : weigh fieldWeight (reread q ps) ≤ weigh fieldWeight (q :: ps) := by
          rcases hrest with hsame | hless
          · rw [hsame]
          · exact hless.le
        rw [weigh_cons, weigh_cons]
        exact Nat.add_lt_add_of_lt_of_le hlt hle

/-! ## One pass -/

/-- What a pass keeps. -/
structure SameMessage (r q : HttpRequest) : Prop where
  method : q.method = r.method
  uri : q.uri = r.uri
  content : q.content = r.content

theorem SameMessage.trans {r q u : HttpRequest} (h : SameMessage r q) (h' : SameMessage q u) :
    SameMessage r u :=
  ⟨h'.method.trans h.method, h'.uri.trans h.uri, h'.content.trans h.content⟩

/-- **One pass.**  A request that was read is read again, unchanged or with less in its
header fields. -/
theorem pass_cases {s : Str} {r : HttpRequest} (h : stringToRequest s = .ok r) :
    ∃ q, stringToRequest r.toString = .ok q ∧ SameMessage r q ∧ (q = r ∨ q.bulk < r.bulk) := by
  obtain ⟨p, ps, hcons, hread⟩ := stringToRequest_toString (printable_of_ok h)
  have hstored : ∀ q ∈ p :: ps, Stored q := hcons ▸ fun q ↦ stored_of_mem_headers h
  have hlength : ∀ q ∈ p :: ps, q.1 = contentLength → q.2.getLast? ≠ some ' ' := by
    intro q hq hname hspace
    rcases mem_headers_cases h (hcons ▸ hq) with rfl | ⟨hne, -⟩
    · exact notMem_decimal rfl (List.mem_of_getLast? hspace)
    · exact hne hname
  refine ⟨_, hread, ⟨rfl, rfl, rfl⟩, ?_⟩
  rcases reread_cases hstored hlength with hsame | hless
  · left
    have hheaders : (empty.insertAll (reread p ps)).insert contentLength
        (decimal r.content.length) = r.headers := by
      rw [hsame, ← hcons, insertAll_entries, (stringToRequest_eq_ok h).2.2.1]
      refine ext_find? fun k ↦ ?_
      rw [find?_insert]
      split
      · next hk => rw [hk, find?_headers_contentLength h]
      · rfl
    have hmessage := HttpMessageInterface.ext (m := (HttpRequest.SetContent
      { method := r.method, uri := r.uri, headers := empty.insertAll (reread p ps) }
      r.content).toHttpMessageInterface) (n := r.toHttpMessageInterface) hheaders rfl
    exact congrArg (fun m ↦ HttpRequest.mk m r.method r.uri) hmessage
  · right
    have hinsert := weigh_insert_le fieldWeight (empty.insertAll (reread p ps)) contentLength
      (decimal r.content.length)
    have hall := weigh_insertAll_le fieldWeight empty (reread p ps)
    rw [fieldWeight_of_eq rfl] at hinsert
    show weigh fieldWeight ((empty.insertAll (reread p ps)).insert contentLength
      (decimal r.content.length)).entries < r.bulk
    rw [HttpRequest.bulk, hcons]
    have hempty : weigh fieldWeight (empty : OrderedMap Str Str).entries = 0 := rfl
    omega

/-! ## Any number of passes -/

/-- The request behind this number of proxies, each of which reads what the one before it
has written. -/
def HttpRequest.passes (r : HttpRequest) : Nat → Except Exception HttpRequest
  | 0 => .ok r
  | n + 1 => do (← stringToRequest r.toString).passes n

/-- **The passes settle.** -/
theorem passes_settle {s : Str} {r : HttpRequest} (h : stringToRequest s = .ok r) :
    (∀ n, ∃ q, r.passes n = .ok q ∧ SameMessage r q ∧
        q.headers.find? contentLength = some (decimal r.content.length)) ∧
      ∃ q, ∃ k ≤ r.bulk, ∀ n ≥ k, r.passes n = .ok q := by
  constructor
  · intro n
    induction n generalizing s r with
    | zero =>
        refine ⟨r, rfl, ⟨rfl, rfl, rfl⟩, ?_⟩
        rw [find?_headers_contentLength h, (stringToRequest_eq_ok h).2.2.1]
    | succ n ih =>
        obtain ⟨q, hq, hsame, -⟩ := pass_cases h
        obtain ⟨u, hu, hmore, hfield⟩ := ih hq
        refine ⟨u, ?_, hsame.trans hmore, hsame.content ▸ hfield⟩
        rw [HttpRequest.passes, hq]
        exact hu
  · induction hbulk : r.bulk using Nat.strong_induction_on generalizing s r with
    | _ b ih =>
        obtain ⟨q, hq, -, rfl | hless⟩ := pass_cases h
        · refine ⟨q, 0, Nat.zero_le b, fun n _ ↦ ?_⟩
          induction n with
          | zero => rfl
          | succ n ihn =>
              rw [HttpRequest.passes, hq]
              exact ihn (Nat.zero_le n)
        · obtain ⟨u, k, hk, hall⟩ := ih q.bulk (hbulk ▸ hless) hq rfl
          refine ⟨u, k + 1, by omega, fun n hn ↦ ?_⟩
          obtain ⟨m, rfl⟩ : ∃ m, n = m + 1 := ⟨n - 1, by omega⟩
          rw [HttpRequest.passes, hq]
          exact hall m (by omega)

/-- A request that its first proxy changes (`reparse_spaced`). -/
theorem passes_settle_spaced :
    ∃ r, stringToRequest spacedMessage = .ok r ∧
      ∃ q, ∃ k ≤ r.bulk, ∀ n ≥ k, r.passes n = .ok q := by
  obtain ⟨r, hr⟩ : ∃ r, stringToRequest spacedMessage = .ok r := ⟨_, rfl⟩
  exact ⟨r, hr, (passes_settle hr).2⟩

end Http

end AsabruCommons
