import AsabruCommons.Http.Request
import AsabruCommons.Http.Response

/-!
# Reading a message

The reading functions of a message are `const`, all but `GetHeader`, which returns
`headers_[key]` and so puts an empty value into the map for a name that is not there.
Its sibling `header` asks whether the name is there.

A sequence of reads is a list, and `afterReads` is the message that it leaves.
`toString_afterReads_iff` says which sequences a serialised message does not show: those
that ask `GetHeader` for the names of its own fields only.
-/

namespace AsabruCommons.Http

/-- What a reading function returns. -/
inductive Answer where
  | text (s : Str)
  | fields (headers : OrderedMap Str Str)
  | size (n : Nat)
  | version (v : HttpVersion)
  | method (m : HttpMethod)
  | uri (u : Uri)
  | statusCode (code : HttpStatusCode)
deriving DecidableEq

/-! ## Every message -/

namespace HttpMessageInterface

/-- `return headers_[key];` -/
def GetHeader (m : HttpMessageInterface) (key : Str) : Str × HttpMessageInterface :=
  let (value, headers) := m.headers.access key []
  (value, { m with headers := headers })

def header (m : HttpMessageInterface) (key : Str) : Str :=
  match m.headers.find? key with
  | some value => value
  | none => []

def contentLength (m : HttpMessageInterface) : Nat := m.content.length

/-- A call of a reading function. -/
inductive Read where
  | GetHeader (key : Str)
  | header (key : Str)
  | headers
  | content
  | contentLength
  | version
deriving DecidableEq

/-- What a read returns, and the message afterwards. -/
def read (m : HttpMessageInterface) : Read → Answer × HttpMessageInterface
  | .GetHeader key => let (value, m) := m.GetHeader key; (.text value, m)
  | .header key => (.text (m.header key), m)
  | .headers => (.fields m.headers, m)
  | .content => (.text m.content, m)
  | .contentLength => (.size m.contentLength, m)
  | .version => (.version m.version, m)

/-- The message after some reads. -/
def afterReads (m : HttpMessageInterface) (reads : List Read) : HttpMessageInterface :=
  reads.foldl (fun m r ↦ (m.read r).2) m

end HttpMessageInterface

namespace HttpRequest

inductive Read where
  | message (r : HttpMessageInterface.Read)
  | method
  | uri
deriving DecidableEq

def read (q : HttpRequest) : Read → Answer × HttpRequest
  | .message r =>
      let (answer, m) := q.toHttpMessageInterface.read r
      (answer, { q with toHttpMessageInterface := m })
  | .method => (.method q.method, q)
  | .uri => (.uri q.uri, q)

def afterReads (q : HttpRequest) (reads : List Read) : HttpRequest :=
  reads.foldl (fun q r ↦ (q.read r).2) q

end HttpRequest

namespace HttpResponse

inductive Read where
  | message (r : HttpMessageInterface.Read)
  | statusCode
deriving DecidableEq

def read (q : HttpResponse) : Read → Answer × HttpResponse
  | .message r =>
      let (answer, m) := q.toHttpMessageInterface.read r
      (answer, { q with toHttpMessageInterface := m })
  | .statusCode => (.statusCode q.statusCode, q)

def afterReads (q : HttpResponse) (reads : List Read) : HttpResponse :=
  reads.foldl (fun q r ↦ (q.read r).2) q

end HttpResponse

/-! ## Header fields that are added -/

/-- An added header field makes the text longer. -/
theorem length_fieldLines_lt {headers : OrderedMap Str Str} {key : Str}
    (h : headers.find? key = none) (value : Str) :
    (fieldLines headers).length < (fieldLines (headers.insert key value)).length := by
  have hperm := (OrderedMap.entries_insert_perm h value).flatMap_right
    fun p ↦ fieldLine p ++ crlf
  rw [List.flatMap_cons] at hperm
  have hlen := hperm.length_eq
  have hline : 0 < (fieldLine (key, value)).length := List.length_pos_iff.mpr (by simp [fieldLine])
  change (fieldLines (headers.insert key value)).length =
    ((fieldLine (key, value) ++ crlf) ++ fieldLines headers).length at hlen
  rw [hlen, List.length_append, List.length_append]
  omega

namespace HttpMessageInterface

/-- No field name is asked of `GetHeader` that the message does not have. -/
def AsksPresent (m : HttpMessageInterface) (reads : List Read) : Prop :=
  ∀ key, .GetHeader key ∈ reads → m.headers.find? key ≠ none

/-- **One read.**  A read leaves the message as it was, or it asks `GetHeader` for an absent
name and adds that field. -/
theorem read_cases (m : HttpMessageInterface) (r : Read) :
    (m.read r).2 = m ∧ (∀ key, r = .GetHeader key → m.headers.find? key ≠ none) ∨
      ∃ key, r = .GetHeader key ∧ m.headers.find? key = none ∧
        (m.read r).2 = m.SetHeader key [] := by
  cases r with
  | GetHeader key =>
      cases hfind : m.headers.find? key with
      | some value =>
          refine .inl ⟨?_, ?_⟩
          · show { m with headers := (m.headers.access key []).2 } = m
            rw [OrderedMap.access_of_find? hfind]
          · rintro k hk
            obtain rfl := Read.GetHeader.inj hk
            rw [hfind]
            exact Option.some_ne_none value
      | none =>
          refine .inr ⟨key, rfl, hfind, ?_⟩
          show { m with headers := (m.headers.access key []).2 } = _
          rw [OrderedMap.access_of_absent hfind]
          rfl
  | header key => exact .inl ⟨rfl, nofun⟩
  | headers => exact .inl ⟨rfl, nofun⟩
  | content => exact .inl ⟨rfl, nofun⟩
  | contentLength => exact .inl ⟨rfl, nofun⟩
  | version => exact .inl ⟨rfl, nofun⟩

theorem content_read (m : HttpMessageInterface) (r : Read) :
    (m.read r).2.content = m.content := by
  rcases m.read_cases r with ⟨hsame, -⟩ | ⟨key, -, -, hadd⟩
  · rw [hsame]
  · rw [hadd]
    rfl

/-! ### Sequences of reads -/

theorem afterReads_cons (m : HttpMessageInterface) (r : Read) (reads : List Read) :
    m.afterReads (r :: reads) = (m.read r).2.afterReads reads := rfl

theorem content_afterReads (m : HttpMessageInterface) (reads : List Read) :
    (m.afterReads reads).content = m.content := by
  induction reads generalizing m with
  | nil => rfl
  | cons r reads ih => rw [afterReads_cons, ih, content_read]

theorem version_afterReads (m : HttpMessageInterface) (reads : List Read) :
    (m.afterReads reads).version = m.version := by
  rw [(m.afterReads reads).version_eq, m.version_eq]

/-- Reads never take a header field away. -/
theorem length_fieldLines_le (m : HttpMessageInterface) (reads : List Read) :
    (fieldLines m.headers).length ≤ (fieldLines (m.afterReads reads).headers).length := by
  induction reads generalizing m with
  | nil => exact le_rfl
  | cons r reads ih =>
      rw [afterReads_cons]
      refine le_trans ?_ (ih (m.read r).2)
      rcases m.read_cases r with ⟨hsame, -⟩ | ⟨key, -, habsent, hadd⟩
      · rw [hsame]
      · rw [hadd]
        exact (length_fieldLines_lt habsent []).le

theorem asksPresent_cons {m : HttpMessageInterface} {r : Read} {reads : List Read} :
    m.AsksPresent (r :: reads) ↔
      (∀ key, r = .GetHeader key → m.headers.find? key ≠ none) ∧ m.AsksPresent reads := by
  constructor
  · intro h
    exact ⟨fun key hr ↦ h key (hr ▸ List.mem_cons_self),
      fun key hmem ↦ h key (List.mem_cons_of_mem r hmem)⟩
  · rintro ⟨hr, hreads⟩ key hmem
    rcases List.mem_cons.mp hmem with heq | hmem
    · exact hr key heq.symm
    · exact hreads key hmem

/-- **Reads that do not show.**  The header fields are written as before exactly when no
name was asked of `GetHeader` that the message does not have. -/
theorem fieldLines_afterReads_iff (m : HttpMessageInterface) (reads : List Read) :
    fieldLines (m.afterReads reads).headers = fieldLines m.headers ↔ m.AsksPresent reads := by
  induction reads generalizing m with
  | nil => exact iff_of_true rfl fun key hmem ↦ absurd hmem List.not_mem_nil
  | cons r reads ih =>
      rw [afterReads_cons, asksPresent_cons]
      rcases m.read_cases r with ⟨hsame, hpresent⟩ | ⟨key, rfl, habsent, hadd⟩
      · rw [hsame, ih]
        exact ⟨fun h ↦ ⟨hpresent, h⟩, fun h ↦ h.2⟩
      · refine iff_of_false ?_ fun h ↦ h.1 key rfl habsent
        intro heq
        -- the text has become longer, and stays so
        have hlt := length_fieldLines_lt habsent []
        have hle := (m.SetHeader key []).length_fieldLines_le reads
        rw [hadd] at heq
        rw [heq] at hle
        exact absurd hle (Nat.not_le.mpr hlt)

end HttpMessageInterface

/-! ## Requests and responses -/

/-- The reads that requests share with responses. -/
def HttpRequest.Read.shared? : HttpRequest.Read → Option HttpMessageInterface.Read
  | .message r => some r
  | .method => none
  | .uri => none

def HttpResponse.Read.shared? : HttpResponse.Read → Option HttpMessageInterface.Read
  | .message r => some r
  | .statusCode => none

theorem HttpRequest.afterReads_eq (q : HttpRequest) (reads : List Read) :
    q.afterReads reads = { q with
      toHttpMessageInterface := q.toHttpMessageInterface.afterReads (reads.filterMap
        Read.shared?) } := by
  induction reads generalizing q with
  | nil => rfl
  | cons r reads ih =>
      cases r with
      | message r => exact ih _
      | method => exact ih _
      | uri => exact ih _

theorem HttpResponse.afterReads_eq (q : HttpResponse) (reads : List Read) :
    q.afterReads reads = { q with
      toHttpMessageInterface := q.toHttpMessageInterface.afterReads (reads.filterMap
        Read.shared?) } := by
  induction reads generalizing q with
  | nil => rfl
  | cons r reads ih =>
      cases r with
      | message r => exact ih _
      | statusCode => exact ih _

theorem HttpRequest.mem_shared {r : HttpMessageInterface.Read} {reads : List Read} :
    r ∈ reads.filterMap Read.shared? ↔ .message r ∈ reads := by
  rw [List.mem_filterMap]
  constructor
  · rintro ⟨a, ha, hshared⟩
    cases a with
    | message r' => exact Option.some.inj hshared ▸ ha
    | method => cases hshared
    | uri => cases hshared
  · intro hmem
    exact ⟨_, hmem, rfl⟩

theorem HttpResponse.mem_shared {r : HttpMessageInterface.Read} {reads : List Read} :
    r ∈ reads.filterMap Read.shared? ↔ .message r ∈ reads := by
  rw [List.mem_filterMap]
  constructor
  · rintro ⟨a, ha, hshared⟩
    cases a with
    | message r' => exact Option.some.inj hshared ▸ ha
    | statusCode => cases hshared
  · intro hmem
    exact ⟨_, hmem, rfl⟩

theorem HttpRequest.toString_afterReads (q : HttpRequest) (reads : List Read) :
    (q.afterReads reads).toString = q.toString ↔
      ∀ key, .message (.GetHeader key) ∈ reads → q.headers.find? key ≠ none := by
  have hasks : q.AsksPresent (reads.filterMap Read.shared?) ↔
      ∀ key, .message (.GetHeader key) ∈ reads → q.headers.find? key ≠ none :=
    forall_congr' fun key ↦ imp_congr_left mem_shared
  rw [← hasks, ← HttpMessageInterface.fieldLines_afterReads_iff, HttpRequest.afterReads_eq,
    HttpRequest.toString, HttpRequest.toString, HttpMessageInterface.content_afterReads,
    HttpMessageInterface.version_afterReads, List.append_left_inj, List.append_left_inj,
    List.append_right_inj]

theorem HttpResponse.toString_afterReads (q : HttpResponse) (reads : List Read)
    (sendContent : Bool) :
    (q.afterReads reads).toString sendContent = q.toString sendContent ↔
      ∀ key, .message (.GetHeader key) ∈ reads → q.headers.find? key ≠ none := by
  have hasks : q.AsksPresent (reads.filterMap Read.shared?) ↔
      ∀ key, .message (.GetHeader key) ∈ reads → q.headers.find? key ≠ none :=
    forall_congr' fun key ↦ imp_congr_left mem_shared
  rw [← hasks, ← HttpMessageInterface.fieldLines_afterReads_iff, HttpResponse.afterReads_eq,
    HttpResponse.toString, HttpResponse.toString, HttpMessageInterface.content_afterReads,
    HttpMessageInterface.version_afterReads, List.append_left_inj, List.append_left_inj,
    List.append_right_inj]

/-- **Reading a message.**  Reads leave the text of a message as it was exactly when
`GetHeader` was asked for names of its header fields only. -/
theorem toString_afterReads_iff (q : HttpRequest) (requestReads : List HttpRequest.Read)
    (p : HttpResponse) (responseReads : List HttpResponse.Read) (sendContent : Bool) :
    ((q.afterReads requestReads).toString = q.toString ↔
      ∀ key, .message (.GetHeader key) ∈ requestReads → q.headers.find? key ≠ none) ∧
    ((p.afterReads responseReads).toString sendContent = p.toString sendContent ↔
      ∀ key, .message (.GetHeader key) ∈ responseReads → p.headers.find? key ≠ none) :=
  ⟨q.toString_afterReads requestReads, p.toString_afterReads responseReads sendContent⟩

/-- Asking a new request for its host gives it an empty header field. -/
theorem toString_read_host :
    let q := ({} : HttpRequest).afterReads [.message (.GetHeader "Host".toList)]
    q.toString = "GET  HTTP/1.1\r\nHost: \r\n\r\n".toList ∧
      q.toString ≠ ({} : HttpRequest).toString := by
  decide

end AsabruCommons.Http
