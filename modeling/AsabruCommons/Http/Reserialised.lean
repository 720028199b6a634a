import AsabruCommons.Http.Request
import Mathlib.Data.Finset.Max

/-!
# Requests that are read and written again

A proxy reads a request and writes it again for the next hop.  This file says what
`string_to_request` makes of a text that it accepts (`stringToRequest_eq_ok`), and
answers two questions about `to_string(string_to_request(s))`.

* Is it read back as the same request?  Not always (`reparse_iff`).  `trim` removes
  spaces before it removes the carriage return, so spaces in front of a carriage
  return survive.  In the value of a field this shows when the field comes last in the
  order of the names, for then it is written at the end of the header lines, and
  that line loses its carriage return when the message is cut.
* Does it declare its length once and for all?  Not always (`declares_iff`).
  `SetContent` sets the field `Content-Length`, but names are compared letter by
  letter, so what was sent as `content-length` stays beside it.
-/

namespace AsabruCommons.Http

open IStringStream Lines Search OrderedMap

/-! ## What is read -/

/-- The header lines of a message, as the reader cuts them out. -/
def headerLines (s : Str) : List Str :=
  match splitRequest s with
  | .ok (_, header, _) => lines '\n' header
  | .error _ => []

/-- The body of a message, as the reader cuts it out. -/
def messageBody (s : Str) : Str :=
  match splitRequest s with
  | .ok (_, _, body) => body
  | .error _ => []

/-- The header fields of a message, one for each header line. -/
def headerFields (s : Str) : List (Str × Str) := fields [] (headerLines s)

def contentLength : Str := "Content-Length".toList

/-- The path is a word: nothing behind it could be read otherwise. -/
theorem readStartLine_path {start version : Str} (hversion : (readStartLine start).2.2.2 = version)
    (hne : version ≠ []) :
    (readStartLine start).2.2.1 ≠ [] ∧
      ∀ c ∈ (readStartLine start).2.2.1, isSpace c = false := by
  simp only [readStartLine, clear_str] at hversion ⊢
  rcases readWord_cases ((ofStr start).readWord []).1 [] with ⟨hfail, -⟩ | ⟨-, hpath⟩
  · rw [readWord_of_fail hfail] at hversion
    exact absurd hversion.symm hne
  · exact hpath

/-- What the reader makes of a text that it accepts. -/
theorem stringToRequest_eq_ok {s : Str} {r : HttpRequest} (h : stringToRequest s = .ok r) :
    r.uri.path ≠ [] ∧ (∀ c ∈ r.uri.path, isSpace c = false) ∧ r.content = messageBody s ∧
      r.headers = (empty.insertAll (headerFields s)).insert contentLength
        (decimal (messageBody s).length) := by
  unfold stringToRequest at h
  cases hsplit : splitRequest s with
  | error e =>
      rw [hsplit] at h
      cases h
  | ok parts =>
      obtain ⟨start, header, body⟩ := parts
      rw [hsplit, ok_bind] at h
      dsimp only at h
      split at h
      · cases h
      · cases hmethod : stringToMethod (readStartLine start).2.1 with
        | error e =>
            rw [hmethod] at h
            cases h
        | ok method =>
            cases hversion : stringToVersion (readStartLine start).2.2.2 with
            | error e =>
                rw [hmethod, hversion] at h
                cases h
            | ok version =>
                rw [hmethod, hversion] at h
                rw [ok_bind, ok_bind] at h
                split at h
                · cases h
                · obtain ⟨vars, iss, hloop⟩ := whileGetline_readField header
                    { method := method, uri := ⟨(readStartLine start).2.2.1⟩ } [] []
                  rw [clear_str, hloop, ok_bind] at h
                  obtain rfl := Except.ok.inj h
                  have hne : (readStartLine start).2.2.2 ≠ [] := by
                    intro hnil
                    rw [hnil] at hversion
                    cases hversion
                  have hbody : messageBody s = body := by rw [messageBody, hsplit]
                  have hfields : headerFields s = fields [] (lines '\n' header) := by
                    rw [headerFields, headerLines, hsplit]
                  obtain ⟨hpath, hspace⟩ := readStartLine_path rfl hne
                  refine ⟨hpath, hspace, hbody.symm, ?_⟩
                  rw [hbody, hfields]
                  rfl

/-! ## The header fields that are read -/

theorem stored_of_mem_fields {ls : List Str} (hls : ∀ l ∈ ls, '\n' ∉ l) {value : Str}
    (hvalue : '\n' ∉ value) {p : Str × Str} (hp : p ∈ fields value ls) : Stored p := by
  induction ls generalizing value with
  | nil => cases hp
  | cons l ls ih =>
      have hl : '\n' ∉ l := hls l List.mem_cons_self
      have hkey : '\n' ∉ l.takeWhile (· ≠ ':') := fun h ↦ hl ((List.takeWhile_prefix _).subset h)
      have hstripped : Stripped (fieldValue value l) := by
        unfold fieldValue
        split
        · exact stripped_trimmed hvalue
        · rename_i c rest hrest
          refine stripped_trimmed fun h ↦ hl ?_
          refine (List.dropWhile_suffix (fun c ↦ decide (c ≠ ':'))).subset ?_
          rw [hrest]
          exact List.mem_cons_of_mem c h
      rcases List.mem_cons.mp hp with rfl | hp
      · refine ⟨notMem_trimmed fun h ↦ ?_, stripped_trimmed hkey, hstripped⟩
        simpa using List.mem_takeWhile_imp h
      · exact ih (fun m hm ↦ hls m (List.mem_cons_of_mem l hm)) hstripped.lf_notMem hp

theorem stored_of_mem_headerFields {s : Str} {p : Str × Str} (hp : p ∈ headerFields s) :
    Stored p := by
  refine stored_of_mem_fields (fun l hl ↦ ?_) List.not_mem_nil hp
  unfold headerLines at hl
  split at hl
  · exact sep_notMem_of_mem_lines hl
  · cases hl

/-- The field that `SetContent` sets. -/
theorem isDigit_of_mem_decimal {n : Nat} {c : Char} (hc : c ∈ decimal n) : c.isDigit = true :=
  Nat.isDigit_of_mem_toDigits (by decide) (by decide) hc

theorem notMem_decimal {n : Nat} {c : Char} (hc : c.isDigit = false) : c ∉ decimal n := fun h ↦ by
  rw [isDigit_of_mem_decimal h] at hc
  cases hc

theorem stored_contentLength (n : Nat) : Stored (contentLength, decimal n) where
  colon_notMem := show ':' ∉ contentLength by decide
  name := show Stripped contentLength from ⟨by decide, by decide, by decide⟩
  value := ⟨notMem_decimal rfl, fun h ↦ notMem_decimal rfl (List.mem_of_head? h),
    fun h ↦ notMem_decimal rfl (List.mem_of_getLast? h)⟩

section

variable {s : Str} {r : HttpRequest} (h : stringToRequest s = .ok r)
include h

/-- Of several lines with one name the last one counts. -/
theorem find?_headers_of_ne {k : Str} (hk : k ≠ contentLength) :
    r.headers.find? k = lookupLast (headerFields s) k := by
  rw [(stringToRequest_eq_ok h).2.2.2, find?_insert, if_neg hk, find?_insertAll]
  cases lookupLast (headerFields s) k <;> rfl

theorem find?_headers_contentLength :
    r.headers.find? contentLength = some (decimal (messageBody s).length) := by
  rw [(stringToRequest_eq_ok h).2.2.2, find?_insert, if_pos rfl]

theorem contentLength_mem_headers :
    (contentLength, decimal (messageBody s).length) ∈ r.headers.entries :=
  find?_eq_some.mp (find?_headers_contentLength h)

/-- Each field of the request is `Content-Length` or was read. -/
theorem mem_headers_cases {p : Str × Str} (hp : p ∈ r.headers.entries) :
    p = (contentLength, decimal (messageBody s).length) ∨
      p.1 ≠ contentLength ∧ lookupLast (headerFields s) p.1 = some p.2 := by
  have hfind := find?_eq_some.mpr (show (p.1, p.2) ∈ r.headers.entries from hp)
  by_cases hkey : p.1 = contentLength
  · rw [hkey, find?_headers_contentLength h] at hfind
    exact .inl (Prod.ext hkey (Option.some.inj hfind).symm)
  · rw [find?_headers_of_ne h hkey] at hfind
    exact .inr ⟨hkey, hfind⟩

/-- The name of each line is the name of a field of the request. -/
theorem exists_mem_headers {p : Str × Str} (hp : p ∈ headerFields s) :
    ∃ v, (p.1, v) ∈ r.headers.entries := by
  by_cases hkey : p.1 = contentLength
  · exact ⟨_, hkey ▸ contentLength_mem_headers h⟩
  · obtain ⟨v, hv⟩ := Option.isSome_iff_exists.mp (lookupLast_isSome.mpr ⟨p, hp, rfl⟩)
    refine ⟨v, find?_eq_some.mp ?_⟩
    rw [find?_headers_of_ne h hkey, hv]

theorem stored_of_mem_headers {p : Str × Str} (hp : p ∈ r.headers.entries) : Stored p := by
  rcases mem_headers_cases h hp with rfl | ⟨-, hlast⟩
  · exact stored_contentLength _
  · exact stored_of_mem_headerFields (mem_of_lookupLast hlast)

theorem printable_of_ok : r.Printable where
  path_ne_nil := (stringToRequest_eq_ok h).1
  path_unspaced := (stringToRequest_eq_ok h).2.1
  headers_ne_nil := List.ne_nil_of_mem (contentLength_mem_headers h)
  fields := fun _ hp ↦ (stored_of_mem_headers h hp).oneLine

end

/-! ## Reading again -/

/-- The request that was read comes back: the names are not trimmed any further, and
neither is the value of the field that is written last. -/
structure Settled (s : Str) : Prop where
  names : ∀ p ∈ headerFields s, p.1.getLast? ≠ some ' '
  last : ∀ p ∈ headerFields s, contentLength < p.1 → (∀ q ∈ headerFields s, q.1 ≤ p.1) →
    ∀ v ∈ lookupLast (headerFields s) p.1, v.getLast? ≠ some ' '

/-- A function that makes smaller what it changes, and under which each element of a
finite set is the image of another, leaves the elements of the set as they are. -/
theorem eq_self_of_surjOn {α : Type} [DecidableEq α] {f : α → α} {size : α → Nat}
    (hf : ∀ a, f a ≠ a → size (f a) < size a) {K : Finset α} (hK : ∀ a ∈ K, ∃ b ∈ K, f b = a) :
    ∀ a ∈ K, f a = a := by
  by_contra hno
  push Not at hno
  obtain ⟨a₀, ha₀, hne₀⟩ := hno
  obtain ⟨a, ha, hmax⟩ := (K.filter fun a ↦ f a ≠ a).exists_max_image size
    ⟨a₀, Finset.mem_filter.mpr ⟨ha₀, hne₀⟩⟩
  obtain ⟨haK, hne⟩ := Finset.mem_filter.mp ha
  obtain ⟨b, hbK, rfl⟩ := hK a haK
  have hb : f b ≠ b := fun heq ↦ hne (congrArg f heq)
  exact absurd (hf b hb) (not_lt_of_ge (hmax b (Finset.mem_filter.mpr ⟨hbK, hb⟩)))

/-- If the header fields come back, then no name is trimmed any further. -/
theorem trimmed_name_of_reread {m : OrderedMap Str Str} {length : Str} {p : Str × Str}
    {ps : List (Str × Str)} (hcons : m.entries = p :: ps)
    (hback : (empty.insertAll (reread p ps)).insert contentLength length = m) :
    ∀ q ∈ m.entries, trimmed q.1 = q.1 := by
  intro q hq
  refine eq_self_of_surjOn (K := (m.entries.map Prod.fst).toFinset)
    (fun _ ↦ length_trimmed_lt) (fun k hk ↦ ?_) q.1
    (List.mem_toFinset.mpr (List.mem_map_of_mem hq))
  obtain ⟨⟨k, v⟩, hkv, rfl⟩ := List.mem_map.mp (List.mem_toFinset.mp hk)
  by_cases hcl : k = contentLength
  · subst hcl
    exact ⟨contentLength, hk, show trimmed contentLength = contentLength by decide⟩
  · have hfind := find?_eq_some.mpr hkv
    rw [← hback, find?_insert, if_neg hcl, find?_insertAll] at hfind
    have hsome : (lookupLast (reread p ps) k).isSome := by
      cases hl : lookupLast (reread p ps) k with
      | none =>
          rw [hl] at hfind
          cases hfind
      | some w => rfl
    obtain ⟨q', hq', rfl⟩ := lookupLast_isSome.mp hsome
    have hmap := List.mem_map_of_mem (f := Prod.fst) hq'
    rw [map_fst_reread, ← hcons, List.mem_map] at hmap
    obtain ⟨q₀, hq₀, heq⟩ := hmap
    exact ⟨q₀.1, List.mem_toFinset.mpr (List.mem_map_of_mem hq₀), heq⟩

section

variable {s : Str} {r : HttpRequest} (h : stringToRequest s = .ok r)
include h

theorem settled_iff : Settled s ↔ (∀ q ∈ r.headers.entries, q.1.getLast? ≠ some ' ') ∧
    ∀ q ∈ r.headers.entries.getLast?, q.2.getLast? ≠ some ' ' := by
  constructor
  · rintro ⟨hnames, hlast⟩
    refine ⟨fun q hq ↦ ?_, fun q hq ↦ ?_⟩
    · rcases mem_headers_cases h hq with rfl | ⟨-, hq⟩
      · exact show contentLength.getLast? ≠ some ' ' by decide
      · exact hnames (q.1, q.2) (mem_of_lookupLast hq)
    · rcases mem_headers_cases h (List.mem_of_getLast? hq) with rfl | ⟨hne, hfield⟩
      · exact fun hspace ↦ notMem_decimal rfl (List.mem_of_getLast? hspace)
      · have hmem := mem_of_lookupLast hfield
        have hlt := le_of_getLast? (contentLength_mem_headers h) hq
        refine hlast _ hmem (lt_of_le_of_ne hlt (Ne.symm hne)) (fun p hp ↦ ?_) q.2 hfield
        obtain ⟨v, hv⟩ := exists_mem_headers h hp
        exact le_of_getLast? (p := (p.1, v)) hv hq
  · rintro ⟨hnames, hlast⟩
    refine ⟨fun p hp ↦ ?_, fun p hp hlt hle v hv ↦ ?_⟩
    · obtain ⟨v, hv⟩ := exists_mem_headers h hp
      exact hnames (p.1, v) hv
    · have hmem : (p.1, v) ∈ r.headers.entries := by
        rw [← find?_eq_some, find?_headers_of_ne h hlt.ne']
        exact hv
      refine hlast (p.1, v) (getLast?_eq_some_of_forall_le hmem fun q hq ↦ ?_)
      rcases mem_headers_cases h hq with rfl | ⟨-, hq⟩
      · exact hlt.le
      · exact hle _ (mem_of_lookupLast hq)

/-- **When a request is read back.** -/
theorem reparse_iff :
    (∃ q, stringToRequest r.toString = .ok q ∧ q.method = r.method ∧ q.uri.path = r.uri.path ∧
      q.headers = r.headers ∧ q.content = r.content) ↔ Settled s := by
  obtain ⟨p, ps, hcons, hread⟩ := stringToRequest_toString (printable_of_ok h)
  have hstored : ∀ q ∈ p :: ps, Stored q := hcons ▸ fun q ↦ stored_of_mem_headers h
  rw [settled_iff h, hcons]
  constructor
  · rintro ⟨q, hq, -, -, hheaders, -⟩
    obtain rfl := Except.ok.inj (hread.symm.trans hq)
    have hback : (empty.insertAll (reread p ps)).insert contentLength
        (decimal (messageBody s).length) = r.headers := by
      rw [← (stringToRequest_eq_ok h).2.2.1]
      exact hheaders
    have hnames := trimmed_name_of_reread hcons hback
    rw [hcons] at hnames
    refine ⟨fun q hq ↦ (hstored q hq).name.trimmed_eq_self_iff.mp (hnames q hq), fun q hq ↦ ?_⟩
    have hqmem := List.mem_of_getLast? hq
    rcases mem_headers_cases h (hcons ▸ hqmem) with rfl | ⟨hne, -⟩
    · exact fun hspace ↦ notMem_decimal rfl (List.mem_of_getLast? hspace)
    · -- The last field that is read again is this one.
      have hfind : r.headers.find? q.1 = some q.2 := find?_eq_some.mpr (hcons ▸ hqmem)
      have hlast := getLast?_reread hq
      rw [hnames q hqmem] at hlast
      rw [← hback, find?_insert, if_neg hne, find?_insertAll, lookupLast_of_getLast? hlast] at hfind
      exact (hstored q hqmem).value.trimmed_space_iff.mp (Option.some.inj hfind)
  · rintro ⟨hnames, hlast⟩
    refine ⟨_, hread, rfl, rfl, ?_, rfl⟩
    rw [reread_eq_self hstored hnames hlast, ← hcons]
    change (empty.insertAll r.headers.entries).insert contentLength (decimal r.content.length) = _
    rw [insertAll_entries, (stringToRequest_eq_ok h).2.2.1]
    refine ext_find? fun k ↦ ?_
    rw [find?_insert]
    split
    · rename_i hk
      rw [hk, find?_headers_contentLength h]
    · rfl

end

/-- The header field that is written last ends in a space which its carriage return
protected when it was read. -/
def spacedMessage : Str := "GET / HTTP/1.1\r\nX: a \r\nA: b\r\n\r\n".toList

theorem reparse_spaced :
    ∃ r, stringToRequest spacedMessage = .ok r ∧
      ¬ ∃ q, stringToRequest r.toString = .ok q ∧ q.method = r.method ∧ q.uri.path = r.uri.path ∧
        q.headers = r.headers ∧ q.content = r.content := by
  refine ⟨_, rfl, ?_⟩
  rintro ⟨q, hq, -, -, hheaders, -⟩
  obtain rfl := Except.ok.inj hq
  revert hheaders
  decide

/-- A line without a colon, an empty name and a body with an empty line. -/
def settledMessage : Str :=
  "put  /a HTTP/1.1\r\nHost: h\r\n: \r\nAge\r\n\r\n\r\n\r\nb".toList

theorem reparse_settled :
    ∃ r, stringToRequest settledMessage = .ok r ∧
      ∃ q, stringToRequest r.toString = .ok q ∧ q.method = r.method ∧ q.uri.path = r.uri.path ∧
        q.headers = r.headers ∧ q.content = r.content := by
  obtain ⟨r, hr⟩ : ∃ r, stringToRequest settledMessage = .ok r := ⟨_, rfl⟩
  exact ⟨r, hr, (reparse_iff hr).mpr ⟨by decide, by decide⟩⟩

/-! ## The declared length -/

/-- A message in three parts. -/
structure Framing where
  startLine : Str
  headerLines : List Str
  body : Str

def Framing.text (m : Framing) : Str :=
  m.startLine ++ crlf ++ (m.headerLines.flatMap (· ++ crlf) ++ (crlf ++ m.body))

/-- The parts are those that the line ends mark off. -/
structure Framing.Valid (m : Framing) : Prop where
  startLine : ¬ crlf <:+: m.startLine
  headerLines : ∀ l ∈ m.headerLines, l ≠ [] ∧ ¬ crlf <:+: l

/-- A value without the blanks around it. -/
def stripBlanks (s : Str) : Str := (s.dropWhile isBlank).rdropWhile isBlank

/-- Every header line that declares the length of the body is right. -/
def DeclaresLength (message : Str) : Prop :=
  ∀ m : Framing, m.Valid → m.text = message → ∀ name value, name ++ ':' :: value ∈ m.headerLines →
    ':' ∉ name → name.map Char.toLower = "content-length".toList →
      stripBlanks value = decimal m.body.length

/-- A line ends at its first line end. -/
theorem append_crlf_inj {a b x y : Str} (ha : ¬ crlf <:+: a) (hb : ¬ crlf <:+: b)
    (h : a ++ (crlf ++ x) = b ++ (crlf ++ y)) : a = b ∧ x = y := by
  have hends : ∀ {a t x y : Str}, ¬ crlf <:+: a ++ t → crlf ++ x = t ++ (crlf ++ y) → t = [] := by
    intro a t x y hno heq
    match t with
    | [] => rfl
    | [c] => cases (List.cons.inj (List.cons.inj heq).2).1
    | c :: d :: t =>
        obtain ⟨hc, htail⟩ := List.cons.inj heq
        obtain ⟨hd, -⟩ := List.cons.inj htail
        refine absurd ⟨a, t, ?_⟩ hno
        rw [← hc, ← hd, List.append_assoc]
        rfl
  rcases List.append_eq_append_iff.mp h with ⟨t, rfl, heq⟩ | ⟨t, rfl, heq⟩
  · obtain rfl := hends hb heq
    exact ⟨(List.append_nil a).symm, List.append_cancel_left heq⟩
  · obtain rfl := hends ha heq
    exact ⟨List.append_nil b, (List.append_cancel_left heq).symm⟩

/-- The header lines end at the first empty line. -/
theorem flatMap_crlf_inj {ls ls' : List Str} {body body' : Str}
    (hls : ∀ l ∈ ls, l ≠ [] ∧ ¬ crlf <:+: l) (hls' : ∀ l ∈ ls', l ≠ [] ∧ ¬ crlf <:+: l)
    (h : ls.flatMap (· ++ crlf) ++ (crlf ++ body) = ls'.flatMap (· ++ crlf) ++ (crlf ++ body')) :
    ls = ls' ∧ body = body' := by
  have hnil : ¬ crlf <:+: ([] : Str) := by decide
  induction ls generalizing ls' with
  | nil =>
      cases ls' with
      | nil => exact ⟨rfl, List.append_cancel_left h⟩
      | cons l' ls' =>
          obtain ⟨hne, hl'⟩ := hls' l' List.mem_cons_self
          rw [List.flatMap_cons, List.append_assoc, List.append_assoc] at h
          exact absurd (append_crlf_inj (a := []) hnil hl' h).1.symm hne
  | cons l ls ih =>
      obtain ⟨hne, hl⟩ := hls l List.mem_cons_self
      cases ls' with
      | nil =>
          rw [List.flatMap_cons, List.append_assoc, List.append_assoc] at h
          exact absurd (append_crlf_inj (b := []) hl hnil h).1 hne
      | cons l' ls' =>
          rw [List.flatMap_cons, List.flatMap_cons, List.append_assoc, List.append_assoc,
            List.append_assoc, List.append_assoc] at h
          obtain ⟨rfl, hrest⟩ := append_crlf_inj hl (hls' l' List.mem_cons_self).2 h
          obtain ⟨rfl, hbody⟩ := ih (fun m hm ↦ hls m (List.mem_cons_of_mem l hm))
            (fun m hm ↦ hls' m (List.mem_cons_of_mem l hm)) hrest
          exact ⟨rfl, hbody⟩

/-- So a message has only one framing. -/
theorem Framing.Valid.ext {m n : Framing} (hm : m.Valid) (hn : n.Valid) (h : m.text = n.text) :
    m = n := by
  obtain ⟨start, ls, body⟩ := m
  obtain ⟨start', ls', body'⟩ := n
  rw [text, text, List.append_assoc, List.append_assoc] at h
  obtain ⟨rfl, hrest⟩ := append_crlf_inj hm.startLine hn.startLine h
  obtain ⟨rfl, rfl⟩ := flatMap_crlf_inj hm.headerLines hn.headerLines hrest
  rfl

/-- The framing of a request that is written. -/
def HttpRequest.framing (r : HttpRequest) : Framing :=
  ⟨r.startLine, r.headers.entries.map fieldLine, r.content⟩

theorem HttpRequest.framing_text (r : HttpRequest) : r.framing.text = r.toString := by
  rw [HttpRequest.toString, Framing.text, framing, List.flatMap_map, fieldLines, startLine]
  simp only [List.append_assoc, List.cons_append]

theorem HttpRequest.Printable.framing_valid {r : HttpRequest} (h : r.Printable) :
    r.framing.Valid where
  startLine := fun hmem ↦ cr_notMem_startLine h (hmem.subset List.mem_cons_self)
  headerLines := by
    intro l hl
    obtain ⟨p, hp, rfl⟩ := List.mem_map.mp hl
    refine ⟨fieldLine_ne_nil p, fun hmem ↦ (h.fields p hp).lf_notMem (hmem.subset ?_)⟩
    exact List.mem_cons_of_mem _ List.mem_cons_self

/-- What the lengths declared by a written request depend on. -/
theorem HttpRequest.Printable.declaresLength_iff {r : HttpRequest} (h : r.Printable) :
    DeclaresLength r.toString ↔ ∀ p ∈ r.headers.entries,
      p.1.map Char.toLower = "content-length".toList →
        stripBlanks p.2 = decimal r.content.length := by
  have hblank : ∀ v : Str, stripBlanks (' ' :: v) = stripBlanks v := fun v ↦ by
    rw [stripBlanks, stripBlanks, List.dropWhile_cons_of_pos (by decide)]
  constructor
  · intro hdeclares p hp hname
    rw [← hblank]
    refine hdeclares r.framing h.framing_valid r.framing_text p.1 _ ?_ (h.fields p hp).colon_notMem
      hname
    exact List.mem_map_of_mem (f := fieldLine) hp
  · intro hfields m hm htext name value hmem hcolon hname
    obtain rfl := hm.ext h.framing_valid (htext.trans r.framing_text.symm)
    obtain ⟨p, hp, hline⟩ := List.mem_map.mp hmem
    -- The name of the line is that of the field, since neither has a colon.
    have hp' := (h.fields p hp).colon_notMem
    have hkey := congrArg (List.takeWhile (· ≠ ':')) hline
    have hrest := congrArg (List.dropWhile (· ≠ ':')) hline
    rw [fieldLine, takeWhile_append_cons (ne_delim hp') (by decide),
      takeWhile_append_cons (ne_delim hcolon) (by decide)] at hkey
    rw [fieldLine, dropWhile_append_cons (ne_delim hp') (by decide),
      dropWhile_append_cons (ne_delim hcolon) (by decide)] at hrest
    obtain rfl := (List.cons.inj hrest).2
    rw [hblank]
    exact hfields p hp (hkey ▸ hname)

/-- The fields that were sent under another spelling of `Content-Length` have the
length of the body for their value. -/
def RivalsAgree (s : Str) : Prop :=
  ∀ p ∈ headerFields s, p.1.map Char.toLower = "content-length".toList → p.1 ≠ contentLength →
    ∀ v ∈ lookupLast (headerFields s) p.1, stripBlanks v = decimal (messageBody s).length

instance (s : Str) : Decidable (RivalsAgree s) :=
  inferInstanceAs (Decidable (∀ p ∈ headerFields s, _))

/-- The length is written without blanks. -/
theorem stripBlanks_decimal (n : Nat) : stripBlanks (decimal n) = decimal n := by
  have hblank : ∀ c ∈ decimal n, isBlank c = false := by
    intro c hc
    have hdigit := isDigit_of_mem_decimal hc
    by_contra hno
    rw [Bool.not_eq_false, isBlank, Bool.or_eq_true, decide_eq_true_eq, decide_eq_true_eq] at hno
    rcases hno with rfl | rfl <;> cases hdigit
  rw [stripBlanks, dropWhile_of_head? fun c hc ↦ hblank c (List.mem_of_head? hc),
    rdropWhile_of_getLast? fun c hc ↦ hblank c (List.mem_of_getLast? hc)]

/-- **When the length is declared consistently.** -/
theorem declares_iff {s : Str} {r : HttpRequest} (h : stringToRequest s = .ok r) :
    DeclaresLength r.toString ↔ RivalsAgree s := by
  rw [(printable_of_ok h).declaresLength_iff, (stringToRequest_eq_ok h).2.2.1]
  constructor
  · intro hall p hp hname hne v hv
    refine hall (p.1, v) (find?_eq_some.mp ?_) hname
    rw [find?_headers_of_ne h hne]
    exact hv
  · intro hrivals p hp hname
    rcases mem_headers_cases h hp with rfl | ⟨hne, hlast⟩
    · exact stripBlanks_decimal _
    · exact hrivals _ (mem_of_lookupLast hlast) hname hne p.2 hlast

/-- Two lengths are declared, and one of them is wrong. -/
def rivalMessage : Str := "GET / HTTP/1.1\r\ncontent-length: 5\r\n\r\n".toList

theorem declares_rival :
    ∃ r, stringToRequest rivalMessage = .ok r ∧ ¬ DeclaresLength r.toString := by
  refine ⟨_, rfl, fun hdeclares ↦ ?_⟩
  have hwrong := hdeclares ⟨"GET / HTTP/1.1".toList,
    ["Content-Length: 0".toList, "content-length: 5".toList], []⟩ ⟨by decide, by decide⟩ (by decide)
    "content-length".toList " 5".toList (by decide) (by decide) (by decide)
  revert hwrong
  decide

/-- Here the other length is right. -/
theorem declares_agreeing :
    ∃ r, stringToRequest "POST / HTTP/1.1\r\nCONTENT-LENGTH: 2\r\n\r\nok".toList = .ok r ∧
      DeclaresLength r.toString := by
  obtain ⟨r, hr⟩ : ∃ r, stringToRequest
      "POST / HTTP/1.1\r\nCONTENT-LENGTH: 2\r\n\r\nok".toList = .ok r := ⟨_, rfl⟩
  exact ⟨r, hr, (declares_iff hr).mpr (by decide)⟩

end AsabruCommons.Http
