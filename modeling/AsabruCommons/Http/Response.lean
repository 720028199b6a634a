import AsabruCommons.Http.Message

/-!
# Responses

An `HttpResponse` is written by `to_string` with lines that end in `"\r\n"` and a
body that is written as it is.  `string_to_response` reads lines that end in
`'\n'`, so what it takes for the value of a header field ends in `'\r'`, and it puts
the body together from lines, each with a `'\n'` behind it.

`stringToResponse_toString` says what becomes of a response that is written and read,
and `response_round_trip_iff` which responses survive it.

The status code is read into a variable that is not initialised.  Its value is a
parameter of the model, and the results hold whatever it is.
-/

namespace AsabruCommons.Http

open CInt IStringStream Lines Search

structure HttpResponse extends HttpMessageInterface where
  statusCode : HttpStatusCode := .Ok
deriving DecidableEq

/-- `oss << n` for an `int` -/
def showInt (n : Int) : Str := if n < 0 then '-' :: decimal n.natAbs else decimal n.natAbs

namespace HttpResponse

def SetHeader (r : HttpResponse) (key value : Str) : HttpResponse :=
  { r with toHttpMessageInterface := r.toHttpMessageInterface.SetHeader key value }

def SetContent (r : HttpResponse) (content : Str) : HttpResponse :=
  { r with toHttpMessageInterface := r.toHttpMessageInterface.SetContent content }

/-- `to_string(response, send_content)` -/
def toString (r : HttpResponse) (sendContent : Bool) : Str :=
  r.version.toString ++ ' ' :: (showInt r.statusCode.value ++
      ' ' :: (r.statusCode.toString ++ crlf)) ++
    fieldLines r.headers ++ crlf ++ if sendContent then r.content else []

end HttpResponse

/-! ## `string_to_response` -/

/-- `s.substr(s.find_first_not_of(" \t"))`, which throws if there are only blanks. -/
def dropBlanks (s : Str) : Except Exception Str :=
  match findFirstNot isBlank s with
  | none => .error .outOfRange
  | some pos => orOutOfRange (substr s pos none)

/-- The body of the loop over the header lines. -/
def readHeader (response : HttpResponse) (line : Str) : Except Exception HttpResponse :=
  match find [':'] line with
  | none => .ok response
  | some colonPos => do
      let key ← orOutOfRange (substr line 0 (some colonPos))
      let value ← orOutOfRange (substr line (colonPos + 1) none)
      let key ← dropBlanks key
      let value ← dropBlanks value
      return response.SetHeader key value

/-- The condition of the loop over the header lines. -/
def isHeaderLine (line : Str) : Bool := !line.isEmpty && line ≠ ['\r']

/-- `responseBody << line << "\n"` -/
def appendLine (body line : Str) : Str := body ++ (line ++ ['\n'])

/-- Here `statusCode` is the value of the variable before it is read. -/
def stringToResponse (statusCode : Int) (responseString : Str) :
    Except Exception HttpResponse := do
  let iss := ofStr responseString
  let (iss, _) := iss.readWord []
  let (iss, statusCode) := iss.readInt statusCode
  let (iss, _) := iss.getline '\n' []
  let response : HttpResponse := { statusCode := ⟨statusCode⟩ }
  let (response, iss) ← iss.whileGetline isHeaderLine readHeader response
  let (messageBody, _) ←
    iss.whileGetline (fun _ ↦ true) (fun body line ↦ .ok (appendLine body line)) []
  return response.SetContent messageBody

/-! ## Responses that are written -/

structure ResponseField (p : Str × Str) : Prop where
  name_ne_nil : p.1 ≠ []
  colon_notMem : ':' ∉ p.1
  cr_notMem_name : '\r' ∉ p.1
  lf_notMem_name : '\n' ∉ p.1
  name_unblanked : ∀ c ∈ p.1.head?, isBlank c = false
  value_ne_nil : p.2 ≠ []
  cr_notMem_value : '\r' ∉ p.2
  lf_notMem_value : '\n' ∉ p.2
  value_unblanked : ∀ c ∈ p.2.head?, isBlank c = false

theorem any_isBlank {o : Option Char} :
    o.any isBlank = false ↔ ∀ c ∈ o, isBlank c = false := by
  cases o with
  | none => exact iff_of_true rfl nofun
  | some d => exact ⟨fun h _ hc ↦ Option.some.inj hc ▸ h, fun h ↦ h d rfl⟩

instance (p : Str × Str) : Decidable (ResponseField p) :=
  decidable_of_iff (p.1 ≠ [] ∧ ':' ∉ p.1 ∧ '\r' ∉ p.1 ∧ '\n' ∉ p.1 ∧
    p.1.head?.any isBlank = false ∧ p.2 ≠ [] ∧ '\r' ∉ p.2 ∧ '\n' ∉ p.2 ∧
      p.2.head?.any isBlank = false)
    ⟨fun ⟨h₁, h₂, h₃, h₄, h₅, h₆, h₇, h₈, h₉⟩ ↦
      ⟨h₁, h₂, h₃, h₄, any_isBlank.mp h₅, h₆, h₇, h₈, any_isBlank.mp h₉⟩,
      fun ⟨h₁, h₂, h₃, h₄, h₅, h₆, h₇, h₈, h₉⟩ ↦
      ⟨h₁, h₂, h₃, h₄, any_isBlank.mpr h₅, h₆, h₇, h₈, any_isBlank.mpr h₉⟩⟩

structure HttpResponse.Complete (r : HttpResponse) : Prop where
  listed : r.statusCode ∈ HttpStatusCode.listed
  fields : ∀ p ∈ r.headers.entries, ResponseField p
  contentLength : r.headers.find? "Content-Length".toList = some (decimal r.content.length)

/-! ## One header line -/

/-- Blanks are dropped from a text that is not all blank. -/
theorem dropBlanks_eq {s : Str} (h : s.dropWhile isBlank ≠ []) :
    dropBlanks s = .ok (s.dropWhile isBlank) := by
  have hdrop := dropWhile_eq_drop isBlank s
  unfold dropBlanks
  cases hpos : findFirstNot isBlank s with
  | none =>
      rw [hpos, Option.getD_none, List.drop_length] at hdrop
      exact absurd hdrop h
  | some pos =>
      rw [hpos, Option.getD_some] at hdrop
      have hle : pos ≤ s.length := by
        obtain ⟨hlt, -⟩ := List.findIdx?_eq_some_iff_getElem.mp hpos
        exact Nat.le_of_lt hlt
      rw [hdrop]
      simp [substr, hle, orOutOfRange, List.take_of_length_le]

theorem readHeader_fieldLine {p : Str × Str} (hp : ResponseField p) (r : HttpResponse) :
    readHeader r (fieldLine p ++ ['\r']) = .ok (r.SetHeader p.1 (p.2 ++ ['\r'])) := by
  have hline : fieldLine p ++ ['\r'] = p.1 ++ ([':'] ++ (' ' :: p.2 ++ ['\r'])) := by
    simp [fieldLine]
  have hcolon : find [':'] (fieldLine p ++ ['\r']) = some p.1.length := by
    rw [hline, find_append_of_notMem hp.colon_notMem, find_self_append, Option.map_some,
      Nat.zero_add]
  have hkey : substr (fieldLine p ++ ['\r']) 0 (some p.1.length) = some p.1 := by
    rw [hline, substr_left]
  have hvalue : substr (fieldLine p ++ ['\r']) (p.1.length + 1) none =
      some (' ' :: p.2 ++ ['\r']) := by
    have hlen : p.1.length + 1 = (p.1 ++ [':']).length := by simp
    rw [hline, ← List.append_assoc, hlen, substr_right]
  have hdropKey : dropBlanks p.1 = .ok p.1 := by
    have hself := dropWhile_of_head? hp.name_unblanked
    rw [dropBlanks_eq (by rw [hself]; exact hp.name_ne_nil), hself]
  have hdropValue : dropBlanks (' ' :: p.2 ++ ['\r']) = .ok (p.2 ++ ['\r']) := by
    have hself : (' ' :: p.2 ++ ['\r']).dropWhile isBlank = p.2 ++ ['\r'] := by
      obtain ⟨c, v, hv⟩ := List.exists_cons_of_ne_nil hp.value_ne_nil
      have hc : isBlank c = false := hp.value_unblanked c (by rw [hv]; rfl)
      rw [List.cons_append, List.dropWhile_cons_of_pos (p := isBlank) rfl, hv, List.cons_append,
        List.dropWhile_cons_of_neg (by rw [hc]; exact Bool.false_ne_true)]
    rw [dropBlanks_eq (by rw [hself]; simp), hself]
  simp only [readHeader, hcolon, hkey, hvalue, orOutOfRange, ok_bind, hdropKey, hdropValue]
  rfl

/-! ## The loops -/

/-- The value that the reader finds for a header field. -/
def withReturn (value : Str) : Str := value ++ ['\r']

/-- The header loop stops at the empty line and leaves the content to be read. -/
theorem whileGetline_fieldLines {ps : List (Str × Str)} (h : ∀ p ∈ ps, ResponseField p)
    (r : HttpResponse) (content : Str) :
    (ofStr ((ps.flatMap fun p ↦ fieldLine p ++ crlf) ++ crlf ++ content)).whileGetline
        isHeaderLine readHeader r =
      .ok ({ r with headers := r.headers.insertAll (ps.map fun p ↦ (p.1, withReturn p.2)) },
        ofStr content) := by
  induction ps generalizing r with
  | nil =>
      have hline : [] ++ crlf ++ content = ['\r'] ++ '\n' :: content := rfl
      rw [List.flatMap_nil, hline, whileGetline_stop (by decide) (by decide)]
      rfl
  | cons p ps ih =>
      have hp := h p List.mem_cons_self
      have hline : ((p :: ps).flatMap fun p ↦ fieldLine p ++ crlf) ++ crlf ++ content =
          (fieldLine p ++ ['\r']) ++ '\n' ::
            ((ps.flatMap fun p ↦ fieldLine p ++ crlf) ++ crlf ++ content) := by
        simp [crlf]
      have hlf : '\n' ∉ fieldLine p ++ ['\r'] := by
        simpa [fieldLine] using ⟨hp.lf_notMem_name, hp.lf_notMem_value⟩
      have hheader : isHeaderLine (fieldLine p ++ ['\r']) = true := by
        obtain ⟨c, name, hname⟩ := List.exists_cons_of_ne_nil hp.name_ne_nil
        simp [isHeaderLine, fieldLine, hname]
      rw [hline, whileGetline_line hlf hheader, readHeader_fieldLine hp, Except.bind,
        ih fun q hq ↦ h q (List.mem_cons_of_mem p hq)]
      rfl

theorem foldl_appendLine (ls : List Str) (body : Str) :
    ls.foldl appendLine body = body ++ unlines '\n' ls := by
  induction ls generalizing body with
  | nil => exact (List.append_nil body).symm
  | cons l ls ih =>
      rw [List.foldl_cons, ih, appendLine, unlines_cons]
      simp

/-! ## What is read of a response that was written -/

theorem listed_range : ∀ code ∈ HttpStatusCode.listed,
    0 ≤ code.value ∧ code.value ≤ intMax ∧ '\n' ∉ code.toString := by
  decide

/-- The response that is read: all header values but that of `Content-Length` end in
a carriage return, and the lines of the content are all terminated. -/
def HttpResponse.asRead (r : HttpResponse) : HttpResponse :=
  { r with headers := r.headers.mapValues withReturn }.SetContent
    (unlines '\n' (lines '\n' r.content))

/-- The status line is read up to its end. -/
theorem readStatusLine {r : HttpResponse} (h : r.statusCode ∈ HttpStatusCode.listed)
    (rest : Str) (n : Int) :
    let version := (ofStr (r.version.toString ++ ' ' :: (showInt r.statusCode.value ++
      ' ' :: (r.statusCode.toString ++ crlf)) ++ rest)).readWord []
    let code := version.1.readInt n
    code.2 = r.statusCode.value ∧ (code.1.getline '\n' []).1 = ofStr rest := by
  obtain ⟨hpos, hmax, hlf⟩ := listed_range r.statusCode h
  obtain ⟨m, hm⟩ := Int.eq_ofNat_of_zero_le hpos
  have hspace : isSpace ' ' = true := rfl
  have hcode : showInt r.statusCode.value = Nat.toDigits 10 m := by
    rw [hm]
    rfl
  have hline : '\n' ∉ ' ' :: (r.statusCode.toString ++ ['\r']) := by
    simpa using hlf
  have hrest : ' ' :: (r.statusCode.toString ++ crlf) ++ rest =
      (' ' :: (r.statusCode.toString ++ ['\r'])) ++ '\n' :: rest := by
    simp [crlf]
  have htext : r.version.toString ++ ' ' :: (showInt r.statusCode.value ++
      ' ' :: (r.statusCode.toString ++ crlf)) ++ rest =
      r.version.toString ++ ' ' :: (Nat.toDigits 10 m ++
        ' ' :: (r.statusCode.toString ++ crlf ++ rest)) := by
    rw [hcode]
    simp
  intro version code
  have hword : version = (ofStr (' ' :: (Nat.toDigits 10 m ++
      ' ' :: (r.statusCode.toString ++ crlf ++ rest))), r.version.toString) := by
    change (ofStr _).readWord [] = _
    rw [htext, readWord_word (isSpace_version r.version) r.version.toString_ne_nil hspace]
  have hint : code = (ofStr (' ' :: (r.statusCode.toString ++ crlf ++ rest)), (m : Int)) := by
    change version.1.readInt n = _
    rw [hword, readInt_space hspace, readInt_toDigits (hm ▸ hmax) (by decide)]
  rw [hint]
  refine ⟨hm.symm, ?_⟩
  change (getline '\n' (ofStr (' ' :: (r.statusCode.toString ++ crlf) ++ rest)) []).1 = _
  rw [hrest, getline_line hline]

/-- **What is read.**  Reading a response that was written never throws. -/
theorem stringToResponse_toString {r : HttpResponse} (h : r.Complete) (n : Int) :
    stringToResponse n (r.toString true) = .ok r.asRead := by
  have htext : r.toString true = r.version.toString ++ ' ' :: (showInt r.statusCode.value ++
      ' ' :: (r.statusCode.toString ++ crlf)) ++ (fieldLines r.headers ++ crlf ++ r.content) := by
    rw [HttpResponse.toString, if_pos rfl]
    simp only [List.append_assoc]
  obtain ⟨hcode, hrest⟩ := readStatusLine h.listed (fieldLines r.headers ++ crlf ++ r.content) n
  have hheaders : OrderedMap.empty.insertAll
      (r.headers.entries.map fun p ↦ (p.1, withReturn p.2)) = r.headers.mapValues withReturn :=
    OrderedMap.insertAll_entries (r.headers.mapValues withReturn)
  rw [← htext] at hcode hrest
  simp only [stringToResponse, hcode, hrest]
  rw [fieldLines, whileGetline_fieldLines h.fields, ok_bind]
  dsimp only
  rw [whileGetline_foldl fun _ _ _ ↦ rfl, ok_bind, foldl_appendLine, List.nil_append]
  apply congrArg Except.ok
  change HttpResponse.mk _ _ = HttpResponse.mk _ _
  congr 1
  refine HttpMessageInterface.ext ?_ rfl
  change OrderedMap.insert (OrderedMap.empty.insertAll _) _ _ = _
  rw [hheaders]
  rfl

/-! ## Which responses survive -/

/-- The body that is read is the one that was written if its last line is
terminated. -/
theorem unlines_lines_eq_iff (content : Str) :
    unlines '\n' (lines '\n' content) = content ↔
      content = [] ∨ content.getLast? = some '\n' := by
  constructor
  · intro heq
    have hterm : Terminated '\n' content := heq ▸ terminated_unlines _
    cases hlast : content.getLast? with
    | none => exact .inl (List.getLast?_eq_none_iff.mp hlast)
    | some c => exact .inr (congrArg some (hterm c hlast))
  · rintro (rfl | hlast)
    · rfl
    · apply unlines_lines
      intro c hc
      exact Option.some.inj (hc.symm.trans hlast)

/-- The header fields that are read are those that were written if there is no other
field than `Content-Length`. -/
theorem asRead_headers_eq_iff {r : HttpResponse} (h : r.Complete)
    (hcontent : r.asRead.content = r.content) :
    r.asRead.headers = r.headers ↔
      ∀ p ∈ r.headers.entries, p.1 = "Content-Length".toList := by
  have hheaders : r.asRead.headers = (r.headers.mapValues withReturn).insert
      "Content-Length".toList (decimal r.asRead.content.length) := rfl
  rw [hheaders, hcontent]
  constructor
  · intro heq p hp
    by_contra hne
    have hfind : r.headers.find? p.1 = some p.2 := OrderedMap.find?_eq_some.mpr hp
    have hmarked := congrArg (fun m ↦ m.find? p.1) heq
    simp only [OrderedMap.find?_insert, if_neg hne, OrderedMap.find?_mapValues, hfind,
      Option.map_some, Option.some.injEq, withReturn] at hmarked
    exact List.cons_ne_nil _ _ (List.append_right_eq_self.mp hmarked)
  · intro hall
    refine OrderedMap.ext_find? fun k ↦ ?_
    rw [OrderedMap.find?_insert]
    split
    case isTrue hk => rw [hk, h.contentLength]
    case isFalse hk =>
      have hnone : r.headers.find? k = none := by
        rw [Option.eq_none_iff_forall_ne_some]
        intro v hv
        exact hk (hall (k, v) (OrderedMap.find?_eq_some.mp hv))
      rw [OrderedMap.find?_mapValues, hnone, Option.map_none]

/-- **Which responses round trip.**  A response is read back as it was written
exactly when its only header field is `Content-Length` and its content is empty or
ends in a newline. -/
theorem response_round_trip_iff (r : HttpResponse) (h : r.Complete) (n : Int) :
    (∃ q, stringToResponse n (r.toString true) = .ok q ∧ q.statusCode = r.statusCode ∧
        q.headers = r.headers ∧ q.content = r.content) ↔
      (∀ p ∈ r.headers.entries, p.1 = "Content-Length".toList) ∧
        (r.content = [] ∨ r.content.getLast? = some '\n') := by
  have hcontent : r.asRead.content = unlines '\n' (lines '\n' r.content) := rfl
  rw [stringToResponse_toString h, ← unlines_lines_eq_iff]
  constructor
  · rintro ⟨q, hq, -, hheaders, hbody⟩
    obtain rfl := Except.ok.inj hq
    exact ⟨(asRead_headers_eq_iff h hbody).mp hheaders, hbody⟩
  · rintro ⟨hheaders, hbody⟩
    exact ⟨r.asRead, rfl, rfl, (asRead_headers_eq_iff h hbody).mpr hheaders, hbody⟩

/-- A response without a header field of its own, and a terminated content. -/
def plainResponse : HttpResponse := ({} : HttpResponse).SetContent "ok\n".toList

theorem response_round_trip_plain :
    ∃ q, stringToResponse 7 (plainResponse.toString true) = .ok q ∧
      q.statusCode = plainResponse.statusCode ∧ q.headers = plainResponse.headers ∧
      q.content = plainResponse.content :=
  (response_round_trip_iff plainResponse ⟨by decide, by decide, by decide⟩ 7).mpr
    ⟨by decide, by decide⟩

/-- A response with a header field, and a content without a newline at its end. -/
def typedResponse : HttpResponse :=
  (({} : HttpResponse).SetHeader "Content-Type".toList "text/plain".toList).SetContent
    "ok".toList

/-- The value of the field comes back with a carriage return, and the content with a
newline, which is counted in `Content-Length`. -/
theorem response_round_trip_typed :
    typedResponse.Complete ∧
      (∃ q, stringToResponse 7 (typedResponse.toString true) = .ok q ∧
        q.headers.find? "Content-Type".toList = some "text/plain\r".toList ∧
        q.headers.find? "Content-Length".toList = some "3".toList ∧ q.content = "ok\n".toList) ∧
      ¬ ∃ q, stringToResponse 7 (typedResponse.toString true) = .ok q ∧
        q.statusCode = typedResponse.statusCode ∧ q.headers = typedResponse.headers ∧
        q.content = typedResponse.content := by
  have hcomplete : typedResponse.Complete := ⟨by decide, by decide, by decide⟩
  have hread := stringToResponse_toString hcomplete 7
  refine ⟨hcomplete, ⟨_, hread, by decide, by decide, by decide⟩, ?_⟩
  rintro ⟨q, hq, -, -, hcontent⟩
  obtain rfl := Except.ok.inj (hread.symm.trans hq)
  revert hcontent
  decide

end AsabruCommons.Http
