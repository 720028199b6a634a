import AsabruCommons.Http.Message

/-!
# Requests

An `HttpRequest` is written by `to_string` and read by `string_to_request`.  The
two work differently: the writer puts the fields of a sorted map into a stream,
and the reader looks for `"\r\n"` and `"\r\n\r\n"`, cuts the text there, takes the
start line apart at white space and the header lines at `':'`, and trims what it
finds.

A request that can be written unambiguously is read back, whatever its content is
(`request_round_trip`).
-/

namespace AsabruCommons.Http

open IStringStream Lines Search

/-- Only the path is used. -/
structure Uri where
  path : Str
deriving DecidableEq

structure HttpRequest extends HttpMessageInterface where
  method : HttpMethod := .GET
  uri : Uri := ⟨[]⟩
deriving DecidableEq

namespace HttpRequest

def SetHeader (r : HttpRequest) (key value : Str) : HttpRequest :=
  { r with toHttpMessageInterface := r.toHttpMessageInterface.SetHeader key value }

def SetContent (r : HttpRequest) (content : Str) : HttpRequest :=
  { r with toHttpMessageInterface := r.toHttpMessageInterface.SetContent content }

/-- `to_string(request)` -/
def toString (r : HttpRequest) : Str :=
  r.method.toString ++ ' ' :: (r.uri.path ++ ' ' :: (r.version.toString ++ crlf)) ++
    fieldLines r.headers ++ crlf ++ r.content

end HttpRequest

/-! ## `string_to_request` -/

/-- The start line, the header lines and the body.  A message without an empty
line has neither header lines nor a body. -/
def splitRequest (requestString : Str) : Except Exception (Str × Str × Str) :=
  match findFrom crlf requestString 0 with
  | none => .error (.invalidArgument "Could not find request start line")
  | some rpos => do
      let startLine ← orOutOfRange (substr requestString 0 (some rpos))
      let lpos := rpos + 2
      match findFrom (crlf ++ crlf) requestString lpos with
      | none => return (startLine, [], [])
      | some rpos =>
          let headerLines ← orOutOfRange (substr requestString lpos (some (rpos - lpos)))
          let lpos := rpos + 4
          let rpos := requestString.length
          if lpos < rpos then
            let messageBody ← orOutOfRange (substr requestString lpos (some (rpos - lpos)))
            return (startLine, headerLines, messageBody)
          else return (startLine, headerLines, [])

/-- The method, the path and the version, and the stream they were read from. -/
def readStartLine (startLine : Str) : IStringStream × Str × Str × Str :=
  let iss := (ofStr []).clear.str startLine
  let (iss, method) := iss.readWord []
  let (iss, path) := iss.readWord []
  let (iss, version) := iss.readWord []
  (iss, method, path, version)

/-- The body of the loop over the header lines.  The variables `key` and `value`
are declared outside of the loop. -/
def readField (vars : HttpRequest × Str × Str) (line : Str) :
    Except Exception (HttpRequest × Str × Str) := do
  let (request, key, value) := vars
  let headerStream := ofStr line
  let (headerStream, key) := headerStream.getline ':' key
  let (_, value) := headerStream.getline '\n' value
  let key ← orOutOfRange (trim key)
  let value ← orOutOfRange (trim value)
  return (request.SetHeader key value, key, value)

def stringToRequest (requestString : Str) : Except Exception HttpRequest := do
  let (startLine, headerLines, messageBody) ← splitRequest requestString
  let (iss, method, path, version) := readStartLine startLine
  if !iss.good && !iss.eof then throw (.invalidArgument "Invalid start line format")
  let request : HttpRequest := {}
  let method ← stringToMethod method
  let request := { request with method }
  let request := { request with uri := ⟨path⟩ }
  let version ← stringToVersion version
  if version ≠ request.version then throw (.logicError "HTTP version not supported")
  let ((request, _, _), _) ←
    (iss.clear.str headerLines).whileGetline (fun _ ↦ true) readField (request, [], [])
  return request.SetContent messageBody

/-! ## Requests that can be written -/

/-- The text neither begins nor ends with a space. -/
def Unspaced (s : Str) : Prop := s.head? ≠ some ' ' ∧ s.getLast? ≠ some ' '

instance (s : Str) : Decidable (Unspaced s) :=
  inferInstanceAs (Decidable (s.head? ≠ some ' ' ∧ s.getLast? ≠ some ' '))

/-- A header field that is told apart from its neighbours. -/
structure RequestField (p : Str × Str) : Prop where
  colon_notMem : ':' ∉ p.1
  cr_notMem_name : '\r' ∉ p.1
  lf_notMem_name : '\n' ∉ p.1
  name_unspaced : Unspaced p.1
  cr_notMem_value : '\r' ∉ p.2
  lf_notMem_value : '\n' ∉ p.2
  value_unspaced : Unspaced p.2

instance (p : Str × Str) : Decidable (RequestField p) :=
  decidable_of_iff (':' ∉ p.1 ∧ '\r' ∉ p.1 ∧ '\n' ∉ p.1 ∧ Unspaced p.1 ∧ '\r' ∉ p.2 ∧
    '\n' ∉ p.2 ∧ Unspaced p.2)
    ⟨fun ⟨h₁, h₂, h₃, h₄, h₅, h₆, h₇⟩ ↦ ⟨h₁, h₂, h₃, h₄, h₅, h₆, h₇⟩,
      fun ⟨h₁, h₂, h₃, h₄, h₅, h₆, h₇⟩ ↦ ⟨h₁, h₂, h₃, h₄, h₅, h₆, h₇⟩⟩

structure HttpRequest.Writable (r : HttpRequest) : Prop where
  path_ne_nil : r.uri.path ≠ []
  path_unspaced : ∀ c ∈ r.uri.path, isSpace c = false
  headers_ne_nil : r.headers.entries ≠ []
  fields : ∀ p ∈ r.headers.entries, RequestField p

/-! ## What the reader makes of a header line -/

/-- The name: what stands before the first colon. -/
def fieldName (line : Str) : Str := trimmed (line.takeWhile (· ≠ ':'))

/-- The value: what stands behind the first colon.  On a line without a colon it is
the value of the line before. -/
def fieldValue (value line : Str) : Str :=
  match line.dropWhile (· ≠ ':') with
  | [] => trimmed value
  | _ :: rest => trimmed rest

/-- The header fields of successive lines. -/
def fields : Str → List Str → List (Str × Str)
  | _, [] => []
  | value, line :: ls =>
      (fieldName line, fieldValue value line) :: fields (fieldValue value line) ls

theorem readField_eq {line : Str} (h : '\n' ∉ line) (r : HttpRequest) (key value : Str) :
    readField (r, key, value) line =
      .ok (r.SetHeader (fieldName line) (fieldValue value line), fieldName line,
        fieldValue value line) := by
  cases hrest : line.dropWhile (· ≠ ':') with
  | nil =>
      -- The stream has met the end of the line, and the second `getline` reads nothing.
      have hkey : (ofStr line).getline ':' key =
          (⟨[], true, (line.takeWhile (· ≠ ':')).isEmpty⟩, line.takeWhile (· ≠ ':')) := by
        simp only [getline, ofStr, hrest]
        rfl
      simp only [readField, hkey, getline_of_not_good (show good ⟨[], true, _⟩ = false from rfl),
        trim_eq, fieldName, fieldValue, hrest]
      rfl
  | cons c rest =>
      have hkey : (ofStr line).getline ':' key = (ofStr rest, line.takeWhile (· ≠ ':')) := by
        simp only [getline, ofStr, hrest]
        rfl
      have hlf : '\n' ∉ rest := fun hmem ↦ by
        refine h ((List.dropWhile_suffix (fun c ↦ decide (c ≠ ':'))).subset ?_)
        rw [hrest]
        exact List.mem_cons_of_mem c hmem
      simp only [readField, hkey, getline_last hlf, trim_eq, fieldName, fieldValue, hrest]
      rfl

/-- The loop over the header lines sets their fields one after the other. -/
theorem whileGetline_readField (text : Str) (r : HttpRequest) (key value : Str) :
    ∃ vars s, (ofStr text).whileGetline (fun _ ↦ true) readField (r, key, value) =
      .ok (({ r with headers := r.headers.insertAll (fields value (lines '\n' text)) }, vars),
        s) := by
  have hfold : ∀ (ls : List Str) (r : HttpRequest) (key value : Str), ∃ vars,
      ls.foldl (fun (vars : HttpRequest × Str × Str) line ↦
        (vars.1.SetHeader (fieldName line) (fieldValue vars.2.2 line), fieldName line,
          fieldValue vars.2.2 line)) (r, key, value) =
        ({ r with headers := r.headers.insertAll (fields value ls) }, vars) := by
    intro ls
    induction ls with
    | nil => exact fun r key value ↦ ⟨_, rfl⟩
    | cons line ls ih => exact fun r key value ↦ ih _ _ _
  obtain ⟨vars, hvars⟩ := hfold (lines '\n' text) r key value
  refine ⟨vars, ⟨[], true, true⟩, ?_⟩
  rw [whileGetline_foldl fun vars line hline ↦ readField_eq hline vars.1 vars.2.1 vars.2.2, hvars]

/-! ## Header fields that are written -/

/-- A header field that takes up one line. -/
structure OneLine (p : Str × Str) : Prop where
  colon_notMem : ':' ∉ p.1
  lf_notMem_name : '\n' ∉ p.1
  lf_notMem_value : '\n' ∉ p.2

/-- The header lines as the reader cuts them out: the last one has lost its end. -/
def joinFields (p : Str × Str) : List (Str × Str) → Str
  | [] => fieldLine p
  | q :: ps => fieldLine p ++ crlf ++ joinFields q ps

/-- The header fields that are read from these lines. -/
def reread (p : Str × Str) : List (Str × Str) → List (Str × Str)
  | [] => [(trimmed p.1, trimmed (' ' :: p.2))]
  | q :: ps => (trimmed p.1, trimmed (' ' :: p.2 ++ ['\r'])) :: reread q ps

theorem flatMap_fieldLine (p : Str × Str) (ps : List (Str × Str)) :
    ((p :: ps).flatMap fun p ↦ fieldLine p ++ crlf) = joinFields p ps ++ crlf := by
  induction ps generalizing p with
  | nil => simp [joinFields]
  | cons q ps ih =>
      rw [List.flatMap_cons, ih, joinFields]
      exact (List.append_assoc _ _ _).symm

theorem OneLine.lf_notMem {p : Str × Str} (hp : OneLine p) : '\n' ∉ fieldLine p := by
  simpa [fieldLine] using ⟨hp.lf_notMem_name, hp.lf_notMem_value⟩

theorem fieldLine_ne_nil (p : Str × Str) : fieldLine p ≠ [] := by
  simp [fieldLine]

theorem OneLine.fieldName_fieldLine {p : Str × Str} (hp : OneLine p) (cr : Str) :
    fieldName (fieldLine p ++ cr) = trimmed p.1 := by
  have hline : fieldLine p ++ cr = p.1 ++ ':' :: (' ' :: p.2 ++ cr) := by simp [fieldLine]
  rw [fieldName, hline, takeWhile_append_cons (ne_delim hp.colon_notMem) (by decide)]

theorem OneLine.fieldValue_fieldLine {p : Str × Str} (hp : OneLine p) (value cr : Str) :
    fieldValue value (fieldLine p ++ cr) = trimmed (' ' :: p.2 ++ cr) := by
  have hline : fieldLine p ++ cr = p.1 ++ ':' :: (' ' :: p.2 ++ cr) := by simp [fieldLine]
  rw [fieldValue, hline, dropWhile_append_cons (ne_delim hp.colon_notMem) (by decide)]

/-- No value is passed on from one line to the next, since each has a colon. -/
theorem fields_joinFields {p : Str × Str} {ps : List (Str × Str)}
    (h : ∀ q ∈ p :: ps, OneLine q) (value : Str) :
    fields value (lines '\n' (joinFields p ps)) = reread p ps := by
  induction ps generalizing p value with
  | nil =>
      have hp := h p List.mem_cons_self
      have hname := hp.fieldName_fieldLine []
      have hvalue := hp.fieldValue_fieldLine value []
      rw [List.append_nil] at hname hvalue
      rw [List.append_nil] at hvalue
      rw [joinFields, lines_of_sep_notMem hp.lf_notMem (fieldLine_ne_nil p), fields, hname, hvalue]
      rfl
  | cons q ps ih =>
      have hp := h p List.mem_cons_self
      have hline : joinFields p (q :: ps) =
          (fieldLine p ++ ['\r']) ++ '\n' :: joinFields q ps := by
        simp [joinFields, crlf]
      have hlf : '\n' ∉ fieldLine p ++ ['\r'] := by
        simpa using hp.lf_notMem
      rw [hline, lines_line_append hlf, fields, hp.fieldName_fieldLine, hp.fieldValue_fieldLine,
        ih fun q' hq' ↦ h q' (List.mem_cons_of_mem p hq')]
      rfl

/-- A header field as the reader leaves it. -/
structure Stored (p : Str × Str) : Prop where
  colon_notMem : ':' ∉ p.1
  name : Stripped p.1
  value : Stripped p.2

theorem Stored.oneLine {p : Str × Str} (h : Stored p) : OneLine p :=
  ⟨h.colon_notMem, h.name.lf_notMem, h.value.lf_notMem⟩

theorem map_fst_reread (p : Str × Str) (ps : List (Str × Str)) :
    (reread p ps).map Prod.fst = (p :: ps).map fun q ↦ trimmed q.1 := by
  induction ps generalizing p with
  | nil => rfl
  | cons q ps ih => exact congrArg (trimmed p.1 :: ·) (ih q)

theorem getLast?_reread {p q : Str × Str} {ps : List (Str × Str)}
    (h : (p :: ps).getLast? = some q) :
    (reread p ps).getLast? = some (trimmed q.1, trimmed (' ' :: q.2)) := by
  induction ps generalizing p with
  | nil =>
      obtain rfl := Option.some.inj h
      rfl
  | cons p' ps ih =>
      rw [List.getLast?_cons_cons] at h
      rw [reread, List.getLast?_cons, ih h]
      rfl

/-- Header fields come back as they are if no name ends in a space, and the last
value does not. -/
theorem reread_eq_self {p : Str × Str} {ps : List (Str × Str)} (h : ∀ q ∈ p :: ps, Stored q)
    (hnames : ∀ q ∈ p :: ps, q.1.getLast? ≠ some ' ')
    (hlast : ∀ q ∈ (p :: ps).getLast?, q.2.getLast? ≠ some ' ') : reread p ps = p :: ps := by
  have hp := h p List.mem_cons_self
  have hname := hp.name.trimmed_eq_self_iff.mpr (hnames p List.mem_cons_self)
  induction ps generalizing p with
  | nil => rw [reread, hname, hp.value.trimmed_space_iff.mpr (hlast p rfl)]
  | cons q ps ih =>
      have hrest : ∀ q' ∈ q :: ps, Stored q' := fun q' hq' ↦ h q' (List.mem_cons_of_mem p hq')
      have hrestNames : ∀ q' ∈ q :: ps, q'.1.getLast? ≠ some ' ' := fun q' hq' ↦
        hnames q' (List.mem_cons_of_mem p hq')
      have hq := hrest q List.mem_cons_self
      rw [List.getLast?_cons_cons] at hlast
      rw [reread, hname, hp.value.trimmed_space_cr, ih hrest hrestNames hlast hq
        (hq.name.trimmed_eq_self_iff.mpr (hrestNames q List.mem_cons_self))]

/-- A header line has more than one character, and no line ends at the second. -/
theorem OneLine.exists_joinFields_eq_cons {p : Str × Str} (hp : OneLine p)
    (ps : List (Str × Str)) : ∃ c d text, d ≠ '\n' ∧ joinFields p ps = c :: d :: text := by
  have hline : ∃ c d text, d ≠ '\n' ∧ fieldLine p = c :: d :: text := by
    obtain ⟨name, value⟩ := p
    match name, hp.lf_notMem_name with
    | [], _ => exact ⟨_, _, _, by decide, rfl⟩
    | [_], _ => exact ⟨_, _, _, by decide, rfl⟩
    | _ :: d :: _, hlf =>
        refine ⟨_, d, _, ?_, rfl⟩
        rintro rfl
        exact hlf (List.mem_cons_of_mem _ List.mem_cons_self)
  obtain ⟨c, d, text, hd, hcons⟩ := hline
  cases ps with
  | nil => exact ⟨c, d, text, hd, hcons⟩
  | cons q ps =>
      refine ⟨c, d, text ++ (crlf ++ joinFields q ps), hd, ?_⟩
      rw [joinFields, List.append_assoc, hcons]
      rfl

/-- The first empty line is the end of the header lines. -/
theorem find_joinFields {p : Str × Str} {ps : List (Str × Str)}
    (h : ∀ q ∈ p :: ps, OneLine q) (content : Str) :
    find (crlf ++ crlf) (joinFields p ps ++ (crlf ++ crlf ++ content)) =
      some (joinFields p ps).length := by
  have hfind : ∀ text : Str, find (crlf ++ crlf) (fieldLine p ++ (crlf ++ text)) =
      (find (crlf ++ crlf) (crlf ++ text)).map (· + (fieldLine p).length) := fun text ↦
    find_append_of_second_notMem (h p List.mem_cons_self).lf_notMem (by simp [crlf]) '\r' crlf
  induction ps generalizing p with
  | nil =>
      rw [joinFields, List.append_assoc, hfind, ← List.append_assoc, find_self_append,
        Option.map_some, Nat.zero_add]
  | cons q ps ih =>
      have hrest : ∀ q' ∈ q :: ps, OneLine q' := fun q' hq' ↦ h q' (List.mem_cons_of_mem p hq')
      have hq := hrest q List.mem_cons_self
      have hnext := ih hrest fun text ↦
        find_append_of_second_notMem hq.lf_notMem (by simp [crlf]) '\r' crlf
      obtain ⟨c, d, text, hd, hcons⟩ := hq.exists_joinFields_eq_cons ps
      -- The two characters of a single line end are passed over.
      have hskip : find (crlf ++ crlf) (crlf ++ (joinFields q ps ++ (crlf ++ crlf ++ content))) =
          (find (crlf ++ crlf) (joinFields q ps ++ (crlf ++ crlf ++ content))).map (· + 2) := by
        rw [hcons]
        have hne : ('\n' == d) = false := by simpa using Ne.symm hd
        simp [find, crlf, List.isPrefixOf, hne, Option.map_map, Function.comp_def]
      rw [joinFields, List.append_assoc, List.append_assoc, hfind, hskip, hnext]
      simp only [Option.map_some, List.length_append, crlf, List.length_cons, List.length_nil]
      congr 1
      omega

/-- A request whose parts stay apart when it is written. -/
structure HttpRequest.Printable (r : HttpRequest) : Prop where
  path_ne_nil : r.uri.path ≠ []
  path_unspaced : ∀ c ∈ r.uri.path, isSpace c = false
  headers_ne_nil : r.headers.entries ≠ []
  fields : ∀ p ∈ r.headers.entries, OneLine p

/-! ## The start line -/

/-- The start line as the reader cuts it out. -/
def HttpRequest.startLine (r : HttpRequest) : Str :=
  r.method.toString ++ ' ' :: (r.uri.path ++ ' ' :: r.version.toString)

/-- The three words of the start line are read, and the end of the line is met. -/
theorem readStartLine_startLine {r : HttpRequest} (h : r.Printable) :
    readStartLine r.startLine =
      (⟨[], true, false⟩, r.method.toString, r.uri.path, r.version.toString) := by
  have hspace : isSpace ' ' = true := rfl
  simp only [readStartLine, clear_str, HttpRequest.startLine,
    readWord_word (isSpace_method r.method) r.method.toString_ne_nil hspace, readWord_space hspace,
    readWord_word h.path_unspaced h.path_ne_nil hspace,
    readWord_last (isSpace_version r.version) r.version.toString_ne_nil]

theorem cr_notMem_startLine {r : HttpRequest} (h : r.Printable) : '\r' ∉ r.startLine := by
  have hmem : ∀ {s : Str}, (∀ c ∈ s, isSpace c = false) → '\r' ∉ s := by
    intro s hs hcr
    cases hs '\r' hcr
  simpa [HttpRequest.startLine] using ⟨hmem (isSpace_method r.method), hmem h.path_unspaced,
    hmem (isSpace_version r.version)⟩

/-! ## The message -/

/-- The header lines and the body, which are cut out of what follows the start line. -/
def splitHeader (rest : Str) : Str × Str :=
  match find (crlf ++ crlf) rest with
  | none => ([], [])
  | some n => (rest.take n, rest.drop (n + 4))

theorem splitHeader_append {header body : Str}
    (h : find (crlf ++ crlf) (header ++ (crlf ++ crlf ++ body)) = some header.length) :
    splitHeader (header ++ (crlf ++ crlf ++ body)) = (header, body) := by
  have hend : header.length + 4 = (header ++ (crlf ++ crlf)).length := by
    rw [List.length_append]
    rfl
  have hgroup : header ++ (crlf ++ crlf ++ body) = (header ++ (crlf ++ crlf)) ++ body :=
    (List.append_assoc _ _ _).symm
  rw [splitHeader, h]
  refine Prod.ext List.take_left ?_
  show (header ++ (crlf ++ crlf ++ body)).drop (header.length + 4) = body
  rw [hend, hgroup, List.drop_left]

/-- A message without the end of a start line is rejected. -/
theorem splitRequest_of_not_isInfix {s : Str} (h : ¬ crlf <:+: s) :
    splitRequest s = .error (.invalidArgument "Could not find request start line") := by
  rw [splitRequest, findFrom, if_pos (Nat.zero_le _), List.drop_zero, find_eq_none_iff.mpr h]
  rfl

/-- A message is cut at the end of its start line and at its first empty line. -/
theorem splitRequest_append {start : Str} (h : ¬ crlf <:+: start) (rest : Str) :
    splitRequest (start ++ (crlf ++ rest)) = .ok (start, splitHeader rest) := by
  have hfirst : findFrom crlf (start ++ (crlf ++ rest)) 0 = some start.length := by
    have hfind : find crlf (start ++ (crlf ++ rest)) = some start.length :=
      find_append_sep (by decide) h rest
    rw [findFrom, if_pos (Nat.zero_le _), List.drop_zero, hfind]
    rfl
  have hregroup : start ++ (crlf ++ rest) = (start ++ crlf) ++ rest :=
    (List.append_assoc _ _ _).symm
  have hlpos : start.length + 2 = (start ++ crlf).length := by
    rw [List.length_append]
    rfl
  have hsecond : findFrom (crlf ++ crlf) (start ++ (crlf ++ rest)) (start.length + 2) =
      (find (crlf ++ crlf) rest).map (· + (start.length + 2)) := by
    rw [hregroup, hlpos, findFrom_append]
  rw [splitRequest, hfirst]
  simp only [substr_left, hsecond, orOutOfRange, ok_bind]
  cases hfind : find (crlf ++ crlf) rest with
  | none =>
      rw [splitHeader, hfind]
      rfl
  | some n =>
      obtain ⟨⟨header, body, hrest, rfl⟩, -⟩ := exists_of_find hfind
      have hheader : substr (start ++ (crlf ++ rest)) (start.length + 2) (some header.length) =
          some header := by
        rw [hregroup, hlpos, hrest, substr_middle]
      have hmessage : start ++ (crlf ++ rest) =
          (start ++ crlf ++ header ++ (crlf ++ crlf)) ++ body := by
        rw [hrest]
        simp only [List.append_assoc]
      have hend : header.length + (start.length + 2) + 4 =
          (start ++ crlf ++ header ++ (crlf ++ crlf)).length := by
        simp only [List.length_append, crlf, List.length_cons, List.length_nil]
        omega
      have hlength : (start ++ (crlf ++ rest)).length =
          header.length + (start.length + 2) + 4 + body.length := by
        rw [hend, hmessage, List.length_append]
      have hbody : substr (start ++ (crlf ++ rest)) (header.length + (start.length + 2) + 4)
          (some body.length) = some body := by
        have hmiddle := substr_middle (start ++ crlf ++ header ++ (crlf ++ crlf)) body []
        rw [List.append_nil] at hmiddle
        rw [hend, hmessage, hmiddle]
      have hsplit : splitHeader rest = (header, body) := by
        rw [hrest] at hfind ⊢
        exact splitHeader_append hfind
      simp only [Option.map_some, Nat.add_sub_cancel, hheader, hlength, Nat.add_sub_cancel_left,
        hbody, hsplit]
      by_cases hnil : body = []
      · subst hnil
        simp only [ok_bind, List.length_nil, Nat.add_zero, lt_irrefl, if_false]
        rfl
      · have hlt : header.length + (start.length + 2) + 4 <
            header.length + (start.length + 2) + 4 + body.length :=
          Nat.lt_add_of_pos_right (List.length_pos_iff.mpr hnil)
        simp only [if_pos hlt]
        rfl

/-- A message whose header lines are those of some fields. -/
theorem splitRequest_eq {start : Str} (hstart : '\r' ∉ start) {p : Str × Str}
    {ps : List (Str × Str)} (h : ∀ q ∈ p :: ps, OneLine q) {message content : Str}
    (hmessage : message = start ++ (crlf ++ (joinFields p ps ++ (crlf ++ crlf ++ content)))) :
    splitRequest message = .ok (start, joinFields p ps, content) := by
  have hcrlf : ¬ crlf <:+: start := fun hsub ↦ hstart (hsub.subset List.mem_cons_self)
  rw [hmessage, splitRequest_append hcrlf, splitHeader_append (find_joinFields h content)]

/-- What the reader makes of a request that was written. -/
theorem stringToRequest_toString {r : HttpRequest} (h : r.Printable) :
    ∃ p ps, r.headers.entries = p :: ps ∧ stringToRequest r.toString = .ok (HttpRequest.SetContent
      { method := r.method
        uri := r.uri
        headers := OrderedMap.empty.insertAll (reread p ps) } r.content) := by
  obtain ⟨p, ps, hcons⟩ := List.exists_cons_of_ne_nil h.headers_ne_nil
  have hfields : ∀ q ∈ p :: ps, OneLine q := hcons ▸ h.fields
  have hmessage : r.toString =
      r.startLine ++ (crlf ++ (joinFields p ps ++ (crlf ++ crlf ++ r.content))) := by
    rw [HttpRequest.toString, fieldLines, hcons, flatMap_fieldLine, HttpRequest.startLine]
    simp only [List.append_assoc, List.cons_append]
  obtain ⟨vars, s, hloop⟩ := whileGetline_readField (joinFields p ps)
    { method := r.method, uri := r.uri } [] []
  rw [fields_joinFields hfields] at hloop
  have hversion : r.version = .HTTP_1_1 := r.version_eq
  refine ⟨p, ps, hcons, ?_⟩
  simp only [stringToRequest, splitRequest_eq (cr_notMem_startLine h) hfields hmessage, ok_bind,
    readStartLine_startLine h, stringToMethod_toString, stringToVersion_toString, clear_str]
  -- The stream has met the end of the start line, and the version is the supported one.
  rw [if_neg (by decide), if_neg (not_not_intro hversion), hloop, ok_bind]
  rfl

/-! ## The round trip -/

theorem Unspaced.stripped {s : Str} (h : Unspaced s) (hcr : '\r' ∉ s) (hlf : '\n' ∉ s) :
    Stripped s :=
  ⟨hlf, h.1, fun hlast ↦ hcr (List.mem_of_getLast? hlast)⟩

theorem RequestField.stored {p : Str × Str} (h : RequestField p) : Stored p :=
  ⟨h.colon_notMem, h.name_unspaced.stripped h.cr_notMem_name h.lf_notMem_name,
    h.value_unspaced.stripped h.cr_notMem_value h.lf_notMem_value⟩

/-- Nothing is trimmed from header fields without spaces at their ends. -/
theorem reread_of_requestField {p : Str × Str} {ps : List (Str × Str)}
    (h : ∀ q ∈ p :: ps, RequestField q) : reread p ps = p :: ps :=
  reread_eq_self (fun q hq ↦ (h q hq).stored) (fun q hq ↦ (h q hq).name_unspaced.2)
    fun q hq ↦ (h q (List.mem_of_getLast? hq)).value_unspaced.2

theorem HttpRequest.Writable.printable {r : HttpRequest} (h : r.Writable) : r.Printable :=
  ⟨h.path_ne_nil, h.path_unspaced, h.headers_ne_nil, fun p hp ↦ (h.fields p hp).stored.oneLine⟩

/-- A request that can be written unambiguously is read back. -/
theorem HttpRequest.Writable.stringToRequest_toString {r : HttpRequest} (h : r.Writable) :
    stringToRequest r.toString = .ok (r.SetContent r.content) := by
  obtain ⟨p, ps, hcons, hread⟩ := Http.stringToRequest_toString h.printable
  rw [hread, reread_of_requestField (hcons ▸ h.fields), ← hcons, OrderedMap.insertAll_entries]
  apply congrArg Except.ok
  change HttpRequest.mk _ _ _ = HttpRequest.mk _ _ _
  congr 1
  exact HttpMessageInterface.ext rfl rfl

/-- **Requests round trip.**  A request that can be written is read back: with its
method, its path, its content and its header fields, of which `Content-Length` is
set to the length of the content. -/
theorem request_round_trip (r : HttpRequest) (h : r.Writable) :
    ∃ q, stringToRequest r.toString = .ok q ∧ q.method = r.method ∧ q.uri.path = r.uri.path ∧
      q.content = r.content ∧
      q.headers = r.headers.insert "Content-Length".toList (decimal r.content.length) :=
  ⟨r.SetContent r.content, h.stringToRequest_toString, rfl, rfl, rfl, rfl⟩

/-- A request with an empty header value, a colon in another one, and an empty line
in its content. -/
def sampleRequest : HttpRequest :=
  (({ method := .POST, uri := ⟨"/login".toList⟩ : HttpRequest }.SetHeader "Host".toList
    "localhost:80".toList).SetHeader "Accept".toList []).SetContent "a\r\n\r\nb".toList

theorem request_round_trip_sample :
    ∃ q, stringToRequest sampleRequest.toString = .ok q ∧ q.method = .POST ∧
      q.uri.path = "/login".toList ∧ q.content = "a\r\n\r\nb".toList ∧
      q.headers = sampleRequest.headers.insert "Content-Length".toList "6".toList :=
  request_round_trip sampleRequest
    ⟨by decide, isSpace_eq_false_of_all rfl, by decide, by decide⟩

end AsabruCommons.Http
