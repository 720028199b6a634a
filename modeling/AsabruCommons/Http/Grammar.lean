import AsabruCommons.Http.Reserialised

/-!
# The grammar of requests

`string_to_request` decides by the start line alone whether it accepts a text: the
header lines and the body can be anything (`stringToRequest_append`).  So the texts it
accepts, and the exceptions it throws on the others, are described by the words of the
first line (`parse_outcome`).

The reader looks for the empty line that ends the header lines behind the end of the
start line.  So it does not see an empty line that follows the start line at once, and
a request without header fields loses its body (`headerless_iff`).
-/

namespace AsabruCommons.Http

open IStringStream Lines Search OrderedMap

/-! ## The start line -/

/-- What is made of a start line: the method and the path. -/
def parseStartLine (start : Str) : Except Exception (HttpMethod × Str) := do
  let method ← stringToMethod ((words start).headD [])
  let version ← stringToVersion ((words start).tail.tail.headD [])
  if version ≠ .HTTP_1_1 then throw (.logicError "HTTP version not supported")
  return (method, (words start).tail.headD [])

/-- The first three words are read, and none where there are fewer.  The stream never
fails without having met its end. -/
theorem readStartLine_eq (start : Str) :
    (readStartLine start).2 = ((words start).headD [], (words start).tail.headD [],
        (words start).tail.tail.headD []) ∧
      (!(readStartLine start).1.good && !(readStartLine start).1.eof) = false := by
  have hlive : Live (ofStr start) := .inl rfl
  obtain ⟨hlive₁, hmethod, hrest₁⟩ := hlive.readWord []
  obtain ⟨hlive₂, hpath, hrest₂⟩ := hlive₁.readWord []
  obtain ⟨hlive₃, hversion, -⟩ := hlive₂.readWord []
  rw [hrest₁] at hpath hrest₂
  rw [hrest₂] at hversion
  constructor
  · simp only [readStartLine, clear_str]
    rw [hmethod, hpath, hversion]
    rfl
  · simp only [readStartLine, clear_str]
    rcases hlive₃ with hgood | ⟨heof, -⟩
    · rw [hgood]
      rfl
    · rw [heof]
      exact Bool.and_false _

/-- What `string_to_request` makes of a text with a start line. -/
theorem stringToRequest_append {start : Str} (h : ¬ crlf <:+: start) (rest : Str) :
    stringToRequest (start ++ (crlf ++ rest)) = (parseStartLine start).map fun line ↦
      HttpRequest.SetContent
        { method := line.1
          uri := ⟨line.2⟩
          headers := empty.insertAll (fields [] (lines '\n' (splitHeader rest).1)) }
        (splitHeader rest).2 := by
  obtain ⟨hwords, hstream⟩ := readStartLine_eq start
  rcases hread : readStartLine start with ⟨iss, method, path, version⟩
  rw [hread] at hwords hstream
  obtain ⟨rfl, hothers⟩ := Prod.mk.inj hwords
  obtain ⟨rfl, rfl⟩ := Prod.mk.inj hothers
  unfold stringToRequest parseStartLine
  rw [splitRequest_append h, ok_bind]
  simp only [hread]
  rw [if_neg (ne_true_of_eq_false hstream)]
  cases stringToMethod ((words start).headD []) with
  | error e => rfl
  | ok method =>
      cases stringToVersion ((words start).tail.tail.headD []) with
      | error e => rfl
      | ok version =>
          by_cases hversion : version = .HTTP_1_1
          · subst hversion
            obtain ⟨vars, iss, hloop⟩ := whileGetline_readField (splitHeader rest).1
              { method := method, uri := ⟨(words start).tail.headD []⟩ } [] []
            simp only [ok_bind, clear_str, ne_eq, not_true_eq_false, if_false, hloop]
            rfl
          · simp only [ok_bind, ne_eq, hversion, not_false_eq_true, if_true]
            rfl

theorem stringToRequest_of_not_isInfix {s : Str} (h : ¬ crlf <:+: s) :
    stringToRequest s = .error (.invalidArgument "Could not find request start line") := by
  rw [stringToRequest, splitRequest_of_not_isInfix h]
  rfl

/-! ## Accepted texts -/

/-- The words of the first line of a text, which is what precedes the first
`"\r\n"`. -/
def FirstLineWords (s : Str) (ws : List Str) : Prop :=
  ∃ start rest, s = start ++ (crlf ++ rest) ∧ ¬ crlf <:+: start ∧ words start = ws

def IsMethod (m : Str) : Prop := ∃ method : HttpMethod, m.map Char.toUpper = method.toString

/-- The first line has three words or more, of which the first is a method and the third
is a version that `P` describes. -/
def VersionLine (P : Str → Prop) (s : Str) : Prop :=
  ∃ m p v others, FirstLineWords s (m :: p :: v :: others) ∧ IsMethod m ∧ P (v.map Char.toUpper)

/-- The texts that are requests. -/
def Grammatical (s : Str) : Prop := VersionLine (· = "HTTP/1.1".toList) s

/-- The texts that are requests of another version. -/
def OtherVersion (s : Str) : Prop := VersionLine (· ∈ otherVersions) s

/-- A text that contains the end of a line has one first line. -/
theorem exists_start {s : Str} (h : crlf <:+: s) :
    ∃ start rest, s = start ++ (crlf ++ rest) ∧ ¬ crlf <:+: start := by
  cases hfind : find crlf s with
  | none => exact absurd h (find_eq_none_iff.mp hfind)
  | some n =>
      obtain ⟨⟨start, rest, rfl, rfl⟩, -⟩ := exists_of_find hfind
      exact ⟨start, rest, rfl, not_isInfix_of_find (List.cons_ne_nil _ _) hfind⟩

theorem firstLineWords_append {start : Str} (h : ¬ crlf <:+: start) {rest : Str}
    {ws : List Str} : FirstLineWords (start ++ (crlf ++ rest)) ws ↔ words start = ws := by
  constructor
  · rintro ⟨start', rest', heq, h', rfl⟩
    have hfind : find crlf (start ++ (crlf ++ rest)) = some start.length :=
      find_append_sep (by decide) h rest
    have hfind' : find crlf (start' ++ (crlf ++ rest')) = some start'.length :=
      find_append_sep (by decide) h' rest'
    rw [heq, hfind'] at hfind
    rw [(List.append_inj heq (Option.some.inj hfind).symm).1]
  · exact fun hws ↦ ⟨start, rest, rfl, h, hws⟩

/-- Where there are fewer than three words the reader takes the empty word, which is
neither a method nor a version. -/
theorem versionLine_append {P : Str → Prop} (hP : ¬ P []) {start : Str}
    (h : ¬ crlf <:+: start) (rest : Str) : VersionLine P (start ++ (crlf ++ rest)) ↔
      IsMethod ((words start).headD []) ∧
        P (((words start).tail.tail.headD []).map Char.toUpper) := by
  simp only [VersionLine, firstLineWords_append h]
  constructor
  · rintro ⟨m, p, v, others, hws, hm, hv⟩
    rw [hws]
    exact ⟨hm, hv⟩
  · rintro ⟨hm, hv⟩
    match hws : words start with
    | [] | [_] | [_, _] =>
        rw [hws] at hv
        exact absurd hv hP
    | m :: p :: v :: others =>
        rw [hws] at hm hv
        exact ⟨m, p, v, others, rfl, hm, hv⟩

/-! ## Outcomes -/

/-- What a function returns or throws if it accepts where `accepted` holds, and throws a
plain `logic_error` where `other` does. -/
structure Outcome {α : Type} (accepted other : Prop) (x : Except Exception α) : Prop where
  ok_iff : (∃ a, x = .ok a) ↔ accepted
  logicError_iff : (∃ what, x = .error (.logicError what)) ↔ other
  invalidArgument_iff : (∃ what, x = .error (.invalidArgument what)) ↔ ¬ accepted ∧ ¬ other
  ne_outOfRange : x ≠ .error .outOfRange

section

variable {α β : Type} {accepted other : Prop}

theorem outcome_ok (h : accepted) (hother : ¬ other) (a : α) :
    Outcome accepted other (.ok a) := by
  constructor <;> simp [h, hother]

theorem outcome_logicError (h : ¬ accepted) (hother : other) (what : String) :
    Outcome (α := α) accepted other (.error (.logicError what)) := by
  constructor <;> simp [h, hother]

theorem outcome_invalidArgument (h : ¬ accepted) (hother : ¬ other) (what : String) :
    Outcome (α := α) accepted other (.error (.invalidArgument what)) := by
  constructor <;> simp [h, hother]

theorem Outcome.map {x : Except Exception α} (h : Outcome accepted other x) (f : α → β) :
    Outcome accepted other (x.map f) := by
  have hok : (∃ b, x.map f = .ok b) ↔ ∃ a, x = .ok a := by
    cases x <;> simp [Except.map]
  have herror : ∀ e, x.map f = .error e ↔ x = .error e := by
    cases x <;> simp [Except.map]
  constructor
  · exact hok.trans h.ok_iff
  · simpa only [herror] using h.logicError_iff
  · simpa only [herror] using h.invalidArgument_iff
  · simpa only [ne_eq, herror] using h.ne_outOfRange

end

/-- The three things that can become of a start line. -/
theorem parseStartLine_outcome (start : Str) : Outcome
    (IsMethod ((words start).headD []) ∧
      ((words start).tail.tail.headD []).map Char.toUpper = "HTTP/1.1".toList)
    (IsMethod ((words start).headD []) ∧
      ((words start).tail.tail.headD []).map Char.toUpper ∈ otherVersions)
    (parseStartLine start) := by
  unfold parseStartLine
  rcases stringToMethod_cases ((words start).headD []) with ⟨method, hm, hmethod⟩ | ⟨hm, hmethod⟩
  · rw [hmethod, ok_bind]
    rcases stringToVersion_cases ((words start).tail.tail.headD []) with
      ⟨hv, hversion⟩ | ⟨hv, version, hne, hversion⟩ | ⟨hv, hother, hversion⟩
    · rw [hversion]
      refine outcome_ok ⟨⟨method, hm⟩, hv⟩ (fun h ↦ ?_) _
      rw [hv] at h
      exact absurd h.2 (by decide)
    · rw [hversion, ok_bind, if_pos hne]
      refine outcome_logicError (fun h ↦ ?_) ⟨⟨method, hm⟩, hv⟩ _
      rw [h.2] at hv
      exact absurd hv (by decide)
    · rw [hversion]
      exact outcome_invalidArgument (fun h ↦ hv h.2) (fun h ↦ hother h.2) _
  · rw [hmethod]
    exact outcome_invalidArgument (fun h ↦ h.1.elim hm) (fun h ↦ h.1.elim hm) _

/-- **The outcome of parsing.**  The reader accepts the texts of the grammar, it throws
a plain `logic_error` on requests of another version and `invalid_argument` on anything
else, and nothing is ever cut out of range. -/
theorem parse_outcome (s : Str) : Outcome (Grammatical s) (OtherVersion s) (stringToRequest s) := by
  by_cases hcrlf : crlf <:+: s
  · obtain ⟨start, rest, rfl, hstart⟩ := exists_start hcrlf
    rw [stringToRequest_append hstart, Grammatical, OtherVersion,
      versionLine_append (by decide) hstart, versionLine_append (by decide) hstart]
    exact (parseStartLine_outcome start).map _
  · have hno : ∀ P, ¬ VersionLine P s := by
      rintro P ⟨m, p, v, others, ⟨start, rest, rfl, -⟩, -⟩
      exact hcrlf ⟨start, rest, List.append_assoc _ _ _⟩
    rw [stringToRequest_of_not_isInfix hcrlf]
    exact outcome_invalidArgument (hno _) (hno _) _

/-! ## Requests without header fields -/

/-- **A body without header fields.**  The body of a request that has no header fields
is kept exactly if it is empty. -/
theorem headerless_iff {start : Str} (hline : ¬ crlf <:+: start)
    (hstart : ∃ r, stringToRequest (start ++ crlf) = .ok r) (b : Str) :
    (∃ r, stringToRequest (start ++ crlf ++ crlf ++ b) = .ok r ∧ r.content = b ∧
      r.headers.entries = [(contentLength, decimal b.length)]) ↔ b = [] := by
  have hmessage : start ++ crlf ++ crlf ++ b = start ++ (crlf ++ (crlf ++ b)) := by
    simp only [List.append_assoc]
  obtain ⟨line, hparse⟩ : ∃ line, parseStartLine start = .ok line := by
    obtain ⟨r, hr⟩ := hstart
    have happend := stringToRequest_append hline []
    rw [List.append_nil, hr] at happend
    cases hparse : parseStartLine start with
    | error e =>
        rw [hparse] at happend
        cases happend
    | ok line => exact ⟨line, rfl⟩
  rw [hmessage, stringToRequest_append hline, hparse]
  constructor
  · rintro ⟨r, hr, hcontent, -⟩
    obtain rfl := Except.ok.inj hr
    have hbody : (splitHeader (crlf ++ b)).2 = b := hcontent
    -- either the body is cut off, or it has lost the empty line
    unfold splitHeader at hbody
    split at hbody
    · exact hbody.symm
    · rename_i n hfind
      have hlength := congrArg List.length hbody
      simp only [List.length_drop, List.length_append, crlf, List.length_cons,
        List.length_nil] at hlength
      exact List.length_eq_zero_iff.mp (by omega)
  · rintro rfl
    exact ⟨_, rfl, rfl, rfl⟩

/-- A body without an empty line is lost. -/
theorem headerless_lost :
    ¬ ∃ r, stringToRequest ("GET / HTTP/1.1".toList ++ crlf ++ crlf ++ "body".toList) = .ok r ∧
      r.content = "body".toList ∧
      r.headers.entries = [(contentLength, decimal "body".toList.length)] := by
  rintro ⟨r, hr, hcontent, -⟩
  obtain rfl := Except.ok.inj hr
  revert hcontent
  decide

/-- No body is kept, and of one with an empty line in it only a part. -/
theorem headerless_iff_body :
    (∃ r, stringToRequest ("GET / HTTP/1.1".toList ++ crlf ++ crlf ++ []) = .ok r ∧
      r.content = [] ∧ r.headers.entries = [(contentLength, decimal 0)]) ∧
    ¬ ∃ r, stringToRequest ("GET / HTTP/1.1".toList ++ crlf ++ crlf ++ "a\r\n\r\nb".toList) =
        .ok r ∧
      r.content = "a\r\n\r\nb".toList ∧
      r.headers.entries = [(contentLength, decimal "a\r\n\r\nb".toList.length)] :=
  ⟨(headerless_iff (by decide) ⟨_, rfl⟩ []).mpr rfl,
    fun h ↦ absurd ((headerless_iff (by decide) ⟨_, rfl⟩ _).mp h) (by decide)⟩

end AsabruCommons.Http
