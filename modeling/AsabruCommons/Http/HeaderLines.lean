import AsabruCommons.Http.Grammar

/-!
# Where header fields come from

The loop over the header lines keeps its variables `key` and `value` from one line to
the next.  `std::getline` clears the variable it reads into only if the stream is good,
which the stream of a line without a colon no longer is when the value is to be read.
So such a line is given the value of the line before it.

The arguments of `SetHeader` are noted by the loop itself (`setHeaderCalls`).  `ownLine_iff`
says for which lines they are a function of the line: those with a colon, and the first one,
before which the value is empty.
-/

namespace AsabruCommons.Http

open IStringStream Lines Search OrderedMap

/-! ## The calls of `SetHeader` -/

/-- The body of the loop over the header lines, where the arguments of `SetHeader` are noted.
They are what the body leaves in its variables. -/
def notedField (vars : (HttpRequest × Str × Str) × List (Str × Str)) (line : Str) :
    Except Exception ((HttpRequest × Str × Str) × List (Str × Str)) := do
  let (request, key, value) ← readField vars.1 line
  return ((request, key, value), vars.2 ++ [(key, value)])

/-- The arguments of `SetHeader` in the loop of `string_to_request`, one call for each header
line. -/
def setHeaderCalls (requestString : Str) : Except Exception (List (Str × Str)) := do
  let (startLine, headerLines, _) ← splitRequest requestString
  let (iss, method, path, _) := readStartLine startLine
  let method ← stringToMethod method
  let request : HttpRequest := { method, uri := ⟨path⟩ }
  let ((_, calls), _) ←
    (iss.clear.str headerLines).whileGetline (fun _ ↦ true) notedField ((request, [], []), [])
  return calls

/-- The variables hold what was passed to `SetHeader` last. -/
theorem fst_of_readField {vars vars' : HttpRequest × Str × Str} {line : Str}
    (h : readField vars line = .ok vars') : vars'.1 = vars.1.SetHeader vars'.2.1 vars'.2.2 := by
  simp only [readField, trim_eq, orOutOfRange, ok_bind] at h
  obtain rfl := Except.ok.inj h
  rfl

/-- The loop is the one of `string_to_request`: noting the calls changes nothing. -/
theorem whileGetline_notedField_fst (iss : IStringStream) (vars : HttpRequest × Str × Str)
    (calls : List (Str × Str)) :
    (iss.whileGetline (fun _ ↦ true) notedField (vars, calls)).map (Prod.map Prod.fst id) =
      iss.whileGetline (fun _ ↦ true) readField vars := by
  refine whileGetline_map (f := Prod.fst) (fun b line ↦ ?_) iss (vars, calls)
  rw [notedField]
  cases readField b.1 line with
  | error e => rfl
  | ok vars' => rfl

theorem notedField_eq {line : Str} (h : '\n' ∉ line) (r : HttpRequest) (key value : Str)
    (calls : List (Str × Str)) :
    notedField ((r, key, value), calls) line =
      .ok ((r.SetHeader (fieldName line) (fieldValue value line), fieldName line,
        fieldValue value line), calls ++ [(fieldName line, fieldValue value line)]) := by
  rw [notedField, readField_eq h]
  rfl

/-- One call is noted for each line. -/
theorem whileGetline_notedField (text : Str) (vars : HttpRequest × Str × Str)
    (calls : List (Str × Str)) :
    ∃ vars' s, (ofStr text).whileGetline (fun _ ↦ true) notedField (vars, calls) =
      .ok ((vars', calls ++ fields vars.2.2 (lines '\n' text)), s) := by
  have hfold : ∀ (ls : List Str) (vars : HttpRequest × Str × Str) (calls : List (Str × Str)),
      ∃ vars', ls.foldl (fun (b : (HttpRequest × Str × Str) × List (Str × Str)) line ↦
        ((b.1.1.SetHeader (fieldName line) (fieldValue b.1.2.2 line), fieldName line,
          fieldValue b.1.2.2 line), b.2 ++ [(fieldName line, fieldValue b.1.2.2 line)]))
            (vars, calls) = (vars', calls ++ fields vars.2.2 ls) := by
    intro ls
    induction ls with
    | nil => exact fun vars calls ↦ ⟨vars, by rw [fields, List.append_nil]; rfl⟩
    | cons line ls ih =>
        intro vars calls
        obtain ⟨vars', hvars⟩ := ih _ _
        refine ⟨vars', hvars.trans ?_⟩
        rw [fields, List.append_assoc, List.singleton_append]
  obtain ⟨vars', hvars⟩ := hfold (lines '\n' text) vars calls
  refine ⟨vars', ⟨[], true, true⟩, ?_⟩
  rw [whileGetline_foldl fun b line hline ↦ notedField_eq hline b.1.1 b.1.2.1 b.1.2.2 b.2, hvars]

/-- The calls that are made for an accepted message. -/
theorem setHeaderCalls_eq {s : Str} {r : HttpRequest} (h : stringToRequest s = .ok r) :
    setHeaderCalls s = .ok (headerFields s) := by
  unfold stringToRequest at h
  unfold setHeaderCalls
  cases hsplit : splitRequest s with
  | error e =>
      rw [hsplit] at h
      cases h
  | ok parts =>
      obtain ⟨start, header, body⟩ := parts
      rw [hsplit, ok_bind] at h
      rw [ok_bind]
      dsimp only at h ⊢
      split at h
      · cases h
      · cases hmethod : stringToMethod (readStartLine start).2.1 with
        | error e =>
            rw [hmethod] at h
            cases h
        | ok method =>
            obtain ⟨vars, iss, hloop⟩ := whileGetline_notedField header
              ({ method := method, uri := ⟨(readStartLine start).2.2.1⟩ }, [], []) []
            have hfields : headerFields s = fields [] (lines '\n' header) := by
              rw [headerFields, headerLines, hsplit]
            rw [ok_bind, clear_str, hloop, ok_bind, hfields]
            rfl

/-- The header fields of the request are what these calls leave, and `Content-Length`. -/
theorem headers_eq_setHeaderCalls {s : Str} {r : HttpRequest} (h : stringToRequest s = .ok r) :
    ∃ calls, setHeaderCalls s = .ok calls ∧ r.headers =
      (empty.insertAll calls).insert contentLength (decimal (messageBody s).length) :=
  ⟨headerFields s, setHeaderCalls_eq h, (stringToRequest_eq_ok h).2.2.2⟩

/-! ## Replacing another line -/

/-- The header lines of the second message are those of the first but for one, which is
not the `i`-th. -/
def ReplacedElsewhere (s s' : Str) (i : Nat) : Prop :=
  ∃ j line, j ≠ i ∧ headerLines s' = (headerLines s).set j line

/-- What is passed to `SetHeader` for the `i`-th line stays what it is when another line is
replaced. -/
def OwnLine (s : Str) (i : Nat) : Prop :=
  ∀ s' r', stringToRequest s' = .ok r' → ReplacedElsewhere s s' i →
    (setHeaderCalls s').map (·[i]?) = (setHeaderCalls s).map (·[i]?)

/-- The same of the fields. -/
theorem ownLine_iff_fields {s : Str} {r : HttpRequest} (h : stringToRequest s = .ok r) {i : Nat} :
    OwnLine s i ↔ ∀ s' r', stringToRequest s' = .ok r' → ReplacedElsewhere s s' i →
      (headerFields s')[i]? = (headerFields s)[i]? := by
  refine forall₂_congr fun s' r' ↦ forall₂_congr fun h' _ ↦ ?_
  rw [setHeaderCalls_eq h, setHeaderCalls_eq h']
  exact ⟨fun heq ↦ Except.ok.inj heq, fun heq ↦ congrArg Except.ok heq⟩

/-! ## The value that is carried along -/

/-- The variable `value` after some lines. -/
def carried (value : Str) (ls : List Str) : Str := ls.foldl fieldValue value

theorem getElem?_fields (value : Str) (ls : List Str) (i : Nat) :
    (fields value ls)[i]? =
      ls[i]?.map fun line ↦ (fieldName line, fieldValue (carried value (ls.take i)) line) := by
  induction ls generalizing value i with
  | nil => rfl
  | cons line ls ih =>
      cases i with
      | zero => rfl
      | succ i => exact ih (fieldValue value line) i

/-- Behind a colon nothing else is read. -/
theorem fieldValue_of_mem {line : Str} (h : ':' ∈ line) (value value' : Str) :
    fieldValue value line = fieldValue value' line := by
  obtain ⟨l, r, rfl, hl⟩ := List.eq_append_cons_of_mem h
  rw [fieldValue, fieldValue, dropWhile_append_cons (ne_delim hl) (by decide)]

theorem fieldValue_of_notMem {line : Str} (h : ':' ∉ line) (value : Str) :
    fieldValue value line = trimmed value := by
  rw [fieldValue, dropWhile_of_forall (ne_delim h)]

/-- The value that a line without a colon has from the line before. -/
theorem fieldValue_carried {ls : List Str} {k : Nat} {line : Str} (hk : k < ls.length)
    (h : ':' ∉ line) (value : Str) :
    fieldValue (carried value (ls.take (k + 1))) line =
      trimmed (fieldValue (carried value (ls.take k)) ls[k]) := by
  rw [fieldValue_of_notMem h, List.take_add_one, List.getElem?_eq_getElem hk, carried,
    List.foldl_append]
  rfl

/-! ## Replacing a line -/

/-- The header lines of an accepted message are the lines of a text that the reader finds
in front of an empty line. -/
theorem exists_header {s : Str} {r : HttpRequest} (h : stringToRequest s = .ok r)
    (hne : headerLines s ≠ []) : ∃ start header body,
      s = start ++ (crlf ++ (header ++ (crlf ++ crlf ++ body))) ∧ ¬ crlf <:+: start ∧
        find (crlf ++ crlf) (header ++ (crlf ++ crlf ++ body)) = some header.length := by
  have hcrlf : crlf <:+: s := by
    by_contra hno
    rw [stringToRequest_of_not_isInfix hno] at h
    cases h
  obtain ⟨start, rest, rfl, hstart⟩ := exists_start hcrlf
  cases hfind : find (crlf ++ crlf) rest with
  | none =>
      refine absurd ?_ hne
      rw [headerLines, splitRequest_append hstart, splitHeader, hfind]
      rfl
  | some n =>
      obtain ⟨⟨header, body, rfl, rfl⟩, -⟩ := exists_of_find hfind
      exact ⟨start, header, body, rfl, hstart, hfind⟩

theorem headerLines_append {start header body : Str} (hstart : ¬ crlf <:+: start)
    (hfind : find (crlf ++ crlf) (header ++ (crlf ++ crlf ++ body)) = some header.length) :
    headerLines (start ++ (crlf ++ (header ++ (crlf ++ crlf ++ body)))) = lines '\n' header := by
  rw [headerLines, splitRequest_append hstart, splitHeader_append hfind]

/-- A line that is not the last one can be replaced by any text without line ends, and
the message is still accepted. -/
theorem exists_replaced {s : Str} {r : HttpRequest} (h : stringToRequest s = .ok r) {k : Nat}
    (hk : k + 1 < (headerLines s).length) {x : Str} (hx : x ≠ []) (hcr : '\r' ∉ x)
    (hlf : '\n' ∉ x) :
    ∃ s' r', stringToRequest s' = .ok r' ∧ headerLines s' = (headerLines s).set k x := by
  have hne : headerLines s ≠ [] := by
    intro hnil
    rw [hnil] at hk
    exact Nat.not_lt_zero _ hk
  obtain ⟨start, header, body, rfl, hstart, hfind⟩ := exists_header h hne
  rw [headerLines_append hstart hfind] at hk ⊢
  obtain ⟨ls, l, t, rfl, rfl, hls, hl⟩ := exists_eq_unlines_append hk
  -- the new line keeps apart the parts in which there was no empty line before
  have hbefore : ¬ crlf ++ crlf <:+: unlines '\n' ls := fun hsub ↦
    not_isInfix_of_find (List.cons_ne_nil _ _) hfind (hsub.trans (List.prefix_append _ _).isInfix)
  have hbehind : find (crlf ++ crlf) ('\n' :: t ++ (crlf ++ crlf ++ body)) =
      some ('\n' :: t).length := by
    refine find_of_find_append (l := unlines '\n' ls ++ l) ?_
    rw [← List.length_append]
    simpa only [List.append_assoc] using hfind
  have hdisj : ∀ c ∈ x, c ∉ crlf ++ crlf := by
    intro c hc hmem
    have hcases : c = '\r' ∨ c = '\n' := by
      rcases List.mem_append.mp hmem with hmem | hmem
      · simpa [crlf] using hmem
      · simpa [crlf] using hmem
    rcases hcases with rfl | rfl
    · exact hcr hc
    · exact hlf hc
  have hfind' : find (crlf ++ crlf)
      ((unlines '\n' ls ++ (x ++ '\n' :: t)) ++ (crlf ++ crlf ++ body)) =
        some (unlines '\n' ls ++ (x ++ '\n' :: t)).length := by
    have hnew := find_append_of_disjoint hbefore hx hdisj hbehind
    simpa only [List.append_assoc, List.length_append] using hnew
  rw [stringToRequest_append hstart] at h
  obtain ⟨r', hr'⟩ : ∃ r', stringToRequest (start ++ (crlf ++ ((unlines '\n' ls ++
      (x ++ '\n' :: t)) ++ (crlf ++ crlf ++ body)))) = .ok r' := by
    rw [stringToRequest_append hstart]
    cases hparse : parseStartLine start with
    | error e =>
        rw [hparse] at h
        cases h
    | ok line => exact ⟨_, rfl⟩
  refine ⟨_, r', hr', ?_⟩
  rw [headerLines_append hstart hfind', lines_unlines_append hls, lines_unlines_append hls,
    lines_line_append hl, lines_line_append hlf, List.set_append_right _ _ (Nat.le_refl _),
    Nat.sub_self]
  rfl

/-! ## Fields that come from their line -/

/-- **Where a header field comes from.**  The name and the value that are passed to `SetHeader`
for a header line depend on no other line exactly if the line has a colon or is the first
one. -/
theorem ownLine_iff {s : Str} {r : HttpRequest} (h : stringToRequest s = .ok r) {i : Nat}
    {line : Str} (hline : (headerLines s)[i]? = some line) :
    OwnLine s i ↔ i = 0 ∨ ':' ∈ line := by
  obtain ⟨hi, -⟩ := List.getElem?_eq_some_iff.mp hline
  rw [ownLine_iff_fields h]
  constructor
  · intro hown
    by_contra hno
    obtain ⟨hzero, hcolon⟩ := not_or.mp hno
    obtain ⟨k, rfl⟩ := Nat.exists_eq_succ_of_ne_zero hzero
    have hne : k ≠ k + 1 := Nat.ne_of_lt (Nat.lt_succ_self k)
    -- the field has whatever value the line before it is given
    have hvalue : ∀ x : Char, x ≠ '\r' → x ≠ '\n' → trimmed [x] = [x] →
        (headerFields s)[k + 1]? = some (fieldName line, [x]) := by
      intro x hcr hlf hx
      obtain ⟨s', r', hok, hlines⟩ := exists_replaced h hi (x := ['a', ':', x])
        (List.cons_ne_nil _ _) (by simpa using hcr.symm) (by simpa using hlf.symm)
      have hlast : fieldValue (carried [] (((headerLines s).set k ['a', ':', x]).take k))
          ['a', ':', x] = trimmed [x] := rfl
      rw [← hown s' r' hok ⟨k, _, hne, hlines⟩, headerFields, hlines, getElem?_fields,
        List.getElem?_set_ne hne, hline, Option.map_some,
        fieldValue_carried (by rw [List.length_set]; omega) hcolon, List.getElem_set_self, hlast,
        hx, hx]
    have hfirst := hvalue 'x' (by decide) (by decide) (by decide)
    have hsecond := hvalue 'y' (by decide) (by decide) (by decide)
    rw [hfirst] at hsecond
    simp at hsecond
  · rintro hcase s' r' - ⟨j, line', hj, hlines⟩
    have hline' : (headerLines s')[i]? = some line := by
      rw [hlines, List.getElem?_set_ne hj, hline]
    rw [headerFields, headerFields, getElem?_fields, getElem?_fields, hline, hline',
      Option.map_some, Option.map_some]
    rcases hcase with rfl | hcolon
    · rfl
    · rw [fieldValue_of_mem hcolon]

/-- A line without a colon, behind one with a value. -/
def carriedMessage : Str := "GET / HTTP/1.1\r\nA: secret\r\nB\r\n\r\n".toList

/-- The field `B` is stored with the value of the field `A`, and with another one if the line of
`A` is another one. -/
theorem not_ownLine_carried :
    (∃ r, stringToRequest carriedMessage = .ok r ∧
      r.headers.find? "B".toList = some "secret".toList) ∧
    (headerLines carriedMessage)[1]? = some "B".toList ∧
    setHeaderCalls carriedMessage =
      .ok [("A".toList, "secret".toList), ("B".toList, "secret".toList)] ∧
    ¬ OwnLine carriedMessage 1 := by
  refine ⟨⟨_, rfl, by decide⟩, by decide, rfl, fun hown ↦ ?_⟩
  have hother := hown "GET / HTTP/1.1\r\nA: other\r\nB\r\n\r\n".toList _ rfl
    ⟨0, "A: other\r".toList, by decide, by decide⟩
  have hcalls : (.ok (some ("B".toList, "other".toList)) : Except Exception _) =
      .ok (some ("B".toList, "secret".toList)) := hother
  exact absurd (Except.ok.inj hcalls) (by decide)

/-- Behind the line without a colon there is one with a colon. -/
def mixedMessage : Str := "GET / HTTP/1.1\r\nA: secret\r\nB\r\nC: x\r\n\r\n".toList

theorem ownLine_iff_mixed :
    OwnLine mixedMessage 0 ∧ ¬ OwnLine mixedMessage 1 ∧ OwnLine mixedMessage 2 := by
  have hfirst : (headerLines mixedMessage)[0]? = some "A: secret\r".toList := by decide
  have hsecond : (headerLines mixedMessage)[1]? = some "B\r".toList := by decide
  have hthird : (headerLines mixedMessage)[2]? = some "C: x".toList := by decide
  refine ⟨(ownLine_iff rfl hfirst).mpr (.inl rfl), fun hown ↦ ?_,
    (ownLine_iff rfl hthird).mpr (by decide)⟩
  exact absurd ((ownLine_iff rfl hsecond).mp hown) (by decide)

end AsabruCommons.Http
