import AsabruCommons.Http.Response
import AsabruCommons.Precondition

/-!
# Which texts the response parser survives

`string_to_response` can go wrong in two ways.  In a header line with a colon it cuts
the name and the value at their first character that is not a blank, and if there is
none the position is `npos` and `substr` throws.  And the status code is read into a
variable that is not initialised, which keeps its value if the stream has already met
its end: `>>` sets it to zero when it finds something other than a number, but
not when it finds nothing.

`survives_iff` says that nothing else goes wrong.  Its right side speaks of the words
and the lines of the text; `responseHeaderLines` are the lines behind the one in which the
status code ends.
-/

namespace AsabruCommons.Http

open CInt IStringStream Lines Search

/-- The parser returns, and what it returns does not depend on what the variable for the
status code held before. -/
def Survives (responseString : Str) : Prop :=
  ∃ response, ∀ statusCode, stringToResponse statusCode responseString = .ok response

/-! ## The lines with header fields -/

/-- What follows the first word and the white space behind it. -/
def afterVersion (text : Str) : Str :=
  ((text.dropWhile isSpace).dropWhile (!isSpace ·)).dropWhile isSpace

/-- The number of type `int` at the front of a text, and what follows it. -/
def leadingInt (text : Str) : Option (Int × Str) :=
  let number := splitSign text
  let digits := number.2.takeWhile Char.isDigit
  if digits.isEmpty then none
  else (checked (number.1 * Nat.ofDigitChars 10 digits 0)).map
    fun value ↦ (value, number.2.dropWhile Char.isDigit)

/-- The lines between the status line and the body.  There are none if there is no status
code, since then the stream has failed. -/
def responseHeaderLines (text : Str) : List Str :=
  (((leadingInt (afterVersion text)).elim [] fun p ↦ lines '\n' p.2).tail).takeWhile isHeaderLine

/-- Something is left of the text when the blanks in front are dropped. -/
def NotBlank (s : Str) : Prop := ∃ c ∈ s, isBlank c = false

/-- If there is a colon, then something is on either side of the first one. -/
def ReadableField (line : Str) : Prop :=
  ':' ∈ line → NotBlank (line.takeWhile (· ≠ ':')) ∧ NotBlank (line.dropWhile (· ≠ ':')).tail

/-! ## One header line -/

theorem dropBlanks_ok_iff {s : Str} : (∃ t, dropBlanks s = .ok t) ↔ NotBlank s := by
  constructor
  · rintro ⟨t, ht⟩
    by_contra hblank
    have hnone : findFirstNot isBlank s = none := by
      refine List.findIdx?_eq_none_iff.mpr fun c hc ↦ ?_
      by_contra hnot
      exact hblank ⟨c, hc, by simpa using hnot⟩
    rw [dropBlanks, hnone] at ht
    cases ht
  · rintro ⟨c, hc, hblank⟩
    refine ⟨_, dropBlanks_eq fun hnil ↦ ?_⟩
    have hall := List.dropWhile_eq_nil_iff.mp hnil c hc
    rw [hblank] at hall
    cases hall

/-- The name and the value of a field are cut out without trouble. -/
theorem readHeader_append {name : Str} (hname : ':' ∉ name) (value : Str) (r : HttpResponse) :
    readHeader r (name ++ ':' :: value) =
      (dropBlanks name).bind fun key ↦ (dropBlanks value).bind fun v ↦
        .ok (r.SetHeader key v) := by
  have hkey : substr (name ++ ':' :: value) 0 (some name.length) = some name := substr_left _ _
  have hvalue : substr (name ++ ':' :: value) (name.length + 1) none = some value := by
    have hright := substr_right (name ++ [':']) value
    rwa [List.append_assoc, List.length_append] at hright
  simp only [readHeader, find_singleton_append hname, hkey, hvalue, orOutOfRange, ok_bind]
  rfl

/-- Whether a line is read does not depend on what was read before it. -/
theorem readHeader_ok_iff (r : HttpResponse) (line : Str) :
    (∃ q, readHeader r line = .ok q) ↔ ReadableField line := by
  by_cases hcolon : ':' ∈ line
  · obtain ⟨name, value, rfl, hname⟩ := List.eq_append_cons_of_mem hcolon
    have hself : decide (':' ≠ ':') = false := by simp
    rw [readHeader_append hname, ReadableField, forall_prop_of_true hcolon,
      takeWhile_append_cons (ne_delim hname) hself, dropWhile_append_cons (ne_delim hname) hself,
      List.tail_cons, ← dropBlanks_ok_iff, ← dropBlanks_ok_iff]
    cases hkey : dropBlanks name with
    | error e => simp [Except.bind]
    | ok key =>
        cases hvalue : dropBlanks value with
        | error e => simp [Except.bind]
        | ok v => simp [Except.bind]
  · refine iff_of_true ⟨r, ?_⟩ fun hmem ↦ absurd hmem hcolon
    rw [readHeader, find_singleton_of_notMem hcolon]

/-! ## The status line -/

theorem readWord_rest (text word : Str) : ((ofStr text).readWord word).1.rest =
    (text.dropWhile isSpace).dropWhile (!isSpace ·) := by
  have hgood : (ofStr text).good = true := rfl
  rw [readWord, if_pos hgood]
  dsimp only [ofStr]
  cases text.dropWhile isSpace with
  | nil => rfl
  | cons c rest => rfl

/-- Without anything left to read the variable keeps its value. -/
theorem readInt_of_words_nil {s : IStringStream} (h : words s.rest = []) (n : Int) :
    (s.readInt n).2 = n ∧ (s.readInt n).1.good = false := by
  rw [readInt]
  cases hgood : s.good with
  | false => exact ⟨rfl, by simp [good]⟩
  | true =>
      rw [words_eq_nil_iff] at h
      simp [h, good]

/-- With something left to read the variable is assigned, and lines are left if it was a
number. -/
theorem readInt_of_good {s : IStringStream} (hgood : s.good = true)
    (h : s.rest.dropWhile isSpace ≠ []) :
    ∃ t code, (∀ n, s.readInt n = (t, code)) ∧ t.remainingLines =
      (leadingInt (s.rest.dropWhile isSpace)).elim [] fun p ↦ lines '\n' p.2 := by
  have hempty : (s.rest.dropWhile isSpace).isEmpty = false := by simpa using h
  have hstuck : ∀ rest : Str, remainingLines ⟨rest, rest.isEmpty, true⟩ = [] := fun rest ↦ by
    simp [remainingLines, good]
  simp only [readInt, hgood, hempty, leadingInt, if_true, Bool.false_eq_true, if_false]
  split
  case isTrue => exact ⟨_, _, fun n ↦ rfl, hstuck _⟩
  case isFalse =>
    split
    case isTrue hmin =>
      refine ⟨_, _, fun n ↦ rfl, (hstuck _).trans ?_⟩
      rw [checked, if_neg fun hrange ↦ absurd hmin (Int.not_lt.mpr hrange.1)]
      rfl
    case isFalse hmin =>
      split
      case isTrue hmax =>
        refine ⟨_, _, fun n ↦ rfl, (hstuck _).trans ?_⟩
        rw [checked, if_neg fun hrange ↦ absurd hmax (Int.not_lt.mpr hrange.2)]
        rfl
      case isFalse hmax =>
        refine ⟨_, _, fun n ↦ rfl, ?_⟩
        rw [checked_of_mem (Int.not_lt.mp hmin) (Int.not_lt.mp hmax), Option.map_some,
          Option.elim_some]
        cases (splitSign (s.rest.dropWhile isSpace)).2.dropWhile Char.isDigit with
        | nil => rfl
        | cons c rest => rfl

/-! ## The parser -/

/-- What the parser does from the status code on depends on the stream that is left and on
the value of the variable. -/
theorem stringToResponse_of_readInt (t : IStringStream) :
    ∃ body, ∀ n s code, ((ofStr s).readWord []).1.readInt n = (t, code) →
      stringToResponse n s =
        ((t.remainingLines.tail.takeWhile isHeaderLine).foldlM readHeader
          { statusCode := ⟨code⟩ }).map (·.SetContent body) := by
  obtain ⟨t', hheaders⟩ := whileGetline_foldlM isHeaderLine readHeader (t.getline '\n' []).1
  obtain ⟨t'', hlines⟩ := whileGetline_foldlM (fun _ ↦ true)
    (fun body line ↦ (.ok (appendLine body line) : Except Exception Str)) t'
  obtain ⟨body, hbody⟩ := (foldlM_ok_iff (f := fun body line ↦
    (.ok (appendLine body line) : Except Exception Str)) (P := fun _ ↦ True)
    (fun _ _ ↦ iff_of_true ⟨_, rfl⟩ trivial) (t'.remainingLines.takeWhile fun _ ↦ true) []).mpr
    fun _ _ ↦ trivial
  rw [remainingLines_getline] at hheaders
  refine ⟨body, fun n s code hread ↦ ?_⟩
  simp only [stringToResponse, hread, hheaders]
  cases (t.remainingLines.tail.takeWhile isHeaderLine).foldlM readHeader
      { statusCode := ⟨code⟩ } with
  | error e => rfl
  | ok response =>
      simp only [Except.map, ok_bind, hlines, hbody]
      rfl

/-- A text with a status code, or with something in its place. -/
theorem stringToResponse_of_words {s : Str} (h : 2 ≤ (words s).length) :
    ∃ body code, ∀ n, stringToResponse n s =
      ((responseHeaderLines s).foldlM readHeader { statusCode := ⟨code⟩ }).map
        (·.SetContent body) := by
  have hlive := Live.readWord (s := ofStr s) (.inl rfl) []
  have hne : words ((ofStr s).readWord []).1.rest ≠ [] := by
    intro hnil
    rw [hlive.2.2] at hnil
    have hlen := congrArg List.length hnil
    change (words s).tail.length = 0 at hlen
    rw [List.length_tail] at hlen
    omega
  have hgood : ((ofStr s).readWord []).1.good = true := by
    rcases hlive.1 with hgood | ⟨-, hnil⟩
    · exact hgood
    · exact absurd hnil hne
  obtain ⟨t, code, hread, hlines⟩ := readInt_of_good hgood (mt words_eq_nil_iff.mpr hne)
  obtain ⟨body, hbody⟩ := stringToResponse_of_readInt t
  refine ⟨body, code, fun n ↦ ?_⟩
  rw [hbody n s code (hread n), hlines, readWord_rest]
  rfl

/-- In a text that is too short the variable keeps its value. -/
theorem stringToResponse_of_words_lt {s : Str} (h : (words s).length < 2) (n : Int) :
    ∃ r, stringToResponse n s = .ok r ∧ r.statusCode = ⟨n⟩ := by
  have hlive := Live.readWord (s := ofStr s) (.inl rfl) []
  have hnil : words ((ofStr s).readWord []).1.rest = [] := by
    rw [hlive.2.2]
    apply List.length_eq_zero_iff.mp
    change (words s).tail.length = 0
    rw [List.length_tail]
    omega
  obtain ⟨hvalue, hstuck⟩ := readInt_of_words_nil hnil n
  obtain ⟨body, hbody⟩ := stringToResponse_of_readInt (((ofStr s).readWord []).1.readInt n).1
  have hlines : (((ofStr s).readWord []).1.readInt n).1.remainingLines = [] := by
    rw [remainingLines, hstuck]
    rfl
  have hread := hbody n s n (Prod.ext rfl hvalue)
  rw [hlines] at hread
  exact ⟨HttpResponse.SetContent { statusCode := ⟨n⟩ } body, hread, rfl⟩

/-- **Survival.**  The parser survives a text exactly when there are two words in it and
every header line with a colon has something on either side of the first one. -/
theorem survives_iff (s : Str) :
    Survives s ↔ 2 ≤ (words s).length ∧ ∀ line ∈ responseHeaderLines s, ReadableField line := by
  by_cases hwords : 2 ≤ (words s).length
  · obtain ⟨body, code, hread⟩ := stringToResponse_of_words hwords
    rw [← foldlM_ok_iff readHeader_ok_iff (responseHeaderLines s) { statusCode := ⟨code⟩ }]
    constructor
    · rintro ⟨response, hresponse⟩
      refine ⟨hwords, ?_⟩
      have hok := (hread 0).symm.trans (hresponse 0)
      cases hloop : (responseHeaderLines s).foldlM readHeader { statusCode := ⟨code⟩ } with
      | error e =>
          rw [hloop] at hok
          cases hok
      | ok r => exact ⟨r, rfl⟩
    · rintro ⟨-, r, hr⟩
      refine ⟨r.SetContent body, fun n ↦ ?_⟩
      rw [hread n, hr]
      rfl
  · refine iff_of_false ?_ fun h ↦ hwords h.1
    rintro ⟨response, hresponse⟩
    -- two values of the variable give two responses
    have hcode : ∀ n, response.statusCode = ⟨n⟩ := by
      intro n
      obtain ⟨r, hr, hcode⟩ := stringToResponse_of_words_lt (Nat.not_le.mp hwords) n
      obtain rfl := Except.ok.inj ((hresponse n).symm.trans hr)
      exact hcode
    exact absurd ((hcode 0).symm.trans (hcode 1)) (by decide)

/-- A field without a value throws, and an empty text leaves the status code to chance. -/
theorem not_survives :
    ¬ Survives "HTTP/1.1 200 OK\nX:\n".toList ∧ ¬ Survives [] := by
  constructor
  · rintro ⟨response, h⟩
    have hthrow : stringToResponse 0 "HTTP/1.1 200 OK\nX:\n".toList = .error .outOfRange := by
      decide
    cases hthrow.symm.trans (h 0)
  · rintro ⟨response, h⟩
    have hzero : (stringToResponse 0 []).map (·.statusCode.value) = .ok 0 := by decide
    have hone : (stringToResponse 1 []).map (·.statusCode.value) = .ok 1 := by decide
    rw [h 0] at hzero
    rw [h 1] at hone
    exact absurd (Except.ok.inj (hzero.symm.trans hone)) (by decide)

end AsabruCommons.Http
