import AsabruCommons.Basic
import AsabruCommons.IStringStream
import AsabruCommons.OrderedMap
import AsabruCommons.Search
import Mathlib.Data.Char
import Mathlib.Data.List.Lex

/-!
# HTTP messages

The data of an HTTP message: methods, versions, status codes, and the part that
requests and responses have in common, with the conversions of `http_message.cpp`
that do not concern whole messages.

The header fields are a `std::map`, so they are kept in the order of their names.
No member function assigns `version_`, so every message has the version its
constructor gives it; that is a field of the structure.
-/

namespace AsabruCommons.Http

open IStringStream Search

/-- What the functions of this component throw.  `outOfRange` is thrown by the
members of `std::string` that cut at a position. -/
inductive Exception where
  | invalidArgument (what : String)
  | logicError (what : String)
  | outOfRange
deriving DecidableEq, Repr

/-- A member of `std::string` that cuts throws where it has no result. -/
def orOutOfRange {α : Type} : Option α → Except Exception α
  | none => .error .outOfRange
  | some a => .ok a

/-- What follows a step that throws nothing. -/
@[simp] theorem ok_bind {α β : Type} (a : α) (f : α → Except Exception β) :
    (Except.ok a >>= f) = f a := rfl

/-! ## Methods, versions and status codes -/

inductive HttpMethod where
  | GET | HEAD | POST | PUT | DELETE | CONNECT | OPTIONS | TRACE | PATCH
deriving DecidableEq, Repr

inductive HttpVersion where
  | HTTP_0_9 | HTTP_1_0 | HTTP_1_1 | HTTP_2_0
deriving DecidableEq, Repr

/-- An `enum class` over `int`.  A `static_cast` can give it any value, listed or
not. -/
structure HttpStatusCode where
  value : Int
deriving DecidableEq, Repr

namespace HttpStatusCode

def Continue : HttpStatusCode := ⟨100⟩
def SwitchingProtocols : HttpStatusCode := ⟨101⟩
def EarlyHints : HttpStatusCode := ⟨103⟩
def Ok : HttpStatusCode := ⟨200⟩
def Created : HttpStatusCode := ⟨201⟩
def Accepted : HttpStatusCode := ⟨202⟩
def NonAuthoritativeInformation : HttpStatusCode := ⟨203⟩
def NoContent : HttpStatusCode := ⟨204⟩
def ResetContent : HttpStatusCode := ⟨205⟩
def PartialContent : HttpStatusCode := ⟨206⟩
def MultipleChoices : HttpStatusCode := ⟨300⟩
def MovedPermanently : HttpStatusCode := ⟨301⟩
def Found : HttpStatusCode := ⟨302⟩
def NotModified : HttpStatusCode := ⟨304⟩
def BadRequest : HttpStatusCode := ⟨400⟩
def Unauthorized : HttpStatusCode := ⟨401⟩
def Forbidden : HttpStatusCode := ⟨403⟩
def NotFound : HttpStatusCode := ⟨404⟩
def MethodNotAllowed : HttpStatusCode := ⟨405⟩
def RequestTimeout : HttpStatusCode := ⟨408⟩
def ImATeapot : HttpStatusCode := ⟨418⟩
def InternalServerError : HttpStatusCode := ⟨500⟩
def NotImplemented : HttpStatusCode := ⟨501⟩
def BadGateway : HttpStatusCode := ⟨502⟩
def ServiceUnvailable : HttpStatusCode := ⟨503⟩
def GatewayTimeout : HttpStatusCode := ⟨504⟩
def HttpVersionNotSupported : HttpStatusCode := ⟨505⟩

/-- The enumerators. -/
def listed : List HttpStatusCode :=
  [Continue, SwitchingProtocols, EarlyHints, Ok, Created, Accepted, NonAuthoritativeInformation,
    NoContent, ResetContent, PartialContent, MultipleChoices, MovedPermanently, Found, NotModified,
    BadRequest, Unauthorized, Forbidden, NotFound, MethodNotAllowed, RequestTimeout, ImATeapot,
    InternalServerError, NotImplemented, BadGateway, ServiceUnvailable, GatewayTimeout,
    HttpVersionNotSupported]

/-- The reason phrase, which is empty for all but thirteen of the codes. -/
def toString (code : HttpStatusCode) : Str :=
  if code = Continue then "Continue".toList
  else if code = Ok then "OK".toList
  else if code = Accepted then "Accepted".toList
  else if code = MovedPermanently then "Moved Permanently".toList
  else if code = Found then "Found".toList
  else if code = BadRequest then "Bad Request".toList
  else if code = Forbidden then "Forbidden".toList
  else if code = NotFound then "Not Found".toList
  else if code = MethodNotAllowed then "Method Not Allowed".toList
  else if code = ImATeapot then "I'm a Teapot".toList
  else if code = InternalServerError then "Internal Server Error".toList
  else if code = NotImplemented then "Not Implemented".toList
  else if code = BadGateway then "Bad Gateway".toList
  else []

end HttpStatusCode

def HttpMethod.toString : HttpMethod → Str
  | GET => "GET".toList
  | HEAD => "HEAD".toList
  | POST => "POST".toList
  | PUT => "PUT".toList
  | DELETE => "DELETE".toList
  | CONNECT => "CONNECT".toList
  | OPTIONS => "OPTIONS".toList
  | TRACE => "TRACE".toList
  | PATCH => "PATCH".toList

def HttpVersion.toString : HttpVersion → Str
  | HTTP_0_9 => "HTTP/0.9".toList
  | HTTP_1_0 => "HTTP/1.0".toList
  | HTTP_1_1 => "HTTP/1.1".toList
  | HTTP_2_0 => "HTTP/2.0".toList

def stringToMethod (methodString : Str) : Except Exception HttpMethod :=
  let methodStringUppercase := methodString.map Char.toUpper
  if methodStringUppercase = "GET".toList then .ok .GET
  else if methodStringUppercase = "HEAD".toList then .ok .HEAD
  else if methodStringUppercase = "POST".toList then .ok .POST
  else if methodStringUppercase = "PUT".toList then .ok .PUT
  else if methodStringUppercase = "DELETE".toList then .ok .DELETE
  else if methodStringUppercase = "CONNECT".toList then .ok .CONNECT
  else if methodStringUppercase = "OPTIONS".toList then .ok .OPTIONS
  else if methodStringUppercase = "TRACE".toList then .ok .TRACE
  else if methodStringUppercase = "PATCH".toList then .ok .PATCH
  else .error (.invalidArgument "Unexpected HTTP method")

def stringToVersion (versionString : Str) : Except Exception HttpVersion :=
  let versionStringUppercase := versionString.map Char.toUpper
  if versionStringUppercase = "HTTP/0.9".toList then .ok .HTTP_0_9
  else if versionStringUppercase = "HTTP/1.0".toList then .ok .HTTP_1_0
  else if versionStringUppercase = "HTTP/1.1".toList then .ok .HTTP_1_1
  else if versionStringUppercase = "HTTP/2".toList ∨ versionStringUppercase = "HTTP/2.0".toList then
    .ok .HTTP_2_0
  else .error (.invalidArgument "Unexpected HTTP version")

/-- A method is recognised in the form in which it is written. -/
theorem stringToMethod_toString (m : HttpMethod) : stringToMethod m.toString = .ok m := by
  cases m <;> rfl

theorem stringToVersion_toString (v : HttpVersion) : stringToVersion v.toString = .ok v := by
  cases v <;> rfl

/-- Methods are recognised in upper or lower case. -/
theorem stringToMethod_cases (s : Str) :
    (∃ m : HttpMethod, s.map Char.toUpper = m.toString ∧ stringToMethod s = .ok m) ∨
      (∀ m : HttpMethod, s.map Char.toUpper ≠ m.toString) ∧
        stringToMethod s = .error (.invalidArgument "Unexpected HTTP method") := by
  by_cases h : ∃ m : HttpMethod, s.map Char.toUpper = m.toString
  · obtain ⟨m, hm⟩ := h
    refine .inl ⟨m, hm, ?_⟩
    simp only [stringToMethod, hm]
    cases m <;> rfl
  · push Not at h
    refine .inr ⟨h, ?_⟩
    exact (if_neg (h .GET)).trans <| (if_neg (h .HEAD)).trans <| (if_neg (h .POST)).trans <|
      (if_neg (h .PUT)).trans <| (if_neg (h .DELETE)).trans <| (if_neg (h .CONNECT)).trans <|
      (if_neg (h .OPTIONS)).trans <| (if_neg (h .TRACE)).trans (if_neg (h .PATCH))

/-- The versions that are recognised and not supported, as they may be written. -/
def otherVersions : List Str :=
  ["HTTP/0.9".toList, "HTTP/1.0".toList, "HTTP/2".toList, "HTTP/2.0".toList]

theorem stringToVersion_cases (s : Str) :
    (s.map Char.toUpper = HttpVersion.HTTP_1_1.toString ∧ stringToVersion s = .ok .HTTP_1_1) ∨
      (s.map Char.toUpper ∈ otherVersions ∧ ∃ v ≠ .HTTP_1_1, stringToVersion s = .ok v) ∨
      s.map Char.toUpper ≠ HttpVersion.HTTP_1_1.toString ∧ s.map Char.toUpper ∉ otherVersions ∧
        stringToVersion s = .error (.invalidArgument "Unexpected HTTP version") := by
  by_cases hsupported : s.map Char.toUpper = HttpVersion.HTTP_1_1.toString
  · refine .inl ⟨hsupported, ?_⟩
    simp only [stringToVersion, hsupported]
    rfl
  by_cases hother : s.map Char.toUpper ∈ otherVersions
  · refine .inr (.inl ⟨hother, ?_⟩)
    simp only [stringToVersion]
    rcases List.mem_cons.mp hother with h | hother
    · rw [h]
      exact ⟨.HTTP_0_9, nofun, rfl⟩
    rcases List.mem_cons.mp hother with h | hother
    · rw [h]
      exact ⟨.HTTP_1_0, nofun, rfl⟩
    rcases List.mem_cons.mp hother with h | hother
    · rw [h]
      exact ⟨.HTTP_2_0, nofun, rfl⟩
    · rw [List.mem_singleton.mp hother]
      exact ⟨.HTTP_2_0, nofun, rfl⟩
  · refine .inr (.inr ⟨hsupported, hother, ?_⟩)
    simp only [otherVersions, List.mem_cons, List.not_mem_nil, or_false, not_or] at hother
    obtain ⟨h₀, h₁, h₂⟩ := hother
    exact (if_neg h₀).trans <| (if_neg h₁).trans <| (if_neg hsupported).trans <|
      if_neg (not_or.mpr h₂)

/-- The writer puts methods and versions between white space. -/
theorem isSpace_method (m : HttpMethod) : ∀ c ∈ m.toString, isSpace c = false := by
  apply isSpace_eq_false_of_all
  cases m <;> rfl

theorem isSpace_version (v : HttpVersion) : ∀ c ∈ v.toString, isSpace c = false := by
  apply isSpace_eq_false_of_all
  cases v <;> rfl

theorem HttpMethod.toString_ne_nil (m : HttpMethod) : m.toString ≠ [] := by
  cases m <;> exact List.cons_ne_nil _ _

theorem HttpVersion.toString_ne_nil (v : HttpVersion) : v.toString ≠ [] := by
  cases v <;> exact List.cons_ne_nil _ _

/-! ## The common part of requests and responses -/

/-- `std::to_string` of a length -/
def decimal (n : Nat) : Str := Nat.toDigits 10 n

structure HttpMessageInterface where
  version : HttpVersion := .HTTP_1_1
  headers : OrderedMap Str Str := .empty
  content : Str := []
  version_eq : version = .HTTP_1_1 := by rfl
deriving DecidableEq

namespace HttpMessageInterface

def SetHeader (m : HttpMessageInterface) (key value : Str) : HttpMessageInterface :=
  { m with headers := m.headers.insert key value }

def SetContentLength (m : HttpMessageInterface) : HttpMessageInterface :=
  m.SetHeader "Content-Length".toList (decimal m.content.length)

def SetContent (m : HttpMessageInterface) (content : Str) : HttpMessageInterface :=
  SetContentLength { m with content := content }

/-- Messages differ in their header fields or in their content. -/
theorem ext {m n : HttpMessageInterface} (hheaders : m.headers = n.headers)
    (hcontent : m.content = n.content) : m = n := by
  obtain ⟨_, _, _, hm⟩ := m
  obtain ⟨_, _, _, hn⟩ := n
  cases hm
  cases hn
  cases hheaders
  cases hcontent
  rfl

end HttpMessageInterface

/-! ## Header fields as text -/

/-- `"\r\n"` -/
def crlf : Str := ['\r', '\n']

/-- `p.first << ": " << p.second` -/
def fieldLine (p : Str × Str) : Str := p.1 ++ ':' :: ' ' :: p.2

/-- The loop over the header fields, which both serialisers have. -/
def fieldLines (headers : OrderedMap Str Str) : Str :=
  headers.entries.flatMap fun p ↦ fieldLine p ++ crlf

/-! ## Trimming -/

def isBlank (c : Char) : Bool := c = ' ' || c = '\t'

/-- The six erasures of `trim`.  The last is announced as removing carriage
returns, but it looks for newlines again. -/
def trim (str : Str) : Option Str := do
  let str ← erase str (afterLast (findLastNot (· = ' ') str)) none
  let str ← erase str (afterLast (findLastNot (· = '\n') str)) none
  let str ← erase str (afterLast (findLastNot (· = '\r') str)) none
  let str ← erase str 0 (findFirstNot (· = ' ') str)
  let str ← erase str 0 (findFirstNot (· = '\n') str)
  erase str 0 (findFirstNot (· = '\n') str)

/-- What `trim` leaves. -/
def trimmed (str : Str) : Str :=
  ((((str.rdropWhile (· = ' ')).rdropWhile (· = '\n')).rdropWhile (· = '\r')).dropWhile
    (· = ' ')).dropWhile (· = '\n')

/-- No position is past the end, and each erasure drops a run at one end. -/
theorem trim_eq (str : Str) : trim str = some (trimmed str) := by
  simp only [trim, trimmed, erase_afterLast, erase_findFirstNot, Option.bind_eq_bind,
    Option.bind_some, List.dropWhile_idempotent]

theorem isInfix_trimmed (str : Str) : trimmed str <:+: str := by
  have hend : ∀ (s : Str) (p : Char → Bool), s.rdropWhile p <:+: s := fun s p ↦
    (List.rdropWhile_prefix p s).isInfix
  have hfront : ∀ (s : Str) (p : Char → Bool), s.dropWhile p <:+: s := fun s p ↦
    (List.dropWhile_suffix p).isInfix
  exact (hfront _ _).trans <| (hfront _ _).trans <| (hend _ _).trans <| (hend _ _).trans (hend _ _)

theorem notMem_trimmed {c : Char} {str : Str} (h : c ∉ str) : c ∉ trimmed str := fun hc ↦
  h ((isInfix_trimmed str).subset hc)

/-- Whatever `trim` changes becomes shorter. -/
theorem length_trimmed_lt {str : Str} (h : trimmed str ≠ str) :
    (trimmed str).length < str.length := by
  refine lt_of_le_of_ne (isInfix_trimmed str).length_le fun hlen ↦ ?_
  exact h ((isInfix_trimmed str).eq_of_length hlen)

theorem ne_of_mem_getLast? {s : Str} {d : Char} (h : d ∉ s) :
    ∀ c ∈ s.getLast?, decide (c = d) = false := by
  intro c hc
  exact decide_eq_false fun heq ↦ h (heq ▸ List.mem_of_getLast? hc)

theorem ne_of_mem_head? {s : Str} {d : Char} (h : d ∉ s) :
    ∀ c ∈ s.head?, decide (c = d) = false := by
  intro c hc
  exact decide_eq_false fun heq ↦ h (heq ▸ List.mem_of_head? hc)

/-- What is known of a part of a line that has been trimmed.  It may still end in
spaces, namely those in front of a carriage return. -/
structure Stripped (s : Str) : Prop where
  lf_notMem : '\n' ∉ s
  head : s.head? ≠ some ' '
  last : s.getLast? ≠ some '\r'

/-- Only three of the erasures matter on a line. -/
theorem trimmed_of_lf_notMem {s : Str} (h : '\n' ∉ s) :
    trimmed s = ((s.rdropWhile (· = ' ')).rdropWhile (· = '\r')).dropWhile (· = ' ') := by
  have hlast : '\n' ∉ s.rdropWhile (· = ' ') := fun hc ↦
    h ((List.rdropWhile_prefix _ s).subset hc)
  have hfirst : '\n' ∉ ((s.rdropWhile (· = ' ')).rdropWhile (· = '\r')).dropWhile (· = ' ') :=
    fun hc ↦ hlast ((List.rdropWhile_prefix _ _).subset ((List.dropWhile_suffix _).subset hc))
  rw [trimmed, rdropWhile_of_getLast? (ne_of_mem_getLast? hlast),
    dropWhile_of_head? (ne_of_mem_head? hfirst)]

theorem stripped_trimmed {s : Str} (h : '\n' ∉ s) : Stripped (trimmed s) := by
  refine ⟨notMem_trimmed h, ?_, ?_⟩
  · rw [trimmed_of_lf_notMem h]
    intro hhead
    have hne := List.head?_dropWhile_not (fun c ↦ decide (c = ' '))
      ((s.rdropWhile (· = ' ')).rdropWhile (· = '\r'))
    rw [hhead] at hne
    simp at hne
  · rw [trimmed_of_lf_notMem h]
    intro hlast
    obtain ⟨t, ht⟩ := List.dropWhile_suffix (fun c ↦ decide (c = ' '))
      (l := (s.rdropWhile (· = ' ')).rdropWhile (· = '\r'))
    have hlast' : ((s.rdropWhile (· = ' ')).rdropWhile (· = '\r')).getLast? = some '\r' := by
      rw [← ht, List.getLast?_append, hlast]
      rfl
    have hne : (s.rdropWhile (· = ' ')).rdropWhile (· = '\r') ≠ [] := by
      intro hnil
      rw [hnil] at hlast'
      cases hlast'
    have hnot := List.rdropWhile_last_not (fun c ↦ decide (c = '\r')) _ hne
    rw [List.getLast?_eq_some_getLast hne] at hlast'
    rw [Option.some.inj hlast'] at hnot
    simp at hnot

/-- A part of a line that has been trimmed is trimmed again without effect, unless
it ends in a space. -/
theorem Stripped.trimmed_eq_self_iff {s : Str} (h : Stripped s) :
    trimmed s = s ↔ s.getLast? ≠ some ' ' := by
  constructor
  · intro heq hlast
    have hne : s ≠ [] := by
      rintro rfl
      cases hlast
    have hsp : s = s.dropLast ++ [' '] := by
      rw [List.getLast?_eq_some_getLast hne] at hlast
      rw [← Option.some.inj hlast, List.dropLast_append_getLast hne]
    have hlen : (s.rdropWhile (· = ' ')).length < s.length := by
      conv_lhs => rw [hsp, List.rdropWhile_concat_pos (fun c ↦ decide (c = ' ')) _ _ rfl]
      have hle := (List.rdropWhile_prefix (fun c ↦ decide (c = ' ')) s.dropLast).length_le
      have hpos := List.length_pos_iff.mpr hne
      rw [List.length_dropLast] at hle
      omega
    rw [trimmed_of_lf_notMem h.lf_notMem] at heq
    have hle : s.length ≤ (s.rdropWhile (· = ' ')).length := by
      conv_lhs => rw [← heq]
      exact le_trans (List.dropWhile_suffix _).length_le (List.rdropWhile_prefix _ _).length_le
    omega
  · intro hlast
    have hends : ∀ {c d : Char}, s.getLast? ≠ some d → c ∈ s.getLast? → decide (c = d) = false :=
      fun hd hc ↦ decide_eq_false fun heq ↦ hd (heq ▸ hc)
    rw [trimmed_of_lf_notMem h.lf_notMem, rdropWhile_of_getLast? fun c hc ↦ hends hlast hc,
      rdropWhile_of_getLast? fun c hc ↦ hends h.last hc, dropWhile_of_head?]
    exact fun c hc ↦ decide_eq_false fun heq ↦ h.head (heq ▸ hc)

/-- A value that was written between a space and a carriage return is read back. -/
theorem Stripped.trimmed_space_cr {v : Str} (h : Stripped v) :
    trimmed (' ' :: v ++ ['\r']) = v := by
  have hlf : '\n' ∉ ' ' :: v ++ ['\r'] := by simpa using h.lf_notMem
  have hspaces : (' ' :: v ++ ['\r']).rdropWhile (· = ' ') = ' ' :: v ++ ['\r'] :=
    List.rdropWhile_concat_neg _ _ _ (by decide)
  have hcr : (' ' :: v).rdropWhile (· = '\r') = ' ' :: v := by
    refine rdropWhile_of_getLast? fun c hc ↦ decide_eq_false ?_
    rintro rfl
    cases v with
    | nil => cases hc
    | cons d v =>
        rw [List.getLast?_cons_cons] at hc
        exact h.last hc
  rw [trimmed_of_lf_notMem hlf, hspaces, List.rdropWhile_concat_pos _ _ _ (by decide), hcr,
    List.dropWhile_cons_of_pos (by decide), dropWhile_of_head?]
  exact fun c hc ↦ decide_eq_false fun heq ↦ h.head (heq ▸ hc)

/-- The space in front is dropped from whatever is left of a value. -/
theorem length_dropWhile_space_le {z v : Str} (h : z <+: ' ' :: v) :
    (z.dropWhile (· = ' ')).length ≤ v.length := by
  cases z with
  | nil => exact Nat.zero_le _
  | cons c z =>
      obtain ⟨hc, hz⟩ := List.cons_prefix_cons.mp h
      subst hc
      rw [List.dropWhile_cons_of_pos (by decide)]
      exact le_trans (List.dropWhile_suffix _).length_le hz.length_le

/-- A value that was written after a space at the end of the header lines is read
back unless it ends in a space. -/
theorem Stripped.trimmed_space_iff {v : Str} (h : Stripped v) :
    trimmed (' ' :: v) = v ↔ v.getLast? ≠ some ' ' := by
  have hlf : '\n' ∉ ' ' :: v := by simpa using h.lf_notMem
  constructor
  · intro heq hlast
    obtain ⟨w, rfl⟩ : ∃ w, v = w ++ [' '] := List.getLast?_eq_some_iff.mp hlast
    have hcons : ' ' :: (w ++ [' ']) = (' ' :: w) ++ [' '] := rfl
    rw [trimmed_of_lf_notMem hlf, hcons, List.rdropWhile_concat_pos _ _ _ (by decide)] at heq
    have hle := length_dropWhile_space_le (v := w) (z := ((' ' :: w).rdropWhile
      (· = ' ')).rdropWhile (· = '\r'))
      ((List.rdropWhile_prefix _ _).trans (List.rdropWhile_prefix _ _))
    rw [heq, List.length_append, List.length_singleton] at hle
    omega
  · intro hlast
    cases v with
    | nil => rfl
    | cons d v =>
        have hends : ∀ {c e : Char}, (d :: v).getLast? ≠ some e → c ∈ (' ' :: d :: v).getLast? →
            decide (c = e) = false := by
          intro c e he hc
          rw [List.getLast?_cons_cons] at hc
          exact decide_eq_false fun heq ↦ he (heq ▸ hc)
        rw [trimmed_of_lf_notMem hlf, rdropWhile_of_getLast? fun c hc ↦ hends hlast hc,
          rdropWhile_of_getLast? fun c hc ↦ hends h.last hc,
          List.dropWhile_cons_of_pos (by decide), dropWhile_of_head?]
        exact fun c hc ↦ decide_eq_false fun heq ↦ h.head (heq ▸ hc)

end AsabruCommons.Http
