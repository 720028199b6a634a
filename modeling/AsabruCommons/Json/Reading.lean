import AsabruCommons.Json
import Mathlib.Data.List.TakeDrop

/-!
# Reading JSON

The grammar of JSON texts, with what they stand for: each relation says that a text
begins with something that is read as this value and leaves that rest.  Texts are bytes,
so an escaped code point stands for its bytes in UTF-8.  White space is skipped as far
as it goes.

A string can also be written without escaping everything that should be escaped.
`ReadsString.of_written` says what comes of it when only quotes were escaped, or not
even all of these: unless nothing had to be escaped, the string is read as something
else.
-/

namespace AsabruCommons

namespace Json

/-! ## Strings -/

/-- A character that may stand in a string as it is. -/
def Unescaped (c : Char) : Prop := c ≠ '"' ∧ c ≠ '\\' ∧ 0x20 ≤ c.toNat

instance (c : Char) : Decidable (Unescaped c) :=
  inferInstanceAs (Decidable (c ≠ '"' ∧ c ≠ '\\' ∧ 0x20 ≤ c.toNat))

/-- The escapes of one character. -/
def shortEscapes : List (Char × Char) :=
  [('"', '"'), ('\\', '\\'), ('/', '/'), ('b', '\x08'), ('f', '\x0c'), ('n', '\n'), ('r', '\r'),
    ('t', '\t')]

def hexValue (c : Char) : Option Nat :=
  if '0' ≤ c ∧ c ≤ '9' then some (c.toNat - '0'.toNat)
  else if 'a' ≤ c ∧ c ≤ 'f' then some (c.toNat - 'a'.toNat + 10)
  else if 'A' ≤ c ∧ c ≤ 'F' then some (c.toNat - 'A'.toNat + 10)
  else none

/-- The number that hexadecimal digits stand for. -/
def hexNumber (digits : List Char) : Option Nat :=
  digits.foldlM (fun n c ↦ (hexValue c).map (16 * n + ·)) 0

def HighSurrogate (n : Nat) : Prop := 0xD800 ≤ n ∧ n ≤ 0xDBFF

def LowSurrogate (n : Nat) : Prop := 0xDC00 ≤ n ∧ n ≤ 0xDFFF

/-- The bytes of a code point. -/
def encode (n : Nat) : List Char :=
  if n ≤ 0x7F then [.ofNat n]
  else if n ≤ 0x7FF then [.ofNat (0xC0 + n / 64), .ofNat (0x80 + n % 64)]
  else if n ≤ 0xFFFF then
    [.ofNat (0xE0 + n / 4096), .ofNat (0x80 + n / 64 % 64), .ofNat (0x80 + n % 64)]
  else
    [.ofNat (0xF0 + n / 262144), .ofNat (0x80 + n / 4096 % 64), .ofNat (0x80 + n / 64 % 64),
      .ofNat (0x80 + n % 64)]

/-- `ReadsEscape token bytes`: what stands behind a backslash. -/
inductive ReadsEscape : List Char → List Char → Prop
  | short {c b : Char} (h : (c, b) ∈ shortEscapes) : ReadsEscape [c] [b]
  | codePoint {digits : List Char} {n : Nat} (hlength : digits.length = 4)
      (hdigits : hexNumber digits = some n) (hhigh : ¬ HighSurrogate n) (hlow : ¬ LowSurrogate n) :
      ReadsEscape ('u' :: digits) (encode n)
  | pair {digits digits' : List Char} {n n' : Nat} (hlength : digits.length = 4)
      (hlength' : digits'.length = 4) (hdigits : hexNumber digits = some n)
      (hdigits' : hexNumber digits' = some n') (hhigh : HighSurrogate n) (hlow : LowSurrogate n') :
      ReadsEscape ('u' :: (digits ++ '\\' :: 'u' :: digits'))
        (encode (0x10000 + (n - 0xD800) * 0x400 + (n' - 0xDC00)))

/-- `ReadsString s v rest`: behind the opening quote stands a string, up to its closing
quote. -/
inductive ReadsString : List Char → List Char → List Char → Prop
  | close (rest : List Char) : ReadsString ('"' :: rest) [] rest
  | unescaped {c : Char} {s v rest : List Char} (hc : Unescaped c) (h : ReadsString s v rest) :
      ReadsString (c :: s) (c :: v) rest
  | escape {token bytes s v rest : List Char} (htoken : ReadsEscape token bytes)
      (h : ReadsString s v rest) : ReadsString ('\\' :: (token ++ s)) (bytes ++ v) rest

/-! ## Strings in which only quotes are escaped -/

/-- `Written v w`: the text `w` is `v` with a backslash in front of some of its quotes. -/
inductive Written : List Char → List Char → Prop
  | nil : Written [] []
  | same {v w : List Char} (c : Char) (h : Written v w) : Written (c :: v) (c :: w)
  | quote {v w : List Char} (h : Written v w) : Written ('"' :: v) ('\\' :: '"' :: w)

/-- `Escaped v w`: nothing in `v` has to be escaped but its quotes, and they are. -/
inductive Escaped : List Char → List Char → Prop
  | nil : Escaped [] []
  | unescaped {c : Char} {v w : List Char} (hc : Unescaped c) (h : Escaped v w) :
      Escaped (c :: v) (c :: w)
  | quote {v w : List Char} (h : Escaped v w) : Escaped ('"' :: v) ('\\' :: '"' :: w)

theorem Written.refl (v : List Char) : Written v v := by
  induction v with
  | nil => exact .nil
  | cons c v ih => exact .same c ih

theorem Written.append_left {v w : List Char} (h : Written v w) (l : List Char) :
    Written (l ++ v) (l ++ w) := by
  induction l with
  | nil => exact h
  | cons c l ih => exact .same c ih

theorem Escaped.written {v w : List Char} (h : Escaped v w) : Written v w := by
  induction h with
  | nil => exact .nil
  | unescaped _ _ ih => exact .same _ ih
  | quote _ ih => exact .quote ih

/-- Nothing that is escaped contains a control character. -/
theorem Escaped.printable {v w : List Char} (h : Escaped v w) : ∀ c ∈ w, 0x20 ≤ c.toNat := by
  induction h with
  | nil =>
      intro c hc
      cases hc
  | unescaped hc _ ih =>
      rw [List.forall_mem_cons]
      exact ⟨hc.2.2, ih⟩
  | quote _ ih =>
      rw [List.forall_mem_cons, List.forall_mem_cons]
      exact ⟨by decide, by decide, ih⟩

theorem escaped_cons {c : Char} {v w : List Char} :
    Escaped (c :: v) (c :: w) ↔ Unescaped c ∧ Escaped v w := by
  constructor
  · intro h
    cases h with
    | unescaped hc h => exact ⟨hc, h⟩
  · rintro ⟨hc, h⟩
    exact .unescaped hc h

theorem escaped_append_left {l v w : List Char} :
    Escaped (l ++ v) (l ++ w) ↔ (∀ c ∈ l, Unescaped c) ∧ Escaped v w := by
  induction l with
  | nil => simp
  | cons c l ih => rw [List.forall_mem_cons, and_assoc, ← ih, List.cons_append, List.cons_append,
      escaped_cons]

theorem escaped_self {v : List Char} : Escaped v v ↔ ∀ c ∈ v, Unescaped c := by
  have h := escaped_append_left (l := v) (v := []) (w := [])
  rw [List.append_nil] at h
  exact h.trans (and_iff_left .nil)

/-- An escaped string is valid if the string is. -/
theorem Written.valid {v w : List Char} (h : Written v w) :
    Utf8.Valid w ↔ Utf8.Valid v := by
  suffices h : ∀ l, Utf8.Valid (l ++ w) ↔ Utf8.Valid (l ++ v) from h []
  induction h with
  | nil =>
      intro l
      rfl
  | same c _ ih =>
      intro l
      rw [List.append_cons, ih, ← List.append_cons]
  | @quote v w _ ih =>
      intro l
      have ih : Utf8.Valid w ↔ Utf8.Valid v := ih []
      rw [Utf8.valid_append_cons (by decide), Utf8.valid_append_cons (by decide), ← ih,
        Utf8.valid_cons (by decide)]

/-- A string that is escaped is read as it was. -/
theorem ReadsString.of_escaped {v w : List Char} (h : Escaped v w) (rest : List Char) :
    ReadsString (w ++ '"' :: rest) v rest := by
  induction h with
  | nil => exact .close rest
  | unescaped hc _ ih => exact .unescaped hc ih
  | quote _ ih => exact .escape (.short (c := '"') (b := '"') List.mem_cons_self) ih

/-- The first part of a string is written as it is, if it has no quote and does not end
just before one. -/
theorem Written.of_append {l v w : List Char} (hquote : '"' ∉ l) (hlast : l.getLast? ≠ some '\\')
    (h : Written v (l ++ w)) : ∃ v', v = l ++ v' ∧ Written v' w := by
  induction l generalizing v with
  | nil => exact ⟨v, rfl, h⟩
  | cons c l ih =>
      rw [List.mem_cons, not_or] at hquote
      generalize hs : (c :: l) ++ w = s at h
      cases h with
      | nil => cases hs
      | same d h =>
          obtain ⟨rfl, rfl⟩ := List.cons_eq_cons.mp hs
          have hl : l.getLast? ≠ some '\\' := by
            intro hl
            rw [List.getLast?_cons, hl] at hlast
            exact hlast rfl
          obtain ⟨v', rfl, hv'⟩ := ih hquote.2 hl h
          exact ⟨v', rfl, hv'⟩
      | quote h =>
          -- the backslash is the last of `l`, or the quote belongs to it
          obtain ⟨rfl, htail⟩ := List.cons_eq_cons.mp hs
          cases l with
          | nil => exact absurd rfl hlast
          | cons d l =>
              obtain ⟨rfl, -⟩ := List.cons_eq_cons.mp htail
              exact absurd List.mem_cons_self hquote.2

theorem hexValue_of_foldlM {digits : List Char} {m n : Nat}
    (h : digits.foldlM (fun n c ↦ (hexValue c).map (16 * n + ·)) m = some n) :
    ∀ c ∈ digits, (hexValue c).isSome := by
  induction digits generalizing m with
  | nil =>
      intro c hc
      cases hc
  | cons d digits ih =>
      rw [List.foldlM_cons] at h
      obtain ⟨k, hk, htail⟩ := Option.bind_eq_some_iff.mp h
      rw [List.forall_mem_cons]
      exact ⟨by rw [← Option.isSome_map, hk]; rfl, ih htail⟩

/-- Neither the quote nor the backslash is a hexadecimal digit. -/
theorem notMem_of_hexNumber {digits : List Char} {n : Nat} (h : hexNumber digits = some n) :
    '"' ∉ digits ∧ '\\' ∉ digits := by
  have hdigits : ∀ c ∈ digits, (hexValue c).isSome := hexValue_of_foldlM h
  exact ⟨fun hc ↦ absurd (hdigits _ hc) (by decide), fun hc ↦ absurd (hdigits _ hc) (by decide)⟩

theorem length_encode (n : Nat) : (encode n).length ≤ 4 := by
  rw [encode]
  split_ifs <;> simp

/-- An escape is one of a quote, or of a backslash, or has no quote in it and does not
end in a backslash. -/
theorem ReadsEscape.cases {token bytes : List Char} (h : ReadsEscape token bytes) :
    token = ['"'] ∧ bytes = ['"'] ∨ token = ['\\'] ∧ bytes = ['\\'] ∨
      token ≠ [] ∧ '"' ∉ token ∧ token.getLast? ≠ some '\\' ∧ bytes.length ≤ token.length := by
  cases h with
  | @short c b h =>
      simp only [shortEscapes, List.mem_cons, List.not_mem_nil, or_false, Prod.mk.injEq] at h
      rcases h with ⟨rfl, rfl⟩ | ⟨rfl, rfl⟩ | h
      · exact .inl ⟨rfl, rfl⟩
      · exact .inr (.inl ⟨rfl, rfl⟩)
      · right; right
        rcases h with ⟨rfl, rfl⟩ | ⟨rfl, rfl⟩ | ⟨rfl, rfl⟩ | ⟨rfl, rfl⟩ | ⟨rfl, rfl⟩ | ⟨rfl, rfl⟩
        all_goals exact ⟨by decide, by decide, by decide, Nat.le_refl 1⟩
  | @codePoint digits n hlength hdigits hhigh hlow =>
      obtain ⟨hquote, hbackslash⟩ := notMem_of_hexNumber hdigits
      refine .inr (.inr ⟨List.cons_ne_nil _ _, ?_, ?_, ?_⟩)
      · simp [hquote]
      · intro hlast
        have hmem := List.mem_of_getLast? hlast
        simp [hbackslash] at hmem
      · have := length_encode n
        rw [List.length_cons, hlength]
        omega
  | @pair digits digits' n n' hlength hlength' hdigits hdigits' hhigh hlow =>
      obtain ⟨hquote, -⟩ := notMem_of_hexNumber hdigits
      obtain ⟨hquote', hbackslash'⟩ := notMem_of_hexNumber hdigits'
      refine .inr (.inr ⟨List.cons_ne_nil _ _, ?_, ?_, ?_⟩)
      · simp [hquote, hquote']
      · intro hlast
        have hlast' : ('u' :: digits').getLast? = some '\\' := by
          rw [← hlast]
          simp [List.getLast?_cons, List.getLast?_append]
        have hmem := List.mem_of_getLast? hlast'
        simp [hbackslash'] at hmem
      · have := length_encode (0x10000 + (n - 0xD800) * 0x400 + (n' - 0xDC00))
        rw [List.length_cons, List.length_append, hlength]
        omega

/-- An escape that begins with a quote is that of a quote. -/
theorem ReadsEscape.of_quote {token bytes s t : List Char} (h : ReadsEscape token bytes)
    (hs : token ++ s = '"' :: t) : token = ['"'] ∧ bytes = ['"'] ∧ s = t := by
  rcases h.cases with ⟨rfl, rfl⟩ | ⟨rfl, rfl⟩ | ⟨hne, hquote, -, -⟩
  · exact ⟨rfl, rfl, (List.cons_eq_cons.mp hs).2⟩
  · cases hs
  · cases token with
    | nil => exact absurd rfl hne
    | cons c token =>
        obtain ⟨rfl, -⟩ := List.cons_eq_cons.mp hs
        exact absurd List.mem_cons_self hquote

/-- A string that is escaped is read in no other way. -/
theorem ReadsString.eq_of_escaped {v w v' rest r : List Char} (hw : Escaped v w)
    (h : ReadsString (w ++ '"' :: rest) v' r) : v' = v ∧ r = rest := by
  induction hw generalizing v' with
  | nil =>
      cases h with
      | close => exact ⟨rfl, rfl⟩
      | unescaped hc h => exact absurd rfl hc.1
  | @unescaped c v w hc _ ih =>
      generalize hs : c :: w ++ '"' :: rest = s at h
      obtain _ | ⟨_, h⟩ | ⟨_, _⟩ := h
      · exact absurd (List.cons_eq_cons.mp hs).1 hc.1
      · obtain ⟨rfl, rfl⟩ := List.cons_eq_cons.mp hs
        obtain ⟨rfl, rfl⟩ := ih h
        exact ⟨rfl, rfl⟩
      · exact absurd (List.cons_eq_cons.mp hs).1 hc.2.1
  | @quote v w _ ih =>
      generalize hs : '\\' :: '"' :: w ++ '"' :: rest = s at h
      obtain _ | ⟨hc, _⟩ | ⟨htoken, h⟩ := h
      · cases hs
      · exact absurd (List.cons_eq_cons.mp hs).1.symm hc.2.1
      · obtain ⟨-, htail⟩ := List.cons_eq_cons.mp hs
        obtain ⟨rfl, rfl, rfl⟩ := htoken.of_quote htail.symm
        obtain ⟨rfl, rfl⟩ := ih h
        exact ⟨rfl, rfl⟩

/-- The first quote of a text is not in a part without quotes. -/
theorem eq_append_of_notMem {c : Char} {l w s t : List Char} (hl : c ∉ l)
    (h : w ++ c :: t = l ++ s) : ∃ x, w = l ++ x ∧ s = x ++ c :: t := by
  rcases List.append_eq_append_iff.mp h with ⟨x, rfl, hx⟩ | ⟨x, rfl, hx⟩
  · cases x with
    | nil => exact ⟨[], by simp, hx.symm⟩
    | cons d x =>
        obtain ⟨rfl, -⟩ := List.cons_eq_cons.mp hx
        exact absurd (List.mem_append_right w List.mem_cons_self) hl
  · exact ⟨x, rfl, hx⟩

/-- What can come of reading `w`, which was written for `v`, before a quote and `rest`:
the string is read as `v`, and nothing in it was left to escape; or it has lost
something; or its last backslash hides the quote, and then another string ends here. -/
inductive Outcome (rest v w v' r : List Char) : Prop
  | asWritten (hv : v' = v) (hr : r = rest) (h : Escaped v w)
  | shorter (h : v'.length < v.length)
  | overrun {x r' : List Char} (hv : v.getLast? = some '\\')
      (hv' : ∃ l, v' = l ++ '"' :: x) (hx : ReadsString rest x r')

theorem Outcome.cons {rest v w w' v' r : List Char} (h : Outcome rest v w v' r) (c : Char)
    (hw : Escaped v w → Escaped (c :: v) w') : Outcome rest (c :: v) w' (c :: v') r := by
  cases h with
  | asWritten hv hr h => exact .asWritten (congrArg (c :: ·) hv) hr (hw h)
  | shorter h => exact .shorter (Nat.succ_lt_succ h)
  | overrun hv hv' hx =>
      obtain ⟨l, rfl⟩ := hv'
      exact .overrun (by rw [List.getLast?_cons, hv]; rfl) ⟨c :: l, rfl⟩ hx

/-- Something is lost in front. -/
theorem Outcome.lost {rest v w w' v' r l l' : List Char} (h : Outcome rest v w v' r)
    (hl : l'.length < l.length) : Outcome rest (l ++ v) w' (l' ++ v') r := by
  cases h with
  | asWritten hv hr h =>
      subst hv
      exact .shorter (by simpa using hl)
  | shorter h =>
      apply Outcome.shorter
      rw [List.length_append, List.length_append]
      exact Nat.add_lt_add hl h
  | overrun hv hv' hx =>
      obtain ⟨k, rfl⟩ := hv'
      refine .overrun ?_ ⟨l' ++ k, ?_⟩ hx
      · rw [List.getLast?_append, hv]
        rfl
      · rw [List.append_assoc]

/-- Reading a string in which at most quotes were escaped. -/
theorem ReadsString.of_written {rest v w v' r : List Char} (hw : Written v w)
    (h : ReadsString (w ++ '"' :: rest) v' r) : Outcome rest v w v' r := by
  generalize hs : w ++ '"' :: rest = s at h
  induction h generalizing v w with
  | close r =>
      cases hw with
      | nil => exact .asWritten rfl (List.cons_eq_cons.mp hs).2.symm .nil
      | same c hw => exact .shorter (Nat.succ_pos _)
      | quote hw => cases hs
  | @unescaped c s v' r hc h ih =>
      cases hw with
      | nil =>
          obtain ⟨rfl, -⟩ := List.cons_eq_cons.mp hs
          exact absurd rfl hc.1
      | same d hw =>
          obtain ⟨rfl, htail⟩ := List.cons_eq_cons.mp hs
          exact (ih hw htail).cons d (.unescaped hc)
      | quote hw =>
          obtain ⟨rfl, -⟩ := List.cons_eq_cons.mp hs
          exact absurd rfl hc.2.1
  | @escape token bytes s v' r htoken h ih =>
      cases hw with
      | nil => cases hs
      | @same v w d hw =>
          -- the backslash was in the string, and takes with it what follows
          obtain ⟨rfl, htail⟩ := List.cons_eq_cons.mp hs
          rcases htoken.cases with ⟨rfl, rfl⟩ | ⟨rfl, rfl⟩ | ⟨-, hquote, hlast, hlength⟩
          · cases hw with
            | nil =>
                obtain ⟨-, rfl⟩ := List.cons_eq_cons.mp htail
                exact .overrun rfl ⟨[], rfl⟩ h
            | @same v w c hw =>
                obtain ⟨rfl, hend⟩ := List.cons_eq_cons.mp htail
                exact (ih hw hend).lost (l := ['\\', '"']) (Nat.lt_succ_self 1)
            | quote hw => cases htail
          · cases hw with
            | nil => cases htail
            | @same v w c hw =>
                obtain ⟨rfl, hend⟩ := List.cons_eq_cons.mp htail
                exact (ih hw hend).lost (l := ['\\', '\\']) (Nat.lt_succ_self 1)
            | @quote v w hw =>
                -- the backslash that was to escape the quote is itself escaped
                obtain ⟨-, htail⟩ := List.cons_eq_cons.mp htail
                refine (ih (.same '"' hw) htail).cons '\\' fun h ↦ ?_
                cases h with
                | unescaped hc h => exact absurd rfl hc.1
          · obtain ⟨x, rfl, hend⟩ := eq_append_of_notMem hquote htail
            obtain ⟨v, rfl, hv⟩ := hw.of_append hquote hlast
            exact (ih hv hend.symm).lost (l := '\\' :: token) (Nat.lt_succ_of_le hlength)
      | @quote v w hw =>
          obtain ⟨-, htail⟩ := List.cons_eq_cons.mp hs
          obtain ⟨rfl, rfl, rfl⟩ := htoken.of_quote htail.symm
          exact (ih hw rfl).cons '"' .quote

/-- So a string that is read as it was is escaped, unless a string that begins behind
it can end in a backslash. -/
theorem ReadsString.escaped {rest v w r : List Char} (hw : Written v w)
    (hrest : ∀ x r', ReadsString rest x r' → x.getLast? ≠ some '\\')
    (h : ReadsString (w ++ '"' :: rest) v r) : Escaped v w ∧ r = rest := by
  cases h.of_written hw with
  | asWritten _ hr h => exact ⟨h, hr⟩
  | shorter h => exact absurd h (Nat.lt_irrefl _)
  | @overrun x r' hv hv' hx =>
      obtain ⟨l, rfl⟩ := hv'
      refine absurd ?_ (hrest x r' hx)
      cases x with
      | nil => simp at hv
      | cons c x => simpa using hv

/-! ## Values -/

def isSpace (c : Char) : Bool := c = ' ' || c = '\t' || c = '\n' || c = '\r'

def skip (s : List Char) : List Char := s.dropWhile isSpace

/-- The digits in front of a text. -/
def digits (s : List Char) : List Char × List Char := s.span Char.isDigit

/-- `ReadsNumber s literal rest` -/
inductive ReadsInteger : List Char → List Char → List Char → Prop
  | zero (s : List Char) : ReadsInteger ('0' :: s) ['0'] s
  | other {c : Char} (s : List Char) (hc : c.isDigit) (hzero : c ≠ '0') :
      ReadsInteger (c :: s) (c :: (digits s).1) (digits s).2

inductive ReadsFraction : List Char → List Char → List Char → Prop
  | none {s : List Char} (h : s.head? ≠ some '.') : ReadsFraction s [] s
  | some (s : List Char) (h : (digits s).1 ≠ []) :
      ReadsFraction ('.' :: s) ('.' :: (digits s).1) (digits s).2

inductive ReadsExponent : List Char → List Char → List Char → Prop
  | none {s : List Char} (h : s.head? ≠ some 'e' ∧ s.head? ≠ some 'E') : ReadsExponent s [] s
  | some {e : Char} (sign s : List Char) (he : e = 'e' ∨ e = 'E')
      (hsign : sign ∈ [[], ['+'], ['-']]) (h : (digits s).1 ≠ []) :
      ReadsExponent (e :: (sign ++ s)) (e :: (sign ++ (digits s).1)) (digits s).2

inductive ReadsNumber : List Char → List Char → List Char → Prop
  | mk {s i t f u e rest : List Char} (hi : ReadsInteger s i t) (hf : ReadsFraction t f u)
      (he : ReadsExponent u e rest) : ReadsNumber s (i ++ (f ++ e)) rest

mutual

/-- `ReadsValue s v rest` -/
inductive ReadsValue : List Char → Value → List Char → Prop
  | null (rest : List Char) : ReadsValue ('n' :: 'u' :: 'l' :: 'l' :: rest) .null rest
  | true_ (rest : List Char) : ReadsValue ('t' :: 'r' :: 'u' :: 'e' :: rest) (.boolean true) rest
  | false_ (rest : List Char) :
      ReadsValue ('f' :: 'a' :: 'l' :: 's' :: 'e' :: rest) (.boolean false) rest
  | number {s literal rest : List Char} (h : ReadsNumber s literal rest) :
      ReadsValue s (.number literal) rest
  | negative {s literal rest : List Char} (h : ReadsNumber s literal rest) :
      ReadsValue ('-' :: s) (.number ('-' :: literal)) rest
  | string {s v rest : List Char} (h : ReadsString s v rest) :
      ReadsValue ('"' :: s) (.string v) rest
  | emptyArray {s rest : List Char} (h : skip s = ']' :: rest) :
      ReadsValue ('[' :: s) (.array []) rest
  | array {s rest : List Char} {vs : List Value} (h : ReadsElements (skip s) vs rest) :
      ReadsValue ('[' :: s) (.array vs) rest
  | emptyObject {s rest : List Char} (h : skip s = '\x7d' :: rest) :
      ReadsValue ('\x7b' :: s) (.object []) rest
  | object {s rest : List Char} {ms : List (List Char × Value)}
      (h : ReadsMembers (skip s) ms rest) : ReadsValue ('\x7b' :: s) (.object ms) rest

/-- The elements of an array, up to its closing bracket. -/
inductive ReadsElements : List Char → List Value → List Char → Prop
  | last {s t rest : List Char} {v : Value} (hv : ReadsValue s v t) (hend : skip t = ']' :: rest) :
      ReadsElements s [v] rest
  | cons {s t u rest : List Char} {v : Value} {vs : List Value} (hv : ReadsValue s v t)
      (hcomma : skip t = ',' :: u) (h : ReadsElements (skip u) vs rest) :
      ReadsElements s (v :: vs) rest

/-- The members of an object, up to its closing brace. -/
inductive ReadsMembers : List Char → List (List Char × Value) → List Char → Prop
  | last {s k t u w rest : List Char} {v : Value} (hk : ReadsString s k t)
      (hcolon : skip t = ':' :: u) (hv : ReadsValue (skip u) v w) (hend : skip w = '\x7d' :: rest) :
      ReadsMembers ('"' :: s) [(k, v)] rest
  | cons {s k t u w x rest : List Char} {v : Value} {ms : List (List Char × Value)}
      (hk : ReadsString s k t) (hcolon : skip t = ':' :: u) (hv : ReadsValue (skip u) v w)
      (hcomma : skip w = ',' :: x) (h : ReadsMembers (skip x) ms rest) :
      ReadsMembers ('"' :: s) ((k, v) :: ms) rest

end

/-! ## What is left

Reading a value takes something off the front of the text, and reading the members of an
object takes its closing brace off, too. -/

theorem suffix_of_skip {s t : List Char} {c : Char} (h : skip s = c :: t) : c :: t <:+ s :=
  h ▸ List.dropWhile_suffix _

theorem ReadsString.suffix {s v rest : List Char} (h : ReadsString s v rest) : rest <:+ s := by
  induction h with
  | close rest => exact List.suffix_cons _ _
  | unescaped _ _ ih => exact ih.trans (List.suffix_cons _ _)
  | escape _ _ ih => exact (ih.trans (List.suffix_append _ _)).trans (List.suffix_cons _ _)

theorem digits_suffix (s : List Char) : (digits s).2 <:+ s := by
  rw [digits, List.span_eq_takeWhile_dropWhile]
  exact List.dropWhile_suffix _

theorem ReadsNumber.suffix {s literal rest : List Char} (h : ReadsNumber s literal rest) :
    rest <:+ s := by
  obtain ⟨hi, hf, he⟩ := h
  have hinteger : ∀ {s i t : List Char}, ReadsInteger s i t → t <:+ s := by
    intro s i t h
    cases h with
    | zero => exact List.suffix_cons _ _
    | other => exact (digits_suffix _).trans (List.suffix_cons _ _)
  have hfraction : ∀ {s f t : List Char}, ReadsFraction s f t → t <:+ s := by
    intro s f t h
    cases h with
    | none => exact List.suffix_rfl
    | some => exact (digits_suffix _).trans (List.suffix_cons _ _)
  have hexponent : ∀ {s e t : List Char}, ReadsExponent s e t → t <:+ s := by
    intro s e t h
    cases h with
    | none => exact List.suffix_rfl
    | some =>
        exact ((digits_suffix _).trans (List.suffix_append _ _)).trans (List.suffix_cons _ _)
  exact ((hexponent he).trans (hfraction hf)).trans (hinteger hi)

mutual

theorem ReadsValue.suffix {s rest : List Char} {v : Value} (h : ReadsValue s v rest) :
    rest <:+ s := by
  cases h with
  | null => exact List.suffix_append ['n', 'u', 'l', 'l'] _
  | true_ => exact List.suffix_append ['t', 'r', 'u', 'e'] _
  | false_ => exact List.suffix_append ['f', 'a', 'l', 's', 'e'] _
  | number h => exact h.suffix
  | negative h => exact h.suffix.trans (List.suffix_cons _ _)
  | string h => exact h.suffix.trans (List.suffix_cons _ _)
  | emptyArray h =>
      exact ((List.suffix_cons _ _).trans (suffix_of_skip h)).trans (List.suffix_cons _ _)
  | array h => exact (h.suffix.trans (List.dropWhile_suffix _)).trans (List.suffix_cons _ _)
  | emptyObject h =>
      exact ((List.suffix_cons _ _).trans (suffix_of_skip h)).trans (List.suffix_cons _ _)
  | object h =>
      exact (((List.suffix_cons _ _).trans h.suffix).trans (List.dropWhile_suffix _)).trans
        (List.suffix_cons _ _)

theorem ReadsElements.suffix {s rest : List Char} {vs : List Value} (h : ReadsElements s vs rest) :
    rest <:+ s := by
  cases h with
  | last hv hend => exact ((List.suffix_cons _ _).trans (suffix_of_skip hend)).trans hv.suffix
  | cons hv hcomma h =>
      have hu := (List.suffix_cons _ _).trans (suffix_of_skip hcomma)
      exact ((h.suffix.trans (List.dropWhile_suffix _)).trans hu).trans hv.suffix

theorem ReadsMembers.suffix {s rest : List Char} {ms : List (List Char × Value)}
    (h : ReadsMembers s ms rest) : '\x7d' :: rest <:+ s := by
  cases h with
  | last hk hcolon hv hend =>
      have hu := (List.suffix_cons _ _).trans (suffix_of_skip hcolon)
      have hw := hv.suffix.trans (List.dropWhile_suffix _)
      exact ((((suffix_of_skip hend).trans hw).trans hu).trans hk.suffix).trans
        (List.suffix_cons _ _)
  | cons hk hcolon hv hcomma h =>
      have hu := (List.suffix_cons _ _).trans (suffix_of_skip hcolon)
      have hw := hv.suffix.trans (List.dropWhile_suffix _)
      have hx := (List.suffix_cons _ _).trans (suffix_of_skip hcomma)
      have hrest := h.suffix.trans (List.dropWhile_suffix _)
      exact ((((hrest.trans hx).trans hw).trans hu).trans hk.suffix).trans (List.suffix_cons _ _)

end

/-- The text is a JSON text, and stands for this value. -/
def IsText (s : List Char) (v : Value) : Prop :=
  Utf8.Valid s ∧ ∃ rest, ReadsValue (skip s) v rest ∧ skip rest = []

theorem not_readsNumber {c : Char} (hc : c.isDigit = false)
    {s literal rest : List Char} : ¬ ReadsNumber (c :: s) literal rest := by
  rintro ⟨hi, -, -⟩
  cases hi with
  | zero => exact absurd hc (by decide)
  | other s hdigit => exact absurd hdigit (by rw [hc]; exact Bool.false_ne_true)

theorem not_isText_nil (v : Value) : ¬ IsText [] v := by
  rintro ⟨-, rest, h, -⟩
  cases h with
  | number h =>
      obtain ⟨hi, -, -⟩ := h
      cases hi

/-- A text that begins with a brace is an object, and the brace is closed. -/
theorem IsText.of_brace {s : List Char} {v : Value} (h : IsText ('\x7b' :: s) v) :
    (∃ ms, v = .object ms) ∧ '\x7d' ∈ s := by
  obtain ⟨-, rest, h, -⟩ := h
  cases h with
  | number h => exact absurd h (not_readsNumber (by decide))
  | emptyObject h => exact ⟨⟨_, rfl⟩, (suffix_of_skip h).subset List.mem_cons_self⟩
  | object h =>
      have hsuffix := h.suffix.trans (List.dropWhile_suffix _)
      exact ⟨⟨_, rfl⟩, hsuffix.subset List.mem_cons_self⟩

end Json

end AsabruCommons
