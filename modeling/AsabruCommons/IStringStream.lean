import AsabruCommons.Basic
import AsabruCommons.CInt
import AsabruCommons.Lines
import AsabruCommons.Search

/-!
# Input string streams

A model of `std::istringstream` as far as text is read from it: what is left to
read, and the two state bits that reading sets.  Each input operation takes the
variable it reads into and returns its new value, because a stream that is not
good leaves the variable as it was.

The operations construct a sentry first.  On a stream that is not good the sentry
sets `failbit` and nothing else happens.  A formatted input operation skips white
space in its sentry, and a stream that ends there sets both bits.  `getline` fails
only if it extracts nothing at all; the delimiter counts as extracted, so an empty
line is read like any other, and a last line without delimiter is read but leaves
`eofbit` set.

`whileGetline` is the loop `while (std::getline(iss, line) && cond(line))`.  Each
round that goes on has extracted something, so the length of the text bounds the
number of rounds.
-/

namespace AsabruCommons

open CInt Search

structure IStringStream where
  rest : Str
  eof : Bool := false
  fail : Bool := false
deriving DecidableEq, Repr

namespace IStringStream

/-- A new stream. -/
def ofStr (text : Str) : IStringStream := ⟨text, false, false⟩

def good (s : IStringStream) : Bool := !s.eof && !s.fail

def clear (s : IStringStream) : IStringStream := { s with eof := false, fail := false }

/-- `iss.str(text)` -/
def str (s : IStringStream) (text : Str) : IStringStream := { s with rest := text }

/-- A stream that is given a new text is like a new one. -/
@[simp] theorem clear_str (s : IStringStream) (text : Str) : s.clear.str text = ofStr text := rfl

/-- White space of the classic locale. -/
def isSpace (c : Char) : Bool :=
  c = ' ' || c = '\t' || c = '\n' || c = '\x0b' || c = '\x0c' || c = '\r'

theorem isSpace_eq_false_of_all {s : Str} (h : s.all (!isSpace ·) = true) :
    ∀ c ∈ s, isSpace c = false := by
  intro c hc
  simpa using List.all_eq_true.mp h c hc

/-- `std::getline(iss, line, delim)` -/
def getline (delim : Char) (s : IStringStream) (line : Str) : IStringStream × Str :=
  if s.good then
    let text := s.rest.takeWhile (· ≠ delim)
    match s.rest.dropWhile (· ≠ delim) with
    | [] => (⟨[], true, text.isEmpty⟩, text)
    | _ :: rest => (⟨rest, false, false⟩, text)
  else ({ s with fail := true }, line)

/-- `iss >> word` for a `std::string` -/
def readWord (s : IStringStream) (word : Str) : IStringStream × Str :=
  if s.good then
    let text := s.rest.dropWhile isSpace
    if text.isEmpty then (⟨[], true, true⟩, word)
    else
      let rest := text.dropWhile (!isSpace ·)
      (⟨rest, rest.isEmpty, false⟩, text.takeWhile (!isSpace ·))
  else ({ s with fail := true }, word)

/-- The sign in front of a number, and what follows it. -/
def splitSign : Str → Int × Str
  | '-' :: text => (-1, text)
  | '+' :: text => (1, text)
  | text => (1, text)

/-- `iss >> n` for an `int`, in decimal.  Without a digit the result is zero, and
a number that is out of range gives the nearest `int`; both set `failbit`. -/
def readInt (s : IStringStream) (n : Int) : IStringStream × Int :=
  if s.good then
    let text := s.rest.dropWhile isSpace
    if text.isEmpty then (⟨[], true, true⟩, n)
    else
      let digits := (splitSign text).2.takeWhile Char.isDigit
      let rest := (splitSign text).2.dropWhile Char.isDigit
      let value := (splitSign text).1 * Nat.ofDigitChars 10 digits 0
      if digits.isEmpty then (⟨rest, rest.isEmpty, true⟩, 0)
      else if value < intMin then (⟨rest, rest.isEmpty, true⟩, intMin)
      else if intMax < value then (⟨rest, rest.isEmpty, true⟩, intMax)
      else (⟨rest, rest.isEmpty, false⟩, value)
  else ({ s with fail := true }, n)

/-- What `std::stoi` throws. -/
inductive StoiError where
  | invalid_argument
  | out_of_range
deriving DecidableEq

/-- `std::stoi(text)` reads like `iss >> n`, and throws where that fails. -/
def stoi (text : Str) : Except StoiError Int :=
  let number := splitSign (text.dropWhile isSpace)
  let digits := number.2.takeWhile Char.isDigit
  if digits.isEmpty then .error .invalid_argument
  else ((checked (number.1 * Nat.ofDigitChars 10 digits 0)).map .ok).getD (.error .out_of_range)

section

variable {ε β : Type}

/-- At most `fuel` rounds of `whileGetline`. -/
def getlineRounds (cond : Str → Bool) (body : β → Str → Except ε β) :
    Nat → IStringStream → β → Except ε (β × IStringStream)
  | 0, s, b => .ok (b, s)
  | fuel + 1, s, b =>
      let r := s.getline '\n' []
      if r.1.fail || !cond r.2 then .ok (b, r.1)
      else (body b r.2).bind fun b' ↦ getlineRounds cond body fuel r.1 b'

/-- `while (std::getline(iss, line) && cond(line)) body(line)` -/
def whileGetline (cond : Str → Bool) (body : β → Str → Except ε β) (s : IStringStream) (b : β) :
    Except ε (β × IStringStream) :=
  getlineRounds cond body (s.rest.length + 1) s b

end

/-! ## Lines -/

theorem ne_delim {delim : Char} {l : Str} (hl : delim ∉ l) :
    ∀ c ∈ l, decide (c ≠ delim) = true :=
  fun _ hc ↦ decide_eq_true fun heq ↦ hl (heq ▸ hc)

/-- A line that ends in its delimiter. -/
theorem getline_line {delim : Char} {l : Str} (hl : delim ∉ l) (rest line : Str) :
    getline delim (ofStr (l ++ delim :: rest)) line = (ofStr rest, l) := by
  have hself : decide (delim ≠ delim) = false := by simp
  simp only [getline, ofStr, takeWhile_append_cons (ne_delim hl) hself rest,
    dropWhile_append_cons (ne_delim hl) hself rest]
  rfl

/-- A last line without delimiter. -/
theorem getline_last {delim : Char} {l : Str} (hl : delim ∉ l) (line : Str) :
    getline delim (ofStr l) line = (⟨[], true, l.isEmpty⟩, l) := by
  simp only [getline, ofStr, takeWhile_of_forall (ne_delim hl), dropWhile_of_forall (ne_delim hl)]
  rfl

theorem getline_of_not_good {s : IStringStream} (h : s.good = false) (delim : Char) (line : Str) :
    getline delim s line = ({ s with fail := true }, line) := by
  rw [getline, h]
  rfl

/-- A line that is read makes the rest of the text shorter. -/
theorem length_getline_lt {s : IStringStream} {delim : Char} {line : Str}
    (h : (getline delim s line).1.fail = false) :
    (getline delim s line).1.rest.length < s.rest.length := by
  cases hgood : s.good with
  | false =>
      rw [getline_of_not_good hgood] at h
      cases h
  | true =>
      have hsplit := List.takeWhile_append_dropWhile (p := fun c ↦ decide (c ≠ delim)) (l := s.rest)
      have hlen := congrArg List.length hsplit
      rw [List.length_append] at hlen
      simp only [getline, hgood, if_true] at h ⊢
      cases hdrop : s.rest.dropWhile (fun c ↦ decide (c ≠ delim)) with
      | nil =>
          simp only [hdrop] at h hlen ⊢
          rw [← hlen]
          refine List.length_pos_iff.mpr fun hnil ↦ ?_
          rw [hnil] at h
          cases h
      | cons c rest =>
          simp only [hdrop, List.length_cons] at hlen ⊢
          omega

/-! ## Words and numbers -/

/-- White space in front of a word is skipped. -/
theorem readWord_space {c : Char} (hc : isSpace c) (text word : Str) :
    readWord (ofStr (c :: text)) word = readWord (ofStr text) word := by
  simp only [readWord, ofStr, List.dropWhile_cons_of_pos hc]
  rfl

/-- The sentry skips nothing in front of a word. -/
theorem dropWhile_isSpace {w : Str} (hw : ∀ c ∈ w, isSpace c = false) (hne : w ≠ []) (text : Str) :
    (w ++ text).dropWhile isSpace = w ++ text := by
  obtain ⟨c, w, rfl⟩ := List.exists_cons_of_ne_nil hne
  have hc : ¬ isSpace c = true := by simp [hw c List.mem_cons_self]
  exact List.dropWhile_cons_of_neg hc

/-- A word in front of white space. -/
theorem readWord_word {w : Str} (hw : ∀ c ∈ w, isSpace c = false) (hne : w ≠ []) {d : Char}
    (hd : isSpace d) (text word : Str) :
    readWord (ofStr (w ++ d :: text)) word = (ofStr (d :: text), w) := by
  have hword : ∀ c ∈ w, (!isSpace c) = true := fun c hc ↦ by rw [hw c hc]; rfl
  have hstop : (!isSpace d) = false := by rw [hd]; rfl
  have hnil : (w ++ d :: text).isEmpty = false := by simp
  simp only [readWord, ofStr, dropWhile_isSpace hw hne, hnil, takeWhile_append_cons hword hstop,
    dropWhile_append_cons hword hstop]
  rfl

/-- A word at the end of the text. -/
theorem readWord_last {w : Str} (hw : ∀ c ∈ w, isSpace c = false) (hne : w ≠ []) (word : Str) :
    readWord (ofStr w) word = (⟨[], true, false⟩, w) := by
  have hword : ∀ c ∈ w, (!isSpace c) = true := fun c hc ↦ by rw [hw c hc]; rfl
  have hskip := dropWhile_isSpace hw hne []
  rw [List.append_nil] at hskip
  have hnil : w.isEmpty = false := by simpa using hne
  simp only [readWord, ofStr, hskip, hnil, takeWhile_of_forall hword, dropWhile_of_forall hword]
  rfl

/-- What follows the white space in front does not begin with white space. -/
theorem isSpace_of_dropWhile {text rest : Str} {c : Char}
    (h : text.dropWhile isSpace = c :: rest) : isSpace c = false := by
  have hnot := List.head?_dropWhile_not isSpace text
  rw [h] at hnot
  simpa using hnot

/-- Reading a word either fails and leaves the variable as it was, or gives a word. -/
theorem readWord_cases (s : IStringStream) (word : Str) :
    (s.readWord word).1.fail = true ∧ (s.readWord word).2 = word ∨
      s.good = true ∧ (s.readWord word).2 ≠ [] ∧ ∀ c ∈ (s.readWord word).2, isSpace c = false := by
  unfold readWord
  cases hgood : s.good with
  | false => exact .inl ⟨rfl, rfl⟩
  | true =>
      simp only [if_true]
      cases htext : s.rest.dropWhile isSpace with
      | nil => exact .inl ⟨rfl, rfl⟩
      | cons c text =>
          have hc := isSpace_of_dropWhile htext
          refine .inr ⟨trivial, ?_, fun d hd ↦ ?_⟩
          · simp [hc]
          · have hall := List.mem_takeWhile_imp hd
            simpa using hall

/-- After a failure nothing is read. -/
theorem readWord_of_fail {s : IStringStream} (h : s.fail = true) (word : Str) :
    (s.readWord word).2 = word := by
  have hgood : s.good = false := by simp [good, h]
  rw [readWord, hgood]
  rfl

/-- The words of a text: what stands between its white space. -/
def words (text : Str) : List Str := (text.splitOnP isSpace).filter (!·.isEmpty)

theorem words_space {c : Char} (hc : isSpace c) (text : Str) : words (c :: text) = words text := by
  have hsplit := List.splitOnP_append_cons [] text hc
  rw [List.nil_append, List.splitOnP_nil] at hsplit
  rw [words, hsplit]
  rfl

theorem words_dropWhile (text : Str) : words (text.dropWhile isSpace) = words text := by
  induction text with
  | nil => rfl
  | cons c text ih =>
      by_cases hc : isSpace c
      · rw [List.dropWhile_cons_of_pos hc, ih, words_space hc]
      · rw [List.dropWhile_cons_of_neg hc]

/-- A word at the front of a text is one that white space or the end follows. -/
theorem words_append {w : Str} (hw : ∀ c ∈ w, isSpace c = false) (hne : w ≠ []) {text : Str}
    (htext : ∀ c ∈ text.head?, isSpace c) : words (w ++ text) = w :: words text := by
  have hkeep : ∀ ws : List Str, (w :: ws).filter (!·.isEmpty) = w :: ws.filter (!·.isEmpty) :=
    fun ws ↦ List.filter_cons_of_pos (by simpa using hne)
  cases text with
  | nil =>
      rw [List.append_nil, words, List.splitOnP_eq_singleton hw, hkeep]
      rfl
  | cons d text =>
      have hd := htext d rfl
      rw [words_space hd, words, List.splitOnP_append_cons_of_forall_mem hw d hd, hkeep]
      rfl

/-- The first word of a text that does not begin with white space. -/
theorem words_cons {c : Char} (hc : isSpace c = false) (text : Str) :
    words (c :: text) = (c :: text).takeWhile (!isSpace ·) ::
      words ((c :: text).dropWhile (!isSpace ·)) := by
  have hne : (c :: text).takeWhile (!isSpace ·) ≠ [] := by simp [hc]
  have hword : ∀ d ∈ (c :: text).takeWhile (!isSpace ·), isSpace d = false := fun d hd ↦ by
    simpa using List.mem_takeWhile_imp hd
  have hrest : ∀ d ∈ ((c :: text).dropWhile (!isSpace ·)).head?, isSpace d := fun d hd ↦ by
    have hnot := List.head?_dropWhile_not (!isSpace ·) (c :: text)
    rw [hd] at hnot
    simpa using hnot
  have hsplit := words_append hword hne hrest
  rwa [List.takeWhile_append_dropWhile] at hsplit

/-- A text without words is white space. -/
theorem words_eq_nil_iff {text : Str} : words text = [] ↔ text.dropWhile isSpace = [] := by
  rw [← words_dropWhile]
  cases htext : text.dropWhile isSpace with
  | nil => exact iff_of_true rfl rfl
  | cons c rest =>
      rw [words_cons (isSpace_of_dropWhile htext)]
      exact iff_of_false (List.cons_ne_nil _ _) (List.cons_ne_nil _ _)

/-- The stream can be read on, or it has met its end and there is no word left. -/
def Live (s : IStringStream) : Prop := s.good = true ∨ s.eof = true ∧ words s.rest = []

/-- Reading word by word gives the words of the text, as long as there are any. -/
theorem Live.readWord {s : IStringStream} (h : Live s) (word : Str) :
    Live (s.readWord word).1 ∧ (s.readWord word).2 = (words s.rest).headD word ∧
      words (s.readWord word).1.rest = (words s.rest).tail := by
  unfold IStringStream.readWord
  rcases h with hgood | ⟨heof, hnil⟩
  · rw [if_pos hgood, ← words_dropWhile s.rest]
    cases htext : s.rest.dropWhile isSpace with
    | nil => exact ⟨.inr ⟨rfl, rfl⟩, rfl, rfl⟩
    | cons c text =>
        rw [words_cons (isSpace_of_dropWhile htext)]
        refine ⟨?_, rfl, rfl⟩
        cases hleft : (c :: text).dropWhile (!isSpace ·) with
        | nil => exact .inr ⟨by simp [hleft], by simp [hleft]; rfl⟩
        | cons d rest => exact .inl (by simp [good, hleft])
  · have hnot : s.good = false := by simp [good, heof]
    rw [hnot, hnil]
    exact ⟨.inr ⟨heof, hnil⟩, rfl, hnil⟩

theorem isSpace_of_isDigit {c : Char} (h : c.isDigit = true) : isSpace c = false := by
  by_contra hspace
  simp only [isSpace, Bool.or_eq_true, decide_eq_true_eq, Bool.not_eq_false] at hspace
  rcases hspace with ((((rfl | rfl) | rfl) | rfl) | rfl) | rfl <;> cases h

theorem splitSign_of_isDigit {c : Char} (h : c.isDigit = true) (text : Str) :
    splitSign (c :: text) = (1, c :: text) := by
  unfold splitSign
  split
  case h_1 heq =>
    obtain ⟨rfl, -⟩ := List.cons.inj heq
    cases h
  case h_2 heq =>
    obtain ⟨rfl, -⟩ := List.cons.inj heq
    cases h
  case h_3 => rfl

/-- White space in front of a number is skipped. -/
theorem readInt_space {c : Char} (hc : isSpace c) (text : Str) (n : Int) :
    readInt (ofStr (c :: text)) n = readInt (ofStr text) n := by
  simp only [readInt, ofStr, List.dropWhile_cons_of_pos hc]
  rfl

/-- A number written in decimal, in front of something that is not a digit. -/
theorem readInt_toDigits {n : Nat} (hn : (n : Int) ≤ intMax) {d : Char} (hd : d.isDigit = false)
    (text : Str) (m : Int) :
    readInt (ofStr (Nat.toDigits 10 n ++ d :: text)) m = (ofStr (d :: text), (n : Int)) := by
  have hdigit : ∀ c ∈ Nat.toDigits 10 n, c.isDigit = true := fun c hc ↦
    Nat.isDigit_of_mem_toDigits (by decide) (by decide) hc
  have hskip : (Nat.toDigits 10 n ++ d :: text).dropWhile isSpace =
      Nat.toDigits 10 n ++ d :: text :=
    dropWhile_isSpace (fun c hc ↦ isSpace_of_isDigit (hdigit c hc)) Nat.toDigits_ne_nil _
  have hsign : splitSign (Nat.toDigits 10 n ++ d :: text) =
      (1, Nat.toDigits 10 n ++ d :: text) := by
    obtain ⟨c, ds, hcons⟩ := List.exists_cons_of_ne_nil (Nat.toDigits_ne_nil (b := 10) (n := n))
    rw [hcons, List.cons_append]
    exact splitSign_of_isDigit (hdigit c (by rw [hcons]; exact List.mem_cons_self)) _
  have hnil : (Nat.toDigits 10 n ++ d :: text).isEmpty = false := by simp
  have hdigits : (Nat.toDigits 10 n).isEmpty = false := by simp
  have hmin : ¬ (n : Int) < intMin := by
    unfold intMin
    omega
  simp only [readInt, ofStr, hskip, hnil, hsign, takeWhile_append_cons hdigit hd,
    dropWhile_append_cons hdigit hd, hdigits, Nat.ofDigitChars_ten_toDigits, Int.one_mul,
    if_neg hmin, if_neg (Int.not_lt.mpr hn)]
  rfl

/-! ## The loop over the lines -/

section

variable {ε β : Type} {cond : Str → Bool} {body : β → Str → Except ε β}

/-- More rounds than there are characters are never needed. -/
theorem getlineRounds_of_lt {fuel : Nat} {s : IStringStream} (h : s.rest.length < fuel) (b : β) :
    getlineRounds cond body fuel s b = whileGetline cond body s b := by
  suffices hrounds : ∀ (m n : Nat) (s : IStringStream) (b : β), s.rest.length < m →
      s.rest.length < n → getlineRounds cond body m s b = getlineRounds cond body n s b from
    hrounds _ _ s b h (Nat.lt_succ_self _)
  intro m
  induction m with
  | zero => exact fun n s b hm ↦ absurd hm (Nat.not_lt_zero _)
  | succ m ih =>
      intro n s b hm hn
      cases n with
      | zero => exact absurd hn (Nat.not_lt_zero _)
      | succ n =>
          unfold getlineRounds
          cases hfail : (s.getline '\n' []).1.fail with
          | true =>
              dsimp only
              rw [hfail]
              rfl
          | false =>
              have hlt := length_getline_lt hfail
              dsimp only
              split
              · rfl
              · refine congrArg (Except.bind _) (funext fun b' ↦ ?_)
                exact ih n _ b' (by omega) (by omega)

/-- A line that is read and meets the condition is one round. -/
theorem whileGetline_line {l : Str} (hl : '\n' ∉ l) (hcond : cond l = true) (rest : Str) (b : β) :
    whileGetline cond body (ofStr (l ++ '\n' :: rest)) b =
      (body b l).bind fun b' ↦ whileGetline cond body (ofStr rest) b' := by
  rw [whileGetline, getlineRounds, getline_line hl]
  simp only [ofStr, hcond, Bool.not_true, Bool.or_self, Bool.false_eq_true, if_false]
  refine congrArg (Except.bind _) (funext fun b' ↦ ?_)
  refine getlineRounds_of_lt ?_ b'
  simp only [List.length_append, List.length_cons]
  omega

/-- A line that does not meet the condition is read and ends the loop. -/
theorem whileGetline_stop {l : Str} (hl : '\n' ∉ l) (hcond : cond l = false) (rest : Str) (b : β) :
    whileGetline cond body (ofStr (l ++ '\n' :: rest)) b = .ok (b, ofStr rest) := by
  rw [whileGetline, getlineRounds, getline_line hl]
  simp only [ofStr, hcond, Bool.not_false, Bool.or_true, if_true]

/-- At the end of the text nothing is read. -/
theorem whileGetline_nil (b : β) :
    whileGetline cond body (ofStr []) b = .ok (b, ⟨[], true, true⟩) := by
  rw [whileGetline, getlineRounds, getline_last List.not_mem_nil]
  rfl

/-- A last line without delimiter is the last round. -/
theorem whileGetline_last {l : Str} (hl : '\n' ∉ l) (hne : l ≠ []) (hcond : cond l = true) (b : β) :
    whileGetline cond body (ofStr l) b = (body b l).bind fun b' ↦ .ok (b', ⟨[], true, true⟩) := by
  obtain ⟨m, hm⟩ : ∃ m, l.length = m + 1 :=
    Nat.exists_eq_succ_of_ne_zero fun hzero ↦ hne (List.length_eq_zero_iff.mp hzero)
  have hnil : l.isEmpty = false := by simpa using hne
  have hlen : (ofStr l).rest.length = m + 1 := hm
  rw [whileGetline, hlen, getlineRounds, getline_last hl]
  simp only [hnil, hcond, Bool.not_true, Bool.or_self, Bool.false_eq_true, if_false]
  refine congrArg (Except.bind _) (funext fun b' ↦ ?_)
  rw [getlineRounds, getline_of_not_good rfl]
  rfl

/-- A last line without delimiter that does not meet the condition. -/
theorem whileGetline_last_stop {l : Str} (hl : '\n' ∉ l) (hcond : cond l = false) (b : β) :
    whileGetline cond body (ofStr l) b = .ok (b, ⟨[], true, l.isEmpty⟩) := by
  rw [whileGetline, getlineRounds, getline_last hl]
  simp only [hcond, Bool.not_false, Bool.or_true, if_true]

/-- A body that also keeps account of what it does, in a part of `β` that `f` drops, makes the
same loop. -/
theorem whileGetline_map {γ : Type} {body' : γ → Str → Except ε γ} {f : β → γ}
    (hbody : ∀ b line, (body b line).map f = body' (f b) line) (s : IStringStream) (b : β) :
    (whileGetline cond body s b).map (Prod.map f id) = whileGetline cond body' s (f b) := by
  suffices hrounds : ∀ (fuel : Nat) (s : IStringStream) (b : β),
      (getlineRounds cond body fuel s b).map (Prod.map f id) =
        getlineRounds cond body' fuel s (f b) from hrounds _ s b
  intro fuel
  induction fuel with
  | zero => exact fun s b ↦ rfl
  | succ fuel ih =>
      intro s b
      unfold getlineRounds
      dsimp only
      split
      · rfl
      · rw [← hbody]
        cases body b (s.getline '\n' []).2 with
        | error e => rfl
        | ok b' => exact ih _ b'

/-- A stream that is not good gives no line. -/
theorem whileGetline_of_not_good {s : IStringStream} (h : s.good = false) (b : β) :
    whileGetline cond body s b = .ok (b, { s with fail := true }) := by
  rw [whileGetline, getlineRounds, getline_of_not_good h]
  rfl

/-- The lines that are left to read. -/
def remainingLines (s : IStringStream) : List Str :=
  if s.good then Lines.lines '\n' s.rest else []

@[simp] theorem remainingLines_ofStr (text : Str) :
    (ofStr text).remainingLines = Lines.lines '\n' text := rfl

/-- Reading a line takes it off the lines that are left. -/
theorem remainingLines_getline (s : IStringStream) (line : Str) :
    (s.getline '\n' line).1.remainingLines = s.remainingLines.tail := by
  cases hgood : s.good with
  | false =>
      rw [getline_of_not_good hgood, remainingLines, remainingLines, hgood]
      simp [good]
  | true =>
      obtain ⟨text, eof, fail⟩ := s
      obtain ⟨rfl, rfl⟩ : eof = false ∧ fail = false := by simpa [good] using hgood
      change ((ofStr text).getline '\n' line).1.remainingLines = (Lines.lines '\n' text).tail
      by_cases hmem : '\n' ∈ text
      · obtain ⟨l, rest, rfl, hl⟩ := List.eq_append_cons_of_mem hmem
        rw [getline_line hl, Lines.lines_line_append hl]
        rfl
      · rw [getline_last hmem]
        cases text with
        | nil => rfl
        | cons c text =>
            rw [Lines.lines_of_sep_notMem hmem (List.cons_ne_nil c text)]
            rfl

/-- The loop over the lines of a text.  Where the stream ends up does not depend on the
body. -/
theorem whileGetline_ofStr (cond : Str → Bool) (body : β → Str → Except ε β) (text : Str) :
    ∃ t, ∀ b, whileGetline cond body (ofStr text) b =
      (((Lines.lines '\n' text).takeWhile cond).foldlM body b).map (·, t) := by
  induction hn : text.length using Nat.strong_induction_on generalizing text with
  | _ n ih =>
      by_cases hmem : '\n' ∈ text
      · obtain ⟨l, rest, rfl, hl⟩ := List.eq_append_cons_of_mem hmem
        have hlt : rest.length < n := by
          rw [← hn, List.length_append, List.length_cons]
          omega
        rw [Lines.lines_line_append hl]
        cases hcond : cond l with
        | false =>
            refine ⟨ofStr rest, fun b ↦ ?_⟩
            rw [whileGetline_stop hl hcond, List.takeWhile_cons_of_neg (by simp [hcond])]
            rfl
        | true =>
            obtain ⟨t, ht⟩ := ih rest.length hlt rest rfl
            refine ⟨t, fun b ↦ ?_⟩
            rw [whileGetline_line hl hcond, List.takeWhile_cons_of_pos hcond, List.foldlM_cons]
            cases hbody : body b l with
            | error e => rfl
            | ok b' => exact ht b'
      · cases text with
        | nil => exact ⟨_, whileGetline_nil⟩
        | cons c text =>
            rw [Lines.lines_of_sep_notMem hmem (List.cons_ne_nil c text)]
            cases hcond : cond (c :: text) with
            | false =>
                refine ⟨⟨[], true, false⟩, fun b ↦ ?_⟩
                rw [whileGetline_last_stop hmem hcond,
                  List.takeWhile_cons_of_neg (by simp [hcond])]
                rfl
            | true =>
                refine ⟨⟨[], true, true⟩, fun b ↦ ?_⟩
                rw [whileGetline_last hmem (List.cons_ne_nil c text) hcond,
                  List.takeWhile_cons_of_pos hcond, List.foldlM_cons]
                cases hbody : body b (c :: text) with
                | error e => rfl
                | ok b' => rfl

/-- **The loop over the lines.**  The body is performed for the lines that are left, up to
the first that does not meet the condition. -/
theorem whileGetline_foldlM (cond : Str → Bool) (body : β → Str → Except ε β)
    (s : IStringStream) :
    ∃ t, ∀ b, whileGetline cond body s b =
      ((s.remainingLines.takeWhile cond).foldlM body b).map (·, t) := by
  cases hgood : s.good with
  | false =>
      refine ⟨{ s with fail := true }, fun b ↦ ?_⟩
      rw [whileGetline_of_not_good hgood, remainingLines, hgood]
      rfl
  | true =>
      obtain ⟨text, eof, fail⟩ := s
      obtain ⟨rfl, rfl⟩ : eof = false ∧ fail = false := by simpa [good] using hgood
      exact whileGetline_ofStr cond body text

/-- A loop that reads to the end and does not fail goes through the lines of the
text. -/
theorem whileGetline_foldl {f : β → Str → β}
    (hbody : ∀ b line, '\n' ∉ line → body b line = .ok (f b line)) (text : Str) (b : β) :
    whileGetline (fun _ ↦ true) body (ofStr text) b =
      .ok ((Lines.lines '\n' text).foldl f b, ⟨[], true, true⟩) := by
  induction hn : text.length using Nat.strong_induction_on generalizing text b with
  | _ n ih =>
      by_cases hmem : '\n' ∈ text
      · obtain ⟨l, rest, rfl, hl⟩ := List.eq_append_cons_of_mem hmem
        have hlt : rest.length < n := by
          rw [← hn, List.length_append, List.length_cons]
          omega
        rw [whileGetline_line hl rfl, Lines.lines_line_append hl, List.foldl_cons, hbody b l hl]
        exact ih rest.length hlt rest (f b l) rfl
      · cases text with
        | nil => exact whileGetline_nil b
        | cons c text =>
            rw [whileGetline_last hmem (List.cons_ne_nil c text) rfl,
              Lines.lines_of_sep_notMem hmem (List.cons_ne_nil c text), hbody b _ hmem]
            rfl

end

end IStringStream

end AsabruCommons
