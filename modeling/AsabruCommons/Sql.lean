import AsabruCommons.Lines

/-!
# The tokens of an SQL text

A text is cut into tokens character by character, by the lexical rules of SQLite.
What decides where one statement ends and what it says are the quotes:

* a string literal stands between single quotes, a quoted name between double
  quotes, back quotes or brackets;
* inside of the first three, a quote that is doubled stands for itself, and one
  that is not ends the token;
* comments, to the end of the line or between `/*` and `*/`, are skipped.

Numbers and operators of several characters are not put together; they come as the
words and characters they are written with.

`lex_double` and `literal_cases` are the two halves of the rule for quotes: what is
written with its quotes doubled is read as it was, and a literal can only end in this
way.  `statements` cuts the tokens at the semicolons, which is how a text of several
statements is executed.
-/

namespace AsabruCommons.Sql

open Lines

inductive Token where
  | word (w : List Char)
  | string (v : List Char)
  | name (v : List Char)
  | blob (v : List Char)
  | symbol (c : Char)
  | illegal
deriving DecidableEq, Repr

/-- What has been read of the token at hand. -/
inductive State where
  | between
  | word (w : List Char)
  | literal (quote : Char) (v : List Char)
  /-- Behind a quote that ends the literal unless it is doubled. -/
  | closing (quote : Char) (v : List Char)
  | bracket (v : List Char)
  | blob (v : List Char)
  | minus
  | slash
  | lineComment
  | blockComment (star : Bool)
deriving DecidableEq, Repr

def isSpace (c : Char) : Bool := c == ' ' || c == '\t' || c == '\n' || c == '\x0c' || c == '\r'

/-- The characters of names, keywords and numbers. -/
def isIdChar (c : Char) : Bool := c.isAlphanum || c == '_' || c == '$' || 128 ≤ c.toNat

def isXDigit (c : Char) : Bool :=
  c.isDigit || ('a' ≤ c && c ≤ 'f') || ('A' ≤ c && c ≤ 'F')

def isQuote (c : Char) : Bool := c == '\'' || c == '"' || c == '\x60'

/-- Only single quotes make a string. -/
def quoted (quote : Char) (v : List Char) : Token :=
  if quote = '\'' then .string v else .name v

def blobToken (v : List Char) : Token :=
  if v.all isXDigit && v.length % 2 == 0 then .blob v else .illegal

/-- A character between two tokens. -/
def start (c : Char) : List Token × State :=
  if isSpace c then ([], .between)
  else if isIdChar c then ([], .word [c])
  else if isQuote c then ([], .literal c [])
  else if c = '[' then ([], .bracket [])
  else if c = '-' then ([], .minus)
  else if c = '/' then ([], .slash)
  else ([.symbol c], .between)

/-- The token at hand is complete, and the character is between it and the next one. -/
def complete (t : Token) (c : Char) : List Token × State := (t :: (start c).1, (start c).2)

def step : State → Char → List Token × State
  | .between, c => start c
  | .word w, c =>
      if isIdChar c then ([], .word (w ++ [c]))
      else if c = '\'' && (w == ['x'] || w == ['X']) then ([], .blob [])
      else complete (.word w) c
  | .literal quote v, c =>
      if c = quote then ([], .closing quote v) else ([], .literal quote (v ++ [c]))
  | .closing quote v, c =>
      if c = quote then ([], .literal quote (v ++ [c])) else complete (quoted quote v) c
  | .bracket v, c => if c = ']' then ([.name v], .between) else ([], .bracket (v ++ [c]))
  | .blob v, c => if c = '\'' then ([blobToken v], .between) else ([], .blob (v ++ [c]))
  | .minus, c => if c = '-' then ([], .lineComment) else complete (.symbol '-') c
  | .slash, c => if c = '*' then ([], .blockComment false) else complete (.symbol '/') c
  | .lineComment, c => if c = '\n' then ([], .between) else ([], .lineComment)
  | .blockComment star, c =>
      if star && c = '/' then ([], .between) else ([], .blockComment (c == '*'))

/-- The end of the text. -/
def finish : State → List Token
  | .between | .lineComment | .blockComment _ => []
  | .word w => [.word w]
  | .literal _ _ | .bracket _ | .blob _ => [.illegal]
  | .closing quote v => [quoted quote v]
  | .minus => [.symbol '-']
  | .slash => [.symbol '/']

def lex : State → List Char → List Token
  | st, [] => finish st
  | st, c :: s => (step st c).1 ++ lex (step st c).2 s

def tokens (text : List Char) : List Token := lex .between text

/-- The statements of a text, without the semicolons. -/
def statements (text : List Char) : List (List Token) :=
  (lines (.symbol ';') (tokens text)).filter fun statement ↦ !statement.isEmpty

@[simp] theorem lex_nil (st : State) : lex st [] = finish st := rfl

theorem lex_cons (st : State) (c : Char) (s : List Char) :
    lex st (c :: s) = (step st c).1 ++ lex (step st c).2 s := rfl

/-! ## Literals -/

section

variable (quote : Char)

/-- The text with its quotes doubled. -/
def double (s : List Char) : List Char :=
  s.flatMap fun c ↦ if c = quote then [quote, quote] else [c]

@[simp] theorem double_nil : double quote [] = [] := rfl

theorem double_cons_self (s : List Char) :
    double quote (quote :: s) = quote :: quote :: double quote s := by
  rw [double, List.flatMap_cons, if_pos rfl]
  rfl

variable {quote}

theorem double_cons_of_ne {c : Char} (h : c ≠ quote) (s : List Char) :
    double quote (c :: s) = c :: double quote s := by
  rw [double, List.flatMap_cons, if_neg h]
  rfl

theorem double_of_notMem {s : List Char} (h : quote ∉ s) : double quote s = s := by
  induction s with
  | nil => rfl
  | cons c s ih =>
      rw [List.mem_cons, not_or] at h
      rw [double_cons_of_ne (Ne.symm h.1), ih h.2]

theorem length_double (s : List Char) : (double quote s).length = s.length + s.count quote := by
  induction s with
  | nil => rfl
  | cons c s ih =>
      by_cases hc : c = quote
      · subst hc
        rw [double_cons_self, List.length_cons, List.length_cons, ih, List.count_cons_self,
          List.length_cons]
        omega
      · rw [double_cons_of_ne hc, List.length_cons, ih, List.count_cons_of_ne hc, List.length_cons]
        omega

theorem lex_literal_of_ne {c : Char} (h : c ≠ quote) (v s : List Char) :
    lex (.literal quote v) (c :: s) = lex (.literal quote (v ++ [c])) s := by
  rw [lex_cons, step, if_neg h]
  rfl

theorem lex_literal_quote (v s : List Char) :
    lex (.literal quote v) (quote :: s) = lex (.closing quote v) s := by
  rw [lex_cons, step, if_pos rfl]
  rfl

theorem lex_closing_quote (v s : List Char) :
    lex (.closing quote v) (quote :: s) = lex (.literal quote (v ++ [quote])) s := by
  rw [lex_cons, step, if_pos rfl]
  rfl

/-- A quote that is not doubled ends the literal. -/
theorem lex_closing {s : List Char} (h : s.head? ≠ some quote) (v : List Char) :
    lex (.closing quote v) s = quoted quote v :: lex .between s := by
  cases s with
  | nil => rfl
  | cons c s =>
      have hc : c ≠ quote := fun heq ↦ h (congrArg some heq)
      rw [lex_cons, step, if_neg hc]
      rfl

/-- What is written with its quotes doubled is read as it was. -/
theorem lex_double {rest : List Char} (h : rest.head? ≠ some quote) (v w : List Char) :
    lex (.literal quote v) (double quote w ++ quote :: rest) =
      quoted quote (v ++ w) :: lex .between rest := by
  induction w generalizing v with
  | nil => rw [double_nil, List.nil_append, lex_literal_quote, lex_closing h, List.append_nil]
  | cons c w ih =>
      by_cases hc : c = quote
      · subst hc
        rw [double_cons_self, List.cons_append, lex_literal_quote, List.cons_append,
          lex_closing_quote, ih, List.append_assoc, List.singleton_append]
      · rw [double_cons_of_ne hc, List.cons_append, lex_literal_of_ne hc, ih, List.append_assoc,
          List.singleton_append]

/-- A literal ends at the first quote that is not doubled, or not at all. -/
theorem literal_cases (quote : Char) : ∀ v s : List Char,
    (∃ w rest, s = double quote w ++ quote :: rest ∧ rest.head? ≠ some quote) ∨
      lex (.literal quote v) s = [.illegal]
  | _, [] => .inr rfl
  | v, c :: s => by
      by_cases hc : c = quote
      swap
      · rcases literal_cases quote (v ++ [c]) s with ⟨w, rest, rfl, hrest⟩ | hlex
        · refine .inl ⟨c :: w, rest, ?_, hrest⟩
          rw [double_cons_of_ne hc, List.cons_append]
        · exact .inr ((lex_literal_of_ne hc v s).trans hlex)
      obtain rfl := hc.symm
      cases s with
      | nil => exact .inl ⟨[], [], rfl, nofun⟩
      | cons d s =>
          by_cases hd : d = quote
          swap
          · exact .inl ⟨[], d :: s, rfl, fun heq ↦ hd (Option.some.inj heq)⟩
          obtain rfl := hd.symm
          rcases literal_cases quote (v ++ [quote]) s with ⟨w, rest, rfl, hrest⟩ | hlex
          · refine .inl ⟨quote :: w, rest, ?_, hrest⟩
            rw [double_cons_self, List.cons_append, List.cons_append]
          · exact .inr (by rw [lex_literal_quote, lex_closing_quote, hlex])

end

end AsabruCommons.Sql
