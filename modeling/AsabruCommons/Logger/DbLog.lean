import AsabruCommons.Logger.ContentWriter
import AsabruCommons.Sql

/-!
# Logging to a database

`DbContentWriter` puts each log item into an SQL text and has SQLite execute it.  The
item is put between single quotes as it is.

What is executed is decided by the lexer of SQLite, which sees one text and not its
parts.  So the question is whether the tokens of the whole text are those of one
`INSERT` with the item as its literal; `logged_iff` says that they are unless there is
a single quote in the item.  A quote that is not doubled ends the literal early, and
what follows is executed; if all quotes are doubled, the literal denotes fewer of them.
`db_flush` and `statements_flush_iff` are the same for the items of a flush.

SQLite is the list of the texts it was given; whether the execution succeeded is an
argument.
-/

namespace AsabruCommons.Logger

open Lines Sql BaseContentWriter

/-- What a C function sees of a string. -/
def cStr (s : Str) : Str := s.takeWhile (· != '\x00')

theorem cStr_of_notMem {s : Str} (h : '\x00' ∉ s) : cStr s = s :=
  List.takeWhile_eq_self_iff.mpr fun _ hc ↦ bne_iff_ne.mpr fun heq ↦ h (heq ▸ hc)

/-- The texts that the database was given, unless it could not be opened. -/
structure SQLAccess where
  db : Option (List Str)
deriving DecidableEq

namespace SQLAccess

/-- Whether `db` is not the null pointer. -/
def Open (access : SQLAccess) : Bool := access.db.isSome

def Close (access : SQLAccess) : SQLAccess := access

/-- `sqlite3_exec` without a database is a misuse, which is an error. -/
def executeQuery (access : SQLAccess) (query : Str) (ok : Bool) : Bool × SQLAccess :=
  match access.db with
  | none => (false, access)
  | some texts => (ok, ⟨some (texts ++ [cStr query])⟩)

end SQLAccess

namespace DbContentWriter

def createQuery : Str := "CREATE TABLE IF NOT EXISTS logs (logcontent TEXT);".toList

/-- The constructor. -/
def construct (access : SQLAccess) (ok : Bool) : SQLAccess :=
  if access.Open then (access.executeQuery createQuery ok).2.Close else access

def insertQuery (logcontent : Str) : Str :=
  "INSERT INTO logs VALUES('".toList ++ logcontent ++ "');".toList

def WriteToMedia (logcontent : Str) (access : SQLAccess) (ok : Bool) : Bool × SQLAccess :=
  if access.Open then
    let (result, access) := access.executeQuery (insertQuery logcontent) ok
    (result, access.Close)
  else (false, access)

/-! ## The statement that is meant -/

def insertHead : List Token :=
  [.word "INSERT".toList, .word "INTO".toList, .word "logs".toList, .word "VALUES".toList,
    .symbol '(']

/-- `INSERT INTO logs VALUES (logcontent)` -/
def insertLogs (logcontent : Str) : List Token :=
  insertHead ++ [.string logcontent, .symbol ')']

/-- One text was executed, and it consists of the one statement that stores the item. -/
def Logged (before after : SQLAccess) (logcontent : Str) : Prop :=
  ∃ texts text, before.db = some texts ∧ after.db = some (texts ++ [text]) ∧
    statements text = [insertLogs logcontent]

theorem semicolon_notMem_insertLogs (logcontent : Str) :
    Token.symbol ';' ∉ insertLogs logcontent := by
  simp [insertLogs, insertHead]

/-- The text up to the quote in front of the item is read alike whatever the item is. -/
theorem tokens_insertQuery (logcontent : Str) :
    tokens (insertQuery logcontent) =
      insertHead ++ lex (.literal '\'' []) (logcontent ++ ['\'', ')', ';']) := rfl

/-- The statement of an item without quotes. -/
theorem statements_of_notMem {logcontent : Str} (h : '\'' ∉ logcontent) :
    statements (insertQuery logcontent) = [insertLogs logcontent] := by
  have hlit : lex (.literal '\'' []) (logcontent ++ ['\'', ')', ';']) =
      [.string logcontent, .symbol ')', .symbol ';'] := by
    have hrest : [')', ';'].head? ≠ some '\'' := by decide
    have hlex := lex_double hrest [] logcontent
    rw [double_of_notMem h] at hlex
    exact hlex
  have htokens : tokens (insertQuery logcontent) = insertLogs logcontent ++ [.symbol ';'] := by
    rw [tokens_insertQuery, hlit, insertLogs, List.append_assoc]
    rfl
  rw [statements, htokens, lines_line_append (semicolon_notMem_insertLogs logcontent)]
  rfl

/-- If the statement is the one that is meant, the item is the literal and the closing
bracket is the next token. -/
theorem lex_of_statements {logcontent : Str}
    (h : statements (insertQuery logcontent) = [insertLogs logcontent]) :
    ∃ more, lex (.literal '\'' []) (logcontent ++ ['\'', ')', ';']) =
      .string logcontent :: .symbol ')' :: more := by
  have hhead : Token.symbol ';' ∉ insertHead := by decide
  rw [statements, tokens_insertQuery, lines_append_of_sep_notMem hhead (List.cons_ne_nil _ _),
    List.filter_cons_of_pos rfl] at h
  have hline := List.append_cancel_left (List.cons.inj h).1
  generalize lex (.literal '\'' []) (logcontent ++ ['\'', ')', ';']) = rest at hline
  cases hrest : lines (.symbol ';') rest with
  | nil =>
      rw [hrest] at hline
      cases hline
  | cons line ls =>
      rw [hrest, List.headD_cons] at hline
      rw [hline] at hrest
      rcases eq_of_lines_eq (hrest.trans (List.nil_append _).symm) with
        ⟨rfl, -, -⟩ | ⟨t, rfl, -⟩
      · exact ⟨[], rfl⟩
      · exact ⟨_, rfl⟩

/-- In a literal of its own length the item has no quotes: each of them would take one
more character, and behind the literal there are only two. -/
theorem notMem_of_lex {logcontent : Str} {more : List Token}
    (h : lex (.literal '\'' []) (logcontent ++ ['\'', ')', ';']) =
      .string logcontent :: .symbol ')' :: more) : '\'' ∉ logcontent := by
  rcases literal_cases '\'' [] (logcontent ++ ['\'', ')', ';']) with
    ⟨w, rest, hsplit, hrest⟩ | hillegal
  swap
  · rw [hillegal] at h
    cases h
  rw [hsplit, lex_double hrest, List.nil_append] at h
  obtain ⟨hw, hnext⟩ := List.cons.inj h
  obtain rfl : w = logcontent := Token.string.inj hw
  have hlen := congrArg List.length hsplit
  rw [List.length_append, List.length_append, length_double, List.length_cons] at hlen
  simp only [List.length_cons, List.length_nil] at hlen
  have hcount : w.count '\'' = 0 := by
    -- the characters behind the literal are the last ones of the text
    have hsuffix : rest <:+ w ++ ['\'', ')', ';'] :=
      hsplit ▸ (List.suffix_cons _ rest).trans (List.suffix_append _ _)
    match hcase : rest.length with
    | 0 =>
        rw [List.eq_nil_of_length_eq_zero hcase] at hnext
        cases hnext
    | 1 =>
        have hlast : [';'] <:+ w ++ ['\'', ')', ';'] := ⟨w ++ ['\'', ')'], by simp⟩
        have heq : rest = [';'] := List.IsSuffix.eq_of_length
          (List.suffix_of_suffix_length_le hsuffix hlast hcase.le) hcase
        rw [heq] at hnext
        exact absurd (List.cons.inj hnext).1 (by decide)
    | n + 2 => omega
  exact List.count_eq_zero.mp hcount

theorem statements_iff (logcontent : Str) :
    statements (insertQuery logcontent) = [insertLogs logcontent] ↔ '\'' ∉ logcontent := by
  refine ⟨fun h ↦ ?_, statements_of_notMem⟩
  obtain ⟨more, hmore⟩ := lex_of_statements h
  exact notMem_of_lex hmore

/-- The text that is executed for an item without zero bytes. -/
theorem cStr_insertQuery {logcontent : Str} (h : '\x00' ∉ logcontent) :
    cStr (insertQuery logcontent) = insertQuery logcontent := by
  apply cStr_of_notMem
  unfold insertQuery
  rw [List.mem_append, List.mem_append, not_or, not_or]
  exact ⟨⟨by decide, h⟩, by decide⟩

/-- An open database is given one text for each item of a flush, in their order. -/
theorem db_flush (ok : Str → Bool) (queue texts : List Str) :
    (Flush (fun content access ↦ WriteToMedia content access (ok content)) queue
      ⟨some texts⟩).2.db = some (texts ++ queue.map fun content ↦ cStr (insertQuery content)) := by
  induction queue generalizing texts with
  | nil => exact congrArg some (List.append_nil texts).symm
  | cons content queue ih =>
      refine (ih (texts ++ [cStr (insertQuery content)])).trans ?_
      rw [List.map_cons, List.append_assoc, List.singleton_append]

/-- A flush stores its items and executes nothing else exactly if none of them has a
single quote in it. -/
theorem statements_flush_iff {queue : List Str} (hnul : ∀ content ∈ queue, '\x00' ∉ content) :
    (queue.map fun content ↦ statements (cStr (insertQuery content))) =
        queue.map (fun content ↦ [insertLogs content]) ↔
      ∀ content ∈ queue, '\'' ∉ content := by
  rw [List.map_inj_left]
  refine forall₂_congr fun content hcontent ↦ ?_
  rw [cStr_insertQuery (hnul content hcontent), statements_iff]

/-- **When the item is what is logged.**  For an item without zero bytes, the text that is
executed is the `INSERT` of the item and nothing else exactly if there is no single quote
in it. -/
theorem logged_iff (access : SQLAccess) (hopen : access.Open = true) (logcontent : Str)
    (hnul : '\x00' ∉ logcontent) (ok : Bool) :
    Logged access (WriteToMedia logcontent access ok).2 logcontent ↔ '\'' ∉ logcontent := by
  obtain ⟨texts, hdb⟩ := Option.isSome_iff_exists.mp hopen
  have hafter : (WriteToMedia logcontent access ok).2.db =
      some (texts ++ [insertQuery logcontent]) := by
    rw [WriteToMedia, if_pos hopen, SQLAccess.executeQuery, hdb, cStr_insertQuery hnul]
    rfl
  rw [← statements_iff]
  constructor
  · rintro ⟨texts', text, hbefore, htext, hstatements⟩
    obtain rfl := Option.some.inj (hdb.symm.trans hbefore)
    rw [hafter] at htext
    have heq := List.append_cancel_left (Option.some.inj htext)
    rwa [(List.cons.inj heq).1]
  · exact fun h ↦ ⟨texts, insertQuery logcontent, hdb, hafter, h⟩

/-- An item with two statements and a comment, but without quotes, and a query with a quoted
name. -/
theorem logged_iff_semicolons :
    let access : SQLAccess := ⟨some [createQuery]⟩
    let logcontent := "a); DROP TABLE logs; -- \"b\"".toList
    let quoted := "SELECT * FROM t WHERE name = 'bob'".toList
    Logged access (WriteToMedia logcontent access true).2 logcontent ∧
      ¬ Logged access (WriteToMedia quoted access true).2 quoted :=
  ⟨(logged_iff _ rfl _ (by decide) true).mpr (by decide), fun h ↦
    absurd ((logged_iff _ rfl _ (by decide) true).mp h) (by decide)⟩

/-- A client's query with a quote in it is not stored, and one that is made for it is
executed. -/
theorem not_logged_quote :
    let access : SQLAccess := ⟨some [createQuery]⟩
    ¬ Logged access (WriteToMedia "it's".toList access true).2 "it's".toList ∧
      statements (insertQuery "a'); DROP TABLE logs; --".toList) =
        [insertLogs ['a'], [.word "DROP".toList, .word "TABLE".toList, .word "logs".toList]] := by
  refine ⟨?_, by decide⟩
  rintro ⟨texts, text, hbefore, hafter, hstatements⟩
  obtain rfl := Option.some.inj hbefore
  have htext := List.append_cancel_left (Option.some.inj hafter)
  obtain rfl := (List.cons.inj htext).1
  revert hstatements
  decide

end DbContentWriter

end AsabruCommons.Logger
