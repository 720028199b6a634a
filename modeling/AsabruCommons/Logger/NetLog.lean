import AsabruCommons.Json.Fields
import AsabruCommons.Logger.ContentWriter
import AsabruCommons.Utils
import Mathlib.Tactic.Tauto

/-!
# Logging to the network

`NetLogStrategy` puts together one line of JSON for each call of `Log`.  It escapes the
quotes in the cause, which for the key `LATENCY` it then cuts at the commas.  Nothing
else is escaped, neither in the cause nor in the other arguments, so the line is the
record it should be only for texts in which nothing else has to be (`records_iff`).
-/

namespace AsabruCommons.Logger

open Json Utils

inductive LogCode where
  | INFO
  | ERROR
  | QUERY
  | LATENCY
deriving DecidableEq

namespace NetLogStrategy

def getLogCode (key : Str) : LogCode :=
  if key = "QUERY".toList then .QUERY
  else if key = "LATENCY".toList then .LATENCY
  else if key = "INFO".toList then .INFO
  else .ERROR

/-- `std::regex_replace(cause, std::regex("\""), "\\\"")` -/
def escapeQuotes (cause : Str) : Str := cause.flatMap fun c ↦ if c = '"' then ['\\', '"'] else [c]

def DoLog (queue : List Str) (logitem : Str) : List Str := BaseContentWriter.Write queue logitem

/-- The queue afterwards; `none` if an element of `params` is read that does not exist.
`Log` itself always returns `true`. -/
def Log (queue : List Str) (app key cause : Str) : Option (List Str) :=
  let cause := escapeQuotes cause
  match getLogCode key with
  | .QUERY =>
      some (DoLog queue ("\x7b\"type\": \"query\",\"query\":\"".toList ++ cause ++
        "\",\"correlation_id\":\"".toList ++ app ++ "\"\x7d\n".toList))
  | .LATENCY => do
      let params ← split cause [','] (cause.length + 1)
      let latency ← params[0]?
      let host ← params[1]?
      return DoLog queue ("\x7b\"type\": \"latency\",\"latency\": \"".toList ++ latency ++
        "\",\"correlation_id\":\"".toList ++ app ++ "\",\"host\": \"".toList ++ host ++
        "\"\x7d\n".toList)
  | _ =>
      some (DoLog queue ("\x7b\"type\": \"application_log\",\"application_log\": \"".toList ++
        app ++ [' '] ++ key ++ [' '] ++ cause ++ "\"\x7d\n".toList))

/-! ## Records -/

/-- The members that the record of a call should have; there is none if the cause has
no second part. -/
def expected (app key cause : Str) : Option (List (Str × Str)) :=
  match getLogCode key with
  | .QUERY => some [("query".toList, cause), ("correlation_id".toList, app)]
  | .LATENCY =>
      match cause.splitOn ',' with
      | latency :: host :: _ =>
          some [("latency".toList, latency), ("correlation_id".toList, app), ("host".toList, host)]
      | _ => none
  | _ => some [("application_log".toList, app ++ ' ' :: (key ++ ' ' :: cause))]

/-- One line with a JSON object that has these members. -/
def IsRecord (logitem : Str) (members : List (Str × Str)) : Prop :=
  ∃ text ms, logitem = text ++ ['\n'] ∧ '\n' ∉ text ∧ IsText text (.object ms) ∧
    ∀ p ∈ members, HasMember ms p.1 p.2

/-- `Log` queues the record that it should queue. -/
def Records (queue : List Str) (app key cause : Str) : Prop :=
  ∃ logitem members, Log queue app key cause = some (queue ++ [logitem]) ∧
    expected app key cause = some members ∧ IsRecord logitem members

/-- Nothing has to be escaped. -/
def Plain (s : Str) : Prop := (∀ c ∈ s, Unescaped c) ∧ Utf8.Valid s

/-- Nothing but the quotes has to be escaped. -/
def PlainButQuotes (s : Str) : Prop := (∀ c ∈ s, c ≠ '\\' ∧ 0x20 ≤ c.toNat) ∧ Utf8.Valid s

/-- The calls whose texts can be put into a record. -/
def Recordable (app key cause : Str) : Prop :=
  match getLogCode key with
  | .QUERY => PlainButQuotes cause ∧ Plain app
  | .LATENCY =>
      ∃ latency host parts, cause.splitOn ',' = latency :: host :: parts ∧
        PlainButQuotes latency ∧ Plain app ∧ PlainButQuotes host
  | _ => Plain app ∧ Plain key ∧ PlainButQuotes cause

/-! ## Escaping the quotes -/

theorem escapeQuotes_quote (s : Str) :
    escapeQuotes ('"' :: s) = '\\' :: '"' :: escapeQuotes s := rfl

theorem escapeQuotes_of_ne {c : Char} (hc : c ≠ '"') (s : Str) :
    escapeQuotes (c :: s) = c :: escapeQuotes s := by
  rw [escapeQuotes, List.flatMap_cons, if_neg hc]
  rfl

theorem written_escapeQuotes (s : Str) : Written s (escapeQuotes s) := by
  induction s with
  | nil => exact .nil
  | cons c s ih =>
      by_cases hc : c = '"'
      · subst hc
        exact .quote ih
      · rw [escapeQuotes_of_ne hc]
        exact .same c ih

theorem escaped_escapeQuotes {s : Str} :
    Escaped s (escapeQuotes s) ↔ ∀ c ∈ s, c ≠ '\\' ∧ 0x20 ≤ c.toNat := by
  induction s with
  | nil => exact iff_of_true .nil fun c hc ↦ absurd hc List.not_mem_nil
  | cons c s ih =>
      rw [List.forall_mem_cons, ← ih]
      by_cases hc : c = '"'
      · subst hc
        rw [escapeQuotes_quote, and_iff_right (by decide)]
        exact ⟨fun h ↦ by cases h with | quote h => exact h, .quote⟩
      · rw [escapeQuotes_of_ne hc, escaped_cons]
        exact and_congr_left' (and_iff_right hc)

/-- The quotes are escaped within the parts. -/
theorem splitOn_escapeQuotes (s : Str) :
    (escapeQuotes s).splitOn ',' = (s.splitOn ',').map escapeQuotes := by
  induction s with
  | nil => rfl
  | cons c s ih =>
      obtain ⟨part, parts, hs⟩ := List.exists_cons_of_ne_nil (List.splitOn_ne_nil ',' s)
      rw [hs, List.map_cons] at ih
      by_cases hc : c = '"'
      · subst hc
        rw [escapeQuotes_quote, List.splitOn_cons_eq_if_modifyHead, if_neg (by decide),
          List.splitOn_cons_eq_if_modifyHead, if_neg (by decide),
          List.splitOn_cons_eq_if_modifyHead, if_neg (by decide), ih, hs]
        rfl
      · rw [escapeQuotes_of_ne hc, List.splitOn_cons_eq_if_modifyHead,
          List.splitOn_cons_eq_if_modifyHead, ih, hs]
        split_ifs
        · rfl
        · simp [escapeQuotes_of_ne hc]

/-! ## The fields of a record -/

theorem ascii {s : Str} (h : (s.all fun c ↦ decide (Unescaped c ∧ c.toNat ≤ 0x7F)) = true) :
    ∀ c ∈ s, Unescaped c ∧ c.toNat ≤ 0x7F :=
  fun c hc ↦ of_decide_eq_true (List.all_eq_true.mp h c hc)

/-- The field that says what kind of record it is. -/
def typeField (type : Str) : Field where
  name := "type".toList
  space := [' ']
  value := type
  written := type
  hname := ascii rfl
  hspace := by simp
  hwritten := .refl type

def queryFields (app cause : Str) : List Field :=
  [⟨"query".toList, [], cause, escapeQuotes cause, ascii rfl, by simp, written_escapeQuotes cause⟩,
    ⟨"correlation_id".toList, [], app, app, ascii rfl, by simp, .refl app⟩]

def latencyFields (app latency host : Str) : List Field :=
  [⟨"latency".toList, [' '], latency, escapeQuotes latency, ascii rfl, by simp,
      written_escapeQuotes latency⟩,
    ⟨"correlation_id".toList, [], app, app, ascii rfl, by simp, .refl app⟩,
    ⟨"host".toList, [' '], host, escapeQuotes host, ascii rfl, by simp, written_escapeQuotes host⟩]

def applicationFields (app key cause : Str) : List Field :=
  [⟨"application_log".toList, [' '], app ++ ' ' :: (key ++ ' ' :: cause),
      app ++ ' ' :: (key ++ ' ' :: escapeQuotes cause), ascii rfl, by simp,
      (((written_escapeQuotes cause).same ' ').append_left key |>.same ' ').append_left app⟩]

/-- The line for an object with these members. -/
def itemOf (fs : List Field) : Str := '\x7b' :: fieldsText fs ++ ['\n']

theorem isRecord_iff {type : Str} {fs : List Field}
    (htype : (type.all fun c ↦ decide (Unescaped c ∧ c.toNat ≤ 0x7F)) = true)
    (hnames : ((typeField type :: fs).map Field.name).Nodup) :
    IsRecord (itemOf (typeField type :: fs)) (fs.map fun f ↦ (f.name, f.value)) ↔
      ∀ f ∈ fs, f.Readable := by
  have hvalid : Utf8.Valid (type ++ []) :=
    (Utf8.valid_ascii_append (fun c hc ↦ (ascii htype c hc).2) []).mpr Utf8.valid_nil
  have hreadable : (typeField type).Readable :=
    ⟨escaped_self.mpr fun c hc ↦ (ascii htype c hc).1, by rwa [List.append_nil] at hvalid⟩
  rw [← exists_isText_iff hnames hreadable]
  constructor
  · rintro ⟨text, ms, htext, -, hms, hmembers⟩
    obtain ⟨rfl, -⟩ := List.append_inj' htext rfl
    rw [List.forall_mem_map] at hmembers
    exact ⟨ms, hms, hmembers⟩
  · rintro ⟨ms, hms, hmembers⟩
    have hfields := (exists_isText_iff hnames hreadable).mp ⟨ms, hms, hmembers⟩
    refine ⟨_, ms, rfl, ?_, hms, List.forall_mem_map.mpr hmembers⟩
    -- a line break is a control character
    intro hbreak
    have hprintable : ∀ c ∈ fieldsText (typeField type :: fs), 0x20 ≤ c.toNat :=
      printable_fieldsText (List.forall_mem_cons.mpr
        ⟨hreadable.escaped, fun f hf ↦ (hfields f hf).escaped⟩)
    rcases List.mem_cons.mp hbreak with hbreak | hbreak
    · cases hbreak
    · exact absurd (hprintable _ hbreak) (by decide)

theorem records_iff_isRecord {queue : List Str} {app key cause item : Str}
    {members : List (Str × Str)} (hitem : Log queue app key cause = some (queue ++ [item]))
    (hmembers : expected app key cause = some members) :
    Records queue app key cause ↔ IsRecord item members := by
  constructor
  · rintro ⟨item', members', hitem', hmembers', h⟩
    rw [hitem, Option.some_inj] at hitem'
    rw [hmembers, Option.some_inj] at hmembers'
    obtain ⟨-, hcons⟩ := List.append_inj hitem' rfl
    obtain rfl := List.singleton_inj.mp hcons
    exact hmembers' ▸ h
  · exact fun h ↦ ⟨item, members, hitem, hmembers, h⟩

/-! ## The three kinds of records -/

theorem plain_iff {s : Str} : Plain s ↔ Escaped s s ∧ Utf8.Valid s := by
  rw [escaped_self, Plain]

theorem plainButQuotes_iff {s : Str} :
    PlainButQuotes s ↔ Escaped s (escapeQuotes s) ∧ Utf8.Valid s := by
  rw [escaped_escapeQuotes, PlainButQuotes]

theorem records_query {queue : List Str} {app key cause : Str} (hkey : getLogCode key = .QUERY) :
    Records queue app key cause ↔ PlainButQuotes cause ∧ Plain app := by
  have hitem : Log queue app key cause =
      some (queue ++ [itemOf (typeField "query".toList :: queryFields app cause)]) := by
    unfold Log
    simp [hkey, DoLog, BaseContentWriter.Write, itemOf, queryFields, fieldsText, Field.text,
      typeField]
  have hmembers : expected app key cause =
      some ((queryFields app cause).map fun f ↦ (f.name, f.value)) := by
    simp only [expected, hkey]
    rfl
  have hnames : ((typeField "query".toList :: queryFields app cause).map Field.name).Nodup := by
    show ["type".toList, "query".toList, "correlation_id".toList].Nodup
    decide
  rw [records_iff_isRecord hitem hmembers, isRecord_iff rfl hnames, queryFields,
    List.forall_mem_cons, List.forall_mem_singleton, Field.readable_iff, Field.readable_iff,
    ← plainButQuotes_iff, ← plain_iff]

theorem records_latency {queue : List Str} {app key cause : Str}
    (hkey : getLogCode key = .LATENCY) :
    Records queue app key cause ↔
      ∃ latency host parts, cause.splitOn ',' = latency :: host :: parts ∧
        PlainButQuotes latency ∧ Plain app ∧ PlainButQuotes host := by
  have hsplit : split (escapeQuotes cause) [','] ((escapeQuotes cause).length + 1) =
      some ((cause.splitOn ',').map escapeQuotes) := by
    rw [split_singleton ',' (Nat.lt_succ_self _), splitOn_escapeQuotes]
  match hparts : cause.splitOn ',' with
  | [] => exact absurd hparts (List.splitOn_ne_nil ',' cause)
  | [latency] =>
      apply iff_of_false
      · rintro ⟨item, members, -, hmembers, -⟩
        simp [expected, hkey, hparts] at hmembers
      · rintro ⟨latency, host, parts, h, -⟩
        cases h
  | latency :: host :: parts =>
      have hitem : Log queue app key cause = some (queue ++
          [itemOf (typeField "latency".toList :: latencyFields app latency host)]) := by
        unfold Log
        simp [hkey, hsplit, hparts, DoLog, BaseContentWriter.Write, itemOf, latencyFields,
          fieldsText, Field.text, typeField]
      have hmembers : expected app key cause =
          some ((latencyFields app latency host).map fun f ↦ (f.name, f.value)) := by
        simp only [expected, hkey, hparts]
        rfl
      have hnames :
          ((typeField "latency".toList :: latencyFields app latency host).map
            Field.name).Nodup := by
        show ["type".toList, "latency".toList, "correlation_id".toList, "host".toList].Nodup
        decide
      rw [records_iff_isRecord hitem hmembers, isRecord_iff rfl hnames, latencyFields,
        List.forall_mem_cons, List.forall_mem_cons, List.forall_mem_singleton,
        Field.readable_iff, Field.readable_iff, Field.readable_iff, ← plainButQuotes_iff,
        ← plain_iff, ← plainButQuotes_iff]
      constructor
      · exact fun h ↦ ⟨latency, host, parts, rfl, h⟩
      · rintro ⟨latency', host', parts', heq, h⟩
        obtain ⟨rfl, rfl, rfl⟩ : latency = latency' ∧ host = host' ∧ parts = parts' := by
          simpa using heq
        exact h

theorem records_application {queue : List Str} {app key cause : Str}
    (hquery : getLogCode key ≠ .QUERY) (hlatency : getLogCode key ≠ .LATENCY) :
    Records queue app key cause ↔ Plain app ∧ Plain key ∧ PlainButQuotes cause := by
  have hitem : Log queue app key cause = some (queue ++
      [itemOf (typeField "application_log".toList :: applicationFields app key cause)]) := by
    unfold Log
    cases hkey : getLogCode key
    case QUERY => exact absurd hkey hquery
    case LATENCY => exact absurd hkey hlatency
    all_goals
      simp [DoLog, BaseContentWriter.Write, itemOf, applicationFields, fieldsText, Field.text,
        typeField]
  have hmembers : expected app key cause =
      some ((applicationFields app key cause).map fun f ↦ (f.name, f.value)) := by
    unfold expected
    cases hkey : getLogCode key
    case QUERY => exact absurd hkey hquery
    case LATENCY => exact absurd hkey hlatency
    all_goals rfl
  have hnames :
      ((typeField "application_log".toList :: applicationFields app key cause).map
        Field.name).Nodup := by
    show ["type".toList, "application_log".toList].Nodup
    decide
  have hspace : Unescaped ' ' := by decide
  rw [records_iff_isRecord hitem hmembers, isRecord_iff rfl hnames, applicationFields,
    List.forall_mem_singleton, Field.readable_iff, escaped_append_left, escaped_cons,
    escaped_append_left, escaped_cons, Utf8.valid_append_cons (by decide),
    Utf8.valid_append_cons (by decide), and_iff_right hspace, and_iff_right hspace,
    plainButQuotes_iff, Plain, Plain]
  tauto

/-- `Log` queues a record as it should if and only if the texts need no escapes but
those of the quotes in the cause. -/
theorem records_iff {queue : List Str} {app key cause : Str} :
    Records queue app key cause ↔ Recordable app key cause := by
  unfold Recordable
  split
  case h_1 hkey => exact records_query hkey
  case h_2 hkey => exact records_latency hkey
  case h_3 hquery hlatency => exact records_application hquery hlatency

/-- A query of two lines makes a record of two lines. -/
theorem records_lineBreak : ¬ Records [] "app".toList "QUERY".toList "SELECT 1\nFROM t".toList := by
  rw [records_query rfl]
  rintro ⟨⟨h, -⟩, -⟩
  exact absurd (h '\n' (by decide)) (by decide)

end NetLogStrategy

end AsabruCommons.Logger
