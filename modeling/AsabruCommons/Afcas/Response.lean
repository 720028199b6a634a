import AsabruCommons.Afcas.Client
import AsabruCommons.Json.Reading

/-!
# What the server answers

`processResponse` cuts a JSON text out of a response, from the first opening to the last
closing brace, and has it parsed.  When the braces come in the other order the number of
characters to cut out is negative, so it is zero or very large, and the text is empty or
has no closing brace; neither can be parsed.  So whatever is not parsed is an invalid
argument (`processResponse_outcome`), and a response decides a query exactly when an
object stands between these braces and its `data` is a boolean (`Decides`).

What is assumed of the JSON parser is what the grammar says of texts that begin with a
brace (`ParsesObjects.of_isText`).
-/

namespace AsabruCommons.Afcas

open Search

/-- An empty text is not a JSON text, and one that begins with a brace is an object and
has a closing brace. -/
structure ParsesObjects (parse : Str → Except Str Json.Value) : Prop where
  nil : ∀ v, parse [] ≠ .ok v
  object : ∀ s v, parse ('\x7b' :: s) = .ok v → (∃ members, v = .object members) ∧ '\x7d' ∈ s

/-- What `processResponse` needs of this: an empty text is rejected, and so is one that
begins with an opening brace and has no closing one. -/
structure RejectsUnclosed (parse : Str → Except Str Json.Value) : Prop where
  nil : ∀ v, parse [] ≠ .ok v
  unclosed : ∀ s v, '\x7d' ∉ s → parse ('\x7b' :: s) ≠ .ok v

theorem ParsesObjects.rejectsUnclosed {parse : Str → Except Str Json.Value}
    (h : ParsesObjects parse) : RejectsUnclosed parse where
  nil := h.nil
  unclosed := by
    intro s v hs hv
    exact hs (h.object s v hv).2

/-- So is what is cut out of a response whose braces come in the other order. -/
theorem RejectsUnclosed.parse_ne {parse : Str → Except Str Json.Value}
    (hparse : RejectsUnclosed parse) {json_string : Str}
    (h : json_string = [] ∨ ∃ s, json_string = '\x7b' :: s ∧ '\x7d' ∉ s) (v : Json.Value) :
    parse json_string ≠ .ok v := by
  rcases h with rfl | ⟨s, rfl, hs⟩
  · exact hparse.nil v
  · exact hparse.unclosed s v hs

/-- A parser that accepts JSON texts only, and gives what they stand for. -/
theorem ParsesObjects.of_isText {parse : Str → Except Str Json.Value}
    (h : ∀ s v, parse s = .ok v → Json.IsText s v) : ParsesObjects parse where
  nil := by
    intro v hv
    exact Json.not_isText_nil v (h [] v hv)
  object := by
    intro s v hv
    exact (h _ v hv).of_brace

/-- The status is 200, and the text from the first to the last brace is an object whose
`data` is this boolean. -/
def Decides (parse : Str → Except Str Json.Value) (response : HttpResponse) (b : Bool) : Prop :=
  response.status_code = 200 ∧ ∃ l m r members,
    response.response_content = l ++ '\x7b' :: (m ++ '\x7d' :: r) ∧ '\x7b' ∉ l ∧ '\x7d' ∉ r ∧
      parse ('\x7b' :: (m ++ ['\x7d'])) = .ok (.object members) ∧
      OrderedMap.lookupLast members "data".toList = some (.boolean b)

namespace AfcasClient

/-! ## Cutting out the text -/

/-- The number of characters is computed modulo `2 ^ 64`, as positions in a string are less
than that. -/
theorem count_eq_emod {start_index end_index : Nat} (hstart : start_index < 18446744073709551616)
    (hend : end_index + 1 < 18446744073709551616) :
    (count start_index end_index : Int) =
      ((end_index : Int) - start_index + 1) % 18446744073709551616 := by
  rw [count]
  split
  · rw [Int.emod_eq_of_lt]
    · omega
    · omega
    · omega
  · have hwrap : ((end_index : Int) - start_index + 1) % 18446744073709551616 =
        ((end_index : Int) - start_index + 1 + 18446744073709551616) % 18446744073709551616 :=
      (Int.add_emod_right _ _).symm
    rw [hwrap, Int.emod_eq_of_lt]
    · omega
    · omega
    · omega

/-- What is done with the text that was cut out. -/
def parsed (parse : Str → Except Str Json.Value) (json_string : Str) :
    Except Failure Json.Value :=
  match parse json_string with
  | .ok json => .ok json
  | .error what => .error (.invalid_argument ("Error parsing JSON: ".toList ++ what))

theorem parsed_eq_ok_iff {parse : Str → Except Str Json.Value} {json_string : Str}
    {v : Json.Value} : parsed parse json_string = .ok v ↔ parse json_string = .ok v := by
  rw [parsed]
  cases parse json_string with
  | ok json => rw [Except.ok.injEq, Except.ok.injEq]
  | error what => simp

variable (parse : Str → Except Str Json.Value)

theorem processResponse_of_notMem {response : Str} (h : '\x7b' ∉ response ∨ '\x7d' ∉ response) :
    processResponse parse response = .error (.invalid_argument "Invalid JSON format".toList) := by
  rw [processResponse]
  rcases h with h | h
  · rw [find_singleton_of_notMem h]
  · rw [rfind_singleton_of_notMem h]
    cases find ['\x7b'] response with
    | none => rfl
    | some start_index => rfl

theorem processResponse_of_substr {response json_string : Str} {start_index end_index : Nat}
    (hstart : find ['\x7b'] response = some start_index)
    (hend : rfind ['\x7d'] response = some end_index)
    (hcut : substr response start_index (some (count start_index end_index)) =
      some json_string) :
    processResponse parse response = parsed parse json_string := by
  rw [processResponse, hstart, hend]
  simp only [hcut]
  rfl

/-- The braces in their order. -/
theorem processResponse_ordered {l r : Str} (hl : '\x7b' ∉ l) (hr : '\x7d' ∉ r) (m : Str) :
    processResponse parse (l ++ '\x7b' :: (m ++ '\x7d' :: r)) =
      parsed parse ('\x7b' :: (m ++ ['\x7d'])) := by
  have hend : rfind ['\x7d'] (l ++ '\x7b' :: (m ++ '\x7d' :: r)) =
      some (l.length + m.length + 1) := by
    have h := rfind_singleton_append hr (l ++ '\x7b' :: m)
    rw [List.append_assoc, List.cons_append, List.length_append, List.length_cons] at h
    exact h
  have hcount : count l.length (l.length + m.length + 1) =
      ('\x7b' :: (m ++ ['\x7d'])).length := by
    rw [count, if_pos (by omega), List.length_cons, List.length_append, List.length_singleton]
    omega
  have hcut := substr_middle l ('\x7b' :: (m ++ ['\x7d'])) r
  rw [List.cons_append, List.append_assoc, List.singleton_append, ← hcount] at hcut
  exact processResponse_of_substr parse (find_singleton_append hl _) hend hcut

/-- The braces in the other order: what is cut out is empty, or it has no closing
brace. -/
theorem processResponse_reversed {u y t : Str} (hu : '\x7b' ∉ u ++ '\x7d' :: y)
    (ht : '\x7d' ∉ y ++ '\x7b' :: t) :
    ∃ json_string, processResponse parse (u ++ '\x7d' :: (y ++ '\x7b' :: t)) =
        parsed parse json_string ∧
      (json_string = [] ∨ ∃ s, json_string = '\x7b' :: s ∧ '\x7d' ∉ s) := by
  have hresponse : u ++ '\x7d' :: (y ++ '\x7b' :: t) = (u ++ '\x7d' :: y) ++ '\x7b' :: t := by
    rw [List.append_assoc, List.cons_append]
  have hstart : find ['\x7b'] (u ++ '\x7d' :: (y ++ '\x7b' :: t)) =
      some (u ++ '\x7d' :: y).length := by
    rw [hresponse]
    exact find_singleton_append hu t
  have hcut (n : Nat) : substr (u ++ '\x7d' :: (y ++ '\x7b' :: t)) (u ++ '\x7d' :: y).length
      (some n) = some (('\x7b' :: t).take n) := by
    rw [hresponse, substr, if_pos (by simp), List.drop_left]
    rfl
  refine ⟨_, processResponse_of_substr parse hstart (rfind_singleton_append ht u) (hcut _), ?_⟩
  cases count (u ++ '\x7d' :: y).length u.length with
  | zero => exact .inl rfl
  | succ n =>
      refine .inr ⟨t.take n, rfl, fun hmem ↦ ht ?_⟩
      exact List.mem_append_right _ (List.mem_cons_of_mem _ (List.mem_of_mem_take hmem))

/-- **Every response.**  A brace is missing; or the text between the braces is parsed; or
they are in the other order, and something is parsed that has no closing brace. -/
theorem processResponse_cases (response : Str) :
    processResponse parse response = .error (.invalid_argument "Invalid JSON format".toList) ∨
      (∃ l m r, response = l ++ '\x7b' :: (m ++ '\x7d' :: r) ∧ '\x7b' ∉ l ∧ '\x7d' ∉ r ∧
        processResponse parse response = parsed parse ('\x7b' :: (m ++ ['\x7d']))) ∨
      ∃ json_string, processResponse parse response = parsed parse json_string ∧
        (json_string = [] ∨ ∃ s, json_string = '\x7b' :: s ∧ '\x7d' ∉ s) := by
  by_cases hmem : '\x7b' ∈ response ∧ '\x7d' ∈ response
  · obtain ⟨l, t, rfl, hl⟩ := List.eq_append_cons_of_mem hmem.1
    obtain ⟨u, r, hcut, hr⟩ := eq_append_cons_last hmem.2
    refine .inr ?_
    rcases List.append_eq_append_iff.mp hcut with ⟨x, rfl, hx⟩ | ⟨x, rfl, hx⟩
    · -- the closing brace comes after the opening one
      cases x with
      | nil => cases (List.cons_eq_cons.mp hx).1
      | cons d m =>
          rw [List.cons_append] at hx
          obtain ⟨rfl, rfl⟩ := List.cons_eq_cons.mp hx
          exact .inl ⟨l, m, r, rfl, hl, hr, processResponse_ordered parse hl hr m⟩
    · cases x with
      | nil => cases (List.cons_eq_cons.mp hx).1
      | cons d y =>
          rw [List.cons_append] at hx
          obtain ⟨rfl, rfl⟩ := List.cons_eq_cons.mp hx
          rw [hcut]
          exact .inr (processResponse_reversed parse hl hr)
  · exact .inl (processResponse_of_notMem parse (not_and_or.mp hmem))

variable {parse}

/-- The text that is parsed goes from the first opening to the last closing brace, and
they come in this order. -/
theorem processResponse_eq_ok_iff (hparse : RejectsUnclosed parse) {response : Str}
    {v : Json.Value} :
    processResponse parse response = .ok v ↔
      ∃ l m r, response = l ++ '\x7b' :: (m ++ '\x7d' :: r) ∧ '\x7b' ∉ l ∧ '\x7d' ∉ r ∧
        parse ('\x7b' :: (m ++ ['\x7d'])) = .ok v := by
  constructor
  · intro h
    rcases processResponse_cases parse response with
      hno | ⟨l, m, r, rfl, hl, hr, hordered⟩ | ⟨json_string, hreversed, hstring⟩
    · rw [hno] at h
      cases h
    · rw [hordered, parsed_eq_ok_iff] at h
      exact ⟨l, m, r, rfl, hl, hr, h⟩
    · rw [hreversed, parsed_eq_ok_iff] at h
      exact absurd h (hparse.parse_ne hstring v)
  · rintro ⟨l, m, r, rfl, hl, hr, h⟩
    rw [processResponse_ordered parse hl hr, parsed_eq_ok_iff]
    exact h

/-! ## What a response can come to -/

/-- A text that is not parsed is an invalid argument. -/
theorem parsed_eq_error {json_string : Str} (h : ∀ v, parse json_string ≠ .ok v) :
    ∃ what, parsed parse json_string = .error (.invalid_argument what) := by
  rw [parsed]
  cases hjson : parse json_string with
  | ok v => exact absurd hjson (h v)
  | error what => exact ⟨_, rfl⟩

/-- **A response is parsed, or it is an invalid argument.**  The text that is parsed goes
from the first opening to the last closing brace, which come in this order, and `substr`
never throws. -/
theorem processResponse_outcome (hparse : RejectsUnclosed parse) (response : Str) :
    ((∃ l m r v, response = l ++ '\x7b' :: (m ++ '\x7d' :: r) ∧ '\x7b' ∉ l ∧ '\x7d' ∉ r ∧
        parse ('\x7b' :: (m ++ ['\x7d'])) = .ok v ∧ processResponse parse response = .ok v) ∨
      ∃ what, processResponse parse response = .error (.invalid_argument what)) ∧
    ∀ start_index end_index, find ['\x7b'] response = some start_index →
      rfind ['\x7d'] response = some end_index →
        (substr response start_index (some (count start_index end_index))).isSome := by
  constructor
  · rcases processResponse_cases parse response with
      hno | ⟨l, m, r, hresponse, hl, hr, hordered⟩ | ⟨json_string, hreversed, hstring⟩
    · exact .inr ⟨_, hno⟩
    · rw [hordered]
      by_cases hparsed : ∃ v, parse ('\x7b' :: (m ++ ['\x7d'])) = .ok v
      · obtain ⟨v, hv⟩ := hparsed
        exact .inl ⟨l, m, r, v, hresponse, hl, hr, hv, parsed_eq_ok_iff.mpr hv⟩
      · exact .inr (parsed_eq_error (not_exists.mp hparsed))
    · rw [hreversed]
      exact .inr (parsed_eq_error (hparse.parse_ne hstring))
  · intro start_index end_index hstart _
    obtain ⟨⟨l, r, rfl, rfl⟩, -⟩ := exists_of_find hstart
    rw [substr, if_pos]
    · rfl
    · rw [List.length_append]
      exact Nat.le_add_right _ _

/-- The closing brace stands in front of the opening one. -/
theorem processResponse_outcome_reversed :
    ∃ parse : Str → Except Str Json.Value, parse "\x7b\x7d".toList = .ok (.object []) ∧
      ∃ what, processResponse parse "\x7d \x7b".toList = .error (.invalid_argument what) := by
  have hparse : RejectsUnclosed fun s ↦ if s = "\x7b\x7d".toList then .ok (.object [])
      else .error "parse error".toList := by
    refine ⟨nofun, ?_⟩
    intro s v hs hv
    split at hv
    · rename_i hempty
      rw [(List.cons_eq_cons.mp hempty).2] at hs
      exact hs (List.mem_singleton_self _)
    · cases hv
  refine ⟨_, rfl, ((processResponse_outcome hparse _).1.resolve_left ?_)⟩
  rintro ⟨l, m, r, v, -, -, -, -, hv⟩
  cases hv

end AfcasClient

/-! ## A query -/

theorem bind_eq_ok_iff {ε α β : Type} {x : Except ε α} {f : α → Except ε β} {b : β} :
    x.bind f = .ok b ↔ ∃ a, x = .ok a ∧ f a = .ok b := by
  cases x with
  | error e => simp [Except.bind]
  | ok a => simp [Except.bind]

namespace AfcasClient

/-- Reading a boolean member of an object. -/
theorem getBool_at_iff {members : List (Str × Json.Value)} {key : Str} {b : Bool} :
    (at_ (.object members) key).bind getBool = .ok b ↔
      OrderedMap.lookupLast members key = some (.boolean b) := by
  show getBool ((OrderedMap.lookupLast members key).getD .null) = .ok b ↔ _
  cases OrderedMap.lookupLast members key with
  | none => simp [getBool]
  | some value => cases value <;> simp [getBool]

/-- What a response says, if anything. -/
def decision (parse : Str → Except Str Json.Value) (res : HttpResponse) : Except Failure Bool :=
  if res.status_code ≠ 200 then
    .error (.runtime_error "Failed to check authorization".toList)
  else
    (processResponse parse res.response_content).bind fun responseBody ↦
      (at_ responseBody "data".toList).bind getBool

theorem decision_eq_ok_iff {parse : Str → Except Str Json.Value} (hparse : ParsesObjects parse)
    {res : HttpResponse} {b : Bool} : decision parse res = .ok b ↔ Decides parse res b := by
  rw [decision, Decides]
  by_cases hstatus : res.status_code = 200
  · rw [if_neg (not_not_intro hstatus), bind_eq_ok_iff]
    constructor
    · rintro ⟨v, hv, hb⟩
      obtain ⟨l, m, r, hcontent, hl, hr, hm⟩ :=
        (processResponse_eq_ok_iff hparse.rejectsUnclosed).mp hv
      obtain ⟨⟨members, rfl⟩, -⟩ := hparse.object _ v hm
      exact ⟨hstatus, l, m, r, members, hcontent, hl, hr, hm, getBool_at_iff.mp hb⟩
    · rintro ⟨-, l, m, r, members, hcontent, hl, hr, hm, hb⟩
      refine ⟨.object members, ?_, getBool_at_iff.mpr hb⟩
      exact (processResponse_eq_ok_iff hparse.rejectsUnclosed).mpr ⟨l, m, r, hcontent, hl, hr, hm⟩
  · rw [if_pos hstatus]
    simp [hstatus]

/-- The request of a query. -/
def query (client : AfcasClient) (port : Int) (principalName operationId resourceId : Str) :
    Request :=
  { host := client.host, port, method := .GET,
    requestUri := authorizationUri principalName operationId resourceId, content := [],
    contentType := "application/json".toList }

theorem run_isAuthorized (network : Network) (parse : Str → Except Str Json.Value)
    (client : AfcasClient) (p o r : Str) (sent : List Request) :
    (client.isAuthorized network parse p o r).run.run sent =
      match readPort client.port with
      | .error e => (.error e, sent)
      | .ok port => ((orFail .dispatch (network sent.length)).bind (decision parse),
          sent ++ [client.query port p o r]) := by
  have hsend := run_sendRequest network client.host client.port (authorizationUri p o r) .GET []
    "application/json".toList sent
  rw [isAuthorized]
  cases hport : readPort client.port with
  | error e =>
      rw [hport] at hsend
      exact run_bind_of_error hsend
  | ok port =>
      rw [hport] at hsend
      cases hres : network sent.length with
      | none =>
          rw [hres] at hsend
          exact run_bind_of_error hsend
      | some res =>
          rw [hres] at hsend
          rw [run_bind_of_ok hsend]
          show _ = (decision parse res, sent ++ [client.query port p o r])
          by_cases hstatus : res.status_code = 200
          · rw [decision, if_neg (not_not_intro hstatus), if_neg (not_not_intro hstatus)]
            cases hbody : processResponse parse res.response_content with
            | error e => rfl
            | ok responseBody => exact run_ofExcept ..
          · rw [decision, if_pos hstatus, if_pos hstatus]
            rfl

end AfcasClient

end AsabruCommons.Afcas
