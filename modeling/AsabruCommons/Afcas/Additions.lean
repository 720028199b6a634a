import AsabruCommons.Afcas.Migration
import AsabruCommons.Json.Fields
import AsabruCommons.Json.Writing

/-!
# Adding to the server, whatever it answers

The constructor and the `add` functions send one request after the other, and the first
that is not accepted ends everything with an exception.  What was added before it stays
on the server, so the requests that have been sent are a front part of those that were
planned (`session_outcome`): one more than were accepted, or as many, if the next one could not
even be made.

What a request says is what the server reads (`content_read_back`): its content is a JSON
text that stands for one object only, and this has the fields of the call for its members.
-/

namespace AsabruCommons.Afcas

open Http Search

/-- A request to add something: where it goes and what it carries, which responses accept
it, and what is thrown for the others. -/
structure Addition where
  requestUri : Str
  json : List (Str × Str)
  accepts : HttpResponse → Bool
  what : Str

namespace AfcasClient

/-- A call of one of the `add` functions. -/
inductive Call where
  | addPrincipal (principal : Principal)
  | addGroup (group : Group)
  | addResource (resource : Resource)
  | addOperation (operation : Operation)
  | addResourceAccessPredicate (resourceAccessPredicate : ResourceAccessPredicate)
deriving DecidableEq

variable (network : Network) (client : AfcasClient)

def Call.perform : Call → Action Unit
  | .addPrincipal principal => client.addPrincipal network principal
  | .addGroup group => client.addGroup network group
  | .addResource resource => client.addResource network resource
  | .addOperation operation => client.addOperation network operation
  | .addResourceAccessPredicate resourceAccessPredicate =>
      client.addResourceAccessPredicate network resourceAccessPredicate

/-! ## The plan -/

def isOk (response : HttpResponse) : Bool := response.status_code = 200

/-- A predicate may be there already. -/
def isOkOrKnown (response : HttpResponse) : Bool :=
  (response.status_code = 500 ∧
    (find "already exists".toList response.response_content).isSome) || isOk response

/-- What a call is to add, in the order of the requests. -/
def Call.additions : Call → List Addition
  | .addPrincipal principal =>
      [⟨principalsUri, principalJson principal, isOk, "Failed to add principal".toList⟩]
  | .addGroup group => group.members.map fun member ↦
      ⟨groupMembersUri, memberJson group.groupName member, isOk, "Failed to add group".toList⟩
  | .addResource resource =>
      [⟨resourcesUri, resourceJson resource, isOk, "Failed to add resource".toList⟩]
  | .addOperation operation =>
      [⟨operationsUri, operationJson operation, isOk, "Failed to add operation".toList⟩]
  | .addResourceAccessPredicate resourceAccessPredicate =>
      [⟨permissionsUri, predicateJson resourceAccessPredicate, isOkOrKnown,
        "Failed to add resource access predicate".toList⟩]

/-- The calls that the constructor makes. -/
def migrationCalls : List Call :=
  client.principals.map .addPrincipal ++ (client.resources.map .addResource ++
    (client.operations.map .addOperation ++
      client.resourceAccessPredicates.map .addResourceAccessPredicate))

/-- The addition numbered so is sent and accepted. -/
def Accepted (i : Nat) (a : Addition) : Prop :=
  ∃ r response, client.request a.requestUri a.json = .ok r ∧ network i = some response ∧
    a.accepts response = true

/-- How an addition fails, and how many requests it has sent. -/
inductive Refused (i : Nat) (a : Addition) : Failure → Nat → Prop
  | unsendable {e : Failure} (h : client.request a.requestUri a.json = .error e) : Refused i a e 0
  | unanswered {r : Request} (hr : client.request a.requestUri a.json = .ok r)
      (h : network i = none) : Refused i a .dispatch 1
  | rejected {r : Request} {response : HttpResponse}
      (hr : client.request a.requestUri a.json = .ok r) (h : network i = some response)
      (hno : a.accepts response = false) : Refused i a (.runtime_error a.what) 1

/-- What comes of a plan: its requests are sent in order, up to the first addition that is
refused. -/
structure Outcome (plan : List Addition) (start : Nat) (result : Except Failure Unit)
    (asked : List Request) : Prop where
  requests : List.Forall₂ (fun a r ↦ client.request a.requestUri a.json = .ok r)
    (plan.take asked.length) asked
  returns : result = .ok () →
    asked.length = plan.length ∧ ∀ i a, plan[i]? = some a → Accepted network client (start + i) a
  throws : ∀ e, result = .error e → ∃ k a n, plan[k]? = some a ∧ asked.length = k + n ∧
    Refused network client (start + k) a e n ∧
      ∀ i < k, ∀ b, plan[i]? = some b → Accepted network client (start + i) b

variable {network client}

/-! ## One addition -/

/-- What a request for an addition comes to. -/
theorem run_post_cases (a : Addition) (sent : List Request) :
    (∃ e, client.request a.requestUri a.json = .error e ∧
        (client.post network a.requestUri a.json).run.run sent = (.error e, sent)) ∨
      ∃ r, client.request a.requestUri a.json = .ok r ∧
        (client.post network a.requestUri a.json).run.run sent =
          (orFail .dispatch (network sent.length), sent ++ [r]) := by
  cases hr : client.request a.requestUri a.json with
  | ok r => exact .inr ⟨r, rfl, run_post network hr sent⟩
  | error e =>
      refine .inl ⟨e, rfl, ?_⟩
      rw [request] at hr
      rw [post]
      cases hdump : dump a.json with
      | error e' =>
          rw [hdump] at hr
          rw [run_bind_of_error (run_ofExcept (.error e') sent), Except.error.inj hr]
      | ok content =>
          rw [run_bind_of_ok (run_ofExcept (.ok content) sent), run_sendRequest]
          cases hport : readPort client.port with
          | error e' =>
              rw [hdump, hport] at hr
              rw [Except.error.inj hr]
          | ok port =>
              rw [hdump, hport] at hr
              cases hr

/-- A computation performs an addition: it posts it, and throws unless the response
accepts it. -/
def Performs (network : Network) (client : AfcasClient) (m : Action Unit) (a : Addition) : Prop :=
  ∀ sent, m.run.run sent =
    match (client.post network a.requestUri a.json).run.run sent with
    | (.ok response, sent) =>
        if a.accepts response then (.ok (), sent) else (.error (.runtime_error a.what), sent)
    | (.error e, sent) => (.error e, sent)

theorem isOk_iff {response : HttpResponse} : isOk response = true ↔ response.status_code = 200 :=
  decide_eq_true_iff

theorem isOkOrKnown_iff {response : HttpResponse} : isOkOrKnown response = true ↔
    (response.status_code = 500 ∧
      (find "already exists".toList response.response_content).isSome) ∨
        response.status_code = 200 := by
  rw [isOkOrKnown, Bool.or_eq_true, decide_eq_true_iff, isOk_iff]

theorem performs_add (requestUri : Str) (json : List (Str × Str)) (what : Str) :
    Performs network client (client.add network requestUri json what)
      ⟨requestUri, json, isOk, what⟩ := by
  intro sent
  rw [add]
  cases hpost : (client.post network requestUri json).run.run sent with
  | mk result sent =>
      cases result with
      | error e => rw [run_bind_of_error hpost]
      | ok response =>
          rw [run_bind_of_ok hpost]
          by_cases hok : response.status_code = 200
          · rw [if_neg (not_not_intro hok)]
            exact (if_pos (isOk_iff.mpr hok)).symm
          · rw [if_pos hok]
            exact (if_neg (mt isOk_iff.mp hok)).symm

theorem performs_addResourceAccessPredicate (p : ResourceAccessPredicate) :
    Performs network client (client.addResourceAccessPredicate network p)
      ⟨permissionsUri, predicateJson p, isOkOrKnown,
        "Failed to add resource access predicate".toList⟩ := by
  intro sent
  rw [addResourceAccessPredicate]
  cases hpost : (client.post network permissionsUri (predicateJson p)).run.run sent with
  | mk result sent =>
      cases result with
      | error e => rw [run_bind_of_error hpost]
      | ok response =>
          rw [run_bind_of_ok hpost]
          by_cases hknown : response.status_code = 500 ∧
              (find "already exists".toList response.response_content).isSome
          · rw [if_pos hknown]
            exact (if_pos (isOkOrKnown_iff.mpr (.inl hknown))).symm
          · by_cases hok : response.status_code = 200
            · rw [if_neg hknown, if_neg (not_not_intro hok)]
              exact (if_pos (isOkOrKnown_iff.mpr (.inr hok))).symm
            · rw [if_neg hknown, if_pos hok]
              exact (if_neg (mt isOkOrKnown_iff.mp (not_or.mpr ⟨hknown, hok⟩))).symm

/-- What one addition comes to. -/
theorem Performs.outcome {m : Action Unit} {a : Addition} (h : Performs network client m a)
    (sent : List Request) :
    ∃ result asked, m.run.run sent = (result, sent ++ asked) ∧
      Outcome network client [a] sent.length result asked := by
  rcases @run_post_cases network client a sent with
    ⟨e, hr, hpost⟩ | ⟨r, hr, hpost⟩
  · refine ⟨.error e, [], ?_, .nil, nofun, ?_⟩
    · rw [h, hpost, List.append_nil]
    · rintro e' ⟨⟩
      exact ⟨0, a, 0, rfl, rfl, .unsendable hr, nofun⟩
  · have hasked : List.Forall₂ (fun a r ↦ client.request a.requestUri a.json = .ok r)
        ([a].take [r].length) [r] := .cons hr .nil
    cases hresponse : network sent.length with
    | none =>
        refine ⟨.error .dispatch, [r], ?_, hasked, nofun, ?_⟩
        · rw [h, hpost, hresponse]
          rfl
        · rintro e' ⟨⟩
          exact ⟨0, a, 1, rfl, rfl, .unanswered hr hresponse, nofun⟩
    | some response =>
        cases hok : a.accepts response with
        | true =>
            refine ⟨.ok (), [r], ?_, hasked, fun _ ↦ ⟨rfl, ?_⟩, nofun⟩
            · rw [h, hpost, hresponse]
              exact if_pos hok
            · intro i b hb
              obtain ⟨rfl, rfl⟩ : i = 0 ∧ a = b := by
                cases i with
                | zero => exact ⟨rfl, Option.some.inj hb⟩
                | succ i => cases hb
              exact ⟨r, response, hr, hresponse, hok⟩
        | false =>
            refine ⟨.error (.runtime_error a.what), [r], ?_, hasked, nofun, ?_⟩
            · rw [h, hpost, hresponse]
              exact if_neg (by rw [hok]; exact Bool.false_ne_true)
            · rintro e' ⟨⟩
              exact ⟨0, a, 1, rfl, rfl, .rejected hr hresponse hok, nofun⟩

/-! ## One after the other -/

theorem Outcome.length_le {plan : List Addition} {start : Nat} {result : Except Failure Unit}
    {asked : List Request} (h : Outcome network client plan start result asked) :
    asked.length ≤ plan.length := by
  have hlength := h.requests.length_eq
  rw [List.length_take] at hlength
  omega

/-- A first part that returns, and what follows it. -/
theorem Outcome.append {plan plan' : List Addition} {start : Nat} {result : Except Failure Unit}
    {asked asked' : List Request} (h : Outcome network client plan start (.ok ()) asked)
    (h' : Outcome network client plan' (start + asked.length) result asked') :
    Outcome network client (plan ++ plan') start result (asked ++ asked') := by
  obtain ⟨hlength, haccepted⟩ := h.returns rfl
  rw [hlength] at h'
  have hbefore : ∀ {k : Nat}, (∀ i < k, ∀ b, plan'[i]? = some b →
      Accepted network client (start + plan.length + i) b) →
        ∀ i < plan.length + k, ∀ b, (plan ++ plan')[i]? = some b →
          Accepted network client (start + i) b := by
    intro k hk i hi b hb
    rcases Nat.lt_or_ge i plan.length with hlt | hge
    · rw [List.getElem?_append_left hlt] at hb
      exact haccepted i b hb
    · rw [List.getElem?_append_right hge] at hb
      have h := hk (i - plan.length) (by omega) b hb
      rwa [show start + plan.length + (i - plan.length) = start + i by omega] at h
  refine ⟨?_, fun hok ↦ ?_, fun e he ↦ ?_⟩
  · rw [List.length_append, hlength, List.take_length_add_append]
    have hfirst := h.requests
    rw [hlength, List.take_length] at hfirst
    exact List.rel_append hfirst h'.requests
  · obtain ⟨hlength', haccepted'⟩ := h'.returns hok
    refine ⟨by rw [List.length_append, List.length_append, hlength, hlength'], fun i b hb ↦ ?_⟩
    have hi := (List.getElem?_eq_some_iff.mp hb).1
    rw [List.length_append] at hi
    exact hbefore (fun j _ ↦ haccepted' j) i hi b hb
  · obtain ⟨k, a, n, hk, hasked, hrefused, hrest⟩ := h'.throws e he
    refine ⟨plan.length + k, a, n, ?_, ?_, ?_, hbefore hrest⟩
    · rw [List.getElem?_append_right (Nat.le_add_right _ _), Nat.add_sub_cancel_left, hk]
    · rw [List.length_append, hlength, hasked, Nat.add_assoc]
    · rwa [← Nat.add_assoc]

/-- A first part that throws is the end. -/
theorem Outcome.of_error {plan plan' : List Addition} {start : Nat} {e : Failure}
    {asked : List Request} (h : Outcome network client plan start (.error e) asked) :
    Outcome network client (plan ++ plan') start (.error e) asked := by
  refine ⟨?_, nofun, fun e' he ↦ ?_⟩
  · rw [List.take_append_of_le_length h.length_le]
    exact h.requests
  · obtain ⟨k, a, n, hk, hasked, hrefused, hrest⟩ := h.throws e' he
    have hlt := (List.getElem?_eq_some_iff.mp hk).1
    refine ⟨k, a, n, by rw [List.getElem?_append_left hlt, hk], hasked, hrefused,
      fun i hi b hb ↦ hrest i hi b ?_⟩
    rwa [List.getElem?_append_left (hi.trans hlt)] at hb

theorem outcome_nil (start : Nat) : Outcome network client [] start (.ok ()) [] :=
  ⟨.nil, fun _ ↦ ⟨rfl, nofun⟩, nofun⟩

/-- A computation carries a plan out, whatever was sent before. -/
def CarriesOut (network : Network) (client : AfcasClient) (m : Action Unit)
    (plan : List Addition) : Prop :=
  ∀ sent, ∃ result asked, m.run.run sent = (result, sent ++ asked) ∧
    Outcome network client plan sent.length result asked

/-- A loop carries out the plans of its rounds, by induction on the rounds. -/
theorem carriesOut_forM {α : Type} {l : List α} {f : α → Action Unit} {g : α → List Addition}
    (hf : ∀ a, CarriesOut network client (f a) (g a)) :
    CarriesOut network client (l.forM f) (l.flatMap g) := by
  induction l with
  | nil => exact fun sent ↦ ⟨.ok (), [], by rw [List.append_nil]; rfl, outcome_nil _⟩
  | cons a l ih =>
      intro sent
      obtain ⟨result, asked, hrun, houtcome⟩ := hf a sent
      show ∃ result asked, (f a >>= fun _ ↦ l.forM f).run.run sent = _ ∧ _
      cases result with
      | error e => exact ⟨.error e, asked, run_bind_of_error hrun, houtcome.of_error⟩
      | ok u =>
          obtain ⟨result, asked', hrun', houtcome'⟩ := ih (sent ++ asked)
          refine ⟨result, asked ++ asked', ?_, houtcome.append ?_⟩
          · rw [run_bind_of_ok hrun, hrun', List.append_assoc]
          · rwa [List.length_append] at houtcome'

theorem carriesOut_perform (call : Call) :
    CarriesOut network client (call.perform network client) call.additions := by
  cases call with
  | addPrincipal principal => exact (performs_add _ _ _).outcome
  | addGroup group =>
      rw [Call.additions, List.map_eq_flatMap]
      exact carriesOut_forM fun member ↦ (performs_add _ _ _).outcome
  | addResource resource => exact (performs_add _ _ _).outcome
  | addOperation operation => exact (performs_add _ _ _).outcome
  | addResourceAccessPredicate p => exact (performs_addResourceAccessPredicate p).outcome

/-- The migration makes the calls of its lists. -/
theorem runMigration_eq (network : Network) (client : AfcasClient) :
    client.runMigration network = client.migrationCalls.forM (Call.perform network client) := by
  rw [migrationCalls, List.forM_eq_forM, List.forM_append, List.forM_append, List.forM_append,
    List.forM_map, List.forM_map, List.forM_map, List.forM_map]
  rfl

/-- The constructor, and calls of the client that it returns. -/
def session (network : Network) (client : AfcasClient) (calls : List Call) : Action Unit := do
  let client ← construct network client.host client.port client.principals client.groups
    client.resources client.operations client.resourceAccessPredicates
  calls.forM (Call.perform network client)

/-- **What is added, whatever the server answers.**  A client that is constructed, and then
asked for any additions, sends the requests of all of these in their order, up to the
first that is refused; it then throws what this one calls for. -/
theorem session_outcome (network : Network) (client : AfcasClient) (calls : List Call)
    (sent : List Request) :
    ∃ result asked, (session network client calls).run.run sent = (result, sent ++ asked) ∧
      Outcome network client ((client.migrationCalls ++ calls).flatMap Call.additions)
        sent.length result asked := by
  have hsession : session network client calls =
      (client.migrationCalls ++ calls).forM (Call.perform network client) := by
    rw [session, construct, runMigration_eq, List.forM_eq_forM, List.forM_append]
    simp only [bind_assoc, pure_bind]
  rw [hsession]
  exact carriesOut_forM carriesOut_perform sent

/-! ## What the server reads -/

theorem dumpObject_of_request {requestUri : Str} {json : List (Str × Str)} {r : Request}
    (h : client.request requestUri json = .ok r) :
    Json.dumpObject (OrderedMap.empty.insertAll json) = some r.content := by
  rw [request, dump] at h
  cases hdump : Json.dumpObject (OrderedMap.empty.insertAll json) with
  | none =>
      rw [hdump] at h
      cases h
  | some content =>
      rw [hdump] at h
      cases hport : readPort client.port with
      | error e =>
          rw [hport] at h
          cases h
      | ok port =>
          rw [hport] at h
          cases h
          rfl

/-- **Requests are read back.**  The content of a request for fields of different names is
a text of exactly one JSON value, an object that has each of the fields once and no other
members. -/
theorem content_read_back (client : AfcasClient) (requestUri : Str) (json : List (Str × Str))
    (hnames : (json.map Prod.fst).Nodup) (r : Request)
    (h : client.request requestUri json = .ok r) :
    ∃ members, members.length = json.length ∧
      (∀ field ∈ json, Json.HasMember members field.1 field.2) ∧
        ∀ v, Json.IsText r.content v ↔ v = .object members := by
  obtain ⟨m, hm⟩ : ∃ m, OrderedMap.empty.insertAll json = m := ⟨_, rfl⟩
  have hperm : m.entries.Perm json := hm ▸ OrderedMap.entries_insertAll_perm hnames
  have htext : Json.IsText r.content (.object (Json.members m.entries)) := by
    apply Json.isText_dumpObject
    rw [← hm]
    exact dumpObject_of_request h
  refine ⟨Json.members m.entries, ?_, fun field hfield ↦ ?_, fun v ↦ ⟨fun hv ↦ ?_, ?_⟩⟩
  · rw [Json.members, List.length_map, hperm.length_eq]
  · exact Json.members_filter m.nodup_keys (hperm.mem_iff.mpr hfield)
  · exact hv.unique htext
  · rintro rfl
    exact htext

/-- A resource whose name has a quote and a newline in it. -/
theorem content_read_back_resource :
    ∃ r members, resourceClient.request resourcesUri
        (resourceJson ⟨"r1".toList, "a\"b\n".toList⟩) = .ok r ∧
      Json.HasMember members "name".toList "a\"b\n".toList ∧
        Json.IsText r.content (.object members) := by
  obtain ⟨r, hr⟩ : ∃ r, resourceClient.request resourcesUri
      (resourceJson ⟨"r1".toList, "a\"b\n".toList⟩) = .ok r := ⟨_, rfl⟩
  obtain ⟨members, -, hmembers, htext⟩ := content_read_back resourceClient resourcesUri
    (resourceJson ⟨"r1".toList, "a\"b\n".toList⟩) (wellNamed_resourceJson _).1 r hr
  exact ⟨r, members, hr, hmembers ("name".toList, "a\"b\n".toList)
    (List.mem_cons_of_mem _ List.mem_cons_self), (htext _).mpr rfl⟩

end AfcasClient

end AsabruCommons.Afcas
