import AsabruCommons.Afcas.Client

/-!
# The migration

When every request is answered with status 200, the constructor sends one request for
each principal, resource, operation and predicate, in this order, provided that they can
be sent at all: that the port is a number and that the strings are valid UTF-8.  It
never sends the members of a group, so the migration is complete exactly when there are
none (`transfers_iff`).
-/

namespace AsabruCommons.Afcas

open Http IStringStream Search

/-! ## Computations that send a fixed list of requests -/

/-- Whatever was sent before, the computation sends these requests and returns. -/
def Sends {α : Type} (m : Action α) (requests : List Request) (a : α) : Prop :=
  ∀ sent, m.run.run sent = (.ok a, sent ++ requests)

section

variable {α β : Type}

theorem sends_pure (a : α) : Sends (pure a) [] a := by
  intro sent
  rw [List.append_nil]
  rfl

theorem Sends.bind {m : Action α} {f : α → Action β} {requests requests' : List Request} {a : α}
    {b : β} (hm : Sends m requests a) (hf : Sends (f a) requests' b) :
    Sends (m >>= f) (requests ++ requests') b := by
  intro sent
  rw [run_bind_of_ok (hm sent), hf, List.append_assoc]

/-- A loop whose rounds send one request each. -/
theorem sends_forM {l : List α} {f : α → Action Unit} {build : α → Except Failure Request}
    (hf : ∀ a request, build a = .ok request → Sends (f a) [request] ()) {requests : List Request}
    (h : l.map build = requests.map .ok) : Sends (l.forM f) requests () := by
  induction l generalizing requests with
  | nil =>
      obtain rfl := List.map_eq_nil_iff.mp h.symm
      exact sends_pure ()
  | cons a l ih =>
      cases requests with
      | nil => cases h
      | cons request requests =>
          obtain ⟨ha, hl⟩ := List.cons_eq_cons.mp h
          exact (hf a request ha).bind (ih hl)

end

namespace AfcasClient

variable (client : AfcasClient)

/-! ## What should be sent -/

/-- The request that an `add` function makes. -/
def request (requestUri : Str) (json : List (Str × Str)) : Except Failure Request := do
  let content ← dump json
  let port ← readPort client.port
  return { host := client.host, port, method := .POST, requestUri, content,
           contentType := "application/json".toList }

def principalRequests : List (Except Failure Request) :=
  client.principals.map fun principal ↦ client.request principalsUri (principalJson principal)

/-- One request for each pair of a group and a member. -/
def memberRequests : List (Except Failure Request) :=
  client.groups.flatMap fun group ↦ group.members.map fun member ↦
    client.request groupMembersUri (memberJson group.groupName member)

def resourceRequests : List (Except Failure Request) :=
  client.resources.map fun resource ↦ client.request resourcesUri (resourceJson resource)

def operationRequests : List (Except Failure Request) :=
  client.operations.map fun operation ↦ client.request operationsUri (operationJson operation)

def predicateRequests : List (Except Failure Request) :=
  client.resourceAccessPredicates.map fun resourceAccessPredicate ↦
    client.request permissionsUri (predicateJson resourceAccessPredicate)

/-- Exactly the requests for everything in the lists, those for predicates last. -/
def Transfers (sent : List Request) : Prop :=
  ∃ pre post, sent = pre ++ post ∧
    (pre.map .ok).Perm (client.principalRequests ++ client.memberRequests ++
      client.resourceRequests ++ client.operationRequests) ∧
    (post.map .ok).Perm client.predicateRequests

/-- The port is a number and the fields are UTF-8. -/
def Sendable (json : List (Str × Str)) : Prop :=
  (∃ port, readPort client.port = .ok port) ∧ ∀ field ∈ json, Utf8.Valid field.2

/-- There is no group member, and everything else can be sent. -/
structure Transferable : Prop where
  groups : ∀ group ∈ client.groups, group.members = []
  principals : ∀ principal ∈ client.principals, client.Sendable (principalJson principal)
  resources : ∀ resource ∈ client.resources, client.Sendable (resourceJson resource)
  operations : ∀ operation ∈ client.operations, client.Sendable (operationJson operation)
  predicates : ∀ resourceAccessPredicate ∈ client.resourceAccessPredicates,
    client.Sendable (predicateJson resourceAccessPredicate)

variable {client}

/-! ## Which requests can be made -/

/-- Different names, all of them UTF-8. -/
def WellNamed (names : List Str) : Prop := names.Nodup ∧ ∀ name ∈ names, Utf8.Valid name

instance (names : List Str) : Decidable (WellNamed names) :=
  inferInstanceAs (Decidable (names.Nodup ∧ ∀ name ∈ names, Utf8.Valid name))

theorem wellNamed_principalJson (principal : Principal) :
    WellNamed ((principalJson principal).map Prod.fst) := by
  show WellNamed ["name".toList, "email".toList, "displayName".toList, "description".toList,
    "dataSource".toList, "principalType".toList]
  decide

theorem wellNamed_resourceJson (resource : Resource) :
    WellNamed ((resourceJson resource).map Prod.fst) := by
  show WellNamed ["id".toList, "name".toList]
  decide

theorem wellNamed_operationJson (operation : Operation) :
    WellNamed ((operationJson operation).map Prod.fst) := by
  show WellNamed ["id".toList, "name".toList, "description".toList]
  decide

theorem wellNamed_predicateJson (resourceAccessPredicate : ResourceAccessPredicate) :
    WellNamed ((predicateJson resourceAccessPredicate).map Prod.fst) := by
  show WellNamed ["principalId".toList, "operationId".toList, "resourceId".toList,
    "predicateType".toList]
  decide

/-- Writing an object fails only for values that are not UTF-8. -/
theorem dump_eq_ok_iff {json : List (Str × Str)} (h : WellNamed (json.map Prod.fst)) :
    (∃ content, dump json = .ok content) ↔ ∀ field ∈ json, Utf8.Valid field.2 := by
  have hsome : (∃ content, dump json = .ok content) ↔
      (Json.dumpObject (OrderedMap.empty.insertAll json)).isSome := by
    rw [dump]
    cases Json.dumpObject (OrderedMap.empty.insertAll json) with
    | none => simp [orFail]
    | some content => simp [orFail]
  rw [hsome, Json.dumpObject_isSome]
  constructor
  · intro hvalid field hfield
    exact (hvalid field ((OrderedMap.mem_entries_insertAll h.1).mpr hfield)).2
  · intro hvalid field hfield
    have hmem := (OrderedMap.mem_entries_insertAll h.1).mp hfield
    exact ⟨h.2 field.1 (List.mem_map_of_mem hmem), hvalid field hmem⟩

theorem request_eq_ok_iff {requestUri : Str} {json : List (Str × Str)}
    (h : WellNamed (json.map Prod.fst)) :
    (∃ r, client.request requestUri json = .ok r) ↔ client.Sendable json := by
  rw [Sendable, ← dump_eq_ok_iff h, request]
  cases dump json with
  | error e => exact iff_of_false (fun ⟨r, hr⟩ ↦ by cases hr) (fun ⟨_, content, hc⟩ ↦ by cases hc)
  | ok content =>
      cases readPort client.port with
      | error e => exact iff_of_false (fun ⟨r, hr⟩ ↦ by cases hr) (fun ⟨⟨n, hn⟩, _⟩ ↦ by cases hn)
      | ok port => exact iff_of_true ⟨_, rfl⟩ ⟨⟨port, rfl⟩, content, rfl⟩

/-! ## What is sent -/

/-- Every request is answered with status 200. -/
def AnswersOk (network : Network) : Prop :=
  ∀ n, ∃ response, network n = some response ∧ response.status_code = 200

theorem run_post (network : Network) {requestUri : Str} {json : List (Str × Str)} {r : Request}
    (hr : client.request requestUri json = .ok r) (sent : List Request) :
    (client.post network requestUri json).run.run sent =
      (orFail .dispatch (network sent.length), sent ++ [r]) := by
  rw [request] at hr
  rw [post]
  cases hdump : dump json with
  | error e =>
      rw [hdump] at hr
      cases hr
  | ok content =>
      rw [run_bind_of_ok (run_ofExcept (.ok content) sent), run_sendRequest]
      cases hport : readPort client.port with
      | error e =>
          rw [hdump, hport] at hr
          cases hr
      | ok port =>
          rw [hdump, hport] at hr
          cases hr
          rfl

section

variable {network : Network} (hnetwork : AnswersOk network)

include hnetwork

theorem run_post_answered {requestUri : Str} {json : List (Str × Str)} {r : Request}
    (hr : client.request requestUri json = .ok r) (sent : List Request) :
    ∃ response, (client.post network requestUri json).run.run sent =
      (.ok response, sent ++ [r]) ∧ response.status_code = 200 := by
  obtain ⟨response, hresponse, hstatus⟩ := hnetwork sent.length
  refine ⟨response, ?_, hstatus⟩
  rw [run_post network hr sent, hresponse]
  rfl

theorem sends_add {requestUri : Str} {json : List (Str × Str)} {r : Request}
    (hr : client.request requestUri json = .ok r) (what : Str) :
    Sends (client.add network requestUri json what) [r] () := by
  intro sent
  obtain ⟨response, hpost, hstatus⟩ := run_post_answered hnetwork hr sent
  rw [add, run_bind_of_ok hpost, if_neg (not_not_intro hstatus)]
  rfl

theorem sends_addResourceAccessPredicate {resourceAccessPredicate : ResourceAccessPredicate}
    {r : Request}
    (hr : client.request permissionsUri (predicateJson resourceAccessPredicate) = .ok r) :
    Sends (client.addResourceAccessPredicate network resourceAccessPredicate) [r] () := by
  intro sent
  obtain ⟨response, hpost, hstatus⟩ := run_post_answered hnetwork hr sent
  have hother : ¬ (response.status_code = 500 ∧
      (find "already exists".toList response.response_content).isSome) := by
    rw [hstatus]
    rintro ⟨h, -⟩
    cases h
  rw [addResourceAccessPredicate, run_bind_of_ok hpost, if_neg hother,
    if_neg (not_not_intro hstatus)]
  rfl

/-- The migration sends the requests for everything but the groups. -/
theorem sends_runMigration {ps rs os qs : List Request}
    (hps : client.principalRequests = ps.map .ok) (hrs : client.resourceRequests = rs.map .ok)
    (hos : client.operationRequests = os.map .ok) (hqs : client.predicateRequests = qs.map .ok) :
    Sends (client.runMigration network) (ps ++ (rs ++ (os ++ qs))) () := by
  refine Sends.bind (a := ()) (sends_forM ?_ hps) (Sends.bind (a := ()) (sends_forM ?_ hrs)
    (Sends.bind (a := ()) (sends_forM ?_ hos) (sends_forM ?_ hqs)))
  · intro principal r hr
    exact sends_add hnetwork hr _
  · intro resource r hr
    exact sends_add hnetwork hr _
  · intro operation r hr
    exact sends_add hnetwork hr _
  · intro resourceAccessPredicate r hr
    exact sends_addResourceAccessPredicate hnetwork hr

end

/-- Results none of which is a failure. -/
theorem exists_map_ok {l : List (Except Failure Request)} (h : ∀ x ∈ l, ∃ r, x = .ok r) :
    ∃ rs : List Request, l = rs.map .ok := by
  induction l with
  | nil => exact ⟨[], rfl⟩
  | cons x l ih =>
      obtain ⟨r, rfl⟩ := h x List.mem_cons_self
      obtain ⟨rs, rfl⟩ := ih fun y hy ↦ h y (List.mem_cons_of_mem _ hy)
      exact ⟨r :: rs, rfl⟩

theorem exists_of_perm {l : List (Except Failure Request)} {rs : List Request}
    (h : (rs.map .ok).Perm l) {x : Except Failure Request} (hx : x ∈ l) : ∃ r, x = .ok r := by
  obtain ⟨r, -, rfl⟩ := List.mem_map.mp (h.mem_iff.mpr hx)
  exact ⟨r, rfl⟩

/-- Mapping to requests that can all be made. -/
theorem forall_request_iff {α : Type} {l : List α} {requestUri : Str}
    {json : α → List (Str × Str)} (hjson : ∀ a, WellNamed ((json a).map Prod.fst)) :
    (∀ x ∈ l.map fun a ↦ client.request requestUri (json a), ∃ r, x = .ok r) ↔
      ∀ a ∈ l, client.Sendable (json a) := by
  rw [List.forall_mem_map]
  exact forall₂_congr fun a _ ↦ request_eq_ok_iff (hjson a)

theorem memberRequests_eq_nil_iff :
    client.memberRequests = [] ↔ ∀ group ∈ client.groups, group.members = [] := by
  rw [memberRequests, List.flatMap_eq_nil_iff]
  exact forall₂_congr fun group _ ↦ List.map_eq_nil_iff

/-- Everything but the groups can be sent. -/
theorem transferable_iff : client.Transferable ↔ client.memberRequests = [] ∧
    (∀ x ∈ client.principalRequests, ∃ r, x = .ok r) ∧
    (∀ x ∈ client.resourceRequests, ∃ r, x = .ok r) ∧
    (∀ x ∈ client.operationRequests, ∃ r, x = .ok r) ∧
    ∀ x ∈ client.predicateRequests, ∃ r, x = .ok r := by
  rw [memberRequests_eq_nil_iff, principalRequests, forall_request_iff wellNamed_principalJson,
    resourceRequests, forall_request_iff wellNamed_resourceJson,
    operationRequests, forall_request_iff wellNamed_operationJson,
    predicateRequests, forall_request_iff wellNamed_predicateJson]
  exact ⟨fun h ↦ ⟨h.1, h.2, h.3, h.4, h.5⟩, fun h ↦ ⟨h.1, h.2.1, h.2.2.1, h.2.2.2.1, h.2.2.2.2⟩⟩

/-- The requests that the constructor sends. -/
def migration (network : Network) (client : AfcasClient) : List Request :=
  ((construct network client.host client.port client.principals client.groups client.resources
    client.operations client.resourceAccessPredicates).run.run []).2

theorem migration_eq {network : Network} {requests : List Request}
    (h : Sends (client.runMigration network) requests ()) :
    migration network client = requests := by
  rw [migration, construct, run_bind_of_ok (h [])]
  rfl

/-- All that is sent, if everything can be sent. -/
theorem map_ok_migration {network : Network} (hnetwork : AnswersOk network)
    (hps : ∀ x ∈ client.principalRequests, ∃ r, x = .ok r)
    (hrs : ∀ x ∈ client.resourceRequests, ∃ r, x = .ok r)
    (hos : ∀ x ∈ client.operationRequests, ∃ r, x = .ok r)
    (hqs : ∀ x ∈ client.predicateRequests, ∃ r, x = .ok r) :
    (migration network client).map .ok = client.principalRequests ++ client.resourceRequests ++
      client.operationRequests ++ client.predicateRequests := by
  obtain ⟨ps, hps⟩ := exists_map_ok hps
  obtain ⟨rs, hrs⟩ := exists_map_ok hrs
  obtain ⟨os, hos⟩ := exists_map_ok hos
  obtain ⟨qs, hqs⟩ := exists_map_ok hqs
  rw [migration_eq (sends_runMigration hnetwork hps hrs hos hqs), hps, hrs, hos, hqs]
  simp only [List.map_append, List.append_assoc]

/-- **What the migration transfers.**  When every request is answered with status 200,
the constructor sends everything in its lists exactly when no group has a member and
everything else can be sent. -/
theorem transfers_iff (network : Network) (hnetwork : AnswersOk network) (client : AfcasClient) :
    client.Transfers (migration network client) ↔ client.Transferable := by
  rw [transferable_iff]
  constructor
  · rintro ⟨pre, post, heq, hpre, hpost⟩
    have hearly : ∀ x ∈ client.principalRequests ++ client.memberRequests ++
        client.resourceRequests ++ client.operationRequests, ∃ r, x = .ok r :=
      fun x hx ↦ exists_of_perm hpre hx
    simp only [List.forall_mem_append] at hearly
    obtain ⟨⟨⟨hps, -⟩, hrs⟩, hos⟩ := hearly
    have hqs : ∀ x ∈ client.predicateRequests, ∃ r, x = .ok r := fun x hx ↦ exists_of_perm hpost hx
    refine ⟨?_, hps, hrs, hos, hqs⟩
    -- the requests for members are missing in the number of requests
    have hlength := congrArg List.length (map_ok_migration hnetwork hps hrs hos hqs)
    have hpre := hpre.length_eq
    have hpost := hpost.length_eq
    rw [heq] at hlength
    simp only [List.length_append, List.length_map] at hlength hpre hpost
    rw [← List.length_eq_zero_iff]
    omega
  · rintro ⟨hgroups, hps, hrs, hos, hqs⟩
    obtain ⟨pre, post, heq, hpre, hpost⟩ :=
      List.map_eq_append_iff.mp (map_ok_migration hnetwork hps hrs hos hqs)
    refine ⟨pre, post, heq, ?_, ?_⟩
    · rw [hpre, hgroups, List.append_nil]
    · rw [hpost]

/-- A network that answers every request with status 200. -/
def okNetwork : Network := fun _ ↦ some ⟨200, [], []⟩

/-- A client with one group of one member. -/
def groupClient : AfcasClient :=
  ⟨"afcas".toList, "80".toList, [], [⟨"admins".toList, ["alice".toList]⟩], [], [], []⟩

theorem transfers_forgets_groups :
    AnswersOk okNetwork ∧ migration okNetwork groupClient = [] ∧
      ¬ groupClient.Transfers (migration okNetwork groupClient) := by
  have hnone : migration okNetwork groupClient = [] := rfl
  refine ⟨fun n ↦ ⟨_, rfl, rfl⟩, hnone, ?_⟩
  rw [hnone]
  rintro ⟨pre, post, heq, hpre, -⟩
  obtain ⟨rfl, rfl⟩ := List.append_eq_nil_iff.mp heq.symm
  exact absurd hpre.length_eq (by decide)

/-- A client without groups. -/
def resourceClient : AfcasClient :=
  ⟨"afcas".toList, "80".toList, [], [], [⟨"r1".toList, "table".toList⟩], [], []⟩

theorem transfers_resource : resourceClient.Transfers (migration okNetwork resourceClient) := by
  refine (transfers_iff okNetwork (fun n ↦ ⟨_, rfl, rfl⟩) resourceClient).mpr
    ⟨by decide, by simp [resourceClient], fun resource hresource ↦ ?_, by simp [resourceClient],
      by simp [resourceClient]⟩
  obtain rfl := List.mem_singleton.mp hresource
  exact ⟨⟨80, rfl⟩, by decide⟩

end AfcasClient

end AsabruCommons.Afcas
