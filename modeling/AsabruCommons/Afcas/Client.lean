import AsabruCommons.Http.Message
import AsabruCommons.Json

/-!
# The client of the authorization server

An `AfcasClient` sends HTTP requests through a plugin, the `HTTPRequestCommand`, and
looks at the status and the content of what comes back.  The plugin is not part of the
repository: the network says, for each request by its number, what the plugin leaves in
the context, or that something is thrown on the way.  The requests are recorded in the
order in which they are handed to the plugin.

What `nlohmann::json::parse` does is a parameter of the functions that use it.  Its
`dump` is the one of `Json`.
-/

namespace AsabruCommons.Afcas

open Http IStringStream Search

structure Principal where
  name : Str
  email : Str
  displayName : Str
  description : Str
  dataSource : Str
  principalType : Str
deriving DecidableEq

structure Group where
  groupName : Str
  members : List Str
deriving DecidableEq

structure Resource where
  id : Str
  name : Str
deriving DecidableEq

structure Operation where
  id : Str
  name : Str
  description : Str
deriving DecidableEq

structure ResourceAccessPredicate where
  principalName : Str
  operationId : Str
  resourceId : Str
  predicateType : Str
deriving DecidableEq

/-- How a call ends without a result. -/
inductive Failure where
  | runtime_error (what : Str)
  | invalid_argument (what : Str)
  | out_of_range (what : Str)
  /-- `nlohmann::json::type_error`, with its number. -/
  | type_error (id : Nat)
  | bad_any_cast
  /-- The plugin is missing, it throws, or it leaves no status. -/
  | dispatch
  /-- A null pointer is used where an object or a text is needed. -/
  | nullPointer
deriving DecidableEq

/-- What an optional result stands for. -/
def orFail {α : Type} (e : Failure) : Option α → Except Failure α
  | none => .error e
  | some a => .ok a

structure HttpResponse where
  status_code : Int
  response : Str
  response_content : Str
deriving DecidableEq

/-- What is put into the context of the plugin. -/
structure Request where
  host : Str
  port : Int
  method : HttpMethod
  requestUri : Str
  content : Str
  contentType : Str
deriving DecidableEq

/-- The answer to each request, `none` if there is no answer. -/
abbrev Network := Nat → Option HttpResponse

/-- A computation that sends requests: it has a result and extends the list of the
requests that have been sent. -/
abbrev Action := ExceptT Failure (StateM (List Request))

/-- The port as the plugin gets it. -/
def readPort (port : Str) : Except Failure Int :=
  match stoi port with
  | .ok n => .ok n
  | .error .invalid_argument => .error (.invalid_argument "stoi".toList)
  | .error .out_of_range => .error (.out_of_range "stoi".toList)

def sendRequest (network : Network) (host port requestUri : Str) (method : HttpMethod)
    (content contentType : Str) : Action HttpResponse := do
  let port ← ofExcept (readPort port)
  let sent ← get
  set (sent ++ [{ host, port, method, requestUri, content, contentType : Request }])
  ofExcept (orFail .dispatch (network sent.length))

/-! ### Running a computation -/

section

variable {α β : Type}

theorem run_bind_of_ok {m : Action α} {f : α → Action β} {sent sent' : List Request} {a : α}
    (h : m.run.run sent = (.ok a, sent')) : (m >>= f).run.run sent = (f a).run.run sent' := by
  rw [ExceptT.run_bind, StateT.run_bind, h]
  rfl

theorem run_bind_of_error {m : Action α} {f : α → Action β} {sent sent' : List Request}
    {e : Failure} (h : m.run.run sent = (.error e, sent')) :
    (m >>= f).run.run sent = (.error e, sent') := by
  rw [ExceptT.run_bind, StateT.run_bind, h]
  rfl

theorem run_ofExcept (r : Except Failure α) (sent : List Request) :
    (ofExcept r : Action α).run.run sent = (r, sent) := by
  cases r with
  | ok a => rfl
  | error e => rfl

/-- A request is sent if the port can be read. -/
theorem run_sendRequest (network : Network) (host port requestUri : Str) (method : HttpMethod)
    (content contentType : Str) (sent : List Request) :
    (sendRequest network host port requestUri method content contentType).run.run sent =
      match readPort port with
      | .error e => (.error e, sent)
      | .ok port => (orFail .dispatch (network sent.length),
          sent ++ [{ host, port, method, requestUri, content, contentType }]) := by
  rw [sendRequest]
  cases hport : readPort port with
  | error e => rfl
  | ok port =>
      rw [run_bind_of_ok (run_ofExcept (.ok port) sent)]
      exact run_ofExcept ..

end

structure AfcasClient where
  host : Str
  port : Str
  principals : List Principal
  groups : List Group
  resources : List Resource
  operations : List Operation
  resourceAccessPredicates : List ResourceAccessPredicate
deriving DecidableEq

namespace AfcasClient

variable (network : Network) (client : AfcasClient)

/-! ## Adding -/

/-- An object of strings, as it is sent. -/
def dump (json : List (Str × Str)) : Except Failure Str :=
  orFail (.type_error 316) (Json.dumpObject (OrderedMap.empty.insertAll json))

/-- Every `add` function sends an object of strings. -/
def post (requestUri : Str) (json : List (Str × Str)) : Action HttpResponse := do
  let content ← ofExcept (dump json)
  sendRequest network client.host client.port requestUri .POST content "application/json".toList

/-- All but one throw for every status but 200. -/
def add (requestUri : Str) (json : List (Str × Str)) (what : Str) : Action Unit := do
  let response ← client.post network requestUri json
  if response.status_code ≠ 200 then throw (.runtime_error what)

def principalsUri : Str := "/authorization-management/principals".toList
def groupMembersUri : Str := "/authorization-management/principals/group-members".toList
def resourcesUri : Str := "/authorization-management/resources".toList
def operationsUri : Str := "/authorization-management/operations".toList
def permissionsUri : Str := "/authorization-management/permissions".toList

def principalJson (principal : Principal) : List (Str × Str) :=
  [("name".toList, principal.name), ("email".toList, principal.email),
    ("displayName".toList, principal.displayName), ("description".toList, principal.description),
    ("dataSource".toList, principal.dataSource), ("principalType".toList, principal.principalType)]

def memberJson (groupName member : Str) : List (Str × Str) :=
  [("groupName".toList, groupName), ("memberName".toList, member)]

def resourceJson (resource : Resource) : List (Str × Str) :=
  [("id".toList, resource.id), ("name".toList, resource.name)]

def operationJson (operation : Operation) : List (Str × Str) :=
  [("id".toList, operation.id), ("name".toList, operation.name),
    ("description".toList, operation.description)]

def predicateJson (resourceAccessPredicate : ResourceAccessPredicate) : List (Str × Str) :=
  [("principalId".toList, resourceAccessPredicate.principalName),
    ("operationId".toList, resourceAccessPredicate.operationId),
    ("resourceId".toList, resourceAccessPredicate.resourceId),
    ("predicateType".toList, resourceAccessPredicate.predicateType)]

def addPrincipal (principal : Principal) : Action Unit :=
  client.add network principalsUri (principalJson principal) "Failed to add principal".toList

def addGroup (group : Group) : Action Unit :=
  group.members.forM fun member ↦
    client.add network groupMembersUri (memberJson group.groupName member)
      "Failed to add group".toList

def addResource (resource : Resource) : Action Unit :=
  client.add network resourcesUri (resourceJson resource) "Failed to add resource".toList

def addOperation (operation : Operation) : Action Unit :=
  client.add network operationsUri (operationJson operation) "Failed to add operation".toList

/-- A predicate that is already there is not an error. -/
def addResourceAccessPredicate (resourceAccessPredicate : ResourceAccessPredicate) :
    Action Unit := do
  let response ← client.post network permissionsUri (predicateJson resourceAccessPredicate)
  if response.status_code = 500 ∧
      (find "already exists".toList response.response_content).isSome then
    return
  if response.status_code ≠ 200 then
    throw (.runtime_error "Failed to add resource access predicate".toList)

def runMigration : Action Unit := do
  client.principals.forM (client.addPrincipal network)
  client.resources.forM (client.addResource network)
  client.operations.forM (client.addOperation network)
  client.resourceAccessPredicates.forM (client.addResourceAccessPredicate network)

/-- The constructor. -/
def construct (host port : Str) (principals : List Principal) (groups : List Group)
    (resources : List Resource) (operations : List Operation)
    (resourceAccessPredicates : List ResourceAccessPredicate) : Action AfcasClient := do
  let client : AfcasClient :=
    { host, port, principals, groups, resources, operations, resourceAccessPredicates }
  client.runMigration network
  return client

/-! ## Asking -/

/-- The number of characters from the one position to the other.  A negative number is
reduced modulo `2 ^ 64`. -/
def count (start_index end_index : Nat) : Nat :=
  if start_index ≤ end_index + 1 then end_index + 1 - start_index
  else 18446744073709551616 - (start_index - end_index - 1)

/-- Here `parse` returns the text of the exception that it throws. -/
def processResponse (parse : Str → Except Str Json.Value) (response : Str) :
    Except Failure Json.Value :=
  match find ['{'] response, rfind ['}'] response with
  | some start_index, some end_index =>
      match substr response start_index (some (count start_index end_index)) with
      | none => .error (.out_of_range "basic_string::substr".toList)
      | some json_string =>
          match parse json_string with
          | .ok json => .ok json
          | .error what => .error (.invalid_argument ("Error parsing JSON: ".toList ++ what))
  | _, _ => .error (.invalid_argument "Invalid JSON format".toList)

/-- `json[key]`: a member that is missing is inserted, as a null. -/
def at_ (json : Json.Value) (key : Str) : Except Failure Json.Value :=
  match json with
  | .object members => .ok ((OrderedMap.lookupLast members key).getD .null)
  | .null => .ok .null
  | _ => .error (.type_error 305)

/-- `json.get<bool>()` -/
def getBool : Json.Value → Except Failure Bool
  | .boolean b => .ok b
  | _ => .error (.type_error 302)

def principalParameter : Str := "/authorization-provider/is-authorized?principalId=".toList
def operationParameter : Str := "&operationId=".toList
def resourceParameter : Str := "&resourceId=".toList

def authorizationUri (principalName operationId resourceId : Str) : Str :=
  principalParameter ++ principalName ++ operationParameter ++ operationId ++
    resourceParameter ++ resourceId

def isAuthorized (parse : Str → Except Str Json.Value)
    (principalName operationId resourceId : Str) : Action Bool := do
  let res ← sendRequest network client.host client.port
    (authorizationUri principalName operationId resourceId) .GET [] "application/json".toList
  if res.status_code ≠ 200 then
    throw (.runtime_error "Failed to check authorization".toList)
  let responseBody ← ofExcept (processResponse parse res.response_content)
  ofExcept ((at_ responseBody "data".toList).bind getBool)

end AfcasClient

end AsabruCommons.Afcas
