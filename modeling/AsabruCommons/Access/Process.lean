import AsabruCommons.Authentication.Acceptance
import AsabruCommons.Authorization.Decision

/-!
# Clients and their contexts

The two strategies meet in the context of a client.  `isAuthenticated` leaves the name of the
user there, under `authenticated_info`, and `isAuthorized` asks about that name; neither looks
at what the other decided.

`State` puts them together: the process of the authentication, a context for each client, and
the calls of `isAuthorized` that are between two queries.  A client does one thing at a time,
the clients and the background thread do theirs in any order, and between two calls a client
may put anything into its context.  A call that throws `bad_any_cast` changes nothing, and the
calls of `isAuthenticated` and `removeAuthentication` that do are left out.

`run_ask` connects the queries of a call, step by step, with the loop `askAll`.
-/

namespace AsabruCommons.Access

open Afcas Authorization Run

variable {Client : Type} [DecidableEq Client]

/-! ## The keys -/

def AUTH_BASIC_USERNAME_KEY : Str := "username".toList
def AUTH_BASIC_PASSWORD_KEY : Str := "password".toList
def AUTH_BASIC_TOKEN_KEY : Str := "token".toList
def AUTH_AUTHENTICATED_KEY : Str := "authenticated".toList

/-! ## States -/

/-- What the process is given: the token library, the server, the parsers, and the strategy
that was constructed. -/
structure Surroundings where
  jwt : Authentication.Jwt
  network : Network
  parse : Str → Except Str Json.Value
  Parse : XMLParser
  strategy : AfcasAuthorizationStrategy

/-- A call of `isAuthenticated` that accepted a token. -/
structure Acceptance (Client : Type) where
  client : Client
  token : Str
  username : Str
  now : Int
deriving DecidableEq

/-- A call of `isAuthorized`: the context that it read, all its predicates, and those still to
be asked for. -/
structure Check where
  context : ComputationContext
  predicates : List Predicate
  rest : List Predicate

/-- A call of `isAuthorized` that ended with `true`, and the context that it read. -/
structure Grant (Client : Type) where
  client : Client
  context : ComputationContext
  predicates : List Predicate

structure State (Client : Type) where
  authentication : Authentication.State Client
  contexts : Client → ComputationContext
  asking : Client → Option Check
  /-- The queries; what a constructor sends is not among them. -/
  sent : List Request
  /-- History: for each query, whose call sent it. -/
  askers : List Client
  /-- History: the tokens that were accepted, and the checks that were passed. -/
  accepted : List (Acceptance Client)
  granted : List (Grant Client)

def ComputationContext.empty : ComputationContext := ⟨fun _ ↦ none⟩

/-- The first start. -/
def State.boot (env : Authentication.Config) (clock : Int) (temp : FileState) : State Client where
  authentication := .boot env clock temp
  contexts := fun _ ↦ ComputationContext.empty
  asking := fun _ ↦ none
  sent := []
  askers := []
  accepted := []
  granted := []

inductive Event (Client : Type) where
  /-- A step of a call of the other functions of the strategy, of its thread, of the clock,
  or a restart. -/
  | authentication (e : Authentication.Event Client)
  | authenticate (c : Client)
  /-- The beginning of a call of `isAuthorized`: it reads the document. -/
  | isAuthorized (c : Client)
  /-- The next query of that call, or its end. -/
  | ask (c : Client)
  | put (c : Client) (k : Str) (value : Any)

/-! ## Steps -/

/-- What a call of `isAuthenticated` puts into the context. -/
def tell (context : ComputationContext) (a : Authentication.Answer) : ComputationContext :=
  let context := context.Put AUTH_AUTHENTICATED_KEY (.bool a.authenticated)
  match a.info with
  | some username => context.Put AUTH_AUTHENTICATED_INFO (.string username)
  | none => context

/-- The answer that a step has added. -/
def newAnswer (before after : List Authentication.Answer) : Option Authentication.Answer :=
  if before.length < after.length then after.head? else none

theorem newAnswer_self (answers : List Authentication.Answer) : newAnswer answers answers = none :=
  if_neg (Nat.lt_irrefl _)

theorem newAnswer_cons (a : Authentication.Answer) (answers : List Authentication.Answer) :
    newAnswer answers (a :: answers) = some a := by
  rw [newAnswer, List.length_cons, if_pos (Nat.lt_succ_self _)]
  rfl

namespace State

/-- The client is in the middle of a call. -/
def busy (s : State Client) (c : Client) : Bool :=
  (s.authentication.clients c).isSome || (s.asking c).isSome

def setContext (s : State Client) (c : Client) (context : ComputationContext) : State Client :=
  { s with contexts := Function.update s.contexts c context }

def setAsking (s : State Client) (c : Client) (check : Option Check) : State Client :=
  { s with asking := Function.update s.asking c check }

/-- A step of a call of `isAuthenticated`. -/
def answered (s : State Client) (c : Client) (after : Authentication.State Client) :
    State Client :=
  match newAnswer s.authentication.answers after.answers with
  | none => { s with authentication := after }
  | some a =>
      { s.setContext c (tell (s.contexts c) a) with
        authentication := after
        accepted := match a.info with
          | some username => ⟨c, a.token, username, after.clock⟩ :: s.accepted
          | none => s.accepted }

/-- A query and what it returned or threw, with the queries sent until then. -/
def queried (s : State Client) (c : Client) (check : Check) :
    Except Failure Bool × List Request → State Client
  | (r, sent) =>
      let s := { s with
        sent
        askers := s.askers ++ List.replicate (sent.length - s.sent.length) c }
      match r with
      | .ok true => s.setAsking c (some check)
      | .ok false =>
          (s.setContext c ((s.contexts c).Put AUTHORIZATION_AUTHORIZED_KEY (.bool false))).setAsking
            c none
      | .error _ => s.setAsking c none

/-- The end of the loop. -/
def passed (s : State Client) (c : Client) (check : Check) : State Client :=
  { (s.setContext c ((s.contexts c).Put AUTHORIZATION_AUTHORIZED_KEY (.bool true))).setAsking c
      none with
    granted := ⟨c, check.context, check.predicates⟩ :: s.granted }

def ask (S : Surroundings) (s : State Client) (c : Client) (check : Check) : State Client :=
  match check.rest with
  | [] => s.passed c check
  | predicate :: rest =>
      s.queried c { check with rest }
        ((S.strategy.afcasClient.isAuthorized S.network S.parse predicate.principalName
          predicate.operationId predicate.resourceId).run.run s.sent)

end State

open State

/-- One step; `none` when the event cannot happen. -/
def step (S : Surroundings) (s : State Client) : Event Client → Option (State Client)
  | .authentication e =>
      let next := Authentication.step S.jwt s.authentication e
      match e with
      | .authenticate _ _ => none
      | .isAuthenticated c token | .removeAuthentication c token =>
          if (s.asking c).isNone ∧
              (s.contexts c).Get AUTH_BASIC_TOKEN_KEY = some (.string token) then
            next.map fun after ↦ { s with authentication := after }
          else none
      | .findToken c | .verifyToken c => next.map (s.answered c)
      | .restart _ => next.map fun after ↦
          { s with
            authentication := after
            contexts := fun _ ↦ ComputationContext.empty
            asking := fun _ ↦ none }
      | _ => next.map fun after ↦ { s with authentication := after }
  | .authenticate c =>
      if s.busy c then none
      else
        match castString ((s.contexts c).Get AUTH_BASIC_USERNAME_KEY),
          castString ((s.contexts c).Get AUTH_BASIC_PASSWORD_KEY) with
        | .ok username, .ok password =>
            let env := s.authentication.env
            let token := S.jwt.mint username s.authentication.clock env.expiration
            let context :=
              if username = env.username ∧ password = env.password then
                ((s.contexts c).Put AUTH_BASIC_TOKEN_KEY (.string token)).Put
                  AUTH_AUTHENTICATED_KEY (.bool true)
              else (s.contexts c).Put AUTH_AUTHENTICATED_KEY (.bool false)
            (Authentication.step S.jwt s.authentication (.authenticate username password)).map
              fun after ↦ { s.setContext c context with authentication := after }
        | _, _ => some s
  | .isAuthorized c =>
      if s.busy c then none
      else
        match parseAfcasAuthorizationData S.Parse (s.contexts c) with
        | .ok predicates => some (s.setAsking c (some ⟨s.contexts c, predicates, predicates⟩))
        | .error _ => some s
  | .ask c => (s.asking c).map (s.ask S c)
  | .put c k value => if s.busy c then none else some (s.setContext c ((s.contexts c).Put k value))

/-! ## The queries of one call -/

section

variable (S : Surroundings) (s : State Client) (c : Client)

@[simp] theorem asking_setAsking (check : Option Check) : (s.setAsking c check).asking c = check :=
  Function.update_self ..

@[simp] theorem contexts_setContext (context : ComputationContext) :
    (s.setContext c context).contexts c = context := Function.update_self ..

theorem step_ask {check : Check} (h : s.asking c = some check) :
    step S s (.ask c) = some (s.ask S c check) := by
  show (s.asking c).map _ = _
  rw [h]
  rfl

/-- The queries of a call one by one, if nothing else happens, are the loop. -/
theorem run_ask {check : Check} (h : s.asking c = some check) :
    ∃ n t, run (step S) s (List.replicate n (.ask c)) = some t ∧ t.asking c = none ∧
      t.contexts c = (AfcasAuthorizationStrategy.askAll S.network S.parse S.strategy.afcasClient
        (s.contexts c) check.rest s.sent).context ∧
      t.sent = (AfcasAuthorizationStrategy.askAll S.network S.parse S.strategy.afcasClient
        (s.contexts c) check.rest s.sent).sent := by
  obtain ⟨context, predicates, rest⟩ := check
  induction rest generalizing s with
  | nil =>
      refine ⟨1, _, run_cons_eq_some.mpr ⟨_, step_ask S s c h, rfl⟩, ?_, ?_, rfl⟩
      · exact asking_setAsking _ c none
      · exact contexts_setContext s c _
  | cons predicate rest ih =>
      have hask := step_ask S s c h
      rw [AfcasAuthorizationStrategy.askAll]
      rw [State.ask] at hask
      dsimp only at hask ⊢
      generalize (S.strategy.afcasClient.isAuthorized S.network S.parse predicate.principalName
        predicate.operationId predicate.resourceId).run.run s.sent = r at hask ⊢
      rcases r with ⟨e | _ | _, sent⟩
      · exact ⟨1, _, run_cons_eq_some.mpr ⟨_, hask, rfl⟩, asking_setAsking _ c none, rfl, rfl⟩
      · refine ⟨1, _, run_cons_eq_some.mpr ⟨_, hask, rfl⟩, asking_setAsking _ c none, ?_, rfl⟩
        exact contexts_setContext _ c _
      · obtain ⟨n, t, hrun, hnone, hcontext, hsent⟩ := ih _ (asking_setAsking _ c _)
        exact ⟨n + 1, t, run_cons_eq_some.mpr ⟨_, hask, hrun⟩, hnone, hcontext, hsent⟩

end

end AsabruCommons.Access
