import AsabruCommons.Afcas.Response
import AsabruCommons.Authorization.Construction

/-!
# The authorization decision

A request is authorized when the server grants each of its predicates.  The predicates
are asked for in the order of the document, and a denial or a failure ends the asking.
So the context says authorized only after every predicate was granted, and it is left
alone when anything fails (`isAuthorized_failsClosed`).
-/

namespace AsabruCommons.Authorization

open Afcas

/-- How a call of `isAuthorized` ends: the context, the result, and the requests that
have been sent. -/
structure Outcome where
  context : ComputationContext
  result : Except Failure Unit
  sent : List Request

namespace AfcasAuthorizationStrategy

variable (network : Network) (parse : Str → Except Str Json.Value)

/-- The loop over the predicates. -/
def askAll (afcasClient : AfcasClient) (context : ComputationContext) :
    List Predicate → List Request → Outcome
  | [], sent => ⟨context.Put AUTHORIZATION_AUTHORIZED_KEY (.bool true), .ok (), sent⟩
  | predicate :: predicates, sent =>
      match (afcasClient.isAuthorized network parse predicate.principalName predicate.operationId
          predicate.resourceId).run.run sent with
      | (.ok true, sent) => askAll afcasClient context predicates sent
      | (.ok false, sent) =>
          ⟨context.Put AUTHORIZATION_AUTHORIZED_KEY (.bool false), .ok (), sent⟩
      | (.error e, sent) => ⟨context, .error e, sent⟩

def isAuthorized (Parse : XMLParser) (strategy : AfcasAuthorizationStrategy)
    (context : ComputationContext) (sent : List Request) : Outcome :=
  match parseAfcasAuthorizationData Parse context with
  | .error e => ⟨context, .error e, sent⟩
  | .ok predicates => askAll network parse strategy.afcasClient context predicates sent

end AfcasAuthorizationStrategy

/-! ## What is claimed -/

/-- The request of this number is sent and gets a response that decides so. -/
def Answered (network : Network) (parse : Str → Except Str Json.Value) (afcasClient : AfcasClient)
    (n : Nat) (b : Bool) : Prop :=
  (∃ port, readPort afcasClient.port = .ok port) ∧
    ∃ response, network n = some response ∧ Decides parse response b

/-- The URI that asks for a predicate. -/
def Predicate.uri (predicate : Predicate) : Str :=
  AfcasClient.authorizationUri predicate.principalName predicate.operationId predicate.resourceId

/-- The decision for these predicates, when `answered i b` says that the answer to the
`i`-th of them is `b`. -/
structure FailsClosed (answered : Nat → Bool → Prop) (predicates : List Predicate)
    (context : ComputationContext) (sent : List Request) (outcome : Outcome) : Prop where
  /-- Authorized exactly if every predicate is granted. -/
  authorized : outcome.result = .ok () ∧
      outcome.context = context.Put AUTHORIZATION_AUTHORIZED_KEY (.bool true) ↔
    ∀ i < predicates.length, answered i true
  /-- Not authorized exactly if some predicate is denied and all before it are granted. -/
  denied : outcome.result = .ok () ∧
      outcome.context = context.Put AUTHORIZATION_AUTHORIZED_KEY (.bool false) ↔
    ∃ k < predicates.length, answered k false ∧ ∀ i < k, answered i true
  /-- In every other case it throws and leaves the context as it was. -/
  otherwise : ¬ (∀ i < predicates.length, answered i true) →
    ¬ (∃ k < predicates.length, answered k false ∧ ∀ i < k, answered i true) →
      (∃ e, outcome.result = .error e) ∧ outcome.context = context
  /-- The predicates are asked for in their order, and the next one only after a grant. -/
  stops : ∃ asked, outcome.sent = sent ++ asked ∧
    asked.map Request.requestUri = (predicates.map Predicate.uri).take asked.length ∧
    ∀ i, i + 1 < asked.length → answered i true

/-! ## The loop -/

section

variable {network : Network} {parse : Str → Except Str Json.Value} (hparse : ParsesObjects parse)
  {afcasClient : AfcasClient}

theorem Answered.unique {n : Nat} {b b' : Bool} (hparse : ParsesObjects parse)
    (h : Answered network parse afcasClient n b) (h' : Answered network parse afcasClient n b') :
    b = b' := by
  obtain ⟨-, response, hresponse, hb⟩ := h
  obtain ⟨-, response', hresponse', hb'⟩ := h'
  obtain rfl := Option.some.inj (hresponse.symm.trans hresponse')
  have heq := (AfcasClient.decision_eq_ok_iff hparse).mpr hb
  rw [(AfcasClient.decision_eq_ok_iff hparse).mpr hb'] at heq
  exact (Except.ok.inj heq).symm

include hparse

variable (network afcasClient) in
/-- One query: its answer, or a failure if there is none. -/
theorem run_query (predicate : Predicate) (sent : List Request) :
    ∃ r asked, (afcasClient.isAuthorized network parse predicate.principalName
        predicate.operationId predicate.resourceId).run.run sent = (r, sent ++ asked) ∧
      (∀ b, r = .ok b ↔ Answered network parse afcasClient sent.length b) ∧
      asked.map Request.requestUri = [predicate.uri].take asked.length ∧
      ∀ b, r = .ok b → asked.length = 1 := by
  rw [AfcasClient.run_isAuthorized]
  cases hport : readPort afcasClient.port with
  | error e =>
      refine ⟨.error e, [], by rw [List.append_nil], fun b ↦ ?_, rfl, fun b h ↦ by cases h⟩
      refine iff_of_false (by simp) ?_
      rintro ⟨⟨port, h⟩, -⟩
      rw [hport] at h
      cases h
  | ok port =>
      refine ⟨_, [afcasClient.query port predicate.principalName predicate.operationId
        predicate.resourceId], rfl, fun b ↦ ?_, rfl, fun _ _ ↦ rfl⟩
      rw [Answered, and_iff_right ⟨port, hport⟩]
      cases network sent.length with
      | none => simp [orFail, Except.bind]
      | some response =>
          show AfcasClient.decision parse response = .ok b ↔ _
          rw [AfcasClient.decision_eq_ok_iff hparse]
          simp

end

/-- The number of queries that one predicate leads to. -/
theorem length_le_one {asked : List Request} {uri : Str}
    (h : asked.map Request.requestUri = [uri].take asked.length) : asked.length ≤ 1 := by
  have hlength := congrArg List.length h
  rw [List.length_map, List.length_take, List.length_singleton] at hlength
  omega

section

variable {answered : Nat → Bool → Prop} {predicate : Predicate} {predicates : List Predicate}
  {context : ComputationContext} {sent asked : List Request}

/-- The asking ends with the first predicate. -/
theorem stops_of_first (h : asked.map Request.requestUri = [predicate.uri].take asked.length) :
    ∃ asked', sent ++ asked = sent ++ asked' ∧
      asked'.map Request.requestUri =
        ((predicate :: predicates).map Predicate.uri).take asked'.length ∧
      ∀ i, i + 1 < asked'.length → answered i true := by
  have hle := length_le_one h
  refine ⟨asked, rfl, ?_, fun i hi ↦ by omega⟩
  cases asked with
  | nil => rfl
  | cons request asked =>
      rw [h, List.length_eq_zero_iff.mp (Nat.le_zero.mp (Nat.le_of_succ_le_succ hle))]
      rfl

/-- No answer to the first predicate. -/
theorem failsClosed_of_error (h : ∀ b, ¬ answered 0 b) (e : Failure)
    (huri : asked.map Request.requestUri = [predicate.uri].take asked.length) :
    FailsClosed answered (predicate :: predicates) context sent
      ⟨context, .error e, sent ++ asked⟩ where
  authorized := iff_of_false (fun hok ↦ by cases hok.1) fun hall ↦
    h true (hall 0 (Nat.succ_pos _))
  denied := by
    refine iff_of_false (fun hok ↦ by cases hok.1) ?_
    rintro ⟨k, -, hk, hbefore⟩
    cases k with
    | zero => exact h false hk
    | succ k => exact h true (hbefore 0 (Nat.succ_pos k))
  otherwise := fun _ _ ↦ ⟨⟨e, rfl⟩, rfl⟩
  stops := stops_of_first huri

/-- The first predicate is denied. -/
theorem failsClosed_of_denied (h : answered 0 false) (hunique : ¬ answered 0 true)
    (huri : asked.map Request.requestUri = [predicate.uri].take asked.length) :
    FailsClosed answered (predicate :: predicates) context sent
      ⟨context.Put AUTHORIZATION_AUTHORIZED_KEY (.bool false), .ok (), sent ++ asked⟩ where
  authorized := iff_of_false (fun hok ↦ by cases ComputationContext.put_inj hok.2) fun hall ↦
    hunique (hall 0 (Nat.succ_pos _))
  denied := iff_of_true ⟨rfl, rfl⟩ ⟨0, Nat.succ_pos _, h, fun i hi ↦ absurd hi (Nat.not_lt_zero i)⟩
  otherwise := fun _ hno ↦
    absurd ⟨0, Nat.succ_pos _, h, fun i hi ↦ absurd hi (Nat.not_lt_zero i)⟩ hno
  stops := stops_of_first huri

/-- The first predicate is granted, and the others are asked for. -/
theorem FailsClosed.of_granted {outcome : Outcome} (request : Request)
    (h : FailsClosed (fun i b ↦ answered (i + 1) b) predicates context (sent ++ [request]) outcome)
    (hfirst : answered 0 true) (hunique : ¬ answered 0 false)
    (huri : request.requestUri = predicate.uri) :
    FailsClosed answered (predicate :: predicates) context sent outcome where
  authorized := by
    rw [h.authorized, List.length_cons, Nat.forall_lt_succ_left]
    exact (and_iff_right hfirst).symm
  denied := by
    rw [h.denied]
    constructor
    · rintro ⟨k, hk, hdenied, hbefore⟩
      exact ⟨k + 1, Nat.succ_lt_succ hk, hdenied, Nat.forall_lt_succ_left.mpr ⟨hfirst, hbefore⟩⟩
    · rintro ⟨k, hk, hdenied, hbefore⟩
      cases k with
      | zero => exact absurd hdenied hunique
      | succ k =>
          exact ⟨k, Nat.lt_of_succ_lt_succ hk, hdenied,
            (Nat.forall_lt_succ_left.mp hbefore).2⟩
  otherwise := by
    intro hall hno
    refine h.otherwise (fun hrest ↦ hall ?_) (fun hdenied ↦ hno ?_)
    · exact Nat.forall_lt_succ_left.mpr ⟨hfirst, hrest⟩
    · obtain ⟨k, hk, hk', hbefore⟩ := hdenied
      exact ⟨k + 1, Nat.succ_lt_succ hk, hk', Nat.forall_lt_succ_left.mpr ⟨hfirst, hbefore⟩⟩
  stops := by
    obtain ⟨asked, hsent, hasked, hgranted⟩ := h.stops
    refine ⟨request :: asked, by rw [hsent, List.append_assoc, List.singleton_append], ?_, ?_⟩
    · rw [List.map_cons, huri, hasked]
      rfl
    · intro i hi
      cases i with
      | zero => exact hfirst
      | succ i => exact hgranted i (Nat.lt_of_succ_lt_succ hi)

end

/-- The loop over the predicates, by induction on them. -/
theorem failsClosed_askAll {network : Network} {parse : Str → Except Str Json.Value}
    (hparse : ParsesObjects parse) {afcasClient : AfcasClient} (predicates : List Predicate)
    (context : ComputationContext) (sent : List Request) :
    FailsClosed (fun i b ↦ Answered network parse afcasClient (sent.length + i) b) predicates
      context sent
      (AfcasAuthorizationStrategy.askAll network parse afcasClient context predicates sent) := by
  induction predicates generalizing sent with
  | nil =>
      refine ⟨iff_of_true ⟨rfl, rfl⟩ fun i hi ↦ absurd hi (Nat.not_lt_zero i),
        iff_of_false (fun h ↦ by cases ComputationContext.put_inj h.2) ?_, fun hall ↦ ?_,
        ⟨[], ?_, rfl, ?_⟩⟩
      · rintro ⟨k, hk, -⟩
        exact absurd hk (Nat.not_lt_zero k)
      · exact absurd (fun i hi ↦ absurd hi (Nat.not_lt_zero i)) hall
      · exact (List.append_nil sent).symm
      · exact fun i hi ↦ absurd hi (Nat.not_lt_zero _)
  | cons predicate predicates ih =>
      obtain ⟨r, asked, hrun, hr, huri, hone⟩ := run_query network hparse afcasClient
        predicate sent
      rw [AfcasAuthorizationStrategy.askAll, hrun]
      cases r with
      | error e =>
          refine failsClosed_of_error (fun b h ↦ ?_) e huri
          cases (hr b).mpr h
      | ok b =>
          have hb := (hr b).mp rfl
          cases b with
          | false =>
              exact failsClosed_of_denied hb (fun h ↦ by cases hb.unique hparse h) huri
          | true =>
              obtain ⟨request, rfl⟩ := List.length_eq_one_iff.mp (hone true rfl)
              refine FailsClosed.of_granted request ?_ hb
                (fun h ↦ by cases hb.unique hparse h) (List.cons_eq_cons.mp huri).1
              have hrest := ih (sent ++ [request])
              rw [List.length_append, List.length_singleton] at hrest
              simpa only [Nat.add_assoc, Nat.add_comm 1] using hrest

/-! ## The document -/

/-- The context carries an authorization document with these predicate elements. -/
def CarriesDocument (Parse : XMLParser) (context : ComputationContext)
    (elements : List XMLElement) : Prop :=
  ∃ data doc rootElement predicatesElement,
    context.Get AUTHORIZATION_DATA_KEY = some (.string data) ∧ Parse (c_str data) = .ok doc ∧
      doc.find? (fun e ↦ e.name = "authorization".toList) = some rootElement ∧
      rootElement.FirstChildElement "predicates".toList = some predicatesElement ∧
      predicatesElement.childElements "predicate".toList = elements

/-- The predicate of an element, for this user. -/
def Describes (username : Str) (e : XMLElement) (predicate : Predicate) : Prop :=
  e.childText "resourceId".toList = .ok predicate.resourceId ∧
    e.childText "operationId".toList = .ok predicate.operationId ∧
    predicate.principalName = username

theorem parseAfcasPredicate_of_describes {username : Str} {e : XMLElement} {predicate : Predicate}
    (h : Describes username e predicate) : parseAfcasPredicate username e = .ok predicate := by
  obtain ⟨hresource, hoperation, rfl⟩ := h
  rw [parseAfcasPredicate, hresource, hoperation]
  rfl

/-- Elements that have the two texts describe predicates. -/
theorem exists_describes (username : Str) {elements : List XMLElement}
    (h : ∀ e ∈ elements, (∃ r, e.childText "resourceId".toList = .ok r) ∧
      ∃ o, e.childText "operationId".toList = .ok o) :
    ∃ predicates, List.Forall₂ (Describes username) elements predicates ∧
      elements.mapM (parseAfcasPredicate username) = .ok predicates := by
  induction elements with
  | nil => exact ⟨[], .nil, rfl⟩
  | cons e elements ih =>
      obtain ⟨⟨r, hr⟩, o, ho⟩ := h e List.mem_cons_self
      obtain ⟨predicates, hdescribes, hmap⟩ := ih fun e' he' ↦ h e' (List.mem_cons_of_mem e he')
      have hfirst : Describes username e ⟨r, o, username⟩ := ⟨hr, ho, rfl⟩
      refine ⟨⟨r, o, username⟩ :: predicates, .cons hfirst hdescribes, ?_⟩
      rw [List.mapM_cons, parseAfcasPredicate_of_describes hfirst, hmap]
      rfl

theorem parseAfcasAuthorizationData_of_document {Parse : XMLParser} {context : ComputationContext}
    {elements : List XMLElement} {username : Str} {predicates : List Predicate}
    (hdocument : CarriesDocument Parse context elements)
    (huser : context.Get AUTH_AUTHENTICATED_INFO = some (.string username))
    (hmap : elements.mapM (parseAfcasPredicate username) = .ok predicates) :
    parseAfcasAuthorizationData Parse context = .ok predicates := by
  obtain ⟨data, doc, rootElement, predicatesElement, hdata, hdoc, hroot, hsection, rfl⟩ := hdocument
  rw [parseAfcasAuthorizationData, hdata, huser]
  show (parseDocument Parse data >>= _) = _
  rw [parseDocument, hdoc]
  show (orFail _ (doc.find? _) >>= _) = _
  rw [hroot]
  show (sectionElement rootElement _ >>= _) = _
  rw [sectionElement, hsection]
  exact hmap

/-- **The decision is exact and fails closed.**  For every document whose predicates have
their texts, every context that carries it and a user name, and every network. -/
theorem isAuthorized_failsClosed (network : Network) (parse : Str → Except Str Json.Value)
    (hparse : ParsesObjects parse) (Parse : XMLParser) (strategy : AfcasAuthorizationStrategy)
    (context : ComputationContext) (sent : List Request) (username : Str)
    (elements : List XMLElement) (hdocument : CarriesDocument Parse context elements)
    (huser : context.Get AUTH_AUTHENTICATED_INFO = some (.string username))
    (htexts : ∀ e ∈ elements, (∃ r, e.childText "resourceId".toList = .ok r) ∧
      ∃ o, e.childText "operationId".toList = .ok o) :
    ∃ predicates, List.Forall₂ (Describes username) elements predicates ∧
      FailsClosed (fun i b ↦ Answered network parse strategy.afcasClient (sent.length + i) b)
        predicates context sent (strategy.isAuthorized network parse Parse context sent) := by
  obtain ⟨predicates, hdescribes, hmap⟩ := exists_describes username htexts
  refine ⟨predicates, hdescribes, ?_⟩
  rw [AfcasAuthorizationStrategy.isAuthorized,
    parseAfcasAuthorizationData_of_document hdocument huser hmap]
  exact failsClosed_askAll hparse predicates context sent

/-- A document with two predicates. -/
def documentText : Str :=
  ("<authorization><predicates>" ++
    "<predicate><resourceId>r1</resourceId><operationId>read</operationId></predicate>" ++
    "<predicate><resourceId>r2</resourceId><operationId>write</operationId></predicate>" ++
    "</predicates></authorization>").toList

def predicateElement (resourceId operationId : String) : XMLElement :=
  .mk "predicate".toList none
    [.mk "resourceId".toList (some resourceId.toList) [],
      .mk "operationId".toList (some operationId.toList) []]

/-- Its predicate elements. -/
def documentElements : List XMLElement :=
  [predicateElement "r1" "read", predicateElement "r2" "write"]

def documentParser : XMLParser := fun data ↦
  if data = c_str documentText then
    .ok [.mk "authorization".toList none [.mk "predicates".toList none documentElements]]
  else .error 1

def aliceContext : ComputationContext :=
  ((⟨fun _ ↦ none⟩ : ComputationContext).Put AUTHORIZATION_DATA_KEY (.string documentText)).Put
    AUTH_AUTHENTICATED_INFO (.string "alice".toList)

def afcasStrategy : AfcasAuthorizationStrategy :=
  ⟨.empty, ⟨"afcas".toList, "80".toList, [], [], [], [], []⟩⟩

/-- The members of an answer as text. -/
def answerMembers : Bool → Str
  | true => "\"data\":true".toList
  | false => "\"data\":false".toList

def answerText (b : Bool) : Str := '\x7b' :: (answerMembers b ++ ['\x7d'])

/-- A network whose every response grants. -/
def grantNetwork : Network := fun _ ↦ some ⟨200, [], answerText true⟩

/-- A network whose first response grants, and that may lose the second one. -/
def secondNetwork (second : Option HttpResponse) : Network := fun n ↦
  if n = 0 then some ⟨200, [], answerText true⟩ else second

/-- A parser that knows the two answers. -/
def answerParse : Str → Except Str Json.Value := fun s ↦
  if s = answerText true then .ok (.object [("data".toList, .boolean true)])
  else if s = answerText false then .ok (.object [("data".toList, .boolean false)])
  else .error "parse error".toList

theorem answerParse_parsesObjects : ParsesObjects answerParse where
  nil := fun v h ↦ by cases h
  object := by
    intro s v h
    rw [answerParse] at h
    split at h
    case isTrue hs =>
      obtain rfl := Except.ok.inj h
      refine ⟨⟨_, rfl⟩, ?_⟩
      rw [(List.cons_eq_cons.mp hs).2]
      decide
    case isFalse =>
      split at h
      case isTrue hs =>
        obtain rfl := Except.ok.inj h
        refine ⟨⟨_, rfl⟩, ?_⟩
        rw [(List.cons_eq_cons.mp hs).2]
        decide
      case isFalse => cases h

theorem answered_of_answerText {network : Network} {n : Nat} {b : Bool}
    (h : network n = some ⟨200, [], answerText b⟩) :
    Answered network answerParse afcasStrategy.afcasClient n b := by
  refine ⟨⟨80, rfl⟩, _, h, rfl, [], answerMembers b, [], [("data".toList, .boolean b)], rfl,
    List.not_mem_nil, List.not_mem_nil, ?_, rfl⟩
  cases b with
  | true => rfl
  | false => rfl

/-- What becomes of the document over a network. -/
def documentOutcome (network : Network) : Outcome :=
  afcasStrategy.isAuthorized network answerParse documentParser aliceContext []

/-- The two predicates are granted, or the second is denied, or its answer is lost. -/
theorem isAuthorized_document :
    (documentOutcome grantNetwork).context.Get AUTHORIZATION_AUTHORIZED_KEY = some (.bool true) ∧
      (documentOutcome (secondNetwork (some ⟨200, [], answerText false⟩))).context.Get
        AUTHORIZATION_AUTHORIZED_KEY = some (.bool false) ∧
      (∃ e, (documentOutcome (secondNetwork none)).result = .error e) ∧
      (documentOutcome (secondNetwork none)).context = aliceContext := by
  have hdata : aliceContext.Get AUTHORIZATION_DATA_KEY = some (.string documentText) := rfl
  have hdoc : documentParser (c_str documentText) =
      .ok [.mk "authorization".toList none [.mk "predicates".toList none documentElements]] :=
    if_pos rfl
  have hdecided : ∀ network, ∃ predicates : List Predicate, 1 < predicates.length ∧
      FailsClosed (fun i b ↦ Answered network answerParse afcasStrategy.afcasClient (0 + i) b)
        predicates aliceContext [] (documentOutcome network) := by
    intro network
    obtain ⟨predicates, hdescribes, h⟩ := isAuthorized_failsClosed network answerParse
      answerParse_parsesObjects documentParser afcasStrategy aliceContext [] "alice".toList
      documentElements ⟨documentText, _, _, _, hdata, hdoc, rfl, rfl, rfl⟩
      (ComputationContext.get_put_self ..) (fun e he ↦ by
        rcases List.mem_cons.mp he with rfl | he
        · exact ⟨⟨_, rfl⟩, _, rfl⟩
        · obtain rfl := List.mem_singleton.mp he
          exact ⟨⟨_, rfl⟩, _, rfl⟩)
    refine ⟨predicates, ?_, h⟩
    rw [← hdescribes.length_eq]
    decide
  refine ⟨?_, ?_, ?_⟩
  · obtain ⟨predicates, -, h⟩ := hdecided grantNetwork
    have hall := h.authorized.mpr fun i _ ↦ answered_of_answerText rfl
    rw [hall.2, ComputationContext.get_put_self]
  · obtain ⟨predicates, hsecond, h⟩ :=
      hdecided (secondNetwork (some ⟨200, [], answerText false⟩))
    have hdenied := h.denied.mpr ⟨1, hsecond, answered_of_answerText rfl, fun i hi ↦ by
      obtain rfl := Nat.lt_one_iff.mp hi
      exact answered_of_answerText rfl⟩
    rw [hdenied.2, ComputationContext.get_put_self]
  · obtain ⟨predicates, hsecond, h⟩ := hdecided (secondNetwork none)
    -- only the first answer arrives, and it grants
    have hlost : ∀ b,
        ¬ Answered (secondNetwork none) answerParse afcasStrategy.afcasClient 1 b := by
      rintro b ⟨-, response, hresponse, -⟩
      cases hresponse
    refine h.otherwise (fun hall ↦ hlost true (hall 1 hsecond)) ?_
    rintro ⟨k, -, hdenied, hbefore⟩
    match k with
    | 0 => cases hdenied.unique answerParse_parsesObjects (answered_of_answerText rfl)
    | 1 => exact hlost false hdenied
    | k + 2 => exact hlost true (hbefore 1 (by omega))

end AsabruCommons.Authorization
