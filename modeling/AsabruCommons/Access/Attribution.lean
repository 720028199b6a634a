import AsabruCommons.Access.Process

/-!
# In whose name

A query to the server names a user, and the context is where the name comes from.  The name
stays in the context when a later token is refused, and `authorized` stays when a later check
throws, so the keys of the moment do not say that the user is who the query names.

What holds is where the values come from.  `access_attributed` traces each query back to a
token that the same client has shown, that verified, and that is a token of this user; and
each `authorized` back to a check of the same client in which the server granted every
predicate to such a user.  A client that has shown no token sends no query at all.  Two keys
have to be left to the strategies: a client may put anything else into its context.
-/

namespace AsabruCommons.Access

open Afcas Authorization Run State

variable {Client : Type} [DecidableEq Client] {S : Surroundings} {s t : State Client}
  {e : Event Client}

/-! ## What one step can do -/

/-- The steps, by what they do to the state. -/
inductive Does (S : Surroundings) (s : State Client) : Event Client → State Client → Prop where
  | nothing {e : Event Client} : Does S s e s
  | inside {e : Event Client} {e' : Authentication.Event Client}
      {after : Authentication.State Client} :
      Authentication.step S.jwt s.authentication e' = some after →
      Does S s e { s with authentication := after }
  | answers {e : Event Client} {e' : Authentication.Event Client}
      {after : Authentication.State Client} (c : Client) :
      Authentication.step S.jwt s.authentication e' = some after →
      Does S s e (s.answered c after)
  | restarts {e : Event Client} {e' : Authentication.Event Client}
      {after : Authentication.State Client} :
      Authentication.step S.jwt s.authentication e' = some after →
      Does S s e { s with
        authentication := after
        contexts := fun _ ↦ ComputationContext.empty
        asking := fun _ ↦ none }
  | authenticates {e : Event Client} {e' : Authentication.Event Client}
      {after : Authentication.State Client} (c : Client) {context : ComputationContext} :
      Authentication.step S.jwt s.authentication e' = some after →
      (context.Get AUTH_AUTHENTICATED_INFO = (s.contexts c).Get AUTH_AUTHENTICATED_INFO ∧
        context.Get AUTHORIZATION_AUTHORIZED_KEY =
          (s.contexts c).Get AUTHORIZATION_AUTHORIZED_KEY) →
      Does S s e { s.setContext c context with authentication := after }
  | reads {e : Event Client} {c : Client} {predicates : List Predicate} :
      parseAfcasAuthorizationData S.Parse (s.contexts c) = .ok predicates →
      Does S s e (s.setAsking c (some ⟨s.contexts c, predicates, predicates⟩))
  | asks {e : Event Client} {c : Client} {check : Check} :
      s.asking c = some check → Does S s e (s.ask S c check)
  | puts {c : Client} {k : Str} {value : Any} :
      Does S s (.put c k value) (s.setContext c ((s.contexts c).Put k value))

/-- Another key. -/
theorem get_put_of_ne (context : ComputationContext) {k key : Str} (h : key ≠ k) (value : Any) :
    (context.Put k value).Get key = context.Get key := Function.update_of_ne h ..

theorem does_of_step (h : step S s e = some t) : Does S s e t := by
  cases e with
  | authentication e =>
      cases e with
      | authenticate username password => cases h
      | isAuthenticated c token | removeAuthentication c token =>
          simp only [step] at h
          split at h
          · obtain ⟨after, hafter, rfl⟩ := Option.map_eq_some_iff.mp h
            exact .inside hafter
          · cases h
      | findToken c | verifyToken c =>
          obtain ⟨after, hafter, rfl⟩ := Option.map_eq_some_iff.mp h
          exact .answers c hafter
      | restart env =>
          cases h
          have hrestart : Authentication.step S.jwt s.authentication (.restart env) = some _ := rfl
          exact .restarts hrestart
      | tick now | addToken c | returnRemoval c | getAll result | verifyThenRemove
      | compactFile =>
          obtain ⟨after, hafter, rfl⟩ := Option.map_eq_some_iff.mp h
          exact .inside hafter
  | authenticate c =>
      simp only [step] at h
      split at h
      · cases h
      · split at h
        · obtain ⟨after, hafter, rfl⟩ := Option.map_eq_some_iff.mp h
          refine .authenticates c hafter ?_
          split
          · refine ⟨?_, ?_⟩
            · exact (get_put_of_ne _ (by decide) _).trans (get_put_of_ne _ (by decide) _)
            · exact (get_put_of_ne _ (by decide) _).trans (get_put_of_ne _ (by decide) _)
          · exact ⟨get_put_of_ne _ (by decide) _, get_put_of_ne _ (by decide) _⟩
        · cases h
          exact .nothing
  | isAuthorized c =>
      simp only [step] at h
      split at h
      · cases h
      · split at h
        · rename_i hreads
          cases h
          exact .reads hreads
        · cases h
          exact .nothing
  | ask c =>
      obtain ⟨check, hcheck, rfl⟩ := Option.map_eq_some_iff.mp h
      exact .asks hcheck
  | put c k value =>
      simp only [step] at h
      split at h
      · cases h
      · cases h
        exact .puts

/-! ## Names and answers -/

/-- The token was good when it was accepted. -/
structure Acceptance.Holds (J : Authentication.Jwt) (first last : Int)
    (a : Acceptance Client) : Prop where
  first_le : first ≤ a.now
  le_last : a.now ≤ last
  verify : J.verify a.token a.now = true
  username : J.username a.token = some a.username

/-- What is in a list is in all that continue it. -/
theorem getElem?_of_isPrefix {α : Type} {l m : List α} (h : l <+: m) {n : Nat} {a : α}
    (ha : l[n]? = some a) : m[n]? = some a := by
  obtain ⟨r, rfl⟩ := h
  rwa [List.getElem?_append_left (List.getElem?_eq_some_iff.mp ha).1]

namespace State

/-- The client has shown a token of this user. -/
def Speaks (s : State Client) (c : Client) (username : Str) : Prop :=
  ∃ a ∈ s.accepted, a.client = c ∧ a.username = username

/-- The client has asked for the predicate, and the server has granted it. -/
def Granted (S : Surroundings) (s : State Client) (c : Client) (predicate : Predicate) : Prop :=
  ∃ (n : Nat) (request : Request), s.askers[n]? = some c ∧ s.sent[n]? = some request ∧
    request.requestUri = predicate.uri ∧
    Answered S.network S.parse S.strategy.afcasClient n true

/-- The predicates are those of the context, and all of them for one user. -/
def Reads (S : Surroundings) (s : State Client) (c : Client) (context : ComputationContext)
    (predicates : List Predicate) : Prop :=
  parseAfcasAuthorizationData S.Parse context = .ok predicates ∧
    ∃ username, s.Speaks c username ∧ ∀ p ∈ predicates, p.principalName = username

/-- Nothing that was said or asked is forgotten. -/
structure Extends (s t : State Client) : Prop where
  accepted : ∀ a ∈ s.accepted, a ∈ t.accepted
  askers : s.askers <+: t.askers
  sent : s.sent <+: t.sent

variable (h : Extends s t)
include h

omit [DecidableEq Client] in
theorem Speaks.mono {c : Client} {username : Str} (hs : s.Speaks c username) :
    t.Speaks c username := by
  obtain ⟨a, ha, hc, hu⟩ := hs
  exact ⟨a, h.accepted a ha, hc, hu⟩

omit [DecidableEq Client] in
theorem Granted.mono {c : Client} {predicate : Predicate} (hs : s.Granted S c predicate) :
    t.Granted S c predicate := by
  obtain ⟨n, request, hasker, hrequest, hrest⟩ := hs
  exact ⟨n, request, getElem?_of_isPrefix h.askers hasker, getElem?_of_isPrefix h.sent hrequest,
    hrest⟩

omit [DecidableEq Client] in
theorem Reads.mono {c : Client} {context : ComputationContext} {predicates : List Predicate}
    (hs : s.Reads S c context predicates) : t.Reads S c context predicates := by
  obtain ⟨hparsed, username, hspeaks, hnames⟩ := hs
  exact ⟨hparsed, username, hspeaks.mono h, hnames⟩

end State

/-- The predicates of some elements name the same user. -/
theorem name_of_mapM {username : Str} {elements : List XMLElement} {predicates : List Predicate}
    (h : elements.mapM (parseAfcasPredicate username) = .ok predicates) :
    ∀ p ∈ predicates, p.principalName = username := by
  induction elements generalizing predicates with
  | nil =>
      cases h
      exact fun p hp ↦ absurd hp List.not_mem_nil
  | cons element elements ih =>
      rw [List.mapM_cons] at h
      obtain ⟨predicate, hpredicate, h⟩ := bind_eq_ok_iff.mp h
      obtain ⟨rest, hrest, h⟩ := bind_eq_ok_iff.mp h
      cases h
      refine List.forall_mem_cons.mpr ⟨?_, ih hrest⟩
      obtain ⟨resourceId, -, hpredicate⟩ := bind_eq_ok_iff.mp hpredicate
      obtain ⟨operationId, -, hpredicate⟩ := bind_eq_ok_iff.mp hpredicate
      cases hpredicate
      rfl

/-- The predicates of a context name the user that it holds. -/
theorem name_of_parsed {Parse : XMLParser} {context : ComputationContext}
    {predicates : List Predicate}
    (h : parseAfcasAuthorizationData Parse context = .ok predicates) :
    ∃ username, context.Get AUTH_AUTHENTICATED_INFO = some (.string username) ∧
      ∀ p ∈ predicates, p.principalName = username := by
  obtain ⟨data, -, h⟩ := bind_eq_ok_iff.mp h
  obtain ⟨username, hname, h⟩ := bind_eq_ok_iff.mp h
  obtain ⟨doc, -, h⟩ := bind_eq_ok_iff.mp h
  obtain ⟨rootElement, -, h⟩ := bind_eq_ok_iff.mp h
  obtain ⟨predicatesElement, -, h⟩ := bind_eq_ok_iff.mp h
  refine ⟨username, ?_, ?_⟩
  · cases hvalue : context.Get AUTH_AUTHENTICATED_INFO with
    | none =>
        rw [hvalue] at hname
        cases hname
    | some value =>
        rw [hvalue] at hname
        cases value with
        | string s =>
            cases hname
            rfl
        | bool b => cases hname
        | other => cases hname
  · exact name_of_mapM h

/-! ## The invariant -/

structure Attributed (S : Surroundings) (first : Int) (s : State Client) : Prop where
  started : first ≤ s.authentication.clock
  accepted : ∀ a ∈ s.accepted, a.Holds S.jwt first s.authentication.clock
  info : ∀ c value, (s.contexts c).Get AUTH_AUTHENTICATED_INFO = some value →
    ∃ username, value = .string username ∧ s.Speaks c username
  asking : ∀ c check, s.asking c = some check → s.Reads S c check.context check.predicates ∧
    (∀ p ∈ check.rest, p ∈ check.predicates) ∧
    ∀ p ∈ check.predicates, p ∈ check.rest ∨ s.Granted S c p
  length : s.askers.length = s.sent.length
  queries : ∀ (n : Nat) c, s.askers[n]? = some c → ∃ username, s.Speaks c username ∧
    ∃ (request : Request) (operationId resourceId : Str), s.sent[n]? = some request ∧
      request.requestUri = AfcasClient.authorizationUri username operationId resourceId
  granted : ∀ g ∈ s.granted, s.Reads S g.client g.context g.predicates ∧
    ∀ p ∈ g.predicates, s.Granted S g.client p
  authorized : ∀ c, (s.contexts c).Get AUTHORIZATION_AUTHORIZED_KEY = some (.bool true) →
    ∃ g ∈ s.granted, g.client = c

omit [DecidableEq Client] in
theorem attributed_boot (env : Authentication.Config) (clock : Int) (temp : FileState) :
    Attributed S clock (State.boot env clock temp : State Client) where
  started := le_rfl
  accepted := fun a ha ↦ absurd ha List.not_mem_nil
  info := fun c value h ↦ by cases h
  asking := fun c check h ↦ by cases h
  length := rfl
  queries := fun n c h ↦ by cases h
  granted := fun g hg ↦ absurd hg List.not_mem_nil
  authorized := fun c h ↦ by cases h

namespace Attributed

variable {first : Int} (h : Attributed S first s)
include h

/-- The state changes inside of the authentication only. -/
theorem inside {e : Authentication.Event Client} {after : Authentication.State Client}
    (hafter : Authentication.step S.jwt s.authentication e = some after) :
    Attributed S first { s with authentication := after } :=
  have hclock := Authentication.step_clock hafter
  { h with
    started := h.started.trans hclock
    accepted := fun a ha ↦
      { h.accepted a ha with le_last := (h.accepted a ha).le_last.trans hclock } }

/-- A context changes, and what it says of these two keys is accounted for. -/
theorem setContext {c : Client} {context : ComputationContext}
    (hinfo : ∀ value, context.Get AUTH_AUTHENTICATED_INFO = some value →
      ∃ username, value = .string username ∧ s.Speaks c username)
    (hauthorized : context.Get AUTHORIZATION_AUTHORIZED_KEY = some (.bool true) →
      ∃ g ∈ s.granted, g.client = c) : Attributed S first (s.setContext c context) := by
  have hother {d : Client} (hd : d ≠ c) : (s.setContext c context).contexts d = s.contexts d :=
    Function.update_of_ne hd ..
  refine { h with info := fun d value hd ↦ ?_, authorized := fun d hd ↦ ?_ }
  · by_cases hdc : d = c
    · subst hdc
      rw [contexts_setContext] at hd
      exact hinfo value hd
    · rw [hother hdc] at hd
      exact h.info d value hd
  · by_cases hdc : d = c
    · subst hdc
      rw [contexts_setContext] at hd
      exact hauthorized hd
    · rw [hother hdc] at hd
      exact h.authorized d hd

/-- It does not change there. -/
theorem setContext_of_eq {c : Client} {context : ComputationContext}
    (hinfo : context.Get AUTH_AUTHENTICATED_INFO = (s.contexts c).Get AUTH_AUTHENTICATED_INFO)
    (hauthorized : context.Get AUTHORIZATION_AUTHORIZED_KEY =
      (s.contexts c).Get AUTHORIZATION_AUTHORIZED_KEY) :
    Attributed S first (s.setContext c context) := by
  apply h.setContext
  · rw [hinfo]
    exact h.info c
  · rw [hauthorized]
    exact h.authorized c

omit [DecidableEq Client] in
/-- A check is passed. -/
theorem grant {g : Grant Client} (hreads : s.Reads S g.client g.context g.predicates)
    (hall : ∀ p ∈ g.predicates, s.Granted S g.client p) :
    Attributed S first { s with granted := g :: s.granted } := by
  refine { h with granted := ?_, authorized := fun c hc ↦ ?_ }
  · exact List.forall_mem_cons.mpr ⟨⟨hreads, hall⟩, h.granted⟩
  · obtain ⟨g', hg', hclient⟩ := h.authorized c hc
    exact ⟨g', List.mem_cons_of_mem g hg', hclient⟩

/-- A call begins or goes on. -/
theorem setAsking {c : Client} {check : Option Check}
    (hcheck : ∀ check', check = some check' → s.Reads S c check'.context check'.predicates ∧
      (∀ p ∈ check'.rest, p ∈ check'.predicates) ∧
      ∀ p ∈ check'.predicates, p ∈ check'.rest ∨ s.Granted S c p) :
    Attributed S first (s.setAsking c check) := by
  refine { h with asking := fun d check' hd ↦ ?_ }
  by_cases hdc : d = c
  · subst hdc
    rw [asking_setAsking] at hd
    exact hcheck check' hd
  · have hd : Function.update s.asking c check d = some check' := hd
    rw [Function.update_of_ne hdc] at hd
    exact h.asking d check' hd

omit [DecidableEq Client] in
/-- More is said and asked. -/
theorem grows {t : State Client} (ht : Extends s t)
    (hauthentication : t.authentication = s.authentication) (hcontexts : t.contexts = s.contexts)
    (hasking : t.asking = s.asking) (hgranted : t.granted = s.granted)
    (haccepted : ∀ a ∈ t.accepted, a.Holds S.jwt first t.authentication.clock)
    (hlength : t.askers.length = t.sent.length)
    (hqueries : ∀ (n : Nat) c, t.askers[n]? = some c → s.askers.length ≤ n →
      ∃ username, t.Speaks c username ∧
        ∃ (request : Request) (operationId resourceId : Str), t.sent[n]? = some request ∧
          request.requestUri = AfcasClient.authorizationUri username operationId resourceId) :
    Attributed S first t where
  started := by
    rw [hauthentication]
    exact h.started
  accepted := haccepted
  info := by
    intro c value hc
    rw [hcontexts] at hc
    obtain ⟨username, hvalue, hspeaks⟩ := h.info c value hc
    exact ⟨username, hvalue, hspeaks.mono ht⟩
  asking := by
    intro c check hc
    rw [hasking] at hc
    obtain ⟨hreads, hrest, hasked⟩ := h.asking c check hc
    exact ⟨hreads.mono ht, hrest, fun p hp ↦ (hasked p hp).imp_right (·.mono ht)⟩
  length := hlength
  queries := by
    intro n c hc
    rcases Nat.lt_or_ge n s.askers.length with hn | hn
    · have hold := List.getElem?_eq_getElem hn
      obtain rfl := Option.some.inj ((getElem?_of_isPrefix ht.askers hold).symm.trans hc)
      obtain ⟨username, hspeaks, request, o, r, hrequest, huri⟩ := h.queries n _ hold
      exact ⟨username, hspeaks.mono ht, request, o, r, getElem?_of_isPrefix ht.sent hrequest, huri⟩
    · exact hqueries n c hc hn
  granted := by
    intro g hg
    rw [hgranted] at hg
    obtain ⟨hreads, hall⟩ := h.granted g hg
    exact ⟨hreads.mono ht, fun p hp ↦ (hall p hp).mono ht⟩
  authorized := by
    rw [hcontexts, hgranted]
    exact h.authorized

/-- A call of `isAuthenticated` goes on, or ends. -/
theorem answered {e : Authentication.Event Client} {after : Authentication.State Client}
    (hafter : Authentication.step S.jwt s.authentication e = some after) (c : Client) :
    Attributed S first (s.answered c after) := by
  rcases Authentication.step_answers hafter with hsame | ⟨a, hnew, hclock, ha⟩
  · rw [State.answered, hsame, newAnswer_self]
    exact h.inside hafter
  · rw [State.answered, hnew, newAnswer_cons]
    have hrefused (hinfo : a.info = none) : Attributed S first { s.setContext c
        ((s.contexts c).Put AUTH_AUTHENTICATED_KEY (.bool a.authenticated)) with
          authentication := after } :=
      (h.setContext_of_eq (get_put_of_ne _ (by decide) _) (get_put_of_ne _ (by decide) _)).inside
        hafter
    cases ha with
    | blacklisted flag hmem => exact hrefused rfl
    | unverified flag hverify => exact hrefused rfl
    | unnamed flag hname => exact hrefused rfl
    | @accepted token username flag hverify hname =>
        have hinside := h.inside hafter
        let said : State Client := { s with
          authentication := after
          accepted := ⟨c, token, username, after.clock⟩ :: s.accepted }
        have hsaid : Attributed S first said := by
          refine hinside.grows ⟨fun b hb ↦ List.mem_cons_of_mem _ hb, List.prefix_rfl,
            List.prefix_rfl⟩ rfl rfl rfl rfl ?_ h.length ?_
          · refine List.forall_mem_cons.mpr ⟨⟨hinside.started, le_rfl, ?_, hname⟩,
              hinside.accepted⟩
            rw [hclock]
            exact hverify
          · intro n d hd hn
            exact absurd (List.getElem?_eq_some_iff.mp hd).1 (Nat.not_lt.mpr hn)
        refine hsaid.setContext (fun value hvalue ↦ ?_) fun hauthorized ↦ ?_
        · rw [tell, ComputationContext.get_put_self] at hvalue
          exact ⟨username, (Option.some.inj hvalue).symm, _, List.mem_cons_self, rfl, rfl⟩
        · rw [tell, get_put_of_ne _ (by decide), get_put_of_ne _ (by decide)] at hauthorized
          exact h.authorized c hauthorized

omit [DecidableEq Client] in
/-- The queries of a client that has shown a token of the user. -/
theorem sends {c : Client} {predicate : Predicate} {asked : List Request}
    (hspeaks : s.Speaks c predicate.principalName)
    (huri : asked.map Request.requestUri = [predicate.uri].take asked.length) :
    Attributed S first { s with
      sent := s.sent ++ asked
      askers := s.askers ++ List.replicate asked.length c } := by
  have hextends : Extends s { s with
      sent := s.sent ++ asked
      askers := s.askers ++ List.replicate asked.length c } :=
    ⟨fun a ha ↦ ha, List.prefix_append _ _, List.prefix_append _ _⟩
  refine h.grows hextends rfl rfl rfl rfl h.accepted ?_ ?_
  · rw [List.length_append, List.length_append, List.length_replicate, h.length]
  · intro n d hd hn
    rw [List.getElem?_append_right hn] at hd
    have hlt := (List.getElem?_eq_some_iff.mp hd).1
    rw [List.length_replicate] at hlt
    rw [List.getElem?_replicate_of_lt hlt] at hd
    obtain rfl := Option.some.inj hd
    rw [h.length] at hn hlt
    refine ⟨_, hspeaks.mono hextends, asked[n - s.sent.length], predicate.operationId,
      predicate.resourceId, ?_, ?_⟩
    · rw [List.getElem?_append_right hn, List.getElem?_eq_getElem hlt]
    · have hmem := List.mem_map_of_mem (f := Request.requestUri) (List.getElem_mem hlt)
      rw [huri] at hmem
      exact List.mem_singleton.mp (List.mem_of_mem_take hmem)

/-- One query, or the end of a call. -/
theorem ask (hparse : ParsesObjects S.parse) {c : Client} {check : Check}
    (hcheck : s.asking c = some check) : Attributed S first (s.ask S c check) := by
  obtain ⟨hreads, hrest, hasked⟩ := h.asking c check hcheck
  obtain ⟨context, predicates, rest⟩ := check
  rw [State.ask]
  cases rest with
  | nil =>
      have hall : ∀ p ∈ predicates, s.Granted S c p := fun p hp ↦
        (hasked p hp).resolve_left List.not_mem_nil
      have hgrant := h.grant (g := ⟨c, context, predicates⟩) hreads hall
      refine Attributed.setAsking (hgrant.setContext (fun value hvalue ↦ ?_) fun _ ↦ ?_)
        (fun _ hno ↦ by cases hno)
      · rw [get_put_of_ne _ (by decide)] at hvalue
        exact h.info c value hvalue
      · exact ⟨_, List.mem_cons_self, rfl⟩
  | cons predicate rest =>
      obtain ⟨r, asked, hrun, hr, huri, hone⟩ :=
        run_query S.network hparse S.strategy.afcasClient predicate s.sent
      obtain ⟨username, hspeaks, hnames⟩ := hreads.2
      obtain rfl := hnames predicate (hrest predicate List.mem_cons_self)
      have hsends := h.sends hspeaks huri
      have hcount : (s.sent ++ asked).length - s.sent.length = asked.length := by
        rw [List.length_append, Nat.add_sub_cancel_left]
      dsimp only
      rw [hrun]
      cases r with
      | error e =>
          rw [State.queried, hcount]
          exact hsends.setAsking fun _ hno ↦ by cases hno
      | ok b =>
          cases b with
          | false =>
              rw [State.queried, hcount]
              refine Attributed.setAsking (hsends.setContext (fun value hvalue ↦ ?_) fun hno ↦ ?_)
                (fun _ hno ↦ by cases hno)
              · rw [get_put_of_ne _ (by decide)] at hvalue
                exact hsends.info c value hvalue
              · rw [ComputationContext.get_put_self] at hno
                cases hno
          | true =>
              rw [State.queried, hcount]
              obtain ⟨hreads', -, hasked'⟩ := hsends.asking c _ hcheck
              refine hsends.setAsking fun check' hcheck' ↦ ?_
              obtain rfl := Option.some.inj hcheck'
              refine ⟨hreads', fun p hp ↦ hrest p (List.mem_cons_of_mem predicate hp), ?_⟩
              intro p hp
              rcases hasked' p hp with hmem | hgranted
              · rcases List.mem_cons.mp hmem with rfl | hmem
                · right
                  obtain ⟨request, rfl⟩ := List.length_eq_one_iff.mp (hone true rfl)
                  refine ⟨s.sent.length, request, ?_, ?_, List.singleton_inj.mp huri,
                    (hr true).mp rfl⟩
                  · rw [← h.length, List.getElem?_append_right le_rfl, Nat.sub_self]
                    rfl
                  · rw [List.getElem?_append_right le_rfl, Nat.sub_self]
                    rfl
                · exact .inl hmem
              · exact .inr hgranted

end Attributed

/-- A client leaves these two keys to the strategies. -/
def Event.LeavesKeys : Event Client → Prop
  | .put _ k _ => k ≠ AUTH_AUTHENTICATED_INFO ∧ k ≠ AUTHORIZATION_AUTHORIZED_KEY
  | _ => True

theorem attributed_step {first : Int} (hparse : ParsesObjects S.parse) (h : Attributed S first s)
    (he : e.LeavesKeys) (hs : step S s e = some t) : Attributed S first t := by
  cases does_of_step hs with
  | nothing => exact h
  | inside hafter => exact h.inside hafter
  | answers c hafter => exact h.answered hafter c
  | restarts hafter =>
      refine { h.inside hafter with info := ?_, asking := ?_, authorized := ?_ }
      · rintro c value ⟨⟩
      · rintro c check ⟨⟩
      · rintro c ⟨⟩
  | authenticates c hafter hcontext =>
      exact (h.setContext_of_eq hcontext.1 hcontext.2).inside hafter
  | @reads _ c predicates hparsed =>
      refine h.setAsking fun check hcheck ↦ ?_
      obtain rfl := Option.some.inj hcheck
      obtain ⟨username, hvalue, hnames⟩ := name_of_parsed hparsed
      obtain ⟨username', heq, hspeaks⟩ := h.info c _ hvalue
      obtain rfl := Any.string.inj heq
      exact ⟨⟨hparsed, username, hspeaks, hnames⟩, fun p hp ↦ hp, fun p hp ↦ .inl hp⟩
  | asks hcheck => exact h.ask hparse hcheck
  | puts =>
      obtain ⟨hinfo, hauthorized⟩ := he
      exact h.setContext_of_eq (get_put_of_ne _ hinfo.symm _) (get_put_of_ne _ hauthorized.symm _)

/-! ## Every run -/

/-- Where the queries and the decisions of this state come from. -/
structure Accountable (S : Surroundings) (first : Int) (s : State Client) : Prop where
  /-- It is known whose call sent which query. -/
  length : s.askers.length = s.sent.length
  /-- A query asks about a user of whom its client has shown a token. -/
  queries : ∀ (n : Nat) c, s.askers[n]? = some c → ∃ a ∈ s.accepted, a.client = c ∧
    a.Holds S.jwt first s.authentication.clock ∧
    ∃ (request : Request) (operationId resourceId : Str), s.sent[n]? = some request ∧
      request.requestUri = AfcasClient.authorizationUri a.username operationId resourceId
  /-- An authorized client has passed a check, as a user of whom it has shown a token. -/
  authorized : ∀ c, (s.contexts c).Get AUTHORIZATION_AUTHORIZED_KEY = some (.bool true) →
    ∃ g ∈ s.granted, g.client = c ∧
      parseAfcasAuthorizationData S.Parse g.context = .ok g.predicates ∧
      ∃ a ∈ s.accepted, a.client = c ∧ a.Holds S.jwt first s.authentication.clock ∧
        ∀ p ∈ g.predicates, p.principalName = a.username ∧ s.Granted S c p

omit [DecidableEq Client] in
theorem Attributed.accountable {first : Int} (h : Attributed S first s) :
    Accountable S first s where
  length := h.length
  queries := by
    intro n c hc
    obtain ⟨username, ⟨a, ha, hclient, rfl⟩, hrequest⟩ := h.queries n c hc
    exact ⟨a, ha, hclient, h.accepted a ha, hrequest⟩
  authorized := by
    intro c hc
    obtain ⟨g, hg, rfl⟩ := h.authorized c hc
    obtain ⟨⟨hparsed, username, ⟨a, ha, hclient, rfl⟩, hnames⟩, hall⟩ := h.granted g hg
    exact ⟨g, hg, rfl, hparsed, a, ha, hclient, h.accepted a ha,
      fun p hp ↦ ⟨hnames p hp, hall p hp⟩⟩

/-- **In whose name.**  In every run of all clients and the background thread, with restarts. -/
theorem access_attributed (hparse : ParsesObjects S.parse) (env : Authentication.Config)
    (clock : Int) (temp : FileState) (es : List (Event Client)) (s : State Client)
    (hkeys : ∀ e ∈ es, e.LeavesKeys) (hrun : run (step S) (State.boot env clock temp) es = some s) :
    Accountable S clock s := by
  refine Attributed.accountable ?_
  refine run_invariant_along (G := fun _ e ↦ e.LeavesKeys) ?_ (attributed_boot env clock temp)
    (along_of_forall (fun e he _ ↦ hkeys e he) _) hrun
  intro s e t h he hs
  exact attributed_step hparse h he hs

/-- A server that grants, and tokens that all verify. -/
def aliceSurroundings : Surroundings where
  jwt := ⟨fun username _ _ ↦ username, fun _ _ ↦ true, some⟩
  network := grantNetwork
  parse := answerParse
  Parse := documentParser
  strategy := afcasStrategy

/-- One client from its password to its authorization. -/
def aliceRun : List (Event Unit) :=
  [.put () AUTH_BASIC_USERNAME_KEY (.string "alice".toList),
    .put () AUTH_BASIC_PASSWORD_KEY (.string "secret".toList),
    .authenticate (),
    .authentication (.isAuthenticated () "alice".toList),
    .authentication (.findToken ()),
    .authentication (.verifyToken ()),
    .put () AUTHORIZATION_DATA_KEY (.string documentText),
    .isAuthorized (), .ask (), .ask (), .ask ()]

theorem access_attributed_alice :
    ∃ s, run (step aliceSurroundings)
        (State.boot ⟨"alice".toList, "secret".toList, 3600⟩ 0 none) aliceRun = some s ∧
      (s.contexts ()).Get AUTHORIZATION_AUTHORIZED_KEY = some (.bool true) ∧
      Accountable aliceSurroundings 0 s := by
  have hend : (run (step aliceSurroundings)
      (State.boot ⟨"alice".toList, "secret".toList, 3600⟩ 0 none) aliceRun).map
        (fun s ↦ (s.contexts ()).Get AUTHORIZATION_AUTHORIZED_KEY) = some (some (.bool true)) := by
    decide +kernel
  obtain ⟨s, hs, hauthorized⟩ := Option.map_eq_some_iff.mp hend
  refine ⟨s, hs, hauthorized,
    access_attributed answerParse_parsesObjects _ 0 none aliceRun s ?_ hs⟩
  simp only [aliceRun, List.forall_mem_cons, Event.LeavesKeys]
  refine ⟨by decide, by decide, trivial, trivial, trivial, trivial, by decide, trivial, trivial,
    trivial, trivial, fun e he ↦ absurd he List.not_mem_nil⟩

end AsabruCommons.Access
