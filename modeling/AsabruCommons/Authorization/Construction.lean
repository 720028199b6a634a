import AsabruCommons.Authorization.Documents

/-!
# Constructing the strategy

The constructor of `AfcasAuthorizationStrategy` passes seven arguments to its client.
One of them parses the initial data into the member vectors and then copies one of
them, and four others copy the other vectors.  The arguments may be evaluated in any
order, so a vector is copied before or after it was filled.  The client gets everything
exactly when each of the four is copied afterwards or stays empty (`receives_iff`).
-/

namespace AsabruCommons.Authorization

open Afcas

/-- The arguments of the client, by the names of its parameters. -/
inductive Argument where
  | host | port | principals | groups | resources | operations | resourceAccessPredicates
deriving DecidableEq

/-- In the order in which they are written. -/
def Argument.all : List Argument :=
  [.host, .port, .principals, .groups, .resources, .operations, .resourceAccessPredicates]

/-- The member vectors, and the arguments that have been evaluated. -/
structure Evaluation where
  strategy : BaseAuthorizationStrategy
  arguments : AfcasClient
deriving DecidableEq

/-- The vectors are empty before the client is constructed. -/
def Evaluation.start : Evaluation := ⟨.empty, ⟨[], [], [], [], [], [], []⟩⟩

section

variable (Parse : XMLParser) (AFCAS_HOST AFCAS_PORT : Option Str) (context : ComputationContext)

def evaluate (s : Evaluation) : Argument → Except Failure Evaluation
  | .host => do
      let host ← orFail (.runtime_error "AFCAS_HOST environment variable not set".toList) AFCAS_HOST
      return { s with arguments := { s.arguments with host } }
  | .port => do
      let port ← orFail (.runtime_error "AFCAS_PORT environment variable not set".toList) AFCAS_PORT
      return { s with arguments := { s.arguments with port } }
  | .principals => do
      let strategy ← s.strategy.parseInitData Parse context
      return { strategy, arguments := { s.arguments with principals := strategy.principals } }
  | .groups => return { s with arguments := { s.arguments with groups := s.strategy.groups } }
  | .resources =>
      return { s with arguments := { s.arguments with resources := s.strategy.resources } }
  | .operations =>
      return { s with arguments := { s.arguments with operations := s.strategy.operations } }
  | .resourceAccessPredicates =>
      return { s with arguments :=
        { s.arguments with resourceAccessPredicates := s.strategy.accessPredicates } }

/-- The arguments are evaluated in this order. -/
def evaluateAll (order : List Argument) : Except Failure Evaluation :=
  order.foldlM (evaluate Parse AFCAS_HOST AFCAS_PORT context) .start

end

structure AfcasAuthorizationStrategy where
  base : BaseAuthorizationStrategy
  afcasClient : AfcasClient
deriving DecidableEq

/-- The constructor. -/
def AfcasAuthorizationStrategy.construct (network : Network) (Parse : XMLParser)
    (AFCAS_HOST AFCAS_PORT : Option Str) (context : ComputationContext) (order : List Argument) :
    Action AfcasAuthorizationStrategy := do
  let e ← ofExcept (evaluateAll Parse AFCAS_HOST AFCAS_PORT context order)
  let afcasClient ← AfcasClient.construct network e.arguments.host e.arguments.port
    e.arguments.principals e.arguments.groups e.arguments.resources e.arguments.operations
    e.arguments.resourceAccessPredicates
  return { base := e.strategy, afcasClient }

/-- The client gets everything that was parsed. -/
structure Receives (client : AfcasClient) (parsed : BaseAuthorizationStrategy) : Prop where
  principals : client.principals = parsed.principals
  groups : client.groups = parsed.groups
  resources : client.resources = parsed.resources
  operations : client.operations = parsed.operations
  resourceAccessPredicates : client.resourceAccessPredicates = parsed.accessPredicates

/-- The argument is evaluated after the one that parses. -/
def After (order : List Argument) (argument : Argument) : Prop :=
  order.idxOf .principals < order.idxOf argument

instance (order : List Argument) (argument : Argument) : Decidable (After order argument) :=
  inferInstanceAs (Decidable (order.idxOf .principals < order.idxOf argument))

/-- Every vector is copied after the parsing, or is empty then too. -/
structure CopiedInTime (order : List Argument) (parsed : BaseAuthorizationStrategy) : Prop where
  groups : After order .groups ∨ parsed.groups = []
  resources : After order .resources ∨ parsed.resources = []
  operations : After order .operations ∨ parsed.operations = []
  resourceAccessPredicates :
    After order .resourceAccessPredicates ∨ parsed.accessPredicates = []

/-! ## Evaluating some of the arguments -/

section

variable (Parse : XMLParser) (AFCAS_HOST AFCAS_PORT : Str) (context : ComputationContext)

/-- What the arguments are after some that do not parse were evaluated. -/
structure CopiedFrom (l : List Argument) (s t : Evaluation) : Prop where
  strategy : t.strategy = s.strategy
  principals : t.arguments.principals = s.arguments.principals
  groups : t.arguments.groups =
    if .groups ∈ l then s.strategy.groups else s.arguments.groups
  resources : t.arguments.resources =
    if .resources ∈ l then s.strategy.resources else s.arguments.resources
  operations : t.arguments.operations =
    if .operations ∈ l then s.strategy.operations else s.arguments.operations
  resourceAccessPredicates : t.arguments.resourceAccessPredicates =
    if .resourceAccessPredicates ∈ l then s.strategy.accessPredicates
    else s.arguments.resourceAccessPredicates

/-- One vector, copied by the first argument or by a later one. -/
theorem copied_cons {α : Type} {argument first : Argument} {l : List Argument} {v x y z : List α}
    (hfirst : y = if argument ∈ [first] then v else x)
    (hrest : z = if argument ∈ l then v else y) :
    z = if argument ∈ first :: l then v else x := by
  subst hfirst
  subst hrest
  by_cases hl : argument ∈ l
  · rw [if_pos hl, if_pos (List.mem_cons_of_mem first hl)]
  · rw [if_neg hl]
    simp only [List.mem_cons, List.not_mem_nil, hl, or_false]

theorem CopiedFrom.cons {argument : Argument} {l : List Argument} {s t u : Evaluation}
    (h : CopiedFrom [argument] s t) (hl : CopiedFrom l t u) : CopiedFrom (argument :: l) s u where
  strategy := hl.strategy.trans h.strategy
  principals := hl.principals.trans h.principals
  groups := copied_cons h.groups (h.strategy ▸ hl.groups)
  resources := copied_cons h.resources (h.strategy ▸ hl.resources)
  operations := copied_cons h.operations (h.strategy ▸ hl.operations)
  resourceAccessPredicates :=
    copied_cons h.resourceAccessPredicates (h.strategy ▸ hl.resourceAccessPredicates)

/-- An argument that does not parse leaves the vectors alone, and if it copies one it
copies it as it is. -/
theorem evaluate_copy {argument : Argument} (hne : argument ≠ .principals) (s : Evaluation) :
    ∃ t, evaluate Parse (some AFCAS_HOST) (some AFCAS_PORT) context s argument = .ok t ∧
      CopiedFrom [argument] s t := by
  cases argument with
  | principals => exact absurd rfl hne
  | host => exact ⟨_, rfl, rfl, rfl, rfl, rfl, rfl, rfl⟩
  | port => exact ⟨_, rfl, rfl, rfl, rfl, rfl, rfl, rfl⟩
  | groups => exact ⟨_, rfl, rfl, rfl, rfl, rfl, rfl, rfl⟩
  | resources => exact ⟨_, rfl, rfl, rfl, rfl, rfl, rfl, rfl⟩
  | operations => exact ⟨_, rfl, rfl, rfl, rfl, rfl, rfl, rfl⟩
  | resourceAccessPredicates => exact ⟨_, rfl, rfl, rfl, rfl, rfl, rfl, rfl⟩

/-- So do several of them. -/
theorem evaluate_copies {l : List Argument} (hl : Argument.principals ∉ l) (s : Evaluation) :
    ∃ t, l.foldlM (evaluate Parse (some AFCAS_HOST) (some AFCAS_PORT) context) s = .ok t ∧
      CopiedFrom l s t := by
  induction l generalizing s with
  | nil => exact ⟨s, rfl, rfl, rfl, rfl, rfl, rfl, rfl⟩
  | cons argument l ih =>
      obtain ⟨hne, hrest⟩ := not_or.mp (mt List.mem_cons.mpr hl)
      obtain ⟨t, ht, hcopy⟩ :=
        evaluate_copy Parse AFCAS_HOST AFCAS_PORT context (Ne.symm hne) s
      obtain ⟨u, hu, hcopies⟩ := ih hrest t
      refine ⟨u, ?_, hcopy.cons hcopies⟩
      rw [List.foldlM_cons, ht]
      exact hu

end

/-! ## Any order -/

/-- Every order has the parsing at one place. -/
theorem exists_split {order : List Argument} (h : order.Perm Argument.all) :
    ∃ pre post, order = pre ++ .principals :: post ∧ Argument.principals ∉ pre ∧
      Argument.principals ∉ post := by
  have hnodup : order.Nodup := h.nodup_iff.mpr (by decide)
  have hmem : Argument.principals ∈ order := h.mem_iff.mpr (by decide)
  obtain ⟨pre, post, rfl⟩ := List.append_of_mem hmem
  rw [List.nodup_append, List.nodup_cons] at hnodup
  exact ⟨pre, post, rfl, fun hpre ↦ hnodup.2.2 _ hpre _ List.mem_cons_self rfl, hnodup.2.1.1⟩

/-- What comes after the parsing. -/
theorem after_iff {pre post : List Argument} {argument : Argument}
    (hpre : Argument.principals ∉ pre) (hne : argument ≠ .principals)
    (h : (pre ++ .principals :: post).Perm Argument.all) :
    After (pre ++ .principals :: post) argument ↔ argument ∈ post := by
  have hnodup : (pre ++ .principals :: post).Nodup := h.nodup_iff.mpr (by decide)
  have hmem : argument ∈ pre ++ .principals :: post := h.mem_iff.mpr (by cases argument <;> decide)
  rw [List.nodup_append] at hnodup
  rw [After, List.idxOf_append_of_notMem hpre, List.idxOf_cons_self]
  by_cases hin : argument ∈ pre
  · have hlt : pre.idxOf argument < pre.length := List.idxOf_lt_length_iff.mpr hin
    rw [List.idxOf_append_of_mem hin]
    refine iff_of_false (by omega) fun hpost ↦ ?_
    exact hnodup.2.2 argument hin argument (List.mem_cons_of_mem _ hpost) rfl
  · rw [List.idxOf_append_of_notMem hin, List.idxOf_cons_ne _ (Ne.symm hne)]
    refine iff_of_true (by omega) ?_
    rcases List.mem_append.mp hmem with hmem | hmem
    · exact absurd hmem hin
    · exact (List.mem_cons.mp hmem).resolve_left hne

/-- A vector that is copied before it was filled, when it is empty, or afterwards. -/
theorem copied_iff {pre post : List Argument} (hpre : Argument.principals ∉ pre)
    (h : (pre ++ .principals :: post).Perm Argument.all) {argument : Argument}
    (hne : argument ≠ .principals) {α : Type} {v x y : List α}
    (hx : x = if argument ∈ pre then [] else []) (hy : y = if argument ∈ post then v else x) :
    y = v ↔ After (pre ++ .principals :: post) argument ∨ v = [] := by
  rw [ite_self] at hx
  rw [after_iff hpre hne h, hy, hx]
  by_cases hpost : argument ∈ post
  · simp [hpost]
  · simp [hpost, eq_comm]

/-- **What the client receives.**  For every order of the arguments and every document
that is accepted, the client gets all of it exactly when each vector that is only copied
is copied after the parsing, or has nothing in it. -/
theorem receives_iff (Parse : XMLParser) (AFCAS_HOST AFCAS_PORT : Str)
    (context : ComputationContext) (parsed : BaseAuthorizationStrategy)
    (hparsed : BaseAuthorizationStrategy.empty.parseInitData Parse context = .ok parsed)
    (order : List Argument) (horder : order.Perm Argument.all) :
    ∃ e, evaluateAll Parse (some AFCAS_HOST) (some AFCAS_PORT) context order = .ok e ∧
      (Receives e.arguments parsed ↔ CopiedInTime order parsed) := by
  obtain ⟨pre, post, rfl, hpre, hpost⟩ := exists_split horder
  obtain ⟨s, hs, hstart⟩ := evaluate_copies Parse AFCAS_HOST AFCAS_PORT context hpre .start
  obtain ⟨t, ht, hcopied⟩ := evaluate_copies Parse AFCAS_HOST AFCAS_PORT context hpost
    ⟨parsed, { s.arguments with principals := parsed.principals }⟩
  have heval : evaluateAll Parse (some AFCAS_HOST) (some AFCAS_PORT) context
      (pre ++ .principals :: post) = .ok t := by
    rw [evaluateAll, List.foldlM_append, hs]
    show (evaluate Parse (some AFCAS_HOST) (some AFCAS_PORT) context s .principals >>=
      post.foldlM (evaluate Parse (some AFCAS_HOST) (some AFCAS_PORT) context)) = _
    have hstrategy : s.strategy = .empty := hstart.strategy
    rw [evaluate, hstrategy, hparsed]
    exact ht
  have hgroups := copied_iff hpre horder (by decide) hstart.groups hcopied.groups
  have hresources := copied_iff hpre horder (by decide) hstart.resources hcopied.resources
  have hoperations := copied_iff hpre horder (by decide) hstart.operations hcopied.operations
  have hpredicates := copied_iff hpre horder (by decide) hstart.resourceAccessPredicates
    hcopied.resourceAccessPredicates
  refine ⟨t, heval, fun h ↦ ⟨?_, ?_, ?_, ?_⟩, fun h ↦ ⟨hcopied.principals, ?_, ?_, ?_, ?_⟩⟩
  · exact hgroups.mp h.groups
  · exact hresources.mp h.resources
  · exact hoperations.mp h.operations
  · exact hpredicates.mp h.resourceAccessPredicates
  · exact hgroups.mpr h.groups
  · exact hresources.mpr h.resources
  · exact hoperations.mpr h.operations
  · exact hpredicates.mpr h.resourceAccessPredicates

/-- A document with one resource, and nothing else. -/
def resourceText : Str :=
  ("<data><principals/><groups/><operations/><resources><resource><Id>r1</Id>" ++
    "<Name>table</Name></resource></resources><predicates/></data>").toList

/-- The text, parsed. -/
def resourceDocument : XMLElement :=
  .mk "data".toList none
    [.mk "principals".toList none [], .mk "groups".toList none [],
      .mk "operations".toList none [],
      .mk "resources".toList none
        [.mk "resource".toList none
          [.mk "Id".toList (some "r1".toList) [], .mk "Name".toList (some "table".toList) []]],
      .mk "predicates".toList none []]

/-- A parser that knows this document. -/
def resourceParser : XMLParser := fun data ↦
  if data = c_str resourceText then .ok [resourceDocument] else .error 1

def resourceContext : ComputationContext :=
  (⟨fun _ ↦ none⟩ : ComputationContext).Put AUTHORIZATION_DATA_KEY (.string resourceText)

/-- What the document says. -/
def resourceParsed : BaseAuthorizationStrategy :=
  { BaseAuthorizationStrategy.empty with resources := [⟨"r1".toList, "table".toList⟩] }

theorem resource_parsed : BaseAuthorizationStrategy.empty.parseInitData resourceParser
    resourceContext = .ok resourceParsed := by
  have hdata : resourceContext.Get AUTHORIZATION_DATA_KEY = some (.string resourceText) :=
    ComputationContext.get_put_self ..
  have hdoc : resourceParser (c_str resourceText) = .ok [resourceDocument] := if_pos rfl
  have hroot : [resourceDocument].find? (fun e ↦ e.name = "data".toList) =
    some resourceDocument := rfl
  rw [BaseAuthorizationStrategy.parseInitData_of_document hdata hdoc hroot]
  rfl

/-- From the last argument to the first. -/
theorem evaluateAll_reverse {Parse : XMLParser} {context : ComputationContext}
    {parsed : BaseAuthorizationStrategy}
    (hparsed : BaseAuthorizationStrategy.empty.parseInitData Parse context = .ok parsed)
    (host port : Str) :
    evaluateAll Parse (some host) (some port) context Argument.all.reverse =
      .ok ⟨parsed, { host, port, principals := parsed.principals, groups := [], resources := [],
                     operations := [], resourceAccessPredicates := [] }⟩ := by
  show (evaluate Parse (some host) (some port) context .start .principals >>= _) = _
  rw [evaluate, Evaluation.start, hparsed]
  rfl

theorem receives_reversed :
    BaseAuthorizationStrategy.empty.parseInitData resourceParser resourceContext =
        .ok resourceParsed ∧
      Argument.all.reverse.Perm Argument.all ∧
      ∃ e, evaluateAll resourceParser (some "afcas".toList) (some "80".toList) resourceContext
          Argument.all.reverse = .ok e ∧ ¬ Receives e.arguments resourceParsed := by
  refine ⟨resource_parsed, List.reverse_perm _, _, evaluateAll_reverse resource_parsed _ _, ?_⟩
  intro h
  cases h.resources

/-- From the first argument to the last. -/
theorem receives_written :
    ∃ e, evaluateAll resourceParser (some "afcas".toList) (some "80".toList) resourceContext
        Argument.all = .ok e ∧ Receives e.arguments resourceParsed := by
  obtain ⟨e, he, hiff⟩ := receives_iff resourceParser "afcas".toList "80".toList resourceContext
    resourceParsed resource_parsed Argument.all (.refl _)
  exact ⟨e, he, hiff.mpr ⟨.inl (by decide), .inl (by decide), .inl (by decide), .inl (by decide)⟩⟩

end AsabruCommons.Authorization
