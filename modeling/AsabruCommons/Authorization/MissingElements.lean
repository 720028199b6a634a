import AsabruCommons.Precondition
import AsabruCommons.Authorization.Documents

/-!
# Missing elements

Both documents are meant to be refused with a `std::runtime_error` when something is
missing in them.  The root and the sections are checked for, what is inside of a section
is not: `FirstChildElement(name)->GetText()` is used as a string whatever the two calls
return.  So a document is survived exactly when every element of its sections is
complete, up to the first section that is missing; what is behind that one is not looked
at.
-/

namespace AsabruCommons.Authorization

open Afcas

/-! ## Complete documents -/

namespace XMLElement

/-- There is a child element of this name, and the first one has a text. -/
def HasText (e : XMLElement) (name : Str) : Prop :=
  ∃ child, e.FirstChildElement name = some child ∧ ∃ text, child.GetText = some text

def HasTexts (e : XMLElement) (names : List Str) : Prop :=
  ∀ name ∈ names, e.HasText name

/-- A group needs a name, and if it has members, a text in each of them. -/
def CompleteGroup (groupElement : XMLElement) : Prop :=
  groupElement.HasText "Name".toList ∧
    ∀ membersElement, groupElement.FirstChildElement "Members".toList = some membersElement →
      ∀ memberElement ∈ membersElement.childElements "Member".toList,
        ∃ text, memberElement.GetText = some text

end XMLElement

/-- A section of a document: its name, that of its elements, and when one of these is
complete. -/
structure Section where
  name : Str
  child : Str
  Complete : XMLElement → Prop

/-- Every element of the sections is complete, up to the first section that is missing. -/
def XMLElement.SectionsComplete (rootElement : XMLElement) : List Section → Prop
  | [] => True
  | s :: sections =>
      ∀ element, rootElement.FirstChildElement s.name = some element →
        (∀ e ∈ element.childElements s.child, s.Complete e) ∧ rootElement.SectionsComplete sections

/-- The sections of the data, in the order in which they are read. -/
def dataSections : List Section :=
  [{ name := "principals".toList
     child := "principal".toList
     Complete := fun e ↦ e.HasTexts
       ["Name".toList, "Email".toList, "DisplayName".toList, "Description".toList,
         "DataSource".toList, "PrincipalType".toList] },
    { name := "groups".toList
      child := "group".toList
      Complete := XMLElement.CompleteGroup },
    { name := "operations".toList
      child := "operation".toList
      Complete := fun e ↦ e.HasTexts ["Id".toList, "Name".toList, "Description".toList] },
    { name := "resources".toList
      child := "resource".toList
      Complete := fun e ↦ e.HasTexts ["Id".toList, "Name".toList] },
    { name := "predicates".toList
      child := "predicate".toList
      Complete := fun e ↦ e.HasTexts
        ["principalName".toList, "operationId".toList, "resourceId".toList,
          "predicateType".toList] }]

/-- The section of the predicates of a request. -/
def authorizationSections : List Section :=
  [{ name := "predicates".toList
     child := "predicate".toList
     Complete := fun e ↦ e.HasTexts ["resourceId".toList, "operationId".toList] }]

/-- If the text is a document with this root, the sections of the root are complete. -/
def DocumentComplete (Parse : XMLParser) (data root : Str) (sections : List Section) : Prop :=
  ∀ doc, Parse (c_str data) = .ok doc →
    ∀ rootElement, doc.find? (fun e ↦ e.name = root) = some rootElement →
      rootElement.SectionsComplete sections

/-! ## What is claimed -/

def IsRuntimeError (e : Failure) : Prop := ∃ what, e = .runtime_error what

/-- The call returns or throws a `std::runtime_error`. -/
def ReturnsOrThrows {α : Type} (x : Except Failure α) : Prop := EndsIn IsRuntimeError x

/-! ## The elements of a section -/

theorem not_isRuntimeError_nullPointer : ¬ IsRuntimeError .nullPointer := by
  rintro ⟨what, h⟩
  cases h

/-- A string is built from a pointer that has to be there. -/
theorem requires_orFail {α : Type} (o : Option α) :
    Requires .nullPointer (∃ a, o = some a) (orFail .nullPointer o) := by
  cases o with
  | none =>
      refine ⟨?_, fun _ ↦ rfl⟩
      rintro ⟨a, ha⟩
      cases ha
  | some a => exact ⟨fun _ ↦ ⟨a, rfl⟩, fun h ↦ (h ⟨a, rfl⟩).elim⟩

theorem requires_childText (e : XMLElement) (name : Str) :
    Requires .nullPointer (e.HasText name) (e.childText name) := by
  refine (requires_orFail _).congr ?_
  cases hchild : e.FirstChildElement name with
  | none => simp [XMLElement.HasText, hchild]
  | some child => simp [XMLElement.HasText, hchild]

/-- No text is read any more. -/
theorem requires_noTexts {α : Type} (e : XMLElement) (a : α) :
    Requires Failure.nullPointer (e.HasTexts []) (.ok a) :=
  (Requires.ok _ a).congr (by simp [XMLElement.HasTexts])

/-- A text is read, and then more of them. -/
theorem requires_texts {α : Type} {e : XMLElement} {name : Str} {names : List Str}
    {f : Str → Except Failure α} (hf : ∀ text, Requires .nullPointer (e.HasTexts names) (f text)) :
    Requires .nullPointer (e.HasTexts (name :: names)) (e.childText name >>= f) := by
  refine ((requires_childText e name).bind hf).congr ?_
  exact List.forall_mem_cons.symm

theorem requires_parsePrincipal (e : XMLElement) :
    Requires .nullPointer
      (e.HasTexts ["Name".toList, "Email".toList, "DisplayName".toList, "Description".toList,
        "DataSource".toList, "PrincipalType".toList]) (parsePrincipal e) := by
  apply requires_texts
  intro name
  apply requires_texts
  intro email
  apply requires_texts
  intro displayName
  apply requires_texts
  intro description
  apply requires_texts
  intro dataSource
  apply requires_texts
  intro principalType
  exact requires_noTexts e _

theorem requires_parseOperation (e : XMLElement) :
    Requires .nullPointer (e.HasTexts ["Id".toList, "Name".toList, "Description".toList])
      (parseOperation e) := by
  apply requires_texts
  intro id
  apply requires_texts
  intro name
  apply requires_texts
  intro description
  exact requires_noTexts e _

theorem requires_parseResource (e : XMLElement) :
    Requires .nullPointer (e.HasTexts ["Id".toList, "Name".toList]) (parseResource e) := by
  apply requires_texts
  intro id
  apply requires_texts
  intro name
  exact requires_noTexts e _

theorem requires_parsePredicate (e : XMLElement) :
    Requires .nullPointer
      (e.HasTexts ["principalName".toList, "operationId".toList, "resourceId".toList,
        "predicateType".toList]) (parsePredicate e) := by
  apply requires_texts
  intro principalName
  apply requires_texts
  intro operationId
  apply requires_texts
  intro resourceId
  apply requires_texts
  intro predicateType
  exact requires_noTexts e _

theorem requires_parseAfcasPredicate (username : Str) (e : XMLElement) :
    Requires .nullPointer (e.HasTexts ["resourceId".toList, "operationId".toList])
      (parseAfcasPredicate username e) := by
  apply requires_texts
  intro resourceId
  apply requires_texts
  intro operationId
  exact requires_noTexts e _

/-- The members of a group are only looked at if there are any. -/
theorem requires_parseGroup (e : XMLElement) :
    Requires .nullPointer e.CompleteGroup (parseGroup e) := by
  refine (requires_childText e _).bind fun groupName ↦ ?_
  cases hmembers : e.FirstChildElement "Members".toList with
  | none => exact (Requires.ok _ _).congr (by simp)
  | some membersElement =>
      have hall := (Requires.mapM (fun memberElement ↦ requires_orFail memberElement.GetText)
        (membersElement.childElements "Member".toList)).bind fun members ↦
          Requires.ok _ (⟨groupName, members⟩ : Group)
      refine hall.congr ?_
      simp

/-! ## The sections -/

/-- A section is read, and then the rest of the document. -/
theorem returnsOrThrows_parseSection_bind {α β : Type} {name child : Str}
    {Complete : XMLElement → Prop} {sections : List Section} {rootElement : XMLElement}
    {parse : XMLElement → Except Failure α} {f : List α → Except Failure β}
    (hparse : ∀ e, Requires .nullPointer (Complete e) (parse e))
    (hf : ∀ parsed, ReturnsOrThrows (f parsed) ↔ rootElement.SectionsComplete sections) :
    ReturnsOrThrows (parseSection rootElement name child parse >>= f) ↔
      rootElement.SectionsComplete (⟨name, child, Complete⟩ :: sections) := by
  rw [parseSection, sectionElement, XMLElement.SectionsComplete]
  cases helement : rootElement.FirstChildElement name with
  | none =>
      -- the loop is not reached, and nothing behind it either
      refine iff_of_true (.inr ⟨_, rfl, _, rfl⟩) ?_
      intro element h
      cases h
  | some element =>
      have hloop := Requires.mapM hparse (element.childElements child)
      show EndsIn IsRuntimeError ((element.childElements child).mapM parse >>= f) ↔ _
      rw [endsIn_bind_iff, hloop.endsIn_iff not_isRuntimeError_nullPointer]
      constructor
      · rintro ⟨hall, hrest⟩ element' h
        cases h
        obtain ⟨parsed, hparsed⟩ := hloop.returns hall
        exact ⟨hall, (hf parsed).mp (hrest parsed hparsed)⟩
      · intro h
        obtain ⟨hall, hrest⟩ := h element rfl
        exact ⟨hall, fun parsed _ ↦ (hf parsed).mpr hrest⟩

theorem returnsOrThrows_parseSections (strategy : BaseAuthorizationStrategy)
    (rootElement : XMLElement) :
    ReturnsOrThrows (strategy.parseSections rootElement) ↔
      rootElement.SectionsComplete dataSections := by
  rw [BaseAuthorizationStrategy.parseSections, dataSections]
  apply returnsOrThrows_parseSection_bind requires_parsePrincipal
  intro principals
  apply returnsOrThrows_parseSection_bind requires_parseGroup
  intro groups
  apply returnsOrThrows_parseSection_bind requires_parseOperation
  intro operations
  apply returnsOrThrows_parseSection_bind requires_parseResource
  intro resources
  apply returnsOrThrows_parseSection_bind requires_parsePredicate
  intro predicates
  exact iff_of_true (endsIn_ok _ _) trivial

/-- The section of the predicates is the last thing that is read. -/
theorem returnsOrThrows_afcasPredicates (username : Str) (rootElement : XMLElement) :
    ReturnsOrThrows (parseSection rootElement "predicates".toList "predicate".toList
        (parseAfcasPredicate username)) ↔
      rootElement.SectionsComplete authorizationSections := by
  rw [← bind_pure (parseSection _ _ _ _), authorizationSections]
  apply returnsOrThrows_parseSection_bind (requires_parseAfcasPredicate username)
  intro predicates
  exact iff_of_true (endsIn_ok _ _) trivial

/-! ## Whole documents -/

theorem not_isRuntimeError_bad_any_cast : ¬ IsRuntimeError .bad_any_cast := by
  rintro ⟨what, h⟩
  cases h

/-- A string is taken from the context, and then used. -/
theorem returnsOrThrows_castString_bind {β : Type} {value : Option Any}
    {f : Str → Except Failure β} :
    ReturnsOrThrows (castString value >>= f) ↔
      ∃ s, value = some (.string s) ∧ ReturnsOrThrows (f s) := by
  have hfails : ¬ ReturnsOrThrows (.error .bad_any_cast : Except Failure β) := fun h ↦
    not_isRuntimeError_bad_any_cast (endsIn_error_iff.mp h)
  rcases value with - | s | b | -
  · exact iff_of_false hfails (by simp)
  · exact ⟨fun h ↦ ⟨s, rfl, h⟩, by rintro ⟨s', ⟨⟩, h⟩; exact h⟩
  · exact iff_of_false hfails (by simp)
  · exact iff_of_false hfails (by simp)

/-- A text that is not a document, and a document without the root, are refused; in any
other the root is read. -/
theorem returnsOrThrows_document_bind {β : Type} {Parse : XMLParser} {data root what : Str}
    {sections : List Section} {f : XMLElement → Except Failure β}
    (hf : ∀ rootElement, ReturnsOrThrows (f rootElement) ↔
      rootElement.SectionsComplete sections) :
    ReturnsOrThrows (parseDocument Parse data >>= fun doc ↦
        orFail (parsingError what) (doc.find? fun e ↦ e.name = root) >>= f) ↔
      DocumentComplete Parse data root sections := by
  rw [DocumentComplete, parseDocument]
  cases hdoc : Parse (c_str data) with
  | error xmlError =>
      refine iff_of_true (.inr ⟨_, rfl, _, rfl⟩) ?_
      intro doc h
      cases h
  | ok doc =>
      show ReturnsOrThrows (orFail _ (doc.find? _) >>= f) ↔ _
      cases hroot : doc.find? fun e ↦ e.name = root with
      | none =>
          refine iff_of_true (.inr ⟨_, rfl, _, rfl⟩) ?_
          rintro doc' ⟨⟩ rootElement h
          rw [hroot] at h
          cases h
      | some rootElement =>
          show ReturnsOrThrows (f rootElement) ↔ _
          rw [hf rootElement]
          constructor
          · rintro h doc' ⟨⟩ rootElement' hroot'
            rw [hroot] at hroot'
            cases hroot'
            exact h
          · intro h
            exact h doc rfl rootElement hroot

/-- **When a document is survived.**  For every parser, strategy and context. -/
theorem returnsOrThrows_iff (Parse : XMLParser) (strategy : BaseAuthorizationStrategy)
    (context : ComputationContext) :
    (ReturnsOrThrows (strategy.parseInitData Parse context) ↔
      ∃ data, context.Get AUTHORIZATION_DATA_KEY = some (.string data) ∧
        DocumentComplete Parse data "data".toList dataSections) ∧
    (ReturnsOrThrows (parseAfcasAuthorizationData Parse context) ↔
      ∃ data, context.Get AUTHORIZATION_DATA_KEY = some (.string data) ∧
        ∃ username, context.Get AUTH_AUTHENTICATED_INFO = some (.string username) ∧
          DocumentComplete Parse data "authorization".toList authorizationSections) := by
  constructor
  · rw [BaseAuthorizationStrategy.parseInitData, returnsOrThrows_castString_bind]
    apply exists_congr
    intro data
    apply and_congr_right
    intro hdata
    exact returnsOrThrows_document_bind (returnsOrThrows_parseSections strategy)
  · rw [parseAfcasAuthorizationData, returnsOrThrows_castString_bind]
    apply exists_congr
    intro data
    apply and_congr_right
    intro hdata
    rw [returnsOrThrows_castString_bind]
    apply exists_congr
    intro username
    apply and_congr_right
    intro husername
    exact returnsOrThrows_document_bind (returnsOrThrows_afcasPredicates username)

/-- A principal without a name, and nothing else. -/
def namelessText : Str := "<data><principals><principal/></principals></data>".toList

/-- The text, parsed. -/
def namelessDocument : XMLElement :=
  .mk "data".toList none [.mk "principals".toList none [.mk "principal".toList none []]]

/-- A parser that knows this document. -/
def namelessParser : XMLParser := fun data ↦
  if data = c_str namelessText then .ok [namelessDocument] else .error 1

def namelessContext : ComputationContext :=
  (⟨fun _ ↦ none⟩ : ComputationContext).Put AUTHORIZATION_DATA_KEY (.string namelessText)

/-- The name is asked of an element that is not there. -/
theorem not_returnsOrThrows_nameless :
    namelessContext.Get AUTHORIZATION_DATA_KEY = some (.string namelessText) ∧
      namelessParser (c_str namelessText) = .ok [namelessDocument] ∧
      ¬ ReturnsOrThrows
        (BaseAuthorizationStrategy.empty.parseInitData namelessParser namelessContext) := by
  have hdata : namelessContext.Get AUTHORIZATION_DATA_KEY = some (.string namelessText) :=
    ComputationContext.get_put_self ..
  have hdoc : namelessParser (c_str namelessText) = .ok [namelessDocument] := if_pos rfl
  have hroot : [namelessDocument].find? (fun e ↦ e.name = "data".toList) =
    some namelessDocument := rfl
  refine ⟨hdata, hdoc, ?_⟩
  rw [BaseAuthorizationStrategy.parseInitData_of_document hdata hdoc hroot]
  have hnull : BaseAuthorizationStrategy.empty.parseSections namelessDocument =
    .error .nullPointer := rfl
  rw [hnull, ReturnsOrThrows, endsIn_error_iff]
  exact not_isRuntimeError_nullPointer

end AsabruCommons.Authorization
