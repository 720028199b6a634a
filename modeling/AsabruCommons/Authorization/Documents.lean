import AsabruCommons.Afcas.Client

/-!
# Authorization documents

Two XML documents configure the authorization: one with the data that the server is to
have, and one with the predicates that a request has to meet.  Both are read from the
context as a text, parsed, and walked element by element.

The XML parser is a parameter.  A parsed document is given by its top-level elements,
and an element by what the program can ask of it: its name, what `GetText` returns, and
its child elements in their order.  A loop over `FirstChildElement(name)` and
`NextSiblingElement(name)` visits the children of that name.
-/

namespace AsabruCommons.Authorization

open Afcas

/-! ## Contexts -/

/-- A `std::any`, as far as the program looks into it. -/
inductive Any where
  | string (s : Str)
  | bool (b : Bool)
  | other
deriving DecidableEq

structure ComputationContext where
  symbols : Str → Option Any

namespace ComputationContext

def Put (context : ComputationContext) (k : Str) (value : Any) : ComputationContext :=
  ⟨Function.update context.symbols k (some value)⟩

def Get (context : ComputationContext) (k : Str) : Option Any := context.symbols k

@[simp] theorem get_put_self (context : ComputationContext) (k : Str) (value : Any) :
    (context.Put k value).Get k = some value := Function.update_self ..

/-- The value of a key can be read back. -/
theorem put_inj {context : ComputationContext} {k : Str} {value value' : Any}
    (h : context.Put k value = context.Put k value') : value = value' := by
  have hget := congrArg (ComputationContext.Get · k) h
  simpa using hget

end ComputationContext

/-- `std::any_cast<std::string>` -/
def castString : Option Any → Except Failure Str
  | some (.string s) => .ok s
  | _ => .error .bad_any_cast

def AUTHORIZATION_AUTHORIZED_KEY : Str := "authorized".toList
def AUTHORIZATION_DATA_KEY : Str := "authorization_data".toList
def AUTH_AUTHENTICATED_INFO : Str := "authenticated_info".toList

/-! ## Documents -/

inductive XMLElement where
  | mk (name : Str) (text : Option Str) (children : List XMLElement)

namespace XMLElement

def name : XMLElement → Str
  | mk name _ _ => name

/-- `none` is the null pointer. -/
def GetText : XMLElement → Option Str
  | mk _ text _ => text

def children : XMLElement → List XMLElement
  | mk _ _ children => children

def FirstChildElement (e : XMLElement) (name : Str) : Option XMLElement :=
  e.children.find? fun child ↦ child.name = name

/-- The elements that a loop over the children of a name visits. -/
def childElements (e : XMLElement) (name : Str) : List XMLElement :=
  e.children.filter fun child ↦ child.name = name

/-- `e->FirstChildElement(name)->GetText()`, used as a string. -/
def childText (e : XMLElement) (name : Str) : Except Failure Str :=
  orFail .nullPointer ((e.FirstChildElement name).bind GetText)

end XMLElement

/-- What `XMLDocument::Parse` returns: an error code, or the top-level elements. -/
abbrev XMLParser := Str → Except Int (List XMLElement)

/-- The part of a string in front of its first zero byte. -/
def c_str (s : Str) : Str := s.takeWhile (· ≠ '\x00')

def parsingError (what : Str) : Failure :=
  .runtime_error ("Error parsing afcas data: ".toList ++ what)

/-- The top-level elements of a text. -/
def parseDocument (Parse : XMLParser) (data : Str) : Except Failure (List XMLElement) :=
  match Parse (c_str data) with
  | .ok doc => .ok doc
  | .error xmlError => .error (parsingError (toString xmlError).toList)

/-- The child element of a section; it must be there. -/
def sectionElement (rootElement : XMLElement) (name : Str) : Except Failure XMLElement :=
  orFail (parsingError (name ++ " element not found".toList)) (rootElement.FirstChildElement name)

/-! ## The data of the server -/

def parsePrincipal (principalElement : XMLElement) : Except Failure Principal := do
  return { name := ← principalElement.childText "Name".toList
           email := ← principalElement.childText "Email".toList
           displayName := ← principalElement.childText "DisplayName".toList
           description := ← principalElement.childText "Description".toList
           dataSource := ← principalElement.childText "DataSource".toList
           principalType := ← principalElement.childText "PrincipalType".toList }

def parseGroup (groupElement : XMLElement) : Except Failure Group := do
  let groupName ← groupElement.childText "Name".toList
  let members ←
    match groupElement.FirstChildElement "Members".toList with
    | none => .ok []
    | some membersElement =>
        (membersElement.childElements "Member".toList).mapM fun memberElement ↦
          orFail .nullPointer memberElement.GetText
  return { groupName, members }

def parseOperation (operationElement : XMLElement) : Except Failure Operation := do
  return { id := ← operationElement.childText "Id".toList
           name := ← operationElement.childText "Name".toList
           description := ← operationElement.childText "Description".toList }

def parseResource (resourceElement : XMLElement) : Except Failure Resource := do
  return { id := ← resourceElement.childText "Id".toList
           name := ← resourceElement.childText "Name".toList }

def parsePredicate (predicateElement : XMLElement) : Except Failure ResourceAccessPredicate := do
  return { principalName := ← predicateElement.childText "principalName".toList
           operationId := ← predicateElement.childText "operationId".toList
           resourceId := ← predicateElement.childText "resourceId".toList
           predicateType := ← predicateElement.childText "predicateType".toList }

/-- The elements of a section, each of them parsed. -/
def parseSection {α : Type} (rootElement : XMLElement) (name child : Str)
    (parse : XMLElement → Except Failure α) : Except Failure (List α) := do
  let element ← sectionElement rootElement name
  (element.childElements child).mapM parse

structure BaseAuthorizationStrategy where
  principals : List Principal
  resources : List Resource
  operations : List Operation
  groups : List Group
  accessPredicates : List ResourceAccessPredicate
deriving DecidableEq

namespace BaseAuthorizationStrategy

/-- The strategy before anything was parsed. -/
def empty : BaseAuthorizationStrategy := ⟨[], [], [], [], []⟩

/-- The sections of a document.  What is parsed is appended to the vectors. -/
def parseSections (strategy : BaseAuthorizationStrategy) (rootElement : XMLElement) :
    Except Failure BaseAuthorizationStrategy := do
  let principals ← parseSection rootElement "principals".toList "principal".toList parsePrincipal
  let groups ← parseSection rootElement "groups".toList "group".toList parseGroup
  let operations ← parseSection rootElement "operations".toList "operation".toList parseOperation
  let resources ← parseSection rootElement "resources".toList "resource".toList parseResource
  let predicates ← parseSection rootElement "predicates".toList "predicate".toList parsePredicate
  return { principals := strategy.principals ++ principals
           groups := strategy.groups ++ groups
           operations := strategy.operations ++ operations
           resources := strategy.resources ++ resources
           accessPredicates := strategy.accessPredicates ++ predicates }

def parseInitData (Parse : XMLParser) (strategy : BaseAuthorizationStrategy)
    (context : ComputationContext) : Except Failure BaseAuthorizationStrategy := do
  let data ← castString (context.Get AUTHORIZATION_DATA_KEY)
  let doc ← parseDocument Parse data
  let rootElement ← orFail (parsingError "root element not found".toList)
    (doc.find? fun e ↦ e.name = "data".toList)
  strategy.parseSections rootElement

theorem parseInitData_of_document {Parse : XMLParser} {context : ComputationContext} {data : Str}
    {doc : List XMLElement} {rootElement : XMLElement}
    (hdata : context.Get AUTHORIZATION_DATA_KEY = some (.string data))
    (hdoc : Parse (c_str data) = .ok doc)
    (hroot : doc.find? (fun e ↦ e.name = "data".toList) = some rootElement)
    (strategy : BaseAuthorizationStrategy) :
    strategy.parseInitData Parse context = strategy.parseSections rootElement := by
  rw [parseInitData, hdata]
  show (parseDocument Parse data >>= _) = _
  rw [parseDocument, hdoc]
  show (orFail _ (doc.find? _) >>= _) = _
  rw [hroot]
  rfl

end BaseAuthorizationStrategy

/-! ## The predicates of a request -/

structure Predicate where
  resourceId : Str
  operationId : Str
  principalName : Str
deriving DecidableEq

def parseAfcasPredicate (username : Str) (predicateElement : XMLElement) :
    Except Failure Predicate := do
  return { resourceId := ← predicateElement.childText "resourceId".toList
           operationId := ← predicateElement.childText "operationId".toList
           principalName := username }

def parseAfcasAuthorizationData (Parse : XMLParser) (context : ComputationContext) :
    Except Failure (List Predicate) := do
  let data ← castString (context.Get AUTHORIZATION_DATA_KEY)
  let username ← castString (context.Get AUTH_AUTHENTICATED_INFO)
  let doc ← parseDocument Parse data
  let rootElement ← orFail (parsingError "root element authorization not found".toList)
    (doc.find? fun e ↦ e.name = "authorization".toList)
  let predicatesElement ← sectionElement rootElement "predicates".toList
  (predicatesElement.childElements "predicate".toList).mapM (parseAfcasPredicate username)

end AsabruCommons.Authorization
