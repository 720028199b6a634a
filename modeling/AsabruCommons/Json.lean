import AsabruCommons.OrderedMap
import AsabruCommons.Utf8
import Mathlib.Data.List.Lex

/-!
# JSON

Strings and flat objects of strings are written without white space, the members in
the order of their names.  Writing a string fails if it is not valid UTF-8, and
otherwise escapes what must not stand in a JSON string.
-/

namespace AsabruCommons

namespace Json

/-- What a JSON text stands for.  A number is kept as it is written, and the members of
an object are kept in the order of the text. -/
inductive Value where
  | null
  | boolean (b : Bool)
  | number (literal : List Char)
  | string (s : List Char)
  | array (elements : List Value)
  | object (members : List (List Char × Value))

/-! ## Writing -/

/-- A hexadecimal digit. -/
def hexDigit (n : Nat) : Char := Nat.digitChar n

/-- A character inside a JSON string. -/
def escape (c : Char) : List Char :=
  if c = '\x08' then ['\\', 'b']
  else if c = '\t' then ['\\', 't']
  else if c = '\n' then ['\\', 'n']
  else if c = '\x0c' then ['\\', 'f']
  else if c = '\r' then ['\\', 'r']
  else if c = '"' then ['\\', '"']
  else if c = '\\' then ['\\', '\\']
  else if c.toNat ≤ 0x1F then
    ['\\', 'u', '0', '0', hexDigit (c.toNat / 16), hexDigit (c.toNat % 16)]
  else [c]

/-- A JSON string, if the text is valid UTF-8. -/
def dumpString (s : List Char) : Option (List Char) :=
  if Utf8.Valid s then some ('"' :: (s.flatMap escape ++ ['"'])) else none

/-- The members of an object, separated by commas. -/
def dumpMembers : List (List Char × List Char) → Option (List Char)
  | [] => some []
  | [p] => do return (← dumpString p.1) ++ ':' :: (← dumpString p.2)
  | p :: ps => do
      return (← dumpString p.1) ++ ':' :: (← dumpString p.2) ++ ',' :: (← dumpMembers ps)

def dumpObject (m : OrderedMap (List Char) (List Char)) : Option (List Char) := do
  return '{' :: (← dumpMembers m.entries) ++ ['}']

theorem dumpString_isSome {s : List Char} : (dumpString s).isSome ↔ Utf8.Valid s := by
  rw [dumpString]
  split
  case isTrue h => exact iff_of_true rfl h
  case isFalse h => exact iff_of_false (by simp) h

theorem dumpMembers_isSome {ps : List (List Char × List Char)} :
    (dumpMembers ps).isSome ↔ ∀ p ∈ ps, Utf8.Valid p.1 ∧ Utf8.Valid p.2 := by
  fun_induction dumpMembers ps with
  | case1 => simp
  | case2 p =>
      rw [List.forall_mem_singleton, ← dumpString_isSome, ← dumpString_isSome]
      cases dumpString p.1 <;> cases dumpString p.2 <;> simp
  | case3 p ps hne ih =>
      rw [List.forall_mem_cons, ← ih, ← dumpString_isSome, ← dumpString_isSome]
      cases dumpString p.1 <;> cases dumpString p.2 <;> cases dumpMembers ps <;> simp

/-- An object can be written if its names and values are valid. -/
theorem dumpObject_isSome {m : OrderedMap (List Char) (List Char)} :
    (dumpObject m).isSome ↔ ∀ p ∈ m.entries, Utf8.Valid p.1 ∧ Utf8.Valid p.2 := by
  rw [← dumpMembers_isSome, dumpObject]
  cases dumpMembers m.entries <;> simp

end Json

end AsabruCommons
