import Mathlib.Data.List.Basic

/-!
# Strings and files

The vocabulary shared by the models of the individual components.

A `std::string` is a list of characters, one for each byte, so `length` counts
bytes and a string may contain any byte, the zero byte included.  A file is
either absent or has a content.
-/

namespace AsabruCommons

/-- A `std::string`. -/
abbrev Str := List Char

/-- What a path of the file system holds: nothing, or a file with a content. -/
abbrev FileState := Option Str

/-- The content read from a path, where an absent file has none. -/
def FileState.content (f : FileState) : Str := f.getD []

@[simp] theorem FileState.content_none : FileState.content none = [] := rfl

@[simp] theorem FileState.content_some (s : Str) : FileState.content (some s) = s := rfl

end AsabruCommons
