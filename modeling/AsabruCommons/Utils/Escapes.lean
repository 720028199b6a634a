import AsabruCommons.Basic

/-!
# Escaping is lossless

`Utils::getStringWithEscapes` writes a newline, a carriage return, a tab and a backslash as
a backslash and a letter or another backslash.  As the backslash is among them, what it
writes can be read back from the left.
-/

namespace AsabruCommons.Utils

/-- What is appended for a character. -/
def escapeSequence : Char → Str
  | '\n' => ['\\', 'n']
  | '\r' => ['\\', 'r']
  | '\t' => ['\\', 't']
  | '\\' => ['\\', '\\']
  | c => [c]

def getStringWithEscapes (input : Str) : Str := input.flatMap escapeSequence

/-- The four escape sequences, replaced from the left. -/
def decodeEscapes : Str → Str
  | '\\' :: 'n' :: s => '\n' :: decodeEscapes s
  | '\\' :: 'r' :: s => '\r' :: decodeEscapes s
  | '\\' :: 't' :: s => '\t' :: decodeEscapes s
  | '\\' :: '\\' :: s => '\\' :: decodeEscapes s
  | c :: s => c :: decodeEscapes s
  | [] => []

/-- Which character is written how. -/
theorem escapeSequence_cases (c : Char) :
    (c = '\n' ∧ escapeSequence c = ['\\', 'n']) ∨ (c = '\r' ∧ escapeSequence c = ['\\', 'r']) ∨
      (c = '\t' ∧ escapeSequence c = ['\\', 't']) ∨
      (c = '\\' ∧ escapeSequence c = ['\\', '\\']) ∨
      (c ≠ '\n' ∧ c ≠ '\r' ∧ c ≠ '\t' ∧ c ≠ '\\') ∧ escapeSequence c = [c] := by
  unfold escapeSequence
  split
  · exact .inl ⟨rfl, rfl⟩
  · exact .inr (.inl ⟨rfl, rfl⟩)
  · exact .inr (.inr (.inl ⟨rfl, rfl⟩))
  · exact .inr (.inr (.inr (.inl ⟨rfl, rfl⟩)))
  · rename_i hn hr ht hb
    exact .inr (.inr (.inr (.inr ⟨⟨hn, hr, ht, hb⟩, rfl⟩)))

/-- A character that is no backslash stands for itself. -/
theorem decodeEscapes_cons {c : Char} (hc : c ≠ '\\') (s : Str) :
    decodeEscapes (c :: s) = c :: decodeEscapes s := by
  rw [decodeEscapes]
  · rintro s rfl
    exact absurd rfl hc
  · rintro s rfl
    exact absurd rfl hc
  · rintro s rfl
    exact absurd rfl hc
  · rintro s rfl
    exact absurd rfl hc

/-- The sequence in front is decoded to the character that it was written for. -/
theorem decodeEscapes_append (c : Char) (s : Str) :
    decodeEscapes (escapeSequence c ++ s) = c :: decodeEscapes s := by
  rcases escapeSequence_cases c with ⟨rfl, h⟩ | ⟨rfl, h⟩ | ⟨rfl, h⟩ | ⟨rfl, h⟩ | ⟨hc, h⟩
  · rw [h]
    rfl
  · rw [h]
    rfl
  · rw [h]
    rfl
  · rw [h]
    rfl
  · rw [h]
    exact decodeEscapes_cons hc.2.2.2 s

theorem decodeEscapes_getStringWithEscapes (s : Str) :
    decodeEscapes (getStringWithEscapes s) = s := by
  induction s with
  | nil => rfl
  | cons c s ih => rw [getStringWithEscapes, List.flatMap_cons, decodeEscapes_append,
      ← getStringWithEscapes, ih]

/-- No sequence contains one of the characters that are replaced. -/
theorem notMem_escapeSequence {d : Char} (hd : d = '\n' ∨ d = '\r' ∨ d = '\t') (c : Char) :
    d ∉ escapeSequence c := by
  rcases escapeSequence_cases c with ⟨-, h⟩ | ⟨-, h⟩ | ⟨-, h⟩ | ⟨-, h⟩ | ⟨hc, h⟩
  · rcases hd with rfl | rfl | rfl <;> rw [h] <;> decide
  · rcases hd with rfl | rfl | rfl <;> rw [h] <;> decide
  · rcases hd with rfl | rfl | rfl <;> rw [h] <;> decide
  · rcases hd with rfl | rfl | rfl <;> rw [h] <;> decide
  · rw [h, List.mem_singleton]
    rintro rfl
    rcases hd with hd | hd | hd
    · exact hc.1 hd
    · exact hc.2.1 hd
    · exact hc.2.2.1 hd

theorem notMem_getStringWithEscapes {d : Char} (hd : d = '\n' ∨ d = '\r' ∨ d = '\t') (s : Str) :
    d ∉ getStringWithEscapes s := by
  intro hmem
  obtain ⟨c, -, hc⟩ := List.mem_flatMap.mp hmem
  exact notMem_escapeSequence hd c hc

/-- **Escaping.**  The decoder recovers every string, so no two strings are written alike,
and what is written is free of newlines, carriage returns and tabs. -/
theorem escapes_lossless (s : Str) :
    decodeEscapes (getStringWithEscapes s) = s ∧ Function.Injective getStringWithEscapes ∧
      '\n' ∉ getStringWithEscapes s ∧ '\r' ∉ getStringWithEscapes s ∧
      '\t' ∉ getStringWithEscapes s := by
  refine ⟨decodeEscapes_getStringWithEscapes s, ?_, ?_, ?_, ?_⟩
  · exact Function.LeftInverse.injective decodeEscapes_getStringWithEscapes
  · exact notMem_getStringWithEscapes (.inl rfl) s
  · exact notMem_getStringWithEscapes (.inr (.inl rfl)) s
  · exact notMem_getStringWithEscapes (.inr (.inr rfl)) s

end AsabruCommons.Utils
