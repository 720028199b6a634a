import Mathlib.Data.List.Basic

/-!
# Formats without separators

A format says which sequences stand for an object, and it may leave some of their elements
open.  It is *self-delimiting* if, of whatever begins with a sequence that stands for an
object, that object and what follows are determined.

Objects that are written one behind the other can then be told apart without anything
between them: what is a prefix of another stream stands for a prefix of the objects
(`SelfDelimiting.isPrefix`).

The format of a kind of record is usually such that a header of fixed length says how to go
on.  `SelfDelimiting.of_header` reduces the format to what follows a given header, and
`append_inj_of_length` is for records of fixed length.
-/

namespace AsabruCommons

universe u v

variable {α : Type u} {β : Type v}

/-- What an object and the rest are can be read off. -/
def SelfDelimiting (image : α → List β → Prop) : Prop :=
  ∀ ⦃a b : α⦄ ⦃x y : List β⦄, image a x → image b y →
    ∀ ⦃r s : List β⦄, x ++ r = y ++ s → a = b ∧ r = s

/-- Objects that are written one behind the other. -/
inductive Stream (image : α → List β → Prop) : List α → List β → Prop where
  | nil : Stream image [] []
  | cons {a : α} {x : List β} {as : List α} {s : List β} :
      image a x → Stream image as s → Stream image (a :: as) (x ++ s)

/-- Objects that are written like others. -/
theorem Stream.map {γ : Type*} {image : α → List β → Prop} {image' : γ → List β → Prop}
    {f : α → γ} {as : List α} {s : List β} (h : Stream image as s)
    (himage : ∀ a ∈ as, ∀ x, image a x → image' (f a) x) : Stream image' (as.map f) s := by
  induction h with
  | nil => exact .nil
  | cons hx _ ih =>
      rw [List.forall_mem_cons] at himage
      exact .cons (himage.1 _ hx) (ih himage.2)

/-- There is something to write if there is for each object. -/
theorem exists_stream_iff {image : α → List β → Prop} {as : List α} :
    (∃ s, Stream image as s) ↔ ∀ a ∈ as, ∃ x, image a x := by
  constructor
  · rintro ⟨s, hs⟩
    induction hs with
    | nil => exact fun _ ha ↦ absurd ha List.not_mem_nil
    | cons hx _ ih => exact List.forall_mem_cons.mpr ⟨⟨_, hx⟩, ih⟩
  · intro h
    induction as with
    | nil => exact ⟨[], .nil⟩
    | cons a as ih =>
        rw [List.forall_mem_cons] at h
        obtain ⟨⟨x, hx⟩, hrest⟩ := h
        obtain ⟨s, hs⟩ := ih hrest
        exact ⟨x ++ s, .cons hx hs⟩

/-- Sequences of the same length end at the same place. -/
theorem append_inj_of_length {x y r s : List β} {n : Nat} (hx : x.length = n)
    (hy : y.length = n) (h : x ++ r = y ++ s) : x = y ∧ r = s :=
  List.append_inj h (hx.trans hy.symm)

namespace SelfDelimiting

variable {image : α → List β → Prop}

/-- **A header of fixed length.**  It is enough to look behind equal headers. -/
theorem of_header {n : Nat} {header : α → List β} {body : α → List β → Prop}
    (hlen : ∀ a, (header a).length = n)
    (himage : ∀ a x, image a x → ∃ w, x = header a ++ w ∧ body a w)
    (hbody : ∀ a b x y r s, header a = header b → body a x → body b y → x ++ r = y ++ s →
      a = b ∧ r = s) : SelfDelimiting image := by
  intro a b x y hx hy r s h
  obtain ⟨w, rfl, hw⟩ := himage a x hx
  obtain ⟨v, rfl, hv⟩ := himage b y hy
  rw [List.append_assoc, List.append_assoc] at h
  obtain ⟨hheader, hrest⟩ := append_inj_of_length (hlen a) (hlen b) h
  exact hbody a b w v r s hheader hw hv hrest

/-- Nothing but the end of a stream is empty. -/
theorem ne_nil_of_image (himage : ∀ a, ¬ image a []) {a : α} {x : List β} (hx : image a x) :
    x ≠ [] := by
  rintro rfl
  exact himage a hx

/-- **Streams.**  What is a prefix of a stream stands for a prefix of the objects. -/
theorem isPrefix (h : SelfDelimiting image) (himage : ∀ a, ¬ image a []) {as bs : List α}
    {s t : List β} (hs : Stream image as s) (ht : Stream image bs t) (hst : s <+: t) :
    as <+: bs := by
  induction hs generalizing bs t with
  | nil => exact List.nil_prefix
  | cons hx _ ih =>
      obtain ⟨r, hr⟩ := hst
      rw [List.append_assoc] at hr
      cases ht with
      | nil =>
          rw [List.append_eq_nil_iff] at hr
          exact absurd hr.1 (ne_nil_of_image himage hx)
      | cons hy ht =>
          obtain ⟨rfl, hrest⟩ := h hx hy hr
          exact List.cons_prefix_cons.mpr ⟨rfl, ih ht ⟨r, hrest⟩⟩

end SelfDelimiting

end AsabruCommons
