import AsabruCommons.Json.Reading
import AsabruCommons.Search
import Mathlib.Data.List.Nodup
import Mathlib.Tactic.MkIffOfInductiveProp

/-!
# Objects of strings that are written by hand

A `Field` is a member whose value is put between quotes after at most its quotes have
been escaped, and `fieldsText` is the text of an object that has these members.  The
text is read as intended if and only if nothing but quotes had to be escaped, and all of
them were (`exists_isText_iff`).
-/

namespace AsabruCommons

namespace Json

/-- A name, the blanks in front of the value, the value, and what is written for it. -/
structure Field where
  name : List Char
  space : List Char
  value : List Char
  written : List Char
  hname : ∀ c ∈ name, Unescaped c ∧ c.toNat ≤ 0x7F
  hspace : ∀ c ∈ space, c = ' '
  hwritten : Written value written

namespace Field

/-- The text of a member, and what follows it. -/
def text (f : Field) (rest : List Char) : List Char :=
  '"' :: (f.name ++ '"' :: ':' :: (f.space ++ '"' :: (f.written ++ '"' :: rest)))

def member (f : Field) : List Char × Value := (f.name, .string f.value)

/-- The member can be read back. -/
@[mk_iff]
structure Readable (f : Field) : Prop where
  escaped : Escaped f.value f.written
  valid : Utf8.Valid f.value

end Field

/-- The members of an object, separated by commas, and its closing brace. -/
def fieldsText : List Field → List Char
  | [] => ['\x7d']
  | [f] => f.text ['\x7d']
  | f :: g :: fs => f.text (',' :: fieldsText (g :: fs))

/-- The object has one member of this name, and it is this string. -/
def HasMember (members : List (List Char × Value)) (name value : List Char) : Prop :=
  members.filter (fun p ↦ p.1 = name) = [(name, .string value)]

theorem hasMember_cons_self {members : List (List Char × Value)} {name value v : List Char}
    (h : HasMember ((name, .string v) :: members) name value) : v = value := by
  rw [HasMember, List.filter_cons_of_pos (by simp)] at h
  exact Value.string.inj (Prod.mk.inj (List.cons_eq_cons.mp h).1).2

theorem hasMember_cons_of_ne {members : List (List Char × Value)} {p : List Char × Value}
    {name value : List Char} (hne : p.1 ≠ name) :
    HasMember (p :: members) name value ↔ HasMember members name value := by
  rw [HasMember, HasMember, List.filter_cons_of_neg (by simpa using hne)]

theorem hasMember_map {fs : List Field} (hnames : (fs.map Field.name).Nodup) :
    ∀ f ∈ fs, HasMember (fs.map Field.member) f.name f.value := by
  induction fs with
  | nil =>
      intro f hf
      cases hf
  | cons g fs ih =>
      rw [List.map_cons, List.nodup_cons] at hnames
      have hne : ∀ f ∈ fs, g.name ≠ f.name := by
        intro f hf heq
        exact hnames.1 (heq ▸ List.mem_map_of_mem hf)
      rw [List.forall_mem_cons]
      refine ⟨?_, fun f hf ↦ (hasMember_cons_of_ne (hne f hf)).mpr (ih hnames.2 f hf)⟩
      have hnone : (fs.map Field.member).filter (fun p ↦ p.1 = g.name) = [] := by
        rw [List.filter_eq_nil_iff]
        intro p hp
        obtain ⟨f, hf, rfl⟩ := List.mem_map.mp hp
        exact fun heq ↦ hne f hf (of_decide_eq_true heq).symm
      rw [HasMember, List.map_cons, List.filter_cons_of_pos (by simp [Field.member]), hnone]
      rfl

/-! ## Reading a field -/

theorem skip_of_notMem {c : Char} (hc : isSpace c = false) (s : List Char) :
    skip (c :: s) = c :: s := by
  rw [skip, List.dropWhile_cons, hc]
  rfl

theorem skip_space (f : Field) (s : List Char) : skip (f.space ++ '"' :: s) = '"' :: s :=
  Search.dropWhile_append_cons (fun c hc ↦ by rw [f.hspace c hc]; rfl) rfl s

theorem skip_fieldsText (fs : List Field) : skip (fieldsText fs) = fieldsText fs := by
  fun_cases fieldsText fs with
  | case1 => rfl
  | case2 f => exact skip_of_notMem rfl _
  | case3 f g fs => exact skip_of_notMem rfl _

theorem Field.escaped_name (f : Field) : Escaped f.name f.name :=
  escaped_self.mpr fun c hc ↦ (f.hname c hc).1

/-- A value that begins with a quote is a string. -/
theorem ReadsValue.of_quote {s rest : List Char} {v : Value} (h : ReadsValue ('"' :: s) v rest) :
    ∃ x, v = .string x ∧ ReadsString s x rest := by
  cases h with
  | string h => exact ⟨_, rfl, h⟩
  | number h => exact absurd h (not_readsNumber (by decide))

/-- How an object is read. -/
theorem ReadsValue.of_brace {s rest : List Char} {ms : List (List Char × Value)}
    (h : ReadsValue ('\x7b' :: s) (.object ms) rest) :
    ms = [] ∧ skip s = '\x7d' :: rest ∨ ReadsMembers (skip s) ms rest := by
  cases h with
  | emptyObject h => exact .inl ⟨rfl, h⟩
  | object h => exact .inr h

/-- How the first member is read, and what follows it. -/
theorem Field.readsMembers {f : Field} {s rest : List Char} {ms : List (List Char × Value)}
    (h : ReadsMembers (f.text s) ms rest) :
    ∃ v t ms', ms = (f.name, .string v) :: ms' ∧ ReadsString (f.written ++ '"' :: s) v t ∧
      (ms' = [] ∧ skip t = '\x7d' :: rest ∨
        ∃ x, skip t = ',' :: x ∧ ReadsMembers (skip x) ms' rest) := by
  -- the name is read as it is, and behind the colon stands a string
  have hvalue : ∀ {k t u w : List Char} {v : Value},
      ReadsString (f.name ++ '"' :: ':' :: (f.space ++ '"' :: (f.written ++ '"' :: s))) k t →
      skip t = ':' :: u → ReadsValue (skip u) v w →
      k = f.name ∧ ∃ x, v = .string x ∧ ReadsString (f.written ++ '"' :: s) x w := by
    intro k t u w v hk hcolon hv
    obtain ⟨rfl, rfl⟩ := hk.eq_of_escaped f.escaped_name
    rw [skip_of_notMem rfl] at hcolon
    obtain ⟨-, rfl⟩ := List.cons_eq_cons.mp hcolon
    rw [skip_space] at hv
    exact ⟨rfl, hv.of_quote⟩
  obtain ⟨hk, hcolon, hv, hend⟩ | ⟨hk, hcolon, hv, hcomma, h⟩ := h
  · obtain ⟨rfl, x, rfl, hx⟩ := hvalue hk hcolon hv
    exact ⟨x, _, [], rfl, hx, .inl ⟨rfl, hend⟩⟩
  · obtain ⟨rfl, x, rfl, hx⟩ := hvalue hk hcolon hv
    exact ⟨x, _, _, rfl, hx, .inr ⟨_, hcomma, h⟩⟩

/-- No string ends behind the last field. -/
theorem ReadsString.of_brace {x r : List Char} (h : ReadsString ['\x7d'] x r) : False := by
  cases h with
  | unescaped _ h => cases h

/-- Behind another field, a comma stands in front of the next quote. -/
theorem ReadsString.of_comma {s x r : List Char} (h : ReadsString (',' :: '"' :: s) x r) :
    x = [','] := by
  cases h with
  | unescaped _ h =>
      cases h with
      | close => rfl
      | unescaped hc => exact absurd rfl hc.1

/-- A field that is known to be escaped, or to be read as its value. -/
theorem Field.escaped_of_reads {f : Field} {s v t : List Char}
    (hs : ∀ x r, ReadsString s x r → x.getLast? ≠ some '\\')
    (h : ReadsString (f.written ++ '"' :: s) v t)
    (hf : Escaped f.value f.written ∨ v = f.value) :
    Escaped f.value f.written ∧ v = f.value ∧ t = s := by
  rcases hf with hf | rfl
  · exact ⟨hf, h.eq_of_escaped hf⟩
  · obtain ⟨hf, ht⟩ := h.escaped f.hwritten hs
    exact ⟨hf, rfl, ht⟩

/-- If the members are read as their values, then they are escaped. -/
theorem escaped_of_readsMembers {fs : List Field} (hnames : (fs.map Field.name).Nodup)
    {rest : List Char} {ms : List (List Char × Value)} (h : ReadsMembers (fieldsText fs) ms rest)
    (hms : ∀ f ∈ fs, Escaped f.value f.written ∨ HasMember ms f.name f.value) :
    ∀ f ∈ fs, Escaped f.value f.written := by
  fun_induction fieldsText fs generalizing ms with
  | case1 =>
      intro f hf
      cases hf
  | case2 f =>
      obtain ⟨v, t, ms, rfl, hv, -⟩ := Field.readsMembers h
      have hf : Escaped f.value f.written ∨ v = f.value :=
        (hms f List.mem_cons_self).imp_right hasMember_cons_self
      rw [List.forall_mem_singleton]
      exact (Field.escaped_of_reads (fun x r h ↦ h.of_brace.elim) hv hf).1
  | case3 f g fs ih =>
      rw [List.map_cons, List.nodup_cons] at hnames
      obtain ⟨v, t, ms, rfl, hv, hmembers⟩ := Field.readsMembers h
      have hf : Escaped f.value f.written ∨ v = f.value :=
        (hms f List.mem_cons_self).imp_right hasMember_cons_self
      have hcomma : ∀ x r, ReadsString (',' :: fieldsText (g :: fs)) x r →
          x.getLast? ≠ some '\\' := by
        intro x r hx
        obtain rfl : x = [','] := by
          cases fs <;> exact hx.of_comma
        decide
      obtain ⟨hescaped, -, rfl⟩ := Field.escaped_of_reads hcomma hv hf
      rw [List.forall_mem_cons]
      refine ⟨hescaped, ?_⟩
      rw [skip_of_notMem rfl] at hmembers
      rcases hmembers with ⟨-, hend⟩ | ⟨x, hx, h⟩
      · cases hend
      · obtain ⟨-, rfl⟩ := List.cons_eq_cons.mp hx
        rw [skip_fieldsText] at h
        refine ih hnames.2 h fun f' hf' ↦ ?_
        have hne : f.name ≠ f'.name := by
          intro heq
          exact hnames.1 (heq ▸ List.mem_map_of_mem hf')
        exact (hms f' (List.mem_cons_of_mem _ hf')).imp_right (hasMember_cons_of_ne hne).mp

/-- Fields that are escaped are read as members with their values. -/
theorem readsMembers_of_escaped {fs : List Field} (hne : fs ≠ [])
    (h : ∀ f ∈ fs, Escaped f.value f.written) :
    ReadsMembers (fieldsText fs) (fs.map Field.member) [] := by
  have hvalue : ∀ {f : Field} (s : List Char), Escaped f.value f.written →
      ReadsValue (skip (f.space ++ '"' :: (f.written ++ '"' :: s))) (.string f.value) s := by
    intro f s hf
    rw [skip_space]
    exact .string (.of_escaped hf s)
  fun_induction fieldsText fs with
  | case1 => exact absurd rfl hne
  | case2 f =>
      have hf : Escaped f.value f.written := h f List.mem_cons_self
      exact .last (.of_escaped f.escaped_name _) (skip_of_notMem rfl _) (hvalue _ hf)
        (skip_of_notMem rfl [])
  | case3 f g fs ih =>
      rw [List.forall_mem_cons] at h
      refine .cons (.of_escaped f.escaped_name _) (skip_of_notMem rfl _) (hvalue _ h.1)
        (skip_of_notMem rfl _) ?_
      rw [skip_fieldsText]
      exact ih (List.cons_ne_nil g fs) h.2

/-! ## The whole text -/

theorem Field.valid_text (f : Field) (s : List Char) :
    Utf8.Valid (f.text s) ↔ Utf8.Valid f.value ∧ Utf8.Valid s := by
  have hspace : ∀ c ∈ f.space, c.toNat ≤ 0x7F := fun c hc ↦ by rw [f.hspace c hc]; decide
  rw [Field.text, Utf8.valid_cons (by decide),
    Utf8.valid_ascii_append fun c hc ↦ (f.hname c hc).2, Utf8.valid_cons (by decide),
    Utf8.valid_cons (by decide), Utf8.valid_ascii_append hspace, Utf8.valid_cons (by decide),
    Utf8.valid_append_cons (by decide), f.hwritten.valid]

theorem valid_fieldsText {fs : List Field} :
    Utf8.Valid (fieldsText fs) ↔ ∀ f ∈ fs, Utf8.Valid f.value := by
  fun_induction fieldsText fs with
  | case1 => exact iff_of_true rfl fun f hf ↦ absurd hf List.not_mem_nil
  | case2 f =>
      rw [Field.valid_text, List.forall_mem_singleton]
      exact and_iff_left rfl
  | case3 f g fs ih =>
      rw [Field.valid_text, List.forall_mem_cons, Utf8.valid_cons (by decide), ih]

/-- The text of fields that are escaped contains no control character. -/
theorem printable_fieldsText {fs : List Field} (h : ∀ f ∈ fs, Escaped f.value f.written) :
    ∀ c ∈ fieldsText fs, 0x20 ≤ c.toNat := by
  have htext : ∀ {f : Field} {s : List Char}, Escaped f.value f.written →
      (∀ c ∈ s, 0x20 ≤ c.toNat) → ∀ c ∈ f.text s, 0x20 ≤ c.toNat := by
    intro f s hf hs
    have hname : ∀ c ∈ f.name, 0x20 ≤ c.toNat := fun c hc ↦ (f.hname c hc).1.2.2
    have hspace : ∀ c ∈ f.space, 0x20 ≤ c.toNat := fun c hc ↦ by rw [f.hspace c hc]; decide
    simp only [Field.text, List.forall_mem_cons, List.forall_mem_append]
    exact ⟨by decide, hname, by decide, by decide, hspace, by decide, hf.printable, by decide, hs⟩
  have hbrace : ∀ c ∈ ['\x7d'], 0x20 ≤ c.toNat := List.forall_mem_singleton.mpr (by decide)
  fun_induction fieldsText fs with
  | case1 => exact hbrace
  | case2 f => exact htext (h f List.mem_cons_self) hbrace
  | case3 f g fs ih =>
      rw [List.forall_mem_cons] at h
      apply htext h.1
      rw [List.forall_mem_cons]
      exact ⟨by decide, ih h.2⟩

/-- An object whose first member needs no escape is read back, with the values of the
other members, if and only if these can be read back. -/
theorem exists_isText_iff {f : Field} {fs : List Field}
    (hnames : ((f :: fs).map Field.name).Nodup) (hf : f.Readable) :
    (∃ ms, IsText ('\x7b' :: fieldsText (f :: fs)) (.object ms) ∧
        ∀ g ∈ fs, HasMember ms g.name g.value) ↔ ∀ g ∈ fs, g.Readable := by
  constructor
  · rintro ⟨ms, ⟨hvalid, rest, hms, -⟩, hmembers⟩
    rw [Utf8.valid_cons (by decide), valid_fieldsText] at hvalid
    rw [skip_of_notMem rfl] at hms
    have hescaped : ∀ g ∈ f :: fs, Escaped g.value g.written := by
      have h : ReadsMembers (fieldsText (f :: fs)) ms rest := by
        obtain ⟨-, h⟩ | h := hms.of_brace
        · rw [skip_fieldsText] at h
          cases fs <;> cases h
        · rwa [skip_fieldsText] at h
      apply escaped_of_readsMembers hnames h
      rw [List.forall_mem_cons]
      exact ⟨.inl hf.escaped, fun g hg ↦ .inr (hmembers g hg)⟩
    intro g hg
    have hg : g ∈ f :: fs := List.mem_cons_of_mem f hg
    exact ⟨hescaped g hg, hvalid g hg⟩
  · intro h
    have hreadable : ∀ g ∈ f :: fs, g.Readable := List.forall_mem_cons.mpr ⟨hf, h⟩
    refine ⟨(f :: fs).map Field.member, ⟨?_, [], ?_, rfl⟩, ?_⟩
    · rw [Utf8.valid_cons (by decide), valid_fieldsText]
      exact fun g hg ↦ (hreadable g hg).valid
    · apply ReadsValue.object
      rw [skip_fieldsText]
      exact readsMembers_of_escaped (List.cons_ne_nil f fs) fun g hg ↦ (hreadable g hg).escaped
    · exact fun g hg ↦ hasMember_map hnames g (List.mem_cons_of_mem f hg)

end Json

end AsabruCommons
