import AsabruCommons.Json.Reading

/-!
# What is written is read back

The grammar of `Json.Reading` is unambiguous: a text stands for one value at most, since
what stands at the front of it decides by which rule it is read (`IsText.unique`).  And
what is written is a text of the grammar: each character of a string is read back from
its escape, a string up to its closing quote, and an object member by member
(`isText_dumpObject`).  So a text that was written stands for the object it was written
for, and for nothing else.
-/

namespace AsabruCommons

namespace Json

/-! ## One reading -/

theorem value_eq_of_mem_shortEscapes {c b b' : Char} (h : (c, b) ∈ shortEscapes)
    (h' : (c, b') ∈ shortEscapes) : b = b' := by
  simp only [shortEscapes, List.mem_cons, List.not_mem_nil, or_false, Prod.mk.injEq] at h h'
  rcases h with ⟨rfl, rfl⟩ | ⟨rfl, rfl⟩ | ⟨rfl, rfl⟩ | ⟨rfl, rfl⟩ | ⟨rfl, rfl⟩ | ⟨rfl, rfl⟩ |
    ⟨rfl, rfl⟩ | ⟨rfl, rfl⟩ <;> simp_all

theorem ne_of_mem_shortEscapes {c b : Char} (h : (c, b) ∈ shortEscapes) : c ≠ 'u' := by
  rintro rfl
  revert h
  simp [shortEscapes]

/-- What stands behind a backslash decides where its escape ends. -/
theorem ReadsEscape.unique {token token' bytes bytes' s s' : List Char}
    (h : ReadsEscape token bytes) (h' : ReadsEscape token' bytes')
    (hs : token ++ s = token' ++ s') : bytes = bytes' ∧ s = s' := by
  cases h with
  | @short c b hc =>
      cases h' with
      | @short c' b' hc' =>
          obtain ⟨rfl, hrest⟩ := List.cons_eq_cons.mp hs
          exact ⟨by rw [value_eq_of_mem_shortEscapes hc hc'], hrest⟩
      | codePoint => exact absurd (List.cons_eq_cons.mp hs).1 (ne_of_mem_shortEscapes hc)
      | pair => exact absurd (List.cons_eq_cons.mp hs).1 (ne_of_mem_shortEscapes hc)
  | @codePoint digits n hlength hdigits hhigh hlow =>
      cases h' with
      | short hc' => exact absurd (List.cons_eq_cons.mp hs).1.symm (ne_of_mem_shortEscapes hc')
      | @codePoint digits' n' hlength' hdigits' =>
          obtain ⟨rfl, hrest⟩ := List.append_inj (List.cons_eq_cons.mp hs).2
            (hlength.trans hlength'.symm)
          rw [hdigits] at hdigits'
          exact ⟨by rw [Option.some.inj hdigits'], hrest⟩
      | @pair digits' _ n' _ hlength' _ hdigits' _ hhigh' =>
          rw [List.cons_append, List.cons_append, List.append_assoc] at hs
          obtain ⟨rfl, -⟩ := List.append_inj (List.cons_eq_cons.mp hs).2
            (hlength.trans hlength'.symm)
          rw [hdigits] at hdigits'
          exact absurd (Option.some.inj hdigits' ▸ hhigh') hhigh
  | @pair digits digits₂ n n₂ hlength hlength₂ hdigits hdigits₂ hhigh hlow =>
      cases h' with
      | short hc' => exact absurd (List.cons_eq_cons.mp hs).1.symm (ne_of_mem_shortEscapes hc')
      | @codePoint digits' n' hlength' hdigits' hhigh' =>
          rw [List.cons_append, List.cons_append, List.append_assoc] at hs
          obtain ⟨rfl, -⟩ := List.append_inj (List.cons_eq_cons.mp hs).2
            (hlength.trans hlength'.symm)
          rw [hdigits] at hdigits'
          exact absurd (Option.some.inj hdigits' ▸ hhigh) hhigh'
      | @pair digits' digits₂' n' n₂' hlength' hlength₂' hdigits' hdigits₂' =>
          rw [List.cons_append, List.cons_append, List.append_assoc, List.append_assoc] at hs
          obtain ⟨rfl, hsecond⟩ := List.append_inj (List.cons_eq_cons.mp hs).2
            (hlength.trans hlength'.symm)
          obtain ⟨rfl, hrest⟩ := List.append_inj
            (List.cons_eq_cons.mp (List.cons_eq_cons.mp hsecond).2).2
            (hlength₂.trans hlength₂'.symm)
          rw [hdigits] at hdigits'
          rw [hdigits₂] at hdigits₂'
          exact ⟨by rw [Option.some.inj hdigits', Option.some.inj hdigits₂'], hrest⟩

theorem ReadsString.unique {s v v' r r' : List Char} (h : ReadsString s v r)
    (h' : ReadsString s v' r') : v = v' ∧ r = r' := by
  induction h generalizing v' with
  | close rest =>
      generalize hs : '"' :: rest = s at h'
      cases h' with
      | close rest' => exact ⟨rfl, (List.cons_eq_cons.mp hs).2⟩
      | unescaped hc => exact absurd (List.cons_eq_cons.mp hs).1.symm hc.1
      | escape => exact absurd (List.cons_eq_cons.mp hs).1 (by decide)
  | @unescaped c s v rest hc h ih =>
      generalize hs : c :: s = t at h'
      cases h' with
      | close rest' => exact absurd (List.cons_eq_cons.mp hs).1 hc.1
      | unescaped hc' h' =>
          obtain ⟨rfl, rfl⟩ := List.cons_eq_cons.mp hs
          obtain ⟨rfl, rfl⟩ := ih h'
          exact ⟨rfl, rfl⟩
      | escape => exact absurd (List.cons_eq_cons.mp hs).1 hc.2.1
  | @escape token bytes s v rest htoken h ih =>
      generalize hs : '\\' :: (token ++ s) = t at h'
      cases h' with
      | close rest' => exact absurd (List.cons_eq_cons.mp hs).1 (by decide)
      | unescaped hc' => exact absurd (List.cons_eq_cons.mp hs).1.symm hc'.2.1
      | escape htoken' h' =>
          obtain ⟨rfl, rfl⟩ := htoken.unique htoken' (List.cons_eq_cons.mp hs).2
          obtain ⟨rfl, rfl⟩ := ih h'
          exact ⟨rfl, rfl⟩

theorem ReadsInteger.unique {s l l' r r' : List Char} (h : ReadsInteger s l r)
    (h' : ReadsInteger s l' r') : l = l' ∧ r = r' := by
  cases h with
  | zero s =>
      cases h' with
      | zero => exact ⟨rfl, rfl⟩
      | other s hc hzero => exact absurd rfl hzero
  | other s hc hzero =>
      cases h' with
      | zero => exact absurd rfl hzero
      | other => exact ⟨rfl, rfl⟩

theorem ReadsFraction.unique {s l l' r r' : List Char} (h : ReadsFraction s l r)
    (h' : ReadsFraction s l' r') : l = l' ∧ r = r' := by
  cases h with
  | none hdot =>
      cases h' with
      | none => exact ⟨rfl, rfl⟩
      | some => exact absurd rfl hdot
  | some s hdigits =>
      cases h' with
      | none hdot => exact absurd rfl hdot
      | some => exact ⟨rfl, rfl⟩

theorem digits_of_not_isDigit {c : Char} (hc : c.isDigit = false) (s : List Char) :
    (digits (c :: s)).1 = [] := by
  rw [digits, List.span_eq_takeWhile_dropWhile, List.takeWhile_cons_of_neg (by simp [hc])]

/-- A sign is not a digit, so it is clear whether there is one. -/
theorem sign_unique {sign sign' s s' : List Char} (hsign : sign ∈ [[], ['+'], ['-']])
    (hsign' : sign' ∈ [[], ['+'], ['-']]) (h : (digits s).1 ≠ []) (h' : (digits s').1 ≠ [])
    (hs : sign ++ s = sign' ++ s') : sign = sign' ∧ s = s' := by
  simp only [List.mem_cons, List.not_mem_nil, or_false] at hsign hsign'
  rcases hsign with rfl | rfl | rfl <;> rcases hsign' with rfl | rfl | rfl <;>
    simp only [List.nil_append, List.cons_append, List.cons.injEq] at hs
  · exact ⟨rfl, hs⟩
  · exact absurd (hs ▸ digits_of_not_isDigit rfl s') h
  · exact absurd (hs ▸ digits_of_not_isDigit rfl s') h
  · exact absurd (hs ▸ digits_of_not_isDigit rfl s) h'
  · exact ⟨rfl, hs.2⟩
  · exact absurd hs.1 (by decide)
  · exact absurd (hs ▸ digits_of_not_isDigit rfl s) h'
  · exact absurd hs.1 (by decide)
  · exact ⟨rfl, hs.2⟩

theorem ReadsExponent.unique {s l l' r r' : List Char} (h : ReadsExponent s l r)
    (h' : ReadsExponent s l' r') : l = l' ∧ r = r' := by
  cases h with
  | none hno =>
      cases h' with
      | none => exact ⟨rfl, rfl⟩
      | some sign s he =>
          rcases he with rfl | rfl
          · exact absurd rfl hno.1
          · exact absurd rfl hno.2
  | @some e sign t he hsign hdigits =>
      generalize hs : e :: (sign ++ t) = s at h'
      cases h' with
      | none hno =>
          subst hs
          rcases he with rfl | rfl
          · exact absurd rfl hno.1
          · exact absurd rfl hno.2
      | some sign' t' he' hsign' hdigits' =>
          obtain ⟨rfl, htail⟩ := List.cons_eq_cons.mp hs
          obtain ⟨rfl, rfl⟩ := sign_unique hsign hsign' hdigits hdigits' htail
          exact ⟨rfl, rfl⟩

theorem ReadsNumber.unique {s l l' r r' : List Char} (h : ReadsNumber s l r)
    (h' : ReadsNumber s l' r') : l = l' ∧ r = r' := by
  obtain ⟨hi, hf, he⟩ := h
  obtain ⟨hi', hf', he'⟩ := h'
  obtain ⟨rfl, rfl⟩ := hi.unique hi'
  obtain ⟨rfl, rfl⟩ := hf.unique hf'
  obtain ⟨rfl, rfl⟩ := he.unique he'
  exact ⟨rfl, rfl⟩

theorem not_readsElements_bracket {s rest : List Char} {vs : List Value} :
    ¬ ReadsElements (']' :: s) vs rest := by
  have hvalue : ∀ {v : Value} {r : List Char}, ¬ ReadsValue (']' :: s) v r := by
    intro v r h
    cases h with
    | number h => exact not_readsNumber (by decide) h
  intro h
  cases h with
  | last hv => exact hvalue hv
  | cons hv => exact hvalue hv

theorem not_readsMembers_brace {s rest : List Char} {ms : List (List Char × Value)} :
    ¬ ReadsMembers ('\x7d' :: s) ms rest := nofun

/-- What follows a value is one thing. -/
theorem tail_unique {s t t' : List Char} {c : Char} (h : skip s = c :: t) (h' : skip s = c :: t') :
    t = t' := (List.cons_eq_cons.mp (h.symm.trans h')).2

theorem head_ne {s t t' : List Char} {c d : Char} (hcd : c ≠ d) (h : skip s = c :: t) :
    skip s ≠ d :: t' := fun h' ↦ hcd (List.cons_eq_cons.mp (h.symm.trans h')).1

mutual

/-- The character at the front says which rule is used. -/
theorem ReadsValue.unique {s r r' : List Char} {v v' : Value} (h : ReadsValue s v r)
    (h' : ReadsValue s v' r') : v = v' ∧ r = r' := by
  cases h with
  | null =>
      cases h' with
      | null => exact ⟨rfl, rfl⟩
      | number h' => exact absurd h' (not_readsNumber (by decide))
  | true_ =>
      cases h' with
      | true_ => exact ⟨rfl, rfl⟩
      | number h' => exact absurd h' (not_readsNumber (by decide))
  | false_ =>
      cases h' with
      | false_ => exact ⟨rfl, rfl⟩
      | number h' => exact absurd h' (not_readsNumber (by decide))
  | number h =>
      cases h' with
      | number h' =>
          obtain ⟨rfl, rfl⟩ := h.unique h'
          exact ⟨rfl, rfl⟩
      | _ => exact absurd h (not_readsNumber (by decide))
  | negative h =>
      cases h' with
      | number h' => exact absurd h' (not_readsNumber (by decide))
      | negative h' =>
          obtain ⟨rfl, rfl⟩ := h.unique h'
          exact ⟨rfl, rfl⟩
  | string h =>
      cases h' with
      | number h' => exact absurd h' (not_readsNumber (by decide))
      | string h' =>
          obtain ⟨rfl, rfl⟩ := h.unique h'
          exact ⟨rfl, rfl⟩
  | emptyArray h =>
      cases h' with
      | number h' => exact absurd h' (not_readsNumber (by decide))
      | emptyArray h' => exact ⟨rfl, tail_unique h h'⟩
      | array h' => exact absurd (h ▸ h') not_readsElements_bracket
  | array h =>
      cases h' with
      | number h' => exact absurd h' (not_readsNumber (by decide))
      | emptyArray h' => exact absurd (h' ▸ h) not_readsElements_bracket
      | array h' =>
          obtain ⟨rfl, rfl⟩ := h.unique h'
          exact ⟨rfl, rfl⟩
  | emptyObject h =>
      cases h' with
      | number h' => exact absurd h' (not_readsNumber (by decide))
      | emptyObject h' => exact ⟨rfl, tail_unique h h'⟩
      | object h' => exact absurd (h ▸ h') not_readsMembers_brace
  | object h =>
      cases h' with
      | number h' => exact absurd h' (not_readsNumber (by decide))
      | emptyObject h' => exact absurd (h' ▸ h) not_readsMembers_brace
      | object h' =>
          obtain ⟨rfl, rfl⟩ := h.unique h'
          exact ⟨rfl, rfl⟩

theorem ReadsElements.unique {s r r' : List Char} {vs vs' : List Value}
    (h : ReadsElements s vs r) (h' : ReadsElements s vs' r') : vs = vs' ∧ r = r' := by
  cases h with
  | last hv hend =>
      cases h' with
      | last hv' hend' =>
          obtain ⟨rfl, rfl⟩ := hv.unique hv'
          exact ⟨rfl, tail_unique hend hend'⟩
      | cons hv' hcomma =>
          obtain ⟨rfl, rfl⟩ := hv.unique hv'
          exact absurd hcomma (head_ne (by decide) hend)
  | cons hv hcomma h =>
      cases h' with
      | last hv' hend' =>
          obtain ⟨rfl, rfl⟩ := hv.unique hv'
          exact absurd hcomma (head_ne (by decide) hend')
      | cons hv' hcomma' h' =>
          obtain ⟨rfl, rfl⟩ := hv.unique hv'
          obtain rfl := tail_unique hcomma hcomma'
          obtain ⟨rfl, rfl⟩ := h.unique h'
          exact ⟨rfl, rfl⟩

theorem ReadsMembers.unique {s r r' : List Char} {ms ms' : List (List Char × Value)}
    (h : ReadsMembers s ms r) (h' : ReadsMembers s ms' r') : ms = ms' ∧ r = r' := by
  cases h with
  | last hk hcolon hv hend =>
      cases h' with
      | last hk' hcolon' hv' hend' =>
          obtain ⟨rfl, rfl⟩ := hk.unique hk'
          obtain rfl := tail_unique hcolon hcolon'
          obtain ⟨rfl, rfl⟩ := hv.unique hv'
          exact ⟨rfl, tail_unique hend hend'⟩
      | cons hk' hcolon' hv' hcomma =>
          obtain ⟨rfl, rfl⟩ := hk.unique hk'
          obtain rfl := tail_unique hcolon hcolon'
          obtain ⟨rfl, rfl⟩ := hv.unique hv'
          exact absurd hcomma (head_ne (by decide) hend)
  | cons hk hcolon hv hcomma h =>
      cases h' with
      | last hk' hcolon' hv' hend' =>
          obtain ⟨rfl, rfl⟩ := hk.unique hk'
          obtain rfl := tail_unique hcolon hcolon'
          obtain ⟨rfl, rfl⟩ := hv.unique hv'
          exact absurd hcomma (head_ne (by decide) hend')
      | cons hk' hcolon' hv' hcomma' h' =>
          obtain ⟨rfl, rfl⟩ := hk.unique hk'
          obtain rfl := tail_unique hcolon hcolon'
          obtain ⟨rfl, rfl⟩ := hv.unique hv'
          obtain rfl := tail_unique hcomma hcomma'
          obtain ⟨rfl, rfl⟩ := h.unique h'
          exact ⟨rfl, rfl⟩

end

/-- **A text stands for one value.** -/
theorem IsText.unique {s : List Char} {v v' : Value} (h : IsText s v) (h' : IsText s v') :
    v = v' := by
  obtain ⟨-, rest, hv, -⟩ := h
  obtain ⟨-, rest', hv', -⟩ := h'
  exact (hv.unique hv').1

/-! ## Strings -/

/-- The four digits of a control character. -/
theorem hexNumber_hexDigit : ∀ n ≤ 0x1F,
    hexNumber ['0', '0', hexDigit (n / 16), hexDigit (n % 16)] = some n := by
  decide

/-- A character is written as it is, or as an escape that is read as it. -/
theorem escape_cases (c : Char) :
    escape c = [c] ∧ Unescaped c ∨
      c.toNat ≤ 0x7F ∧ ∃ token, escape c = '\\' :: token ∧ (∀ d ∈ token, d.toNat ≤ 0x7F) ∧
        ReadsEscape token [c] := by
  have hshort : ∀ {d b : Char}, (d, b) ∈ shortEscapes → d.toNat ≤ 0x7F → b.toNat ≤ 0x7F →
      b.toNat ≤ 0x7F ∧ ∃ token, ['\\', d] = '\\' :: token ∧ (∀ e ∈ token, e.toNat ≤ 0x7F) ∧
        ReadsEscape token [b] :=
    fun h hd hb ↦ ⟨hb, [_], rfl, List.forall_mem_singleton.mpr hd, .short h⟩
  unfold escape
  split_ifs with hb ht hn hf hr hquote hslash hcontrol
  · exact .inr (hb ▸ hshort (d := 'b') (by decide) (by decide) (by decide))
  · exact .inr (ht ▸ hshort (d := 't') (by decide) (by decide) (by decide))
  · exact .inr (hn ▸ hshort (d := 'n') (by decide) (by decide) (by decide))
  · exact .inr (hf ▸ hshort (d := 'f') (by decide) (by decide) (by decide))
  · exact .inr (hr ▸ hshort (d := 'r') (by decide) (by decide) (by decide))
  · subst hquote
    exact .inr (hshort (by decide) (by decide) (by decide))
  · subst hslash
    exact .inr (hshort (by decide) (by decide) (by decide))
  · have hdigit : ∀ n < 16, (hexDigit n).toNat ≤ 0x7F := by decide
    have hascii : ∀ d ∈ ['u', '0', '0', hexDigit (c.toNat / 16), hexDigit (c.toNat % 16)],
        d.toNat ≤ 0x7F := by
      simp only [List.forall_mem_cons]
      exact ⟨by decide, by decide, by decide, hdigit _ (by omega), hdigit _ (by omega),
        List.forall_mem_nil _⟩
    have hread : ReadsEscape ['u', '0', '0', hexDigit (c.toNat / 16), hexDigit (c.toNat % 16)]
        (encode c.toNat) := by
      apply ReadsEscape.codePoint rfl (hexNumber_hexDigit _ hcontrol)
      · exact fun h ↦ absurd h.1 (by omega)
      · exact fun h ↦ absurd h.1 (by omega)
    have hencode : encode c.toNat = [c] := by
      rw [encode, if_pos (by omega), Char.ofNat_toNat]
    exact .inr ⟨by omega, _, rfl, hascii, hencode ▸ hread⟩
  · exact .inl ⟨rfl, hquote, hslash, by omega⟩

/-- A string that is written is read back up to its closing quote. -/
theorem readsString_flatMap_escape (s rest : List Char) :
    ReadsString (s.flatMap escape ++ '"' :: rest) s rest := by
  induction s with
  | nil => exact .close rest
  | cons c s ih =>
      rw [List.flatMap_cons, List.append_assoc]
      rcases escape_cases c with ⟨hc, hunescaped⟩ | ⟨-, token, hc, -, hread⟩
      · rw [hc]
        exact .unescaped hunescaped ih
      · rw [hc]
        exact .escape hread ih

/-- Escapes are ASCII, and so is what is escaped. -/
theorem valid_flatMap_escape (l s rest : List Char) :
    Utf8.Valid (l ++ (s.flatMap escape ++ rest)) ↔ Utf8.Valid (l ++ (s ++ rest)) := by
  induction s generalizing l with
  | nil => exact Iff.rfl
  | cons c s ih =>
      rw [List.flatMap_cons, List.append_assoc]
      rcases escape_cases c with ⟨hc, -⟩ | ⟨hc, token, htoken, hascii, -⟩
      · rw [hc]
        have h := ih (l ++ [c])
        rwa [List.append_assoc, List.append_assoc] at h
      · have h := ih []
        rw [List.nil_append, List.nil_append] at h
        rw [htoken, List.cons_append, Utf8.valid_append_cons (by decide),
          Utf8.valid_ascii_append hascii, h, List.cons_append, Utf8.valid_append_cons hc]

/-! ## Objects -/

/-- The members of an object of strings. -/
def members (ps : List (List Char × List Char)) : List (List Char × Value) :=
  ps.map fun p ↦ (p.1, .string p.2)

theorem members_filter {ps : List (List Char × List Char)} (hnodup : (ps.map Prod.fst).Nodup)
    {p : List Char × List Char} (hp : p ∈ ps) :
    (members ps).filter (fun q ↦ q.1 = p.1) = [(p.1, .string p.2)] := by
  obtain ⟨l, r, rfl⟩ := List.append_of_mem hp
  rw [List.map_append, List.map_cons, List.nodup_append, List.nodup_cons] at hnodup
  have hother : ∀ qs : List (List Char × List Char), (∀ q ∈ qs, q.1 ≠ p.1) →
      (members qs).filter (fun q ↦ q.1 = p.1) = [] := by
    intro qs hqs
    rw [members, List.filter_map, List.map_eq_nil_iff, List.filter_eq_nil_iff]
    exact fun q hq ↦ by simpa using hqs q hq
  have hleft : (members l).filter (fun q ↦ q.1 = p.1) = [] := hother l fun q hq ↦
    hnodup.2.2 q.1 (List.mem_map_of_mem hq) p.1 List.mem_cons_self
  have hright : (members r).filter (fun q ↦ q.1 = p.1) = [] := hother r fun q hq heq ↦
    hnodup.2.1.1 (heq ▸ List.mem_map_of_mem hq)
  rw [members, List.map_append, List.map_cons, List.filter_append,
    List.filter_cons_of_pos (by simp)]
  show (members l).filter _ ++ _ :: (members r).filter _ = _
  rw [hleft, hright]
  rfl

theorem dumpString_eq_some {s text : List Char} (h : dumpString s = some text) :
    Utf8.Valid s ∧ text = '"' :: (s.flatMap escape ++ ['"']) := by
  rw [dumpString, Option.ite_none_right_eq_some] at h
  exact ⟨h.1, (Option.some.inj h.2).symm⟩

/-- What a string that is written begins with is that string. -/
theorem readsValue_dumpString {s text : List Char} (h : dumpString s = some text)
    (rest : List Char) : ReadsValue (skip (text ++ rest)) (.string s) rest := by
  obtain ⟨-, rfl⟩ := dumpString_eq_some h
  have hskip : skip ('"' :: (s.flatMap escape ++ ['"']) ++ rest) =
      '"' :: (s.flatMap escape ++ '"' :: rest) := by
    rw [List.cons_append, List.append_assoc]
    rfl
  rw [hskip]
  exact .string (readsString_flatMap_escape s rest)

theorem valid_dumpString {s text : List Char} (h : dumpString s = some text) (rest : List Char) :
    Utf8.Valid (text ++ rest) ↔ Utf8.Valid rest := by
  obtain ⟨hs, rfl⟩ := dumpString_eq_some h
  have hescape := valid_flatMap_escape [] s ('"' :: rest)
  rw [List.nil_append, List.nil_append] at hescape
  rw [List.cons_append, List.append_assoc, Utf8.valid_cons (by decide)]
  exact hescape.trans ((Utf8.valid_append_cons (by decide) s rest).trans (and_iff_right hs))

/-- The members are read one by one, by induction on them. -/
theorem readsMembers_dumpMembers {ps : List (List Char × List Char)} (hne : ps ≠ [])
    {text : List Char} (h : dumpMembers ps = some text) (rest : List Char) :
    ReadsMembers (skip (text ++ '\x7d' :: rest)) (members ps) rest ∧
      (Utf8.Valid (text ++ '\x7d' :: rest) ↔ Utf8.Valid rest) := by
  have hskip : ∀ {s t : List Char}, dumpString s = some t → ∀ u : List Char,
      skip (t ++ u) = '"' :: (s.flatMap escape ++ '"' :: u) := by
    intro s t ht u
    obtain ⟨-, rfl⟩ := dumpString_eq_some ht
    rw [List.cons_append, List.append_assoc]
    rfl
  fun_induction dumpMembers ps generalizing text with
  | case1 => exact absurd rfl hne
  | case2 p =>
      simp only [Option.bind_eq_bind, Option.bind_eq_some_iff, Option.pure_def,
        Option.some.injEq] at h
      obtain ⟨k, hk, v, hv, rfl⟩ := h
      refine ⟨?_, ?_⟩
      · rw [List.append_assoc, hskip hk]
        exact .last (readsString_flatMap_escape _ _) rfl (readsValue_dumpString hv _) rfl
      · rw [List.append_assoc, valid_dumpString hk, List.cons_append, Utf8.valid_cons (by decide),
          valid_dumpString hv, Utf8.valid_cons (by decide)]
  | case3 p ps hmore ih =>
      simp only [Option.bind_eq_bind, Option.bind_eq_some_iff, Option.pure_def,
        Option.some.injEq] at h
      obtain ⟨k, hk, v, hv, t, ht, rfl⟩ := h
      obtain ⟨hreads, hvalid⟩ := ih hmore ht
      refine ⟨?_, ?_⟩
      · rw [List.append_assoc, List.append_assoc, hskip hk]
        exact .cons (readsString_flatMap_escape _ _) rfl (readsValue_dumpString hv _) rfl hreads
      · rw [List.append_assoc, List.append_assoc, valid_dumpString hk, List.cons_append,
          Utf8.valid_cons (by decide), valid_dumpString hv, List.cons_append,
          Utf8.valid_cons (by decide), hvalid]

/-- **An object that is written is a JSON text of that object.** -/
theorem isText_dumpObject {m : OrderedMap (List Char) (List Char)} {text : List Char}
    (h : dumpObject m = some text) : IsText text (.object (members m.entries)) := by
  simp only [dumpObject, Option.bind_eq_bind, Option.bind_eq_some_iff, Option.pure_def,
    Option.some.injEq] at h
  obtain ⟨t, ht, rfl⟩ := h
  have hskip : skip ('\x7b' :: t ++ ['\x7d']) = '\x7b' :: (t ++ ['\x7d']) := rfl
  by_cases hnil : m.entries = []
  · rw [hnil] at ht ⊢
    obtain rfl := Option.some.inj ht
    exact ⟨by decide, [], hskip ▸ .emptyObject rfl, rfl⟩
  · obtain ⟨hreads, hvalid⟩ := readsMembers_dumpMembers hnil ht []
    refine ⟨?_, [], hskip ▸ .object hreads, rfl⟩
    rw [List.cons_append, Utf8.valid_cons (by decide), hvalid]
    exact Utf8.valid_nil

end Json

end AsabruCommons
