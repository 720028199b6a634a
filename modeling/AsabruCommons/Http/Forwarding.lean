import AsabruCommons.Http.Survival
import AsabruCommons.Http.Reserialised

/-!
# A response that is passed on

A server that passes a response on reads it by `string_to_response` and writes it again
by `to_string`.  What one pass changes is in `stringToResponse_toString`; but the values
that it leaves end in a carriage return, which that result does not allow, so it does not
say what the next pass does.

`forward_eq` follows a response through any number of passes.  Each of them adds one
carriage return to each header value but that of `Content-Length`.  A content that is not
empty gets a newline at its end in the first pass, if it has none, and is left alone
afterwards; an empty one stays empty.  No pass throws, and whatever was in the variable of
the status code does not matter.
-/

namespace AsabruCommons.Http

open IStringStream Lines Search

/-! ## Fields that are read again -/

/-- A header field whose value may contain carriage returns. -/
structure PassedField (p : Str × Str) : Prop where
  name_ne_nil : p.1 ≠ []
  colon_notMem : ':' ∉ p.1
  lf_notMem_name : '\n' ∉ p.1
  name_unblanked : ∀ c ∈ p.1.head?, isBlank c = false
  value_ne_nil : p.2 ≠ []
  lf_notMem_value : '\n' ∉ p.2
  value_unblanked : ∀ c ∈ p.2.head?, isBlank c = false

theorem ResponseField.passedField {p : Str × Str} (h : ResponseField p) : PassedField p where
  name_ne_nil := h.name_ne_nil
  colon_notMem := h.colon_notMem
  lf_notMem_name := h.lf_notMem_name
  name_unblanked := h.name_unblanked
  value_ne_nil := h.value_ne_nil
  lf_notMem_value := h.lf_notMem_value
  value_unblanked := h.value_unblanked

/-- Nothing is dropped from a text that does not begin with a blank. -/
theorem dropBlanks_of_unblanked {s : Str} (hne : s ≠ []) (h : ∀ c ∈ s.head?, isBlank c = false) :
    dropBlanks s = .ok s := by
  have hself := dropWhile_of_head? h
  rw [dropBlanks_eq (by rwa [hself]), hself]

/-- One blank is dropped in front of it. -/
theorem dropBlanks_space {s : Str} (hne : s ≠ []) (h : ∀ c ∈ s.head?, isBlank c = false) :
    dropBlanks (' ' :: s) = .ok s := by
  have hself : (' ' :: s).dropWhile isBlank = s := by
    rw [List.dropWhile_cons_of_pos (p := isBlank) rfl, dropWhile_of_head? h]
  rw [dropBlanks_eq (by rwa [hself]), hself]

namespace PassedField

variable {p : Str × Str} (h : PassedField p)
include h

theorem withReturn : PassedField (p.1, withReturn p.2) where
  name_ne_nil := h.name_ne_nil
  colon_notMem := h.colon_notMem
  lf_notMem_name := h.lf_notMem_name
  name_unblanked := h.name_unblanked
  value_ne_nil := List.append_ne_nil_of_right_ne_nil _ (List.cons_ne_nil _ _)
  lf_notMem_value := by
    show '\n' ∉ p.2 ++ ['\r']
    rw [List.mem_append, not_or]
    exact ⟨h.lf_notMem_value, by decide⟩
  value_unblanked := by
    obtain ⟨c, v, hv⟩ := List.exists_cons_of_ne_nil h.value_ne_nil
    have hc := h.value_unblanked c (by rw [hv]; rfl)
    intro d hd
    have hd' : d ∈ (p.2 ++ ['\r']).head? := hd
    rw [hv, List.cons_append, List.head?_cons, Option.mem_some_iff] at hd'
    exact hd' ▸ hc

theorem readHeader_eq (r : HttpResponse) :
    readHeader r (fieldLine p ++ ['\r']) = .ok (r.SetHeader p.1 (Http.withReturn p.2)) := by
  have hline : fieldLine p ++ ['\r'] = p.1 ++ ':' :: (' ' :: Http.withReturn p.2) := by
    simp [fieldLine, Http.withReturn]
  rw [hline, readHeader_append h.colon_notMem,
    dropBlanks_of_unblanked h.name_ne_nil h.name_unblanked,
    dropBlanks_space h.withReturn.value_ne_nil h.withReturn.value_unblanked]
  rfl

end PassedField

/-- The header loop over such fields. -/
theorem whileGetline_passedFields {ps : List (Str × Str)} (h : ∀ p ∈ ps, PassedField p)
    (r : HttpResponse) (content : Str) :
    (ofStr ((ps.flatMap fun p ↦ fieldLine p ++ crlf) ++ crlf ++ content)).whileGetline
        isHeaderLine readHeader r =
      .ok ({ r with headers := r.headers.insertAll (ps.map fun p ↦ (p.1, withReturn p.2)) },
        ofStr content) := by
  induction ps generalizing r with
  | nil =>
      have hline : [] ++ crlf ++ content = ['\r'] ++ '\n' :: content := rfl
      rw [List.flatMap_nil, hline, whileGetline_stop (by decide) (by decide)]
      rfl
  | cons p ps ih =>
      have hp := h p List.mem_cons_self
      have hline : ((p :: ps).flatMap fun p ↦ fieldLine p ++ crlf) ++ crlf ++ content =
          (fieldLine p ++ ['\r']) ++ '\n' ::
            ((ps.flatMap fun p ↦ fieldLine p ++ crlf) ++ crlf ++ content) := by
        simp [crlf]
      have hlf : '\n' ∉ fieldLine p ++ ['\r'] := by
        simpa [fieldLine] using ⟨hp.lf_notMem_name, hp.lf_notMem_value⟩
      have hheader : isHeaderLine (fieldLine p ++ ['\r']) = true := by
        obtain ⟨c, name, hname⟩ := List.exists_cons_of_ne_nil hp.name_ne_nil
        simp [isHeaderLine, fieldLine, hname]
      rw [hline, whileGetline_line hlf hheader, hp.readHeader_eq, Except.bind,
        ih fun q hq ↦ h q (List.mem_cons_of_mem p hq)]
      rfl

/-! ## One pass -/

/-- A response that can be passed on. -/
structure HttpResponse.Passable (r : HttpResponse) : Prop where
  listed : r.statusCode ∈ HttpStatusCode.listed
  fields : ∀ p ∈ r.headers.entries, PassedField p

theorem HttpResponse.Complete.passable {r : HttpResponse} (h : r.Complete) : r.Passable where
  listed := h.listed
  fields := fun p hp ↦ (h.fields p hp).passedField

/-- What is read of it, as in `stringToResponse_toString`. -/
theorem HttpResponse.Passable.pass {r : HttpResponse} (h : r.Passable) (n : Int) :
    stringToResponse n (r.toString true) = .ok r.asRead := by
  have htext : r.toString true = r.version.toString ++ ' ' :: (showInt r.statusCode.value ++
      ' ' :: (r.statusCode.toString ++ crlf)) ++ (fieldLines r.headers ++ crlf ++ r.content) := by
    rw [HttpResponse.toString, if_pos rfl]
    simp only [List.append_assoc]
  obtain ⟨hcode, hrest⟩ := readStatusLine h.listed (fieldLines r.headers ++ crlf ++ r.content) n
  have hheaders : OrderedMap.empty.insertAll
      (r.headers.entries.map fun p ↦ (p.1, withReturn p.2)) = r.headers.mapValues withReturn :=
    OrderedMap.insertAll_entries (r.headers.mapValues withReturn)
  rw [← htext] at hcode hrest
  simp only [stringToResponse, hcode, hrest]
  rw [fieldLines, whileGetline_passedFields h.fields, ok_bind]
  dsimp only
  rw [whileGetline_foldl fun _ _ _ ↦ rfl, ok_bind, foldl_appendLine, List.nil_append]
  show Except.ok (HttpResponse.mk _ _) = Except.ok (HttpResponse.mk _ _)
  congr 2
  refine HttpMessageInterface.ext ?_ rfl
  show OrderedMap.insert (OrderedMap.empty.insertAll _) _ _ = _
  rw [hheaders]
  rfl

theorem passedField_contentLength (n : Nat) : PassedField (contentLength, decimal n) where
  name_ne_nil := show contentLength ≠ [] by decide
  colon_notMem := show ':' ∉ contentLength by decide
  lf_notMem_name := show '\n' ∉ contentLength by decide
  name_unblanked := by
    intro c hc
    obtain rfl : 'C' = c := Option.some.inj hc
    rfl
  value_ne_nil := Nat.toDigits_ne_nil
  lf_notMem_value := notMem_decimal rfl
  value_unblanked := by
    intro c hc
    have hdigit := isDigit_of_mem_decimal (List.mem_of_head? hc)
    by_contra hblank
    rw [Bool.not_eq_false, isBlank, Bool.or_eq_true, decide_eq_true_eq, decide_eq_true_eq] at hblank
    rcases hblank with rfl | rfl <;> exact absurd hdigit (by decide)

/-- What is read can be passed on again. -/
theorem HttpResponse.Passable.asRead {r : HttpResponse} (h : r.Passable) : r.asRead.Passable where
  listed := h.listed
  fields p hp := by
    have hfind : r.asRead.headers.find? p.1 = some p.2 := OrderedMap.find?_eq_some.mpr hp
    have hheaders : r.asRead.headers = (r.headers.mapValues withReturn).insert contentLength
        (decimal r.asRead.content.length) := rfl
    rw [hheaders, OrderedMap.find?_insert] at hfind
    split at hfind
    · next hname =>
        obtain ⟨name, value⟩ := p
        obtain rfl := Option.some.inj hfind
        obtain rfl : name = contentLength := hname
        exact passedField_contentLength _
    · rw [OrderedMap.find?_mapValues, Option.map_eq_some_iff] at hfind
      obtain ⟨v, hv, heq⟩ := hfind
      have hold := h.fields (p.1, v) (OrderedMap.find?_eq_some.mp hv)
      have hpassed := hold.withReturn
      rwa [heq] at hpassed

/-! ## Any number of passes -/

/-- The response after as many passes as there are numbers, which are what is in the
variable of the status code in each of them. -/
def HttpResponse.forward (r : HttpResponse) : List Int → Except Exception HttpResponse
  | [] => .ok r
  | n :: ns => do (← stringToResponse n (r.toString true)).forward ns

/-- The value of a field after some passes. -/
def withReturns (passes : Nat) (value : Str) : Str := value ++ List.replicate passes '\r'

theorem withReturns_withReturn (passes : Nat) (value : Str) :
    withReturns passes (withReturn value) = withReturns (passes + 1) value := by
  rw [withReturn, withReturns, withReturns, List.append_assoc, List.singleton_append,
    ← List.replicate_succ]

/-- The header fields that one pass leaves. -/
theorem find?_asRead (r : HttpResponse) (key : Str) :
    r.asRead.headers.find? key = if key = contentLength then some (decimal r.asRead.content.length)
      else (r.headers.find? key).map withReturn := by
  have hheaders : r.asRead.headers = (r.headers.mapValues withReturn).insert contentLength
      (decimal r.asRead.content.length) := rfl
  rw [hheaders, OrderedMap.find?_insert, OrderedMap.find?_mapValues]
  by_cases hkey : key = contentLength
  · rw [if_pos hkey, if_pos hkey]
  · rw [if_neg hkey, if_neg hkey]

/-- The content is terminated by the first pass, and left alone by the others. -/
theorem unlines_lines_unlines_lines (content : Str) :
    unlines '\n' (lines '\n' (unlines '\n' (lines '\n' content))) =
      unlines '\n' (lines '\n' content) := unlines_lines (terminated_unlines _)

/-- **A response that is passed on** any number of times, from the first pass on. -/
theorem HttpResponse.Passable.forward {r : HttpResponse} (h : r.Passable) (n : Int)
    (ns : List Int) :
    ∃ q, r.forward (n :: ns) = .ok q ∧ q.statusCode = r.statusCode ∧
      q.content = unlines '\n' (lines '\n' r.content) ∧
      ∀ key, q.headers.find? key =
        if key = contentLength then some (decimal q.content.length)
        else (r.headers.find? key).map (withReturns (n :: ns).length) := by
  induction ns generalizing r n with
  | nil =>
      refine ⟨r.asRead, ?_, rfl, rfl, find?_asRead r⟩
      rw [HttpResponse.forward, h.pass]
      rfl
  | cons m ns ih =>
      obtain ⟨q, hq, hstatus, hcontent, hheaders⟩ := ih h.asRead m
      have hbody : r.asRead.content = unlines '\n' (lines '\n' r.content) := rfl
      refine ⟨q, ?_, hstatus, ?_, fun key ↦ ?_⟩
      · rw [HttpResponse.forward, h.pass]
        exact hq
      · rw [hcontent, hbody, unlines_lines_unlines_lines]
      · rw [hheaders]
        split
        case isTrue hkey => rfl
        case isFalse hkey =>
          rw [find?_asRead, if_neg hkey, Option.map_map]
          refine congrArg (fun f ↦ Option.map f (r.headers.find? key)) (funext fun value ↦ ?_)
          exact withReturns_withReturn _ value

/-- **Passing on a response.**  Whatever is in the variable of the status code, no pass
throws.  After them the status code is the same, a content that is not empty ends in a newline
unless there was no pass and an empty one is still empty, `Content-Length` is right, and the
value of each other field has as many carriage returns more as there were passes. -/
theorem forward_eq {r : HttpResponse} (h : r.Complete) (ns : List Int) :
    ∃ q, r.forward ns = .ok q ∧ q.statusCode = r.statusCode ∧
      q.content = (if ns = [] then r.content else unlines '\n' (lines '\n' r.content)) ∧
      ∀ key, q.headers.find? key =
        if key = contentLength then some (decimal q.content.length)
        else (r.headers.find? key).map (withReturns ns.length) := by
  cases ns with
  | nil =>
      refine ⟨r, rfl, rfl, (if_pos rfl).symm, fun key ↦ ?_⟩
      split
      case isTrue hkey =>
        subst hkey
        exact h.contentLength
      case isFalse hkey =>
        have hnone : withReturns 0 = id := funext fun value ↦ List.append_nil value
        rw [List.length_nil, hnone, Option.map_id]
        rfl
  | cons n ns =>
      obtain ⟨q, hq, hstatus, hcontent, hheaders⟩ := h.passable.forward n ns
      exact ⟨q, hq, hstatus, by rw [hcontent, if_neg (List.cons_ne_nil n ns)], hheaders⟩

/-- The type of the content, after three passes. -/
theorem forward_typed :
    ∃ q, typedResponse.forward [7, 0, -1] = .ok q ∧ q.content = "ok\n".toList ∧
      q.headers.find? "Content-Type".toList = some "text/plain\r\r\r".toList := by
  obtain ⟨q, hq, -, hcontent, hheaders⟩ :=
    forward_eq (r := typedResponse) ⟨by decide, by decide, by decide⟩ [7, 0, -1]
  refine ⟨q, hq, hcontent.trans (by decide), ?_⟩
  rw [hheaders, if_neg (by decide)]
  decide

end AsabruCommons.Http
