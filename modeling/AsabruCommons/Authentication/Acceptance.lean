import AsabruCommons.Authentication.Revocation
import AsabruCommons.Authentication.Independence

/-!
# Nobody is refused without a cause

`revocation_permanent` says which tokens are refused for ever.  `answers_have_cause` is
the other direction: in every run, a token that is accepted verifies at that very time, and
one that is refused was handed to `removeAuthentication` before, alone or as a line of a
longer string, or does not verify, or carries no user name.

For that nothing is asked of `jwt-cpp`, of the tokens or of the background thread.  In
particular the removal of the empty token, which damages the file (`revocation_lost`), makes
no other token refused: the line it breaks is lost, and no new one comes from it.  With what
is documented of `jwt-cpp`, a minted token that nobody submits is accepted until it expires
(`session_lasts`).

The invariant is `Explained`.  It is read off what one step can do (`step_blacklist`,
`step_answers`, `step_removing`), so that `step` is unfolded once for each.
-/

namespace AsabruCommons.Authentication

open Lines Run

variable {Client : Type} [DecidableEq Client] {J : Jwt} {s s' : State Client} {e : Event Client}

/-! ## What one step can do -/

/-- The calls into the blacklist that a step makes, if it makes one. -/
theorem step_blacklist (h : step J s e = some s') :
    s'.blacklist = s.blacklist ∨
    (∃ c token, s.clients c = some (.removeAuthentication token) ∧
      s'.blacklist = s.blacklist.add token true) ∨
    (∃ token, J.verify token s.clock = false ∧
      s'.blacklist = s.blacklist.remove token true) ∨
    s'.blacklist = s.blacklist.compactFile true true ∨
    s'.blacklist = CachedFileList.construct s.blacklist.disk := by
  cases e with
  | addToken c =>
      simp only [step] at h
      split at h
      · rename_i token hc
        cases h
        exact .inr (.inl ⟨c, token, hc, rfl⟩)
      · cases h
  | verifyThenRemove =>
      simp only [step] at h
      split at h
      · rename_i token rest _
        split at h
        · cases h
          exact .inl rfl
        · rename_i hv
          cases h
          exact .inr (.inr (.inl ⟨token, Bool.eq_false_iff.mpr hv, rfl⟩))
      · cases h
  | compactFile =>
      simp only [step] at h
      split at h
      · cases h
        exact .inr (.inr (.inr (.inl rfl)))
      · cases h
  | restart env =>
      cases h
      exact .inr (.inr (.inr (.inr rfl)))
  | tick now | authenticate username password | isAuthenticated c token | findToken c
  | verifyToken c | removeAuthentication c token | returnRemoval c | getAll result =>
      left
      simp only [step] at h
      repeat' split at h
      all_goals cases h
      all_goals rfl

theorem step_clock (h : step J s e = some s') : s.clock ≤ s'.clock := by
  cases e with
  | tick now =>
      simp only [step] at h
      split at h
      · rename_i hle
        cases h
        exact hle
      · cases h
  | authenticate username password | isAuthenticated c token | findToken c | verifyToken c
  | removeAuthentication c token | addToken c | returnRemoval c | getAll result
  | verifyThenRemove | compactFile | restart env =>
      simp only [step] at h
      repeat' split at h
      all_goals cases h
      all_goals exact le_rfl

/-- A client that is removing a token was removing it before, or has just been called. -/
theorem step_removing (h : step J s e = some s') {c : Client} {token : Str}
    (hc : s'.clients c = some (.removeAuthentication token)) :
    s.clients c = some (.removeAuthentication token) ∨ e = .removeAuthentication c token := by
  have hset : ∀ {d : Client} {p : Option Pending},
      (s.setClient d p).clients c = some (.removeAuthentication token) →
      (d = c ∧ p = some (.removeAuthentication token)) ∨
        s.clients c = some (.removeAuthentication token) := by
    intro d p hd
    by_cases hcd : c = d
    · subst hcd
      exact .inl ⟨rfl, by simpa [State.setClient] using hd⟩
    · exact .inr (by simpa [State.setClient, hcd] using hd)
  cases e with
  | removeAuthentication d t =>
      simp only [step] at h
      split at h
      · cases h
        rcases hset hc with ⟨rfl, ht⟩ | hold
        · cases ht
          exact .inr rfl
        · exact .inl hold
      · cases h
  | isAuthenticated d t | findToken d | verifyToken d | addToken d | returnRemoval d =>
      simp only [step] at h
      repeat' split at h
      all_goals cases h
      all_goals
        rcases hset hc with ⟨-, ht⟩ | hold
        · cases ht
        · exact .inl hold
  | tick now | authenticate username password | getAll result | verifyThenRemove
  | compactFile =>
      simp only [step] at h
      repeat' split at h
      all_goals cases h
      all_goals exact .inl hc
  | restart env =>
      cases h
      cases hc

/-- Why a call of `isAuthenticated` answers as it does in the state that it finds. -/
inductive AnsweredIn (J : Jwt) (s : State Client) : Answer → Prop where
  | blacklisted {token : Str} (after : Bool) :
      token ∈ s.blacklist.cache → AnsweredIn J s ⟨token, after, false, none⟩
  | accepted {token username : Str} (after : Bool) :
      J.verify token s.clock = true → J.username token = some username →
      AnsweredIn J s ⟨token, after, true, some username⟩
  | unverified {token : Str} (after : Bool) :
      J.verify token s.clock = false → AnsweredIn J s ⟨token, after, false, none⟩
  | unnamed {token : Str} (after : Bool) :
      J.username token = none → AnsweredIn J s ⟨token, after, false, none⟩

/-- A step answers at most one call. -/
theorem step_answers (h : step J s e = some s') :
    s'.answers = s.answers ∨
      ∃ a, s'.answers = a :: s.answers ∧ s'.clock = s.clock ∧ AnsweredIn J s a := by
  cases e with
  | findToken c =>
      simp only [step] at h
      split at h
      · rename_i token after _
        split at h
        · rename_i hfind
          cases h
          exact .inr ⟨_, rfl, rfl, .blacklisted after (of_decide_eq_true hfind)⟩
        · cases h
          exact .inl rfl
      · cases h
  | verifyToken c =>
      simp only [step] at h
      split at h
      · rename_i token after _
        split at h
        · rename_i hverify
          split at h
          · rename_i username hname
            cases h
            exact .inr ⟨_, rfl, rfl, .accepted after hverify hname⟩
          · rename_i hname
            cases h
            exact .inr ⟨_, rfl, rfl, .unnamed after hname⟩
        · rename_i hverify
          cases h
          exact .inr ⟨_, rfl, rfl, .unverified after (Bool.eq_false_iff.mpr hverify)⟩
      · cases h
  | tick now | authenticate username password | isAuthenticated c token
  | removeAuthentication c token | addToken c | returnRemoval c | getAll result
  | verifyThenRemove | compactFile | restart env =>
      left
      simp only [step] at h
      repeat' split at h
      all_goals cases h
      all_goals rfl

/-! ## What is in the file -/

/-- The string is a line of the other one, or the whole of it. -/
def Written (t x : Str) : Prop := x = t ∨ x ∈ lines '\n' t

/-- Everything that the list holds, or would load, comes from these strings. -/
structure DrawnFrom (T : List Str) (l : CachedFileList) : Prop where
  settled : Settled l.disk.file.content
  cache : ∀ x ∈ l.cache, ∃ t ∈ T, Written t x
  file : ∀ x ∈ liveLines l.disk.file.content, ∃ t ∈ T, Written t x

/-- Ending a text with a newline adds at most an empty line. -/
theorem mem_lines_append_newline {str x : Str} (hx : x ∈ lines '\n' (str ++ ['\n'])) :
    x = [] ∨ x ∈ lines '\n' str := by
  obtain ⟨done, hdone, heq⟩ := exists_eq_append_unfinished '\n' str
  have hfree : '\n' ∉ unfinished '\n' str := sep_notMem_unfinished str
  rw [heq, List.append_assoc, lines_append hdone, lines_line_append hfree, lines_nil,
    List.mem_append, List.mem_singleton] at hx
  rw [heq, lines_append hdone, List.mem_append]
  rcases hx with hx | rfl
  · exact .inr (.inl hx)
  · by_cases hnil : unfinished '\n' str = []
    · exact .inl hnil
    · refine .inr (.inr ?_)
      rw [lines_of_sep_notMem hfree hnil]
      exact List.mem_singleton_self _

/-- What continues a dead line does not come alive. -/
theorem isLive_append_of_dead {dead str : Str} (hdead : isLive dead = false)
    (hlive : isLive (dead ++ str)) : dead = [] := by
  cases dead with
  | nil => rfl
  | cons c tl =>
      have hc : isLive (c :: tl ++ str) = isLive (c :: tl) := rfl
      rw [hc, hdead] at hlive
      exact absurd hlive Bool.false_ne_true

/-- The live lines of a string that is written behind a dead one are lines of the string. -/
theorem written_of_continued {dead str x : Str} (hfree : '\n' ∉ dead)
    (hdead : isLive dead = false)
    (hx : x ∈ lines '\n' (dead ++ str ++ ['\n'])) (hlive : isLive x) : Written str x := by
  by_cases hsep : '\n' ∈ str
  · obtain ⟨line, rest, rfl, hline⟩ := List.eq_append_cons_of_mem hsep
    have hfirst : '\n' ∉ dead ++ line := by
      rw [List.mem_append, not_or]
      exact ⟨hfree, hline⟩
    have heq : dead ++ (line ++ '\n' :: rest) ++ ['\n'] =
        (dead ++ line) ++ '\n' :: (rest ++ ['\n']) := by
      simp only [List.append_assoc, List.cons_append]
    rw [heq, lines_line_append hfirst, List.mem_cons] at hx
    refine .inr ?_
    rw [lines_line_append hline, List.mem_cons]
    rcases hx with rfl | hx
    · left
      rw [isLive_append_of_dead hdead hlive, List.nil_append]
    · right
      exact (mem_lines_append_newline hx).resolve_left (isLive_iff.mp hlive).1
  · have hfirst : '\n' ∉ dead ++ str := by
      rw [List.mem_append, not_or]
      exact ⟨hfree, hsep⟩
    rw [lines_line_append hfirst, lines_nil, List.mem_singleton] at hx
    subst hx
    left
    rw [isLive_append_of_dead hdead hlive, List.nil_append]

section

variable {T : List Str} {l : CachedFileList} (h : DrawnFrom T l)
include h

theorem DrawnFrom.add {str : Str} (hstr : str ∈ T) : DrawnFrom T (l.add str true) := by
  have hsettled := h.settled.call (.add str)
  by_cases hmem : str ∈ l.cache
  · rwa [CachedFileList.add_of_mem hmem]
  refine ⟨hsettled, ?_, ?_⟩
  · intro x hx
    rcases CachedFileList.mem_cache_add.mp hx with rfl | hx
    · exact ⟨x, hstr, .inl rfl⟩
    · exact h.cache x hx
  · intro x hx
    have hfile : (l.add str true).disk.file.content = l.disk.file.content ++ str ++ ['\n'] := by
      rw [CachedFileList.add_of_notMem hmem]
      rfl
    rw [hfile, h.settled.liveLines_append, List.mem_append, List.mem_filter] at hx
    rcases hx with hx | ⟨hx, hlive⟩
    · exact h.file x hx
    · exact ⟨str, hstr, written_of_continued (sep_notMem_unfinished _) h.settled hx hlive⟩

/-- Removing takes lines away, be it the wrong ones. -/
theorem DrawnFrom.remove (str : Str) : DrawnFrom T (l.remove str true) := by
  have hsettled := h.settled.call (.remove str)
  by_cases hmem : str ∈ l.cache
  swap
  · rwa [CachedFileList.remove_of_notMem hmem]
  cases hfile : l.disk.file with
  | none => rwa [CachedFileList.remove_of_absent hfile]
  | some content =>
      have hremoved := CachedFileList.remove_of_mem hmem hfile
      refine ⟨hsettled, ?_, ?_⟩
      · intro x hx
        rw [hremoved] at hx
        exact h.cache x (Finset.mem_of_mem_erase hx)
      · intro x hx
        rw [hremoved, FileState.content_some] at hx
        refine h.file x ?_
        have hset := h.settled
        rw [hfile, FileState.content_some] at hset ⊢
        by_cases hstr : str = []
        · subst hstr
          rw [(liveLines_markRemoved_nil content).mem_iff] at hx
          cases hnext : lineAfterEmpty content with
          | none => rwa [hnext] at hx
          | some next =>
              rw [hnext] at hx
              exact List.mem_of_mem_erase hx
        · rw [hset.liveLines_markRemoved hstr] at hx
          exact List.mem_of_mem_erase hx

theorem DrawnFrom.compactFile : DrawnFrom T (l.compactFile true true) := by
  cases hfile : l.disk.file with
  | none => rwa [CachedFileList.compactFile, hfile]
  | some content =>
      rw [CachedFileList.compactFile_of_present hfile]
      refine ⟨?_, h.cache, ?_⟩
      · show isLive (unfinished '\n' (compacted content)) = false
        rw [terminated_iff_unfinished.mp (terminated_compacted content)]
        rfl
      · intro x hx
        rw [FileState.content_some, liveLines_compacted] at hx
        refine h.file x ?_
        rwa [hfile]

theorem DrawnFrom.construct : DrawnFrom T (CachedFileList.construct l.disk) := by
  refine ⟨h.settled, ?_, h.file⟩
  intro x hx
  rw [CachedFileList.construct, populateCacheFromFile_eq, List.mem_toFinset] at hx
  exact h.file x hx

end

/-! ## Every answer has a cause -/

/-- The strings that the run hands to `removeAuthentication`. -/
def submitted (es : List (Event Client)) : List Str :=
  es.filterMap fun
    | .removeAuthentication _ token => some token
    | _ => none

omit [DecidableEq Client] in
theorem mem_submitted {es : List (Event Client)} {c : Client} {token : Str}
    (h : .removeAuthentication c token ∈ es) : token ∈ submitted es :=
  List.mem_filterMap.mpr ⟨_, h, rfl⟩

/-- The step hands no other string to `removeAuthentication`. -/
def Submits (T : List Str) (_ : State Client) : Event Client → Prop
  | .removeAuthentication _ token => token ∈ T
  | _ => True

omit [DecidableEq Client] in
theorem submits_of_mem {es : List (Event Client)} {e : Event Client} (he : e ∈ es)
    (s : State Client) : Submits (submitted es) s e := by
  cases e with
  | removeAuthentication c token => exact mem_submitted he
  | tick now | authenticate username password | isAuthenticated c token | findToken c
  | verifyToken c | addToken c | returnRemoval c | getAll result | verifyThenRemove
  | compactFile | restart env => trivial

/-- The answer is right at that time, after these strings have been handed to
`removeAuthentication`. -/
def Answer.HasCause (J : Jwt) (T : List Str) (now : Int) (a : Answer) : Prop :=
  if a.authenticated then
    J.verify a.token now = true ∧ J.username a.token = a.info ∧ a.info.isSome
  else
    a.info = none ∧
      ((∃ t ∈ T, Written t a.token) ∨ J.verify a.token now = false ∨
        J.username a.token = none)

/-- **The invariant.** -/
structure Explained (T : List Str) (s : State Client) : Prop where
  drawn : DrawnFrom T s.blacklist
  removing : ∀ c token, s.clients c = some (.removeAuthentication token) → token ∈ T

omit [DecidableEq Client] in
theorem Explained.hasCause {T : List Str} (h : Explained T s) {a : Answer}
    (ha : AnsweredIn J s a) : a.HasCause J T s.clock := by
  cases ha with
  | blacklisted after hmem => exact ⟨rfl, .inl (h.drawn.cache _ hmem)⟩
  | accepted after hverify hname => exact ⟨hverify, hname, rfl⟩
  | unverified after hverify => exact ⟨rfl, .inr (.inl hverify)⟩
  | unnamed after hname => exact ⟨rfl, .inr (.inr hname)⟩

theorem Explained.step {T : List Str} (h : Explained T s) (he : Submits T s e)
    (hs : step J s e = some s') : Explained T s' := by
  refine ⟨?_, ?_⟩
  · rcases step_blacklist hs with
      heq | ⟨c, token, hc, heq⟩ | ⟨token, -, heq⟩ | heq | heq <;> rw [heq]
    · exact h.drawn
    · exact h.drawn.add (h.removing c token hc)
    · exact h.drawn.remove token
    · exact h.drawn.compactFile
    · exact h.drawn.construct
  · intro c token hc
    rcases step_removing hs hc with hold | rfl
    · exact h.removing c token hold
    · exact he

omit [DecidableEq Client] in
theorem explained_boot (T : List Str) (env : Config) (clock : Int) (temp : FileState) :
    Explained T (State.boot env clock temp : State Client) where
  drawn := ⟨rfl, fun x hx ↦ absurd hx (Finset.notMem_empty x), nofun⟩
  removing := fun _ _ hc ↦ by cases hc

theorem explained_of_run {env : Config} {clock : Int} {temp : FileState}
    {es : List (Event Client)} (hrun : run (step J) (.boot env clock temp) es = some s) :
    Explained (submitted es) s :=
  run_invariant_along (fun _ _ _ h he hs ↦ h.step he hs)
    (explained_boot (submitted es) env clock temp)
    (along_of_forall (fun _ he s ↦ submits_of_mem he s) _) hrun

/-- Each answer was given in one of the steps of the run. -/
theorem exists_answering_step {env : Config} {clock : Int} {temp : FileState}
    {es : List (Event Client)} (hrun : run (step J) (.boot env clock temp) es = some s)
    {a : Answer} {later earlier : List Answer} (ha : s.answers = later ++ a :: earlier) :
    ∃ before e after u t, es = before ++ e :: after ∧
      run (step J) (.boot env clock temp) before = some u ∧ u.answers = earlier ∧
      step J u e = some t ∧ t.answers = a :: earlier ∧ AnsweredIn J u a := by
  have hno : ¬ (a :: earlier) <:+ (State.boot env clock temp : State Client).answers :=
    fun h ↦ List.cons_ne_nil _ _ (List.suffix_nil.mp h)
  obtain ⟨before, e, after, u, t, hes, hbefore, hu, hstep, ht⟩ :=
    exists_step_gained (K := fun s ↦ (a :: earlier) <:+ s.answers) hno ⟨later, ha.symm⟩ hrun
  refine ⟨before, e, after, u, t, hes, hbefore, ?_⟩
  rcases step_answers hstep with hsame | ⟨b, hb, -, hanswered⟩
  · exact absurd (hsame ▸ ht) hu
  rw [hb, List.suffix_cons_iff] at ht
  obtain ⟨rfl, rfl⟩ := List.cons.inj (ht.resolve_right hu)
  exact ⟨rfl, hstep, hb, hanswered⟩

/-- **Every answer has a cause.**  Each answer of a run was given in one of its steps, and it
was right at the time of that step, after what had been submitted until then. -/
theorem answers_have_cause (J : Jwt) (env : Config) (clock : Int) (temp : FileState)
    (es : List (Event Client)) (s : State Client)
    (hrun : run (step J) (.boot env clock temp) es = some s) (a : Answer)
    (later earlier : List Answer) (ha : s.answers = later ++ a :: earlier) :
    ∃ before e after u t, es = before ++ e :: after ∧
      run (step J) (.boot env clock temp) before = some u ∧ u.answers = earlier ∧
      step J u e = some t ∧ t.answers = a :: earlier ∧
      a.HasCause J (submitted before) u.clock := by
  obtain ⟨before, e, after, u, t, hes, hbefore, hu, hstep, ht, hanswered⟩ :=
    exists_answering_step hrun ha
  exact ⟨before, e, after, u, t, hes, hbefore, hu, hstep, ht,
    (explained_of_run hbefore).hasCause hanswered⟩

/-- The run that makes the file forget a token refuses nothing without a cause either. -/
theorem answers_have_cause_emptyToken :
    ∃ s, run (step sampleJwt) (.boot sampleEnv 0 none) emptyTokenRun = some s ∧
      ∃ a, s.answers = [a] ∧
      ∃ before e after u t, emptyTokenRun = before ++ e :: after ∧
        run (step sampleJwt) (.boot sampleEnv 0 none) before = some u ∧ u.answers = [] ∧
        step sampleJwt u e = some t ∧ t.answers = [a] ∧
        a.HasCause sampleJwt (submitted before) u.clock :=
  ⟨_, rfl, _, rfl, answers_have_cause sampleJwt sampleEnv 0 none emptyTokenRun _ rfl _ [] [] rfl⟩

/-! ## A session lasts until it expires -/

/-- The answers that a token of this user gets as long as nobody revokes it. -/
def Answer.Honours (a : Answer) (username : Str) (valid : Prop) : Prop :=
  (valid → a.authenticated = true ∧ a.info = some username) ∧
    (¬ valid → a.authenticated = false ∧ a.info = none)

omit [DecidableEq Client] in
/-- A token that does not come from what was submitted is judged by its times alone. -/
theorem Explained.honours {T : List Str} (h : Explained T s) {a : Answer}
    (ha : AnsweredIn J s a) {username : Str} (hname : J.username a.token = some username)
    (hT : ∀ t ∈ T, ¬ Written t a.token) :
    a.Honours username (J.verify a.token s.clock = true) := by
  cases ha with
  | blacklisted after hmem =>
      obtain ⟨t, ht, hwritten⟩ := h.drawn.cache _ hmem
      exact absurd hwritten (hT t ht)
  | accepted after hverify hname' =>
      obtain rfl := Option.some.inj (hname'.symm.trans hname)
      exact ⟨fun _ ↦ ⟨rfl, rfl⟩, fun hno ↦ absurd hverify hno⟩
  | unverified after hverify =>
      exact ⟨fun hyes ↦ absurd (hverify.symm.trans hyes) Bool.false_ne_true, fun _ ↦ ⟨rfl, rfl⟩⟩
  | unnamed after hname' =>
      rw [hname] at hname'
      cases hname'

/-- **A session lasts until it expires.**  Take a token that `authenticate` mints for a user at
some time, and that has not been submitted to `removeAuthentication`, alone or as a line of a
longer string.  Every call of `isAuthenticated` for it accepts it, and names its user, exactly
when it is answered from that time on and before the expiration is over: whatever else is added,
removed, taken off the blacklist, compacted or lost, and however often the process starts. -/
theorem session_lasts (J : Jwt) (hJ : J.Documented) (env : Config) (clock : Int)
    (temp : FileState) (es : List (Event Client)) (s : State Client)
    (hrun : run (step J) (.boot env clock temp) es = some s) (a : Answer)
    (later earlier : List Answer) (ha : s.answers = later ++ a :: earlier)
    (username : Str) (issued expiration : Int)
    (htoken : a.token = J.mint username issued expiration)
    (hname : J.username a.token = some username)
    (hsubmitted : ∀ t ∈ submitted es, ¬ Written t a.token) :
    ∃ before e after u t, es = before ++ e :: after ∧
      run (step J) (.boot env clock temp) before = some u ∧ u.answers = earlier ∧
      step J u e = some t ∧ t.answers = a :: earlier ∧
      a.Honours username (issued ≤ u.clock ∧ u.clock ≤ issued + expiration) := by
  obtain ⟨before, e, after, u, t, rfl, hbefore, hu, hstep, ht, hanswered⟩ :=
    exists_answering_step hrun ha
  refine ⟨before, e, after, u, t, rfl, hbefore, hu, hstep, ht, ?_⟩
  have hT : ∀ t ∈ submitted before, ¬ Written t a.token := by
    intro t ht
    refine hsubmitted t ?_
    rw [submitted, List.filterMap_append]
    exact List.mem_append_left _ ht
  rw [← hJ.verify_mint username issued expiration u.clock, ← htoken]
  exact (explained_of_run hbefore).honours hanswered hname hT

/-- Others come and go on the blacklist, and the file is damaged; the token is accepted until
it expires. -/
def sessionRun : List (Event Unit) :=
  [.authenticate sampleEnv.username sampleEnv.password,
   .removeAuthentication () [], .addToken (), .returnRemoval (),
   .removeAuthentication () ['x'], .addToken (), .returnRemoval (),
   .getAll [[], ['x']], .verifyThenRemove, .verifyThenRemove, .compactFile,
   .restart sampleEnv, .tick 5,
   .isAuthenticated () sampleToken, .findToken (), .verifyToken (), .tick 6,
   .isAuthenticated () sampleToken, .findToken (), .verifyToken ()]

theorem session_lasts_sample :
    ∃ s, run (step sampleJwt) (.boot sampleEnv 0 none) sessionRun = some s ∧
      ∃ late early : Answer, s.answers = [late, early] ∧ late.authenticated = false ∧
        early.authenticated = true ∧
        ∃ before e after u t, sessionRun = before ++ e :: after ∧
          run (step sampleJwt) (.boot sampleEnv 0 none) before = some u ∧ u.answers = [early] ∧
          step sampleJwt u e = some t ∧ t.answers = [late, early] ∧
          late.Honours sampleEnv.username (0 ≤ u.clock ∧ u.clock ≤ 0 + 5) := by
  have hsubmitted : ∀ t ∈ submitted sessionRun, ¬ Written t sampleToken := by
    simp only [sessionRun, submitted, Written]
    decide
  refine ⟨_, rfl, ⟨sampleToken, false, false, none⟩,
    ⟨sampleToken, false, true, some sampleEnv.username⟩, rfl, rfl, rfl, ?_⟩
  exact session_lasts sampleJwt sampleJwt_documented sampleEnv 0 none sessionRun _ rfl
    ⟨sampleToken, false, false, none⟩ [] [⟨sampleToken, false, true, some sampleEnv.username⟩] rfl
    sampleEnv.username 0 5 rfl rfl hsubmitted

end AsabruCommons.Authentication
