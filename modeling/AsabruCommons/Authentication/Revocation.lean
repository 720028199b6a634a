import AsabruCommons.Run
import AsabruCommons.Authentication.Durability
import Mathlib.Logic.Function.Basic

/-!
# Revocation: `BasicAuthenticationStrategy`

The strategy mints signed tokens that expire by themselves, and revokes one by
putting it on the blacklist.  A background thread takes tokens off the blacklist
again once they no longer verify, and compacts its file.  Clients, the thread
and restarts of the process interleave freely; every method of the blacklist is
one step.

## What is proved

`revocation_permanent` says that a revoked token is never accepted again, in
every run whose steps are `Orderly`.  The invariant, `Blocked`, is that a
revoked token either has expired for good or is both in memory and on a line of
the file; the file has to be terminated for the second half to survive what is
done to other tokens.

`Orderly` excludes two things the background thread can do.

* Taking the *empty* token off the list.  `removeAuthentication` passes on
  whatever the client supplied, `add` writes the empty string as an empty line,
  and `remove` then overwrites the newline that ends it, so that the line after
  it becomes part of a marked line.  A revoked token is lost this way
  (`revocation_lost`).
* Taking off a token whose issue time is still to come, which can only be one
  that was revoked before it was minted.

`jwt-cpp` is the parameter `Jwt`, with what is assumed of it in
`Jwt.Documented`.
-/

namespace AsabruCommons.Authentication

open Lines Run

/-! ## The state of the process -/

/-- The calls into `jwt-cpp`, for one secret and issuer. -/
structure Jwt where
  /-- `create` … `sign`, for a user name, an issue time and an expiration. -/
  mint : Str → Int → Int → Str
  /-- `decode` and `verify` return without an exception at this time. -/
  verify : Str → Int → Bool
  /-- `get_payload_claim("username").as_string()`, where it does not throw. -/
  username : Str → Option Str

/-- The characters of an encoded token. -/
def IsTokenChar (c : Char) : Prop := c.isAlphanum ∨ c = '-' ∨ c = '_' ∨ c = '.'

instance (c : Char) : Decidable (IsTokenChar c) := inferInstanceAs (Decidable (_ ∨ _))

structure Jwt.Documented (J : Jwt) : Prop where
  verify_mint : ∀ u t d now, J.verify (J.mint u t d) now = true ↔ t ≤ now ∧ now ≤ t + d
  mint_ne_nil : ∀ u t d, J.mint u t d ≠ []
  mint_chars : ∀ u t d, ∀ c ∈ J.mint u t d, IsTokenChar c

/-- What the constructor reads from the environment. -/
structure Config where
  username : Str
  password : Str
  expiration : Int
deriving DecidableEq

/-- Where a client is in its current call.  The flag of an `isAuthenticated`
call records whether some `removeAuthentication` of its token had returned when
it began. -/
inductive Pending where
  | isAuthenticated (token : Str) (afterRevocation : Bool)
  | verifying (token : Str) (afterRevocation : Bool)
  | removeAuthentication (token : Str)
  | added (token : Str)
deriving DecidableEq

/-- A finished `isAuthenticated` call and what it put into the context. -/
structure Answer where
  token : Str
  afterRevocation : Bool
  authenticated : Bool
  info : Option Str
deriving DecidableEq

structure State (Client : Type) where
  env : Config
  clock : Int
  blacklist : CachedFileList
  clients : Client → Option Pending
  /-- The tokens `compactThreadFunction` has still to verify, once it has taken
  its snapshot. -/
  allTokens : Option (List Str)
  /-- History: the tokens minted, the tokens whose revocation has returned, the
  calls of `isAuthenticated` that have returned. -/
  minted : List Str
  revoked : Finset Str
  answers : List Answer

inductive Event (Client : Type) where
  | tick (now : Int)
  | authenticate (username password : Str)
  | isAuthenticated (c : Client) (token : Str)
  | findToken (c : Client)
  | verifyToken (c : Client)
  | removeAuthentication (c : Client) (token : Str)
  | addToken (c : Client)
  | returnRemoval (c : Client)
  | getAll (result : List Str)
  | verifyThenRemove
  | compactFile
  | restart (env : Config)
deriving DecidableEq

variable {Client : Type}

/-- A process started on the disk, with its history. -/
def State.start (env : Config) (clock : Int) (disk : Disk) (minted : List Str)
    (revoked : Finset Str) (answers : List Answer) : State Client where
  env := env
  clock := clock
  blacklist := CachedFileList.construct disk
  clients := fun _ ↦ none
  allTokens := none
  minted := minted
  revoked := revoked
  answers := answers

/-- The first start: there is no blacklist file. -/
def State.boot (env : Config) (clock : Int) (temp : FileState) : State Client :=
  .start env clock ⟨none, temp⟩ [] ∅ []

section

variable [DecidableEq Client]

def State.setClient (s : State Client) (c : Client) (p : Option Pending) : State Client :=
  { s with clients := Function.update s.clients c p }

/-- The end of an `isAuthenticated` call. -/
def State.answer (s : State Client) (c : Client) (a : Answer) : State Client :=
  { s.setClient c none with answers := a :: s.answers }

/-- One step of the process; `none` when the event cannot happen. -/
def step (J : Jwt) (s : State Client) : Event Client → Option (State Client)
  | .tick now => if s.clock ≤ now then some { s with clock := now } else none
  | .authenticate username password =>
      if username = s.env.username ∧ password = s.env.password then
        some { s with minted := J.mint username s.clock s.env.expiration :: s.minted }
      else some s
  | .isAuthenticated c token =>
      match s.clients c with
      | none => some (s.setClient c (some (.isAuthenticated token (token ∈ s.revoked))))
      | some _ => none
  | .findToken c =>
      match s.clients c with
      | some (.isAuthenticated token after) =>
          if s.blacklist.find token then some (s.answer c ⟨token, after, false, none⟩)
          else some (s.setClient c (some (.verifying token after)))
      | _ => none
  | .verifyToken c =>
      match s.clients c with
      | some (.verifying token after) =>
          if J.verify token s.clock then
            -- the context is told `true` before the claim is read as a string
            match J.username token with
            | some username => some (s.answer c ⟨token, after, true, some username⟩)
            | none => some (s.answer c ⟨token, after, false, none⟩)
          else some (s.answer c ⟨token, after, false, none⟩)
      | _ => none
  | .removeAuthentication c token =>
      match s.clients c with
      | none => some (s.setClient c (some (.removeAuthentication token)))
      | some _ => none
  | .addToken c =>
      match s.clients c with
      | some (.removeAuthentication token) =>
          some { s.setClient c (some (.added token)) with blacklist := s.blacklist.add token true }
      | _ => none
  | .returnRemoval c =>
      match s.clients c with
      | some (.added token) => some { s.setClient c none with revoked := insert token s.revoked }
      | _ => none
  | .getAll result =>
      if s.allTokens = none ∧ s.blacklist.GetAll result then
        some { s with allTokens := some result }
      else none
  | .verifyThenRemove =>
      match s.allTokens with
      | some (token :: rest) =>
          if J.verify token s.clock then some { s with allTokens := some rest }
          else some { s with allTokens := some rest, blacklist := s.blacklist.remove token true }
      | _ => none
  | .compactFile =>
      match s.allTokens with
      | some [] => some { s with allTokens := none, blacklist := s.blacklist.compactFile true true }
      | _ => none
  | .restart env =>
      some (.start env s.clock s.blacklist.disk s.minted s.revoked s.answers)

end

/-- No minted token is accepted by a call that began after its revocation. -/
def State.Permanent (s : State Client) : Prop :=
  ∀ a ∈ s.answers, a.afterRevocation = true → a.token ∈ s.minted → a.authenticated = false

instance (s : State Client) : Decidable s.Permanent :=
  inferInstanceAs (Decidable (∀ a ∈ s.answers, _))

/-- The step does not take off the blacklist the empty token, nor a token whose
issue time is still to come. -/
def Orderly (J : Jwt) (s : State Client) : Event Client → Prop
  | .verifyThenRemove => ∀ token rest, s.allTokens = some (token :: rest) →
      token ∈ s.blacklist.cache → J.verify token s.clock = false →
        token ≠ [] ∧ ∀ u t d, token = J.mint u t d → t ≤ s.clock
  | _ => True

/-! ## The blacklist on its own -/

/-- A list whose file is terminated and holds every ordinary line of the memory:
what is needed of it to survive a restart when arbitrary strings are added. -/
structure Backed (l : CachedFileList) : Prop where
  terminated : Terminated '\n' l.disk.file.content
  onFile : ∀ str, Plain str → str ∈ l.cache → str ∈ liveLines l.disk.file.content

theorem backed_construct {disk : Disk} (h : Terminated '\n' disk.file.content) :
    Backed (CachedFileList.construct disk) := by
  refine ⟨h, fun str _ hstr ↦ ?_⟩
  rwa [CachedFileList.construct, populateCacheFromFile_eq, List.mem_toFinset] at hstr

namespace CachedFileList

theorem mem_cache_add {l : CachedFileList} {str x : Str} :
    x ∈ (l.add str true).cache ↔ x = str ∨ x ∈ l.cache := by
  by_cases h : str ∈ l.cache
  · rw [add_of_mem h]
    exact ⟨Or.inr, fun hx ↦ hx.elim (fun e ↦ e ▸ h) id⟩
  · rw [add_of_notMem h]
    exact Finset.mem_insert

theorem mem_cache_remove_of_ne {l : CachedFileList} {str x : Str} (hx : x ∈ l.cache)
    (hne : x ≠ str) : x ∈ (l.remove str true).cache := by
  by_cases hmem : str ∈ l.cache
  · cases hfile : l.disk.file with
    | none => rwa [remove_of_absent hfile]
    | some content =>
        rw [remove_of_mem hmem hfile]
        exact Finset.mem_erase.mpr ⟨hne, hx⟩
  · rwa [remove_of_notMem hmem]

@[simp] theorem cache_compactFile (l : CachedFileList) (inOpens tempOpens : Bool) :
    (l.compactFile inOpens tempOpens).cache = l.cache := by
  unfold compactFile
  split
  · rfl
  · cases inOpens <;> cases tempOpens <;> rfl

end CachedFileList

section

variable {l : CachedFileList} (h : Backed l)
include h

/-- Any string may be added: the lines that were there stay. -/
theorem Backed.add (str : Str) : Backed (l.add str true) := by
  by_cases hmem : str ∈ l.cache
  · rwa [CachedFileList.add_of_mem hmem]
  have hfile : (l.add str true).disk.file.content = l.disk.file.content ++ str ++ ['\n'] := by
    rw [CachedFileList.add_of_notMem hmem]
    rfl
  refine ⟨hfile ▸ terminated_append_newline str, fun x hx hxmem ↦ ?_⟩
  rw [hfile, mem_liveLines]
  refine ⟨?_, hx.isLive⟩
  rcases CachedFileList.mem_cache_add.mp hxmem with rfl | hxmem
  · rw [lines_append_line h.terminated hx.no_newline]
    exact List.mem_append_right _ (List.mem_singleton_self x)
  · exact (lines_prefix_append h.terminated str).subset
      (mem_liveLines.mp (h.onFile x hx hxmem)).1

/-- Any string but the empty one may be removed: only lines equal to it change. -/
theorem Backed.remove {str : Str} (hne : str ≠ []) : Backed (l.remove str true) := by
  by_cases hmem : str ∈ l.cache
  swap
  · rwa [CachedFileList.remove_of_notMem hmem]
  cases hfile : l.disk.file with
  | none => rwa [CachedFileList.remove_of_absent hfile]
  | some content =>
      rw [CachedFileList.remove_of_mem hmem hfile]
      obtain ⟨hterm, honFile⟩ := h
      rw [hfile, FileState.content_some] at hterm honFile
      obtain ⟨c, tl, rfl⟩ := List.exists_cons_of_ne_nil hne
      rcases markRemoved_cases hterm with ⟨-, hsame⟩ | ⟨pre, post, hls, -, hmark, hterm'⟩
      · rw [hsame]
        exact ⟨hterm, fun x hx hxmem ↦ honFile x hx (Finset.mem_of_mem_erase hxmem)⟩
      · refine ⟨hterm', fun x hx hxmem ↦ ?_⟩
        have hxl := (mem_liveLines.mp (honFile x hx (Finset.mem_of_mem_erase hxmem))).1
        refine mem_liveLines.mpr ⟨?_, hx.isLive⟩
        rw [hls, List.mem_append, List.mem_cons] at hxl
        rw [FileState.content_some, hmark, List.mem_append, List.mem_cons]
        rcases hxl with hxl | hxl | hxl
        · exact .inl hxl
        · exact absurd hxl (Finset.ne_of_mem_erase hxmem)
        · exact .inr (.inr hxl)

theorem Backed.compactFile : Backed (l.compactFile true true) := by
  cases hfile : l.disk.file with
  | none => rwa [CachedFileList.compactFile, hfile]
  | some content =>
      have honFile := h.onFile
      rw [hfile, FileState.content_some] at honFile
      rw [CachedFileList.compactFile_of_present hfile]
      refine ⟨terminated_compacted content, fun x hx hxmem ↦ ?_⟩
      rw [FileState.content_some, liveLines_compacted]
      exact honFile x hx hxmem

/-- A restart loses no ordinary line. -/
theorem Backed.mem_construct {str : Str} (hstr : Plain str) (hmem : str ∈ l.cache) :
    str ∈ (CachedFileList.construct l.disk).cache := by
  rw [CachedFileList.construct, populateCacheFromFile_eq, List.mem_toFinset]
  exact h.onFile str hstr hmem

end

/-! ## The invariant -/

/-- The string can be the token of some `authenticate`. -/
def Issuable (J : Jwt) (token : Str) : Prop := ∃ u t d, token = J.mint u t d

/-- The token will not verify any more. -/
def Expired (J : Jwt) (now : Int) (token : Str) : Prop :=
  ∀ later, now ≤ later → J.verify token later = false

/-- What keeps a revoked token from being accepted. -/
def Blocked (J : Jwt) (s : State Client) (token : Str) : Prop :=
  Expired J s.clock token ∨ token ∈ s.blacklist.cache

theorem Expired.mono {J : Jwt} {now later : Int} {token : Str} (h : Expired J now token)
    (hle : now ≤ later) : Expired J later token := fun _ h' ↦ h _ (le_trans hle h')

theorem Jwt.Documented.plain {J : Jwt} (hJ : J.Documented) {token : Str} (h : Issuable J token) :
    Plain token := by
  obtain ⟨u, t, d, rfl⟩ := h
  have hnot : ∀ c, ¬ IsTokenChar c → c ∉ J.mint u t d := fun c hc hmem ↦
    hc (hJ.mint_chars u t d c hmem)
  refine ⟨hJ.mint_ne_nil u t d, hnot '\n' (by decide), fun hmark ↦ ?_⟩
  obtain ⟨c, tl, hct⟩ := List.exists_cons_of_ne_nil (hJ.mint_ne_nil u t d)
  rw [hct] at hmark
  refine hnot tombstone (by decide) ?_
  rw [hct, ← hmark]
  exact List.mem_cons_self

/-- A token that was issued and does not verify now never will again. -/
theorem Jwt.Documented.expired {J : Jwt} (hJ : J.Documented) {now : Int} {token : Str}
    (htoken : Issuable J token) (hissued : ∀ u t d, token = J.mint u t d → t ≤ now)
    (hverify : J.verify token now = false) : Expired J now token := by
  obtain ⟨u, t, d, rfl⟩ := htoken
  intro later hle
  have ht := hissued u t d rfl
  have hend : ¬ now ≤ t + d := fun hnow ↦ by
    rw [(hJ.verify_mint u t d now).mpr ⟨ht, hnow⟩] at hverify
    cases hverify
  rw [Bool.eq_false_iff, ne_eq, hJ.verify_mint]
  omega

/-- What is known of a client in the middle of a call. -/
def PendingOk (J : Jwt) (s : State Client) : Pending → Prop
  | .isAuthenticated token after => after = true → token ∈ s.revoked
  | .verifying token after => after = true → Issuable J token → Expired J s.clock token
  | .removeAuthentication _ => True
  | .added token => Issuable J token → Blocked J s token

def AnswerOk (J : Jwt) (a : Answer) : Prop :=
  a.afterRevocation = true → Issuable J a.token → a.authenticated = false

/-- **The invariant.** -/
structure Guarded (J : Jwt) (s : State Client) : Prop where
  backed : Backed s.blacklist
  revoked : ∀ token ∈ s.revoked, Issuable J token → Blocked J s token
  clients : ∀ c p, s.clients c = some p → PendingOk J s p
  answers : ∀ a ∈ s.answers, AnswerOk J a
  minted : ∀ token ∈ s.minted, Issuable J token

section

variable {J : Jwt} {s : State Client}

/-- The invariant survives whatever leaves the calls and the history alone, lets
time pass and takes no unexpired token off the blacklist. -/
theorem Guarded.advance (h : Guarded J s) {s' : State Client} (hclock : s.clock ≤ s'.clock)
    (hbacked : Backed s'.blacklist)
    (hcache : ∀ token ∈ s.blacklist.cache, Issuable J token → Blocked J s' token)
    (hclients : ∀ c p, s'.clients c = some p → s.clients c = some p)
    (hrevoked : s'.revoked = s.revoked) (hanswers : s'.answers = s.answers)
    (hminted : ∀ token ∈ s'.minted, Issuable J token) : Guarded J s' := by
  have hblocked : ∀ token, Issuable J token → Blocked J s token → Blocked J s' token := by
    rintro token htoken (hexp | hmem)
    · exact .inl (hexp.mono hclock)
    · exact hcache token hmem htoken
  refine ⟨hbacked, ?_, ?_, hanswers ▸ h.answers, hminted⟩
  · rw [hrevoked]
    exact fun token hmem htoken ↦ hblocked token htoken (h.revoked token hmem htoken)
  · intro c p hp
    have hok := h.clients c p (hclients c p hp)
    cases p with
    | isAuthenticated token after =>
        intro hafter
        rw [hrevoked]
        exact hok hafter
    | verifying token after => exact fun hafter htoken ↦ (hok hafter htoken).mono hclock
    | removeAuthentication token => trivial
    | added token => exact fun htoken ↦ hblocked token htoken (hok htoken)

/-- In particular it survives what does not touch the blacklist either. -/
theorem Guarded.keep (h : Guarded J s) {s' : State Client} (hclock : s.clock ≤ s'.clock)
    (hblacklist : s'.blacklist = s.blacklist) (hclients : s'.clients = s.clients)
    (hrevoked : s'.revoked = s.revoked) (hanswers : s'.answers = s.answers)
    (hminted : ∀ token ∈ s'.minted, Issuable J token) : Guarded J s' :=
  h.advance hclock (hblacklist ▸ h.backed) (fun _ hx _ ↦ .inr (hblacklist ▸ hx))
    (fun _ _ hp ↦ hclients ▸ hp) hrevoked hanswers hminted

theorem guarded_boot (J : Jwt) (env : Config) (clock : Int) (temp : FileState) :
    Guarded J (State.boot env clock temp : State Client) where
  backed := backed_construct terminated_nil
  revoked := fun _ h ↦ absurd h (Finset.notMem_empty _)
  clients := fun _ _ h ↦ by cases h
  answers := fun _ h ↦ by cases h
  minted := fun _ h ↦ by cases h

theorem Guarded.permanent (h : Guarded J s) : s.Permanent := fun a ha hafter hmem ↦
  h.answers a ha hafter (h.minted a.token hmem)

/-! ## One step -/

/-- The background thread takes an entry off the blacklist. -/
theorem Guarded.verifyThenRemove (hJ : J.Documented) (h : Guarded J s) {token : Str}
    {rest : List Str} (htokens : s.allTokens = some (token :: rest))
    (ho : Orderly J s .verifyThenRemove) (hv : J.verify token s.clock = false) :
    Guarded J { s with allTokens := some rest, blacklist := s.blacklist.remove token true } := by
  by_cases hmem : token ∈ s.blacklist.cache
  · obtain ⟨hne, hissued⟩ := ho token rest htokens hmem hv
    refine h.advance le_rfl (h.backed.remove hne) (fun x hx hxtoken ↦ ?_)
      (fun _ _ hp ↦ hp) rfl rfl h.minted
    by_cases hx' : x = token
    · subst hx'
      exact .inl (hJ.expired hxtoken hissued hv)
    · exact .inr (CachedFileList.mem_cache_remove_of_ne hx hx')
  · rw [CachedFileList.remove_of_notMem hmem]
    exact h.keep le_rfl rfl rfl rfl rfl h.minted

variable [DecidableEq Client]

theorem Guarded.setClient (h : Guarded J s) (c : Client) {p : Option Pending}
    (hp : ∀ q, p = some q → PendingOk J s q) : Guarded J (s.setClient c p) := by
  refine ⟨h.backed, h.revoked, fun c' q hq ↦ ?_, h.answers, h.minted⟩
  by_cases hc : c' = c
  · subst hc
    exact hp q (by simpa [State.setClient] using hq)
  · exact h.clients c' q (by simpa [State.setClient, hc] using hq)

theorem Guarded.answer (h : Guarded J s) (c : Client) {a : Answer} (ha : AnswerOk J a) :
    Guarded J (s.answer c a) := by
  have hs := h.setClient c (p := none) (fun q hq ↦ by cases hq)
  refine ⟨hs.backed, hs.revoked, hs.clients, fun b hb ↦ ?_, hs.minted⟩
  rcases List.mem_cons.mp hb with rfl | hb
  · exact ha
  · exact h.answers b hb

/-- A token that is not on the blacklist and whose revocation has returned must
have expired. -/
theorem Guarded.findToken (h : Guarded J s) {c : Client} {token : Str} {after : Bool}
    (hc : s.clients c = some (.isAuthenticated token after))
    (hfind : ¬ s.blacklist.find token = true) :
    Guarded J (s.setClient c (some (.verifying token after))) := by
  have hok : after = true → token ∈ s.revoked := h.clients c _ hc
  refine h.setClient c fun q hq ↦ ?_
  cases hq
  intro hafter htoken
  rcases h.revoked token (hok hafter) htoken with hexp | hmem
  · exact hexp
  · exact absurd (decide_eq_true hmem) hfind

/-- A token that verifies has not expired. -/
theorem Guarded.verifyToken (h : Guarded J s) {c : Client} {token : Str} {after : Bool}
    (hc : s.clients c = some (.verifying token after)) (hverify : J.verify token s.clock = true)
    (info : Option Str) : Guarded J (s.answer c ⟨token, after, true, info⟩) := by
  have hok : after = true → Issuable J token → Expired J s.clock token := h.clients c _ hc
  refine h.answer c fun hafter htoken ↦ ?_
  rw [hok hafter htoken s.clock le_rfl] at hverify
  cases hverify

/-- The blacklist only grows, and the token is on it from now on. -/
theorem Guarded.addToken (h : Guarded J s) (c : Client) (token : Str) :
    Guarded J { s.setClient c (some (.added token)) with
      blacklist := s.blacklist.add token true } := by
  have hadd : Guarded J { s with blacklist := s.blacklist.add token true } :=
    h.advance le_rfl (h.backed.add token)
      (fun _ hx _ ↦ .inr (CachedFileList.mem_cache_add.mpr (.inr hx)))
      (fun _ _ hp ↦ hp) rfl rfl h.minted
  refine hadd.setClient c fun q hq ↦ ?_
  cases hq
  exact fun _ ↦ .inr (CachedFileList.mem_cache_add.mpr (.inl rfl))

/-- A revocation that returns has put its token on the blacklist. -/
theorem Guarded.returnRemoval (h : Guarded J s) {c : Client} {token : Str}
    (hc : s.clients c = some (.added token)) :
    Guarded J { s.setClient c none with revoked := insert token s.revoked } := by
  have hok : Issuable J token → Blocked J s token := h.clients c _ hc
  have hset := h.setClient c (p := none) (fun q hq ↦ by cases hq)
  refine ⟨hset.backed, fun x hx hxtoken ↦ ?_, fun c' p hp ↦ ?_, hset.answers, hset.minted⟩
  · rcases Finset.mem_insert.mp hx with rfl | hx
    · exact hok hxtoken
    · exact h.revoked x hx hxtoken
  · have hp' := hset.clients c' p hp
    cases p with
    | isAuthenticated x after => exact fun hafter ↦ Finset.mem_insert_of_mem (hp' hafter)
    | verifying x after => exact hp'
    | removeAuthentication x => trivial
    | added x => exact hp'

/-- What one orderly step preserves. -/
theorem Guarded.step (hJ : J.Documented) {e : Event Client} {s' : State Client}
    (h : Guarded J s) (ho : Orderly J s e) (hs : step J s e = some s') : Guarded J s' := by
  cases e with
  | tick now =>
      simp only [Authentication.step] at hs
      split at hs
      · rename_i hle
        cases hs
        exact h.keep hle rfl rfl rfl rfl h.minted
      · cases hs
  | authenticate username password =>
      simp only [Authentication.step] at hs
      split at hs
      · cases hs
        refine h.keep le_rfl rfl rfl rfl rfl ?_
        intro token htoken
        rcases List.mem_cons.mp htoken with rfl | htoken
        · exact ⟨_, _, _, rfl⟩
        · exact h.minted token htoken
      · cases hs
        exact h
  | isAuthenticated c token =>
      simp only [Authentication.step] at hs
      split at hs
      · cases hs
        refine h.setClient c fun q hq ↦ ?_
        cases hq
        exact fun hafter ↦ of_decide_eq_true hafter
      · cases hs
  | findToken c =>
      simp only [Authentication.step] at hs
      split at hs
      · rename_i token after hc
        split at hs
        · cases hs
          exact h.answer c fun _ _ ↦ rfl
        · rename_i hfind
          cases hs
          exact h.findToken hc hfind
      · cases hs
  | verifyToken c =>
      simp only [Authentication.step] at hs
      split at hs
      · rename_i token after hc
        split at hs
        · rename_i hverify
          split at hs
          · cases hs
            exact h.verifyToken hc hverify _
          · cases hs
            exact h.answer c fun _ _ ↦ rfl
        · cases hs
          exact h.answer c fun _ _ ↦ rfl
      · cases hs
  | removeAuthentication c token =>
      simp only [Authentication.step] at hs
      split at hs
      · cases hs
        refine h.setClient c fun q hq ↦ ?_
        cases hq
        trivial
      · cases hs
  | addToken c =>
      simp only [Authentication.step] at hs
      split at hs
      · rename_i token hc
        cases hs
        exact h.addToken c token
      · cases hs
  | returnRemoval c =>
      simp only [Authentication.step] at hs
      split at hs
      · rename_i token hc
        cases hs
        exact h.returnRemoval hc
      · cases hs
  | getAll result =>
      simp only [Authentication.step] at hs
      split at hs
      · cases hs
        exact h.keep le_rfl rfl rfl rfl rfl h.minted
      · cases hs
  | verifyThenRemove =>
      simp only [Authentication.step] at hs
      split at hs
      · rename_i token rest htokens
        split at hs
        · cases hs
          exact h.keep le_rfl rfl rfl rfl rfl h.minted
        · rename_i hv
          cases hs
          exact h.verifyThenRemove hJ htokens ho (Bool.eq_false_iff.mpr hv)
      · cases hs
  | compactFile =>
      simp only [Authentication.step] at hs
      split at hs
      · cases hs
        exact h.advance le_rfl h.backed.compactFile
          (fun _ hx _ ↦ .inr (by rwa [CachedFileList.cache_compactFile]))
          (fun _ _ hp ↦ hp) rfl rfl h.minted
      · cases hs
  | restart env =>
      cases hs
      exact h.advance le_rfl (backed_construct h.backed.terminated)
        (fun _ hx hxtoken ↦ .inr (h.backed.mem_construct (hJ.plain hxtoken) hx))
        (fun _ _ hp ↦ by cases hp) rfl rfl h.minted

/-! ## Every run -/

/-- **Revocation is permanent** in every run of orderly steps that starts
without a blacklist file. -/
theorem revocation_permanent (J : Jwt) (hJ : J.Documented) (env : Config) (clock : Int)
    (temp : FileState) (es : List (Event Client)) (s : State Client)
    (hrun : run (step J) (.boot env clock temp) es = some s)
    (horderly : Along (step J) (Orderly J) (.boot env clock temp) es) : s.Permanent :=
  (run_invariant_along (fun _ _ _ h ho hs ↦ h.step hJ ho hs) (guarded_boot J env clock temp)
    horderly hrun).permanent

end

/-! ## A sample signature scheme

A token spells out its issue time and its last second of validity, each in
unary after a sign. -/

def encodeTime (t : Int) : Str := (if 0 ≤ t then 'p' else 'n') :: List.replicate t.natAbs 'a'

def decodeTime : Str → Option Int
  | 'p' :: digits => some digits.length
  | 'n' :: digits => some (-digits.length)
  | _ => none

theorem decodeTime_encodeTime (t : Int) : decodeTime (encodeTime t) = some t := by
  unfold encodeTime
  split
  · simp only [decodeTime, List.length_replicate, Option.some.injEq]
    omega
  · simp only [decodeTime, List.length_replicate, Option.some.injEq]
    omega

theorem mem_encodeTime {t : Int} {c : Char} (h : c ∈ encodeTime t) :
    c = 'p' ∨ c = 'n' ∨ c = 'a' := by
  rw [encodeTime, List.mem_cons, List.mem_replicate] at h
  rcases h with h | h
  · split at h
    · exact .inl h
    · exact .inr (.inl h)
  · exact .inr (.inr h.2)

theorem dot_notMem_encodeTime (t : Int) : '.' ∉ encodeTime t := fun h ↦ by
  have := mem_encodeTime h
  revert this
  decide

def sampleJwt : Jwt where
  mint _ t d := encodeTime t ++ '.' :: encodeTime (t + d)
  verify token now :=
    match (lines '.' token).map decodeTime with
    | [some first, some last] => decide (first ≤ now ∧ now ≤ last)
    | _ => false
  username _ := some "admin".toList

theorem sampleJwt_documented : sampleJwt.Documented where
  verify_mint u t d now := by
    have hlines : (lines '.' (sampleJwt.mint u t d)).map decodeTime = [some t, some (t + d)] := by
      change (lines '.' (encodeTime t ++ '.' :: encodeTime (t + d))).map decodeTime = _
      rw [lines_line_append (dot_notMem_encodeTime t),
        lines_of_sep_notMem (dot_notMem_encodeTime (t + d)) (List.cons_ne_nil _ _)]
      simp only [List.map_cons, List.map_nil, decodeTime_encodeTime]
    change (match (lines '.' (sampleJwt.mint u t d)).map decodeTime with
      | [some first, some last] => decide (first ≤ now ∧ now ≤ last)
      | _ => false) = true ↔ _
    rw [hlines]
    exact decide_eq_true_iff
  mint_ne_nil u t d := List.cons_ne_nil _ _
  mint_chars u t d c hc := by
    change c ∈ encodeTime t ++ '.' :: encodeTime (t + d) at hc
    rw [List.mem_append, List.mem_cons] at hc
    rcases hc with hc | rfl | hc
    · rcases mem_encodeTime hc with rfl | rfl | rfl <;> decide
    · decide
    · rcases mem_encodeTime hc with rfl | rfl | rfl <;> decide

def sampleEnv : Config := ⟨"admin".toList, "secret".toList, 5⟩

/-- The token minted at time 0. -/
def sampleToken : Str := sampleJwt.mint sampleEnv.username 0 sampleEnv.expiration

/-- A token is minted, revoked, checked, expires, is taken off the blacklist, and
is checked again after a restart. -/
def orderlyRun : List (Event Unit) :=
  [.authenticate sampleEnv.username sampleEnv.password,
   .removeAuthentication () sampleToken, .addToken (), .returnRemoval (),
   .isAuthenticated () sampleToken, .findToken (),
   .tick 6, .getAll [sampleToken], .verifyThenRemove, .compactFile, .restart sampleEnv,
   .isAuthenticated () sampleToken, .findToken (), .verifyToken ()]

/-- The empty token is revoked before the minted one; when the background thread
takes it off the blacklist, the file loses the minted one. -/
def emptyTokenRun : List (Event Unit) :=
  [.authenticate sampleEnv.username sampleEnv.password,
   .removeAuthentication () [], .addToken (), .returnRemoval (),
   .removeAuthentication () sampleToken, .addToken (), .returnRemoval (),
   .getAll [[], sampleToken], .verifyThenRemove, .verifyThenRemove, .compactFile,
   .restart sampleEnv,
   .isAuthenticated () sampleToken, .findToken (), .verifyToken ()]

theorem revocation_permanent_sample :
    ∃ s, run (step sampleJwt) (.boot sampleEnv 0 none) orderlyRun = some s ∧
      s.answers.length = 2 ∧ s.Permanent := by
  refine ⟨_, rfl, by decide, ?_⟩
  refine revocation_permanent sampleJwt sampleJwt_documented sampleEnv 0 none orderlyRun _ rfl ?_
  have hissued : ∀ u t d, sampleToken = sampleJwt.mint u t d → t ≤ 6 := fun u t d h ↦ by
    have hvalid : sampleJwt.verify (sampleJwt.mint u t d) 0 = true := h ▸ by decide
    have := ((sampleJwt_documented.verify_mint u t d 0).mp hvalid).1
    omega
  unfold orderlyRun
  -- only the step that takes the token off the list is restricted
  iterate 8 refine (along_cons rfl _).mpr ⟨trivial, ?_⟩
  refine (along_cons rfl _).mpr ⟨fun token rest h _ _ ↦ ?_, ?_⟩
  · cases h
    exact ⟨by decide, hissued⟩
  iterate 5 refine (along_cons rfl _).mpr ⟨trivial, ?_⟩
  trivial

/-- **A revoked token is accepted again.** -/
theorem revocation_lost :
    sampleJwt.Documented ∧
      ∃ s, run (step sampleJwt) (.boot sampleEnv 0 none) emptyTokenRun = some s ∧
      ¬ s.Permanent :=
  ⟨sampleJwt_documented, _, rfl, by decide⟩

end AsabruCommons.Authentication
