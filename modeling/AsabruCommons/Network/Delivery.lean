import AsabruCommons.Basic
import AsabruCommons.Run
import Mathlib.Logic.Function.Basic

/-!
# What a send that succeeds has sent

`send` may take fewer bytes than it is given, and says how many it took.
`ProtocolHelper::WriteSocketBuffer` and `TcpClient::sendTcpMessage` ask whether the
answer was an error and nothing else.  When there is an error, `sendTcpMessage` makes
a new connection, on which it sends nothing, and reports success.

The environment decides how many bytes a send takes, whether it fails, and how a new
connection comes about; all of this is in the events of a run.  `sends_iff` says in
which runs every report of success is true.

A connection is named by a number of its own, and what it has accepted is kept when
it is closed.  A descriptor of no connection fails every send.
-/

namespace AsabruCommons.Network

open Run

/-- A descriptor: that of a connection, or of none. -/
abbrev SOCKET := Option Nat

/-- What each connection has accepted so far, and the number that the next one gets. -/
structure Connections where
  accepted : Nat → Str
  next : Nat

/-- The connection accepts some bytes. -/
def Connections.append (net : Connections) (i : Nat) (bytes : Str) : Connections :=
  { net with accepted := Function.update net.accepted i (net.accepted i ++ bytes) }

/-- What `send` does with a buffer of this size. -/
inductive SendResult (size : Nat) where
  | accepts (count : Nat) (count_le : count ≤ size) (count_pos : 0 < size → 0 < count)
  | fails
deriving DecidableEq

/-- `send` returns the number of bytes it took, or -1. -/
def send (net : Connections) (s : SOCKET) (bytes : Str) (r : SendResult bytes.length) :
    Int × Connections :=
  match s, r with
  | none, _ => (-1, net)
  | some _, .fails => (-1, net)
  | some i, .accepts count _ _ => (count, net.append i (bytes.take count))

/-- How an attempt to connect ends: `socket` fails, `Resolve` or `connect` does, or there
is a new connection. -/
inductive Reconnection where
  | noSocket
  | refused (error : Str)
  | connected
deriving DecidableEq

/-- The connections, and the member `s_` of the `TcpClient`. -/
structure World where
  net : Connections
  s_ : SOCKET

namespace ProtocolHelper

def WriteSocketBuffer (net : Connections) (s : SOCKET) (bfr : Str) (r : SendResult bfr.length) :
    Bool × Connections :=
  let (RetVal, net) := send net s bfr r
  if RetVal = 0 ∨ RetVal = -1 then (false, net) else (true, net)

end ProtocolHelper

namespace TcpClient

def Close (w : World) : World := { w with s_ := none }

/-- The new socket is not connected yet. -/
def CreateSocket (w : World) (re : Reconnection) : Except Str Unit × World :=
  match re with
  | .noSocket => (.error "INVALID_SOCKET".toList, { w with s_ := none })
  | .refused _ | .connected => (.ok (), { w with s_ := none })

def Connect (w : World) (re : Reconnection) : Except Str Unit × World :=
  match re with
  | .refused error => (.error error, w)
  | .noSocket | .connected =>
      (.ok (), { net := { w.net with next := w.net.next + 1 }, s_ := some w.net.next })

def Reconnect (w : World) (re : Reconnection) : Except Str Unit × World :=
  match CreateSocket (Close w) re with
  | (.error error, w) => (.error error, w)
  | (.ok _, w) => Connect w re

def sendTcpMessage (w : World) (content : Str) (r : SendResult content.length)
    (re : Reconnection) : Except Str Bool × World :=
  let (bytesSent, net) := send w.net w.s_ content r
  let w := { w with net := net }
  if bytesSent = -1 then
    match Reconnect w re with
    | (.error error, w) => (.error error, w)
    | (.ok _, w) => (.ok true, w)
  else (.ok true, w)

end TcpClient

/-- `NetworkContentWriter::WriteToMedia` -/
def NetworkContentWriter.WriteToMedia (w : World) (content : Str) (r : SendResult content.length)
    (re : Reconnection) : Except Str Bool × World :=
  match TcpClient.sendTcpMessage w content r re with
  | (.error error, w) => (.error error, w)
  | (.ok _, w) => (.ok true, w)

/-- A call, and what the environment does in it. -/
inductive Event where
  /-- A client connects to the server. -/
  | accept
  | writeSocketBuffer (s : Nat) (bfr : Str) (r : SendResult bfr.length)
  | sendTcpMessage (content : Str) (r : SendResult content.length) (re : Reconnection)

/-- The buffers are written to sockets that were connected once. -/
def step (w : World) : Event → Option World
  | .accept => some { w with net := { w.net with next := w.net.next + 1 } }
  | .writeSocketBuffer s bfr r =>
      if s < w.net.next then
        some { w with net := (ProtocolHelper.WriteSocketBuffer w.net (some s) bfr r).2 }
      else none
  | .sendTcpMessage content r re => some (TcpClient.sendTcpMessage w content r re).2

/-- The `TcpClient` after its construction, with its connection. -/
def World.init : World := ⟨⟨fun _ ↦ [], 1⟩, some 0⟩

/-- The bytes, all of them, are what was added, and to this connection alone. -/
def Delivered (before after : Connections) (s : SOCKET) (bytes : Str) : Prop :=
  ∃ i, s = some i ∧ after.accepted = (before.append i bytes).accepted

/-- If the call reports success, its bytes were delivered. -/
def Truthful (w : World) : Event → Prop
  | .accept => True
  | .writeSocketBuffer s bfr r =>
      bfr ≠ [] → (ProtocolHelper.WriteSocketBuffer w.net (some s) bfr r).1 = true →
        Delivered w.net (ProtocolHelper.WriteSocketBuffer w.net (some s) bfr r).2 (some s) bfr
  | .sendTcpMessage content r re =>
      content ≠ [] → (TcpClient.sendTcpMessage w content r re).1 = .ok true →
        Delivered w.net (TcpClient.sendTcpMessage w content r re).2.net
          (TcpClient.sendTcpMessage w content r re).2.s_ content

/-- The send takes all bytes or fails, and if a `sendTcpMessage` fails, so does the
attempt to connect again. -/
def AllOrError (w : World) : Event → Prop
  | .accept => True
  | .writeSocketBuffer _ bfr (.accepts count _ _) => count = bfr.length
  | .writeSocketBuffer _ _ .fails => True
  | .sendTcpMessage content (.accepts count _ _) re =>
      if w.s_.isSome then count = content.length else content ≠ [] → re ≠ .connected
  | .sendTcpMessage content .fails re => content ≠ [] → re ≠ .connected

/-! ## One call -/

theorem append_accepted_self (net : Connections) (i : Nat) (bytes : Str) :
    (net.append i bytes).accepted i = net.accepted i ++ bytes := Function.update_self ..

/-- Of the bytes that were to be sent none is missing exactly if all were taken. -/
theorem delivered_take_iff (net : Connections) (i : Nat) {bytes : Str} {count : Nat}
    (hcount : count ≤ bytes.length) :
    Delivered net (net.append i (bytes.take count)) (some i) bytes ↔ count = bytes.length := by
  constructor
  · rintro ⟨j, hj, heq⟩
    obtain rfl := Option.some.inj hj
    have happ := congrFun heq i
    rw [append_accepted_self, append_accepted_self] at happ
    have hlen := congrArg List.length (List.append_cancel_left happ)
    rwa [List.length_take, Nat.min_eq_left hcount] at hlen
  · rintro rfl
    refine ⟨i, rfl, ?_⟩
    rw [List.take_length]

/-- Nothing was sent. -/
theorem not_delivered_of_same {before after : Connections}
    (h : after.accepted = before.accepted) (s : SOCKET) {bytes : Str} (hne : bytes ≠ []) :
    ¬ Delivered before after s bytes := by
  rintro ⟨i, -, heq⟩
  have happ := congrFun (h.symm.trans heq) i
  rw [append_accepted_self] at happ
  exact hne (List.self_eq_append_right.mp happ)

/-- After an error there is a new connection, or an exception is thrown. -/
theorem sendTcpMessage_of_error {w : World} {content : Str} {r : SendResult content.length}
    (h : send w.net w.s_ content r = (-1, w.net)) (re : Reconnection) :
    ((TcpClient.sendTcpMessage w content r re).1 = .ok true ↔ re = .connected) ∧
      (TcpClient.sendTcpMessage w content r re).2.net.accepted = w.net.accepted := by
  unfold TcpClient.sendTcpMessage
  rw [h]
  cases re with
  | noSocket => exact ⟨iff_of_false nofun nofun, rfl⟩
  | refused error => exact ⟨iff_of_false nofun nofun, rfl⟩
  | connected => exact ⟨iff_of_true rfl rfl, rfl⟩

theorem truthful_of_error_iff {w : World} {content : Str} {r : SendResult content.length}
    (h : send w.net w.s_ content r = (-1, w.net)) (re : Reconnection) :
    Truthful w (.sendTcpMessage content r re) ↔ content ≠ [] → re ≠ .connected := by
  obtain ⟨hret, hsame⟩ := sendTcpMessage_of_error h re
  constructor
  · intro htruth hne hre
    exact not_delivered_of_same hsame _ hne (htruth hne (hret.mpr hre))
  · intro hre hne hok
    exact absurd (hret.mp hok) (hre hne)

theorem truthful_iff (w : World) (e : Event) : Truthful w e ↔ AllOrError w e := by
  cases e with
  | accept => exact Iff.rfl
  | writeSocketBuffer s bfr r =>
      cases r with
      | fails =>
          refine iff_of_true (fun _ htrue ↦ ?_) trivial
          exact absurd htrue Bool.false_ne_true
      | accepts count hle hpos =>
          show (bfr ≠ [] → _ = true → Delivered _ _ _ bfr) ↔ count = bfr.length
          by_cases hne : bfr = []
          · subst hne
            exact iff_of_true (fun h ↦ absurd rfl h) (Nat.le_zero.mp hle)
          have hcount : ¬ ((count : Int) = 0 ∨ (count : Int) = -1) := by
            have := hpos (List.length_pos_iff.mpr hne)
            omega
          have hcall : ProtocolHelper.WriteSocketBuffer w.net (some s) bfr
              (.accepts count hle hpos) = (true, w.net.append s (bfr.take count)) :=
            if_neg hcount
          rw [hcall, ← delivered_take_iff w.net s hle]
          exact ⟨fun h ↦ h hne rfl, fun h _ _ ↦ h⟩
  | sendTcpMessage content r re =>
      cases r with
      | fails =>
          apply truthful_of_error_iff
          cases w.s_ <;> rfl
      | accepts count hle hpos =>
          cases hs : w.s_ with
          | none =>
              rw [AllOrError, hs]
              apply truthful_of_error_iff
              rw [hs]
              rfl
          | some i =>
              rw [AllOrError, hs]
              show _ ↔ count = content.length
              have hcall : TcpClient.sendTcpMessage w content (.accepts count hle hpos) re =
                  (.ok true, ⟨w.net.append i (content.take count), some i⟩) := by
                unfold TcpClient.sendTcpMessage send
                rw [hs]
                exact if_neg (by omega)
              rw [Truthful, hcall]
              by_cases hne : content = []
              · subst hne
                exact iff_of_true (fun h ↦ absurd rfl h) (Nat.le_zero.mp hle)
              · rw [← delivered_take_iff w.net i hle]
                exact ⟨fun h ↦ h hne rfl, fun h _ _ ↦ h⟩

/-- The writer does not look at what `sendTcpMessage` returns, which is `true` unless an
exception passes through both. -/
theorem NetworkContentWriter.WriteToMedia_eq (w : World) (content : Str)
    (r : SendResult content.length) (re : Reconnection) :
    WriteToMedia w content r re = TcpClient.sendTcpMessage w content r re := by
  unfold WriteToMedia TcpClient.sendTcpMessage
  by_cases herror : (send w.net w.s_ content r).1 = -1
  · simp only [if_pos herror]
    rcases TcpClient.Reconnect _ re with ⟨error | _, w'⟩
    · rfl
    · rfl
  · simp only [if_neg herror]

/-! ## Runs -/

/-- **When success means delivery.**  In a run, every call that reports success has
delivered its bytes exactly if no send was cut short and no error was followed by a new
connection. -/
theorem sends_iff (es : List Event) :
    Along step Truthful World.init es ↔ Along step AllOrError World.init es :=
  along_congr (I := fun _ ↦ True) (fun _ _ _ _ _ _ ↦ trivial)
    (fun w e _ _ ↦ truthful_iff w e) trivial (along_true _ es)

/-- The rest of a buffer and the whole of a message are lost: a send that takes one of
two bytes, and one that fails before the connection is made anew. -/
theorem not_truthful :
    ¬ Along step Truthful World.init
        [.accept, .writeSocketBuffer 1 "ab".toList (.accepts 1 (by decide) (by decide))] ∧
      ¬ Along step Truthful World.init
        [.sendTcpMessage "ab".toList (.accepts 1 (by decide) (by decide)) .connected] ∧
      ¬ Along step Truthful World.init [.sendTcpMessage "ab".toList .fails .connected] := by
  refine ⟨fun h ↦ ?_, fun h ↦ ?_, fun h ↦ ?_⟩
  · have htaken : 1 = 2 := (truthful_iff _ _).mp (h.2 _ rfl).1
    exact absurd htaken (by decide)
  · have htaken : 1 = 2 := (truthful_iff _ _).mp h.1
    exact absurd htaken (by decide)
  · exact (truthful_iff _ _).mp h.1 (by decide) rfl

end AsabruCommons.Network
