import TinchPp.CtrlMsgDispatcher
import TinchPp.HandshakeGrammar

/-!
# Requests to the port mapper

`epmd_requestor.cpp`, with the grammars of `epmd_protocol.h`. A node registers itself at the port
mapper of its host (EPMD), and asks the port mappers for the ports of other nodes. The answer to a
request is read by a single `read_some` into a buffer that has been filled with zeroes. How much of
the response is there at that time is up to the network. The number of bytes that have been read is
thrown away, and the buffer is parsed to the end of the number in any case.

So a response that is cut in front of its result code is taken for a success, and one that is cut in
its number has zeroes in it.

## Main results

* `Request.perform_of_buffer` — what a request makes of the first bytes in the buffer
* `Request.readsWhole_iff` — the parts of a response from which no number is made up
-/

namespace TinchPp

open Wire

namespace Epmd

/-! ### The protocol -/

/-- A hidden node, which speaks the protocol of R6B and later. -/
def alive2Req (nodeName : Str) (port : Int32) : MsgSeq :=
  bigWordG (13 + nodeName.length) ++ byteG 120 ++ bigWordG port.toUInt32.toNat ++ byteG 72 ++
    byteG 0 ++ bigWordG 5 ++ bigWordG 5 ++ bigWordG nodeName.length ++ nodeName ++ bigWordG 0

def portPlease2Req (peerNode : Str) : MsgSeq :=
  bigWordG (1 + peerNode.length) ++ byteG 122 ++ peerNode

structure Alive2RespResult where
  result : Int32
  creation : UInt16
deriving DecidableEq, Repr

namespace Alive2RespResult

def init : Alive2RespResult := ⟨0, 0⟩

end Alive2RespResult

def alive2Resp : Qi Alive2RespResult :=
  seq (lit 121) <|
  seq (assign byte 0 fun n a => { a with result := n.toUInt32.toInt32 }) <|
  field Alive2RespResult.creation (fun n a => { a with creation := n }) bigWord

def port2RespResult : Qi Int32 := seq (lit 119) (assign byte 0 fun n _ => n.toUInt32.toInt32)

/-- The second step of parsing: there is more behind the port number, which is ignored. -/
def port2RespPort : Qi Int32 :=
  seq (omit_ port2RespResult 1) (assign bigWord 0 fun n _ => n.toUInt32.toInt32)

/-! ### The requestor -/

/-- The port mapper at the other end of a socket. It is sent a request: `none` if that fails, and
otherwise the bytes that are there when the response is read, or `none` if that fails. -/
abbrev Daemon := MsgSeq → Option (Option MsgSeq)

/-- `read_some`, into a buffer of zeroes. -/
def readSome (size : ℕ) (available : MsgSeq) : MsgSeq :=
  available.take size ++ List.replicate (size - available.length) 0

def parseFailure : Str := bytesOf "Parse failure!"

def receiveAliveResponse : Option MsgSeq → Except Str Int32
  | none => .error (bytesOf "Failed to read ALIVE2_RESP from EPMD")
  | some available =>
    match parse (readSome 16 available) alive2Resp .init with
    | none => .error parseFailure
    | some response =>
      if response.result ≠ 0 then
        .error (bytesOf "Failed to register node at EPMD, result = " ++ decimal response.result)
      else .ok response.creation.toUInt32.toInt32

def receivePortResp (peerNode : Str) : Option MsgSeq → Except Str Int32
  | none => .error (bytesOf "Failed to read PORT2_RESP from EPMD")
  | some available =>
    match parse (readSome 128 available) port2RespResult 1 with
    | none => .error parseFailure
    | some result =>
      if result ≠ 0 then
        .error (bytesOf "EPMD denies the port number for the node = " ++ peerNode ++
          bytesOf ". Connection aborted.")
      else
        match parse (readSome 128 available) port2RespPort 0 with
        | none => .error parseFailure
        | some port => .ok port

/-- Send a request, and receive its response. -/
def exchange (epmd : Daemon) (epmdMsg : MsgSeq) (receive : Option MsgSeq → Except Str Int32) :
    Except Str Int32 :=
  match epmd epmdMsg with
  | none => .error (bytesOf "Write failure to EPMD: ")
  | some response => receive response

def alive2Request (epmd : Daemon) (nodeName : Str) (incomingConnections : Int32) :
    Except Str Int32 :=
  exchange epmd (alive2Req nodeName incomingConnections) receiveAliveResponse

def portPlease2Request (epmd : Daemon) (peerNode : Str) : Except Str Int32 :=
  exchange epmd (portPlease2Req peerNode) (receivePortResp peerNode)

/-! ### Requests and responses -/

inductive Request
  | alive2 (nodeName : Str) (incomingConnections : Int32)
  | portPlease2 (peerNode : Str)
deriving DecidableEq, Repr

/-- What a response carries: a result, a creation or a port number, and, behind a port number, more
about the node. -/
structure Response where
  result : UInt8
  number : UInt16
  more : MsgSeq
deriving DecidableEq, Repr

namespace Request

def bytes : Request → MsgSeq
  | alive2 nodeName incomingConnections => alive2Req nodeName incomingConnections
  | portPlease2 peerNode => portPlease2Req peerNode

def perform (epmd : Daemon) : Request → Except Str Int32
  | alive2 nodeName incomingConnections => alive2Request epmd nodeName incomingConnections
  | portPlease2 peerNode => portPlease2Request epmd peerNode

def responseTag : Request → UInt8
  | alive2 _ _ => 121
  | portPlease2 _ => 119

/-- What comes behind the result. A port is told only if the result is zero. -/
def responseTail (response : Response) : Request → MsgSeq
  | alive2 _ _ => bigWordG response.number.toNat
  | portPlease2 _ =>
    if response.result = 0 then bigWordG response.number.toNat ++ response.more else []

/-- The complete response. -/
def responseBytes (r : Request) (response : Response) : MsgSeq :=
  r.responseTag :: response.result :: r.responseTail response

/-- When all that is there of the response is `received`, a number is returned only if it is the one
that a response with the result zero carries, and none of its bytes are missing. Otherwise there is
an exception. -/
def ReadsWhole (r : Request) (response : Response) (received : MsgSeq) : Prop :=
  ∀ epmd : Daemon, epmd r.bytes = some (some received) → ∀ n, r.perform epmd = .ok n →
    response.result = 0 ∧ n = response.number.toUInt32.toInt32 ∧ 4 ≤ received.length

/-! ### What is in the buffer -/

/-- The size of the buffer. -/
def bufferSize : Request → ℕ
  | alive2 _ _ => 16
  | portPlease2 _ => 128

theorem toInt32_eq_zero_iff (n : UInt8) : n.toUInt32.toInt32 = 0 ↔ n = 0 := by
  constructor
  · intro h
    have hword : n.toUInt32.toNat = 0 := by
      rw [← UInt32.toUInt32_toInt32 n.toUInt32, h]
      rfl
    rw [UInt8.toNat_toUInt32] at hword
    exact UInt8.toNat_inj.mp hword
  · rintro rfl
    rfl

/-- **The first bytes in the buffer decide**, wherever they come from. -/
theorem perform_of_buffer (r : Request) {epmd : Daemon} {received rest : MsgSeq}
    {result b₁ b₀ : UInt8} (hepmd : epmd r.bytes = some (some received))
    (hbuffer : readSome r.bufferSize received = r.responseTag :: result :: b₁ :: b₀ :: rest) :
    (result = 0 → r.perform epmd = .ok (word b₁ b₀).toUInt32.toInt32) ∧
      (result ≠ 0 → ∃ reason, r.perform epmd = .error reason) := by
  cases r with
  | alive2 nodeName incomingConnections =>
    have hparse : parse (readSome 16 received) alive2Resp .init =
        some ⟨result.toUInt32.toInt32, word b₁ b₀⟩ := by
      rw [show readSome 16 received = _ from hbuffer]
      rfl
    have hperform : (alive2 nodeName incomingConnections).perform epmd =
        receiveAliveResponse (some received) := by
      rw [perform, alive2Request, exchange, show epmd (alive2Req _ _) = _ from hepmd]
    rw [hperform, receiveAliveResponse, hparse]
    dsimp only
    refine ⟨fun h => ?_, fun h => ⟨_, if_pos ((toInt32_eq_zero_iff result).not.mpr h)⟩⟩
    rw [if_neg (not_not_intro ((toInt32_eq_zero_iff result).mpr h))]
  | portPlease2 peerNode =>
    have hbuffer' : readSome 128 received = 119 :: result :: b₁ :: b₀ :: rest := hbuffer
    have hresult : parse (readSome 128 received) port2RespResult 1 =
        some result.toUInt32.toInt32 := by
      rw [hbuffer']
      rfl
    have hport : parse (readSome 128 received) port2RespPort 0 =
        some (word b₁ b₀).toUInt32.toInt32 := by
      rw [hbuffer']
      rfl
    have hperform : (portPlease2 peerNode).perform epmd =
        receivePortResp peerNode (some received) := by
      rw [perform, portPlease2Request, exchange, show epmd (portPlease2Req _) = _ from hepmd]
    rw [hperform, receivePortResp, hresult]
    dsimp only
    refine ⟨fun h => ?_, fun h => ⟨_, if_pos ((toInt32_eq_zero_iff result).not.mpr h)⟩⟩
    rw [if_neg (not_not_intro ((toInt32_eq_zero_iff result).mpr h)), hport]

/-- What has not been read is zero. -/
theorem readSome_cons (r : Request) (w : MsgSeq) :
    ∃ rest, readSome r.bufferSize (r.responseTag :: w) =
      r.responseTag :: w.getD 0 0 :: w.getD 1 0 :: w.getD 2 0 :: rest := by
  rcases w with _ | ⟨result, _ | ⟨b₁, _ | ⟨b₀, w⟩⟩⟩ <;> cases r <;> exact ⟨_, rfl⟩

/-! ### Which parts of a response are read whole -/

variable {r : Request} {response : Response} {w : MsgSeq}

theorem readsWhole_of_ne_zero (h : w.getD 0 0 ≠ 0) :
    r.ReadsWhole response (r.responseTag :: w) := by
  intro epmd hepmd n hn
  obtain ⟨rest, hbuffer⟩ := r.readSome_cons w
  obtain ⟨reason, hraised⟩ := (r.perform_of_buffer hepmd hbuffer).2 h
  rw [hraised] at hn
  cases hn

theorem readsWhole_of_zero (h : w.getD 0 0 = 0) :
    r.ReadsWhole response (r.responseTag :: w) ↔ response.result = 0 ∧
      (word (w.getD 1 0) (w.getD 2 0)).toUInt32.toInt32 = response.number.toUInt32.toInt32 ∧
        4 ≤ (r.responseTag :: w).length := by
  obtain ⟨rest, hbuffer⟩ := r.readSome_cons w
  constructor
  · intro hwhole
    exact hwhole (fun _ => some (some (r.responseTag :: w))) rfl _
      ((r.perform_of_buffer rfl hbuffer).1 h)
  · intro hall epmd hepmd n hn
    rw [(r.perform_of_buffer hepmd hbuffer).1 h] at hn
    obtain rfl := Except.ok.inj hn
    exact hall

/-- A response with the result zero has the number next. -/
theorem responseTail_of_zero (r : Request) (h : response.result = 0) :
    ∃ rest, r.responseTail response = bigWordG response.number.toNat ++ rest := by
  cases r with
  | alive2 nodeName incomingConnections => exact ⟨[], (List.append_nil _).symm⟩
  | portPlease2 peerNode => exact ⟨response.more, if_pos h⟩

/-- **The parts of a response from which no number is made up**: the whole number is there, or the
result is there and it is a failure. -/
theorem readsWhole_iff (r : Request) (response : Response) {received : MsgSeq}
    (hpart : received <+: r.responseBytes response) (hne : received ≠ []) :
    r.ReadsWhole response received ↔
      4 ≤ received.length ∨ 2 ≤ received.length ∧ response.result ≠ 0 := by
  obtain ⟨c, w, rfl⟩ := List.exists_cons_of_ne_nil hne
  obtain ⟨rfl, hw⟩ := List.cons_prefix_cons.mp hpart
  cases w with
  | nil =>
    -- the result code is missing, and is taken for a zero
    rw [readsWhole_of_zero rfl]
    simp
  | cons result w =>
    obtain ⟨rfl, hnumber⟩ := List.cons_prefix_cons.mp hw
    by_cases hresult : response.result = 0
    · rw [readsWhole_of_zero (w := response.result :: w) hresult]
      obtain ⟨rest, htail⟩ := r.responseTail_of_zero hresult
      rw [htail] at hnumber
      constructor
      · rintro ⟨-, -, hlen⟩
        exact .inl hlen
      · rintro (hlen | ⟨-, hfailed⟩)
        · refine ⟨hresult, ?_, hlen⟩
          obtain ⟨b₁, b₀, w, rfl⟩ : ∃ b₁ b₀ w', w = b₁ :: b₀ :: w' := by
            rcases w with _ | ⟨b₁, _ | ⟨b₀, w⟩⟩
            · simp at hlen
            · simp at hlen
            · exact ⟨b₁, b₀, w, rfl⟩
          obtain ⟨rfl, hlow⟩ := List.cons_prefix_cons.mp hnumber
          obtain ⟨rfl, -⟩ := List.cons_prefix_cons.mp hlow
          have hword := word_bytes response.number.toNat_lt
          rw [UInt16.ofNat_toNat] at hword
          exact congrArg (fun n => n.toUInt32.toInt32) hword
        · exact absurd hresult hfailed
    · exact iff_of_true (readsWhole_of_ne_zero hresult) (.inr ⟨by simp, hresult⟩)

/-- The port mapper grants the port 4369, and three bytes of its answer are there: the port is taken
to be 4352. -/
theorem readsWhole_iff_granted :
    ¬ (portPlease2 (bytesOf "b")).ReadsWhole ⟨0, 4369, []⟩ [119, 0, 17] := by
  have hiff := readsWhole_iff (portPlease2 (bytesOf "b")) ⟨0, 4369, []⟩
    (show [119, 0, 17] <+: _ from ⟨[17], by decide⟩) (by decide)
  exact hiff.not.mpr (by decide)

/-- The port mapper refuses to register the node, and one byte of its answer is there: the node goes
on with the creation number zero. -/
theorem not_readsWhole_refused :
    ¬ (alive2 (bytesOf "a") 4000).ReadsWhole ⟨1, 0, []⟩ [121] :=
  (readsWhole_of_zero rfl).not.mpr (by decide)

end Request

end Epmd

end TinchPp
