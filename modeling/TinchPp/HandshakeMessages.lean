import TinchPp.FrameDelivery

/-!
# What the messages of a handshake say

The two ends of a handshake write their messages with one set of grammars and read them with
another one. The length in front of a message is what the lexer goes by; most of the parsers skip
it. All of that fits together as long as the length has not been truncated.

A name message has one version, and the capability flags next to it. Its parser takes it for a
message with a range of versions: the version is the lower end, and the flags, as a signed number,
are the upper one. So whether a node that speaks version 5 is accepted is up to its flags.

## Main results

* `HandshakeMessage.delimited_and_decoded` — a message is cut out of the stream and decoded
* `NodeConnection.accepts_iff` — the name messages that are accepted
* `NodeConnection.decidesByVersion_iff` — the ones for which that is a matter of the version only
-/

namespace TinchPp

open EventSystem Wire

/-! ### Messages on a stream -/

/-- The messages of a handshake, by the attributes of their generators. -/
inductive HandshakeMessage
  | name (name : Str)
  | status (status : Str)
  | challenge (challenge : UInt32) (nodeName : Str)
  | reply (attributes : ChallengeReplyAttributes)
  | ack (digest : MsgSeq)
deriving DecidableEq, Repr

/-- The texts of a handshake are generated with `ascii::string`. -/
def IsAscii (s : Str) : Prop := ∀ c ∈ s, c < 128

instance (s : Str) : Decidable (IsAscii s) := inferInstanceAs (Decidable (∀ c ∈ s, c < 128))

namespace HandshakeMessage

def bytes : HandshakeMessage → MsgSeq
  | .name s => sendName s
  | .status s => receiveStatusG s
  | .challenge n nodeName => sendChallengeG n nodeName
  | .reply attributes => challengeReply attributes
  | .ack digest => sendChallengeAckG digest

/-- Names leave room for the fields of a challenge, a status for its tag. -/
def InLimits : HandshakeMessage → Prop
  | .name s => s ≠ [] ∧ s.length ≤ 65524 ∧ IsAscii s
  | .status s => s ≠ [] ∧ s.length ≤ 65534 ∧ IsAscii s
  | .challenge _ nodeName => nodeName ≠ [] ∧ nodeName.length ≤ 65524 ∧ IsAscii nodeName
  | .reply attributes => attributes.digest.length = digestLength
  | .ack digest => digest.length = digestLength

/-- The parser for such a message succeeds, and gets out of it what has been sent. -/
def DecodesFrom (msg : MsgSeq) : HandshakeMessage → Prop
  | .name s => ∃ version0 version1, parse msg sendNameP .init = some ⟨version0, version1, s⟩
  | .status s => parse msg receiveStatus [] = some s
  | .challenge n nodeName => parse msg recvChallenge .init = some ⟨n, nodeName⟩
  | .reply attributes => parse msg challengeReplyP .init = some attributes
  | .ack digest => parse msg recvChallengeAckP [] = some digest

/-- However a stream of these bytes gets to the lexer, the first message that comes out is the front
of it, and all the others are the messages of the rest. -/
def CutsOff (front rest : MsgSeq) : Prop :=
  ∀ ops, MsgLexer.stream ops = front ++ rest →
    ∃ r later, run (MsgLexer.Run.step .handshake) MsgLexer.Run.start ops = some r ∧
      r.produced = front :: later ∧ handshakeFraming.IsSplit rest later r.lexer.incomplete

variable {m : HandshakeMessage}

theorem isFrame_bytes (h : m.InLimits) : handshakeFraming.IsFrame m.bytes := by
  cases m with
  | name s =>
    obtain ⟨-, hlen, -⟩ := h
    exact isFrame_sendName (by omega)
  | status s =>
    obtain ⟨-, hlen, -⟩ := h
    rw [bytes, receiveStatusG, List.append_assoc]
    exact isFrame_bigWordG_append (by omega) (by simp; omega)
  | challenge n nodeName =>
    obtain ⟨-, hlen, -⟩ := h
    exact isFrame_sendChallengeG n (by omega)
  | reply attributes => exact isFrame_challengeReply h
  | ack digest => exact isFrame_sendChallengeAckG h

theorem decodesFrom_bytes (h : m.InLimits) : m.DecodesFrom m.bytes := by
  cases m with
  | name s => exact ⟨_, _, parse_sendName h.1⟩
  | status s => exact parse_receiveStatusG h.1
  | challenge n nodeName => exact parse_sendChallengeG n h.1
  | reply attributes => exact parse_challengeReply h
  | ack digest => exact parse_sendChallengeAckG h

/-- A frame at the front of a stream is cut off. -/
theorem cutsOff_of_isFrame {front : MsgSeq} (h : handshakeFraming.IsFrame front) (rest : MsgSeq) :
    CutsOff front rest := by
  intro ops hops
  have hstart : (framing LexerKind.handshake).split [] =
      (MsgLexer.Run.start.produced, MsgLexer.Run.start.lexer.incomplete) := Framing.split_nil
  have hfit : Fits LexerKind.handshake ([] ++ MsgLexer.stream ops) := by rintro ⟨⟩
  obtain ⟨r, hr, hsplit⟩ := MsgLexer.run_split hstart hfit
  rw [List.nil_append, hops] at hsplit
  have hfront : handshakeFraming.split (front ++ rest) =
      (front :: (handshakeFraming.split rest).1, (handshakeFraming.split rest).2) :=
    Framing.split_frame_append h
  obtain ⟨hproduced, hincomplete⟩ := Prod.mk.inj (hfront.symm.trans hsplit)
  refine ⟨r, (handshakeFraming.split rest).1, hr, hproduced.symm, ?_⟩
  rw [← hincomplete]
  exact handshakeFraming.isSplit_split rest

/-- **A message of a handshake delimits itself, and says what has been sent.** -/
theorem delimited_and_decoded {m : HandshakeMessage} (h : m.InLimits) (rest : MsgSeq) :
    CutsOff m.bytes rest ∧ m.DecodesFrom m.bytes :=
  ⟨cutsOff_of_isFrame (isFrame_bytes h) rest, decodesFrom_bytes h⟩

theorem delimited_and_decoded_ok :
    CutsOff (status (bytesOf "ok")).bytes [0] ∧
      (status (bytesOf "ok")).DecodesFrom (status (bytesOf "ok")).bytes := by
  have hok : bytesOf "ok" = [111, 107] := rfl
  have hascii : IsAscii [111, 107] := by simp [IsAscii]
  rw [hok]
  exact delimited_and_decoded (m := status [111, 107]) ⟨by simp, by simp, hascii⟩ [0]

end HandshakeMessage

/-! ### Versions and flags -/

/-- A name message as the protocol has it: a length, the tag, a version, the capability flags, and
the name. -/
def nameMessage (length version : UInt16) (flags : UInt32) (name : Str) : MsgSeq :=
  bigWordG length.toNat ++ byteG 110 ++ bigWordG version.toNat ++ bigDwordG flags.toNat ++ name

/-- The parser takes the flags for the upper of two versions. -/
theorem parse_nameMessage (length version : UInt16) (flags : UInt32) {name : Str}
    (hname : name ≠ []) : parse (nameMessage length version flags name) sendNameP .init =
      some ⟨Int32.ofNat version.toNat, Int32.ofNat flags.toNat, name⟩ := by
  refine parse_of_some [] ?_
  have hversion (s : MsgSeq) : bigWord (bigWordG version.toNat ++ s) 0 = (some s, version) :=
    bigWord_eq_some.mpr rfl
  rw [nameMessage]
  simp only [List.append_assoc]
  rw [sendNameP, seq_of_some ((seq_of_some (omit_bigWord_bigWordG _ _ _)).trans
    (lit_byteG (n := 110) (b := 110) rfl _ _)), seq_of_some (assign_of_some (hversion _)),
    seq_of_some (assign_of_some (bigDword_toNat _ _ _)),
    field_of_some (plusChar_of_ne_nil hname _)]
  rfl

/-- A name has one character at least. -/
theorem parse_nameMessage_nil (length version : UInt16) (flags : UInt32) :
    parse (nameMessage length version flags []) sendNameP .init = none := by
  rfl

namespace NodeConnection

/-- The connection is about to read this message as a name. -/
structure ReadsName (c : NodeConnection) (k : LexerKind) (msg : MsgSeq) : Prop where
  state : c.state = .connectedTcp
  nextMessage : ∃ c₁, c.nextMessage k = some (msg, c₁)

/-- `name_read` accepts: the connection goes on to send its status. -/
def Accepts (node : NodeAccess) (k : LexerKind) (c : NodeConnection) : Prop :=
  ∃ c', c.nameRead node k = some c' ∧ c'.state = .sendingStatus

/-- Flags that pass for an upper version: as a signed number they are 5 at least. -/
def PassForVersion (flags : UInt32) : Prop := 5 ≤ flags.toNat ∧ flags.toNat < 2147483648

instance (flags : UInt32) : Decidable (PassForVersion flags) :=
  inferInstanceAs (Decidable (5 ≤ flags.toNat ∧ flags.toNat < 2147483648))

variable {node : NodeAccess} {k : LexerKind} {c c₁ c' : NodeConnection}
  {length length' version : UInt16} {flags flags' : UInt32} {name : Str}

theorem state_of_nextMessage {msg : MsgSeq} (h : c.nextMessage k = some (msg, c₁)) :
    c₁.state = c.state := by
  rw [NodeConnection.nextMessage] at h
  split at h
  · obtain ⟨-, rfl⟩ := Prod.mk.inj (Option.some_inj.mp h)
    cases k <;> rfl
  · cases h

/-- Assignment of an unsigned number to an `int`. -/
theorem toInt_ofNat_of_lt {n : ℕ} (h : n < 4294967296) : (Int32.ofNat n).toInt =
    if n < 2147483648 then (n : ℤ) else n - 4294967296 := by
  have hsize : Int32.size = 4294967296 := rfl
  rw [Int32.toInt_ofNat', Int.bmod, hsize]
  split <;> split <;> omega

theorem supportedVersion_iff (version : UInt16) (flags : UInt32) (name : Str) :
    supportedVersion ⟨Int32.ofNat version.toNat, Int32.ofNat flags.toNat, name⟩ = true ↔
      version.toNat ≤ 5 ∧ PassForVersion flags := by
  have hversion := version.toNat_lt
  have hlower := toInt_ofNat_of_lt (show version.toNat < 4294967296 by omega)
  have hflags := flags.toNat_lt
  have hupper := toInt_ofNat_of_lt hflags
  have hfive : Constants.supportedVersion.toNat = 5 := rfl
  rw [if_pos (by omega)] at hlower
  simp only [supportedVersion, hlower, hupper, hfive, decide_eq_true_eq, PassForVersion]
  split <;> omega

/-- **The name messages that are accepted.** -/
theorem accepts_iff (hc : c.ReadsName k (nameMessage length version flags name)) :
    c.Accepts node k ↔ name ≠ [] ∧ version.toNat ≤ 5 ∧ PassForVersion flags := by
  obtain ⟨c₁, hnext⟩ := hc.nextMessage
  rw [Accepts, nameRead, hnext]
  dsimp only
  by_cases hname : name = []
  · -- the message cannot be parsed, and the connection stays where it is
    subst hname
    rw [parse_nameMessage_nil]
    refine iff_of_false ?_ (fun h => h.1 rfl)
    rintro ⟨c', hraised, hstate⟩
    obtain rfl := Option.some_inj.mp hraised
    have hsame : (c₁.raise parseFailure).state = .connectedTcp :=
      (state_of_nextMessage hnext).trans hc.state
    rw [hsame] at hstate
    cases hstate
  · rw [parse_nameMessage length version flags hname]
    dsimp only
    by_cases hsupported : version.toNat ≤ 5 ∧ PassForVersion flags
    · rw [if_pos ((supportedVersion_iff version flags name).mpr hsupported)]
      exact iff_of_true ⟨_, rfl, rfl⟩ ⟨hname, hsupported⟩
    · rw [if_neg ((supportedVersion_iff version flags name).not.mpr hsupported)]
      refine iff_of_false ?_ (fun h => hsupported h.2)
      rintro ⟨c', hfailed, hstate⟩
      obtain rfl := Option.some_inj.mp hfailed
      cases hstate

/-- Of two name messages with the same version and the same name, both are accepted or none is; and
a message with version 5 is. -/
def DecidesByVersion (node : NodeAccess) (k : LexerKind) (version : UInt16)
    (c c' : NodeConnection) : Prop :=
  (c.Accepts node k ↔ c'.Accepts node k) ∧
    (version = 5 → c.Accepts node k ∧ c'.Accepts node k)

/-- A connection that another node has made, with the message that it has sent. -/
def withMessage (ownChallenge : UInt32) (msg : MsgSeq) : NodeConnection :=
  (startHandshakeAsB ownChallenge).setLexer .handshake ⟨[], [msg]⟩

theorem readsName_withMessage (ownChallenge : UInt32) (msg : MsgSeq) :
    (withMessage ownChallenge msg).ReadsName .handshake msg := ⟨rfl, _, rfl⟩

/-- **The version decides exactly if** it is above 5, or it is 5 and the flags of both messages pass
for an upper version, or it is below 5 and those of both do or those of none. -/
theorem decidesByVersion_iff (hc : c.ReadsName k (nameMessage length version flags name))
    (hc' : c'.ReadsName k (nameMessage length' version flags' name)) :
    DecidesByVersion node k version c c' ↔
      (version.toNat < 5 → name ≠ [] → (PassForVersion flags ↔ PassForVersion flags')) ∧
        (version.toNat = 5 → name ≠ [] ∧ PassForVersion flags ∧ PassForVersion flags') := by
  have hfive : version = 5 ↔ version.toNat = 5 := UInt16.toNat_inj.symm
  rw [DecidesByVersion, accepts_iff hc, accepts_iff hc', hfive]
  by_cases hlt : version.toNat < 5
  · have hne : version.toNat ≠ 5 := hlt.ne
    have hle : version.toNat ≤ 5 := hlt.le
    simp only [hlt, hne, hle, true_and, false_implies, and_true, true_implies]
    exact and_congr_right_iff
  · by_cases heq : version.toNat = 5
    · have hle : version.toNat ≤ 5 := heq.le
      simp only [heq, lt_irrefl, le_refl, true_and, false_implies, true_implies]
      tauto
    · have hle : ¬ version.toNat ≤ 5 := by omega
      simp only [hlt, heq, hle, false_and, and_false, false_implies, and_true]

/-- Two nodes that speak version 6, one of them without any flags. -/
theorem decidesByVersion_iff_six : DecidesByVersion nodeA .handshake 6
    (withMessage 1 (nameMessage 10 6 0 (bytesOf "b@h")))
    (withMessage 2 (nameMessage 10 6 1284 (bytesOf "b@h"))) :=
  (decidesByVersion_iff (readsName_withMessage 1 _) (readsName_withMessage 2 _)).mpr (by decide)

/-- Two nodes that speak version 5, one with extended references only, and the other one with the
flags of this library. -/
theorem not_decidesByVersion_flags : ¬ DecidesByVersion nodeA .handshake 5
    (withMessage 1 (nameMessage 10 5 4 (bytesOf "b@h")))
    (withMessage 2 (nameMessage 10 5 1284 (bytesOf "b@h"))) := by
  rintro ⟨-, hfive⟩
  have haccepted := (accepts_iff (readsName_withMessage 1 _)).mp (hfive rfl).1
  exact absurd haccepted.2.2 (by decide)

end NodeConnection

end TinchPp
