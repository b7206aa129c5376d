import TinchPp.MsgLexer

/-!
# The handshake messages

`handshake_grammar.h`. Every message starts with a 16-bit length, which the generators truncate and
most of the parsers ignore: the receiver has already assembled a complete message. The parsers do
not look at what follows the fields they read, either.

## Main results

* `isFrame_bigWordG_append` — a message is one frame of the lexer, if its length was not truncated
* `parse_sendName`, `parse_receiveStatusG`, `parse_sendChallengeG`, `parse_challengeReply`,
  `parse_sendChallengeAckG` — what a parser makes of the message the other side's generator writes
-/

namespace TinchPp

open Wire

/-- `parse` of `utils.h`: the attribute of the grammar, or `none` for `"Parse failure!"`. -/
def parse {α : Type} (stream : MsgSeq) (p : Qi α) (attr : α) : Option α :=
  match p stream attr with
  | (some _, attr) => some attr
  | (none, _) => none

theorem parse_of_some {α : Type} {stream : MsgSeq} {p : Qi α} {attr attr' : α}
    (rest : MsgSeq) (h : p stream attr = (some rest, attr')) :
    parse stream p attr = some attr' := by
  simp [parse, h]

/-- The bytes of an MD5 digest. -/
def digestLength : ℕ := 16

/-- A length and that many bytes are a message. -/
theorem isFrame_bigWordG_append {n : ℕ} (hn : n < 65536) {body : MsgSeq} (hbody : body.length = n) :
    handshakeFraming.IsFrame (bigWordG n ++ body) := by
  have hword : (word (UInt8.ofNat (n / 256)) (UInt8.ofNat n)).toNat = n := by
    rw [word_bytes hn, UInt16.toNat_ofNat_of_lt' hn]
  show some (2 + _) = some _
  rw [hword, List.length_append, hbody]
  rfl

/-- The length field is passed over. -/
theorem omit_bigWord_bigWordG {α : Type} (n : ℕ) (s : MsgSeq) (attr : α) :
    omit_ bigWord 0 (bigWordG n ++ s) attr = (some s, attr) := by
  have hread : bigWord (bigWordG n ++ s) 0 = (some s, _) := rfl
  exact omit_of_some hread

theorem omit_bigDword_bigDwordG {α : Type} (n : ℕ) (s : MsgSeq) (attr : α) :
    omit_ bigDword 0 (bigDwordG n ++ s) attr = (some s, attr) := by
  have hread : bigDword (bigDwordG n ++ s) 0 = (some s, _) := rfl
  exact omit_of_some hread

theorem lit_byteG {α : Type} {n : ℕ} {b : UInt8} (h : UInt8.ofNat n = b) (s : MsgSeq) (attr : α) :
    lit b (byteG n ++ s) attr = (some s, attr) := by
  subst h
  exact lit_cons_self _ _ _

theorem bigDword_toNat (d : UInt32) (s : MsgSeq) (attr : UInt32) :
    bigDword (bigDwordG d.toNat ++ s) attr = (some s, d) := by
  rw [bigDword_bigDwordG d.toNat_lt, UInt32.ofNat_toNat]

/-! ### send_name -/

structure SentName where
  version0 : Int32
  version1 : Int32
  name : Str
deriving DecidableEq, Repr

namespace SentName

def init : SentName := ⟨0, 0, []⟩

end SentName

def sendName (name : Str) : MsgSeq :=
  bigWordG (name.length + 7) ++ byteG 110 ++ bigWordG Constants.supportedVersion.toNat ++
    bigDwordG Constants.capabilities.toNat ++ name

theorem isFrame_sendName {name : Str} (hlen : name.length + 7 < 65536) :
    handshakeFraming.IsFrame (sendName name) := by
  simp only [sendName, List.append_assoc]
  exact isFrame_bigWordG_append hlen (by simp; omega)

/-- `send_name_p`. It takes the version for the lower, and the flags for the upper of two
versions. -/
def sendNameP : Qi SentName :=
  seq (seq (omit_ bigWord 0) (lit 110))
    (seq (assign bigWord 0 fun w a => { a with version0 := Int32.ofNat w.toNat })
      (seq (assign bigDword 0 fun d a => { a with version1 := Int32.ofNat d.toNat })
        (field SentName.name (fun s a => { a with name := s }) plusChar)))

/-- **The version check gets the flags for the upper version.** -/
theorem parse_sendName {name : Str} (hname : name ≠ []) :
    parse (sendName name) sendNameP SentName.init =
      some ⟨5, Int32.ofNat Constants.capabilities.toNat, name⟩ := by
  have hversion (s : MsgSeq) :
      bigWord (bigWordG Constants.supportedVersion.toNat ++ s) 0 = (some s, 5) := rfl
  refine parse_of_some [] ?_
  rw [sendName]
  simp only [List.append_assoc]
  rw [sendNameP, seq_of_some ((seq_of_some (omit_bigWord_bigWordG _ _ _)).trans
    (lit_byteG (n := 110) (b := 110) rfl _ _)), seq_of_some (assign_of_some (hversion _)),
    seq_of_some (assign_of_some (bigDword_toNat _ _ _)),
    field_of_some (plusChar_of_ne_nil hname _)]
  rfl

/-! ### send_status -/

def receiveStatusG (status : Str) : MsgSeq :=
  bigWordG (status.length + 1) ++ byteG 115 ++ status

def receiveStatus : Qi Str := seq (seq (omit_ bigWord 0) (lit 115)) plusChar

theorem parse_receiveStatusG {status : Str} (hstatus : status ≠ []) :
    parse (receiveStatusG status) receiveStatus [] = some status := by
  refine parse_of_some [] ?_
  rw [receiveStatusG, List.append_assoc, receiveStatus,
    seq_of_some ((seq_of_some (omit_bigWord_bigWordG _ _ _)).trans
      (lit_byteG (n := 115) (b := 115) rfl _ _)),
    plusChar_of_ne_nil hstatus]
  rfl

/-! ### send_challenge -/

structure ChallengeAttributes where
  challenge : UInt32
  nodeName : Str
deriving DecidableEq, Repr

namespace ChallengeAttributes

def init : ChallengeAttributes := ⟨0, []⟩

end ChallengeAttributes

def sendChallengeG (challenge : UInt32) (nodeName : Str) : MsgSeq :=
  bigWordG (nodeName.length + 11) ++ byteG 110 ++ bigWordG Constants.supportedVersion.toNat ++
    bigDwordG Constants.capabilities.toNat ++ bigDwordG challenge.toNat ++ nodeName

theorem isFrame_sendChallengeG (challenge : UInt32) {nodeName : Str}
    (hlen : nodeName.length + 11 < 65536) :
    handshakeFraming.IsFrame (sendChallengeG challenge nodeName) := by
  simp only [sendChallengeG, List.append_assoc]
  exact isFrame_bigWordG_append hlen (by simp; omega)

def recvChallenge : Qi ChallengeAttributes :=
  seq (seq (omit_ bigWord 0) (seq (lit 110) (seq (omit_ bigWord 0) (omit_ bigDword 0))))
    (seq (assign bigDword 0 fun d a => { a with challenge := d })
      (field ChallengeAttributes.nodeName (fun s a => { a with nodeName := s }) plusChar))

theorem parse_sendChallengeG (challenge : UInt32) {nodeName : Str} (hname : nodeName ≠ []) :
    parse (sendChallengeG challenge nodeName) recvChallenge ChallengeAttributes.init =
      some ⟨challenge, nodeName⟩ := by
  refine parse_of_some [] ?_
  rw [sendChallengeG]
  simp only [List.append_assoc]
  have hhead (s : MsgSeq) (attr : ChallengeAttributes) :
      seq (omit_ bigWord 0) (seq (lit 110) (seq (omit_ bigWord 0) (omit_ bigDword 0)))
        (bigWordG (nodeName.length + 11) ++ (byteG 110 ++
          (bigWordG Constants.supportedVersion.toNat ++
            (bigDwordG Constants.capabilities.toNat ++ s)))) attr = (some s, attr) := by
    rw [seq_of_some (omit_bigWord_bigWordG _ _ _),
      seq_of_some (lit_byteG (n := 110) (b := 110) rfl _ _)]
    exact (seq_of_some (omit_bigWord_bigWordG _ _ _)).trans (omit_bigDword_bigDwordG _ _ _)
  rw [recvChallenge, seq_of_some (hhead _ _), seq_of_some (assign_of_some (bigDword_toNat _ _ _)),
    field_of_some (plusChar_of_ne_nil hname _)]
  rfl

/-! ### send_challenge_reply -/

structure ChallengeReplyAttributes where
  challenge : UInt32
  digest : MsgSeq
deriving DecidableEq, Repr

namespace ChallengeReplyAttributes

def init : ChallengeReplyAttributes := ⟨0, []⟩

end ChallengeReplyAttributes

/-- `challenge_reply`. The digests it is given have sixteen bytes. -/
def challengeReply (attributes : ChallengeReplyAttributes) : MsgSeq :=
  bigWordG (5 + digestLength) ++ byteG 114 ++ bigDwordG attributes.challenge.toNat ++
    attributes.digest.take digestLength

theorem isFrame_challengeReply {attributes : ChallengeReplyAttributes}
    (hdigest : attributes.digest.length = digestLength) :
    handshakeFraming.IsFrame (challengeReply attributes) := by
  simp only [challengeReply, List.append_assoc]
  exact isFrame_bigWordG_append (by decide) (by simp [hdigest, digestLength])

def challengeReplyP : Qi ChallengeReplyAttributes :=
  seq (litWord (UInt16.ofNat (5 + digestLength)))
    (seq (lit 114) (seq (assign bigDword 0 fun d a => { a with challenge := d })
      (field ChallengeReplyAttributes.digest (fun s a => { a with digest := s })
        (chars digestLength))))

theorem parse_challengeReply {attributes : ChallengeReplyAttributes}
    (hdigest : attributes.digest.length = digestLength) :
    parse (challengeReply attributes) challengeReplyP ChallengeReplyAttributes.init =
      some attributes := by
  refine parse_of_some [] ?_
  have hchars := chars_append hdigest [] []
  rw [List.append_nil] at hchars
  rw [challengeReply, List.take_of_length_le hdigest.le]
  simp only [List.append_assoc]
  rw [challengeReplyP, seq_of_some (litWord_bigWordG (by decide) _ _),
    seq_of_some (lit_byteG (n := 114) (b := 114) rfl _ _),
    seq_of_some (assign_of_some (bigDword_toNat _ _ _)),
    field_of_some hchars]
  rfl

/-! ### send_challenge_ack -/

/-- `send_challenge_ack_g`. The digests it is given have sixteen bytes. -/
def sendChallengeAckG (digest : MsgSeq) : MsgSeq :=
  bigWordG (1 + digestLength) ++ byteG 97 ++ digest.take digestLength

def recvChallengeAckP : Qi MsgSeq :=
  seq (litWord (UInt16.ofNat (1 + digestLength))) (seq (lit 97) (chars digestLength))

theorem isFrame_sendChallengeAckG {digest : MsgSeq} (hdigest : digest.length = digestLength) :
    handshakeFraming.IsFrame (sendChallengeAckG digest) := by
  rw [sendChallengeAckG, List.append_assoc]
  exact isFrame_bigWordG_append (by decide) (by simp [hdigest, digestLength])

theorem parse_sendChallengeAckG {digest : MsgSeq} (hdigest : digest.length = digestLength) :
    parse (sendChallengeAckG digest) recvChallengeAckP [] = some digest := by
  refine parse_of_some [] ?_
  have hchars := chars_append hdigest [] []
  rw [List.append_nil] at hchars
  rw [sendChallengeAckG, List.take_of_length_le hdigest.le, List.append_assoc, recvChallengeAckP,
    seq_of_some (litWord_bigWordG (by decide) _ _),
    seq_of_some (lit_byteG (n := 97) (b := 97) rfl _ _)]
  exact hchars

end TinchPp
