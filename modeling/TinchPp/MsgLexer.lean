import TinchPp.Lib.EventSystem
import TinchPp.Lib.Framing
import TinchPp.Lib.Wire
import TinchPp.Types

/-!
# The message lexer

`msg_lexer` of `utils.cpp` collects the bytes TCP delivers and cuts them into messages. Handshake
messages start with a 16-bit length, the messages of a connected node with a 32-bit one; the
virtual function `read_msg_size` is the only difference, and `LexerKind` stands for the choice.

The length a lexer computes is `2 + msg_size` in `int`, but `4 + msg_size` in `uint32_t`, so that
the connected lexer computes it modulo `2 ^ 32`. `framing` is the format itself, with the lengths
as integers; `readMsgSize_eq_size_iff` says where the two agree.

## Main results

* `handleNewCondition_eq` — where they agree, the recursion of `handle_new_condition` ends and
  leaves the complete frames in the queue and the incomplete rest in `incomplete`
* `run_isSplit` — so the messages do not depend on how TCP cuts the stream
* `framesExactly_iff` — and exactly there does the connected lexer terminate with messages as long
  as they say
-/

namespace TinchPp

open EventSystem Wire

/-! ### The code -/

/-- The two subclasses of `msg_lexer`. -/
inductive LexerKind
  | handshake
  | connected
deriving DecidableEq, Repr

/-- `read_msg_size`: the length of the first message with its length field, if that is there. The
addition is in `int` for the handshake and in `uint32_t` for a connected node. -/
def readMsgSize : LexerKind → MsgSeq → Option ℕ
  | .handshake, msg =>
    match bigWord msg 0 with
    | (some _, msgSize) => some (2 + msgSize.toNat)
    | (none, _) => none
  | .connected, msg =>
    match bigDword msg 0 with
    | (some _, msgSize) => some (4 + msgSize).toNat
    | (none, _) => none

/-- `msg_lexer`: the messages completed so far, and the bytes of one that is not complete. -/
structure MsgLexer where
  incomplete : MsgSeq
  msgs : List MsgSeq
deriving DecidableEq, Repr

namespace MsgLexer

def empty : MsgLexer := ⟨[], []⟩

def hasCompleteMsg (l : MsgLexer) : Bool := !l.msgs.isEmpty

/-- The next message, if there is one, and the lexer without it. -/
def nextMessage (l : MsgLexer) : Option MsgSeq × MsgLexer :=
  (l.msgs.head?, { l with msgs := l.msgs.tail })

def extractMsg (msgSize : ℕ) (l : MsgLexer) : MsgLexer :=
  { l with msgs := l.msgs ++ [l.incomplete.take msgSize] }

def stripIncomplete (start : ℕ) (l : MsgLexer) : MsgLexer :=
  { l with incomplete := l.incomplete.drop start }

/-- `handle_new_condition`, given how deep it may call itself; `none` when that is not deep
enough. -/
def handleNewCondition (k : LexerKind) : ℕ → MsgLexer → Option MsgLexer
  | 0, _ => none
  | depth + 1, l =>
    match readMsgSize k l.incomplete with
    | none => some l
    | some msgAndHeaderSize =>
      if l.incomplete.length = msgAndHeaderSize then
        some { incomplete := [], msgs := l.msgs ++ [l.incomplete] }
      else if msgAndHeaderSize < l.incomplete.length then
        -- concatenated messages
        handleNewCondition k depth
          ((l.extractMsg msgAndHeaderSize).stripIncomplete msgAndHeaderSize)
      else some l

/-- What `add` does before it looks for messages. -/
def append (msg : MsgSeq) (l : MsgLexer) : MsgLexer :=
  { l with incomplete := if l.incomplete.isEmpty then msg else l.incomplete ++ msg }

/-- `add`, without its result, which is `hasCompleteMsg` of the lexer afterwards. `none` when it
does not come back; `add_eq_some_iff` says that no deeper recursion would. -/
def add (k : LexerKind) (msg : MsgSeq) (l : MsgLexer) : Option MsgLexer :=
  handleNewCondition k ((l.append msg).incomplete.length + 1) (l.append msg)

@[simp] theorem append_incomplete (msg : MsgSeq) (l : MsgLexer) :
    (l.append msg).incomplete = l.incomplete ++ msg := by
  rcases h : l.incomplete with _ | ⟨b, bs⟩ <;> simp [append, h]

@[simp] theorem append_msgs (msg : MsgSeq) (l : MsgLexer) : (l.append msg).msgs = l.msgs := rfl

/-! ### How deep the recursion goes -/

/-- The calls `handle_new_condition` makes of itself. -/
def RecursesTo (k : LexerKind) (l l' : MsgLexer) : Prop :=
  ∃ size, readMsgSize k l.incomplete = some size ∧ size < l.incomplete.length ∧
    l' = (l.extractMsg size).stripIncomplete size

theorem RecursesTo.handleNewCondition {k : LexerKind} {l l' : MsgLexer} (h : l.RecursesTo k l')
    (depth : ℕ) : handleNewCondition k (depth + 1) l = handleNewCondition k depth l' := by
  obtain ⟨size, hsize, hlt, rfl⟩ := h
  simp only [MsgLexer.handleNewCondition, hsize]
  rw [if_neg (by omega), if_pos hlt]

/-- A call makes a deeper call or comes back at once. -/
theorem recursesTo_or_returns (k : LexerKind) (l : MsgLexer) :
    (∃ l', l.RecursesTo k l') ∨
      ∃ l', ∀ depth, handleNewCondition k (depth + 1) l = some l' := by
  rcases hsize : readMsgSize k l.incomplete with _ | size
  · exact .inr ⟨l, fun depth => by simp [MsgLexer.handleNewCondition, hsize]⟩
  by_cases hlt : size < l.incomplete.length
  · exact .inl ⟨_, size, hsize, hlt, rfl⟩
  · by_cases heq : l.incomplete.length = size
    · exact .inr ⟨_, fun depth => by
        simp only [MsgLexer.handleNewCondition, hsize]; rw [if_pos heq]⟩
    · exact .inr ⟨_, fun depth => by
        simp only [MsgLexer.handleNewCondition, hsize]; rw [if_neg heq, if_neg hlt]⟩

theorem handleNewCondition_mono {k : LexerKind} {l' : MsgLexer} : ∀ {depth : ℕ} {l : MsgLexer},
    handleNewCondition k depth l = some l' → ∀ {depth'}, depth ≤ depth' →
      handleNewCondition k depth' l = some l' := by
  intro depth
  induction depth with
  | zero => intro l h; simp [handleNewCondition] at h
  | succ depth ih =>
    intro l h depth' hle
    obtain ⟨depth', rfl⟩ : ∃ d, depth' = d + 1 := ⟨depth' - 1, by omega⟩
    rcases recursesTo_or_returns k l with ⟨l'', hrec⟩ | ⟨l'', hret⟩
    · rw [hrec.handleNewCondition] at h ⊢
      exact ih h (by omega)
    · rw [hret] at h ⊢
      exact h

/-- A length of zero is met again at once, by the next call, for ever. -/
theorem handleNewCondition_of_size_zero {k : LexerKind} (depth : ℕ) : ∀ {l : MsgLexer},
    readMsgSize k l.incomplete = some 0 → l.incomplete ≠ [] →
      handleNewCondition k depth l = none := by
  induction depth with
  | zero => exact fun _ _ => rfl
  | succ depth ih =>
    intro l h hne
    have hrec : l.RecursesTo k ((l.extractMsg 0).stripIncomplete 0) :=
      ⟨0, h, List.length_pos_of_ne_nil hne, rfl⟩
    rw [hrec.handleNewCondition]
    exact ih (by simpa [extractMsg, stripIncomplete] using h)
      (by simpa [extractMsg, stripIncomplete] using hne)

/-- One call for each byte is deep enough, if any depth is. -/
theorem handleNewCondition_of_length_lt {k : LexerKind} {l' : MsgLexer} :
    ∀ {depth : ℕ} {l : MsgLexer}, handleNewCondition k depth l = some l' →
      handleNewCondition k (l.incomplete.length + 1) l = some l' := by
  intro depth
  induction depth with
  | zero => intro l h; simp [handleNewCondition] at h
  | succ depth ih =>
    intro l h
    rcases recursesTo_or_returns k l with ⟨l'', hrec⟩ | ⟨l'', hret⟩
    · rw [hrec.handleNewCondition] at h ⊢
      obtain ⟨size, hsize, hlt, rfl⟩ := hrec
      have hne : l.incomplete ≠ [] := List.ne_nil_of_length_pos (by omega)
      have hpos : 0 < size := by
        refine Nat.pos_of_ne_zero fun h0 => ?_
        subst h0
        rw [handleNewCondition_of_size_zero] at h
        · exact absurd h (by simp)
        · simpa [extractMsg, stripIncomplete] using hsize
        · simpa [extractMsg, stripIncomplete] using hne
      refine handleNewCondition_mono (ih h) ?_
      simp only [extractMsg, stripIncomplete, List.length_drop]
      omega
    · rw [hret] at h ⊢
      exact h

/-- **`add` comes back exactly when some depth of recursion is enough.** -/
theorem add_eq_some_iff {k : LexerKind} {msg : MsgSeq} {l l' : MsgLexer} :
    l.add k msg = some l' ↔ ∃ depth, handleNewCondition k depth (l.append msg) = some l' := by
  constructor
  · exact fun h => ⟨_, h⟩
  · rintro ⟨depth, h⟩
    exact handleNewCondition_of_length_lt h

end MsgLexer

/-! ### The format

What a frame is: a length field, in integers, followed by that many bytes. -/

/-- Handshake messages: a 16-bit length, then the message. -/
def handshakeFraming : Framing UInt8 where
  size
    | b₁ :: b₀ :: _ => some (2 + (word b₁ b₀).toNat)
    | _ => none
  size_pos := by
    intro s n h
    rcases s with _ | ⟨b₁, _ | ⟨b₀, s⟩⟩ <;> simp at h
    exact h ▸ Nat.add_pos_left Nat.two_pos _
  size_append := by
    intro s n h t
    rcases s with _ | ⟨b₁, _ | ⟨b₀, s⟩⟩ <;> simp at h
    simpa using h
  size_take := by
    intro s n h
    rcases s with _ | ⟨b₁, _ | ⟨b₀, s⟩⟩ <;> simp at h
    obtain ⟨m, rfl⟩ := Nat.exists_eq_add_of_le' (h ▸ Nat.le_add_right 2 _)
    simpa using h

/-- The messages of a connected node: a 32-bit length, then the message. -/
def connectedFraming : Framing UInt8 where
  size
    | b₃ :: b₂ :: b₁ :: b₀ :: _ => some (4 + (dword b₃ b₂ b₁ b₀).toNat)
    | _ => none
  size_pos := by
    intro s n h
    rcases s with _ | ⟨b₃, _ | ⟨b₂, _ | ⟨b₁, _ | ⟨b₀, s⟩⟩⟩⟩ <;> simp at h
    exact h ▸ Nat.add_pos_left (Nat.succ_pos 3) _
  size_append := by
    intro s n h t
    rcases s with _ | ⟨b₃, _ | ⟨b₂, _ | ⟨b₁, _ | ⟨b₀, s⟩⟩⟩⟩ <;> simp at h
    simpa using h
  size_take := by
    intro s n h
    rcases s with _ | ⟨b₃, _ | ⟨b₂, _ | ⟨b₁, _ | ⟨b₀, s⟩⟩⟩⟩ <;> simp at h
    obtain ⟨m, rfl⟩ := Nat.exists_eq_add_of_le' (h ▸ Nat.le_add_right 4 _)
    simpa using h

def framing : LexerKind → Framing UInt8
  | .handshake => handshakeFraming
  | .connected => connectedFraming

/-- The 32-bit length field at the front of a stream, if all of it is there. -/
def lengthField : MsgSeq → Option UInt32
  | b₃ :: b₂ :: b₁ :: b₀ :: _ => some (dword b₃ b₂ b₁ b₀)
  | _ => none

/-- The length field, if there is one, is below `2 ^ 32 - 4`. -/
def FieldFits (s : MsgSeq) : Prop := ∀ n, lengthField s = some n → n.toNat < 2 ^ 32 - 4

/-- No length field met at a frame boundary of the stream is `2 ^ 32 - 4` or more. -/
def FieldsFit (s : MsgSeq) : Prop := connectedFraming.AtBoundaries FieldFits s

theorem connectedFraming_size (s : MsgSeq) :
    connectedFraming.size s = (lengthField s).map fun n => 4 + n.toNat := by
  rcases s with _ | ⟨b₃, _ | ⟨b₂, _ | ⟨b₁, _ | ⟨b₀, s⟩⟩⟩⟩ <;> rfl

theorem readMsgSize_connected (s : MsgSeq) :
    readMsgSize .connected s = (lengthField s).map fun n => (4 + n).toNat := by
  rcases s with _ | ⟨b₃, _ | ⟨b₂, _ | ⟨b₁, _ | ⟨b₀, s⟩⟩⟩⟩ <;> rfl

theorem readMsgSize_handshake (s : MsgSeq) :
    readMsgSize .handshake s = handshakeFraming.size s := by
  rcases s with _ | ⟨b₁, _ | ⟨b₀, s⟩⟩ <;> rfl

theorem lengthField_append {s : MsgSeq} {n : UInt32} (h : lengthField s = some n) (t : MsgSeq) :
    lengthField (s ++ t) = some n := by
  rcases s with _ | ⟨b₃, _ | ⟨b₂, _ | ⟨b₁, _ | ⟨b₀, s⟩⟩⟩⟩ <;> simp [lengthField] at h ⊢
  exact h

theorem four_le_of_lengthField {s : MsgSeq} {n : UInt32} (h : lengthField s = some n) :
    4 ≤ s.length := by
  rcases s with _ | ⟨b₃, _ | ⟨b₂, _ | ⟨b₁, _ | ⟨b₀, s⟩⟩⟩⟩ <;> simp [lengthField] at h ⊢

theorem FieldFits.of_append (s t : MsgSeq) (h : FieldFits (s ++ t)) : FieldFits s :=
  fun _ hn => h _ (lengthField_append hn t)

theorem FieldsFit.of_append {s t : MsgSeq} (h : FieldsFit (s ++ t)) : FieldsFit s :=
  Framing.AtBoundaries.of_append FieldFits.of_append h

theorem toNat_four_add (n : UInt32) : (4 + n).toNat = (4 + n.toNat) % 2 ^ 32 := by
  rw [UInt32.toNat_add]
  rfl

/-- **Where the code computes the length of the format.** -/
theorem readMsgSize_eq_size_iff (s : MsgSeq) :
    readMsgSize .connected s = connectedFraming.size s ↔ FieldFits s := by
  rw [readMsgSize_connected, connectedFraming_size]
  rcases h : lengthField s with _ | n
  · simp [FieldFits, h]
  · have := n.toNat_lt
    simp only [FieldFits, h, Option.map_some, Option.some_inj, forall_eq', toNat_four_add]
    omega

/-- The condition under which a lexer reads the lengths of its format from a stream. -/
def Fits (k : LexerKind) (s : MsgSeq) : Prop := k = .connected → FieldsFit s

theorem Fits.readMsgSize {k : LexerKind} {s : MsgSeq} (h : Fits k s) :
    (framing k).AtBoundaries (fun r => readMsgSize k r = (framing k).size r) s := by
  cases k with
  | handshake => exact fun _ r _ _ => readMsgSize_handshake r
  | connected => exact (h rfl).mono fun r => (readMsgSize_eq_size_iff r).mpr

theorem Fits.of_append {k : LexerKind} {s t : MsgSeq} (h : Fits k (s ++ t)) : Fits k s :=
  fun hk => (h hk).of_append

theorem Fits.tail_append {k : LexerKind} {s t : MsgSeq} (h : Fits k (s ++ t)) :
    Fits k (((framing k).split s).2 ++ t) := by
  rintro rfl
  exact Framing.AtBoundaries.tail_append (h rfl)

namespace MsgLexer

/-! ### What the recursion leaves behind -/

/-- **The recursion cuts off exactly the complete frames.** -/
theorem handleNewCondition_eq {k : LexerKind} (depth : ℕ) : ∀ {l : MsgLexer},
    (framing k).AtBoundaries (fun r => readMsgSize k r = (framing k).size r) l.incomplete →
    l.incomplete.length < depth →
      handleNewCondition k depth l = some ⟨((framing k).split l.incomplete).2,
        l.msgs ++ ((framing k).split l.incomplete).1⟩ := by
  induction depth with
  | zero => intro l _ h; omega
  | succ depth ih =>
    rintro ⟨inc, msgs⟩ hread hlt
    have hsize : readMsgSize k inc = (framing k).size inc := hread.here
    rcases (framing k).incomplete_or_frame inc with hinc | ⟨f, t, hf, rfl, -⟩
    · -- a short read, or not even a length field
      rw [Framing.split_of_incomplete hinc]
      simp only [MsgLexer.handleNewCondition, hsize]
      rcases hn : (framing k).size inc with _ | n
      · simp
      · have := hinc n hn
        dsimp only
        rw [if_neg (by omega), if_neg (by omega), List.append_nil]
    · rw [hf.size_append] at hsize
      rw [Framing.split_frame_append hf]
      by_cases ht : t = []
      · subst ht
        rw [List.append_nil] at hsize ⊢
        simp [MsgLexer.handleNewCondition, hsize]
      · have hrec : RecursesTo k ⟨f ++ t, msgs⟩ ⟨t, msgs ++ [f]⟩ := by
          refine ⟨f.length, hsize, ?_, by simp [extractMsg, stripIncomplete]⟩
          have := List.length_pos_of_ne_nil ht
          rw [List.length_append]
          omega
        have hpos := List.length_pos_of_ne_nil hf.ne_nil
        rw [List.length_append] at hlt
        rw [hrec.handleNewCondition, ih (hread.of_frame_append hf) (by dsimp only; omega)]
        simp

/-- **`add`**, on a stream whose lengths fit. -/
theorem add_eq {k : LexerKind} {msg : MsgSeq} {l : MsgLexer} (h : Fits k (l.incomplete ++ msg)) :
    l.add k msg = some ⟨((framing k).split (l.incomplete ++ msg)).2,
      l.msgs ++ ((framing k).split (l.incomplete ++ msg)).1⟩ := by
  have hread := h.readMsgSize
  rw [← append_incomplete] at hread ⊢
  exact handleNewCondition_eq _ hread (Nat.lt_succ_self _)

/-! ### What the recursion keeps, whatever the lengths -/

/-- What cutting off one message keeps, the whole recursion keeps. -/
theorem handleNewCondition_induction {k : LexerKind} {P : MsgLexer → Prop}
    (hcut : ∀ l size, readMsgSize k l.incomplete = some size → size ≤ l.incomplete.length → P l →
      P ((l.extractMsg size).stripIncomplete size)) : ∀ {depth : ℕ} {l l' : MsgLexer},
    P l → handleNewCondition k depth l = some l' → P l' := by
  intro depth
  induction depth with
  | zero => intro l l' _ h; simp [handleNewCondition] at h
  | succ depth ih =>
    intro l l' hl h
    rcases hsize : readMsgSize k l.incomplete with _ | size
    · simp only [handleNewCondition, hsize, Option.some_inj] at h
      exact h ▸ hl
    · simp only [handleNewCondition, hsize] at h
      split at h
      · next hlen =>
        -- the last message is all there is
        have hlast := hcut l size hsize hlen.ge hl
        rw [← Option.some_inj.mp h]
        simpa [extractMsg, stripIncomplete, ← hlen] using hlast
      · split at h
        · next hlt => exact ih (hcut l size hsize hlt.le hl) h
        · exact Option.some_inj.mp h ▸ hl

/-- A recursion that comes back keeps the messages it has queued. -/
theorem msgs_isPrefix_of_handleNewCondition {k : LexerKind} {depth : ℕ} {l l' : MsgLexer}
    (h : handleNewCondition k depth l = some l') : l.msgs <+: l'.msgs := by
  refine handleNewCondition_induction (P := fun m => l.msgs <+: m.msgs) ?_ List.prefix_rfl h
  exact fun m size _ _ hm => hm.trans (List.prefix_append _ _)

/-- **No byte is lost in a lexer**, even where it gets the lengths wrong. -/
theorem flatten_add {k : LexerKind} {msg : MsgSeq} {l l' : MsgLexer}
    (h : l.add k msg = some l') :
    l'.msgs.flatten ++ l'.incomplete = l.msgs.flatten ++ l.incomplete ++ msg := by
  refine handleNewCondition_induction
    (P := fun m => m.msgs.flatten ++ m.incomplete = l.msgs.flatten ++ l.incomplete ++ msg)
    (fun m size _ _ hm => ?_) ?_ h
  · rw [← hm]
    simp [extractMsg, stripIncomplete]
  · rw [append_msgs, append_incomplete, List.append_assoc]

/-- The sizes are 32-bit numbers. -/
theorem size_lt_of_readMsgSize {s : MsgSeq} {size : ℕ}
    (h : readMsgSize .connected s = some size) : size < 2 ^ 32 := by
  rw [readMsgSize_connected, Option.map_eq_some_iff] at h
  obtain ⟨n, -, rfl⟩ := h
  exact (4 + n).toNat_lt

/-- **The connected lexer makes no message of `2 ^ 32` bytes or more.** -/
theorem length_lt_of_add {msg : MsgSeq} {l l' : MsgLexer} (h : l.add .connected msg = some l')
    (hmsgs : ∀ m ∈ l.msgs, m.length < 2 ^ 32) : ∀ m ∈ l'.msgs, m.length < 2 ^ 32 := by
  unfold add at h
  refine handleNewCondition_induction (P := fun l => ∀ m ∈ l.msgs, m.length < 2 ^ 32)
    (fun l size hsize _ hl m hm => ?_) (by rwa [append_msgs]) h
  obtain hm | hm := List.mem_append.mp hm
  · exact hl m hm
  · have hlt := size_lt_of_readMsgSize hsize
    rw [List.mem_singleton.mp hm, List.length_take]
    omega

/-! ### Reassembly -/

/-- The calls made on a lexer. -/
inductive Op
  | add (msg : MsgSeq)
  | nextMessage
deriving DecidableEq, Repr

/-- A lexer in use, with the messages taken out of it so far. -/
structure Run where
  lexer : MsgLexer
  taken : List MsgSeq

namespace Run

def start : Run := ⟨.empty, []⟩

def step (k : LexerKind) (r : Run) : Op → Option Run
  | .add msg => (r.lexer.add k msg).map fun l => { r with lexer := l }
  | .nextMessage => some ⟨r.lexer.nextMessage.2, r.taken ++ r.lexer.nextMessage.1.toList⟩

/-- The messages the lexer has produced, taken out or still queued. -/
def produced (r : Run) : List MsgSeq := r.taken ++ r.lexer.msgs

end Run

/-- The bytes given to a lexer. -/
def stream : List Op → MsgSeq
  | [] => []
  | .add msg :: ops => msg ++ stream ops
  | .nextMessage :: ops => stream ops

/-- Taking a message out of the queue is not losing it. -/
theorem Run.step_nextMessage (k : LexerKind) (r : Run) : ∃ r', r.step k .nextMessage = some r' ∧
    r'.produced = r.produced ∧ r'.lexer.incomplete = r.lexer.incomplete := by
  refine ⟨_, rfl, ?_, rfl⟩
  rcases h : r.lexer.msgs with _ | ⟨m, ms⟩ <;> simp [nextMessage, produced, h]

/-- A chunk completes the frames that end in it. -/
theorem Run.step_add {k : LexerKind} {r : Run} {s msg : MsgSeq}
    (hs : (framing k).split s = (r.produced, r.lexer.incomplete)) (hfit : Fits k (s ++ msg)) :
    ∃ r', r.step k (.add msg) = some r' ∧
      (framing k).split (s ++ msg) = (r'.produced, r'.lexer.incomplete) := by
  have hread : Fits k (r.lexer.incomplete ++ msg) := by
    have := hfit.tail_append
    rwa [hs] at this
  refine ⟨_, by rw [step, add_eq hread]; rfl, ?_⟩
  rw [Framing.split_append, hs]
  simp [produced]

/-- **Reassembly, from any point of a stream on.** The lexer has seen `s`, and `ops` follow. -/
theorem run_split {k : LexerKind} {ops : List Op} : ∀ {r : Run} {s : MsgSeq},
    (framing k).split s = (r.produced, r.lexer.incomplete) → Fits k (s ++ stream ops) →
      ∃ r', run (Run.step k) r ops = some r' ∧
        (framing k).split (s ++ stream ops) = (r'.produced, r'.lexer.incomplete) := by
  induction ops with
  | nil =>
    intro r s hs _
    exact ⟨r, rfl, by rwa [stream, List.append_nil]⟩
  | cons op ops ih =>
    intro r s hs hfit
    cases op with
    | add msg =>
      rw [stream, ← List.append_assoc] at hfit ⊢
      obtain ⟨r₁, h₁, hs₁⟩ := Run.step_add hs hfit.of_append
      obtain ⟨r', h', hs'⟩ := ih hs₁ hfit
      exact ⟨r', by rw [run_cons, h₁]; exact h', hs'⟩
    | nextMessage =>
      obtain ⟨r₁, h₁, hp, hi⟩ := Run.step_nextMessage k r
      obtain ⟨r', h', hs'⟩ := ih (r := r₁) (by rw [hp, hi]; exact hs) hfit
      exact ⟨r', by rw [run_cons, h₁]; exact h', hs'⟩

/-- **The messages do not depend on how TCP cuts the stream.** -/
theorem run_isSplit (k : LexerKind) (ops : List Op)
    (hfit : k = .connected → FieldsFit (stream ops)) :
    ∃ r, run (Run.step k) Run.start ops = some r ∧
      (framing k).IsSplit (stream ops) (r.taken ++ r.lexer.msgs) r.lexer.incomplete := by
  have hstart : (framing k).split [] = (Run.start.produced, Run.start.lexer.incomplete) :=
    Framing.split_nil
  obtain ⟨r, hr, hs⟩ := run_split hstart hfit
  refine ⟨r, hr, ?_⟩
  have := (framing k).isSplit_split (stream ops)
  rwa [← List.nil_append (stream ops), hs] at this

/-- Two reads, the cut inside the first length field: a tick, and the start of another frame. -/
theorem run_isSplit_tick : ∃ r, run (Run.step .connected) Run.start
      [.add [0, 0], .nextMessage, .add [0, 0, 0, 0]] = some r ∧
    connectedFraming.IsSplit [0, 0, 0, 0, 0, 0] (r.taken ++ r.lexer.msgs) r.lexer.incomplete := by
  refine run_isSplit .connected [.add [0, 0], .nextMessage, .add [0, 0, 0, 0]] fun _ => ?_
  have htick : connectedFraming.IsFrame [0, 0, 0, 0] := by decide
  have hrest : connectedFraming.Incomplete [0, 0] := fun n hn => by cases hn
  refine (Framing.atBoundaries_frame_append (s := [0, 0]) htick).mpr ⟨?_, ?_⟩
  · intro n hn
    obtain rfl : (0 : UInt32) = n := Option.some_inj.mp hn
    decide
  · exact (Framing.atBoundaries_of_incomplete hrest).mpr fun n hn => by cases hn

/-! ### Termination and exact lengths, for every input

The other half: a length field that does not fit makes the computed length `0`, and the recursion
endless, or `1`, `2` or `3`, and the message shorter than its own length field. -/

/-- `add` comes back, every call of `handle_new_condition` on the way works on a shorter buffer than
the one before, and every message extracted is as long as its first four bytes say. -/
def FramesExactly (l : MsgLexer) (msg : MsgSeq) : Prop :=
  (∀ a b, Relation.ReflTransGen (RecursesTo .connected) (l.append msg) a →
    a.RecursesTo .connected b → b.incomplete.length < a.incomplete.length) ∧
  ∃ l' new, l.add .connected msg = some l' ∧ l'.msgs = l.msgs ++ new ∧
    ∀ m ∈ new, connectedFraming.IsFrame m

/-- A length field that does not fit is computed to be less than `4`. -/
theorem readMsgSize_lt_of_not_fieldFits {s : MsgSeq} (h : ¬ FieldFits s) :
    4 ≤ s.length ∧ ∃ size, readMsgSize .connected s = some size ∧ size < 4 := by
  simp only [FieldFits, not_forall] at h
  obtain ⟨n, hn, hlt⟩ := h
  refine ⟨four_le_of_lengthField hn, (4 + n).toNat, by rw [readMsgSize_connected, hn]; rfl, ?_⟩
  have := n.toNat_lt
  rw [toNat_four_add]
  omega

theorem four_le_of_isFrame {m : MsgSeq} (hm : connectedFraming.IsFrame m) : 4 ≤ m.length := by
  rw [Framing.IsFrame, connectedFraming_size, Option.map_eq_some_iff] at hm
  obtain ⟨n, -, hlen⟩ := hm
  omega

/-- Where the fields fit, a deeper call starts at the next frame boundary. -/
theorem RecursesTo.of_fieldsFit {l l' : MsgLexer} (h : l.RecursesTo .connected l')
    (hfit : FieldsFit l.incomplete) : FieldsFit l'.incomplete ∧
      l'.incomplete.length < l.incomplete.length ∧ ∃ f, connectedFraming.IsFrame f ∧
        l.incomplete = f ++ l'.incomplete ∧ l'.msgs = l.msgs ++ [f] := by
  obtain ⟨size, hsize, hlt, rfl⟩ := h
  rw [(readMsgSize_eq_size_iff _).mpr hfit.here] at hsize
  have hf := Framing.isFrame_take hsize hlt.le
  have hcut : l.incomplete = l.incomplete.take size ++ l.incomplete.drop size :=
    (List.take_append_drop size l.incomplete).symm
  refine ⟨?_, ?_, l.incomplete.take size, hf, hcut, rfl⟩
  · rw [FieldsFit, hcut] at hfit
    exact hfit.of_frame_append hf
  · have := connectedFraming.size_pos hsize
    simp only [extractMsg, stripIncomplete, List.length_drop]
    omega

/-- **Where the fields fit, all is well.** -/
theorem framesExactly_of_fieldsFit {l : MsgLexer} {msg : MsgSeq}
    (hfit : FieldsFit (l.incomplete ++ msg)) : l.FramesExactly msg := by
  have hcalls : ∀ a, Relation.ReflTransGen (RecursesTo .connected) (l.append msg) a →
      FieldsFit a.incomplete := by
    intro a ha
    induction ha with
    | refl => rwa [append_incomplete]
    | tail _ hab ih => exact (hab.of_fieldsFit ih).1
  refine ⟨fun a b ha hab => (hab.of_fieldsFit (hcalls a ha)).2.1, ?_⟩
  exact ⟨_, _, add_eq fun _ => hfit, rfl, (connectedFraming.isSplit_split _).frames⟩

/-- **Where `add` comes back with exact messages, the fields fit**, at this boundary and, by the
recursion, at all the later ones. -/
theorem fieldsFit_of_handleNewCondition {l' : MsgLexer} : ∀ {depth : ℕ} {l : MsgLexer},
    handleNewCondition .connected depth l = some l' → ∀ {new}, l'.msgs = l.msgs ++ new →
      (∀ m ∈ new, connectedFraming.IsFrame m) → FieldsFit l.incomplete := by
  intro depth
  induction depth with
  | zero => intro l h; simp [handleNewCondition] at h
  | succ depth ih =>
    intro l h new hnew hframes
    have hhere : FieldFits l.incomplete := by
      by_contra hbad
      obtain ⟨hlen, size, hsize, hlt⟩ := readMsgSize_lt_of_not_fieldFits hbad
      have hrec : l.RecursesTo .connected ((l.extractMsg size).stripIncomplete size) :=
        ⟨size, hsize, by omega, rfl⟩
      rw [hrec.handleNewCondition] at h
      -- the first message extracted is too short
      obtain ⟨more, hmore⟩ := msgs_isPrefix_of_handleNewCondition h
      simp only [extractMsg, stripIncomplete] at hmore
      rw [hnew, List.append_assoc] at hmore
      have hnew' : [l.incomplete.take size] ++ more = new := List.append_cancel_left hmore
      have := four_le_of_isFrame (hframes (l.incomplete.take size) (by simp [← hnew']))
      rw [List.length_take] at this
      omega
    rcases connectedFraming.incomplete_or_frame l.incomplete with hinc | ⟨f, t, hf, hft, -⟩
    · exact (Framing.atBoundaries_of_incomplete hinc).mpr hhere
    · rw [FieldsFit, hft, Framing.atBoundaries_frame_append hf, ← hft]
      refine ⟨hhere, ?_⟩
      by_cases ht : t = []
      · subst ht
        exact (Framing.atBoundaries_of_incomplete Framing.incomplete_nil).mpr
          fun n hn => by cases hn
      · have hrec : l.RecursesTo .connected ⟨t, l.msgs ++ [f]⟩ := by
          refine ⟨f.length, ?_, ?_, by simp [extractMsg, stripIncomplete, hft]⟩
          · rw [(readMsgSize_eq_size_iff _).mpr hhere, hft]
            exact hf.size_append t
          · have := List.length_pos_of_ne_nil ht
            rw [hft, List.length_append]
            omega
        rw [hrec.handleNewCondition] at h
        obtain ⟨more, hmore⟩ := msgs_isPrefix_of_handleNewCondition h
        have hnew' : [f] ++ more = new := by
          rw [hnew, List.append_assoc] at hmore
          exact List.append_cancel_left hmore
        exact ih h hmore.symm fun m hm => hframes m (by rw [← hnew']; simp [hm])

/-- **The connected lexer terminates and frames exactly on the streams whose length fields stay
below `2 ^ 32 - 4`, and on no others.** -/
theorem framesExactly_iff (l : MsgLexer) (msg : MsgSeq) :
    l.FramesExactly msg ↔ FieldsFit (l.incomplete ++ msg) := by
  refine ⟨?_, framesExactly_of_fieldsFit⟩
  rintro ⟨-, l', new, hadd, hnew, hframes⟩
  rw [← append_incomplete]
  exact fieldsFit_of_handleNewCondition hadd hnew hframes

/-- Four bytes that make `add` recurse for ever. -/
theorem add_overflow : (∀ depth, handleNewCondition .connected depth
      (empty.append [255, 255, 255, 252]) = none) ∧
    ¬ empty.FramesExactly [255, 255, 255, 252] := by
  have hnone : ∀ depth, handleNewCondition .connected depth
      (empty.append [255, 255, 255, 252]) = none :=
    fun depth => handleNewCondition_of_size_zero depth (by decide) (by decide)
  refine ⟨hnone, ?_⟩
  rintro ⟨-, l', new, hadd, -⟩
  exact absurd (hadd.symm.trans (hnone _)) (by simp)

end MsgLexer

end TinchPp
