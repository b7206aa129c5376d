import TinchPp.Lib.Framing

/-!
# Hashing block by block

An iterated hash cuts its message into blocks of one size and compresses them into a chaining value,
one after the other. Where the message arrives in pieces, all there is to keep is the chaining value
and the bytes that do not make a block yet: blocks are frames of a constant length, and `absorb` is
what becomes of the two.

A message is padded to a whole number of blocks first. If the last block tells the lengths of two
messages apart, as the padding of Merkle and Damgård makes it do, then two messages with one hash
come with two inputs of the compression function that have one output, and both are met on the way
(`collides_of_foldl_eq`). It is to be noted where they are: that there are any two such inputs is no
news.

## Main definitions

* `BlockHash.absorb` — the state of a hash in the middle of a message
* `BlockHash.steps` — all that the compression function is applied to
* `BlockHash.Collides` — two messages with a collision on the way
-/

/-- A compression function, and the length of its blocks. -/
structure BlockHash (α H : Type*) where
  blockSize : ℕ
  blockSize_pos : 0 < blockSize
  compress : H → List α → H

namespace BlockHash

variable {α H : Type*} (B : BlockHash α H)

/-- Every block is a frame. -/
def framing : Framing α where
  size _ := some B.blockSize
  size_pos h := Option.some_inj.mp h ▸ B.blockSize_pos
  size_append h _ := h
  size_take h := h

theorem isFrame_iff {b : List α} : B.framing.IsFrame b ↔ b.length = B.blockSize := by
  rw [Framing.IsFrame, framing, Option.some_inj, eq_comm]

theorem incomplete_iff {s : List α} : B.framing.Incomplete s ↔ s.length < B.blockSize := by
  refine ⟨fun h => h B.blockSize rfl, fun h n hn => ?_⟩
  obtain rfl : B.blockSize = n := Option.some_inj.mp hn
  exact h

/-- The complete blocks of a message. -/
def blocks (s : List α) : List (List α) := (B.framing.split s).1

/-- The rest of a message, which makes no block. -/
def rest (s : List α) : List α := (B.framing.split s).2

variable {B} {h h' : H} {s t b : List α} {bs bs' : List (List α)}

theorem blocks_of_short (hs : s.length < B.blockSize) : B.blocks s = [] := by
  rw [blocks, Framing.split_of_incomplete (B.incomplete_iff.mpr hs)]

theorem rest_of_short (hs : s.length < B.blockSize) : B.rest s = s := by
  rw [rest, Framing.split_of_incomplete (B.incomplete_iff.mpr hs)]

theorem length_of_mem_blocks (hb : b ∈ B.blocks s) : b.length = B.blockSize :=
  B.isFrame_iff.mp ((B.framing.isSplit_split s).frames b hb)

theorem flatten_blocks_append_rest (s : List α) : (B.blocks s).flatten ++ B.rest s = s :=
  (B.framing.isSplit_split s).concat.symm

theorem length_rest_lt (s : List α) : (B.rest s).length < B.blockSize :=
  B.incomplete_iff.mp (B.framing.isSplit_split s).incomplete

theorem length_flatten (hbs : ∀ b ∈ bs, b.length = B.blockSize) :
    bs.flatten.length = bs.length * B.blockSize := by
  rw [List.length_flatten, List.map_congr_left hbs, List.map_const', List.sum_replicate_nat]

theorem length_eq (s : List α) :
    s.length = (B.blocks s).length * B.blockSize + (B.rest s).length := by
  have hlen := congrArg List.length (B.flatten_blocks_append_rest s)
  rw [List.length_append, length_flatten fun b hb => length_of_mem_blocks hb] at hlen
  exact hlen.symm

theorem length_blocks (s : List α) : (B.blocks s).length = s.length / B.blockSize := by
  rw [B.length_eq s, Nat.add_comm, Nat.add_mul_div_right _ _ B.blockSize_pos,
    Nat.div_eq_of_lt (B.length_rest_lt s), Nat.zero_add]

theorem length_rest (s : List α) : (B.rest s).length = s.length % B.blockSize := by
  conv_rhs => rw [B.length_eq s, Nat.add_comm, Nat.add_mul_mod_self_right]
  exact (Nat.mod_eq_of_lt (B.length_rest_lt s)).symm

/-- A message of whole blocks is its blocks. -/
theorem flatten_blocks (hs : s.length % B.blockSize = 0) : (B.blocks s).flatten = s := by
  have hrest : B.rest s = [] := List.length_eq_zero_iff.mp ((B.length_rest s).trans hs)
  have hconcat := B.flatten_blocks_append_rest s
  rwa [hrest, List.append_nil] at hconcat

/-- The last block of a message of whole blocks. -/
theorem exists_last_block (hs : s.length % B.blockSize = 0) (hne : s ≠ []) :
    ∃ bs b, B.blocks s = bs ++ [b] ∧ b.length = B.blockSize ∧ b <:+ s := by
  have hflat := flatten_blocks hs
  rcases (B.blocks s).eq_nil_or_concat with hnil | ⟨bs, b, hbs⟩
  · rw [hnil] at hflat
    exact absurd hflat.symm hne
  · rw [List.concat_eq_append] at hbs
    refine ⟨bs, b, hbs, length_of_mem_blocks (hbs ▸ List.mem_append_right _ (List.mem_singleton_self b)),
      bs.flatten, ?_⟩
    rw [hbs, List.flatten_append, List.flatten_singleton] at hflat
    exact hflat

/-! ### In the middle of a message -/

variable (B) in
/-- The chaining value, and the bytes that do not make a block yet. -/
def absorb (h : H) (s : List α) : H × List α := ((B.blocks s).foldl B.compress h, B.rest s)

theorem absorb_of_short (hs : s.length < B.blockSize) : B.absorb h s = (h, s) := by
  rw [absorb, blocks_of_short hs, rest_of_short hs, List.foldl_nil]

@[simp] theorem absorb_nil : B.absorb h [] = (h, []) := absorb_of_short B.blockSize_pos

theorem absorb_block_append (hb : b.length = B.blockSize) :
    B.absorb h (b ++ s) = B.absorb (B.compress h b) s := by
  rw [absorb, blocks, rest, Framing.split_frame_append (B.isFrame_iff.mpr hb), List.foldl_cons]
  rfl

/-- **A message in pieces.** The state in the middle of a message is all that has to be known of the
part in front. -/
theorem absorb_append : B.absorb h (s ++ t) = B.absorb (B.absorb h s).1 ((B.absorb h s).2 ++ t) := by
  rw [absorb, blocks, rest, Framing.split_append, List.foldl_append]
  rfl

/-! ### Two messages with one hash -/

variable (B) in
/-- What the compression function is applied to, block after block. -/
def steps (h : H) : List (List α) → List (H × List α)
  | [] => []
  | b :: bs => (h, b) :: steps (B.compress h b) bs

theorem steps_concat (bs : List (List α)) (b : List α) :
    B.steps h (bs ++ [b]) = B.steps h bs ++ [(bs.foldl B.compress h, b)] := by
  induction bs generalizing h with
  | nil => rfl
  | cons c bs ih => rw [List.cons_append, steps, steps, ih, List.foldl_cons, List.cons_append]

theorem length_of_mem_steps {x : H × List α} (hx : x ∈ B.steps h (B.blocks s)) :
    x.2.length = B.blockSize := by
  have hmem (bs : List (List α)) (h : H) (hx : x ∈ B.steps h bs) : x.2 ∈ bs := by
    induction bs generalizing h with
    | nil => cases hx
    | cons b bs ih =>
      rcases List.mem_cons.mp hx with rfl | hx
      · exact List.mem_cons_self
      · exact List.mem_cons_of_mem b (ih _ hx)
  exact length_of_mem_blocks (hmem _ _ hx)

variable (B) in
/-- Two inputs of the compression function with one output, on the way through two messages. -/
def Collides (h : H) (bs bs' : List (List α)) : Prop :=
  ∃ x ∈ B.steps h bs, ∃ y ∈ B.steps h bs', x ≠ y ∧ B.compress x.1 x.2 = B.compress y.1 y.2

theorem collides_of_last {c : List α} (hlast : b ≠ c)
    (hhash : (bs ++ [b]).foldl B.compress h = (bs' ++ [c]).foldl B.compress h) :
    B.Collides h (bs ++ [b]) (bs' ++ [c]) := by
  refine ⟨(bs.foldl B.compress h, b), ?_, (bs'.foldl B.compress h, c), ?_, ?_, ?_⟩
  · rw [steps_concat]
    exact List.mem_append_right _ (List.mem_singleton_self _)
  · rw [steps_concat]
    exact List.mem_append_right _ (List.mem_singleton_self _)
  · exact fun heq => hlast (Prod.mk.inj heq).2
  · rwa [List.foldl_concat, List.foldl_concat] at hhash

theorem Collides.concat {c : List α} (hcoll : B.Collides h bs bs') :
    B.Collides h (bs ++ [b]) (bs' ++ [c]) := by
  obtain ⟨x, hx, y, hy, hxy⟩ := hcoll
  rw [Collides, steps_concat, steps_concat]
  exact ⟨x, List.mem_append_left _ hx, y, List.mem_append_left _ hy, hxy⟩

/-- As many blocks with one hash are the same blocks, or there is a collision. The last blocks come
first: if the outputs in front of them differ, they are the collision. -/
theorem eq_or_collides : ∀ {bs bs' : List (List α)}, bs.length = bs'.length →
    bs.foldl B.compress h = bs'.foldl B.compress h → bs = bs' ∨ B.Collides h bs bs' := by
  intro bs
  induction bs using List.reverseRecOn with
  | nil =>
    intro bs' hlen _
    exact .inl (List.length_eq_zero_iff.mp hlen.symm).symm
  | append_singleton bs b ih =>
    intro bs' hlen hhash
    rcases bs'.eq_nil_or_concat with rfl | ⟨bs', c, rfl⟩
    · simp at hlen
    rw [List.concat_eq_append] at hlen hhash ⊢
    have hlen' : bs.length = bs'.length := by simpa using hlen
    by_cases hbc : b = c
    · subst hbc
      by_cases hchain : bs.foldl B.compress h = bs'.foldl B.compress h
      · rcases ih hlen' hchain with rfl | hcoll
        · exact .inl rfl
        · exact .inr hcoll.concat
      · refine .inr ⟨(bs.foldl B.compress h, b), ?_, (bs'.foldl B.compress h, b), ?_, ?_, ?_⟩
        · rw [steps_concat]
          exact List.mem_append_right _ (List.mem_singleton_self _)
        · rw [steps_concat]
          exact List.mem_append_right _ (List.mem_singleton_self _)
        · exact fun heq => hchain (Prod.mk.inj heq).1
        · rwa [List.foldl_concat, List.foldl_concat] at hhash
    · exact .inr (collides_of_last hbc hhash)

/-- **Two messages with one hash**, padded to whole blocks. The last block tells the length. -/
theorem collides_of_foldl_eq (hs : s.length % B.blockSize = 0) (ht : t.length % B.blockSize = 0)
    (hne : s ≠ t)
    (hlast : s.length ≠ t.length →
      ∃ bs b bs' c, B.blocks s = bs ++ [b] ∧ B.blocks t = bs' ++ [c] ∧ b ≠ c)
    (hhash : (B.blocks s).foldl B.compress h = (B.blocks t).foldl B.compress h) :
    B.Collides h (B.blocks s) (B.blocks t) := by
  by_cases hlen : s.length = t.length
  · have hblocks : (B.blocks s).length = (B.blocks t).length := by
      rw [length_blocks, length_blocks, hlen]
    rcases eq_or_collides hblocks hhash with heq | hcoll
    · have hflat := congrArg List.flatten heq
      rw [flatten_blocks hs, flatten_blocks ht] at hflat
      exact absurd hflat hne
    · exact hcoll
  · obtain ⟨bs, b, bs', c, hbs, hbs', hbc⟩ := hlast hlen
    rw [hbs, hbs'] at hhash ⊢
    exact collides_of_last hbc hhash

end BlockHash
