import Mathlib.Data.List.Basic
import Mathlib.Data.UInt
import Mathlib.Tactic.TypeStar

/-!
# Byte grammars: parsers with in-place attributes, and generators

A small combinator library in the manner of a recursive-descent parser library whose parsers write
what they read straight into a variable of the caller, their *attribute*. Two things about that
style have to be kept, since programs can see them:

* a parser that fails leaves the input position where it was, but not always its attribute: what
  has been written on the way stays written;
* a parser of a container *appends* to what the container already holds.

So a parser maps an input and the attribute before to the input left over (`none` on failure) and
the attribute after. Generators are functions to bytes; their integer arguments are truncated to
the width written.

## Main results

* `bigWord_bigWordG`, `bigDword_bigDwordG`, `chars_append` — a parser reads back what the generator
  of the same field wrote, and stops right after it
* `seq_of_some`, `andThen_of_some`, … — how a successful prefix is passed over
* `bigWord_eq_some`, `bigDword_eq_some`, `chars_eq_some`, … — what a parser has read is what the
  generator would have written
* `Regular.seq`, `Regular.andThen`, … — a parser stops somewhere in its input, and where does not
  depend on its attribute
* `WritesOneWay.seq`, `WritesOneWay.field`, … — what a parser does to its attribute cannot be undone
  by what is done to it later, unless it does nothing
-/

namespace Wire

variable {α β : Type*}

/-- Input and attribute before, to input left over and attribute after. -/
abbrev Qi (α : Type*) := List UInt8 → α → Option (List UInt8) × α

/-! ### Generators -/

/-- One byte. -/
def byteG (n : ℕ) : List UInt8 := [UInt8.ofNat n]

/-- Two bytes, the most significant first. -/
def bigWordG (n : ℕ) : List UInt8 := [UInt8.ofNat (n / 256), UInt8.ofNat n]

/-- Four bytes, the most significant first. -/
def bigDwordG (n : ℕ) : List UInt8 :=
  [UInt8.ofNat (n / 16777216), UInt8.ofNat (n / 65536), UInt8.ofNat (n / 256), UInt8.ofNat n]

@[simp] theorem length_byteG (n : ℕ) : (byteG n).length = 1 := rfl

@[simp] theorem length_bigWordG (n : ℕ) : (bigWordG n).length = 2 := rfl

@[simp] theorem length_bigDwordG (n : ℕ) : (bigDwordG n).length = 4 := rfl

/-! ### Primitive parsers -/

/-- The number two bytes spell, the most significant first. -/
def word (a b : UInt8) : UInt16 := UInt16.ofNat (a.toNat * 256 + b.toNat)

/-- The number four bytes spell, the most significant first. -/
def dword (a b c d : UInt8) : UInt32 :=
  UInt32.ofNat (a.toNat * 16777216 + b.toNat * 65536 + c.toNat * 256 + d.toNat)

/-- A literal byte; the attribute is not used. Bytes are compared as unsigned values. -/
def lit (b : UInt8) : Qi α
  | c :: rest, a => if c = b then (some rest, a) else (none, a)
  | [], a => (none, a)

/-- Any one byte. -/
def byte : Qi UInt8
  | c :: rest, _ => (some rest, c)
  | [], a => (none, a)

def bigWord : Qi UInt16
  | b₁ :: b₀ :: rest, _ => (some rest, word b₁ b₀)
  | _, a => (none, a)

def bigDword : Qi UInt32
  | b₃ :: b₂ :: b₁ :: b₀ :: rest, _ => (some rest, dword b₃ b₂ b₁ b₀)
  | _, a => (none, a)

/-- A given number of characters, appended one by one. -/
def chars : ℕ → Qi (List UInt8)
  | 0, f, a => (some f, a)
  | _ + 1, [], a => (none, a)
  | n + 1, c :: rest, a => chars n rest (a ++ [c])

/-- All the characters there are, one at least. -/
def plusChar : Qi (List UInt8)
  | [], a => (none, a)
  | c :: rest, a => (some [], a ++ c :: rest)

/-! ### Combinators -/

/-- One after the other. -/
def seq (p q : Qi α) : Qi α := fun f a =>
  match p f a with
  | (none, a) => (none, a)
  | (some f, a) => q f a

/-- The first that succeeds, both starting at the same place. -/
def alt (p q : Qi α) : Qi α := fun f a =>
  match p f a with
  | (none, a) => q f a
  | (some f, a) => (some f, a)

/-- A parser that works on one part of the attribute, in place. -/
def field (get : α → β) (set : β → α → α) (p : Qi β) : Qi α := fun f a =>
  ((p f (get a)).1, set (p f (get a)).2 a)

/-- A parser with a temporary as its attribute, whose value is passed on when it succeeds. -/
def andThen (p : Qi β) (init : β) (k : β → Qi α) : Qi α := fun f a =>
  match p f init with
  | (none, _) => (none, a)
  | (some f, b) => k b f a

/-- A parser with a temporary as its attribute, which is assigned when it succeeds. -/
def assign (p : Qi β) (init : β) (set : β → α → α) : Qi α :=
  andThen p init fun b f a => (some f, set b a)

/-- A parser whose attribute is thrown away. -/
def omit_ (p : Qi β) (init : β) : Qi α := assign p init fun _ a => a

/-- A literal big-endian word. -/
def litWord (n : UInt16) : Qi α :=
  andThen bigWord 0 fun w f a => if w = n then (some f, a) else (none, a)

theorem seq_of_some {p q : Qi α} {f f' : List UInt8} {a a' : α} (h : p f a = (some f', a')) :
    seq p q f a = q f' a' := by
  simp [seq, h]

theorem seq_of_none {p q : Qi α} {f : List UInt8} {a a' : α} (h : p f a = (none, a')) :
    seq p q f a = (none, a') := by
  simp [seq, h]

theorem alt_of_some {p q : Qi α} {f f' : List UInt8} {a a' : α} (h : p f a = (some f', a')) :
    alt p q f a = (some f', a') := by
  simp [alt, h]

theorem alt_of_none {p q : Qi α} {f : List UInt8} {a a' : α} (h : p f a = (none, a')) :
    alt p q f a = q f a' := by
  simp [alt, h]

theorem field_of_some {get : α → β} {set : β → α → α} {p : Qi β} {f f' : List UInt8} {a : α}
    {b : β} (h : p f (get a) = (some f', b)) : field get set p f a = (some f', set b a) := by
  simp [field, h]

theorem andThen_of_some {p : Qi β} {init b : β} {k : β → Qi α} {f f' : List UInt8} {a : α}
    (h : p f init = (some f', b)) : andThen p init k f a = k b f' a := by
  simp [andThen, h]

theorem assign_of_some {p : Qi β} {init b : β} {set : β → α → α} {f f' : List UInt8} {a : α}
    (h : p f init = (some f', b)) : assign p init set f a = (some f', set b a) :=
  andThen_of_some h

theorem assign_of_none {p : Qi β} {init b : β} {set : β → α → α} {f : List UInt8} {a : α}
    (h : p f init = (none, b)) : assign p init set f a = (none, a) := by
  simp [assign, andThen, h]

theorem omit_of_some {p : Qi β} {init b : β} {f f' : List UInt8} {a : α}
    (h : p f init = (some f', b)) : omit_ p init f a = (some f', a) :=
  assign_of_some h

@[simp] theorem lit_cons_self (b : UInt8) (s : List UInt8) (a : α) :
    lit b (b :: s) a = (some s, a) := by
  simp [lit]

theorem lit_cons_of_ne {b c : UInt8} (h : c ≠ b) (s : List UInt8) (a : α) :
    lit b (c :: s) a = (none, a) := by
  simp [lit, h]

/-! ### Parsers undo generators -/

theorem toNat_ofNat (n : ℕ) : (UInt8.ofNat n).toNat = n % 256 := by simp

theorem word_bytes {n : ℕ} (h : n < 65536) :
    word (UInt8.ofNat (n / 256)) (UInt8.ofNat n) = UInt16.ofNat n := by
  rw [word, toNat_ofNat, toNat_ofNat]
  congr 1
  omega

theorem dword_bytes {n : ℕ} (h : n < 4294967296) :
    dword (UInt8.ofNat (n / 16777216)) (UInt8.ofNat (n / 65536)) (UInt8.ofNat (n / 256))
      (UInt8.ofNat n) = UInt32.ofNat n := by
  rw [dword, toNat_ofNat, toNat_ofNat, toNat_ofNat, toNat_ofNat]
  congr 1
  omega

@[simp] theorem byte_byteG (n : ℕ) (s : List UInt8) (a : UInt8) :
    byte (byteG n ++ s) a = (some s, UInt8.ofNat n) := rfl

theorem bigWord_bigWordG {n : ℕ} (h : n < 65536) (s : List UInt8) (a : UInt16) :
    bigWord (bigWordG n ++ s) a = (some s, UInt16.ofNat n) := by
  rw [← word_bytes h]
  rfl

theorem bigDword_bigDwordG {n : ℕ} (h : n < 4294967296) (s : List UInt8) (a : UInt32) :
    bigDword (bigDwordG n ++ s) a = (some s, UInt32.ofNat n) := by
  rw [← dword_bytes h]
  rfl

theorem litWord_bigWordG {n : ℕ} (h : n < 65536) (s : List UInt8) (a : α) :
    litWord (UInt16.ofNat n) (bigWordG n ++ s) a = (some s, a) := by
  rw [litWord, andThen_of_some (bigWord_bigWordG h s 0), if_pos rfl]

theorem chars_append {n : ℕ} : ∀ {cs : List UInt8}, cs.length = n → ∀ (s a : List UInt8),
    chars n (cs ++ s) a = (some s, a ++ cs) := by
  induction n with
  | zero =>
    intro cs hcs s a
    rw [List.length_eq_zero_iff.mp hcs]
    simp [chars]
  | succ n ih =>
    intro cs hcs s a
    cases cs with
    | nil => simp at hcs
    | cons c cs =>
      rw [List.cons_append, chars, ih (by simpa using hcs)]
      simp

theorem plusChar_of_ne_nil {cs : List UInt8} (h : cs ≠ []) (a : List UInt8) :
    plusChar cs a = (some [], a ++ cs) := by
  cases cs with
  | nil => exact absurd rfl h
  | cons c cs => rfl

/-! ### What a parser has read -/

variable {f rest : List UInt8}

theorem lit_eq_some {b : UInt8} {a a' : α} :
    lit b f a = (some rest, a') ↔ f = b :: rest ∧ a' = a := by
  cases f with
  | nil => simp [lit]
  | cons c f =>
    by_cases hc : c = b
    · simp [lit, hc, eq_comm]
    · simp [lit, hc]

theorem byte_eq_some {c a : UInt8} : byte f a = (some rest, c) ↔ f = c :: rest := by
  cases f with
  | nil => simp [byte]
  | cons d f => simp [byte, and_comm]

/-- The bytes of a word are those that it is written with. -/
theorem bytes_word (a b : UInt8) : bigWordG (word a b).toNat = [a, b] := by
  have ha := a.toNat_lt
  have hb := b.toNat_lt
  have hword : (word a b).toNat = a.toNat * 256 + b.toNat := by
    rw [word, UInt16.toNat_ofNat_of_lt' (by show _ < 65536; omega)]
  rw [bigWordG, hword, List.cons.injEq, List.cons.injEq]
  refine ⟨UInt8.toNat_inj.mp ?_, UInt8.toNat_inj.mp ?_, rfl⟩
  · rw [toNat_ofNat]
    omega
  · rw [toNat_ofNat]
    omega

theorem bytes_dword (a b c d : UInt8) : bigDwordG (dword a b c d).toNat = [a, b, c, d] := by
  have ha := a.toNat_lt
  have hb := b.toNat_lt
  have hc := c.toNat_lt
  have hd := d.toNat_lt
  have hdword : (dword a b c d).toNat =
      a.toNat * 16777216 + b.toNat * 65536 + c.toNat * 256 + d.toNat := by
    rw [dword, UInt32.toNat_ofNat_of_lt' (by show _ < 4294967296; omega)]
  rw [bigDwordG, hdword, List.cons.injEq, List.cons.injEq, List.cons.injEq, List.cons.injEq]
  refine ⟨UInt8.toNat_inj.mp ?_, UInt8.toNat_inj.mp ?_, UInt8.toNat_inj.mp ?_,
    UInt8.toNat_inj.mp ?_, rfl⟩
  all_goals
    rw [toNat_ofNat]
    omega

/-- The byte that spells a number, if one byte does. -/
theorem toNat_byte_eq_iff {c : UInt8} {n : ℕ} : c.toNat = n ↔ n < 256 ∧ [c] = byteG n := by
  rw [byteG, List.cons.injEq, and_iff_left rfl, ← UInt8.toNat_inj, toNat_ofNat]
  have hlt := c.toNat_lt
  omega

/-- The bytes that spell a number, if two bytes do. -/
theorem toNat_word_eq_iff {b₁ b₀ : UInt8} {n : ℕ} :
    (word b₁ b₀).toNat = n ↔ n < 65536 ∧ [b₁, b₀] = bigWordG n := by
  constructor
  · rintro rfl
    exact ⟨(word b₁ b₀).toNat_lt, (bytes_word b₁ b₀).symm⟩
  · rintro ⟨hlt, hbytes⟩
    obtain ⟨rfl, hrest⟩ := List.cons.inj hbytes
    obtain ⟨rfl, -⟩ := List.cons.inj hrest
    rw [word_bytes hlt, UInt16.toNat_ofNat_of_lt' hlt]

/-- The bytes that spell a number, if four bytes do. -/
theorem toNat_dword_eq_iff {b₃ b₂ b₁ b₀ : UInt8} {n : ℕ} :
    (dword b₃ b₂ b₁ b₀).toNat = n ↔ n < 4294967296 ∧ [b₃, b₂, b₁, b₀] = bigDwordG n := by
  constructor
  · rintro rfl
    exact ⟨(dword b₃ b₂ b₁ b₀).toNat_lt, (bytes_dword b₃ b₂ b₁ b₀).symm⟩
  · rintro ⟨hlt, hbytes⟩
    rw [bigDwordG, List.cons.injEq, List.cons.injEq, List.cons.injEq, List.cons.injEq] at hbytes
    obtain ⟨rfl, rfl, rfl, rfl, -⟩ := hbytes
    rw [dword_bytes hlt, UInt32.toNat_ofNat_of_lt' hlt]

theorem bigWord_eq_some {w a : UInt16} :
    bigWord f a = (some rest, w) ↔ f = bigWordG w.toNat ++ rest := by
  constructor
  · intro h
    rcases f with _ | ⟨b₁, _ | ⟨b₀, f⟩⟩
    · cases h
    · cases h
    · obtain ⟨hrest, rfl⟩ := Prod.mk.inj h
      rw [bytes_word, ← Option.some_inj.mp hrest]
      rfl
  · rintro rfl
    rw [bigWord_bigWordG w.toNat_lt, UInt16.ofNat_toNat]

theorem bigDword_eq_some {w a : UInt32} :
    bigDword f a = (some rest, w) ↔ f = bigDwordG w.toNat ++ rest := by
  constructor
  · intro h
    rcases f with _ | ⟨b₃, _ | ⟨b₂, _ | ⟨b₁, _ | ⟨b₀, f⟩⟩⟩⟩
    · cases h
    · cases h
    · cases h
    · cases h
    · obtain ⟨hrest, rfl⟩ := Prod.mk.inj h
      rw [bytes_dword, ← Option.some_inj.mp hrest]
      rfl
  · rintro rfl
    rw [bigDword_bigDwordG w.toNat_lt, UInt32.ofNat_toNat]

theorem chars_eq_some {n : ℕ} {a b : List UInt8} : chars n f a = (some rest, b) ↔
    ∃ cs, cs.length = n ∧ f = cs ++ rest ∧ b = a ++ cs := by
  constructor
  · intro h
    induction n generalizing f a with
    | zero =>
      obtain ⟨hrest, rfl⟩ := Prod.mk.inj h
      exact ⟨[], rfl, Option.some_inj.mp hrest, (List.append_nil _).symm⟩
    | succ n ih =>
      cases f with
      | nil => cases h
      | cons c f =>
        obtain ⟨cs, hcs, rfl, rfl⟩ := ih h
        refine ⟨c :: cs, by rw [List.length_cons, hcs], rfl, ?_⟩
        rw [List.append_assoc, List.singleton_append]
  · rintro ⟨cs, hcs, rfl, rfl⟩
    exact chars_append hcs rest a

theorem seq_eq_some {p q : Qi α} {a b : α} : seq p q f a = (some rest, b) ↔
    ∃ f' a', p f a = (some f', a') ∧ q f' a' = (some rest, b) := by
  rcases hp : p f a with ⟨_ | f', a'⟩
  · simp [seq, hp]
  · simp [seq, hp]

theorem andThen_eq_some {p : Qi β} {init : β} {k : β → Qi α} {a b : α} :
    andThen p init k f a = (some rest, b) ↔
      ∃ f' c, p f init = (some f', c) ∧ k c f' a = (some rest, b) := by
  rcases hp : p f init with ⟨_ | f', c⟩
  · simp [andThen, hp]
  · simp [andThen, hp]

theorem assign_eq_some {p : Qi β} {init : β} {set : β → α → α} {a b : α} :
    assign p init set f a = (some rest, b) ↔
      ∃ c, p f init = (some rest, c) ∧ b = set c a := by
  rw [assign, andThen_eq_some]
  constructor
  · rintro ⟨f', c, hp, hset⟩
    obtain ⟨hrest, rfl⟩ := Prod.mk.inj hset
    exact ⟨c, by rw [hp, hrest], rfl⟩
  · rintro ⟨c, hp, rfl⟩
    exact ⟨rest, c, hp, rfl⟩

theorem field_eq_some {get : α → β} {set : β → α → α} {p : Qi β} {a b : α} :
    field get set p f a = (some rest, b) ↔
      ∃ c, p f (get a) = (some rest, c) ∧ b = set c a := by
  rcases hp : p f (get a) with ⟨f', c⟩
  simp only [field, hp, Prod.mk.injEq]
  constructor
  · rintro ⟨rfl, rfl⟩
    exact ⟨c, ⟨rfl, rfl⟩, rfl⟩
  · rintro ⟨c', ⟨rfl, rfl⟩, rfl⟩
    exact ⟨rfl, rfl⟩

theorem alt_eq_some {p q : Qi α} {a b : α} (h : alt p q f a = (some rest, b)) :
    p f a = (some rest, b) ∨ ∃ a', q f a' = (some rest, b) := by
  rcases hp : p f a with ⟨_ | f', a'⟩
  · exact .inr ⟨a', by rw [← h, alt, hp]⟩
  · exact .inl (by rw [← h, alt, hp])

/-! ### Where a parser stops -/

/-- Where the parser stops, and whether it succeeds, does not depend on its attribute; and it stops
somewhere in what it was given. -/
structure Regular (p : Qi α) : Prop where
  oblivious : ∀ f a a', (p f a).1 = (p f a').1
  suffix : ∀ f a rest, (p f a).1 = some rest → rest <:+ f

theorem regular_lit (b : UInt8) : Regular (lit b : Qi α) where
  oblivious f a a' := by
    cases f with
    | nil => rfl
    | cons c f =>
      by_cases hc : c = b
      · simp [lit, hc]
      · simp [lit, hc]
  suffix f a rest h := by
    obtain ⟨rfl, -⟩ := lit_eq_some.mp (Prod.ext h rfl)
    exact List.suffix_cons b rest

theorem regular_byte : Regular byte where
  oblivious f a a' := by
    cases f with
    | nil => rfl
    | cons c f => rfl
  suffix f a rest h := by
    have hf : f = (byte f a).2 :: rest := byte_eq_some.mp (Prod.ext h rfl)
    exact ⟨[(byte f a).2], hf.symm⟩

theorem regular_bigWord : Regular bigWord where
  oblivious f a a' := by rcases f with _ | ⟨b₁, _ | ⟨b₀, f⟩⟩ <;> rfl
  suffix f a rest h := by
    have hf : f = bigWordG (bigWord f a).2.toNat ++ rest := bigWord_eq_some.mp (Prod.ext h rfl)
    exact ⟨bigWordG (bigWord f a).2.toNat, hf.symm⟩

theorem regular_bigDword : Regular bigDword where
  oblivious f a a' := by rcases f with _ | ⟨b₃, _ | ⟨b₂, _ | ⟨b₁, _ | ⟨b₀, f⟩⟩⟩⟩ <;> rfl
  suffix f a rest h := by
    have hf : f = bigDwordG (bigDword f a).2.toNat ++ rest := bigDword_eq_some.mp (Prod.ext h rfl)
    exact ⟨bigDwordG (bigDword f a).2.toNat, hf.symm⟩

theorem regular_chars (n : ℕ) : Regular (chars n) where
  oblivious f a a' := by
    induction n generalizing f a a' with
    | zero => rfl
    | succ n ih =>
      cases f with
      | nil => rfl
      | cons c f => exact ih f (a ++ [c]) (a' ++ [c])
  suffix f a rest h := by
    obtain ⟨cs, -, rfl, -⟩ := chars_eq_some.mp (Prod.ext h rfl)
    exact List.suffix_append cs rest

theorem Regular.seq {p q : Qi α} (hp : Regular p) (hq : Regular q) : Regular (seq p q) where
  oblivious f a a' := by
    have hstop := hp.oblivious f a a'
    rcases h : p f a with ⟨_ | f₁, b⟩ <;> rcases h' : p f a' with ⟨_ | f₂, b'⟩
    · simp [Wire.seq, h, h']
    · simp [h, h'] at hstop
    · simp [h, h'] at hstop
    · obtain rfl : f₁ = f₂ := by simpa [h, h'] using hstop
      simp only [Wire.seq, h, h']
      exact hq.oblivious f₁ b b'
  suffix f a rest h := by
    obtain ⟨f', a', hfirst, hsecond⟩ := seq_eq_some.mp (Prod.ext h rfl)
    exact (hq.suffix f' a' rest (by rw [hsecond])).trans (hp.suffix f a f' (by rw [hfirst]))

theorem Regular.alt {p q : Qi α} (hp : Regular p) (hq : Regular q) : Regular (alt p q) where
  oblivious f a a' := by
    have hstop := hp.oblivious f a a'
    rcases h : p f a with ⟨_ | f₁, b⟩ <;> rcases h' : p f a' with ⟨_ | f₂, b'⟩
    · simp only [Wire.alt, h, h']
      exact hq.oblivious f b b'
    · simp [h, h'] at hstop
    · simp [h, h'] at hstop
    · simpa [Wire.alt, h, h'] using hstop
  suffix f a rest h := by
    rcases alt_eq_some (Prod.ext h rfl) with hfirst | ⟨a', hsecond⟩
    · exact hp.suffix f a rest (by rw [hfirst])
    · exact hq.suffix f a' rest (by rw [hsecond])

theorem Regular.field {get : α → β} {set : β → α → α} {p : Qi β} (hp : Regular p) :
    Regular (field get set p) where
  oblivious f a a' := hp.oblivious f (get a) (get a')
  suffix f a rest h := hp.suffix f (get a) rest h

theorem Regular.andThen {p : Qi β} {init : β} {k : β → Qi α} (hp : Regular p)
    (hk : ∀ b, Regular (k b)) : Regular (andThen p init k) where
  oblivious f a a' := by
    rcases h : p f init with ⟨_ | f', b⟩
    · simp [Wire.andThen, h]
    · simp only [Wire.andThen, h]
      exact (hk b).oblivious f' a a'
  suffix f a rest h := by
    obtain ⟨f', b, hfirst, hsecond⟩ := andThen_eq_some.mp (Prod.ext h rfl)
    exact ((hk b).suffix f' a rest (by rw [hsecond])).trans (hp.suffix f init f' (by rw [hfirst]))

theorem Regular.assign {p : Qi β} (hp : Regular p) (init : β) (set : β → α → α) :
    Regular (assign p init set) :=
  hp.andThen fun _ => ⟨fun _ _ _ => rfl, fun _ _ _ h => by rw [← Option.some_inj.mp h]⟩

/-- What a parser that starts with a literal has read starts with it. -/
theorem eq_cons_of_seq_lit {b : UInt8} {p : Qi α} {f rest : List UInt8} {a : α}
    (h : (seq (lit b) p f a).1 = some rest) : ∃ f', f = b :: f' := by
  obtain ⟨f', a', hlit, -⟩ := seq_eq_some.mp (Prod.ext h rfl)
  exact ⟨f', (lit_eq_some.mp hlit).1⟩

theorem length_lt_of_seq_lit {b : UInt8} {p : Qi α} (hp : Regular p) {f rest : List UInt8} {a : α}
    (h : (seq (lit b) p f a).1 = some rest) : rest.length < f.length := by
  obtain ⟨f', a', hlit, hseq⟩ := seq_eq_some.mp (Prod.ext h rfl)
  have hle := (hp.suffix f' a' rest (by rw [hseq])).length_le
  rw [(lit_eq_some.mp hlit).1, List.length_cons]
  exact Nat.lt_succ_of_le hle

/-! ### What a parser writes -/

/-- A change that any value can come out of is none: what it does to a value is not undone by other
changes of this sort. -/
def OneWay (g : α → α) : Prop := Function.Surjective g → ∀ a, g a = a

theorem oneWay_id : OneWay fun a : α => a := fun _ _ => rfl

/-- To assign is to assign twice. -/
theorem oneWay_of_idempotent {g : α → α} (h : ∀ a, g (g a) = g a) : OneWay g := by
  intro hsurj a
  obtain ⟨b, rfl⟩ := hsurj a
  exact h b

theorem oneWay_append (d : List α) : OneWay fun a => a ++ d := by
  intro hsurj a
  obtain ⟨b, hb⟩ := hsurj []
  have hd : d = [] := (List.append_eq_nil_iff.mp hb).2
  simp only [hd, List.append_nil]

theorem OneWay.comp {g h : α → α} (hg : OneWay g) (hh : OneWay h) : OneWay fun a => g (h a) := by
  intro hsurj a
  have hid : ∀ b, g b = b := hg fun b => (hsurj b).imp' h fun _ hb => hb
  have hsurj' : Function.Surjective h := fun b => (hsurj b).imp fun _ hb => (hid _).symm.trans hb
  exact (hid (h a)).trans (hh hsurj' a)

/-- Changes that leave a value as it was, together, do so each on its own. -/
theorem OneWay.of_comp {g h : α → α} (hg : OneWay g) (hcomp : ∀ a, g (h a) = a) :
    (∀ a, g a = a) ∧ ∀ a, h a = a := by
  have hid : ∀ a, g a = a := hg fun a => ⟨h a, hcomp a⟩
  exact ⟨hid, fun a => (hid (h a)).symm.trans (hcomp a)⟩

/-- A change of one part of a value. -/
theorem OneWay.part (get : α → β) (set : β → α → α) {h : β → β} (hh : OneWay h)
    (get_set : ∀ b a, get (set b a) = b) (set_get : ∀ a, set (get a) a = a) :
    OneWay fun a => set (h (get a)) a := by
  intro hsurj a
  have hsurj' : Function.Surjective h := fun b => by
    obtain ⟨a', ha'⟩ := hsurj (set b a)
    have hget : get (set (h (get a')) a') = get (set b a) := congrArg get ha'
    exact ⟨get a', by rw [← get_set (h (get a')) a', hget, get_set]⟩
  dsimp only
  rw [hh hsurj', set_get]

/-- There is no way back from what the parser does to its attribute. -/
def WritesOneWay (p : Qi α) : Prop := ∀ f, OneWay fun a => (p f a).2

theorem lit_snd (b : UInt8) (f : List UInt8) (a : α) : (lit b f a).2 = a := by
  cases f with
  | nil => rfl
  | cons c f =>
    rw [lit]
    split <;> rfl

theorem writesOneWay_lit (b : UInt8) : WritesOneWay (lit b : Qi α) := fun f => by
  simp only [lit_snd]
  exact oneWay_id

theorem writesOneWay_bigDword : WritesOneWay bigDword := fun f => by
  refine oneWay_of_idempotent fun a => ?_
  rcases f with _ | ⟨b₃, _ | ⟨b₂, _ | ⟨b₁, _ | ⟨b₀, f⟩⟩⟩⟩ <;> simp only [bigDword]

/-- Characters that are missing do not take back those that were there. -/
theorem chars_snd (n : ℕ) : ∀ f a : List UInt8, (chars n f a).2 = a ++ f.take n := by
  induction n with
  | zero => exact fun f a => (List.append_nil a).symm
  | succ n ih =>
    intro f a
    cases f with
    | nil => exact (List.append_nil a).symm
    | cons c f => rw [chars, ih, List.append_assoc, List.singleton_append, List.take_succ_cons]

theorem writesOneWay_chars (n : ℕ) : WritesOneWay (chars n) := fun f => by
  simp only [chars_snd]
  exact oneWay_append _

theorem WritesOneWay.seq {p q : Qi α} (hreg : Regular p) (hp : WritesOneWay p)
    (hq : WritesOneWay q) : WritesOneWay (seq p q) := by
  intro f hsurj a
  rcases hstop : (p f a).1 with _ | f'
  · have hseq (a' : α) : (Wire.seq p q f a').2 = (p f a').2 := by
      rw [seq_of_none (Prod.ext ((hreg.oblivious f a' a).trans hstop) rfl)]
    simp only [hseq] at hsurj ⊢
    exact hp f hsurj a
  · have hseq (a' : α) : (Wire.seq p q f a').2 = (q f' (p f a').2).2 := by
      rw [seq_of_some (Prod.ext ((hreg.oblivious f a' a).trans hstop) rfl)]
    simp only [hseq] at hsurj ⊢
    exact (hq f').comp (hp f) hsurj a

theorem WritesOneWay.alt {p q : Qi α} (hreg : Regular p) (hp : WritesOneWay p)
    (hq : WritesOneWay q) : WritesOneWay (alt p q) := by
  intro f hsurj a
  rcases hstop : (p f a).1 with _ | f'
  · have halt (a' : α) : (Wire.alt p q f a').2 = (q f (p f a').2).2 := by
      rw [alt_of_none (Prod.ext ((hreg.oblivious f a' a).trans hstop) rfl)]
    simp only [halt] at hsurj ⊢
    exact (hq f).comp (hp f) hsurj a
  · have halt (a' : α) : (Wire.alt p q f a').2 = (p f a').2 := by
      rw [alt_of_some (Prod.ext ((hreg.oblivious f a' a).trans hstop) rfl)]
    simp only [halt] at hsurj ⊢
    exact hp f hsurj a

theorem WritesOneWay.field {get : α → β} {set : β → α → α} {p : Qi β} (hp : WritesOneWay p)
    (get_set : ∀ b a, get (set b a) = b) (set_get : ∀ a, set (get a) a = a) :
    WritesOneWay (field get set p) :=
  fun f => (hp f).part get set get_set set_get

theorem WritesOneWay.andThen {p : Qi β} {init : β} {k : β → Qi α}
    (hk : ∀ b, WritesOneWay (k b)) : WritesOneWay (andThen p init k) := by
  intro f
  rcases h : p f init with ⟨_ | f', b⟩
  · simp only [Wire.andThen, h]
    exact oneWay_id
  · simp only [Wire.andThen, h]
    exact hk b f'

theorem writesOneWay_assign {p : Qi β} {init : β} {set : β → α → α}
    (hset : ∀ b a, set b (set b a) = set b a) : WritesOneWay (assign p init set) :=
  .andThen fun b _ => oneWay_of_idempotent (hset b)

/-! ### How much a parser appends -/

/-- The change makes a value larger, by the same number whatever the value is. -/
def Grows (size : α → ℕ) (g : α → α) : Prop := ∃ k, ∀ a, size (g a) = size a + k

theorem grows_of_same {size : α → ℕ} {g : α → α} (h : ∀ a, size (g a) = size a) : Grows size g :=
  ⟨0, h⟩

theorem grows_append (d : List α) : Grows List.length fun a => a ++ d :=
  ⟨d.length, fun _ => List.length_append⟩

theorem Grows.comp {size : α → ℕ} {g h : α → α} (hg : Grows size g) (hh : Grows size h) :
    Grows size fun a => g (h a) := by
  obtain ⟨k, hk⟩ := hg
  obtain ⟨k', hk'⟩ := hh
  exact ⟨k' + k, fun a => by rw [hk, hk', Nat.add_assoc]⟩

/-- The parser appends something to its attribute, and how much does not depend on the attribute. -/
def Appends (size : α → ℕ) (p : Qi α) : Prop := ∀ f, Grows size fun a => (p f a).2

theorem appends_lit (size : α → ℕ) (b : UInt8) : Appends size (lit b) :=
  fun f => grows_of_same fun a => by rw [lit_snd]

theorem appends_chars (n : ℕ) : Appends List.length (chars n) :=
  fun f => ⟨(f.take n).length, fun a => by dsimp only; rw [chars_snd, List.length_append]⟩

theorem Appends.seq {size : α → ℕ} {p q : Qi α} (hreg : Regular p) (hp : Appends size p)
    (hq : Appends size q) : Appends size (seq p q) := by
  intro f
  by_cases hstop : ∃ f' a, (p f a).1 = some f'
  · obtain ⟨f', a, hstop⟩ := hstop
    have hseq (a' : α) : (Wire.seq p q f a').2 = (q f' (p f a').2).2 := by
      rw [seq_of_some (Prod.ext ((hreg.oblivious f a' a).trans hstop) rfl)]
    simp only [hseq]
    exact (hq f').comp (hp f)
  · have hseq (a' : α) : (Wire.seq p q f a').2 = (p f a').2 := by
      rcases h : p f a' with ⟨_ | f', b⟩
      · rw [seq_of_none h]
      · exact absurd ⟨f', a', by rw [h]⟩ hstop
    simp only [hseq]
    exact hp f

theorem Appends.alt {size : α → ℕ} {p q : Qi α} (hreg : Regular p) (hp : Appends size p)
    (hq : Appends size q) : Appends size (alt p q) := by
  intro f
  by_cases hstop : ∃ f' a, (p f a).1 = some f'
  · obtain ⟨f', a, hstop⟩ := hstop
    have halt (a' : α) : (Wire.alt p q f a').2 = (p f a').2 := by
      rw [alt_of_some (Prod.ext ((hreg.oblivious f a' a).trans hstop) rfl)]
    simp only [halt]
    exact hp f
  · have halt (a' : α) : (Wire.alt p q f a').2 = (q f (p f a').2).2 := by
      rcases h : p f a' with ⟨_ | f', b⟩
      · rw [alt_of_none h]
      · exact absurd ⟨f', a', by rw [h]⟩ hstop
    simp only [halt]
    exact (hq f).comp (hp f)

theorem Appends.andThen {size : α → ℕ} {p : Qi β} {init : β} {k : β → Qi α}
    (hk : ∀ b, Appends size (k b)) : Appends size (andThen p init k) := by
  intro f
  rcases h : p f init with ⟨_ | f', b⟩
  · simp only [Wire.andThen, h]
    exact grows_of_same fun _ => rfl
  · simp only [Wire.andThen, h]
    exact hk b f'

theorem Appends.field {size : α → ℕ} {size' : β → ℕ} {get : α → β} {set : β → α → α} {p : Qi β}
    (hp : Appends size' p) (hget : ∀ a, size a = size' (get a))
    (hset : ∀ b a, size (set b a) = size' b) : Appends size (field get set p) := by
  intro f
  obtain ⟨k, hk⟩ := hp f
  exact ⟨k, fun a => by rw [hget a, ← hk (get a)]; exact hset _ a⟩

/-- A part of the attribute that has nothing to do with its size. -/
theorem appends_field_of_same {size : α → ℕ} {get : α → β} {set : β → α → α} {p : Qi β}
    (hset : ∀ b a, size (set b a) = size a) : Appends size (field get set p) :=
  fun _ => grows_of_same fun a => hset _ a

theorem appends_assign_of_same {size : α → ℕ} {p : Qi β} {init : β} {set : β → α → α}
    (hset : ∀ b a, size (set b a) = size a) : Appends size (assign p init set) :=
  .andThen fun b _ => grows_of_same fun a => hset b a

end Wire
