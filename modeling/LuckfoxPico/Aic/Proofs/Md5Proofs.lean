import Mathlib.Algebra.Group.Nat.Defs
import LuckfoxPico.Aic.Md5
import LuckfoxPico.Stream.Blocks

/-!
# Proofs: the digest of a firmware file

The digest does not depend on how the file is cut into pieces: it is that of the whole padded file,
taken block by block.
-/

namespace Aic.Md5

open Blocks

/-- A number in eight bytes, the lowest one first. -/
def le64 (n : Nat) : List UInt8 :=
  [UInt8.ofNat n, UInt8.ofNat (n / 2 ^ 8), UInt8.ofNat (n / 2 ^ 16), UInt8.ofNat (n / 2 ^ 24),
    UInt8.ofNat (n / 2 ^ 32), UInt8.ofNat (n / 2 ^ 40), UInt8.ofNat (n / 2 ^ 48),
    UInt8.ofNat (n / 2 ^ 56)]

/-- The padded message: the mark, zeros up to eight bytes short of a block, and the length in
bits. -/
def pad (m : List UInt8) : List UInt8 :=
  m ++ ((0x80 :: List.replicate ((119 - m.length % 64) % 64) 0) ++ le64 (8 * m.length))

/-- The digest of a message: its padded blocks, one after the other. -/
def digest (m : List UInt8) : List UInt8 :=
  let state := (feed 64 transform initState (pad m)).1
  encode [state.a, state.b, state.c, state.d]

/-- What the context holds when it has taken `m`. -/
structure Holds (context : Ctx) (m : List UInt8) : Prop where
  state : context.state = (feed 64 transform initState m).1
  room : context.buffer.length = 64
  rest : context.buffer.take (m.length % 64) = (feed 64 transform initState m).2
  count0 : context.count0.toNat = 8 * m.length % 2 ^ 32
  count1 : context.count1.toNat = 8 * m.length / 2 ^ 32 % 2 ^ 32

section Update

variable {context : Ctx} {m input : List UInt8}

theorem holds_init (hroom : context.buffer.length = 64) : Holds (init context) [] := by
  have hnil : feed 64 transform initState [] = (initState, []) := feed_of_lt (by decide)
  refine ⟨?_, hroom, ?_, rfl, rfl⟩
  · rw [hnil]
    rfl
  · rw [hnil]
    rfl

theorem toNat_shift (w : UInt32) {k : UInt32} (hk : k.toNat < 32) :
    (w >>> k).toNat = w.toNat / 2 ^ k.toNat := by
  rw [UInt32.toNat_shiftRight, Nat.mod_eq_of_lt hk, Nat.shiftRight_eq_div_pow]

theorem Holds.index_eq (h : Holds context m) :
    (context.count0 >>> 3 &&& 0x3F).toNat = m.length % 64 := by
  have hmask : (0x3F : UInt32).toNat = 2 ^ 6 - 1 := rfl
  have hthree : (3 : UInt32).toNat = 3 := rfl
  rw [UInt32.toNat_and, hmask, Nat.and_two_pow_sub_one_eq_mod, toNat_shift _ (by decide), hthree,
    h.count0]
  omega

theorem toNat_bits {n : Nat} (hn : n < 2 ^ 32) : (UInt32.ofNat n <<< 3).toNat = 8 * n % 2 ^ 32 := by
  have hthree : (3 : UInt32).toNat % 32 = 3 := rfl
  rw [UInt32.toNat_shiftLeft, hthree, UInt32.toNat_ofNat', Nat.mod_eq_of_lt hn, Nat.shiftLeft_eq]
  omega

theorem toNat_high {n : Nat} (hn : n < 2 ^ 32) : (UInt32.ofNat n >>> 29).toNat = n / 2 ^ 29 := by
  rw [toNat_shift _ (by decide), UInt32.toNat_ofNat', Nat.mod_eq_of_lt hn]
  rfl

theorem count_update (context : Ctx) (input : List UInt8) :
    (update context input).count0 = (count context (UInt32.ofNat input.length)).count0 ∧
      (update context input).count1 = (count context (UInt32.ofNat input.length)).count1 := by
  unfold update
  dsimp only
  split <;> exact ⟨rfl, rfl⟩

/-- The carry out of the lower word is seen by the comparison. -/
theorem Holds.count (h : Holds context m) {n : Nat} (hn : n < 2 ^ 32) :
    (count context (UInt32.ofNat n)).count0.toNat = 8 * (m.length + n) % 2 ^ 32 ∧
      (count context (UInt32.ofNat n)).count1.toNat =
        8 * (m.length + n) / 2 ^ 32 % 2 ^ 32 := by
  have hone : (1 : UInt32).toNat = 1 := rfl
  have hsum : (context.count0 + UInt32.ofNat n <<< 3).toNat =
      (8 * m.length % 2 ^ 32 + 8 * n % 2 ^ 32) % 2 ^ 32 := by
    rw [UInt32.toNat_add, h.count0, toNat_bits hn]
  unfold Md5.count
  dsimp only
  constructor
  · rw [hsum]
    omega
  · rw [UInt32.toNat_add, toNat_high hn]
    split
    · next hlt =>
      rw [UInt32.lt_iff_toNat_lt, hsum, toNat_bits hn] at hlt
      rw [UInt32.toNat_add, h.count1, hone]
      omega
    · next hlt =>
      rw [UInt32.lt_iff_toNat_lt, hsum, toNat_bits hn] at hlt
      rw [h.count1]
      omega

theorem length_memcpy {buffer src : List UInt8} {i : Nat} (h : i + src.length ≤ buffer.length) :
    (memcpy buffer i src).length = buffer.length := by
  rw [memcpy, List.length_append, List.length_append, List.length_take, List.length_drop]
  omega

theorem take_memcpy {buffer src : List UInt8} {i : Nat} (h : i + src.length ≤ buffer.length) :
    (memcpy buffer i src).take (i + src.length) = buffer.take i ++ src := by
  refine List.take_left' ?_
  rw [List.length_append, List.length_take]
  omega

/-- The loop takes all whole blocks, if its counter does not wrap. -/
theorem feed_updateLoop {fuel i : Nat} {state : State} (hlen : input.length + 64 < 2 ^ 32)
    (hi : i ≤ input.length) (hfuel : input.length - i ≤ fuel) :
    feed 64 transform state (input.drop i) =
      ((updateLoop input fuel i state).2, input.drop (updateLoop input fuel i state).1) := by
  induction fuel generalizing i state with
  | zero =>
    refine feed_of_lt ?_
    rw [List.length_drop]
    omega
  | succ fuel ih =>
    have hnext : (i + 64) % 0x100000000 = i + 64 := by omega
    rw [updateLoop, hnext]
    split
    · next hle =>
      rw [feed_of_le (by decide) (by rw [List.length_drop]; omega), List.drop_drop]
      exact ih hle (by omega)
    · next hlt =>
      refine feed_of_lt ?_
      rw [List.length_drop]
      omega

theorem Holds.length_taken (h : Holds context m) :
    (context.buffer.take (m.length % 64)).length = m.length % 64 := by
  have hroom := h.room
  exact List.length_take_of_le (by omega)

theorem Holds.feed_append (h : Holds context m) :
    feed 64 transform initState (m ++ input) =
      feed 64 transform context.state (context.buffer.take (m.length % 64) ++ input) := by
  rw [Blocks.feed_append (by decide), ← h.state, ← h.rest]

/-- A piece that fills the buffer: the buffer and all further blocks are transformed, and the rest
is at the front of the buffer. -/
theorem Holds.update_of_le (h : Holds context m) (hlen : input.length + 64 < 2 ^ 32)
    (hpart : 64 - m.length % 64 ≤ input.length) :
    ∃ buffer rest, buffer.length = 64 ∧ (update context input).buffer = memcpy buffer 0 rest ∧
      feed 64 transform initState (m ++ input) = ((update context input).state, rest) := by
  have hroom := h.room
  have htaken := h.length_taken
  have hbuffer : memcpy context.buffer (m.length % 64) (input.take (64 - m.length % 64)) =
      context.buffer.take (m.length % 64) ++ input.take (64 - m.length % 64) := by
    rw [memcpy, List.length_take_of_le hpart, List.drop_eq_nil_of_le (by omega), List.append_nil]
  have hblock : (memcpy context.buffer (m.length % 64)
      (input.take (64 - m.length % 64))).length = 64 := by
    rw [hbuffer, List.length_append, htaken, List.length_take_of_le hpart]
    omega
  have hloop : feed 64 transform initState (m ++ input) =
      feed 64 transform (transform context.state (memcpy context.buffer (m.length % 64)
        (input.take (64 - m.length % 64)))) (input.drop (64 - m.length % 64)) := by
    rw [h.feed_append, ← feed_block (by decide) hblock, hbuffer, List.append_assoc,
      List.take_append_drop]
  rw [feed_updateLoop hlen hpart (Nat.sub_le _ _)] at hloop
  unfold Md5.update
  dsimp only
  rw [h.index_eq, if_pos hpart]
  exact ⟨_, _, hblock, rfl, hloop⟩

/-- A piece that does not fill the buffer is appended to what is in it. -/
theorem Holds.update_of_lt (h : Holds context m) (hpart : input.length < 64 - m.length % 64) :
    (update context input).buffer = memcpy context.buffer (m.length % 64) input ∧
      feed 64 transform initState (m ++ input) =
        ((update context input).state, context.buffer.take (m.length % 64) ++ input) := by
  have htaken := h.length_taken
  unfold Md5.update
  dsimp only
  rw [h.index_eq, if_neg (Nat.not_le_of_lt hpart)]
  refine ⟨rfl, ?_⟩
  rw [h.feed_append]
  refine feed_of_lt ?_
  rw [List.length_append, htaken]
  omega

/-- A piece is taken, whatever is in the buffer. -/
theorem Holds.update (h : Holds context m) (hlen : input.length + 64 < 2 ^ 32) :
    Holds (Md5.update context input) (m ++ input) := by
  obtain ⟨hcount0, hcount1⟩ := h.count (n := input.length) (by omega)
  rw [← (count_update context input).1, ← List.length_append] at hcount0
  rw [← (count_update context input).2, ← List.length_append] at hcount1
  have hlength := @length_rest _ _ 64 transform (by decide) initState (m ++ input)
  have hmod := Nat.mod_lt (m ++ input).length (by decide : 0 < 64)
  have hroom := h.room
  by_cases hpart : 64 - m.length % 64 ≤ input.length
  · obtain ⟨buffer, rest, hblock, hbuffer, hfeed⟩ := h.update_of_le hlen hpart
    rw [hfeed] at hlength
    change rest.length = _ at hlength
    have hfits : 0 + rest.length ≤ buffer.length := by omega
    have htake := take_memcpy hfits
    rw [Nat.zero_add, hlength] at htake
    refine ⟨by rw [hfeed], ?_, ?_, hcount0, hcount1⟩
    · rw [hbuffer, length_memcpy hfits, hblock]
    · rw [hfeed, hbuffer]
      exact htake
  · obtain ⟨hbuffer, hfeed⟩ := h.update_of_lt (Nat.lt_of_not_le hpart)
    have hfits : m.length % 64 + input.length ≤ context.buffer.length := by omega
    have hindex : (m ++ input).length % 64 = m.length % 64 + input.length := by
      rw [List.length_append]
      omega
    refine ⟨by rw [hfeed], ?_, ?_, hcount0, hcount1⟩
    · rw [hbuffer, length_memcpy hfits, hroom]
    · rw [hfeed, hbuffer, hindex]
      exact take_memcpy hfits

end Update

/-! ## The end -/

section Final

variable {context : Ctx} {m : List UInt8}

theorem toNat_byte (w : UInt32) : (w &&& 0xFF).toUInt8.toNat = w.toNat % 256 := by
  have hmask : (0xFF : UInt32).toNat = 2 ^ 8 - 1 := rfl
  rw [UInt32.toNat_toUInt8, UInt32.toNat_and, hmask, Nat.and_two_pow_sub_one_eq_mod]
  omega

theorem byte_eq {w : UInt32} {n : Nat} (h : w.toNat % 256 = n % 256) :
    (w &&& 0xFF).toUInt8 = UInt8.ofNat n := by
  apply UInt8.toNat_inj.mp
  rw [toNat_byte, h, UInt8.toNat_ofNat']

/-- The count is written as one number of eight bytes. -/
theorem Holds.encode_count (h : Holds context m) :
    encode [context.count0, context.count1] = le64 (8 * m.length) := by
  have h0 := h.count0
  have h1 := h.count1
  have h8 : ∀ w : UInt32, (w >>> 8).toNat = w.toNat / 2 ^ 8 := fun w => toNat_shift w (by decide)
  have h16 : ∀ w : UInt32, (w >>> 16).toNat = w.toNat / 2 ^ 16 := fun w => toNat_shift w (by decide)
  have h24 : ∀ w : UInt32, (w >>> 24).toNat = w.toNat / 2 ^ 24 := fun w => toNat_shift w (by decide)
  simp only [encode, le64, List.flatMap_cons, List.flatMap_nil, List.cons_append, List.nil_append,
    List.append_nil]
  rw [byte_eq (n := 8 * m.length), byte_eq (n := 8 * m.length / 2 ^ 8),
    byte_eq (n := 8 * m.length / 2 ^ 16), byte_eq (n := 8 * m.length / 2 ^ 24),
    byte_eq (n := 8 * m.length / 2 ^ 32), byte_eq (n := 8 * m.length / 2 ^ 40),
    byte_eq (n := 8 * m.length / 2 ^ 48), byte_eq (n := 8 * m.length / 2 ^ 56)]
  all_goals first | rw [h8] | rw [h16] | rw [h24] | skip
  all_goals omega

/-- The padding, as `MD5Final` cuts it off `PADDING`. -/
theorem take_padding {n : Nat} (hn : n < 64) :
    padding.take (if n < 56 then 56 - n else 120 - n) =
      0x80 :: List.replicate ((119 - n) % 64) 0 := by
  have hlen : (if n < 56 then 56 - n else 120 - n) = (119 - n) % 64 + 1 := by
    split <;> omega
  have hle : (119 - n) % 64 ≤ 63 := by omega
  rw [hlen, padding, List.take_succ_cons, List.take_replicate, Nat.min_eq_left hle]

theorem Holds.final (h : Holds context m) : final context = digest m := by
  have hmod := Nat.mod_lt m.length (by decide : 0 < 64)
  have hpad := take_padding hmod
  have hshort : (0x80 :: List.replicate ((119 - m.length % 64) % 64) (0 : UInt8)).length + 64 <
      2 ^ 32 := by
    rw [List.length_cons, List.length_replicate]
    omega
  have h₁ := h.update hshort
  have hle : (le64 (8 * m.length)).length + 64 < 2 ^ 32 := by
    change 8 + 64 < 2 ^ 32
    decide
  have h₂ := h₁.update hle
  unfold Md5.final digest
  dsimp only
  rw [h.index_eq, hpad, h.encode_count, h₂.state, pad, List.append_assoc]

/-- The padded message has whole blocks only. -/
theorem pad_blocks (m : List UInt8) : (pad m).length % 64 = 0 := by
  have hle : (le64 (8 * m.length)).length = 8 := rfl
  rw [pad, List.length_append, List.length_append, List.length_cons, List.length_replicate, hle]
  omega

theorem Holds.foldl (h : Holds context m) {chunks : List (List UInt8)}
    (hlen : ∀ c ∈ chunks, c.length + 64 < 2 ^ 32) :
    Holds (chunks.foldl Md5.update context) (m ++ chunks.flatten) := by
  induction chunks generalizing context m with
  | nil => simpa using h
  | cons c chunks ih =>
    have hc := h.update (hlen c List.mem_cons_self)
    have := ih hc fun x hx => hlen x (List.mem_cons_of_mem _ hx)
    rwa [List.append_assoc] at this

/-- However a message is cut into pieces, each short enough for the loop of `MD5Update`, the digest
is that of the whole message: its padding makes it whole blocks, which are transformed in turn. What
was in the context before does not matter. -/
theorem digest_of_chunks (hroom : context.buffer.length = 64) {chunks : List (List UInt8)}
    (hlen : ∀ c ∈ chunks, c.length + 64 < 2 ^ 32) :
    Md5.final (chunks.foldl Md5.update (init context)) = digest chunks.flatten ∧
      (feed 64 transform initState (pad chunks.flatten)).2 = [] := by
  constructor
  · exact ((holds_init hroom).foldl hlen).final
  · refine List.length_eq_zero_iff.mp ?_
    rw [length_rest (by decide), pad_blocks]

/-- A context with something in its buffer. -/
def sampleCtx : Ctx := ⟨7, 7, initState, List.replicate 64 0xFF⟩

/-- The message `abc`, in two pieces. -/
theorem digest_of_chunks_two :
    Md5.final ([[97], [98, 99]].foldl Md5.update (init sampleCtx)) = digest [97, 98, 99] :=
  (@digest_of_chunks sampleCtx (by decide) [[97], [98, 99]] (by decide)).1

example : Md5.final (Md5.update (init sampleCtx) [97, 98, 99]) =
    [0x90, 0x01, 0x50, 0x98, 0x3c, 0xd2, 0x4f, 0xb0, 0xd6, 0x96, 0x3f, 0x7d, 0x28, 0xe1, 0x7f,
      0x72] := by
  decide +kernel

end Final

end Aic.Md5
