import Mathlib

/-! # Philox

    The counter-based generator of the keyed random operators: ten rounds over a counter of 128
    bits under a key of 64. Nothing has state, so what is said of streams is said of the blocks
    that different counters give.
-/

open Function

namespace Camel.Random.Philox

/-- 128 bits of key or counter material. The fields are the halves of the value. -/
structure Key where
  hi : UInt64
  lo : UInt64

/-- The four words of a counter on its way through the rounds. -/
@[ext]
structure Block where
  word0 : UInt32
  word1 : UInt32
  word2 : UInt32
  word3 : UInt32

/-! ## The Generator -/

def kM0 : UInt32 := 0xD2511F53
def kM1 : UInt32 := 0xCD9E8D57
def kW0 : UInt32 := 0x9E3779B9
def kW1 : UInt32 := 0xBB67AE85

/-- The product of two words, not cut. -/
def widened (a b : UInt32) : UInt64 := a.toUInt64 * b.toUInt64

def highWord (p : UInt64) : UInt32 := (p >>> 32).toUInt32

def lowWord (p : UInt64) : UInt32 := p.toUInt32

/-- Two words as one, as `(hi << 32) | lo`. -/
def joinWords (hi lo : UInt32) : UInt64 := (hi.toUInt64 <<< 32) ||| lo.toUInt64

/-- One turn of the loop of `block`. -/
def round (k0 k1 : UInt32) (c : Block) : Block :=
  let p0 := widened kM0 c.word0
  let p1 := widened kM1 c.word2
  { word0 := highWord p1 ^^^ c.word1 ^^^ k0
    word1 := lowWord p1
    word2 := highWord p0 ^^^ c.word3 ^^^ k1
    word3 := lowWord p0 }

/-- The loop of `block`, with the turns that are left. -/
def rounds : Nat → UInt32 → UInt32 → Block → Block
  | 0, _, _, c => c
  | n + 1, k0, k1, c => rounds n (k0 + kW0) (k1 + kW1) (round k0 k1 c)

/-- The words of a counter, low first. -/
def counterWords (counterLo counterHi : UInt64) : Block where
  word0 := lowWord counterLo
  word1 := highWord counterLo
  word2 := lowWord counterHi
  word3 := highWord counterHi

def block (key counterLo counterHi : UInt64) : Block :=
  rounds 10 (lowWord key) (highWord key) (counterWords counterLo counterHi)

def kSplitA : UInt64 := 0x9E3779B97F4A7C15
def kSplitB : UInt64 := 0xD1B54A32D192ED03
def kPermutationDomain : UInt64 := 0x8000000000000000

/-- The arguments of a call of `block`. -/
structure Call where
  key : UInt64
  counterLo : UInt64
  counterHi : UInt64

def Call.run (c : Call) : Block := block c.key c.counterLo c.counterHi

def deriveCall (key : Key) (domain : UInt64) : Call := ⟨key.lo, key.hi, domain⟩

def derive (key : Key) (domain : UInt64) : Key :=
  let hash := (deriveCall key domain).run
  ⟨joinWords hash.word2 hash.word3, joinWords hash.word0 hash.word1⟩

def drawCall (key : Key) (index : UInt64) : Call := ⟨key.lo, key.hi, kPermutationDomain ||| index⟩

def draw (key : Key) (index : UInt64) : UInt64 :=
  let hash := (drawCall key index).run
  joinWords hash.word0 hash.word1

/-- The key of a seed. -/
def key (seed : UInt64) : Key := derive ⟨0, seed⟩ 0

/-- Two independent child keys. -/
def split (key : Key) : Key × Key := (derive key kSplitA, derive key kSplitB)

/-- The calls of `block` that `split` makes. -/
def splitCalls (key : Key) : List Call := [deriveCall key kSplitA, deriveCall key kSplitB]

/-! ## Words -/

theorem lowWord_widened (a b : UInt32) : lowWord (widened a b) = a * b := by
  unfold lowWord widened
  rw [UInt64.toUInt32_mul, UInt32.toUInt32_toUInt64, UInt32.toUInt32_toUInt64]

theorem toNat_joinWords (hi lo : UInt32) :
    (joinWords hi lo).toNat = 2 ^ 32 * hi.toNat + lo.toNat := by
  have hhi : hi.toNat < 2 ^ 32 := hi.toNat_lt
  have hlo : lo.toNat < 2 ^ 32 := lo.toNat_lt
  have hshift : (hi.toUInt64 <<< 32).toNat = 2 ^ 32 * hi.toNat := by
    rw [UInt64.toNat_shiftLeft, UInt32.toNat_toUInt64]
    show hi.toNat <<< 32 % 2 ^ 64 = _
    rw [Nat.shiftLeft_eq, Nat.mod_eq_of_lt (by omega), Nat.mul_comm]
  unfold joinWords
  rw [UInt64.toNat_or, hshift, UInt32.toNat_toUInt64, Nat.two_pow_add_eq_or_of_lt hlo]

variable (w : UInt64) (k0 k1 : UInt32)

theorem toNat_lowWord : (lowWord w).toNat = w.toNat % 2 ^ 32 := UInt64.toNat_toUInt32 w

theorem toNat_highWord : (highWord w).toNat = w.toNat / 2 ^ 32 := by
  have hw : w.toNat < 2 ^ 64 := w.toNat_lt
  unfold highWord
  rw [UInt64.toNat_toUInt32, UInt64.toNat_shiftRight]
  show w.toNat >>> 32 % 2 ^ 32 = _
  rw [Nat.shiftRight_eq_div_pow, Nat.mod_eq_of_lt (by omega)]

@[simp] theorem lowWord_joinWords (hi lo : UInt32) : lowWord (joinWords hi lo) = lo := by
  apply UInt32.toNat_inj.1
  have hlo : lo.toNat < 2 ^ 32 := lo.toNat_lt
  rw [toNat_lowWord, toNat_joinWords]
  omega

@[simp] theorem highWord_joinWords (hi lo : UInt32) : highWord (joinWords hi lo) = hi := by
  apply UInt32.toNat_inj.1
  have hlo : lo.toNat < 2 ^ 32 := lo.toNat_lt
  rw [toNat_highWord, toNat_joinWords]
  omega

@[simp] theorem joinWords_words : joinWords (highWord w) (lowWord w) = w := by
  apply UInt64.toNat_inj.1
  rw [toNat_joinWords, toNat_highWord, toNat_lowWord]
  omega

theorem joinWords_inj {hi lo hi' lo' : UInt32} :
    joinWords hi lo = joinWords hi' lo' ↔ hi = hi' ∧ lo = lo' := by
  constructor
  · intro h
    constructor
    · rw [← highWord_joinWords hi lo, h, highWord_joinWords]
    · rw [← lowWord_joinWords hi lo, h, lowWord_joinWords]
  · rintro ⟨rfl, rfl⟩
    rfl

/-! ## A Round Can Be Undone -/

/-- The inverses of the multipliers, which are odd. -/
def inverseM0 : UInt32 := 0x991A7CDB
def inverseM1 : UInt32 := 0x6D7CAE67

theorem kM0_inverse : kM0 * inverseM0 = 1 := by decide

theorem kM1_inverse : kM1 * inverseM1 = 1 := by decide

/-- The words before a round. -/
def unround (k0 k1 : UInt32) (d : Block) : Block :=
  let c0 := d.word3 * inverseM0
  let c2 := d.word1 * inverseM1
  { word0 := c0
    word1 := highWord (widened kM1 c2) ^^^ d.word0 ^^^ k0
    word2 := c2
    word3 := highWord (widened kM0 c0) ^^^ d.word2 ^^^ k1 }

theorem mul_mul_inverse {m i : UInt32} (h : m * i = 1) (x : UInt32) : m * x * i = x := by
  rw [UInt32.mul_comm m x, UInt32.mul_assoc, h, UInt32.mul_one]

theorem mul_inverse_mul {m i : UInt32} (h : m * i = 1) (x : UInt32) : m * (x * i) = x := by
  rw [UInt32.mul_comm x i, ← UInt32.mul_assoc, h, UInt32.one_mul]

/-- Mixing a word in twice takes it out again. -/
theorem xor_twice (h x k : UInt32) : h ^^^ (h ^^^ x ^^^ k) ^^^ k = x := by
  rw [← UInt32.xor_assoc, ← UInt32.xor_assoc, UInt32.xor_self, UInt32.zero_xor, UInt32.xor_assoc,
    UInt32.xor_self, UInt32.xor_zero]

theorem unround_round (c : Block) : unround k0 k1 (round k0 k1 c) = c := by
  have h0 : kM0 * c.word0 * inverseM0 = c.word0 := mul_mul_inverse kM0_inverse _
  have h2 : kM1 * c.word2 * inverseM1 = c.word2 := mul_mul_inverse kM1_inverse _
  unfold unround round
  ext1
  · show lowWord (widened kM0 c.word0) * inverseM0 = c.word0
    rw [lowWord_widened, h0]
  · show highWord (widened kM1 (lowWord (widened kM1 c.word2) * inverseM1)) ^^^ _ ^^^ k0 = c.word1
    rw [lowWord_widened, h2, xor_twice]
  · show lowWord (widened kM1 c.word2) * inverseM1 = c.word2
    rw [lowWord_widened, h2]
  · show highWord (widened kM0 (lowWord (widened kM0 c.word0) * inverseM0)) ^^^ _ ^^^ k1 = c.word3
    rw [lowWord_widened, h0, xor_twice]

theorem round_unround (d : Block) : round k0 k1 (unround k0 k1 d) = d := by
  have h0 : kM0 * (d.word3 * inverseM0) = d.word3 := mul_inverse_mul kM0_inverse _
  have h2 : kM1 * (d.word1 * inverseM1) = d.word1 := mul_inverse_mul kM1_inverse _
  unfold unround round
  ext1
  · exact xor_twice ..
  · show lowWord (widened kM1 (d.word1 * inverseM1)) = d.word1
    rw [lowWord_widened, h2]
  · exact xor_twice ..
  · show lowWord (widened kM0 (d.word3 * inverseM0)) = d.word3
    rw [lowWord_widened, h0]

theorem round_bijective : Bijective (round k0 k1) :=
  bijective_iff_has_inverse.2 ⟨unround k0 k1, unround_round k0 k1, round_unround k0 k1⟩

theorem rounds_bijective (n : Nat) (k0 k1 : UInt32) : Bijective (rounds n k0 k1) := by
  induction n generalizing k0 k1 with
  | zero => exact bijective_id
  | succ n ih => exact (ih (k0 + kW0) (k1 + kW1)).comp (round_bijective k0 k1)

/-! ## Different Counters Give Different Blocks -/

theorem counterWords_bijective :
    Bijective fun counter : UInt64 × UInt64 => counterWords counter.1 counter.2 := by
  apply bijective_iff_has_inverse.2
  refine ⟨fun c => (joinWords c.word1 c.word0, joinWords c.word3 c.word2), ?_, ?_⟩
  · intro counter
    unfold counterWords
    simp
  · intro c
    unfold counterWords
    simp

theorem block_bijective (key : UInt64) :
    Bijective fun counter : UInt64 × UInt64 => block key counter.1 counter.2 :=
  (rounds_bijective 10 (lowWord key) (highWord key)).comp counterWords_bijective

/-- Blocks of one key are equal for one counter only. -/
theorem block_inj {key lo hi lo' hi' : UInt64} (h : block key lo hi = block key lo' hi') :
    lo = lo' ∧ hi = hi' := by
  have hcounter : (lo, hi) = (lo', hi') := (block_bijective key).injective h
  exact Prod.mk.inj hcounter

/-- A key keeps every word of the block it is derived from. -/
theorem derive_inj {k : Key} {domain domain' : UInt64} (h : derive k domain = derive k domain') :
    domain = domain' := by
  obtain ⟨hhi, hlo⟩ := Key.mk.inj h
  obtain ⟨h2, h3⟩ := joinWords_inj.1 hhi
  obtain ⟨h0, h1⟩ := joinWords_inj.1 hlo
  exact (block_inj (Block.ext h0 h1 h2 h3)).2

/-- The domain of a draw is the highest bit over the draw's index. -/
theorem toNat_drawDomain {index : UInt64} (h : index.toNat < 2 ^ 63) :
    (kPermutationDomain ||| index).toNat = 2 ^ 63 + index.toNat := by
  have hdomain := Nat.two_pow_add_eq_or_of_lt h 1
  rw [Nat.mul_one] at hdomain
  rw [UInt64.toNat_or, hdomain]
  rfl

/-- `block` is a bijection from counters to blocks under every key; so the children of a key
    differ, no two draws of a key have one block, and no draw has a counter of its `split`. -/
theorem streams_apart (seed : UInt64) (k : Key) :
    (Bijective fun counter : UInt64 × UInt64 => block seed counter.1 counter.2) ∧
      (split k).1 ≠ (split k).2 ∧
      (∀ i j : UInt64, i.toNat < 2 ^ 63 → j.toNat < 2 ^ 63 → i ≠ j →
        (drawCall k i).run ≠ (drawCall k j).run) ∧
      ∀ i : UInt64, i.toNat < 2 ^ 60 → ∀ c ∈ splitCalls k,
        ((drawCall k i).counterLo, (drawCall k i).counterHi) ≠ (c.counterLo, c.counterHi) := by
  refine ⟨block_bijective seed, fun h => ?_, fun i j hi hj hne h => ?_, fun i hi c hc h => ?_⟩
  · exact absurd (derive_inj h) (by decide)
  · -- the draws' domains are their indices under one more bit
    have hdomain := congrArg UInt64.toNat (block_inj h).2
    show False
    rw [show (drawCall k i).counterHi = kPermutationDomain ||| i from rfl,
      show (drawCall k j).counterHi = kPermutationDomain ||| j from rfl, toNat_drawDomain hi,
      toNat_drawDomain hj] at hdomain
    exact hne (UInt64.toNat_inj.1 (Nat.add_left_cancel hdomain))
  · have hi63 : i.toNat < 2 ^ 63 := by omega
    have hdomain := congrArg UInt64.toNat (Prod.mk.inj h).2
    rw [show (drawCall k i).counterHi = kPermutationDomain ||| i from rfl,
      toNat_drawDomain hi63] at hdomain
    -- the domains of `split` lie above those of the first draws
    rcases List.mem_cons.1 hc with rfl | hc
    · have hA : (deriveCall k kSplitA).counterHi.toNat = 0x9E3779B97F4A7C15 := rfl
      omega
    · obtain rfl := List.mem_singleton.1 hc
      have hB : (deriveCall k kSplitB).counterHi.toNat = 0xD1B54A32D192ED03 := rfl
      omega

end Camel.Random.Philox
