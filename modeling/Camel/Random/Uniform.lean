import Camel.Random.Philox
import Camel.Lib.Shuffle

/-! # Uniform Draws

    `below` multiplies a word by the bound and keeps the high word, rejecting the few words that
    would favour some results; `permutation` is the descending shuffle with its draws.
-/

namespace Camel.Random.Philox

open Lib Option List

/-! ## Draws and Permutations -/

/-- The high 64 bits of a 64x64 product. -/
def mulHigh (a b : UInt64) : UInt64 :=
  let aLo := a &&& 0xFFFFFFFF
  let aHi := a >>> 32
  let bLo := b &&& 0xFFFFFFFF
  let bHi := b >>> 32
  let low := aLo * bLo
  let middle1 := aHi * bLo + (low >>> 32)
  let middle2 := aLo * bHi + (middle1 &&& 0xFFFFFFFF)
  aHi * bHi + (middle1 >>> 32) + (middle2 >>> 32)

/-- The words that `below` draws again for. -/
def rejected (m r : UInt64) : Bool :=
  let lo := r * m
  if lo < m then decide (lo < (0 - m) % m) else false

/-- A draw from `[0, m)` and the next index, within a number of words. -/
def below : Nat → Key → UInt64 → UInt64 → Option (UInt64 × UInt64)
  | 0, _, _, _ => none
  | fuel + 1, key, m, index =>
    let r := draw key index
    if rejected m r then below fuel key m (index + 1) else some (mulHigh r m, index + 1)

/-- The loop of `permutation`, from place `i` down. -/
def permuteFrom (fuel : Nat) (key : Key) : Nat → Array Nat → UInt64 → Option (Array Nat)
  | 0, order, _ => some order
  | i + 1, order, index => do
    let (j, next) ← below fuel key (UInt64.ofNat (i + 1) + 1) index
    permuteFrom fuel key i (order.swapIfInBounds (i + 1) j.toNat) next

def permutation (fuel : Nat) (key : Key) (n : Int64) : Except String (Option (Array Nat)) :=
  if n < 0 then .error "permutation length must be non-negative"
  else .ok (permuteFrom fuel key (n.toInt.toNat - 1) (Array.range n.toInt.toNat) 0)

/-- The words that a key draws from an index on. -/
def draws (key : Key) : UInt64 → Nat → List UInt64
  | _, 0 => []
  | index, count + 1 => draw key index :: draws key (index + 1) count

/-- What a word is at a place of the shuffle: its choice, unless it is drawn again. -/
def pick (i : Nat) (r : UInt64) : Option Nat :=
  if rejected (UInt64.ofNat i + 1) r then none else some (mulHigh r (UInt64.ofNat i + 1)).toNat

/-- The permutation that a stream of words gives, where it takes the whole stream. -/
def permuted (n : Nat) (words : List UInt64) : Option (Array Nat) :=
  (picks pick (places (n - 1)) words).map fun js => shuffle js (Array.range n)

/-! ## The High Word -/

theorem toNat_and_low (a : UInt64) : (a &&& 0xFFFFFFFF).toNat = a.toNat % 2 ^ 32 := by
  rw [UInt64.toNat_and]
  exact Nat.and_two_pow_sub_one_eq_mod a.toNat 32

theorem toNat_shiftRight_half (a : UInt64) : (a >>> 32).toNat = a.toNat / 2 ^ 32 := by
  rw [UInt64.toNat_shiftRight]
  exact Nat.shiftRight_eq_div_pow a.toNat 32

/-- The product of two halves of a word, and one more half, stays a word. -/
theorem half_mul_half {a b : Nat} (ha : a < 2 ^ 32) (hb : b < 2 ^ 32) :
    a * b + 2 ^ 32 ≤ 2 ^ 64 - 2 ^ 32 + 1 := by
  have h : a * b ≤ (2 ^ 32 - 1) * (2 ^ 32 - 1) := Nat.mul_le_mul (by omega) (by omega)
  omega

/-- The product by halves. -/
theorem mul_halves (a b : Nat) :
    a * b = a / 2 ^ 32 * (b / 2 ^ 32) * 2 ^ 64 +
      (a / 2 ^ 32 * (b % 2 ^ 32) + a % 2 ^ 32 * (b / 2 ^ 32)) * 2 ^ 32 +
      a % 2 ^ 32 * (b % 2 ^ 32) := by
  have ha : a = a / 2 ^ 32 * 2 ^ 32 + a % 2 ^ 32 := by omega
  have hb : b = b / 2 ^ 32 * 2 ^ 32 + b % 2 ^ 32 := by omega
  have h : a * b = (a / 2 ^ 32 * 2 ^ 32 + a % 2 ^ 32) * (b / 2 ^ 32 * 2 ^ 32 + b % 2 ^ 32) := by
    rw [← ha, ← hb]
  rw [h]
  ring

/-- The high word of a product, from the partial products. -/
theorem high_of_partials (hh hl lh ll : Nat) :
    hh + (hl + ll / 2 ^ 32) / 2 ^ 32 + (lh + (hl + ll / 2 ^ 32) % 2 ^ 32) / 2 ^ 32 =
      (hh * 2 ^ 64 + (hl + lh) * 2 ^ 32 + ll) / 2 ^ 64 := by
  omega

theorem toNat_mulHigh (a b : UInt64) : (mulHigh a b).toNat = a.toNat * b.toNat / 2 ^ 64 := by
  have ha : a.toNat / 2 ^ 32 < 2 ^ 32 := Nat.div_lt_of_lt_mul a.toNat_lt
  have hb : b.toNat / 2 ^ 32 < 2 ^ 32 := Nat.div_lt_of_lt_mul b.toNat_lt
  have ha' : a.toNat % 2 ^ 32 < 2 ^ 32 := Nat.mod_lt _ (by decide)
  have hb' : b.toNat % 2 ^ 32 < 2 ^ 32 := Nat.mod_lt _ (by decide)
  have hll := half_mul_half ha' hb'
  have hhl := half_mul_half ha hb'
  have hlh := half_mul_half ha' hb
  have hhh := half_mul_half ha hb
  rw [mul_halves a.toNat b.toNat, ← high_of_partials]
  unfold mulHigh
  simp only [UInt64.toNat_add, UInt64.toNat_mul, toNat_and_low, toNat_shiftRight_half]
  clear ha hb ha' hb'
  -- the partial products are atoms from here on, and no sum of them is cut
  generalize a.toNat / 2 ^ 32 * (b.toNat / 2 ^ 32) = hh at *
  generalize a.toNat / 2 ^ 32 * (b.toNat % 2 ^ 32) = hl at *
  generalize a.toNat % 2 ^ 32 * (b.toNat / 2 ^ 32) = lh at *
  generalize a.toNat % 2 ^ 32 * (b.toNat % 2 ^ 32) = ll at *
  have hmiddle : hl + ll / 2 ^ 32 < 2 ^ 64 := by omega
  have hhigh : hh + (hl + ll / 2 ^ 32) / 2 ^ 32 < 2 ^ 64 - 2 ^ 32 := by omega
  have hlast : lh + (hl + ll / 2 ^ 32) % 2 ^ 32 < 2 ^ 64 := by omega
  rw [Nat.mod_eq_of_lt (show ll < 2 ^ 64 by omega), Nat.mod_eq_of_lt (show hl < 2 ^ 64 by omega),
    Nat.mod_eq_of_lt (show lh < 2 ^ 64 by omega), Nat.mod_eq_of_lt (show hh < 2 ^ 64 by omega),
    Nat.mod_eq_of_lt hmiddle, Nat.mod_eq_of_lt hlast,
    Nat.mod_eq_of_lt (hhigh.trans (by decide))]
  exact Nat.mod_eq_of_lt (by omega)

/-! ## The Words Kept for Each Result -/

variable {m : UInt64} {i : Nat}

/-- The least low word that is kept is the remainder of `2 ^ 64`. -/
theorem toNat_threshold (hm : 0 < m.toNat) : ((0 - m) % m).toNat = 2 ^ 64 % m.toNat := by
  have hlt : m.toNat < 2 ^ 64 := m.toNat_lt
  rw [UInt64.toNat_mod, UInt64.toNat_sub]
  show (2 ^ 64 - m.toNat + 0) % 2 ^ 64 % m.toNat = _
  have hword : (2 ^ 64 - m.toNat) % 2 ^ 64 = 2 ^ 64 - m.toNat := Nat.mod_eq_of_lt (by omega)
  rw [add_zero, hword, ← Nat.mod_eq_sub_mod hlt.le]

theorem rejected_iff (hm : 0 < m.toNat) (r : UInt64) :
    rejected m r = true ↔ r.toNat * m.toNat % 2 ^ 64 < 2 ^ 64 % m.toNat := by
  have hmod : 2 ^ 64 % m.toNat < m.toNat := Nat.mod_lt _ hm
  unfold rejected
  simp only [UInt64.lt_iff_toNat_lt, toNat_threshold hm, UInt64.toNat_mul]
  split
  · rw [decide_eq_true_iff]
  · next h => exact ⟨nofun, fun h' => absurd (h'.trans hmod) h⟩

theorem mulHigh_lt (hm : 0 < m) (r : UInt64) : mulHigh r m < m := by
  have hm : 0 < m.toNat := UInt64.lt_iff_toNat_lt.1 hm
  have hr : r.toNat < 2 ^ 64 := r.toNat_lt
  rw [UInt64.lt_iff_toNat_lt, toNat_mulHigh]
  exact Nat.div_lt_of_lt_mul (Nat.mul_lt_mul_of_pos_right hr hm)

/-- The words kept for a result are the multiples of the bound that fall in a run of as many
    multiples as `2 ^ 64` holds. -/
theorem kept_iff {m k : UInt64} (hk : k < m) (r : UInt64) :
    rejected m r = false ∧ mulHigh r m = k ↔
      k.toNat * 2 ^ 64 + 2 ^ 64 % m.toNat ≤ r.toNat * m.toNat ∧
        r.toNat * m.toNat < (k.toNat + 1) * 2 ^ 64 := by
  have hk : k.toNat < m.toNat := UInt64.lt_iff_toNat_lt.1 hk
  have hm : 0 < m.toNat := by omega
  have hkept : rejected m r = false ↔ ¬r.toNat * m.toNat % 2 ^ 64 < 2 ^ 64 % m.toNat := by
    rw [← rejected_iff hm, Bool.not_eq_true]
  rw [hkept, ← UInt64.toNat_inj, toNat_mulHigh]
  have hmod : 2 ^ 64 % m.toNat < 2 ^ 64 := (Nat.mod_lt _ hm).trans m.toNat_lt
  generalize 2 ^ 64 % m.toNat = t at *
  generalize r.toNat * m.toNat = p at *
  omega

/-- The multiples of `m` from `a` on that fill `q` times `m` are `q` many. -/
theorem multiples_Ico {m a q r : Nat} (hm : 0 < m) :
    a ≤ r * m ∧ r * m < a + q * m ↔ r ∈ Finset.Ico ((a + m - 1) / m) ((a + m - 1) / m + q) := by
  rw [Finset.mem_Ico]
  have hceil : ∀ b : Nat, b ≤ r * m ↔ (b + m - 1) / m ≤ r := by
    intro b
    rw [Nat.div_le_iff_le_mul_add_pred hm, mul_comm m r]
    omega
  have hshift : (a + q * m + m - 1) / m = (a + m - 1) / m + q := by
    rw [show a + q * m + m - 1 = a + m - 1 + q * m by omega, Nat.add_mul_div_right _ _ hm]
  rw [← hceil a, ← not_le, ← not_le, hceil (a + q * m), hshift]

/-- Each result is kept for as many words as every other. -/
theorem ncard_kept {m k : UInt64} (hk : k < m) :
    { r | rejected m r = false ∧ mulHigh r m = k }.ncard = 2 ^ 64 / m.toNat := by
  have hk' : k.toNat < m.toNat := UInt64.lt_iff_toNat_lt.1 hk
  have hm : 0 < m.toNat := by omega
  have hdiv := Nat.div_add_mod' (2 ^ 64) m.toNat
  have hq : (k.toNat + 1) * 2 ^ 64 =
      k.toNat * 2 ^ 64 + 2 ^ 64 % m.toNat + 2 ^ 64 / m.toNat * m.toNat := by
    rw [add_mul]
    omega
  have hinj : Function.Injective UInt64.toNat := fun _ _ => UInt64.toNat_inj.1
  rw [← Set.ncard_image_of_injective _ hinj]
  have himage : UInt64.toNat '' { r | rejected m r = false ∧ mulHigh r m = k } =
      ↑(Finset.Ico ((k.toNat * 2 ^ 64 + 2 ^ 64 % m.toNat + m.toNat - 1) / m.toNat)
        ((k.toNat * 2 ^ 64 + 2 ^ 64 % m.toNat + m.toNat - 1) / m.toNat + 2 ^ 64 / m.toNat)) := by
    ext r
    rw [Finset.mem_coe, ← multiples_Ico hm, ← hq]
    constructor
    · rintro ⟨w, hw, rfl⟩
      exact (kept_iff hk w).1 hw
    · intro hr
      -- a multiple below `m` times `2 ^ 64` is one of a word
      have hlt : r < 2 ^ 64 := by
        by_contra hge
        have h1 : 2 ^ 64 * m.toNat ≤ r * m.toNat := Nat.mul_le_mul_right _ (by omega)
        have h2 : (k.toNat + 1) * 2 ^ 64 ≤ m.toNat * 2 ^ 64 := Nat.mul_le_mul_right _ hk'
        omega
      refine ⟨UInt64.ofNat r, (kept_iff hk _).2 ?_, ?_⟩
      · rwa [UInt64.toNat_ofNat_of_lt' hlt]
      · exact UInt64.toNat_ofNat_of_lt' hlt
  rw [himage, Set.ncard_coe_finset, Nat.card_Ico, Nat.add_sub_cancel_left]

/-! ## Permutations -/

/-- The bound of a place. -/
theorem toNat_bound (hi : i + 1 ≤ 2 ^ 63) : (UInt64.ofNat i + 1).toNat = i + 1 := by
  rw [UInt64.toNat_add, UInt64.toNat_ofNat_of_lt' (show i < 2 ^ 64 by omega)]
  show (i + 1) % 2 ^ 64 = i + 1
  omega

theorem pick_eq_some_iff {r : UInt64} {j : Nat} :
    pick i r = some j ↔
      rejected (UInt64.ofNat i + 1) r = false ∧ (mulHigh r (UInt64.ofNat i + 1)).toNat = j := by
  unfold pick
  split
  · next h => simp [h]
  · next h => simp [h]

theorem ncard_pick {i j : Nat} (hi : i + 1 ≤ 2 ^ 63) (hj : j ≤ i) :
    { r | pick i r = some j }.ncard = 2 ^ 64 / (i + 1) := by
  have hbound := toNat_bound hi
  have hword : (UInt64.ofNat j).toNat = j := UInt64.toNat_ofNat_of_lt' (show j < 2 ^ 64 by omega)
  have hlt : UInt64.ofNat j < UInt64.ofNat i + 1 := by
    rw [UInt64.lt_iff_toNat_lt, hbound, hword]
    omega
  have hkept := ncard_kept hlt
  rw [hbound] at hkept
  rw [← hkept]
  congr 1
  ext r
  rw [Set.mem_ofPred_eq, Set.mem_ofPred_eq, pick_eq_some_iff, ← UInt64.toNat_inj, hword]

theorem mem_places {i k : Nat} (h : k ∈ places i) : k ≤ i := by
  induction i with
  | zero => cases h
  | succ i ih =>
    rcases mem_cons.1 h with rfl | h
    · exact le_rfl
    · exact (ih h).trans (Nat.le_succ i)

/-- Where every place has a bound, what is picked for the places is their choices. -/
theorem picks_choices (hi : i + 1 ≤ 2 ^ 63) {words : List UInt64} {js : List Nat}
    (h : picks pick (places i) words = some js) : Choices i js := by
  induction words generalizing i js with
  | nil =>
    cases i with
    | zero =>
      cases h
      exact .nil
    | succ i => cases h
  | cons r words ih =>
    cases i with
    | zero => cases h
    | succ i =>
      rw [places, picks] at h
      cases hr : pick (i + 1) r with
      | none =>
        rw [hr] at h
        exact ih hi h
      | some j =>
        rw [hr] at h
        obtain ⟨rest, hrest, rfl⟩ := map_eq_some_iff.1 h
        have hbound := toNat_bound hi
        have hpos : 0 < UInt64.ofNat (i + 1) + 1 := by
          rw [UInt64.lt_iff_toNat_lt, hbound]
          exact Nat.succ_pos _
        have hlt := UInt64.lt_iff_toNat_lt.1 (mulHigh_lt hpos r)
        rw [hbound, (pick_eq_some_iff.1 hr).2] at hlt
        exact .cons (Nat.le_of_lt_succ hlt) (ih (by omega) hrest)

theorem nodup_range (n : Nat) : (Array.range n).toList.Nodup := by
  rw [Array.toList_range]
  exact List.nodup_range

/-- The streams of a permutation are those of its choices. -/
theorem card_permuted {n : Nat} (hn : n ≤ 2 ^ 63) {js : List Nat} (hjs : Choices (n - 1) js)
    (length : Nat) :
    Nat.card { w : Fin length → UInt64 //
        permuted n (ofFn w) = some (shuffle js (Array.range n)) } =
      streams pick (places (n - 1)) js length := by
  unfold streams permuted
  congr 1
  rcases Nat.eq_zero_or_pos n with rfl | hpos
  · cases hjs
    congr 1
    ext w
    cases ofFn w <;> simp [places, picks]
  · congr 1
    ext w
    rw [map_eq_some_iff]
    constructor
    · rintro ⟨js', hpicks, hsame⟩
      have hjs' := picks_choices (by omega) hpicks
      have hle : n - 1 ≤ (Array.range n).size - 1 := by rw [Array.size_range]
      rw [← shuffle_inj (nodup_range n) hjs' hjs hle hsame, hpicks]
    · intro h
      exact ⟨js, h, rfl⟩

/-- Each permutation is given by as many streams as every other, of each length. -/
theorem permuted_even {n : Nat} (hn : n ≤ 2 ^ 63) {p q : Array Nat}
    (hp : p.toList.Perm (range n)) (hq : q.toList.Perm (range n)) (length : Nat) :
    Nat.card { w : Fin length → UInt64 // permuted n (ofFn w) = some p } =
      Nat.card { w : Fin length → UInt64 // permuted n (ofFn w) = some q } := by
  have hshuffle := shuffle_bijOn (nodup_range n)
  rw [Array.toList_range, Array.size_range] at hshuffle
  obtain ⟨js, hjs, rfl⟩ := hshuffle.surjOn hp
  obtain ⟨js', hjs', rfl⟩ := hshuffle.surjOn hq
  show Nat.card { w : Fin length → UInt64 //
      permuted n (ofFn w) = some (shuffle js (Array.range n)) } =
    Nat.card { w : Fin length → UInt64 //
      permuted n (ofFn w) = some (shuffle js' (Array.range n)) }
  rw [card_permuted hn hjs, card_permuted hn hjs']
  apply streams_even _ hjs hjs' length
  intro i hi j j' hj hj'
  have hplace := mem_places hi
  rcases Nat.eq_zero_or_pos n with rfl | hpos
  · cases hi
  · rw [ncard_pick (by omega) hj, ncard_pick (by omega) hj']

/-- What `below` draws is what the words from its index on are picked for. -/
theorem below_picks {fuel : Nat} {key : Key} {index j next : UInt64}
    (h : below fuel key (UInt64.ofNat i + 1) index = some (j, next)) (is : List Nat) (after : Nat) :
    ∃ count, picks pick (i :: is) (draws key index (count + after)) =
      (picks pick is (draws key next after)).map (j.toNat :: ·) := by
  induction fuel generalizing index with
  | zero => cases h
  | succ fuel ih =>
    rw [below] at h
    split at h
    · next hrejected =>
      obtain ⟨count, hcount⟩ := ih h
      refine ⟨count + 1, ?_⟩
      rw [show count + 1 + after = count + after + 1 by omega, draws, picks, pick,
        if_pos hrejected]
      exact hcount
    · next hkept =>
      obtain ⟨rfl, rfl⟩ := Prod.mk.inj (some.inj h)
      refine ⟨1, ?_⟩
      rw [show 1 + after = after + 1 by omega, draws, picks, pick, if_neg hkept]

/-- The loop of `permutation` is the shuffle of the choices that the words are picked for. -/
theorem permuteFrom_picks {fuel : Nat} {key : Key} {order result : Array Nat}
    {index : UInt64} (h : permuteFrom fuel key i order index = some result) :
    ∃ count js, picks pick (places i) (draws key index count) = some js ∧
      js.length = i ∧ shuffle js order = result := by
  induction i generalizing order index with
  | zero =>
    cases h
    exact ⟨0, [], rfl, rfl, rfl⟩
  | succ i ih =>
    rw [permuteFrom] at h
    obtain ⟨⟨j, next⟩, hbelow, hrest⟩ := bind_eq_some_iff.1 h
    obtain ⟨after, js, hpicks, hlength, hshuffle⟩ := ih hrest
    obtain ⟨count, hcount⟩ := below_picks hbelow (places i) after
    rw [hpicks] at hcount
    refine ⟨count + after, j.toNat :: js, hcount, congrArg Nat.succ hlength, ?_⟩
    rw [shuffle, hlength, hshuffle]

/-- `mulHigh` is the high word of the product, and `below` keeps `2 ^ 64 / m` words for each of its
    results. The choices of a shuffle are the permutations, one to one, and what `permutation`
    returns is given by the words it draws; each permutation is given by as many streams of words
    as every other. -/
theorem permutation_uniform :
    (∀ a b : UInt64, (mulHigh a b).toNat = a.toNat * b.toNat / 2 ^ 64) ∧
      (∀ m : UInt64, 0 < m → (∀ r, mulHigh r m < m) ∧
        ∀ k < m, { r | rejected m r = false ∧ mulHigh r m = k }.ncard = 2 ^ 64 / m.toNat) ∧
      (∀ n : Nat, Set.BijOn (fun js => shuffle js (Array.range n)) { js | Choices (n - 1) js }
        { p | p.toList.Perm (List.range n) }) ∧
      (∀ n : Nat, n ≤ 2 ^ 63 → ∀ p q : Array Nat, p.toList.Perm (List.range n) →
        q.toList.Perm (List.range n) → ∀ length : Nat,
          Nat.card { w : Fin length → UInt64 // permuted n (List.ofFn w) = some p } =
            Nat.card { w : Fin length → UInt64 // permuted n (List.ofFn w) = some q }) ∧
      ∀ (fuel : Nat) (key : Key) (n : Int64) (order : Array Nat),
        permutation fuel key n = .ok (some order) →
          ∃ count, permuted n.toInt.toNat (draws key 0 count) = some order := by
  refine ⟨toNat_mulHigh, fun m hm => ⟨mulHigh_lt hm, fun k hk => ncard_kept hk⟩, fun n => ?_,
    fun n hn p q hp hq length => permuted_even hn hp hq length, fun fuel key n order h => ?_⟩
  · have hshuffle := shuffle_bijOn (nodup_range n)
    rwa [Array.toList_range, Array.size_range] at hshuffle
  · unfold permutation at h
    split at h
    · cases h
    · obtain ⟨count, js, hpicks, -, hshuffle⟩ := permuteFrom_picks (Except.ok.inj h)
      refine ⟨count, ?_⟩
      unfold permuted
      rw [hpicks, map_some, hshuffle]

end Camel.Random.Philox
