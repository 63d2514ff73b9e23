import Camel.Literal.Folds

/-! # Values Stay Exact

    The values of a program come from its literals and from folds, in any nesting. All of
    them are in lowest terms, so every fold on them is the exact operation.
-/

namespace Camel.Literal

open Lib Option

variable {text : List Char} {v : Value}

namespace Value

/-! ## Literals -/

theorem sound_int64 {n : Int} (hlow : -2 ^ 63 ≤ n) (hhigh : n < 2 ^ 63) :
    (fromInt64 n).Sound ∧ (fromInt64 n).rational.toRat = n := by
  obtain ⟨hnormal, hvalue⟩ := BigInt.ofInt64_spec hlow hhigh
  obtain ⟨hreduced, hrat⟩ := integral_spec hnormal
  rw [hvalue] at hrat
  exact ⟨sound_real hreduced fun _ => ⟨n, hrat⟩, hrat⟩

/-- A sign in front of a rational in lowest terms. -/
theorem reduced_signed {q : Rational} (h : q.Reduced) (negative : Bool) :
    (if negative then { q with num := q.num.negated } else q : Rational).Reduced := by
  cases negative with
  | true => exact (reduced_negated h).1
  | false => exact h

theorem sound_double (d : Double) : (fromDouble d).Sound := by
  have hzero := (sound_int64 (n := 0) (by decide) (by decide)).1
  cases d with
  | infinite negative => exact hzero
  | nan => exact hzero
  | finite negative mantissa exponent =>
    rw [fromDouble]
    split
    · exact hzero
    · next hne =>
      -- the fraction has 53 bits
      have hlt : mantissa.val * 2 ^ (53 - (mantissa.val.log2 + 1)) < 2 ^ 53 := by
        have hlog : mantissa.val.log2 + 1 ≤ 53 := by
          have := (Nat.log2_lt hne).mpr mantissa.isLt
          omega
        calc mantissa.val * 2 ^ (53 - (mantissa.val.log2 + 1))
            < 2 ^ (mantissa.val.log2 + 1) * 2 ^ (53 - (mantissa.val.log2 + 1)) :=
              Nat.mul_lt_mul_of_pos_right Nat.lt_log2_self (Nat.two_pow_pos _)
          _ = 2 ^ 53 := by rw [← pow_add, Nat.add_sub_cancel' hlog]
      obtain ⟨hnum, -⟩ := BigInt.ofInt64_spec
        (v := mantissa.val * 2 ^ (53 - (mantissa.val.log2 + 1)))
        (le_trans (by decide) (by positivity : (0 : Int) ≤ _))
        (by exact_mod_cast hlt.trans (by decide))
      have hone := one_spec
      apply sound_real
      · apply reduced_signed
        split
        · obtain ⟨hshift, -⟩ := BigInt.shiftedLeft_spec hnum
            (exponent - (53 - (mantissa.val.log2 + 1) : Nat)).toNat
          exact (makeRational_spec hshift hone.1 (by rw [hone.2]; decide)).1
        · obtain ⟨hshift, hvalue⟩ := BigInt.shiftedLeft_spec hone.1
            (-(exponent - (53 - (mantissa.val.log2 + 1) : Nat))).toNat
          refine (makeRational_spec hnum hshift ?_).1
          rw [hvalue, hone.2, one_mul]
          positivity
      · exact fun h => Kind.noConfusion h

theorem takePrefix_radix (text : List Char) :
    2 ≤ (takePrefix text).1 ∧ (takePrefix text).1 ≤ 16 := by
  unfold takePrefix
  split <;> exact ⟨by simp, by simp⟩

theorem sound_digits (digits : List Char) (radix : Int) (negative : Bool) (hlow : -2 ^ 31 ≤ radix)
    (hhigh : radix < 2 ^ 31)
    (h : (if digits = [] then none
      else (BigInt.fromDigits digits radix).map fun magnitude =>
        ({ kind := .integer
           rational := ⟨if negative then magnitude.negated else magnitude, .ofInt64 1⟩ } :
          Value)) = some v) : v.Sound := by
  split at h
  · cases h
  · obtain ⟨n, hn, rfl⟩ := map_eq_some_iff.mp h
    have hnormal := fromDigits_normal hlow hhigh hn
    have hsigned : (if negative then n.negated else n).Normal := by
      split
      · exact (BigInt.negated_spec hnormal).1
      · exact hnormal
    obtain ⟨hreduced, hvalue⟩ := integral_spec hsigned
    exact sound_real hreduced fun _ => ⟨_, hvalue⟩

theorem sound_integerText (h : fromIntegerText text = some v) :
    v.Sound := by
  obtain ⟨hlow, hhigh⟩ := takePrefix_radix (takeSign text).2
  exact sound_digits (takePrefix (takeSign text).2).2 (takePrefix (takeSign text).2).1
    (takeSign text).1 (by omega) (by omega) h

theorem sound_realText (h : fromRealText text = some v) :
    v.Sound ∧ v.kind = .float := by
  unfold fromRealText at h
  dsimp only at h
  split at h
  · cases h
  · split at h
    · cases h
    · obtain ⟨mantissa, hmantissa, h⟩ := bind_eq_some_iff.mp h
      have hn := fromDigits_normal (by decide) (by decide) hmantissa
      split at h
      · cases h
      · rw [some.injEq] at h
        subst h
        refine ⟨sound_real (reduced_signed ?_ _) fun h => Kind.noConfusion h, rfl⟩
        split
        · obtain ⟨hp, hpv⟩ := @powerOfLimb_spec 10 (by decide) (by decide) _
          refine (makeRational_spec hn hp ?_).1
          rw [hpv]
          positivity
        · obtain ⟨hp, -⟩ := @powerOfLimb_spec 10 (by decide) (by decide) _
          have hone := one_spec
          exact (makeRational_spec (BigInt.mul_spec hn hp).1 hone.1 (by rw [hone.2]; decide)).1

theorem sound_imaginaryText (h : fromImaginaryText text = some v) :
    v.Sound ∧ v.kind = .imaginary := by
  unfold fromImaginaryText at h
  dsimp only at h
  split at h
  · cases h
  · obtain ⟨body, hbody, rfl⟩ := map_eq_some_iff.mp h
    have hsound := (sound_realText hbody).1
    exact ⟨⟨Rational.reduced_zero, hsound.rational, fun h => Kind.noConfusion h,
      fun h => Bool.noConfusion h⟩, rfl⟩

/-! ## Values of a Program -/

/-- The values a program comes to hold: its literals, and what folds make of them. -/
inductive Made : Value → Prop where
  | int64 {n : Int} : -2 ^ 63 ≤ n → n < 2 ^ 63 → Made (fromInt64 n)
  | double (d : Double) : Made (fromDouble d)
  | integerText {text : List Char} {v : Value} : fromIntegerText text = some v → Made v
  | realText {text : List Char} {v : Value} : fromRealText text = some v → Made v
  | imaginaryText {text : List Char} {v : Value} : fromImaginaryText text = some v → Made v
  | fold {f : Fold} {l r v : Value} : Made l → Made r → Value.fold f l r = some v → Made v
  | negate {v w : Value} : Made v → Value.negate v = some w → Made w

/-- The exact operation; nothing where it divides by zero or has no such operands. -/
noncomputable def exactFold : Fold → Value → Value → Option ℂ
  | .add, l, r => some (l.denote + r.denote)
  | .sub, l, r => some (l.denote - r.denote)
  | .mul, l, r => some (l.denote * r.denote)
  | .div, l, r => if r.denote = 0 then none else some (quotient l r)
  | .mod, l, r =>
    if l.kind = .integer ∧ r.kind = .integer ∧ r.denote ≠ 0 then
      some ((l.integer.tmod r.integer : Int) : ℂ)
    else none
  | .pow, l, r => (naturalExponent r).map (l.denote ^ ·)

/-- The folds that are left to run time because of their size, or for a complex power. -/
def Refused : Fold → Value → Value → Prop
  | .mul, l, r => mulTooLong l r
  | .pow, l, r => powRefused l r
  | _, _, _ => False

/-- The kind that comes out of a fold. -/
noncomputable def foldKind : Fold → Value → Value → Kind
  | .mod, _, _ => .integer
  | .pow, l, r =>
    if l.rational.toRat = 0 ∧ r.rational.toRat ≠ 0 then .integer else l.kind.fold r.kind
  | _, l, r => l.kind.fold r.kind

variable {l r v : Value}

theorem natural_of_naturalExponent {n : Nat} (h : naturalExponent r = some n) :
    r.rational.toRat = n := by
  unfold naturalExponent at h
  split at h
  · next hnat =>
    obtain ⟨-, hden, hnonneg⟩ := hnat
    cases h
    rw [← Int.cast_natCast, Int.toNat_of_nonneg hnonneg]
    exact (Rat.den_eq_one_iff _).mp hden |>.symm
  · cases h

theorem fold_refused {f : Fold} (hl : l.Sound) (hr : r.Sound) (h : Refused f l r) :
    Value.fold f l r = none := by
  cases f with
  | mul => exact if_pos h
  | pow => exact pow_refused hl hr h
  | add => exact h.elim
  | sub => exact h.elim
  | div => exact h.elim
  | mod => exact h.elim

/-- What every fold gives that is not refused. -/
theorem fold_gives {f : Fold} (hl : l.Sound) (hr : r.Sound) (h : ¬ Refused f l r) :
    match exactFold f l r with
    | none => Value.fold f l r = none
    | some z => Gives (Value.fold f l r) (foldKind f l r) z := by
  cases f with
  | add => exact add_gives hl hr
  | sub => exact sub_gives hl hr
  | mul => exact mul_gives hl hr h
  | div =>
    have hdiv := div_gives hl hr
    rw [exactFold]
    by_cases hzero : r.denote = 0
    · rw [if_pos hzero] at hdiv ⊢
      exact hdiv
    · rw [if_neg hzero] at hdiv ⊢
      exact hdiv
  | mod =>
    have hmod := mod_gives hl hr
    rw [exactFold]
    by_cases hints : l.kind = .integer ∧ r.kind = .integer ∧ r.denote ≠ 0
    · rw [if_pos hints] at hmod ⊢
      exact hmod
    · rw [if_neg hints] at hmod ⊢
      exact hmod
  | pow =>
    obtain ⟨hlr, hrest⟩ := not_or.mp h
    obtain ⟨hrr, -⟩ := not_or.mp hrest
    show match (naturalExponent r).map (l.denote ^ ·) with
      | none => pow l r = none
      | some z => Gives (pow l r) _ z
    cases hn : naturalExponent r with
    | some n =>
      have hnat := natural_of_naturalExponent hn
      have hgives := pow_gives hl hr h hnat
      show Gives (pow l r) (if l.rational.toRat = 0 ∧ r.rational.toRat ≠ 0 then _ else _) _
      simp only [hnat, Nat.cast_ne_zero]
      exact hgives
    | none =>
      -- no natural number stands in the exponent
      have hnone : integerExponent r.rational = none := by
        apply integerExponent_none hr.rational
        intro n _ hrat
        unfold naturalExponent at hn
        rw [if_pos ⟨hr.real (Bool.of_not_eq_true hrr), by rw [hrat, Rat.den_natCast],
          by rw [hrat, Rat.num_natCast]; exact Int.natCast_nonneg n⟩] at hn
        cases hn
      show pow l r = none
      unfold pow
      rw [if_neg (not_or.mpr ⟨hlr, hrr⟩), hnone]

theorem Made.sound (h : Made v) : v.Sound := by
  induction h with
  | int64 hlow hhigh => exact (sound_int64 hlow hhigh).1
  | double d => exact sound_double d
  | integerText h => exact sound_integerText h
  | realText h => exact (sound_realText h).1
  | imaginaryText h => exact (sound_imaginaryText h).1
  | @fold f l r v hl hr h ihl ihr =>
    by_cases hrefused : Refused f l r
    · rw [fold_refused ihl ihr hrefused] at h
      cases h
    · have hgives := fold_gives ihl ihr hrefused
      split at hgives
      · rw [h] at hgives
        cases hgives
      · obtain ⟨w, hw, hsound, -⟩ := hgives.exists_value
        rw [h, some.injEq] at hw
        exact hw ▸ hsound
  | negate hv h ih =>
    obtain ⟨w, hw, hsound, -⟩ := (negate_gives ih).exists_value
    rw [h, some.injEq] at hw
    exact hw ▸ hsound

/-- Each fold of values of a program is refused, or is the exact operation, which does not divide by
    zero; negation is exact; and every result is in lowest terms. -/
theorem fold_exact :
    (∀ f l r, Made l → Made r →
      (Refused f l r → Value.fold f l r = none) ∧
      (¬ Refused f l r → (Value.fold f l r).map denote = exactFold f l r) ∧
      ∀ v, Value.fold f l r = some v → v.rational.Reduced ∧ v.imaginary.Reduced) ∧
    ∀ v, Made v → ∃ w, Value.negate v = some w ∧ w.denote = -v.denote ∧ w.rational.Reduced ∧
      w.imaginary.Reduced := by
  constructor
  · intro f l r hl hr
    refine ⟨fold_refused hl.sound hr.sound, fun hfolds => ?_, fun v hv => ?_⟩
    · have hgives := fold_gives hl.sound hr.sound hfolds
      cases hexact : exactFold f l r with
      | none =>
        rw [hexact] at hgives
        rw [hgives]
        rfl
      | some z =>
        rw [hexact] at hgives
        obtain ⟨v, hv, -, -, hz⟩ := hgives.exists_value
        rw [hv, map_some, hz]
    · have hsound := (Made.fold hl hr hv).sound
      exact ⟨hsound.rational, hsound.imaginary⟩
  · intro v hv
    obtain ⟨w, hw, hsound, -, hz⟩ := (negate_gives hv.sound).exists_value
    exact ⟨w, hw, hz, hsound.rational, hsound.imaginary⟩

theorem imaginaryText_one :
    ∃ v, fromImaginaryText ['1', 'i'] = some v ∧ v.kind = .imaginary := by
  obtain ⟨n, hn, -⟩ := @BigInt.fromDigits_of_digits 10 (by decide) (by decide) ['1'] nofun
    (List.forall_mem_singleton.2 (by decide))
  have hbody : ∃ body, fromRealText ['1'] = some body := by
    unfold fromRealText
    simp [takeSign, scanDigits, realExponent, hn]
  obtain ⟨body, hbody⟩ := hbody
  unfold fromImaginaryText
  simp [takeSign, hbody]

/-- The square of `1i` is an exact number, and it is not folded. -/
theorem complex_power_left :
    ¬ ∀ f l r, Made l → Made r → (Value.fold f l r).map denote = exactFold f l r := by
  intro h
  obtain ⟨v, hv, hkind⟩ := imaginaryText_one
  have htwo := sound_int64 (n := 2) (by decide) (by decide)
  have hpow := h .pow v (fromInt64 2) (.imaginaryText hv) (.int64 (by decide) (by decide))
  have hrefused : Value.fold .pow v (fromInt64 2) = none := by
    apply if_pos (Or.inl _)
    unfold hasImaginaryPart
    rw [hkind]
    rfl
  have hnatural : naturalExponent (fromInt64 2) = some 2 := by
    unfold naturalExponent
    rw [htwo.2, htwo.1.real rfl]
    rfl
  rw [hrefused, exactFold, hnatural] at hpow
  cases hpow

/-! ## Kinds -/

/-- The kind of every fold is that of its operands' kinds, but for zero to a power where not both
    are integers; negation keeps the kind; and the value of a double is a float unless the double
    is zero or no number. -/
theorem kind_of_fold (f : Fold) (l r : Value) (d : Double) :
    (∀ v, Made l → Made r → Value.fold f l r = some v →
      (v.kind = l.kind.fold r.kind ↔
        ¬ (f = .pow ∧ l.rational.toRat = 0 ∧ r.rational.toRat ≠ 0 ∧
          ¬ (l.kind = .integer ∧ r.kind = .integer)))) ∧
    (∀ w, Made l → Value.negate l = some w → w.kind = l.kind) ∧
    ((fromDouble d).kind = .float ↔
      ∃ negative mantissa exponent, d = .finite negative mantissa exponent ∧ mantissa ≠ 0) := by
  refine ⟨?_, ?_, ?_⟩
  · intro v hl hr hv
    have hfolds : ¬ Refused f l r := by
      intro hrefused
      rw [fold_refused hl.sound hr.sound hrefused] at hv
      cases hv
    have hgives := fold_gives hl.sound hr.sound hfolds
    split at hgives
    · rw [hv] at hgives
      cases hgives
    · next z hexact =>
      obtain ⟨w, hw, -, hkind, -⟩ := hgives.exists_value
      rw [hv, some.injEq] at hw
      subst hw
      rw [hkind]
      cases f with
      | add => exact ⟨fun _ h => Fold.noConfusion h.1, fun _ => rfl⟩
      | sub => exact ⟨fun _ h => Fold.noConfusion h.1, fun _ => rfl⟩
      | mul => exact ⟨fun _ h => Fold.noConfusion h.1, fun _ => rfl⟩
      | div => exact ⟨fun _ h => Fold.noConfusion h.1, fun _ => rfl⟩
      | mod =>
        rw [exactFold] at hexact
        split at hexact
        · next hints =>
          rw [hints.1, hints.2.1]
          exact ⟨fun _ h => Fold.noConfusion h.1, fun _ => rfl⟩
        · cases hexact
      | pow =>
        rw [foldKind]
        by_cases hzero : l.rational.toRat = 0 ∧ r.rational.toRat ≠ 0
        · rw [if_pos hzero]
          constructor
          · rintro h ⟨-, -, -, hnot⟩
            exact hnot (integers_of_fold h.symm)
          · intro h
            by_contra hkinds
            refine h ⟨rfl, hzero.1, hzero.2, fun hints => hkinds ?_⟩
            rw [hints.1, hints.2]
            rfl
        · rw [if_neg hzero]
          exact ⟨fun _ h => hzero ⟨h.2.1, h.2.2.1⟩, fun _ => rfl⟩
  · intro w hl hw
    obtain ⟨w', hw', -, hkind, -⟩ := (negate_gives hl.sound).exists_value
    rw [hw, some.injEq] at hw'
    exact hw' ▸ hkind
  · cases d with
    | infinite negative => exact ⟨fun h => Kind.noConfusion h, fun ⟨_, _, _, h, _⟩ => Double.noConfusion h⟩
    | nan => exact ⟨fun h => Kind.noConfusion h, fun ⟨_, _, _, h, _⟩ => Double.noConfusion h⟩
    | finite negative mantissa exponent =>
      rw [fromDouble]
      split
      · next h0 =>
        refine ⟨fun h => Kind.noConfusion h, ?_⟩
        rintro ⟨negative', mantissa', exponent', heq, hne⟩
        cases heq
        exact absurd (Fin.ext h0) hne
      · next h0 => exact ⟨fun _ => ⟨_, _, _, rfl, fun h => h0 (congrArg Fin.val h)⟩, fun _ => rfl⟩

theorem realText_zero :
    ∃ v, fromRealText ['0', '.', '0'] = some v ∧ v.rational.toRat = 0 := by
  obtain ⟨n, hn, hnormal, hvalue⟩ := @BigInt.fromDigits_of_digits 10 (by decide) (by decide)
    ['0', '0'] nofun (by simp [digitOf])
  have hzero : n.toInt = 0 := hvalue
  have htext : fromRealText ['0', '.', '0'] =
      some { kind := .float, rational := makeRational n (powerOfLimb 10 1) } := by
    unfold fromRealText
    simp [takeSign, scanDigits, realExponent, hn]
  obtain ⟨hten, htenv⟩ := @powerOfLimb_spec 10 (by decide) (by decide) 1
  have hrational := makeRational_spec hnormal hten (by rw [htenv]; decide)
  refine ⟨_, htext, ?_⟩
  show (makeRational n (powerOfLimb 10 1)).toRat = 0
  rw [hrational.2, hzero, Int.cast_zero, zero_div]

/-- `0.0 ** 2` is an integer. -/
theorem zero_power_integer :
    ¬ ∀ f l r v, Made l → Made r → Value.fold f l r = some v → v.kind = l.kind.fold r.kind := by
  intro h
  obtain ⟨zero, htext, hzero⟩ := realText_zero
  have hfloat := sound_realText htext
  have htwo := sound_int64 (n := 2) (by decide) (by decide)
  have hfolds : ¬ powRefused zero (fromInt64 2) := by
    unfold powRefused
    rw [hzero, htwo.2]
    simp [hasImaginaryPart, hfloat.2, fromInt64]
    norm_num
  obtain ⟨v, hv, -, hkind, -⟩ := (pow_gives hfloat.1 htwo.1 hfolds (n := 2) htwo.2).exists_value
  have hfloats := h .pow zero (fromInt64 2) v (.realText htext) (.int64 (by decide) (by decide)) hv
  rw [hkind, if_pos ⟨hzero, by decide⟩, hfloat.2] at hfloats
  exact Kind.noConfusion hfloats

end Value

end Camel.Literal
