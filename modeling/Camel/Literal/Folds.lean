import Camel.Literal.Value

/-! # Folding Is Exact

    What a value stands for is a complex number with rational parts. A fold that does not
    refuse gives the value of the exact arithmetic, in lowest terms, and nothing where
    that would divide by zero.
-/

namespace Camel.Literal

open Lib

/-! ## What a Value Stands For -/

/-- The kind of a fold of two kinds. -/
def Kind.fold (left right : Kind) : Kind :=
  if left = .imaginary ∨ left = .complex ∨ right = .imaginary ∨ right = .complex then .complex
  else if left = .integer ∧ right = .integer then .integer else .float

namespace Value

noncomputable def denote (v : Value) : ℂ := ⟨v.rational.toRat, v.imaginary.toRat⟩

/-- The integer of a value of that kind. -/
def integer (v : Value) : Int := v.rational.toRat.num

/-- Both parts in lowest terms, an integer of the integer kind, and no imaginary part where the
    kind has none. -/
structure Sound (v : Value) : Prop where
  rational : v.rational.Reduced
  imaginary : v.imaginary.Reduced
  integral : v.kind = .integer → ∃ n : Int, v.rational.toRat = n
  real : v.hasImaginaryPart = false → v.imaginary.toRat = 0

variable {l r v : Value}

theorem Sound.integer_eq (h : v.Sound) (hkind : v.kind = .integer) :
    v.rational.toRat = v.integer := by
  obtain ⟨n, hn⟩ := h.integral hkind
  unfold integer
  rw [hn, Rat.num_intCast]

theorem Sound.denote_real (h : v.Sound) (hreal : v.hasImaginaryPart = false) :
    v.denote = (v.rational.toRat : ℂ) := by
  unfold denote
  rw [h.real hreal]
  apply Complex.ext
  · rw [Complex.ratCast_re]
  · rw [Complex.ratCast_im, Rat.cast_zero]

theorem not_imaginary_of_integer (hkind : v.kind = .integer) : v.hasImaginaryPart = false := by
  unfold hasImaginaryPart
  rw [hkind]
  rfl

/-- A real value with this rational part. -/
theorem sound_real {kind : Kind} {q : Rational} {negativeZero : Bool} (hq : q.Reduced)
    (hkind : kind = .integer → ∃ n : Int, q.toRat = n) :
    Sound { kind, rational := q, negativeZero } :=
  ⟨hq, Rational.reduced_zero, hkind, fun _ => Rational.toRat_zero⟩

theorem sound_complex {a b : Rational} (ha : a.Reduced) (hb : b.Reduced) :
    (complexValue a b).Sound :=
  ⟨ha, hb, fun h => Kind.noConfusion h, fun h => Bool.noConfusion h⟩

theorem denote_complexValue (a b : Rational) : (complexValue a b).denote = ⟨a.toRat, b.toRat⟩ := rfl

/-- An integer over one. -/
theorem integral_spec {n : BigInt} (hn : n.Normal) :
    (⟨n, .ofInt64 1⟩ : Rational).Reduced ∧ (⟨n, .ofInt64 1⟩ : Rational).toRat = n.toInt := by
  have hone := one_spec
  refine ⟨⟨hn, hone.1, ?_, ?_⟩, ?_⟩
  · show 0 < (BigInt.ofInt64 1).toInt
    rw [hone.2]
    decide
  · show Int.gcd n.toInt (BigInt.ofInt64 1).toInt = 1
    rw [hone.2, Int.gcd_one]
  · unfold Rational.toRat
    rw [hone.2, Int.cast_one, div_one]

theorem foldedKind_eq (l r : Value) :
    foldedKind l r (l.hasImaginaryPart || r.hasImaginaryPart) = l.kind.fold r.kind := by
  unfold foldedKind hasImaginaryPart
  cases l.kind <;> cases r.kind <;> rfl

theorem fold_complex (h : (l.hasImaginaryPart || r.hasImaginaryPart) = true) :
    l.kind.fold r.kind = .complex := by
  rw [← foldedKind_eq, h]
  rfl

theorem fold_real (h : (l.hasImaginaryPart || r.hasImaginaryPart) = false) :
    foldedKind l r false = l.kind.fold r.kind := by
  rw [← h, foldedKind_eq]

theorem integers_of_fold (h : l.kind.fold r.kind = .integer) :
    l.kind = .integer ∧ r.kind = .integer := by
  unfold Kind.fold at h
  cases hl : l.kind <;> cases hr : r.kind <;> simp [hl, hr] at h ⊢

/-- What a fold that succeeds gives: a sound value of the kind, which stands for the number. -/
structure Gives (o : Option Value) (kind : Kind) (z : ℂ) : Prop where
  exists_value : ∃ v, o = some v ∧ v.Sound ∧ v.kind = kind ∧ v.denote = z

theorem gives_some {kind : Kind} {z : ℂ} (hv : v.Sound) (hkind : v.kind = kind)
    (hz : v.denote = z) : Gives (some v) kind z :=
  ⟨v, rfl, hv, hkind, hz⟩

/-! ## Sums, Differences and Products -/

/-- A fold that works part by part, by an operation that is exact on rationals. -/
theorem foldParts_gives {op : Rational → Rational → Rational} (exact : ℚ → ℚ → ℚ)
    (hop : ∀ {a b : Rational}, a.Reduced → b.Reduced →
      (op a b).Reduced ∧ (op a b).toRat = exact a.toRat b.toRat)
    (hint : ∀ m n : Int, ∃ k : Int, exact m n = k) (hzero : exact 0 0 = 0)
    (hl : l.Sound) (hr : r.Sound) :
    Gives (foldParts op l r) (l.kind.fold r.kind)
      ⟨exact l.rational.toRat r.rational.toRat, exact l.imaginary.toRat r.imaginary.toRat⟩ := by
  have hreal := hop hl.rational hr.rational
  have himaginary := hop hl.imaginary hr.imaginary
  unfold foldParts
  dsimp only
  cases hcomplex : l.hasImaginaryPart || r.hasImaginaryPart with
  | true =>
    refine gives_some (sound_complex hreal.1 himaginary.1) (fold_complex hcomplex).symm ?_
    show (⟨((op l.rational r.rational).toRat : ℝ), ((op l.imaginary r.imaginary).toRat : ℝ)⟩ : ℂ) = _
    rw [hreal.2, himaginary.2]
  | false =>
    obtain ⟨hlr, hrr⟩ := Bool.or_eq_false_iff.mp hcomplex
    have hsound : Sound { kind := foldedKind l r false, rational := op l.rational r.rational } := by
      apply sound_real hreal.1
      intro hkind
      rw [fold_real hcomplex] at hkind
      obtain ⟨hkl, hkr⟩ := integers_of_fold hkind
      rw [hreal.2, hl.integer_eq hkl, hr.integer_eq hkr]
      exact hint _ _
    refine gives_some hsound (fold_real hcomplex) ?_
    show (⟨((op l.rational r.rational).toRat : ℝ), ((({} : Rational).toRat : ℚ) : ℝ)⟩ : ℂ) = _
    rw [hreal.2, Rational.toRat_zero, hl.real hlr, hr.real hrr, hzero]

theorem add_gives (hl : l.Sound) (hr : r.Sound) :
    Gives (add l r) (l.kind.fold r.kind) (l.denote + r.denote) := by
  have h := foldParts_gives (· + ·) rationalAdd_spec
    (fun m n => ⟨m + n, by push_cast; rfl⟩) (add_zero 0) hl hr
  have hz : l.denote + r.denote = ⟨((l.rational.toRat + r.rational.toRat : ℚ) : ℝ),
      ((l.imaginary.toRat + r.imaginary.toRat : ℚ) : ℝ)⟩ := by
    rw [Rat.cast_add, Rat.cast_add]
    rfl
  rw [hz]
  exact h

theorem sub_gives (hl : l.Sound) (hr : r.Sound) :
    Gives (sub l r) (l.kind.fold r.kind) (l.denote - r.denote) := by
  have h := foldParts_gives (· - ·) rationalSub_spec
    (fun m n => ⟨m - n, by push_cast; rfl⟩) (sub_zero 0) hl hr
  have hz : l.denote - r.denote = ⟨((l.rational.toRat - r.rational.toRat : ℚ) : ℝ),
      ((l.imaginary.toRat - r.imaginary.toRat : ℚ) : ℝ)⟩ := by
    rw [Rat.cast_sub, Rat.cast_sub]
    rfl
  rw [hz]
  exact h

/-- The numerators of a product are too long. -/
def mulTooLong (l r : Value) : Prop :=
  kMaxBits < l.rational.num.bits + r.rational.num.bits ∨
    kMaxBits < l.imaginary.num.bits + r.imaginary.num.bits

theorem mul_gives (hl : l.Sound) (hr : r.Sound) (hshort : ¬ mulTooLong l r) :
    Gives (mul l r) (l.kind.fold r.kind) (l.denote * r.denote) := by
  have hab := rationalMul_spec hl.rational hr.rational
  have hcd := rationalMul_spec hl.imaginary hr.imaginary
  have had := rationalMul_spec hl.rational hr.imaginary
  have hcb := rationalMul_spec hl.imaginary hr.rational
  unfold mulTooLong at hshort
  unfold mul
  dsimp only
  rw [if_neg hshort]
  cases hcomplex : l.hasImaginaryPart || r.hasImaginaryPart with
  | true =>
    have hreal := rationalSub_spec hab.1 hcd.1
    have himaginary := rationalAdd_spec had.1 hcb.1
    refine gives_some (sound_complex hreal.1 himaginary.1) (fold_complex hcomplex).symm ?_
    rw [denote_complexValue, hreal.2, hab.2, hcd.2, himaginary.2, had.2, hcb.2]
    apply Complex.ext
    · rw [Complex.mul_re]
      push_cast
      rfl
    · rw [Complex.mul_im]
      push_cast
      rfl
  | false =>
    obtain ⟨hlr, hrr⟩ := Bool.or_eq_false_iff.mp hcomplex
    have hsound : Sound
        { kind := foldedKind l r false, rational := rationalMul l.rational r.rational } := by
      apply sound_real hab.1
      intro hkind
      rw [fold_real hcomplex] at hkind
      obtain ⟨hkl, hkr⟩ := integers_of_fold hkind
      rw [hab.2, hl.integer_eq hkl, hr.integer_eq hkr]
      exact ⟨_, (Int.cast_mul _ _).symm⟩
    refine gives_some hsound (fold_real hcomplex) ?_
    rw [hsound.denote_real ?_, hl.denote_real hlr, hr.denote_real hrr]
    · show ((rationalMul l.rational r.rational).toRat : ℂ) = _
      rw [hab.2, Rat.cast_mul]
    · show hasImaginaryPart { kind := foldedKind l r false } = false
      unfold foldedKind hasImaginaryPart
      cases l.kind <;> cases r.kind <;> rfl

/-! ## Quotients and Remainders -/

theorem denote_eq_zero_iff :
    v.denote = 0 ↔ v.rational.toRat = 0 ∧ v.imaginary.toRat = 0 := by
  rw [Complex.ext_iff]
  show ((v.rational.toRat : ℝ) = 0 ∧ (v.imaginary.toRat : ℝ) = 0) ↔ _
  rw [Rat.cast_eq_zero, Rat.cast_eq_zero]

/-- The sum of the squares of the parts is zero for zero alone. -/
theorem normSq_eq_zero {b d : ℚ} : b * b + d * d = 0 ↔ b = 0 ∧ d = 0 := by
  constructor
  · intro h
    have hb := mul_self_nonneg b
    have hd := mul_self_nonneg d
    exact ⟨mul_self_eq_zero.mp (by linarith), mul_self_eq_zero.mp (by linarith)⟩
  · rintro ⟨rfl, rfl⟩
    ring

/-- The exact quotient, truncated between integers. -/
noncomputable def quotient (l r : Value) : ℂ :=
  if l.kind = .integer ∧ r.kind = .integer then ((l.integer.tdiv r.integer : Int) : ℂ)
  else l.denote / r.denote

theorem rationalDiv_some {a b : Rational} (ha : a.Reduced) (hb : b.Reduced) (hne : b.toRat ≠ 0) :
    ∃ q, rationalDiv a b = some q ∧ q.Reduced ∧ q.toRat = a.toRat / b.toRat := by
  have h := rationalDiv_spec ha hb
  rwa [if_neg hne] at h

theorem integer_num (h : v.Sound) :
    v.rational.num.toInt = v.integer := h.rational.parts.1.symm

theorem div_gives (hl : l.Sound) (hr : r.Sound) :
    if r.denote = 0 then div l r = none
    else Gives (div l r) (l.kind.fold r.kind) (quotient l r) := by
  have hzero := @denote_eq_zero_iff r
  have hnum : r.rational.num.isZero = true ↔ r.rational.toRat = 0 := by
    rw [isZero_iff hr.rational.num, hr.rational.toRat_eq_zero_iff]
  unfold div
  dsimp only
  cases hcomplex : l.hasImaginaryPart || r.hasImaginaryPart with
  | false =>
    obtain ⟨hlr, hrr⟩ := Bool.or_eq_false_iff.mp hcomplex
    rw [hr.real hrr, eq_self_iff_true, and_true] at hzero
    split
    · next h => exact if_pos (hnum.mpr (hzero.mp h))
    · next h =>
      have hne : r.rational.toRat ≠ 0 := mt hzero.mpr h
      have hnz : ¬ r.rational.num.isZero = true := mt hnum.mp hne
      show Gives (if r.rational.num.isZero = true then none else _) _ _
      rw [if_neg hnz]
      by_cases hints : l.kind = .integer ∧ r.kind = .integer
      · rw [if_pos hints]
        obtain ⟨hkl, hkr⟩ := hints
        have hr0 : r.rational.num.toInt ≠ 0 := mt (isZero_iff hr.rational.num).mpr hnz
        obtain ⟨hq, -, hqv, -⟩ := BigInt.divMod_spec hl.rational.num hr.rational.num hr0
        obtain ⟨hreduced, hvalue⟩ := integral_spec hq
        have hsound : Sound { kind := .integer, rational :=
            ⟨(l.rational.num.divMod r.rational.num).1, .ofInt64 1⟩ } :=
          sound_real hreduced fun _ => ⟨_, hvalue⟩
        refine gives_some hsound ?_ ?_
        · rw [hkl, hkr]
          rfl
        · rw [hsound.denote_real rfl]
          unfold quotient
          rw [if_pos ⟨hkl, hkr⟩]
          show ((⟨_, _⟩ : Rational).toRat : ℂ) = _
          rw [hvalue, hqv, integer_num hl, integer_num hr, Rat.cast_intCast]
      · rw [if_neg hints]
        obtain ⟨q, hq, hreduced, hvalue⟩ := rationalDiv_some hl.rational hr.rational hne
        have hsound : Sound { kind := .float, rational := q } :=
          sound_real hreduced fun h => Kind.noConfusion h
        rw [hq]
        refine gives_some hsound ?_ ?_
        · rw [← fold_real hcomplex]
          unfold foldedKind
          rw [if_neg Bool.false_ne_true, if_neg hints]
        · rw [hsound.denote_real rfl]
          unfold quotient
          rw [if_neg hints, hl.denote_real hlr, hr.denote_real hrr]
          show (q.toRat : ℂ) = _
          rw [hvalue, Rat.cast_div]
  | true =>
    have hbb := rationalMul_spec hr.rational hr.rational
    have hdd := rationalMul_spec hr.imaginary hr.imaginary
    have hden := rationalAdd_spec hbb.1 hdd.1
    have hdenv : (rationalAdd (rationalMul r.rational r.rational)
        (rationalMul r.imaginary r.imaginary)).toRat = r.rational.toRat * r.rational.toRat +
          r.imaginary.toRat * r.imaginary.toRat := by
      rw [hden.2, hbb.2, hdd.2]
    have hdenz : (rationalAdd (rationalMul r.rational r.rational)
        (rationalMul r.imaginary r.imaginary)).num.isZero = true ↔ r.denote = 0 := by
      rw [isZero_iff hden.1.num, ← hden.1.toRat_eq_zero_iff, hdenv, normSq_eq_zero, hzero]
    split
    · next h => exact if_pos (hdenz.mpr h)
    · next h =>
      show Gives (if _ then none else _) _ _
      rw [if_neg (mt hdenz.mp h)]
      have hne := mt hden.1.toRat_eq_zero_iff.mp (mt (isZero_iff hden.1.num).mpr (mt hdenz.mp h))
      have hab := rationalMul_spec hl.rational hr.rational
      have hcd := rationalMul_spec hl.imaginary hr.imaginary
      have hcb := rationalMul_spec hl.imaginary hr.rational
      have had := rationalMul_spec hl.rational hr.imaginary
      obtain ⟨x, hx, hxr, hxv⟩ := rationalDiv_some (rationalAdd_spec hab.1 hcd.1).1 hden.1 hne
      obtain ⟨y, hy, hyr, hyv⟩ := rationalDiv_some (rationalSub_spec hcb.1 had.1).1 hden.1 hne
      rw [hx, hy]
      refine gives_some (sound_complex hxr hyr) (fold_complex hcomplex).symm ?_
      have hnotint : ¬ (l.kind = .integer ∧ r.kind = .integer) := by
        rintro ⟨hkl, hkr⟩
        rw [not_imaginary_of_integer hkl, not_imaginary_of_integer hkr] at hcomplex
        exact Bool.noConfusion hcomplex
      unfold quotient
      rw [if_neg hnotint]
      have hnormSq : Complex.normSq r.denote = ((r.rational.toRat * r.rational.toRat +
          r.imaginary.toRat * r.imaginary.toRat : ℚ) : ℝ) := by
        rw [Complex.normSq_apply]
        push_cast
        rfl
      rw [denote_complexValue, hxv, hyv, (rationalAdd_spec hab.1 hcd.1).2,
        (rationalSub_spec hcb.1 had.1).2, hab.2, hcd.2, hcb.2, had.2, hdenv]
      apply Complex.ext
      · rw [Complex.div_re, hnormSq, ← add_div]
        push_cast
        rfl
      · rw [Complex.div_im, hnormSq, ← sub_div]
        push_cast
        rfl

theorem mod_gives (hl : l.Sound) (hr : r.Sound) :
    if l.kind = .integer ∧ r.kind = .integer ∧ r.denote ≠ 0 then
      Gives (mod l r) .integer ((l.integer.tmod r.integer : Int) : ℂ)
    else mod l r = none := by
  have hnum : r.rational.num.isZero = true ↔ r.rational.toRat = 0 := by
    rw [isZero_iff hr.rational.num, hr.rational.toRat_eq_zero_iff]
  unfold mod
  split
  · next h =>
    obtain ⟨hkl, hkr, hne⟩ := h
    have hnz : ¬ r.rational.num.isZero = true := by
      rw [hnum]
      exact fun h0 => hne (denote_eq_zero_iff.mpr ⟨h0, hr.real (not_imaginary_of_integer hkr)⟩)
    rw [not_imaginary_of_integer hkl, not_imaginary_of_integer hkr, if_neg (by decide),
      if_neg (not_or.mpr ⟨not_not.mpr hkl, not_not.mpr hkr⟩), if_neg hnz]
    have hr0 : r.rational.num.toInt ≠ 0 := mt (isZero_iff hr.rational.num).mpr hnz
    obtain ⟨-, hm, -, hmv⟩ := BigInt.divMod_spec hl.rational.num hr.rational.num hr0
    obtain ⟨hreduced, hvalue⟩ := integral_spec hm
    have hsound : Sound { kind := .integer, rational :=
        ⟨(l.rational.num.divMod r.rational.num).2, .ofInt64 1⟩ } :=
      sound_real hreduced fun _ => ⟨_, hvalue⟩
    refine gives_some hsound rfl ?_
    rw [hsound.denote_real rfl]
    show ((⟨_, _⟩ : Rational).toRat : ℂ) = _
    rw [hvalue, hmv, integer_num hl, integer_num hr, Rat.cast_intCast]
  · next h =>
    split
    · rfl
    · split
      · rfl
      · next hints =>
        obtain ⟨hkl, hkr⟩ := not_or.mp hints
        have h0 : r.denote = 0 := by
          by_contra hne
          exact h ⟨not_not.mp hkl, not_not.mp hkr, hne⟩
        exact if_pos (hnum.mpr (denote_eq_zero_iff.mp h0).1)

/-! ## Powers and Negation -/

/-- The exponent of an exact power, where it is a natural number. -/
def naturalExponent (v : Value) : Option Nat :=
  if v.imaginary.toRat = 0 ∧ v.rational.toRat.den = 1 ∧ 0 ≤ v.rational.toRat.num then
    some v.rational.toRat.num.toNat
  else none

/-- A power that is not folded: one of or by a complex number, or one that would run away. -/
def powRefused (base exponent : Value) : Prop :=
  base.hasImaginaryPart = true ∨ exponent.hasImaginaryPart = true ∨
    4096 < exponent.rational.toRat ∨
    base.rational.toRat ≠ 0 ∧ exponent.rational.toRat ≠ 0 ∧
      kMaxBits < base.rational.num.bits * exponent.rational.toRat.num.toNat

theorem integerExponent_spec {e : Rational} (h : e.Reduced) (n : Nat) :
    integerExponent e = some n ↔ e.toRat = n ∧ n < 2 ^ 63 := by
  have hone := isOne_iff h.den
  have hneg := h.num.neg_iff
  have hfits := BigInt.fitsInt64_iff h.num
  have hparts := h.parts
  have hnat : e.toRat = n ↔ e.den.toInt = 1 ∧ e.num.toInt = n := by
    constructor
    · intro he
      rw [he] at hparts
      exact ⟨hparts.2.symm, hparts.1.symm⟩
    · rintro ⟨hd, hn⟩
      unfold Rational.toRat
      rw [hd, hn, Int.cast_one, div_one, Int.cast_natCast]
  unfold integerExponent
  split
  · next hbad =>
    constructor
    · exact fun hn => nomatch hn
    · rintro ⟨he, hlt⟩
      obtain ⟨hd, hn⟩ := hnat.mp he
      rcases hbad with hbad | hbad | hbad
      · rw [hone.mpr hd] at hbad
        exact Bool.noConfusion hbad
      · have := hneg.mp hbad
        omega
      · have := hfits.mpr ⟨by omega, by omega⟩
        rw [this] at hbad
        exact Bool.noConfusion hbad
  · next hgood =>
    obtain ⟨hd, hgood⟩ := not_or.mp hgood
    obtain ⟨hn, hf⟩ := not_or.mp hgood
    have hf' : e.num.fitsInt64 = true := Bool.of_not_eq_false hf
    have hrange := hfits.mp hf'
    have hnonneg : 0 ≤ e.num.toInt := Int.not_lt.mp (mt hneg.mpr hn)
    have hd1 : e.den.toInt = 1 := hone.mp (Bool.of_not_eq_false hd)
    rw [BigInt.toInt64_eq h.num hf', if_neg (by omega), Option.some.injEq, hnat]
    constructor
    · rintro rfl
      exact ⟨⟨hd1, (Int.toNat_of_nonneg hnonneg).symm⟩, by omega⟩
    · rintro ⟨⟨-, hn'⟩, -⟩
      rw [hn', Int.toNat_natCast]

theorem integerExponent_none {e : Rational} (h : e.Reduced)
    (hnot : ∀ n : Nat, n < 2 ^ 63 → e.toRat ≠ n) : integerExponent e = none := by
  cases he : integerExponent e with
  | none => rfl
  | some n =>
    obtain ⟨hn, hlt⟩ := (integerExponent_spec h n).mp he
    exact absurd hn (hnot n hlt)

theorem pow_refused (hl : l.Sound) (hr : r.Sound) (h : powRefused l r) : pow l r = none := by
  unfold pow
  split
  · rfl
  · next hreal =>
    obtain ⟨hlr, hrr⟩ := not_or.mp hreal
    cases he : integerExponent r.rational with
    | none => rfl
    | some n =>
      obtain ⟨hn, -⟩ := (integerExponent_spec hr.rational n).mp he
      dsimp only
      split
      · rfl
      · next hsmall =>
        rcases h with h | h | h | ⟨hl0, hr0, hbits⟩
        · exact absurd h hlr
        · exact absurd h hrr
        · rw [hn] at h
          exact absurd (by exact_mod_cast h) hsmall
        · rw [hn] at hr0 hbits
          rw [Rat.num_natCast, Int.toNat_natCast] at hbits
          have hnum := (isZero_iff hl.rational.num).not.mpr
            (mt hl.rational.toRat_eq_zero_iff.mpr hl0)
          rw [if_neg (by exact_mod_cast hr0), if_neg hnum, if_pos hbits]

/-- A power that is folded: where the base is zero, the result is an integer. -/
theorem pow_gives (hl : l.Sound) (hr : r.Sound) (h : ¬ powRefused l r) {n : Nat}
    (hn : r.rational.toRat = n) :
    Gives (pow l r) (if l.rational.toRat = 0 ∧ n ≠ 0 then .integer else l.kind.fold r.kind)
      (l.denote ^ n) := by
  obtain ⟨hlr, h⟩ := not_or.mp h
  obtain ⟨hrr, h⟩ := not_or.mp h
  obtain ⟨hsmall, hbits⟩ := not_or.mp h
  have hlr' : l.hasImaginaryPart = false := Bool.of_not_eq_true hlr
  have hcomplex : (l.hasImaginaryPart || r.hasImaginaryPart) = false := by
    rw [hlr', Bool.of_not_eq_true hrr]
    rfl
  have hle : n ≤ 4096 := by
    rw [hn] at hsmall
    exact_mod_cast not_lt.mp hsmall
  have hzero : l.rational.num.isZero = true ↔ l.rational.toRat = 0 := by
    rw [isZero_iff hl.rational.num, hl.rational.toRat_eq_zero_iff]
  unfold pow
  rw [if_neg (not_or.mpr ⟨hlr, hrr⟩), (integerExponent_spec hr.rational n).mpr ⟨hn, by omega⟩]
  dsimp only
  rw [if_neg (by omega), hl.denote_real hlr']
  by_cases hn0 : n = 0
  · subst hn0
    obtain ⟨hreduced, hvalue⟩ := integral_spec one_spec.1
    have hsound : Sound
        { kind := foldedKind l r false, rational := ⟨.ofInt64 1, .ofInt64 1⟩ } :=
      sound_real hreduced fun _ => ⟨_, hvalue⟩
    rw [if_pos rfl, if_neg (fun h => h.2 rfl)]
    refine gives_some hsound (fold_real hcomplex) ?_
    rw [hsound.denote_real ?_, pow_zero]
    · show ((⟨_, _⟩ : Rational).toRat : ℂ) = 1
      rw [hvalue, one_spec.2, Int.cast_one, Rat.cast_one]
    · show hasImaginaryPart { kind := foldedKind l r false } = false
      unfold foldedKind hasImaginaryPart
      cases l.kind <;> cases r.kind <;> rfl
  · rw [if_neg hn0]
    by_cases hl0 : l.rational.toRat = 0
    · obtain ⟨hz, hzv⟩ := BigInt.ofInt64_spec (v := 0) (by decide) (by decide)
      obtain ⟨hreduced, hvalue⟩ := integral_spec hz
      have hsound : (fromInt64 0).Sound := sound_real hreduced fun _ => ⟨_, hvalue⟩
      rw [if_pos (hzero.mpr hl0), if_pos ⟨hl0, hn0⟩]
      refine gives_some hsound rfl ?_
      rw [hsound.denote_real rfl, hl0, Rat.cast_zero, zero_pow hn0]
      show ((⟨_, _⟩ : Rational).toRat : ℂ) = 0
      rw [hvalue, hzv, Int.cast_zero, Rat.cast_zero]
    · have hshort : ¬ kMaxBits < l.rational.num.bits * n := by
        intro hlong
        apply hbits
        rw [hn, Rat.num_natCast, Int.toNat_natCast]
        exact ⟨hl0, by exact_mod_cast hn0, hlong⟩
      rw [if_neg (mt hzero.mp hl0), if_neg hshort, if_neg (fun h => hl0 h.1)]
      obtain ⟨hnum, hnumv⟩ := powerOf_spec hl.rational.num n
      obtain ⟨hden, hdenv⟩ := powerOf_spec hl.rational.den n
      have hne : (powerOf l.rational.den n).toInt ≠ 0 := by
        rw [hdenv]
        exact pow_ne_zero n hl.rational.pos.ne'
      obtain ⟨hreduced, hvalue⟩ := makeRational_spec hnum hden hne
      rw [hnumv, hdenv, Int.cast_pow, Int.cast_pow, ← div_pow] at hvalue
      have hvalue' : (makeRational (powerOf l.rational.num n) (powerOf l.rational.den n)).toRat =
          l.rational.toRat ^ n := hvalue
      have hsound : Sound {
          kind := foldedKind l r false
          rational := makeRational (powerOf l.rational.num n) (powerOf l.rational.den n) } := by
        apply sound_real hreduced
        intro hkind
        rw [fold_real hcomplex] at hkind
        rw [hvalue', hl.integer_eq (integers_of_fold hkind).1]
        exact ⟨_, (Int.cast_pow _ _).symm⟩
      refine gives_some hsound (fold_real hcomplex) ?_
      rw [hsound.denote_real ?_]
      · show ((makeRational _ _).toRat : ℂ) = _
        rw [hvalue', Rat.cast_pow]
      · show hasImaginaryPart { kind := foldedKind l r false } = false
        unfold foldedKind hasImaginaryPart
        cases l.kind <;> cases r.kind <;> rfl

theorem reduced_negated {q : Rational} (h : q.Reduced) :
    Rational.Reduced { q with num := q.num.negated } ∧
      Rational.toRat { q with num := q.num.negated } = -q.toRat := by
  obtain ⟨hnum, hvalue⟩ := BigInt.negated_spec h.num
  refine ⟨⟨hnum, h.den, h.pos, ?_⟩, ?_⟩
  · show Int.gcd q.num.negated.toInt q.den.toInt = 1
    rw [hvalue, Int.neg_gcd]
    exact h.coprime
  · show (q.num.negated.toInt : ℚ) / q.den.toInt = _
    rw [hvalue, Int.cast_neg, neg_div]
    rfl

theorem negatePart_spec {q : Rational} (h : q.Reduced) (negativeZero : Bool) :
    (negatePart q negativeZero).1.Reduced ∧ (negatePart q negativeZero).1.toRat = -q.toRat := by
  unfold negatePart
  split
  · next hzero =>
    have h0 := h.toRat_eq_zero_iff.mpr ((isZero_iff h.num).mp hzero)
    exact ⟨h, by rw [h0, neg_zero]⟩
  · exact reduced_negated h

theorem negate_gives (h : v.Sound) : Gives (negate v) v.kind (-v.denote) := by
  unfold negate
  split
  · next himaginary =>
    obtain ⟨hi, hiv⟩ := negatePart_spec h.imaginary v.imaginaryNegativeZero
    obtain ⟨hr, hrv⟩ := negatePart_spec h.rational v.negativeZero
    refine ⟨_, rfl, ⟨hr, hi, fun hkind => ?_, fun hreal => ?_⟩, rfl, ?_⟩
    · have hreal : v.hasImaginaryPart = false := not_imaginary_of_integer (v := v) hkind
      exact Bool.noConfusion (himaginary.symm.trans hreal)
    · exact Bool.noConfusion (himaginary.symm.trans hreal)
    · show (⟨((negatePart _ _).1.toRat : ℝ), ((negatePart _ _).1.toRat : ℝ)⟩ : ℂ) = _
      rw [hiv, hrv, Rat.cast_neg, Rat.cast_neg]
      rfl
  · next hreal =>
    have hreal' : v.hasImaginaryPart = false := Bool.of_not_eq_true hreal
    have hpart : ∀ q : Rational, q.Reduced → q.toRat = -v.rational.toRat →
        Gives (some { kind := v.kind, rational := q }) v.kind (-v.denote) := by
      intro q hq hqv
      have hsound : Sound { kind := v.kind, rational := q } := by
        apply sound_real hq
        intro hkind
        rw [hqv, h.integer_eq hkind]
        exact ⟨_, (Int.cast_neg _).symm⟩
      refine gives_some hsound rfl ?_
      rw [hsound.denote_real hreal', h.denote_real hreal']
      show (q.toRat : ℂ) = _
      rw [hqv, Rat.cast_neg]
    split
    · next hzero =>
      have h0 := h.rational.toRat_eq_zero_iff.mpr ((isZero_iff h.rational.num).mp hzero)
      exact hpart _ h.rational (by rw [h0, neg_zero])
    · obtain ⟨hq, hqv⟩ := reduced_negated h.rational
      exact hpart _ hq hqv

end Value

end Camel.Literal
