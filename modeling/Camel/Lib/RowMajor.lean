import Mathlib

/-! # Row-Major Numbering

    The points of a box are numbered row by row: the last coordinate moves fastest. A
    point is the list of its coordinates, one for each extent.
-/

namespace Camel.Lib

open List

/-- Every coordinate lies below its extent. -/
def Inside (cs es : List Nat) : Prop := Forall₂ (· < ·) cs es

/-- The number of the point with coordinates `cs` in a box of extents `es`. -/
def flatOf : List Nat → List Nat → Nat
  | _ :: es, c :: cs => c * es.prod + flatOf es cs
  | _, _ => 0

/-- The coordinates of the point with number `i`. -/
def coordsOf : List Nat → Nat → List Nat
  | [], _ => []
  | e :: es, i => i / es.prod % e :: coordsOf es i

variable {cs es : List Nat}

@[simp] theorem flatOf_nil (cs : List Nat) : flatOf [] cs = 0 := by
  cases cs <;> rfl

@[simp] theorem length_coordsOf (es : List Nat) (i : Nat) : (coordsOf es i).length = es.length := by
  induction es with
  | nil => rfl
  | cons e es ih => rw [coordsOf, length_cons, length_cons, ih]

theorem flatOf_lt (h : Inside cs es) : flatOf es cs < es.prod := by
  induction h with
  | nil => simp
  | @cons c e cs es hc htail ih =>
    rw [flatOf, prod_cons]
    have hnext : (c + 1) * es.prod ≤ e * es.prod := Nat.mul_le_mul_right _ hc
    rw [add_mul, one_mul] at hnext
    omega

/-- Numbering the coordinates of a number gives it back, less the whole boxes. -/
theorem flatOf_coordsOf_mod (es : List Nat) (i : Nat) :
    flatOf es (coordsOf es i) = i % es.prod := by
  induction es with
  | nil => simp [coordsOf, Nat.mod_one]
  | cons e es ih =>
    rw [coordsOf, flatOf, ih, prod_cons, mul_comm e, Nat.mod_mul, mul_comm,
      add_comm]

theorem flatOf_coordsOf {i : Nat} (h : i < es.prod) : flatOf es (coordsOf es i) = i := by
  rw [flatOf_coordsOf_mod, Nat.mod_eq_of_lt h]

theorem inside_coordsOf {i : Nat} (h : i < es.prod) : Inside (coordsOf es i) es := by
  have hpos : ∀ e ∈ es, 0 < e := by
    intro e he
    apply pos_of_ne_zero
    rintro rfl
    rw [prod_eq_zero he] at h
    omega
  clear h
  induction es with
  | nil => exact Forall₂.nil
  | cons e es ih =>
    exact Forall₂.cons (Nat.mod_lt _ (hpos e mem_cons_self))
      (ih fun e he => hpos e (.tail _ he))

/-- Whole boxes do not change the coordinates. -/
theorem coordsOf_add_mul (es : List Nat) (k i : Nat) :
    coordsOf es (k * es.prod + i) = coordsOf es i := by
  induction es generalizing k with
  | nil => rfl
  | cons e es ih =>
    have hsplit : k * (e :: es).prod + i = (k * e) * es.prod + i := by
      rw [prod_cons]
      ring
    rw [hsplit, coordsOf, coordsOf, ih]
    congr 1
    by_cases h0 : es.prod = 0
    · simp [h0]
    · have hpos : 0 < es.prod := pos_of_ne_zero h0
      rw [add_comm, Nat.add_mul_div_right _ _ hpos, Nat.add_mul_mod_self_right]

theorem coordsOf_flatOf (h : Inside cs es) : coordsOf es (flatOf es cs) = cs := by
  induction h with
  | nil => rfl
  | @cons c e cs es hc htail ih =>
    have hlt := flatOf_lt htail
    rw [coordsOf, flatOf, coordsOf_add_mul, ih]
    congr 1
    rw [add_comm, Nat.add_mul_div_right _ _ (by omega), Nat.div_eq_of_lt hlt, zero_add,
      Nat.mod_eq_of_lt hc]

theorem Inside.length (h : Inside cs es) : cs.length = es.length := Forall₂.length_eq h

theorem Inside.getD_lt (h : Inside cs es) {k : Nat} (hk : k < es.length) :
    cs.getD k 0 < es.getD k 0 := by
  induction h generalizing k with
  | nil => cases hk
  | cons hx htail ih =>
    cases k with
    | zero => exact hx
    | succ k =>
      rw [getD_cons_succ, getD_cons_succ]
      exact ih (Nat.lt_of_succ_lt_succ hk)

/-- A coordinate that stays below another extent. -/
theorem Inside.set {k c e : Nat} (h : Inside cs es) (hc : c < e) :
    Inside (cs.set k c) (es.set k e) := by
  induction h generalizing k with
  | nil => exact Forall₂.nil
  | cons hx htail ih =>
    cases k with
    | zero => exact Forall₂.cons hc htail
    | succ k => exact Forall₂.cons hx (ih (k := k))

/-- Leading extents count whole boxes of the others. -/
theorem flatOf_append {as bs xs ys : List Nat} (h : xs.length = as.length) :
    flatOf (as ++ bs) (xs ++ ys) = flatOf as xs * bs.prod + flatOf bs ys := by
  induction as generalizing xs with
  | nil =>
    rw [length_eq_zero_iff.1 h, flatOf_nil, zero_mul, zero_add]
    rfl
  | cons a as ih =>
    cases xs with
    | nil => cases h
    | cons x xs =>
      rw [cons_append, cons_append, flatOf, flatOf, ih (by simpa using h),
        prod_append]
      ring

/-! ## One Coordinate Less -/

/-- An extent of one counts as none. -/
theorem prod_set_one (es : List Nat) (k : Nat) : (es.set k 1).prod = (es.eraseIdx k).prod := by
  induction es generalizing k with
  | nil => rfl
  | cons e es ih =>
    cases k with
    | zero => simp
    | succ k => simp [ih]

theorem Inside.insertIdx {k c : Nat} (hk : k < es.length) (h : Inside cs (es.eraseIdx k))
    (hc : c < es.getD k 0) : Inside (cs.insertIdx k c) es := by
  induction k generalizing es cs with
  | zero =>
    cases es with
    | nil => cases hk
    | cons e es => exact Forall₂.cons hc h
  | succ k ih =>
    cases es with
    | nil => cases hk
    | cons e es =>
      rw [eraseIdx_cons_succ] at h
      cases h with
      | cons hx htail =>
        exact Forall₂.cons hx (ih (Nat.lt_of_succ_lt_succ hk) htail hc)

/-- On a coordinate that can only be zero the numbering does not depend. -/
theorem flatOf_insertIdx {k : Nat} (hk : k < es.length) (h : Inside cs (es.eraseIdx k)) :
    flatOf (es.set k 1) (cs.insertIdx k 0) = flatOf (es.eraseIdx k) cs := by
  induction k generalizing es cs with
  | zero =>
    cases es with
    | nil => cases hk
    | cons e es => simp [flatOf]
  | succ k ih =>
    cases es with
    | nil => cases hk
    | cons e es =>
      rw [eraseIdx_cons_succ] at h
      cases h with
      | cons hx htail =>
        rw [insertIdx_succ_cons, set_cons_succ, eraseIdx_cons_succ, flatOf, flatOf,
          ih (Nat.lt_of_succ_lt_succ hk) htail, prod_set_one]

theorem Inside.eraseIdx {k : Nat} (h : Inside cs es) : Inside (cs.eraseIdx k) (es.eraseIdx k) := by
  induction h generalizing k with
  | nil => exact Forall₂.nil
  | cons hx htail ih =>
    cases k with
    | zero => exact htail
    | succ k => exact Forall₂.cons hx (ih (k := k))

/-- On an extent of one the coordinate is zero. -/
theorem Inside.eq_insertIdx {k : Nat} (hk : k < es.length) (h : Inside cs (es.set k 1)) :
    cs = (cs.eraseIdx k).insertIdx k 0 ∧ Inside (cs.eraseIdx k) (es.eraseIdx k) := by
  induction k generalizing es cs with
  | zero =>
    cases es with
    | nil => cases hk
    | cons e es =>
      cases h with
      | cons hx htail =>
        rw [Nat.lt_one_iff.1 hx]
        exact ⟨rfl, htail⟩
  | succ k ih =>
    cases es with
    | nil => cases hk
    | cons e es =>
      cases h with
      | @cons x _ cs _ hx htail =>
        obtain ⟨heq, hin⟩ := ih (Nat.lt_of_succ_lt_succ hk) htail
        constructor
        · rw [eraseIdx_cons_succ, insertIdx_succ_cons, ← heq]
        · exact Forall₂.cons hx hin

theorem prod_eraseIdx (es : List Nat) (k : Nat) :
    (es.eraseIdx k).prod = (es.take k).prod * (es.drop (k + 1)).prod := by
  rw [eraseIdx_eq_take_drop_succ, prod_append]

/-- A coordinate put back among the others: what is before it counts whole rows of it, what is
    after it the place within one. -/
theorem flatOf_insertIdx_split {k c : Nat} (hk : k < es.length) (h : Inside cs (es.eraseIdx k)) :
    flatOf es (cs.insertIdx k c) =
      flatOf (es.eraseIdx k) cs / (es.drop (k + 1)).prod * es.getD k 0 * (es.drop (k + 1)).prod +
        flatOf (es.eraseIdx k) cs % (es.drop (k + 1)).prod + c * (es.drop (k + 1)).prod := by
  induction k generalizing es cs with
  | zero =>
    cases es with
    | nil => cases hk
    | cons e es =>
      have hlt := flatOf_lt h
      rw [insertIdx_zero, flatOf, eraseIdx_cons_zero, drop_succ_cons, drop_zero]
      rw [eraseIdx_cons_zero] at hlt
      rw [Nat.div_eq_of_lt hlt, Nat.mod_eq_of_lt hlt]
      ring
  | succ k ih =>
    cases es with
    | nil => cases hk
    | cons e es =>
      have hk' : k < es.length := Nat.lt_of_succ_lt_succ hk
      rw [eraseIdx_cons_succ] at h ⊢
      cases h with
      | @cons x _ cs _ hx htail =>
        have hpos : 0 < (es.drop (k + 1)).prod := by
          have hlt := flatOf_lt htail
          rw [prod_eraseIdx] at hlt
          exact Nat.pos_of_mul_pos_left (Nat.zero_lt_of_lt hlt)
        have hprod : es.prod = (es.take k).prod * (es.getD k 0 * (es.drop (k + 1)).prod) := by
          rw [← prod_take_mul_prod_drop es k, drop_eq_getElem_cons hk', prod_cons,
            getD_eq_getElem?_getD, getElem?_eq_getElem hk', Option.getD_some]
        have hplace : flatOf (e :: es.eraseIdx k) (x :: cs) =
            flatOf (es.eraseIdx k) cs + x * (es.take k).prod * (es.drop (k + 1)).prod := by
          rw [flatOf, prod_eraseIdx, mul_assoc]
          exact add_comm _ _
        rw [hplace, insertIdx_succ_cons, flatOf, ih hk' htail, drop_succ_cons,
          getD_cons_succ, hprod, Nat.add_mul_mod_self_right, Nat.add_mul_div_right _ _ hpos]
        ring

end Camel.Lib

/-! # Odometers

    The rows of a box are walked with a counter for each axis, the last one fastest, and
    an offset that follows the counters: it grows by the stride of an axis whose counter
    moves and falls by what the axis has gathered when its counter wraps. No row is
    decoded but the first.
-/

namespace Camel.Lib

open List

variable {M : Type} [AddCommGroup M]

/-- The offset of the point with coordinates `cs`. -/
def dot (strides : List M) (cs : List Nat) : M :=
  (List.zipWith (fun s c => c • s) strides cs).sum

@[simp] theorem dot_cons (s : M) (ss : List M) (c : Nat) (cs : List Nat) :
    dot (s :: ss) (c :: cs) = c • s + dot ss cs := by
  simp [dot]

@[simp] theorem dot_nil (cs : List Nat) : dot ([] : List M) cs = 0 := by
  simp [dot]

variable {ss : List M} (as bs : List (Nat × M))

theorem dot_append {cs : List Nat} (h : ss.length = cs.length) (ss' : List M)
    (cs' : List Nat) : dot (ss ++ ss') (cs ++ cs') = dot ss cs + dot ss' cs' := by
  unfold dot
  rw [zipWith_append h, sum_append]

/-- The axes behind a cut see the number, the axes before it the whole boxes of them. -/
theorem coordsOf_append (as bs : List Nat) (i : Nat) :
    coordsOf (as ++ bs) i = coordsOf as (i / bs.prod) ++ coordsOf bs i := by
  induction as with
  | nil => rfl
  | cons a as ih =>
    show i / (as ++ bs).prod % a :: coordsOf (as ++ bs) i = _
    rw [ih, prod_append, mul_comm, ← Nat.div_div_eq_div_mul]
    rfl

/-- The offset of the point with number `i`; an axis is an extent and a stride. -/
def offsetAt (axes : List (Nat × M)) (i : Nat) : M :=
  dot (axes.map (·.2)) (coordsOf (axes.map (·.1)) i)

theorem offsetAt_append (i : Nat) :
    offsetAt (as ++ bs) i = offsetAt as (i / (bs.map (·.1)).prod) + offsetAt bs i := by
  unfold offsetAt
  rw [map_append, map_append, coordsOf_append, dot_append]
  simp

theorem offsetAt_cons (a : Nat × M) (bs : List (Nat × M)) (i : Nat) :
    offsetAt (a :: bs) i = (i / (bs.map (·.1)).prod % a.1) • a.2 + offsetAt bs i :=
  dot_cons ..

@[simp] theorem offsetAt_nil (i : Nat) : offsetAt ([] : List (Nat × M)) i = 0 := rfl

/-- An axis of extent one moves no offset. -/
theorem offsetAt_unit (s : M) (i : Nat) :
    offsetAt (as ++ (1, s) :: bs) i = offsetAt (as ++ bs) i := by
  rw [offsetAt_append, offsetAt_append, offsetAt_cons]
  simp [Nat.mod_one]

/-- Two axes are one where the outer stride spans the inner axis. -/
theorem offsetAt_merge (e e' : Nat) (s : M) (i : Nat) :
    offsetAt (as ++ (e, e' • s) :: (e', s) :: bs) i = offsetAt (as ++ (e * e', s) :: bs) i := by
  rw [offsetAt_append, offsetAt_append, offsetAt_cons, offsetAt_cons, offsetAt_cons]
  simp only [map_cons, prod_cons]
  generalize (bs.map (·.1)).prod = r
  have hsplit : i / r % (e * e') = i / r % e' + e' * (i / r / e' % e) := by
    rw [mul_comm, Nat.mod_mul]
  have houter : i / (e' * r) = i / r / e' := by
    rw [mul_comm, Nat.div_div_eq_div_mul]
  rw [hsplit, houter, mul_assoc]
  module

/-! ## The First Row -/

/-- The counters of row `row`, and what is left of the number. -/
def decode : List Nat → Nat → List Nat × Nat
  | [], row => ([], row)
  | e :: es, row =>
    let rest := decode es row
    (rest.2 % e :: rest.1, rest.2 / e)

theorem decode_eq (es : List Nat) (row : Nat) : decode es row = (coordsOf es row, row / es.prod) := by
  induction es with
  | nil => simp [decode, coordsOf]
  | cons e es ih =>
    rw [decode, ih, coordsOf, prod_cons, Nat.div_div_eq_div_mul, mul_comm e]

/-! ## The Next Row -/

/-- The counters and the offset of a walk. -/
structure Position (M : Type) where
  index : List Nat
  offset : M

/-- One step of the counters, the last axis first; whether every axis has wrapped. -/
def advance : List Nat → List M → Position M → Position M × Bool
  | e :: es, s :: ss, ⟨i :: is, offset⟩ =>
    let (rest, carry) := advance es ss ⟨is, offset⟩
    if carry then
      if i + 1 < e then (⟨(i + 1) :: rest.index, rest.offset + s⟩, false)
      else (⟨0 :: rest.index, rest.offset + s - (i + 1) • s⟩, true)
    else (⟨i :: rest.index, rest.offset⟩, false)
  | _, _, p => (⟨[], p.offset⟩, true)

/-- The last row of a box is followed by the first of the next. -/
theorem succ_div_mod {a b : Nat} (hb : 0 < b) :
    ((a + 1) % b = 0 → (a + 1) / b = a / b + 1) ∧
      ((a + 1) % b ≠ 0 → (a + 1) / b = a / b ∧ (a + 1) % b = a % b + 1) := by
  have hlt := Nat.mod_lt a hb
  have hsplit := Nat.div_add_mod a b
  constructor
  · intro h
    rw [Nat.succ_div_of_mod_eq_zero h]
  · intro h
    have hdiv := Nat.succ_div_of_mod_ne_zero h
    have hnext := Nat.div_add_mod (a + 1) b
    rw [hdiv] at hnext
    exact ⟨hdiv, by omega⟩

/-- A step leads to the counters and the offset of the next row. -/
theorem advance_spec {es : List Nat} (hlen : ss.length = es.length)
    (hpos : ∀ e ∈ es, 0 < e) (row : Nat) (base : M) :
    advance es ss ⟨coordsOf es row, base + dot ss (coordsOf es row)⟩ =
      (⟨coordsOf es (row + 1), base + dot ss (coordsOf es (row + 1))⟩,
        decide ((row + 1) % es.prod = 0)) := by
  induction es generalizing ss base with
  | nil =>
    cases ss with
    | nil => simp [advance, coordsOf, Nat.mod_one]
    | cons s ss => cases hlen
  | cons e es ih =>
    cases ss with
    | nil => cases hlen
    | cons s ss =>
      have he : 0 < e := hpos e mem_cons_self
      have hes : ∀ x ∈ es, 0 < x := fun x hx => hpos x (.tail _ hx)
      have hprod : 0 < es.prod := prod_pos hes
      have hlen' : ss.length = es.length := by simpa using hlen
      have hstep := ih hlen' hes (base + (row / es.prod % e) • s)
      have hoffset : base + dot (s :: ss) (coordsOf (e :: es) row) =
          base + (row / es.prod % e) • s + dot ss (coordsOf es row) := by
        rw [coordsOf, dot_cons, add_assoc]
      have hhead : ∀ r, coordsOf (e :: es) r = r / es.prod % e :: coordsOf es r := fun _ => rfl
      rw [hoffset, hhead, hhead, advance, hstep, prod_cons, dot_cons]
      generalize hx : row / es.prod = x
      have hwrap := Nat.mod_mul (x := row + 1) (a := es.prod) (b := e)
      rw [mul_comm es.prod e] at hwrap
      by_cases hcarry : (row + 1) % es.prod = 0
      · -- the axes behind have wrapped, and this one moves
        have hnext : (row + 1) / es.prod = x + 1 := by
          rw [(succ_div_mod hprod).1 hcarry, hx]
        rw [hcarry, hnext] at hwrap
        simp only [hcarry, decide_true, if_true, hnext]
        by_cases hlast : (x + 1) % e = 0
        · have hi : x % e + 1 = e := by
            have := Nat.mod_lt x he
            have hdiv := (succ_div_mod he).1 hlast
            have h1 := Nat.div_add_mod (x + 1) e
            have h2 := Nat.div_add_mod x e
            rw [hlast, hdiv, mul_add] at h1
            omega
          have hend : (row + 1) % (e * es.prod) = 0 := by
            rw [hwrap, hlast, Nat.mul_zero]
          rw [if_neg (by omega), hlast, hend]
          simp only [decide_true, zero_smul, zero_add, Prod.mk.injEq, Position.mk.injEq, true_and,
            and_true]
          module
        · have hi := ((succ_div_mod he).2 hlast).2
          have hmore : ¬ (row + 1) % (e * es.prod) = 0 := by
            rw [hwrap]
            have : 0 < es.prod * ((x + 1) % e) :=
              mul_pos hprod (pos_of_ne_zero hlast)
            omega
          have hlt := Nat.mod_lt (x + 1) he
          rw [if_pos (by omega), hi]
          simp only [hmore, decide_false, Prod.mk.injEq, Position.mk.injEq, true_and, and_true]
          module
      · -- an axis behind has moved, and this one stays
        have hnext : (row + 1) / es.prod = x := by
          rw [((succ_div_mod hprod).2 hcarry).1, hx]
        have hmore : ¬ (row + 1) % (e * es.prod) = 0 := by
          rw [hwrap]
          omega
        simp only [hcarry, decide_false, hnext, hmore, Prod.mk.injEq, Position.mk.injEq,
          true_and, and_true, Bool.false_eq_true, if_false]
        abel

/-! ## The Walk -/

/-- The offsets of `count` rows from a position on. -/
def walkRows (es : List Nat) (ss : List M) : Nat → Position M → List M
  | 0, _ => []
  | count + 1, p => p.offset :: walkRows es ss count (advance es ss p).1

/-- The offsets of a walk are those of its rows. -/
theorem walkRows_spec {es : List Nat} (hlen : ss.length = es.length)
    (hpos : ∀ e ∈ es, 0 < e) (count row : Nat) :
    walkRows es ss count ⟨coordsOf es row, dot ss (coordsOf es row)⟩ =
      (List.range' row count).map fun r => dot ss (coordsOf es r) := by
  induction count generalizing row with
  | zero => rfl
  | succ count ih =>
    have hstep := advance_spec hlen hpos row 0
    simp only [zero_add] at hstep
    rw [walkRows, hstep, ih (row + 1)]
    rfl

end Camel.Lib
