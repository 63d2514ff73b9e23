import Camel.Collection.Read

/-! # Two collections walked together

    The walks over two leaves and over two cursors are one algorithm on two
    ascending sequences.  Each walk over sequences computes the operation on the
    finite maps, and the walk with cursors computes the walk over the entries
    the cursors have left. -/

set_option linter.unusedSectionVars false

namespace Camel.Collection

open SortedEntries List

variable {K V : Type} [LinearOrder K] [Inhabited V]
variable {s : Shape} {ty : CollectionType}

/-! ## Two ascending sequences -/

variable {h : Heap K V} (a b : List (K × V))

theorem mem_mergeWalk {e : K × V} (h : e ∈ mergeWalk a b) :
    e ∈ a ∨ e ∈ b := by
  induction a, b using mergeWalk.induct with
  | case1 b => exact .inr (by simpa [mergeWalk] using h)
  | case2 a hne => exact .inl (by cases a <;> simpa [mergeWalk] using h)
  | case3 x a y b hlt ih =>
    rw [mergeWalk, if_pos hlt] at h
    rcases mem_cons.mp h with rfl | h
    · simp
    · rcases ih h with h | h <;> simp [h]
  | case4 x a y b hlt hgt ih =>
    rw [mergeWalk, if_neg hlt, if_pos hgt] at h
    rcases mem_cons.mp h with rfl | h
    · simp
    · rcases ih h with h | h
      · exact .inl h
      · simp [h]
  | case5 x a y b hlt hgt ih =>
    rw [mergeWalk, if_neg hlt, if_neg hgt] at h
    rcases mem_cons.mp h with rfl | h
    · simp
    · rcases ih h with h | h <;> simp [h]

/-- The walk of `merge` is sorted and binds what the union binds. -/
theorem mergeWalk_spec (ha : Sorted a) (hb : Sorted b) :
    Sorted (mergeWalk a b) ∧ ∀ k, find k (mergeWalk a b) = (find k b).or (find k a) := by
  induction a, b using mergeWalk.induct with
  | case1 b => simpa [mergeWalk] using hb
  | case2 a hne => cases a <;> simpa [mergeWalk] using ha
  | case3 x a y b hlt ih =>
    have hxy : x.1 < y.1 := compareKeys_neg.1 hlt
    obtain ⟨hxa, hsa⟩ := sorted_cons.1 ha
    have hxb : Above (y :: b) x.1 := hb.above hxy
    obtain ⟨hs, hf⟩ := ih hsa hb
    rw [mergeWalk, if_pos hlt]
    refine ⟨sorted_cons.2 ⟨?_, hs⟩, ?_⟩
    · intro e he
      rcases mem_mergeWalk _ _ he with he | he
      · exact hxa e he
      · exact hxb e he
    · intro k
      rw [find_cons, hf, find_cons k x a]
      split
      · next hk => rw [find_above (hk ▸ hxb)]; rfl
      · rfl
  | case4 x a y b hlt hgt ih =>
    have hyx : y.1 < x.1 := compareKeys_pos.1 hgt
    obtain ⟨hyb, hsb⟩ := sorted_cons.1 hb
    obtain ⟨hs, hf⟩ := ih ha hsb
    rw [mergeWalk, if_neg hlt, if_pos hgt]
    refine ⟨sorted_cons.2 ⟨?_, hs⟩, ?_⟩
    · intro e he
      rcases mem_mergeWalk _ _ he with he | he
      · exact ha.above hyx e he
      · exact hyb e he
    · intro k
      rw [find_cons, hf, find_cons k y b]
      split <;> rfl
  | case5 x a y b hlt hgt ih =>
    have hxy : x.1 = y.1 := compareKeys_eq_zero.1 (by omega)
    obtain ⟨hxa, hsa⟩ := sorted_cons.1 ha
    obtain ⟨hyb, hsb⟩ := sorted_cons.1 hb
    obtain ⟨hs, hf⟩ := ih hsa hsb
    rw [mergeWalk, if_neg hlt, if_neg hgt]
    refine ⟨sorted_cons.2 ⟨?_, hs⟩, ?_⟩
    · intro e he
      rcases mem_mergeWalk _ _ he with he | he
      · exact hxy ▸ hxa e he
      · exact hyb e he
    · intro k
      rw [find_cons, hf, find_cons k y b, find_cons k x a, hxy]
      split <;> rfl

theorem mergeWalk_eq {a b : List (K × V)} (ha : Sorted a) (hb : Sorted b) :
    mergeWalk a b = unionEntries a b := by
  obtain ⟨hs, hf⟩ := mergeWalk_spec a b ha hb
  refine ext_find hs (sorted_unionEntries b ha) ?_
  intro k
  rw [hf, find_unionEntries hb]

/-- Keys after the head of a list are told apart by its tail. -/
theorem filter_above {p : Option V → Bool} {y : K × V} {a b : List (K × V)} (h : Above a y.1) :
    a.filter (fun e => p (find e.1 b)) = a.filter fun e => p (find e.1 (y :: b)) :=
  filter_congr fun e he => by rw [find_cons_above h e he]

theorem intersectWalk_eq (ha : Sorted a) (hb : Sorted b) :
    intersectWalk a b = interEntries a b := by
  induction a, b using intersectWalk.induct with
  | case1 b => simp [intersectWalk, interEntries]
  | case2 a hne => cases a <;> simp [intersectWalk, interEntries]
  | case3 x a y b hlt ih =>
    have hxy : x.1 < y.1 := compareKeys_neg.1 hlt
    have hnone : find x.1 (y :: b) = none :=
      find_above (hb.above hxy)
    rw [intersectWalk, if_pos hlt, ih (sorted_cons.1 ha).2 hb]
    simp [interEntries, hnone]
  | case4 x a y b hlt hgt ih =>
    have hyx : y.1 < x.1 := compareKeys_pos.1 hgt
    rw [intersectWalk, if_neg hlt, if_pos hgt, ih ha (sorted_cons.1 hb).2]
    exact filter_above (p := Option.isSome) (ha.above hyx)
  | case5 x a y b hlt hgt ih =>
    have hxy : x.1 = y.1 := compareKeys_eq_zero.1 (by omega)
    obtain ⟨hxa, hsa⟩ := sorted_cons.1 ha
    have hsome : find x.1 (y :: b) = some y.2 := by rw [find_cons, if_pos hxy.symm]
    have htail : interEntries a b = interEntries a (y :: b) := filter_above (p := Option.isSome) (hxy ▸ hxa)
    rw [intersectWalk, if_neg hlt, if_neg hgt, ih hsa (sorted_cons.1 hb).2, htail]
    simp [interEntries, hsome]

theorem differenceWalk_eq (ha : Sorted a) (hb : Sorted b) :
    differenceWalk a b = diffEntries a b := by
  induction a, b using differenceWalk.induct with
  | case1 b => simp [differenceWalk, diffEntries]
  | case2 x a ih =>
    rw [differenceWalk, ih (sorted_cons.1 ha).2 hb]
    simp [diffEntries]
  | case3 x a y b hlt ih =>
    have hxy : x.1 < y.1 := compareKeys_neg.1 hlt
    have hnone : find x.1 (y :: b) = none :=
      find_above (hb.above hxy)
    rw [differenceWalk, if_pos hlt, ih (sorted_cons.1 ha).2 hb]
    simp [diffEntries, hnone]
  | case4 x a y b hlt hgt ih =>
    have hyx : y.1 < x.1 := compareKeys_pos.1 hgt
    rw [differenceWalk, if_neg hlt, if_pos hgt, ih ha (sorted_cons.1 hb).2]
    exact filter_above (p := Option.isNone) (ha.above hyx)
  | case5 x a y b hlt hgt ih =>
    have hxy : x.1 = y.1 := compareKeys_eq_zero.1 (by omega)
    obtain ⟨hxa, hsa⟩ := sorted_cons.1 ha
    have hsome : find x.1 (y :: b) = some y.2 := by rw [find_cons, if_pos hxy.symm]
    have htail : diffEntries a b = diffEntries a (y :: b) := filter_above (p := Option.isNone) (hxy ▸ hxa)
    rw [differenceWalk, if_neg hlt, if_neg hgt, ih hsa (sorted_cons.1 hb).2, htail]
    simp [diffEntries, hsome]

theorem subsetWalk_eq (ha : Sorted a) (hb : Sorted b) :
    subsetWalk a b = subsetEntries a b := by
  induction a, b using subsetWalk.induct with
  | case1 b => simp [subsetWalk, subsetEntries]
  | case2 x a => simp [subsetWalk, subsetEntries]
  | case3 x a y b hlt ih =>
    have hyx : y.1 < x.1 := compareKeys_neg.1 hlt
    rw [subsetWalk, if_pos hlt, ih ha (sorted_cons.1 hb).2]
    exact (subsetEntries_congr (find_cons_above (ha.above hyx))).symm
  | case4 x a y b hlt hne =>
    have hxy : x.1 < y.1 := lt_of_le_of_ne (not_lt.mp (fun h => hlt (compareKeys_neg.2 h)))
      (fun h => hne (compareKeys_eq_zero.2 h.symm))
    have hnone : find x.1 (y :: b) = none :=
      find_above (hb.above hxy)
    rw [subsetWalk, if_neg hlt, if_pos hne]
    simp [subsetEntries, hnone]
  | case5 x a y b hlt hne ih =>
    have hyx : y.1 = x.1 := by simpa [compareKeys_eq_zero] using hne
    obtain ⟨hxa, hsa⟩ := sorted_cons.1 ha
    have hsome : find x.1 (y :: b) = some y.2 := by rw [find_cons, if_pos hyx]
    rw [subsetWalk, if_neg hlt, if_neg hne, ih hsa (sorted_cons.1 hb).2]
    have htail : subsetEntries a b = subsetEntries a (y :: b) :=
      (subsetEntries_congr (find_cons_above (hyx ▸ hxa))).symm
    rw [htail]
    simp [subsetEntries, hsome]

/-! ## Two cursors -/

theorem mergeCursors_eq (hs : s.Ok) :
    ∀ (fuel : Nat) (a b : List (K × V)) (x y : Cursor K V) (out : List (K × V)),
      x.At s ty h a → y.At s ty h b → a.length + b.length ≤ fuel →
      mergeCursors ty h fuel x y out = .ok (out ++ mergeWalk a b) := by
  intro fuel
  induction fuel with
  | zero =>
    intro a b x y out hx hy hfuel
    obtain rfl : a = [] := length_eq_zero_iff.mp (by omega)
    obtain rfl : b = [] := length_eq_zero_iff.mp (by omega)
    unfold mergeCursors
    simp [hx.entry, hy.entry, mergeWalk]
  | succ fuel ih =>
    intro a b x y out hx hy hfuel
    unfold mergeCursors
    cases a with
    | nil =>
      cases b with
      | nil => simp [hx.entry, hy.entry, mergeWalk]
      | cons f b =>
        obtain ⟨y', hnext, hy'⟩ := Cursor.next_spec hs hy
        simp only [hx.entry, hy.entry, head?_cons, head?_nil, hnext, bind, Except.bind]
        rw [ih [] b x y' _ hx hy' (by simp only [length_cons] at hfuel; omega)]
        simp [mergeWalk]
    | cons e a =>
      cases b with
      | nil =>
        obtain ⟨x', hnext, hx'⟩ := Cursor.next_spec hs hx
        simp only [hx.entry, hy.entry, head?_cons, head?_nil, hnext, bind, Except.bind]
        rw [ih a [] x' y _ hx' hy (by simp only [length_cons] at hfuel; omega)]
        cases a <;> simp [mergeWalk]
      | cons f b =>
        obtain ⟨x', hnextx, hx'⟩ := Cursor.next_spec hs hx
        obtain ⟨y', hnexty, hy'⟩ := Cursor.next_spec hs hy
        simp only [length_cons] at hfuel
        simp only [hx.entry, hy.entry, head?_cons]
        by_cases hlt : compareKeys e.1 f.1 < 0
        · rw [mergeWalk, if_pos hlt, if_pos hlt]
          simp only [hnextx, bind, Except.bind]
          rw [ih a (f :: b) x' y _ hx' hy (by simp only [length_cons]; omega)]
          simp
        · rw [mergeWalk, if_neg hlt, if_neg hlt]
          by_cases hgt : compareKeys e.1 f.1 > 0
          · have hne : ¬ compareKeys e.1 f.1 = 0 := by omega
            simp only [if_pos hgt, hnexty, if_neg hne, bind, Except.bind]
            rw [ih (e :: a) b x y' _ hx hy' (by simp only [length_cons]; omega)]
            simp
          · have hzero : compareKeys e.1 f.1 = 0 := by omega
            simp only [if_neg hgt, hnexty, hnextx, if_pos hzero, bind, Except.bind]
            rw [ih a b x' y' _ hx' hy' (by omega)]
            simp

/-- An entry as a set keeps it. -/
def bare (e : K × V) : K × V := (e.1, default)

theorem map_bare {es : List (K × V)} (h : Plain ⟨false⟩ es) : es.map bare = es := by
  refine (map_congr_left ?_).trans (map_id es)
  intro e he
  exact Prod.ext rfl (h rfl e he).symm

theorem intersectCursors_eq (hs : s.Ok) :
    ∀ (fuel : Nat) (a b : List (K × V)) (x y : Cursor K V) (out : List (K × V)),
      x.At s ty h a → y.At s ty h b → a.length + b.length ≤ fuel →
      intersectCursors ty h fuel x y out = .ok (out ++ (intersectWalk a b).map bare) := by
  intro fuel
  induction fuel with
  | zero =>
    intro a b x y out hx hy hfuel
    obtain rfl : a = [] := length_eq_zero_iff.mp (by omega)
    unfold intersectCursors
    simp [hx.entry, intersectWalk]
  | succ fuel ih =>
    intro a b x y out hx hy hfuel
    unfold intersectCursors
    cases a with
    | nil => simp [hx.entry, intersectWalk]
    | cons e a =>
      cases b with
      | nil => simp [hx.entry, hy.entry, intersectWalk]
      | cons f b =>
        obtain ⟨x', hnextx, hx'⟩ := Cursor.next_spec hs hx
        obtain ⟨y', hnexty, hy'⟩ := Cursor.next_spec hs hy
        simp only [length_cons] at hfuel
        simp only [hx.entry, hy.entry, head?_cons]
        rw [intersectWalk]
        split
        · simp only [hnextx, bind, Except.bind]
          exact ih a (f :: b) x' y _ hx' hy (by simp only [length_cons]; omega)
        · split
          · simp only [hnexty, bind, Except.bind]
            exact ih (e :: a) b x y' _ hx hy' (by simp only [length_cons]; omega)
          · simp only [hnextx, hnexty, bind, Except.bind]
            rw [ih a b x' y' _ hx' hy' (by omega)]
            simp [bare]

theorem differenceCursors_eq (hs : s.Ok) :
    ∀ (fuel : Nat) (a b : List (K × V)) (x y : Cursor K V) (out : List (K × V)),
      x.At s ty h a → y.At s ty h b → a.length + b.length ≤ fuel →
      differenceCursors ty h fuel x y out = .ok (out ++ (differenceWalk a b).map bare) := by
  intro fuel
  induction fuel with
  | zero =>
    intro a b x y out hx hy hfuel
    obtain rfl : a = [] := length_eq_zero_iff.mp (by omega)
    unfold differenceCursors
    simp [hx.entry, differenceWalk]
  | succ fuel ih =>
    intro a b x y out hx hy hfuel
    unfold differenceCursors
    cases a with
    | nil => simp [hx.entry, differenceWalk]
    | cons e a =>
      cases b with
      | nil =>
        obtain ⟨x', hnextx, hx'⟩ := Cursor.next_spec hs hx
        simp only [length_cons] at hfuel
        have hneg : (-1 : Int) < 0 := by decide
        simp only [hx.entry, hy.entry, head?_cons, head?_nil, if_pos hneg, hnextx, bind,
          Except.bind]
        rw [ih a [] x' y _ hx' hy (by simpa using hfuel), differenceWalk]
        simp [bare]
      | cons f b =>
        obtain ⟨x', hnextx, hx'⟩ := Cursor.next_spec hs hx
        obtain ⟨y', hnexty, hy'⟩ := Cursor.next_spec hs hy
        simp only [length_cons] at hfuel
        simp only [hx.entry, hy.entry, head?_cons]
        rw [differenceWalk]
        split
        · simp only [hnextx, bind, Except.bind]
          rw [ih a (f :: b) x' y _ hx' hy (by simp only [length_cons]; omega)]
          simp [bare]
        · split
          · simp only [hnexty, bind, Except.bind]
            exact ih (e :: a) b x y' _ hx hy' (by simp only [length_cons]; omega)
          · simp only [hnextx, hnexty, bind, Except.bind]
            exact ih a b x' y' _ hx' hy' (by omega)

theorem subsetCursors_eq (hs : s.Ok) :
    ∀ (fuel : Nat) (a b : List (K × V)) (x y : Cursor K V),
      x.At s ty h a → y.At s ty h b → a.length + b.length ≤ fuel →
      subsetCursors ty h fuel x y = .ok (subsetWalk a b) := by
  intro fuel
  induction fuel with
  | zero =>
    intro a b x y hx hy hfuel
    obtain rfl : a = [] := length_eq_zero_iff.mp (by omega)
    unfold subsetCursors
    simp [hx.entry, subsetWalk]
  | succ fuel ih =>
    intro a b x y hx hy hfuel
    unfold subsetCursors
    cases a with
    | nil => simp [hx.entry, subsetWalk]
    | cons e a =>
      cases b with
      | nil => simp [hx.entry, hy.entry, subsetWalk]
      | cons f b =>
        obtain ⟨x', hnextx, hx'⟩ := Cursor.next_spec hs hx
        obtain ⟨y', hnexty, hy'⟩ := Cursor.next_spec hs hy
        simp only [length_cons] at hfuel
        simp only [hx.entry, hy.entry, head?_cons]
        rw [subsetWalk]
        split
        · simp only [hnexty, bind, Except.bind]
          exact ih (e :: a) b x y' hx hy' (by simp only [length_cons]; omega)
        · split
          · rfl
          · simp only [hnextx, hnexty, bind, Except.bind]
            exact ih a b x' y' hx' hy' (by omega)

/-- What `equals` asks of two entries. -/
def Same (equal : V → V → Bool) (ty : CollectionType) (e f : K × V) : Prop :=
  e.1 = f.1 ∧ (ty.isMap = true → equal e.2 f.2 = true)

theorem equalsCursors_spec (hs : s.Ok) (equal : V → V → Bool) :
    ∀ (fuel : Nat) (a b : List (K × V)) (x y : Cursor K V), x.At s ty h a → y.At s ty h b →
      a.length = b.length → a.length ≤ fuel →
      ∃ r, equalsCursors equal ty h fuel x y = .ok r ∧
        (r = true ↔ Forall₂ (Same equal ty) a b) := by
  intro fuel a
  induction a generalizing fuel with
  | nil =>
    intro b x y hx _ hlen _
    obtain rfl : b = [] := length_eq_zero_iff.mp hlen.symm
    unfold equalsCursors
    simp [hx.entry]
  | cons e a ih =>
    intro b x y hx hy hlen hfuel
    cases b with
    | nil => simp at hlen
    | cons f b =>
      simp only [length_cons] at hlen hfuel
      obtain ⟨fuel, rfl⟩ : ∃ n, fuel = n + 1 := ⟨fuel - 1, by omega⟩
      obtain ⟨x', hnextx, hx'⟩ := Cursor.next_spec hs hx
      obtain ⟨y', hnexty, hy'⟩ := Cursor.next_spec hs hy
      unfold equalsCursors
      simp only [hx.entry, hy.entry, head?_cons, forall₂_cons, Same, compareKeys_eq_zero, ne_eq]
      split
      · next hkey => exact ⟨false, rfl, by simp [hkey]⟩
      · split
        · next hkey hval => exact ⟨false, rfl, by simp_all⟩
        · next hkey hval =>
          simp only [hnextx, hnexty, bind, Except.bind]
          obtain ⟨r, heq, hr⟩ := ih fuel b x' y' hx' hy' (by omega) (by omega)
          refine ⟨r, heq, hr.trans ⟨fun hall => ⟨⟨not_not.mp hkey, fun hm => ?_⟩, hall⟩, And.right⟩⟩
          simpa [hm] using hval

end Camel.Collection
