import Camel.Array.Storage

/-! # No write is seen through another name

    The contract of `writableInPlace`: when it answers true, no other name sees
    a write.  `Inv` says what it rests on: a block's count is the number of the
    arrays that hold it, and an array whose storage may be written has at most
    one name.  Every operation keeps it, except two: a second name for an array
    without an element type, and the death that leaves a block to an array with
    two names.  The second happens because `shareForSecondName` hands out an
    array itself while its block has another holder. -/

set_option linter.unusedSectionVars false

namespace Camel.ArrayStore

open List Option

variable {α : Type} [Inhabited α]

/-! ## The invariant -/

/-- The arrays that hold block `b`. -/
def State.holders (st : State α) (b : Nat) : Nat :=
  st.arrays.countP fun o => decide (o.bind Array.block = some b)

/-- The names that hold array `x`. -/
def State.nameCount (st : State α) (x : Nat) : Nat := st.names.count (some x)

structure Inv (st : State α) : Prop where
  plain : ∀ x a, st.array? x = some a →
    (a.block = none → a.view = false ∧ a.offset = 0) ∧ (a.storage = .slots → a.block = none)
  valid : ∀ x a b, st.array? x = some a → a.block = some b → b < st.blocks.length
  counted : ∀ b blk, st.blocks[b]? = some blk → blk.refCount = st.holders b
  named : ∀ x, some x ∈ st.names → ∃ a, st.array? x = some a
  alone : ∀ x a, st.array? x = some a → st.writableInPlace a = true → st.nameCount x ≤ 1

theorem inv_init : Inv (State.init : State α) where
  plain := by simp [State.init, State.array?]
  valid := by simp [State.init, State.array?]
  counted := by simp [State.init]
  named := by simp [State.init]
  alone := by simp [State.init, State.array?]

variable {st : State α} {x : Nat} {a : Array α}

theorem array?_eq :
    st.array? x = some a ↔ st.arrays[x]? = some (some a) := by
  unfold State.array?
  cases st.arrays[x]? <;> simp

variable {n : Nat}

theorem held_eq (h : st.held n = some (x, a)) :
    st.names[n]? = some (some x) ∧ st.array? x = some a := by
  unfold State.held at h
  cases hn : (st.names[n]?).join with
  | none => simp [hn] at h
  | some y =>
    cases ha : st.array? y with
    | none => simp [hn, ha] at h
    | some a' =>
      simp only [hn, ha, bind_eq_bind, bind_some, some.injEq,
        Prod.mk.injEq] at h
      obtain ⟨rfl, rfl⟩ := h
      refine ⟨?_, ha⟩
      cases hg : st.names[n]? with
      | none => simp [hg] at hn
      | some o => simp [hg] at hn; rw [hn]

theorem writable_iff : st.writableInPlace a = true ↔
    a.view = false ∧ a.offset = 0 ∧ (a.storage = .slots ∨ a.block = none ∨
      ∃ b blk, a.block = some b ∧ st.blocks[b]? = some blk ∧ blk.unique = true ∧
        blk.camelOwned = true) := by
  unfold State.writableInPlace
  by_cases hv : (a.view || a.offset != 0) = true
  · rw [if_pos hv]
    simp only [Bool.false_eq_true, false_iff]
    rintro ⟨h1, h2, -⟩
    simp [h1, h2] at hv
  · rw [if_neg hv]
    obtain ⟨h1, h2⟩ : a.view = false ∧ a.offset = 0 := by simpa using hv
    cases hs : a.storage with
    | slots => simp [h1, h2]
    | compact =>
      cases hb : a.block with
      | none => simp [h1, h2]
      | some b => cases hblk : st.blocks[b]? <;> simp [h1, h2, hblk]

variable {st' : State α}

/-- Whether an array may be written is a matter of its own fields and of its
    block's count. -/
theorem writable_of
    (hblk : ∀ b blk', a.block = some b → st'.blocks[b]? = some blk' → blk'.unique = true →
      blk'.camelOwned = true →
      ∃ blk, st.blocks[b]? = some blk ∧ blk.unique = true ∧ blk.camelOwned = true)
    (hw : st'.writableInPlace a = true) : st.writableInPlace a = true := by
  obtain ⟨h1, h2, h3⟩ := writable_iff.1 hw
  refine writable_iff.2 ⟨h1, h2, ?_⟩
  rcases h3 with h3 | h3 | ⟨b, blk', hb, hget, hu, ho⟩
  · exact .inl h3
  · exact .inr (.inl h3)
  · obtain ⟨blk, hg, hu', ho'⟩ := hblk b blk' hb hget hu ho
    exact .inr (.inr ⟨b, blk, hb, hg, hu', ho'⟩)

variable {y b : Nat} {c : Array α}

/-- An array that holds a counted block alone: no other array reads it. -/
theorem Inv.no_other (hinv : Inv st) {blk : Block α}
    (hx : st.array? x = some a) (hy : st.array? y = some c) (hxy : x ≠ y)
    (hb : a.block = some b) (hblk : st.blocks[b]? = some blk) (hone : blk.unique = true) :
    c.block ≠ some b := by
  intro hc
  have hcount : st.holders b = 1 := by
    rw [← hinv.counted b blk hblk]
    simpa [Block.unique] using hone
  have hxl : x < st.arrays.length := (List.getElem?_eq_some_iff.mp (array?_eq.mp hx)).1
  have hgx : st.arrays[x] = some a := (List.getElem?_eq_some_iff.mp (array?_eq.mp hx)).2
  have hyl : y < st.arrays.length := (List.getElem?_eq_some_iff.mp (array?_eq.mp hy)).1
  have hgy : st.arrays[y] = some c := (List.getElem?_eq_some_iff.mp (array?_eq.mp hy)).2
  -- taking `x` out of the count leaves `y`
  have hset := countP_set (p := fun o : Option (Array α) => decide (o.bind Array.block = some b))
    (a := none) hxl
  have hpx : decide ((st.arrays[x]).bind Array.block = some b) = true := by simp [hgx, hb]
  simp only [hpx, if_true, bind_none, reduceCtorEq, decide_false, Bool.false_eq_true,
    if_false, add_zero] at hset
  have hzero : (st.arrays.set x none).countP
      (fun o : Option (Array α) => decide (o.bind Array.block = some b)) = 0 := by
    rw [hset]
    unfold State.holders at hcount
    omega
  have hmem : some c ∈ st.arrays.set x none := by
    refine mem_iff_getElem?.mpr ⟨y, ?_⟩
    rw [getElem?_set_ne hxy, getElem?_eq_getElem hyl, hgy]
  have hno := List.countP_eq_zero.mp hzero (some c) hmem
  simp [hc] at hno

theorem nameCount_append (st : State α) (r : State α) (hr : r.names = st.names) (x y : Nat) :
    (State.addName (r, y)).nameCount x = st.nameCount x + if x = y then 1 else 0 := by
  simp only [State.nameCount, State.addName, hr, count_append, count_singleton]
  by_cases h : x = y
  · simp [h]
  · simp [h, Ne.symm h]

/-! ## A new array -/

/-- The state with a new array, and with the block it was given. -/
def State.fresh (st : State α) (nb : Option (Block α)) (a : Array α) : State α × Nat :=
  ({ st with blocks := st.blocks ++ nb.toList, arrays := st.arrays ++ [some a] },
    st.arrays.length)

/-- The array has storage of its own: none but inline data or slots, or a block
    whose one reference is its. -/
structure Owned (st : State α) (nb : Option (Block α)) (a : Array α) : Prop where
  start : a.view = false ∧ a.offset = 0
  slots : a.storage = .slots → nb = none
  block : a.block = nb.map fun _ => st.blocks.length
  count : ∀ blk, nb = some blk → blk.refCount = 1

theorem fresh_array? (st : State α) (nb : Option (Block α)) (a : Array α) (x : Nat) :
    (st.fresh nb a).1.array? x = if x = st.arrays.length then some a else st.array? x := by
  unfold State.array? State.fresh
  simp only
  by_cases hx : x = st.arrays.length
  · simp [hx]
  · rcases Nat.lt_or_gt_of_ne hx with hlt | hgt
    · rw [getElem?_append_left hlt, if_neg hx]
    · rw [getElem?_eq_none (by simp; omega), getElem?_eq_none (by omega), if_neg hx]

theorem fresh_block (nb : Option (Block α)) (a : Array α)
    (hb : b < st.blocks.length) : (st.fresh nb a).1.blocks[b]? = st.blocks[b]? := by
  simp only [State.fresh]
  rw [getElem?_append_left hb]

theorem fresh_holders (st : State α) (nb : Option (Block α)) (a : Array α) (b : Nat) :
    (st.fresh nb a).1.holders b = st.holders b + if a.block = some b then 1 else 0 := by
  simp only [State.holders, State.fresh, countP_append, countP_singleton,
    bind_some, decide_eq_true_eq]

/-- No array holds a block that does not exist. -/
theorem Inv.holders_fresh (hinv : Inv st) : st.holders st.blocks.length = 0 := by
  refine countP_eq_zero.mpr ?_
  intro o ho
  cases o with
  | none => simp
  | some a =>
    obtain ⟨x, hx⟩ := mem_iff_getElem?.mp ho
    simp only [bind_some, decide_eq_true_eq]
    intro hb
    exact absurd (hinv.valid x a _ (array?_eq.mpr hx) hb) (lt_irrefl _)

/-- An array that was there shows what it showed. -/
theorem fresh_elements (hinv : Inv st) (nb : Option (Block α)) (a : Array α)
    (hx : st.array? x = some c) :
    (st.fresh nb a).1.elements c = st.elements c := by
  unfold State.elements
  cases hb : c.block with
  | none => rfl
  | some b => simp only [fresh_block nb a (hinv.valid x c b hx hb)]

theorem fresh_writable (hinv : Inv st) (nb : Option (Block α)) (a : Array α)
    (hx : st.array? x = some c)
    (hw : (st.fresh nb a).1.writableInPlace c = true) : st.writableInPlace c = true := by
  refine writable_of ?_ hw
  intro b blk hb hget hu ho
  rw [fresh_block nb a (hinv.valid x c b hx hb)] at hget
  exact ⟨blk, hget, hu, ho⟩

theorem Inv.array_lt (hx : st.array? x = some a) :
    x < st.arrays.length := (List.getElem?_eq_some_iff.mp (array?_eq.mp hx)).1

/-- Names of a new array there are none yet. -/
theorem Inv.nameCount_fresh (hinv : Inv st) :
    st.nameCount st.arrays.length = 0 := by
  refine count_eq_zero.mpr ?_
  intro hmem
  obtain ⟨a, ha⟩ := hinv.named _ hmem
  exact absurd (Inv.array_lt ha) (lt_irrefl _)

variable {nb : Option (Block α)}

/-- A new array, under no name yet. -/
theorem Inv.fresh (hinv : Inv st)
    (hown : Owned st nb a) : Inv (st.fresh nb a).1 := by
  refine ⟨?_, ?_, ?_, ?_, ?_⟩
  · intro x c hx
    rw [fresh_array?] at hx
    split at hx
    · rw [← some.inj hx]
      refine ⟨fun _ => hown.start, fun hs => ?_⟩
      rw [hown.block, hown.slots hs]
      rfl
    · exact hinv.plain x c hx
  · intro x c b hx hb
    rw [fresh_array?] at hx
    simp only [State.fresh, length_append]
    split at hx
    · rw [← some.inj hx, hown.block] at hb
      obtain ⟨blk, rfl, rfl⟩ := map_eq_some_iff.mp hb
      simp
    · have := hinv.valid x c b hx hb
      omega
  · intro b blk hblk
    rw [fresh_holders]
    by_cases hlt : b < st.blocks.length
    · rw [fresh_block nb a hlt] at hblk
      have hne : ¬ a.block = some b := by
        rw [hown.block]
        intro hb
        obtain ⟨_, _, rfl⟩ := map_eq_some_iff.mp hb
        exact absurd hlt (lt_irrefl _)
      rw [if_neg hne, hinv.counted b blk hblk]
      rfl
    · simp only [State.fresh] at hblk
      rw [getElem?_append_right (le_of_not_gt hlt)] at hblk
      cases nb with
      | none => simp at hblk
      | some blk' =>
        obtain ⟨hb0, hval⟩ : b = st.blocks.length ∧ blk' = blk := by
          obtain ⟨hi, hv⟩ := List.getElem?_eq_some_iff.mp hblk
          simp only [toList_some, length_singleton] at hi
          refine ⟨by omega, ?_⟩
          simpa using hv
        subst hb0 hval
        rw [hown.count _ rfl, hinv.holders_fresh, hown.block]
        simp
  · intro x hx
    obtain ⟨c, hc⟩ := hinv.named x hx
    refine ⟨c, ?_⟩
    rw [fresh_array?, if_neg (ne_of_lt (Inv.array_lt hc)), hc]
  · intro x c hx hw
    rw [fresh_array?] at hx
    split at hx
    · next heq =>
      rw [heq]
      exact Nat.le_trans (Nat.le_of_eq hinv.nameCount_fresh) (Nat.zero_le 1)
    · exact hinv.alone x c hx (fresh_writable hinv nb a hx hw)

/-! ## Names -/

theorem rebind_nameCount (hn : st.names[n]? = some (some x)) (y z : Nat)
    (r : State α) (hr : r.names = st.names) :
    (State.rebind (r, y) n).nameCount z + (if z = x then 1 else 0) =
      st.nameCount z + if z = y then 1 else 0 := by
  obtain ⟨hlt, hval⟩ := List.getElem?_eq_some_iff.mp hn
  have hset := count_set (a := some y) (b := some z) hlt
  simp only [State.nameCount, State.rebind, hr]
  have hpos : st.names[n] = some z → 0 < st.names.count (some z) := by
    intro heq
    exact List.count_pos_iff.mpr (heq ▸ getElem_mem hlt)
  rw [hset, hval]
  by_cases hzx : z = x
  · subst hzx
    have := hpos hval
    by_cases hzy : z = y
    · subst hzy
      simp
      omega
    · simp [hzy, Ne.symm hzy]
      omega
  · by_cases hzy : z = y
    · subst hzy
      simp [hzx, Ne.symm hzx]
    · simp [hzx, Ne.symm hzx, hzy, Ne.symm hzy]


/-- A new name for an array that is not to be written, or has no name yet. -/
theorem Inv.addName (hinv : Inv st)
    (hy : st.array? y = some c) (hok : st.writableInPlace c = true → st.nameCount y = 0) :
    Inv (State.addName (st, y)) := by
  refine ⟨hinv.plain, hinv.valid, hinv.counted, ?_, ?_⟩
  · intro x hx
    simp only [State.addName, mem_append, mem_singleton, some.injEq] at hx
    rcases hx with hx | rfl
    · exact hinv.named x hx
    · exact ⟨c, hy⟩
  · intro x a hx hw
    rw [nameCount_append st st rfl]
    by_cases hxy : x = y
    · subst hxy
      have hac : some a = some c := Eq.trans (Eq.symm hx) hy
      have h0 := hok (some.inj hac ▸ hw)
      rw [if_pos rfl]
      omega
    · rw [if_neg hxy]
      exact hinv.alone x a hx hw

/-- A name rebound to an array no other name holds. -/
theorem Inv.rebind (hinv : Inv st)
    (hn : st.names[n]? = some (some x)) (hy : st.array? y = some c)
    (hok : y = x ∨ st.nameCount y = 0) : Inv (State.rebind (st, y) n) := by
  have hcount := rebind_nameCount hn y
  refine ⟨hinv.plain, hinv.valid, hinv.counted, ?_, ?_⟩
  · intro z hz
    rcases mem_or_eq_of_mem_set hz with hz | hz
    · exact hinv.named z hz
    · exact ⟨c, some.inj hz ▸ hy⟩
  · intro z a hz hw
    have hone := hinv.alone z a hz hw
    have hc := hcount z st rfl
    rcases hok with rfl | h0
    · omega
    · by_cases hzy : z = y
      · subst hzy
        rw [if_pos rfl, h0] at hc
        omega
      · rw [if_neg hzy] at hc
        omega

/-- The name is gone. -/
theorem Inv.drop (hinv : Inv st) (n : Nat) :
    Inv { st with names := st.names.set n none } := by
  refine ⟨hinv.plain, hinv.valid, hinv.counted, ?_, ?_⟩
  · intro x hx
    rcases mem_or_eq_of_mem_set hx with hx | hx
    · exact hinv.named x hx
    · exact absurd hx (by simp)
  · intro x a hx hw
    have hone := hinv.alone x a hx hw
    refine le_trans ?_ hone
    simp only [State.nameCount]
    by_cases hlt : n < st.names.length
    · rw [count_set hlt]
      simp
    · exact le_of_eq (by rw [set_eq_of_length_le (le_of_not_gt hlt)])

/-! ## Writing the storage of one array -/

/-- Everything but array `x` reads as before. -/
structure Local (st st' : State α) (x : Nat) : Prop where
  names : st'.names = st.names
  live : ∃ a, st'.array? x = some a
  others : ∀ z c, z ≠ x → st.array? z = some c →
    st'.array? z = some c ∧ st'.elements c = st.elements c

theorem Local.trans {st'' : State α} (h₁ : Local st st' x)
    (h₂ : Local st' st'' x) : Local st st'' x := by
  refine ⟨h₂.names.trans h₁.names, h₂.live, ?_⟩
  intro z c hz hc
  obtain ⟨h3, h4⟩ := h₁.others z c hz hc
  obtain ⟨h5, h6⟩ := h₂.others z c hz h3
  exact ⟨h5, h6.trans h4⟩

theorem setArray_array? (hx : st.array? x = some a)
    (c : Array α) (z : Nat) :
    (st.setArray x c).array? z = if z = x then some c else st.array? z := by
  have hlt := Inv.array_lt hx
  unfold State.array? State.setArray
  simp only
  by_cases hz : z = x
  · subst hz
    simp [hlt]
  · rw [getElem?_set_ne (Ne.symm hz), if_neg hz]

theorem setArray_holders (hx : st.array? x = some a)
    (c : Array α) (b : Nat) :
    (st.setArray x c).holders b + (if a.block = some b then 1 else 0) =
      st.holders b + if c.block = some b then 1 else 0 := by
  have hlt := Inv.array_lt hx
  have hget : st.arrays[x] = some a := (List.getElem?_eq_some_iff.mp (array?_eq.mp hx)).2
  have hset := countP_set (a := some c)
    (p := fun o : Option (Array α) => decide (o.bind Array.block = some b)) hlt
  have hpos : a.block = some b → 0 < st.holders b := by
    intro hb
    refine List.countP_pos_iff.mpr ⟨some a, hget ▸ getElem_mem hlt, ?_⟩
    simpa using hb
  simp only [State.holders, State.setArray] at hpos ⊢
  rw [hset, hget]
  simp only [bind_some, decide_eq_true_eq]
  by_cases hb : a.block = some b
  · have := hpos hb
    simp only [hb, if_true]
    omega
  · simp only [hb, if_false]
    omega

/-- The array changes, its block and its place in it do not. -/
theorem Inv.setArray (hinv : Inv st)
    (hx : st.array? x = some a) (c : Array α) (hblock : c.block = a.block)
    (hview : c.view = a.view) (hoffset : c.offset = a.offset) (hstorage : c.storage = a.storage) :
    Inv (st.setArray x c) ∧ Local st (st.setArray x c) x := by
  refine ⟨⟨?_, ?_, ?_, ?_, ?_⟩, rfl, ⟨c, by rw [setArray_array? hx]; simp⟩, ?_⟩
  · intro z d hz
    rw [setArray_array? hx] at hz
    split at hz
    · rw [← some.inj hz, hblock, hview, hoffset, hstorage]
      exact hinv.plain x a hx
    · exact hinv.plain z d hz
  · intro z d b hz hb
    rw [setArray_array? hx] at hz
    split at hz
    · rw [← some.inj hz, hblock] at hb
      exact hinv.valid x a b hx hb
    · exact hinv.valid z d b hz hb
  · intro b blk hblk
    have hh := setArray_holders hx c b
    rw [hblock] at hh
    have := hinv.counted b blk hblk
    omega
  · intro z hz
    obtain ⟨d, hd⟩ := hinv.named z hz
    rw [setArray_array? hx]
    split
    · exact ⟨c, rfl⟩
    · exact ⟨d, hd⟩
  · intro z d hz hw
    rw [setArray_array? hx] at hz
    split at hz
    · next heq =>
      rw [heq]
      refine hinv.alone x a hx ?_
      obtain ⟨h1, h2, h3⟩ := writable_iff.1 hw
      rw [← some.inj hz, hview] at h1
      rw [← some.inj hz, hoffset] at h2
      rw [← some.inj hz, hstorage, hblock] at h3
      exact writable_iff.2 ⟨h1, h2, h3⟩
    · exact hinv.alone z d hz hw
  · intro z d hz hd
    refine ⟨?_, rfl⟩
    rw [setArray_array? hx, if_neg hz, hd]

theorem updateBlock_get (st : State α) (b : Nat) (f : Block α → Block α) (i : Nat) :
    (st.updateBlock b f).blocks[i]? = (st.blocks[i]?).map fun blk => if b = i then f blk else blk := by
  simp only [State.updateBlock, getElem?_modify]
  rfl

/-- The data of a block that array `x` alone may write changes. -/
theorem Inv.updateData (hinv : Inv st)
    (hx : st.array? x = some a) (hw : st.writableInPlace a = true) (hb : a.block = some b)
    (f : Block α → Block α)
    (hf : ∀ blk, (f blk).refCount = blk.refCount ∧ (f blk).camelOwned = blk.camelOwned) :
    Inv (st.updateBlock b f) ∧ Local st (st.updateBlock b f) x := by
  have hcount : ∀ (i : Nat) (blk' : Block α), (st.updateBlock b f).blocks[i]? = some blk' →
      ∃ blk : Block α, st.blocks[i]? = some blk ∧ blk'.refCount = blk.refCount ∧
        blk'.camelOwned = blk.camelOwned := by
    intro i blk' hget
    rw [updateBlock_get] at hget
    obtain ⟨blk, hblk, rfl⟩ := map_eq_some_iff.mp hget
    refine ⟨blk, hblk, ?_⟩
    split
    · exact hf blk
    · exact ⟨rfl, rfl⟩
  refine ⟨⟨hinv.plain, ?_, ?_, hinv.named, ?_⟩, rfl, ⟨a, hx⟩, ?_⟩
  · intro z c i hz hi
    have := hinv.valid z c i hz hi
    simpa [State.updateBlock] using this
  · intro i blk' hget
    obtain ⟨blk, hblk, hrc, -⟩ := hcount i blk' hget
    rw [hrc]
    exact hinv.counted i blk hblk
  · intro z c hz hwz
    refine hinv.alone z c hz (writable_of ?_ hwz)
    intro i blk' _ hget hu ho
    obtain ⟨blk, hblk, hrc, hco⟩ := hcount i blk' hget
    exact ⟨blk, hblk, by simpa [Block.unique, hrc] using hu, by rw [← hco]; exact ho⟩
  · intro z c hz hc
    refine ⟨hc, ?_⟩
    -- the block has one holder, and that is `x`
    have hne : c.block ≠ some b := by
      obtain ⟨-, -, h3⟩ := writable_iff.1 hw
      rcases h3 with h3 | h3 | ⟨b', blk, hb', hget, hu, -⟩
      · rw [(hinv.plain x a hx).2 h3] at hb
        exact absurd hb (by simp)
      · rw [h3] at hb
        exact absurd hb (by simp)
      · rw [hb] at hb'
        exact hinv.no_other hx hc (Ne.symm hz) hb (some.inj hb' ▸ hget) hu
    unfold State.elements
    cases hcb : c.block with
    | none => rfl
    | some i =>
      have hib : ¬ b = i := fun h => hne (by rw [hcb, h])
      simp only [updateBlock_get]
      cases st.blocks[i]? <;> simp [hib]

/-- Inline data moves into a block of its own. -/
theorem Inv.toBlock (hinv : Inv st)
    (hx : st.array? x = some a) (hnone : a.block = none) (data : List α) (c : Array α) (hblock : c.block = some st.blocks.length)
    (hview : c.view = false) (hoffset : c.offset = 0) (hstorage : c.storage = .compact) :
    Inv ((st.addBlock data true).1.setArray x c) ∧
      Local st ((st.addBlock data true).1.setArray x c) x ∧
      ((st.addBlock data true).1.setArray x c).writableInPlace c = true := by
  have hx1 : (st.addBlock data true).1.array? x = some a := hx
  have hget : ∀ i, i < st.blocks.length →
      ((st.addBlock data true).1.setArray x c).blocks[i]? = st.blocks[i]? := by
    intro i hi
    simp only [State.addBlock, State.setArray]
    rw [getElem?_append_left hi]
  have hnew : ((st.addBlock data true).1.setArray x c).blocks[st.blocks.length]? =
      some { data := data, refCount := 1, camelOwned := true } := by
    simp [State.addBlock, State.setArray]
  have hholders : ∀ i, ((st.addBlock data true).1.setArray x c).holders i =
      st.holders i + if i = st.blocks.length then 1 else 0 := by
    intro i
    have hh := setArray_holders hx1 c i
    have hbase : (st.addBlock data true).1.holders i = st.holders i := rfl
    rw [hnone, hblock, hbase] at hh
    simp only [reduceCtorEq, if_false, some.injEq, add_zero] at hh
    rw [hh]
    by_cases hi : i = st.blocks.length
    · simp [hi]
    · simp [hi, Ne.symm hi]
  refine ⟨⟨?_, ?_, ?_, ?_, ?_⟩, ⟨rfl, ⟨c, by rw [setArray_array? hx1]; simp⟩, ?_⟩, ?_⟩
  · intro z d hz
    rw [setArray_array? hx1] at hz
    split at hz
    · rw [← some.inj hz]
      exact ⟨fun h => absurd (hblock.symm.trans h) (by simp), fun h =>
        absurd (hstorage.symm.trans h) (by simp)⟩
    · exact hinv.plain z d hz
  · intro z d i hz hi
    have hlen : ((st.addBlock data true).1.setArray x c).blocks.length = st.blocks.length + 1 := by
      simp [State.addBlock, State.setArray]
    rw [hlen]
    rw [setArray_array? hx1] at hz
    split at hz
    · rw [← some.inj hz, hblock] at hi
      rw [← some.inj hi]
      exact lt_add_one _
    · exact Nat.lt_succ_of_lt (hinv.valid z d i hz hi)
  · intro i blk hblk
    rw [hholders]
    by_cases hi : i = st.blocks.length
    · subst hi
      rw [hnew] at hblk
      rw [← some.inj hblk, if_pos rfl, hinv.holders_fresh]
    · have hlt : i < st.blocks.length := by
        have := (List.getElem?_eq_some_iff.mp hblk).1
        simp [State.addBlock, State.setArray] at this
        omega
      rw [hget i hlt] at hblk
      rw [if_neg hi]
      exact hinv.counted i blk hblk
  · intro z hz
    obtain ⟨d, hd⟩ := hinv.named z hz
    rw [setArray_array? hx1]
    split
    · exact ⟨c, rfl⟩
    · exact ⟨d, hd⟩
  · intro z d hz hw
    rw [setArray_array? hx1] at hz
    split at hz
    · next heq =>
      rw [heq]
      obtain ⟨h1, h2⟩ := (hinv.plain x a hx).1 hnone
      exact hinv.alone x a hx (writable_iff.2 ⟨h1, h2, .inr (.inl hnone)⟩)
    · have hz' : st.array? z = some d := hz
      refine hinv.alone z d hz' (writable_of ?_ hw)
      intro i blk hi hg hu ho
      rw [hget i (hinv.valid z d i hz' hi)] at hg
      exact ⟨blk, hg, hu, ho⟩
  · intro z d hz hd
    refine ⟨by rw [setArray_array? hx1, if_neg hz]; exact hd, ?_⟩
    unfold State.elements
    cases hi : d.block with
    | none => rfl
    | some i => simp only [hget i (hinv.valid z d i hd hi)]
  · exact writable_iff.2 ⟨hview, hoffset, .inr (.inr ⟨_, _, hblock, hnew, rfl, rfl⟩)⟩

/-- An element written into the storage of an array that may be written. -/
theorem Inv.setSlot (hinv : Inv st)
    (hx : st.array? x = some a) (hw : st.writableInPlace a = true) (i : Nat) (v : α) :
    Inv (st.setSlot x a i v) ∧ Local st (st.setSlot x a i v) x := by
  unfold State.setSlot
  cases hb : a.block with
  | none => exact hinv.setArray hx _ (by simp [hb]) rfl rfl rfl
  | some b => exact hinv.updateData hx hw hb _ (fun _ => ⟨rfl, rfl⟩)

/-- The growth of an array that may be written leaves it one that may be. -/
theorem Inv.growCompact (hinv : Inv st)
    (hx : st.array? x = some a) (hw : st.writableInPlace a = true) (hcompact : a.storage = .compact)
    (newCapacity : Nat) :
    Inv (st.growCompact x a newCapacity).1 ∧ Local st (st.growCompact x a newCapacity).1 x ∧
      (st.growCompact x a newCapacity).1.array? x = some (st.growCompact x a newCapacity).2 ∧
      (st.growCompact x a newCapacity).1.writableInPlace (st.growCompact x a newCapacity).2 =
        true := by
  unfold State.growCompact
  cases hb : a.block with
  | none =>
    obtain ⟨h1, h2, h3⟩ := hinv.toBlock hx hb
      (st.elements a ++ replicate (newCapacity - (st.elements a).length) default)
      { a with block := some st.blocks.length, offset := 0, capacity := newCapacity, own := [] }
      rfl ((hinv.plain x a hx).1 hb).1 rfl hcompact
    refine ⟨h1, h2, ?_, h3⟩
    have hx1 : (st.addBlock (st.elements a ++
        replicate (newCapacity - (st.elements a).length) default) true).1.array? x = some a := hx
    exact (setArray_array? hx1 _ x).trans (if_pos rfl)
  | some b =>
    obtain ⟨hv, ho, hrest⟩ := writable_iff.1 hw
    have huniq : ((st.blocks[b]?).any Block.unique && a.offset == 0 && !a.view) = true := by
      rcases hrest with h | h | ⟨b', blk, hb', hget, hu, -⟩
      · rw [hcompact] at h
        exact absurd h (by simp)
      · rw [h] at hb
        exact absurd hb (by simp)
      · rw [hb] at hb'
        rw [some.inj hb', hget, ho, hv]
        simp [hu]
    simp only [huniq, if_true]
    obtain ⟨h1, h2⟩ := hinv.updateData hx hw hb (fun blk => { blk with
      data := blk.data ++ replicate (newCapacity - blk.data.length) default })
      (fun _ => ⟨rfl, rfl⟩)
    obtain ⟨h3, h4⟩ := h1.setArray (a := a) hx { a with block := some b, capacity := newCapacity }
      hb.symm rfl rfl rfl
    refine ⟨h3, h2.trans h4, (setArray_array? (a := a) hx _ x).trans (if_pos rfl), ?_⟩
    refine writable_iff.2 ⟨hv, ho, ?_⟩
    rcases hrest with h | h | ⟨b', blk, hb', hget, hu, hco⟩
    · exact .inl h
    · exact absurd (hb.symm.trans h) (by simp)
    · rw [hb] at hb'
      cases hb'
      refine .inr (.inr ⟨b, { blk with
        data := blk.data ++ replicate (newCapacity - blk.data.length) default }, rfl, ?_, hu,
        hco⟩)
      show (st.updateBlock b _).blocks[b]? = _
      rw [updateBlock_get, hget]
      simp

theorem Inv.storeNext (hinv : Inv st)
    (hx : st.array? x = some a) (hw : st.writableInPlace a = true) (v : α) :
    Inv (st.storeNext x a v) ∧ Local st (st.storeNext x a v) x := by
  unfold State.storeNext
  cases hb : a.block with
  | none =>
    exact hinv.setArray hx { a with
      block := none, numel := a.numel + 1, own := a.own.take a.numel ++ [v] } hb.symm rfl rfl rfl
  | some b =>
    obtain ⟨h1, h2⟩ := hinv.updateData hx hw hb (fun blk => { blk with
      data := blk.data.set (a.offset / a.elementSize + a.numel) v }) (fun _ => ⟨rfl, rfl⟩)
    obtain ⟨h3, h4⟩ := h1.setArray (a := a) hx { a with block := some b, numel := a.numel + 1 }
      hb.symm rfl rfl rfl
    exact ⟨h3, h2.trans h4⟩

/-- An element appended to an array that may be written. -/
theorem Inv.appendSlot (hinv : Inv st)
    (hx : st.array? x = some a) (hw : st.writableInPlace a = true) (v : α) :
    Inv (st.appendSlot x a v) ∧ Local st (st.appendSlot x a v) x := by
  unfold State.appendSlot
  by_cases hfull : a.numel ≥ a.capacity
  · rw [if_pos hfull]
    cases hs : a.storage with
    | slots =>
      obtain ⟨h1, h2⟩ := hinv.setArray hx { a with
        storage := .slots, capacity := max (a.capacity * 3 / 2 + 1) kInlineSlots } rfl rfl rfl
        hs.symm
      have hx1 := (setArray_array? hx { a with
        storage := .slots, capacity := max (a.capacity * 3 / 2 + 1) kInlineSlots } x).trans
        (if_pos rfl)
      obtain ⟨hv, ho, -⟩ := writable_iff.1 hw
      obtain ⟨h3, h4⟩ := h1.storeNext hx1 (writable_iff.2 ⟨hv, ho, .inl rfl⟩) v
      rw [← hs] at h2 h3 h4
      exact ⟨h3, h2.trans h4⟩
    | compact =>
      obtain ⟨h1, h2, h3, h4⟩ := hinv.growCompact hx hw hs (a.capacity * 3 / 2 + 1)
      obtain ⟨h5, h6⟩ := h1.storeNext h3 h4 v
      exact ⟨h5, h2.trans h6⟩
  · rw [if_neg hfull]
    exact hinv.storeNext hx hw v

/-! ## Second holders of a block -/

/-- Every array shows what it showed. -/
structure Keeps (st st' : State α) : Prop where
  names : st'.names = st.names
  shows : ∀ z c, st.array? z = some c →
    ∃ c', st'.array? z = some c' ∧ st'.elements c' = st.elements c

theorem Keeps.refl (st : State α) : Keeps st st := ⟨rfl, fun _ c hc => ⟨c, hc, rfl⟩⟩

theorem Keeps.trans {st'' : State α} (h₁ : Keeps st st') (h₂ : Keeps st' st'') :
    Keeps st st'' := by
  refine ⟨h₂.names.trans h₁.names, ?_⟩
  intro z c hc
  obtain ⟨c', hc', he'⟩ := h₁.shows z c hc
  obtain ⟨c'', hc'', he''⟩ := h₂.shows z c' hc'
  exact ⟨c'', hc'', he''.trans he'⟩

theorem keeps_fresh (hinv : Inv st) (nb : Option (Block α)) (a : Array α) :
    Keeps st (st.fresh nb a).1 := by
  refine ⟨rfl, ?_⟩
  intro z c hc
  refine ⟨c, ?_, fresh_elements hinv nb a hc⟩
  rw [fresh_array?, if_neg (ne_of_lt (Inv.array_lt hc)), hc]

/-- A name that is kept reads what it read. -/
theorem read_kept (hinv : Inv st) {m : Nat}
    (hname : st'.names[m]? = st.names[m]?)
    (hshow : ∀ x c, st.names[m]? = some (some x) → st.array? x = some c →
      ∃ c', st'.array? x = some c' ∧ st'.elements c' = st.elements c) :
    st'.read m = st.read m := by
  unfold State.read
  rw [hname]
  cases hm : st.names[m]? with
  | none => rfl
  | some o =>
    cases o with
    | none => rfl
    | some x =>
      obtain ⟨c, hc⟩ := hinv.named x (mem_of_getElem? hm)
      obtain ⟨c', hc', he⟩ := hshow x c hm hc
      simp [hc, hc', he]

theorem holders_pos (hx : st.array? x = some a)
    (hb : a.block = some b) : 0 < st.holders b := by
  refine countP_pos_iff.mpr ⟨some a, mem_of_getElem? (array?_eq.mp hx), ?_⟩
  simpa using hb

/-- One more array over a block that has a holder: none of them may be written. -/
theorem Inv.createOver (hinv : Inv st)
    (hx : st.array? x = some a) (hb : a.block = some b) (elementSize numel byteOffset : Nat)
    (view : Bool) :
    Inv (st.createOver elementSize numel b byteOffset view).1 ∧
      Keeps st (st.createOver elementSize numel b byteOffset view).1 ∧
      ∃ c, (st.createOver elementSize numel b byteOffset view).1.array? st.arrays.length = some c ∧
        (st.createOver elementSize numel b byteOffset view).1.writableInPlace c = false := by
  have hlt := hinv.valid x a b hx hb
  obtain ⟨blk, hblk⟩ : ∃ blk, st.blocks[b]? = some blk := ⟨_, getElem?_eq_getElem hlt⟩
  have hrc : blk.refCount = st.holders b := hinv.counted b blk hblk
  have hpos := holders_pos hx hb
  set r := st.createOver elementSize numel b byteOffset view with hr
  obtain ⟨c, hcb, hcv, hcs, hstate⟩ : ∃ c : Array α, c.block = some b ∧ c.storage = .compact ∧
      r.1.arrays = st.arrays ++ [some c] ∧ r.1.names = st.names ∧
      ∀ i, r.1.blocks[i]? = (st.blocks[i]?).map fun k =>
        if b = i then { k with refCount := k.refCount + 1 } else k := by
    refine ⟨_, rfl, rfl, rfl, rfl, ?_⟩
    intro i
    exact updateBlock_get st b _ i
  obtain ⟨hnames, hblocks⟩ := hstate
  have harr : ∀ z, r.1.array? z = if z = st.arrays.length then some c else st.array? z := by
    intro z
    unfold State.array?
    rw [hcs]
    by_cases hz : z = st.arrays.length
    · simp [hz]
    · rcases Nat.lt_or_gt_of_ne hz with h1 | h1
      · rw [getElem?_append_left h1, if_neg hz]
      · rw [getElem?_eq_none (by simp; omega), getElem?_eq_none (by omega), if_neg hz]
  have hholders : ∀ i, r.1.holders i = st.holders i + if b = i then 1 else 0 := by
    intro i
    simp only [State.holders, hcs, countP_append, countP_singleton, bind_some, hcb,
      some.injEq, decide_eq_true_eq]
  -- the count of the block is at least two now
  have hshared : ∀ k, r.1.blocks[b]? = some k → k.unique = false := by
    intro k hk
    rw [hblocks, hblk] at hk
    simp only [map_some, if_true, some.injEq] at hk
    rw [← hk]
    simp only [Block.unique, beq_eq_false_iff_ne]
    omega
  have hlen : r.1.blocks.length = st.blocks.length := by
    simp [hr, State.createOver, State.retain, State.updateBlock, State.addArray]
  have hnot : ∀ d, d.block = some b → d.storage = .compact → r.1.writableInPlace d = false := by
    intro d hd hs
    by_contra hw
    obtain ⟨-, -, h3⟩ := writable_iff.1 (by simpa using hw)
    rcases h3 with h3 | h3 | ⟨b', k, hb', hk, hu, -⟩
    · rw [hs] at h3
      exact absurd h3 (by simp)
    · rw [hd] at h3
      exact absurd h3 (by simp)
    · rw [hd] at hb'
      rw [← some.inj hb'] at hk
      rw [hshared k hk] at hu
      exact absurd hu (by simp)
  refine ⟨⟨?_, ?_, ?_, ?_, ?_⟩, ⟨hnames, ?_⟩, c, by rw [harr, if_pos rfl], hnot c hcb hcv⟩
  · intro z d hz
    rw [harr] at hz
    split at hz
    · rw [← some.inj hz]
      exact ⟨fun h => absurd (hcb.symm.trans h) (by simp), fun h => absurd (hcv.symm.trans h) (by simp)⟩
    · exact hinv.plain z d hz
  · intro z d i hz hi
    rw [hlen]
    rw [harr] at hz
    split at hz
    · rw [← some.inj hz, hcb] at hi
      exact some.inj hi ▸ hlt
    · exact hinv.valid z d i hz hi
  · intro i k hk
    rw [hblocks] at hk
    obtain ⟨k', hk', rfl⟩ := map_eq_some_iff.mp hk
    rw [hholders, ← hinv.counted i k' hk']
    split <;> rfl
  · intro z hz
    rw [hnames] at hz
    obtain ⟨d, hd⟩ := hinv.named z hz
    refine ⟨d, ?_⟩
    rw [harr, if_neg (ne_of_lt (Inv.array_lt hd)), hd]
  · intro z d hz hw
    have hcount : r.1.nameCount z = st.nameCount z := by simp [State.nameCount, hnames]
    rw [hcount]
    rw [harr] at hz
    split at hz
    · next heq =>
      rw [heq, hinv.nameCount_fresh]
      exact Nat.zero_le 1
    · refine hinv.alone z d hz (writable_of ?_ hw)
      intro i k hi hk hu ho
      rw [hblocks] at hk
      obtain ⟨k', hk', rfl⟩ := map_eq_some_iff.mp hk
      by_cases hbi : b = i
      · -- the block that got one more holder is not unique
        subst hbi
        have := hshared _ (by rw [hblocks, hk']; rfl)
        rw [this] at hu
        exact absurd hu (by simp)
      · simp only [if_neg hbi] at hu ho
        exact ⟨k', hk', hu, ho⟩
  · intro z d hd
    refine ⟨d, ?_, ?_⟩
    · rw [harr, if_neg (ne_of_lt (Inv.array_lt hd)), hd]
    · unfold State.elements
      cases hdb : d.block with
      | none => rfl
      | some i =>
        simp only [hblocks]
        cases st.blocks[i]? with
        | none => rfl
        | some k => by_cases hbi : b = i <;> simp [hbi]

/-- An array that moved into a block shows what it showed. -/
theorem Inv.ensureBlock (hinv : Inv st)
    (hx : st.array? x = some a) :
    Inv (st.ensureBlock x a).1 ∧ Keeps st (st.ensureBlock x a).1 ∧
      (st.ensureBlock x a).1.array? x = some (st.ensureBlock x a).2 := by
  unfold State.ensureBlock
  split
  · exact ⟨hinv, Keeps.refl st, hx⟩
  · next hcond =>
    obtain ⟨hcompact, hnone⟩ : a.storage = .compact ∧ a.block = none := by
      rw [not_or] at hcond
      refine ⟨?_, by simpa using hcond.2⟩
      cases hs : a.storage with
      | slots => exact absurd hs hcond.1
      | compact => rfl
    obtain ⟨h1, h2, -⟩ := hinv.toBlock hx hnone (st.elements a)
      { a with block := some st.blocks.length, offset := 0, capacity := a.numel, own := [] } rfl
      ((hinv.plain x a hx).1 hnone).1 rfl hcompact
    have hx0 : (st.addBlock (st.elements a) true).1.array? x = some a := hx
    have hx1 := (setArray_array? hx0
      { a with block := some st.blocks.length, offset := 0, capacity := a.numel, own := [] } x).trans
      (if_pos rfl)
    refine ⟨h1, ⟨h2.names, ?_⟩, hx1⟩
    intro z c hc
    by_cases hz : z = x
    · subst hz
      rw [hx] at hc
      refine ⟨_, hx1, ?_⟩
      rw [← some.inj hc]
      have hdata : st.elements a = a.own.take a.numel := by simp [State.elements, hnone]
      rw [hdata]
      simp [State.elements, State.addBlock, State.setArray, take_take]
    · obtain ⟨h3, h4⟩ := h2.others z c hz hc
      exact ⟨c, h3, h4⟩

/-! ## What the operations hand out -/

theorem addArray_fresh (st : State α) (a : Array α) : st.addArray a = st.fresh none a := by
  simp [State.fresh, State.addArray]

theorem createCompact_fresh (st : State α) (elementSize : Nat) (data : List α) :
    ∃ nb a, st.createCompact elementSize data = st.fresh nb a ∧ Owned st nb a ∧
      ∀ blk, nb = some blk → blk.camelOwned = true := by
  unfold State.createCompact
  split
  · refine ⟨none, _, addArray_fresh st _, ⟨⟨rfl, rfl⟩, ?_, rfl, ?_⟩, ?_⟩ <;> simp
  · refine ⟨some { data := data, refCount := 1, camelOwned := true }, _, rfl,
      ⟨⟨rfl, rfl⟩, ?_, rfl, ?_⟩, ?_⟩
    · simp
    · rintro blk ⟨⟩
      rfl
    · rintro blk ⟨⟩
      rfl

theorem createSlots_fresh (st : State α) (hasElemType : Bool) (data : List α) (capacity : Nat) :
    ∃ nb a, st.createSlots hasElemType data capacity = st.fresh nb a ∧ Owned st nb a ∧
      ∀ blk, nb = some blk → blk.camelOwned = true := by
  refine ⟨none, _, addArray_fresh st _, ⟨⟨rfl, rfl⟩, ?_, rfl, ?_⟩, ?_⟩ <;> simp

theorem clone_fresh (st : State α) (a : Array α) :
    ∃ nb c, st.clone a = st.fresh nb c ∧ Owned st nb c ∧
      ∀ blk, nb = some blk → blk.camelOwned = true := by
  unfold State.clone
  cases a.storage with
  | compact => exact createCompact_fresh st _ _
  | slots => exact createSlots_fresh st _ _ _

theorem copyWithRoom_fresh (st : State α) (a : Array α) (extra : Nat) :
    ∃ nb c, st.copyWithRoom a extra = st.fresh nb c ∧ Owned st nb c ∧
      ∀ blk, nb = some blk → blk.camelOwned = true := by
  unfold State.copyWithRoom
  cases a.storage with
  | compact =>
    refine ⟨some (Block.mk (st.elements a ++ replicate extra default) 1 true), _, rfl,
      ⟨⟨rfl, rfl⟩, ?_, rfl, ?_⟩, ?_⟩
    · simp
    · rintro blk ⟨⟩
      rfl
    · rintro blk ⟨⟩
      rfl
  | slots => exact createSlots_fresh st _ _ _

/-- A block of its own may be written. -/
theorem fresh_own_writable
    (hown : Owned st nb a) (hcamel : ∀ blk, nb = some blk → blk.camelOwned = true) :
    (st.fresh nb a).1.writableInPlace a = true := by
  refine writable_iff.2 ⟨hown.start.1, hown.start.2, .inr ?_⟩
  cases nb with
  | none => exact .inl hown.block
  | some blk =>
    refine .inr ⟨_, blk, hown.block, ?_, ?_, hcamel blk rfl⟩
    · simp [State.fresh]
    · simp [Block.unique, hown.count blk rfl]

/-- What a second name gets: a new array of its own, or one that is not to be
    written; and every array shows what it showed. -/
theorem Inv.share (hinv : Inv st)
    (hx : st.array? x = some a) (htyped : a.storage = .slots → a.hasElemType = true) :
    Inv (st.shareForSecondName x a).1 ∧ Keeps st (st.shareForSecondName x a).1 ∧
      ∃ c, (st.shareForSecondName x a).1.array? (st.shareForSecondName x a).2 = some c ∧
        ((st.shareForSecondName x a).1.writableInPlace c = true →
          (st.shareForSecondName x a).1.nameCount (st.shareForSecondName x a).2 = 0) := by
  have hself : st.writableInPlace a = false → Inv st ∧ Keeps st st ∧
      ∃ c, st.array? x = some c ∧ (st.writableInPlace c = true → st.nameCount x = 0) := by
    intro hno
    refine ⟨hinv, Keeps.refl st, a, hx, ?_⟩
    intro hw
    rw [hno] at hw
    exact absurd hw (by simp)
  have hcopy : ∀ r : State α × Nat, (∃ nb c, r = st.fresh nb c ∧ Owned st nb c ∧
      ∀ blk, nb = some blk → blk.camelOwned = true) →
      Inv r.1 ∧ Keeps st r.1 ∧ ∃ c, r.1.array? r.2 = some c ∧
        (r.1.writableInPlace c = true → r.1.nameCount r.2 = 0) := by
    rintro r ⟨nb, c, rfl, hown, -⟩
    refine ⟨hinv.fresh hown, keeps_fresh hinv nb c, c, ?_, fun _ => hinv.nameCount_fresh⟩
    exact (fresh_array? st nb c _).trans (if_pos rfl)
  unfold State.shareForSecondName
  by_cases hv : (a.view || a.offset != 0) = true
  · rw [if_pos hv]
    refine hself ?_
    simp [State.writableInPlace, hv]
  rw [if_neg hv]
  cases hs : a.storage with
  | slots =>
    simp only [htyped hs, if_true]
    exact hcopy _ (clone_fresh st a)
  | compact =>
    cases hb : a.block with
    | none => exact hcopy _ (createCompact_fresh st _ _)
    | some b =>
      have hlt := hinv.valid x a b hx hb
      simp only [getElem?_eq_getElem hlt]
      by_cases hown : (!st.blocks[b].camelOwned) = true
      · rw [if_pos hown]
        refine hself ?_
        have hno : st.blocks[b].camelOwned = false := by simpa using hown
        simp [State.writableInPlace, hv, hs, hb, hlt, hno]
      rw [if_neg hown]
      by_cases hu : (!st.blocks[b].unique) = true
      · rw [if_pos hu]
        refine hself ?_
        have hno : st.blocks[b].unique = false := by simpa using hu
        simp [State.writableInPlace, hv, hs, hb, hlt, hno]
      rw [if_neg hu]
      obtain ⟨h1, h2, c, h3, h4⟩ := hinv.createOver hx hb a.elementSize a.numel a.offset false
      refine ⟨h1, h2, c, h3, ?_⟩
      intro hw
      rw [h4] at hw
      exact absurd hw (by simp)

theorem Inv.view (hinv : Inv st) {len start : Nat} {r : State α × Nat}
    (hr : st.view x len start = some r) :
    Inv r.1 ∧ Keeps st r.1 ∧ ∃ c, r.1.array? r.2 = some c ∧ r.1.writableInPlace c = false := by
  unfold State.view at hr
  cases hx : st.array? x with
  | none => simp [hx] at hr
  | some a =>
    obtain ⟨h1, h2, h3⟩ := hinv.ensureBlock hx
    simp only [hx, bind_eq_bind, bind_some] at hr
    split at hr
    · exact absurd hr (by simp)
    · split at hr
      · exact absurd hr (by simp)
      · cases hb : (st.ensureBlock x a).2.block with
        | none => simp [hb] at hr
        | some b =>
          simp only [hb, bind_some, some.injEq] at hr
          obtain ⟨h4, h5, h6⟩ := h1.createOver h3 hb (st.ensureBlock x a).2.elementSize len
            ((st.ensureBlock x a).2.offset + start * (st.ensureBlock x a).2.elementSize) true
          rw [← hr]
          exact ⟨h4, h2.trans h5, h6⟩

/-! ## Runs -/

/-- The steps after which the count of a block still says how many names see a
    write: a second name is asked only of an array that can be copied, and the
    death of an array does not leave its block to a single array that two names
    hold. -/
def State.Safe (st : State α) : Op α → Prop
  | .share n => ∀ x a, st.held n = some (x, a) → a.storage = .slots → a.hasElemType = true
  | .die x => ∀ a b blk y c, st.array? x = some a → a.block = some b →
      st.blocks[b]? = some blk → blk.refCount = 2 → blk.camelOwned = true →
      y ≠ x → st.array? y = some c → c.block = some b → c.view = false → c.offset = 0 →
      st.nameCount y ≤ 1
  | _ => True

theorem Inv.finalize (hinv : Inv st)
    (hx : st.array? x = some a) (hfree : some x ∉ st.names) (hsafe : st.Safe (.die x)) :
    Inv (st.finalize x a) ∧
      ∀ z c, z ≠ x → st.array? z = some c →
        (st.finalize x a).array? z = some c ∧ (st.finalize x a).elements c = st.elements c := by
  have hlt := Inv.array_lt hx
  have hget : st.arrays[x] = some a := (List.getElem?_eq_some_iff.mp (array?_eq.mp hx)).2
  have hnames : (st.finalize x a).names = st.names := by
    unfold State.finalize
    cases a.block <;> rfl
  have harrays : (st.finalize x a).arrays = st.arrays.set x none := by
    unfold State.finalize
    cases a.block <;> rfl
  have hblocks : ∀ i, (st.finalize x a).blocks[i]? = (st.blocks[i]?).map fun k =>
      if a.block = some i then { k with refCount := k.refCount - 1 } else k := by
    intro i
    unfold State.finalize
    cases hb : a.block with
    | none => simp
    | some b =>
      simp only [some.injEq]
      exact updateBlock_get _ b _ i
  have harr : ∀ z, (st.finalize x a).array? z = if z = x then none else st.array? z := by
    intro z
    unfold State.array?
    rw [harrays]
    by_cases hz : z = x
    · subst hz
      simp [hlt]
    · rw [getElem?_set_ne (Ne.symm hz), if_neg hz]
  have hholders : ∀ i, (st.finalize x a).holders i + (if a.block = some i then 1 else 0) =
      st.holders i := by
    intro i
    have hset := countP_set (a := none)
      (p := fun o : Option (Array α) => decide (o.bind Array.block = some i)) hlt
    have hpos : a.block = some i → 0 < st.holders i := holders_pos hx
    simp only [State.holders, harrays] at hpos ⊢
    rw [hset, hget]
    simp only [bind_some, bind_none, decide_eq_true_eq, reduceCtorEq, if_false]
    by_cases hb : a.block = some i
    · have := hpos hb
      simp only [hb, if_true]
      omega
    · simp only [hb, if_false]
      omega
  refine ⟨⟨?_, ?_, ?_, ?_, ?_⟩, ?_⟩
  · intro z c hz
    rw [harr] at hz
    split at hz
    · exact absurd hz (by simp)
    · exact hinv.plain z c hz
  · intro z c i hz hi
    rw [harr] at hz
    split at hz
    · exact absurd hz (by simp)
    · have hlen : (st.finalize x a).blocks.length = st.blocks.length := by
        unfold State.finalize
        cases a.block <;> simp [State.release, State.updateBlock]
      rw [hlen]
      exact hinv.valid z c i hz hi
  · intro i k hk
    rw [hblocks] at hk
    obtain ⟨k', hk', rfl⟩ := map_eq_some_iff.mp hk
    have hh := hholders i
    have hc := hinv.counted i k' hk'
    by_cases hb : a.block = some i
    · simp only [hb, if_true] at hh ⊢
      omega
    · simp only [hb, if_false] at hh ⊢
      omega
  · intro z hz
    rw [hnames] at hz
    obtain ⟨c, hc⟩ := hinv.named z hz
    have hzx : ¬ z = x := fun h => hfree (h ▸ hz)
    exact ⟨c, by rw [harr, if_neg hzx, hc]⟩
  · intro z c hz hw
    have hcount : (st.finalize x a).nameCount z = st.nameCount z := by
      simp [State.nameCount, hnames]
    rw [hcount]
    rw [harr] at hz
    split at hz
    · exact absurd hz (by simp)
    next hzx =>
    obtain ⟨hv, ho, h3⟩ := writable_iff.1 hw
    rcases h3 with h3 | h3 | ⟨i, k, hi, hk, hu, hco⟩
    · exact hinv.alone z c hz (writable_iff.2 ⟨hv, ho, .inl h3⟩)
    · exact hinv.alone z c hz (writable_iff.2 ⟨hv, ho, .inr (.inl h3)⟩)
    · rw [hblocks] at hk
      obtain ⟨k', hk', rfl⟩ := map_eq_some_iff.mp hk
      by_cases hb : a.block = some i
      · -- the block is left to `z`
        simp only [hb, if_true, Block.unique, beq_iff_eq] at hu hco
        exact hsafe a i k' z c hx hb hk' (by omega) hco hzx hz hi hv ho
      · simp only [hb, if_false] at hu hco
        exact hinv.alone z c hz (writable_iff.2 ⟨hv, ho, .inr (.inr ⟨i, k', hi, hk', hu, hco⟩)⟩)
  · intro z c hz hc
    refine ⟨by rw [harr, if_neg hz, hc], ?_⟩
    unfold State.elements
    cases hi : c.block with
    | none => rfl
    | some i =>
      simp only [hblocks]
      cases st.blocks[i]? with
      | none => rfl
      | some k => by_cases hb : a.block = some i <;> simp [hb]

/-- The name an operation rebinds or ends. -/
def Op.target : Op α → Option Nat
  | .write n _ _ => some n
  | .append n _ => some n
  | .drop n => some n
  | _ => none

theorem addName_read {r : State α × Nat} (hinv : Inv st) (hkeep : Keeps st r.1)
    {m : Nat} (hm : m < st.names.length) : (State.addName r).read m = st.read m := by
  refine read_kept hinv ?_ (fun x c _ hc => hkeep.shows x c hc)
  simp only [State.addName, hkeep.names]
  rw [getElem?_append_left hm]

/-- A copy is made, written and bound to the name in the array's place. -/
theorem Inv.copy_rebind (hinv : Inv st)
    (hn : st.names[n]? = some (some x)) (hinv' : Inv st')
    (hlocal : Local (st.fresh nb c).1 st' st.arrays.length) :
    Inv (State.rebind (st', st.arrays.length) n) ∧
      ∀ m, n ≠ m → (State.rebind (st', st.arrays.length) n).read m = st.read m := by
  have hnames : st'.names = st.names := hlocal.names
  obtain ⟨d, hd⟩ := hlocal.live
  have hzero : st'.nameCount st.arrays.length = 0 := by
    simp only [State.nameCount, hnames]
    exact hinv.nameCount_fresh
  refine ⟨hinv'.rebind (hnames ▸ hn) hd (.inr hzero), ?_⟩
  intro m hm
  refine read_kept hinv ?_ ?_
  · simp only [State.rebind, hnames]
    exact getElem?_set_ne hm
  · intro y e _ he
    obtain ⟨e', he', hel⟩ := (keeps_fresh hinv nb c).shows y e he
    have hy : y ≠ st.arrays.length := ne_of_lt (Inv.array_lt he)
    obtain ⟨h1, h2⟩ := hlocal.others y e' hy he'
    exact ⟨e', h1, h2.trans hel⟩

/-- A write into the storage of the array a name holds. -/
theorem Inv.inPlace_rebind (hinv : Inv st)
    (hn : st.names[n]? = some (some x)) (hx : st.array? x = some a)
    (hw : st.writableInPlace a = true) (hinv' : Inv st')
    (hlocal : Local st st' x) :
    Inv (State.rebind (st', x) n) ∧
      ∀ m, n ≠ m → (State.rebind (st', x) n).read m = st.read m := by
  obtain ⟨d, hd⟩ := hlocal.live
  refine ⟨hinv'.rebind (hlocal.names ▸ hn) hd (.inl rfl), ?_⟩
  intro m hm
  refine read_kept hinv ?_ ?_
  · simp only [State.rebind, hlocal.names]
    exact getElem?_set_ne hm
  · intro y e hy he
    -- `n` is the one name `x` has, so `m` names another array
    have hyx : y ≠ x := by
      intro heq
      subst heq
      have hone := hinv.alone y a hx hw
      obtain ⟨hln, hvn⟩ := List.getElem?_eq_some_iff.mp hn
      obtain ⟨hlm, hvm⟩ := List.getElem?_eq_some_iff.mp hy
      have hset := count_set (a := none) (b := some y) hln
      have hmem : some y ∈ st.names.set n none := by
        refine mem_iff_getElem?.mpr ⟨m, ?_⟩
        rw [getElem?_set_ne hm, hy]
      have hpos := List.count_pos_iff.mpr hmem
      rw [hset, hvn] at hpos
      simp at hpos
      unfold State.nameCount at hone
      omega
    obtain ⟨h1, h2⟩ := hlocal.others y e hyx he
    exact ⟨e, h1, h2⟩

theorem Inv.setIndexInPlace (hinv : Inv st)
    (hn : st.names[n]? = some (some x)) (hx : st.array? x = some a) (i : Nat) (v : α) :
    Inv (State.rebind (st.setIndexInPlace x a i v) n) ∧
      ∀ m, n ≠ m → (State.rebind (st.setIndexInPlace x a i v) n).read m = st.read m := by
  unfold State.setIndexInPlace
  by_cases hw : st.writableInPlace a = true
  · rw [if_pos hw]
    obtain ⟨h1, h2⟩ := hinv.setSlot hx hw i v
    exact hinv.inPlace_rebind hn hx hw h1 h2
  · obtain ⟨nb, c, heq, hown, hcamel⟩ := clone_fresh st a
    have hc : (st.fresh nb c).1.array? st.arrays.length = some c :=
      (fresh_array? st nb c _).trans (if_pos rfl)
    have hpair : st.fresh nb c = ((st.fresh nb c).1, st.arrays.length) := rfl
    obtain ⟨h1, h2⟩ := (hinv.fresh hown).setSlot hc (fresh_own_writable hown hcamel) i v
    rw [if_neg hw, heq, hpair]
    simp only [hc]
    exact hinv.copy_rebind hn h1 h2

theorem Inv.appendInPlace (hinv : Inv st)
    (hn : st.names[n]? = some (some x)) (hx : st.array? x = some a) (v : α) :
    Inv (State.rebind (st.appendInPlace x a v) n) ∧
      ∀ m, n ≠ m → (State.rebind (st.appendInPlace x a v) n).read m = st.read m := by
  unfold State.appendInPlace
  by_cases hw : st.writableInPlace a = true
  · rw [if_pos hw]
    obtain ⟨h1, h2⟩ := hinv.appendSlot hx hw v
    exact hinv.inPlace_rebind hn hx hw h1 h2
  · obtain ⟨nb, c, heq, hown, hcamel⟩ := copyWithRoom_fresh st a 1
    have hc : (st.fresh nb c).1.array? st.arrays.length = some c :=
      (fresh_array? st nb c _).trans (if_pos rfl)
    have hpair : st.fresh nb c = ((st.fresh nb c).1, st.arrays.length) := rfl
    obtain ⟨h1, h2⟩ := (hinv.fresh hown).appendSlot hc (fresh_own_writable hown hcamel) v
    rw [if_neg hw, heq, hpair]
    simp only [hc]
    exact hinv.copy_rebind hn h1 h2

/-- An imported block is a new array's, whose importer gives its reference up. -/
theorem wrap_fresh (st : State α) (elementSize : Nat) (data : List α) :
    ∃ c, st.step (.wrap elementSize data) =
        some (State.addName (st.fresh (some (Block.mk data 1 false)) c)) ∧
      Owned st (some (Block.mk data 1 false)) c := by
  refine ⟨Array.mk .compact true elementSize (some st.blocks.length) 0 false data.length
    data.length [], ?_, ⟨⟨rfl, rfl⟩, by simp, rfl, by simp⟩⟩
  have hlast : ∀ (l : List (Block α)) (blk : Block α) (f : Block α → Block α),
      (l ++ [blk]).modify l.length f = l ++ [f blk] := by
    intro l blk f
    induction l with
    | nil => rfl
    | cons k l ih => simpa using ih
  simp [State.step, State.release, State.createOver, State.retain, State.updateBlock,
    State.addBlock, State.addArray, State.fresh, State.addName, hlast]

/-- An operation keeps the invariant, and what every name reads that is not the
    one it goes through. -/
theorem step_spec {op : Op α} (hinv : Inv st) (hsafe : st.Safe op)
    (hstep : st.step op = some st') :
    Inv st' ∧ ∀ m, m < st.names.length → op.target ≠ some m → st'.read m = st.read m := by
  have hnew : ∀ nb c, Owned st nb c → Inv (State.addName (st.fresh nb c)) ∧
      ∀ m, m < st.names.length → (State.addName (st.fresh nb c)).read m = st.read m := by
    intro nb c hown
    refine ⟨(hinv.fresh hown).addName ((fresh_array? st nb c _).trans (if_pos rfl))
      (fun _ => hinv.nameCount_fresh), ?_⟩
    exact fun m hm => addName_read hinv (keeps_fresh hinv nb c) hm
  cases op with
  | create storage hasElemType elementSize data =>
    cases storage with
    | compact =>
      simp only [State.step] at hstep
      split at hstep
      · obtain ⟨nb, c, heq, hown, -⟩ := createCompact_fresh st elementSize data
        obtain ⟨h1, h2⟩ := hnew nb c hown
        rw [← some.inj hstep, heq]
        exact ⟨h1, fun m hm _ => h2 m hm⟩
      · exact absurd hstep (by simp)
    | slots =>
      obtain ⟨nb, c, heq, hown, -⟩ := createSlots_fresh st hasElemType data data.length
      obtain ⟨h1, h2⟩ := hnew nb c hown
      rw [← some.inj hstep, heq]
      exact ⟨h1, fun m hm _ => h2 m hm⟩
  | wrap elementSize data =>
    obtain ⟨c, heq, hown⟩ := wrap_fresh st elementSize data
    obtain ⟨h1, h2⟩ := hnew _ c hown
    rw [heq] at hstep
    rw [← some.inj hstep]
    exact ⟨h1, fun m hm _ => h2 m hm⟩
  | view n len start =>
    simp only [State.step, bind_eq_bind, bind_eq_some_iff] at hstep
    obtain ⟨⟨x, a⟩, hheld, r, hr, hst⟩ := hstep
    obtain ⟨h1, h2, c, h3, h4⟩ := hinv.view hr
    rw [← some.inj hst]
    refine ⟨h1.addName h3 (fun hw => absurd (h4.symm.trans hw) (by simp)), ?_⟩
    exact fun m hm _ => addName_read hinv h2 hm
  | share n =>
    simp only [State.step, bind_eq_bind, bind_eq_some_iff] at hstep
    obtain ⟨⟨x, a⟩, hheld, hst⟩ := hstep
    obtain ⟨hn, hx⟩ := held_eq hheld
    obtain ⟨h1, h2, c, h3, h4⟩ := hinv.share hx (hsafe x a hheld)
    rw [← some.inj hst]
    exact ⟨h1.addName h3 h4, fun m hm _ => addName_read hinv h2 hm⟩
  | write n i v =>
    simp only [State.step, bind_eq_bind, bind_eq_some_iff] at hstep
    obtain ⟨⟨x, a⟩, hheld, hst⟩ := hstep
    obtain ⟨hn, hx⟩ := held_eq hheld
    simp only at hst
    split at hst
    · rw [← some.inj hst]
      obtain ⟨h1, h2⟩ := hinv.setIndexInPlace hn hx i v
      exact ⟨h1, fun m _ hm => h2 m (fun heq => hm (by rw [heq]; rfl))⟩
    · exact absurd hst (by simp)
  | append n v =>
    simp only [State.step, bind_eq_bind, bind_eq_some_iff] at hstep
    obtain ⟨⟨x, a⟩, hheld, hst⟩ := hstep
    obtain ⟨hn, hx⟩ := held_eq hheld
    simp only at hst
    rw [← some.inj hst]
    obtain ⟨h1, h2⟩ := hinv.appendInPlace hn hx v
    exact ⟨h1, fun m _ hm => h2 m (fun heq => hm (by rw [heq]; rfl))⟩
  | drop n =>
    simp only [State.step] at hstep
    split at hstep
    · rw [← some.inj hstep]
      refine ⟨hinv.drop n, ?_⟩
      intro m _ hm
      refine read_kept hinv ?_ (fun x c _ hc => ⟨c, hc, rfl⟩)
      exact getElem?_set_ne (fun heq => hm (by rw [heq]; rfl))
    · exact absurd hstep (by simp)
  | die x =>
    simp only [State.step] at hstep
    split at hstep
    · exact absurd hstep (by simp)
    · next a hx =>
      split at hstep
      · exact absurd hstep (by simp)
      · next hfree =>
        rw [← some.inj hstep]
        obtain ⟨h1, h2⟩ := hinv.finalize hx hfree hsafe
        refine ⟨h1, ?_⟩
        intro m _ _
        have hnames : (st.finalize x a).names = st.names := by
          unfold State.finalize
          cases a.block <;> rfl
        refine read_kept hinv (by rw [hnames]) ?_
        intro y c hy hc
        have hyx : y ≠ x := fun heq => hfree (heq ▸ mem_of_getElem? hy)
        obtain ⟨h3, h4⟩ := h2 y c hyx hc
        exact ⟨c, h3, h4⟩

/-- The states of runs whose steps are all safe. -/
inductive Reachable : State α → Prop where
  | init : Reachable State.init
  | step {st st' : State α} {op : Op α} : Reachable st → st.Safe op → st.step op = some st' →
      Reachable st'

theorem Reachable.inv (h : Reachable st) : Inv st := by
  induction h with
  | init => exact inv_init
  | step _ hsafe hstep ih => exact (step_spec ih hsafe hstep).1

/-- In every run whose steps are all safe, an operation through one name changes
    nothing another name reads. -/
theorem write_unseen {st st' : State α} {op : Op α} (hreach : Reachable st) (hsafe : st.Safe op)
    (hstep : st.step op = some st') :
    ∀ m, m < st.names.length → op.target ≠ some m → st'.read m = st.read m :=
  (step_spec hreach.inv hsafe hstep).2

/-- A block of its own, a second name, and a write through the first. -/
theorem write_unseen_shared :
    ∃ st st' : State Nat, Reachable st ∧ st.step (.write 0 0 9) = some st' ∧
      st'.read 1 = st.read 1 ∧ st'.read 0 ≠ st.read 0 := by
  have h0 : (State.init : State Nat).step (.create .compact true 300 [1, 2]) =
      some { blocks := [⟨[1, 2], 1, true⟩],
             arrays := [some ⟨.compact, true, 300, some 0, 0, false, 2, 2, []⟩],
             names := [some 0] } := by decide
  have h1 : ({ blocks := [⟨[1, 2], 1, true⟩],
               arrays := [some ⟨.compact, true, 300, some 0, 0, false, 2, 2, []⟩],
               names := [some 0] } : State Nat).step (.share 0) =
      some { blocks := [⟨[1, 2], 2, true⟩],
             arrays := [some ⟨.compact, true, 300, some 0, 0, false, 2, 2, []⟩,
               some ⟨.compact, true, 300, some 0, 0, false, 2, 2, []⟩],
             names := [some 0, some 1] } := by decide
  have hreach0 := Reachable.step Reachable.init
    (show State.init.Safe (Op.create .compact true 300 [1, 2]) from trivial) h0
  have hreach := Reachable.step hreach0
    (by
      intro x a hheld hs
      obtain ⟨rfl, rfl⟩ : 0 = x ∧ Array.mk .compact true 300 (some 0) 0 false 2 2 [] = a := by
        simpa [State.held, State.array?] using hheld
      exact absurd hs (by simp)) h1
  exact ⟨_, _, hreach, rfl,
    @write_unseen _ _ _ _ (.write 0 0 9) hreach trivial rfl 1 (by decide) (by decide), by decide⟩

/-- The same array under two names: a view holds its block when the second name
    is handed out, and is gone when the first is written. -/
theorem write_seen :
    ∃ st st' : State Nat,
      (((((State.init.step (.create .compact true 300 [1, 2])).bind (·.step (.view 0 1 0))).bind
        (·.step (.share 0))).bind (·.step (.drop 1))).bind (·.step (.die 1))) = some st ∧
      st.step (.write 0 0 9) = some st' ∧
      st.read 2 = some [1, 2] ∧ st'.read 2 = some [9, 2] :=
  ⟨_, _, rfl, rfl, by decide, by decide⟩

end Camel.ArrayStore
