import Mathlib

/-! # Tilings of a Row

    A row of cells is tiled by blocks of two kinds, free ones and taken ones, each
    kind listed by address. Two free blocks never touch: a free block that begins
    where another ends would be one block with it. Whether a free block ends at
    a place is carried along, so that tilings can be put one behind the other.
-/

namespace Camel.Lib

open List

structure Block where
  addr : Nat
  size : Nat
  deriving DecidableEq

def Block.limit (b : Block) : Nat := b.addr + b.size

/-! ## Tilings -/

/-- The blocks tile the row from `x` to `y`; `a` and `b` say whether a free block ends at
    `x` and at `y`. Every free block has a size in `P`. -/
inductive Tiles (P : Nat → Prop) : Bool → Nat → List Block → List Block → Bool → Nat → Prop where
  | nil {a : Bool} {x : Nat} : Tiles P a x [] [] a x
  | free {x n y : Nat} {fs ls : List Block} {b : Bool} : P n → 0 < n →
      Tiles P true (x + n) fs ls b y → Tiles P false x (⟨x, n⟩ :: fs) ls b y
  | live {a : Bool} {x n y : Nat} {fs ls : List Block} {b : Bool} : 0 < n →
      Tiles P false (x + n) fs ls b y → Tiles P a x fs (⟨x, n⟩ :: ls) b y

variable {P : Nat → Prop} {a b c : Bool} {x y z : Nat} {fs ls fs' ls' : List Block}

theorem Tiles.le (h : Tiles P a x fs ls b y) : x ≤ y := by
  induction h with
  | nil => exact le_rfl
  | free _ _ _ ih => omega
  | live _ _ ih => omega

/-- Every block lies in the row. -/
theorem Tiles.bounds (h : Tiles P a x fs ls b y) :
    (∀ f ∈ fs, x ≤ f.addr ∧ f.limit ≤ y ∧ 0 < f.size ∧ P f.size) ∧
      ∀ l ∈ ls, x ≤ l.addr ∧ l.limit ≤ y ∧ 0 < l.size := by
  induction h with
  | nil => simp
  | free hP hn hrest ih =>
    have hle := hrest.le
    constructor
    · intro f hf
      rcases mem_cons.mp hf with rfl | hf
      · exact ⟨le_rfl, hle, hn, hP⟩
      · obtain ⟨h₁, h₂, h₃⟩ := ih.1 f hf
        exact ⟨by omega, h₂, h₃⟩
    · intro l hl
      obtain ⟨h₁, h₂, h₃⟩ := ih.2 l hl
      exact ⟨by omega, h₂, h₃⟩
  | live hn hrest ih =>
    have hle := hrest.le
    constructor
    · intro f hf
      obtain ⟨h₁, h₂, h₃⟩ := ih.1 f hf
      exact ⟨by omega, h₂, h₃⟩
    · intro l hl
      rcases mem_cons.mp hl with rfl | hl
      · exact ⟨le_rfl, hle, hn⟩
      · obtain ⟨h₁, h₂, h₃⟩ := ih.2 l hl
        exact ⟨by omega, h₂, h₃⟩

/-- Behind a free block comes a taken one, or nothing. -/
theorem Tiles.after_free (h : Tiles P true x fs ls b y) :
    (fs = [] ∧ ls = [] ∧ x = y) ∨
      ∃ n ls', ls = ⟨x, n⟩ :: ls' ∧ 0 < n ∧ Tiles P false (x + n) fs ls' b y := by
  cases h with
  | nil => exact .inl ⟨rfl, rfl, rfl⟩
  | live hn hrest => exact .inr ⟨_, _, rfl, hn, hrest⟩

/-- The free blocks do not touch, and the taken ones do not overlap. -/
theorem Tiles.sorted (h : Tiles P a x fs ls b y) :
    (fs.Pairwise fun f g => f.limit < g.addr) ∧ ls.Pairwise fun k l => k.limit ≤ l.addr := by
  induction h with
  | nil => simp
  | @free x n y fs ls b hP hn hrest ih =>
    refine ⟨pairwise_cons.mpr ⟨fun g hg => ?_, ih.1⟩, ih.2⟩
    rcases hrest.after_free with ⟨rfl, -, -⟩ | ⟨m, ls', -, hm, hrest'⟩
    · simp at hg
    · have := (hrest'.bounds.1 g hg).1
      simp only [Block.limit]
      omega
  | live hn hrest ih =>
    refine ⟨ih.1, pairwise_cons.mpr ⟨fun l hl => ?_, ih.2⟩⟩
    exact (hrest.bounds.2 l hl).1

theorem Tiles.ascending (h : Tiles P a x fs ls b y) : (ls.map Block.addr).Pairwise (· < ·) := by
  rw [pairwise_map]
  refine h.sorted.2.imp_of_mem fun hk _ hle => ?_
  have := (h.bounds.2 _ hk).2.2
  simp only [Block.limit] at hle
  omega

/-- The sizes add up to the row. -/
theorem Tiles.sum (h : Tiles P a x fs ls b y) :
    x + ((fs.map Block.size).sum + (ls.map Block.size).sum) = y := by
  induction h with
  | nil => simp
  | free _ _ _ ih =>
    simp only [map_cons, sum_cons] at ih ⊢
    omega
  | live _ _ ih =>
    simp only [map_cons, sum_cons] at ih ⊢
    omega

/-! ## Cutting and Joining -/

theorem Tiles.append (h : Tiles P a x fs ls b y) (h' : Tiles P b y fs' ls' c z) :
    Tiles P a x (fs ++ fs') (ls ++ ls') c z := by
  induction h with
  | nil => exact h'
  | free hP hn _ ih => exact .free hP hn (ih h')
  | live hn _ ih => exact .live hn (ih h')

/-- The row is cut at a free block. -/
theorem Tiles.cut_free {pre post : List Block} {f : Block}
    (h : Tiles P a x (pre ++ f :: post) ls b y) :
    ∃ ls₁ ls₂, ls = ls₁ ++ ls₂ ∧ Tiles P a x pre ls₁ false f.addr ∧ P f.size ∧ 0 < f.size ∧
      Tiles P true f.limit post ls₂ b y := by
  generalize hfs : pre ++ f :: post = fs at h
  induction h generalizing pre with
  | nil => simp at hfs
  | free hP hn hrest ih =>
    cases pre with
    | nil =>
      simp only [nil_append, cons.injEq] at hfs
      obtain ⟨rfl, rfl⟩ := hfs
      exact ⟨[], _, rfl, .nil, hP, hn, hrest⟩
    | cons g pre =>
      simp only [cons_append, cons.injEq] at hfs
      obtain ⟨rfl, hpost⟩ := hfs
      obtain ⟨ls₁, ls₂, rfl, h₁, h₂⟩ := ih hpost
      exact ⟨ls₁, ls₂, rfl, .free hP hn h₁, h₂⟩
  | live hn hrest ih =>
    obtain ⟨ls₁, ls₂, rfl, h₁, h₂⟩ := ih hfs
    exact ⟨_ :: ls₁, ls₂, rfl, .live hn h₁, h₂⟩

/-- The row is cut at a taken block. -/
theorem Tiles.cut_live {pre post : List Block} {l : Block}
    (h : Tiles P a x fs (pre ++ l :: post) b y) :
    ∃ fs₁ fs₂ e, fs = fs₁ ++ fs₂ ∧ Tiles P a x fs₁ pre e l.addr ∧ 0 < l.size ∧
      Tiles P false l.limit fs₂ post b y := by
  generalize hls : pre ++ l :: post = ls at h
  induction h generalizing pre with
  | nil => simp at hls
  | free hP hn hrest ih =>
    obtain ⟨fs₁, fs₂, e, rfl, h₁, h₂⟩ := ih hls
    exact ⟨_ :: fs₁, fs₂, e, rfl, .free hP hn h₁, h₂⟩
  | live hn hrest ih =>
    cases pre with
    | nil =>
      simp only [nil_append, cons.injEq] at hls
      obtain ⟨rfl, rfl⟩ := hls
      exact ⟨[], _, _, rfl, .nil, hn, hrest⟩
    | cons g pre =>
      simp only [cons_append, cons.injEq] at hls
      obtain ⟨rfl, hpost⟩ := hls
      obtain ⟨fs₁, fs₂, e, rfl, h₁, h₂⟩ := ih hpost
      exact ⟨fs₁, fs₂, e, rfl, .live hn h₁, h₂⟩

/-- A row that ends with a free block. -/
theorem Tiles.last_free (h : Tiles P false x fs ls true y) :
    ∃ fs' f, fs = fs' ++ [f] ∧ f.limit = y ∧ P f.size ∧ 0 < f.size ∧
      Tiles P false x fs' ls false f.addr := by
  -- the block that ends at `y` is in `fs`, or the row is empty and one ends at `x`
  have hgen : ∀ {a : Bool} {x : Nat} {fs ls : List Block} {b : Bool} {y : Nat},
      Tiles P a x fs ls b y → b = true → (a = true ∧ fs = [] ∧ ls = [] ∧ x = y) ∨
      ∃ fs' f, fs = fs' ++ [f] ∧ f.limit = y ∧ P f.size ∧ 0 < f.size ∧
        Tiles P a x fs' ls false f.addr := by
    intro a x fs ls b y h hb
    induction h with
    | nil => exact .inl ⟨hb, rfl, rfl, rfl⟩
    | free hP hn hrest ih =>
      rcases ih hb with ⟨-, rfl, rfl, rfl⟩ | ⟨fs', f, rfl, hlim, hPf, hf, h'⟩
      · exact .inr ⟨[], _, rfl, rfl, hP, hn, .nil⟩
      · exact .inr ⟨_ :: fs', f, rfl, hlim, hPf, hf, .free hP hn h'⟩
    | live hn hrest ih =>
      rcases ih hb with ⟨hfalse, -⟩ | ⟨fs', f, rfl, hlim, hPf, hf, h'⟩
      · cases hfalse
      · exact .inr ⟨fs', f, rfl, hlim, hPf, hf, .live hn h'⟩
  rcases hgen h rfl with ⟨hfalse, -⟩ | hex
  · cases hfalse
  · exact hex

/-- A row that does not begin with a free block may stand behind one. -/
theorem Tiles.first_free (h : Tiles P false x fs ls b y) :
    (∃ n fs', fs = ⟨x, n⟩ :: fs' ∧ P n ∧ 0 < n ∧ Tiles P true (x + n) fs' ls b y) ∨
      ((∀ f ∈ fs, x < f.addr) ∧ ∃ c, Tiles P true x fs ls c y) := by
  cases h with
  | nil => exact .inr ⟨by simp, true, .nil⟩
  | free hP hn hrest => exact .inl ⟨_, _, rfl, hP, hn, hrest⟩
  | live hn hrest =>
    refine .inr ⟨fun f hf => ?_, b, .live hn hrest⟩
    have := (hrest.bounds.1 f hf).1
    omega

/-- What stands behind a free block may stand behind a taken one. -/
theorem Tiles.behind_live (h : Tiles P true x fs ls b y) : ∃ c, Tiles P false x fs ls c y := by
  rcases h.after_free with ⟨rfl, rfl, rfl⟩ | ⟨n, ls', rfl, hn, hrest⟩
  · exact ⟨false, .nil⟩
  · exact ⟨b, .live hn hrest⟩

/-- A row whose end is not a free block has no free block there. -/
theorem Tiles.last_not_free (h : Tiles P a x fs ls false y) : ∀ f ∈ fs, f.limit < y := by
  generalize hb : false = b at h
  induction h with
  | nil => simp
  | free hP hn hrest ih =>
    intro f hf
    rcases mem_cons.mp hf with rfl | hf
    · rcases hrest.after_free with ⟨rfl, rfl, rfl⟩ | ⟨m, ls', rfl, hm, hrest'⟩
      · cases hrest
        cases hb
      · have := hrest'.le
        simp only [Block.limit]
        omega
    · exact ih hb f hf
  | live hn hrest ih => exact ih hb

/-! ## The Taken Blocks Determine the Free Ones -/

theorem Tiles.unique {c' : Bool} {fs' : List Block} (h : Tiles P a x fs ls c z)
    (h' : Tiles P a x fs' ls c' z) : fs = fs' := by
  induction h generalizing fs' with
  | nil =>
    cases h' with
    | nil => rfl
    | free hP hn hrest =>
      have := hrest.le
      omega
  | @free x n z fs ls c hP hn hrest ih =>
    cases h' with
    | nil =>
      have := hrest.le
      omega
    | @free _ n' _ fs' _ _ hP' hn' hrest' =>
      -- a free block ends where the next taken one begins
      have hsize : n = n' := by
        rcases hrest.after_free with ⟨-, rfl, hz⟩ | ⟨m, ls', rfl, hm, -⟩
        · rcases hrest'.after_free with ⟨-, -, hz'⟩ | ⟨m', ls', heq, -, -⟩
          · omega
          · cases heq
        · rcases hrest'.after_free with ⟨-, heq, -⟩ | ⟨m', ls'', heq, -, -⟩
          · cases heq
          · simp only [cons.injEq, Block.mk.injEq] at heq
            omega
      subst hsize
      rw [ih hrest']
    | live hn' hrest' =>
      rcases hrest.after_free with ⟨-, heq, -⟩ | ⟨m', ls', heq, -, -⟩
      · cases heq
      · simp only [cons.injEq, Block.mk.injEq] at heq
        omega
  | @live a x n z fs ls c hn hrest ih =>
    cases h' with
    | free hP' hn' hrest' =>
      rcases hrest'.after_free with ⟨-, heq, -⟩ | ⟨m', ls', heq, -, -⟩
      · cases heq
      · simp only [cons.injEq, Block.mk.injEq] at heq
        omega
    | live hn' hrest' => exact ih hrest'

end Camel.Lib
