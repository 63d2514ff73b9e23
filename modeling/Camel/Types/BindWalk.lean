import Camel.Types.BindExact

/-! # The Walk Finds What Makes the Actual Type

    Where `bindTypeVars` answers that the forms agree, each part of the pattern with its bindings
    is the part of the actual type at the same place.
-/

namespace Camel.Types

open Matching List Option

variable {table : TypeTable}

/-! ## Lists -/

/-- Where the walk answers that the forms agree and no variable of the pattern is bound yet, the
    bindings make the actual type of the pattern. -/
def Walk.Exact (table : TypeTable) (walk : Walk) : Prop :=
  ∀ p a β β', walk p a β = some (true, β') → a.writtenOut = true → (typeVars p).Nodup →
    (∀ n ∈ typeVars p, β.lookup n = none) → SameOutside table p a →
    Found (varOccurrences p) β β' fun σ => Yields table σ p a

variable {p a : Ty} {name : String} {xs ys : List Ty} {β β' : TypeBindings}

theorem Found.of_mem {occ occ' : List (String × Bool)}
    {result : TypeBindings → Prop} (h : Found occ β β' result) (hmem : ∀ o, o ∈ occ ↔ o ∈ occ') :
    Found occ' β β' result := by
  constructor
  · intro n hn
    apply (h.names n hn).imp_right
    intro hmemn
    obtain ⟨o, ho, rfl⟩ := mem_map.1 hmemn
    exact mem_map.2 ⟨o, (hmem o).1 ho, rfl⟩
  · intro hbound
    apply h.yields
    intro n hn
    obtain ⟨o, ho, rfl⟩ := mem_map.1 hn
    obtain ⟨ho, hbinder⟩ := mem_filter.1 ho
    exact hbound _ (mem_map.2 ⟨o, mem_filter.2 ⟨(hmem o).1 ho, hbinder⟩, rfl⟩)

theorem varOccurrencesAll_append (xs ys : List Ty) :
    varOccurrencesAll (xs ++ ys) = varOccurrencesAll xs ++ varOccurrencesAll ys := by
  induction xs with
  | nil => rfl
  | cons x xs ih => rw [cons_append, varOccurrencesAll, ih, varOccurrencesAll, append_assoc]

theorem eachOutside_append {gs hs : List (Option Ty)}
    (hlength : xs.length = gs.length) (h : eachOutside table (xs ++ ys) (gs ++ hs)) :
    eachOutside table xs gs ∧ eachOutside table ys hs := by
  induction xs generalizing gs with
  | nil =>
    obtain rfl := length_eq_zero_iff.1 hlength.symm
    exact ⟨by rw [eachOutside]; trivial, h⟩
  | cons x xs ih =>
    cases gs with
    | nil => cases hlength
    | cons g gs =>
      cases g with
      | none =>
        rw [cons_append, cons_append, eachOutside] at h
        obtain ⟨hxs, hys⟩ := ih (Nat.succ.inj hlength) h.2
        exact ⟨by rw [eachOutside]; exact ⟨h.1, hxs⟩, hys⟩
      | some given =>
        rw [cons_append, cons_append, eachOutside] at h
        obtain ⟨hxs, hys⟩ := ih (Nat.succ.inj hlength) h.2
        exact ⟨by rw [eachOutside]; exact ⟨h.1, hxs⟩, hys⟩

section Lists

variable {walk : Walk} (hgrows : walk.Grows) (hexact : walk.Exact table)
include hgrows hexact

/-- Pairs in turn: each pattern makes what it is paired with. -/
theorem bindInTurn_found {ps as : List Ty} (hlength : ps.length = as.length)
    (h : bindInTurn walk (ps.zip as) β = some (true, β')) (hout : allWrittenOut as = true)
    (hnodup : ((varOccurrencesAll ps).map Prod.fst).Nodup)
    (hfree : ∀ n ∈ (varOccurrencesAll ps).map Prod.fst, β.lookup n = none)
    (houtside : eachOutside table ps (as.map some)) :
    Found (varOccurrencesAll ps) β β' fun σ => Forall₂ (Yields table σ) ps as := by
  induction ps generalizing as β with
  | nil =>
    obtain rfl := length_eq_zero_iff.1 hlength.symm
    obtain ⟨-, rfl⟩ := Prod.mk.inj (some.inj h)
    exact Found.nothing _ β fun _ _ => .nil
  | cons p ps ih =>
    cases as with
    | nil => cases hlength
    | cons a as =>
      rw [allWrittenOut, Bool.and_eq_true] at hout
      rw [map_cons, eachOutside] at houtside
      rw [varOccurrencesAll] at hnodup hfree ⊢
      obtain ⟨⟨ok, β₁⟩, hfirst, hrest⟩ := bind_eq_some_iff.1 h
      cases ok with
      | false => cases hrest
      | true =>
        have hnodup₁ : (typeVars p).Nodup := by
          rw [map_append] at hnodup
          exact hnodup.of_append_left
        have hnodup₂ : ((varOccurrencesAll ps).map Prod.fst).Nodup := by
          rw [map_append] at hnodup
          exact hnodup.of_append_right
        rw [map_append] at hfree
        have hfound := hexact p a β β₁ hfirst hout.1 hnodup₁
          (fun n hn => hfree n (mem_append.2 (.inl hn))) houtside.1
        have hfree₂ := hfound.fresh hnodup fun n hn => hfree n (mem_append.2 (.inr hn))
        have hfound₂ := ih (Nat.succ.inj hlength) hrest hout.2 hnodup₂ hfree₂ houtside.2
        have hboth := hfound.append hfound₂ (bindInTurn_grows hgrows hrest).extends hnodup
        exact hboth.imp fun σ hσ => .cons hσ.1 hσ.2

omit hgrows hexact in
/-- Where every pair agrees, the pairs in turn do. -/
theorem bindInTurn_of_bindEvery {pairs : List (Ty × Ty)}
    (h : bindEvery walk pairs β = some (true, β')) : bindInTurn walk pairs β = some (true, β') := by
  induction pairs generalizing β with
  | nil => exact h
  | cons pair pairs ih =>
    obtain ⟨⟨ok, β₁⟩, hfirst, hrest⟩ := bind_eq_some_iff.1 h
    obtain ⟨⟨oks, β₂⟩, hothers, hlast⟩ := bind_eq_some_iff.1 hrest
    obtain ⟨hok, rfl⟩ := Prod.mk.inj (some.inj hlast)
    rw [Bool.and_eq_true] at hok
    obtain ⟨rfl, rfl⟩ := hok
    show (walk pair.1 pair.2 β).bind _ = _
    rw [hfirst]
    exact ih hothers

/-! ## Fields Found by Name -/

omit hgrows hexact in
theorem lookup_zip {names : List String} {fields : List Ty} (hnodup : names.Nodup)
    {field : Ty} (h : (name, field) ∈ names.zip fields) :
    (names.zip fields).lookup name = some field := by
  induction names generalizing fields with
  | nil => cases h
  | cons n names ih =>
    cases fields with
    | nil => cases h
    | cons f fields =>
      rw [nodup_cons] at hnodup
      rw [zip_cons_cons, lookup_cons]
      rw [zip_cons_cons, mem_cons] at h
      rcases h with heq | h
      · cases heq
        rw [beq_self_eq_true]
      · have hne : name ≠ n := by
          rintro rfl
          exact hnodup.1 (of_mem_zip h).1
        rw [beq_false_of_ne hne]
        exact ih hnodup.2 h

omit hgrows hexact in
/-- Where the fields have the same names in the same order they are walked in pairs. -/
theorem bindFields_eq {all : List (String × Ty)} {names : List String} {wants fields : List Ty}
    (hwants : wants.length = names.length) (hfields : fields.length = names.length)
    (hall : ∀ entry ∈ names.zip fields, all.lookup entry.1 = some entry.2) (β : TypeBindings) :
    bindFields walk all (names.zip wants) β = bindInTurn walk (wants.zip fields) β := by
  induction names generalizing wants fields β with
  | nil =>
    obtain rfl := length_eq_zero_iff.1 hwants
    rfl
  | cons n names ih =>
    cases wants with
    | nil => cases hwants
    | cons w wants =>
      cases fields with
      | nil => cases hfields
      | cons f fields =>
        have hn : all.lookup n = some f := hall (n, f) (.head _)
        have hrest := ih (Nat.succ.inj hwants) (Nat.succ.inj hfields)
          fun entry hentry => hall entry (.tail _ hentry)
        rw [zip_cons_cons, zip_cons_cons, bindFields, hn]
        show (walk w f β).bind _ = (walk w f β).bind _
        congr 1
        funext p
        dsimp only
        rw [hrest]

/-! ## Lists of Parameters -/

omit hgrows hexact in
theorem found_bindPack {β : TypeBindings} (h : β.lookup name = none)
    (members : List Ty) (binder : Bool) (others : List (String × Bool)) :
    Found ((name, binder) :: others) β (bindPack name members β) fun σ =>
      σ.lookup name = some (makePack members) := by
  have hbound : bindPack name members β = β ++ [(name, makePack members)] := by
    rw [bindPack, h]
    rfl
  rw [hbound]
  constructor
  · intro n hn
    by_cases heq : n = name
    · exact .inr (heq ▸ .head _)
    · rw [lookup_append_other heq] at hn
      exact .inl hn
  · intro _ σ hσ
    exact hσ name _ (lookup_append_fresh h _)

omit hgrows hexact in
/-- What is given between the parameters before and after. -/
theorem given_split {given : List Ty} {b a : Nat} (h : b + a ≤ given.length) :
    given.take b ++ (given.take (given.length - a)).drop b ++ given.drop (given.length - a) = given := by
  have htake : given.take b = (given.take (given.length - a)).take b := by
    rw [take_take, Nat.min_eq_left (by omega)]
  rw [htake, take_append_drop, take_append_drop]

omit hgrows hexact in
theorem allWrittenOut_append :
    allWrittenOut (xs ++ ys) = true ↔ allWrittenOut xs = true ∧ allWrittenOut ys = true := by
  simp only [allWrittenOut_iff, mem_append]
  exact ⟨fun h => ⟨fun t ht => h t (.inl ht), fun t ht => h t (.inr ht)⟩,
    fun h t ht => ht.elim (h.1 t) (h.2 t)⟩

omit hgrows hexact in
theorem allSettle_append (hxs : allSettle xs = true) (hys : allSettle ys = true) :
    allSettle (xs ++ ys) = true := by
  induction xs with
  | nil => exact hys
  | cons x xs ih =>
    rw [allSettle, Bool.and_eq_true] at hxs
    rw [cons_append, allSettle, hxs.1, ih hxs.2]
    rfl

/-- A list of parameters that agree, with a pack or without. -/
theorem matchParameterList_found {want given : List Ty}
    (h : matchParameterList walk want given β = some (true, β')) (hout : allWrittenOut given = true)
    (hnodup : ((varOccurrencesAll want).map Prod.fst).Nodup)
    (hfree : ∀ n ∈ (varOccurrencesAll want).map Prod.fst, β.lookup n = none)
    (houtside : eachOutside table want (aligned want given)) :
    Found (varOccurrencesAll want) β β' fun σ =>
      allSettle want = true ∧ ParamsYield table σ want given := by
  unfold matchParameterList at h
  unfold aligned at houtside
  cases hsplit : splitPack want with
  | none =>
    rw [hsplit] at h houtside
    dsimp only at h houtside
    split at h
    · cases h
    · next hlength =>
      have hturn := bindInTurn_of_bindEvery h
      have hfound := bindInTurn_found hgrows hexact (not_not.1 hlength) hturn hout hnodup hfree houtside
      exact hfound.imp fun σ hσ => ⟨(ones_of_yields hσ).1, .each hsplit hσ⟩
  | some parts =>
    obtain ⟨before, name, after⟩ := parts
    rw [hsplit] at h houtside
    dsimp only at h houtside
    split at h
    · cases h
    · next hcount =>
      obtain ⟨⟨ok₁, β₁⟩, h₁, hrest⟩ := bind_eq_some_iff.1 h
      obtain ⟨⟨ok₂, β₂⟩, h₂, hlast⟩ := bind_eq_some_iff.1 hrest
      obtain ⟨hok, rfl⟩ := Prod.mk.inj (some.inj hlast)
      rw [Bool.and_eq_true] at hok
      obtain ⟨rfl, rfl⟩ := hok
      obtain ⟨binder, others, rfl⟩ := splitPack_some hsplit
      have hle : before.length + after.length ≤ given.length := Nat.le_of_not_lt hcount
      have hgiven := given_split hle
      -- the parts of what is given
      have hlength₁ : before.length = (given.take before.length).length := by
        rw [length_take, Nat.min_eq_left (by omega)]
      have hlength₂ : after.length = (given.drop (given.length - after.length)).length := by
        rw [length_drop]
        omega
      rw [← hgiven, allWrittenOut_append, allWrittenOut_append] at hout
      have heach := eachOutside_append (by rwa [length_map]) houtside
      rw [eachOutside] at heach
      -- the variables of the parts
      have hmem : ∀ o, o ∈ (varOccurrencesAll before ++ varOccurrencesAll after) ++
            (name, binder) :: varOccurrencesAll others ↔
          o ∈ varOccurrencesAll (before ++ .call kExpandName (.var name binder :: others) :: after) := by
        intro o
        rw [varOccurrencesAll_append, varOccurrencesAll, varOccurrences, varOccurrencesAll,
          varOccurrences]
        simp only [mem_append, mem_cons, singleton_append]
        tauto
      have hnodup' : (((varOccurrencesAll before ++ varOccurrencesAll after) ++
          (name, binder) :: varOccurrencesAll others).map Prod.fst).Nodup := by
        rw [varOccurrencesAll_append, varOccurrencesAll, varOccurrences, varOccurrencesAll,
          varOccurrences, singleton_append] at hnodup
        apply (Perm.map Prod.fst ?_).nodup_iff.1 hnodup
        rw [append_assoc]
        exact Perm.append_left _ perm_append_comm
      have hfree' : ∀ o ∈ (varOccurrencesAll before ++ varOccurrencesAll after) ++
          (name, binder) :: varOccurrencesAll others, β.lookup o.1 = none :=
        fun o ho => hfree o.1 (mem_map.2 ⟨o, (hmem o).1 ho, rfl⟩)
      have hpairs := hnodup'
      rw [map_append] at hpairs
      have hpairs := hpairs.of_append_left
      -- the parameters before, those after, and the pack
      rw [← zip_take] at h₁
      have hfound₁ := bindInTurn_found hgrows hexact hlength₁ (bindInTurn_of_bindEvery h₁) hout.1.1
        (by rw [map_append] at hpairs; exact hpairs.of_append_left)
        (by
          intro n hn
          obtain ⟨o, ho, rfl⟩ := mem_map.1 hn
          exact hfree' o (mem_append_left _ (mem_append_left _ ho))) heach.1
      have hfree₁ := hfound₁.fresh hpairs (by
          intro n hn
          obtain ⟨o, ho, rfl⟩ := mem_map.1 hn
          exact hfree' o (mem_append_left _ (mem_append_right _ ho)))
      have hfound₂ := bindInTurn_found hgrows hexact hlength₂ (bindInTurn_of_bindEvery h₂) hout.2
        (by rw [map_append] at hpairs; exact hpairs.of_append_right) hfree₁ heach.2.2
      have hboth := hfound₁.append hfound₂ (bindEvery_grows hgrows h₂).extends hpairs
      have hfree₂ := hboth.fresh hnodup' (by
          intro n hn
          obtain ⟨o, ho, rfl⟩ := mem_map.1 hn
          exact hfree' o (mem_append_right _ ho))
      have hpack := found_bindPack (hfree₂ name (.head _))
        ((given.take (given.length - after.length)).drop before.length) binder
        (varOccurrencesAll others)
      have hall := hboth.append hpack (grows_bindPack name _ β₂).extends hnodup'
      apply (hall.of_mem hmem).imp
      intro σ hσ
      have hrests : allSettle (.call kExpandName (.var name binder :: others) :: after) = true := by
        rw [allSettle, heach.2.1, (ones_of_yields hσ.1.2).1]
        rfl
      have hsettles := allSettle_append (ones_of_yields hσ.1.1).1 hrests
      have hyield : ParamsYield table σ _ _ := .pack hsplit hσ.1.1 hσ.1.2 hσ.2
      rw [hgiven] at hyield
      exact ⟨hsettles, hyield⟩

omit hgrows in
/-- The results of two function types that agree. -/
theorem bindExit_found {want given : Option Ty}
    (h : bindExit walk want given β = some (true, β')) (hout : exitWrittenOut given = true)
    (hnodup : ((varOccurrencesExit want).map Prod.fst).Nodup)
    (hfree : ∀ n ∈ (varOccurrencesExit want).map Prod.fst, β.lookup n = none)
    (houtside : exitOutside table want given) :
    Found (varOccurrencesExit want) β β' fun σ => ExitYields table σ want given := by
  cases want with
  | none =>
    cases given with
    | none =>
      obtain ⟨-, rfl⟩ := Prod.mk.inj (some.inj h)
      exact Found.nothing _ β fun _ _ => trivial
    | some given =>
      rw [exitOutside] at houtside
      · cases houtside
      all_goals exact nofun
  | some want =>
    cases given with
    | none =>
      rw [exitOutside] at houtside
      · cases houtside
      all_goals exact nofun
    | some given =>
      rw [exitOutside] at houtside
      exact hexact want given β β' h hout hnodup hfree houtside

/-! ## Forms -/

/-- The arguments of module types that agree. A bare name binds nothing. -/
theorem bindOther_found {ps as : List Ty}
    (hbinds : ((varOccurrencesAll ps).filter Prod.snd).map Prod.fst ≠ [])
    (h : (if ps = [] then some (true, β)
      else if as = [] then some (true, β)
      else if as.length ≠ ps.length then some (false, β)
      else bindInTurn walk (ps.zip as) β) = some (true, β'))
    (hout : allWrittenOut as = true) (hnodup : ((varOccurrencesAll ps).map Prod.fst).Nodup)
    (hfree : ∀ n ∈ (varOccurrencesAll ps).map Prod.fst, β.lookup n = none)
    (houtside : eachOutside table ps (as.map some)) :
    Found (varOccurrencesAll ps) β β' fun σ => Forall₂ (Yields table σ) ps as := by
  split at h
  · next hnone =>
    rw [hnone] at hbinds
    exact absurd rfl hbinds
  · split at h
    · obtain ⟨-, rfl⟩ := Prod.mk.inj (some.inj h)
      constructor
      · exact fun n hn => .inl hn
      · intro hbound σ _
        obtain ⟨n, hn⟩ := exists_mem_of_ne_nil _ hbinds
        have hmem : n ∈ (varOccurrencesAll ps).map Prod.fst := by
          obtain ⟨o, ho, rfl⟩ := mem_map.1 hn
          exact mem_map.2 ⟨o, mem_of_mem_filter ho, rfl⟩
        have hsome := hbound n hn
        rw [hfree n hmem] at hsome
        cases hsome
    · split at h
      · cases h
      · next hlength =>
        exact bindInTurn_found hgrows hexact (not_not.1 hlength).symm h hout hnodup hfree houtside

variable (decls : Declarations)

/-- The parts of two function types: their parameters, and then their results. -/
theorem bindFunc_found {signature signature' : Signature}
    {withTypes normTypes withTypes' normTypes' : List Ty} {exit exit' : Option Ty}
    (hbinds : bindableTypeVars (.func signature withTypes normTypes exit) ≠ [])
    (h : bindParts decls walk (.func signature withTypes normTypes exit)
      (.func signature' withTypes' normTypes' exit') β = some (true, β'))
    (hout : (Ty.func signature' withTypes' normTypes' exit').writtenOut = true)
    (hnodup : (typeVars (.func signature withTypes normTypes exit)).Nodup)
    (hfree : ∀ n ∈ typeVars (.func signature withTypes normTypes exit), β.lookup n = none)
    (houtside : SameOutside table (.func signature withTypes normTypes exit)
      (.func signature' withTypes' normTypes' exit')) :
    Found (varOccurrences (.func signature withTypes normTypes exit)) β β' fun σ =>
      Yields table σ (.func signature withTypes normTypes exit)
        (.func signature' withTypes' normTypes' exit') := by
  obtain ⟨hmarks, hwith, hnorm, hexit⟩ := houtside.2 hbinds
  rw [Ty.writtenOut, Bool.and_eq_true, Bool.and_eq_true] at hout
  unfold typeVars at hnodup hfree
  rw [varOccurrences] at hnodup hfree ⊢
  have hpairs := hnodup
  rw [map_append] at hpairs
  have hfirst := hpairs.of_append_left
  have hfree' : ∀ o ∈ varOccurrencesAll withTypes ++ varOccurrencesAll normTypes ++
      varOccurrencesExit exit, β.lookup o.1 = none :=
    fun o ho => hfree o.1 (mem_map.2 ⟨o, ho, rfl⟩)
  obtain ⟨⟨ok₁, β₁⟩, h₁, hrest⟩ := bind_eq_some_iff.1 h
  cases ok₁ with
  | false => cases hrest
  | true =>
    obtain ⟨⟨ok₂, β₂⟩, h₂, hlast⟩ := bind_eq_some_iff.1 hrest
    cases ok₂ with
    | false => cases hlast
    | true =>
      have hfound₁ := matchParameterList_found hgrows hexact h₁ hout.1.1
        (by rw [map_append] at hfirst; exact hfirst.of_append_left)
        (by
          intro n hn
          obtain ⟨o, ho, rfl⟩ := mem_map.1 hn
          exact hfree' o (mem_append_left _ (mem_append_left _ ho))) hwith
      have hfree₁ := hfound₁.fresh hfirst (by
          intro n hn
          obtain ⟨o, ho, rfl⟩ := mem_map.1 hn
          exact hfree' o (mem_append_left _ (mem_append_right _ ho)))
      have hfound₂ := matchParameterList_found hgrows hexact h₂ hout.1.2
        (by rw [map_append] at hfirst; exact hfirst.of_append_right) hfree₁ hnorm
      have hboth := hfound₁.append hfound₂ (matchParameterList_grows hgrows h₂).extends hfirst
      have hfree₂ := hboth.fresh hnodup (by
          intro n hn
          obtain ⟨o, ho, rfl⟩ := mem_map.1 hn
          exact hfree' o (mem_append_right _ ho))
      have hfound₃ := bindExit_found hexact hlast hout.2 hpairs.of_append_right hfree₂ hexit
      have hall := hboth.append hfound₃ (bindExit_grows hgrows hlast).extends hnodup
      exact hall.imp fun σ hσ => yields_func hmarks hσ.1.1.2 hσ.1.2.2
        ⟨hσ.1.1.1, hσ.1.2.1⟩ hσ.2

/-- The parts of two types of one form that agree. -/
theorem bindParts_found (hcode : p.code = a.code)
    (hbinds : bindableTypeVars p ≠ []) (hvar : p.code ≠ .var)
    (h : bindParts decls walk p a β = some (true, β')) (hout : a.writtenOut = true)
    (hnodup : (typeVars p).Nodup) (hfree : ∀ n ∈ typeVars p, β.lookup n = none)
    (houtside : SameOutside table p a) :
    Found (varOccurrences p) β β' fun σ => Yields table σ p a := by
  cases p with
  | leaf code => exact absurd rfl hbinds
  | var name binder => exact absurd rfl hvar
  | array elem extents rank =>
    cases a with
    | array elem' extents' rank' =>
      obtain ⟨hextents, hrank, helem⟩ := houtside.2 hbinds
      have hfound := hexact elem elem' β β' h hout hnodup hfree helem
      exact hfound.imp fun σ hσ => yields_array hσ hextents hrank
    | _ => cases hcode
  | stream elem =>
    cases a with
    | stream elem' =>
      have hfound := hexact elem elem' β β' h hout hnodup hfree (houtside.2 hbinds)
      exact hfound.imp fun σ hσ => yields_stream hσ
    | _ => cases hcode
  | tuple members =>
    cases a with
    | tuple members' =>
      rw [bindParts] at h
      split at h
      · cases h
      · next hlength =>
        have hfound := bindInTurn_found hgrows hexact (not_not.1 hlength) h hout hnodup hfree
          (houtside.2 hbinds)
        exact hfound.imp fun σ hσ => yields_tuple hσ
    | tagged kind payload => cases h
    | _ => cases hcode
  | tagged kind payload =>
    cases a with
    | tagged kind' payload' =>
      rw [bindParts] at h
      split at h
      · cases h
      · next hkind =>
        obtain rfl := not_not.1 hkind
        obtain ⟨⟨ok, β₁⟩, hfirst, hrest⟩ := bind_eq_some_iff.1 h
        cases ok with
        | false => cases hrest
        | true =>
          obtain ⟨-, rfl⟩ := Prod.mk.inj (some.inj hrest)
          have hfound := hexact payload payload' β β₁ hfirst hout hnodup hfree (houtside.2 hbinds)
          exact hfound.imp fun σ hσ => yields_tagged hσ kind
    | tuple members => cases h
    | _ => cases hcode
  | named decl args =>
    cases a with
    | named decl' args' =>
      rw [bindParts] at h
      split at h
      · cases h
      · next hsame =>
        rw [not_or, not_not, not_not] at hsame
        obtain ⟨rfl, hlength⟩ := hsame
        have hfound := bindInTurn_found hgrows hexact hlength h hout hnodup hfree
          (houtside.2 hbinds)
        exact hfound.imp fun σ hσ => yields_named hσ decl
    | record names fields =>
      exact (houtside.2 hbinds).elim
    | _ => cases hcode
  | record names fields =>
    cases a with
    | named decl args =>
      exact (houtside.2 hbinds).elim
    | record names' fields' =>
      obtain ⟨rfl, hnames, hlength, hlength', heach⟩ := houtside.2 hbinds
      rw [bindParts] at h
      have hturn : bindFields walk (names.zip fields') (names.zip fields) β =
          bindInTurn walk (fields.zip fields') β :=
        bindFields_eq hlength hlength' (fun entry hentry => lookup_zip hnames hentry) β
      have hfound := bindInTurn_found hgrows hexact (hlength.trans hlength'.symm) (hturn ▸ h) hout
        hnodup hfree heach
      exact hfound.imp fun σ hσ => yields_record hσ names
    | _ => cases hcode
  | func signature withTypes normTypes exit =>
    cases a with
    | func signature' withTypes' normTypes' exit' =>
      exact bindFunc_found hgrows hexact decls hbinds h hout hnodup hfree houtside
    | _ => cases hcode
  | app code params =>
    cases a with
    | app code' params' =>
      obtain rfl := Form.app.inj hcode
      have hfound := bindOther_found hgrows hexact hbinds h hout hnodup hfree (houtside.2 hbinds)
      exact hfound.imp fun σ hσ => yields_app hσ code
    | _ => cases hcode
  | call name params =>
    cases a with
    | call name' params' =>
      obtain ⟨rfl, hdots, hkept, heach⟩ := houtside.2 hbinds
      rw [Ty.writtenOut, Bool.and_eq_true] at hout
      have hfound := bindOther_found hgrows hexact hbinds h hout.2 hnodup hfree heach
      exact hfound.imp fun σ hσ => yields_call hσ hdots hkept
    | _ => cases hcode
  | matchType subject arms =>
    cases a with
    | matchType subject' arms' => cases hout
    | _ => cases hcode

end Lists

/-! ## The Source -/

/-- A pattern that binds nothing holds what it is the same type as. -/
theorem sameType_of_bindsNothing (h : SameOutside table p a)
    (hbinds : bindableTypeVars p = []) : SameType table p a := by
  cases p with
  | leaf code =>
    exact h
  | _ =>
    exact h.1 hbinds

theorem bindForm_found {walk : Walk} (hgrows : walk.Grows) (hexact : walk.Exact table)
    (decls : Declarations) (hvar : p.code ≠ .var)
    (h : bindForm decls walk p a β = some (true, β')) (hout : a.writtenOut = true)
    (hnodup : (typeVars p).Nodup) (hfree : ∀ n ∈ typeVars p, β.lookup n = none)
    (houtside : SameOutside table p a) :
    Found (varOccurrences p) β β' fun σ => Yields table σ p a := by
  unfold bindForm at h
  split at h
  · next hall =>
    -- no variable is bound yet, so there is none to bind
    obtain ⟨-, rfl⟩ := Prod.mk.inj (some.inj h)
    have hnothing : bindableTypeVars p = [] := by
      rw [eq_nil_iff_forall_not_mem]
      intro n hn
      obtain ⟨o, ho, rfl⟩ := mem_map.1 hn
      have hsome := all_eq_true.1 hall o.1 hn
      rw [hfree o.1 (mem_map.2 ⟨o, mem_of_mem_filter ho, rfl⟩)] at hsome
      cases hsome
    have hsame := sameType_of_bindsNothing houtside hnothing
    exact Found.nothing _ β fun σ _ => yields_of_sameType hsame hout σ
  · next hall =>
    have hbinds : bindableTypeVars p ≠ [] := fun hnil => hall (by rw [hnil]; rfl)
    split at h
    · next hcode =>
      split at h
      · next zero hzero =>
        -- an open rank takes a type that is no array only where the shapes may differ
        cases p with
        | array elem extents rank =>
          have hparts := houtside.2 hbinds
          cases a with
          | array elem' extents' rank' => exact absurd rfl hcode
          | _ => exact hparts.elim
        | _ => cases hzero
      · cases h
    · next hcode =>
      exact bindParts_found hgrows hexact decls (not_not.1 hcode) hbinds hvar h hout hnodup hfree
        houtside

theorem bindVar_found (decls : Declarations) {binder : Bool} {a : Ty}
    {β : TypeBindings} (hfree : β.lookup name = none) (hout : a.writtenOut = true)
    (houtside : SameOutside table (.var name binder) a) :
    Found (varOccurrences (.var name binder)) β (bindVar decls name binder a β) fun σ =>
      Yields table σ (.var name binder) a := by
  unfold bindVar
  split
  · constructor
    · intro n hn
      by_cases heq : n = name
      · exact .inr (heq ▸ .head _)
      · rw [lookup_append_other heq] at hn
        exact .inl hn
    · exact fun _ σ hσ => yields_var (hσ name a (lookup_append_fresh hfree a)) binder
  · constructor
    · exact fun n hn => .inl hn
    · intro hbound σ _
      cases binder with
      | true =>
        have hsome := hbound name (.head _)
        rw [hfree] at hsome
        cases hsome
      | false => exact yields_of_sameType (sameType_of_bindsNothing houtside rfl) hout σ

theorem bindTypeVars_exact (decls : Declarations) (fuel : Nat) :
    (bindTypeVars decls fuel).Exact table := by
  induction fuel with
  | zero =>
    intro p a β β' h
    rw [bindTypeVars] at h
    cases h
  | succ fuel ih =>
    intro p a β β' h hout hnodup hfree houtside
    have hgrows := bindTypeVars_grows decls fuel
    cases p with
    | var name binder =>
      obtain ⟨-, rfl⟩ := Prod.mk.inj (some.inj h)
      exact bindVar_found decls (hfree name (.head _)) hout houtside
    | _ => exact bindForm_found hgrows ih decls (by simp [Ty.code]) h hout hnodup hfree houtside

/-- The walk only adds bindings, also where it answers that the forms do not agree. Where it answers
    that they do and has bound all that the pattern binds, each variable standing once, the bindings
    make the actual type of the pattern, as far as what the walk does not look at is the same. -/
theorem bindTypeVars_right (decls : Declarations) (fuel depth : Nat) {pattern actual : Ty}
    (hclosed : actual.writtenOut = true) :
    (∀ before answer bindings,
      bindTypeVars decls fuel pattern actual before = some (answer, bindings) →
        Grows before bindings ∧
        ∀ name type, before.lookup name = some type → bindings.lookup name = some type) ∧
    ∀ bindings, bindTypeVars decls fuel pattern actual [] = some (true, bindings) →
      (∀ name ∈ bindableTypeVars pattern, (bindings.lookup name).isSome = true) →
      (typeVars pattern).Nodup → SameOutside table pattern actual →
      ∃ type, substituteTypeVars table (depth + 1) pattern bindings none = some (type, none) ∧
        SameType table type actual := by
  constructor
  · intro before answer bindings h
    have hgrows := bindTypeVars_grows decls fuel _ _ _ _ _ h
    exact ⟨hgrows, hgrows.extends⟩
  · intro bindings h hbound hnodup houtside
    have hfound := bindTypeVars_exact decls fuel pattern actual [] bindings h hclosed hnodup
      (fun _ _ => rfl) houtside
    obtain ⟨hsettles, -, type, hput, hsame⟩ := hfound.yields hbound bindings (Extends.refl bindings)
    by_cases hnil : bindings = []
    · -- nothing was there to bind
      have hnothing : bindableTypeVars pattern = [] := by
        rw [eq_nil_iff_forall_not_mem]
        intro n hn
        have hsome := hbound n hn
        rw [hnil] at hsome
        cases hsome
      refine ⟨pattern, ?_, sameType_of_bindsNothing houtside hnothing⟩
      rw [substituteTypeVars, if_pos hnil]
      rfl
    · refine ⟨type, ?_, hsame⟩
      rw [substituteTypeVars_settles table hsettles depth hnil, hput]
      rfl

/-- No declared struct, and no handle into a program. -/
def noDeclarations : Declarations where
  fieldsOf _ _ := []
  determinesTypeParameters _ := true

/-- A function type whose parameters have no names. -/
def unnamedParams (count : Nat) : Signature where
  withNames := []
  withRoles := []
  normNames := []
  normRoles := List.replicate count (.plain false false)
  hasNames := false
  resources := none

/-- `(A, ..P, B) => (C, int)` against `(int, string, bool, float) => (string, int)`. -/
theorem bindTypeVars_right_pack :
    ∃ type,
      substituteTypeVars bareTable 1
          (.func (unnamedParams 3) [] [.var "A" true, makeExpand (.var "P" true), .var "B" true]
            (some (.tuple [.var "C" true, .leaf .int32])))
          [("A", .leaf .int32), ("B", .leaf .float32),
            ("P", makePack [.leaf .string, .leaf .bool]), ("C", .leaf .string)] none =
        some (type, none) ∧
      SameType bareTable type
        (.func (unnamedParams 4) []
          [.leaf .int32, .leaf .string, .leaf .bool, .leaf .float32]
          (some (.tuple [.leaf .string, .leaf .int32]))) := by
  have houtside : SameOutside bareTable
      (.func (unnamedParams 3) [] [.var "A" true, makeExpand (.var "P" true), .var "B" true]
        (some (.tuple [.var "C" true, .leaf .int32])))
      (.func (unnamedParams 4) [] [.leaf .int32, .leaf .string, .leaf .bool, .leaf .float32]
        (some (.tuple [.leaf .string, .leaf .int32]))) := by
    have hvar : ∀ name given, SameOutside bareTable (.var name true) given := by
      intro name given
      rw [SameOutside]
      exact ⟨nofun, fun _ => trivial⟩
    have hexit : SameOutside bareTable (.tuple [.var "C" true, .leaf .int32])
        (.tuple [.leaf .string, .leaf .int32]) := by
      rw [SameOutside]
      refine ⟨nofun, fun _ => ?_⟩
      rw [map_cons, eachOutside, map_cons, eachOutside, eachOutside, SameOutside]
      exact ⟨hvar _ _, (sameType_equivalence bareTable).refl _, trivial⟩
    rw [SameOutside]
    refine ⟨nofun, fun _ => ⟨⟨rfl, rfl, rfl, rfl, rfl, rfl, rfl, rfl⟩, ?_, ?_, ?_⟩⟩
    · rw [eachOutside]
      trivial
    · show eachOutside bareTable [.var "A" true, makeExpand (.var "P" true), .var "B" true]
        [some (.leaf .int32), none, some (.leaf .float32)]
      rw [eachOutside, eachOutside, eachOutside, eachOutside]
      exact ⟨hvar _ _, rfl, hvar _ _, trivial⟩
    · rw [exitOutside]
      exact hexit
  apply (bindTypeVars_right noDeclarations 3 0 (by decide)).2 _ (by decide +kernel) (by decide)
    (by decide) houtside

/-- The bindings before a mismatch stay; a part that binds nothing is not compared, nor are fields
    that the pattern does not have and the marks of parameters; and a type function is computed. -/
theorem bindTypeVars_not_exact :
    bindTypeVars noDeclarations 3 (.tuple [.var "T" true, .tuple [.var "U" true]])
        (.tuple [.leaf .int32, .leaf .bool]) [] =
      some (false, [("T", .leaf .int32)]) ∧
    (bindTypeVars noDeclarations 3 (.tuple [.var "T" true, .leaf .int32])
        (.tuple [.leaf .bool, .leaf .string]) [] =
      some (true, [("T", .leaf .bool)]) ∧
    substituteTypeVars bareTable 1 (.tuple [.var "T" true, .leaf .int32]) [("T", .leaf .bool)] none =
      some (.tuple [.leaf .bool, .leaf .int32], none) ∧
    ¬SameType bareTable (.tuple [.leaf .bool, .leaf .int32]) (.tuple [.leaf .bool, .leaf .string])) ∧
    (bindTypeVars noDeclarations 3 (.record ["v"] [.var "T" true])
        (.record ["v", "w"] [.leaf .int32, .leaf .bool]) [] =
      some (true, [("T", .leaf .int32)]) ∧
    substituteTypeVars bareTable 1 (.record ["v"] [.var "T" true]) [("T", .leaf .int32)] none =
      some (.record ["v"] [.leaf .int32], none)) ∧
    (bindTypeVars noDeclarations 3 (.func (unnamedParams 1) [] [.var "T" true] none)
        (.func { unnamedParams 1 with normRoles := [.plain true false] } [] [.leaf .int32] none) [] =
      some (true, [("T", .leaf .int32)]) ∧
    substituteTypeVars bareTable 1 (.func (unnamedParams 1) [] [.var "T" true] none)
        [("T", .leaf .int32)] none =
      some (.func (unnamedParams 1) [] [.leaf .int32] none, none)) ∧
    bindTypeVars noDeclarations 3 (.call "ElementOf" [.var "T" true])
        (.call "ElementOf" [.stream (.leaf .int32)]) [] =
      some (true, [("T", .stream (.leaf .int32))]) ∧
    substituteTypeVars { bareTable with evaluate := fun _ params => params.head? } 1
        (.call "ElementOf" [.var "T" true]) [("T", .stream (.leaf .int32))] none =
      some (.stream (.leaf .int32), none) := by
  refine ⟨?_, ⟨?_, ?_, ?_⟩, ⟨?_, ?_⟩, ⟨?_, ?_⟩, ?_, ?_⟩ <;> decide +kernel

end Camel.Types
