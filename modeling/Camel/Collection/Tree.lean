import Camel.Lib.SortedEntries

/-! # The tables of Map and Set

    The run-time object of `Map<K, V>` and `Set<T>` is a persistent B+ tree of
    tables (`core/rtdata/collection_tree.cpp`).  A table is one allocation: a
    leaf of entries, or a branch over tables one level below it.  An operation
    never changes a table that exists: it allocates new ones and shares the
    subtrees it did not touch.

    * The heap is the list of the tables allocated so far; an address is a
      position in it, so an address handed out stays what it is.
    * A table counts its entries in 32 bits: `Table.leaf` and `createBranch`
      cut the count they are given to that width.
    * Every `GUARD` of the source is a `Fault`; a recursion over tables is
      bounded by the height the table states.

    Set and map share the code; `CollectionType.isMap` decides whether a leaf
    has a value column.  Keys are compared by content only. -/

namespace Camel.Collection

open PartitionPoint

/-! ## Tables and the heap -/

abbrev Addr := Nat

/-- A table.  A leaf has `height` 0; a branch's `keys` are the smallest key
    under each child. -/
structure Table (K V : Type) where
  /-- Entries of the collection rooted here, in 32 bits. -/
  size : Nat
  height : Nat
  keys : List K
  values : List V
  children : List Addr

abbrev Heap (K V : Type) := List (Table K V)

structure CollectionType where
  isMap : Bool
deriving DecidableEq

/-- What stops an operation: the guards of the source, a table an enabled
    validation finds broken, and a reference that is no table of the heap. -/
inductive Fault where
  | leafSlots (size : Nat)
  | branchShape (count width : Nat)
  | emptyChild (index : Nat)
  | noNeighbour (at_ count : Nat)
  | cursorDepth (depth : Nat)
  | invalidTable (violation : String)
  | malformed
deriving DecidableEq

def Table.isLeaf {K V : Type} (t : Table K V) : Bool := t.height == 0

/-- The number of children of a branch. -/
def Table.count {K V : Type} (t : Table K V) : Nat := t.children.length

def deref {K V : Type} (h : Heap K V) (a : Addr) : Except Fault (Table K V) :=
  match h[a]? with
  | some t => .ok t
  | none => .error .malformed

/-! ## The shape of the tree -/

structure Shape where
  leafCapacity : Nat
  fanout : Nat
  padded : Bool
  validate : Bool

structure ShapeRequest where
  leafCapacity : Option Nat := none
  fanout : Option Nat := none
  padded : Option Bool := none
  validate : Option Bool := none

def kDefaultLeafCapacity : Nat := 64
def kDefaultFanout : Nat := 64
def kMaxFanout : Nat := 256
def kMaxHeight : Nat := 40
def kPointwiseRatio : Nat := 32
def sizeMax : Nat := 2 ^ 64 - 1

/-- The widths the command line asked for, brought into range: a leaf of 0 is
    unbounded, any other holds at least 2, the fanout is clamped to `[4, 256]`. -/
def shape (requested : ShapeRequest) : Shape :=
  let leaf := requested.leafCapacity.getD kDefaultLeafCapacity
  { leafCapacity := if leaf = 0 then sizeMax else max leaf 2
    fanout := min (max (requested.fanout.getD kDefaultFanout) 4) kMaxFanout
    padded := requested.padded.getD true
    validate := requested.validate.getD false }

/-- A set has one slot per entry where a map has two, so its leaves hold twice
    as many entries. -/
def leafCapacity (s : Shape) (ty : CollectionType) : Nat :=
  if ty.isMap || decide (s.leafCapacity > sizeMax / 2) then s.leafCapacity
  else 2 * s.leafCapacity

def leafSlots (s : Shape) (size : Nat) (ty : CollectionType) (inTree : Bool) : Nat :=
  let used := if ty.isMap then 2 * size else size
  if inTree && s.padded then max used (2 * s.leafCapacity % 2 ^ 64) else used

/-! ## Allocation -/

section tables
variable {K V : Type} [LinearOrder K] [Inhabited V]

/-- Integers, booleans and every other key compare by the three-way rule. -/
def compareKeys (a b : K) : Int := if a < b then -1 else if b < a then 1 else 0

/-- The width of the entry count of a table. -/
def countWidth : Nat := 2 ^ 32

variable (s : Shape) (ty : CollectionType)

/-- The leaf holding `es`: a set keeps the keys only. -/
def Table.leaf (es : List (K × V)) : Table K V where
  size := es.length % countWidth
  height := 0
  keys := es.map Prod.fst
  values := if ty.isMap then es.map Prod.snd else []
  children := []

variable (t : Table K V)

/-- The entries a leaf shows: as many as it counts; the values of a set are the
    null slot. -/
def Table.entries : List (K × V) :=
  (t.keys.take t.size).zip
    (if ty.isMap then t.values.take t.size else List.replicate t.size default)

/-- A leaf holding a sequence of entries, allocated at full width below a
    branch. -/
def leafOf (inTree : Bool) (es : List (K × V))
    (h : Heap K V) : Except Fault (Heap K V × Addr) :=
  if leafSlots s es.length ty inTree < es.length then .error (.leafSlots es.length)
  else .ok (h ++ [Table.leaf ty es], h.length)

/-- A branch takes `keys()[0]` of every child as its separator, so each child
    must hold an entry. -/
def firstKeys : Nat → List (Table K V) → Except Fault (List K)
  | _, [] => .ok []
  | i, t :: ts =>
    if t.size = 0 then .error (.emptyChild i)
    else
      match t.keys.head? with
      | none => .error .malformed
      | some k => do
        let ks ← firstKeys (i + 1) ts
        .ok (k :: ks)

/-- A branch over tables of one height, none of them empty. -/
def makeBranch (children : List Addr) (h : Heap K V) :
    Except Fault (Heap K V × Addr) := do
  let tables ← children.mapM (deref h)
  let keys ← firstKeys 0 tables
  let count := children.length
  let width := if s.padded then max count s.fanout else count
  match tables.head? with
  | none => .error (.branchShape count width)
  | some first =>
    if count = 0 ∨ width < count then .error (.branchShape count width)
    else
      let branch : Table K V :=
        { size := (tables.map Table.size).sum % countWidth
          height := first.height + 1
          keys := keys
          values := []
          children := children }
      .ok (h ++ [branch], h.length)

/-! ## Search within a table -/

/-- The first index of leaf `t` whose key is not before `key`. -/
def lowerBound (key : K) : Nat :=
  partitionPoint (fun mid => (t.keys[mid]?).any (fun k => decide (compareKeys k key < 0)))
    t.size 0 t.size

/-- The index of `key` in leaf `t`, if it is there. -/
def findInLeaf (key : K) : Option Nat :=
  let at_ := lowerBound t key
  if at_ < t.size ∧ (t.keys[at_]?).any (fun k => decide (compareKeys k key = 0)) = true
  then some at_ else none

/-- The child of branch `t` under which `key` belongs: the last whose smallest
    key is not after `key`, the first for a key before every separator. -/
def childIndex (key : K) : Nat :=
  partitionPoint (fun mid => (t.keys[mid]?).any (fun k => decide (compareKeys k key ≤ 0)))
    t.count 1 t.count - 1

/-- The leaf in which `key` is, if it is in the tree at all. -/
def leafFor (h : Heap K V) (key : K) : Nat → Addr → Except Fault (Table K V)
  | fuel, a => do
    let t ← deref h a
    if t.isLeaf then .ok t
    else
      match fuel with
      | 0 => .error .malformed
      | fuel + 1 =>
        match t.children[childIndex t key]? with
        | none => .error .malformed
        | some child => leafFor h key fuel child

/-- The leaves of a tree from left to right. -/
def forEachLeaf (h : Heap K V) : Nat → Addr → Except Fault (List (Table K V))
  | fuel, a => do
    let t ← deref h a
    if t.isLeaf then .ok [t]
    else
      match fuel with
      | 0 => .error .malformed
      | fuel + 1 => do
        let leaves ← t.children.mapM (forEachLeaf h fuel)
        .ok leaves.flatten

/-- The entries of a collection in key order, as a walk over its leaves sees
    them. -/
def forEachEntry (h : Heap K V) (a : Addr) :
    Except Fault (List (K × V)) := do
  let t ← deref h a
  let leaves ← forEachLeaf h t.height a
  .ok (leaves.flatMap (Table.entries ty))

/-! ## Building a tree bottom-up -/

/-- The fewest groups of at most `capacity` that `n` items can be cut into. -/
def Shares.groups (n capacity : Nat) : Nat :=
  if n ≤ capacity then 1 else n / capacity + (if n % capacity ≠ 0 then 1 else 0)

/-- Group `g` of `groups` equal shares is the items `bound g` to `bound (g + 1)`. -/
def Shares.bound (n groups g : Nat) : Nat := g * n / groups

/-- The items of a list in equal shares. -/
def Shares.cut {α : Type} (l : List α) (capacity : Nat) : List (List α) :=
  let groups := Shares.groups l.length capacity
  (List.range groups).map fun g =>
    (l.drop (Shares.bound l.length groups g)).take
      (Shares.bound l.length groups (g + 1) - Shares.bound l.length groups g)

/-- Allocates one table per group, left to right. -/
def makeAll {α : Type} (make : α → Heap K V → Except Fault (Heap K V × Addr)) :
    List α → Heap K V → Except Fault (Heap K V × List Addr)
  | [], h => .ok (h, [])
  | x :: xs, h => do
    let (h, a) ← make x h
    let (h, as) ← makeAll make xs h
    .ok (h, a :: as)

/-- Branches are put above `level` until one table is left. -/
def buildBranches (s : Shape) : Nat → List Addr → Heap K V → Except Fault (Heap K V × Addr)
  | fuel, level, h =>
    match level with
    | [] => .error .malformed
    | [a] => .ok (h, a)
    | _ :: _ :: _ =>
      match fuel with
      | 0 => .error .malformed
      | fuel + 1 => do
        let (h, above) ← makeAll (makeBranch s) (Shares.cut level s.fanout) h
        buildBranches s fuel above h

/-- The collection of entries given in strictly ascending key order. -/
def buildTree (es : List (K × V)) (h : Heap K V) :
    Except Fault (Heap K V × Addr) :=
  let capacity := leafCapacity s ty
  if es.length ≤ capacity then leafOf s ty false es h
  else do
    let (h, leaves) ← makeAll (leafOf s ty true) (Shares.cut es capacity) h
    buildBranches s leaves.length leaves h

/-- A leaf an operation on leaves produced, as a collection: itself when it fits
    a leaf, a tree of its entries otherwise. -/
def normalized (a : Addr) (h : Heap K V) :
    Except Fault (Heap K V × Addr) := do
  let t ← deref h a
  if t.size ≤ leafCapacity s ty then .ok (h, a)
  else buildTree s ty (t.entries ty) h

/-- Whether an operation should go through the smaller side entry by entry. -/
def muchSmaller (small large : Table K V) : Bool :=
  decide (small.size ≤ large.size / kPointwiseRatio)

/-! ## Walking a tree in key order -/

/-- A position in a collection: the current leaf and the path to it, the step
    nearest the leaf first. -/
structure Cursor (K V : Type) where
  leaf : Option (Table K V)
  pos : Nat
  path : List (Table K V × Nat)

/-- The leftmost leaf below `a`, with the steps down to it pushed on `path`. -/
def leftmostLeaf (h : Heap K V) :
    Nat → Addr → List (Table K V × Nat) → Except Fault (Table K V × List (Table K V × Nat))
  | 0, a, path => do
    let t ← deref h a
    if t.isLeaf then .ok (t, path)
    else .error (if kMaxHeight ≤ path.length then .cursorDepth path.length else .malformed)
  | fuel + 1, a, path => do
    let t ← deref h a
    if t.isLeaf then .ok (t, path)
    else if kMaxHeight ≤ path.length then .error (.cursorDepth path.length)
    else
      match t.children[0]? with
      | none => .error .malformed
      | some child => leftmostLeaf h fuel child ((t, 0) :: path)

def Cursor.start (h : Heap K V) (a : Addr) : Except Fault (Cursor K V) := do
  let t ← deref h a
  let (leaf, path) ← leftmostLeaf h t.height a []
  .ok { leaf := if leaf.size = 0 then none else some leaf, pos := 0, path := path }

def Cursor.done (c : Cursor K V) : Bool := c.leaf.isNone

/-- The entry under the cursor. -/
def Cursor.entry (c : Cursor K V) : Option (K × V) :=
  c.leaf.bind fun leaf => (leaf.entries ty)[c.pos]?

/-- The steps that have a further child. -/
def Cursor.up : List (Table K V × Nat) → List (Table K V × Nat)
  | [] => []
  | (node, index) :: path =>
    if index + 1 = node.count then Cursor.up path else (node, index) :: path

def Cursor.next (h : Heap K V) (c : Cursor K V) : Except Fault (Cursor K V) :=
  match c.leaf with
  | none => .error .malformed
  | some leaf =>
    if c.pos + 1 < leaf.size then .ok { c with pos := c.pos + 1 }
    else
      match Cursor.up c.path with
      | [] => .ok { leaf := none, pos := 0, path := [] }
      | (node, index) :: path =>
        match node.children[index + 1]? with
        | none => .error .malformed
        | some child => do
          let (leaf, path) ← leftmostLeaf h node.height child ((node, index + 1) :: path)
          .ok { leaf := some leaf, pos := 0, path := path }

/-! ## The check of the invariants -/

/-- How `validate` names the table it found broken. -/
def failText (what : String) : String :=
  (if t.isLeaf then "leaf" else "branch at height " ++ toString t.height) ++ " of " ++
    toString t.size ++ " entries: " ++ what

/-- The keys of a leaf continue the ascending sequence that ends in `last`. -/
def checkKeys (t : Table K V) : Nat → List K → Option K → Except String (Option K)
  | _, [], last => .ok last
  | i, k :: ks, last =>
    if last.any (fun l => decide (compareKeys l k ≥ 0)) = true then
      .error (failText t ("key " ++ toString i ++ " is not after the key before it"))
    else checkKeys t (i + 1) ks (some k)

/-- The children of branch `t` from index `i` on, each checked by `check`; the
    result is the last key and the entries they hold. -/
def checkChildren (h : Heap K V) (t : Table K V)
    (check : Addr → Option K → Except String (Option K)) :
    Nat → List Addr → Option K → Except String (Option K × Nat)
  | _, [], last => .ok (last, 0)
  | i, a :: as, last =>
    match h[a]? with
    | none => .error (failText t ("child " ++ toString i ++ " is null"))
    | some child =>
      if child.height + 1 ≠ t.height then
        .error (failText t ("child " ++ toString i ++ " is not one level below"))
      else if child.size = 0 ∨ ¬ ((t.keys[i]?).any fun sep =>
          (child.keys.head?).any fun k => decide (compareKeys sep k = 0)) = true then
        .error (failText t
          ("separator " ++ toString i ++ " is not the smallest key of its child"))
      else do
        let last ← check a last
        let (last, rest) ← checkChildren h t check (i + 1) as last
        .ok (last, child.size + rest)

/-- `Validation::check`: `last` is the key before the ones looked at, across
    leaves. -/
def check (s : Shape) (ty : CollectionType) (h : Heap K V) (root : Addr) :
    Nat → Addr → Option K → Except String (Option K)
  | fuel, a, last =>
    match h[a]? with
    | none => .error "no table"
    | some t =>
      if t.isLeaf then
        if t.size > leafCapacity s ty then
          .error (failText t "more entries than a leaf may hold")
        else if a ≠ root ∧ (t.size = 0 ∨ t.size < leafCapacity s ty / 2) then
          .error (failText t "fewer entries than a leaf below a branch must hold")
        else checkKeys t 0 (t.keys.take t.size) last
      else if t.count > s.fanout ∨ t.count < (if a = root then 2 else s.fanout / 2) then
        .error (failText t (toString t.count ++ " children"))
      else
        match fuel with
        | 0 => .error "no table"
        | fuel + 1 => do
          let (last, size) ← checkChildren h t (check s ty h root fuel) 0 t.children last
          if size ≠ t.size then
            .error (failText t ("the children hold " ++ toString size ++ " entries"))
          else .ok last

/-- The description of the first violation; `none` when the invariants hold. -/
def validate (h : Heap K V) (a : Addr) : Option String :=
  match check s ty h a ((h[a]?).elim 0 Table.height) a none with
  | .ok _ => none
  | .error violation => some violation

/-- Stops the process when the table breaks an invariant and validation is on. -/
def checked (r : Heap K V × Addr) :
    Except Fault (Heap K V × Addr) :=
  if s.validate then
    match validate s ty r.1 r.2 with
    | none => .ok r
    | some violation => .error (.invalidTable violation)
  else .ok r

end tables

end Camel.Collection
