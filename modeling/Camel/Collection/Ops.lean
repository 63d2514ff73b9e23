import Camel.Collection.Tree

/-! # The operations on Map and Set

    The `table` namespace of `core/rtdata/collection_ops.cpp`: lookup,
    construction from an array, the point updates that copy one path of the
    tree, and the operations on two collections.  Two leaves are handled by the
    single-array code throughout; the tree code is entered only when a
    collection has outgrown a leaf.

    Every operation takes the heap and gives the heap after it with the address
    of its result, which may be an address it was given. -/

namespace Camel.Collection

variable {K V : Type} [LinearOrder K] [Inhabited V]

/-! ## Lookup and construction -/

variable (s : Shape) (ty : CollectionType) (h : Heap K V) (a : Addr) (key : K)

def has : Except Fault Bool := do
  let t ← deref h a
  let leaf ← leafFor h key t.height a
  .ok (findInLeaf leaf key).isSome

def lookup :
    Except Fault (Option V) := do
  let t ← deref h a
  let leaf ← leafFor h key t.height a
  match findInLeaf leaf key with
  | none => .ok none
  | some at_ => .ok (((leaf.entries ty)[at_]?).map Prod.snd)

def empty : Except Fault (Heap K V × Addr) :=
  leafOf s ty false [] h

/-- The keys come in strictly ascending order. -/
def ascending : List (K × V) → Bool
  | [] => true
  | [_] => true
  | x :: y :: l => decide (compareKeys x.1 y.1 < 0) && ascending (y :: l)

/-- Of every run of equal keys the last entry. -/
def lastOfRuns : List (K × V) → List (K × V)
  | [] => []
  | [x] => [x]
  | x :: y :: l =>
    if compareKeys x.1 y.1 ≠ 0 then x :: lastOfRuns (y :: l) else lastOfRuns (y :: l)

/-- The source positions, which the source keeps in 32 bits. -/
def sourceOrder (n : Nat) : List Nat := (List.range n).map (· % 2 ^ 32)

/-- Entry `i` of the source: an element of a set has no value. -/
def sourceEntry (array : List (K × V)) (i : Nat) : Option (K × V) :=
  (array[i]?).map fun e => (e.1, if ty.isMap then e.2 else default)

/-- `array as Map<K, V>` or `array as Set<T>`: of two entries with equal keys
    the later one is kept. -/
def fromArray (array : List (K × V)) (h : Heap K V) :
    Except Fault (Heap K V × Addr) := do
  if array.length = 0 then leafOf s ty false [] h
  else
    let entries := (sourceOrder array.length).filterMap (sourceEntry ty array)
    let entries :=
      if ascending array then entries
      else lastOfRuns (entries.mergeSort fun x y => !decide (compareKeys y.1 x.1 < 0))
    let r ← buildTree s ty entries h
    checked s ty r

/-! ## Insertion -/

/-- What a table became when an entry was put in: one table, or two when it had
    to be split.  `first` is the table itself when nothing changed. -/
structure Grown where
  first : Addr
  second : Option Addr

/-- Leaf `t` with an entry put in; the value is ignored for a set. -/
def insertIntoLeaf (t : Table K V) (key : K)
    (value : V) (inTree : Bool) (h : Heap K V) : Except Fault (Heap K V × Grown) :=
  let n := t.size
  let at_ := lowerBound t key
  let entries := t.entries ty
  let present := decide (at_ < n) &&
    (t.keys[at_]?).any (fun k => decide (compareKeys k key = 0))
  if present && !ty.isMap then .ok (h, { first := a, second := none })
  else if !present && decide (n + 1 > leafCapacity s ty) then do
    -- Full: the n + 1 entries go to two leaves of equal share.
    let all := entries.take at_ ++ (key, value) :: entries.drop at_
    let half := (n + 1) / 2
    let (h, x) ← leafOf s ty true (all.take half) h
    let (h, y) ← leafOf s ty true (all.drop half) h
    .ok (h, { first := x, second := some y })
  else do
    let kept := match t.keys[at_]? with
      | some k => if present then k else key
      | none => key
    let all := entries.take at_ ++ (kept, value) :: entries.drop (if present then at_ + 1 else at_)
    let (h, x) ← leafOf s ty inTree all h
    .ok (h, { first := x, second := none })

/-- The children of a branch with the child at `at_` replaced by `a` and, when
    there is one, `b` after it. -/
def childrenWith (t : Table K V) (at_ : Nat) (a : Addr) (b : Option Addr) : List Addr :=
  t.children.take at_ ++ a :: b.toList ++ t.children.drop (at_ + 1)

/-- The tables on the path to the key are copied, everything else is shared. -/
def insertInto (s : Shape) (ty : CollectionType) (key : K) (value : V) :
    Nat → Addr → Bool → Heap K V → Except Fault (Heap K V × Grown)
  | fuel, a, inTree, h => do
    let t ← deref h a
    if t.isLeaf then insertIntoLeaf s ty a t key value inTree h
    else
      let at_ := childIndex t key
      match fuel with
      | 0 => .error .malformed
      | fuel + 1 =>
        match t.children[at_]? with
        | none => .error .malformed
        | some child => do
          let (h, grown) ← insertInto s ty key value fuel child true h
          if grown.first = child then .ok (h, { first := a, second := none })
          else
            let children := childrenWith t at_ grown.first grown.second
            if children.length ≤ s.fanout then do
              let (h, x) ← makeBranch s children h
              .ok (h, { first := x, second := none })
            else do
              let half := children.length / 2
              let (h, x) ← makeBranch s (children.take half) h
              let (h, y) ← makeBranch s (children.drop half) h
              .ok (h, { first := x, second := some y })

def insert (value : V) (h : Heap K V) :
    Except Fault (Heap K V × Addr) := do
  let t ← deref h a
  let (h, grown) ← insertInto s ty key value t.height a false h
  match grown.second with
  | none => .ok (h, grown.first)
  | some second => makeBranch s [grown.first, second] h

/-! ## Deletion -/

/-- Leaf `t` without `key`; `t` itself when the key is absent. -/
def removeFromLeaf (t : Table K V) (key : K)
    (inTree : Bool) (h : Heap K V) : Except Fault (Heap K V × Addr) :=
  match findInLeaf t key with
  | none => .ok (h, a)
  | some at_ =>
    leafOf s ty inTree ((t.entries ty).take at_ ++ (t.entries ty).drop (at_ + 1)) h

/-- Whether a table below a branch holds less than a table must. -/
def underfull (t : Table K V) : Bool :=
  if t.isLeaf then decide (t.size < leafCapacity s ty / 2) else decide (t.count < s.fanout / 2)

/-- Two neighbouring tables of one height made into one when their content fits,
    and into two of equal share otherwise. -/
def combine (a b : Addr) (h : Heap K V) :
    Except Fault (Heap K V × List Addr) := do
  let x ← deref h a
  let y ← deref h b
  if x.isLeaf then
    let all := x.entries ty ++ y.entries ty
    let total := x.size + y.size
    if total ≤ leafCapacity s ty then do
      let (h, made) ← leafOf s ty true all h
      .ok (h, [made])
    else do
      let (h, left) ← leafOf s ty true (all.take (total / 2)) h
      let (h, right) ← leafOf s ty true (all.drop (total / 2)) h
      .ok (h, [left, right])
  else
    let children := x.children ++ y.children
    let total := x.count + y.count
    if total ≤ s.fanout then do
      let (h, made) ← makeBranch s children h
      .ok (h, [made])
    else do
      let (h, left) ← makeBranch s (children.take (total / 2)) h
      let (h, right) ← makeBranch s (children.drop (total / 2)) h
      .ok (h, [left, right])

/-- The result may hold less than a table must: the caller, which copies the
    parent anyway, combines it with a neighbour. -/
def removeFrom (s : Shape) (ty : CollectionType) (key : K) :
    Nat → Addr → Bool → Heap K V → Except Fault (Heap K V × Addr)
  | fuel, a, inTree, h => do
    let t ← deref h a
    if t.isLeaf then removeFromLeaf s ty a t key inTree h
    else
      let at_ := childIndex t key
      match fuel with
      | 0 => .error .malformed
      | fuel + 1 =>
        match t.children[at_]? with
        | none => .error .malformed
        | some child => do
          let (h, shrunk) ← removeFrom s ty key fuel child true h
          if shrunk = child then .ok (h, a)
          else do
            let children := childrenWith t at_ shrunk none
            let small ← deref h shrunk
            if underfull s ty small then
              -- A branch of one child has no neighbour to combine it with.
              if ¬ children.length > 1 then .error (.noNeighbour at_ children.length)
              else
                let left := if at_ > 0 then at_ - 1 else at_
                match children[left]?, children[left + 1]? with
                | some x, some y => do
                  let (h, made) ← combine s ty x y h
                  makeBranch s (children.take left ++ made ++ children.drop (left + 2)) h
                | _, _ => .error .malformed
            else makeBranch s children h

/-- A root needs no minimum, but a root with a single child is that child. -/
def onlyChild (h : Heap K V) : Nat → Addr → Except Fault Addr
  | fuel, a => do
    let t ← deref h a
    if t.isLeaf then .ok a
    else
      match t.children with
      | [child] =>
        match fuel with
        | 0 => .error .malformed
        | fuel + 1 => onlyChild h fuel child
      | _ => .ok a

def removeKey (h : Heap K V) :
    Except Fault (Heap K V × Addr) := do
  let t ← deref h a
  let (h, result) ← removeFrom s ty key t.height a false h
  let r ← deref h result
  let result ← onlyChild h r.height result
  .ok (h, result)

def put (value : V) (h : Heap K V) :
    Except Fault (Heap K V × Addr) := do
  let r ← insert s ⟨true⟩ a key value h
  checked s ⟨true⟩ r

def add (elem : K) (h : Heap K V) : Except Fault (Heap K V × Addr) := do
  let r ← insert s ⟨false⟩ a elem default h
  checked s ⟨false⟩ r

def remove (h : Heap K V) :
    Except Fault (Heap K V × Addr) := do
  let r ← removeKey s ty a key h
  checked s ty r

/-! ## Two leaves -/

/-- The merge of two ascending sequences, the second winning on a shared key. -/
def mergeWalk : List (K × V) → List (K × V) → List (K × V)
  | [], b => b
  | a, [] => a
  | x :: a, y :: b =>
    if compareKeys x.1 y.1 < 0 then x :: mergeWalk a (y :: b)
    else if compareKeys x.1 y.1 > 0 then y :: mergeWalk (x :: a) b
    else y :: mergeWalk a b
termination_by a b => a.length + b.length

/-- The entries of the first whose key the second has. -/
def intersectWalk : List (K × V) → List (K × V) → List (K × V)
  | [], _ => []
  | _, [] => []
  | x :: a, y :: b =>
    if compareKeys x.1 y.1 < 0 then intersectWalk a (y :: b)
    else if compareKeys x.1 y.1 > 0 then intersectWalk (x :: a) b
    else x :: intersectWalk a b
termination_by a b => a.length + b.length

/-- The entries of the first whose key the second does not have. -/
def differenceWalk : List (K × V) → List (K × V) → List (K × V)
  | [], _ => []
  | x :: a, [] => x :: differenceWalk a []
  | x :: a, y :: b =>
    if compareKeys x.1 y.1 < 0 then x :: differenceWalk a (y :: b)
    else if compareKeys x.1 y.1 > 0 then differenceWalk (x :: a) b
    else differenceWalk a b
termination_by a b => a.length + b.length

/-- Whether every key of the first is a key of the second. -/
def subsetWalk : List (K × V) → List (K × V) → Bool
  | [], _ => true
  | _ :: _, [] => false
  | x :: a, y :: b =>
    if compareKeys y.1 x.1 < 0 then subsetWalk (x :: a) b
    else if compareKeys y.1 x.1 ≠ 0 then false
    else subsetWalk a b
termination_by a b => a.length + b.length

/-- The leaf a pass over two leaves left in `scratch`, which was allocated for
    the largest possible result: a shorter one is a second allocation. -/
def finished (capacity : Nat) (es : List (K × V))
    (h : Heap K V) : Except Fault (Heap K V × Addr) :=
  if leafSlots s capacity ty false < capacity then .error (.leafSlots capacity)
  else
    let scratch : Table K V := { Table.leaf ty es with size := capacity % countWidth }
    let h := h ++ [scratch]
    if es.length = capacity % countWidth then .ok (h, h.length - 1)
    else leafOf s ty false es h

def mergeLeaves (a b : Table K V) (h : Heap K V) :
    Except Fault (Heap K V × Addr) :=
  finished s ty (a.size + b.size) (mergeWalk (a.entries ty) (b.entries ty)) h

def intersectLeaves (a b : Table K V) (h : Heap K V) :
    Except Fault (Heap K V × Addr) :=
  finished s ty (min a.size b.size) (intersectWalk (a.entries ty) (b.entries ty)) h

def differenceLeaves (a b : Table K V) (h : Heap K V) :
    Except Fault (Heap K V × Addr) :=
  finished s ty a.size (differenceWalk (a.entries ty) (b.entries ty)) h

def isSubsetOfLeaf (a b : Table K V) : Bool :=
  subsetWalk (a.entries ty) (b.entries ty)

/-! ## Two collections -/

/-- The remaining entries of a cursor, handed to `step` in key order. -/
def Cursor.fold {β : Type} (ty : CollectionType) (step : β → K × V → Except Fault β) :
    Nat → Heap K V → Cursor K V → β → Except Fault β
  | fuel, h, c, acc =>
    match c.entry ty with
    | none => .ok acc
    | some e =>
      match fuel with
      | 0 => .error .malformed
      | fuel + 1 => do
        let acc ← step acc e
        let c ← c.next h
        Cursor.fold ty step fuel h c acc

/-- `for (Cursor from(t, type); !from.done(); from.next())`. -/
def forCursor {β : Type}
    (step : β → K × V → Except Fault β) (acc : β) : Except Fault β := do
  let t ← deref h a
  let c ← Cursor.start h a
  Cursor.fold ty step t.size h c acc

/-- The two-cursor walk of `merge`: what both cursors still have, merged. -/
def mergeCursors (ty : CollectionType) (h : Heap K V) :
    Nat → Cursor K V → Cursor K V → List (K × V) → Except Fault (List (K × V))
  | fuel, x, y, out =>
    match x.entry ty, y.entry ty with
    | none, none => .ok out
    | some e, none =>
      match fuel with
      | 0 => .error .malformed
      | fuel + 1 => do
        let x ← x.next h
        mergeCursors ty h fuel x y (out ++ [e])
    | none, some f =>
      match fuel with
      | 0 => .error .malformed
      | fuel + 1 => do
        let y ← y.next h
        mergeCursors ty h fuel x y (out ++ [f])
    | some e, some f =>
      match fuel with
      | 0 => .error .malformed
      | fuel + 1 =>
        let order := compareKeys e.1 f.1
        if order < 0 then do
          let x ← x.next h
          mergeCursors ty h fuel x y (out ++ [e])
        else do
          let y ← y.next h
          let x ← if order = 0 then x.next h else .ok x
          mergeCursors ty h fuel x y (out ++ [f])

/-- The two-cursor walk of `intersect`. -/
def intersectCursors (ty : CollectionType) (h : Heap K V) :
    Nat → Cursor K V → Cursor K V → List (K × V) → Except Fault (List (K × V))
  | fuel, x, y, out =>
    match x.entry ty, y.entry ty with
    | some e, some f =>
      match fuel with
      | 0 => .error .malformed
      | fuel + 1 =>
        let order := compareKeys e.1 f.1
        if order < 0 then do
          let x ← x.next h
          intersectCursors ty h fuel x y out
        else if order > 0 then do
          let y ← y.next h
          intersectCursors ty h fuel x y out
        else do
          let x ← x.next h
          let y ← y.next h
          intersectCursors ty h fuel x y (out ++ [(e.1, default)])
    | _, _ => .ok out

/-- The two-cursor walk of `difference`: an exhausted second side keeps the rest
    of the first. -/
def differenceCursors (ty : CollectionType) (h : Heap K V) :
    Nat → Cursor K V → Cursor K V → List (K × V) → Except Fault (List (K × V))
  | fuel, x, y, out =>
    match x.entry ty with
    | none => .ok out
    | some e =>
      match fuel with
      | 0 => .error .malformed
      | fuel + 1 =>
        let order : Int := match y.entry ty with
          | none => -1
          | some f => compareKeys e.1 f.1
        if order < 0 then do
          let x ← x.next h
          differenceCursors ty h fuel x y (out ++ [(e.1, default)])
        else if order > 0 then do
          let y ← y.next h
          differenceCursors ty h fuel x y out
        else do
          let x ← x.next h
          let y ← y.next h
          differenceCursors ty h fuel x y out

/-- The two-cursor walk of `isSubset`. -/
def subsetCursors (ty : CollectionType) (h : Heap K V) :
    Nat → Cursor K V → Cursor K V → Except Fault Bool
  | fuel, x, y =>
    match x.entry ty with
    | none => .ok true
    | some e =>
      match fuel, y.entry ty with
      | _, none => .ok false
      | 0, some _ => .error .malformed
      | fuel + 1, some f =>
        if compareKeys f.1 e.1 < 0 then do
          let y ← y.next h
          subsetCursors ty h fuel x y
        else if compareKeys f.1 e.1 ≠ 0 then .ok false
        else do
          let x ← x.next h
          let y ← y.next h
          subsetCursors ty h fuel x y

/-- The entries of both; on a common key the entry of `b`. -/
def merge (a b : Addr) (h : Heap K V) :
    Except Fault (Heap K V × Addr) := do
  let ta ← deref h a
  let tb ← deref h b
  if tb.size = 0 then .ok (h, a)
  else if ta.size = 0 then .ok (h, b)
  else if ta.isLeaf && tb.isLeaf then do
    let (h, m) ← mergeLeaves s ty ta tb h
    let r ← normalized s ty m h
    checked s ty r
  else if muchSmaller tb ta then do
    -- The few entries of `b` put into `a`.
    let r ← forCursor ty h b (fun (r : Heap K V × Addr) e => insert s ty r.2 e.1 e.2 r.1) (h, a)
    checked s ty r
  else if muchSmaller ta tb then do
    -- The few entries of `a` whose key `b` does not have, put into `b`.
    let r ← forCursor ty h a (fun (r : Heap K V × Addr) e => do
      let found ← has h b e.1
      if found then .ok r else insert s ty r.2 e.1 e.2 r.1) (h, b)
    checked s ty r
  else do
    let x ← Cursor.start h a
    let y ← Cursor.start h b
    let out ← mergeCursors ty h (ta.size + tb.size) x y []
    let r ← buildTree s ty out h
    checked s ty r

def intersect (a b : Addr) (h : Heap K V) : Except Fault (Heap K V × Addr) := do
  let ta ← deref h a
  let tb ← deref h b
  if ta.isLeaf && tb.isLeaf then intersectLeaves s ⟨false⟩ ta tb h
  else if muchSmaller ta tb || muchSmaller tb ta then do
    -- The few elements of the smaller that the larger has too.
    let small := if ta.size ≤ tb.size then a else b
    let large := if ta.size ≤ tb.size then b else a
    let out ← forCursor ⟨false⟩ h small (fun (out : List (K × V)) e => do
      let found ← has h large e.1
      .ok (if found then out ++ [(e.1, default)] else out)) []
    let r ← buildTree s ⟨false⟩ out h
    checked s ⟨false⟩ r
  else do
    let x ← Cursor.start h a
    let y ← Cursor.start h b
    let out ← intersectCursors ⟨false⟩ h (ta.size + tb.size) x y []
    let r ← buildTree s ⟨false⟩ out h
    checked s ⟨false⟩ r

def difference (a b : Addr) (h : Heap K V) : Except Fault (Heap K V × Addr) := do
  let ta ← deref h a
  let tb ← deref h b
  if tb.size = 0 || ta.size = 0 then .ok (h, a)
  else if ta.isLeaf && tb.isLeaf then differenceLeaves s ⟨false⟩ ta tb h
  else if muchSmaller tb ta then do
    -- The few elements of `b` taken out of `a`.
    let r ← forCursor ⟨false⟩ h b
      (fun (r : Heap K V × Addr) e => removeKey s ⟨false⟩ r.2 e.1 r.1) (h, a)
    checked s ⟨false⟩ r
  else if muchSmaller ta tb then do
    let out ← forCursor ⟨false⟩ h a (fun (out : List (K × V)) e => do
      let found ← has h b e.1
      .ok (if found then out else out ++ [(e.1, default)])) []
    let r ← buildTree s ⟨false⟩ out h
    checked s ⟨false⟩ r
  else do
    let x ← Cursor.start h a
    let y ← Cursor.start h b
    let out ← differenceCursors ⟨false⟩ h (ta.size + tb.size) x y []
    let r ← buildTree s ⟨false⟩ out h
    checked s ⟨false⟩ r

def isSubset (a b : Addr) (h : Heap K V) : Except Fault Bool := do
  let ta ← deref h a
  let tb ← deref h b
  if ta.size > tb.size then .ok false
  else if ta.isLeaf && tb.isLeaf then .ok (isSubsetOfLeaf ⟨false⟩ ta tb)
  else if muchSmaller ta tb then
    -- The loop returns at the first element that is missing.
    forCursor ⟨false⟩ h a (fun (ok : Bool) e => do
      if ok then has h b e.1 else .ok false) true
  else do
    let x ← Cursor.start h a
    let y ← Cursor.start h b
    subsetCursors ⟨false⟩ h (ta.size + tb.size) x y

/-! ## Equality -/

/-- The two-cursor walk of `equals`: only the first cursor ends it. -/
def equalsCursors (equal : V → V → Bool) (ty : CollectionType) (h : Heap K V) :
    Nat → Cursor K V → Cursor K V → Except Fault Bool
  | fuel, x, y =>
    match x.entry ty with
    | none => .ok true
    | some e =>
      match fuel, y.entry ty with
      | fuel + 1, some f =>
        if compareKeys e.1 f.1 ≠ 0 then .ok false
        else if ty.isMap && !equal e.2 f.2 then .ok false
        else do
          let x ← x.next h
          let y ← y.next h
          equalsCursors equal ty h fuel x y
      | _, _ => .error .malformed

/-- `equal` compares two values: `valuesEqual`, or the slots when not `deep`. -/
def equals (equal : V → V → Bool) (a b : Addr) (h : Heap K V) : Except Fault Bool :=
  if a = b then .ok true
  else do
    let ta ← deref h a
    let tb ← deref h b
    if ta.size ≠ tb.size then .ok false
    else if !ta.isLeaf || !tb.isLeaf then do
      let x ← Cursor.start h a
      let y ← Cursor.start h b
      equalsCursors equal ty h ta.size x y
    else
      let pairs := (ta.entries ty).zip (tb.entries ty)
      .ok (pairs.all (fun p => decide (compareKeys p.1.1 p.2.1 = 0)) &&
        (!ty.isMap || pairs.all fun p => equal p.1.2 p.2.2))

/-! ## The columns, and copies -/

/-- `arrayOf`: as many elements as the table counts, filled leaf by leaf. -/
def arrayOf {α : Type} (column : K × V → α) (h : Heap K V) (a : Addr) :
    Except Fault (List α) := do
  let t ← deref h a
  if t.size = 0 then .ok []
  else do
    let es ← forEachEntry ty h a
    .ok (es.map column)

def keys : Except Fault (List K) :=
  arrayOf ty Prod.fst h a

def values : Except Fault (List V) := arrayOf ⟨true⟩ Prod.snd h a

def items : Except Fault (List (K × V)) := forEachEntry ⟨true⟩ h a

/-- The collection with every key and value rewritten: `t` itself when no slot
    changed, otherwise a new tree.  A rewrite gives the new content of a slot
    and whether the slot is another one. -/
def withSlots (rewriteKey : K → K × Bool)
    (rewriteValue : V → V × Bool) (h : Heap K V) : Except Fault (Heap K V × Addr) := do
  let es ← forEachEntry ty h a
  let out := es.map fun e => ((rewriteKey e.1).1, if ty.isMap then (rewriteValue e.2).1 else e.2)
  let changed := es.any fun e =>
    (rewriteKey e.1).2 || (ty.isMap && (rewriteValue e.2).2)
  if changed then do
    let r ← buildTree s ty out h
    checked s ty r
  else .ok (h, a)

/-- A copy that shares no table with the original. -/
def clone (h : Heap K V) :
    Except Fault (Heap K V × Addr) := do
  let es ← forEachEntry ty h a
  buildTree s ty es h

end Camel.Collection
