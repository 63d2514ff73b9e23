import Camel.Lib.Tiling

/-! # The Free-List Allocator

    An arena is a row of bytes with a free list by address. Addresses count from the
    start of the arena. A block begins with its header, of 8 bytes in a release
    build, and a free block holds a record of 16 bytes; the records are kept as the
    list they link. What the headers say is a map of addresses, with garbage where no
    block was handed out.

    A GUARD that fires is an error with its text.
-/

namespace Camel.Alloc

open Lib

/-! ## The Arena -/

/-- `sizeof(ObjectHeader)`. -/
abbrev headerSize : Nat := 8

/-- `sizeof(FreeBlock)`. -/
abbrev freeBlockSize : Nat := 16

structure FreeListAllocator where
  /-- `end_`, where `start_` is 0. -/
  limit : Nat
  freeList : List Block
  /-- The size in the header at an address. -/
  header : Nat → Nat
  /-- By payload; not kept when the sizes are read from the headers. -/
  allocatedSizes : List (Nat × Nat)
  sizesFromHeaders : Bool

/-- The next multiple of 8, in 64 bits. -/
def alignUp (n : Nat) : Nat := (n + 7) % 2 ^ 64 / 8 * 8

def FreeListAllocator.create (capacity : Nat) (sizesFromHeaders : Bool) (garbage : Nat → Nat) :
    FreeListAllocator :=
  { limit := alignUp capacity
    freeList := [⟨0, alignUp capacity⟩]
    header := garbage
    allocatedSizes := []
    sizesFromHeaders := sizesFromHeaders }

def guardThat (c : Prop) [Decidable c] (text : String) : Except String Unit :=
  if c then .ok () else .error text

/-! ## Allocating -/

/-- The first free block that is large enough: the block handed out, and the free list
    with what remains of it. -/
def allocFrom (totalSize : Nat) : List Block → Except String (Option (Block × List Block))
  | [] => .ok none
  | curr :: next => do
    guardThat (freeBlockSize ≤ curr.size) "Corrupted free block"
    guardThat (curr.size % 8 = 0) "Unaligned free block"
    if totalSize ≤ curr.size then
      let remaining := curr.size - totalSize
      if freeBlockSize ≤ remaining then
        .ok (some (⟨curr.addr, totalSize⟩, ⟨curr.addr + totalSize, remaining⟩ :: next))
      else .ok (some (curr, next))
    else
      match ← allocFrom totalSize next with
      | none => .ok none
      | some (block, rest) => .ok (some (block, curr :: rest))

variable (s : FreeListAllocator)

/-- A header keeps 48 bits of the size. -/
def FreeListAllocator.installHeader (addr totalSize : Nat) :
    FreeListAllocator :=
  { s with header := Function.update s.header addr (totalSize % 2 ^ 48) }

def FreeListAllocator.alloc (size : Nat) (align : Nat := 8) :
    Except String (FreeListAllocator × Option Nat) := do
  guardThat (align = 8) "Alignment other than 8 bytes is not supported"
  let totalSize := alignUp ((headerSize + size) % 2 ^ 64)
  match ← allocFrom totalSize s.freeList with
  | none => .ok (s, none)
  | some (block, rest) =>
    let payload := block.addr + headerSize
    let table :=
      if s.sizesFromHeaders then s.allocatedSizes else (payload, block.size) :: s.allocatedSizes
    .ok ({ s.installHeader block.addr block.size with
      freeList := rest, allocatedSizes := table }, some payload)

/-! ## Freeing -/

/-- Passes over the free blocks below an address; those passed come first, the last one in
    front. -/
def seek (addr : Nat) : List Block → List Block → List Block × List Block
  | before, [] => (before, [])
  | before, curr :: next =>
    if curr.addr < addr then seek addr (curr :: before) next else (before, curr :: next)

/-- The place behind the free block that starts at an address. -/
def resume (addr : Nat) : List Block → List Block → List Block × List Block
  | before, [] => (before, [])
  | before, curr :: next =>
    if curr.addr = addr then (curr :: before, next) else resume addr (curr :: before) next

/-- A block takes in the free block that begins where it ends: its size and the free blocks
    behind it. -/
def mergeNext (blockData totalSize : Nat) : List Block → Nat × List Block
  | [] => (totalSize, [])
  | curr :: next =>
    if blockData + totalSize = curr.addr then (totalSize + curr.size, next)
    else (totalSize, curr :: next)

/-- Puts a block behind the free blocks before it, the last one in front; the one that ends
    where it begins takes it in. The second result is the free block it is in now. -/
def mergePrev (blockData totalSize : Nat) (after : List Block) : List Block → List Block × Nat
  | [] => (⟨blockData, totalSize⟩ :: after, blockData)
  | prev :: rest =>
    if prev.addr + prev.size = blockData then
      (rest.reverse ++ ⟨prev.addr, prev.size + totalSize⟩ :: after, prev.addr)
    else ((prev :: rest).reverse ++ ⟨blockData, totalSize⟩ :: after, blockData)

def coalesce (before after : List Block) (blockData totalSize : Nat) : List Block × Nat :=
  let merged := mergeNext blockData totalSize after
  mergePrev blockData merged.1 merged.2 before

def insertAndCoalesce (limit : Nat) (freeList : List Block) (blockData totalSize : Nat)
    (from? : Option Nat) : Except String (List Block × Nat) := do
  guardThat (freeBlockSize ≤ totalSize) "Block too small"
  guardThat (blockData + totalSize ≤ limit) "Block out of bounds"
  guardThat (∀ f ∈ from?, f < blockData) "The resume block must start below the block being freed"
  let start :=
    match from? with
    | none => ([], freeList)
    | some f => resume f [] freeList
  let place := seek blockData start.1 start.2
  .ok (coalesce place.1 place.2 blockData totalSize)

/-- The size of a block that is freed, from its header or from the table, which then
    forgets it. -/
def FreeListAllocator.takeSize (addr : Nat) (text : String) :
    Except String (Nat × FreeListAllocator) :=
  if s.sizesFromHeaders then .ok (s.header addr, s)
  else
    match s.allocatedSizes.lookup (addr + headerSize) with
    | none => .error text
    | some size =>
      .ok (size, { s with
        allocatedSizes := s.allocatedSizes.filter fun e => e.1 ≠ addr + headerSize })

def FreeListAllocator.free (ptr : Nat) :
    Except String FreeListAllocator := do
  let blockData := ptr - headerSize
  let (totalSize, s) ← s.takeSize blockData "Free pointer was not allocated by this allocator."
  guardThat (totalSize % 8 = 0) "Object size not aligned"
  guardThat (headerSize ≤ totalSize) "Invalid object size"
  guardThat (blockData < s.limit) "Free pointer is out of allocator range."
  guardThat (blockData + totalSize ≤ s.limit) "Free block exceeds allocator range."
  let (freeList, _) ← insertAndCoalesce s.limit s.freeList blockData totalSize none
  .ok { s with freeList := freeList }

/-- The blocks of a batch with their sizes, in the order given. -/
def FreeListAllocator.collect (s : FreeListAllocator) :
    List Nat → Except String (List Block × FreeListAllocator)
  | [] => .ok ([], s)
  | addr :: rest => do
    let (size, s) ← s.takeSize addr "Bulk free pointer was not allocated by this allocator."
    guardThat (size % 8 = 0) "Object size not aligned"
    guardThat (headerSize ≤ size) "Invalid object size"
    guardThat (addr < s.limit) "Bulk free pointer is out of allocator range."
    guardThat (addr + size ≤ s.limit) "Bulk free block exceeds allocator range."
    let (blocks, s) ← s.collect rest
    .ok (⟨addr, size⟩ :: blocks, s)

/-- No two blocks in a row are the same or overlap. -/
def checkApart : List Block → Except String Unit
  | a :: b :: rest => do
    guardThat (a.addr ≠ b.addr) "Duplicate blocks in freeBulk"
    guardThat (a.addr + a.size ≤ b.addr) "Overlapping blocks in freeBulk"
    checkApart (b :: rest)
  | _ => .ok ()

/-- Inserts blocks in address order: each search goes on where the one before ended. -/
def insertAll (limit : Nat) : List Block → List Block → Option Nat → Except String (List Block)
  | freeList, [], _ => .ok freeList
  | freeList, b :: rest, resumeAt => do
    let (freeList, at') ← insertAndCoalesce limit freeList b.addr b.size resumeAt
    insertAll limit freeList rest (some at')

/-- Frees the blocks whose headers are at the given addresses. -/
def FreeListAllocator.freeBulk (objects : List Nat) :
    Except String FreeListAllocator := do
  if objects.isEmpty then .ok s
  else
    let (blocks, s) ← s.collect objects
    let blocks := blocks.mergeSort fun a b => a.addr ≤ b.addr
    checkApart blocks
    let freeList ← insertAll s.limit s.freeList blocks none
    .ok { s with freeList := freeList }

/-! ## The Arena as a Whole -/

/-- The free bytes, with the free blocks counted so far. -/
def availableFrom : List Nat → Nat → List Block → Except String Nat
  | _, total, [] => .ok total
  | visited, total, curr :: next => do
    guardThat (curr.addr ∉ visited) "Cyclic free list detected"
    guardThat (freeBlockSize ≤ curr.size) "Invalid free block size"
    availableFrom (curr.addr :: visited) (total + curr.size) next

def FreeListAllocator.available : Except String Nat :=
  availableFrom [] 0 s.freeList

def FreeListAllocator.reset : FreeListAllocator :=
  { s with freeList := [⟨0, s.limit⟩], allocatedSizes := [] }

/-! ## Walking the Arena -/

/-- Visits the headers of the allocated blocks from `current` on; `fb` is what is left of
    the free list. -/
def iterateFrom (header : Nat → Nat) (limit current : Nat) (fb : List Block) :
    Except String (List Nat) :=
  if hlt : current < limit then
    match fb with
    | f :: next =>
      if f.addr = current then
        if h : f.size < freeBlockSize then .error "Free block too small"
        else if f.size % 8 ≠ 0 then .error "Free block not aligned"
        else if limit < current + f.size then .error "Free block out of bounds"
        else iterateFrom header limit (current + f.size) next
      else if f.addr < current then .error "Free list ordering error"
      else if h : header current < headerSize then .error "Invalid object size"
      else if header current % 8 ≠ 0 then .error "Object not aligned"
      else if limit < current + header current then .error "Object out of bounds"
      else if f.addr < current + header current then .error "Object overlaps with free block"
      else (iterateFrom header limit (current + header current) (f :: next)).map (current :: ·)
    | [] =>
      if h : header current < headerSize then .error "Invalid object size"
      else if header current % 8 ≠ 0 then .error "Object not aligned"
      else if limit < current + header current then .error "Object out of bounds"
      else (iterateFrom header limit (current + header current) []).map (current :: ·)
  else if current ≠ limit then .error "Did not reach end"
  else if fb.isEmpty then .ok []
  else .error "Free list not fully consumed"
termination_by limit - current
decreasing_by
  all_goals
    simp only [freeBlockSize, headerSize] at *
    omega

def FreeListAllocator.iterateAllocated : Except String (List Nat) :=
  iterateFrom s.header s.limit 0 s.freeList

/-- The first step of `validate`: the free list itself, with the addresses seen so far and
    the end of the block before. -/
def validateList (limit : Nat) : List Nat → Option Block → List Block → Bool
  | _, _, [] => true
  | seen, prev, curr :: next =>
    !seen.contains curr.addr && curr.addr < limit && curr.addr + curr.size ≤ limit &&
      freeBlockSize ≤ curr.size && curr.size % 8 == 0 &&
      (match prev with
        | none => true
        | some p => p.addr < curr.addr && p.addr + p.size < curr.addr) &&
      validateList limit (curr.addr :: seen) (some curr) next

/-- The second step: the whole arena. The result is the allocated total; `none` is a
    check that fails, or a walk that goes on for more than `fuel` blocks. -/
def validateScan (header : Nat → Nat) (limit : Nat) : Nat → Nat → List Block → Option Nat
  | 0, _, _ => none
  | fuel + 1, scan, fb =>
    if scan < limit then
      match fb with
      | f :: next =>
        if f.addr = scan then validateScan header limit fuel (scan + f.size) next
        else if f.addr < scan then none
        else if header scan < headerSize ∨ header scan % 8 ≠ 0 ∨ limit < scan + header scan then
          none
        else if f.addr < scan + header scan then none
        else (validateScan header limit fuel (scan + header scan) (f :: next)).map
          (header scan + ·)
      | [] =>
        if header scan < headerSize ∨ header scan % 8 ≠ 0 ∨ limit < scan + header scan then none
        else (validateScan header limit fuel (scan + header scan) []).map (header scan + ·)
    else if scan = limit ∧ fb.isEmpty then some 0
    else none

def FreeListAllocator.validate : Bool :=
  validateList s.limit [] none s.freeList &&
    match validateScan s.header s.limit (s.limit + 1) 0 s.freeList with
    | none => false
    | some allocatedTotal => (s.freeList.map Block.size).sum + allocatedTotal == s.limit

end Camel.Alloc
