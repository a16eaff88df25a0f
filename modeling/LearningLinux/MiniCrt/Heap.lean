import LearningLinux.Lib.ByteMem

/-!
# The heap of miniCRT, as `malloc.c` computes it

The library is built for a 32-bit machine, so a pointer, an `unsigned` and a
`size_t` are numbers below `2 ^ 32`, `NULL` is `0` and every sum wraps
around. A `heap_header` is sixteen bytes of the process's memory: `type`,
`size`, `next` and `prev`, four bytes each. Nothing keeps headers aligned or
apart, a block of an odd size puts the next header at an odd address, and a
header can be read where none was ever written; hence the flat byte memory.

The two system calls of `mini_crt_heap_init` are parameters: what `brk(0)`
answers, and what `brk(end)` answers for an `end`.
-/

namespace LearningLinux.MiniCrt

open Lib

def HEAP_BLOCK_FREE : Nat := 0xABABABAB
def HEAP_BLOCK_USED : Nat := 0xCDCDCDCD

/-- `sizeof(heap_header)`. -/
def HEADER_SIZE : Nat := 16

def heapSize : Nat := 1024 * 1024 * 32

/-- Sums of `unsigned`s and of pointers. -/
def add32 (a b : Nat) : Nat := (a + b) % 2 ^ 32

/-- `ADDR_ADD(ptr, -HEADER_SIZE)`: the negated `size_t` is
`2 ^ 32 - HEADER_SIZE`. -/
def headerOf (ptr : Nat) : Nat := add32 ptr (2 ^ 32 - HEADER_SIZE)

/-! ## The fields of the header at an address -/

def type (m : ByteMem) (h : Nat) : Nat := m.load32 h
def size (m : ByteMem) (h : Nat) : Nat := m.load32 (h + 4)
def next (m : ByteMem) (h : Nat) : Nat := m.load32 (h + 8)
def prev (m : ByteMem) (h : Nat) : Nat := m.load32 (h + 12)

def setType (m : ByteMem) (h v : Nat) : ByteMem := m.store32 h v
def setSize (m : ByteMem) (h v : Nat) : ByteMem := m.store32 (h + 4) v
def setNext (m : ByteMem) (h v : Nat) : ByteMem := m.store32 (h + 8) v
def setPrev (m : ByteMem) (h v : Nat) : ByteMem := m.store32 (h + 12) v

/-- The global state: the memory and the variable `list_head`. -/
structure Heap where
  mem : ByteMem
  listHead : Nat

/-! ## `free` -/

/-- The first `if` of `free`, with the value of `header` after it. -/
def mergePrev (m : ByteMem) (header : Nat) : ByteMem × Nat :=
  if prev m header ≠ 0 ∧ type m (prev m header) = HEAP_BLOCK_FREE then
    let m := setNext m (prev m header) (next m header)
    let m := if next m header ≠ 0 then
        setPrev m (next m header) (prev m header)
      else m
    let m := setSize m (prev m header)
      (add32 (size m (prev m header)) (size m header))
    (m, prev m header)
  else (m, header)

/-- The second `if` of `free`. -/
def mergeNext (m : ByteMem) (header : Nat) : ByteMem :=
  if next m header ≠ 0 ∧ type m (next m header) = HEAP_BLOCK_FREE then
    let m := setSize m header
      (add32 (size m header) (size m (next m header)))
    setNext m header (next m (next m header))
  else m

def free (heap : Heap) (ptr : Nat) : Heap :=
  let header := headerOf ptr
  if type heap.mem header ≠ HEAP_BLOCK_USED then heap
  else
    let m := setType heap.mem header HEAP_BLOCK_FREE
    let (m, header) := mergePrev m header
    { heap with mem := mergeNext m header }

/-! ## `malloc` -/

/-- The branch of `malloc` that splits a block. -/
def splitBlock (m : ByteMem) (header sz : Nat) : ByteMem :=
  let nxt := add32 header (add32 sz HEADER_SIZE)
  let m := setPrev m nxt header
  let m := setNext m nxt (next m header)
  let m := setType m nxt HEAP_BLOCK_FREE
  let m := setSize m nxt
    ((size m header + (2 ^ 32 - add32 sz HEADER_SIZE)) % 2 ^ 32)
  let m := setNext m header nxt
  let m := setSize m header (add32 sz HEADER_SIZE)
  setType m header HEAP_BLOCK_USED

/-- The loop of `malloc`, for at most `fuel` blocks: the memory it leaves and
the pointer it returns. An iteration that does not return changes nothing, so
a loop that visits more than `2 ^ 32` headers visits one of them twice and
never ends; `none` is that outcome. -/
def mallocLoop (m : ByteMem) (sz : Nat) : Nat → Nat → Option (ByteMem × Nat)
  | 0, _ => none
  | fuel + 1, header =>
      if header = 0 then some (m, 0)
      else if type m header = HEAP_BLOCK_USED then
        mallocLoop m sz fuel (next m header)
      else if size m header > add32 sz HEADER_SIZE ∧
          size m header ≤ add32 sz (HEADER_SIZE * 2) then
        some (setType m header HEAP_BLOCK_USED, add32 header HEADER_SIZE)
      else if size m header > add32 sz (HEADER_SIZE * 2) then
        some (splitBlock m header sz, add32 header HEADER_SIZE)
      else mallocLoop m sz fuel (next m header)

def malloc (heap : Heap) (sz : Nat) : Option (Heap × Nat) :=
  if sz = 0 then some (heap, 0)
  else
    (mallocLoop heap.mem sz (2 ^ 32 + 1) heap.listHead).map fun r =>
      ({ heap with mem := r.1 }, r.2)

/-! ## `mini_crt_heap_init` -/

/-- What it answers, with the state it leaves; `listHead` is the value of the
global variable before. -/
def miniCrtHeapInit (brkNow : Nat) (brk : Nat → Nat) (heap : Heap) :
    Nat × Heap :=
  let base := brkNow
  let end_ := brk (add32 base heapSize)
  if end_ = 0 then (0, heap)
  else
    let m := setSize heap.mem base heapSize
    let m := setType m base HEAP_BLOCK_FREE
    let m := setNext m base 0
    let m := setPrev m base 0
    (1, { mem := m, listHead := base })

end LearningLinux.MiniCrt
