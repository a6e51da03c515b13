import Is2.Core.Words

/-!
# The block queue `nbq`

`nbq.cc` keeps bytes in a `std::list` of heap blocks (`nb_t`) with two iterators into that list:
the block being written and the block being read.  Two 64-bit counters, `m_cur_write_offset` and
`m_total_read_avail`, are maintained next to the blocks and never recomputed on the write path.

The embedding keeps the blocks, the iterators and the counters apart, exactly as the code does,
so that they can disagree.  Three conventions:

* A function that dereferences or advances `end()`, or touches a block that was freed, has no
  defined behaviour; it answers `none`.  A loop that does not end within the number of turns its
  own progress allows answers `none` too.
* `underflow` is a history bit.  No code reads it; it is raised when one of the two 64-bit
  counters is decremented below zero.
* A block built by `join_ref` points into the buffer of another queue.  Here it holds a copy of
  the bytes it points at.
-/

namespace Is2

/-! ## Blocks -/

/-- `nb_struct`.  `data` is the whole allocation, so its length is `m_len`. -/
structure Nb where
  data : List UInt8
  written : ℕ
  read : ℕ
  ref : Bool
deriving DecidableEq, Repr

namespace Nb

/-- `nb_struct(uint32_t)`: a fresh allocation. -/
def alloc (len : ℕ) : Nb := ⟨List.replicate len 0, 0, 0, false⟩

/-- `nb_struct(char *, uint32_t)`: a reference to bytes that are all written. -/
def refTo (bytes : List UInt8) : Nb := ⟨bytes, bytes.length, 0, true⟩

def size (b : Nb) : ℕ := b.data.length

def writeAvail (b : Nb) : ℕ := b.size - b.written

def readAvail (b : Nb) : ℕ := b.written - b.read

def writeInc (b : Nb) (n : ℕ) : Nb := { b with written := b.written + n }

def writeReset (b : Nb) : Nb := { b with written := 0, read := 0 }

def readInc (b : Nb) (n : ℕ) : Nb := { b with read := b.read + n }

def readReset (b : Nb) : Nb := { b with read := 0 }

/-- `memcpy` to `write_ptr()`; writing past the allocation is undefined. -/
def store (b : Nb) (bytes : List UInt8) : Option Nb :=
  if b.written + bytes.length ≤ b.size then
    some { b with data := b.data.take b.written ++ bytes ++ b.data.drop (b.written + bytes.length) }
  else none

/-- The `n` bytes at `read_ptr()`; reading past the allocation is undefined. -/
def load (b : Nb) (n : ℕ) : Option (List UInt8) :=
  if b.read + n ≤ b.size then some ((b.data.drop b.read).take n) else none

end Nb

/-! ## Iterators -/

/-- A `std::list` iterator: a block by position, `end()`, or an element that was erased.
`end()` stays `end()` when blocks are appended. -/
inductive Iter where
  | block (i : ℕ)
  | stop
  | freed
deriving DecidableEq, Repr

namespace Iter

/-- What `pop_front` does to an iterator of the same list. -/
def popFront : Iter → Iter
  | block 0 => freed
  | block (i + 1) => block i
  | stop => stop
  | freed => freed

end Iter

/-! ## The queue -/

structure Nbq where
  q : List Nb
  bsize : ℕ
  curWriteBlock : Iter
  curReadBlock : Iter
  curWriteOffset : ℕ
  totalReadAvail : ℕ
  maxReadQueue : ℤ
  underflow : Bool
deriving DecidableEq, Repr

namespace Nbq

/-- `nbq(uint32_t)`. -/
def init (bsize : ℕ) : Nbq := ⟨[], bsize, .stop, .stop, 0, 0, -1, false⟩

/-- `m_q.begin()`. -/
def first (q : Nbq) : Iter := if q.q = [] then .stop else .block 0

/-- `--m_q.end()`. -/
def last (q : Nbq) : Option Iter := if q.q = [] then none else some (.block (q.q.length - 1))

/-- `*it`. -/
def deref (q : Nbq) : Iter → Option Nb
  | .block i => q.q[i]?
  | _ => none

/-- `++it`. -/
def next (q : Nbq) : Iter → Option Iter
  | .block i =>
      if i + 1 < q.q.length then some (.block (i + 1))
      else if i + 1 = q.q.length then some .stop
      else none
  | _ => none

/-- Apply a block method that mutates through the iterator. -/
def update (q : Nbq) (f : Nb → Nb) : Iter → Option Nbq
  | .block i => if i < q.q.length then some { q with q := q.q.modify i f } else none
  | _ => none

/-- `m_cur_write_offset -= n`. -/
def decWriteOffset (q : Nbq) (n : ℕ) : Nbq :=
  { q with
    curWriteOffset := sub64 q.curWriteOffset n
    underflow := q.underflow || decide (q.curWriteOffset < n) }

/-- `m_total_read_avail -= n`. -/
def decReadAvail (q : Nbq) (n : ℕ) : Nbq :=
  { q with
    totalReadAvail := sub64 q.totalReadAvail n
    underflow := q.underflow || decide (q.totalReadAvail < n) }

/-- `nbq::read_avail`. -/
def readAvail (q : Nbq) : ℕ := q.totalReadAvail

/-- `nbq::read_avail_is_max_limit`. -/
def readAvailIsMaxLimit (q : Nbq) : Bool :=
  decide (0 < q.maxReadQueue) && decide (q.maxReadQueue ≤ q.totalReadAvail)

/-! ### Block writing -/

/-- `nbq::b_write_avail`. -/
def bWriteAvail (q : Nbq) : Option ℕ :=
  match q.curWriteBlock with
  | .stop => some 0
  | it => (q.deref it).map Nb.writeAvail

/-- `nbq::b_write_add_avail`. -/
def bWriteAddAvail (q : Nbq) : Option (Nbq × ℤ) := do
  let q := { q with q := q.q ++ [Nb.alloc q.bsize] }
  let q ←
    if q.q.length = 1 then
      some { q with curReadBlock := q.first, curWriteBlock := q.first }
    else do
      let b ← q.deref q.curWriteBlock
      let l ← q.last
      if b.writeAvail = 0 ∧ q.curWriteBlock ≠ l then
        let it ← q.next q.curWriteBlock
        some { q with curWriteBlock := it }
      else some q
  let b ← q.deref q.curWriteBlock
  some (q, toInt32 b.writeAvail)

/-- `nbq::b_write_incr`. -/
def bWriteIncr (q : Nbq) (n : ℕ) : Option Nbq := do
  let q := { q with curWriteOffset := q.curWriteOffset + n }
  let q ← q.update (·.writeInc n) q.curWriteBlock
  let q := { q with totalReadAvail := q.totalReadAvail + n }
  let b ← q.deref q.curWriteBlock
  let l ← q.last
  let q ←
    if b.writeAvail = 0 ∧ q.curWriteBlock ≠ l then do
      let it ← q.next q.curWriteBlock
      some { q with curWriteBlock := it }
    else some q
  -- check for cur read block
  if 0 < n then
    let r ← q.deref q.curReadBlock
    if r.readAvail = 0 then
      let it ← q.next q.curReadBlock
      some { q with curReadBlock := it }
    else some q
  else some q

/-- `memcpy(b_write_ptr(), bytes)`. -/
def bWriteStore (q : Nbq) (bytes : List UInt8) : Option Nbq := do
  let b ← q.deref q.curWriteBlock
  let b' ← b.store bytes
  q.update (fun _ => b') q.curWriteBlock

/-- The head of every writing loop: a block with room, or the error that ends the loop. -/
def bWriteRoom (q : Nbq) : Option (Nbq × Option ℕ) := do
  let avail ← q.bWriteAvail
  if avail = 0 then
    let (q, st) ← q.bWriteAddAvail
    if st ≤ 0 then some (q, none)
    else
      let avail ← q.bWriteAvail
      some (q, some avail)
  else some (q, some avail)

/-- The loop of `nbq::write`, at most `fuel` turns. -/
def writeLoop : ℕ → Nbq → List UInt8 → ℕ → Option (Nbq × ℤ)
  | _, q, [], done => some (q, done)
  | 0, _, _ :: _, _ => none
  | fuel + 1, q, x :: left, done => do
      match ← q.bWriteRoom with
      | (q, none) => some (q, -1)
      | (q, some avail) =>
          let n := min (x :: left).length avail
          let q ← q.bWriteStore ((x :: left).take n)
          let q ← q.bWriteIncr n
          writeLoop fuel q ((x :: left).drop n) (done + n)

/-- `nbq::write`; the buffer is `none` for a null pointer. -/
def write (q : Nbq) : Option (List UInt8) → Option (Nbq × ℤ)
  | none => some (q, -1)
  | some buf => q.writeLoop buf.length buf 0

/-! ### Block reading -/

/-- `nbq::b_read_avail`. -/
def bReadAvail (q : Nbq) : Option ℤ :=
  if q.curReadBlock = .stop then some 0
  else if q.curReadBlock = q.curWriteBlock then some (toInt32 q.totalReadAvail)
  else (q.deref q.curReadBlock).map fun b => toInt32 b.readAvail

/-- `nbq::b_read_incr`. -/
def bReadIncr (q : Nbq) (n : ℕ) : Option Nbq := do
  let avail ← q.bReadAvail
  let q := q.decReadAvail n
  let left := (toUInt32 avail + 2 ^ 32 - n) % 2 ^ 32
  let q ← q.update (·.readInc n) q.curReadBlock
  if left = 0 ∧ q.totalReadAvail ≠ 0 then
    let it ← q.next q.curReadBlock
    some { q with curReadBlock := it }
  else some q

/-- The bytes at `b_read_ptr()`; nothing can be copied from `end()`. -/
def bReadLoad (q : Nbq) (n : ℕ) : Option (List UInt8) :=
  if n = 0 then some [] else (q.deref q.curReadBlock).bind (·.load n)

/-- `nbq::peek`. -/
def peek (q : Nbq) : Option UInt8 :=
  if q.readAvail = 0 then some 0
  else do
    let b ← q.deref q.curReadBlock
    b.data[b.read]?

/-- The loop of `nbq::read`, at most `fuel` turns; `left` bytes are still to be read. -/
def readLoop : ℕ → Nbq → ℕ → List UInt8 → ℕ → Option (Nbq × List UInt8 × ℕ)
  | _, q, 0, out, done => some (q, out, done)
  | 0, _, _ + 1, _, _ => none
  | fuel + 1, q, left + 1, out, done => do
      let avail ← q.bReadAvail
      let n := min (left + 1) (toUInt32 avail)
      let bytes ← q.bReadLoad n
      let q ← q.bReadIncr n
      readLoop fuel q (left + 1 - n) (out ++ bytes) (done + n)

/-- `nbq::read`: the bytes copied out and their number.  A turn of the loop reads a byte or moves
to a later block, which bounds the turns.  With a null buffer the caller drops the bytes. -/
def read (q : Nbq) (len : ℕ) : Option (Nbq × List UInt8 × ℕ) :=
  let left := min len q.readAvail
  q.readLoop (left + q.q.length) left [] 0

/-- `nbq::reset_read`. -/
def resetRead (q : Nbq) : Nbq :=
  let q := { q with q := q.q.map Nb.readReset }
  { q with totalReadAvail := (q.q.map Nb.readAvail).sum, curReadBlock := q.first }

/-- `nbq::read_seek`. -/
def readSeek (q : Nbq) (off : ℕ) : Option (Nbq × ℕ) := do
  let (q, _, n) ← q.resetRead.read off
  some (q, n)

/-- `nbq::read_from`. -/
def readFrom (q : Nbq) (off len : ℕ) : Option (Nbq × List UInt8 × ℕ) := do
  let (q, _) ← q.readSeek off
  q.read len

/-! ### Resetting -/

/-- `nbq::reset_write`: references are dropped, the other blocks are kept for reuse. -/
def resetWrite (q : Nbq) : Nbq :=
  let q := { q with q := (q.q.filter fun b : Nb => !b.ref).map Nb.writeReset }
  { q with
    curWriteBlock := q.first, curReadBlock := q.first, totalReadAvail := 0, curWriteOffset := 0 }

/-- `nbq::reset`. -/
def reset (q : Nbq) : Nbq :=
  { q with
    q := [], curWriteBlock := .stop, curReadBlock := .stop, curWriteOffset := 0,
    totalReadAvail := 0 }

/-- The loop of `nbq::shrink`: pop blocks until the block being read is the first one. -/
def shrinkLoop (fuel : ℕ) (q : Nbq) : Option Nbq :=
  if q.first = q.curReadBlock then some q
  else
    match fuel, q.q with
    | fuel + 1, b :: rest =>
        shrinkLoop fuel <| decWriteOffset
          { q with
            q := rest
            curReadBlock := q.curReadBlock.popFront
            curWriteBlock := q.curWriteBlock.popFront } b.size
    | _, _ => none

/-- `nbq::shrink`. -/
def shrink (q : Nbq) : Option Nbq := do
  let q ← q.shrinkLoop q.q.length
  if q.curReadBlock ≠ .stop ∧ q.curWriteBlock ≠ .stop ∧ q.curReadBlock = q.curWriteBlock then
    let b ← q.deref q.curReadBlock
    if b.readAvail = 0 ∧ b.writeAvail = 0 then some q.reset else some q
  else some q

/-! ### Several queues -/

/-- The loop of `nbq::write_q`, at most `fuel` turns. -/
def writeQLoop : ℕ → Nbq → Nbq → ℕ → ℕ → Option (Nbq × Nbq × ℤ)
  | _, q, src, 0, done => some (q, src, done)
  | 0, _, _, _ + 1, _ => none
  | fuel + 1, q, src, left + 1, done => do
      match ← q.bWriteRoom with
      | (q, none) => some (q, src, -1)
      | (q, some avail) =>
          let (src, bytes, n) ← src.read (min (left + 1) avail)
          let q ← q.bWriteStore bytes
          if n = 0 then some (q, src, done)
          else
            let q ← q.bWriteIncr n
            writeQLoop fuel q src (left + 1 - n) (done + n)

/-- `nbq::write_q`. -/
def writeQ (q src : Nbq) : Option (Nbq × Nbq × ℤ) :=
  q.writeQLoop src.readAvail src src.readAvail 0

/-- The search of `nbq::split`: the first block that holds the offset, and the offset inside it. -/
def splitFind : List Nb → ℕ → ℕ → ℕ × ℕ
  | [], i, off => (i, off)
  | b :: rest, i, off =>
      if off < b.written then (i, off) else splitFind rest (i + 1) (off - b.written)

/-- The tail loop of `nbq::split`: move the blocks, with their share of the write offset. -/
def splitMove (q tail : Nbq) : List Nb → Nbq × Nbq
  | [] => (q, tail)
  | b :: rest =>
      splitMove (q.decWriteOffset b.written)
        { tail with
          q := tail.q ++ [b.readReset]
          curWriteOffset := tail.curWriteOffset + b.written } rest

/-- `nbq::split`: the status, the queue and the tail, if one was made. -/
def split (q : Nbq) (off : ℕ) : Option (ℤ × Nbq × Option Nbq) := do
  if off = 0 then return (0, q, none)
  if q.curWriteOffset ≤ off then return (-1, q, none)
  let (i, iOff) := splitFind q.q 0 off
  -- write the remainder of the block the offset falls into; the search stopped at a block with
  -- more than `iOff` bytes written, so the check of that at this place never fires
  let (q, tail) ←
    if 0 < iOff then do
      let b ← q.q[i]?
      let (tail, _) ← (init q.bsize).bWriteAddAvail
      let (tail, _) ← tail.write (some ((b.data.drop iOff).take (b.written - iOff)))
      let q ← q.update (fun b => b.writeReset.writeInc iOff) (.block i)
      some (q, tail)
    else some (q, init q.bsize)
  if q.q.length ≤ i then none
  -- add the tail
  let (q, tail) := splitMove { q with q := q.q.take (i + 1) } tail (q.q.drop (i + 1))
  let tw ← tail.last
  let tail := resetRead { tail with curWriteBlock := tw, curReadBlock := tail.first }
  let qw ← q.last
  let q := resetRead { q with curWriteBlock := qw }
  return (0, q, some tail)

/-- `nbq::join_ref`. -/
def joinRef (q tail : Nbq) : Nbq :=
  { tail.q.foldl
      (fun q b =>
        { q with
          q := q.q ++ [Nb.refTo (b.data.take b.written)]
          curWriteOffset := q.curWriteOffset + b.written
          totalReadAvail := q.totalReadAvail + b.written })
      q with
    curWriteBlock := .stop }

/-- `copy_part`: the `len` bytes at `off`; what could not be read is left zero. -/
def copyPart (q : Nbq) (off len : ℕ) : Option (Nbq × List UInt8) := do
  let (q, bytes, _) ← q.readFrom off len
  some (q, bytes ++ List.replicate (len - bytes.length) 0)

end Nbq

end Is2
