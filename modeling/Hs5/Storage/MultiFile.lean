import Hs5.Data.VarInt
import Hs5.Support.ByteFile

/-!
# The data file in chunks

`MultiFile` stores one file in chunk files of a maximum size, whose names end
in consecutive numbers.  `mapOp` cuts an operation on a range at the chunk
boundaries and applies it chunk by chunk; operations that write create chunk
files up to the one they need.  The constructor opens the chunk files that
exist and gives up if one of them, except the last, does not have the maximum
size.
-/

namespace Hs5

open ByteFile

/-- The chunk files by number, those that are missing included, and how many
of them are open. -/
structure MultiFile where
  maxSize : ℕ
  files : List (Option Bytes)
  chunks : ℕ

def fillPageSize : ℕ := 4096

namespace MultiFile

/-! ## Chunk files -/

def file? (m : MultiFile) (i : ℕ) : Option Bytes := (m.files[i]?).join

def file (m : MultiFile) (i : ℕ) : Bytes := (m.file? i).getD []

def setFile (m : MultiFile) (i : ℕ) (f : Option Bytes) : MultiFile :=
  { m with
    files :=
      if i < m.files.length then m.files.set i f
      else m.files ++ (List.replicate (i - m.files.length) none ++ [f]) }

/-- Open the next chunk file and create it if there is none. -/
def addChunk (m : MultiFile) : MultiFile :=
  let opened :=
    match m.file? m.chunks with
    | some _ => m
    | none => m.setFile m.chunks (some [])
  { opened with chunks := m.chunks + 1 }

def addChunks : ℕ → MultiFile → MultiFile
  | 0, m => m
  | n + 1, m => addChunks n m.addChunk

/-- Open and create chunk files as long as `part` is not open. -/
def extendTo (m : MultiFile) (part : ℕ) : MultiFile :=
  addChunks (part + 1 - m.chunks) m

/-- The loop of the constructor: how many files it opens, unless one is too
short. -/
def openLoop (maxSize : ℕ) : List (Option Bytes) → ℕ → ℕ → Option ℕ
  | some f :: files, idx, lastSize =>
    if idx > 0 ∧ lastSize ≠ maxSize then none
    else openLoop maxSize files (idx + 1) f.length
  | _, idx, _ => some idx

/-- Close the file and open it again for reading and writing. -/
def reopen (m : MultiFile) : MultiFile :=
  match openLoop m.maxSize m.files 0 0 with
  | none => { m with chunks := 0 }
  | some 0 => ({ m with chunks := 0 } : MultiFile).addChunk
  | some (n + 1) => { m with chunks := n + 1 }

def size (m : MultiFile) : ℕ :=
  match m.chunks with
  | 0 => 0
  | n + 1 => (m.file n).length + n * m.maxSize

/-! ## Operations on ranges -/

/-- The loop of `mapOp`, with `fuel` iterations at most. -/
def mapOp {β : Type} (op : β → Bytes → ℕ → ℕ → ℕ × Bytes × β)
    (extend : Bool) : (fuel : ℕ) → MultiFile → β → (count offset ret : ℕ) →
      ℤ × MultiFile × β
  | 0, m, buf, _, _, ret => (ret, m, buf)
  | fuel + 1, m, buf, count, offset, ret =>
    if count = 0 then (ret, m, buf)
    else
      let part := offset / m.maxSize
      let partOffset := offset % m.maxSize
      if m.chunks ≤ part ∧ extend = false then
        (if ret = 0 then -1 else ret, m, buf)
      else
        let m := m.extendTo part
        let currCount := min count (m.maxSize - partOffset)
        let (rc, f, buf) := op buf (m.file part) currCount partOffset
        let m := m.setFile part (some f)
        if rc = 0 then (ret, m, buf)
        else mapOp op extend fuel m buf (count - rc) (offset + rc) (ret + rc)

def readOp (buf f : Bytes) (count offset : ℕ) : ℕ × Bytes × Bytes :=
  let d := (f.drop offset).take count
  (d.length, f, buf ++ d)

/-- `preadFull`: the return value and the bytes in the buffer. -/
def preadFull (m : MultiFile) (count offset : ℕ) : ℤ × Bytes :=
  let (ret, _, buf) := mapOp readOp false count m [] count offset 0
  (ret, buf)

def writeOp (buf f : Bytes) (count offset : ℕ) : ℕ × Bytes × Bytes :=
  (count, writeAt f offset (buf.take count), buf.drop count)

def pwriteFull (m : MultiFile) (buf : Bytes) (offset : ℕ) : MultiFile :=
  (mapOp writeOp true buf.length m buf buf.length offset 0).2.1

/-- A write of everything to the start of a page is followed by zeros up to
the end of its last page. -/
def fillPageOp (count : ℕ) (buf f : Bytes) (mapCount offset : ℕ) :
    ℕ × Bytes × Bytes :=
  if mapCount = count ∧ offset % fillPageSize = 0 ∧
      mapCount % fillPageSize ≠ 0 then
    (mapCount,
      writeAt f offset (buf.take mapCount ++
        List.replicate (fillPageSize - mapCount % fillPageSize) 0),
      buf.drop mapCount)
  else writeOp buf f mapCount offset

def pwriteFullFillPage (m : MultiFile) (buf : Bytes) (offset : ℕ) :
    MultiFile :=
  (mapOp (fillPageOp buf.length) true buf.length m buf buf.length offset 0).2.1

def punchOp (_ : Unit) (f : Bytes) (count offset : ℕ) : ℕ × Bytes × Unit :=
  (count, clear f offset count, ())

def punchHole (m : MultiFile) (spos size : ℕ) : MultiFile :=
  (mapOp punchOp false size m () size spos 0).2.1

def allocOp (_ : Unit) (f : Bytes) (count offset : ℕ) : ℕ × Bytes × Unit :=
  (1, grow f (offset + count), ())

def alloc (m : MultiFile) (len : ℕ) : MultiFile :=
  if len = 0 then m else (mapOp allocOp true 1 m () 1 (len - 1) 0).2.1

def truncateOp (_ : Unit) (f : Bytes) (count offset : ℕ) : ℕ × Bytes × Unit :=
  (count, resize f (offset + count), ())

/-- The loop of `truncate` that removes bytes from the end. -/
def shrink : (fuel : ℕ) → MultiFile → (toTruncate : ℕ) → MultiFile
  | 0, m, _ => m
  | fuel + 1, m, toTruncate =>
    if toTruncate = 0 ∨ m.chunks = 0 then m
    else
      let last := m.chunks - 1
      let chunkSize := (m.file last).length
      let currTrunc := min chunkSize toTruncate
      if currTrunc = chunkSize then
        shrink fuel { m.setFile last none with chunks := last }
          (toTruncate - currTrunc)
      else
        shrink fuel (m.setFile last (some
          (resize (m.file last) (chunkSize - currTrunc))))
          (toTruncate - currTrunc)

def truncate (m : MultiFile) (len : ℕ) : MultiFile :=
  let csize := m.size
  if len > csize then
    (mapOp truncateOp true (len - csize) m () (len - csize) csize 0).2.1
  else m.shrink (m.chunks + 1) (csize - len)

end MultiFile

end Hs5
