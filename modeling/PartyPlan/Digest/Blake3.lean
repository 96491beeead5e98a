/-! The BLAKE3 hash of a byte string. The input is cut into chunks of 1024 bytes, each chunk into
blocks of 64; chunk values are joined pairwise in a tree whose left side is always a full power of
two of chunks. -/
namespace PartyPlan.Blake3

abbrev Words (n : Nat) := Vector UInt32 n

def iv : Words 8 :=
  #v[0x6A09E667, 0xBB67AE85, 0x3C6EF372, 0xA54FF53A, 0x510E527F, 0x9B05688C, 0x1F83D9AB, 0x5BE0CD19]

def chunkStart : UInt32 := 1
def chunkEnd : UInt32 := 2
def parent : UInt32 := 4
def root : UInt32 := 8

def rotateRight (w : UInt32) (n : UInt32) : UInt32 := (w >>> n) ||| (w <<< (32 - n))

/-- Mix two message words into one column or diagonal of the state. -/
def mix (s : Words 16) (a b c d : Fin 16) (x y : UInt32) : Words 16 :=
  let s := s.set a (s[a] + s[b] + x)
  let s := s.set d (rotateRight (s[d] ^^^ s[a]) 16)
  let s := s.set c (s[c] + s[d])
  let s := s.set b (rotateRight (s[b] ^^^ s[c]) 12)
  let s := s.set a (s[a] + s[b] + y)
  let s := s.set d (rotateRight (s[d] ^^^ s[a]) 8)
  let s := s.set c (s[c] + s[d])
  s.set b (rotateRight (s[b] ^^^ s[c]) 7)

/-- Mix the columns, then the diagonals. -/
def round (s m : Words 16) : Words 16 :=
  let s := mix s 0 4 8 12 m[0] m[1]
  let s := mix s 1 5 9 13 m[2] m[3]
  let s := mix s 2 6 10 14 m[4] m[5]
  let s := mix s 3 7 11 15 m[6] m[7]
  let s := mix s 0 5 10 15 m[8] m[9]
  let s := mix s 1 6 11 12 m[10] m[11]
  let s := mix s 2 7 8 13 m[12] m[13]
  mix s 3 4 9 14 m[14] m[15]

/-- The order in which a round passes the message on to the next. -/
def permute (m : Words 16) : Words 16 :=
  #v[m[2], m[6], m[3], m[10], m[7], m[0], m[4], m[13], m[1], m[11], m[12], m[5], m[9], m[14], m[15], m[8]]

def rounds : Nat → Words 16 → Words 16 → Words 16
  | 0, s, _ => s
  | n + 1, s, m => rounds n (round s m) (permute m)

/-- A call of the compression function that is yet to be made. The flag `root` is added when its
value is the hash itself. -/
structure Output where
  chaining : Words 8
  block : Words 16
  counter : Nat
  length : Nat
  flags : UInt32

def Output.value (o : Output) (extra : UInt32) : Words 8 :=
  let start := o.chaining
  let s : Words 16 :=
    #v[start[0], start[1], start[2], start[3], start[4], start[5], start[6], start[7], iv[0], iv[1], iv[2], iv[3],
      o.counter.toUInt32, (o.counter >>> 32).toUInt32, o.length.toUInt32, o.flags ||| extra]
  let s := rounds 7 s o.block
  Vector.ofFn fun i : Fin 8 => s[i.val] ^^^ s[i.val + 8]

def byteAt (bytes : ByteArray) (limit i : Nat) : UInt32 :=
  if h : i < bytes.size then if i < limit then bytes[i].toUInt32 else 0 else 0

/-- The sixteen little-endian words of the block at `start`, padded with zeros. -/
def blockAt (bytes : ByteArray) (start limit : Nat) : Words 16 :=
  Vector.ofFn fun i =>
    let at4 := start + 4 * i.val
    byteAt bytes limit at4 ||| (byteAt bytes limit (at4 + 1) <<< 8) |||
      (byteAt bytes limit (at4 + 2) <<< 16) ||| (byteAt bytes limit (at4 + 3) <<< 24)

/-- Compress the blocks of a chunk from `start` on, all but the last. `left` bounds the blocks. -/
def chunkBlocks (bytes : ByteArray) (counter limit : Nat) :
    Nat → Nat → Words 8 → UInt32 → Output
  | 0, start, c, flags => ⟨c, blockAt bytes start limit, counter, limit - start, flags ||| chunkEnd⟩
  | left + 1, start, c, flags =>
    if limit ≤ start + 64 then
      ⟨c, blockAt bytes start limit, counter, limit - start, flags ||| chunkEnd⟩
    else
      let o : Output := ⟨c, blockAt bytes start limit, counter, 64, flags⟩
      chunkBlocks bytes counter limit left (start + 64) (o.value 0) 0

def chunk (bytes : ByteArray) (n : Nat) : Output :=
  chunkBlocks bytes n (min bytes.size (1024 * (n + 1))) 15 (1024 * n) iv chunkStart

def join (l r : Output) : Output :=
  let a := l.value 0
  let b := r.value 0
  ⟨iv, Vector.ofFn fun i : Fin 16 => if i.val < 8 then a.toArray.getD i.val 0
    else b.toArray.getD (i.val - 8) 0, 0, 64, parent⟩

/-- The largest power of two that leaves some of several chunks. -/
def leftCount (count : Nat) : Nat := Nat.pow 2 (count - 1).log2

theorem leftCount_pos (count : Nat) : 0 < leftCount count := Nat.two_pow_pos _

theorem leftCount_lt {count : Nat} (h : 1 < count) : leftCount count < count := by
  have : leftCount count ≤ count - 1 := Nat.log2_self_le (by omega)
  omega

/-- The output of `count` chunks from `first` on. Of more than one, the largest power of two that
leaves some goes left. -/
def tree (bytes : ByteArray) (first count : Nat) : Output :=
  if _h : count ≤ 1 then chunk bytes first
  else
    join (tree bytes first (leftCount count))
      (tree bytes (first + leftCount count) (count - leftCount count))
termination_by count
decreasing_by
  · exact leftCount_lt (by omega)
  · have := leftCount_pos count
    omega

def chunkCount (size : Nat) : Nat := max 1 ((size + 1023) / 1024)

def wordBytes (w : UInt32) : List UInt8 :=
  [w.toUInt8, (w >>> 8).toUInt8, (w >>> 16).toUInt8, (w >>> 24).toUInt8]

def hash (bytes : ByteArray) : List UInt8 :=
  ((tree bytes 0 (chunkCount bytes.size)).value root).toList.flatMap wordBytes

end PartyPlan.Blake3
