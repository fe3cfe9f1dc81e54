import Recheck.Digest

/-!
# BLAKE3

The hash function BLAKE3 with its default output of 32 bytes. The input is cut into chunks of 1024
bytes and these into blocks of 64 bytes. A chunk's blocks are compressed one after the other; the
chunks' values are then joined in pairs, level by level, where a value without a partner moves up
unchanged, until one pair is left, whose compression is marked as the root.
-/

namespace Recheck.Digest

namespace Blake3

/-- Eight words: a chaining value. -/
abbrev Chain := Vector UInt32 8

/-- Sixteen words: the state of a compression, or a block of input. -/
abbrev Block := Vector UInt32 16

/-- The initial chaining value. -/
def initial : Chain :=
  #v[0x6A09E667, 0xBB67AE85, 0x3C6EF372, 0xA54FF53A, 0x510E527F, 0x9B05688C, 0x1F83D9AB, 0x5BE0CD19]

/-- The order in which a round takes the words of the block from those of the round before. -/
def schedule : Vector (Fin 16) 16 := #v[2, 6, 3, 10, 7, 0, 4, 13, 1, 11, 12, 5, 9, 14, 15, 8]

/-! ## Flags -/

/-- First block of a chunk. -/
def chunkStart : UInt32 := 1

/-- Last block of a chunk. -/
def chunkEnd : UInt32 := 2

/-- A pair of chaining values. -/
def parent : UInt32 := 4

/-- The last compression of all. -/
def root : UInt32 := 8

/-! ## Compression -/

/-- The word rotated to the right. -/
def rotateRight (x n : UInt32) : UInt32 := (x >>> n) ||| (x <<< (32 - n))

/-- Mixes two words of the block into four words of the state. -/
def mix (s : Block) (a b c d : Fin 16) (x y : UInt32) : Block :=
  let s := s.set a (s[a] + s[b] + x)
  let s := s.set d (rotateRight (s[d] ^^^ s[a]) 16)
  let s := s.set c (s[c] + s[d])
  let s := s.set b (rotateRight (s[b] ^^^ s[c]) 12)
  let s := s.set a (s[a] + s[b] + y)
  let s := s.set d (rotateRight (s[d] ^^^ s[a]) 8)
  let s := s.set c (s[c] + s[d])
  s.set b (rotateRight (s[b] ^^^ s[c]) 7)

/-- One round: the columns, then the diagonals. -/
def round (s m : Block) : Block :=
  let s := mix s 0 4 8 12 m[0] m[1]
  let s := mix s 1 5 9 13 m[2] m[3]
  let s := mix s 2 6 10 14 m[4] m[5]
  let s := mix s 3 7 11 15 m[6] m[7]
  let s := mix s 0 5 10 15 m[8] m[9]
  let s := mix s 1 6 11 12 m[10] m[11]
  let s := mix s 2 7 8 13 m[12] m[13]
  mix s 3 4 9 14 m[14] m[15]

/-- The block with its words in the order for the next round. -/
def reorder (m : Block) : Block := schedule.map fun i => m[i]

/-- `n` rounds. -/
def rounds : Nat → Block → Block → Block
  | 0, s, _ => s
  | n + 1, s, m => rounds n (round s m) (reorder m)

/-- The chaining value after a block of `length` bytes. -/
def compress (h : Chain) (m : Block) (counter : Nat) (length flags : UInt32) : Chain :=
  let s : Block :=
    #v[h[0], h[1], h[2], h[3], h[4], h[5], h[6], h[7],
      initial[0], initial[1], initial[2], initial[3],
      UInt32.ofNat counter, UInt32.ofNat (counter / 0x100000000), length, flags]
  let s := rounds 7 s m
  #v[s[0] ^^^ s[8], s[1] ^^^ s[9], s[2] ^^^ s[10], s[3] ^^^ s[11], s[4] ^^^ s[12], s[5] ^^^ s[13],
    s[6] ^^^ s[14], s[7] ^^^ s[15]]

/-! ## Chunks and their tree -/

/-- Pieces of `n` elements, the last one shorter; none for an empty list. -/
def pieces {α : Type} (n : Nat) : (count : Nat) → List α → List (List α)
  | 0, _ => []
  | _ + 1, [] => []
  | count + 1, x :: xs => (x :: xs).take n :: pieces n count ((x :: xs).drop n)

/-- The word that four bytes encode, the least significant byte first. -/
def word (bs : List UInt8) (i : Nat) : UInt32 :=
  let byte := fun k => (bs.getD (4 * i + k) 0).toUInt32
  byte 0 ||| (byte 1 <<< 8) ||| (byte 2 <<< 16) ||| (byte 3 <<< 24)

/-- A block of at most 64 bytes as words, filled up with zeros. -/
def block (bs : List UInt8) : Block := Vector.ofFn fun i => word bs i.val

/-- Compresses the blocks of a chunk that follow the first `i`. -/
def chunkFrom (index : Nat) (final : UInt32) : (i : Nat) → Chain → List (List UInt8) → Chain
  | _, h, [] => h
  | i, h, [bs] =>
    compress h (block bs) index (UInt32.ofNat bs.length)
      ((if i = 0 then chunkStart else 0) ||| chunkEnd ||| final)
  | i, h, bs :: rest =>
    chunkFrom index final (i + 1)
      (compress h (block bs) index (UInt32.ofNat bs.length) (if i = 0 then chunkStart else 0)) rest

/-- The value of a chunk. -/
def chunk (index : Nat) (final : UInt32) (bs : List UInt8) : Chain :=
  match pieces 64 16 bs with
  | [] => chunkFrom index final 0 initial [[]]
  | blocks => chunkFrom index final 0 initial blocks

/-- The value of a pair. -/
def pair (a b : Chain) (final : UInt32) : Chain :=
  compress initial (a ++ b) 0 64 (parent ||| final)

/-- One level of the tree. -/
def joinPairs : List Chain → List Chain
  | a :: b :: rest => pair a b 0 :: joinPairs rest
  | rest => rest

/-- The value at the root of a tree. Each level halves the number of values. -/
def top : (levels : Nat) → List Chain → Chain
  | _, [a, b] => pair a b root
  | 0, hs => hs.headD initial
  | levels + 1, hs => top levels (joinPairs hs)

/-- The hash value of a list of bytes. -/
def hash (bs : List UInt8) : Chain :=
  match pieces 1024 (bs.length / 1024 + 1) bs with
  | [] => chunk 0 root []
  | [bs] => chunk 0 root bs
  | chunks => top chunks.length (chunks.zipIdx.map fun (bs, i) => chunk i 0 bs)

/-- A byte as two hexadecimal digits. -/
def hexByte (n : Nat) : List Char := [Nat.digitChar (n / 16 % 16), Nat.digitChar (n % 16)]

/-- A word as hexadecimal digits, the least significant byte first. -/
def hexWord (w : UInt32) : List Char :=
  let n := w.toNat
  hexByte n ++ hexByte (n / 0x100) ++ hexByte (n / 0x10000) ++ hexByte (n / 0x1000000)

end Blake3

/-- The BLAKE3 digest as 64 lower-case hexadecimal digits. -/
def blake3 : Digest where
  hex bs := String.ofList ((Blake3.hash bs).toList.flatMap Blake3.hexWord)

end Recheck.Digest
