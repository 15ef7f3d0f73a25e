/-!
# BLAKE3

The hash of a run of bytes, in its plain mode with 256 bits of output. The input is
cut into chunks, each chunk into blocks that are compressed one after the other, and
the chunks are joined pairwise into a binary tree whose left half is always full.
-/

namespace ModuleLookup.Blake3

/-- Words of a state, a block or a chaining value. -/
abbrev Words := Array UInt32

/-- The initial chaining value. -/
def initial : Words :=
  #[0x6a09e667, 0xbb67ae85, 0x3c6ef372, 0xa54ff53a, 0x510e527f, 0x9b05688c, 0x1f83d9ab,
    0x5be0cd19]

/-- The order in which the words of a block are taken in the next round. -/
def permutation : List Nat :=
  [2, 6, 3, 10, 7, 0, 4, 13, 1, 11, 12, 5, 9, 14, 15, 8]

/-- Marks of a compression: the first and the last block of a chunk, a parent, and
the root of the tree. -/
def chunkStart : UInt32 := 1

@[inherit_doc chunkStart]
def chunkEnd : UInt32 := 2

@[inherit_doc chunkStart]
def parentNode : UInt32 := 4

@[inherit_doc chunkStart]
def rootNode : UInt32 := 8

/-- The bits of a word moved around to the right. -/
def rotate (w : UInt32) (n : UInt32) : UInt32 :=
  (w >>> n) ||| (w <<< (32 - n))

/-- The word at an index; there is always one. -/
def wordAt (s : Words) (i : Nat) : UInt32 :=
  s.getD i 0

/-- Mixes two words into four places of the state. -/
def mix (s : Words) (a b c d : Nat) (x y : UInt32) : Words :=
  let s := s.setIfInBounds a (wordAt s a + wordAt s b + x)
  let s := s.setIfInBounds d (rotate (wordAt s d ^^^ wordAt s a) 16)
  let s := s.setIfInBounds c (wordAt s c + wordAt s d)
  let s := s.setIfInBounds b (rotate (wordAt s b ^^^ wordAt s c) 12)
  let s := s.setIfInBounds a (wordAt s a + wordAt s b + y)
  let s := s.setIfInBounds d (rotate (wordAt s d ^^^ wordAt s a) 8)
  let s := s.setIfInBounds c (wordAt s c + wordAt s d)
  s.setIfInBounds b (rotate (wordAt s b ^^^ wordAt s c) 7)

/-- One round: the columns, then the diagonals. -/
def round (s m : Words) : Words :=
  let s := mix s 0 4 8 12 (wordAt m 0) (wordAt m 1)
  let s := mix s 1 5 9 13 (wordAt m 2) (wordAt m 3)
  let s := mix s 2 6 10 14 (wordAt m 4) (wordAt m 5)
  let s := mix s 3 7 11 15 (wordAt m 6) (wordAt m 7)
  let s := mix s 0 5 10 15 (wordAt m 8) (wordAt m 9)
  let s := mix s 1 6 11 12 (wordAt m 10) (wordAt m 11)
  let s := mix s 2 7 8 13 (wordAt m 12) (wordAt m 13)
  mix s 3 4 9 14 (wordAt m 14) (wordAt m 15)

/-- Several rounds, with the block permuted in between. -/
def rounds : Nat → Words → Words → Words
  | 0, s, _ => s
  | n + 1, s, m => rounds n (round s m) (permutation.map (wordAt m)).toArray

/-- The input of one compression. -/
structure Node where
  /-- the chaining value before it -/
  chaining : Words
  /-- the sixteen words of the block -/
  block : Words
  /-- the number of the chunk -/
  counter : UInt64
  /-- the bytes of the block that count -/
  length : UInt32
  /-- its marks -/
  marks : UInt32

/-- The first eight words that a compression gives. -/
def Node.compress (node : Node) : Words :=
  let state := node.chaining ++ initial.extract 0 4
    ++ #[node.counter.toUInt32, (node.counter >>> 32).toUInt32, node.length, node.marks]
  let s := rounds 7 state node.block
  ((List.range 8).map fun i => wordAt s i ^^^ wordAt s (i + 8)).toArray

/-- A list in pieces of `n + 1` elements; only the last may be shorter. -/
def pieces {α : Type} (n : Nat) (xs : List α) : List (List α) :=
  match xs with
  | [] => []
  | x :: xs => (x :: xs.take n) :: pieces n (xs.drop n)
termination_by xs.length
decreasing_by
  simp only [List.length_drop, List.length_cons]
  omega

/-- Four bytes as a word, the least significant first. Missing bytes count as zero. -/
def wordOfBytes (bytes : List UInt8) : UInt32 :=
  bytes.foldr (fun b w => (w <<< 8) ||| b.toUInt32) 0

/-- The sixteen words of a block. -/
def wordsOfBlock (bytes : List UInt8) : Words :=
  let words := (pieces 3 bytes).map wordOfBytes
  (words ++ List.replicate (16 - words.length) 0).toArray

/-- The last compression of a chunk, its other blocks compressed before. -/
def chunkNode (counter : Nat) : (first : Bool) → Words → List (List UInt8) → Node
  | first, chaining, [] =>
    ⟨chaining, wordsOfBlock [], counter.toUInt64, 0, (if first then chunkStart else 0) ||| chunkEnd⟩
  | first, chaining, [block] =>
    ⟨chaining, wordsOfBlock block, counter.toUInt64, block.length.toUInt32,
      (if first then chunkStart else 0) ||| chunkEnd⟩
  | first, chaining, block :: blocks =>
    let node : Node :=
      ⟨chaining, wordsOfBlock block, counter.toUInt64, 64, if first then chunkStart else 0⟩
    chunkNode counter false node.compress blocks

/-- The compression that joins two subtrees. -/
def joinNode (left right : Words) : Node :=
  ⟨initial, left ++ right, 0, 64, parentNode⟩

/-- The greatest power of two below `n + 2`. -/
def leftSize (n : Nat) : Nat :=
  Nat.pow 2 (n + 1).log2

theorem leftSize_le (n : Nat) : leftSize n ≤ n + 1 :=
  Nat.log2_self_le (Nat.succ_ne_zero n)

theorem leftSize_pos (n : Nat) : 0 < leftSize n :=
  Nat.two_pow_pos _

/-- The last compression of the tree over some chunks, the first of which is the
`counter`-th of the input. -/
def treeNode (counter : Nat) (chunks : List (List UInt8)) : Node :=
  match chunks with
  | [] => chunkNode counter true initial []
  | [chunk] => chunkNode counter true initial (pieces 63 chunk)
  | a :: b :: more =>
    let size := leftSize more.length
    let left := treeNode counter ((a :: b :: more).take size)
    let right := treeNode (counter + size) ((a :: b :: more).drop size)
    joinNode left.compress right.compress
termination_by chunks.length
decreasing_by
  · have := leftSize_le more.length
    simp only [List.length_take, List.length_cons]
    omega
  · have := leftSize_pos more.length
    simp only [List.length_drop, List.length_cons]
    omega

/-- The bytes of a word, the least significant first. -/
def bytesOfWord (w : UInt32) : List UInt8 :=
  [w.toUInt8, (w >>> 8).toUInt8, (w >>> 16).toUInt8, (w >>> 24).toUInt8]

/-- The hash of some bytes. -/
def hash (bytes : List UInt8) : List UInt8 :=
  let node := treeNode 0 (pieces 1023 bytes)
  let root := { node with marks := node.marks ||| rootNode, counter := 0 }
  root.compress.toList.flatMap bytesOfWord

end ModuleLookup.Blake3
