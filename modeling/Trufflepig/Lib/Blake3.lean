import Trufflepig.Lib.Encoding

/-!
# The BLAKE3 hash function

The plain hash mode with a digest of 32 bytes. Inputs are cut into chunks of
1024 bytes and these into blocks of 64; a binary tree whose left subtrees are
complete joins the chunks. Words are little-endian.
-/

namespace Trufflepig.Lib.Blake3

/-- The initial chaining value. -/
def iv : List UInt32 :=
  [0x6a09e667, 0xbb67ae85, 0x3c6ef372, 0xa54ff53a, 0x510e527f, 0x9b05688c, 0x1f83d9ab, 0x5be0cd19]

/-- The permutation of the message words between two rounds. -/
def permutation : List ℕ := [2, 6, 3, 10, 7, 0, 4, 13, 1, 11, 12, 5, 9, 14, 15, 8]

/-- The flags of a compression: first or last block of a chunk, parent node, root. -/
def chunkStart : UInt32 := 1
@[inherit_doc chunkStart] def chunkEnd : UInt32 := 2
@[inherit_doc chunkStart] def parent : UInt32 := 4
@[inherit_doc chunkStart] def root : UInt32 := 8

def rotr (x n : UInt32) : UInt32 := (x >>> n) ||| (x <<< (32 - n))

/-- The quarter round on the four state words `a`, `b`, `c`, `d`. -/
def quarter (a b c d x y : UInt32) : UInt32 × UInt32 × UInt32 × UInt32 :=
  let a := a + b + x
  let d := rotr (d ^^^ a) 16
  let c := c + d
  let b := rotr (b ^^^ c) 12
  let a := a + b + y
  let d := rotr (d ^^^ a) 8
  let c := c + d
  let b := rotr (b ^^^ c) 7
  (a, b, c, d)

/-- Applies the quarter round at four indices of the state. -/
def mix (s : List UInt32) (i j k l : ℕ) (x y : UInt32) : List UInt32 :=
  let (a, b, c, d) := quarter (s.getD i 0) (s.getD j 0) (s.getD k 0) (s.getD l 0) x y
  (((s.set i a).set j b).set k c).set l d

/-- One round: the four columns, then the four diagonals. -/
def round (s m : List UInt32) : List UInt32 :=
  let w := fun i => m.getD i 0
  let s := mix s 0 4 8 12 (w 0) (w 1)
  let s := mix s 1 5 9 13 (w 2) (w 3)
  let s := mix s 2 6 10 14 (w 4) (w 5)
  let s := mix s 3 7 11 15 (w 6) (w 7)
  let s := mix s 0 5 10 15 (w 8) (w 9)
  let s := mix s 1 6 11 12 (w 10) (w 11)
  let s := mix s 2 7 8 13 (w 12) (w 13)
  mix s 3 4 9 14 (w 14) (w 15)

/-- `n` rounds, permuting the message after each. -/
def rounds : ℕ → List UInt32 → List UInt32 → List UInt32
  | 0, s, _ => s
  | n + 1, s, m => rounds n (round s m) (permutation.map fun i => m.getD i 0)

/-- A compression that may turn out to be the root: chaining value, message
words, chunk counter, number of bytes, flags. -/
structure Node where
  cv : List UInt32
  block : List UInt32
  counter : ℕ
  length : ℕ
  flags : UInt32

/-- The first eight output words of the compression, with further flags. -/
def Node.output (node : Node) (flags : UInt32) : List UInt32 :=
  let s := rounds 7 (node.cv ++ iv.take 4 ++ [UInt32.ofNat node.counter,
    UInt32.ofNat (node.counter / 2 ^ 32), UInt32.ofNat node.length, node.flags ||| flags]) node.block
  (List.range 8).map fun i => s.getD i 0 ^^^ s.getD (i + 8) 0

/-- The sixteen words of a block of at most 64 bytes. -/
def words (block : Bytes) : List UInt32 :=
  (List.range 16).map fun i =>
    UInt32.ofNat (((List.range 4).map fun j => (block.getD (4 * i + j) 0).toNat * 256 ^ j).sum)

/-- The last compression of a chunk, from the chaining value before a block on. -/
def chunkNode (counter : ℕ) : ℕ → List UInt32 → UInt32 → Bytes → Node
  | 0, cv, flags, bytes => ⟨cv, words bytes, counter, bytes.length, flags ||| chunkEnd⟩
  | fuel + 1, cv, flags, bytes =>
    if bytes.length ≤ 64 then ⟨cv, words bytes, counter, bytes.length, flags ||| chunkEnd⟩
    else chunkNode counter fuel
      ((⟨cv, words (bytes.take 64), counter, 64, flags⟩ : Node).output 0) 0 (bytes.drop 64)

/-- The number of chunks in the left subtree of an input of more than one chunk. -/
def leftChunks (length : ℕ) : ℕ := 2 ^ Nat.log2 ((length - 1) / 1024)

/-- The node of an input whose first chunk has the number `counter`. -/
def treeNode : ℕ → ℕ → Bytes → Node
  | 0, counter, bytes => chunkNode counter 16 iv chunkStart bytes
  | fuel + 1, counter, bytes =>
    if bytes.length ≤ 1024 then chunkNode counter 16 iv chunkStart bytes
    else
      let left := leftChunks bytes.length
      let l := (treeNode fuel counter (bytes.take (1024 * left))).output 0
      let r := (treeNode fuel (counter + left) (bytes.drop (1024 * left))).output 0
      ⟨iv, l ++ r, 0, 64, parent⟩

theorem length_output (node : Node) (flags : UInt32) : (node.output flags).length = 8 := by
  simp [Node.output]

end Trufflepig.Lib.Blake3

namespace Trufflepig.Lib

/-- The BLAKE3 digest of a byte string. -/
def blake3 (bytes : Bytes) : Digest where
  bytes := ((Blake3.treeNode bytes.length 0 bytes).output Blake3.root).flatMap fun w =>
    leBytes 4 w.toNat
  length_eq := by
    rw [List.length_flatMap]
    simp [Blake3.length_output]

example : (blake3 []).toHex =
    ascii "af1349b9f5f9a1a6a0404dea36dcc9499bcb25c9adc112b7cc9a93cae41f3262" := by
  decide +kernel

end Trufflepig.Lib
