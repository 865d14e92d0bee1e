import StorageMarket.Bytes

/-! The BLAKE3 digest of a byte string. The state of the compression is four rows of
four words, so that one mixing step works on all columns at once, and a diagonal step
is a column step on rotated rows. -/

namespace StorageMarket.Blake3

structure Row where
  w : UInt32
  x : UInt32
  y : UInt32
  z : UInt32

namespace Row

def map₂ (f : UInt32 → UInt32 → UInt32) (a b : Row) : Row :=
  ⟨f a.w b.w, f a.x b.x, f a.y b.y, f a.z b.z⟩

instance : Add Row := ⟨map₂ (· + ·)⟩
instance : XorOp Row := ⟨map₂ (· ^^^ ·)⟩

def rotateRight (a : Row) (k : UInt32) : Row :=
  let f (u : UInt32) := (u >>> k) ||| (u <<< (32 - k))
  ⟨f a.w, f a.x, f a.y, f a.z⟩

/-- Moves every word one column to the left. -/
def shift (a : Row) : Row := ⟨a.x, a.y, a.z, a.w⟩

def words (a : Row) : List UInt32 := [a.w, a.x, a.y, a.z]

def ofWords : List UInt32 → Row
  | w :: x :: y :: z :: _ => ⟨w, x, y, z⟩
  | _ => ⟨0, 0, 0, 0⟩

end Row

structure State where
  a : Row
  b : Row
  c : Row
  d : Row

def State.mix (s : State) (m n : Row) : State :=
  let a := s.a + s.b + m
  let d := (s.d ^^^ a).rotateRight 16
  let c := s.c + d
  let b := (s.b ^^^ c).rotateRight 12
  let a := a + b + n
  let d := (d ^^^ a).rotateRight 8
  let c := c + d
  let b := (b ^^^ c).rotateRight 7
  ⟨a, b, c, d⟩

def State.diagonals (s : State) : State :=
  ⟨s.a, s.b.shift, s.c.shift.shift, s.d.shift.shift.shift⟩

def State.columns (s : State) : State :=
  ⟨s.a, s.b.shift.shift.shift, s.c.shift.shift, s.d.shift⟩

/-- The words of the block at the given places. -/
def pick (block : List UInt32) (places : List Nat) : List UInt32 :=
  places.map fun i => block.getD i 0

def State.round (s : State) (block : List UInt32) : State :=
  let s := s.mix (.ofWords (pick block [0, 2, 4, 6])) (.ofWords (pick block [1, 3, 5, 7]))
  (s.diagonals.mix (.ofWords (pick block [8, 10, 12, 14]))
    (.ofWords (pick block [9, 11, 13, 15]))).columns

def permute (block : List UInt32) : List UInt32 :=
  pick block [2, 6, 3, 10, 7, 0, 4, 13, 1, 11, 12, 5, 9, 14, 15, 8]

def rounds : Nat → State → List UInt32 → State
  | 0, s, _ => s
  | k + 1, s, block => rounds k (s.round block) (permute block)

/-- Eight words handed from block to block. -/
structure Chain where
  low : Row
  high : Row

def Chain.words (v : Chain) : List UInt32 := v.low.words ++ v.high.words

def start : Chain :=
  ⟨⟨0x6A09E667, 0xBB67AE85, 0x3C6EF372, 0xA54FF53A⟩,
   ⟨0x510E527F, 0x9B05688C, 0x1F83D9AB, 0x5BE0CD19⟩⟩

def chunkStart : UInt32 := 1
def chunkEnd : UInt32 := 2
def parentNode : UInt32 := 4
def rootNode : UInt32 := 8

/-- A compression still to be run: its place in the tree decides the last flag. -/
structure Node where
  chain : Chain
  block : List UInt32
  counter : Nat
  length : Nat
  flags : UInt32

def Node.compress (n : Node) : Chain :=
  let s : State :=
    ⟨n.chain.low, n.chain.high, start.low,
     ⟨.ofNat n.counter, .ofNat (n.counter >>> 32), .ofNat n.length, n.flags⟩⟩
  let s := rounds 7 s n.block
  ⟨s.a ^^^ s.c, s.b ^^^ s.d⟩

def littleEndian (b : Bytes) : UInt32 :=
  .ofNat (b.foldr (fun d n => d.toNat + 256 * n) 0)

def wordBytes (u : UInt32) : Bytes :=
  [u.toUInt8, (u >>> 8).toUInt8, (u >>> 16).toUInt8, (u >>> 24).toUInt8]

/-- The first `k` groups of `size` bytes. -/
def groups (size : Nat) : Nat → Bytes → List Bytes
  | 0, _ => []
  | k + 1, b => b.take size :: groups size k (b.drop size)

/-- How many groups of `size` hold the bytes; no bytes still take one. -/
def groupCount (size : Nat) (b : Bytes) : Nat := max 1 ((b.length + size - 1) / size)

def blockWords (b : Bytes) : List UInt32 := (groups 4 16 b).map littleEndian

def chunkNode (counter : Nat) : Chain → UInt32 → List Bytes → Node
  | v, flags, [] => ⟨v, [], counter, 0, flags⟩
  | v, flags, [b] => ⟨v, blockWords b, counter, b.length, flags ||| chunkEnd⟩
  | v, flags, b :: r =>
    chunkNode counter (Node.compress ⟨v, blockWords b, counter, b.length, flags⟩) 0 r

def chunk (counter : Nat) (b : Bytes) : Node :=
  chunkNode counter start chunkStart (groups 64 (groupCount 64 b) b)

def parent (left right : Node) : Node :=
  ⟨start, left.compress.words ++ right.compress.words, 0, 64, parentNode⟩

/-- Joins the chunks pairwise, the left half being the largest power of two below their
number. -/
def tree : List Node → Node
  | [] => chunk 0 []
  | [n] => n
  | m :: n :: r =>
    let half := 1 <<< (r.length + 1).log2
    parent (tree ((m :: n :: r).take half)) (tree ((m :: n :: r).drop half))
termination_by ns => ns.length
decreasing_by
  all_goals
    have := Nat.log2_self_le (n := r.length + 1) (by omega)
    have := Nat.two_pow_pos (r.length + 1).log2
    simp only [List.length_take, List.length_drop, List.length_cons, Nat.one_shiftLeft]
    omega

/-- The 32 bytes of the digest. -/
def digest (b : Bytes) : Bytes :=
  let chunks := (groups 1024 (groupCount 1024 b) b).zipIdx.map fun c => chunk c.2 c.1
  let root := tree chunks
  { root with flags := root.flags ||| rootNode }.compress.words.flatMap wordBytes

theorem length_digest (b : Bytes) : (digest b).length = 32 := rfl

end StorageMarket.Blake3
