/-!
# A seeded stream of words

The random numbers come from the ChaCha cipher with twelve rounds: the key is expanded from a seed
of 64 bits, the blocks are numbered from nought, and the words of each block are used in order.
-/

namespace JsonTemplate

namespace KeyStream

/-- Four words, the lanes of a row of the cipher's state. -/
structure Row where
  a : UInt32
  b : UInt32
  c : UInt32
  d : UInt32
  deriving DecidableEq, Repr

namespace Row

def map (f : UInt32 → UInt32) (r : Row) : Row :=
  ⟨f r.a, f r.b, f r.c, f r.d⟩

def zipWith (f : UInt32 → UInt32 → UInt32) (r s : Row) : Row :=
  ⟨f r.a s.a, f r.b s.b, f r.c s.c, f r.d s.d⟩

instance : Add Row := ⟨zipWith (· + ·)⟩
instance : XorOp Row := ⟨zipWith (· ^^^ ·)⟩

/-- The lanes moved by one place to the left. -/
def shift (r : Row) : Row :=
  ⟨r.b, r.c, r.d, r.a⟩

def toList (r : Row) : List UInt32 :=
  [r.a, r.b, r.c, r.d]

end Row

def rotateLeft (x : UInt32) (n : UInt32) : UInt32 :=
  (x <<< n) ||| (x >>> (32 - n))

/-- The cipher's state, four rows of four words. -/
structure Matrix where
  r₀ : Row
  r₁ : Row
  r₂ : Row
  r₃ : Row

namespace Matrix

/-- A quarter round in every lane. -/
def quarterRounds (m : Matrix) : Matrix :=
  let a := m.r₀ + m.r₁
  let d := (m.r₃ ^^^ a).map (rotateLeft · 16)
  let c := m.r₂ + d
  let b := (m.r₁ ^^^ c).map (rotateLeft · 12)
  let a := a + b
  let d := (d ^^^ a).map (rotateLeft · 8)
  let c := c + d
  let b := (b ^^^ c).map (rotateLeft · 7)
  ⟨a, b, c, d⟩

/-- A round on the columns and a round on the diagonals. -/
def doubleRound (m : Matrix) : Matrix :=
  let m := m.quarterRounds
  let m := (Matrix.mk m.r₀ m.r₁.shift m.r₂.shift.shift m.r₃.shift.shift.shift).quarterRounds
  ⟨m.r₀, m.r₁.shift.shift.shift, m.r₂.shift.shift, m.r₃.shift⟩

def doubleRounds : Nat → Matrix → Matrix
  | 0, m => m
  | n + 1, m => doubleRounds n m.doubleRound

/-- The sixteen words that a state gives. -/
def block (m : Matrix) : List UInt32 :=
  let n := doubleRounds 6 m
  (n.r₀ + m.r₀).toList ++ (n.r₁ + m.r₁).toList ++ (n.r₂ + m.r₂).toList ++ (n.r₃ + m.r₃).toList

end Matrix

end KeyStream

/-- A stream: its key, the number of the next block, and the words left of the last one. -/
structure KeyStream where
  lowKey : KeyStream.Row
  highKey : KeyStream.Row
  counter : UInt64
  pending : List UInt32

namespace KeyStream

/-- `expand 32-byte k`. -/
def constants : Row :=
  ⟨0x61707865, 0x3320646e, 0x79622d32, 0x6b206574⟩

/-- The next state of the generator that expands a seed. -/
def nextSeed (state : UInt64) : UInt64 :=
  state * 6364136223846793005 + 11634580027462260723

/-- The word that a state of that generator gives: bits of the middle, rotated by the top ones. -/
def seedWord (state : UInt64) : UInt32 :=
  let x := (((state >>> 18) ^^^ state) >>> 27).toUInt32
  let n := (state >>> 59).toUInt32
  (x >>> n) ||| (x <<< ((32 - n) % 32))

/-- Four words of a key, and the state after them. -/
def seedRow (s₀ : UInt64) : Row × UInt64 :=
  let s₁ := nextSeed s₀
  let s₂ := nextSeed s₁
  let s₃ := nextSeed s₂
  let s₄ := nextSeed s₃
  (⟨seedWord s₁, seedWord s₂, seedWord s₃, seedWord s₄⟩, s₄)

def ofSeed (seed : UInt64) : KeyStream :=
  let (low, state) := seedRow seed
  let (high, _) := seedRow state
  ⟨low, high, 0, []⟩

def currentBlock (s : KeyStream) : List UInt32 :=
  (Matrix.mk constants s.lowKey s.highKey
    ⟨s.counter.toUInt32, (s.counter >>> 32).toUInt32, 0, 0⟩).block

def nextWord : StateM KeyStream UInt32 := fun s =>
  match s.pending with
  | w :: rest => (w, { s with pending := rest })
  | [] =>
    let s' := { s with counter := s.counter + 1 }
    match s.currentBlock with
    | w :: rest => (w, { s' with pending := rest })
    | [] => (0, s')

/-- Two words, the low one first. -/
def nextDoubleWord : StateM KeyStream UInt64 := do
  let low ← nextWord
  let high ← nextWord
  return low.toUInt64 ||| (high.toUInt64 <<< 32)

end KeyStream

end JsonTemplate
