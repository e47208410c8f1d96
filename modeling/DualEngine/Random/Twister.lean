/-! # The pseudo-random generator

A twisted feedback register of 624 words of 32 bits. `seed` spreads the words of a key over the
register, `Generator.next` gives the next tempered word, and `Generator.below` a number under a
bound, drawn again while it is too large.
-/
namespace DualEngine.Random

def size : Nat := 624

structure Generator where
  words : Array UInt32
  index : Nat

/-- The word of a register before position `i`, mixed with its own high bits. -/
def mixedBefore (words : Array UInt32) (i : Nat) : UInt32 :=
  let w := words.getD (i - 1) 0
  w ^^^ (w >>> 30)

/-- A register filled from one word. -/
def fill (word : UInt32) : Array UInt32 :=
  (List.range (size - 1)).foldl
    (fun words i => words.push (1812433253 * mixedBefore words (i + 1) + (i + 1).toUInt32))
    #[word]

/-- Puts a word at position `i` and copies it to the front if that position is the last. -/
def put (words : Array UInt32) (i : Nat) (word : UInt32) : Array UInt32 :=
  let words := words.setIfInBounds i word
  if i + 1 < size then words else words.setIfInBounds 0 word

/-- The position visited in round `k` of a pass that starts at `start` and skips the front. -/
def position (start k : Nat) : Nat := (start - 1 + k) % (size - 1) + 1

/-- The register seeded by a key of 32-bit words. -/
def spread (key : List UInt32) : Array UInt32 :=
  let rounds := max size key.length
  let first := (List.range rounds).foldl (fun words k =>
    let i := position 1 k
    let j := k % key.length
    put words i
      ((words.getD i 0 ^^^ (mixedBefore words i * 1664525)) + key.getD j 0 + j.toUInt32))
    (fill 19650218)
  let second := (List.range (size - 1)).foldl (fun words k =>
    let i := position (position 1 rounds) k
    put words i ((words.getD i 0 ^^^ (mixedBefore words i * 1566083941)) - i.toUInt32)) first
  second.setIfInBounds 0 0x80000000

/-- The 32-bit words of a number, at least one of `count`, least significant first. -/
def keyWords : Nat → Nat → List UInt32
  | 0, _ => []
  | count + 1, n =>
    n.toUInt32 :: if n / Nat.pow 2 32 = 0 then [] else keyWords count (n / Nat.pow 2 32)

/-- The generator for an integer seed; the sign does not matter. -/
def seed (n : Int) : Generator :=
  ⟨spread (keyWords (n.natAbs.log2 / 32 + 1) n.natAbs), size⟩

/-- Renews all words of the register. -/
def twist (words : Array UInt32) : Array UInt32 :=
  (List.range size).foldl (fun words i =>
    let y := (words.getD i 0 &&& 0x80000000) ||| (words.getD ((i + 1) % size) 0 &&& 0x7fffffff)
    let far := words.getD ((i + 397) % size) 0 ^^^ (y >>> 1)
    words.setIfInBounds i (if y &&& 1 = 0 then far else far ^^^ 0x9908b0df)) words

def temper (y : UInt32) : UInt32 :=
  let y := y ^^^ (y >>> 11)
  let y := y ^^^ ((y <<< 7) &&& 0x9d2c5680)
  let y := y ^^^ ((y <<< 15) &&& 0xefc60000)
  y ^^^ (y >>> 18)

def Generator.next (g : Generator) : UInt32 × Generator :=
  let g := if g.index < size then g else ⟨twist g.words, 0⟩
  (temper (g.words.getD g.index 0), { g with index := g.index + 1 })

/-- The number of binary digits of `n`. -/
def bitLength (n : Nat) : Nat := if n = 0 then 0 else n.log2 + 1

/-- Draws numbers of `bits` binary digits, at most `tries` times, until one is below `n`. -/
def Generator.drawBelow (n bits : Nat) : Nat → Generator → Nat × Generator
  | 0, g => (0, g)
  | tries + 1, g =>
    let (word, g) := g.next
    let drawn := word.toNat / Nat.pow 2 (32 - bits)
    if drawn < n then (drawn, g) else g.drawBelow n bits tries

/-- A number below `n`, for `n` of at most 32 binary digits. -/
def Generator.below (n : Nat) (g : Generator) : Nat × Generator :=
  g.drawBelow n (bitLength n) 10000

/-- A nonnegative 32-bit integer. -/
def Generator.int (g : Generator) : Int × Generator :=
  let (n, g) := g.below (Nat.pow 2 31)
  (n, g)

/-- An integer from `low` up to but not including `high`, for `low < high`. -/
def Generator.between (low high : Int) (g : Generator) : Int × Generator :=
  let (n, g) := g.below (high - low).toNat
  (low + n, g)

end DualEngine.Random
