import TopDown.Random.Source

/-!
The tape of random words that belongs to a seed: the keystream of the ChaCha cipher with twelve
rounds, under a key that a linear congruential generator with a permuted output draws from the seed.
-/
namespace TopDown.Random

abbrev Block := Vector UInt32 16

def rotateLeft (x : UInt32) (n : UInt32) : UInt32 := (x <<< n) ||| (x >>> (32 - n))

def rotateRight (x : UInt32) (n : UInt32) : UInt32 := (x >>> n) ||| (x <<< (32 - n))

/-- Adds one word to a second and turns a third by so many bits. -/
def mix (block : Block) (a b d : Fin 16) (turn : UInt32) : Block :=
  let sum := block[a] + block[b]
  (block.set a sum).set d (rotateLeft (block[d] ^^^ sum) turn)

def quarterRound (block : Block) (a b c d : Fin 16) : Block :=
  mix (mix (mix (mix block a b d 16) c d b 12) a b d 8) c d b 7

/-- The four columns and then the four diagonals. -/
def doubleRound (block : Block) : Block :=
  let columns :=
    quarterRound (quarterRound (quarterRound (quarterRound block 0 4 8 12) 1 5 9 13) 2 6 10 14)
      3 7 11 15
  quarterRound (quarterRound (quarterRound (quarterRound columns 0 5 10 15) 1 6 11 12) 2 7 8 13)
    3 4 9 14

/-- Twelve rounds, and the words from before them added. -/
def scramble (block : Block) : Block :=
  let half (b : Block) := doubleRound (doubleRound (doubleRound b))
  let mixed := half (half block)
  Vector.zipWith (· + ·) mixed block

abbrev Key := Vector UInt32 8

/-- The block of the keystream with the given number. -/
def keystreamBlock (key : Key) (number : UInt64) : Block :=
  scramble #v[0x61707865, 0x3320646e, 0x79622d32, 0x6b206574, key[0], key[1], key[2], key[3],
    key[4], key[5], key[6], key[7], number.toUInt32, (number >>> 32).toUInt32, 0, 0]

def nextState (state : UInt64) : UInt64 := state * 6364136223846793005 + 11634580027462260723

/-- The word that a state of the key generator shows. -/
def output (state : UInt64) : UInt32 :=
  rotateRight (((state >>> 18) ^^^ state) >>> 27).toUInt32 (state >>> 59).toUInt32

def keyState (seed : UInt64) : Nat → UInt64
  | 0 => nextState seed
  | n + 1 => nextState (keyState seed n)

def keyOfSeed (seed : UInt64) : Key := Vector.ofFn fun i => output (keyState seed i)

def Source.ofSeed (seed : UInt64) : Source :=
  let key := keyOfSeed seed
  { word := fun i =>
      (keystreamBlock key (UInt64.ofNat (i / 16))).get ⟨i % 16, Nat.mod_lt i (by decide)⟩ }

/-- The choices that belong to a seed. -/
def Chooser.ofSeed (seed : UInt64) : Chooser := (Source.ofSeed seed).chooser wordCount

end TopDown.Random
