/-!
The 64-bit xxHash of a byte string. The bytes are read little-endian: stripes of 32 bytes feed
four accumulators, what is left is folded in by eights, by a four and one by one, and the result is
mixed until every input bit reaches every output bit.
-/

namespace TimedCache.XxHash

def prime1 : UInt64 := 0x9E3779B185EBCA87
def prime2 : UInt64 := 0xC2B2AE3D27D4EB4F
def prime3 : UInt64 := 0x165667B19E3779F9
def prime4 : UInt64 := 0x85EBCA77C2B2AE63
def prime5 : UInt64 := 0x27D4EB2F165667C5

def rotateLeft (x : UInt64) (n : UInt64) : UInt64 := (x <<< n) ||| (x >>> (64 - n))

/-- The number whose least significant byte comes first. -/
def littleEndian (bytes : List UInt8) : UInt64 :=
  bytes.foldr (fun b n => (n <<< 8) ||| b.toUInt64) 0

def mixLane (acc lane : UInt64) : UInt64 := rotateLeft (acc + lane * prime2) 31 * prime1

def mergeLane (hash acc : UInt64) : UInt64 := (hash ^^^ mixLane 0 acc) * prime1 + prime4

/-- The four running lanes of a long input. -/
structure Lanes where
  a : UInt64
  b : UInt64
  c : UInt64
  d : UInt64

def Lanes.start (seed : UInt64) : Lanes :=
  { a := seed + prime1 + prime2, b := seed + prime2, c := seed, d := seed - prime1 }

/-- Feeds one stripe of 32 bytes. -/
def Lanes.feed (l : Lanes) (stripe : List UInt8) : Lanes :=
  let lane (i : Nat) := littleEndian ((stripe.drop (8 * i)).take 8)
  { a := mixLane l.a (lane 0), b := mixLane l.b (lane 1)
    c := mixLane l.c (lane 2), d := mixLane l.d (lane 3) }

def Lanes.feedAll (l : Lanes) : Nat → List UInt8 → Lanes
  | 0, _ => l
  | stripes + 1, bytes => (l.feed (bytes.take 32)).feedAll stripes (bytes.drop 32)

def Lanes.hash (l : Lanes) : UInt64 :=
  let sum := rotateLeft l.a 1 + rotateLeft l.b 7 + rotateLeft l.c 12 + rotateLeft l.d 18
  [l.a, l.b, l.c, l.d].foldl mergeLane sum

def foldEight (hash : UInt64) (bytes : List UInt8) : UInt64 :=
  rotateLeft (hash ^^^ mixLane 0 (littleEndian bytes)) 27 * prime1 + prime4

def foldFour (hash : UInt64) (bytes : List UInt8) : UInt64 :=
  rotateLeft (hash ^^^ (littleEndian bytes * prime1)) 23 * prime2 + prime3

def foldOne (hash : UInt64) (byte : UInt8) : UInt64 :=
  rotateLeft (hash ^^^ (byte.toUInt64 * prime5)) 11 * prime1

/-- Folds in fewer than 32 bytes, of which `eights` blocks of eight come first. -/
def foldRest (hash : UInt64) : Nat → List UInt8 → UInt64
  | eights + 1, bytes => foldRest (foldEight hash (bytes.take 8)) eights (bytes.drop 8)
  | 0, bytes =>
    if 4 ≤ bytes.length then
      (bytes.drop 4).foldl foldOne (foldFour hash (bytes.take 4))
    else
      bytes.foldl foldOne hash

/-- Spreads every bit over the whole word. -/
def avalanche (h : UInt64) : UInt64 :=
  let h := (h ^^^ (h >>> 33)) * prime2
  let h := (h ^^^ (h >>> 29)) * prime3
  h ^^^ (h >>> 32)

/-- The xxHash of a byte string under a seed. -/
def hash64 (seed : UInt64) (bytes : List UInt8) : UInt64 :=
  let size := bytes.length
  let start :=
    if 32 ≤ size then ((Lanes.start seed).feedAll (size / 32) bytes).hash else seed + prime5
  let rest := bytes.drop (size / 32 * 32)
  avalanche (foldRest (start + UInt64.ofNat size) (rest.length / 8) rest)

/-- The hash that places a key: its UTF-8 bytes under seed zero. -/
def keyHash (key : String) : UInt64 := hash64 0 key.toUTF8.toList

end TimedCache.XxHash
