/-!
Handles of the nodes in the recency list. A handle names a place in the arena and the generation
of its occupant, and packs into one word. The greatest word is kept for "not linked", so the very
last handle has no word of its own.
-/

namespace TimedCache

/-- A place in the arena together with the generation of its occupant. -/
structure Handle where
  index : UInt32
  generation : UInt32
  deriving DecidableEq, Repr, Inhabited

namespace Handle

def unlinked : UInt64 := 0xFFFFFFFFFFFFFFFF

/-- The generation in the upper half of a word, the index in the lower one. -/
def toWord (h : Handle) : UInt64 :=
  UInt64.ofNat (h.generation.toNat * 4294967296 + h.index.toNat)

def ofWord? (w : UInt64) : Option Handle :=
  if w = unlinked then none
  else some
    { index := UInt32.ofNat (w.toNat % 4294967296)
      generation := UInt32.ofNat (w.toNat / 4294967296) }

def text (h : Handle) : String :=
  "NodeHandle \x7b index: " ++ toString h.index.toNat ++ ", generation: "
    ++ toString h.generation.toNat ++ " \x7d"

theorem toNat_toWord (h : Handle) :
    h.toWord.toNat = h.generation.toNat * 4294967296 + h.index.toNat := by
  have hi := h.index.toNat_lt
  have hg := h.generation.toNat_lt
  rw [toWord, UInt64.toNat_ofNat']
  omega

/-- Every word but the greatest is the word of one handle. -/
theorem ofWord?_toWord (h : Handle) (linked : h.toWord ≠ unlinked) :
    ofWord? h.toWord = some h := by
  have hi := h.index.toNat_lt
  have hg := h.generation.toNat_lt
  have low : (h.generation.toNat * 4294967296 + h.index.toNat) % 4294967296 = h.index.toNat := by
    omega
  have high :
      (h.generation.toNat * 4294967296 + h.index.toNat) / 4294967296 = h.generation.toNat := by
    omega
  simp [ofWord?, linked, toNat_toWord, low, high]

end Handle

end TimedCache
