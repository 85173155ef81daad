/-!
Counts that fit a 64-bit word. Sums stop at the greatest word instead of wrapping, so a stamp
that lies too far in the future stays in the future. Operations for which no word is the right
answer report an `Overflow`, and so does the making of a table that no memory could hold.
-/

namespace TimedCache

/-- The greatest count a 64-bit word holds. -/
def maxWord : Nat := 18446744073709551615

/-- The nearest word to a count. -/
def clampWord (n : Nat) : Nat := min n maxWord

def satAdd (a b : Nat) : Nat := clampWord (a + b)

def satMul (a b : Nat) : Nat := clampWord (a * b)

def satPow (base : Nat) : Nat → Nat
  | 0 => 1
  | exponent + 1 => satMul (satPow base exponent) base

/-- Why an operation has no result: what it was asked for exceeds a word, a table or a clock. -/
inductive Overflow where
  /-- A store was asked for more shards than the greatest power of two in a word. -/
  | shardCount
  /-- A task was given to a wheel that stands at the last tick. -/
  | lastTick
  /-- The lookups of a cache outnumber the words. -/
  | lookupCount
  /-- A table was asked for that is larger than any table can be. -/
  | tableSize
  /-- A span was asked for that is longer than the longest. -/
  | spanLength
  /-- A caller would wait beyond the last moment of the steady clock. -/
  | deadline
  /-- A moment lies outside of the calendar. -/
  | calendar
  deriving DecidableEq, Repr

/-! ## Tables -/

/-- The most bytes that a table can take. -/
def maxTableBytes : Nat := 9223372036854775807

/-- Whether there can be a table of so many places, each of so many bytes. -/
def tableFits (places bytesEach : Nat) : Bool := decide (places * bytesEach ≤ maxTableBytes)

/-! ## Laws -/

theorem clampWord_le (n : Nat) : clampWord n ≤ maxWord := Nat.min_le_right ..

theorem clampWord_of_le {n : Nat} (h : n ≤ maxWord) : clampWord n = n := Nat.min_eq_left h

theorem satAdd_le (a b : Nat) : satAdd a b ≤ maxWord := clampWord_le _

theorem satMul_clampWord_left (a b : Nat) : satMul (clampWord a) b = satMul a b := by
  rcases Nat.le_total a maxWord with h | h
  · rw [clampWord_of_le h]
  · cases b with
    | zero => rfl
    | succ b =>
      have hclamp : clampWord a = maxWord := Nat.min_eq_right h
      have hleft : maxWord ≤ maxWord * (b + 1) := Nat.le_mul_of_pos_right _ (Nat.succ_pos b)
      have hright : maxWord * (b + 1) ≤ a * (b + 1) := Nat.mul_le_mul_right _ h
      unfold satMul
      rw [hclamp]
      exact (Nat.min_eq_right hleft).trans (Nat.min_eq_right (Nat.le_trans hleft hright)).symm

theorem satPow_eq_clampWord (base exponent : Nat) :
    satPow base exponent = clampWord (base.pow exponent) := by
  induction exponent with
  | zero => rfl
  | succ exponent ih =>
    rw [satPow, ih, satMul_clampWord_left]
    rfl

theorem le_satAdd_left {a : Nat} (h : a ≤ maxWord) (b : Nat) : a ≤ satAdd a b := by
  unfold satAdd clampWord
  omega

end TimedCache
