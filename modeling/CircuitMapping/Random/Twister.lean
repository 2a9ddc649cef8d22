/-
  CircuitMapping.Random.Twister — the 64-bit Mersenne Twister, and draws below a bound from it.

  The generator holds 312 words. A seed fills them by a multiplicative recurrence; once all have been handed out,
  each is replaced by a mix of itself, its neighbour and the word 156 places on. A word is tempered before it is
  handed out. A draw below `n` is the high half of the 128-bit product of a word with `n`; products whose low half
  is below `2 ^ 64 mod n` are drawn again, which makes all results equally likely.
-/
import CircuitMapping.Number.Word
import CircuitMapping.Random.Source

namespace CircuitMapping

/-- The state of the generator: its words, and how many of them have been handed out. -/
structure Twister where
  words : Array UInt64
  used : Nat
  deriving DecidableEq, Repr

namespace Twister

def size : Nat := 312

/-- The distance of the word that each word is mixed with. -/
def shift : Nat := 156

def seedStep (words : Array UInt64) (i : Nat) : Array UInt64 :=
  let w : UInt64 := words.getD (i - 1) 0
  let x : UInt64 := w ^^^ (w >>> 62)
  words.push (x * 6364136223846793005 + i.toUInt64)

def ofSeed (seed : UInt64) : Twister := ⟨(List.range' 1 (size - 1)).foldl seedStep #[seed], size⟩

/-- The upper 33 bits of one word and the lower 31 of the next, twisted. -/
def twist (upper lower : UInt64) : UInt64 :=
  let x := (upper &&& 0xFFFFFFFF80000000) ||| (lower &&& 0x7FFFFFFF)
  (x >>> 1) ^^^ (if x &&& 1 = 0 then 0 else 0xB5026F5AA96619E9)

def refreshStep (words : Array UInt64) (i : Nat) : Array UInt64 :=
  let mixed := twist (words.getD i 0) (words.getD ((i + 1) % size) 0)
  words.setIfInBounds i (words.getD ((i + shift) % size) 0 ^^^ mixed)

/-- A new set of words, each computed from those already renewed and those still old. -/
def refresh (words : Array UInt64) : Array UInt64 := (List.range size).foldl refreshStep words

def temper (x : UInt64) : UInt64 :=
  let x := x ^^^ ((x >>> 29) &&& 0x5555555555555555)
  let x := x ^^^ ((x <<< 17) &&& 0x71D67FFFEDA60000)
  let x := x ^^^ ((x <<< 37) &&& 0xFFF7EEE000000000)
  x ^^^ (x >>> 43)

def next (t : Twister) : UInt64 × Twister :=
  let t := if t.used < size then t else ⟨refresh t.words, 0⟩
  (temper (t.words.getD t.used 0), { t with used := t.used + 1 })

/-- How often a draw is repeated at most. A repetition is less likely than `n / 2 ^ 64`. -/
def redraws : Nat := 256

/-- Draws below `n` with at most `k` repetitions; the last draw stands. -/
def belowWithin (n : Nat) : Nat → Twister → Nat × Twister
  | 0, t => (t.next.1.toNat * n / Word.count, t.next.2)
  | k + 1, t =>
    let p := t.next.1.toNat * n
    if p % Word.count < Word.count % n then belowWithin n k t.next.2 else (p / Word.count, t.next.2)

theorem belowWithin_lt (n k : Nat) (t : Twister) (h : 0 < n) : (belowWithin n k t).1 < n := by
  have bound : ∀ u : UInt64, u.toNat * n / Word.count < n := fun u => by
    rw [Nat.div_lt_iff_lt_mul (by decide), Nat.mul_comm n]
    exact Nat.mul_lt_mul_of_pos_right u.toNat_lt h
  induction k generalizing t with
  | zero => exact bound _
  | succ k ih =>
    unfold belowWithin
    dsimp only
    split
    · exact ih _
    · exact bound _

instance : Source Twister := ⟨fun n t => belowWithin n redraws t, fun n t h => belowWithin_lt n redraws t h⟩

end Twister

end CircuitMapping
