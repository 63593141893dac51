/-! # Draws

Random choices are made from a stream of 32-bit words.  A choice among `n` items takes one word and
scales it to the range; where the word alone would favour some items, a second word settles the
carry into the item's number.  The number that is chosen is always below `n` (`pick_lt`), and one
or two words are taken. -/

namespace Typeahead

/-- A stream of 32-bit words and the number of words taken from it so far. -/
structure Draws where
  word : Nat → UInt32
  taken : Nat

namespace Draws

/-- The stream that repeats a list of words, and is zero throughout if there are none. -/
def ofWords (words : List UInt32) : Draws := ⟨fun n => words.getD (n % words.length) 0, 0⟩

/-- Takes the next word. -/
def draw : StateM Draws Nat := fun d => ((d.word d.taken).toNat, { d with taken := d.taken + 1 })

/-- Chooses a number below `n`, for an `n` below 2^32. -/
def pick (n : Nat) : StateM Draws Nat := fun d =>
  let first := draw d
  let scaled := first.1 * n
  if scaled % UInt32.size > (UInt32.size - n) % UInt32.size then
    let second := draw first.2
    ((scaled + second.1 * n / UInt32.size) / UInt32.size, second.2)
  else
    (scaled / UInt32.size, first.2)

theorem draw_lt (d : Draws) : (draw d).1 < UInt32.size := UInt32.toNat_lt_size _

theorem scaled_add_lt {w v n : Nat} (hn : 0 < n) (hw : w < UInt32.size) (hv : v < UInt32.size) :
    (w * n + v * n / UInt32.size) / UInt32.size < n := by
  have h₁ : v * n / UInt32.size < n := by
    rw [Nat.div_lt_iff_lt_mul (by decide), Nat.mul_comm]
    exact Nat.mul_lt_mul_of_pos_left hv hn
  have h₂ : (w + 1) * n ≤ UInt32.size * n := Nat.mul_le_mul_right n hw
  rw [Nat.div_lt_iff_lt_mul (by decide), Nat.mul_comm n]
  rw [Nat.succ_mul] at h₂
  omega

theorem pick_lt {n : Nat} (hn : 0 < n) (d : Draws) : (pick n d).1 < n := by
  have hw := draw_lt d
  simp only [pick]
  split
  · exact scaled_add_lt hn hw (draw_lt _)
  · simpa using scaled_add_lt hn hw (show 0 < UInt32.size by decide)

end Draws

end Typeahead
