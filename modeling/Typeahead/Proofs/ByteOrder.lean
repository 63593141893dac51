import Mathlib.Data.Nat.Notation
import Mathlib.Tactic.SplitIfs

/-! # The order of texts is that of their bytes

Texts are compared code point by code point.  A smaller code point is written by bytes that are
smaller, too: a longer form begins with a larger byte, and forms of the same length hold the number
in groups of six bits, the highest first (`encode_append_lt`).  So the bytes of a smaller text are
smaller (`bytes_lt_bytes`), and a list in the order of its texts is in the order of their bytes. -/

namespace Typeahead

/-- The bytes of a text. -/
def bytesOf (text : String) : List UInt8 := text.toUTF8.data.toList

theorem bytesOf_eq (text : String) : bytesOf text = text.toList.flatMap String.utf8EncodeChar := by
  unfold bytesOf
  rw [String.toUTF8_eq_toByteArray, ← String.utf8Encode_toList, List.utf8Encode,
    List.toList_data_toByteArray]

theorem group_lt {m n : ℕ} (h : m < n) :
    m / 64 < n / 64 ∨ m / 64 = n / 64 ∧ m % 64 < n % 64 := by
  omega

/-- Of the groups of two numbers, the first that differs decides which number is smaller. -/
theorem groups_lt {m n : ℕ} (h : m < n) :
    m / 262144 < n / 262144 ∨ m / 262144 = n / 262144 ∧
      (m / 4096 % 64 < n / 4096 % 64 ∨ m / 4096 % 64 = n / 4096 % 64 ∧
        (m / 64 % 64 < n / 64 % 64 ∨ m / 64 % 64 = n / 64 % 64 ∧ m % 64 < n % 64)) := by
  have hdiv : ∀ k, k / 4096 = k / 64 / 64 ∧ k / 262144 = k / 64 / 64 / 64 := by omega
  rw [(hdiv m).1, (hdiv n).1, (hdiv m).2, (hdiv n).2]
  rcases group_lt h with h | ⟨hm, h⟩
  · rcases group_lt h with h | ⟨hm, h⟩
    · exact (group_lt h).imp_right fun ⟨heq, h⟩ => ⟨heq, .inl h⟩
    · rw [hm]
      exact .inr ⟨rfl, .inr ⟨rfl, .inl h⟩⟩
  · rw [hm]
    exact .inr ⟨rfl, .inr ⟨rfl, .inr ⟨rfl, h⟩⟩⟩

theorem toNat_ofNat_group {base width : ℕ} (hwidth : 0 < width) (h : width + base ≤ 256) (n : ℕ) :
    (UInt8.ofNat (n % width + base)).toNat = n % width + base := by
  have hlt := Nat.mod_lt n hwidth
  rw [UInt8.toNat_ofNat', Nat.mod_eq_of_lt (by omega)]

theorem toNat_val_lt (c : Char) : c.val.toNat < 1114112 := by
  rcases c.valid with h | ⟨-, h⟩
  · exact Nat.lt_trans h (by decide)
  · exact h

theorem four_bytes_lt {m n : ℕ} (h : m < n) (hn : n < 1114112) (tail : Prop) :
    m / 262144 % 8 + 240 < n / 262144 % 8 + 240 ∨ m / 262144 % 8 + 240 = n / 262144 % 8 + 240 ∧
      (m / 4096 % 64 + 128 < n / 4096 % 64 + 128 ∨ m / 4096 % 64 + 128 = n / 4096 % 64 + 128 ∧
        (m / 64 % 64 + 128 < n / 64 % 64 + 128 ∨ m / 64 % 64 + 128 = n / 64 % 64 + 128 ∧
          (m % 64 + 128 < n % 64 + 128 ∨ m % 64 + 128 = n % 64 + 128 ∧ tail))) := by
  have hm : m / 262144 % 8 = m / 262144 := Nat.mod_eq_of_lt (by omega)
  have hn : n / 262144 % 8 = n / 262144 := Nat.mod_eq_of_lt (by omega)
  simp only [hm, hn, Nat.add_lt_add_iff_right, Nat.add_right_cancel_iff]
  exact (groups_lt h).imp_right (.imp_right (.imp_right (.imp_right
    (.imp_right (.imp_right .inl)))))

/-- A smaller character has smaller bytes, whatever follows them. -/
theorem encode_append_lt {c d : Char} (h : c < d) (r r' : List UInt8) :
    String.utf8EncodeChar c ++ r < String.utf8EncodeChar d ++ r' := by
  have hlt : c.val.toNat < d.val.toNat := h
  have hlast := toNat_val_lt d
  unfold String.utf8EncodeChar
  dsimp only
  generalize c.val.toNat = m at hlt
  generalize d.val.toNat = n at hlt hlast
  -- The lengths of the two forms decide which bytes are compared.
  split_ifs <;>
    simp only [List.cons_append, List.nil_append, List.cons_lt_cons_iff, UInt8.lt_iff_toNat_lt,
      ← UInt8.toNat_inj, UInt8.toNat_ofNat',
      toNat_ofNat_group (show 0 < 64 by decide) (show 64 + 128 ≤ 256 by decide),
      toNat_ofNat_group (show 0 < 32 by decide) (show 32 + 192 ≤ 256 by decide),
      toNat_ofNat_group (show 0 < 16 by decide) (show 16 + 224 ≤ 256 by decide),
      toNat_ofNat_group (show 0 < 8 by decide) (show 8 + 240 ≤ 256 by decide)]
  all_goals first
    | omega
    | exact four_bytes_lt hlt hlast _ -- two forms of four bytes

theorem flatMap_encode_lt {cs ds : List Char} (h : cs < ds) :
    cs.flatMap String.utf8EncodeChar < ds.flatMap String.utf8EncodeChar := by
  induction h with
  | nil =>
      rename_i d ds
      obtain ⟨b, bs, hd⟩ := List.exists_cons_of_ne_nil (String.utf8EncodeChar_ne_nil (c := d))
      rw [List.flatMap_cons, hd]
      exact .nil
  | rel h => exact encode_append_lt h _ _
  | cons _ ih => exact List.append_left_lt ih

theorem bytes_lt_bytes {s t : String} (h : s < t) : bytesOf s < bytesOf t := by
  rw [bytesOf_eq, bytesOf_eq]
  exact flatMap_encode_lt h

end Typeahead
