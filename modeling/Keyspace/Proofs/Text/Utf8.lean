/-
# Text and its octets

The octets of a text are well formed: reading them gives the text back (`decode_ofString`). The octets
of a character stand for nothing else, so the text may be cut character by character.
-/
import Keyspace.Text.Utf8

namespace Keyspace
namespace Utf8

/-- Octets below 128 stand for themselves only. -/
theorem toNat_of_mem_utf8EncodeChar {c : Char} {b : UInt8} (h : b ∈ String.utf8EncodeChar c) :
    b.toNat = c.toNat ∨ 128 ≤ b.toNat := by
  have hv : c.val.toNat = c.toNat := rfl
  rw [String.utf8EncodeChar.eq_1] at h
  split at h
  · rw [List.mem_singleton.mp h, UInt8.toNat_ofNat']
    omega
  · -- every octet of a longer form has its highest bit
    right
    split at h
    · simp only [List.mem_cons, List.not_mem_nil, or_false] at h
      rcases h with rfl | rfl <;> rw [UInt8.toNat_ofNat'] <;> omega
    · split at h
      · simp only [List.mem_cons, List.not_mem_nil, or_false] at h
        rcases h with rfl | rfl | rfl <;> rw [UInt8.toNat_ofNat'] <;> omega
      · simp only [List.mem_cons, List.not_mem_nil, or_false] at h
        rcases h with rfl | rfl | rfl | rfl <;> rw [UInt8.toNat_ofNat'] <;> omega

theorem firstChar?_utf8EncodeChar (c : Char) (rest : Bytes) :
    firstChar? (String.utf8EncodeChar c ++ rest) = some c := by
  have hlen : (String.utf8EncodeChar c).length ≤ 4 := by
    rw [String.length_utf8EncodeChar]
    exact c.utf8Size_le_four
  rw [firstChar?, List.take_append, List.take_of_length_le hlen, List.toByteArray_append]
  exact ByteArray.utf8DecodeChar?_utf8EncodeChar_append

/-- The octets of a character are its piece. -/
theorem pieces_utf8EncodeChar (c : Char) (rest : Bytes) :
    pieces (String.utf8EncodeChar c ++ rest) = .char c :: pieces rest := by
  have hfirst := firstChar?_utf8EncodeChar c rest
  have hlen := String.length_utf8EncodeChar c
  cases henc : String.utf8EncodeChar c with
  | nil => exact absurd henc String.utf8EncodeChar_ne_nil
  | cons lead tail =>
    rw [henc] at hfirst hlen
    rw [List.cons_append] at hfirst ⊢
    rw [pieces]
    simp only [hfirst]
    rw [show c.utf8Size - 1 = tail.length by rw [← hlen]; rfl, List.drop_left]

theorem pieces_flatMap : ∀ cs : List Char, pieces (cs.flatMap String.utf8EncodeChar) = cs.map .char
  | [] => by rw [List.flatMap_nil, pieces]; rfl
  | c :: cs => by rw [List.flatMap_cons, pieces_utf8EncodeChar, pieces_flatMap cs, List.map_cons]

theorem characters_map_char : ∀ (index : Nat) (cs : List Char), characters index (cs.map .char) = .ok cs
  | _, [] => rfl
  | index, c :: cs => by
    rw [List.map_cons, characters, characters_map_char]
    rfl

/-- The text of its octets is the text. -/
theorem decode_ofString (s : String) : decode (Bytes.ofString s) = .ok s := by
  rw [decode, Bytes.ofString, pieces_flatMap, characters_map_char]
  exact congrArg Except.ok String.ofList_toList

end Utf8
end Keyspace
