import Bitcoin.Proofs.Bytes.Word
import Bitcoin.Proofs.Wire.CompactSize

/-!
# Integers on the wire

An integer is a count, which takes as many bytes as it needs, or a field, which takes as many as
the format gives it. Both are written low byte first. A count is read back as it is; a field is read
back without what its width had no room for, and what was read from a field is written as it was.

* **`integers_roundTrip`**: counts and fields there and back, and the registers that hold them.
-/

namespace Bitcoin

/-- A field is read back without what its width has no room for. -/
theorem Reader.number_leFixed_append (w n : Nat) (rest : Bytes) :
    Reader.number w (leFixed w n ++ rest) = .ok (n % 2 ^ (8 * w), rest) := by
  rw [← pow_256]
  refine Reader.number_eq_ok_iff.mpr ⟨Nat.mod_lt _ (Nat.pow_pos (by decide)), ?_⟩
  rw [leFixed_eq_iff.mpr (Nat.mod_mod n (256 ^ w))]

/-- A field of at most eight bytes is read as the word of its bytes. -/
theorem Reader.number_eq_leWord {bs : Bytes} (h : bs.length ≤ 8) :
    Reader.number bs.length bs = .ok ((leWord bs).toNat, []) := by
  have hvalue : (leWord bs).toNat = leValue bs := by
    rw [toNat_leWord, List.take_of_length_le h]
  rw [hvalue]
  refine Reader.number_eq_ok_iff.mpr ⟨leValue_lt bs, ?_⟩
  rw [leFixed_leValue, List.append_nil]

/-- A count below `2 ^ 64` is read back from what is written for it, which is shorter than anything
    else that is read as the same count. A field of at most eight bytes is read back modulo its
    size, and what is read from such a field is written as it was. The loops over a register of
    64 bits take in and give out the same numbers. -/
theorem integers_roundTrip {n w : Nat} (hn : n < 2 ^ 64) (hw : w ≤ 8) :
    (∀ rest, CompactSize.read (CompactSize.encode n ++ rest) = .ok (n, rest)) ∧
      (∀ bs rest, CompactSize.read bs = .ok (n, rest) → bs ≠ CompactSize.encode n →
        (CompactSize.encode n).length < bs.length) ∧
      (∀ rest, Reader.number w (leFixed w n ++ rest) = .ok (n % 2 ^ (8 * w), rest)) ∧
      (∀ bs : Bytes, bs.length = w →
        ∃ m < 2 ^ 64, Reader.number w bs = .ok (m, []) ∧ leFixed w m = bs ∧ leWord bs = .ofNat m) ∧
      leBytes w (.ofNat n) = leFixed w n := by
  refine ⟨CompactSize.read_encode_append hn, ?_, Reader.number_leFixed_append w n, ?_, ?_⟩
  · intro bs rest h hne
    rcases CompactSize.eq_encode_append_or_lt h with rfl | hlt
    · -- then there is something behind what would be written
      have hrest : rest ≠ [] := by
        rintro rfl
        exact hne (List.append_nil _)
      rw [List.length_append]
      exact Nat.lt_add_of_pos_right (List.length_pos_iff.mpr hrest)
    · exact Nat.lt_of_le_of_lt (Nat.le_add_right _ _) hlt
  · rintro bs rfl
    refine ⟨_, (leWord bs).toNat_lt, Reader.number_eq_leWord hw, ?_, UInt64.ofNat_toNat.symm⟩
    rw [toNat_leWord, List.take_of_length_le hw, leFixed_leValue]
  · rw [leBytes_eq, UInt64.toNat_ofNat_of_lt' hn]

theorem integers_roundTrip_three_hundred :
    ((300 : Nat) < 2 ^ 64 ∧ 1 ≤ 8) ∧ CompactSize.encode 300 = [0xfd, 0x2c, 0x01] ∧
      CompactSize.read [0xfd, 0x2c, 0x01, 0x07] = .ok (300, [0x07]) ∧
      Reader.number 1 [0x2c, 0x07] = .ok (44, [0x07]) := by
  have h := integers_roundTrip (by decide : 300 < 2 ^ 64) (by decide : 1 ≤ 8)
  exact ⟨by decide, rfl, h.1 [0x07], h.2.2.1 [0x07]⟩

end Bitcoin
