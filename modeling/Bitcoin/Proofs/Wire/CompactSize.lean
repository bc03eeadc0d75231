import Bitcoin.Proofs.Wire.Layout

/-!
# The forms of a count

A count below `0xfd` is its own byte, and any count that fits can take two, four or eight bytes
behind a marker. Reading accepts every form, also where a shorter one would do; writing picks the
shortest. So a count that was read is written back as it was exactly when its form is the shortest.

* **`takes_read`**: what is read is one of the forms.
* **`Form.selfDelimiting`**: the form can be told from what is behind it.
* **`Form.shortest_iff`**: the shortest form is the one that is written.
* **`read_encode_append`**, **`eq_encode_append_or_lt`**: what is written is read back, and whatever
  else is read as the same count is longer.
-/

namespace Bitcoin.CompactSize

/-- How many bytes a count takes, besides the marker. -/
inductive Width
  | one
  | two
  | four
  | eight
deriving DecidableEq

/-- The counts of a width are below this. -/
def Width.limit : Width → Nat
  | .one => 0xfd
  | .two => 0x10000
  | .four => 0x100000000
  | .eight => 0x10000000000000000

/-- The size of a form of that width, with the marker. -/
def Width.size : Width → Nat
  | .one => 1
  | .two => 3
  | .four => 5
  | .eight => 9

theorem Width.size_injective {v w : Width} (h : v.size = w.size) : v = w := by
  cases v <;> cases w <;> first | rfl | exact nomatch h

/-- A width with room for more takes more bytes. -/
theorem Width.size_le_size {v w : Width} (h : v.limit ≤ w.limit) : v.size ≤ w.size := by
  revert h
  cases v <;> cases w <;> decide

/-- A count in one of its forms. -/
@[ext]
structure Form where
  width : Width
  value : Nat
  fits : value < width.limit
deriving DecidableEq

namespace Form

/-- The bytes of a form. -/
def bytes : Form → Bytes
  | ⟨.one, n, _⟩ => leFixed 1 n
  | ⟨.two, n, _⟩ => 0xfd :: leFixed 2 n
  | ⟨.four, n, _⟩ => 0xfe :: leFixed 4 n
  | ⟨.eight, n, _⟩ => 0xff :: leFixed 8 n

/-- No form of the same count takes fewer bytes. -/
def Shortest (f : Form) : Prop := ∀ g : Form, g.value = f.value → f.bytes.length ≤ g.bytes.length

end Form

/-- A count of one byte is that byte. -/
theorem Form.exists_byte {n : Nat} (h : n < 0xfd) :
    ∃ b : UInt8, b.toNat = n ∧ bytes ⟨.one, n, h⟩ = [b] := by
  have hn : (UInt8.ofNat n).toNat = n := UInt8.toNat_ofNat_of_lt' (Nat.lt_trans h (by decide))
  refine ⟨UInt8.ofNat n, hn, ?_⟩
  have hbyte : leFixed 1 (UInt8.ofNat n).toNat = [UInt8.ofNat n] := leFixed_leValue [UInt8.ofNat n]
  rw [hn] at hbyte
  exact hbyte

/-- What is read is one of the forms. -/
theorem takes_read : read.Takes Form.value Form.bytes := by
  intro input rest n
  refine Reader.bind_eq_ok_iff.trans ⟨?_, ?_⟩
  · rintro ⟨marker, middle, hmarker, h⟩
    obtain rfl := Reader.byte_eq_ok_iff.mp hmarker
    split at h
    · next hm =>
        obtain ⟨hn, rfl⟩ := Reader.number_eq_ok_iff.mp h
        exact ⟨⟨.two, n, hn⟩, rfl, by rw [hm]; rfl⟩
    · split at h
      · next hm =>
          obtain ⟨hn, rfl⟩ := Reader.number_eq_ok_iff.mp h
          exact ⟨⟨.four, n, hn⟩, rfl, by rw [hm]; rfl⟩
      · split at h
        · next hm =>
            obtain ⟨hn, rfl⟩ := Reader.number_eq_ok_iff.mp h
            exact ⟨⟨.eight, n, hn⟩, rfl, by rw [hm]; rfl⟩
        · next htwo hfour height =>
            obtain ⟨rfl, rfl⟩ := Reader.pure_eq_ok_iff.mp h
            -- no byte above the counts is left
            have hn : marker.toNat < 0xfd := by
              have hlt := marker.toNat_lt
              have h2 : marker.toNat ≠ 0xfd := fun h => htwo (UInt8.toNat_inj.mp h)
              have h4 : marker.toNat ≠ 0xfe := fun h => hfour (UInt8.toNat_inj.mp h)
              have h8 : marker.toNat ≠ 0xff := fun h => height (UInt8.toNat_inj.mp h)
              omega
            obtain ⟨b, hb, hbytes⟩ := Form.exists_byte hn
            obtain rfl := UInt8.toNat_inj.mp hb
            exact ⟨⟨.one, _, hn⟩, rfl, by rw [hbytes]; rfl⟩
  · rintro ⟨⟨width, n, hn⟩, rfl, rfl⟩
    cases width with
    | one =>
        obtain ⟨b, rfl, hbytes⟩ := Form.exists_byte hn
        rw [hbytes]
        have hb : ∀ marker : UInt8, 0xfd ≤ marker.toNat → b ≠ marker := by
          rintro marker hmarker rfl
          exact Nat.not_lt.mpr hmarker hn
        refine ⟨b, rest, rfl, ?_⟩
        rw [if_neg (hb _ (by decide)), if_neg (hb _ (by decide)), if_neg (hb _ (by decide))]
        rfl
    | two => exact ⟨0xfd, leFixed 2 n ++ rest, rfl, Reader.number_eq_ok_iff.mpr ⟨hn, rfl⟩⟩
    | four => exact ⟨0xfe, leFixed 4 n ++ rest, rfl, Reader.number_eq_ok_iff.mpr ⟨hn, rfl⟩⟩
    | eight => exact ⟨0xff, leFixed 8 n ++ rest, rfl, Reader.number_eq_ok_iff.mpr ⟨hn, rfl⟩⟩

namespace Form

theorem length_bytes (f : Form) : f.bytes.length = f.width.size := by
  obtain ⟨width, n, h⟩ := f
  cases width with
  | one => rfl
  | two => rfl
  | four => rfl
  | eight => rfl

/-- A form is known from the count and the size. -/
theorem eq_of_size {f g : Form} (hvalue : f.value = g.value)
    (hlength : f.bytes.length = g.bytes.length) : f = g := by
  rw [length_bytes, length_bytes] at hlength
  exact Form.ext (Width.size_injective hlength) hvalue

/-- A form can be told from what is behind it. -/
theorem selfDelimiting : SelfDelimiting bytes := takes_read.selfDelimiting eq_of_size

/-- Every count has a form that is written for it, and no form has room in fewer bytes. -/
theorem exists_encode {n : Nat} (h : n < 2 ^ 64) : ∃ f : Form, f.value = n ∧ f.bytes = encode n ∧
    ∀ w : Width, n < w.limit → f.width.limit ≤ w.limit := by
  rw [encode]
  by_cases hone : n < 0xfd
  · refine ⟨⟨.one, n, hone⟩, rfl, (if_pos hone).symm, fun w hw => ?_⟩
    show Width.one.limit ≤ w.limit
    cases w <;> decide
  rw [if_neg hone]
  by_cases htwo : n < 0x10000
  · refine ⟨⟨.two, n, htwo⟩, rfl, (if_pos htwo).symm, fun w hw => ?_⟩
    show Width.two.limit ≤ w.limit
    cases w with
    | one => exact absurd hw hone
    | _ => decide
  rw [if_neg htwo]
  by_cases hfour : n < 0x100000000
  · refine ⟨⟨.four, n, hfour⟩, rfl, (if_pos hfour).symm, fun w hw => ?_⟩
    show Width.four.limit ≤ w.limit
    cases w with
    | one => exact absurd hw hone
    | two => exact absurd hw htwo
    | _ => decide
  rw [if_neg hfour]
  refine ⟨⟨.eight, n, h⟩, rfl, rfl, fun w hw => ?_⟩
  cases w with
  | one => exact absurd hw hone
  | two => exact absurd hw htwo
  | four => exact absurd hw hfour
  | eight => exact Nat.le_refl _

theorem value_lt (f : Form) : f.value < 2 ^ 64 := by
  have hlimit : f.width.limit ≤ 2 ^ 64 := by
    cases f.width <;> decide
  exact Nat.lt_of_lt_of_le f.fits hlimit

/-- A form is the shortest of its count exactly when it is the one that is written. -/
theorem shortest_iff {f : Form} : f.Shortest ↔ f.bytes = encode f.value := by
  obtain ⟨g, hvalue, hbytes, hleast⟩ := exists_encode f.value_lt
  have hle : ∀ k : Form, k.value = f.value → g.bytes.length ≤ k.bytes.length := by
    intro k hk
    rw [length_bytes, length_bytes]
    exact Width.size_le_size (hleast k.width (hk ▸ k.fits))
  constructor
  · intro hshort
    obtain rfl := eq_of_size hvalue.symm (Nat.le_antisymm (hshort g hvalue) (hle f rfl))
    exact hbytes
  · intro hwritten k hk
    rw [hwritten, ← hbytes]
    exact hle k hk

instance (f : Form) : Decidable f.Shortest := decidable_of_iff _ shortest_iff.symm

/-- Every count has a shortest form. -/
theorem exists_shortest {n : Nat} (h : n < 2 ^ 64) : ∃ f : Form, f.value = n ∧ f.Shortest := by
  obtain ⟨f, rfl, hbytes, -⟩ := exists_encode h
  exact ⟨f, rfl, shortest_iff.mpr hbytes⟩

end Form

/-- What was written is read back, whatever is behind it. -/
theorem read_encode_append {n : Nat} (h : n < 2 ^ 64) (rest : Bytes) :
    read (encode n ++ rest) = .ok (n, rest) := by
  obtain ⟨f, rfl, hbytes, -⟩ := Form.exists_encode h
  exact takes_read.mpr ⟨f, rfl, by rw [hbytes]⟩

/-- What is taken for a count is what would be written for it, or it is longer. -/
theorem eq_encode_append_or_lt {n : Nat} {bs rest : Bytes} (h : read bs = .ok (n, rest)) :
    bs = encode n ++ rest ∨ (encode n).length + rest.length < bs.length := by
  obtain ⟨f, rfl, rfl⟩ := takes_read.mp h
  obtain ⟨g, hvalue, hshort⟩ := Form.exists_shortest f.value_lt
  have hbytes : g.bytes = encode f.value := hvalue ▸ Form.shortest_iff.mp hshort
  rcases Nat.lt_or_eq_of_le (hshort f hvalue.symm) with hlt | hlength
  · rw [← hbytes, List.length_append]
    exact .inr (Nat.add_lt_add_right hlt _)
  · obtain rfl := Form.eq_of_size hvalue hlength
    rw [← hbytes]
    exact .inl rfl

end Bitcoin.CompactSize
