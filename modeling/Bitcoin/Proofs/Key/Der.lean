import Bitcoin.Key.Signature
import Bitcoin.Proofs.Wire.Layout

/-!
# The byte form of a signature

Reading takes the two integers of a signature as they are laid out: however many bytes they have,
and with any zeros in front. Writing has one form for a number, the fewest bytes, at least one, with
a zero in front of a high first bit. That is at most 33 bytes for a number of 256 bits, so every
length fits in its one byte. So a signature of such numbers is read back from its byte form, and a
byte form that is read is written back as it was exactly when both its integers have that one form.

* **`integerBytes_eq_ok_iff`**: the bytes that are written for a number.
* **`takes_readInteger`**, **`integerField_eq_ok_iff`**: an integer with its marker and its length.
* **`ofDer_eq_ok_iff`**, **`der_eq_ok_iff`**: what is read as a signature, and what is written for
  one.
* **`der_roundTrip`**: a signature there and back, and its bytes there and back.
-/

namespace Bitcoin.Signature

/-! ## The bytes of a number -/

theorem integerLimit_eq : integerLimit = 2 ^ 256 := by decide +kernel

/-- At least one byte, and no high first bit: with a zero in front where there would be none. -/
def withSignBit : Bytes → Bytes
  | [] => [0x00]
  | b :: bs => if 0x80 ≤ b then 0x00 :: b :: bs else b :: bs

/-- Bytes whose first bit is low, with a zero in front only where the first bit would be high
    without it, or where there would be no byte. -/
def Minimal : Bytes → Prop
  | [] => False
  | [b] => b < 0x80
  | b :: c :: _ => b < 0x80 ∧ (b = 0x00 → 0x80 ≤ c)

instance : (bs : Bytes) → Decidable (Minimal bs)
  | [] => .isFalse id
  | [b] => inferInstanceAs (Decidable (b < 0x80))
  | b :: c :: _ => inferInstanceAs (Decidable (b < 0x80 ∧ (b = 0x00 → 0x80 ≤ c)))

/-- The byte that keeps a number from being negative does not change its value. -/
theorem beValue_withSignBit (bs : Bytes) : beValue (withSignBit bs) = beValue bs := by
  cases bs with
  | nil => rfl
  | cons b bs =>
      rw [withSignBit]
      by_cases hb : 0x80 ≤ b
      · rw [if_pos hb, beValue_zero_cons]
      · rw [if_neg hb]

theorem length_withSignBit_le (bs : Bytes) : (withSignBit bs).length ≤ bs.length + 1 := by
  cases bs with
  | nil => exact Nat.le_refl 1
  | cons b bs =>
      rw [withSignBit]
      by_cases hb : 0x80 ≤ b
      · rw [if_pos hb]
        exact Nat.le_refl _
      · rw [if_neg hb]
        exact Nat.le_succ _

/-- Shortest forms get to be minimal, and there are no others that are. -/
theorem minimal_iff {bs : Bytes} :
    Minimal bs ↔ ∃ magnitude : Bytes, magnitude.head? ≠ some 0 ∧ withSignBit magnitude = bs := by
  constructor
  · intro h
    match bs, h with
    | [b], h =>
        by_cases hb : b = 0
        · exact ⟨[], nofun, by rw [hb]; rfl⟩
        · exact ⟨[b], fun hzero => hb (Option.some.inj hzero), if_neg (UInt8.not_le.mpr h)⟩
    | b :: c :: tail, h =>
        by_cases hb : b = 0
        · have hc : 0x80 ≤ c := h.2 hb
          refine ⟨c :: tail, fun hzero => ?_, by rw [withSignBit, if_pos hc, hb]⟩
          rw [Option.some.inj hzero] at hc
          exact absurd hc (by decide)
        · exact ⟨b :: c :: tail, fun hzero => hb (Option.some.inj hzero),
            if_neg (UInt8.not_le.mpr h.1)⟩
  · rintro ⟨magnitude, hhead, rfl⟩
    cases magnitude with
    | nil =>
        show (0x00 : UInt8) < 0x80
        decide
    | cons b tail =>
        rw [withSignBit]
        by_cases hb : 0x80 ≤ b
        · rw [if_pos hb]
          exact ⟨by decide, fun _ => hb⟩
        · have hlow : b < 0x80 := UInt8.not_le.mp hb
          rw [if_neg hb]
          cases tail with
          | nil => exact hlow
          | cons c tail => exact ⟨hlow, fun hzero => absurd (congrArg some hzero) hhead⟩

/-- A number in range is written in the fewest bytes, with one in front where it would look
    negative. -/
theorem integerBytes_of_range {n : Int} (h : 0 ≤ n ∧ n < integerLimit) :
    integerBytes n = .ok (withSignBit (beMinimal n.toNat)) := by
  rw [integerBytes, if_neg (by omega)]
  cases beMinimal n.toNat with
  | nil => rfl
  | cons b bs => rfl

/-- A number that is negative or has more than 256 bits is not written. -/
theorem range_of_integerBytes {n : Int} {bs : Bytes} (h : integerBytes n = .ok bs) :
    0 ≤ n ∧ n < integerLimit := by
  rw [integerBytes] at h
  split at h
  · exact nomatch h
  · omega

/-- A number of at most 256 bits needs at most one byte more than those. -/
theorem Minimal.length_le {bs : Bytes} (h : Minimal bs) (hlt : beValue bs < 2 ^ 256) :
    bs.length ≤ 33 := by
  obtain ⟨magnitude, hhead, rfl⟩ := minimal_iff.mp h
  rw [beValue_withSignBit] at hlt
  have hshortest : (beMinimal (beValue magnitude)).length ≤ 32 := by
    rw [beMinimal, List.length_reverse]
    exact length_leMinimal_le (hlt.trans_eq (by decide +kernel))
  rw [beMinimal_beValue_iff.mpr hhead] at hshortest
  exact (length_withSignBit_le magnitude).trans (Nat.succ_le_succ hshortest)

/-- The bytes that are written for a number are the minimal ones that denote it. -/
theorem integerBytes_eq_ok_iff {n : Int} {bs : Bytes} :
    integerBytes n = .ok bs ↔ Minimal bs ∧ beValue bs < 2 ^ 256 ∧ (beValue bs : Int) = n := by
  have hlimit := integerLimit_eq
  constructor
  · intro h
    have hrange := range_of_integerBytes h
    obtain rfl := Except.ok.inj ((integerBytes_of_range hrange).symm.trans h)
    have hvalue : (beValue (withSignBit (beMinimal n.toNat)) : Int) = n := by
      rw [beValue_withSignBit, beValue_beMinimal, Int.toNat_of_nonneg hrange.1]
    exact ⟨minimal_iff.mpr ⟨_, head?_beMinimal_ne _, rfl⟩, by omega, hvalue⟩
  · rintro ⟨hminimal, hlt, rfl⟩
    obtain ⟨magnitude, hhead, rfl⟩ := minimal_iff.mp hminimal
    rw [integerBytes_of_range (by omega), Int.toNat_natCast, beValue_withSignBit,
      beMinimal_beValue_iff.mpr hhead]

/-! ## An integer with its marker and its length -/

/-- An integer as it is laid out: its bytes, which one byte can count. -/
@[ext]
structure IntegerLayout where
  content : Bytes
  length_lt : content.length < 256

namespace IntegerLayout

/-- The number that the bytes denote, high byte first and without a sign. -/
def value (i : IntegerLayout) : Int := beValue i.content

/-- The marker, the length and the bytes. -/
def bytes (i : IntegerLayout) : Bytes := 0x02 :: UInt8.ofNat i.content.length :: i.content

/-- The bytes that are written for a number of at most 256 bits. -/
structure Canonical (i : IntegerLayout) : Prop where
  minimal : Minimal i.content
  value_lt : beValue i.content < 2 ^ 256

theorem Canonical.length_le {i : IntegerLayout} (h : i.Canonical) : i.bytes.length ≤ 35 :=
  Nat.add_le_add_right (h.minimal.length_le h.value_lt) 2

theorem toNat_length (i : IntegerLayout) :
    (UInt8.ofNat i.content.length).toNat = i.content.length :=
  UInt8.toNat_ofNat_of_lt' i.length_lt

/-- An integer can be told from what is behind it. -/
theorem selfDelimiting : SelfDelimiting bytes := by
  intro i j rest last h
  obtain ⟨hlength, hcontent⟩ := List.cons_eq_cons.mp (List.cons_eq_cons.mp h).2
  have hsize : i.content.length = j.content.length := by
    rw [← i.toNat_length, ← j.toNat_length]
    exact congrArg UInt8.toNat hlength
  obtain ⟨hbytes, rfl⟩ := List.append_inj hcontent hsize
  exact ⟨IntegerLayout.ext hbytes, rfl⟩

end IntegerLayout

theorem nextByte_eq_ok_iff {fault : DerFault} {b : UInt8} {input rest : Bytes} :
    nextByte fault input = .ok (b, rest) ↔ input = b :: rest := by
  cases input with
  | nil => exact ⟨nofun, nofun⟩
  | cons c tail =>
      show Except.ok (c, tail) = .ok (b, rest) ↔ _
      rw [Except.ok.injEq, Prod.mk.injEq, List.cons.injEq]

/-- A marker that is asked for and a length, and then what is read behind them. -/
theorem marked_eq_ok_iff {α : Type} {marker : UInt8} {absent wrong unsized : DerFault}
    {k : UInt8 → Reader α} {a : α} {input rest : Bytes} :
    (do
      if (← nextByte absent) ≠ marker then throw (.badSignature wrong)
      k (← nextByte unsized) : Reader α) input = .ok (a, rest) ↔
      ∃ c tail, input = marker :: c :: tail ∧ k c tail = .ok (a, rest) := by
  refine Reader.bind_eq_ok_iff.trans ⟨?_, ?_⟩
  · rintro ⟨b, middle, hb, h⟩
    obtain rfl := nextByte_eq_ok_iff.mp hb
    by_cases hmarker : b = marker
    · rw [if_neg (not_not_intro hmarker)] at h
      obtain ⟨c, tail, hc, hk⟩ := Reader.bind_eq_ok_iff.mp h
      obtain rfl := nextByte_eq_ok_iff.mp hc
      exact ⟨c, tail, by rw [hmarker], hk⟩
    · rw [if_pos hmarker] at h
      exact nomatch h
  · rintro ⟨c, tail, rfl, hk⟩
    refine ⟨marker, c :: tail, rfl, ?_⟩
    rw [if_neg (not_not_intro rfl)]
    exact Reader.bind_eq_ok_iff.mpr ⟨c, tail, rfl, hk⟩

/-- What is read as an integer is one as it is laid out. -/
theorem takes_readInteger : readInteger.Takes IntegerLayout.value IntegerLayout.bytes := by
  intro input rest n
  refine marked_eq_ok_iff.trans ⟨?_, ?_⟩
  · rintro ⟨c, tail, rfl, h⟩
    by_cases hlength : (tail.take c.toNat).length = c.toNat
    · obtain ⟨rfl, rfl⟩ := Prod.mk.inj (Except.ok.inj ((if_pos hlength).symm.trans h))
      refine ⟨⟨tail.take c.toNat, hlength.trans_lt c.toNat_lt⟩, rfl, ?_⟩
      show _ = 0x02 :: UInt8.ofNat (tail.take c.toNat).length ::
        (tail.take c.toNat ++ tail.drop c.toNat)
      rw [hlength, UInt8.ofNat_toNat, List.take_append_drop]
    · exact nomatch (if_neg hlength).symm.trans h
  · rintro ⟨i, rfl, rfl⟩
    refine ⟨UInt8.ofNat i.content.length, i.content ++ rest, rfl, ?_⟩
    show (if ((i.content ++ rest).take _).length = _ then Except.ok (_, _) else _) = _
    rw [i.toNat_length, List.take_left' rfl, List.drop_left' rfl, if_pos rfl]
    rfl

/-- What is written for a number is the one layout in the form that is written. -/
theorem integerField_eq_ok_iff {n : Int} {field : Bytes} : integerField n = .ok field ↔
    ∃ i : IntegerLayout, i.Canonical ∧ i.value = n ∧ i.bytes = field := by
  refine Except.bind_eq_ok_iff.trans ⟨?_, ?_⟩
  · rintro ⟨bs, hbs, h⟩
    obtain ⟨hminimal, hlt, hvalue⟩ := integerBytes_eq_ok_iff.mp hbs
    exact ⟨⟨bs, (hminimal.length_le hlt).trans_lt (by decide)⟩, ⟨hminimal, hlt⟩, hvalue,
      Except.ok.inj h⟩
  · rintro ⟨i, hi, rfl, rfl⟩
    exact ⟨i.content, integerBytes_eq_ok_iff.mpr ⟨hi.minimal, hi.value_lt, rfl⟩, rfl⟩

/-- A number is written when it is not negative and has at most 256 bits. -/
theorem exists_canonical_iff {n : Int} :
    (∃ i : IntegerLayout, i.Canonical ∧ i.value = n) ↔ 0 ≤ n ∧ n < 2 ^ 256 := by
  have hlimit := integerLimit_eq
  constructor
  · rintro ⟨i, hi, rfl⟩
    have hlt := hi.value_lt
    rw [IntegerLayout.value]
    omega
  · intro h
    have hbytes := integerBytes_of_range (n := n) (by omega)
    have hfield : integerField n = .ok _ := Except.bind_eq_ok_iff.mpr ⟨_, hbytes, rfl⟩
    obtain ⟨i, hi, hvalue, -⟩ := integerField_eq_ok_iff.mp hfield
    exact ⟨i, hi, hvalue⟩

/-! ## Both integers -/

/-- A signature as it is laid out: its two integers, which one byte can count together. -/
@[ext]
structure Layout where
  r : IntegerLayout
  s : IntegerLayout
  length_lt : (r.bytes ++ s.bytes).length < 256

namespace Layout

/-- The numbers that are read. -/
def signature (l : Layout) : Signature := ⟨l.r.value, l.s.value⟩

/-- The marker, the length of what is behind it, and both integers. -/
def bytes (l : Layout) : Bytes :=
  0x30 :: UInt8.ofNat (l.r.bytes ++ l.s.bytes).length :: (l.r.bytes ++ l.s.bytes)

/-- Both integers in the form that is written. -/
structure Canonical (l : Layout) : Prop where
  r : l.r.Canonical
  s : l.s.Canonical

/-- Integers in the form that is written are short enough to stand together. -/
theorem exists_of_canonical {i j : IntegerLayout} (hi : i.Canonical) (hj : j.Canonical) :
    ∃ l : Layout, l.Canonical ∧ l.r = i ∧ l.s = j := by
  have hleni := hi.length_le
  have hlenj := hj.length_le
  refine ⟨⟨i, j, ?_⟩, ⟨hi, hj⟩, rfl, rfl⟩
  rw [List.length_append]
  omega

/-- A signature is known from its bytes. -/
theorem bytes_injective : Function.Injective bytes := by
  intro k l h
  have hcontent : k.r.bytes ++ k.s.bytes = l.r.bytes ++ l.s.bytes :=
    (List.cons_eq_cons.mp (List.cons_eq_cons.mp h).2).2
  obtain ⟨hr, hs⟩ := IntegerLayout.selfDelimiting hcontent
  exact Layout.ext hr (IntegerLayout.selfDelimiting.injective hs)

end Layout

/-- Both integers behind a length that counts all the bytes. -/
theorem readDer_eq_ok_iff {sig : Signature} {input rest : Bytes} :
    readDer input = .ok (sig, rest) ↔ ∃ (c : UInt8) (i j : IntegerLayout),
      input = 0x30 :: c :: (i.bytes ++ (j.bytes ++ rest)) ∧
        (i.bytes ++ (j.bytes ++ rest)).length = c.toNat ∧ ⟨i.value, j.value⟩ = sig := by
  refine marked_eq_ok_iff.trans ⟨?_, ?_⟩
  · rintro ⟨c, tail, rfl, h⟩
    obtain ⟨content, middle, hget, h⟩ := Reader.bind_eq_ok_iff.mp h
    obtain ⟨rfl, rfl⟩ := Prod.mk.inj (Except.ok.inj hget)
    by_cases hlength : tail.length = c.toNat
    · rw [if_neg (not_not_intro hlength)] at h
      obtain ⟨r, behind, hr, h⟩ := Reader.bind_eq_ok_iff.mp h
      obtain ⟨s, last, hs, h⟩ := Reader.bind_eq_ok_iff.mp h
      obtain ⟨rfl, rfl⟩ := Reader.pure_eq_ok_iff.mp h
      obtain ⟨i, rfl, rfl⟩ := takes_readInteger.mp hr
      obtain ⟨j, rfl, rfl⟩ := takes_readInteger.mp hs
      exact ⟨c, i, j, rfl, hlength, rfl⟩
    · rw [if_pos hlength] at h
      exact nomatch h
  · rintro ⟨c, i, j, rfl, hlength, rfl⟩
    refine ⟨c, _, rfl, Reader.bind_eq_ok_iff.mpr ⟨_, _, rfl, ?_⟩⟩
    rw [if_neg (not_not_intro hlength)]
    refine Reader.bind_eq_ok_iff.mpr ⟨_, _, takes_readInteger.mpr ⟨i, rfl, rfl⟩, ?_⟩
    exact Reader.bind_eq_ok_iff.mpr ⟨_, _, takes_readInteger.mpr ⟨j, rfl, rfl⟩, rfl⟩

/-- A signature is read when nothing is left behind it. -/
theorem ofDer_eq_ok_iff_readDer {bs : Bytes} {sig : Signature} :
    ofDer bs = .ok sig ↔ readDer bs = .ok (sig, []) := by
  refine Except.bind_eq_ok_iff.trans ⟨?_, ?_⟩
  · rintro ⟨⟨sig', rest⟩, hread, h⟩
    cases rest with
    | nil =>
        obtain rfl := Except.ok.inj h
        exact hread
    | cons b rest => exact nomatch h
  · intro hread
    exact ⟨(sig, []), hread, rfl⟩

/-- What is read with nothing left over is a signature as it is laid out. -/
theorem ofDer_eq_ok_iff {bs : Bytes} {sig : Signature} :
    ofDer bs = .ok sig ↔ ∃ l : Layout, l.bytes = bs ∧ l.signature = sig := by
  rw [ofDer_eq_ok_iff_readDer, readDer_eq_ok_iff]
  simp only [List.append_nil]
  constructor
  · rintro ⟨c, i, j, rfl, hlength, rfl⟩
    refine ⟨⟨i, j, hlength.trans_lt c.toNat_lt⟩, ?_, rfl⟩
    show 0x30 :: UInt8.ofNat (i.bytes ++ j.bytes).length :: (i.bytes ++ j.bytes) = _
    rw [hlength, UInt8.ofNat_toNat]
  · rintro ⟨l, rfl, rfl⟩
    exact ⟨_, l.r, l.s, rfl, (UInt8.toNat_ofNat_of_lt' l.length_lt).symm, rfl⟩

/-- What is written for a signature is its one layout in the form that is written. -/
theorem der_eq_ok_iff {sig : Signature} {bs : Bytes} :
    sig.der = .ok bs ↔ ∃ l : Layout, l.Canonical ∧ l.bytes = bs ∧ l.signature = sig := by
  refine Except.bind_eq_ok_iff.trans ⟨?_, ?_⟩
  · rintro ⟨first, hfirst, h⟩
    obtain ⟨second, hsecond, hbytes⟩ := Except.bind_eq_ok_iff.mp h
    obtain ⟨i, hi, hr, rfl⟩ := integerField_eq_ok_iff.mp hfirst
    obtain ⟨j, hj, hs, rfl⟩ := integerField_eq_ok_iff.mp hsecond
    obtain ⟨l, hl, rfl, rfl⟩ := Layout.exists_of_canonical hi hj
    exact ⟨l, hl, Except.ok.inj hbytes, Signature.ext hr hs⟩
  · rintro ⟨l, hl, rfl, rfl⟩
    refine ⟨l.r.bytes, integerField_eq_ok_iff.mpr ⟨l.r, hl.r, rfl, rfl⟩, ?_⟩
    exact Except.bind_eq_ok_iff.mpr
      ⟨l.s.bytes, integerField_eq_ok_iff.mpr ⟨l.s, hl.s, rfl, rfl⟩, rfl⟩

/-- A signature is written back as it is laid out when it is in the form that is written. -/
theorem writes_der : Writes der Layout.signature Layout.bytes Layout.Canonical where
  write_value := fun hl => der_eq_ok_iff.mpr ⟨_, hl, rfl, rfl⟩
  exists_chosen := by
    intro k bs h
    obtain ⟨l, hl, rfl, -⟩ := der_eq_ok_iff.mp h
    exact ⟨l, hl, rfl⟩

/-- A signature of two numbers of 256 bits has a layout in the form that is written. -/
theorem exists_canonical_layout_iff {sig : Signature} :
    (∃ l : Layout, l.Canonical ∧ l.signature = sig) ↔
      (0 ≤ sig.r ∧ sig.r < 2 ^ 256) ∧ 0 ≤ sig.s ∧ sig.s < 2 ^ 256 := by
  rw [← exists_canonical_iff, ← exists_canonical_iff]
  constructor
  · rintro ⟨l, hl, rfl⟩
    exact ⟨⟨l.r, hl.r, rfl⟩, l.s, hl.s, rfl⟩
  · rintro ⟨⟨i, hi, hr⟩, j, hj, hs⟩
    obtain ⟨l, hl, rfl, rfl⟩ := Layout.exists_of_canonical hi hj
    exact ⟨l, hl, Signature.ext hr hs⟩

/-- A signature of two numbers of 256 bits is read back from its byte form. -/
theorem exists_der_iff {sig : Signature} : (∃ bs, sig.der = .ok bs ∧ ofDer bs = .ok sig) ↔
    (0 ≤ sig.r ∧ sig.r < 2 ^ 256) ∧ 0 ≤ sig.s ∧ sig.s < 2 ^ 256 := by
  rw [← exists_canonical_layout_iff]
  constructor
  · rintro ⟨bs, hder, -⟩
    obtain ⟨l, hl, -, hsig⟩ := der_eq_ok_iff.mp hder
    exact ⟨l, hl, hsig⟩
  · rintro ⟨l, hl, rfl⟩
    exact ⟨l.bytes, der_eq_ok_iff.mpr ⟨l, hl, rfl, rfl⟩, ofDer_eq_ok_iff.mpr ⟨l, rfl, rfl⟩⟩

/-- A signature is written exactly when both its numbers are non-negative and have at most 256 bits,
    and then it is read back from its byte form. Bytes are read exactly when they are laid out as a
    signature, as the numbers that both integers denote; and they are what is written for these
    exactly when both integers are minimal and have at most 256 bits. -/
theorem der_roundTrip :
    (∀ sig : Signature,
      ((∃ bs, sig.der = .ok bs) ↔ (0 ≤ sig.r ∧ sig.r < 2 ^ 256) ∧ 0 ≤ sig.s ∧ sig.s < 2 ^ 256) ∧
      ((∃ bs, sig.der = .ok bs ∧ ofDer bs = .ok sig) ↔
        (0 ≤ sig.r ∧ sig.r < 2 ^ 256) ∧ 0 ≤ sig.s ∧ sig.s < 2 ^ 256)) ∧
    (∀ (bs : Bytes) (sig : Signature),
      ofDer bs = .ok sig ↔ ∃ l : Layout, l.bytes = bs ∧ l.signature = sig) ∧
    ∀ l : Layout, l.signature.der = .ok l.bytes ↔ l.Canonical := by
  refine ⟨fun sig => ⟨⟨?_, ?_⟩, exists_der_iff⟩, fun bs sig => ofDer_eq_ok_iff, fun l => ?_⟩
  · rintro ⟨bs, hder⟩
    obtain ⟨l, hl, -, hsig⟩ := der_eq_ok_iff.mp hder
    exact exists_canonical_layout_iff.mp ⟨l, hl, hsig⟩
  · intro hrange
    obtain ⟨bs, hder, -⟩ := exists_der_iff.mpr hrange
    exact ⟨bs, hder⟩
  · exact writes_der.write_eq_ok_iff Layout.bytes_injective

/-- A high first bit gets a zero in front. -/
example : (⟨1, 0x80⟩ : Signature).der
    = .ok [0x30, 0x07, 0x02, 0x01, 0x01, 0x02, 0x02, 0x00, 0x80] := by
  decide +kernel

end Bitcoin.Signature
