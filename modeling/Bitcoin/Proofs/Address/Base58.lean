import Bitcoin.Address.Base58
import Bitcoin.Proofs.Wire.Layout
import Mathlib.Data.Nat.Digits.Lemmas

/-!
# Base58 there and back

Bytes and digits are two positional notations for the same thing: a number, and how many zeros stand
in front of its shortest form. A text respells the bytes in digits and reading respells the digits in
bytes, so each undoes the other. What is not written in digits is not read, and the first of its
bytes that belongs to no digit is named. The checked form appends bytes that are known from the
others, so it is read back in the same way.

* **`Positional.respell_respell`**: two positional notations for numbers with zeros in front.
* **`decode_eq_ok_iff`**, **`decode_eq_error_iff`**: what is read, and the byte that is named.
* **`decodeChecked_eq_ok_iff`**: what is read with its checksum.
* **`text_there_and_back`**: all of this for every byte string and every text.
-/

namespace Bitcoin

/-! ## Positional notations -/

/-- A way to write numbers: every number has a shortest form, which has no zero in front, and zeros
    in front change nothing. -/
structure Positional {δ : Type} (valid : δ → Prop) (zero : δ) (value : List δ → Nat)
    (shortest : Nat → List δ) : Prop where
  value_zero_cons : ∀ ds, value (zero :: ds) = value ds
  value_shortest : ∀ n, value (shortest n) = n
  valid_shortest : ∀ n, ∀ d ∈ shortest n, valid d
  head?_shortest_ne : ∀ n, (shortest n).head? ≠ some zero
  shortest_value : ∀ ds, (∀ d ∈ ds, valid d) → ds.head? ≠ some zero → shortest (value ds) = ds

/-- The same number in another notation, with as many zeros in front of its shortest form. -/
def respell {δ ε : Type} [DecidableEq δ] (zero : δ) (value : List δ → Nat) (zero' : ε)
    (shortest' : Nat → List ε) (ds : List δ) : List ε :=
  List.replicate (ds.takeWhile (· = zero)).length zero' ++ shortest' (value ds)

/-- The zeros in front can be told from what is behind them. -/
theorem exists_replicate_append {δ : Type} [DecidableEq δ] (zero : δ) (ds : List δ) :
    ∃ n rest, ds = List.replicate n zero ++ rest ∧ rest.head? ≠ some zero := by
  induction ds with
  | nil => exact ⟨0, [], rfl, nofun⟩
  | cons d ds ih =>
      by_cases hd : d = zero
      · subst hd
        obtain ⟨n, rest, rfl, hrest⟩ := ih
        exact ⟨n + 1, rest, rfl, hrest⟩
      · exact ⟨0, d :: ds, rfl, fun h => hd (Option.some.inj h)⟩

/-- The zeros in front are those before the first digit other than zero. -/
theorem takeWhile_replicate_append {δ : Type} [DecidableEq δ] {zero : δ} {rest : List δ}
    (h : rest.head? ≠ some zero) (n : Nat) :
    (List.replicate n zero ++ rest).takeWhile (· = zero) = List.replicate n zero := by
  have hrest : rest.takeWhile (· = zero) = [] := by
    cases rest with
    | nil => rfl
    | cons d rest =>
        have hd : d ≠ zero := fun hd => h (congrArg some hd)
        simp [hd]
  have hzeros : ∀ d ∈ List.replicate n zero, decide (d = zero) = true := by
    intro d hd
    exact decide_eq_true (List.eq_of_mem_replicate hd)
  rw [List.takeWhile_append_of_pos hzeros, hrest, List.append_nil]

namespace Positional

variable {δ ε : Type} {valid : δ → Prop} {zero : δ} {value : List δ → Nat}
  {shortest : Nat → List δ} {valid' : ε → Prop} {zero' : ε} {value' : List ε → Nat}
  {shortest' : Nat → List ε}

/-- Zeros in front do not change the value. -/
theorem value_replicate_append (h : Positional valid zero value shortest) (n : Nat)
    (rest : List δ) : value (List.replicate n zero ++ rest) = value rest := by
  induction n with
  | zero => rfl
  | succ n ih => rw [List.replicate_succ, List.cons_append, h.value_zero_cons, ih]

variable [DecidableEq δ]

/-- Each zero in front stays a zero in front, and the rest is spelled in its shortest form. -/
theorem respell_replicate_append (h : Positional valid zero value shortest) {rest : List δ}
    (hrest : rest.head? ≠ some zero) (n : Nat) :
    respell zero value zero' shortest' (List.replicate n zero ++ rest)
      = List.replicate n zero' ++ shortest' (value rest) := by
  rw [respell, takeWhile_replicate_append hrest, List.length_replicate, h.value_replicate_append]

/-- Only digits of the other notation are used. -/
theorem valid_respell (h' : Positional valid' zero' value' shortest') (hzero : valid' zero')
    (ds : List δ) : ∀ d ∈ respell zero value zero' shortest' ds, valid' d := by
  intro d hd
  rcases List.mem_append.mp hd with hd | hd
  · rw [List.eq_of_mem_replicate hd]
    exact hzero
  · exact h'.valid_shortest _ d hd

/-- What is respelt and respelt again is as it was. -/
theorem respell_respell [DecidableEq ε] (h : Positional valid zero value shortest)
    (h' : Positional valid' zero' value' shortest') {ds : List δ} (hds : ∀ d ∈ ds, valid d) :
    respell zero' value' zero shortest (respell zero value zero' shortest' ds) = ds := by
  obtain ⟨n, rest, rfl, hrest⟩ := exists_replicate_append zero ds
  have hvalid : ∀ d ∈ rest, valid d := fun d hd => hds d (List.mem_append_right _ hd)
  rw [h.respell_replicate_append hrest, h'.respell_replicate_append (h'.head?_shortest_ne _),
    h'.value_shortest, h.shortest_value rest hvalid hrest]

end Positional

/-- Bytes are a notation in base 256. -/
theorem positional_bytes : Positional (fun _ => True) 0 beValue beMinimal where
  value_zero_cons := beValue_zero_cons
  value_shortest := beValue_beMinimal
  valid_shortest := fun _ _ _ => trivial
  head?_shortest_ne := head?_beMinimal_ne
  shortest_value := fun _ _ h => beMinimal_beValue_iff.mpr h

namespace Base58

/-- The digits are found lowest first by dividing by 58. -/
theorem lowDigits_eq_digits (n : Nat) : lowDigits n = Nat.digits 58 n := by
  induction n using Nat.strongRecOn with
  | _ n ih =>
      rw [lowDigits]
      by_cases hn : n = 0
      · rw [if_pos hn, hn, Nat.digits_zero]
      · have hpos := Nat.pos_of_ne_zero hn
        rw [if_neg hn, ih _ (Nat.div_lt_self hpos (by decide)),
          Nat.digits_def' (by decide) hpos]

/-- The value of digits with the highest in front. -/
theorem ofDigits_eq_ofDigits (ds : List Nat) : ofDigits ds = Nat.ofDigits 58 ds.reverse := by
  induction ds using List.reverseRecOn with
  | nil => rfl
  | append_singleton ds d ih =>
      rw [List.reverse_append, List.reverse_singleton, List.singleton_append, Nat.ofDigits_cons,
        ← ih, ofDigits, List.foldl_append]
      exact Nat.add_comm _ _

/-- The fewest digits of a number, the high one first. -/
def highDigits (n : Nat) : List Nat := (lowDigits n).reverse

/-- Digits are a notation in base 58. -/
theorem positional_digits : Positional (· < 58) 0 ofDigits highDigits where
  value_zero_cons := fun _ => rfl
  value_shortest := ofDigits_lowDigits
  valid_shortest := by
    intro n d hd
    rw [highDigits, List.mem_reverse, lowDigits_eq_digits] at hd
    exact Nat.digits_lt_base (by decide) hd
  head?_shortest_ne := by
    intro n h
    rw [highDigits, List.head?_reverse, lowDigits_eq_digits] at h
    by_cases hn : n = 0
    · rw [hn, Nat.digits_zero] at h
      exact nomatch h
    · refine Nat.getLast_digit_ne_zero 58 hn ?_
      rw [List.getLast?_eq_some_getLast (Nat.digits_ne_nil_iff_ne_zero.mpr hn)] at h
      exact Option.some.inj h
  shortest_value := by
    intro ds hds hhead
    rw [highDigits, lowDigits_eq_digits, ofDigits_eq_ofDigits, Nat.digits_ofDigits 58 (by decide),
      List.reverse_reverse]
    · intro d hd
      exact hds d (List.mem_reverse.mp hd)
    · intro hne hlast
      rw [← List.getLast?_reverse, List.getLast?_eq_some_getLast hne, hlast] at hhead
      exact hhead rfl

/-! ## Characters and digits -/

/-- The code points of the digits, which are the digits and letters of ASCII without `0`, `I`, `O`
    and `l`. -/
def digitCodes : List Nat :=
  List.range' 0x31 9 ++ List.range' 0x41 8 ++ List.range' 0x4a 5 ++ List.range' 0x50 11 ++
    List.range' 0x61 11 ++ List.range' 0x6d 14

/-- The alphabet, by its code points. -/
theorem map_toNat_alphabet : alphabet.map Char.toNat = digitCodes := by rfl

/-- The digit zero is written as a one. -/
theorem digit_zero : digit 0 = '1' := by rfl

section

-- the code points say all that is needed of the alphabet, which is slow to spell out
attribute [local irreducible] alphabet

theorem length_alphabet : alphabet.length = 58 := by
  rw [← List.length_map Char.toNat, map_toNat_alphabet]
  rfl

theorem nodup_alphabet : alphabet.Nodup := by
  refine List.Nodup.of_map Char.toNat ?_
  rw [map_toNat_alphabet]
  decide

/-- A character is a digit when its code point is one of them. -/
theorem mem_alphabet_iff {c : Char} : c ∈ alphabet ↔ c.toNat ∈ digitCodes := by
  rw [← map_toNat_alphabet, List.mem_map_of_injective fun _ _ => Char.toNat_inj.mp]

/-- A digit takes one byte. -/
theorem utf8EncodeChar_of_mem {c : Char} (hc : c ∈ alphabet) :
    String.utf8EncodeChar c = [c.toUInt8] := by
  have hascii : ∀ n ∈ digitCodes, n ≤ 0x7f := by decide
  exact if_pos (hascii _ (mem_alphabet_iff.mp hc))

/-- A digit stands in the alphabet at its value. -/
theorem digit_eq_getElem {d : Nat} (hd : d < alphabet.length) : digit d = alphabet[d] := by
  rw [digit, List.getD_eq_getElem?_getD, List.getElem?_eq_getElem hd, Option.getD_some]

/-- The value of a character is the number that it is the digit of. -/
theorem digitValue_eq_ok_iff {c : Char} {d : Nat} :
    digitValue c = .ok d ↔ d < 58 ∧ c = digit d := by
  have hfound : alphabet.findIdx? (· == c) = some d ↔ d < 58 ∧ c = digit d := by
    rw [List.findIdx?_eq_some_iff_getElem, ← length_alphabet]
    constructor
    · rintro ⟨hd, hc, -⟩
      exact ⟨hd, (beq_iff_eq.mp hc).symm.trans (digit_eq_getElem hd).symm⟩
    · rintro ⟨hd, rfl⟩
      rw [digit_eq_getElem hd]
      refine ⟨hd, beq_self_eq_true _, fun j hj hsame => ?_⟩
      exact Nat.ne_of_lt hj (nodup_alphabet.getElem_inj_iff.mp (beq_iff_eq.mp hsame))
  rw [← hfound, digitValue]
  cases alphabet.findIdx? (· == c) with
  | none => exact ⟨nofun, nofun⟩
  | some n => rw [Except.ok.injEq, Option.some.injEq]

/-- Only zero is written as a one. -/
theorem digit_eq_one_iff {d : Nat} (hd : d < 58) : digit d = '1' ↔ d = 0 := by
  have hone : digitValue '1' = .ok 0 := digitValue_eq_ok_iff.mpr ⟨by decide, digit_zero.symm⟩
  constructor
  · intro h
    have hvalue := digitValue_eq_ok_iff.mpr ⟨hd, h.symm⟩
    rw [hone] at hvalue
    exact (Except.ok.inj hvalue).symm
  · rintro rfl
    exact digit_zero

/-- A character that is no digit is refused, with the first byte of its encoding. -/
theorem digitValue_eq_error_iff {c : Char} {e : Error} : digitValue c = .error e ↔
    c ∉ alphabet ∧ e = .badBase58 ((String.utf8EncodeChar c).headD 0) := by
  rw [digitValue]
  split
  · next n hn =>
      obtain ⟨hlt, hc, -⟩ := List.findIdx?_eq_some_iff_getElem.mp hn
      have hmem : c ∈ alphabet := beq_iff_eq.mp hc ▸ List.getElem_mem hlt
      constructor
      · intro h
        exact nomatch h
      · rintro ⟨hnot, -⟩
        exact absurd hmem hnot
  · next hn =>
      have hnot : c ∉ alphabet := by
        intro hmem
        have hc := List.findIdx?_eq_none_iff.mp hn c hmem
        rw [beq_self_eq_true] at hc
        exact nomatch hc
      constructor
      · intro h
        exact ⟨hnot, (Except.error.inj h).symm⟩
      · rintro ⟨-, rfl⟩
        rfl

/-- The characters with a value are the digits. -/
theorem exists_digitValue_iff {c : Char} : (∃ d, digitValue c = .ok d) ↔ c ∈ alphabet := by
  cases hvalue : digitValue c with
  | ok d =>
      refine ⟨fun _ => ?_, fun _ => ⟨d, rfl⟩⟩
      by_contra hc
      exact nomatch hvalue.symm.trans (digitValue_eq_error_iff.mpr ⟨hc, rfl⟩)
  | error e => exact ⟨nofun, fun hc => absurd hc (digitValue_eq_error_iff.mp hvalue).1⟩

/-- A text is read digit by digit when it is written in digits. -/
theorem mapM_digitValue_eq_ok_iff {cs : List Char} {ds : List Nat} :
    cs.mapM digitValue = .ok ds ↔ (∀ d ∈ ds, d < 58) ∧ cs = ds.map digit := by
  induction cs generalizing ds with
  | nil =>
      constructor
      · intro h
        obtain rfl := Except.ok.inj h
        exact ⟨nofun, rfl⟩
      · rintro ⟨-, h⟩
        obtain rfl := List.map_eq_nil_iff.mp h.symm
        rfl
  | cons c cs ih =>
      rw [Except.mapM_cons_eq_ok_iff]
      constructor
      · rintro ⟨d, rest, hc, hcs, rfl⟩
        obtain ⟨hd, rfl⟩ := digitValue_eq_ok_iff.mp hc
        obtain ⟨hrest, rfl⟩ := ih.mp hcs
        exact ⟨List.forall_mem_cons.mpr ⟨hd, hrest⟩, rfl⟩
      · rintro ⟨hds, h⟩
        obtain ⟨d, rest, rfl, rfl, rfl⟩ := List.map_eq_cons_iff.mp h.symm
        obtain ⟨hd, hrest⟩ := List.forall_mem_cons.mp hds
        exact ⟨d, rest, digitValue_eq_ok_iff.mpr ⟨hd, rfl⟩, ih.mpr ⟨hrest, rfl⟩, rfl⟩

/-- The ones in front of a text are the zeros in front of its digits. -/
theorem length_takeWhile_map_digit {ds : List Nat} (hds : ∀ d ∈ ds, d < 58) :
    ((ds.map digit).takeWhile (· = '1')).length = (ds.takeWhile (· = 0)).length := by
  induction ds with
  | nil => rfl
  | cons d ds ih =>
      obtain ⟨hd, hds⟩ := List.forall_mem_cons.mp hds
      rw [List.map_cons, List.takeWhile_cons, List.takeWhile_cons,
        decide_eq_decide.mpr (digit_eq_one_iff hd)]
      by_cases hzero : d = 0
      · rw [decide_eq_true hzero]
        exact congrArg Nat.succ (ih hds)
      · rw [decide_eq_false hzero]
        rfl

/-! ## Bytes and their digits -/

/-- The digits of a byte string. -/
def spell (bs : Bytes) : List Nat := respell 0 beValue 0 highDigits bs

/-- The byte string of digits. -/
def unspell (ds : List Nat) : Bytes := respell 0 ofDigits 0 beMinimal ds

/-- The text is the number of the bytes spelled in digits, one by one. -/
theorem encode_eq (bs : Bytes) : encode bs = String.ofList ((spell bs).map digit) := by
  rw [spell, respell, List.map_append, List.map_replicate, digit_zero]
  rfl

/-- A text is read when it consists of digits, and then as the number that they spell. -/
theorem decode_eq_ok_iff_unspell {s : String} {bs : Bytes} : decode s = .ok bs ↔
    ∃ ds, (∀ d ∈ ds, d < 58) ∧ s = String.ofList (ds.map digit) ∧ bs = unspell ds := by
  refine Except.bind_eq_ok_iff.trans ⟨?_, ?_⟩
  · rintro ⟨ds, hds, h⟩
    obtain ⟨hvalid, hs⟩ := mapM_digitValue_eq_ok_iff.mp hds
    obtain rfl := Except.ok.inj h
    refine ⟨ds, hvalid, ?_, ?_⟩
    · rw [← hs, String.ofList_toList]
    · rw [hs, length_takeWhile_map_digit hvalid]
      rfl
  · rintro ⟨ds, hvalid, rfl, rfl⟩
    rw [String.toList_ofList]
    refine ⟨ds, mapM_digitValue_eq_ok_iff.mpr ⟨hvalid, rfl⟩, ?_⟩
    rw [length_takeWhile_map_digit hvalid]
    rfl

/-- A text is read as the bytes that it is the text of, and no other text is read. -/
theorem decode_eq_ok_iff {s : String} {bs : Bytes} : decode s = .ok bs ↔ s = encode bs := by
  rw [decode_eq_ok_iff_unspell]
  constructor
  · rintro ⟨ds, hvalid, rfl, rfl⟩
    have hspell : spell (unspell ds) = ds := positional_digits.respell_respell positional_bytes hvalid
    rw [encode_eq, hspell]
  · rintro rfl
    have hunspell : unspell (spell bs) = bs :=
      positional_bytes.respell_respell positional_digits fun _ _ => trivial
    refine ⟨spell bs, positional_digits.valid_respell (by decide) bs, encode_eq bs, hunspell.symm⟩

/-! ## What is not read -/

/-- The bytes of a text in UTF-8. -/
def utf8 (s : String) : Bytes := s.toUTF8.data.toList

/-- The bytes of the digits in UTF-8. -/
def digitBytes : Bytes := alphabet.flatMap String.utf8EncodeChar

/-- The bytes of a text are those of its characters. -/
theorem utf8_eq (s : String) : utf8 s = s.toList.flatMap String.utf8EncodeChar := by
  rw [utf8, String.toUTF8_eq_toByteArray, ← String.utf8Encode_toList, List.utf8Encode,
    List.toList_data_toByteArray]

/-- The bytes of a character do not stand in front of those of another one. -/
theorem eq_of_utf8EncodeChar_eq_append {c d : Char} {rest : Bytes}
    (h : String.utf8EncodeChar c = String.utf8EncodeChar d ++ rest) : c = d := by
  have hread : ∀ (x : Char) (bs : Bytes),
      ByteArray.utf8DecodeChar? (String.utf8EncodeChar x ++ bs).toByteArray 0 = some x := by
    intro x bs
    rw [List.toByteArray_append, ByteArray.utf8DecodeChar?_utf8EncodeChar_append]
  have hsame : some c = some d := by
    rw [← hread c [], List.append_nil, h, hread d rest]
  exact Option.some.inj hsame

/-- A character whose first byte is that of a digit is a digit, because digits are ASCII. -/
theorem mem_alphabet_of_head_mem {c : Char} {b : UInt8} {rest : Bytes}
    (hc : String.utf8EncodeChar c = b :: rest) (hb : b ∈ digitBytes) : c ∈ alphabet := by
  obtain ⟨d, hd, hbd⟩ := List.mem_flatMap.mp hb
  rw [utf8EncodeChar_of_mem hd, List.mem_singleton] at hbd
  have hbytes : String.utf8EncodeChar c = String.utf8EncodeChar d ++ rest := by
    rw [hc, hbd, utf8EncodeChar_of_mem hd, List.singleton_append]
  rw [eq_of_utf8EncodeChar_eq_append hbytes]
  exact hd

/-- The first byte of a character that is no digit belongs to none. -/
theorem find?_utf8EncodeChar (c : Char) : (String.utf8EncodeChar c).find? (· ∉ digitBytes)
    = if c ∈ alphabet then none else some ((String.utf8EncodeChar c).headD 0) := by
  by_cases hc : c ∈ alphabet
  · rw [if_pos hc, List.find?_eq_none]
    intro b hb
    rw [decide_eq_true_eq, not_not]
    exact List.mem_flatMap.mpr ⟨c, hc, hb⟩
  · rw [if_neg hc]
    cases hbytes : String.utf8EncodeChar c with
    | nil => exact absurd hbytes String.utf8EncodeChar_ne_nil
    | cons b rest =>
        have hb : b ∉ digitBytes := fun hb => hc (mem_alphabet_of_head_mem hbytes hb)
        exact List.find?_cons_of_pos (decide_eq_true hb)

/-- The first character that is no digit is the one with the first stray byte. -/
theorem mapM_digitValue_eq_error_iff {cs : List Char} {e : Error} : cs.mapM digitValue = .error e ↔
    ∃ b, (cs.flatMap String.utf8EncodeChar).find? (· ∉ digitBytes) = some b ∧
      e = .badBase58 b := by
  induction cs with
  | nil =>
      constructor
      · intro h
        exact nomatch h
      · rintro ⟨b, hb, -⟩
        exact nomatch hb
  | cons c cs ih =>
      rw [Except.mapM_cons_eq_error_iff, ih, List.flatMap_cons, List.find?_append,
        find?_utf8EncodeChar, digitValue_eq_error_iff]
      by_cases hc : c ∈ alphabet
      · rw [if_pos hc, Option.none_or]
        constructor
        · rintro (⟨hnot, -⟩ | ⟨-, h⟩)
          · exact absurd hc hnot
          · exact h
        · intro h
          exact .inr ⟨exists_digitValue_iff.mpr hc, h⟩
      · rw [if_neg hc, Option.some_or]
        constructor
        · rintro (⟨-, h⟩ | ⟨hvalue, -⟩)
          · exact ⟨_, rfl, h⟩
          · exact absurd (exists_digitValue_iff.mp hvalue) hc
        · rintro ⟨b, hb, rfl⟩
          rw [Option.some.inj hb]
          exact .inl ⟨hc, rfl⟩

/-- A text is not read when one of its bytes belongs to no digit, and the first of these is the
    error. -/
theorem decode_eq_error_iff {s : String} {e : Error} : decode s = .error e ↔
    ∃ b, (utf8 s).find? (· ∉ digitBytes) = some b ∧ e = .badBase58 b := by
  rw [utf8_eq, ← mapM_digitValue_eq_error_iff]
  refine Except.bind_eq_error_iff.trans (or_iff_left ?_)
  rintro ⟨ds, -, h⟩
  exact nomatch h

/-- The bytes of a text belong to digits when its characters are digits. -/
theorem find?_utf8_eq_none_iff {s : String} :
    (utf8 s).find? (· ∉ digitBytes) = none ↔ ∀ c ∈ s.toList, c ∈ alphabet := by
  rw [utf8_eq, List.find?_flatMap, List.findSome?_eq_none_iff]
  refine forall₂_congr fun c _ => ?_
  rw [find?_utf8EncodeChar, ite_eq_left_iff]
  constructor
  · intro h
    by_contra hc
    exact nomatch h hc
  · intro hc hnot
    exact absurd hc hnot

/-! ## With a checksum -/

variable [Digests]

theorem length_checksum (payload : Bytes) : (checksum payload).length = 4 := by
  rw [checksum, List.length_take, FixedBytes.length_toBytes]
  rfl

/-- The last four bytes are the checksum of what is in front exactly when the bytes are that and its
    checksum. -/
theorem eq_append_checksum_iff {bs payload : Bytes} : bs = payload ++ checksum payload ↔
    ¬(bs.length < 4 ∨ checksum (bs.take (bs.length - 4)) ≠ bs.drop (bs.length - 4)) ∧
      bs.take (bs.length - 4) = payload := by
  constructor
  · rintro rfl
    have hlength : (payload ++ checksum payload).length = payload.length + 4 := by
      rw [List.length_append, length_checksum]
    rw [hlength, Nat.add_sub_cancel, List.take_left' rfl, List.drop_left' rfl]
    refine ⟨?_, rfl⟩
    rintro (hshort | hne)
    · exact Nat.not_lt_of_le (Nat.le_add_left 4 _) hshort
    · exact hne rfl
  · rintro ⟨hgood, rfl⟩
    rw [not_or, not_not] at hgood
    rw [hgood.2, List.take_append_drop]

/-- A text is read as the payload that it is the text of, and no other text is read. -/
theorem decodeChecked_eq_ok_iff {s : String} {payload : Bytes} :
    decodeChecked s = .ok payload ↔ s = encodeChecked payload := by
  have hchecked : ∀ bs : Bytes, (if bs.length < 4 ∨ checksum (bs.take (bs.length - 4))
        ≠ bs.drop (bs.length - 4) then .error .badChecksum else .ok (bs.take (bs.length - 4))
      : Except Error Bytes) = .ok payload ↔ bs = payload ++ checksum payload := by
    intro bs
    rw [eq_append_checksum_iff]
    split
    · next hbad => exact ⟨nofun, fun h => absurd hbad h.1⟩
    · next hgood => exact ⟨fun h => ⟨hgood, Except.ok.inj h⟩, fun h => congrArg _ h.2⟩
  rw [encodeChecked, ← decode_eq_ok_iff]
  refine Except.bind_eq_ok_iff.trans ⟨?_, ?_⟩
  · rintro ⟨bs, hbs, h⟩
    rw [← (hchecked bs).mp h]
    exact hbs
  · intro h
    exact ⟨_, h, (hchecked _).mpr rfl⟩

end

/-! ## There and back -/

/-- Every byte string is read back from its text. Every text over the alphabet is read, and is the
    text of what it is read as; of any other text the first byte that belongs to no digit is the
    error. And a text is read with its checksum as the payload that it is the text of. -/
theorem text_there_and_back [Digests] :
    (∀ bs, decode (encode bs) = .ok bs) ∧
    (∀ s : String, (∀ c ∈ s.toList, c ∈ alphabet) → ∃ bs, decode s = .ok bs ∧ encode bs = s) ∧
    (∀ s : String, (¬∀ c ∈ s.toList, c ∈ alphabet) →
      ∃ b, (utf8 s).find? (· ∉ digitBytes) = some b ∧ decode s = .error (.badBase58 b)) ∧
    ∀ s payload, decodeChecked s = .ok payload ↔ s = encodeChecked payload := by
  refine ⟨?_, ?_, ?_, ?_⟩
  · intro bs
    exact decode_eq_ok_iff.mpr rfl
  · intro s hs
    cases hdecode : decode s with
    | ok bs => exact ⟨bs, rfl, (decode_eq_ok_iff.mp hdecode).symm⟩
    | error e =>
        obtain ⟨b, hb, -⟩ := decode_eq_error_iff.mp hdecode
        exact nomatch hb.symm.trans (find?_utf8_eq_none_iff.mpr hs)
  · intro s hs
    cases hfind : (utf8 s).find? (· ∉ digitBytes) with
    | none => exact absurd (find?_utf8_eq_none_iff.mp hfind) hs
    | some b => exact ⟨b, rfl, decode_eq_error_iff.mpr ⟨b, hfind, rfl⟩⟩
  · intro s payload
    exact decodeChecked_eq_ok_iff

/-- A text with two zeros in front, and one whose first stray byte is the first of two that a
    character takes. -/
theorem text_there_and_back_stray : (∀ c ∈ "11z".toList, c ∈ alphabet) ∧
    (∃ bs, decode "11z" = .ok bs ∧ encode bs = "11z") ∧ (¬∀ c ∈ "1é0".toList, c ∈ alphabet) ∧
    ∃ b, (utf8 "1é0").find? (· ∉ digitBytes) = some b ∧ decode "1é0" = .error (.badBase58 b) := by
  have hdigits : ∀ c ∈ "11z".toList, c ∈ alphabet := by
    have hchars : "11z".toList = ['1', '1', 'z'] := rfl
    simp [hchars, mem_alphabet_iff, digitCodes, List.mem_range'_1]
  have hstray : ¬∀ c ∈ "1é0".toList, c ∈ alphabet := by
    have hchars : "1é0".toList = ['1', 'é', '0'] := rfl
    simp [hchars, mem_alphabet_iff, digitCodes, List.mem_range'_1]
  obtain ⟨-, hread, hfail, -⟩ := @text_there_and_back Digests.standard
  exact ⟨hdigits, hread _ hdigits, hstray, hfail _ hstray⟩

end Base58

end Bitcoin
