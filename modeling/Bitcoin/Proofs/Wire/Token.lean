import Bitcoin.Proofs.Wire.CompactSize
import Bitcoin.Script.Wire

/-!
# The tokens of a script

A script that was read does not remember how its bytes to push were announced: by their number
alone, or by an opcode and one or two bytes for the number. A token does. Writing picks one form for
each push, the shortest, and refuses a push that is too long; a push of nothing is written as an
opcode.

* **`Token.takes_read`**: what is read as a command is a token.
* **`Token.selfDelimiting`**: a token can be told from what is behind it.
* **`Token.writes`**: the tokens that are written back as they were.
-/

namespace Bitcoin

/-- How the number of bytes to push is announced: by itself, or behind an opcode in one byte or in
    two. -/
inductive PushForm
  | direct
  | data1
  | data2
deriving DecidableEq

namespace PushForm

/-- The numbers of bytes that a form can announce. -/
def Fits : PushForm → Nat → Prop
  | .direct, n => 1 ≤ n ∧ n ≤ 75
  | .data1, n => n < 0x100
  | .data2, n => n < 0x10000

/-- The numbers of bytes that a form is written for. -/
def Written : PushForm → Nat → Prop
  | .direct, n => 1 ≤ n ∧ n ≤ 75
  | .data1, n => 75 < n ∧ n ≤ 255
  | .data2, n => 255 < n ∧ n ≤ maxPushSize

instance : (form : PushForm) → (n : Nat) → Decidable (form.Fits n)
  | .direct, n => inferInstanceAs (Decidable (1 ≤ n ∧ n ≤ 75))
  | .data1, n => inferInstanceAs (Decidable (n < 0x100))
  | .data2, n => inferInstanceAs (Decidable (n < 0x10000))

instance : (form : PushForm) → (n : Nat) → Decidable (form.Written n)
  | .direct, n => inferInstanceAs (Decidable (1 ≤ n ∧ n ≤ 75))
  | .data1, n => inferInstanceAs (Decidable (75 < n ∧ n ≤ 255))
  | .data2, n => inferInstanceAs (Decidable (255 < n ∧ n ≤ maxPushSize))

/-- How many bytes follow the leading one before those that are pushed. -/
def width : PushForm → Nat
  | .direct => 0
  | .data1 => 1
  | .data2 => 2

/-- The announcement of a number of bytes. -/
def header : PushForm → Nat → Bytes
  | .direct, n => leFixed 1 n
  | .data1, n => Opcode.pushData1 :: leFixed 1 n
  | .data2, n => Opcode.pushData2 :: leFixed 2 n

/-- In front of a push stand its opcode and its length field. -/
theorem length_header (form : PushForm) (n : Nat) : (form.header n).length = 1 + form.width := by
  cases form with
  | direct => rfl
  | data1 => rfl
  | data2 => rfl

/-- The forms of a push are told apart by the width of their length field. -/
theorem width_injective {form other : PushForm} (h : form.width = other.width) : form = other := by
  cases form <;> cases other <;> first | rfl | exact nomatch h

end PushForm

/-- A command in its bytes: an opcode that announces no push, or a push in one of its forms. -/
inductive Token
  | op (code : UInt8) (h : ¬(1 ≤ code ∧ code ≤ Opcode.pushData2))
  | push (form : PushForm) (content : Bytes) (h : form.Fits content.length)
deriving DecidableEq

namespace Token

/-- The command that a token is read as. -/
def command : Token → Command
  | .op code _ => .op code
  | .push _ content _ => .data content

/-- The bytes of a token. -/
def bytes : Token → Bytes
  | .op code _ => [code]
  | .push form content _ => form.header content.length ++ content

/-- How many bytes follow the leading one. -/
def extra : Token → Nat
  | .op _ _ => 0
  | .push form content _ => form.width + content.length

/-- A push in the form that is written for it. -/
def Canonical : Token → Prop
  | .op _ _ => True
  | .push form content _ => form.Written content.length

instance (t : Token) : Decidable t.Canonical :=
  match t with
  | .op _ _ => .isTrue trivial
  | .push form content _ => inferInstanceAs (Decidable (form.Written content.length))

theorem length_bytes (t : Token) : t.bytes.length = 1 + t.extra := by
  cases t with
  | op code h => rfl
  | push form content h => rw [bytes, List.length_append, form.length_header, extra, Nat.add_assoc]

theorem bytes_ne_nil (t : Token) : t.bytes ≠ [] := by
  intro h
  have hlength := t.length_bytes
  rw [h, List.length_nil] at hlength
  omega

end Token

/-! ## Reading -/

/-- The bytes of a push are as many as were announced. -/
theorem Command.readPush_eq_ok_iff {width size extra : Nat} {c : Command} {input rest : Bytes} :
    readPush width size input = .ok ((c, extra), rest) ↔ ∃ content, content.length = size ∧
      c = .data content ∧ extra = width + size ∧ input = content ++ rest := by
  refine Reader.bind_eq_ok_iff.trans ⟨?_, ?_⟩
  · rintro ⟨content, middle, hcontent, h⟩
    obtain ⟨hlength, rfl⟩ := Reader.bytes_eq_ok_iff.mp hcontent
    obtain ⟨hc, rfl⟩ := Reader.pure_eq_ok_iff.mp h
    obtain ⟨rfl, rfl⟩ := Prod.mk.inj hc
    exact ⟨content, hlength, rfl, rfl, rfl⟩
  · rintro ⟨content, hlength, rfl, rfl, rfl⟩
    exact ⟨content, rest, Reader.bytes_eq_ok_iff.mpr ⟨hlength, rfl⟩, rfl⟩

/-- A push behind the number of its bytes. -/
theorem Command.number_readPush_eq_ok_iff {w extra : Nat} {c : Command} {input rest : Bytes} :
    (Reader.number w >>= readPush w) input = .ok ((c, extra), rest) ↔ ∃ content,
      content.length < 256 ^ w ∧ c = .data content ∧ extra = w + content.length ∧
        input = leFixed w content.length ++ (content ++ rest) := by
  refine Reader.bind_eq_ok_iff.trans ⟨?_, ?_⟩
  · rintro ⟨n, middle, hn, hpush⟩
    obtain ⟨hfits, rfl⟩ := Reader.number_eq_ok_iff.mp hn
    obtain ⟨content, rfl, rfl, rfl, rfl⟩ := readPush_eq_ok_iff.mp hpush
    exact ⟨content, hfits, rfl, rfl, rfl⟩
  · rintro ⟨content, hfits, rfl, rfl, rfl⟩
    refine ⟨content.length, content ++ rest, Reader.number_eq_ok_iff.mpr ⟨hfits, rfl⟩, ?_⟩
    exact readPush_eq_ok_iff.mpr ⟨content, rfl, rfl, rfl, rfl⟩

/-- A byte announces a push by itself or by an opcode. -/
theorem Command.not_announces_iff {code : UInt8} : ¬(1 ≤ code ∧ code ≤ Opcode.pushData2) ↔
    ¬(1 ≤ code ∧ code ≤ 75) ∧ code ≠ Opcode.pushData1 ∧ code ≠ Opcode.pushData2 := by
  rw [ne_eq, ne_eq, ← UInt8.toNat_inj, ← UInt8.toNat_inj, UInt8.le_iff_toNat_le,
    UInt8.le_iff_toNat_le, UInt8.le_iff_toNat_le]
  show ¬(1 ≤ code.toNat ∧ code.toNat ≤ 77) ↔
    ¬(1 ≤ code.toNat ∧ code.toNat ≤ 75) ∧ ¬code.toNat = 76 ∧ ¬code.toNat = 77
  omega

namespace Token

/-- The one byte that announces a push directly. -/
theorem exists_direct {n : Nat} (h : PushForm.direct.Fits n) :
    ∃ code : UInt8, code.toNat = n ∧ 1 ≤ code ∧ code ≤ 75 ∧ leFixed 1 n = [code] := by
  have hn : (UInt8.ofNat n).toNat = n :=
    UInt8.toNat_ofNat_of_lt' (Nat.lt_of_le_of_lt h.2 (by decide))
  have hbyte : leFixed 1 (UInt8.ofNat n).toNat = [UInt8.ofNat n] := leFixed_leValue [UInt8.ofNat n]
  rw [hn] at hbyte
  refine ⟨UInt8.ofNat n, hn, ?_, ?_, hbyte⟩
  · rw [UInt8.le_iff_toNat_le, hn]
    exact h.1
  · rw [UInt8.le_iff_toNat_le, hn]
    exact h.2

/-- What is read as a command is a token. -/
theorem takes_read : Command.read.Takes (fun t : Token => (t.command, t.extra)) bytes := by
  intro input rest ⟨c, extra⟩
  refine Reader.bind_eq_ok_iff.trans ⟨?_, ?_⟩
  · rintro ⟨code, middle, hcode, h⟩
    obtain rfl := Reader.byte_eq_ok_iff.mp hcode
    split at h
    · next hdirect =>
        obtain ⟨content, hlength, rfl, rfl, rfl⟩ := Command.readPush_eq_ok_iff.mp h
        have hbyte : leFixed 1 code.toNat = [code] := leFixed_leValue [code]
        rw [← hlength] at hbyte
        refine ⟨.push .direct content (hlength ▸ hdirect), ?_, ?_⟩
        · exact congrArg (fun n => (Command.data content, 0 + n)) hlength
        · show _ = leFixed 1 content.length ++ content ++ rest
          rw [hbyte]
          rfl
    · next hdirect =>
        split at h
        · next hdata1 =>
            obtain rfl : code = Opcode.pushData1 := hdata1
            obtain ⟨content, hfits, rfl, rfl, rfl⟩ := Command.number_readPush_eq_ok_iff.mp h
            exact ⟨.push .data1 content hfits, rfl, (List.append_assoc (_ :: _) content rest).symm⟩
        · next hdata1 =>
            split at h
            · next hdata2 =>
                obtain rfl : code = Opcode.pushData2 := hdata2
                obtain ⟨content, hfits, rfl, rfl, rfl⟩ := Command.number_readPush_eq_ok_iff.mp h
                exact ⟨.push .data2 content hfits, rfl,
                  (List.append_assoc (_ :: _) content rest).symm⟩
            · next hdata2 =>
                obtain ⟨hc, rfl⟩ := Reader.pure_eq_ok_iff.mp h
                obtain ⟨rfl, rfl⟩ := Prod.mk.inj hc
                have hcode := Command.not_announces_iff.mpr ⟨hdirect, hdata1, hdata2⟩
                exact ⟨.op code hcode, rfl, rfl⟩
  · rintro ⟨t, hc, rfl⟩
    obtain ⟨rfl, rfl⟩ := Prod.mk.inj hc
    cases t with
    | op code h =>
        obtain ⟨hdirect, hdata1, hdata2⟩ := Command.not_announces_iff.mp h
        refine ⟨code, rest, rfl, ?_⟩
        rw [if_neg hdirect, if_neg hdata1, if_neg hdata2]
        rfl
    | push form content h =>
        cases form with
        | direct =>
            obtain ⟨code, hcode, hlow, hhigh, hbyte⟩ := exists_direct h
            refine ⟨code, content ++ rest, ?_, ?_⟩
            · show Reader.byte (leFixed 1 content.length ++ content ++ rest) = _
              rw [hbyte]
              rfl
            · rw [if_pos ⟨hlow, hhigh⟩]
              exact Command.readPush_eq_ok_iff.mpr ⟨content, hcode.symm, rfl, hcode ▸ rfl, rfl⟩
        | data1 =>
            refine ⟨Opcode.pushData1, _, rfl, ?_⟩
            exact Command.number_readPush_eq_ok_iff.mpr ⟨content, h, rfl, rfl, List.append_assoc ..⟩
        | data2 =>
            refine ⟨Opcode.pushData2, _, rfl, ?_⟩
            exact Command.number_readPush_eq_ok_iff.mpr ⟨content, h, rfl, rfl, List.append_assoc ..⟩

/-- A token can be told from what is behind it. -/
theorem selfDelimiting : SelfDelimiting bytes := by
  refine takes_read.selfDelimiting ?_
  intro k l hvalue _
  obtain ⟨hcommand, hextra⟩ := Prod.mk.inj hvalue
  cases k with
  | op code h =>
      cases l with
      | op code' h' => cases hcommand; rfl
      | push form content h' => exact nomatch hcommand
  | push form content h =>
      cases l with
      | op code' h' => exact nomatch hcommand
      | push form' content' h' =>
          cases hcommand
          obtain rfl := PushForm.width_injective (Nat.add_right_cancel hextra)
          rfl

end Token

/-! ## Writing -/

/-- Whether a command is read back as it is written: an opcode must announce no push, and a push
    must be neither empty nor longer than may be written. -/
def Command.Canonical : Command → Prop
  | .op code => ¬(1 ≤ code ∧ code ≤ Opcode.pushData2)
  | .data content => 1 ≤ content.length ∧ content.length ≤ maxPushSize

instance (c : Command) : Decidable c.Canonical :=
  match c with
  | .op code => inferInstanceAs (Decidable ¬(1 ≤ code ∧ code ≤ Opcode.pushData2))
  | .data content => inferInstanceAs (Decidable (1 ≤ content.length ∧ content.length ≤ maxPushSize))

namespace PushForm

theorem fits_of_written {form : PushForm} {n : Nat} (h : form.Written n) : form.Fits n := by
  cases form with
  | direct => exact h
  | data1 => exact Nat.lt_succ_of_le h.2
  | data2 => exact Nat.lt_of_le_of_lt h.2 (by decide)

/-- One of the forms is written, unless the push is empty or too long. -/
theorem exists_written {n : Nat} (hpos : 1 ≤ n) (hmax : n ≤ maxPushSize) :
    ∃ form : PushForm, form.Written n := by
  by_cases hdirect : n ≤ 75
  · exact ⟨.direct, hpos, hdirect⟩
  · by_cases hdata1 : n ≤ 255
    · exact ⟨.data1, Nat.lt_of_not_le hdirect, hdata1⟩
    · exact ⟨.data2, Nat.lt_of_not_le hdata1, hmax⟩

/-- A push that is written in one of the forms is neither empty nor too long. -/
theorem range_of_written {form : PushForm} {n : Nat} (h : form.Written n) :
    1 ≤ n ∧ n ≤ maxPushSize := by
  have hmax : maxPushSize = 520 := rfl
  cases form with
  | direct =>
      obtain ⟨hpos, hle⟩ := h
      omega
  | data1 =>
      obtain ⟨hlow, hhigh⟩ := h
      omega
  | data2 =>
      obtain ⟨hlow, hhigh⟩ := h
      omega

/-- The form that is written is the shortest with room for the number. -/
theorem width_le_of_written {form other : PushForm} {n : Nat} (h : form.Written n)
    (hother : other.Fits n) : form.width ≤ other.width := by
  cases form with
  | direct => exact Nat.zero_le _
  | data1 =>
      cases other with
      | direct => exact absurd hother.2 (Nat.not_le_of_lt h.1)
      | data1 => exact Nat.le_refl _
      | data2 => decide
  | data2 =>
      cases other with
      | direct => exact absurd hother.2 (Nat.not_le_of_lt (Nat.lt_trans (by decide) h.1))
      | data1 => exact absurd hother (Nat.not_lt_of_le (Nat.succ_le_of_lt h.1))
      | data2 => exact Nat.le_refl _

end PushForm

/-- A push is written in the form for its number of bytes. -/
theorem Command.bytes_data {form : PushForm} {content : Bytes} (h : form.Written content.length) :
    (Command.data content).bytes = .ok (form.header content.length ++ content) := by
  rw [bytes]
  cases form with
  | direct =>
      obtain ⟨hpos, hle⟩ := h
      rw [if_neg (Nat.ne_of_gt hpos), if_pos hle]
      rfl
  | data1 =>
      obtain ⟨hlow, hhigh⟩ := h
      rw [if_neg (Nat.ne_of_gt (Nat.lt_of_le_of_lt (Nat.zero_le _) hlow)),
        if_neg (Nat.not_le_of_lt hlow), if_pos hhigh]
      rfl
  | data2 =>
      obtain ⟨hlow, hhigh⟩ := h
      rw [if_neg (Nat.ne_of_gt (Nat.lt_of_le_of_lt (Nat.zero_le _) hlow)),
        if_neg (Nat.not_le_of_lt (Nat.lt_trans (by decide) hlow)), if_neg (Nat.not_le_of_lt hlow),
        if_pos hhigh]
      rfl

/-- A push that is too long is not written. -/
theorem Command.bytes_data_of_lt {content : Bytes} (h : maxPushSize < content.length) :
    (Command.data content).bytes = .error (.pushTooLong content.length) := by
  have hmax : maxPushSize = 520 := rfl
  rw [bytes, if_neg (by omega), if_neg (by omega), if_neg (by omega), if_neg (by omega)]

/-- A push of nothing is written as an opcode, and one that is too long is not written. -/
theorem Command.bytes_data_cases {content bs : Bytes} (h : (Command.data content).bytes = .ok bs) :
    content = [] ∧ bs = [Opcode.pushEmpty] ∨ (Command.data content).Canonical := by
  by_cases hempty : content.length = 0
  · left
    obtain rfl := List.length_eq_zero_iff.mp hempty
    exact ⟨rfl, (Except.ok.inj h).symm⟩
  · right
    refine ⟨Nat.one_le_iff_ne_zero.mpr hempty, Nat.le_of_not_lt fun hlong => ?_⟩
    exact nomatch (bytes_data_of_lt hlong).symm.trans h

/-- Whether a command can be written at all: a push must not be longer than may be written. -/
def Command.Writable : Command → Prop
  | .op _ => True
  | .data content => content.length ≤ maxPushSize

instance (c : Command) : Decidable c.Writable :=
  match c with
  | .op _ => .isTrue trivial
  | .data content => inferInstanceAs (Decidable (content.length ≤ maxPushSize))

theorem Command.Canonical.writable {c : Command} (h : c.Canonical) : c.Writable := by
  cases c with
  | op code => trivial
  | data content => exact h.2

/-- Only a push that is too long is not written. -/
theorem Command.exists_bytes_iff {c : Command} : (∃ bs, c.bytes = .ok bs) ↔ c.Writable := by
  cases c with
  | op code => exact ⟨fun _ => trivial, fun _ => ⟨[code], rfl⟩⟩
  | data content =>
      constructor
      · rintro ⟨bs, h⟩
        rcases bytes_data_cases h with ⟨rfl, -⟩ | hcanonical
        · exact Nat.zero_le maxPushSize
        · exact hcanonical.writable
      · intro hmax
        by_cases hempty : content = []
        · subst hempty
          exact ⟨[Opcode.pushEmpty], rfl⟩
        · have hpos : 1 ≤ content.length := List.length_pos_iff.mpr hempty
          obtain ⟨form, hform⟩ := PushForm.exists_written hpos hmax
          exact ⟨_, bytes_data hform⟩

/-- Writing a command fails for a push that is too long, and in no other way. -/
theorem Command.bytes_eq_error_iff {c : Command} {e : Error} : c.bytes = .error e ↔
    ∃ content, c = .data content ∧ maxPushSize < content.length ∧
      e = .pushTooLong content.length := by
  constructor
  · intro h
    have hlong : ¬c.Writable := by
      intro hc
      obtain ⟨bs, hbs⟩ := exists_bytes_iff.mpr hc
      exact nomatch hbs.symm.trans h
    cases c with
    | op code => exact absurd trivial hlong
    | data content =>
        have hlt : maxPushSize < content.length := Nat.lt_of_not_le hlong
        exact ⟨content, rfl, hlt, Except.error.inj (h.symm.trans (bytes_data_of_lt hlt))⟩
  · rintro ⟨content, rfl, hlt, rfl⟩
    exact bytes_data_of_lt hlt

namespace Token

/-- A token in the form for its push stands for a command that is read back as it is written. -/
theorem Canonical.command {t : Token} (h : t.Canonical) : t.command.Canonical := by
  cases t with
  | op code hcode => exact hcode
  | push form content hfits =>
      have hwritten : form.Written content.length := h
      exact PushForm.range_of_written hwritten

/-- A command that is read back as it is written has a token for that. -/
theorem exists_canonical {c : Command} (h : c.Canonical) :
    ∃ t : Token, t.Canonical ∧ t.command = c := by
  cases c with
  | op code => exact ⟨.op code h, trivial, rfl⟩
  | data content =>
      obtain ⟨form, hform⟩ := PushForm.exists_written h.1 h.2
      exact ⟨.push form content (PushForm.fits_of_written hform), hform, rfl⟩

/-- A token in the form for its push is written back as it was; what is written for another one is
    a token in that form. -/
theorem writes : Writes Command.bytes command bytes Canonical where
  write_value := by
    intro t ht
    cases t with
    | op code h => rfl
    | push form content h => exact Command.bytes_data ht
  exists_chosen := by
    intro t bs hbs
    cases t with
    | op code h => exact ⟨.op code h, trivial, Except.ok.inj hbs⟩
    | push form content h =>
        rcases Command.bytes_data_cases hbs with ⟨-, rfl⟩ | hcanonical
        · exact ⟨.op Opcode.pushEmpty (by decide), trivial, rfl⟩
        · obtain ⟨form', hform⟩ := PushForm.exists_written hcanonical.1 hcanonical.2
          refine ⟨.push form' content (PushForm.fits_of_written hform), hform, ?_⟩
          exact Except.ok.inj ((Command.bytes_data hform).symm.trans hbs)

/-- What is written is no longer than what was read. -/
theorem length_le_of_bytes {t : Token} {bs : Bytes} (h : t.command.bytes = .ok bs) :
    bs.length ≤ t.bytes.length := by
  rw [t.length_bytes]
  cases t with
  | op code hcode =>
      obtain rfl := Except.ok.inj h
      exact Nat.le_refl 1
  | push form content hfits =>
      rcases Command.bytes_data_cases h with ⟨-, rfl⟩ | hcanonical
      · exact Nat.le_add_right 1 _
      · obtain ⟨form', hform⟩ := PushForm.exists_written hcanonical.1 hcanonical.2
        obtain rfl := Except.ok.inj ((Command.bytes_data hform).symm.trans h)
        have hwidth := PushForm.width_le_of_written hform hfits
        rw [List.length_append, form'.length_header, extra]
        omega

end Token

end Bitcoin
