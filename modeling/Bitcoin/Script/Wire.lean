import Bitcoin.Bytes.Reader
import Bitcoin.Script.Command

/-!
# The byte form of a script

A push of 1 to 75 bytes is a length byte and the bytes; a longer one has `4c` and one length byte,
or `4d` and two. Any other byte is an opcode. Pushes of more than 520 bytes are read but not
written. On the wire a script has its length in front.

* **`weight_readFrom`**, **`weight_ofRaw`**: a script that was read weighs no more than its bytes.
-/

namespace Bitcoin

/-- The longest byte string that may be pushed. -/
def maxPushSize : Nat := 520

/-- The byte form of a command. -/
def Command.bytes : Command → Except Error Bytes
  | .op code => .ok [code]
  | .data bs =>
      let size := bs.length
      if size = 0 then .ok [Opcode.pushEmpty]
      else if size ≤ 75 then .ok (leFixed 1 size ++ bs)
      else if size ≤ 255 then .ok (Opcode.pushData1 :: leFixed 1 size ++ bs)
      else if size ≤ maxPushSize then .ok (Opcode.pushData2 :: leFixed 2 size ++ bs)
      else .error (.pushTooLong size)

/-- Reads the bytes of a push after a length of the given width. The second component counts the
    bytes after the leading one. -/
def Command.readPush (width size : Nat) : Reader (Command × Nat) := do
  return (.data (← Reader.bytes size), width + size)

/-- Reads a command. The second component counts the bytes after the leading one. -/
def Command.read : Reader (Command × Nat) := do
  let code ← Reader.byte
  if 1 ≤ code ∧ code ≤ 75 then readPush 0 code.toNat
  else if code = Opcode.pushData1 then readPush 1 (← Reader.number 1)
  else if code = Opcode.pushData2 then readPush 2 (← Reader.number 2)
  else return (.op code, 0)

namespace Script

/-- The commands one after the other. -/
def body (s : Script) : Except Error Bytes := do return (← s.mapM Command.bytes).flatten

/-- The commands with their length in front. -/
def bytes (s : Script) : Except Error Bytes := do
  let bs ← s.body
  return CompactSize.encode bs.length ++ bs

/-- Reads commands until `length` bytes have been consumed, of which `count` already are. A command
    that runs past the end is noticed after it has been read. -/
def readFrom (length count : Nat) : Reader Script :=
  if count < length then do
    let (c, extra) ← Command.read
    let cs ← readFrom length (count + 1 + extra)
    return c :: cs
  else if count = length then return []
  else throw (.scriptOverrun count length)
termination_by length - count

/-- Reads a script with its length in front. -/
def read : Reader Script := do readFrom (← CompactSize.read) 0

/-- The script whose commands are exactly the given bytes. -/
def ofRaw (raw : Bytes) : Except Error Script := (readFrom raw.length 0 raw).map Prod.fst

/-! ## One command after the other -/

theorem readFrom_self (length : Nat) (input : Bytes) :
    readFrom length length input = .ok ([], input) := by
  rw [readFrom, if_neg (Nat.lt_irrefl length), if_pos rfl]
  rfl

/-- A command that is read comes in front of those that are read behind it. -/
theorem readFrom_of_read {length count extra : Nat} {c : Command} {cs : Script}
    {input middle rest : Bytes} (hcount : count < length)
    (hread : Command.read input = .ok ((c, extra), middle))
    (hrest : readFrom length (count + 1 + extra) middle = .ok (cs, rest)) :
    readFrom length count input = .ok (c :: cs, rest) := by
  rw [readFrom, if_pos hcount]
  refine Reader.bind_eq_ok_iff.mpr ⟨(c, extra), middle, hread, ?_⟩
  exact Reader.bind_eq_ok_iff.mpr ⟨cs, rest, hrest, rfl⟩

/-- A byte that is read as an opcode is the script of that opcode. -/
theorem ofRaw_op {code : UInt8} (h : Command.read [code] = .ok ((.op code, 0), [])) :
    ofRaw [code] = .ok [.op code] := by
  have hfrom : readFrom 1 0 [code] = .ok ([.op code], []) :=
    readFrom_of_read Nat.zero_lt_one h (readFrom_self 1 [])
  exact congrArg (Except.map Prod.fst) hfrom

end Script

/-! ## A script weighs no more than its bytes -/

theorem Command.weight_readPush {width size extra : Nat} {c : Command} {input rest : Bytes}
    (h : readPush width size input = .ok ((c, extra), rest)) :
    c.weight + rest.length = input.length + 1 := by
  obtain ⟨bs, middle, hb, hp⟩ := Reader.bind_eq_ok_iff.mp h
  obtain ⟨hc, rfl⟩ := Reader.pure_eq_ok_iff.mp hp
  obtain ⟨rfl, -⟩ := Prod.mk.inj hc
  rw [(Reader.length_of_bytes hb).2, weight, List.length_append]
  omega

theorem Command.weight_read {extra : Nat} {c : Command} {input rest : Bytes}
    (h : read input = .ok ((c, extra), rest)) : c.weight + rest.length ≤ input.length := by
  obtain ⟨code, tail, hcode, h⟩ := Reader.bind_eq_ok_iff.mp h
  have htail : tail.length + 1 = input.length := by
    cases input with
    | nil => cases hcode
    | cons b bs => cases hcode; rfl
  rw [← htail]
  split at h
  · exact Nat.le_of_eq (weight_readPush h)
  · split at h
    · obtain ⟨size, middle, hn, hp⟩ := Reader.bind_eq_ok_iff.mp h
      have := weight_readPush hp
      have := Reader.length_of_number hn
      omega
    · split at h
      · obtain ⟨size, middle, hn, hp⟩ := Reader.bind_eq_ok_iff.mp h
        have := weight_readPush hp
        have := Reader.length_of_number hn
        omega
      · obtain ⟨hc, rfl⟩ := Reader.pure_eq_ok_iff.mp h
        obtain ⟨rfl, -⟩ := Prod.mk.inj hc
        exact Nat.le_of_eq (Nat.add_comm _ _)

namespace Script

/-- A script that was read weighs no more than the bytes it took. -/
theorem weight_readFrom {length count : Nat} {s : Script} {input rest : Bytes}
    (h : readFrom length count input = .ok (s, rest)) : weight s + rest.length ≤ input.length := by
  induction hd : length - count using Nat.strongRecOn generalizing count s input with
  | _ d ih =>
      rw [readFrom] at h
      split at h
      · obtain ⟨⟨c, extra⟩, middle, hc, h⟩ := Reader.bind_eq_ok_iff.mp h
        obtain ⟨cs, last, hcs, h⟩ := Reader.bind_eq_ok_iff.mp h
        obtain ⟨rfl, rfl⟩ := Reader.pure_eq_ok_iff.mp h
        have hhead := Command.weight_read hc
        have htail := ih (length - (count + 1 + extra)) (by omega) hcs rfl
        rw [weight]
        omega
      · split at h
        · obtain ⟨rfl, rfl⟩ := Reader.pure_eq_ok_iff.mp h
          exact Nat.le_of_eq (Nat.zero_add _)
        · cases h

/-- A script made of given bytes weighs no more than they are. -/
theorem weight_ofRaw {raw : Bytes} {s : Script} (h : ofRaw raw = .ok s) :
    weight s ≤ raw.length := by
  rw [ofRaw] at h
  cases hr : readFrom raw.length 0 raw with
  | error e => rw [hr] at h; cases h
  | ok p =>
      rw [hr] at h
      cases h
      have := weight_readFrom hr
      omega

end Script

end Bitcoin
