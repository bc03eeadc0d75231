import Bitcoin.Proofs.Wire.RoundTrip

/-!
# How far a reader reads

A reader is local when it looks at nothing but what it takes. On what it took it gives the same
value whatever else is behind, and on less than that the data end too early. A sequence of local
readers is local, since a cut falls either into what the first takes or into what the second does.
The loop over the commands of a script reads on before it notices that it has gone past the end of
the script; it is local all the same, as it then gives nothing.

* **`Local.bind`**, **`Local.replicate`**: sequences of local readers.
* **`Script.local_readFrom`**, **`Tx.local_read`**: the readers of the wire format are local.
* **`Script.read_announced_iff`**: a script with its length in front does not depend on what follows.
* **`Tx.read_extent`**: which bytes a transaction depends on, and that it needs them all.
-/

namespace Bitcoin

namespace Reader

variable {α β : Type}

/-- Takes exactly the given bytes for the value: whatever is behind them is left, and of less the
    data end too early. -/
structure TakesExactly (r : Reader α) (taken : Bytes) (a : α) : Prop where
  read_append : ∀ rest, r (taken ++ rest) = .ok (a, rest)
  endOfData : ∀ front, front <+: taken → front ≠ taken →
    ∃ n, r front = .error (.malformed (.endOfData n))

/-- Looks at nothing but what it takes. -/
def Local (r : Reader α) : Prop :=
  ∀ input rest a, r input = .ok (a, rest) →
    ∃ taken, input = taken ++ rest ∧ r.TakesExactly taken a

/-! ## Sequences -/

/-- After a success a reader goes on with what is left. -/
theorem bind_of_ok {r : Reader α} {f : α → Reader β} {input middle : Bytes} {a : α}
    (h : r input = .ok (a, middle)) : (r >>= f) input = f a middle := by
  show (r input >>= fun p => f p.1 p.2) = _
  rw [h]
  rfl

/-- A reader that fails ends the sequence with its error. -/
theorem bind_of_error {r : Reader α} {f : α → Reader β} {input : Bytes} {e : Error}
    (h : r input = .error e) : (r >>= f) input = .error e := by
  show (r input >>= fun p => f p.1 p.2) = _
  rw [h]
  rfl

/-- A part in front of two byte strings that is not all of them lacks some of the first, or has all
    of the first and lacks some of the second. -/
theorem part_append_cases {front first second : Bytes} (h : front <+: first ++ second)
    (hne : front ≠ first ++ second) : (front <+: first ∧ front ≠ first) ∨
      ∃ part, part <+: second ∧ part ≠ second ∧ front = first ++ part := by
  by_cases hfirst : first <+: front
  · obtain ⟨part, rfl⟩ := hfirst
    refine .inr ⟨part, (List.prefix_append_right_inj first).mp h, ?_, rfl⟩
    rintro rfl
    exact hne rfl
  · left
    rcases List.prefix_or_prefix_of_prefix h (List.prefix_append first second) with h | h
    · refine ⟨h, ?_⟩
      rintro rfl
      exact hfirst List.prefix_rfl
    · exact absurd h hfirst

/-- Two readers one after the other take what both take. -/
theorem TakesExactly.bind {r : Reader α} {f : α → Reader β} {first second : Bytes} {a : α} {b : β}
    (hr : r.TakesExactly first a) (hf : (f a).TakesExactly second b) :
    (r >>= f).TakesExactly (first ++ second) b where
  read_append := by
    intro rest
    rw [List.append_assoc, bind_of_ok (hr.read_append _)]
    exact hf.read_append rest
  endOfData := by
    intro front h hne
    -- the cut falls into what the first takes, or into what the second does
    rcases part_append_cases h hne with ⟨hfront, hshort⟩ | ⟨part, hpart, hshort, rfl⟩
    · obtain ⟨n, hn⟩ := hr.endOfData front hfront hshort
      exact ⟨n, bind_of_error hn⟩
    · obtain ⟨n, hn⟩ := hf.endOfData part hpart hshort
      refine ⟨n, ?_⟩
      rw [bind_of_ok (hr.read_append part), hn]

/-- A reader that takes nothing depends on nothing. -/
theorem local_pure (a : α) : (pure a : Reader α).Local := by
  intro input rest b h
  obtain ⟨rfl, rfl⟩ := pure_eq_ok_iff.mp h
  refine ⟨[], rfl, fun rest => rfl, fun front hpart hne => ?_⟩
  exact absurd (List.prefix_nil.mp hpart) hne

/-- A sequence of readers that depend on what they take alone does so as well. -/
theorem Local.bind {r : Reader α} {f : α → Reader β} (hr : r.Local) (hf : ∀ a, (f a).Local) :
    (r >>= f).Local := by
  intro input rest b h
  obtain ⟨a, middle, ha, hb⟩ := bind_eq_ok_iff.mp h
  obtain ⟨first, rfl, hfirst⟩ := hr _ _ _ ha
  obtain ⟨second, rfl, hsecond⟩ := hf a _ _ _ hb
  exact ⟨first ++ second, (List.append_assoc first second rest).symm, hfirst.bind hsecond⟩

/-- A reader that never succeeds takes nothing. -/
theorem local_throw (e : Error) : (throw e : Reader α).Local := by
  intro input rest a h
  exact nomatch h

/-! ## The readers that the others are made of -/

/-- Less than all of some bytes is less than their number. -/
theorem length_take_ne_of_part {front taken : Bytes} (hpart : front <+: taken)
    (hne : front ≠ taken) : (front.take taken.length).length ≠ taken.length := by
  intro h
  rw [List.take_of_length_le hpart.length_le] at h
  exact hne (hpart.eq_of_length h)

/-- So many bytes are a matter of these bytes alone. -/
theorem local_bytes (n : Nat) : (bytes n).Local := by
  intro input rest taken h
  obtain ⟨rfl, rfl⟩ := bytes_eq_ok_iff.mp h
  refine ⟨taken, rfl, bytes_append taken, fun front hpart hne => ⟨taken.length, ?_⟩⟩
  rw [bytes, if_neg (length_take_ne_of_part hpart hne)]

/-- A field of fixed size is a matter of its bytes alone. -/
theorem local_fixed (n : Nat) : (fixed n).Local := by
  intro input rest b h
  obtain rfl := fixed_eq_ok_iff.mp h
  refine ⟨b.toBytes, rfl, fun rest => fixed_eq_ok_iff.mpr rfl, fun front hpart hne => ⟨n, ?_⟩⟩
  have hshort := length_take_ne_of_part hpart hne
  rw [b.length_toBytes] at hshort
  rw [fixed, dif_neg hshort]

/-- A byte is a matter of itself alone. -/
theorem local_byte : byte.Local := by
  intro input rest b h
  obtain rfl := byte_eq_ok_iff.mp h
  refine ⟨[b], rfl, fun rest => rfl, fun front hpart hne => ⟨1, ?_⟩⟩
  cases front with
  | nil => rfl
  | cons c front =>
      obtain ⟨rfl, hfront⟩ := List.cons_prefix_cons.mp hpart
      exact absurd (congrArg (c :: ·) (List.prefix_nil.mp hfront)) hne

/-- A number is a matter of its bytes alone. -/
theorem local_number (w : Nat) : (number w).Local :=
  (local_bytes w).bind fun _ => local_pure _

/-- So do words, whatever their width. -/
theorem local_word {ω : Type} (w : Nat) (ofNat : Nat → ω) : (word w ofNat).Local :=
  (local_number w).bind fun _ => local_pure _

/-- Items one after the other depend on what they take when each item does. -/
theorem Local.replicate {r : Reader α} (hr : r.Local) (count : Nat) :
    (Reader.replicate r count).Local := by
  induction count with
  | zero => exact local_pure []
  | succ count ih => exact hr.bind fun _ => ih.bind fun _ => local_pure _

end Reader

open Reader

/-- The marker of a count says how many bytes follow, so a count depends on what it takes. -/
theorem CompactSize.local_read : CompactSize.read.Local := by
  refine local_byte.bind fun marker => ?_
  split
  · exact local_number 2
  · split
    · exact local_number 4
    · split
      · exact local_number 8
      · exact local_pure _

/-! ## Scripts -/

/-- A push depends on its length field and on as many bytes as that says. -/
theorem Command.local_readPush (width size : Nat) : (readPush width size).Local :=
  (local_bytes size).bind fun _ => local_pure _

/-- The first byte of a command says how the rest of it is read. -/
theorem Command.local_read : Command.read.Local := by
  refine local_byte.bind fun code => ?_
  split
  · exact local_readPush 0 code.toNat
  · split
    · exact (local_number 1).bind fun size => local_readPush 1 size
    · split
      · exact (local_number 2).bind fun size => local_readPush 2 size
      · exact local_pure _

namespace Script

/-- The body of a script is read command by command up to its length, so it depends on what it
    takes. -/
theorem local_readFrom (length count : Nat) : (readFrom length count).Local := by
  -- on what is missing to the length, of which every command takes some
  induction hd : length - count using Nat.strongRecOn generalizing count with
  | _ d ih =>
      rcases Nat.lt_trichotomy count length with hlt | rfl | hgt
      · rw [readFrom_of_lt hlt]
        refine Command.local_read.bind fun ⟨c, extra⟩ => ?_
        exact (ih _ (by omega) (count + 1 + extra) rfl).bind fun _ => local_pure _
      · rw [readFrom, if_neg (Nat.lt_irrefl count), if_pos rfl]
        exact local_pure []
      · -- the overrun has been noticed, and what was read is not given
        rw [readFrom, if_neg (Nat.lt_asymm hgt), if_neg (Nat.ne_of_gt hgt)]
        exact local_throw _

/-- A script with its length in front depends on what it takes. -/
theorem local_read : Script.read.Local :=
  CompactSize.local_read.bind fun length => local_readFrom length 0

/-- Commands are read up to the length of some bytes exactly when these bytes are a script. -/
theorem readFrom_append_eq_ok_iff {body rest tail : Bytes} {s : Script} :
    readFrom body.length 0 (body ++ rest) = .ok (s, tail) ↔ ofRaw body = .ok s ∧ tail = rest := by
  rw [readFrom_eq_ok_iff, ofRaw_eq_ok_iff]
  constructor
  · rintro ⟨ts, rfl, hlength, hbytes⟩
    rw [Nat.zero_add] at hlength
    obtain ⟨hbody, hrest⟩ := List.append_inj hbytes hlength.symm
    exact ⟨⟨ts, rfl, hbody.symm⟩, hrest.symm⟩
  · rintro ⟨⟨ts, rfl, rfl⟩, rfl⟩
    exact ⟨ts, rfl, Nat.zero_add _, rfl⟩

/-- A script with its length in front, in whichever form, is read exactly when its bytes alone are a
    script. Then it is that script, and what follows is left. -/
theorem read_announced_iff {size body : Bytes}
    (hsize : CompactSize.read size = .ok (body.length, [])) {rest tail : Bytes} {s : Script} :
    Script.read (size ++ body ++ rest) = .ok (s, tail) ↔ ofRaw body = .ok s ∧ tail = rest := by
  obtain ⟨taken, hsize, htaken⟩ := CompactSize.local_read _ _ _ hsize
  rw [List.append_nil] at hsize
  subst hsize
  have hread : Script.read (size ++ body ++ rest) = readFrom body.length 0 (body ++ rest) := by
    rw [List.append_assoc]
    exact bind_of_ok (htaken.read_append (body ++ rest))
  rw [hread]
  exact readFrom_append_eq_ok_iff

/-- A length that takes three bytes in place of one, and an opcode behind the script. -/
theorem read_announced_iff_three :
    CompactSize.read [0xfd, 0x03, 0x00] = .ok ([0x02, 0x51, 0x52].length, []) ∧
      ∀ s tail, Script.read ([0xfd, 0x03, 0x00] ++ [0x02, 0x51, 0x52] ++ [0xac]) = .ok (s, tail) ↔
        ofRaw [0x02, 0x51, 0x52] = .ok s ∧ tail = [0xac] := by
  have hsize : CompactSize.read [0xfd, 0x03, 0x00] = .ok ([0x02, 0x51, 0x52].length, []) := rfl
  exact ⟨hsize, fun s tail => read_announced_iff hsize⟩

end Script

/-! ## Transactions -/

theorem Outpoint.local_read : Outpoint.read.Local :=
  (local_fixed 32).bind fun _ => (local_word 4 _).bind fun _ => local_pure _

theorem TxIn.local_read : TxIn.read.Local :=
  Outpoint.local_read.bind fun _ => Script.local_read.bind fun _ =>
    (local_word 4 _).bind fun _ => local_pure _

theorem TxOut.local_read : TxOut.read.Local :=
  (local_word 8 _).bind fun _ => Script.local_read.bind fun _ => local_pure _

namespace Tx

/-- A transaction is made of readers that depend on what they take. -/
theorem local_read (net : Network) : (Tx.read net).Local :=
  (local_word 4 _).bind fun _ =>
    CompactSize.local_read.bind fun m => (TxIn.local_read.replicate m).bind fun _ =>
      CompactSize.local_read.bind fun n => (TxOut.local_read.replicate n).bind fun _ =>
        (local_word 4 _).bind fun _ => local_pure _

/-- A transaction that is read off the front of some bytes depends on these alone and needs them
    all: whatever has the same bytes in front is read as that transaction, and of a shorter part of
    them the data end too early. -/
theorem read_extent {net : Network} {raw rest : Bytes} {tx : Tx}
    (h : read net raw = .ok (tx, rest)) : ∃ k ≤ raw.length, rest = raw.drop k ∧
      (∀ other : Bytes, other.take k = raw.take k → read net other = .ok (tx, other.drop k)) ∧
      ∀ j < k, ∃ n, read net (raw.take j) = .error (.malformed (.endOfData n)) := by
  obtain ⟨taken, rfl, htaken⟩ := local_read net _ _ _ h
  have hlength : taken.length ≤ (taken ++ rest).length := by
    rw [List.length_append]
    exact Nat.le_add_right _ _
  refine ⟨taken.length, hlength, (List.drop_left' rfl).symm, ?_, ?_⟩
  · intro other hother
    rw [List.take_left' rfl] at hother
    have hread := htaken.read_append (other.drop taken.length)
    have hcut := List.take_append_drop taken.length other
    rw [hother] at hcut
    rwa [hcut] at hread
  · intro j hj
    rw [List.take_append_of_le_length (Nat.le_of_lt hj)]
    refine htaken.endOfData _ (List.take_prefix j taken) fun hwhole => ?_
    have hlength := congrArg List.length hwhole
    rw [List.length_take_of_le (Nat.le_of_lt hj)] at hlength
    exact Nat.ne_of_lt hj hlength

/-- A transaction with one byte behind it. -/
theorem read_extent_direct : read .main (directLayout.bytes ++ [0x00])
      = .ok (directLayout.tx .main, [0x00]) ∧
    ∃ k ≤ (directLayout.bytes ++ [0x00]).length, [0x00] = (directLayout.bytes ++ [0x00]).drop k ∧
      (∀ other : Bytes, other.take k = (directLayout.bytes ++ [0x00]).take k →
        read .main other = .ok (directLayout.tx .main, other.drop k)) ∧
      ∀ j < k, ∃ n, read .main ((directLayout.bytes ++ [0x00]).take j)
        = .error (.malformed (.endOfData n)) := by
  have hread : read .main (directLayout.bytes ++ [0x00]) = .ok (directLayout.tx .main, [0x00]) :=
    (Layout.takes_read .main).mpr ⟨directLayout, rfl, rfl⟩
  exact ⟨hread, read_extent hread⟩

end Tx

end Bitcoin
