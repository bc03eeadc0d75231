import Bitcoin.Proofs.Wire.RoundTrip

/-!
# Transactions in an explorer's answer

An explorer serves a transaction as it is written, or with a mark behind the version and witness
data before the lock time. The mark is told from a number of inputs by being zero, so a transaction
that has inputs is never mistaken for one with witness data. Of a marked answer the witness data are
first read as the beginning of a lock time, and the lock time is then taken from the end. So nothing
depends on what the witness data are, or on how many bytes they have.

* **`ofExplorer_of_read`**: an answer without the mark.
* **`ofExplorer_marked`**: an answer with the mark.
* **`ofExplorer_bytes`**: both forms are read as the transaction that was written.
* **`ofExplorer_network`**: the network is the one that was asked for, and changes nothing else.
-/

namespace Bitcoin

/-- The first byte of a count that is not zero is not zero. -/
theorem CompactSize.Form.head_bytes_ne_zero {f : Form} (h : f.value ≠ 0) :
    ∃ b rest, f.bytes = b :: rest ∧ b ≠ 0 := by
  obtain ⟨width, n, hn⟩ := f
  cases width with
  | one =>
      obtain ⟨b, rfl, hbytes⟩ := exists_byte hn
      refine ⟨b, [], hbytes, ?_⟩
      rintro rfl
      exact h rfl
  | two => exact ⟨0xfd, leFixed 2 n, rfl, by decide⟩
  | four => exact ⟨0xfe, leFixed 4 n, rfl, by decide⟩
  | eight => exact ⟨0xff, leFixed 8 n, rfl, by decide⟩

/-- Any four bytes are those of a word. -/
theorem exists_word32_append {bs : Bytes} (h : 4 ≤ bs.length) :
    ∃ (x : UInt32) (rest : Bytes), bs = leFixed 4 x.toNat ++ rest := by
  have hlength : (bs.take 4).length = 4 := List.length_take_of_le h
  have hlt : leValue (bs.take 4) < 2 ^ 32 := by
    have hbound := leValue_lt (bs.take 4)
    rw [hlength] at hbound
    exact hbound
  refine ⟨UInt32.ofNat (leValue (bs.take 4)), bs.drop 4, ?_⟩
  have hword : leFixed 4 (leValue (bs.take 4)) = bs.take 4 := by
    have hfixed := leFixed_leValue (bs.take 4)
    rwa [hlength] at hfixed
  rw [UInt32.toNat_ofNat_of_lt' hlt, hword, List.take_append_drop]

namespace Tx

variable {net : Network} {tx : Tx}

/-- Everything that has been read can be counted. -/
theorem Layout.countsFit (l : Layout) (net : Network) : (l.tx net).CountsFit where
  inputs := by
    show (l.inputs.items.map TxIn.Layout.input).length < 2 ^ 64
    rw [List.length_map, ← l.inputs.count_eq]
    exact l.inputs.count.value_lt
  outputs := by
    show (l.outputs.items.map TxOut.Layout.output).length < 2 ^ 64
    rw [List.length_map, ← l.outputs.count_eq]
    exact l.outputs.count.value_lt
  scripts := by
    have hscript : ∀ (script : Script.Layout) (bs : Bytes), script.script.body = .ok bs →
        bs.length < 2 ^ 64 := by
      intro script bs h
      refine Nat.lt_of_le_of_lt (Script.length_body_le h) ?_
      rw [← script.size_eq]
      exact script.size.value_lt
    intro s hs bs h
    rcases List.mem_append.mp hs with hs | hs
    · obtain ⟨_, hinput, rfl⟩ := List.mem_map.mp hs
      obtain ⟨input, -, rfl⟩ := List.mem_map.mp hinput
      exact hscript input.scriptSig bs h
    · obtain ⟨_, houtput, rfl⟩ := List.mem_map.mp hs
      obtain ⟨output, -, rfl⟩ := List.mem_map.mp houtput
      exact hscript output.scriptPubKey bs h

/-! ## Answers with and without the mark -/

/-- Without the mark an answer is the transaction that it starts with, and nothing may follow. -/
theorem ofExplorer_of_read {raw rest : Bytes} (hmark : raw[4]? ≠ some 0)
    (hread : read net raw = .ok (tx, rest)) : ofExplorer net raw
      = if rest = [] then .ok tx else .error (.malformed (.trailingBytes rest.length)) := by
  rw [ofExplorer, if_neg fun h => hmark h.2, hread]
  by_cases hrest : rest = []
  · rw [if_pos hrest, hrest]
    rfl
  · rw [if_neg hrest]
    show (if rest ≠ [] then _ else _ : Except Error Tx) = _
    rw [if_pos hrest]
    rfl

/-- With the mark an answer is what remains without mark and flag, but for the lock time, which is
    at the end. -/
theorem ofExplorer_of_mark {front rest : Bytes} {lockTime : UInt32}
    (hmark : front[4]? = some 0)
    (hread : read net (front.take 4 ++ front.drop 6 ++ leFixed 4 lockTime.toNat)
      = .ok (tx, rest)) (hlong : 6 ≤ front.length) :
    ofExplorer net (front ++ leFixed 4 lockTime.toNat) = .ok { tx with lockTime := lockTime } := by
  have hmark' : (front ++ leFixed 4 lockTime.toNat)[4]? = some 0 := by
    rw [List.getElem?_append_left (Nat.lt_of_lt_of_le (by decide) hlong), hmark]
  have hlength : (front ++ leFixed 4 lockTime.toNat).length = front.length + 4 := by
    rw [List.length_append, length_leFixed]
  have hlast : (front ++ leFixed 4 lockTime.toNat).drop (front.length + 4 - 4)
      = leFixed 4 lockTime.toNat := List.drop_left' rfl
  rw [ofExplorer, hlength, hlast, leValue_leFixed_of_lt lockTime.toNat_lt, UInt32.ofNat_toNat,
    if_pos ⟨by omega, hmark'⟩,
    List.take_append_of_le_length (Nat.le_trans (by decide) hlong),
    List.drop_append_of_le_length hlong, ← List.append_assoc, hread]
  rfl

namespace Layout

/-- The bytes between the version and the lock time. -/
def body (l : Layout) : Bytes :=
  l.inputs.bytes TxIn.Layout.bytes ++ l.outputs.bytes TxOut.Layout.bytes

theorem bytes_eq_body (l : Layout) :
    l.bytes = leFixed 4 l.version.toNat ++ l.body ++ leFixed 4 l.lockTime.toNat := by
  rw [bytes, body, ← List.append_assoc]

/-- The number of inputs stands where the mark would. -/
theorem getElem?_four_ne_zero {l : Layout} (h : l.inputs.items ≠ []) (rest : Bytes) :
    (l.bytes ++ rest)[4]? ≠ some 0 := by
  have hcount : l.inputs.count.value ≠ 0 := by
    rw [l.inputs.count_eq]
    exact fun hzero => h (List.length_eq_zero_iff.mp hzero)
  obtain ⟨b, tail, hbytes, hb⟩ := CompactSize.Form.head_bytes_ne_zero hcount
  have hfour : (l.bytes ++ rest)[4]? = some b := by
    rw [bytes, Counted.bytes, hbytes]
    rfl
  rw [hfour]
  exact fun hzero => hb (Option.some.inj hzero)

/-- Whatever stands behind the outputs and is long enough is read as a lock time. -/
theorem read_body_append (l : Layout) (net : Network) {rest : Bytes} (h : 4 ≤ rest.length) :
    ∃ lockTime tail, read net (leFixed 4 l.version.toNat ++ (l.body ++ rest))
      = .ok ({ l.tx net with lockTime := lockTime }, tail) := by
  obtain ⟨lockTime, tail, rfl⟩ := exists_word32_append h
  refine ⟨lockTime, tail, (takes_read net).mpr ⟨{ l with lockTime := lockTime }, rfl, ?_⟩⟩
  simp only [bytes, body, List.append_assoc]

/-- With the mark an answer is the transaction without its witness data, whatever those are. -/
theorem ofExplorer_marked (l : Layout) (net : Network) (flag : UInt8) (witness : Bytes) :
    ofExplorer net (leFixed 4 l.version.toNat ++ [0, flag] ++ l.body ++ witness
      ++ leFixed 4 l.lockTime.toNat) = .ok (l.tx net) := by
  have hlength : 4 ≤ (witness ++ leFixed 4 l.lockTime.toNat).length := by
    rw [List.length_append, length_leFixed]
    exact Nat.le_add_left 4 _
  obtain ⟨lockTime, tail, hread⟩ := l.read_body_append net hlength
  have hlong : 6 ≤ (leFixed 4 l.version.toNat ++ [0, flag] ++ l.body ++ witness).length := by
    rw [List.append_assoc, List.length_append]
    exact Nat.le_add_right 6 _
  -- the version has four bytes, so mark and flag are what is cut out
  have hcut : (leFixed 4 l.version.toNat ++ [0, flag] ++ l.body ++ witness).take 4
      ++ (leFixed 4 l.version.toNat ++ [0, flag] ++ l.body ++ witness).drop 6
      = leFixed 4 l.version.toNat ++ (l.body ++ witness) := rfl
  have hstripped : read net ((leFixed 4 l.version.toNat ++ [0, flag] ++ l.body ++ witness).take 4
      ++ (leFixed 4 l.version.toNat ++ [0, flag] ++ l.body ++ witness).drop 6
      ++ leFixed 4 l.lockTime.toNat) = .ok ({ l.tx net with lockTime := lockTime }, tail) := by
    rw [hcut, List.append_assoc, List.append_assoc]
    exact hread
  exact ofExplorer_of_mark rfl hstripped hlong

end Layout

/-- A transaction with inputs whose scripts are in the forms that are written is read from an
    explorer's answer, both as it is written and with a mark, a flag and witness data, whatever
    these are; and as it is written nothing may follow it. -/
theorem ofExplorer_bytes (h : tx.Canonical) (hfit : tx.CountsFit) (hinputs : tx.inputs ≠ []) :
    ∃ body, tx.bytes = .ok (leFixed 4 tx.version.toNat ++ body ++ leFixed 4 tx.lockTime.toNat) ∧
      ofExplorer tx.network (leFixed 4 tx.version.toNat ++ body ++ leFixed 4 tx.lockTime.toNat)
        = .ok tx ∧
      (∀ (flag : UInt8) (witness : Bytes), ofExplorer tx.network (leFixed 4 tx.version.toNat
        ++ [0, flag] ++ body ++ witness ++ leFixed 4 tx.lockTime.toNat) = .ok tx) ∧
      ∀ rest, rest ≠ [] → ofExplorer tx.network (leFixed 4 tx.version.toNat ++ body
        ++ leFixed 4 tx.lockTime.toNat ++ rest)
          = .error (.malformed (.trailingBytes rest.length)) := by
  obtain ⟨net, l, hl, rfl⟩ : ∃ net l, l.Canonical ∧ tx = Layout.tx net l := by
    obtain ⟨l, hl, heq⟩ := h.exists_layout hfit
    exact ⟨tx.network, l, hl, heq.symm⟩
  have hitems : l.inputs.items ≠ [] := fun hnil => hinputs (congrArg (List.map _) hnil)
  have hread : ∀ rest, read net (l.bytes ++ rest) = .ok (l.tx net, rest) := fun rest =>
    (Layout.takes_read net).mpr ⟨l, rfl, rfl⟩
  have hplain : ∀ rest, ofExplorer net (l.bytes ++ rest)
      = if rest = [] then .ok (l.tx net) else .error (.malformed (.trailingBytes rest.length)) :=
    fun rest => ofExplorer_of_read (Layout.getElem?_four_ne_zero hitems rest) (hread rest)
  have hwhole := hplain []
  rw [List.append_nil, if_pos rfl] at hwhole
  refine ⟨l.body, ?_, ?_, l.ofExplorer_marked net, fun rest hrest => ?_⟩
  · exact l.bytes_eq_body ▸ (Layout.writes net).write_value hl
  · exact l.bytes_eq_body ▸ hwhole
  · have htrailing := hplain rest
    rw [if_neg hrest, l.bytes_eq_body] at htrailing
    exact htrailing

theorem ofExplorer_bytes_direct : (directLayout.tx .main).Canonical ∧
    (directLayout.tx .main).CountsFit ∧ (directLayout.tx .main).inputs ≠ [] ∧
    ∃ body, (directLayout.tx .main).bytes = .ok (leFixed 4 1 ++ body ++ leFixed 4 0) ∧
      ofExplorer .main (leFixed 4 1 ++ body ++ leFixed 4 0) = .ok (directLayout.tx .main) ∧
      (∀ (flag : UInt8) (witness : Bytes), ofExplorer .main (leFixed 4 1 ++ [0, flag] ++ body
        ++ witness ++ leFixed 4 0) = .ok (directLayout.tx .main)) ∧
      ∀ rest, rest ≠ [] → ofExplorer .main (leFixed 4 1 ++ body ++ leFixed 4 0 ++ rest)
        = .error (.malformed (.trailingBytes rest.length)) := by
  have hcanonical : (directLayout.tx .main).Canonical := by decide
  have hfit := directLayout.countsFit .main
  have hinputs : (directLayout.tx .main).inputs ≠ [] := List.cons_ne_nil _ _
  exact ⟨hcanonical, hfit, hinputs, ofExplorer_bytes hcanonical hfit hinputs⟩

/-! ## The network -/

/-- What is read does not depend on the network, which is only noted. -/
theorem read_network (net other : Network) : read other
    = (fun tx : Tx => { tx with network := other }) <$> read net := by
  simp only [read, map_bind, map_pure]

/-- The network is the one that was asked for, and changes nothing else. -/
theorem ofExplorer_network (net other : Network) (raw : Bytes) : ofExplorer other raw
    = (ofExplorer net raw).map fun tx => { tx with network := other } := by
  have hread : ∀ input, read other input
      = (read net input).map fun p => ({ p.1 with network := other }, p.2) := by
    intro input
    rw [read_network net other]
    exact StateT.run_map _ _ input
  rw [ofExplorer, ofExplorer, hread, hread]
  by_cases hmark : 5 < raw.length ∧ raw[4]? = some 0
  · rw [if_pos hmark, if_pos hmark]
    cases read net (raw.take 4 ++ raw.drop 6) with
    | error e => rfl
    | ok p => rfl
  · rw [if_neg hmark, if_neg hmark]
    cases read net raw with
    | error e => rfl
    | ok p =>
        show (if p.2 ≠ [] then _ else _ : Except Error Tx)
          = Except.map _ (if p.2 ≠ [] then _ else _)
        by_cases hrest : p.2 ≠ []
        · rw [if_pos hrest, if_pos hrest]
          rfl
        · rw [if_neg hrest, if_neg hrest]
          rfl

theorem network_of_ofExplorer {raw : Bytes} (h : ofExplorer net raw = .ok tx) :
    tx.network = net := by
  have hnetwork := ofExplorer_network net net raw
  rw [h] at hnetwork
  exact congrArg network (Except.ok.inj hnetwork)

end Tx

end Bitcoin
