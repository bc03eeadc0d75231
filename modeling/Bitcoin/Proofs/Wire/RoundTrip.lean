import Bitcoin.Proofs.Wire.Transaction

/-!
# Transactions there and back

A transaction whose scripts are in the forms that are written is read back from its bytes as it was,
whatever is behind them. The other way round something can be lost: a push that was announced with
more bytes than it needs is written with fewer, and a push that is too long is not written at all.
So the bytes that a transaction was read from are those that it is written to, and those that its id
is a digest of, exactly when no push is like that and every count and length has its shortest form.

* **`read_bytes_append`**: a transaction is read back from its bytes.
* **`bytes_eq_ok_iff_of_read`**: the bytes that are written are those that were read.
* **`ofFile_of_read`**: then the bytes are found under the digest of theirs.
* **`identity_of_read`**: the bytes, the id and the file of a transaction agree.
-/

namespace Bitcoin.Tx

/-! ## Writing and reading back -/

/-- The scripts of all inputs and outputs. -/
def scripts (tx : Tx) : List Script :=
  tx.inputs.map TxIn.scriptSig ++ tx.outputs.map TxOut.scriptPubKey

/-- Whether every command of every script is read back as it is written. -/
def Canonical (tx : Tx) : Prop := ∀ s ∈ tx.scripts, s.Canonical

instance (tx : Tx) : Decidable tx.Canonical :=
  inferInstanceAs (Decidable (∀ s ∈ tx.scripts, s.Canonical))

/-- A transaction is written unless a push in one of its scripts is too long. -/
theorem exists_bytes_iff {tx : Tx} : (∃ bs, tx.bytes = .ok bs) ↔ ∀ s ∈ tx.scripts, s.Writable := by
  rw [scripts, List.forall_mem_append, List.forall_mem_map, List.forall_mem_map]
  have hinputs : (∃ parts, tx.inputs.mapM TxIn.bytes = .ok parts)
      ↔ ∀ input ∈ tx.inputs, input.scriptSig.Writable :=
    Except.exists_mapM_eq_ok_iff.trans (forall₂_congr fun _ _ => TxIn.exists_bytesWith_iff)
  have houtputs : (∃ parts, tx.outputs.mapM TxOut.bytes = .ok parts)
      ↔ ∀ output ∈ tx.outputs, output.scriptPubKey.Writable :=
    Except.exists_mapM_eq_ok_iff.trans (forall₂_congr fun _ _ => TxOut.exists_bytes_iff)
  rw [← hinputs, ← houtputs]
  constructor
  · rintro ⟨bs, h⟩
    obtain ⟨inputs, outputs, hinputs, houtputs, -⟩ := bytes_eq_ok_iff.mp h
    exact ⟨⟨inputs, hinputs⟩, outputs, houtputs⟩
  · rintro ⟨⟨inputs, hinputs⟩, outputs, houtputs⟩
    exact ⟨_, bytes_eq_ok_iff.mpr ⟨inputs, outputs, hinputs, houtputs, rfl⟩⟩

/-- Whether all counts and lengths fit into the eight bytes that the wire has for them. In a
    transaction that is held in memory they do. -/
structure CountsFit (tx : Tx) : Prop where
  inputs : tx.inputs.length < 2 ^ 64
  outputs : tx.outputs.length < 2 ^ 64
  scripts : ∀ s ∈ tx.scripts, ∀ bs, s.body = .ok bs → bs.length < 2 ^ 64

/-- A transaction has a layout in the forms that are written. -/
theorem Canonical.exists_layout {tx : Tx} (h : tx.Canonical) (hfit : tx.CountsFit) :
    ∃ l : Layout, l.Canonical ∧ l.tx tx.network = tx := by
  have hin : ∀ i ∈ tx.inputs, ∃ l : TxIn.Layout, l.scriptSig.Canonical ∧ l.input = i := by
    intro i hi
    have hs : i.scriptSig ∈ tx.scripts :=
      List.mem_append.mpr (.inl (List.mem_map.mpr ⟨i, hi, rfl⟩))
    obtain ⟨script, hscript, heq⟩ := (h _ hs).exists_layout (hfit.scripts _ hs)
    exact ⟨⟨i.spends, script, i.sequence⟩, hscript, TxIn.ext rfl heq rfl⟩
  have hout : ∀ o ∈ tx.outputs, ∃ l : TxOut.Layout, l.scriptPubKey.Canonical ∧ l.output = o := by
    intro o ho
    have hs : o.scriptPubKey ∈ tx.scripts :=
      List.mem_append.mpr (.inr (List.mem_map.mpr ⟨o, ho, rfl⟩))
    obtain ⟨script, hscript, heq⟩ := (h _ hs).exists_layout (hfit.scripts _ hs)
    exact ⟨⟨o.amount, script⟩, hscript, TxOut.ext rfl heq⟩
  obtain ⟨ins, hins, hinputs⟩ := exists_map_eq hin
  obtain ⟨outs, houts, houtputs⟩ := exists_map_eq hout
  have hinsFit : ins.length < 2 ^ 64 := by
    rw [← List.length_map TxIn.Layout.input, hinputs]
    exact hfit.inputs
  have houtsFit : outs.length < 2 ^ 64 := by
    rw [← List.length_map TxOut.Layout.output, houtputs]
    exact hfit.outputs
  obtain ⟨inputs, hinputsCanonical, rfl⟩ := Counted.exists_of_items hins hinsFit
  obtain ⟨outputs, houtputsCanonical, rfl⟩ := Counted.exists_of_items houts houtsFit
  refine ⟨⟨tx.version, inputs, outputs, tx.lockTime⟩, ?_, ?_⟩
  · exact Layout.canonical_iff.mpr ⟨hinputsCanonical, houtputsCanonical⟩
  · exact Tx.ext rfl hinputs houtputs rfl rfl

/-- A transaction whose scripts are in the forms that are written is known from its bytes, but for
    the network, which they do not show. -/
theorem Canonical.eq_of_bytes_eq {tx other : Tx} (h : tx.Canonical) (hfit : tx.CountsFit)
    (hother : other.Canonical) (hotherFit : other.CountsFit) (hbytes : tx.bytes = other.bytes) :
    other = { tx with network := other.network } := by
  obtain ⟨l, hl, heq⟩ := h.exists_layout hfit
  obtain ⟨l', hl', heq'⟩ := hother.exists_layout hotherFit
  have hwritten := (Layout.writes tx.network).write_value hl
  have hwritten' := (Layout.writes other.network).write_value hl'
  rw [heq] at hwritten
  rw [heq'] at hwritten'
  have hlayouts : l.bytes = l'.bytes :=
    Except.ok.inj (hwritten.symm.trans (hbytes.trans hwritten'))
  obtain rfl := Layout.selfDelimiting.injective hlayouts
  calc other = l.tx other.network := heq'.symm
    _ = { l.tx tx.network with network := other.network } := rfl
    _ = { tx with network := other.network } := by rw [heq]

/-- A transaction whose scripts are in the forms that are written is written, and read back from its
    bytes as it was, whatever is behind them. -/
theorem read_bytes_append {tx : Tx} (h : tx.Canonical) (hfit : tx.CountsFit) :
    ∃ bs, tx.bytes = .ok bs ∧ ∀ rest, read tx.network (bs ++ rest) = .ok (tx, rest) := by
  obtain ⟨l, hl, heq⟩ := h.exists_layout hfit
  have hbytes := (Layout.writes tx.network).write_value hl
  rw [heq] at hbytes
  exact ⟨l.bytes, hbytes, fun rest => (Layout.takes_read tx.network).mpr ⟨l, heq, rfl⟩⟩

/-- One input, which pushes two bytes, and an output that anyone can spend. -/
def smallTx : Tx :=
  ⟨1, [⟨⟨FixedBytes.zero 32, 0⟩, [.data [0x30, 0x31]], 0xffffffff⟩], [⟨1000, [.op Opcode.pushOne]⟩],
    0, .test⟩

/-- A transaction with one input and one output. -/
theorem read_bytes_append_small : smallTx.Canonical ∧ smallTx.CountsFit ∧
    ∃ bs, smallTx.bytes = .ok bs ∧ ∀ rest, read .test (bs ++ rest) = .ok (smallTx, rest) := by
  have h : smallTx.Canonical := by decide
  have hfit : smallTx.CountsFit := by
    refine ⟨by decide, by decide, ?_⟩
    intro s hs bs hbs
    rcases List.mem_cons.mp hs with rfl | hs
    · obtain rfl := Except.ok.inj hbs
      decide
    · obtain rfl := List.mem_singleton.mp hs
      obtain rfl := Except.ok.inj hbs
      decide
  exact ⟨h, hfit, read_bytes_append h hfit⟩

/-! ## Reading and writing back -/

/-- Every count and length in the bytes of a transaction has its shortest form. -/
def SizesShortest (raw : Bytes) : Prop :=
  ∀ l : Layout, l.bytes = raw → ∀ f ∈ l.sizes, f.Shortest

/-- Every push in the bytes of a transaction has the form that is written for it. -/
def PushesCanonical (raw : Bytes) : Prop :=
  ∀ l : Layout, l.bytes = raw → ∀ t ∈ l.tokens, t.Canonical

namespace Layout

/-- The sizes in the bytes of a layout are those of the layout. -/
theorem sizesShortest_iff {l : Layout} : SizesShortest l.bytes ↔ ∀ f ∈ l.sizes, f.Shortest :=
  forall_layout_iff selfDelimiting.injective

theorem pushesCanonical_iff {l : Layout} :
    PushesCanonical l.bytes ↔ ∀ t ∈ l.tokens, t.Canonical :=
  forall_layout_iff selfDelimiting.injective

end Layout

variable {net : Network} {raw : Bytes} {tx : Tx}

/-- The bytes that are written are those that were read exactly when every count and length has its
    shortest form and every push the form that is written for it. -/
theorem bytes_eq_ok_iff_of_read (hread : read net raw = .ok (tx, [])) :
    tx.bytes = .ok raw ↔ SizesShortest raw ∧ PushesCanonical raw := by
  obtain ⟨l, rfl, hraw⟩ := (Layout.takes_read net).mp hread
  rw [List.append_nil] at hraw
  subst hraw
  rw [Layout.sizesShortest_iff, Layout.pushesCanonical_iff,
    (Layout.writes net).write_eq_ok_iff Layout.selfDelimiting.injective]
  exact ⟨fun h => ⟨h.sizes, h.tokens⟩, fun h => ⟨h.1, h.2⟩⟩

/-- Bytes without the mark of witness data are the file of the transaction that they are read as,
    when that is written back to them. -/
theorem ofFile_of_read [Digests] (hread : read net raw = .ok (tx, [])) (hmark : raw[4]? ≠ some 0)
    (hbytes : tx.bytes = .ok raw) : tx.txid = .ok (Digests.hash256 raw).reverse ∧
      ofFile (Digests.hash256 raw).reverse net raw = .ok tx := by
  have hid : tx.txid = .ok (Digests.hash256 raw).reverse :=
    Except.bind_eq_ok_iff.mpr ⟨raw, hbytes, rfl⟩
  have hexplorer : ofExplorer net raw = .ok tx := by
    rw [ofExplorer, if_neg fun h => hmark h.2, hread]
    rfl
  refine ⟨hid, Except.bind_eq_ok_iff.mpr ⟨tx, hexplorer, ?_⟩⟩
  refine Except.bind_eq_ok_iff.mpr ⟨_, hid, ?_⟩
  rw [if_neg (not_not_intro rfl)]
  rfl

/-- A transaction that is read from all of the bytes, without the mark of witness data and with
    every count and length in its shortest form, keeps its identity when no push is longer than it
    may be or announced with more bytes than it needs: the bytes that are written are those that
    were read, the id is the digest of them, and under that id they are found in a file. -/
theorem identity_of_read [Digests] (hread : read net raw = .ok (tx, [])) (hmark : raw[4]? ≠ some 0)
    (hsizes : SizesShortest raw) (hpushes : PushesCanonical raw) :
    tx.bytes = .ok raw ∧ tx.txid = .ok (Digests.hash256 raw).reverse ∧
      ofFile (Digests.hash256 raw).reverse net raw = .ok tx := by
  have hbytes := (bytes_eq_ok_iff_of_read hread).mpr ⟨hsizes, hpushes⟩
  exact ⟨hbytes, ofFile_of_read hread hmark hbytes⟩

/-- One input with the given script, and no output. -/
def Layout.ofScript (s : Script.Layout) : Layout :=
  ⟨1, ⟨⟨.one, 1, by decide⟩, [⟨⟨FixedBytes.zero 32, 0⟩, s, 0xffffffff⟩], rfl⟩,
    ⟨⟨.one, 0, by decide⟩, [], rfl⟩, 0⟩

/-- Pushes one byte, which is announced by its number alone. -/
def directLayout : Layout :=
  .ofScript ⟨⟨.one, 2, by decide⟩, [.push .direct [0x51] (by decide)], rfl⟩

/-- Pushes one byte, which is announced by an opcode and its number. -/
def announcedLayout : Layout :=
  .ofScript ⟨⟨.one, 3, by decide⟩, [.push .data1 [0x51] (by decide)], rfl⟩

/-- Pushes one byte more than may be pushed. -/
def overlongLayout : Layout :=
  .ofScript ⟨⟨.two, 524, by decide⟩,
    [.push .data2 (List.replicate 521 0x51) (by decide +kernel)], by decide +kernel⟩

/-- The bytes of a layout are read as its transaction, with nothing left. -/
theorem Layout.read_bytes (net : Network) (l : Layout) : read net l.bytes = .ok (l.tx net, []) :=
  (takes_read net).mpr ⟨l, rfl, (List.append_nil _).symm⟩

/-- A transaction in the direct form, whose sizes and pushes are as they are written. -/
theorem identity_of_read_direct :
    read .main directLayout.bytes = .ok (directLayout.tx .main, []) ∧
      directLayout.bytes[4]? ≠ some 0 ∧ SizesShortest directLayout.bytes ∧
      PushesCanonical directLayout.bytes ∧
      (directLayout.tx .main).bytes = .ok directLayout.bytes ∧
      @txid Digests.standard (directLayout.tx .main)
        = .ok (Digests.standard.hash256 directLayout.bytes).reverse ∧
      @ofFile Digests.standard (Digests.standard.hash256 directLayout.bytes).reverse .main
        directLayout.bytes = .ok (directLayout.tx .main) := by
  have hread := directLayout.read_bytes .main
  have hmark : directLayout.bytes[4]? ≠ some 0 := by decide
  have hsizes : SizesShortest directLayout.bytes := Layout.sizesShortest_iff.mpr (by decide)
  have hpushes : PushesCanonical directLayout.bytes := Layout.pushesCanonical_iff.mpr (by decide)
  exact ⟨hread, hmark, hsizes, hpushes,
    @identity_of_read _ _ _ Digests.standard hread hmark hsizes hpushes⟩

/-- A push that is announced with more bytes than it needs is written with fewer, and one that is
    too long is not written. -/
theorem identity_of_read_fails :
    (∃ raw tx, read .main raw = .ok (tx, []) ∧ raw[4]? ≠ some 0 ∧ SizesShortest raw ∧
      ∃ bs, tx.bytes = .ok bs ∧ bs ≠ raw) ∧
    ∃ raw tx, read .main raw = .ok (tx, []) ∧ raw[4]? ≠ some 0 ∧ SizesShortest raw ∧
      tx.bytes = .error (.pushTooLong 521) := by
  constructor
  · refine ⟨announcedLayout.bytes, announcedLayout.tx .main, announcedLayout.read_bytes .main,
      by decide, Layout.sizesShortest_iff.mpr (by decide), _, rfl, by decide⟩
  · refine ⟨overlongLayout.bytes, overlongLayout.tx .main, overlongLayout.read_bytes .main,
      by decide +kernel, Layout.sizesShortest_iff.mpr (by decide +kernel), by decide +kernel⟩

end Bitcoin.Tx
