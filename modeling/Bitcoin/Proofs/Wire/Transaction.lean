import Bitcoin.Proofs.Wire.Script
import Bitcoin.Transaction.Wire

/-!
# The bytes of a transaction

The layouts of inputs, outputs and transactions are put together from those of their scripts and
counts. Every byte string is read as a transaction in one way at most, and the transaction is
written back as it was read exactly when every count has its shortest form and every push has the
form that is written for it.

* **`Tx.Layout.takes_read`**: what is read as a transaction.
* **`Tx.Layout.selfDelimiting`**: it can be told from what is behind it.
* **`Tx.Layout.writes`**: what is written back as it was.
-/

namespace Bitcoin

/-! ## Inputs and outputs -/

/-- An outpoint is read from its bytes, and the id comes back in display order. -/
theorem Outpoint.takes_read : Outpoint.read.Takes id bytes := by
  intro input rest p
  refine Reader.bind_eq_ok_iff.trans ⟨?_, ?_⟩
  · rintro ⟨txid, middle, htxid, h⟩
    obtain ⟨index, last, hindex, hp⟩ := Reader.bind_eq_ok_iff.mp h
    obtain ⟨rfl, rfl⟩ := Reader.pure_eq_ok_iff.mp hp
    obtain rfl := Reader.fixed_eq_ok_iff.mp htxid
    obtain rfl := Reader.isWord_uint32.word_eq_ok_iff.mp hindex
    refine ⟨⟨txid.reverse, index⟩, rfl, ?_⟩
    rw [bytes, FixedBytes.reverse_reverse, List.append_assoc]
  · rintro ⟨p, rfl, rfl⟩
    refine ⟨p.txid.reverse, leFixed 4 p.index.toNat ++ rest, ?_, ?_⟩
    · exact Reader.fixed_eq_ok_iff.mpr (List.append_assoc _ _ _)
    · refine Reader.bind_eq_ok_iff.mpr
        ⟨p.index, rest, Reader.isWord_uint32.word_eq_ok_iff.mpr rfl, ?_⟩
      refine Reader.pure_eq_ok_iff.mpr ⟨?_, rfl⟩
      rw [FixedBytes.reverse_reverse]
      rfl

/-- An outpoint has a fixed size, so it can be told from what is behind it. -/
theorem Outpoint.selfDelimiting : SelfDelimiting bytes :=
  takes_read.selfDelimiting fun hvalue _ => hvalue

/-- An input is written when the script in it is, between the outpoint and the sequence number. -/
theorem TxIn.bytesWith_eq_ok_iff {input : TxIn} {s : Script} {bs : Bytes} :
    input.bytesWith s = .ok bs ↔ ∃ script, s.bytes = .ok script ∧
      bs = input.spends.bytes ++ script ++ leFixed 4 input.sequence.toNat := by
  refine Except.bind_eq_ok_iff.trans ⟨?_, ?_⟩
  · rintro ⟨script, hscript, h⟩
    exact ⟨script, hscript, (Except.ok.inj h).symm⟩
  · rintro ⟨script, hscript, rfl⟩
    exact ⟨script, hscript, rfl⟩

/-- An output is written when its script is, behind the amount. -/
theorem TxOut.bytes_eq_ok_iff {output : TxOut} {bs : Bytes} :
    output.bytes = .ok bs ↔ ∃ script, output.scriptPubKey.bytes = .ok script ∧
      bs = leFixed 8 output.amount.toNat ++ script := by
  refine Except.bind_eq_ok_iff.trans ⟨?_, ?_⟩
  · rintro ⟨script, hscript, h⟩
    exact ⟨script, hscript, (Except.ok.inj h).symm⟩
  · rintro ⟨script, hscript, rfl⟩
    exact ⟨script, hscript, rfl⟩

/-- An input can be written exactly when the script in it can. -/
theorem TxIn.exists_bytesWith_iff {input : TxIn} {s : Script} :
    (∃ bs, input.bytesWith s = .ok bs) ↔ s.Writable := by
  rw [← Script.exists_bytes_iff]
  constructor
  · rintro ⟨bs, h⟩
    obtain ⟨script, hscript, -⟩ := bytesWith_eq_ok_iff.mp h
    exact ⟨script, hscript⟩
  · rintro ⟨script, hscript⟩
    exact ⟨_, bytesWith_eq_ok_iff.mpr ⟨script, hscript, rfl⟩⟩

theorem TxOut.exists_bytes_iff {output : TxOut} :
    (∃ bs, output.bytes = .ok bs) ↔ output.scriptPubKey.Writable := by
  rw [← Script.exists_bytes_iff]
  constructor
  · rintro ⟨bs, h⟩
    obtain ⟨script, hscript, -⟩ := bytes_eq_ok_iff.mp h
    exact ⟨script, hscript⟩
  · rintro ⟨script, hscript⟩
    exact ⟨_, bytes_eq_ok_iff.mpr ⟨script, hscript, rfl⟩⟩

/-- An input on the wire. -/
@[ext]
structure TxIn.Layout where
  spends : Outpoint
  scriptSig : Script.Layout
  sequence : UInt32

namespace TxIn.Layout

/-- The input that is read. -/
def input (l : Layout) : TxIn := ⟨l.spends, l.scriptSig.script, l.sequence⟩

/-- The bytes on the wire. -/
def bytes (l : Layout) : Bytes :=
  l.spends.bytes ++ l.scriptSig.bytes ++ leFixed 4 l.sequence.toNat

/-- What is read as an input is an outpoint, a script and a sequence number. -/
theorem takes_read : TxIn.read.Takes input bytes := by
  intro bs rest i
  refine Reader.bind_eq_ok_iff.trans ⟨?_, ?_⟩
  · rintro ⟨p, middle, hp, h⟩
    obtain ⟨s, last, hs, h⟩ := Reader.bind_eq_ok_iff.mp h
    obtain ⟨n, tail, hn, h⟩ := Reader.bind_eq_ok_iff.mp h
    obtain ⟨rfl, rfl⟩ := Reader.pure_eq_ok_iff.mp h
    obtain ⟨p, rfl, rfl⟩ := Outpoint.takes_read.mp hp
    obtain ⟨script, rfl, rfl⟩ := Script.Layout.takes_read.mp hs
    obtain rfl := Reader.isWord_uint32.word_eq_ok_iff.mp hn
    refine ⟨⟨p, script, n⟩, rfl, ?_⟩
    simp only [bytes, List.append_assoc]
  · rintro ⟨l, rfl, rfl⟩
    simp only [bytes, List.append_assoc]
    refine ⟨l.spends, _, Outpoint.takes_read.mpr ⟨l.spends, rfl, rfl⟩, ?_⟩
    refine Reader.bind_eq_ok_iff.mpr ⟨l.scriptSig.script, _,
      Script.Layout.takes_read.mpr ⟨l.scriptSig, rfl, rfl⟩, ?_⟩
    exact Reader.bind_eq_ok_iff.mpr
      ⟨l.sequence, rest, Reader.isWord_uint32.word_eq_ok_iff.mpr rfl, rfl⟩

/-- An input is made of parts that can each be told from what is behind it. -/
theorem selfDelimiting : SelfDelimiting bytes := by
  intro k l r s h
  simp only [bytes, List.append_assoc] at h
  obtain ⟨hspends, h⟩ := Outpoint.selfDelimiting h
  obtain ⟨hscript, h⟩ := Script.Layout.selfDelimiting h
  obtain ⟨hsequence, hrest⟩ := Reader.isWord_uint32.selfDelimiting h
  exact ⟨Layout.ext hspends hscript hsequence, hrest⟩

/-- An input is written back as it was when its script is. -/
theorem writes : Writes TxIn.bytes input bytes (·.scriptSig.Canonical) where
  write_value := fun hl =>
    bytesWith_eq_ok_iff.mpr ⟨_, Script.Layout.writes.write_value hl, rfl⟩
  exists_chosen := by
    intro k bs h
    obtain ⟨front, hscript, rfl⟩ := bytesWith_eq_ok_iff.mp h
    obtain ⟨script, hl, rfl⟩ := Script.Layout.writes.exists_chosen hscript
    exact ⟨⟨k.spends, script, k.sequence⟩, hl, rfl⟩

end TxIn.Layout

/-- An output on the wire. -/
@[ext]
structure TxOut.Layout where
  amount : UInt64
  scriptPubKey : Script.Layout

namespace TxOut.Layout

/-- The output that is read. -/
def output (l : Layout) : TxOut := ⟨l.amount, l.scriptPubKey.script⟩

/-- The bytes on the wire. -/
def bytes (l : Layout) : Bytes := leFixed 8 l.amount.toNat ++ l.scriptPubKey.bytes

/-- What is read as an output is an amount and a script. -/
theorem takes_read : TxOut.read.Takes output bytes := by
  intro bs rest o
  refine Reader.bind_eq_ok_iff.trans ⟨?_, ?_⟩
  · rintro ⟨n, middle, hn, h⟩
    obtain ⟨s, last, hs, h⟩ := Reader.bind_eq_ok_iff.mp h
    obtain ⟨rfl, rfl⟩ := Reader.pure_eq_ok_iff.mp h
    obtain rfl := Reader.isWord_uint64.word_eq_ok_iff.mp hn
    obtain ⟨script, rfl, rfl⟩ := Script.Layout.takes_read.mp hs
    exact ⟨⟨n, script⟩, rfl, (List.append_assoc _ _ _).symm⟩
  · rintro ⟨l, rfl, rfl⟩
    refine ⟨l.amount, _, Reader.isWord_uint64.word_eq_ok_iff.mpr (List.append_assoc _ _ _), ?_⟩
    exact Reader.bind_eq_ok_iff.mpr ⟨l.scriptPubKey.script, _,
      Script.Layout.takes_read.mpr ⟨l.scriptPubKey, rfl, rfl⟩, rfl⟩

/-- An output is made of parts that can each be told from what is behind it. -/
theorem selfDelimiting : SelfDelimiting bytes := by
  intro k l r s h
  simp only [bytes, List.append_assoc] at h
  obtain ⟨hamount, h⟩ := Reader.isWord_uint64.selfDelimiting h
  obtain ⟨hscript, hrest⟩ := Script.Layout.selfDelimiting h
  exact ⟨Layout.ext hamount hscript, hrest⟩

/-- An output is written back as it was when its script is. -/
theorem writes : Writes TxOut.bytes output bytes (·.scriptPubKey.Canonical) where
  write_value := fun hl => bytes_eq_ok_iff.mpr ⟨_, Script.Layout.writes.write_value hl, rfl⟩
  exists_chosen := by
    intro k bs h
    obtain ⟨front, hscript, rfl⟩ := bytes_eq_ok_iff.mp h
    obtain ⟨script, hl, rfl⟩ := Script.Layout.writes.exists_chosen hscript
    exact ⟨⟨k.amount, script⟩, hl, rfl⟩

end TxOut.Layout

/-! ## Counted items -/

/-- Items on the wire, with the form of their number in front. -/
structure Counted (ι : Type) where
  count : CompactSize.Form
  items : List ι
  count_eq : count.value = items.length

namespace Counted

variable {α ι : Type} {r : Reader α} {value : ι → α} {item : ι → Bytes}

/-- The bytes on the wire. -/
def bytes (item : ι → Bytes) (c : Counted ι) : Bytes := c.count.bytes ++ c.items.flatMap item

/-- Items are read when each is. -/
theorem takes_read (hr : r.Takes value item) :
    (CompactSize.read >>= Reader.replicate r).Takes (fun c => c.items.map value) (bytes item) := by
  intro input rest as
  refine Reader.bind_eq_ok_iff.trans ⟨?_, ?_⟩
  · rintro ⟨n, middle, hn, h⟩
    obtain ⟨count, rfl, rfl⟩ := CompactSize.takes_read.mp hn
    obtain ⟨ls, hlength, rfl, rfl⟩ := hr.replicate.mp h
    exact ⟨⟨count, ls, hlength.symm⟩, rfl, (List.append_assoc _ _ _).symm⟩
  · rintro ⟨c, rfl, rfl⟩
    refine ⟨c.count.value, c.items.flatMap item ++ rest, ?_, ?_⟩
    · exact CompactSize.takes_read.mpr ⟨c.count, rfl, List.append_assoc _ _ _⟩
    · exact hr.replicate.mpr ⟨c.items, c.count_eq.symm, rfl, rfl⟩

/-- The count says where the items end, so they can be told from what is behind them. -/
theorem selfDelimiting (h : SelfDelimiting item) : SelfDelimiting (bytes item) := by
  rintro ⟨m, ks, hm⟩ ⟨n, ls, hn⟩ r s hbytes
  simp only [bytes, List.append_assoc] at hbytes
  obtain ⟨rfl, hitems⟩ := CompactSize.Form.selfDelimiting hbytes
  obtain ⟨rfl, hrest⟩ := h.flatMap (hm.symm.trans hn) hitems
  exact ⟨rfl, hrest⟩

/-- The number in its shortest form, and items in the forms that are written. -/
structure Canonical (chosen : ι → Prop) (c : Counted ι) : Prop where
  count : c.count.Shortest
  items : ∀ l ∈ c.items, chosen l

/-- The bytes of items in the form that is written. -/
theorem Canonical.bytes_eq {chosen : ι → Prop} {c : Counted ι} (h : c.Canonical chosen) :
    c.bytes item = CompactSize.encode (c.items.map item).length ++ (c.items.map item).flatten := by
  rw [bytes, CompactSize.Form.shortest_iff.mp h.count, c.count_eq, List.length_map,
    List.flatMap_def]

/-- Items that are not too many have a number in its shortest form. -/
theorem exists_of_items {chosen : ι → Prop} {ls : List ι} (hls : ∀ l ∈ ls, chosen l)
    (hlt : ls.length < 2 ^ 64) : ∃ c : Counted ι, c.Canonical chosen ∧ c.items = ls := by
  obtain ⟨count, hcount, hshort⟩ := CompactSize.Form.exists_shortest hlt
  exact ⟨⟨count, ls, hcount⟩, ⟨hshort, hls⟩, rfl⟩

/-- What is made of counted items is the bytes of items in the form that is written. -/
theorem exists_of_mapM {write : α → Except Error Bytes} {chosen : ι → Prop}
    (h : Writes write value item chosen) {k : Counted ι} {parts : List Bytes}
    (hk : (k.items.map value).mapM write = .ok parts) :
    ∃ c : Counted ι, c.Canonical chosen ∧ c.items.map item = parts := by
  obtain ⟨ls, hlength, hls, rfl⟩ := h.exists_of_mapM hk
  have hlt : ls.length < 2 ^ 64 := by
    rw [hlength, ← k.count_eq]
    exact k.count.value_lt
  obtain ⟨c, hc, rfl⟩ := exists_of_items hls hlt
  exact ⟨c, hc, rfl⟩

end Counted

/-! ## Transactions -/

/-- A transaction on the wire. -/
@[ext]
structure Tx.Layout where
  version : UInt32
  inputs : Counted TxIn.Layout
  outputs : Counted TxOut.Layout
  lockTime : UInt32

namespace Tx

/-- A transaction is written when all its inputs and outputs are, with the count of each in front.
    -/
theorem bytes_eq_ok_iff {tx : Tx} {bs : Bytes} : tx.bytes = .ok bs ↔ ∃ inputs outputs,
    tx.inputs.mapM TxIn.bytes = .ok inputs ∧ tx.outputs.mapM TxOut.bytes = .ok outputs ∧
      bs = leFixed 4 tx.version.toNat ++ (CompactSize.encode inputs.length ++ inputs.flatten) ++
        (CompactSize.encode outputs.length ++ outputs.flatten) ++ leFixed 4 tx.lockTime.toNat := by
  refine Except.bind_eq_ok_iff.trans ⟨?_, ?_⟩
  · rintro ⟨inputs, hinputs, h⟩
    obtain ⟨tail, htail, h⟩ := Except.bind_eq_ok_iff.mp h
    obtain ⟨outputs, houtputs, hout⟩ := Except.bind_eq_ok_iff.mp htail
    obtain rfl := Except.ok.inj hout
    refine ⟨inputs, outputs, hinputs, houtputs, ?_⟩
    obtain rfl := Except.ok.inj h
    simp only [headBytes, List.append_assoc]
  · rintro ⟨inputs, outputs, hinputs, houtputs, rfl⟩
    have htail : tx.tailBytes = .ok (CompactSize.encode outputs.length ++ outputs.flatten
        ++ leFixed 4 tx.lockTime.toNat) := Except.bind_eq_ok_iff.mpr ⟨outputs, houtputs, rfl⟩
    refine ⟨inputs, hinputs, Except.bind_eq_ok_iff.mpr ⟨_, htail, ?_⟩⟩
    simp only [headBytes, List.append_assoc]
    rfl

namespace Layout

/-- The transaction that is read, of the given network. -/
def tx (net : Network) (l : Layout) : Tx :=
  ⟨l.version, l.inputs.items.map TxIn.Layout.input, l.outputs.items.map TxOut.Layout.output,
    l.lockTime, net⟩

/-- The bytes on the wire. -/
def bytes (l : Layout) : Bytes :=
  leFixed 4 l.version.toNat ++ l.inputs.bytes TxIn.Layout.bytes ++
    l.outputs.bytes TxOut.Layout.bytes ++ leFixed 4 l.lockTime.toNat

/-- The forms of all counts and lengths. -/
def sizes (l : Layout) : List CompactSize.Form :=
  l.inputs.count :: l.outputs.count ::
    (l.inputs.items.map (·.scriptSig.size) ++ l.outputs.items.map (·.scriptPubKey.size))

/-- The tokens of all scripts. -/
def tokens (l : Layout) : List Token :=
  l.inputs.items.flatMap (·.scriptSig.tokens) ++ l.outputs.items.flatMap (·.scriptPubKey.tokens)

/-- The forms that are written: every count and length in its shortest form, and every push in the
    form for its number of bytes. -/
structure Canonical (l : Layout) : Prop where
  sizes : ∀ f ∈ l.sizes, f.Shortest
  tokens : ∀ t ∈ l.tokens, t.Canonical

/-- A transaction has the form that is written for it when its inputs and its outputs have. -/
theorem canonical_iff {l : Layout} : l.Canonical ↔
    l.inputs.Canonical (·.scriptSig.Canonical) ∧
      l.outputs.Canonical (·.scriptPubKey.Canonical) := by
  constructor
  · rintro ⟨hsizes, htokens⟩
    obtain ⟨hm, hsizes⟩ := List.forall_mem_cons.mp hsizes
    obtain ⟨hn, hsizes⟩ := List.forall_mem_cons.mp hsizes
    obtain ⟨hinputSizes, houtputSizes⟩ := List.forall_mem_append.mp hsizes
    obtain ⟨hinputTokens, houtputTokens⟩ := List.forall_mem_append.mp htokens
    refine ⟨⟨hm, fun i hi => ⟨?_, ?_⟩⟩, ⟨hn, fun o ho => ⟨?_, ?_⟩⟩⟩
    · exact hinputSizes _ (List.mem_map.mpr ⟨i, hi, rfl⟩)
    · exact fun t ht => hinputTokens t (List.mem_flatMap.mpr ⟨i, hi, ht⟩)
    · exact houtputSizes _ (List.mem_map.mpr ⟨o, ho, rfl⟩)
    · exact fun t ht => houtputTokens t (List.mem_flatMap.mpr ⟨o, ho, ht⟩)
  · rintro ⟨⟨hm, hinputs⟩, ⟨hn, houtputs⟩⟩
    constructor
    · refine List.forall_mem_cons.mpr ⟨hm, List.forall_mem_cons.mpr ⟨hn, ?_⟩⟩
      refine List.forall_mem_append.mpr ⟨List.forall_mem_map.mpr ?_, List.forall_mem_map.mpr ?_⟩
      · exact fun i hi => (hinputs i hi).size
      · exact fun o ho => (houtputs o ho).size
    · refine List.forall_mem_append.mpr ⟨?_, ?_⟩
      · intro t ht
        obtain ⟨i, hi, ht⟩ := List.mem_flatMap.mp ht
        exact (hinputs i hi).tokens t ht
      · intro t ht
        obtain ⟨o, ho, ht⟩ := List.mem_flatMap.mp ht
        exact (houtputs o ho).tokens t ht

/-- What is read as a transaction is a version, counted inputs, counted outputs and a lock time. -/
theorem takes_read (net : Network) : (Tx.read net).Takes (tx net) bytes := by
  intro input rest t
  refine Reader.bind_eq_ok_iff.trans ⟨?_, ?_⟩
  · rintro ⟨version, afterVersion, hversion, h⟩
    obtain ⟨m, afterCount, hm, h⟩ := Reader.bind_eq_ok_iff.mp h
    obtain ⟨inputs, afterInputs, hinputs, h⟩ := Reader.bind_eq_ok_iff.mp h
    obtain ⟨n, afterOutputCount, hn, h⟩ := Reader.bind_eq_ok_iff.mp h
    obtain ⟨outputs, afterOutputs, houtputs, h⟩ := Reader.bind_eq_ok_iff.mp h
    obtain ⟨lockTime, last, hlockTime, h⟩ := Reader.bind_eq_ok_iff.mp h
    obtain ⟨rfl, rfl⟩ := Reader.pure_eq_ok_iff.mp h
    have hin := Reader.bind_eq_ok_iff.mpr ⟨m, afterCount, hm, hinputs⟩
    have hout := Reader.bind_eq_ok_iff.mpr ⟨n, afterOutputCount, hn, houtputs⟩
    obtain ⟨ins, rfl, rfl⟩ := (Counted.takes_read TxIn.Layout.takes_read).mp hin
    obtain ⟨outs, rfl, rfl⟩ := (Counted.takes_read TxOut.Layout.takes_read).mp hout
    obtain rfl := Reader.isWord_uint32.word_eq_ok_iff.mp hversion
    obtain rfl := Reader.isWord_uint32.word_eq_ok_iff.mp hlockTime
    refine ⟨⟨version, ins, outs, lockTime⟩, rfl, ?_⟩
    simp only [bytes, List.append_assoc]
  · rintro ⟨l, rfl, rfl⟩
    simp only [bytes, List.append_assoc]
    refine ⟨l.version, _, Reader.isWord_uint32.word_eq_ok_iff.mpr rfl, ?_⟩
    obtain ⟨m, afterCount, hm, hinputs⟩ := Reader.bind_eq_ok_iff.mp
      ((Counted.takes_read TxIn.Layout.takes_read).mpr ⟨l.inputs, rfl, rfl⟩)
    refine Reader.bind_eq_ok_iff.mpr ⟨m, afterCount, hm, ?_⟩
    refine Reader.bind_eq_ok_iff.mpr ⟨_, _, hinputs, ?_⟩
    obtain ⟨n, afterOutputCount, hn, houtputs⟩ := Reader.bind_eq_ok_iff.mp
      ((Counted.takes_read TxOut.Layout.takes_read).mpr ⟨l.outputs, rfl, rfl⟩)
    refine Reader.bind_eq_ok_iff.mpr ⟨n, afterOutputCount, hn, ?_⟩
    refine Reader.bind_eq_ok_iff.mpr ⟨_, _, houtputs, ?_⟩
    exact Reader.bind_eq_ok_iff.mpr
      ⟨l.lockTime, rest, Reader.isWord_uint32.word_eq_ok_iff.mpr rfl, rfl⟩

/-- A transaction is made of parts that can each be told from what is behind it. -/
theorem selfDelimiting : SelfDelimiting bytes := by
  intro k l r s h
  simp only [bytes, List.append_assoc] at h
  obtain ⟨hversion, h⟩ := Reader.isWord_uint32.selfDelimiting h
  obtain ⟨hinputs, h⟩ := Counted.selfDelimiting TxIn.Layout.selfDelimiting h
  obtain ⟨houtputs, h⟩ := Counted.selfDelimiting TxOut.Layout.selfDelimiting h
  obtain ⟨hlockTime, hrest⟩ := Reader.isWord_uint32.selfDelimiting h
  exact ⟨Layout.ext hversion hinputs houtputs hlockTime, hrest⟩

/-- A transaction is written back as it was when all its parts are in the forms that are written. -/
theorem writes (net : Network) : Writes Tx.bytes (tx net) bytes Canonical where
  write_value := by
    intro l hl
    obtain ⟨hinputs, houtputs⟩ := canonical_iff.mp hl
    refine bytes_eq_ok_iff.mpr ⟨_, _, TxIn.Layout.writes.mapM hinputs.items,
      TxOut.Layout.writes.mapM houtputs.items, ?_⟩
    rw [bytes, hinputs.bytes_eq, houtputs.bytes_eq]
    rfl
  exists_chosen := by
    intro k bs h
    obtain ⟨ins, outs, hins, houts, rfl⟩ := bytes_eq_ok_iff.mp h
    obtain ⟨inputs, hinputs, rfl⟩ := Counted.exists_of_mapM TxIn.Layout.writes hins
    obtain ⟨outputs, houtputs, rfl⟩ := Counted.exists_of_mapM TxOut.Layout.writes houts
    refine ⟨⟨k.version, inputs, outputs, k.lockTime⟩, canonical_iff.mpr ⟨hinputs, houtputs⟩, ?_⟩
    rw [bytes, hinputs.bytes_eq, houtputs.bytes_eq]
    rfl

end Layout

end Tx

end Bitcoin
