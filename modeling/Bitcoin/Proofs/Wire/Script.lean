import Bitcoin.Proofs.Wire.Token

/-!
# The bytes of a script

Every byte string that is read as a script is made of tokens, in exactly one way, and on the wire
the form of its length stands in front of them. So a script is written back as it was read exactly
when each of its pushes has the form that is written for it and the length has its shortest form.

* **`readFrom_eq_ok_iff`**, **`ofRaw_eq_ok_iff`**: what is read as a script.
* **`writes_body`**, **`body_eq_ok_iff_of_ofRaw`**: the scripts that are written back as they were.
* **`exists_body_iff`**: the scripts that are written at all.
* **`Layout.takes_read`**, **`Layout.selfDelimiting`**, **`Layout.writes`**: the same on the wire.
-/

namespace Bitcoin

namespace Script

/-- A token takes one byte and what is read behind it. -/
theorem length_flatMap_cons (t : Token) (ts : List Token) :
    ((t :: ts).flatMap Token.bytes).length = 1 + t.extra + (ts.flatMap Token.bytes).length := by
  rw [List.flatMap_cons, List.length_append, t.length_bytes]

/-- Before the end of the body one more command is read. -/
theorem readFrom_of_lt {length count : Nat} (h : count < length) :
    readFrom length count = (Command.read >>= fun (c, extra) => do
      return c :: (← readFrom length (count + 1 + extra))) := by
  rw [readFrom, if_pos h]

/-- Commands that run past the end are no script. -/
theorem readFrom_of_gt {length count : Nat} (h : length < count) (input : Bytes) :
    readFrom length count input = .error (.scriptOverrun count length) := by
  rw [readFrom, if_neg (Nat.lt_asymm h), if_neg (Nat.ne_of_gt h)]
  rfl

/-- What is read as commands up to a length is made of tokens that fill it. -/
theorem readFrom_eq_ok_iff {length count : Nat} {input rest : Bytes} {s : Script} :
    readFrom length count input = .ok (s, rest) ↔ ∃ ts : List Token, ts.map Token.command = s ∧
      count + (ts.flatMap Token.bytes).length = length ∧
        input = ts.flatMap Token.bytes ++ rest := by
  -- on what is missing to the length, of which every token takes some
  induction hd : length - count using Nat.strongRecOn generalizing count s input with
  | _ d ih =>
      rcases Nat.lt_trichotomy count length with hlt | rfl | hgt
      · rw [readFrom_of_lt hlt]
        refine Reader.bind_eq_ok_iff.trans ⟨?_, ?_⟩
        · rintro ⟨⟨c, extra⟩, middle, hc, h⟩
          obtain ⟨cs, last, hcs, hcons⟩ := Reader.bind_eq_ok_iff.mp h
          obtain ⟨rfl, rfl⟩ := Reader.pure_eq_ok_iff.mp hcons
          obtain ⟨t, ht, rfl⟩ := Token.takes_read.mp hc
          obtain ⟨rfl, rfl⟩ := Prod.mk.inj ht
          obtain ⟨ts, rfl, hlength, rfl⟩ := (ih _ (by omega) rfl).mp hcs
          refine ⟨t :: ts, rfl, ?_, (List.append_assoc _ _ _).symm⟩
          rw [length_flatMap_cons]
          omega
        · rintro ⟨ts, rfl, hlength, rfl⟩
          cases ts with
          | nil => exact absurd hlength (Nat.ne_of_lt hlt)
          | cons t ts =>
              rw [length_flatMap_cons] at hlength
              have hread : Command.read ((t :: ts).flatMap Token.bytes ++ rest)
                  = .ok ((t.command, t.extra), ts.flatMap Token.bytes ++ rest) :=
                Token.takes_read.mpr ⟨t, rfl, List.append_assoc _ _ _⟩
              have hrest : readFrom length (count + 1 + t.extra) (ts.flatMap Token.bytes ++ rest)
                  = .ok (ts.map Token.command, rest) :=
                (ih _ (by omega) rfl).mpr ⟨ts, rfl, by omega, rfl⟩
              exact ⟨_, _, hread, Reader.bind_eq_ok_iff.mpr ⟨_, _, hrest, rfl⟩⟩
      · rw [readFrom_self]
        constructor
        · intro h
          obtain ⟨rfl, rfl⟩ := Prod.mk.inj (Except.ok.inj h)
          exact ⟨[], rfl, rfl, rfl⟩
        · rintro ⟨ts, rfl, hlength, rfl⟩
          cases ts with
          | nil => rfl
          | cons t ts =>
              rw [length_flatMap_cons] at hlength
              omega
      · rw [readFrom_of_gt hgt]
        constructor
        · intro h
          cases h
        · rintro ⟨ts, -, hlength, -⟩
          omega

/-- What is read as a script without its length in front is made of tokens. -/
theorem ofRaw_eq_ok_iff {raw : Bytes} {s : Script} :
    ofRaw raw = .ok s ↔
      ∃ ts : List Token, ts.map Token.command = s ∧ ts.flatMap Token.bytes = raw := by
  refine Except.map_eq_ok_iff.trans ⟨?_, ?_⟩
  · rintro ⟨⟨s, rest⟩, h, rfl⟩
    obtain ⟨ts, rfl, hlength, hraw⟩ := readFrom_eq_ok_iff.mp h
    -- the tokens are as long as all the bytes, so nothing is left
    have hrest : rest.length = 0 := by
      have htotal := congrArg List.length hraw
      rw [List.length_append] at htotal
      omega
    obtain rfl := List.length_eq_zero_iff.mp hrest
    rw [List.append_nil] at hraw
    exact ⟨ts, rfl, hraw.symm⟩
  · rintro ⟨ts, rfl, rfl⟩
    refine ⟨(ts.map Token.command, []), readFrom_eq_ok_iff.mpr ⟨ts, rfl, Nat.zero_add _, ?_⟩, rfl⟩
    exact (List.append_nil _).symm

/-! ## Writing -/

/-- A body is written when every command is. -/
theorem body_eq_ok_iff {s : Script} {bs : Bytes} :
    s.body = .ok bs ↔ ∃ parts, s.mapM Command.bytes = .ok parts ∧ parts.flatten = bs := by
  refine Except.bind_eq_ok_iff.trans ⟨?_, ?_⟩
  · rintro ⟨parts, hparts, h⟩
    exact ⟨parts, hparts, Except.ok.inj h⟩
  · rintro ⟨parts, hparts, rfl⟩
    exact ⟨parts, hparts, rfl⟩

/-- A script is written token by token. -/
theorem writes_body : Writes body (List.map Token.command) (List.flatMap Token.bytes)
    (fun ts => ∀ t ∈ ts, t.Canonical) where
  write_value := fun hts => body_eq_ok_iff.mpr ⟨_, Token.writes.mapM hts, rfl⟩
  exists_chosen := by
    intro ks bs h
    obtain ⟨parts, hparts, rfl⟩ := body_eq_ok_iff.mp h
    obtain ⟨ts, -, hts, rfl⟩ := Token.writes.exists_of_mapM hparts
    exact ⟨ts, hts, rfl⟩

/-- A body is split into tokens in one way only. -/
theorem flatMap_bytes_injective : Function.Injective (List.flatMap Token.bytes) :=
  fun _ _ => Token.selfDelimiting.flatMap_injective Token.bytes_ne_nil

/-- Every push in the bytes of a script has the form that is written for it. -/
def PushesCanonical (raw : Bytes) : Prop :=
  ∀ ts : List Token, ts.flatMap Token.bytes = raw → ∀ t ∈ ts, t.Canonical

/-- The pushes in the bytes of tokens are those among the tokens. -/
theorem pushesCanonical_iff {ts : List Token} :
    PushesCanonical (ts.flatMap Token.bytes) ↔ ∀ t ∈ ts, t.Canonical :=
  forall_layout_iff flatMap_bytes_injective

/-- A script is written to the bytes that it is made of exactly when every push in them has the form
    that is written for it. -/
theorem body_eq_ok_iff_of_ofRaw {raw : Bytes} {s : Script} (h : ofRaw raw = .ok s) :
    s.body = .ok raw ↔ PushesCanonical raw := by
  obtain ⟨ts, rfl, rfl⟩ := ofRaw_eq_ok_iff.mp h
  rw [pushesCanonical_iff]
  exact writes_body.write_eq_ok_iff flatMap_bytes_injective

/-- What is written is no longer than what was read. -/
theorem length_body_le {ts : List Token} {bs : Bytes} (h : body (ts.map Token.command) = .ok bs) :
    bs.length ≤ (ts.flatMap Token.bytes).length := by
  obtain ⟨parts, hparts, rfl⟩ := body_eq_ok_iff.mp h
  clear h
  induction ts generalizing parts with
  | nil =>
      obtain rfl := Except.ok.inj hparts
      exact Nat.le_refl 0
  | cons t ts ih =>
      obtain ⟨first, others, hfirst, hothers, rfl⟩ := Except.mapM_cons_eq_ok_iff.mp hparts
      rw [List.flatten_cons, List.flatMap_cons, List.length_append, List.length_append]
      exact Nat.add_le_add (Token.length_le_of_bytes hfirst) (ih others hothers)

/-- A script is written when its body is, with the length in front. -/
theorem bytes_eq_ok_iff {s : Script} {bs : Bytes} : s.bytes = .ok bs ↔
    ∃ front, s.body = .ok front ∧ bs = CompactSize.encode front.length ++ front := by
  refine Except.bind_eq_ok_iff.trans ⟨?_, ?_⟩
  · rintro ⟨front, hbody, h⟩
    exact ⟨front, hbody, (Except.ok.inj h).symm⟩
  · rintro ⟨front, hbody, rfl⟩
    exact ⟨front, hbody, rfl⟩

/-- A script on the wire: the form of its length, and its tokens. -/
@[ext]
structure Layout where
  size : CompactSize.Form
  tokens : List Token
  size_eq : size.value = (tokens.flatMap Token.bytes).length

namespace Layout

/-- The script that is read. -/
def script (l : Layout) : Script := l.tokens.map Token.command

/-- The bytes on the wire. -/
def bytes (l : Layout) : Bytes := l.size.bytes ++ l.tokens.flatMap Token.bytes

/-- The length in its shortest form, and every push in the form that is written for it. -/
structure Canonical (l : Layout) : Prop where
  size : l.size.Shortest
  tokens : ∀ t ∈ l.tokens, t.Canonical

/-- What is read as a script is a length and tokens of that length. -/
theorem takes_read : Script.read.Takes script bytes := by
  intro input rest s
  refine Reader.bind_eq_ok_iff.trans ⟨?_, ?_⟩
  · rintro ⟨n, middle, hn, h⟩
    obtain ⟨size, rfl, rfl⟩ := CompactSize.takes_read.mp hn
    obtain ⟨ts, rfl, hlength, rfl⟩ := readFrom_eq_ok_iff.mp h
    rw [Nat.zero_add] at hlength
    exact ⟨⟨size, ts, hlength.symm⟩, rfl, (List.append_assoc _ _ _).symm⟩
  · rintro ⟨⟨size, ts, hsize⟩, rfl, rfl⟩
    refine ⟨size.value, ts.flatMap Token.bytes ++ rest, ?_, ?_⟩
    · exact CompactSize.takes_read.mpr ⟨size, rfl, List.append_assoc _ _ _⟩
    · exact readFrom_eq_ok_iff.mpr ⟨ts, rfl, (Nat.zero_add _).trans hsize.symm, rfl⟩

/-- The length says where a script ends, so it can be told from what is behind it. -/
theorem selfDelimiting : SelfDelimiting bytes := by
  rintro ⟨size, ts, hsize⟩ ⟨size', ts', hsize'⟩ r r' h
  have happend : size.bytes ++ (ts.flatMap Token.bytes ++ r)
      = size'.bytes ++ (ts'.flatMap Token.bytes ++ r') := by
    rw [← List.append_assoc, ← List.append_assoc]
    exact h
  obtain ⟨rfl, hrest⟩ := CompactSize.Form.selfDelimiting happend
  obtain ⟨hts, rfl⟩ := List.append_inj hrest (hsize.symm.trans hsize')
  obtain rfl := flatMap_bytes_injective hts
  exact ⟨rfl, rfl⟩

/-- Tokens that are not too many have a length in its shortest form. -/
theorem exists_of_tokens {ts : List Token} (hts : ∀ t ∈ ts, t.Canonical)
    (hlt : (ts.flatMap Token.bytes).length < 2 ^ 64) :
    ∃ l : Layout, l.Canonical ∧ l.tokens = ts := by
  obtain ⟨size, hsize, hshort⟩ := CompactSize.Form.exists_shortest hlt
  exact ⟨⟨size, ts, hsize⟩, ⟨hshort, hts⟩, rfl⟩

/-- The bytes of a layout in the form that is written. -/
theorem bytes_of_canonical {l : Layout} (hl : l.Canonical) : l.bytes
    = CompactSize.encode (l.tokens.flatMap Token.bytes).length ++ l.tokens.flatMap Token.bytes := by
  rw [bytes, CompactSize.Form.shortest_iff.mp hl.size, l.size_eq]

/-- A script with its length in front is written back as it was when both are in the forms that are
    written. -/
theorem writes : Writes Script.bytes script bytes Canonical where
  write_value := fun hl =>
    bytes_eq_ok_iff.mpr ⟨_, writes_body.write_value hl.tokens, bytes_of_canonical hl⟩
  exists_chosen := by
    intro k bs h
    obtain ⟨front, hbody, rfl⟩ := bytes_eq_ok_iff.mp h
    obtain ⟨ts, hts, rfl⟩ := writes_body.exists_chosen hbody
    have hlt : (ts.flatMap Token.bytes).length < 2 ^ 64 := by
      refine Nat.lt_of_le_of_lt (length_body_le hbody) ?_
      rw [← k.size_eq]
      exact k.size.value_lt
    obtain ⟨l, hl, rfl⟩ := exists_of_tokens hts hlt
    exact ⟨l, hl, bytes_of_canonical hl⟩

end Layout

/-- Whether every command is read back as it is written. -/
def Canonical (s : Script) : Prop := ∀ c ∈ s, c.Canonical

instance (s : Script) : Decidable s.Canonical :=
  inferInstanceAs (Decidable (∀ c ∈ s, c.Canonical))

/-- Whether every command can be written. -/
def Writable (s : Script) : Prop := ∀ c ∈ s, c.Writable

instance (s : Script) : Decidable s.Writable :=
  inferInstanceAs (Decidable (∀ c ∈ s, c.Writable))

theorem Canonical.writable {s : Script} (h : s.Canonical) : s.Writable :=
  fun c hc => (h c hc).writable

/-- A body can be written exactly when every command in it can. -/
theorem exists_body_iff {s : Script} : (∃ bs, s.body = .ok bs) ↔ s.Writable := by
  have hparts : (∃ parts, s.mapM Command.bytes = .ok parts) ↔ s.Writable :=
    Except.exists_mapM_eq_ok_iff.trans (forall₂_congr fun _ _ => Command.exists_bytes_iff)
  rw [← hparts]
  constructor
  · rintro ⟨bs, h⟩
    obtain ⟨parts, hparts, -⟩ := body_eq_ok_iff.mp h
    exact ⟨parts, hparts⟩
  · rintro ⟨parts, hparts⟩
    exact ⟨parts.flatten, body_eq_ok_iff.mpr ⟨parts, hparts, rfl⟩⟩

/-- A script is written unless one of its pushes is too long. -/
theorem exists_bytes_iff {s : Script} : (∃ bs, s.bytes = .ok bs) ↔ s.Writable := by
  rw [← exists_body_iff]
  constructor
  · rintro ⟨bs, h⟩
    obtain ⟨front, hbody, -⟩ := bytes_eq_ok_iff.mp h
    exact ⟨front, hbody⟩
  · rintro ⟨front, hbody⟩
    exact ⟨_, bytes_eq_ok_iff.mpr ⟨front, hbody, rfl⟩⟩

/-- A command weighs no more than the script that it is in. -/
theorem weight_le_of_mem {s : Script} {c : Command} (h : c ∈ s) : c.weight ≤ weight s := by
  induction s with
  | nil => exact nomatch h
  | cons d s ih =>
      rw [weight]
      rcases List.mem_cons.mp h with rfl | h
      · exact Nat.le_add_right _ _
      · exact Nat.le_trans (ih h) (Nat.le_add_left _ _)

/-- No push in a script is longer than the bytes that the script is made of. -/
theorem writable_of_ofRaw {raw : Bytes} {s : Script} (h : ofRaw raw = .ok s)
    (hlength : raw.length ≤ maxPushSize) : s.Writable := by
  intro c hc
  have hweight := Nat.le_trans (weight_le_of_mem hc) (weight_ofRaw h)
  cases c with
  | op code => trivial
  | data content =>
      rw [Command.weight] at hweight
      show content.length ≤ maxPushSize
      omega

/-- A script whose bytes can be counted has a layout in the forms that are written. -/
theorem Canonical.exists_layout {s : Script} (h : s.Canonical)
    (hlt : ∀ bs, s.body = .ok bs → bs.length < 2 ^ 64) :
    ∃ l : Layout, l.Canonical ∧ l.script = s := by
  obtain ⟨ts, hts, rfl⟩ := exists_map_eq fun c hc => Token.exists_canonical (h c hc)
  obtain ⟨l, hl, rfl⟩ := Layout.exists_of_tokens hts (hlt _ (writes_body.write_value hts))
  exact ⟨l, hl, rfl⟩

end Script

end Bitcoin
