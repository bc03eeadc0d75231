import Bitcoin.Proofs.Wire.Script

/-!
# Scripts there and back

A script is written unless it has a push that is too long, and the first such push is the error. It
is read back as it was exactly when each of its commands is: an opcode that announces a push is
taken for one, and a push of nothing comes back as an opcode. The other way round the bytes determine the
tokens that they are made of, and each token is written by itself; so bytes that are read are
written back as they were exactly when each of their pushes has the form that is written for it, and
no shorter form in one place is made up for in another.

* **`body_eq_error_iff`**: the error for a script that is not written.
* **`exists_body_ofRaw_iff`**: the scripts that are read back as they were.
* **`body_of_ofRaw`**: the bytes that are written back as they were, and those that are not written.
-/

namespace Bitcoin.Script

/-! ## Writing and reading back -/

theorem writable_iff {s : Script} :
    s.Writable ↔ ∀ content, .data content ∈ s → content.length ≤ maxPushSize := by
  constructor
  · intro h content hmem
    exact h _ hmem
  · intro h c hmem
    cases c with
    | op code => trivial
    | data content => exact h content hmem

theorem canonical_iff {s : Script} :
    s.Canonical ↔ (∀ code, .op code ∈ s → ¬(1 ≤ code ∧ code ≤ Opcode.pushData2)) ∧
      ∀ content, .data content ∈ s → 1 ≤ content.length ∧ content.length ≤ maxPushSize := by
  constructor
  · intro h
    exact ⟨fun code hmem => h _ hmem, fun content hmem => h _ hmem⟩
  · rintro ⟨hop, hdata⟩ c hmem
    cases c with
    | op code => exact hop code hmem
    | data content => exact hdata content hmem

/-- A script is not written when one of its pushes is too long, and the first of these is the
    error. -/
theorem body_eq_error_iff {s : Script} {e : Error} : s.body = .error e ↔
    ∃ front content back, s = front ++ .data content :: back ∧ Writable front ∧
      maxPushSize < content.length ∧ e = .pushTooLong content.length := by
  have hbody : s.body = .error e ↔ s.mapM Command.bytes = .error e :=
    Except.bind_eq_error_iff.trans (or_iff_left fun ⟨_, _, h⟩ => nomatch h)
  rw [hbody, Except.mapM_eq_error_iff]
  constructor
  · rintro ⟨front, c, back, rfl, hfront, hc⟩
    obtain ⟨content, rfl, hlong, rfl⟩ := Command.bytes_eq_error_iff.mp hc
    have hwritable : Writable front := fun c hc => Command.exists_bytes_iff.mp (hfront c hc)
    exact ⟨front, content, back, rfl, hwritable, hlong, rfl⟩
  · rintro ⟨front, content, back, rfl, hfront, hlong, rfl⟩
    have hbytes : ∀ c ∈ front, ∃ bs, c.bytes = .ok bs :=
      fun c hc => Command.exists_bytes_iff.mpr (hfront c hc)
    exact ⟨front, .data content, back, rfl, hbytes, Command.bytes_data_of_lt hlong⟩

/-- A script is read back as it was exactly when each of its commands is. -/
theorem exists_body_ofRaw_iff {s : Script} :
    (∃ bs, s.body = .ok bs ∧ ofRaw bs = .ok s) ↔ s.Canonical := by
  constructor
  · rintro ⟨bs, hbody, hraw⟩
    -- the tokens that are read are written as they are, so each is in the form for its push
    obtain ⟨ts, rfl, rfl⟩ := ofRaw_eq_ok_iff.mp hraw
    have hts := (writes_body.write_eq_ok_iff flatMap_bytes_injective).mp hbody
    exact List.forall_mem_map.mpr fun t ht => (hts t ht).command
  · intro hs
    obtain ⟨ts, hts, rfl⟩ := exists_map_eq fun c hc => Token.exists_canonical (hs c hc)
    exact ⟨_, writes_body.write_value hts, ofRaw_eq_ok_iff.mpr ⟨ts, rfl, rfl⟩⟩

/-- A script is written exactly when each of its pushes has at most 520 bytes, and the first that is
    longer is the error otherwise. It is read back as it was exactly when besides no opcode announces
    a push and no push is empty. -/
theorem ofRaw_body (s : Script) :
    ((∃ bs, s.body = .ok bs) ↔ ∀ content, .data content ∈ s → content.length ≤ 520) ∧
    (∀ e, s.body = .error e ↔ ∃ front content back, s = front ++ .data content :: back ∧
      (∀ shorter, .data shorter ∈ front → shorter.length ≤ 520) ∧ 520 < content.length ∧
        e = .pushTooLong content.length) ∧
    ((∃ bs, s.body = .ok bs ∧ ofRaw bs = .ok s) ↔
      (∀ code, .op code ∈ s → ¬(1 ≤ code ∧ code ≤ 77)) ∧
        ∀ content, .data content ∈ s → 1 ≤ content.length ∧ content.length ≤ 520) := by
  refine ⟨exists_body_iff.trans writable_iff, fun e => ?_,
    exists_body_ofRaw_iff.trans canonical_iff⟩
  simp only [body_eq_error_iff, writable_iff]
  rfl

/-- An opcode that announces a push takes what is behind it for the bytes to push. -/
example : body [.op 0x01, .op Opcode.pushOne] = .ok [0x01, 0x51] ∧
    ofRaw [0x01, 0x51] = .ok [.data [0x51]] := by
  decide +kernel

/-! ## Reading and writing back -/

/-- Every token is in the form that is written for its push when none is announced with more bytes
    than it needs and none is too long. -/
theorem forall_canonical_iff {ts : List Token} : (∀ t ∈ ts, t.Canonical) ↔
    (∀ content hfits, .push .data1 content hfits ∈ ts → 75 < content.length) ∧
      ∀ content hfits, .push .data2 content hfits ∈ ts →
        255 < content.length ∧ content.length ≤ maxPushSize := by
  constructor
  · intro h
    exact ⟨fun content hfits hmem => (h _ hmem).1, fun content hfits hmem => h _ hmem⟩
  · rintro ⟨hdata1, hdata2⟩ t hmem
    cases t with
    | op code hcode => trivial
    | push form content hfits =>
        cases form with
        | direct => exact hfits
        | data1 => exact ⟨hdata1 content hfits hmem, Nat.le_of_lt_succ hfits⟩
        | data2 => exact hdata2 content hfits hmem

/-- A script is not written when one of the tokens that it is made of pushes too much. -/
theorem exists_body_error_iff {ts : List Token} :
    (∃ e, body (ts.map Token.command) = .error e) ↔
      ∃ form content hfits, .push form content hfits ∈ ts ∧ maxPushSize < content.length := by
  constructor
  · rintro ⟨e, h⟩
    obtain ⟨front, content, back, hts, -, hlong, -⟩ := body_eq_error_iff.mp h
    have hmem : .data content ∈ ts.map Token.command := by
      rw [hts]
      exact List.mem_append_right front List.mem_cons_self
    obtain ⟨t, ht, hcommand⟩ := List.mem_map.mp hmem
    cases t with
    | op code hcode => exact nomatch hcommand
    | push form content' hfits =>
        obtain rfl := Command.data.inj hcommand
        exact ⟨form, content', hfits, ht, hlong⟩
  · rintro ⟨form, content, hfits, hmem, hlong⟩
    cases hbody : body (ts.map Token.command) with
    | error e => exact ⟨e, rfl⟩
    | ok bs =>
        have hwritable := writable_iff.mp (exists_body_iff.mp ⟨bs, hbody⟩) content
          (List.mem_map.mpr ⟨_, hmem, rfl⟩)
        exact absurd hlong (Nat.not_lt_of_le hwritable)

/-- Bytes that are read as a script are made of tokens in exactly one way. The script is written to
    these bytes exactly when no push in them is announced with more bytes than it needs and none is
    too long, and it is not written at all exactly when one of them is too long. -/
theorem body_of_ofRaw {raw : Bytes} {s : Script} (h : ofRaw raw = .ok s) : ∃ ts : List Token,
    (ts.map Token.command = s ∧ ts.flatMap Token.bytes = raw ∧
      ∀ us : List Token, us.flatMap Token.bytes = raw → us = ts) ∧
    (s.body = .ok raw ↔
      (∀ content hfits, .push .data1 content hfits ∈ ts → 75 < content.length) ∧
        ∀ content hfits, .push .data2 content hfits ∈ ts →
          255 < content.length ∧ content.length ≤ 520) ∧
    ((∃ e, s.body = .error e) ↔
      ∃ form content hfits, .push form content hfits ∈ ts ∧ 520 < content.length) := by
  obtain ⟨ts, rfl, rfl⟩ := ofRaw_eq_ok_iff.mp h
  refine ⟨ts, ⟨rfl, rfl, fun us hus => flatMap_bytes_injective hus⟩, ?_, exists_body_error_iff⟩
  exact (writes_body.write_eq_ok_iff flatMap_bytes_injective).trans forall_canonical_iff

/-- Two bytes that are announced with an opcode and two more, and an opcode. -/
def announcedTokens : List Token :=
  [.push .data2 [0x51, 0x51] (by decide), .op Opcode.checkSig (by decide)]

/-- What is announced with more bytes than it needs is written, but not as it was. -/
theorem body_of_ofRaw_announced :
    ofRaw [0x4d, 0x02, 0x00, 0x51, 0x51, 0xac] = .ok [.data [0x51, 0x51], .op Opcode.checkSig] ∧
      body [.data [0x51, 0x51], .op Opcode.checkSig] ≠ .ok [0x4d, 0x02, 0x00, 0x51, 0x51, 0xac] ∧
      ¬∃ e, body [.data [0x51, 0x51], .op Opcode.checkSig] = .error e := by
  have hread : ofRaw [0x4d, 0x02, 0x00, 0x51, 0x51, 0xac]
      = .ok [.data [0x51, 0x51], .op Opcode.checkSig] :=
    ofRaw_eq_ok_iff.mpr ⟨announcedTokens, rfl, rfl⟩
  obtain ⟨ts, ⟨-, -, hunique⟩, hok, herror⟩ := body_of_ofRaw hread
  obtain rfl : announcedTokens = ts := hunique announcedTokens rfl
  refine ⟨hread, fun hbody => ?_, fun hfails => ?_⟩
  · have hlong := (hok.mp hbody).2 [0x51, 0x51] (by decide) List.mem_cons_self
    exact absurd hlong.1 (by decide)
  · obtain ⟨form, content, hfits, hmem, hlong⟩ := herror.mp hfails
    rcases List.mem_cons.mp hmem with hpush | hmem
    · obtain ⟨-, rfl⟩ := Token.push.inj hpush
      exact absurd hlong (by decide)
    · exact nomatch List.mem_singleton.mp hmem

end Bitcoin.Script
