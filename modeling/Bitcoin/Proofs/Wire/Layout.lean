import Bitcoin.Bytes.Reader
import Bitcoin.Proofs.Bind
import Bitcoin.Proofs.Bytes.Numeral

/-!
# Layouts

A wire format can lay the same value out in more than one way. A layout says which way was taken,
and it has its bytes and the value that they stand for. A reader `Takes` the layouts when it
succeeds exactly on the bytes of one of them with anything behind, gives the value, and leaves what
is behind. The bytes are `SelfDelimiting` when they can be told from what is behind them. A writer
`Writes` the layouts that it would choose itself: it writes the value of such a layout as it is laid
out, and whatever it makes of another layout is the bytes of such a one.

* **`number_eq_ok_iff`**, **`fixed_eq_ok_iff`**: the readers that the others are made of.
* **`Takes.replicate`**, **`SelfDelimiting.flatMap`**, **`Writes.mapM`**: items one after the other.
* **`Writes.write_eq_ok_iff`**: which layouts are written back as they are.
-/

namespace Bitcoin

/-- So many bytes hold a number below the power of 256. -/
theorem leValue_lt (bs : Bytes) : leValue bs < 256 ^ bs.length := by
  have h := leValue_leFixed bs.length (leValue bs)
  rw [leFixed_leValue] at h
  rw [h]
  exact Nat.mod_lt _ (Nat.pow_pos (by decide))

/-- A number that fits into the bytes is read back. -/
theorem leValue_leFixed_of_lt {w n : Nat} (h : n < 256 ^ w) : leValue (leFixed w n) = n := by
  rw [leValue_leFixed, Nat.mod_eq_of_lt h]

namespace Reader

variable {input rest : Bytes}

theorem byte_eq_ok_iff {b : UInt8} : byte input = .ok (b, rest) ↔ input = b :: rest := by
  cases input with
  | nil =>
      constructor
      · intro h
        exact nomatch h
      · intro h
        exact nomatch h
  | cons c tail =>
      show Except.ok (c, tail) = .ok (b, rest) ↔ _
      rw [Except.ok.injEq, Prod.mk.injEq, List.cons.injEq]

theorem bytes_eq_ok_iff {n : Nat} {front : Bytes} :
    bytes n input = .ok (front, rest) ↔ front.length = n ∧ input = front ++ rest := by
  constructor
  · exact length_of_bytes
  · rintro ⟨rfl, rfl⟩
    exact bytes_append front rest

theorem fixed_eq_ok_iff {n : Nat} {b : FixedBytes n} :
    fixed n input = .ok (b, rest) ↔ input = b.toBytes ++ rest := by
  rw [fixed]
  constructor
  · intro h
    split at h
    · obtain ⟨rfl, rfl⟩ := Prod.mk.inj (Except.ok.inj h)
      exact (List.take_append_drop n input).symm
    · exact nomatch h
  · rintro rfl
    have htake : (b.toBytes ++ rest).take n = b.toBytes := List.take_left' b.length_toBytes
    have hdrop : (b.toBytes ++ rest).drop n = rest := List.drop_left' b.length_toBytes
    have hlength := (congrArg List.length htake).trans b.length_toBytes
    rw [dif_pos hlength, hdrop]
    exact congrArg (fun b' => Except.ok (b', rest)) (FixedBytes.ext htake)

/-- A number is read from exactly the bytes that are written for it. -/
theorem number_eq_ok_iff {w n : Nat} :
    number w input = .ok (n, rest) ↔ n < 256 ^ w ∧ input = leFixed w n ++ rest := by
  constructor
  · intro h
    obtain ⟨bs, middle, hbs, hn⟩ := bind_eq_ok_iff.mp h
    obtain ⟨rfl, rfl⟩ := bytes_eq_ok_iff.mp hbs
    obtain ⟨rfl, rfl⟩ := pure_eq_ok_iff.mp hn
    refine ⟨leValue_lt bs, ?_⟩
    rw [leFixed_leValue]
  · rintro ⟨hn, rfl⟩
    refine bind_eq_ok_iff.mpr ⟨leFixed w n, rest, bytes_eq_ok_iff.mpr ⟨length_leFixed w n, rfl⟩, ?_⟩
    exact pure_eq_ok_iff.mpr ⟨leValue_leFixed_of_lt hn, rfl⟩

/-- The words of a type are the numbers that `w` bytes denote. -/
structure IsWord {ω : Type} (w : Nat) (ofNat : Nat → ω) (toNat : ω → Nat) : Prop where
  toNat_lt : ∀ x, toNat x < 256 ^ w
  ofNat_toNat : ∀ x, ofNat (toNat x) = x
  toNat_ofNat : ∀ {n}, n < 256 ^ w → toNat (ofNat n) = n

/-- Words of 32 bits take four bytes. -/
theorem isWord_uint32 : IsWord 4 UInt32.ofNat UInt32.toNat where
  toNat_lt := UInt32.toNat_lt
  ofNat_toNat _ := UInt32.ofNat_toNat
  toNat_ofNat := UInt32.toNat_ofNat_of_lt'

/-- Words of 64 bits take eight bytes. -/
theorem isWord_uint64 : IsWord 8 UInt64.ofNat UInt64.toNat where
  toNat_lt := UInt64.toNat_lt
  ofNat_toNat _ := UInt64.ofNat_toNat
  toNat_ofNat := UInt64.toNat_ofNat_of_lt'

/-- A word is read from the bytes of its number. -/
theorem IsWord.word_eq_ok_iff {ω : Type} {w : Nat} {ofNat : Nat → ω} {toNat : ω → Nat}
    (h : IsWord w ofNat toNat) {x : ω} :
    word w ofNat input = .ok (x, rest) ↔ input = leFixed w (toNat x) ++ rest := by
  constructor
  · intro hread
    obtain ⟨n, middle, hn, hx⟩ := bind_eq_ok_iff.mp hread
    obtain ⟨hlt, rfl⟩ := number_eq_ok_iff.mp hn
    obtain ⟨rfl, rfl⟩ := pure_eq_ok_iff.mp hx
    rw [h.toNat_ofNat hlt]
  · rintro rfl
    refine bind_eq_ok_iff.mpr ⟨toNat x, rest, number_eq_ok_iff.mpr ⟨h.toNat_lt x, rfl⟩, ?_⟩
    exact pure_eq_ok_iff.mpr ⟨h.ofNat_toNat x, rfl⟩

variable {α ι : Type} {r : Reader α} {value : ι → α} {bytes : ι → Bytes}

/-- Succeeds exactly on the bytes of a layout with anything behind, gives the value of the layout,
    and leaves what is behind. -/
def Takes (r : Reader α) (value : ι → α) (bytes : ι → Bytes) : Prop :=
  ∀ {input rest : Bytes} {a : α},
    r input = .ok (a, rest) ↔ ∃ l, value l = a ∧ input = bytes l ++ rest

/-- The layouts of words are the words themselves. -/
theorem IsWord.takes {ω : Type} {w : Nat} {ofNat : Nat → ω} {toNat : ω → Nat}
    (h : IsWord w ofNat toNat) : (word w ofNat).Takes id fun x => leFixed w (toNat x) := by
  intro input rest x
  refine h.word_eq_ok_iff.trans ⟨fun hx => ⟨x, rfl, hx⟩, ?_⟩
  rintro ⟨x, rfl, hx⟩
  exact hx

/-- Items one after the other are read when each is. -/
theorem Takes.replicate (hr : r.Takes value bytes) {n : Nat} {as : List α} :
    Reader.replicate r n input = .ok (as, rest) ↔
      ∃ ls : List ι, ls.length = n ∧ ls.map value = as ∧ input = ls.flatMap bytes ++ rest := by
  induction n generalizing input as with
  | zero =>
      refine pure_eq_ok_iff.trans ⟨?_, ?_⟩
      · rintro ⟨rfl, rfl⟩
        exact ⟨[], rfl, rfl, rfl⟩
      · rintro ⟨ls, hlength, rfl, rfl⟩
        obtain rfl := List.length_eq_zero_iff.mp hlength
        exact ⟨rfl, rfl⟩
  | succ n ih =>
      refine bind_eq_ok_iff.trans ⟨?_, ?_⟩
      · rintro ⟨a, middle, ha, h⟩
        obtain ⟨others, last, hothers, h⟩ := bind_eq_ok_iff.mp h
        obtain ⟨rfl, rfl⟩ := pure_eq_ok_iff.mp h
        obtain ⟨l, rfl, rfl⟩ := hr.mp ha
        obtain ⟨ls, rfl, rfl, rfl⟩ := ih.mp hothers
        exact ⟨l :: ls, rfl, rfl, by rw [List.flatMap_cons, List.append_assoc]⟩
      · rintro ⟨ls, hlength, rfl, rfl⟩
        cases ls with
        | nil => exact nomatch hlength
        | cons l ls =>
            refine ⟨value l, ls.flatMap bytes ++ rest, hr.mpr ⟨l, rfl, ?_⟩, ?_⟩
            · rw [List.flatMap_cons, List.append_assoc]
            · refine bind_eq_ok_iff.mpr ⟨ls.map value, rest, ih.mpr ⟨ls, ?_, rfl, rfl⟩, ?_⟩
              · exact Nat.succ.inj hlength
              · exact pure_eq_ok_iff.mpr ⟨rfl, rfl⟩

end Reader

/-- The bytes of a layout can be told from what is behind them. -/
def SelfDelimiting {ι : Type} (bytes : ι → Bytes) : Prop :=
  ∀ {k l : ι} {r s : Bytes}, bytes k ++ r = bytes l ++ s → k = l ∧ r = s

namespace SelfDelimiting

variable {ι : Type} {bytes : ι → Bytes}

/-- Bytes that can be told from what is behind them are the bytes of one value. -/
theorem injective (h : SelfDelimiting bytes) : Function.Injective bytes :=
  fun _ _ hbytes => (h (congrArg (· ++ []) hbytes)).1

/-- As many items on both sides are the same items. -/
theorem flatMap (h : SelfDelimiting bytes) {ks ls : List ι} {r s : Bytes}
    (hlength : ks.length = ls.length) (hbytes : ks.flatMap bytes ++ r = ls.flatMap bytes ++ s) :
    ks = ls ∧ r = s := by
  induction ks generalizing ls with
  | nil =>
      obtain rfl := List.length_eq_zero_iff.mp hlength.symm
      exact ⟨rfl, hbytes⟩
  | cons k ks ih =>
      cases ls with
      | nil => exact nomatch hlength
      | cons l ls =>
          rw [List.flatMap_cons, List.flatMap_cons, List.append_assoc, List.append_assoc] at hbytes
          obtain ⟨rfl, hrest⟩ := h hbytes
          obtain ⟨rfl, rfl⟩ := ih (Nat.succ.inj hlength) hrest
          exact ⟨rfl, rfl⟩

/-- Items that are not empty are known from their bytes, however many there are. -/
theorem flatMap_injective (h : SelfDelimiting bytes) (hne : ∀ l, bytes l ≠ []) {ks ls : List ι}
    (hbytes : ks.flatMap bytes = ls.flatMap bytes) : ks = ls := by
  induction ks generalizing ls with
  | nil =>
      cases ls with
      | nil => rfl
      | cons l ls => exact absurd (List.append_eq_nil_iff.mp hbytes.symm).1 (hne l)
  | cons k ks ih =>
      cases ls with
      | nil => exact absurd (List.append_eq_nil_iff.mp hbytes).1 (hne k)
      | cons l ls =>
          obtain ⟨rfl, hrest⟩ := h hbytes
          rw [ih hrest]

end SelfDelimiting

/-- What holds of every layout of some bytes holds of the only one that has them. -/
theorem forall_layout_iff {ι : Type} {bytes : ι → Bytes} {P : ι → Prop}
    (hinj : Function.Injective bytes) {l : ι} : (∀ k, bytes k = bytes l → P k) ↔ P l := by
  constructor
  · intro h
    exact h l rfl
  · intro h k hk
    obtain rfl := hinj hk
    exact h

/-- What is read is known from its bytes, so a layout can be told from what is behind it when it is
    known from its value and its size. -/
theorem Reader.Takes.selfDelimiting {α ι : Type} {r : Reader α} {value : ι → α}
    {bytes : ι → Bytes} (hr : r.Takes value bytes)
    (hsize : ∀ {k l}, value k = value l → (bytes k).length = (bytes l).length → k = l) :
    SelfDelimiting bytes := by
  intro k l rest last h
  have hk : r (bytes l ++ last) = .ok (value k, rest) := hr.mpr ⟨k, rfl, h.symm⟩
  have hl : r (bytes l ++ last) = .ok (value l, last) := hr.mpr ⟨l, rfl, rfl⟩
  obtain ⟨hvalue, rfl⟩ := Prod.mk.inj (Except.ok.inj (hk.symm.trans hl))
  have hbytes : bytes k = bytes l := List.append_cancel_right h
  exact ⟨hsize hvalue (congrArg List.length hbytes), rfl⟩

/-- Words can be told from what is behind them. -/
theorem Reader.IsWord.selfDelimiting {ω : Type} {w : Nat} {ofNat : Nat → ω} {toNat : ω → Nat}
    (h : IsWord w ofNat toNat) : SelfDelimiting fun x => leFixed w (toNat x) :=
  Takes.selfDelimiting h.takes fun hvalue _ => hvalue

/-- Values that each have a layout of some kind have layouts one after the other. -/
theorem exists_map_eq {α ι : Type} {value : ι → α} {chosen : ι → Prop} {as : List α}
    (h : ∀ a ∈ as, ∃ l, chosen l ∧ value l = a) :
    ∃ ls : List ι, (∀ l ∈ ls, chosen l) ∧ ls.map value = as := by
  induction as with
  | nil => exact ⟨[], fun l hl => (nomatch hl), rfl⟩
  | cons a as ih =>
      obtain ⟨⟨l, hl, rfl⟩, hrest⟩ := List.forall_mem_cons.mp h
      obtain ⟨ls, hls, rfl⟩ := ih hrest
      exact ⟨l :: ls, List.forall_mem_cons.mpr ⟨hl, hls⟩, rfl⟩

/-- Writes the value of a layout of its choice as it is laid out, and whatever it makes of another
    layout is the bytes of a layout of its choice. -/
structure Writes {α ι : Type} (write : α → Except Error Bytes) (value : ι → α) (bytes : ι → Bytes)
    (chosen : ι → Prop) : Prop where
  write_value : ∀ {l}, chosen l → write (value l) = .ok (bytes l)
  exists_chosen : ∀ {k bs}, write (value k) = .ok bs → ∃ l, chosen l ∧ bytes l = bs

/-- A list is done when its first item is and the others are. -/
theorem Except.mapM_cons_eq_ok_iff {ε α β : Type} {f : α → Except ε β} {a : α} {as : List α}
    {bs : List β} : (a :: as).mapM f = .ok bs ↔
      ∃ b rest, f a = .ok b ∧ as.mapM f = .ok rest ∧ bs = b :: rest := by
  rw [List.mapM_cons]
  refine Except.bind_eq_ok_iff.trans ⟨?_, ?_⟩
  · rintro ⟨b, hb, h⟩
    obtain ⟨rest, hrest, hbs⟩ := Except.bind_eq_ok_iff.mp h
    exact ⟨b, rest, hb, hrest, (Except.ok.inj hbs).symm⟩
  · rintro ⟨b, rest, hb, hrest, rfl⟩
    exact ⟨b, hb, Except.bind_eq_ok_iff.mpr ⟨rest, hrest, rfl⟩⟩

/-- Items one after the other are handled when each can be. -/
theorem Except.exists_mapM_eq_ok_iff {ε α β : Type} {f : α → Except ε β} {as : List α} :
    (∃ bs, as.mapM f = .ok bs) ↔ ∀ a ∈ as, ∃ b, f a = .ok b := by
  induction as with
  | nil =>
      constructor
      · intro _ a ha
        exact nomatch ha
      · intro _
        exact ⟨[], rfl⟩
  | cons a as ih =>
      rw [List.forall_mem_cons, ← ih]
      constructor
      · rintro ⟨bs, h⟩
        obtain ⟨b, rest, hb, hrest, rfl⟩ := mapM_cons_eq_ok_iff.mp h
        exact ⟨⟨b, hb⟩, rest, hrest⟩
      · rintro ⟨⟨b, hb⟩, rest, hrest⟩
        exact ⟨b :: rest, mapM_cons_eq_ok_iff.mpr ⟨b, rest, hb, hrest, rfl⟩⟩

/-- A list fails at its first item, or in the others when the first is done. -/
theorem Except.mapM_cons_eq_error_iff {ε α β : Type} {f : α → Except ε β} {a : α} {as : List α}
    {e : ε} : (a :: as).mapM f = .error e ↔
      f a = .error e ∨ (∃ b, f a = .ok b) ∧ as.mapM f = .error e := by
  rw [List.mapM_cons]
  refine Except.bind_eq_error_iff.trans (or_congr_right ⟨?_, ?_⟩)
  · rintro ⟨b, hb, h⟩
    refine ⟨⟨b, hb⟩, (Except.bind_eq_error_iff.mp h).resolve_right ?_⟩
    rintro ⟨bs, -, hbs⟩
    exact nomatch hbs
  · rintro ⟨⟨b, hb⟩, h⟩
    exact ⟨b, hb, Except.bind_eq_error_iff.mpr (.inl h)⟩

/-- Items one after the other fail as the first of them does that cannot be handled. -/
theorem Except.mapM_eq_error_iff {ε α β : Type} {f : α → Except ε β} {as : List α} {e : ε} :
    as.mapM f = .error e ↔ ∃ front a back, as = front ++ a :: back ∧
      (∀ x ∈ front, ∃ b, f x = .ok b) ∧ f a = .error e := by
  induction as with
  | nil =>
      constructor
      · intro h
        exact nomatch h
      · rintro ⟨front, a, back, h, -⟩
        exact absurd h.symm (List.append_ne_nil_of_right_ne_nil front (List.cons_ne_nil a back))
  | cons a as ih =>
      rw [mapM_cons_eq_error_iff, ih]
      constructor
      · rintro (h | ⟨ha, front, b, back, rfl, hfront, hb⟩)
        · exact ⟨[], a, as, rfl, nofun, h⟩
        · exact ⟨a :: front, b, back, rfl, List.forall_mem_cons.mpr ⟨ha, hfront⟩, hb⟩
      · rintro ⟨front, b, back, h, hfront, hb⟩
        cases front with
        | nil =>
            obtain ⟨rfl, rfl⟩ := List.cons_eq_cons.mp h
            exact .inl hb
        | cons c front =>
            obtain ⟨rfl, rfl⟩ := List.cons_eq_cons.mp h
            obtain ⟨hc, hfront⟩ := List.forall_mem_cons.mp hfront
            exact .inr ⟨hc, front, b, back, rfl, hfront, hb⟩

namespace Writes

variable {α ι : Type} {write : α → Except Error Bytes} {value : ι → α} {bytes : ι → Bytes}
  {chosen : ι → Prop}

/-- The layouts that are written back as they are. -/
theorem write_eq_ok_iff (h : Writes write value bytes chosen) (hinj : Function.Injective bytes)
    {l : ι} : write (value l) = .ok (bytes l) ↔ chosen l := by
  constructor
  · intro hl
    obtain ⟨k, hk, hbytes⟩ := h.exists_chosen hl
    exact hinj hbytes ▸ hk
  · exact h.write_value

/-- Items are written one after the other. -/
theorem mapM (h : Writes write value bytes chosen) {ls : List ι} (hls : ∀ l ∈ ls, chosen l) :
    (ls.map value).mapM write = .ok (ls.map bytes) := by
  induction ls with
  | nil => rfl
  | cons l ls ih =>
      obtain ⟨hl, hls⟩ := List.forall_mem_cons.mp hls
      exact Except.mapM_cons_eq_ok_iff.mpr ⟨_, _, h.write_value hl, ih hls, rfl⟩

/-- What is made of items one after the other is the bytes of as many items. -/
theorem exists_of_mapM (h : Writes write value bytes chosen) {ks : List ι} {bss : List Bytes}
    (hks : (ks.map value).mapM write = .ok bss) :
    ∃ ls : List ι, ls.length = ks.length ∧ (∀ l ∈ ls, chosen l) ∧ ls.map bytes = bss := by
  induction ks generalizing bss with
  | nil =>
      obtain rfl := Except.ok.inj hks
      exact ⟨[], rfl, fun l hl => (nomatch hl), rfl⟩
  | cons k ks ih =>
      obtain ⟨bs, rest, hk, hrest, rfl⟩ := Except.mapM_cons_eq_ok_iff.mp hks
      obtain ⟨l, hl, rfl⟩ := h.exists_chosen hk
      obtain ⟨ls, hlength, hls, rfl⟩ := ih hrest
      exact ⟨l :: ls, congrArg Nat.succ hlength, List.forall_mem_cons.mpr ⟨hl, hls⟩, rfl⟩

end Writes

end Bitcoin
