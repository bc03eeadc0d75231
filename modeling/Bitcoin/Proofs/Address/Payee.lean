import Bitcoin.Proofs.Address.Base58
import Bitcoin.Script.Template

/-!
# Addresses and the scripts that they stand for

The payload of an address is a version byte and a hash. No two networks and no two kinds of payee
share a version byte, so an address is the address of one payee on one network. A standard script is
the script of one payee, for both networks. So an address stands for one standard script, and a
standard script has one address on each network, all with the hash that the script pushes.

* **`Payee.address_eq_iff`**, **`Payee.ofAddress_eq_ok_iff`**: an address is known to be of one payee.
* **`addressHash_address`**: the hash in it.
* **`Script.address?_eq_some_iff`**, **`Script.ofAddress_eq_ok_iff`**: the script of that payee.
* **`Script.ofAddress_iff_address`**: addresses and standard scripts one to one.
-/

namespace Bitcoin

/-! ## Version bytes -/

namespace Network

theorem mem_all (net : Network) : net ∈ all := by
  cases net with
  | main => exact List.mem_cons_self
  | test => exact List.mem_cons_of_mem _ List.mem_cons_self

/-- A version byte is looked up on every network. -/
theorem any_all_iff {version : Network → UInt8} {v : UInt8} :
    (all.any fun net => decide (version net = v)) = true ↔ ∃ net, version net = v := by
  rw [List.any_eq_true]
  constructor
  · rintro ⟨net, -, h⟩
    exact ⟨net, of_decide_eq_true h⟩
  · rintro ⟨net, h⟩
    exact ⟨net, mem_all net, decide_eq_true h⟩

theorem keyHashVersion_injective {net other : Network}
    (h : net.keyHashVersion = other.keyHashVersion) : net = other := by
  revert h
  cases net <;> cases other <;> decide

theorem scriptHashVersion_injective {net other : Network}
    (h : net.scriptHashVersion = other.scriptHashVersion) : net = other := by
  revert h
  cases net <;> cases other <;> decide

theorem keyHashVersion_ne_scriptHashVersion (net other : Network) :
    net.keyHashVersion ≠ other.scriptHashVersion := by
  cases net <;> cases other <;> decide

end Network

namespace Payee

/-- A payee and a network are known from the version byte and the hash. -/
theorem eq_of_version_eq {p q : Payee} {net other : Network}
    (hversion : p.version net = q.version other) (hhash : p.hash = q.hash) :
    p = q ∧ net = other := by
  cases p with
  | keyHash h =>
      cases q with
      | keyHash k => exact ⟨congrArg keyHash hhash, Network.keyHashVersion_injective hversion⟩
      | scriptHash k => exact absurd hversion (Network.keyHashVersion_ne_scriptHashVersion net other)
  | scriptHash h =>
      cases q with
      | keyHash k =>
          exact absurd hversion.symm (Network.keyHashVersion_ne_scriptHashVersion other net)
      | scriptHash k =>
          exact ⟨congrArg scriptHash hhash, Network.scriptHashVersion_injective hversion⟩

/-- The script of a payee pushes the hash and nothing else. -/
theorem data_mem_script_iff {p : Payee} {content : Bytes} :
    .data content ∈ p.script ↔ content = p.hash.toBytes := by
  cases p with
  | keyHash h => simp [script, hash]
  | scriptHash h => simp [script, hash]

/-! ## Addresses -/

section

variable [Digests]

/-- An address is read as its version and the hash in it. -/
theorem decodeChecked_address (p : Payee) (net : Network) :
    Base58.decodeChecked (p.address net) = .ok (p.version net :: p.hash.toBytes) :=
  Base58.decodeChecked_eq_ok_iff.mpr rfl

/-- No two payees share an address, and no payee has the same one on two networks. -/
theorem address_eq_iff {p q : Payee} {net other : Network} :
    p.address net = q.address other ↔ p = q ∧ net = other := by
  constructor
  · intro h
    have hpayload := decodeChecked_address p net
    rw [h, decodeChecked_address, Except.ok.injEq, List.cons_eq_cons] at hpayload
    obtain ⟨hversion, hhash⟩ := hpayload
    exact eq_of_version_eq hversion.symm (FixedBytes.ext hhash.symm)
  · rintro ⟨rfl, rfl⟩
    rfl

/-- A text is read as a payee when it is the address of that payee on one of the networks. -/
theorem ofAddress_eq_ok_iff {text : String} {p : Payee} :
    ofAddress text = .ok p ↔ ∃ net, text = p.address net := by
  refine Except.bind_eq_ok_iff.trans ⟨?_, ?_⟩
  · rintro ⟨payload, hpayload, h⟩
    obtain rfl := Base58.decodeChecked_eq_ok_iff.mp hpayload
    cases payload with
    | nil => exact nomatch h
    | cons version rest =>
        dsimp only at h
        split at h
        · exact nomatch h
        · next hash hrest =>
            obtain rfl := FixedBytes.ofBytes?_eq_some_iff.mp hrest
            split at h
            · next hkey =>
                obtain ⟨net, rfl⟩ := Network.any_all_iff.mp hkey
                obtain rfl := Except.ok.inj h
                exact ⟨net, rfl⟩
            · split at h
              · next hscript =>
                  obtain ⟨net, rfl⟩ := Network.any_all_iff.mp hscript
                  obtain rfl := Except.ok.inj h
                  exact ⟨net, rfl⟩
              · exact nomatch h
  · rintro ⟨net, rfl⟩
    refine ⟨_, decodeChecked_address p net, ?_⟩
    dsimp only
    rw [FixedBytes.ofBytes?_eq_some_iff.mpr rfl]
    cases p with
    | keyHash h => exact if_pos (Network.any_all_iff.mpr ⟨net, rfl⟩)
    | scriptHash h =>
        have hkey : ¬(Network.all.any fun other =>
            decide (other.keyHashVersion = net.scriptHashVersion)) = true := by
          intro hany
          obtain ⟨other, hother⟩ := Network.any_all_iff.mp hany
          exact Network.keyHashVersion_ne_scriptHashVersion other net hother
        exact (if_neg hkey).trans (if_pos (Network.any_all_iff.mpr ⟨net, rfl⟩))

end

end Payee

/-- The hash in an address is that of the payee. -/
theorem addressHash_address [Digests] (p : Payee) (net : Network) :
    addressHash (p.address net) = .ok p.hash := by
  refine Except.bind_eq_ok_iff.mpr ⟨_, p.decodeChecked_address net, ?_⟩
  rw [List.drop_one, List.tail_cons, FixedBytes.ofBytes?_eq_some_iff.mpr rfl]
  rfl

namespace Script

/-! ## Scripts -/

section

variable [Digests]

/-- The scripts with an address are those of the payees. -/
theorem address?_eq_some_iff {s : Script} {net : Network} {text : String} :
    s.address? net = some text ↔ ∃ p : Payee, s = p.script ∧ text = p.address net := by
  rw [address?, Option.map_eq_some_iff]
  constructor
  · rintro ⟨p, hp, rfl⟩
    exact ⟨p, payee?_eq_some_iff.mp hp, rfl⟩
  · rintro ⟨p, hp, rfl⟩
    exact ⟨p, payee?_eq_some_iff.mpr hp, rfl⟩

/-- The addresses that are read are those of the payees on the networks. -/
theorem ofAddress_eq_ok_iff {text : String} {s : Script} :
    ofAddress text = .ok s ↔ ∃ (p : Payee) (net : Network), s = p.script ∧ text = p.address net := by
  refine Except.bind_eq_ok_iff.trans ⟨?_, ?_⟩
  · rintro ⟨p, hp, h⟩
    obtain ⟨net, rfl⟩ := Payee.ofAddress_eq_ok_iff.mp hp
    exact ⟨p, net, (Except.ok.inj h).symm, rfl⟩
  · rintro ⟨p, net, rfl, rfl⟩
    exact ⟨p, Payee.ofAddress_eq_ok_iff.mpr ⟨net, rfl⟩, rfl⟩

/-- A text is read as the address of a script exactly when it is the address that the script has on
    some network. That network is then the only one, and the hash in the address is the one that the
    script pushes. -/
theorem ofAddress_iff_address (text : String) (s : Script) :
    (ofAddress text = .ok s ↔ ∃ net, s.address? net = some text) ∧
    ∀ net, s.address? net = some text →
      (∀ other, s.address? other = some text → other = net) ∧
      ∃ hash : Hash160, (∀ content, .data content ∈ s ↔ content = hash.toBytes) ∧
        addressHash text = .ok hash := by
  constructor
  · rw [ofAddress_eq_ok_iff]
    simp only [address?_eq_some_iff]
    exact exists_comm
  · intro net hnet
    obtain ⟨p, rfl, rfl⟩ := address?_eq_some_iff.mp hnet
    refine ⟨?_, p.hash, fun _ => Payee.data_mem_script_iff, addressHash_address p net⟩
    intro other hother
    obtain ⟨q, -, haddress⟩ := address?_eq_some_iff.mp hother
    exact (Payee.address_eq_iff.mp haddress).2.symm

end

/-- The script of the key whose hash is all zeros, and its address on the main network. -/
theorem ofAddress_iff_address_zero :
    let _ := Digests.standard
    let p := Payee.keyHash (FixedBytes.zero 20)
    p.script.address? .main = some (p.address .main) ∧
      ofAddress (p.address .main) = .ok p.script ∧
      ∀ other, p.script.address? other = some (p.address .main) → other = .main := by
  intro _ p
  have hmain : p.script.address? .main = some (p.address .main) :=
    address?_eq_some_iff.mpr ⟨p, rfl, rfl⟩
  obtain ⟨hread, hnet⟩ := ofAddress_iff_address (p.address .main) p.script
  exact ⟨hmain, hread.mpr ⟨.main, hmain⟩, (hnet .main hmain).1⟩

end Script

end Bitcoin
