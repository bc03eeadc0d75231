import Bitcoin.Proofs.Script.Concatenation
import Mathlib.Data.Int.Bitwise

/-!
# Coins locked until a time

A locking script can start with a demand on lock times: it pushes a number, compares it with the
spending transaction, and drops it again. The comparison fails at once when the demand is not met,
and leaves the stacks as they were when it is. So the demand stands beside whatever else the script
asks for, and no unlocking script in front of it makes a difference to it.

* **`reachedLockTime_iff`**, **`reachedRelativeLock_iff`**: what the two demands ask for.
* **`LockOp.apply_relative_iff`**: the demand on the relative lock as an opcode.
* **`run_locked_eq_ok_iff`**: the demand is met and the rest of the script runs.
* **`execute_append_locked_iff`**: when a locked coin can be spent.
-/

namespace Bitcoin

/-! ## What the demands ask for -/

namespace SpendContext

variable {ctx : SpendContext} {n : Int}

/-- An absolute lock is reached when the lock time is of the same kind and not smaller, and the
    input is not final. -/
theorem reachedLockTime_iff : ctx.reachedLockTime n = true ↔ 0 ≤ n ∧ n ≤ ctx.lockTime.toNat ∧
    (n < 500000000 ↔ ctx.lockTime.toNat < 500000000) ∧ ctx.sequence ≠ 0xffffffff := by
  have hlimit : (heightLimit : Int) = 500000000 := rfl
  have hword : ctx.lockTime.toNat < 0x100000000 := ctx.lockTime.toNat_lt
  rw [reachedLockTime]
  simp only [Bool.and_eq_true, decide_eq_true_eq, beq_iff_eq, decide_eq_decide, hlimit]
  constructor
  · rintro ⟨⟨⟨⟨hsequence, hnonneg⟩, -⟩, hkind⟩, hle⟩
    exact ⟨hnonneg, hle, by omega, hsequence⟩
  · rintro ⟨hnonneg, hle, hkind, hsequence⟩
    exact ⟨⟨⟨⟨hsequence, hnonneg⟩, by omega⟩, by omega⟩, hle⟩

/-- Two words cut down to a flag are the same when they agree on the bit of the flag. -/
theorem and_flag_eq_iff {v w flag : UInt32} {i : Nat} (h : flag.toNat = 2 ^ i) :
    v &&& flag = w &&& flag ↔ v.toNat.testBit i = w.toNat.testBit i := by
  have hpos : 0 < 2 ^ i := Nat.two_pow_pos i
  rw [← UInt32.toNat_inj, UInt32.toNat_and, UInt32.toNat_and, h, Nat.and_two_pow, Nat.and_two_pow,
    Nat.mul_left_inj hpos.ne']
  cases v.toNat.testBit i <;> cases w.toNat.testBit i <;> decide

/-- A flag is not set when its bit is zero. -/
theorem and_flag_eq_zero_iff {w flag : UInt32} {i : Nat} (h : flag.toNat = 2 ^ i) :
    w &&& flag = 0 ↔ w.toNat.testBit i = false := by
  have hzero := and_flag_eq_iff (v := w) (w := 0) h
  rwa [UInt32.zero_and, UInt32.toNat_zero, Nat.zero_testBit] at hzero

theorem and_valueMask_le_iff {v w : UInt32} :
    v &&& valueMask ≤ w &&& valueMask ↔ v.toNat % 0x10000 ≤ w.toNat % 0x10000 := by
  have hmask : valueMask.toNat = 2 ^ 16 - 1 := rfl
  rw [UInt32.le_iff_toNat_le, UInt32.toNat_and, UInt32.toNat_and, hmask,
    Nat.and_two_pow_sub_one_eq_mod, Nat.and_two_pow_sub_one_eq_mod]

/-- The low word of a number has its low bits. -/
theorem testBit_ofNat {k i : Nat} (h : i < 32) :
    (UInt32.ofNat k).toNat.testBit i = k.testBit i := by
  rw [UInt32.toNat_ofNat', Nat.testBit_mod_two_pow, decide_eq_true h, Bool.true_and]

/-- A relative lock is reached when it is switched off, or when the version and the sequence number
    allow for it, their kinds agree and the value is not smaller. -/
theorem reachedRelativeLock_iff : ctx.reachedRelativeLock n = true ↔ 0 ≤ n ∧
    (n.testBit 31 = true ∨
      2 ≤ ctx.version.toInt32.toInt ∧ ctx.sequence.toNat.testBit 31 = false ∧
        n.testBit 22 = ctx.sequence.toNat.testBit 22 ∧
        n % 0x10000 ≤ (ctx.sequence.toNat : Int) % 0x10000) := by
  rw [reachedRelativeLock, Bool.and_eq_true, decide_eq_true_iff]
  refine and_congr_right fun hnonneg => ?_
  obtain ⟨k, rfl⟩ := Int.eq_ofNat_of_zero_le hnonneg
  -- of the number only the low word is compared, which has all the bits that count
  have hlow : UInt32.ofNat ((k : Int) % 0x100000000).toNat = UInt32.ofNat k := by
    have hcast : ((k : Int) % 0x100000000).toNat = k % 2 ^ 32 := by omega
    rw [hcast]
    exact UInt32.ofNat_mod_size
  have hdisable : disableFlag.toNat = 2 ^ 31 := rfl
  have htype : typeFlag.toNat = 2 ^ 22 := rfl
  have hlength : k % 2 ^ 32 % 0x10000 = k % 0x10000 := by omega
  rw [hlow]
  simp only [Bool.or_eq_true, Bool.and_eq_true, decide_eq_true_eq, ne_eq,
    and_flag_eq_zero_iff hdisable, and_flag_eq_iff htype, and_valueMask_le_iff,
    testBit_ofNat (show 31 < 32 by decide), testBit_ofNat (show 22 < 32 by decide),
    Bool.not_eq_false, and_assoc]
  refine or_congr Iff.rfl (and_congr ?_ (and_congr Iff.rfl (and_congr Iff.rfl ?_)))
  · exact Int32.le_iff_toInt_le
  · rw [UInt32.toNat_ofNat', hlength]
    omega

end SpendContext

namespace LockOp

/-- Whether the demand is met for a number. -/
def reached : LockOp → SpendContext → Int → Bool
  | .lockTime, ctx, n => ctx.reachedLockTime n
  | .relative, ctx, n => ctx.reachedRelativeLock n

/-- The opcode of the demand. -/
def code : LockOp → UInt8
  | .lockTime => Opcode.checkLockTime
  | .relative => Opcode.checkSequence

/-- The opcode of a lock is read as that lock. -/
theorem ofCode?_code (op : LockOp) : Operation.ofCode? op.code = some (.lock op) := by
  cases op <;> decide

/-- A demand is met by the number on top and leaves the stack as it is. -/
theorem apply_cons_eq_ok_iff {op : LockOp} {ctx : SpendContext} {top : Bytes} {s u : Stack} :
    op.apply ctx (top :: s) = .ok u ↔
      op.reached ctx (ScriptNumber.decode top) = true ∧ u = top :: s := by
  have happly : op.apply ctx (top :: s)
      = if op.reached ctx (ScriptNumber.decode top) then .ok (top :: s) else .error (top :: s) := by
    cases op <;> rfl
  rw [happly]
  by_cases hmet : op.reached ctx (ScriptNumber.decode top) = true
  · rw [if_pos hmet]
    constructor
    · intro h
      exact ⟨hmet, (Except.ok.inj h).symm⟩
    · rintro ⟨-, rfl⟩
      rfl
  · rw [if_neg hmet]
    constructor
    · intro h
      exact nomatch h
    · rintro ⟨h, -⟩
      exact absurd h hmet

/-- The demand on the relative lock is met exactly when the number on top is not negative and either
    switches the lock off itself, or the version of the transaction as a signed number is at least
    2, the sequence does not switch the lock off, both are of one kind, and the length that is asked
    for is not above that of the sequence. Whether it is met or not, the stack stays as it is. -/
theorem apply_relative_iff (ctx : SpendContext) (top : Bytes) (s : Stack) :
    ((∃ u, LockOp.relative.apply ctx (top :: s) = .ok u) ↔
      0 ≤ ScriptNumber.decode top ∧
        ((ScriptNumber.decode top).testBit 31 = true ∨
          2 ≤ ctx.version.toInt32.toInt ∧ ctx.sequence.toNat.testBit 31 = false ∧
            (ScriptNumber.decode top).testBit 22 = ctx.sequence.toNat.testBit 22 ∧
            ScriptNumber.decode top % 0x10000 ≤ (ctx.sequence.toNat : Int) % 0x10000)) ∧
      ∀ u, LockOp.relative.apply ctx (top :: s) = .ok u ∨
        LockOp.relative.apply ctx (top :: s) = .error u ↔ u = top :: s := by
  rw [← SpendContext.reachedRelativeLock_iff]
  constructor
  · constructor
    · rintro ⟨u, h⟩
      exact (apply_cons_eq_ok_iff.mp h).1
    · intro hmet
      exact ⟨_, apply_cons_eq_ok_iff.mpr ⟨hmet, rfl⟩⟩
  · intro u
    rw [LockOp.apply]
    by_cases hmet : ctx.reachedRelativeLock (ScriptNumber.decode top) = true
    · simp [hmet, eq_comm]
    · simp [hmet, eq_comm]

/-- An input that has waited for 20 blocks, in a transaction of version -1. -/
def negativeVersion : SpendContext := ⟨0, 0, 20, 0xffffffff⟩

/-- A version with the highest bit set is a negative number and so below 2, although the same bits
    without a sign are above it. -/
theorem apply_relative_negative_version :
    LockOp.relative.apply negativeVersion [[10]] = .error [[10]] ∧
      [(10 : UInt8)].length ≤ 5 ∧ 0 ≤ ScriptNumber.decode [10] ∧
      2 ≤ negativeVersion.version.toNat ∧ negativeVersion.sequence.toNat.testBit 31 = false ∧
      (ScriptNumber.decode [10]).testBit 22 = negativeVersion.sequence.toNat.testBit 22 ∧
      ScriptNumber.decode [10] % 0x10000 ≤ (negativeVersion.sequence.toNat : Int) % 0x10000 := by
  decide +kernel

end LockOp

/-! ## A demand in front of a script -/

/-- A script with a demand in front: the number is pushed, compared, and dropped. -/
def Script.locked (op : LockOp) (required : Bytes) (s : Script) : Script :=
  [.data required, .op op.code, .op Opcode.drop] ++ s

variable {op : LockOp} {required : Bytes} {b : Script}

/-- A lock in front of a balanced script leaves it balanced. -/
theorem Script.balanced_locked (hb : b.Balanced) : (locked op required b).Balanced := by
  cases op <;> exact hb

theorem Script.scriptHash?_locked : scriptHash? (locked op required b) = none := rfl

/-- No end of a script that locks to a script hash holds a demand. -/
theorem Script.not_suffix_scriptHash_of_locked (h : Hash160) :
    ¬ locked op required b <:+ (Payee.scriptHash h).script := by
  intro hsuffix
  have hmem : Command.op op.code ∈ (Payee.scriptHash h).script :=
    hsuffix.subset (List.mem_cons_of_mem _ List.mem_cons_self)
  cases op <;> simp [Payee.script, LockOp.code, Opcode.hash160, Opcode.equal,
    Opcode.checkLockTime, Opcode.checkSequence] at hmem

variable [Digests] {ctx : SpendContext}

namespace Machine

/-- A demand in front of a script is met, and the script runs from the same stacks. -/
theorem run_locked_eq_ok_iff {mode : Redemption} {s alt : Stack} {t : Machine} :
    run mode ctx ⟨s, alt, Script.locked op required b⟩ = .ok t ↔
      op.reached ctx (ScriptNumber.decode required) = true ∧ run mode ctx ⟨s, alt, b⟩ = .ok t := by
  have hdrop : Operation.ofCode? Opcode.drop = some (.stack .drop) := by decide
  have hdata : Script.scriptHash? ([.op op.code, .op Opcode.drop] ++ b) = none := by
    cases op <;> rfl
  rw [Script.locked, List.cons_append, run_data hdata]
  constructor
  · intro hrun
    obtain ⟨_, hlock, hrun₁⟩ := (run_lockOp_eq_ok_iff op.ofCode?_code).mp hrun
    obtain ⟨hmet, rfl⟩ := LockOp.apply_cons_eq_ok_iff.mp hlock
    obtain ⟨_, hdropped, hrun₂⟩ := (run_stackOp_eq_ok_iff hdrop).mp hrun₁
    obtain rfl := Except.ok.inj hdropped
    exact ⟨hmet, hrun₂⟩
  · rintro ⟨hmet, hrun⟩
    refine (run_lockOp_eq_ok_iff op.ofCode?_code).mpr
      ⟨_, LockOp.apply_cons_eq_ok_iff.mpr ⟨hmet, rfl⟩, ?_⟩
    exact (run_stackOp_eq_ok_iff hdrop).mpr ⟨_, rfl, hrun⟩

/-- A script behind a lock succeeds when the lock is reached and the script succeeds. -/
theorem execute_locked_eq_ok_iff {s alt : Stack} :
    execute ctx ⟨s, alt, Script.locked op required b⟩ = .ok () ↔
      op.reached ctx (ScriptNumber.decode required) = true ∧ execute ctx ⟨s, alt, b⟩ = .ok () := by
  rw [execute_eq_ok_iff, execute_eq_ok_iff]
  constructor
  · rintro ⟨top, r, alt', hrun, htop⟩
    obtain ⟨hmet, hrest⟩ := run_locked_eq_ok_iff.mp hrun
    exact ⟨hmet, top, r, alt', hrest, htop⟩
  · rintro ⟨hmet, top, r, alt', hrest, htop⟩
    exact ⟨top, r, alt', run_locked_eq_ok_iff.mpr ⟨hmet, hrest⟩, htop⟩

end Machine

/-- A coin that is locked by a demand in front of a balanced script can be spent exactly when the
    demand is met, the unlocking script runs alone to its end, and the rest of the locking script
    succeeds from the stacks that are left. -/
theorem Script.execute_append_locked_iff (hb : b.Balanced) (a : Script) :
    (a ++ locked op required b).execute ctx = .ok () ↔
      op.reached ctx (ScriptNumber.decode required) = true ∧ ∃ s alt,
        (Machine.start a).run .off ctx = .ok ⟨s, alt, []⟩ ∧
          Machine.execute ctx ⟨s, alt, b⟩ = .ok () := by
  refine (Machine.execute_append_eq_ok_iff (balanced_locked hb) not_suffix_scriptHash_of_locked ctx
    (Machine.start a)).trans ?_
  constructor
  · rintro ⟨s, alt, hrun, hexec⟩
    obtain ⟨hmet, hrest⟩ := Machine.execute_locked_eq_ok_iff.mp hexec
    exact ⟨hmet, s, alt, hrun, hrest⟩
  · rintro ⟨hmet, s, alt, hrun, hrest⟩
    exact ⟨s, alt, hrun, Machine.execute_locked_eq_ok_iff.mpr ⟨hmet, hrest⟩⟩

end Bitcoin
