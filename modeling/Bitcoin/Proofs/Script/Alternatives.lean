import Bitcoin.Proofs.Script.Delimiters

/-!
# Conditionals with several separators

A conditional may have more than one separator of its own, and so more than two parts. The first
separator ends the first part; those behind it are dropped and change nothing, so the parts behind
the first one are kept or dropped together. A reader for whom every separator turns the choice
around keeps every other part. The two agree exactly when each part that only such a reader would
take up again, behind the second separator, the fourth and so on, is empty.

* **`branch_separated`**: what is left of a conditional with any number of separators.
* **`alternating_eq_flatten_iff`**: when every other part is all that there is.
* **`FlowOp.apply_separated`**: what opening such a conditional leaves, and when the parts alternate.
-/

namespace Bitcoin

namespace Script

/-- A part of a conditional, and others with a separator in front of each. -/
def separated (part : Script) (others : List Script) : Script :=
  part ++ others.flatMap fun other => .op Opcode.orElse :: other

/-- Every other part, from the first one when `taken` holds and from the second one otherwise. -/
def alternating : Bool → List Script → Script
  | _, [] => []
  | taken, part :: parts => (if taken then part else []) ++ alternating (!taken) parts

/-! ## What is left -/

theorem separated_cons (part other : Script) (others : List Script) :
    separated part (other :: others) = part ++ .op Opcode.orElse :: separated other others := rfl

/-- The scanner keeps or drops the first part by itself, and the others together. -/
theorem selectPart_separated {part : Script} {others : List Script} (hpart : Balanced part)
    (hothers : ∀ other ∈ others, Balanced other) (keep alternative : Bool) (rest : Script) :
    selectPart keep alternative 0 (separated part others ++ .op Opcode.endIf :: rest)
      = some ((if keep then part else []) ++ (if alternative then others.flatten else []) ++ rest) := by
  induction others generalizing part keep with
  | nil =>
      rw [separated, List.flatMap_nil, List.append_nil, selectPart_endIf hpart, List.flatten_nil,
        ite_self, List.append_nil]
  | cons other others ih =>
      obtain ⟨hother, hothers⟩ := List.forall_mem_cons.mp hothers
      rw [separated_cons, List.append_assoc, List.cons_append, selectPart_orElse hpart,
        ih hother hothers, Option.map_some, List.append_assoc]
      -- behind the first separator there is one choice for all parts
      cases alternative with
      | true => simp only [if_true, List.flatten_cons, List.append_assoc]
      | false => simp only [Bool.false_eq_true, if_false, List.nil_append, List.append_nil]

/-- What is left of a conditional with any number of separators: the first part or all others. -/
theorem branch_separated {part : Script} {others : List Script} (hpart : Balanced part)
    (hothers : ∀ other ∈ others, Balanced other) (first : Bool) (rest : Script) :
    branch first (separated part others ++ .op Opcode.endIf :: rest)
      = some ((if first then part else others.flatten) ++ rest) := by
  rw [branch, selectPart_separated hpart hothers]
  cases first with
  | true => simp only [if_true, Bool.not_true, Bool.false_eq_true, if_false, List.append_nil]
  | false => rfl

/-! ## Every other part -/

/-- The parts that are not taken are those that are taken with the opposite choice. -/
theorem length_alternating (taken : Bool) (parts : List Script) :
    (alternating taken parts).length + (alternating (!taken) parts).length
      = parts.flatten.length := by
  induction parts generalizing taken with
  | nil => rfl
  | cons part parts ih =>
      have hrest := ih (!taken)
      rw [Bool.not_not] at hrest
      rw [alternating, alternating, List.flatten_cons, List.length_append, List.length_append,
        List.length_append, Bool.not_not]
      cases taken with
      | true =>
          simp only [if_true, Bool.not_true, Bool.false_eq_true, if_false, List.length_nil] at hrest ⊢
          omega
      | false =>
          simp only [if_true, Bool.not_false, Bool.false_eq_true, if_false, List.length_nil] at hrest ⊢
          omega

theorem alternating_sublist (taken : Bool) (parts : List Script) :
    (alternating taken parts).Sublist parts.flatten := by
  induction parts generalizing taken with
  | nil => exact List.Sublist.refl []
  | cons part parts ih =>
      refine List.Sublist.append ?_ (ih (!taken))
      cases taken with
      | true => exact List.Sublist.refl part
      | false => exact List.nil_sublist part

/-- No command is taken when all parts at the places that are taken are empty. -/
theorem alternating_eq_nil_iff {taken : Bool} {parts : List Script} :
    alternating taken parts = [] ↔
      ∀ i part, parts[2 * i + if taken then 0 else 1]? = some part → part = [] := by
  induction parts generalizing taken with
  | nil =>
      refine ⟨fun _ i part h => ?_, fun _ => rfl⟩
      exact nomatch h
  | cons first parts ih =>
      rw [alternating, List.append_eq_nil_iff, ih]
      cases taken with
      | true =>
          constructor
          · rintro ⟨hfirst, hrest⟩ i part h
            cases i with
            | zero => exact (Option.some.inj h).symm.trans hfirst
            | succ i => exact hrest i part h
          · intro h
            exact ⟨h 0 first rfl, fun i part hi => h (i + 1) part hi⟩
      | false =>
          constructor
          · rintro ⟨-, hrest⟩ i part h
            exact hrest i part h
          · intro h
            exact ⟨rfl, h⟩

/-- Every other part is all that there is when the parts in between are empty. -/
theorem alternating_eq_flatten_iff {taken : Bool} {parts : List Script} :
    alternating taken parts = parts.flatten ↔ alternating (!taken) parts = [] := by
  have hlength := length_alternating taken parts
  rw [← List.length_eq_zero_iff]
  constructor
  · intro h
    rw [h] at hlength
    omega
  · intro h
    exact (alternating_sublist taken parts).eq_of_length (by omega)

end Script

open Script

/-! ## Opening a conditional -/

/-- Opening a conditional of balanced parts takes the condition and leaves the first part or all the
    others together. These are every other part exactly when each part behind the second separator,
    the fourth and so on is empty; so they are with one separator at most. -/
theorem FlowOp.apply_separated (op : FlowOp) (condition : Bytes) (s : Stack) {part : Script}
    {others : List Script} (hpart : Balanced part) (hothers : ∀ other ∈ others, Balanced other)
    (rest : Script) :
    op.apply (condition :: s, separated part others ++ .op Opcode.endIf :: rest)
        = .ok (s, (if op.takesFirst (ScriptNumber.isTrue condition) then part else others.flatten)
            ++ rest) ∧
      (op.apply (condition :: s, separated part others ++ .op Opcode.endIf :: rest)
          = .ok (s, alternating (op.takesFirst (ScriptNumber.isTrue condition)) (part :: others)
              ++ rest) ↔
        ∀ i other, others[2 * i + 1]? = some other → other = []) := by
  have hopen : op.apply (condition :: s, separated part others ++ .op Opcode.endIf :: rest)
      = .ok (s, (if op.takesFirst (ScriptNumber.isTrue condition) then part else others.flatten)
          ++ rest) := by
    rw [FlowOp.apply, branch_separated hpart hothers]
  refine ⟨hopen, ?_⟩
  rw [hopen, Except.ok.injEq, Prod.mk.injEq, and_iff_right rfl, List.append_left_inj, alternating]
  cases op.takesFirst (ScriptNumber.isTrue condition) with
  | true =>
      rw [if_pos rfl, if_pos rfl, List.self_eq_append_right]
      exact alternating_eq_nil_iff
  | false =>
      exact eq_comm.trans (alternating_eq_flatten_iff.trans alternating_eq_nil_iff)

/-- A script that pushes a number from 1 to 16. -/
def pushing (n : UInt8) : Script := [.op (Opcode.push n)]

/-- A conditional with a separator of its own. -/
def innerConditional : Script :=
  [.op Opcode.ifTrue] ++ pushing 2 ++ [.op Opcode.orElse] ++ pushing 3 ++ [.op Opcode.endIf]

/-- The separator of a conditional inside a part does not count, and the last part is left behind
    an empty one. -/
theorem FlowOp.apply_separated_inner :
    (Balanced innerConditional ∧ ∀ other ∈ [pushing 4, [], pushing 5], Balanced other) ∧
      FlowOp.ifFalse.apply ([[0x01]],
          separated innerConditional [pushing 4, [], pushing 5] ++ .op Opcode.endIf :: pushing 6)
        = .ok ([], pushing 4 ++ pushing 5 ++ pushing 6) ∧
      (FlowOp.ifFalse.apply ([[0x01]],
            separated innerConditional [pushing 4, [], pushing 5] ++ .op Opcode.endIf :: pushing 6)
          = .ok ([], alternating false [innerConditional, pushing 4, [], pushing 5] ++ pushing 6) ↔
        ∀ (i : Nat) (other : Script),
          [pushing 4, [], pushing 5][2 * i + 1]? = some other → other = []) := by
  have hparts : Balanced innerConditional ∧
      ∀ other ∈ [pushing 4, [], pushing 5], Balanced other := by decide
  exact ⟨hparts, FlowOp.apply_separated .ifFalse [0x01] [] hparts.1 hparts.2 (pushing 6)⟩

/-- The third part is not taken up again when the first one is chosen. -/
theorem FlowOp.apply_separated_ne_alternating :
    (∀ part ∈ [pushing 1, pushing 2, pushing 3], Balanced part) ∧
      FlowOp.ifTrue.apply ([[0x01]],
          separated (pushing 1) [pushing 2, pushing 3] ++ [.op Opcode.endIf])
        ≠ .ok ([], alternating true [pushing 1, pushing 2, pushing 3]) := by
  refine ⟨by decide, fun h => ?_⟩
  have hleft : pushing 1 = pushing 1 ++ pushing 3 := (Prod.mk.inj (Except.ok.inj h)).2
  exact absurd hleft (by decide)

end Bitcoin
