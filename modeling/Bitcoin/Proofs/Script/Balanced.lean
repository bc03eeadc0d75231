import Bitcoin.Script.Conditional

/-!
# Balanced scripts

A script is balanced when every conditional that it opens is closed in it and every separator and
every end in it belongs to a conditional that it opens. The scanner that cuts a conditional down
carries a balanced script over as a whole: it never stops in it and never chooses inside it. So a
conditional that is open in front of a balanced script stays open, and one that is closed there is
cut down as if the balanced script were not behind it.

* **`selectPart_carry`**: the scanner keeps or drops commands that close what they open as a whole.
* **`branch_append`**: cutting a conditional down does not look at a balanced script behind it.
-/

namespace Bitcoin

namespace Script

/-- How many conditionals are open after the commands, when `depth` are open before them. There is
    no answer when a separator or an end belongs to none of them. -/
def openAfter : Nat → Script → Option Nat
  | depth, [] => some depth
  | depth, c :: rest =>
      if c.opens then openAfter (depth + 1) rest
      else if c.separates then
        if depth = 0 then none else openAfter depth rest
      else if c.closes then
        match depth with
        | 0 => none
        | inner + 1 => openAfter inner rest
      else openAfter depth rest

/-- Every conditional is closed, and every separator and every end belongs to one. -/
def Balanced (s : Script) : Prop := openAfter 0 s = some 0

instance (s : Script) : Decidable (Balanced s) :=
  inferInstanceAs (Decidable (openAfter 0 s = some 0))

example : Balanced [.op Opcode.ifTrue, .op Opcode.orElse, .op Opcode.orElse, .op Opcode.endIf] := by
  decide

example : ¬ Balanced [.op Opcode.endIf, .op Opcode.ifTrue] := by decide

theorem not_closes_of_separates {c : Command} (h : c.separates = true) : c.closes = false := by
  have hc : c = .op Opcode.orElse := of_decide_eq_true h
  rw [hc]
  rfl

/-- Whether a command is kept does not depend on what is behind it. -/
theorem consWhen_append (keep : Bool) (c : Command) (s b : Script) :
    consWhen keep c (s ++ b) = consWhen keep c s ++ b := by
  cases keep with
  | true => rfl
  | false => rfl

/-- The scanner keeps or drops commands that close what they open as a whole. -/
theorem selectPart_carry (keep alternative : Bool) (depth : Nat) {d e : Nat} {b : Script}
    (h : openAfter d b = some e) (s : Script) :
    selectPart keep alternative (depth + d) (b ++ s)
      = (selectPart keep alternative (depth + e) s).map fun t => if keep then b ++ t else t := by
  -- on the commands: what they open inside is added to what is open around them
  induction b generalizing d with
  | nil =>
      obtain rfl : d = e := Option.some.inj h
      have hid : (fun t : Script => if keep then [] ++ t else t) = id := by
        funext t
        exact ite_self t
      rw [hid, Option.map_id]
      rfl
  | cons c rest ih =>
      have hkept : ∀ {i : Nat}, openAfter i rest = some e →
          (selectPart keep alternative (depth + i) (rest ++ s)).map (consWhen keep c)
            = (selectPart keep alternative (depth + e) s).map
                fun t => if keep then (c :: rest) ++ t else t := by
        intro i hi
        rw [ih hi, Option.map_map]
        cases keep with
        | true => rfl
        | false => rfl
      rw [openAfter.eq_def] at h
      rw [List.cons_append, selectPart.eq_def]
      dsimp only at h ⊢
      by_cases hopen : c.opens = true
      · rw [if_pos hopen] at h ⊢
        exact hkept h
      · rw [if_neg hopen] at h ⊢
        by_cases hsep : c.separates = true
        · -- the separator belongs to a conditional inside, so it is no choice of the scanner
          rw [if_pos hsep] at h
          have hd : d ≠ 0 := by
            rintro rfl
            cases h
          have hsum : depth + d ≠ 0 := by omega
          rw [if_neg hd] at h
          have hchoice : ¬(c.separates && decide (depth + d = 0)) = true := by
            rw [decide_eq_false hsum, Bool.and_false]
            exact Bool.false_ne_true
          rw [if_neg hchoice, if_neg (Bool.eq_false_iff.mp (not_closes_of_separates hsep))]
          exact hkept h
        · have hchoice : ¬(c.separates && decide (depth + d = 0)) = true := by
            intro hboth
            exact hsep (Bool.and_eq_true_iff.mp hboth).1
          rw [if_neg hsep] at h
          rw [if_neg hchoice]
          by_cases hclose : c.closes = true
          · rw [if_pos hclose] at h ⊢
            cases d with
            | zero => cases h
            | succ inner => exact hkept h
          · rw [if_neg hclose] at h ⊢
            exact hkept h

/-- A conditional does not end in a balanced script. -/
theorem selectPart_balanced {b : Script} (hb : Balanced b) (keep alternative : Bool)
    (depth : Nat) : selectPart keep alternative depth b = none := by
  have hcarry := selectPart_carry keep alternative depth hb []
  rw [List.append_nil] at hcarry
  exact hcarry

/-- The scanner does not look at a balanced script behind what it reads. -/
theorem selectPart_append {b : Script} (hb : Balanced b) (keep alternative : Bool) (depth : Nat)
    (a : Script) : selectPart keep alternative depth (a ++ b)
      = (selectPart keep alternative depth a).map (· ++ b) := by
  induction a generalizing keep depth with
  | nil => exact selectPart_balanced hb keep alternative depth
  | cons c rest ih =>
      have hkept : ∀ d, (selectPart keep alternative d (rest ++ b)).map (consWhen keep c)
          = ((selectPart keep alternative d rest).map (consWhen keep c)).map (· ++ b) := by
        intro d
        rw [ih, Option.map_map, Option.map_map]
        congr 1
        funext t
        exact consWhen_append keep c t b
      rw [List.cons_append, selectPart.eq_def, selectPart.eq_def keep alternative depth (c :: rest)]
      dsimp only
      by_cases hopen : c.opens = true
      · rw [if_pos hopen, if_pos hopen]
        exact hkept (depth + 1)
      · rw [if_neg hopen, if_neg hopen]
        by_cases hsep : (c.separates && decide (depth = 0)) = true
        · rw [if_pos hsep, if_pos hsep]
          exact ih alternative 0
        · rw [if_neg hsep, if_neg hsep]
          by_cases hclose : c.closes = true
          · rw [if_pos hclose, if_pos hclose]
            cases depth with
            | zero => rfl
            | succ inner => exact hkept inner
          · rw [if_neg hclose, if_neg hclose]
            exact hkept depth

/-- Cutting a conditional down does not look at a balanced script behind it. -/
theorem branch_append {b : Script} (hb : Balanced b) (first : Bool) (a : Script) :
    branch first (a ++ b) = (branch first a).map (· ++ b) :=
  selectPart_append hb first (!first) 0 a

end Script

end Bitcoin
