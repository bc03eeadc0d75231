import Bitcoin.Proofs.Script.Balanced

/-!
# The delimiters of a conditional

What follows an opened conditional is read up to the first separator or end that belongs to none of
the conditionals inside. Commands without such a delimiter never end the conditional. In front of
one the commands are balanced, so the scanner keeps or drops them as a whole, and what it leaves of
a conditional with one separator at most can be written down: the chosen part, and what is behind
the end.

* **`exists_delimiter`**: the first delimiter that belongs to none of the conditionals inside.
* **`open_of_selectPart_eq_none`**: a conditional that the scanner cannot cut down stays open.
* **`branch_eq_some`**: what is left of a conditional with one separator at most.
-/

namespace Bitcoin

/-- The opcode of an operation that opens a conditional. -/
def FlowOp.code : FlowOp → UInt8
  | .ifTrue => Opcode.ifTrue
  | .ifFalse => Opcode.ifFalse

/-- The command that opens a conditional with the given operation. -/
def FlowOp.command (op : FlowOp) : Command := .op op.code

theorem FlowOp.opens_command (op : FlowOp) : op.command.opens = true := by
  cases op with
  | ifTrue => rfl
  | ifFalse => rfl

/-- What a command is to the conditionals around it. -/
inductive Command.Role : Command → Prop
  | opens (op : FlowOp) : Role op.command
  | separates : Role (.op Opcode.orElse)
  | closes : Role (.op Opcode.endIf)
  | plain {c : Command} (hopen : c.opens = false) (hsep : c.separates = false)
      (hclose : c.closes = false) : Role c

/-- Every command has one of the roles. -/
theorem Command.role (c : Command) : c.Role := by
  by_cases hopen : c.opens = true
  · rcases of_decide_eq_true hopen with rfl | rfl
    · exact .opens .ifTrue
    · exact .opens .ifFalse
  · by_cases hsep : c.separates = true
    · obtain rfl : c = .op Opcode.orElse := of_decide_eq_true hsep
      exact .separates
    · by_cases hclose : c.closes = true
      · obtain rfl : c = .op Opcode.endIf := of_decide_eq_true hclose
        exact .closes
      · exact .plain (Bool.eq_false_iff.mpr hopen) (Bool.eq_false_iff.mpr hsep)
          (Bool.eq_false_iff.mpr hclose)

namespace Script

/-! ## One command at a time -/

/-- How many conditionals are open after a command. -/
def openStep (depth : Nat) (c : Command) : Option Nat :=
  if c.opens then some (depth + 1)
  else if c.separates then if depth = 0 then none else some depth
  else if c.closes then if depth = 0 then none else some (depth - 1)
  else some depth

theorem openStep_opens (depth : Nat) (op : FlowOp) :
    openStep depth op.command = some (depth + 1) := by
  cases op with
  | ifTrue => rfl
  | ifFalse => rfl

theorem openStep_plain (depth : Nat) {c : Command} (hopen : c.opens = false)
    (hsep : c.separates = false) (hclose : c.closes = false) : openStep depth c = some depth := by
  simp only [openStep, hopen, hsep, hclose, Bool.false_eq_true, if_false]

/-- The conditionals are counted command by command. -/
theorem openAfter_cons (depth : Nat) (c : Command) (rest : Script) :
    openAfter depth (c :: rest) = (openStep depth c).bind fun d => openAfter d rest := by
  rw [openAfter.eq_def]
  dsimp only
  cases c.role with
  | opens op =>
      cases op with
      | ifTrue => rfl
      | ifFalse => rfl
  | separates =>
      cases depth with
      | zero => rfl
      | succ inner => rfl
  | closes =>
      cases depth with
      | zero => rfl
      | succ inner => rfl
  | plain hopen hsep hclose =>
      simp only [openStep_plain depth hopen hsep hclose, hopen, hsep, hclose, Bool.false_eq_true,
        if_false]
      rfl

/-! ## The first delimiter -/

/-- A separator or an end that belongs to no conditional comes first somewhere. -/
theorem exists_delimiter {depth : Nat} {s : Script} (h : openAfter depth s = none) :
    ∃ x c r, s = x ++ c :: r ∧ openAfter depth x = some 0 ∧
      (c = .op Opcode.orElse ∨ c = .op Opcode.endIf) := by
  induction s generalizing depth with
  | nil => exact nomatch h
  | cons c rest ih =>
      rw [openAfter_cons] at h
      cases hstep : openStep depth c with
      | some d =>
          rw [hstep] at h
          obtain ⟨x, c', r, rfl, hx, hc'⟩ := ih h
          refine ⟨c :: x, c', r, rfl, ?_, hc'⟩
          rw [openAfter_cons, hstep]
          exact hx
      | none =>
          -- only a delimiter outside every conditional has no answer
          refine ⟨[], c, rest, rfl, ?_⟩
          cases c.role with
          | opens op =>
              rw [openStep_opens] at hstep
              exact nomatch hstep
          | separates =>
              cases depth with
              | zero => exact ⟨rfl, .inl rfl⟩
              | succ inner => exact nomatch hstep
          | closes =>
              cases depth with
              | zero => exact ⟨rfl, .inr rfl⟩
              | succ inner => exact nomatch hstep
          | plain hopen hsep hclose =>
              rw [openStep_plain depth hopen hsep hclose] at hstep
              exact nomatch hstep

/-- Without such a delimiter the scanner finds no end. -/
theorem selectPart_of_openAfter {s : Script} {d : Nat} (h : openAfter 0 s = some d)
    (keep alternative : Bool) : selectPart keep alternative 0 s = none := by
  have hcarry := selectPart_carry keep alternative 0 h []
  rw [List.append_nil] at hcarry
  exact hcarry

/-- The scanner keeps or drops the commands in front of the end. -/
theorem selectPart_endIf {x : Script} (hx : Balanced x) (keep alternative : Bool) (r : Script) :
    selectPart keep alternative 0 (x ++ .op Opcode.endIf :: r)
      = some ((if keep then x else []) ++ r) := by
  refine (selectPart_carry keep alternative 0 hx _).trans ?_
  cases keep with
  | true => rfl
  | false => rfl

/-- The scanner keeps or drops the commands in front of a separator, and goes on behind it. -/
theorem selectPart_orElse {x : Script} (hx : Balanced x) (keep alternative : Bool) (r : Script) :
    selectPart keep alternative 0 (x ++ .op Opcode.orElse :: r)
      = (selectPart alternative alternative 0 r).map ((if keep then x else []) ++ ·) := by
  refine (selectPart_carry keep alternative 0 hx _).trans ?_
  cases keep with
  | true => rfl
  | false => rfl

/-- A conditional inside a part is kept or left out with it, and what is inside it as well. -/
theorem selectPart_opens (keep alternative : Bool) (depth : Nat) (op : FlowOp) (rest : Script) :
    selectPart keep alternative depth (op.command :: rest)
      = (selectPart keep alternative (depth + 1) rest).map (consWhen keep op.command) := by
  cases op with
  | ifTrue => rfl
  | ifFalse => rfl

/-- A command that is no delimiter is kept when its part is. -/
theorem selectPart_plain (keep alternative : Bool) (depth : Nat) {c : Command} {rest : Script}
    (hopen : c.opens = false) (hsep : c.separates = false) (hclose : c.closes = false) :
    selectPart keep alternative depth (c :: rest)
      = (selectPart keep alternative depth rest).map (consWhen keep c) := by
  simp only [selectPart, hopen, hsep, hclose, Bool.false_and, Bool.false_eq_true, if_false]

/-- A conditional that the scanner cannot cut down stays open. -/
theorem open_of_selectPart_eq_none {keep alternative : Bool} {depth d : Nat} {s : Script}
    (hnone : selectPart keep alternative depth s = none)
    (hopen : openAfter (depth + 1) s = some d) : 0 < d := by
  -- the scanner counts one conditional less, since it does not count its own
  induction s generalizing keep depth with
  | nil =>
      obtain rfl := Option.some.inj hopen
      exact Nat.succ_pos depth
  | cons c rest ih =>
      rw [openAfter_cons] at hopen
      cases c.role with
      | opens op =>
          rw [selectPart_opens, Option.map_eq_none_iff] at hnone
          rw [openStep_opens] at hopen
          exact ih hnone hopen
      | separates =>
          cases depth with
          | zero =>
              have hrest : selectPart alternative alternative 0 rest = none := hnone
              exact ih hrest hopen
          | succ inner => exact ih (Option.map_eq_none_iff.mp hnone) hopen
      | closes =>
          cases depth with
          | zero => exact nomatch hnone
          | succ inner => exact ih (Option.map_eq_none_iff.mp hnone) hopen
      | plain hplain hsep hclose =>
          rw [selectPart_plain keep alternative depth hplain hsep hclose,
            Option.map_eq_none_iff] at hnone
          rw [openStep_plain (depth + 1) hplain hsep hclose] at hopen
          exact ih hnone hopen

/-! ## One separator at most -/

/-- Marks the innermost open conditional when it is separated; there is no answer when it is marked
    already. The list has one entry for each open conditional, the innermost first. A separator or
    an end that belongs to none is passed over. -/
def markStep (seen : List Bool) (c : Command) : Option (List Bool) :=
  if c.opens then some (false :: seen)
  else if c.separates then
    match seen with
    | [] => some []
    | true :: _ => none
    | false :: outer => some (true :: outer)
  else if c.closes then some seen.tail
  else some seen

/-- The open conditionals after the commands, with a mark where one has been separated. -/
def marksAfter (seen : List Bool) (s : Script) : Option (List Bool) := s.foldlM markStep seen

/-- No conditional has more than one separator of its own. -/
def SingleElse (s : Script) : Prop := (marksAfter [] s).isSome

instance (s : Script) : Decidable (SingleElse s) :=
  inferInstanceAs (Decidable ((marksAfter [] s).isSome = true))

example : SingleElse [.op Opcode.ifTrue, .op Opcode.ifFalse, .op Opcode.orElse, .op Opcode.endIf,
    .op Opcode.orElse, .op Opcode.endIf] := by
  decide

example : ¬ SingleElse [.op Opcode.ifTrue, .op Opcode.orElse, .op Opcode.orElse] := by decide

theorem marksAfter_append (seen : List Bool) (a b : Script) :
    marksAfter seen (a ++ b) = (marksAfter seen a).bind fun t => marksAfter t b :=
  List.foldlM_append

theorem markStep_plain (seen : List Bool) {c : Command} (hopen : c.opens = false)
    (hsep : c.separates = false) (hclose : c.closes = false) : markStep seen c = some seen := by
  simp only [markStep, hopen, hsep, hclose, Bool.false_eq_true, if_false]

/-- A command that is no delimiter can be left away. -/
theorem singleElse_of_cons {c : Command} {rest : Script} (hopen : c.opens = false)
    (hsep : c.separates = false) (hclose : c.closes = false) (h : SingleElse (c :: rest)) :
    SingleElse rest := by
  have hcons : marksAfter [] (c :: rest) = (markStep [] c).bind (marksAfter · rest) := rfl
  rw [SingleElse, hcons, markStep_plain [] hopen hsep hclose] at h
  exact h

/-- A mark belongs to a conditional inside the commands: those around them are not looked at. -/
theorem markStep_under {inner : List Bool} {c : Command} {d : Nat}
    (h : openStep inner.length c = some d) (outer : List Bool) :
    markStep (inner ++ outer) c = (markStep inner c).map (· ++ outer) ∧
      ∀ t, markStep inner c = some t → t.length = d := by
  cases c.role with
  | opens op =>
      rw [openStep_opens] at h
      obtain rfl := Option.some.inj h
      cases op with
      | ifTrue => exact ⟨rfl, by rintro t ⟨⟩; rfl⟩
      | ifFalse => exact ⟨rfl, by rintro t ⟨⟩; rfl⟩
  | separates =>
      cases inner with
      | nil => exact nomatch h
      | cons seen inner =>
          obtain rfl := Option.some.inj h
          cases seen with
          | true => exact ⟨rfl, by rintro t ⟨⟩⟩
          | false => exact ⟨rfl, by rintro t ⟨⟩; rfl⟩
  | closes =>
      cases inner with
      | nil => exact nomatch h
      | cons seen inner =>
          obtain rfl := Option.some.inj h
          exact ⟨rfl, by rintro t ⟨⟩; rfl⟩
  | plain hopen hsep hclose =>
      rw [openStep_plain inner.length hopen hsep hclose] at h
      obtain rfl := Option.some.inj h
      rw [markStep_plain _ hopen hsep hclose, markStep_plain _ hopen hsep hclose]
      exact ⟨rfl, by rintro t ⟨⟩; rfl⟩

/-- A script does not look at the marks of the conditionals around it, and has one for each that it
    leaves open. -/
theorem marksAfter_under {inner : List Bool} {s : Script} {d : Nat}
    (h : openAfter inner.length s = some d) (outer : List Bool) :
    marksAfter (inner ++ outer) s = (marksAfter inner s).map (· ++ outer) ∧
      ∀ t, marksAfter inner s = some t → t.length = d := by
  induction s generalizing inner with
  | nil =>
      refine ⟨rfl, ?_⟩
      rintro t ⟨⟩
      exact Option.some.inj h
  | cons c rest ih =>
      rw [openAfter_cons] at h
      obtain ⟨d', hstep, hrest⟩ := Option.bind_eq_some_iff.mp h
      obtain ⟨hmark, hlength⟩ := markStep_under hstep outer
      show (markStep (inner ++ outer) c).bind (marksAfter · rest)
          = ((markStep inner c).bind (marksAfter · rest)).map (· ++ outer) ∧
        ∀ t, (markStep inner c).bind (marksAfter · rest) = some t → t.length = d
      rw [hmark]
      cases hmarked : markStep inner c with
      | none => exact ⟨rfl, by rintro t ⟨⟩⟩
      | some seen =>
          obtain rfl := hlength seen hmarked
          exact ih hrest

/-- A balanced script leaves the marks of the conditionals around it as they are. -/
theorem marksAfter_balanced {b : Script} (hb : Balanced b) (seen : List Bool) :
    marksAfter seen b = (marksAfter [] b).map fun _ => seen := by
  obtain ⟨hmarks, hlength⟩ := @marksAfter_under [] b 0 hb seen
  refine hmarks.trans ?_
  cases ht : marksAfter [] b with
  | none => rfl
  | some t =>
      obtain rfl : t = [] := List.length_eq_zero_iff.mp (hlength t ht)
      rfl

/-- No conditional has two separators when none has in the balanced part and none behind it. -/
theorem isSome_marksAfter_append {b : Script} (hb : Balanced b) (seen : List Bool) (r : Script) :
    (marksAfter seen (b ++ r)).isSome ↔ SingleElse b ∧ (marksAfter seen r).isSome := by
  rw [marksAfter_append, marksAfter_balanced hb, SingleElse]
  cases marksAfter [] b with
  | none => exact ⟨fun h => (nomatch h), fun h => (nomatch h.1)⟩
  | some t => exact ⟨fun h => ⟨rfl, h⟩, And.right⟩

/-- What is left of a conditional with one separator at most: the commands are balanced up to the
    separator, if there is one, and from there to the end, and the part that was chosen is put in
    front of what is behind the end. -/
theorem branch_eq_some {first : Bool} {s t : Script} (hsingle : (marksAfter [false] s).isSome)
    (h : branch first s = some t) : ∃ x y r, Balanced x ∧ Balanced y ∧
      (s = x ++ .op Opcode.endIf :: r ∧ y = [] ∨
        s = x ++ .op Opcode.orElse :: (y ++ .op Opcode.endIf :: r)) ∧
      t = (if first then x else y) ++ r := by
  have hfind : ∀ {keep alternative : Bool} {s t : Script},
      selectPart keep alternative 0 s = some t → ∃ x c r, s = x ++ c :: r ∧ Balanced x ∧
        (c = .op Opcode.orElse ∨ c = .op Opcode.endIf) := by
    intro keep alternative s t h
    cases hopen : openAfter 0 s with
    | none => exact exists_delimiter hopen
    | some d => exact nomatch (selectPart_of_openAfter hopen keep alternative).symm.trans h
  obtain ⟨x, c, rest, rfl, hx, rfl | rfl⟩ := hfind h
  · -- the conditional has a separator
    rw [branch, selectPart_orElse hx] at h
    obtain ⟨u, hu, rfl⟩ := Option.map_eq_some_iff.mp h
    obtain ⟨y, c, r, rfl, hy, rfl | rfl⟩ := hfind hu
    · -- and a second one, which is excluded
      have hsecond := ((isSome_marksAfter_append hx _ _).mp hsingle).2
      exact nomatch ((isSome_marksAfter_append hy _ _).mp hsecond).2
    · rw [selectPart_endIf hy] at hu
      obtain rfl := Option.some.inj hu
      refine ⟨x, y, r, hx, hy, .inr rfl, ?_⟩
      cases first with
      | true => rfl
      | false => rfl
  · rw [branch, selectPart_endIf hx] at h
    obtain rfl := Option.some.inj h
    exact ⟨x, [], rest, hx, rfl, .inl ⟨rfl, rfl⟩, rfl⟩

/-- A conditional that has been cut down leaves no second separator behind. -/
theorem singleElse_of_branch {first : Bool} {s t : Script}
    (hsingle : (marksAfter [false] s).isSome) (h : branch first s = some t) : SingleElse t := by
  obtain ⟨x, y, r, hx, hy, hs, rfl⟩ := branch_eq_some hsingle h
  have hparts : SingleElse x ∧ SingleElse y ∧ SingleElse r := by
    rcases hs with ⟨rfl, rfl⟩ | rfl
    · obtain ⟨hx', hr⟩ := (isSome_marksAfter_append hx _ _).mp hsingle
      exact ⟨hx', rfl, hr⟩
    · obtain ⟨hx', hrest⟩ := (isSome_marksAfter_append hx _ _).mp hsingle
      obtain ⟨hy', hr⟩ := (isSome_marksAfter_append hy [true] _).mp hrest
      exact ⟨hx', hy', hr⟩
  obtain ⟨hx', hy', hr⟩ := hparts
  cases first with
  | true => exact (isSome_marksAfter_append hx [] r).mpr ⟨hx', hr⟩
  | false => exact (isSome_marksAfter_append hy [] r).mpr ⟨hy', hr⟩

end Script

end Bitcoin
