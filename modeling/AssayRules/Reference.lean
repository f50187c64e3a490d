import AssayRules.Name
import AssayRules.Error

/-!
# Bracketed references

`[Total Phosphorus, µg/L]` refers to a variable whatever bytes its name holds. A
bracket opens at the first `[` outside a reference and closes at the next `]`, so
references do not nest, and a `]` outside a reference has no meaning of its own.

`segments` is the one place where brackets are looked for. It cuts a text into
bytes outside references, references, and at most one bracket that never closes;
what stands in a reference is then out of reach of everything that looks for names,
operators or parentheses.
-/

namespace AssayRules

/-- **A segment** of an expression. -/
inductive Segment where
  /-- A byte outside every reference. -/
  | byte (c : UInt8)
  /-- What stands between a `[` and the next `]`. -/
  | reference (inside : Text)
  /-- What stands after a `[` that no `]` follows. -/
  | unclosed (inside : Text)
deriving DecidableEq, Repr

namespace Segment

/-- The text a segment was cut from. -/
def text : Segment → Text
  | byte c => [c]
  | reference inside => Ascii.leftBracket :: inside ++ [Ascii.rightBracket]
  | unclosed inside => Ascii.leftBracket :: inside

/-- Whether the segment is a bracket that never closes. -/
def isUnclosed : Segment → Bool
  | unclosed _ => true
  | _ => false

/-- The name a closed reference writes, in canonical spelling. -/
def name? : Segment → Option Text
  | reference inside => some (Name.canonical inside)
  | _ => none

/-- The segment with its reference blotted out, so that bare names on either side of
it stay apart. -/
def outside : Segment → UInt8
  | byte c => c
  | _ => Ascii.space

end Segment

/-- **The segments of a text**, in order. -/
def segments : Text → List Segment
  | [] => []
  | c :: rest =>
    if c == Ascii.leftBracket then
      match _h : Text.splitAt? Ascii.rightBracket rest with
      | none => [.unclosed rest]
      | some (inside, after) => .reference inside :: segments after
    else .byte c :: segments rest
termination_by s => s.length
decreasing_by
  · have := Text.length_lt_of_splitAt?_eq_some _h
    simp only [List.length_cons]
    omega
  · simp

@[simp] theorem segments_nil : segments [] = [] := by unfold segments; rfl

/-- Cutting into segments loses nothing. -/
@[simp] theorem flatMap_text_segments (s : Text) : (segments s).flatMap Segment.text = s := by
  fun_induction segments s with
  | case1 => rfl
  | case2 c rest hc _ => simp [Segment.text, eq_of_beq hc]
  | case3 c rest hc inside after h ih =>
    simp [Segment.text, ih, eq_of_beq hc, Text.eq_of_splitAt?_eq_some h]
  | case4 c rest _ ih => simp [Segment.text, ih]

/-- **The variables of an expression**, in canonical spelling, each once: first the
bracketed ones and then the bare ones, each kind in order of appearance. -/
def references (expression : Text) : Except Malformed (List Text) :=
  let parts := segments expression
  if parts.any Segment.isUnclosed then .error .unclosedReference
  else
    let bracketed := parts.filterMap Segment.name?
    let bare := (Name.bareNames (parts.map Segment.outside)).map Name.canonical
    .ok ((bracketed ++ bare).filter (· != [])).eraseDups

end AssayRules
