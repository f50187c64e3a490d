import AssayRules.Program

/-!
# From tokens to a program

Infix notation becomes postfix in one pass. Operands go to the program as they come;
operators and open parentheses wait, and an operator is released when one that binds
no tighter arrives behind its right operand, when its parenthesis closes, or at the
end. The only other thing to know at any point is whether an operand is due: it is at
the start, behind an operator and behind `(`.

Whether a `+` or `-` is a sign follows from that alone. A sign binds tighter than any
operation and releases nothing, as its operand is still to come. How tight the
operations bind is a choice of the laboratory (`Precedence`).

A token list that is no expression is refused with the rule that its first offending
token breaks, or, if all tokens are in order, with what is missing at the end. Neither
depends on the precedence. A token that already says it is a sign is taken at its
word even where an operator is due; no text has such tokens, and the program they lead
to fails when it is run.
-/

namespace AssayRules

/-- **How tight the operations bind.** -/
inductive Precedence where
  /-- Products and quotients before sums and differences. -/
  | standard
  /-- All operations alike, so that they are carried out in the order written. -/
  | leftToRight
deriving DecidableEq, Repr

namespace Precedence

/-- How a precedence is written in settings. -/
def text : Precedence → Text
  | standard => utf8 "standard"
  | leftToRight => utf8 "left_to_right"

/-- **The rank of an operation**: one of a higher rank binds tighter. -/
def rank : Precedence → Operation → Nat
  | standard, operation => if operation.isAdditive then 0 else 1
  | leftToRight, _ => 0

end Precedence

/-- **What waits** for its right operand or its closing parenthesis. -/
inductive Pending where
  /-- An open parenthesis. -/
  | paren
  /-- A sign in front of an operand, which it may negate. -/
  | sign (negates : Bool)
  /-- An operation whose left operand is complete. -/
  | operation (operation : Operation)
deriving DecidableEq, Repr

namespace Pending

/-- The instructions that what waits comes to in the end. A plus sign comes to none. -/
def code : Pending → Program
  | paren => []
  | sign negates => if negates then [.negate] else []
  | operation o => [.apply o]

/-- Whether this is no open parenthesis. -/
def isOperator : Pending → Bool
  | paren => false
  | _ => true

/-- Whether what waits is released by an operation that arrives: a sign always, an
operation unless the new one binds tighter, and a parenthesis never. Operations of
the same rank are so carried out from left to right. -/
def yieldsTo (mode : Precedence) (arriving : Operation) : Pending → Bool
  | paren => false
  | sign _ => true
  | operation o => mode.rank arriving ≤ mode.rank o

end Pending

/-- **The state between two tokens.** -/
structure Arrangement where
  /-- The program so far, its last instruction first. -/
  emitted : List Instr
  /-- What waits, the latest first. -/
  pending : List Pending
  /-- Whether an operand is due. -/
  operandDue : Bool
deriving DecidableEq, Repr

namespace Arrangement

/-- Before the first token. -/
def start : Arrangement := ⟨[], [], true⟩

/-- One more instruction of the program. -/
def emit (instr : Instr) (a : Arrangement) : Arrangement :=
  { a with emitted := instr :: a.emitted }

/-- What waits, from the latest up to the first that does not satisfy `p`, is released
and joins the program in this order. -/
def release (p : Pending → Bool) (a : Arrangement) : Arrangement :=
  { a with
    emitted := ((a.pending.takeWhile p).flatMap Pending.code).reverse ++ a.emitted
    pending := a.pending.dropWhile p }

/-- One more that waits, with an operand to follow. -/
def await (p : Pending) (a : Arrangement) : Arrangement :=
  { a with pending := p :: a.pending, operandDue := true }

/-- **One token.** -/
def step (mode : Precedence) (a : Arrangement) : Token → Except Malformed Arrangement
  | .number value =>
    if a.operandDue then .ok { a.emit (.push value) with operandDue := false }
    else .error .operatorMissing
  | .leftParen =>
    if a.operandDue then .ok (a.await .paren) else .error .operatorMissingBeforeParen
  | .rightParen =>
    if a.operandDue then .error .operandMissingBeforeParen
    -- everything behind the matching parenthesis is complete
    else
      let released := a.release Pending.isOperator
      match released.pending with
      | [] => .error .parenNotOpened
      | _ :: outer => .ok { released with pending := outer }
  | .operator operation =>
    if a.operandDue then
      -- where an operand is due, only a sign can stand
      match operation with
      | .add => .ok (a.await (.sign false))
      | .subtract => .ok (a.await (.sign true))
      | _ => .error .leftOperandMissing
    else .ok ((a.release (Pending.yieldsTo mode operation)).await (.operation operation))
  -- a token that says it is a sign releases nothing and wants its operand
  | .negative => if a.operandDue then .error .leftOperandMissing else .ok (a.await (.sign true))
  | .positive => if a.operandDue then .error .leftOperandMissing else .ok (a.await (.sign false))
  | .stop => .ok a

/-- The tokens one after the other. -/
def steps (mode : Precedence) : Arrangement → List Token → Except Malformed Arrangement
  | a, [] => .ok a
  | a, token :: rest => a.step mode token >>= fun a' => steps mode a' rest

/-- The program so far, in the order of its instructions. -/
def program (a : Arrangement) : Program := a.emitted.reverse

/-- **The program**, once all tokens are in. What still waits is released, and must be
free of parentheses. -/
def finish (a : Arrangement) : Except Malformed Program :=
  if a.operandDue then .error (if a.emitted.isEmpty then .empty else .rightOperandMissing)
  else if a.pending.all Pending.isOperator then .ok (a.release Pending.isOperator).program
  else .error .parenNotClosed

/-! ### First facts -/

@[simp] theorem program_start : start.program = [] := rfl

/-- Emitting extends the program at its end. -/
@[simp] theorem program_emit (instr : Instr) (a : Arrangement) :
    (a.emit instr).program = a.program ++ [instr] := by
  simp [emit, program]

/-- Releasing extends the program by the code of what is released. -/
@[simp] theorem program_release (p : Pending → Bool) (a : Arrangement) :
    (a.release p).program = a.program ++ (a.pending.takeWhile p).flatMap Pending.code := by
  simp [release, program]

/-- Waiting leaves the program as it is. -/
@[simp] theorem program_await (p : Pending) (a : Arrangement) :
    (a.await p).program = a.program := rfl

end Arrangement

/-- **The program of a token list.** What follows the first end mark is not looked at. -/
def Program.ofTokens (mode : Precedence) (tokens : List Token) : Except Malformed Program := do
  let arranged ← Arrangement.start.steps mode (tokens.takeWhile (· != .stop))
  arranged.finish

end AssayRules
