import AssayRules.Error
import AssayRules.Token

/-!
# Stack programs

An expression is run as a **program** for a stack machine: an instruction pushes a
number, negates the number on top, or replaces the two numbers on top by the value of
an operation, whose right operand is the one on top. A program has a value when it
leaves exactly one number on a stack that was empty.

Any list of instructions can be run, and one that is not the code of an expression
fails in one of two ways: an instruction finds too few numbers, or the end finds
more or fewer than one.
-/

namespace AssayRules

/-- **An instruction** of the stack machine. -/
inductive Instr where
  /-- Put a number on top. -/
  | push (value : Float)
  /-- Change the sign of the number on top. -/
  | negate
  /-- Replace the two numbers on top by the value of an operation. -/
  | apply (operation : Operation)
deriving DecidableEq, Repr

/-- The stack of the machine, its top first. -/
abbrev Stack := List Float

/-- **One step** of the machine. -/
def Instr.exec : Instr → Stack → Except Malformed Stack
  | push value, stack => .ok (value :: stack)
  | negate, a :: stack => .ok (-a :: stack)
  | apply operation, b :: a :: stack => .ok (operation.eval a b :: stack)
  | _, _ => .error .stackUnderflow

/-- **A program**: instructions in the order they are executed. -/
abbrev Program := List Instr

namespace Program

/-- The stack after all instructions, unless one of them fails. -/
def exec : Program → Stack → Except Malformed Stack
  | [], stack => .ok stack
  | instr :: rest, stack => instr.exec stack >>= exec rest

/-- **The value of a program**: the only number it leaves on the empty stack. -/
def run (program : Program) : Except Malformed Float := do
  match ← program.exec [] with
  | [value] => .ok value
  | _ => .error .notOneValue

/-! ### First facts -/

@[simp] theorem exec_nil (stack : Stack) : exec [] stack = .ok stack := rfl

@[simp] theorem exec_push (value : Float) (rest : Program) (stack : Stack) :
    exec (.push value :: rest) stack = exec rest (value :: stack) := rfl

@[simp] theorem exec_negate (a : Float) (rest : Program) (stack : Stack) :
    exec (.negate :: rest) (a :: stack) = exec rest (-a :: stack) := rfl

@[simp] theorem exec_apply (operation : Operation) (a b : Float) (rest : Program)
    (stack : Stack) :
    exec (.apply operation :: rest) (b :: a :: stack)
      = exec rest (operation.eval a b :: stack) := rfl

/-- Programs run one after the other. -/
theorem exec_append (first second : Program) (stack : Stack) :
    exec (first ++ second) stack = exec first stack >>= exec second := by
  induction first generalizing stack with
  | nil => rfl
  | cons instr rest ih =>
    simp only [List.cons_append, exec]
    cases instr.exec stack with
    | error cause => rfl
    | ok stack' => exact ih stack'

end Program

end AssayRules
