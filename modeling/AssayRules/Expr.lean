import AssayRules.Program

/-!
# Expression trees

The meaning of an expression without its notation: a tree of numbers, sign changes
and operations. A tree is evaluated from its leaves up (`Expr.eval`), or listed in
postorder as a program (`Expr.code`), and the two agree whatever stands on the stack
and whatever code follows (`Expr.exec_code_append`).
-/

namespace AssayRules

/-- **An expression tree.** A plus sign has no node, as it changes nothing. -/
inductive Expr where
  | number (value : Float)
  | negate (operand : Expr)
  | apply (operation : Operation) (left right : Expr)
deriving DecidableEq, Repr

namespace Expr

/-- **The value of a tree**, in IEEE double precision: each operation is that of doubles on the
values of its left and its right operand. -/
def eval : Expr → Float
  | number value => value
  | negate operand => -operand.eval
  | apply .add left right => left.eval + right.eval
  | apply .subtract left right => left.eval - right.eval
  | apply .multiply left right => left.eval * right.eval
  | apply .divide left right => left.eval / right.eval

/-- The postorder listing of a tree: operands first, the left one before the right. -/
def code : Expr → Program
  | number value => [.push value]
  | negate operand => operand.code ++ [.negate]
  | apply operation left right => left.code ++ right.code ++ [.apply operation]

/-- The machine's operations are those of doubles. -/
theorem eval_apply (operation : Operation) (left right : Expr) :
    (apply operation left right).eval = operation.eval left.eval right.eval := by
  cases operation <;> rfl

/-- **The code of a tree pushes its value.** -/
theorem exec_code_append (e : Expr) (rest : Program) (stack : Stack) :
    (e.code ++ rest).exec stack = rest.exec (e.eval :: stack) := by
  induction e generalizing rest stack with
  | number value => rfl
  | negate operand ih => simp [code, eval, ih]
  | apply operation left right ihl ihr =>
    -- the left operand is listed first, so the machine finds the right one on top
    simp [code, ihl, ihr, eval_apply]

/-- A tree and its code have the same value. -/
theorem run_code (e : Expr) : e.code.run = .ok e.eval := by
  have h := e.exec_code_append [] []
  rw [List.append_nil, Program.exec_nil] at h
  simp only [Program.run, h]
  rfl

end Expr

end AssayRules
