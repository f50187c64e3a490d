import AssayRules.Expr
import AssayRules.Program.OfTokens
import Mathlib.Tactic.Common

/-!
# The grammar of arithmetic

Which token lists are expressions, and how each of them is read as a tree.

`Derives` is the grammar as it is written down for users: an expression is a chain of
terms with operations between them, and a term is a number, an expression in
parentheses, or a term behind a sign. It says nothing about how tight operations bind.

`Precedence.Parses` says that, without reference to any pass over the tokens. A tree is
a reading of a token list when the left operand of every operation has outside its
parentheses only operations that bind **at least** as tight, and the right operand only
ones that bind **tighter**; that is precedence and association to the left in one. The
operand of a sign has none at all, so that a sign binds tightest. How tight an operation
binds is said here once more (`Precedence.binding`), and the ranks that the pass goes by
are shown to agree with it.

The two agree (`Precedence.exists_parses`): whatever is derived has a reading, by which
the new term of a chain goes down the right flank of the tree read so far, to the place
where everything above binds less tight than the operation in front of it.

A tree is determined by its postorder listing (`Expr.code_injective`), which is what
makes readings unique once they are known to have the code that tokens are arranged to.
-/

namespace AssayRules

/-- **The two phrases of the grammar.** -/
inductive Phrase where
  | term
  | expression

/-- **The token lists of a phrase.** The token of a sign is the one of its operation:
which of the two it is follows from where it stands. -/
inductive Derives : Phrase → List Token → Prop
  | number (value : Float) : Derives .term [.number value]
  | paren {tokens : List Token} (inside : Derives .expression tokens) :
      Derives .term (.leftParen :: (tokens ++ [.rightParen]))
  | sign {o : Operation} {tokens : List Token} (additive : o.isAdditive = true)
      (operand : Derives .term tokens) : Derives .term (.operator o :: tokens)
  | single {tokens : List Token} (term : Derives .term tokens) : Derives .expression tokens
  | chain {o : Operation} {left right : List Token} (front : Derives .expression left)
      (last : Derives .term right) : Derives .expression (left ++ .operator o :: right)

/-- **A token list is an expression.** -/
abbrev IsExpression (tokens : List Token) : Prop := Derives .expression tokens

namespace Precedence

/-- **How tight an operation binds**: products and quotients tighter than sums and differences,
or all alike. -/
def binding : Precedence → Operation → Nat
  | standard, .add | standard, .subtract => 0
  | standard, .multiply | standard, .divide => 1
  | leftToRight, _ => 0

/-- The ranks by which tokens are arranged are these. -/
theorem rank_eq_binding (mode : Precedence) (o : Operation) : mode.rank o = mode.binding o := by
  cases mode <;> cases o <;> rfl

/-- No operation binds that tight. -/
def tightest : Nat := 2

theorem binding_lt_tightest (mode : Precedence) (o : Operation) : mode.binding o < tightest := by
  cases mode <;> cases o <;> decide

/-- **How a token list is read as a tree**, given that no operation outside its
parentheses binds less tight than `bound`. -/
inductive Parses (mode : Precedence) : Nat → List Token → Expr → Prop
  | number (bound : Nat) (value : Float) : Parses mode bound [.number value] (.number value)
  | paren (bound : Nat) {tokens : List Token} {e : Expr} (inside : Parses mode 0 tokens e) :
      Parses mode bound (.leftParen :: (tokens ++ [.rightParen])) e
  | plus (bound : Nat) {tokens : List Token} {e : Expr}
      (operand : Parses mode tightest tokens e) :
      Parses mode bound (.operator .add :: tokens) e
  | minus (bound : Nat) {tokens : List Token} {e : Expr}
      (operand : Parses mode tightest tokens e) :
      Parses mode bound (.operator .subtract :: tokens) (.negate e)
  | apply {bound : Nat} {o : Operation} {left right : List Token} {a b : Expr}
      (bound_le : bound ≤ mode.binding o) (first : Parses mode (mode.binding o) left a)
      (second : Parses mode (mode.binding o + 1) right b) :
      Parses mode bound (left ++ .operator o :: right) (.apply o a b)

variable {mode : Precedence}

theorem Parses.mono {bound bound' : Nat} {tokens : List Token} {e : Expr}
    (h : Parses mode bound tokens e) (hle : bound' ≤ bound) : Parses mode bound' tokens e := by
  cases h with
  | number _ value => exact .number _ value
  | paren _ inside => exact .paren _ inside
  | plus _ operand => exact .plus _ operand
  | minus _ operand => exact .minus _ operand
  | apply bound_le first second => exact .apply (Nat.le_trans hle bound_le) first second

/-- **One more term.** What is read so far, an operation and a term have a reading. -/
theorem Parses.exists_append {bound : Nat} {tokens right : List Token} {e t : Expr}
    {o : Operation} (h : Parses mode bound tokens e) (bound_le : bound ≤ mode.binding o)
    (ht : Parses mode tightest right t) :
    ∃ e', Parses mode bound (tokens ++ .operator o :: right) e' := by
  -- a term binds tightest, so that it may stand on the right of any operation
  have hright : Parses mode (mode.binding o + 1) right t :=
    ht.mono (Nat.succ_le_of_lt (mode.binding_lt_tightest o))
  -- down the right flank, as far as operations bind less tight than the new one
  induction h with
  | number bound value => exact ⟨_, .apply bound_le (.number _ value) hright⟩
  | paren bound inside _ => exact ⟨_, .apply bound_le (.paren _ inside) hright⟩
  | plus bound operand _ => exact ⟨_, .apply bound_le (.plus _ operand) hright⟩
  | minus bound operand _ => exact ⟨_, .apply bound_le (.minus _ operand) hright⟩
  | @apply bound o' left right' a b bound_le' first second _ ih =>
    by_cases htight : mode.binding o ≤ mode.binding o'
    · -- the operation that was there binds at least as tight, so it stays below
      exact ⟨_, .apply bound_le (.apply htight first second) hright⟩
    · -- the new operation binds tighter and takes the right operand
      obtain ⟨b', hb'⟩ := ih (Nat.succ_le_of_lt (Nat.lt_of_not_le htight))
      refine ⟨.apply o' a b', ?_⟩
      rw [List.append_assoc, List.cons_append]
      exact .apply bound_le' first hb'

/-- **Every expression has a reading**, and every term one in which nothing outside
parentheses is an operation. -/
theorem exists_parses (mode : Precedence) {phrase : Phrase} {tokens : List Token}
    (h : Derives phrase tokens) :
    match phrase with
    | .term => ∃ e, Parses mode tightest tokens e
    | .expression => ∃ e, Parses mode 0 tokens e := by
  -- rule by rule, where only a chain has to be put in order
  induction h with
  | number value => exact ⟨_, .number _ value⟩
  | paren _ ih =>
    obtain ⟨e, he⟩ := ih
    exact ⟨e, .paren _ he⟩
  | @sign o _ additive _ ih =>
    obtain ⟨e, he⟩ := ih
    -- only two of the operations have a sign
    cases o with
    | add => exact ⟨_, .plus _ he⟩
    | subtract => exact ⟨_, .minus _ he⟩
    | multiply => cases additive
    | divide => cases additive
  | single _ ih =>
    obtain ⟨e, he⟩ := ih
    exact ⟨e, he.mono (Nat.zero_le _)⟩
  | chain _ _ ihleft ihright =>
    obtain ⟨a, ha⟩ := ihleft
    obtain ⟨b, hb⟩ := ihright
    exact ha.exists_append (Nat.zero_le _) hb

end Precedence

/-- **The trees that a program lists**, in front of a stack of trees: the machine run on
trees in place of their values, its top first. -/
def Program.trees : Program → List Expr → Option (List Expr)
  | [], stack => some stack
  | .push value :: rest, stack => trees rest (.number value :: stack)
  | .negate :: rest, a :: stack => trees rest (.negate a :: stack)
  | .apply o :: rest, b :: a :: stack => trees rest (.apply o a b :: stack)
  | _ :: _, _ => none

namespace Expr

/-- The listing of a tree is read back as that tree. -/
theorem trees_code_append (e : Expr) (rest : Program) (stack : List Expr) :
    (e.code ++ rest).trees stack = rest.trees (e :: stack) := by
  induction e generalizing rest stack with
  | number value => rfl
  | negate operand ih =>
    rw [code, List.append_assoc, ih]
    rfl
  | apply o left right ihleft ihright =>
    rw [code, List.append_assoc, List.append_assoc, ihleft, ihright]
    rfl

/-- **A tree is determined by its listing.** -/
theorem code_injective {e e' : Expr} (h : e.code = e'.code) : e = e' := by
  -- the listing alone gives the tree back
  have hread : ∀ e : Expr, e.code.trees [] = some [e] := fun e => by
    have := e.trees_code_append [] []
    rwa [List.append_nil] at this
  have heq := hread e
  rw [h, hread e'] at heq
  simpa using heq.symm

end Expr

end AssayRules
