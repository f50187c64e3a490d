import AssayRules.Proofs.Arrangement

/-!
# What a program is the listing of

Any list of instructions can be run, whether or not it is the code of an expression. Run on
trees in place of their values (`Program.trees`), the machine rebuilds what the instructions
list, and a run on values is the image of such a run (`Program.exec_map_eval`): the two take
the same steps and get stuck at the same instruction. Nothing is lost on the way, as the trees
on the stack, listed from the bottom up, always are the instructions so far
(`Program.listing_of_trees`). So a program that leaves one value has rebuilt one tree, and is
the listing of it.

Where the machine gets stuck is told by counting. An instruction lacks a value when it takes
more of them than the instructions before it have left (`Program.Underflows`), whatever the
values are, and that is the only way for an instruction to fail
(`Program.exec_eq_error_iff`).
-/

namespace AssayRules

/-- How many values an instruction takes from the stack. -/
def Instr.operands : Instr → Nat
  | push _ => 0
  | negate => 1
  | apply _ => 2

/-- **Popping from an empty stack.** On a stack of the given height, some instruction takes
more values than the instructions before it leave. -/
def Program.Underflows (height : Int) (program : Program) : Prop :=
  ∃ (before : Program) (instr : Instr) (after : Program), program = before ++ instr :: after ∧
    height + before.growth < instr.operands

/-! ### Counting -/

/-- An instruction fails if it takes more values than there are, and only then. -/
theorem Instr.exec_cases (instr : Instr) (stack : Stack) :
    (stack.length < instr.operands ∧ instr.exec stack = .error .stackUnderflow) ∨
      (instr.operands ≤ stack.length ∧ ∃ stack', instr.exec stack = .ok stack') :=
  match instr, stack with
  | push _, _ => Or.inr ⟨Nat.zero_le _, _, rfl⟩
  | negate, [] => Or.inl ⟨Nat.one_pos, rfl⟩
  | negate, _ :: _ => Or.inr ⟨Nat.le_add_left 1 _, _, rfl⟩
  | apply _, [] => Or.inl ⟨Nat.two_pos, rfl⟩
  | apply _, [_] => Or.inl ⟨Nat.one_lt_two, rfl⟩
  | apply _, _ :: _ :: _ => Or.inr ⟨Nat.le_add_left 2 _, _, rfl⟩

namespace Program

variable {program rest : Program} {instr : Instr} {height : Int}

theorem not_underflows_nil : ¬ Underflows height [] := by
  rintro ⟨before, instr, after, hsplit, -⟩
  exact List.append_ne_nil_of_right_ne_nil before (List.cons_ne_nil instr after) hsplit.symm

/-- Either the first instruction lacks a value, or one behind it does. -/
theorem underflows_cons_iff : Underflows height (instr :: rest) ↔
    height < instr.operands ∨ Underflows (height + instr.growth) rest := by
  constructor
  · -- either the first instruction lacks operands, or one behind it does on the stack that it
    -- leaves
    rintro ⟨before, last, after, hsplit, hlacks⟩
    cases before with
    | nil =>
      obtain ⟨rfl, -⟩ := List.cons.inj hsplit
      exact Or.inl (by simpa using hlacks)
    | cons first before =>
      obtain ⟨rfl, rfl⟩ := List.cons.inj hsplit
      rw [growth_cons, ← Int.add_assoc] at hlacks
      exact Or.inr ⟨before, last, after, rfl, hlacks⟩
  · rintro (hlacks | ⟨before, last, after, rfl, hlacks⟩)
    · exact ⟨[], instr, rest, rfl, by simpa using hlacks⟩
    · refine ⟨instr :: before, last, after, rfl, ?_⟩
      rwa [growth_cons, ← Int.add_assoc]

/-- **A run gets stuck where a value is lacking**, and nowhere else. -/
theorem exec_eq_error_iff {stack : Stack} :
    program.exec stack = .error .stackUnderflow ↔ program.Underflows stack.length := by
  -- on the instructions, with the height of the stack as all that counts
  induction program generalizing stack with
  | nil => exact iff_of_false (by rintro ⟨⟩) not_underflows_nil
  | cons instr rest ih =>
    rw [underflows_cons_iff, exec]
    rcases instr.exec_cases stack with ⟨hlt, hexec⟩ | ⟨hle, stack', hexec⟩
    · rw [hexec]
      exact iff_of_true rfl (Or.inl (Int.ofNat_lt.2 hlt))
    · -- it finds what it needs, so that only the rest can fail, on a stack of the new height
      have hlength := Instr.length_exec hexec
      rw [hexec, ← hlength, or_iff_right (Int.not_lt.2 (Int.ofNat_le.2 hle))]
      exact ih

/-! ### Rebuilding -/

/-- **A run on values is the image of the run on trees**, and gets stuck where that does. -/
theorem exec_map_eval (program : Program) (stack : List Expr) :
    program.exec (stack.map Expr.eval) =
      match program.trees stack with
      | some trees => .ok (trees.map Expr.eval)
      | none => .error .stackUnderflow := by
  -- instruction by instruction, with trees in the places of values
  fun_induction trees program stack with
  | case1 stack => rfl
  | case2 value rest stack ih => exact ih
  | case3 rest a stack ih => exact ih
  | case4 o rest b a stack ih =>
    -- what the machine works out is the value of the tree that is put together
    rw [← ih, List.map_cons, List.map_cons, List.map_cons, Expr.eval_apply]
    rfl
  | case5 instr rest stack hpush hnegate happly =>
    -- what has no trees to work on has no values either
    match instr, stack with
    | .push value, _ => exact (hpush value rfl).elim
    | .negate, [] => rfl
    | .negate, a :: stack => exact (hnegate a stack rfl rfl).elim
    | .apply _, [] => rfl
    | .apply _, [_] => rfl
    | .apply o, b :: a :: stack => exact (happly o b a stack rfl rfl).elim

/-- **The trees on the stack list the instructions so far**, from the bottom up. -/
theorem listing_of_trees {stack trees : List Expr} (h : program.trees stack = some trees) :
    trees.reverse.flatMap Expr.code = stack.reverse.flatMap Expr.code ++ program := by
  fun_induction Program.trees program stack with
  | case1 stack => rw [← Option.some.inj h, List.append_nil]
  -- what an instruction puts on top lists what it took, and then the instruction
  | case2 value rest stack ih => simp [ih h, Expr.code]
  | case3 rest a stack ih => simp [ih h, Expr.code]
  | case4 o rest b a stack ih => simp [ih h, Expr.code]
  | case5 => cases h

/-- A program rebuilds one tree if it is the listing of that tree. -/
theorem trees_eq_singleton_iff {e : Expr} : program.trees [] = some [e] ↔ e.code = program := by
  constructor
  · intro h
    simpa using listing_of_trees h
  · rintro rfl
    have h := e.trees_code_append [] []
    rwa [List.append_nil] at h

/-- **What a run comes to**, by the trees that are left. -/
theorem run_eq (program : Program) :
    program.run =
      match program.trees [] with
      | some [e] => .ok e.eval
      | some _ => .error .notOneValue
      | none => .error .stackUnderflow := by
  have hexec := exec_map_eval program []
  rw [List.map_nil] at hexec
  rw [run, hexec]
  rcases program.trees [] with _ | _ | ⟨e, _ | ⟨e', rest⟩⟩ <;> rfl

/-- Nothing is rebuilt if an instruction pops from an empty stack. -/
theorem trees_eq_none_iff : program.trees [] = none ↔ program.Underflows 0 := by
  have hexec := exec_map_eval program []
  rw [List.map_nil] at hexec
  have hunderflow : program.exec [] = .error .stackUnderflow ↔ program.Underflows 0 :=
    exec_eq_error_iff
  rw [← hunderflow, hexec]
  cases program.trees [] with
  | none => exact iff_of_true rfl rfl
  | some trees => exact iff_of_false (by rintro ⟨⟩) (by rintro ⟨⟩)

/-- **A program has a value if it is the listing of a tree**, which is then the only one, and
the value is that of the tree. Any other program fails: for the lack of a value if some
instruction pops from an empty stack, and otherwise because not one value is left. -/
theorem run_iff_listing (program : Program) :
    (∀ value, program.run = .ok value ↔
      ∃ e : Expr, e.eval = value ∧ ∀ e' : Expr, e'.code = program ↔ e' = e) ∧
    (program.run = .error .stackUnderflow ↔ program.Underflows 0) ∧
    (program.run = .error .notOneValue ↔
      ¬ program.Underflows 0 ∧ ¬ ∃ e : Expr, e.code = program) := by
  -- running the list is running it on trees, and then taking their values
  rw [run_eq, ← trees_eq_none_iff]
  simp only [← trees_eq_singleton_iff]
  -- the trees that are left tell the cases apart, and there is one tree in one of them only
  match program.trees [] with
  | none => simp
  | some [] => simp
  | some (_ :: _ :: _) => simp
  | some [e] =>
    refine ⟨fun value => ⟨fun h => ?_, ?_⟩, by simp, by simp⟩
    · exact ⟨e, Except.ok.inj h, fun e' => by simp [eq_comm]⟩
    · rintro ⟨e', heval, hunique⟩
      obtain rfl : e = e' := by simpa using (hunique e').2 rfl
      exact congrArg Except.ok heval

end Program

end AssayRules
