import AssayRules.Evaluation
import AssayRules.Proofs.Grammar
import Mathlib.Algebra.Ring.Int.Defs
import Mathlib.Data.List.TakeWhile

/-!
# What the arrangement of tokens computes

The pass from tokens to a program accepts the expressions of the grammar, and the
program it makes of one is the listing of its tree.

* `Arrangement.steps_of_parses` goes from the grammar to the pass. Arranged behind
  anything that guards it (`Arrangement.Guards`), an expression leaves on top of what
  waited before only signs and operations of at least its bound, and what it has emitted,
  followed by the code of these, is the code of its tree. So what waits is a path down
  the right flank of the tree, and an operation that arrives releases just the part of it
  that becomes its left operand.
* `Arrangement.Fits.step` goes back. `Due n` and `Complete n` say what the tokens so far
  are worth with `n` parentheses open: a term will complete them, or they are complete.
  Every token that is accepted takes one of these to the other, whatever the ranks are.
* `Arrangement.Balanced.step` counts. A token that says it is a sign, where an operation is
  due, adds an operand without taking one away, so that one value too many is left when
  the program is run.
-/

namespace AssayRules

/-! ### From the grammar to the pass -/

namespace Pending

/-- What an expression under a bound may leave waiting: signs, and operations that
bind at least as tight. -/
def RanksFrom (mode : Precedence) (bound : Nat) : Pending → Prop
  | paren => False
  | sign _ => True
  | operation o => bound ≤ mode.binding o

theorem RanksFrom.mono {mode : Precedence} {bound bound' : Nat} {p : Pending}
    (h : p.RanksFrom mode bound) (hle : bound' ≤ bound) : p.RanksFrom mode bound' := by
  cases p with
  | paren => exact h
  | sign negates => trivial
  | operation o => exact Nat.le_trans hle h

theorem RanksFrom.of_tightest {mode : Precedence} {p : Pending}
    (h : p.RanksFrom mode Precedence.tightest) (bound : Nat) : p.RanksFrom mode bound := by
  -- no operation binds that tight, so it is a sign
  cases p with
  | paren => exact h
  | sign negates => trivial
  | operation o => exact absurd h (Nat.not_le_of_lt (mode.binding_lt_tightest o))

theorem RanksFrom.isOperator {mode : Precedence} {bound : Nat} {p : Pending}
    (h : p.RanksFrom mode bound) : p.isOperator = true := by
  cases p with
  | paren => exact h.elim
  | sign negates => rfl
  | operation o => rfl

theorem RanksFrom.yieldsTo {mode : Precedence} {o : Operation} {p : Pending}
    (h : p.RanksFrom mode (mode.binding o)) : p.yieldsTo mode o = true := by
  cases p with
  | paren => exact h.elim
  | sign negates => rfl
  | operation o' =>
    refine decide_eq_true ?_
    rwa [mode.rank_eq_binding, mode.rank_eq_binding]

end Pending

namespace Arrangement

variable {mode : Precedence}

theorem steps_append (a : Arrangement) (first second : List Token) :
    a.steps mode (first ++ second)
      = a.steps mode first >>= fun a' => a'.steps mode second := by
  induction first generalizing a with
  | nil => rfl
  | cons token rest ih =>
    rw [List.cons_append, steps, steps]
    cases a.step mode token with
    | error cause => rfl
    | ok a' => exact ih a'

/-- **What every token keeps, a run keeps.** -/
theorem steps_induction {motive : Arrangement → List Token → Prop} {tokens : List Token}
    (hstep : ∀ a a' before token, token ∈ tokens → motive a before →
      a.step mode token = .ok a' → motive a' (before ++ [token]))
    {a a' : Arrangement} {before : List Token} (hmotive : motive a before)
    (h : a.steps mode tokens = .ok a') : motive a' (before ++ tokens) := by
  -- the tokens behind `before` are taken one by one, each moving over to it
  induction tokens generalizing a before with
  | nil =>
    cases h
    rwa [List.append_nil]
  | cons token rest ih =>
    obtain ⟨next, hnext, h⟩ := bind_eq_ok_iff.1 h
    have hrest := ih (fun b b' before' t ht => hstep b b' before' t (List.mem_cons_of_mem _ ht))
      (hstep a next before token List.mem_cons_self hmotive hnext) h
    rwa [List.append_assoc] at hrest

/-- An operation behind an operand releases what yields to it, and waits. -/
theorem step_operator_of_not_due (emitted : List Instr) (pending : List Pending)
    (o : Operation) :
    step mode ⟨emitted, pending, false⟩ (.operator o)
      = .ok (((⟨emitted, pending, false⟩ : Arrangement).release
          (Pending.yieldsTo mode o)).await (.operation o)) := rfl

/-- **What waits guards an expression** under a bound: nothing of it is released by an
operation that binds at least as tight. -/
def Guards (mode : Precedence) (bound : Nat) (pending : List Pending) : Prop :=
  ∀ o, bound ≤ mode.binding o → pending.takeWhile (Pending.yieldsTo mode o) = []

theorem Guards.mono {bound bound' : Nat} {pending : List Pending}
    (h : Guards mode bound pending) (hle : bound ≤ bound') : Guards mode bound' pending :=
  fun o ho => h o (Nat.le_trans hle ho)

theorem Guards.nil (bound : Nat) : Guards mode bound [] := fun _ _ => rfl

theorem Guards.paren (bound : Nat) (pending : List Pending) :
    Guards mode bound (.paren :: pending) := fun _ _ => rfl

theorem Guards.tightest (pending : List Pending) :
    Guards mode Precedence.tightest pending :=
  fun o ho => absurd ho (Nat.not_le_of_lt (mode.binding_lt_tightest o))

/-- An operation guards its right operand, in which all operations bind tighter. -/
theorem Guards.operation (o : Operation) (pending : List Pending) :
    Guards mode (mode.binding o + 1) (.operation o :: pending) := by
  intro o' ho'
  rw [List.takeWhile_cons_of_neg]
  have hlt : ¬ mode.rank o' ≤ mode.rank o := by
    rw [mode.rank_eq_binding, mode.rank_eq_binding]
    omega
  simp [Pending.yieldsTo, hlt]

theorem release_append {p : Pending → Bool} {emitted : List Instr}
    {waiting pending : List Pending} {due : Bool} (hwaiting : ∀ w ∈ waiting, p w = true)
    (hpending : pending.takeWhile p = []) :
    (⟨emitted, waiting ++ pending, due⟩ : Arrangement).release p
      = ⟨(waiting.flatMap Pending.code).reverse ++ emitted, pending, due⟩ := by
  have hdrop : pending.dropWhile p = pending := by
    have h := List.takeWhile_append_dropWhile (p := p) (l := pending)
    rwa [hpending, List.nil_append] at h
  rw [release, List.takeWhile_append_of_pos hwaiting, List.dropWhile_append_of_pos hwaiting,
    hpending, hdrop, List.append_nil]

/-- **An expression is arranged to the code of its tree.** The induction is on the reading;
what waits on top afterwards is the right flank of the tree, whose code is still to come. -/
theorem steps_of_parses {bound : Nat} {tokens : List Token} {e : Expr}
    (h : mode.Parses bound tokens e) (emitted : List Instr) {pending : List Pending}
    (guards : Guards mode bound pending) :
    ∃ emitted' waiting, (∀ w ∈ waiting, w.RanksFrom mode bound) ∧
      steps mode ⟨emitted, pending, true⟩ tokens = .ok ⟨emitted', waiting ++ pending, false⟩ ∧
      emitted'.reverse ++ waiting.flatMap Pending.code = emitted.reverse ++ e.code := by
  -- on how the tokens parse, for any code before and any pending operations that are guarded
  induction h generalizing emitted pending with
  | number bound value =>
    exact ⟨.push value :: emitted, [], by simp, rfl, by simp [Expr.code]⟩
  | @paren bound tokens e _ ih =>
    -- closing releases all that is left waiting inside, and the parenthesis with it
    obtain ⟨emitted', waiting, hwaiting, hsteps, hcode⟩ := ih emitted (Guards.paren 0 pending)
    refine ⟨(waiting.flatMap Pending.code).reverse ++ emitted', [], by simp, ?_, ?_⟩
    · have hclose : step mode ⟨emitted', waiting ++ .paren :: pending, false⟩ .rightParen
          = .ok ⟨(waiting.flatMap Pending.code).reverse ++ emitted', pending, false⟩ := by
        rw [step, if_neg (by simp),
          release_append (fun w hw => (hwaiting w hw).isOperator) rfl]
      change (steps mode ⟨emitted, .paren :: pending, true⟩ (tokens ++ [.rightParen])) = _
      rw [steps_append, hsteps]
      change (step mode ⟨emitted', waiting ++ .paren :: pending, false⟩ .rightParen
        >>= fun a' => steps mode a' []) = _
      rw [hclose]
      rfl
    · simpa using hcode
  | @plus bound tokens e _ ih =>
    -- the sign waits below what its operand leaves, and its code is empty
    obtain ⟨emitted', waiting, hwaiting, hsteps, hcode⟩ :=
      ih emitted (Guards.tightest (.sign false :: pending))
    refine ⟨emitted', waiting ++ [.sign false], ?_, ?_, ?_⟩
    · exact List.forall_mem_append.2
        ⟨fun w hw => (hwaiting w hw).of_tightest bound, List.forall_mem_singleton.2 trivial⟩
    · rw [List.append_assoc]
      exact hsteps
    · rw [List.flatMap_append, ← List.append_assoc, hcode]
      simp [Pending.code]
  | @minus bound tokens e _ ih =>
    -- the sign waits below what its operand leaves, and its code comes last
    obtain ⟨emitted', waiting, hwaiting, hsteps, hcode⟩ :=
      ih emitted (Guards.tightest (.sign true :: pending))
    refine ⟨emitted', waiting ++ [.sign true], ?_, ?_, ?_⟩
    · exact List.forall_mem_append.2
        ⟨fun w hw => (hwaiting w hw).of_tightest bound, List.forall_mem_singleton.2 trivial⟩
    · rw [List.append_assoc]
      exact hsteps
    · rw [List.flatMap_append, ← List.append_assoc, hcode]
      simp [Pending.code, Expr.code]
  | @apply bound o left right a b bound_le _ _ ihleft ihright =>
    -- the right operand starts above the operation, which guards it in turn
    obtain ⟨emitted₁, waiting₁, hwaiting₁, hsteps₁, hcode₁⟩ :=
      ihleft emitted (guards.mono bound_le)
    -- the operation releases all that its left operand left waiting, and no more
    have hstep : step mode ⟨emitted₁, waiting₁ ++ pending, false⟩ (.operator o)
        = .ok ⟨(waiting₁.flatMap Pending.code).reverse ++ emitted₁, .operation o :: pending,
            true⟩ := by
      rw [step_operator_of_not_due,
        release_append (fun w hw => (hwaiting₁ w hw).yieldsTo) (guards o bound_le)]
      rfl
    obtain ⟨emitted₂, waiting₂, hwaiting₂, hsteps₂, hcode₂⟩ :=
      ihright ((waiting₁.flatMap Pending.code).reverse ++ emitted₁)
        (Guards.operation o pending)
    refine ⟨emitted₂, waiting₂ ++ [.operation o], ?_, ?_, ?_⟩
    · exact List.forall_mem_append.2
        ⟨fun w hw => (hwaiting₂ w hw).mono (Nat.le_succ_of_le bound_le),
          List.forall_mem_singleton.2 bound_le⟩
    · rw [steps_append, hsteps₁]
      change (step mode ⟨emitted₁, waiting₁ ++ pending, false⟩ (.operator o)
        >>= fun a' => steps mode a' right) = _
      rw [hstep, List.append_assoc]
      exact hsteps₂
    · rw [List.flatMap_append, ← List.append_assoc, hcode₂, List.reverse_append,
        List.reverse_reverse, hcode₁]
      simp [Pending.code, Expr.code]

/-! ### From the pass to the grammar -/

/-- **A term is due**, with `n` parentheses open: the tokens in every open group, and the
ones outside all of them, are completed by any term. -/
def Due : Nat → List Token → Prop
  | 0, tokens => ∀ term, Derives .term term → IsExpression (tokens ++ term)
  | n + 1, tokens => ∃ outer inner, tokens = outer ++ .leftParen :: inner ∧ Due n outer ∧
      ∀ term, Derives .term term → IsExpression (inner ++ term)

/-- **The innermost group is complete**, with `n` parentheses open. -/
def Complete : Nat → List Token → Prop
  | 0, tokens => IsExpression tokens
  | n + 1, tokens => ∃ outer inner, tokens = outer ++ .leftParen :: inner ∧ Due n outer ∧
      IsExpression inner

theorem Due.append_term {n : Nat} {tokens term : List Token} (h : Due n tokens)
    (hterm : Derives .term term) : Complete n (tokens ++ term) := by
  cases n with
  | zero => exact h term hterm
  | succ n =>
    obtain ⟨outer, inner, rfl, houter, hinner⟩ := h
    exact ⟨outer, inner ++ term, by simp, houter, hinner term hterm⟩

theorem Due.append_sign {n : Nat} {tokens : List Token} {o : Operation} (h : Due n tokens)
    (additive : o.isAdditive = true) : Due n (tokens ++ [.operator o]) := by
  -- the sign goes in front of the term that is due, with no parenthesis open or in the last one
  cases n with
  | zero =>
    intro term hterm
    rw [List.append_assoc]
    exact h _ (.sign additive hterm)
  | succ n =>
    obtain ⟨outer, inner, rfl, houter, hinner⟩ := h
    refine ⟨outer, inner ++ [.operator o], by simp, houter, fun term hterm => ?_⟩
    rw [List.append_assoc]
    exact hinner _ (.sign additive hterm)

theorem Due.append_leftParen {n : Nat} {tokens : List Token} (h : Due n tokens) :
    Due (n + 1) (tokens ++ [.leftParen]) :=
  ⟨tokens, [], rfl, h, fun _ hterm => .single hterm⟩

theorem Complete.append_operator {n : Nat} {tokens : List Token} (h : Complete n tokens)
    (o : Operation) : Due n (tokens ++ [.operator o]) := by
  -- an operation behind a complete term lets another one begin, at the same depth
  cases n with
  | zero =>
    intro term hterm
    rw [List.append_assoc]
    exact .chain h hterm
  | succ n =>
    obtain ⟨outer, inner, rfl, houter, hinner⟩ := h
    refine ⟨outer, inner ++ [.operator o], by simp, houter, fun term hterm => ?_⟩
    rw [List.append_assoc]
    exact .chain hinner hterm

theorem Complete.append_rightParen {n : Nat} {tokens : List Token}
    (h : Complete (n + 1) tokens) : Complete n (tokens ++ [.rightParen]) := by
  obtain ⟨outer, inner, rfl, houter, hinner⟩ := h
  rw [List.append_assoc, List.cons_append]
  exact houter.append_term (.paren hinner)

/-- What waits is all operators if no parenthesis is among it. -/
theorem forall_isOperator_iff {waiting : List Pending} :
    (∀ w ∈ waiting, w.isOperator = true) ↔ waiting.count .paren = 0 := by
  rw [List.count_eq_zero]
  constructor
  · intro h hmem
    cases h _ hmem
  · intro h w hw
    cases w with
    | paren => exact absurd hw h
    | sign negates => rfl
    | operation o => rfl

theorem count_paren_dropWhile {p : Pending → Bool} (hp : p .paren = false)
    (pending : List Pending) :
    (pending.dropWhile p).count .paren = pending.count .paren := by
  -- what is dropped has no parenthesis in it
  have hnone : (pending.takeWhile p).count .paren = 0 := by
    refine List.count_eq_zero.2 fun hmem => ?_
    have htrue := List.mem_takeWhile_imp hmem
    rw [hp] at htrue
    cases htrue
  have hsplit := congrArg (List.count Pending.paren)
    (List.takeWhile_append_dropWhile (p := p) (l := pending))
  rw [List.count_append, hnone, Nat.zero_add] at hsplit
  exact hsplit

/-- **Closing a parenthesis** behind an operand: it is refused if none waits, and otherwise
takes away the latest one that waits, with what waits in front of it released. -/
theorem step_rightParen_cases (mode : Precedence) (emitted : List Instr)
    (pending : List Pending) :
    (pending.count .paren = 0 ∧
        step mode ⟨emitted, pending, false⟩ .rightParen = .error .parenNotOpened) ∨
      ∃ waiting outer, pending = waiting ++ .paren :: outer ∧
        (∀ w ∈ waiting, w.isOperator = true) ∧
        step mode ⟨emitted, pending, false⟩ .rightParen
          = .ok ⟨(waiting.flatMap Pending.code).reverse ++ emitted, outer, false⟩ := by
  -- operators are released up to the first that is none, where there is one
  have hsplit := List.takeWhile_append_dropWhile (p := Pending.isOperator) (l := pending)
  have hcount := count_paren_dropWhile (p := Pending.isOperator) rfl pending
  have hfirst := List.head?_dropWhile_not Pending.isOperator pending
  rw [step, if_neg (by simp), release]
  dsimp only
  cases hdrop : pending.dropWhile Pending.isOperator with
  | nil =>
    rw [hdrop] at hcount
    exact Or.inl ⟨hcount.symm, rfl⟩
  | cons w outer =>
    rw [hdrop] at hsplit hfirst
    -- what stops the release is a parenthesis
    cases w with
    | paren => exact Or.inr ⟨_, outer, hsplit.symm, fun _ => List.mem_takeWhile_imp, rfl⟩
    | sign negates => cases hfirst
    | operation o => cases hfirst

/-- **The state fits the tokens** that led to it. -/
def Fits (a : Arrangement) (tokens : List Token) : Prop :=
  if a.operandDue then Due (a.pending.count .paren) tokens
  else Complete (a.pending.count .paren) tokens

theorem Fits.start : Arrangement.start.Fits [] := fun _ hterm => .single hterm

/-- Whether a token says by itself that it is a sign. -/
def isSignToken : Token → Bool
  | .negative | .positive => true
  | _ => false

/-- **One token keeps the fit**, unless it says by itself that it is a sign. -/
theorem Fits.step {a a' : Arrangement} {tokens : List Token} {token : Token}
    (hfits : a.Fits tokens) (hsign : isSignToken token = false) (hstop : token ≠ .stop)
    (h : a.step mode token = .ok a') : a'.Fits (tokens ++ [token]) := by
  -- by the token that is taken and by whether an operand is due, which are the cases of `step`
  obtain ⟨emitted, pending, due⟩ := a
  cases token with
  | number value =>
    cases due with
    | true =>
      cases h
      exact Due.append_term hfits (.number value)
    | false => cases h
  | leftParen =>
    cases due with
    | true =>
      cases h
      change Due ((Pending.paren :: pending).count .paren) _
      rw [List.count_cons_self]
      exact Due.append_leftParen hfits
    | false => cases h
  | rightParen =>
    cases due with
    | true => cases h
    | false =>
      -- it closes the last parenthesis opened, and without one the step fails
      rcases step_rightParen_cases mode emitted pending with
        ⟨-, herror⟩ | ⟨waiting, outer, rfl, hwaiting, hok⟩
      · rw [herror] at h
        cases h
      · rw [hok] at h
        cases h
        change Complete _ _ at hfits
        rw [List.count_append, forall_isOperator_iff.1 hwaiting, Nat.zero_add,
          List.count_cons_self] at hfits
        exact Complete.append_rightParen hfits
  | operator o =>
    cases due with
    | true =>
      -- where an operand is due it is a sign, and else an operation
      cases o with
      | add =>
        cases h
        exact Due.append_sign hfits rfl
      | subtract =>
        cases h
        exact Due.append_sign hfits rfl
      | multiply => cases h
      | divide => cases h
    | false =>
      -- what is released has no parenthesis, so that the depth stays as it is
      rw [step_operator_of_not_due] at h
      cases h
      change Due ((Pending.operation o :: pending.dropWhile _).count .paren) _
      rw [List.count_cons_of_ne (by simp), count_paren_dropWhile rfl]
      exact Complete.append_operator hfits o
  | negative => cases hsign
  | positive => cases hsign
  | stop => exact absurd rfl hstop

/-- **A run keeps the fit.** -/
theorem Fits.steps {a a' : Arrangement} {before tokens : List Token} (hfits : a.Fits before)
    (hsign : ∀ token ∈ tokens, isSignToken token = false) (hstop : .stop ∉ tokens)
    (h : a.steps mode tokens = .ok a') : a'.Fits (before ++ tokens) := by
  refine steps_induction ?_ hfits h
  intro next next' tokens' token hmem hnext hstep
  exact hnext.step (hsign token hmem) (fun he => hstop (he ▸ hmem)) hstep

end Arrangement

/-! ### Counting values -/

/-- By how many values an instruction makes the stack grow. -/
def Instr.growth : Instr → Int
  | push _ => 1
  | negate => 0
  | apply _ => -1

/-- By how many values a program makes the stack grow. -/
def Program.growth (program : Program) : Int := (program.map Instr.growth).sum

@[simp] theorem Program.growth_nil : growth [] = 0 := rfl

@[simp] theorem Program.growth_cons (instr : Instr) (rest : Program) :
    growth (instr :: rest) = instr.growth + growth rest := by
  simp [growth]

theorem Program.growth_append (first second : Program) :
    (first ++ second).growth = first.growth + second.growth := by
  simp [growth]

theorem Instr.length_exec {instr : Instr} {stack stack' : Stack}
    (h : instr.exec stack = .ok stack') : (stack'.length : Int) = stack.length + instr.growth := by
  -- a stack that is too short for the instruction has no outcome
  cases instr with
  | push value =>
    cases h
    simp [growth]
  | negate =>
    cases stack with
    | nil => cases h
    | cons a rest =>
      cases h
      simp [growth]
  | apply o =>
    cases stack with
    | nil => cases h
    | cons b rest =>
      cases rest with
      | nil => cases h
      | cons a rest =>
        cases h
        simp only [growth, List.length_cons]
        omega

theorem Program.length_exec {program : Program} {stack stack' : Stack}
    (h : program.exec stack = .ok stack') :
    (stack'.length : Int) = stack.length + program.growth := by
  -- the instructions take the stack over one from the other
  induction program generalizing stack with
  | nil =>
    cases h
    simp [growth]
  | cons instr rest ih =>
    obtain ⟨next, hinstr, h⟩ := bind_eq_ok_iff.1 h
    have hnext := Instr.length_exec hinstr
    have hrest := ih h
    rw [growth_cons]
    omega

theorem Program.growth_of_run_eq_ok {program : Program} {value : Float}
    (h : program.run = .ok value) : program.growth = 1 := by
  obtain ⟨stack, hexec, h⟩ := bind_eq_ok_iff.1 h
  have hlength := length_exec hexec
  match stack, h with
  | [_], _ => simpa using hlength.symm

namespace Arrangement

variable {mode : Precedence}

/-- The values that an arrangement comes to: by what is emitted and by what waits. -/
def growth (a : Arrangement) : Int :=
  a.program.growth + Program.growth (a.pending.flatMap Pending.code)

theorem growth_emit (instr : Instr) (a : Arrangement) :
    (a.emit instr).growth = a.growth + instr.growth := by
  have hone : Program.growth [instr] = instr.growth := by simp [Program.growth]
  rw [growth, program_emit, Program.growth_append, hone]
  change _ + Program.growth (a.pending.flatMap Pending.code) = a.growth + _
  rw [growth]
  omega

theorem growth_release (p : Pending → Bool) (a : Arrangement) :
    (a.release p).growth = a.growth := by
  -- code only moves from what waits to what is emitted
  rw [growth, program_release, Program.growth_append, Int.add_assoc, ← Program.growth_append,
    release, ← List.flatMap_append, List.takeWhile_append_dropWhile, growth]

theorem growth_await (p : Pending) (a : Arrangement) :
    (a.await p).growth = a.growth + p.code.growth := by
  rw [growth, program_await, await, List.flatMap_cons, Program.growth_append, growth]
  omega

/-- **The count of values** behind some tokens: one value if no operand is due, none if one
is, and one more for every token that says by itself that it is a sign. -/
def Balanced (a : Arrangement) (tokens : List Token) : Prop :=
  a.growth = (if a.operandDue then 0 else 1) + tokens.countP isSignToken

theorem Balanced.start : Arrangement.start.Balanced [] := rfl

/-- **One token keeps the count.** -/
theorem Balanced.step {a a' : Arrangement} {tokens : List Token} {token : Token}
    (hbalanced : a.Balanced tokens) (h : a.step mode token = .ok a') :
    a'.Balanced (tokens ++ [token]) := by
  -- a sign waits with code that leaves as many values as before
  have hsign : ∀ negates, (Pending.sign negates).code.growth = 0 := by decide
  obtain ⟨emitted, pending, due⟩ := a
  unfold Balanced at hbalanced ⊢
  rw [List.countP_append, List.countP_singleton]
  -- each case counts the values before and after, where an operand that is due counts as one less
  cases token with
  | number value =>
    cases due with
    | true =>
      cases h
      change (emit (.push value) ⟨emitted, pending, true⟩).growth = _
      rw [growth_emit, hbalanced]
      simp [Instr.growth, isSignToken]
      omega
    | false => cases h
  | leftParen =>
    cases due with
    | true =>
      cases h
      rw [growth_await, hbalanced]
      rfl
    | false => cases h
  | rightParen =>
    cases due with
    | true => cases h
    | false =>
      rcases step_rightParen_cases mode emitted pending with
        ⟨-, herror⟩ | ⟨waiting, outer, rfl, -, hok⟩
      · rw [herror] at h
        -- what was waiting inside is only moved from pending to emitted
        cases h
      · rw [hok] at h
        cases h
        -- the parenthesis that is closed has no code
        rw [growth, program, List.flatMap_append, List.flatMap_cons] at hbalanced
        rw [growth, program, List.reverse_append, List.reverse_reverse, Program.growth_append,
          Int.add_assoc, ← Program.growth_append]
        exact hbalanced
  | operator o =>
    cases due with
    | true =>
      cases o with
      | add =>
        cases h
        rw [growth_await, hbalanced, hsign]
        rfl
      | subtract =>
        cases h
        rw [growth_await, hbalanced, hsign]
        rfl
      | multiply => cases h
      | divide => cases h
    | false =>
      rw [step_operator_of_not_due] at h
      cases h
      rw [growth_await, growth_release, hbalanced]
      -- the operation takes the operand away that is no longer counted as there
      have hcode : (Pending.operation o).code.growth = -1 := rfl
      rw [hcode]
      change (1 : Int) + tokens.countP isSignToken + -1 = 0 + (tokens.countP isSignToken + 0 : Nat)
      omega
  | negative =>
    cases due with
    | true => cases h
    | false =>
      -- an operand is due again, and nothing has taken the one that was there
      cases h
      rw [growth_await, hbalanced, hsign]
      simp [isSignToken, await]
      omega
  | positive =>
    cases due with
    | true => cases h
    | false =>
      cases h
      rw [growth_await, hbalanced, hsign]
      simp [isSignToken, await]
      omega
  | stop =>
    cases h
    rw [hbalanced]
    rfl

/-- **A run keeps the count.** -/
theorem Balanced.steps {a a' : Arrangement} {before tokens : List Token}
    (hbalanced : a.Balanced before) (h : a.steps mode tokens = .ok a') :
    a'.Balanced (before ++ tokens) := by
  refine steps_induction ?_ hbalanced h
  intro next next' tokens' token _ hnext hstep
  exact hnext.step hstep

/-! ### The whole pass -/

/-- What a pass that ends well ends with: no operand due, no parenthesis open, and the code
of what waits behind what is emitted. -/
theorem of_finish_eq_ok {a : Arrangement} {program : Program} (h : a.finish = .ok program) :
    a.operandDue = false ∧ a.pending.count .paren = 0 ∧
      program = a.program ++ a.pending.flatMap Pending.code := by
  -- an end comes to a program where no operand is due and no parenthesis is open
  unfold finish at h
  split at h
  · cases h
  · rename_i hdue
    split at h
    · rename_i hall
      cases h
      have hoperators := List.all_eq_true.1 hall
      refine ⟨by simpa using hdue, ?_, ?_⟩
      · exact forall_isOperator_iff.1 hoperators
      · rw [program_release, List.takeWhile_eq_self_iff.2 hoperators]
    · cases h

theorem finish_of_forall_isOperator (emitted : List Instr) {waiting : List Pending}
    (h : ∀ w ∈ waiting, w.isOperator = true) :
    finish ⟨emitted, waiting, false⟩ = .ok (emitted.reverse ++ waiting.flatMap Pending.code) := by
  rw [finish, if_neg (by simp), if_pos (List.all_eq_true.2 h), program_release,
    List.takeWhile_eq_self_iff.2 h]
  rfl

end Arrangement

namespace Program

variable {mode : Precedence}

theorem exists_of_ofTokens_eq_ok {tokens : List Token} {program : Program}
    (h : ofTokens mode tokens = .ok program) :
    ∃ a, Arrangement.start.steps mode (tokens.takeWhile (· != .stop)) = .ok a ∧
      a.finish = .ok program := bind_eq_ok_iff.1 h

/-- **A reading is arranged to its code.** -/
theorem ofTokens_of_parses {tokens : List Token} {e : Expr}
    (h : mode.Parses 0 (tokens.takeWhile (· != .stop)) e) :
    ofTokens mode tokens = .ok e.code := by
  obtain ⟨emitted, waiting, hwaiting, hsteps, hcode⟩ :=
    Arrangement.steps_of_parses h [] (Arrangement.Guards.nil 0)
  -- nothing is pending at first, so that all that waits in the end is from these tokens
  rw [List.append_nil] at hsteps
  have hfinish := Arrangement.finish_of_forall_isOperator emitted
    (fun w hw => (hwaiting w hw).isOperator)
  unfold ofTokens Arrangement.start
  rw [hsteps]
  change Arrangement.finish ⟨emitted, waiting, false⟩ = _
  rw [hfinish, hcode]
  rfl

/-- **What is arranged is an expression**, if no token says by itself that it is a sign. -/
theorem isExpression_of_ofTokens_eq_ok {tokens : List Token} {program : Program}
    (hsign : ∀ token ∈ tokens.takeWhile (· != .stop), Arrangement.isSignToken token = false)
    (h : ofTokens mode tokens = .ok program) :
    IsExpression (tokens.takeWhile (· != .stop)) := by
  obtain ⟨a, hsteps, hfinish⟩ := exists_of_ofTokens_eq_ok h
  obtain ⟨hdue, hcount, -⟩ := Arrangement.of_finish_eq_ok hfinish
  have hstop : Token.stop ∉ tokens.takeWhile (· != .stop) := fun hmem => by
    simpa using List.mem_takeWhile_imp hmem
  have hfits := Arrangement.Fits.start.steps hsign hstop hsteps
  rw [List.nil_append, Arrangement.Fits, hdue, if_neg (by simp), hcount] at hfits
  exact hfits

/-- A program that has a value was arranged from tokens of which none says by itself that it
is a sign. -/
theorem isSignToken_eq_false_of_run_eq_ok {tokens : List Token} {program : Program}
    {value : Float} (h : ofTokens mode tokens = .ok program) (hrun : program.run = .ok value) :
    ∀ token ∈ tokens.takeWhile (· != .stop), Arrangement.isSignToken token = false := by
  obtain ⟨a, hsteps, hfinish⟩ := exists_of_ofTokens_eq_ok h
  -- the count that every step keeps, at the end and with one value left
  obtain ⟨hdue, -, hprogram⟩ := Arrangement.of_finish_eq_ok hfinish
  have hbalanced := Arrangement.Balanced.start.steps hsteps
  have hgrowth := growth_of_run_eq_ok hrun
  rw [List.nil_append, Arrangement.Balanced, hdue, Arrangement.growth, ← growth_append,
    ← hprogram, hgrowth] at hbalanced
  -- each such token would leave a value too many
  have hcount : (tokens.takeWhile (· != .stop)).countP Arrangement.isSignToken = 0 := by
    rw [if_neg Bool.false_ne_true] at hbalanced
    omega
  intro token hmem
  have := List.countP_eq_zero.1 hcount token hmem
  simpa using this

end Program

/-- **Tokens have the value of their reading** as a tree. -/
theorem evaluateTokens_of_parses {mode : Precedence} {tokens : List Token} {e : Expr}
    (h : mode.Parses 0 (tokens.takeWhile (· != .stop)) e) :
    evaluateTokens mode tokens = .ok e.eval := by
  rw [evaluateTokens, Program.ofTokens_of_parses h]
  exact e.run_code

/-- **There is only one reading**, as two would have the one program as their listing. -/
theorem Precedence.Parses.unique {mode : Precedence} {tokens : List Token} {e e' : Expr}
    (hstop : tokens.takeWhile (· != .stop) = tokens) (h : mode.Parses 0 tokens e)
    (h' : mode.Parses 0 tokens e') : e = e' := by
  rw [← hstop] at h h'
  have hcode := (Program.ofTokens_of_parses h).symm.trans (Program.ofTokens_of_parses h')
  exact Expr.code_injective (Except.ok.inj hcode)

/-- **The tokens that have a value are the expressions**, none of whose tokens says by
itself that it is a sign. The value is that of the only reading as a tree. Tokens of the
first kind that are no expression are refused before anything is run, and a program made
of such tokens always runs to exactly one value. -/
theorem evaluateTokens_eq_ok_iff_isExpression (mode : Precedence) (tokens : List Token) :
    let sentence := tokens.takeWhile (· != .stop)
    ((∃ value, evaluateTokens mode tokens = .ok value) ↔
        (.negative ∉ sentence ∧ .positive ∉ sentence) ∧ IsExpression sentence) ∧
      (IsExpression sentence → ∃! e, mode.Parses 0 sentence e) ∧
      (∀ e, mode.Parses 0 sentence e → evaluateTokens mode tokens = .ok e.eval) ∧
      (.negative ∉ sentence ∧ .positive ∉ sentence →
        (¬ IsExpression sentence → ∃ cause, Program.ofTokens mode tokens = .error cause) ∧
        ∀ program, Program.ofTokens mode tokens = .ok program →
          ∃ value, program.exec [] = .ok [value]) := by
  intro sentence
  -- the two tokens are told apart from all others by `isSignToken`
  have hsigns : (.negative ∉ sentence ∧ .positive ∉ sentence) ↔
      ∀ token ∈ sentence, Arrangement.isSignToken token = false := by
    refine ⟨fun ⟨hneg, hpos⟩ token hmem => ?_, fun h => ⟨fun hmem => ?_, fun hmem => ?_⟩⟩
    · cases token with
      | negative => exact absurd hmem hneg
      | positive => exact absurd hmem hpos
      | _ => rfl
    · cases h _ hmem
    · cases h _ hmem
  have hvalue : ∀ e, mode.Parses 0 sentence e → evaluateTokens mode tokens = .ok e.eval :=
    fun e he => evaluateTokens_of_parses he
  refine ⟨⟨?_, ?_⟩, ?_, hvalue, fun hnone => ⟨fun hnot => ?_, fun program hprogram => ?_⟩⟩
  · -- a value needs a program, whose count of values rules out the signs
    rintro ⟨value, h⟩
    obtain ⟨program, hprogram, hrun⟩ := bind_eq_ok_iff.1 h
    have hnone := Program.isSignToken_eq_false_of_run_eq_ok hprogram hrun
    exact ⟨hsigns.2 hnone, Program.isExpression_of_ofTokens_eq_ok hnone hprogram⟩
  · -- an expression parses, and its tree has a value
    rintro ⟨-, hexpression⟩
    obtain ⟨e, he⟩ := mode.exists_parses hexpression
    exact ⟨e.eval, hvalue e he⟩
  · intro hexpression
    obtain ⟨e, he⟩ := mode.exists_parses hexpression
    -- a sentence has no stop in it, so that trees over it and over the tokens are the same
    have hstop : sentence.takeWhile (· != .stop) = sentence := by
      refine List.takeWhile_eq_self_iff.2 fun token hmem => ?_
      exact List.mem_takeWhile_imp (p := (· != Token.stop)) (l := tokens) hmem
    exact ⟨e, he, fun e' he' => he'.unique hstop he⟩
  · -- what is arranged is an expression, so what is none is refused
    cases hprogram : Program.ofTokens mode tokens with
    | error cause => exact ⟨cause, rfl⟩
    | ok program =>
      exact absurd (Program.isExpression_of_ofTokens_eq_ok (hsigns.1 hnone) hprogram) hnot
  · -- a program is that of an expression, and the code of its tree leaves one value
    have hexpression := Program.isExpression_of_ofTokens_eq_ok (hsigns.1 hnone) hprogram
    obtain ⟨e, he⟩ := mode.exists_parses hexpression
    have hcode := hprogram.symm.trans (Program.ofTokens_of_parses he)
    obtain rfl := Except.ok.inj hcode
    have hexec := e.exec_code_append [] []
    rw [List.append_nil] at hexec
    exact ⟨e.eval, hexec⟩

/-- The two ways to take `7 - 2 * 3`. -/
example : [Precedence.standard, .leftToRight].map (evaluateTokens · [.number 7.0,
    .operator .subtract, .number 2.0, .operator .multiply, .number 3.0, .stop])
      = [.ok 1.0, .ok 15.0] := by decide +kernel

end AssayRules
