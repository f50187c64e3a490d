import AssayRules.Proofs.Arrangement
import Mathlib.Data.List.Basic

/-!
# What the precedence makes no difference to

A laboratory may have its operations carried out in the order written, and the rules that are
checked while they are entered are checked in the usual precedence only. That is enough: which
token lists are refused, and why, does not depend on the precedence, and where the operations of
a group are of one rank anyway the program does not either (`ofTokens_standard_leftToRight`).

Two passes over one token list release operations at different times. What they do not differ in
is told by `Arrangement.Abreast`: whether an operand is due, how many parentheses wait, and
whether anything has been emitted. No fault is told from anything else, so each token is refused
by both passes or leaves them abreast (`Arrangement.Abreast.step`).

An operation meets only those in front of it that stand in the same group, as a parenthesis is
never passed over (`Arrangement.Placed.step` keeps account of where each of those that wait
stands). If these are sums and differences, or products and quotients, like the one that
arrives, they are all released in either precedence, and the two passes are one
(`Arrangement.step_eq_of_uniform`).
-/

namespace AssayRules

/-! ### Two passes abreast -/

/-- **Two runs end alike**: for one cause, or both of them well and with related results. -/
inductive EndAlike {ε α β : Type} (R : α → β → Prop) : Except ε α → Except ε β → Prop
  | error (cause : ε) : EndAlike R (.error cause) (.error cause)
  | ok {a : α} {b : β} (h : R a b) : EndAlike R (.ok a) (.ok b)

namespace EndAlike

variable {ε α β γ δ : Type} {R : α → β → Prop} {S : γ → δ → Prop} {x : Except ε α}
  {y : Except ε β}

theorem bind {f : α → Except ε γ} {g : β → Except ε δ} (h : EndAlike R x y)
    (hfg : ∀ a b, R a b → EndAlike S (f a) (g b)) : EndAlike S (x >>= f) (y >>= g) := by
  cases h with
  | error cause => exact .error cause
  | ok h => exact hfg _ _ h

theorem eq_error_iff (h : EndAlike R x y) (cause : ε) : x = .error cause ↔ y = .error cause := by
  cases h with
  | error cause' => exact ⟨fun h => by cases h; rfl, fun h => by cases h; rfl⟩
  | ok h => exact iff_of_false (by rintro ⟨⟩) (by rintro ⟨⟩)

end EndAlike

namespace Arrangement

variable {mode mode' : Precedence} {a a' : Arrangement}

/-- **Two passes are abreast** if they agree in all that a fault is told from. -/
structure Abreast (a a' : Arrangement) : Prop where
  due : a.operandDue = a'.operandDue
  parens : a.pending.count .paren = a'.pending.count .paren
  empty : a.emitted = [] ↔ a'.emitted = []
  /-- Where no operand is due one has been emitted. -/
  operand : a.operandDue = false → a.emitted ≠ []

theorem Abreast.start : Arrangement.start.Abreast Arrangement.start :=
  ⟨rfl, rfl, Iff.rfl, fun h => by cases h⟩

/-- One more that waits in both passes, with an operand to follow. -/
theorem Abreast.await (h : a.Abreast a') (p : Pending) : (a.await p).Abreast (a'.await p) where
  due := rfl
  parens := by
    change (p :: a.pending).count .paren = (p :: a'.pending).count .paren
    rw [List.count_cons, List.count_cons, h.parens]
  empty := h.empty
  operand := fun h => by cases h

/-- Releasing operations, of which each pass may choose its own. -/
theorem Abreast.release (h : a.Abreast a') (hdue : a.operandDue = false) {p q : Pending → Bool}
    (hp : p .paren = false) (hq : q .paren = false) : (a.release p).Abreast (a'.release q) where
  due := h.due
  -- a parenthesis is never released, so that the same are left open
  parens := by
    change (a.pending.dropWhile p).count .paren = (a'.pending.dropWhile q).count .paren
    rw [count_paren_dropWhile hp, count_paren_dropWhile hq, h.parens]
  empty := by
    -- both have emitted an operand before
    have hne := h.operand hdue
    have hne' := h.empty.not.1 hne
    simp [Arrangement.release, hne, hne']
  operand := fun _ => by simp [Arrangement.release, h.operand hdue]

/-- **One token keeps two passes abreast**, unless both refuse it. -/
theorem Abreast.step (h : a.Abreast a') (token : Token) :
    EndAlike Abreast (a.step mode token) (a'.step mode' token) := by
  obtain ⟨emitted, pending, due⟩ := a
  obtain ⟨emitted', pending', due'⟩ := a'
  obtain rfl : due = due' := h.due
  -- on the token and on whether an operand is due, on which the two passes agree
  cases token with
  | number value =>
    cases due with
    | true => exact .ok ⟨rfl, h.parens, by simp [emit], fun _ => List.cons_ne_nil _ _⟩
    | false => exact .error _
  | leftParen =>
    cases due with
    | true => exact .ok (h.await .paren)
    | false => exact .error _
  | rightParen =>
    cases due with
    | true => exact .error _
    | false =>
      -- both close a parenthesis that waits, or there is none in either
      have hne := h.operand rfl
      have hne' := h.empty.not.1 hne
      have hparens := h.parens
      dsimp only at hne hne' hparens
      -- of the four cases two cannot be, as the parentheses that wait are as many in both
      rcases step_rightParen_cases mode emitted pending with
        ⟨hnone, hstep⟩ | ⟨waiting, outer, rfl, hwaiting, hstep⟩ <;>
      rcases step_rightParen_cases mode' emitted' pending' with
        ⟨hnone', hstep'⟩ | ⟨waiting', outer', rfl, hwaiting', hstep'⟩ <;>
      rw [hstep, hstep']
      · exact .error _
      · rw [hnone, List.count_append, List.count_cons_self] at hparens
        omega
      · rw [hnone', List.count_append, List.count_cons_self] at hparens
        omega
      · -- the operators above the parenthesis are released, so that one parenthesis less waits in
        -- both
        rw [List.count_append, List.count_append, forall_isOperator_iff.1 hwaiting,
          forall_isOperator_iff.1 hwaiting', List.count_cons_self,
          List.count_cons_self] at hparens
        refine .ok ⟨rfl, ?_, by simp [hne, hne'], fun _ => by simp [hne]⟩
        dsimp only
        omega
  | operator o =>
    cases due with
    -- where an operand is due it has to be a sign, whatever the mode
    | true =>
      cases o with
      | add => exact .ok (h.await (.sign false))
      | subtract => exact .ok (h.await (.sign true))
      | multiply => exact .error _
      | divide => exact .error _
    | false =>
      -- here the passes part, as each releases what its own mode puts first
      rw [step_operator_of_not_due, step_operator_of_not_due]
      exact .ok ((h.release rfl rfl rfl).await (.operation o))
  | negative =>
    cases due with
    | true => exact .error _
    | false => exact .ok (h.await (.sign true))
  | positive =>
    cases due with
    | true => exact .error _
    | false => exact .ok (h.await (.sign false))
  | stop => exact .ok h

/-- **A run keeps two passes abreast**, unless both are refused for one cause. -/
theorem Abreast.steps (h : a.Abreast a') (tokens : List Token) :
    EndAlike Abreast (a.steps mode tokens) (a'.steps mode' tokens) := by
  induction tokens generalizing a a' with
  | nil => exact .ok h
  | cons token rest ih => exact (h.step token).bind fun b b' hb => ih hb

/-- **What is missing at the end** is missing in both passes. -/
theorem Abreast.finish (h : a.Abreast a') : EndAlike (fun _ _ => True) a.finish a'.finish := by
  -- whether all is closed and whether anything was emitted is the same in both
  have hparens : a.pending.all Pending.isOperator = a'.pending.all Pending.isOperator := by
    rw [Bool.eq_iff_iff, List.all_eq_true, List.all_eq_true, forall_isOperator_iff,
      forall_isOperator_iff, h.parens]
  have hempty : a.emitted.isEmpty = a'.emitted.isEmpty := by
    rw [Bool.eq_iff_iff, List.isEmpty_iff, List.isEmpty_iff, h.empty]
  rw [Arrangement.finish, Arrangement.finish, ← h.due, ← hparens, ← hempty]
  split_ifs
  · exact .error _
  · exact .error _
  · exact .ok trivial
  · exact .error _

end Arrangement

/-- **Which token lists are refused, and why,** does not depend on the precedence. -/
theorem Program.endAlike_ofTokens (mode mode' : Precedence) (tokens : List Token) :
    EndAlike (fun _ _ => True) (ofTokens mode tokens) (ofTokens mode' tokens) :=
  (Arrangement.Abreast.start.steps _).bind fun _ _ h => h.finish

/-! ### Groups of one rank -/

/-- Whether a token ends an operand. -/
def Token.endsOperand : Token → Bool
  | .number _ | .rightParen => true
  | _ => false

/-- How many parentheses are open behind a token, with `n` of them open in front. There is no
answer if one closes that is not open. -/
def Token.openBehind? : Token → Nat → Option Nat
  | .leftParen, n => some (n + 1)
  | .rightParen, 0 => none
  | .rightParen, n + 1 => some n
  | _, n => some n

/-- **How many parentheses are open** behind some tokens, with `n` of them open in front. -/
def openBehind? (n : Nat) (tokens : List Token) : Option Nat :=
  tokens.foldlM (fun n token => token.openBehind? n) n

/-- **Tokens that stand on one level**: what is opened in them is closed, and nothing else is. -/
def IsLevel (tokens : List Token) : Prop := openBehind? 0 tokens = some 0

instance (tokens : List Token) : Decidable (IsLevel tokens) := inferInstanceAs (Decidable (_ = _))

/-- Whether an operand ends where some tokens end. -/
def EndsOperand (tokens : List Token) : Prop := tokens.getLast?.any Token.endsOperand = true

instance (tokens : List Token) : Decidable (EndsOperand tokens) :=
  inferInstanceAs (Decidable (_ = _))

/-- **The operation at a place**, if it stands there between two operands and is no sign: one
operand ends directly in front of it. -/
def operationAt? (tokens : List Token) (i : Nat) : Option Operation :=
  match tokens[i]? with
  | some (.operator o) => if EndsOperand (tokens.take i) then some o else none
  | _ => none

/-- **Groups of one rank**: two operations between which the level is not left are both additive,
or neither of them is. -/
def UniformGroups (tokens : List Token) : Prop :=
  ∀ j < tokens.length, ∀ i < j, ∀ o ∈ operationAt? tokens i, ∀ o' ∈ operationAt? tokens j,
    IsLevel ((tokens.take j).drop (i + 1)) → o.isAdditive = o'.isAdditive

instance (tokens : List Token) : Decidable (UniformGroups tokens) := by
  unfold UniformGroups
  infer_instance

theorem openBehind?_append (n : Nat) (front back : List Token) :
    openBehind? n (front ++ back) = (openBehind? n front).bind (openBehind? · back) :=
  List.foldlM_append

theorem openBehind?_cons (n : Nat) (token : Token) (rest : List Token) :
    openBehind? n (token :: rest) = (token.openBehind? n).bind (openBehind? · rest) :=
  List.foldlM_cons

/-- One more that is open in front is open behind as well. -/
theorem openBehind?_succ {n m : Nat} {tokens : List Token} (h : openBehind? n tokens = some m) :
    openBehind? (n + 1) tokens = some (m + 1) := by
  -- one parenthesis more in front is open all along, so that none is closed for want of it
  induction tokens generalizing n with
  | nil => exact congrArg (Option.map (· + 1)) h
  | cons token rest ih =>
    rw [openBehind?_cons] at h ⊢
    obtain ⟨k, htoken, hrest⟩ := Option.bind_eq_some_iff.1 h
    have hsucc : token.openBehind? (n + 1) = some (k + 1) := by
      cases token with
      | rightParen =>
        cases n with
        | zero => cases htoken
        | succ n => exact congrArg (Option.map (· + 1)) htoken
      | _ => exact congrArg (Option.map (· + 1)) htoken
    rw [hsucc, Option.bind_some, ih hrest]

namespace IsLevel

variable {front back : List Token}

theorem append (hfront : IsLevel front) (hback : IsLevel back) : IsLevel (front ++ back) := by
  rw [IsLevel, openBehind?_append, hfront]
  exact hback

theorem paren (h : IsLevel front) : IsLevel (.leftParen :: (front ++ [.rightParen])) := by
  have hinside : openBehind? 1 front = some 1 := openBehind?_succ h
  rw [IsLevel, openBehind?_cons, Token.openBehind?, Option.bind_some, openBehind?_append, hinside]
  rfl

end IsLevel

theorem EndsOperand.append {tokens : List Token} (h : EndsOperand tokens) (front : List Token) :
    EndsOperand (front ++ tokens) := by
  unfold EndsOperand at h ⊢
  cases tokens with
  | nil => cases h
  | cons token rest => rwa [List.getLast?_append_of_ne_nil _ (List.cons_ne_nil _ _)]

theorem EndsOperand.concat {token : Token} (h : token.endsOperand = true) (tokens : List Token) :
    EndsOperand (tokens ++ [token]) := by
  have hlast : EndsOperand [token] := h
  exact hlast.append tokens

theorem EndsOperand.of_append {o : Operation} {front tokens : List Token}
    (h : EndsOperand (front ++ .operator o :: tokens)) : EndsOperand tokens := by
  unfold EndsOperand at h ⊢
  rw [List.getLast?_append_of_ne_nil _ (List.cons_ne_nil _ _)] at h
  cases tokens with
  | nil => cases h
  | cons token rest => rwa [List.getLast?_cons_cons] at h

theorem operationAt?_length {before : List Token} (h : EndsOperand before) (o : Operation)
    (back : List Token) : operationAt? (before ++ .operator o :: back) before.length = some o := by
  rw [operationAt?, List.getElem?_append_right (Nat.le_refl _), Nat.sub_self, List.take_left]
  exact if_pos h

/-- **Two operations of one group** are of one rank. -/
theorem UniformGroups.isAdditive_eq {o o' : Operation} {front inside back : List Token}
    (h : UniformGroups (front ++ .operator o :: (inside ++ .operator o' :: back)))
    (hfront : EndsOperand front) (hinside : EndsOperand inside) (hlevel : IsLevel inside) :
    o.isAdditive = o'.isAdditive := by
  -- the second operation has the first one and all behind it in front
  have hsplit : front ++ .operator o :: (inside ++ .operator o' :: back)
      = (front ++ .operator o :: inside) ++ .operator o' :: back := by simp
  have hlength : (front ++ .operator o :: inside).length = front.length + 1 + inside.length := by
    simp only [List.length_append, List.length_cons]
    omega
  have hbefore : EndsOperand (front ++ .operator o :: inside) :=
    EndsOperand.append (hinside.append [.operator o]) front
  refine h (front ++ .operator o :: inside).length ?_ front.length ?_ o ?_ o' ?_ ?_
  · simp only [List.length_append, List.length_cons]
    omega
  · omega
  · exact operationAt?_length hfront o _
  · rw [hsplit]
    exact operationAt?_length hbefore o' back
  · rw [hsplit, List.take_left, List.append_cons, List.drop_left' (by simp)]
    exact hlevel

/-! ### What waits, and where it stands -/

/-- **Where those that wait stand** in the tokens so far: a parenthesis with its group behind it,
and in front of it those outside; an operation behind an operand, in the group of all that
follows. -/
def Pending.Placed : List Pending → List Token → Prop
  | [], _ => True
  | .paren :: outer, tokens => ∃ front inside, tokens = front ++ .leftParen :: inside ∧
      IsLevel inside ∧ Placed outer front
  | .sign _ :: rest, tokens => Placed rest tokens
  | .operation o :: rest, tokens => (∃ front inside, tokens = front ++ .operator o :: inside ∧
      EndsOperand front ∧ IsLevel inside) ∧ Placed rest tokens

namespace Pending.Placed

variable {pending : List Pending} {tokens : List Token}

/-- Behind all that waits there may be more of the group. -/
theorem append (h : Placed pending tokens) {more : List Token} (hmore : IsLevel more) :
    Placed pending (tokens ++ more) := by
  -- down those that wait, each of which sees the tokens behind it grow
  induction pending with
  | nil => trivial
  | cons p rest ih =>
    cases p with
    | paren =>
      obtain ⟨front, inside, rfl, hlevel, houter⟩ := h
      exact ⟨front, inside ++ more, by simp, hlevel.append hmore, houter⟩
    | sign negates => exact ih h
    | operation o =>
      -- the group of an operation goes on in the tokens that are added
      obtain ⟨⟨front, inside, rfl, hfront, hlevel⟩, hrest⟩ := h
      exact ⟨⟨front, inside ++ more, by simp, hfront, hlevel.append hmore⟩, ih hrest⟩

theorem of_append {waiting : List Pending} (hwaiting : ∀ w ∈ waiting, w.isOperator = true)
    (h : Placed (waiting ++ pending) tokens) : Placed pending tokens := by
  induction waiting with
  | nil => exact h
  | cons w rest ih =>
    have hrest := (List.forall_mem_cons.1 hwaiting).2
    cases w with
    | paren => cases hwaiting _ List.mem_cons_self
    | sign negates => exact ih hrest h
    | operation o => exact ih hrest h.2

/-- An operation releases no parenthesis, so that those that still wait are where they were. -/
theorem dropWhile_yieldsTo (h : Placed pending tokens) (mode : Precedence) (o : Operation) :
    Placed (pending.dropWhile (yieldsTo mode o)) tokens := by
  rw [← List.takeWhile_append_dropWhile (p := yieldsTo mode o) (l := pending)] at h
  refine of_append (fun w hw => ?_) h
  have hyields := List.mem_takeWhile_imp hw
  cases w with
  | paren => cases hyields
  | sign negates => rfl
  | operation o => rfl

/-- An operation that waits, with no parenthesis behind it. -/
theorem exists_of_mem {waiting : List Pending} (hwaiting : ∀ w ∈ waiting, w.isOperator = true)
    (h : Placed (waiting ++ pending) tokens) {o : Operation} (ho : .operation o ∈ waiting) :
    ∃ front inside, tokens = front ++ .operator o :: inside ∧ EndsOperand front ∧
      IsLevel inside := by
  obtain ⟨before, behind, rfl⟩ := List.append_of_mem ho
  rw [List.append_assoc] at h
  exact (of_append (fun w hw => hwaiting w (List.mem_append_left _ hw)) h).1

end Pending.Placed

namespace Arrangement

variable {mode : Precedence} {a a' : Arrangement} {tokens : List Token}

/-- **The account that is kept** of a pass: an operand ends where the tokens so far end, unless
one is due, and all that waits stands somewhere in them. -/
structure Placed (a : Arrangement) (tokens : List Token) : Prop where
  operand : a.operandDue = false → EndsOperand tokens
  pending : Pending.Placed a.pending tokens

theorem Placed.start : Arrangement.start.Placed [] := ⟨fun h => (by cases h), trivial⟩

/-- A sign that waits. -/
theorem Placed.await_sign (h : Pending.Placed a.pending tokens) (negates : Bool) {token : Token}
    (htoken : IsLevel [token]) : (a.await (.sign negates)).Placed (tokens ++ [token]) :=
  ⟨fun h => (by cases h), h.append htoken⟩

/-- **One token keeps the account.** -/
theorem Placed.step {token : Token} (h : a.Placed tokens) (hstop : token ≠ .stop)
    (hstep : a.step mode token = .ok a') : a'.Placed (tokens ++ [token]) := by
  obtain ⟨emitted, pending, due⟩ := a
  have hpending : Pending.Placed pending tokens := h.pending
  -- on the token and on whether an operand is due, each case with the one thing that comes to wait
  cases token with
  | number value =>
    cases due with
    | true =>
      cases hstep
      exact ⟨fun _ => .concat rfl tokens, hpending.append rfl⟩
    | false => cases hstep
  | leftParen =>
    cases due with
    | true =>
      cases hstep
      -- a group begins behind the parenthesis, with nothing in it so far
      exact ⟨fun h => (by cases h), tokens, [], rfl, rfl, hpending⟩
    | false => cases hstep
  | rightParen =>
    cases due with
    | true => cases hstep
    | false =>
      rcases step_rightParen_cases mode emitted pending with
        ⟨-, herror⟩ | ⟨waiting, outer, rfl, hwaiting, hok⟩
      · rw [herror] at hstep
        cases hstep
      · rw [hok] at hstep
        cases hstep
        -- the group that is closed becomes a part of the one around it
        obtain ⟨front, inside, rfl, hlevel, houter⟩ := hpending.of_append hwaiting
        refine ⟨fun _ => .concat rfl _, ?_⟩
        rw [List.append_assoc, List.cons_append]
        exact houter.append hlevel.paren
  | operator o =>
    cases due with
    | true =>
      -- in the place of an operand a plus or a minus is a sign, which waits without a group
      cases o with
      | add =>
        cases hstep
        exact .await_sign hpending false rfl
      | subtract =>
        cases hstep
        exact .await_sign hpending true rfl
      | multiply => cases hstep
      | divide => cases hstep
    | false =>
      rw [step_operator_of_not_due] at hstep
      cases hstep
      -- what still waits behind the release stands where it stood
      have hrest := hpending.dropWhile_yieldsTo mode o
      exact ⟨fun h => (by cases h), ⟨tokens, [], rfl, h.operand rfl, rfl⟩, hrest.append rfl⟩
  | negative =>
    -- a sign that comes ready made waits like one that was read
    cases due with
    | true => cases hstep
    | false =>
      cases hstep
      exact .await_sign hpending true rfl
  | positive =>
    cases due with
    | true => cases hstep
    | false =>
      cases hstep
      exact .await_sign hpending false rfl
  | stop => exact absurd rfl hstop

/-! ### One pass -/

/-- An operation that meets only operations of its own kind releases all up to the parenthesis. -/
theorem takeWhile_yieldsTo (mode : Precedence) {o : Operation} {pending : List Pending}
    (h : ∀ o', .operation o' ∈ pending.takeWhile Pending.isOperator →
      o'.isAdditive = o.isAdditive) :
    pending.takeWhile (Pending.yieldsTo mode o) = pending.takeWhile Pending.isOperator := by
  -- down those that wait, up to the parenthesis that ends the group
  induction pending with
  | nil => rfl
  | cons p rest ih =>
    cases p with
    | paren => rfl
    | sign negates =>
      rw [List.takeWhile_cons_of_pos rfl, List.takeWhile_cons_of_pos rfl]
      exact congrArg _ (ih fun o' ho' => h o' (List.mem_cons_of_mem _ ho'))
    | operation o' =>
      -- of one kind means of one rank, and the mode that ignores ranks has only one
      have hrank : Pending.yieldsTo mode o (.operation o') = true := by
        have hkind := h o' List.mem_cons_self
        cases mode with
        | standard => simp [Pending.yieldsTo, Precedence.rank, hkind]
        | leftToRight => rfl
      rw [List.takeWhile_cons_of_pos hrank, List.takeWhile_cons_of_pos rfl]
      exact congrArg _ (ih fun o' ho' => h o' (List.mem_cons_of_mem _ ho'))

/-- **A step is the same in either precedence**, if groups are of one rank. -/
theorem step_eq_of_uniform {before back : List Token} {token : Token} (h : a.Placed before)
    (huniform : UniformGroups (before ++ token :: back)) (mode mode' : Precedence) :
    a.step mode token = a.step mode' token := by
  obtain ⟨emitted, pending, due⟩ := a
  cases token with
  | operator o =>
    cases due with
    | true => rfl
    | false =>
      -- all that waits in the group is of the kind of the operation that arrives
      have hgroup : ∀ o', .operation o' ∈ pending.takeWhile Pending.isOperator →
          o'.isAdditive = o.isAdditive := by
        intro o' ho'
        have hpending : Pending.Placed (pending.takeWhile Pending.isOperator ++
            pending.dropWhile Pending.isOperator) before := by
          rw [List.takeWhile_append_dropWhile]
          exact h.pending
        obtain ⟨front, inside, rfl, hfront, hlevel⟩ :=
          hpending.exists_of_mem (fun _ => List.mem_takeWhile_imp) ho'
        have hinside : EndsOperand inside := .of_append (h.operand rfl)
        rw [List.append_assoc] at huniform
        exact huniform.isAdditive_eq hfront hinside hlevel
      -- so both modes release the whole group, and keep what is around it
      have htake := takeWhile_yieldsTo mode hgroup
      rw [← takeWhile_yieldsTo mode' hgroup] at htake
      have hdrop : pending.dropWhile (Pending.yieldsTo mode o)
          = pending.dropWhile (Pending.yieldsTo mode' o) := by
        have hsplit := htake ▸ List.takeWhile_append_dropWhile (p := Pending.yieldsTo mode o)
          (l := pending)
        exact List.append_cancel_left (hsplit.trans List.takeWhile_append_dropWhile.symm)
      rw [step_operator_of_not_due, step_operator_of_not_due, release, release, htake, hdrop]
  | _ => rfl

/-- **A run is the same in either precedence**, if groups are of one rank. -/
theorem steps_eq_of_uniform {before tokens : List Token} (h : a.Placed before)
    (hstop : .stop ∉ tokens) (huniform : UniformGroups (before ++ tokens))
    (mode mode' : Precedence) : a.steps mode tokens = a.steps mode' tokens := by
  -- token by token, with the account of the tokens before
  induction tokens generalizing a before with
  | nil => rfl
  | cons token rest ih =>
    rw [steps, steps, step_eq_of_uniform h huniform mode mode']
    cases hstep : a.step mode' token with
    | error cause => rfl
    | ok next =>
      refine ih (h.step (fun he => hstop (he ▸ List.mem_cons_self)) hstep)
        (fun hmem => hstop (List.mem_cons_of_mem _ hmem)) ?_
      rwa [List.append_assoc]

end Arrangement

/-- **What is refused, and for which cause, is the same in either precedence**, whatever the
tokens are. If in every group the operations are all additive or none of them is, the programs
are the same as well. -/
theorem ofTokens_standard_leftToRight (tokens : List Token) :
    (∀ cause, Program.ofTokens .standard tokens = .error cause ↔
        Program.ofTokens .leftToRight tokens = .error cause) ∧
      (UniformGroups (tokens.takeWhile (· != .stop)) →
        Program.ofTokens .standard tokens = Program.ofTokens .leftToRight tokens) := by
  refine ⟨(Program.endAlike_ofTokens .standard .leftToRight tokens).eq_error_iff, ?_⟩
  intro huniform
  have hstop : Token.stop ∉ tokens.takeWhile (· != .stop) := fun hmem => by
    simpa using List.mem_takeWhile_imp hmem
  rw [Program.ofTokens, Program.ofTokens,
    Arrangement.steps_eq_of_uniform .start hstop huniform .standard .leftToRight]

/-- Products and quotients around a sum with a sign in it, and after the end what would be no
expression. -/
theorem ofTokens_standard_leftToRight_of_inner_sum :
    let tokens : List Token := [.number 2.0, .operator .multiply, .leftParen, .number 1.0,
      .operator .add, .operator .subtract, .number 3.0, .operator .subtract, .number 4.0,
      .rightParen, .operator .divide, .number 5.0, .stop, .operator .add]
    UniformGroups (tokens.takeWhile (· != .stop)) ∧
      Program.ofTokens .standard tokens = Program.ofTokens .leftToRight tokens ∧
      Program.ofTokens .leftToRight tokens = .ok [.push 2.0, .push 1.0, .push 3.0, .negate,
        .apply .add, .push 4.0, .apply .subtract, .apply .multiply, .push 5.0, .apply .divide] := by
  intro tokens
  have huniform : UniformGroups (tokens.takeWhile (· != .stop)) := by decide +kernel
  exact ⟨huniform, (ofTokens_standard_leftToRight tokens).2 huniform, rfl⟩

end AssayRules
