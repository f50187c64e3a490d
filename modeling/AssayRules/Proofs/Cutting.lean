import AssayRules.Formula
import AssayRules.Proofs.Legibility
import AssayRules.Proofs.Lexing
import Mathlib.Algebra.Ring.Int.Defs

/-!
# Where a formula is cut

A comparison between two texts in which nothing opens one is the only place where they are cut,
and the longest match cuts there what was written there, as none can be made longer by what
stands behind it (`cut_sides`). Two rows of lexemes are such texts. Which parentheses are open
at the comparison is then a matter of the tokens, and the grammar closes all that it opens.

In the other direction, cutting loses nothing (`Chain.text_of_cut`), and whatever is not cut at
was passed over (`exists_of_cut`, `isPassed_of_cut`).
-/

namespace AssayRules

/-! ### Comparisons -/

namespace Comparison

theorem ofText?_eq_some_iff {s : Text} {comparison : Comparison} :
    ofText? s = some comparison ↔ comparison.text = s := by
  constructor
  · intro h
    exact beq_iff_eq.1 (List.find?_some (p := fun other : Comparison => other.text == s) h)
  · rintro rfl
    exact ofText?_text comparison

/-- Whether a comparison may begin with a byte. -/
def opens (c : UInt8) : Bool := c == Ascii.less || c == Ascii.greater || isStray c

theorem opens_of_mem_text {comparison : Comparison} {c : UInt8} (h : c ∈ comparison.text) :
    opens c = true := by
  have hall : comparison.text.all opens = true := by
    cases comparison <;> rfl
  exact List.all_eq_true.1 hall c h

theorem ofText?_cons_of_not_opens {c : UInt8} (h : opens c = false) (s : Text) :
    ofText? (c :: s) = none := by
  cases hs : ofText? (c :: s) with
  | none => rfl
  | some comparison =>
    have hmem : c ∈ comparison.text := ofText?_eq_some_iff.1 hs ▸ List.mem_cons_self
    rw [opens_of_mem_text hmem] at h
    cases h

theorem eq_equals_of_ofText? {c d : UInt8} {comparison : Comparison}
    (h : ofText? [c, d] = some comparison) : d = Ascii.equals := by
  have htext := ofText?_eq_some_iff.1 h
  cases comparison <;> cases htext <;> rfl

/-- A byte that is no comparison and not stray opens none. -/
theorem opens_of_ofText?_eq_none {c : UInt8} (h : ofText? [c] = none) (hstray : isStray c = false) :
    opens c = false := by
  rw [opens, hstray, Bool.or_false, Bool.or_eq_false_iff, beq_eq_false_iff_ne, beq_eq_false_iff_ne]
  constructor <;> rintro rfl <;> cases h

theorem opens_of_isPlain {c : UInt8} (h : Lexeme.isPlain c = true) : opens c = false := by
  by_contra hopens
  rw [Bool.not_eq_false, opens, isStray] at hopens
  simp only [Bool.or_eq_true, beq_iff_eq] at hopens
  rcases hopens with (rfl | rfl) | rfl | rfl <;> cases h

end Comparison

/-! ### One cut -/

/-- How many parentheses a segment opens. -/
def Segment.parenStep : Segment → Int
  | .byte c => AssayRules.parenStep c
  | _ => 0

/-- Whether a segment holds nothing that is cut at, and can be passed over. -/
def Segment.isPassed : Segment → Bool
  | .byte c => !Comparison.opens c
  | .reference _ => true
  | .unclosed _ => false

namespace Chain

/-- The text that was cut. -/
def text (chain : Chain) : Text :=
  chain.front ++ chain.links.flatMap fun link => link.comparison.text ++ link.behind

@[simp] theorem text_prepend (s : Text) (chain : Chain) :
    (chain.prepend s).text = s ++ chain.text := by
  simp [text, prepend]

@[simp] theorem text_compare (comparison : Comparison) (depth : Int) (chain : Chain) :
    (chain.compare comparison depth).text = comparison.text ++ chain.text := by
  simp [text, compare]

end Chain

theorem cut_byte {c : UInt8} (h : Comparison.opens c = false) (rest : List Segment)
    (depth : Int) : cut (.byte c :: rest) depth
      = (cut rest (depth + parenStep c)).map (Chain.prepend [c]) := by
  -- what opens no comparison is no stray sign either
  have hstray : isStray c = false := (Bool.or_eq_false_iff.1 h).2
  have hbyte : cutByte c depth (cut rest)
      = (cut rest (depth + parenStep c)).map (Chain.prepend [c]) := by
    rw [cutByte, Comparison.ofText?_cons_of_not_opens h]
    dsimp only
    rw [if_neg (by simp [hstray])]
  rw [← hbyte]
  -- the equations of `cut` ask what the next segment is, but all of them come to the same here
  rcases rest with _ | ⟨part, rest⟩
  · rw [cut]
    rintro _ _ ⟨⟩
  · cases part with
    | byte d => rw [cut, Comparison.ofText?_cons_of_not_opens h]
    | _ =>
      rw [cut]
      rintro _ _ ⟨⟩

theorem cut_cons_of_isPassed {part : Segment} (h : part.isPassed = true) (rest : List Segment)
    (depth : Int) : cut (part :: rest) depth
      = (cut rest (depth + part.parenStep)).map (Chain.prepend part.text) := by
  cases part with
  | byte c => exact cut_byte (by simpa [Segment.isPassed] using h) rest depth
  | reference inside =>
    have hstep : (Segment.reference inside).parenStep = 0 := rfl
    rw [cut, hstep, Int.add_zero]
  | unclosed => cases h

/-- **A comparison is cut where it was written**, unless what stands behind it would make it
longer. -/
theorem cut_comparison (comparison : Comparison) {rest : List Segment}
    (h : rest.head? ≠ some (.byte Ascii.equals)) (depth : Int) :
    cut (comparison.text.map .byte ++ rest) depth
      = (cut rest depth).map (Chain.compare comparison depth) := by
  -- a comparison of one byte counts only where the next byte does not make a longer one
  have hone : ∀ c : UInt8, Comparison.ofText? [c] = some comparison →
      cut (.byte c :: rest) depth = (cut rest depth).map (Chain.compare comparison depth) := by
    intro c hc
    have hbyte : cutByte c depth (cut rest)
        = (cut rest depth).map (Chain.compare comparison depth) := by
      rw [cutByte, hc]
    rw [← hbyte]
    rcases rest with _ | ⟨part, rest⟩
    · rw [cut]
      rintro _ _ ⟨⟩
    · cases part with
      | byte d =>
        -- a longer match would end with the byte that is not there
        have hnone : Comparison.ofText? [c, d] = none := by
          cases hsome : Comparison.ofText? [c, d] with
          | none => rfl
          | some other =>
            rw [Comparison.eq_equals_of_ofText? hsome] at h
            exact absurd rfl h
        rw [cut, hnone]
      | _ =>
        rw [cut]
        rintro _ _ ⟨⟩
  -- one of two bytes is found by its own equation
  cases comparison with
  | greater => exact hone _ rfl
  | less => exact hone _ rfl
  | _ => rfl

theorem cutByte_cases {c : UInt8} {depth : Int} {cutRest : Int → Except Malformed Chain}
    {chain : Chain} (h : cutByte c depth cutRest = .ok chain) :
    (∃ comparison chain', Comparison.text comparison = [c] ∧ cutRest depth = .ok chain' ∧
      chain'.compare comparison depth = chain) ∨
    Comparison.opens c = false ∧
      ∃ chain', cutRest (depth + parenStep c) = .ok chain' ∧ chain'.prepend [c] = chain := by
  -- a byte by itself is a comparison, a stray sign or passed over
  rw [cutByte] at h
  split at h
  · rename_i comparison hcomparison
    obtain ⟨chain', hrest, rfl⟩ := map_eq_ok_iff.1 h
    exact Or.inl ⟨comparison, chain', Comparison.ofText?_eq_some_iff.1 hcomparison, hrest, rfl⟩
  · rename_i hnone
    split_ifs at h with hstray
    have hopens := Comparison.opens_of_ofText?_eq_none hnone (Bool.not_eq_true _ ▸ hstray)
    exact Or.inr ⟨hopens, map_eq_ok_iff.1 h⟩

/-- A byte by itself is a comparison, or is passed over with whatever is behind it. -/
theorem cut_cons_cases_of_cutByte {c : UInt8} {parts : List Segment} {depth : Int} {chain : Chain}
    (h : cutByte c depth (cut parts) = .ok chain) :
    (∃ comparison rest chain', .byte c :: parts = comparison.text.map .byte ++ rest ∧
      cut rest depth = .ok chain' ∧ chain'.compare comparison depth = chain) ∨
    (Segment.byte c).isPassed = true ∧
      ∃ chain', cut parts (depth + parenStep c) = .ok chain' ∧ chain'.prepend [c] = chain := by
  refine (cutByte_cases h).imp ?_ (And.imp_left fun hopens => ?_)
  · rintro ⟨comparison, chain', htext, hrest, rfl⟩
    exact ⟨comparison, parts, chain', by rw [htext]; rfl, hrest, rfl⟩
  · rw [Segment.isPassed, hopens]
    rfl

/-- **What a step may be**: a comparison is cut, or a segment is passed over. -/
theorem cut_cons_cases {part : Segment} {parts : List Segment} {depth : Int} {chain : Chain}
    (h : cut (part :: parts) depth = .ok chain) :
    (∃ comparison rest chain', part :: parts = comparison.text.map .byte ++ rest ∧
      cut rest depth = .ok chain' ∧ chain'.compare comparison depth = chain) ∨
    part.isPassed = true ∧ ∃ chain', cut parts (depth + part.parenStep) = .ok chain' ∧
      chain'.prepend part.text = chain := by
  -- on the segment, and for a byte on what is behind it, as two bytes may be one comparison
  cases part with
  | unclosed inside =>
    rw [cut] at h
    cases h
  | reference inside =>
    rw [cut] at h
    have hstep : (Segment.reference inside).parenStep = 0 := rfl
    rw [hstep, Int.add_zero]
    exact Or.inr ⟨rfl, map_eq_ok_iff.1 h⟩
  | byte c =>
    rcases parts with _ | ⟨other, rest⟩
    · rw [cut] at h
      · exact cut_cons_cases_of_cutByte h
      · rintro _ _ ⟨⟩
    · cases other with
      | byte d =>
        rw [cut] at h
        -- the longer comparison is tried first
        split at h
        · rename_i comparison hcomparison
          obtain ⟨chain', hrest, rfl⟩ := map_eq_ok_iff.1 h
          have htext := Comparison.ofText?_eq_some_iff.1 hcomparison
          exact Or.inl ⟨comparison, rest, chain', by rw [htext]; rfl, hrest, rfl⟩
        · exact cut_cons_cases_of_cutByte h
      | _ =>
        rw [cut] at h
        · exact cut_cons_cases_of_cutByte h
        · rintro _ _ ⟨⟩

/-- **Cutting loses nothing.** -/
theorem Chain.text_of_cut {parts : List Segment} {depth : Int} {chain : Chain}
    (h : cut parts depth = .ok chain) : chain.text = parts.flatMap Segment.text := by
  -- on length, as a comparison takes two segments at once
  induction hn : parts.length using Nat.strongRecOn generalizing parts depth chain with
  | ind n ih =>
    subst hn
    cases parts with
    | nil =>
      rw [cut] at h
      cases h
      rfl
    | cons part parts =>
      rcases cut_cons_cases h with ⟨comparison, rest, chain', hparts, hrest, rfl⟩
        | ⟨-, chain', hrest, rfl⟩
      · -- a comparison is some bytes long, so that the rest is shorter
        have hlt : rest.length < (part :: parts).length := by
          rw [hparts, List.length_append, List.length_map]
          cases comparison <;> simp [Comparison.text]
        rw [text_compare, ih _ hlt hrest rfl, hparts, List.flatMap_append, List.flatMap_map]
        exact congrArg (· ++ _) (List.flatMap_singleton' _).symm
      · rw [text_prepend, ih _ (Nat.lt_succ_self _) hrest rfl, List.flatMap_cons]

/-- A text with one comparison is what was in front of it, the comparison, and what was
behind it. -/
theorem eq_of_cut_segments {s front behind : Text} {comparison : Comparison} {depth : Int}
    (h : cut (segments s) 0 = .ok ⟨front, [⟨comparison, depth, behind⟩]⟩) :
    s = front ++ comparison.text ++ behind := by
  have htext := Chain.text_of_cut h
  rw [flatMap_text_segments, Chain.text, List.flatMap_singleton] at htext
  rw [← htext, List.append_assoc]

/-- Without a comparison, everything is passed over. -/
theorem isPassed_of_cut {parts : List Segment} {depth : Int} {front : Text}
    (h : cut parts depth = .ok ⟨front, []⟩) : ∀ part ∈ parts, part.isPassed = true := by
  induction parts generalizing depth front with
  | nil => exact fun _ hmem => nomatch hmem
  | cons part parts ih =>
    rcases cut_cons_cases h with ⟨comparison, rest, chain, -, -, heq⟩
      | ⟨hpart, chain, hrest, heq⟩
    · cases heq
    · obtain ⟨front', links⟩ := chain
      obtain ⟨-, rfl⟩ := Chain.mk.inj heq
      exact List.forall_mem_cons.2 ⟨hpart, ih hrest⟩

/-- **In front of the first comparison** everything is passed over, and it is the parentheses
there that are open at the comparison. -/
theorem exists_of_cut {parts : List Segment} {depth : Int} {front : Text} {link : Link}
    {links : List Link} (h : cut parts depth = .ok ⟨front, link :: links⟩) :
    ∃ before rest, parts = before ++ (link.comparison.text.map .byte ++ rest) ∧
      (∀ part ∈ before, part.isPassed = true) ∧ before.flatMap Segment.text = front ∧
      link.depth = depth + (before.map Segment.parenStep).sum ∧
      cut rest link.depth = .ok ⟨link.behind, links⟩ := by
  -- segment by segment, up to the first comparison
  induction parts generalizing depth front with
  | nil =>
    rw [cut] at h
    cases h
  | cons part parts ih =>
    rcases cut_cons_cases h with ⟨comparison, rest, chain, hparts, hrest, heq⟩
      | ⟨hpart, chain, hrest, heq⟩
    · -- the comparison stands right here
      obtain ⟨rfl, hlinks⟩ := Chain.mk.inj heq
      obtain ⟨rfl, rfl⟩ := List.cons.inj hlinks
      exact ⟨[], rest, hparts, by simp, rfl, (Int.add_zero depth).symm, hrest⟩
    · -- the segment is passed over, and goes in front of what is passed over behind it
      obtain ⟨front', links'⟩ := chain
      obtain ⟨rfl, rfl⟩ := Chain.mk.inj heq
      obtain ⟨before, rest, rfl, hbefore, rfl, hdepth, hcut⟩ := ih hrest
      refine ⟨part :: before, rest, rfl, List.forall_mem_cons.2 ⟨hpart, hbefore⟩, rfl, ?_, hcut⟩
      rw [hdepth, List.map_cons, List.sum_cons, Int.add_assoc]

/-! ### Rows of segments -/

/-- **Segments without a comparison are passed over** together. -/
theorem cut_append_of_isPassed {parts : List Segment}
    (h : ∀ part ∈ parts, part.isPassed = true) (rest : List Segment) (depth : Int) :
    cut (parts ++ rest) depth = (cut rest (depth + (parts.map Segment.parenStep).sum)).map
      (Chain.prepend (parts.flatMap Segment.text)) := by
  -- all of them are passed over, and their parentheses add up in the depth
  induction parts generalizing depth with
  | nil =>
    rw [List.map_nil, List.sum_nil, Int.add_zero, List.nil_append]
    cases cut rest depth <;> rfl
  | cons part parts ih =>
    obtain ⟨hpart, hparts⟩ := List.forall_mem_cons.1 h
    rw [List.cons_append, cut_cons_of_isPassed hpart, ih hparts, List.map_cons, List.sum_cons,
      Int.add_assoc]
    cases cut rest (depth + (part.parenStep + (parts.map Segment.parenStep).sum)) with
    | error cause => rfl
    | ok chain =>
      exact congrArg (fun front => Except.ok (Chain.mk front chain.links))
        (List.append_assoc ..).symm

/-- A bracket that never closes is not passed over. -/
theorem closed_of_isPassed {parts : List Segment} (h : ∀ part ∈ parts, part.isPassed = true) :
    parts.any Segment.isUnclosed = false := by
  refine List.any_eq_false.2 fun part hpart => ?_
  have hpassed := h part hpart
  cases part with
  | unclosed inside => cases hpassed
  | _ => exact Bool.false_ne_true

/-- **Two sides are cut at the comparison between them**, and nowhere else, if they are passed
over and the first leaves no parenthesis open. -/
theorem cut_sides {front behind : Text} (hfront : ∀ part ∈ segments front, part.isPassed = true)
    (hbalanced : ((segments front).map Segment.parenStep).sum = 0)
    (hbehind : ∀ part ∈ segments behind, part.isPassed = true) (comparison : Comparison) :
    cut (segments (front ++ comparison.text ++ behind)) 0
      = .ok ⟨front, [⟨comparison, 0, behind⟩]⟩ := by
  -- the comparison goes no further, as no side begins with a sign of equality
  have hhead : (segments behind).head? ≠ some (.byte Ascii.equals) := by
    intro heq
    cases hbehind _ (List.mem_of_head? heq)
  have hright : cut (segments behind) 0 = .ok ⟨behind, []⟩ := by
    have hcut := cut_append_of_isPassed hbehind [] 0
    rw [List.append_nil, cut, flatMap_text_segments] at hcut
    rw [hcut]
    exact congrArg (fun s => Except.ok (Chain.mk s [])) (List.append_nil _)
  -- what is passed over on the left, the comparison in the middle, and the right side as it is
  rw [segments_append_comparison (closed_of_isPassed hfront), cut_append_of_isPassed hfront,
    hbalanced, Int.add_zero, cut_comparison comparison hhead, hright, flatMap_text_segments]
  exact congrArg (fun s => Except.ok (Chain.mk s _)) (List.append_nil _)

/-! ### Rows of lexemes -/

/-- How many parentheses a token opens. -/
def Token.parenStep : Token → Int
  | .leftParen => 1
  | .rightParen => -1
  | _ => 0

/-- **The grammar closes the parentheses that it opens.** -/
theorem Derives.sum_parenStep {phrase : Phrase} {tokens : List Token}
    (h : Derives phrase tokens) : (tokens.map Token.parenStep).sum = 0 := by
  induction h with
  | number value => rfl
  | paren _ ih => simp [Token.parenStep, ih]
  | sign _ _ ih => simp [Token.parenStep, ih]
  | single _ ih => exact ih
  | chain _ _ ihleft ihright => simp [Token.parenStep, ihleft, ihright]

theorem parenStep_eq_zero {c : UInt8} (hleft : c ≠ Ascii.leftParen)
    (hright : c ≠ Ascii.rightParen) : parenStep c = 0 := by
  rw [parenStep, if_neg hleft, if_neg hright]

/-- Bytes that are no parentheses open none. -/
theorem sum_parenStep_map_byte {s : Text}
    (h : ∀ c ∈ s, c ≠ Ascii.leftParen ∧ c ≠ Ascii.rightParen) :
    ((s.map Segment.byte).map Segment.parenStep).sum = 0 := by
  induction s with
  | nil => rfl
  | cons c s ih =>
    obtain ⟨hc, hs⟩ := List.forall_mem_cons.1 h
    rw [List.map_cons, List.map_cons, List.sum_cons, ih hs, Int.add_zero]
    exact parenStep_eq_zero hc.1 hc.2

namespace Lexeme

theorem isPassed_segments {ls : List Lexeme} :
    ∀ part ∈ ls.flatMap segments, part.isPassed = true := by
  intro part hpart
  -- a reference is passed over as a whole, and else it is byte by byte
  obtain ⟨l, -, hpart⟩ := List.mem_flatMap.1 hpart
  have hbytes : (∀ inside h, l ≠ .bracketed inside h) → part ∈ l.text.map Segment.byte →
      part.isPassed = true := by
    intro hl hpart
    obtain ⟨c, hc, rfl⟩ := List.mem_map.1 hpart
    rw [Segment.isPassed, Comparison.opens_of_isPlain (isPlain_of_mem_text hl hc)]
    rfl
  cases l with
  | bracketed inside hi =>
    rw [List.mem_singleton.1 hpart]
    rfl
  | _ => exact hbytes (by intro _ _ heq; cases heq) hpart

/-- **Parentheses outside references are tokens.** -/
theorem sum_parenStep_segments (value : Text → Float) (ls : List Lexeme) :
    ((ls.flatMap segments).map Segment.parenStep).sum
      = ((tokens value ls).map Token.parenStep).sum := by
  -- a parenthesis is a symbol, and neither in a name nor in a literal
  have hone : ∀ l : Lexeme, (l.segments.map Segment.parenStep).sum
      = (l.token? value).elim 0 Token.parenStep := by
    intro l
    cases l with
    | blank c hc =>
      refine sum_parenStep_map_byte (List.forall_mem_singleton.2 ⟨?_, ?_⟩) <;>
        rintro rfl <;> cases hc
    | symbol c token hc =>
      have hstep : ∀ symbol ∈ Token.symbols, parenStep symbol.1 = symbol.2.parenStep := by decide
      exact (Int.add_zero _).trans (hstep _ hc)
    | numeral n =>
      refine sum_parenStep_map_byte fun c hc => ?_
      constructor <;> rintro rfl <;> cases n.figure.isPart_of_mem_text hc
    | bare name hname =>
      refine sum_parenStep_map_byte fun c hc => ?_
      constructor <;> rintro rfl <;> cases (Name.isBare_iff.1 hname).2.1 _ hc
    | bracketed inside hi => rfl
  -- lexeme by lexeme, as depth is a sum
  induction ls with
  | nil => rfl
  | cons l ls ih =>
    rw [List.flatMap_cons, List.map_append, List.sum_append, hone, ih, tokens, tokens,
      List.filterMap_cons]
    cases l.token? value with
    | none => exact Int.zero_add _
    | some token => rfl

/-- **An expression is cut at the comparison behind it**, and nowhere else. -/
theorem cut_segments_comparison {ls rs : List Lexeme} (hls : IsArithmetic ls)
    (comparison : Comparison) :
    cut (AssayRules.segments (texts ls ++ comparison.text ++ texts rs)) 0
      = .ok ⟨texts ls, [⟨comparison, 0, texts rs⟩]⟩ := by
  refine cut_sides ?_ ?_ ?_ comparison
  · rw [segments_texts]
    exact isPassed_segments
  · rw [segments_texts, sum_parenStep_segments fun _ => 0]
    exact (hls _).sum_parenStep
  · rw [segments_texts]
    exact isPassed_segments

end Lexeme

end AssayRules
