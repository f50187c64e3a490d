import AssayRules.Proofs.Evaluation
import Mathlib.Data.List.Forall2

/-!
# What readings make no difference to

Substitution looks at spellings to find what to replace, and at readings only to put them in.
So two runs over readings of the same spellings go in step: at any time they hold the same
texts in the same places, and their numbers are readings of the same variables.

`Piece.Alike` and `Token.Alike` say so of one piece and one token, for any relation between
numbers; each step of substitution is shown to keep it, and so the tokens come out alike, or
there is one failure in both (`substitute_alike`). The arrangement of tokens does not look at
numbers either, so tokens that are alike are both expressions or neither
(`Token.Alike.isExpression`), and a text evaluates over both readings or over neither
(`Evaluates.congr`).

Readings that look up alike and are listed alike give a text the same value
(`evaluate_of_find?_eq`), whatever the order in which they were recorded.
-/

namespace AssayRules

open List (Forall₂)

variable {R : Float → Float → Prop}

/-! ### Pieces -/

/-- **Pieces are alike** if they are the same text, or two numbers that are related. -/
inductive Piece.Alike (R : Float → Float → Prop) : Piece → Piece → Prop
  | text (s : Text) : Alike R (.text s) (.text s)
  | value {x y : Float} (h : R x y) : Alike R (.value x) (.value y)

/-- **Tokens are alike** if they are the same, or two numbers that are related. -/
inductive Token.Alike (R : Float → Float → Prop) : Token → Token → Prop
  | same (token : Token) : Alike R token token
  | number {x y : Float} (h : R x y) : Alike R (.number x) (.number y)

namespace Piece.Alike

variable {pieces pieces' : List Piece}

theorem mergeText (h : Forall₂ (Piece.Alike R) pieces pieces') :
    Forall₂ (Piece.Alike R) (Piece.mergeText pieces) (Piece.mergeText pieces') := by
  -- over the row of pieces, as texts are merged from behind
  induction h with
  | nil => exact .nil
  | @cons piece piece' rest rest' hpiece _ ih =>
    cases hpiece with
    | value h => exact .cons (.value h) ih
    | text s =>
      -- what the rest begins with is a text in both, or in neither
      rw [Piece.mergeText, Piece.mergeText]
      generalize Piece.mergeText rest = merged, Piece.mergeText rest' = merged' at ih ⊢
      cases ih with
      | nil => exact .cons (.text s) .nil
      | cons hfirst hrest =>
        cases hfirst with
        | text t => exact .cons (.text _) hrest
        | value h => exact .cons (.text s) (.cons (.value h) hrest)

theorem replaceName (mode : Matching) (name : Text) {x y : Float} (hxy : R x y)
    (h : Forall₂ (Piece.Alike R) pieces pieces') :
    Forall₂ (Piece.Alike R) (AssayRules.replaceName mode name x pieces).pieces
      (AssayRules.replaceName mode name y pieces').pieces := by
  induction h with
  | nil => exact .nil
  | cons hpiece _ ih =>
    refine List.rel_append ?_ ih
    cases hpiece with
    | value h => exact .cons (.value h) .nil
    | text s =>
      refine mergeText (List.rel_map ?_ (List.forall₂_same.2 fun _ _ => rfl))
      -- the texts are the same, so the same spans are cut, and only what is put for a hit differs
      rintro span _ rfl
      cases span with
      | plain t => exact .text t
      | hit t => exact .value hxy

/-- A turn of one spelling with two readings. -/
theorem replaceEntry {e f : Text × Float} (hname : e.1 = f.1) (hx : R e.2 f.2)
    (h : Forall₂ (Piece.Alike R) pieces pieces') :
    Forall₂ (Piece.Alike R) (AssayRules.replaceEntry pieces e)
      (AssayRules.replaceEntry pieces' f) := by
  rw [AssayRules.replaceEntry, AssayRules.replaceEntry, hname]
  split
  · exact h
  · exact replaceName .folded _ hx (replaceName .exact _ hx h)

/-- **All turns** of the same spellings in the same order. -/
theorem foldl_replaceEntry {entries entries' : List (Text × Float)}
    (hentries : Forall₂ (fun e f => e.1 = f.1 ∧ R e.2 f.2) entries entries')
    (h : Forall₂ (Piece.Alike R) pieces pieces') :
    Forall₂ (Piece.Alike R) (entries.foldl AssayRules.replaceEntry pieces)
      (entries'.foldl AssayRules.replaceEntry pieces') :=
  List.rel_foldl (fun _ _ hpieces _ _ he => replaceEntry he.1 he.2 hpieces) h hentries

theorem bareNames (h : Forall₂ (Piece.Alike R) pieces pieces') :
    pieces.flatMap Piece.bareNames = pieces'.flatMap Piece.bareNames := by
  induction h with
  | nil => rfl
  | cons hpiece _ ih =>
    rw [List.flatMap_cons, List.flatMap_cons, ih]
    cases hpiece with
    | text s => rfl
    | value h => rfl

/-- **The tokens of pieces that are alike** are alike, or there is one fault in both. -/
theorem pieceTokens (h : Forall₂ (Piece.Alike R) pieces pieces') :
    (∃ cause, AssayRules.pieceTokens pieces = .error cause ∧
        AssayRules.pieceTokens pieces' = .error cause) ∨
      ∃ ts ts', AssayRules.pieceTokens pieces = .ok ts ∧ AssayRules.pieceTokens pieces' = .ok ts' ∧
        Forall₂ (Token.Alike R) ts ts' := by
  induction h with
  | nil => exact Or.inr ⟨[], [], rfl, rfl, .nil⟩
  | @cons piece piece' rest rest' hpiece _ ih =>
    -- the first pieces have tokens that are alike, or the same fault, which comes first
    have hfront : (∃ cause, piece.tokens = .error cause ∧ piece'.tokens = .error cause) ∨
        ∃ ts ts', piece.tokens = .ok ts ∧ piece'.tokens = .ok ts' ∧
          Forall₂ (Token.Alike R) ts ts' := by
      cases hpiece with
      | value h => exact Or.inr ⟨_, _, rfl, rfl, .cons (.number h) .nil⟩
      | text s =>
        cases htokens : (Piece.text s).tokens with
        | error cause => exact Or.inl ⟨cause, rfl, rfl⟩
        | ok ts =>
          exact Or.inr ⟨ts, ts, rfl, rfl, List.forall₂_same.2 fun token _ => .same token⟩
    rw [AssayRules.pieceTokens, AssayRules.pieceTokens]
    rcases hfront with ⟨cause, hpiece, hpiece'⟩ | ⟨ts, ts', hpiece, hpiece', halike⟩
    · rw [hpiece, hpiece']
      exact Or.inl ⟨cause, rfl, rfl⟩
    · rw [hpiece, hpiece']
      -- what is behind the first pieces counts only where these have tokens
      rcases ih with ⟨cause, hrest, hrest'⟩ | ⟨us, us', hrest, hrest', hrests⟩
      · rw [hrest, hrest']
        exact Or.inl ⟨cause, rfl, rfl⟩
      · rw [hrest, hrest']
        exact Or.inr ⟨_, _, rfl, rfl, List.rel_append halike hrests⟩

end Piece.Alike

/-! ### Tokens -/

namespace Token.Alike

variable {tokens tokens' : List Token}

theorem shape_eq {token token' : Token} (h : token.Alike R token') :
    token'.shape = token.shape := by
  cases h <;> rfl

theorem takeWhile (h : Forall₂ (Token.Alike R) tokens tokens') :
    Forall₂ (Token.Alike R) (tokens.takeWhile (· != .stop)) (tokens'.takeWhile (· != .stop)) := by
  induction h with
  | nil => exact .nil
  | @cons token token' rest rest' htoken _ ih =>
    cases htoken with
    | same token =>
      -- a stop is a token of the first kind, so that both rows end with it
      rw [List.takeWhile_cons, List.takeWhile_cons]
      split
      · exact .cons (.same token) ih
      · exact .nil
    | number h => exact .cons (.number h) ih

/-- **Being an expression** does not depend on numbers. -/
theorem isExpression (h : Forall₂ (Token.Alike R) tokens tokens')
    (hexpression : IsExpression tokens) : IsExpression tokens' := by
  have hshape : tokens'.map Token.shape = tokens.map Token.shape := by
    clear hexpression
    induction h with
    | nil => rfl
    | cons htoken _ ih => rw [List.map_cons, List.map_cons, shape_eq htoken, ih]
  exact hexpression.of_map_shape_eq hshape

end Token.Alike

/-! ### Readings of the same spellings -/

namespace Readings

/-- **Counterparts**: what two readings have for one variable. -/
def Counterparts (readings other : Readings) (x y : Float) : Prop :=
  ∃ name, readings.find? name = some x ∧ other.find? name = some y

variable {readings other : Readings}

theorem contains_congr (h : ∀ name, name ∈ readings.spellings ↔ name ∈ other.spellings)
    (name : Text) : readings.contains name = other.contains name := by
  rw [Bool.eq_iff_iff, contains_iff, contains_iff]
  simp only [h]

/-- **The entries go in step**: the same spellings take their turns. -/
theorem forall₂_entriesLongestFirst
    (h : ∀ name, name ∈ readings.spellings ↔ name ∈ other.spellings) :
    Forall₂ (fun e f => e.1 = f.1 ∧ Counterparts readings other e.2 f.2)
      readings.entriesLongestFirst other.entriesLongestFirst := by
  -- of the order of entries only this is needed: that each entry is found, and the spellings are
  -- the same
  have hfind : ∀ r : Readings, ∀ e ∈ r.entriesLongestFirst, r.find? e.1 = some e.2 :=
    fun r e he => find?_of_mem_entries ((perm_entriesLongestFirst r).mem_iff.1 he)
  have hleft := hfind readings
  have hright := hfind other
  have hspellings : readings.entriesLongestFirst.map Prod.fst
      = other.entriesLongestFirst.map Prod.fst := spellingsLongestFirst_congr h
  generalize readings.entriesLongestFirst = entries at hleft hspellings ⊢
  generalize other.entriesLongestFirst = entries' at hright hspellings ⊢
  -- entry by entry, as the two rows have the same spellings one after the other
  induction entries generalizing entries' with
  | nil =>
    obtain rfl := List.map_eq_nil_iff.1 hspellings.symm
    exact .nil
  | cons e entries ih =>
    obtain ⟨f, rest, rfl, hname, hrest⟩ := List.map_eq_cons_iff.1 hspellings.symm
    obtain ⟨he, hentries⟩ := List.forall_mem_cons.1 hleft
    obtain ⟨hf, hothers⟩ := List.forall_mem_cons.1 hright
    refine .cons ⟨hname.symm, e.1, he, ?_⟩ (ih hentries _ hothers hrest.symm)
    rw [← hname]
    exact hf

end Readings

open Readings

variable {readings other : Readings}

theorem missingReferences_congr
    (h : ∀ name, name ∈ readings.spellings ↔ name ∈ other.spellings) (parts : List Segment) :
    missingReferences readings parts = missingReferences other parts := by
  rw [missingReferences, missingReferences]
  simp only [contains_congr h]

theorem Piece.Alike.referencePieces
    (h : ∀ name, name ∈ readings.spellings ↔ name ∈ other.spellings) (parts : List Segment) :
    Forall₂ (Piece.Alike (Counterparts readings other))
      (AssayRules.referencePieces readings parts) (AssayRules.referencePieces other parts) := by
  -- merging keeps pieces alike, so that it is enough to compare them segment by segment
  refine Piece.Alike.mergeText ?_
  induction parts with
  | nil => exact .nil
  | cons part parts ih =>
    rw [List.filterMap_cons, List.filterMap_cons]
    cases part with
    | byte c => exact .cons (.text [c]) ih
    | unclosed inside => exact ih
    | reference inside =>
      -- a variable has a reading in both or in neither
      have hcontains := contains_congr h (Name.canonical inside)
      rw [contains, contains] at hcontains
      rw [Segment.piece?, Segment.piece?]
      cases hx : readings.find? (Name.canonical inside) with
      | none =>
        rw [hx] at hcontains
        rw [Option.isNone_iff_eq_none.1 (Option.isSome_eq_false_iff.1 hcontains.symm)]
        exact ih
      | some x =>
        rw [hx] at hcontains
        obtain ⟨y, hy⟩ := Option.isSome_iff_exists.1 hcontains.symm
        rw [hy]
        exact .cons (.value ⟨_, hx, hy⟩) ih

/-- **Substitution over readings of the same spellings** fails in both for one reason, or
yields tokens that are alike. -/
theorem substitute_alike (h : ∀ name, name ∈ readings.spellings ↔ name ∈ other.spellings)
    (expression : Text) :
    (∃ failure, substitute expression readings = .error failure ∧
        substitute expression other = .error failure) ∨
      ∃ tokens tokens', substitute expression readings = .ok tokens ∧
        substitute expression other = .ok tokens' ∧
        Forall₂ (Token.Alike (Counterparts readings other)) tokens tokens' := by
  -- after the references and after the names the pieces are alike
  have hpieces : Forall₂ (Piece.Alike (Counterparts readings other))
      (replaceEntries readings (referencePieces readings (segments expression)))
      (replaceEntries other (referencePieces other (segments expression))) :=
    Piece.Alike.foldl_replaceEntry (forall₂_entriesLongestFirst h)
      (Piece.Alike.referencePieces h _)
  have hnames := Piece.Alike.bareNames hpieces
  have htokens := Piece.Alike.pieceTokens hpieces
  -- what is missing and which names are left is read off the texts alone
  rw [substitute, substitute, missingReferences_congr h]
  dsimp only
  rw [hnames]
  split
  · exact Or.inl ⟨_, rfl, rfl⟩
  · split
    · rcases htokens with ⟨cause, hcause, hcause'⟩ | ⟨ts, ts', hts, hts', halike⟩
      · rw [hcause, hcause']
        exact Or.inl ⟨_, rfl, rfl⟩
      · rw [hts, hts']
        exact Or.inr ⟨_, _, rfl, rfl, List.rel_append halike (.cons (.same .stop) .nil)⟩
    · exact Or.inl ⟨_, rfl, rfl⟩

/-- **Whether an expression evaluates** depends on the spellings alone. -/
theorem Evaluates.congr {expression : Text} {mode mode' : Precedence}
    (h : Evaluates expression readings mode)
    (hspellings : ∀ name, name ∈ readings.spellings ↔ name ∈ other.spellings) :
    Evaluates expression other mode' := by
  obtain ⟨tokens, htokens, hexpression⟩ := evaluates_iff.1 h
  -- a failure over the one readings would be the same failure over the other
  rcases substitute_alike hspellings expression with ⟨failure, hfailure, -⟩
    | ⟨ts, ts', hts, hts', halike⟩
  · rw [htokens] at hfailure
    cases hfailure
  · rw [htokens] at hts
    cases hts
    exact evaluates_iff.2 ⟨ts', hts', Token.Alike.isExpression (Token.Alike.takeWhile halike)
      hexpression⟩

/-! ### Readings that look up alike -/

/-- Readings that look up the references in brackets alike put in the same. -/
theorem referencePieces_of_find?_eq {parts : List Segment}
    (hfind : ∀ inside, .reference inside ∈ parts →
      other.find? (Name.canonical inside) = readings.find? (Name.canonical inside)) :
    referencePieces other parts = referencePieces readings parts := by
  rw [referencePieces, referencePieces]
  refine congrArg Piece.mergeText (List.filterMap_congr fun part hpart => ?_)
  cases part with
  | reference inside => rw [Segment.piece?, Segment.piece?, hfind inside hpart]
  | _ => rfl

/-- Readings that look up the references in brackets alike miss the same. -/
theorem missingReferences_of_find?_eq {parts : List Segment}
    (hfind : ∀ inside, .reference inside ∈ parts →
      other.find? (Name.canonical inside) = readings.find? (Name.canonical inside)) :
    missingReferences other parts = missingReferences readings parts := by
  rw [missingReferences, missingReferences]
  refine List.filter_congr fun name hname => ?_
  -- what is missing is asked for by reference only, and there the two readings agree
  obtain ⟨part, hpart, hpartName⟩ := List.mem_filterMap.1 hname
  cases part with
  | reference inside =>
    obtain rfl := Option.some.inj hpartName
    rw [Readings.contains, Readings.contains, hfind inside hpart]
  | _ => cases hpartName

/-- **A value is the same** over readings that look up alike and are listed alike. -/
theorem evaluate_of_find?_eq (hfind : ∀ name, other.find? name = readings.find? name)
    (hlisted : other.entriesLongestFirst = readings.entriesLongestFirst) (expression : Text)
    (mode : Precedence) : evaluate expression other mode = evaluate expression readings mode := by
  have hsubstitute : substitute expression other = substitute expression readings := by
    unfold substitute replaceEntries
    dsimp only
    rw [missingReferences_of_find?_eq fun _ _ => hfind _,
      referencePieces_of_find?_eq fun _ _ => hfind _, hlisted]
  unfold evaluate
  rw [hsubstitute]

end AssayRules
