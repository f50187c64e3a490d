import AssayRules.Evaluation
import AssayRules.Proofs.Arrangement
import AssayRules.Proofs.Readings
import AssayRules.Proofs.References
import Mathlib.Data.List.Nodup

/-!
# Substitution puts the right readings in the right places

A text under substitution is a list of pieces, and what is claimed of it is about lexemes.
`Lexeme.Renders` ties the two: each piece of text is the text of some lexemes in a row, and
each reading that has been put in stands for one reference that is done. What has been put
in is never looked at again, so the relation needs to know no more of the references than
which of them are done.

Looking for one spelling keeps the relation and gets all references to that spelling done
(`Lexeme.Renders.replaceName`). This needs that the spelling is no proper part of a reference
that is still to be done. Going by length sees to that: whatever is recorded for such a
reference is longer than the spelling, and so its turn was before (`Lexeme.Pending` is what
holds before each turn). When all spellings had their turn every reference is done, and
what is left of the text holds blanks, symbols and literals, whose tokens are read piece by
piece as they would be in one.
-/

namespace AssayRules

/-! ### Merging pieces -/

namespace Piece

theorem mergeText_text_text (s t : Text) (pieces : List Piece) :
    mergeText (.text s :: .text t :: pieces) = mergeText (.text (s ++ t) :: pieces) := by
  cases h : mergeText pieces with
  | nil => simp only [mergeText, h]
  | cons piece others =>
    cases piece with
    | text r => simp only [mergeText, h, List.append_assoc]
    | value x => simp only [mergeText, h]

/-- Pieces of text in a row may be written as one. -/
theorem mergeText_map_text_append {texts : List Text} (hne : texts ≠ []) (pieces : List Piece) :
    mergeText (texts.map .text ++ pieces) = mergeText (.text texts.flatten :: pieces) := by
  obtain ⟨s, texts, rfl⟩ := List.exists_cons_of_ne_nil hne
  clear hne
  induction texts generalizing s with
  | nil => rw [List.flatten_cons, List.flatten_nil, List.append_nil]; rfl
  | cons t texts ih =>
    rw [List.map_cons, List.map_cons, List.cons_append, List.cons_append, mergeText_text_text,
      ← List.cons_append, ← List.map_cons, ih, List.flatten_cons, List.flatten_cons,
      List.flatten_cons, List.append_assoc]

theorem mergeText_cons_congr (piece : Piece) {pieces pieces' : List Piece}
    (h : mergeText pieces = mergeText pieces') :
    mergeText (piece :: pieces) = mergeText (piece :: pieces') := by
  cases piece with
  | text s => rw [mergeText, mergeText, h]
  | value x => rw [mergeText, mergeText, h]

/-- **Merging in parts**: what each part is merged to does not depend on how the part was
cut. -/
theorem mergeText_flatMap {α : Type} {parts : α → List Piece} {whole : α → Piece}
    {items : List α} (h : ∀ a ∈ items, parts a = [whole a] ∨
      ∃ texts : List Text, texts ≠ [] ∧ parts a = texts.map .text ∧
        whole a = .text texts.flatten) :
    mergeText (items.flatMap parts) = mergeText (items.map whole) := by
  -- item by item, as merging goes on behind one piece as it does behind several texts of it
  induction items with
  | nil => rfl
  | cons a items ih =>
    have hrest := ih fun b hb => h b (List.mem_cons_of_mem _ hb)
    rw [List.flatMap_cons, List.map_cons]
    rcases h a List.mem_cons_self with hone | ⟨texts, hne, hparts, hwhole⟩
    · rw [hone, List.singleton_append]
      exact mergeText_cons_congr _ hrest
    · rw [hparts, mergeText_map_text_append hne, hwhole]
      exact mergeText_cons_congr _ hrest

end Piece

namespace Lexeme

/-! ### What pieces stand for -/

/-- **Pieces stand for lexemes**, of which some are done: these have been replaced, each by
what its name stands for. -/
inductive Renders (value : Text → Float) (done : Lexeme → Bool) :
    List Lexeme → List Piece → Prop
  | nil : Renders value done [] []
  | kept {ls rest : List Lexeme} {pieces : List Piece} (hkept : ∀ l ∈ ls, done l = false)
      (h : Renders value done rest pieces) :
      Renders value done (ls ++ rest) (.text (texts ls) :: pieces)
  | replaced {l : Lexeme} {name : Text} {rest : List Lexeme} {pieces : List Piece}
      (hdone : done l = true) (hname : l.name? = some name)
      (h : Renders value done rest pieces) :
      Renders value done (l :: rest) (.value (value name) :: pieces)

/-- What a lexeme is rendered as by itself. -/
def piece (value : Text → Float) (done : Lexeme → Bool) (l : Lexeme) : Piece :=
  if done l then .value (value (l.name?.getD [])) else .text l.text

namespace Renders

variable {value : Text → Float} {done : Lexeme → Bool} {ls ms : List Lexeme}
  {pieces pieces' : List Piece}

theorem of_map (h : ∀ l ∈ ls, done l = true → l.name?.isSome = true) :
    Renders value done ls (ls.map (piece value done)) := by
  -- every lexeme for itself: a reading where it is done, else its own text
  induction ls with
  | nil => exact .nil
  | cons l ls ih =>
    have hrest := ih fun m hm => h m (List.mem_cons_of_mem _ hm)
    rw [List.map_cons, piece]
    split
    · rename_i hdone
      obtain ⟨name, hname⟩ := Option.isSome_iff_exists.1 (h l List.mem_cons_self hdone)
      rw [hname]
      exact .replaced hdone hname hrest
    · rename_i hdone
      have htexts : l.text = texts [l] := (List.append_nil l.text).symm
      rw [htexts]
      exact .kept (fun m hm => List.mem_singleton.1 hm ▸ Bool.not_eq_true _ ▸ hdone) hrest

theorem append (h : Renders value done ls pieces) (h' : Renders value done ms pieces') :
    Renders value done (ls ++ ms) (pieces ++ pieces') := by
  induction h with
  | nil => exact h'
  | kept hkept _ ih =>
    rw [List.append_assoc]
    exact .kept hkept ih
  | replaced hdone hname _ ih => exact .replaced hdone hname ih

theorem mergeText (h : Renders value done ls pieces) :
    Renders value done ls (Piece.mergeText pieces) := by
  induction h with
  | nil => exact .nil
  -- a text takes over the lexemes of the text that follows
  | @kept ls rest pieces hkept _ ih =>
    rw [Piece.mergeText]
    split
    · rename_i t others heq
      rw [heq] at ih
      cases ih with
      | @kept ms rest _ hkept' h =>
        rw [← List.append_assoc, ← texts_append]
        refine .kept (fun l hl => ?_) h
        exact (List.mem_append.1 hl).elim (hkept l) (hkept' l)
    · exact .kept hkept ih
  | replaced hdone hname _ ih => exact .replaced hdone hname ih

end Renders

/-! ### One spelling -/

variable {value : Text → Float} {done : Lexeme → Bool} {ls : List Lexeme}
  {pieces : List Piece} {mode : Matching} {name : Text} {x : Float} {behind : Bool}

variable (mode) in
/-- A piece of text in which a name has been replaced stands for the same lexemes. -/
theorem renders_replaceName_text (hname : Name.IsRecordable name) (hspaced : Spaced behind ls)
    (hutf8 : ∀ l ∈ ls, l.text.IsUtf8)
    (hplain : ∀ l ∈ ls, ∀ inside h, l ≠ .bracketed inside h)
    (hwhole : ∀ y hy, .bare y hy ∈ ls → name.foldCase <:+: y.foldCase →
      name.foldCase = y.foldCase)
    (hvalue : ∀ y hy, .bare y hy ∈ ls → name.foldCase = y.foldCase → x = value y)
    (hkept : ∀ l ∈ ls, done l = false) :
    Renders value (fun l => done l || l.refersTo mode name) ls
      ((Piece.text (texts ls)).replaceName mode name x).pieces := by
  -- none of the lexemes is done before, so the references to the name are what is done
  obtain ⟨done', hdone'⟩ : ∃ done' : Lexeme → Bool,
      done' = fun l => done l || l.refersTo mode name := ⟨_, rfl⟩
  have hrefers : ∀ l ∈ ls, done' l = l.refersTo mode name := by
    intro l hl
    rw [hdone']
    dsimp only
    rw [hkept l hl, Bool.false_or]
  have hspans : mode.spansFrom name none (texts ls) = ls.flatMap (spans mode name) :=
    spansFrom_texts hname hspaced.mono hutf8 hplain hwhole fun _ => rfl
  have hpieces : ((Piece.text (texts ls)).replaceName mode name x).pieces
      = Piece.mergeText (ls.map (piece value done')) := by
    rw [Piece.replaceName]
    dsimp only
    rw [Matching.spans_eq_spansFrom, hspans, List.map_flatMap]
    refine Piece.mergeText_flatMap fun l hl => ?_
    rw [spans, piece, hrefers l hl]
    -- a reference to the name is one reading, and anything else the text of its glyphs
    split
    · rename_i hl'
      left
      cases l with
      | bare y hy =>
        have hfold := Matching.key_eq_of_foldCase_eq (beq_iff_eq.1 hl')
        rw [hvalue y hy hl hfold.symm]
        rfl
      | _ => cases hl'
    · right
      refine ⟨(mode.glyphs l.text).map Glyph.text, ?_, ?_, ?_⟩
      · exact fun hnil => Matching.glyphs_ne_nil mode l.text_ne_nil (List.map_eq_nil_iff.1 hnil)
      · rw [List.map_map, List.map_map]
        rfl
      · rw [← List.flatMap_def, Matching.flatMap_text_glyphs]
  rw [← hdone', hpieces]
  -- two texts that follow one another are one piece in the end
  refine (Renders.of_map fun l hl hl' => ?_).mergeText
  rw [hrefers l hl] at hl'
  cases l with
  | bare y hy => rfl
  | _ => cases hl'

variable (mode) in
/-- **Looking for a spelling** gets the references to it done. -/
theorem Renders.replaceName (h : Renders value done ls pieces) (hname : Name.IsRecordable name)
    (hspaced : Spaced behind ls) (hutf8 : ∀ l ∈ ls, l.text.IsUtf8)
    (hplain : ∀ l ∈ ls, done l = false → ∀ inside h, l ≠ .bracketed inside h)
    (hwhole : ∀ y hy, .bare y hy ∈ ls → done (.bare y hy) = false →
      name.foldCase <:+: y.foldCase → name.foldCase = y.foldCase)
    (hvalue : ∀ y hy, .bare y hy ∈ ls → name.foldCase = y.foldCase → x = value y) :
    Renders value (fun l => done l || l.refersTo mode name) ls
      (AssayRules.replaceName mode name x pieces).pieces := by
  -- piece by piece: a text is searched for the name, a reading is left as it is
  induction h generalizing behind with
  | nil => exact .nil
  | @kept ls rest pieces hkept _ ih =>
    have hleft : ∀ {l}, l ∈ ls → l ∈ ls ++ rest := fun hl => List.mem_append_left _ hl
    have hright : ∀ {l}, l ∈ rest → l ∈ ls ++ rest := fun hl => List.mem_append_right _ hl
    have hfront := renders_replaceName_text mode hname hspaced.of_append_left
      (fun l hl => hutf8 l (hleft hl)) (fun l hl => hplain l (hleft hl) (hkept l hl))
      (fun y hy hmem => hwhole y hy (hleft hmem) (hkept _ hmem))
      (fun y hy hmem => hvalue y hy (hleft hmem)) hkept
    have hrest := ih hspaced.of_append_right (fun l hl => hutf8 l (hright hl))
      (fun l hl => hplain l (hright hl)) (fun y hy hmem => hwhole y hy (hright hmem))
      (fun y hy hmem => hvalue y hy (hright hmem))
    exact hfront.append hrest
  | @replaced l name' rest pieces hdone hname' _ ih =>
    have hright : ∀ {m}, m ∈ rest → m ∈ l :: rest := fun hm => List.mem_cons_of_mem _ hm
    have hrest := ih hspaced.tail (fun m hm => hutf8 m (hright hm))
      (fun m hm => hplain m (hright hm)) (fun y hy hmem => hwhole y hy (hright hmem))
      (fun y hy hmem => hvalue y hy (hright hmem))
    exact .replaced (by rw [hdone, Bool.true_or]) hname' hrest

/-- **A turn**: the exact occurrences of a recorded spelling, and then those in another
letter case, which are the same references and more. -/
theorem Renders.replaceEntry (h : Renders value done ls pieces)
    (hname : Name.IsRecordable name) (hspaced : Spaced behind ls)
    (hutf8 : ∀ l ∈ ls, l.text.IsUtf8)
    (hplain : ∀ l ∈ ls, done l = false → ∀ inside h, l ≠ .bracketed inside h)
    (hwhole : ∀ y hy, .bare y hy ∈ ls → done (.bare y hy) = false →
      name.foldCase <:+: y.foldCase → name.foldCase = y.foldCase)
    (hvalue : ∀ y hy, .bare y hy ∈ ls → name.foldCase = y.foldCase → x = value y) :
    Renders value (fun l => done l || l.refersTo .folded name) ls
      (AssayRules.replaceEntry pieces (name, x)) := by
  have hne : ¬ name.isEmpty = true := by
    rw [List.isEmpty_iff]
    rintro rfl
    rcases hname.form with hcomma | hbare
    · cases hcomma
    · exact hbare.ne_nil rfl
  -- the second search is asked of less, as what the first has done is no longer text
  have hexact := h.replaceName .exact hname hspaced hutf8 hplain hwhole hvalue
  have hfolded := hexact.replaceName .folded hname hspaced hutf8
    (fun l hl hl' => hplain l hl (Bool.or_eq_false_iff.1 hl').1)
    (fun y hy hmem hy' => hwhole y hy hmem (Bool.or_eq_false_iff.1 hy').1) hvalue
  have hdone : (fun l => (done l || l.refersTo .exact name) || l.refersTo .folded name)
      = fun l => done l || l.refersTo .folded name := by
    funext l
    rw [Bool.or_assoc]
    congr 1
    cases l with
    | bare y hy =>
      -- a spelling letter for letter is one up to letter case
      by_cases heq : y = name
      · subst heq
        simp [refersTo]
      · simp [refersTo, Matching.key, heq]
    | _ => rfl
  rw [hdone] at hfolded
  rw [AssayRules.replaceEntry, if_neg hne]
  exact hfolded

/-! ### All spellings -/

/-- **Before a turn**: what is known of the spellings whose turn is still to come, and of the
references that are still to be done. -/
structure Pending (value : Text → Float) (ls : List Lexeme) (done : Lexeme → Bool)
    (entries : List (Text × Float)) : Prop where
  sorted : entries.Pairwise fun a b => b.1.length ≤ a.1.length
  recordable : ∀ e ∈ entries, Name.IsRecordable e.1
  shorter : ∀ a ∈ entries, ∀ b ∈ entries, a.1.foldCase <:+: b.1.foldCase →
    a.1.foldCase ≠ b.1.foldCase → a.1.length < b.1.length
  value_eq : ∀ e ∈ entries, ∀ y hy, .bare y hy ∈ ls → e.1.foldCase = y.foldCase →
    e.2 = value y
  /-- What is still to be done has a spelling whose turn is still to come. -/
  pending : ∀ y hy, .bare y hy ∈ ls → done (.bare y hy) = false →
    ∃ e ∈ entries, e.1.foldCase = y.foldCase
  bracketed : ∀ l ∈ ls, done l = false → ∀ inside h, l ≠ .bracketed inside h
  references : ∀ l ∈ ls, done l = true → l.name?.isSome = true

namespace Pending

variable {entry : Text × Float} {entries : List (Text × Float)}

/-- **The longest spelling is no proper part** of a reference that is still to be done: what
is recorded for that would be longer. -/
theorem whole (h : Pending value ls done (entry :: entries)) {y : Text} {hy : Name.IsBare y}
    (hmem : .bare y hy ∈ ls) (hdone : done (.bare y hy) = false)
    (hwithin : entry.1.foldCase <:+: y.foldCase) : entry.1.foldCase = y.foldCase := by
  by_contra hne
  -- what is left waits for an entry that is no longer than this one, so this one is not part of it
  obtain ⟨e, he, hfold⟩ := h.pending y hy hmem hdone
  rw [← hfold] at hwithin hne
  have hlt := h.shorter entry List.mem_cons_self e he hwithin hne
  have hle : e.1.length ≤ entry.1.length := by
    rcases List.mem_cons.1 he with rfl | he
    · exact Nat.le_refl _
    · exact (List.pairwise_cons.1 h.sorted).1 e he
  omega

/-- A turn leaves what is known of the turns to come. -/
theorem tail (h : Pending value ls done (entry :: entries)) :
    Pending value ls (fun l => done l || l.refersTo .folded entry.1) entries where
  sorted := (List.pairwise_cons.1 h.sorted).2
  recordable e he := h.recordable e (List.mem_cons_of_mem _ he)
  shorter a ha b hb := h.shorter a (List.mem_cons_of_mem _ ha) b (List.mem_cons_of_mem _ hb)
  value_eq e he := h.value_eq e (List.mem_cons_of_mem _ he)
  pending y hy hmem hdone := by
    obtain ⟨hdone, hrefers⟩ := Bool.or_eq_false_iff.1 hdone
    obtain ⟨e, he, hfold⟩ := h.pending y hy hmem hdone
    rcases List.mem_cons.1 he with rfl | he
    · -- its turn was just now
      have : refersTo .folded e.1 (.bare y hy) = true := beq_iff_eq.2 hfold.symm
      rw [this] at hrefers
      cases hrefers
    · exact ⟨e, he, hfold⟩
  bracketed l hl hdone := h.bracketed l hl (Bool.or_eq_false_iff.1 hdone).1
  -- what is done is a reference, by what was done before or by this turn
  references l hl hdone := by
    rcases Bool.or_eq_true_iff.1 hdone with hdone | hrefers
    · exact h.references l hl hdone
    · cases l with
      | bare y hy => rfl
      | _ => cases hrefers

end Pending

/-- **All turns**: every reference is done after them, and nothing else is. -/
theorem Renders.foldl_replaceEntry {entries : List (Text × Float)}
    (h : Renders value done ls pieces) (hpending : Pending value ls done entries)
    (hspaced : Spaced behind ls) (hutf8 : ∀ l ∈ ls, l.text.IsUtf8) :
    ∃ done', Renders value done' ls (entries.foldl AssayRules.replaceEntry pieces) ∧
      ∀ l ∈ ls, done' l = l.name?.isSome := by
  -- entry by entry, each of which does the lexemes that refer to its name
  induction entries generalizing done pieces with
  | nil =>
    -- no turn is left that anything could be waiting for
    refine ⟨done, h, fun l hl => ?_⟩
    cases hdone : done l with
    | true => exact (hpending.references l hl hdone).symm
    | false =>
      cases l with
      | bare y hy =>
        obtain ⟨e, he, -⟩ := hpending.pending y hy hl hdone
        cases he
      | bracketed inside hi => exact absurd rfl (hpending.bracketed _ hl hdone inside hi)
      | _ => rfl
  | cons entry entries ih =>
    obtain ⟨name, x⟩ := entry
    have hturn := h.replaceEntry (x := x) (hpending.recordable _ List.mem_cons_self) hspaced
      hutf8 hpending.bracketed (fun y hy hmem hdone => hpending.whole hmem hdone)
      (hpending.value_eq _ List.mem_cons_self)
    exact ih hturn hpending.tail

/-! ### The first pieces and the last -/

/-- Whether a lexeme is a reference in brackets. -/
def isBracketed : Lexeme → Bool
  | bracketed _ _ => true
  | _ => false

/-- **At the start** the references in brackets are done. -/
theorem renders_referencePieces {readings : Readings}
    (hvalue : ∀ inside h, .bracketed inside h ∈ ls →
      readings.find? (Name.canonical inside) = some (value (Name.canonical inside))) :
    Renders value isBracketed ls
      (referencePieces readings (AssayRules.segments (texts ls))) := by
  -- one segment is one lexeme, or one byte of it
  have hpieces : referencePieces readings (AssayRules.segments (texts ls))
      = Piece.mergeText (ls.map (piece value isBracketed)) := by
    rw [referencePieces, segments_texts, List.filterMap_flatMap]
    refine Piece.mergeText_flatMap fun l hl => ?_
    have hbytes : ∀ s : Text, (s.map Segment.byte).filterMap (Segment.piece? readings)
        = (s.map fun c => [c]).map Piece.text := by
      intro s
      rw [List.filterMap_map, List.map_map, ← List.filterMap_eq_map]
      rfl
    have htext : ∀ s : Text, s = (s.map fun c => [c]).flatten := by
      intro s
      rw [← List.flatMap_def, List.flatMap_singleton']
    cases l with
    | bracketed inside hi =>
      left
      rw [segments, List.filterMap_cons, Segment.piece?, hvalue inside hi hl]
      rfl
    | _ =>
      right
      refine ⟨_, ?_, hbytes _, congrArg Piece.text (htext _)⟩
      exact fun hnil => text_ne_nil _ (List.map_eq_nil_iff.1 hnil)
  rw [hpieces]
  refine (Renders.of_map fun l _ hl => ?_).mergeText
  cases l with
  | bracketed => rfl
  | _ => cases hl

theorem bareNames_texts_eq_nil (hspaced : Spaced behind ls) (hnone : ∀ l ∈ ls, l.name? = none) :
    Name.bareNames (texts ls) = [] := by
  -- with no reference, nothing of the text is taken out before names are looked for
  have houtside : texts ls = ls.flatMap outside := by
    refine List.flatMap_congr fun l hl => ?_
    have := hnone l hl
    cases l with
    | bracketed => cases this
    | _ => rfl
  rw [houtside, bareNames_outside hspaced, List.filterMap_eq_nil_iff]
  intro l hl
  have := hnone l hl
  cases l with
  | bare => cases this
  | _ => rfl

/-- **At the end** no name is left, and the tokens of the pieces are those of the lexemes. -/
theorem Renders.pieceTokens_eq (h : Renders value done ls pieces) (hspaced : Spaced behind ls)
    (hdone : ∀ l ∈ ls, done l = l.name?.isSome) :
    pieces.flatMap Piece.bareNames = [] ∧ pieceTokens pieces = .ok (tokens value ls) := by
  -- piece by piece: a text has no reference left, and a reading is the token of its lexeme
  induction h generalizing behind with
  | nil => exact ⟨rfl, rfl⟩
  | @kept ls rest pieces hkept _ ih =>
    obtain ⟨hnames, htokens⟩ :=
      ih hspaced.of_append_right fun l hl => hdone l (List.mem_append_right _ hl)
    have hnone : ∀ l ∈ ls, l.name? = none := by
      intro l hl
      have := hdone l (List.mem_append_left _ hl)
      rw [hkept l hl] at this
      exact Option.isNone_iff_eq_none.1 (Option.isSome_eq_false_iff.1 this.symm)
    have hlex := lex_texts hspaced.of_append_left hnone value
    refine ⟨?_, ?_⟩
    · rw [List.flatMap_cons, hnames, List.append_nil]
      exact bareNames_texts_eq_nil hspaced.of_append_left hnone
    · rw [pieceTokens, Piece.tokens, hlex, htokens, tokens_append]
      rfl
  | @replaced l name rest pieces _ hname _ ih =>
    obtain ⟨hnames, htokens⟩ := ih hspaced.tail fun m hm => hdone m (List.mem_cons_of_mem _ hm)
    -- a blank or a symbol has no name
    have htoken : l.token? value = some (.number (value name)) := by
      cases l with
      | bare y hy => cases hname; rfl
      | bracketed inside hi => cases hname; rfl
      | _ => cases hname
    have hcons : tokens value (l :: rest) = .number (value name) :: tokens value rest :=
      List.filterMap_cons_some htoken
    refine ⟨hnames, ?_⟩
    rw [pieceTokens, htokens, hcons]
    rfl

end Lexeme

/-! ### Expressions over readings -/

/-- **What substitution asks for**: brackets that close, a reading for each reference, and
tokens in the text that is left. -/
theorem substitute_eq_ok_iff {s : Text} {readings : Readings} {tokens : List Token} :
    substitute s readings = .ok tokens ↔
      (segments s).any Segment.isUnclosed = false ∧
        missingReferences readings (segments s) = [] ∧
        (replaceEntries readings (referencePieces readings (segments s))).flatMap
          Piece.bareNames = [] ∧
        ∃ ts, pieceTokens (replaceEntries readings (referencePieces readings (segments s)))
          = .ok ts ∧ tokens = ts ++ [.stop] := by
  rw [substitute]
  -- what is missing and what is left are two lists here, however they were found
  generalize replaceEntries readings (referencePieces readings (segments s)) = pieces
  generalize missingReferences readings (segments s) = missing
  dsimp only
  constructor
  · intro h
    split_ifs at h with hunclosed hresolved
    -- repeats are erased only for the report
    have hnone : missing ++ pieces.flatMap Piece.bareNames = [] := by
      refine List.eq_nil_iff_forall_not_mem.2 fun name hname => ?_
      rw [← List.mem_eraseDups, List.isEmpty_iff.1 hresolved] at hname
      cases hname
    obtain ⟨hmissing, hnames⟩ := List.append_eq_nil_iff.1 hnone
    refine ⟨Bool.not_eq_true _ ▸ hunclosed, hmissing, hnames, ?_⟩
    split at h
    · rename_i ts hts
      exact ⟨ts, hts, (Except.ok.inj h).symm⟩
    · cases h
  · rintro ⟨hclosed, rfl, hnames, ts, hts, rfl⟩
    rw [hclosed, hnames, hts]
    rfl

/-- **Readings that can be put in by searching for their spellings.** -/
structure Readings.Replaceable (readings : Readings) : Prop where
  recordable : ∀ name ∈ readings.spellings, Name.IsRecordable name
  /-- Bare spellings that agree up to letter case have one reading. -/
  consistent : ∀ e ∈ readings.entries, ∀ f ∈ readings.entries, Name.IsBare e.1 →
    Name.IsBare f.1 → e.1.foldCase = f.1.foldCase → e.2 = f.2
  shorter : ∀ a ∈ readings.spellings, ∀ b ∈ readings.spellings, a.foldCase <:+: b.foldCase →
    a.foldCase ≠ b.foldCase → a.length < b.length

namespace Readings

variable {readings : Readings}

/-- What is found was recorded, under the name itself or under what agrees with its canonical
spelling up to letter case. -/
theorem exists_entry_of_find? {name : Text} {x : Float} (h : readings.find? name = some x) :
    ∃ e ∈ readings.entries, e.2 = x ∧
      (e.1 = name ∨ e.1.foldCase = (Name.canonical name).foldCase) := by
  -- the three ways to look up, each of which gives an entry
  rw [find?, Option.or_eq_some_iff] at h
  rcases h with h | ⟨-, h⟩
  · exact ⟨_, mem_entries_of_lookup h, rfl, Or.inl rfl⟩
  · rw [Option.or_eq_some_iff] at h
    rcases h with h | ⟨-, h⟩
    · exact ⟨_, mem_entries_of_lookup h, rfl, Or.inr rfl⟩
    · obtain ⟨e, he, rfl⟩ := Option.map_eq_some_iff.1 h
      have hfold := List.find?_some he
      exact ⟨e, List.mem_of_find?_eq_some he, rfl, Or.inr (beq_iff_eq.1 hfold)⟩

theorem exists_entry_of_find?_isBare {name : Text} (hname : Name.IsBare name) {x : Float}
    (h : readings.find? name = some x) :
    ∃ e ∈ readings.entries, e.1.foldCase = name.foldCase ∧ e.2 = x := by
  obtain ⟨e, he, hx, heq⟩ := exists_entry_of_find? h
  rw [hname.canonical_eq] at heq
  exact ⟨e, he, heq.elim (congrArg Text.foldCase) id, hx⟩

/-- Before the first turn all is still to come. -/
theorem Replaceable.pending (hreadings : readings.Replaceable) {value : Text → Float}
    {ls : List Lexeme} (hutf8 : ∀ l ∈ ls, l.text.IsUtf8)
    (hvalue : ∀ l ∈ ls, ∀ name, l.name? = some name → readings.find? name = some (value name)) :
    Lexeme.Pending value ls Lexeme.isBracketed readings.entriesLongestFirst := by
  have hperm := readings.perm_entriesLongestFirst
  have hspelling : ∀ e ∈ readings.entriesLongestFirst, e.1 ∈ readings.spellings :=
    fun e he => List.mem_map_of_mem (hperm.mem_iff.1 he)
  refine ⟨readings.pairwise_entriesLongestFirst,
    fun e he => hreadings.recordable _ (hspelling e he),
    fun a ha b hb => hreadings.shorter _ (hspelling a ha) _ (hspelling b hb), ?_, ?_, ?_, ?_⟩
  · -- the spelling that is found for a reference has the same reading as any that agrees
    intro e he y hy hmem hfold
    obtain ⟨f, hf, hfold', hx⟩ := exists_entry_of_find?_isBare hy (hvalue _ hmem y rfl)
    have hbare : ∀ g ∈ readings.entries, g.1.foldCase = y.foldCase → Name.IsBare g.1 :=
      fun g hg hg' => Text.isBare_of_foldCase_eq
        (hreadings.recordable _ (List.mem_map_of_mem hg)) (hutf8 _ hmem) hg' hy
    have he' := hperm.mem_iff.1 he
    rw [← hx]
    exact hreadings.consistent e he' f hf (hbare e he' hfold) (hbare f hf hfold')
      (hfold.trans hfold'.symm)
  · -- what is not done is a name, and its reading comes from an entry that agrees
    intro y hy hmem _
    obtain ⟨e, he, hfold, -⟩ := exists_entry_of_find?_isBare hy (hvalue _ hmem y rfl)
    exact ⟨e, hperm.mem_iff.2 he, hfold⟩
  · -- what is done at first are the brackets, and they are references
    rintro l hl hdone inside hi rfl
    cases hdone
  · intro l hl hdone
    cases l with
    | bracketed => rfl
    | _ => cases hdone

end Readings

/-- **Substitution yields the tokens of the lexemes**, every reference by its reading. -/
theorem substitute_texts {readings : Readings} (hreadings : readings.Replaceable)
    {ls : List Lexeme} {behind : Bool} (hspaced : Lexeme.Spaced behind ls)
    (hutf8 : (Lexeme.texts ls).IsUtf8) {value : Text → Float}
    (hvalue : ∀ l ∈ ls, ∀ name, l.name? = some name → readings.find? name = some (value name)) :
    substitute (Lexeme.texts ls) readings = .ok (Lexeme.tokens value ls ++ [.stop]) := by
  -- nothing is unclosed and nothing is missing, so what counts is what the turns leave
  have hlexemes := Lexeme.isUtf8_text hspaced hutf8
  have hclosed := Lexeme.isUnclosed_segments_texts ls
  have hmissing : missingReferences readings (segments (Lexeme.texts ls)) = [] := by
    rw [missingReferences, List.filter_eq_nil_iff]
    intro name hname
    obtain ⟨part, hpart, hname⟩ := List.mem_filterMap.1 hname
    rw [Lexeme.segments_texts] at hpart
    obtain ⟨l, hl, hpart⟩ := List.mem_flatMap.1 hpart
    have hfound : readings.contains name = true := by
      cases l with
      | bracketed inside hi =>
        rw [List.mem_singleton.1 hpart] at hname
        rw [Readings.contains, hvalue _ hl name hname]
        rfl
      | _ =>
        obtain ⟨c, -, rfl⟩ := List.mem_map.1 hpart
        cases hname
    simp [hfound]
  have hstart : Lexeme.Renders value Lexeme.isBracketed ls
      (referencePieces readings (segments (Lexeme.texts ls))) :=
    Lexeme.renders_referencePieces fun inside hi hmem => hvalue _ hmem _ rfl
  obtain ⟨done, hend, hdone⟩ :=
    hstart.foldl_replaceEntry (hreadings.pending hlexemes hvalue) hspaced hlexemes
  obtain ⟨hnames, htokens⟩ := hend.pieceTokens_eq hspaced hdone
  exact substitute_eq_ok_iff.2 ⟨hclosed, hmissing, hnames, _, htokens, rfl⟩

/-! ### The value of an expression -/

namespace Lexeme

/-- No symbol is an end mark, or says by itself that it is a sign. -/
theorem of_mem_symbols : ∀ symbol ∈ Token.symbols,
    symbol.2 ≠ .stop ∧ Arrangement.isSignToken symbol.2 = false := by
  decide

/-- No lexeme is an end mark, or says by itself that it is a sign. -/
theorem of_mem_tokens {value : Text → Float} {ls : List Lexeme} {token : Token}
    (h : token ∈ tokens value ls) :
    token ≠ .stop ∧ Arrangement.isSignToken token = false := by
  -- the tokens that the lexer reads are numbers and symbols, and so are those of references
  obtain ⟨l, -, hl⟩ := List.mem_filterMap.1 h
  cases l with
  | blank => cases hl
  | symbol c token' hc =>
    cases hl
    exact of_mem_symbols _ hc
  | numeral => cases hl; exact ⟨by simp, rfl⟩
  | bare => cases hl; exact ⟨by simp, rfl⟩
  | bracketed => cases hl; exact ⟨by simp, rfl⟩

theorem takeWhile_tokens (value : Text → Float) (ls : List Lexeme) :
    (tokens value ls).takeWhile (· != Token.stop) = tokens value ls :=
  List.takeWhile_eq_self_iff.2 fun _ h => bne_iff_ne.2 (of_mem_tokens h).1

theorem takeWhile_tokens_append_stop (value : Text → Float) (ls : List Lexeme) :
    (tokens value ls ++ [Token.stop]).takeWhile (· != Token.stop) = tokens value ls := by
  rw [List.takeWhile_append_of_pos fun _ h => bne_iff_ne.2 (of_mem_tokens h).1]
  exact List.append_nil _

end Lexeme

/-- What variables stand for in readings. -/
def Readings.value (readings : Readings) (name : Text) : Float := (readings.find? name).getD 0

/-- **An expression has the value of its tree**, with every reference read as it is looked
up, and if that value is not finite this is the failure that is reported. The text has to be
UTF-8 and every reference to have a reading; of the spellings that are recorded, those
without a comma have to be bare and distinct up to letter case, and each has to be shorter
than any other whose folded bytes have its own as a part. -/
theorem evaluate_texts (ls : List Lexeme) (readings : Readings) (mode : Precedence)
    (hutf8 : (Lexeme.texts ls).IsUtf8) (hls : Lexeme.IsArithmetic ls)
    (hresolves : ∀ l ∈ ls, ∀ name, l.name? = some name → readings.contains name = true)
    (hform : ∀ name ∈ readings.spellings,
      name.IsUtf8 ∧ (Ascii.comma ∈ name ∨ Name.IsBare name))
    (hdistinct : ∀ a ∈ readings.spellings, ∀ b ∈ readings.spellings, Name.IsBare a →
      Name.IsBare b → a.foldCase = b.foldCase → a = b)
    (hshorter : ∀ a ∈ readings.spellings, ∀ b ∈ readings.spellings,
      a.foldCase <:+: b.foldCase → a.foldCase ≠ b.foldCase → a.length < b.length) :
    (∃! tree, mode.Parses 0 (Lexeme.tokens readings.value ls) tree) ∧
      ∀ tree, mode.Parses 0 (Lexeme.tokens readings.value ls) tree →
        evaluate (Lexeme.texts ls) readings mode =
          if tree.eval.isFinite then .ok tree.eval
          else .error (.notFinite (Lexeme.texts ls)) := by
  -- with no two bare spellings that agree up to case, the readings are consistent
  have hreadings : readings.Replaceable := by
    refine ⟨fun name hname => ⟨(hform name hname).1, (hform name hname).2⟩, ?_, hshorter⟩
    intro e he f hf hbare hbare' hfold
    have hspelling := hdistinct _ (List.mem_map_of_mem he) _ (List.mem_map_of_mem hf) hbare
      hbare' hfold
    rw [List.inj_on_of_nodup_map readings.nodup he hf hspelling]
  have hvalue : ∀ l ∈ ls, ∀ name, l.name? = some name →
      readings.find? name = some (readings.value name) := by
    intro l hl name hname
    obtain ⟨x, hx⟩ := Option.isSome_iff_exists.1 (hresolves l hl name hname)
    rw [Readings.value, hx]
    rfl
  -- from here on there are only tokens, and the text is done with
  have hsubstitute := substitute_texts hreadings hls.spaced hutf8 hvalue
  refine ⟨?_, fun tree htree => ?_⟩
  · obtain ⟨tree, htree⟩ := mode.exists_parses (hls readings.value)
    exact ⟨tree, htree, fun other hother =>
      hother.unique (Lexeme.takeWhile_tokens _ _) htree⟩
  · have hrun : evaluateTokens mode (Lexeme.tokens readings.value ls ++ [.stop])
        = .ok tree.eval := by
      refine evaluateTokens_of_parses ?_
      rw [Lexeme.takeWhile_tokens_append_stop]
      exact htree
    rw [evaluate, hsubstitute]
    dsimp only
    rw [hrun]

/-- A name in another letter case than it is recorded in, and one with a comma: twice a half, and
three more. -/
theorem evaluate_texts_of_two_references :
    let readings : Readings := .ofList [(utf8 "Fe", 0.5), (utf8 "Mn, total", 3.0)]
    evaluate (utf8 "2*fe +[Mn, total]") readings .standard = .ok 4.0 := by
  intro readings
  let two : Numeral := .ofDigits (utf8 "2") (by decide) rfl
  have hfloat : two.figure.decimal.toFloat = 2.0 := by decide +kernel
  let ls : List Lexeme := [.numeral two 2.0 (hfloat ▸ two.figure.roundsTo_toFloat),
    .symbol Ascii.star (.operator .multiply) (by decide),
    .bare (utf8 "fe") (by decide +kernel), .blank Ascii.space rfl,
    .symbol Ascii.plus (.operator .add) (by decide), .bracketed (utf8 "Mn, total") (by decide)]
  -- a product with another operand behind a plus, whatever the values are
  have hls : Lexeme.IsArithmetic ls := fun value =>
    .chain (.chain (.single (.number _)) (.number _)) (.number _)
  -- what is asked of the spellings
  have hspellings : readings.spellings = [utf8 "Fe", utf8 "Mn, total"] := by decide
  have hbare : Name.IsBare (utf8 "Fe") := by decide +kernel
  have hform : ∀ name ∈ readings.spellings,
      name.IsUtf8 ∧ (Ascii.comma ∈ name ∨ Name.IsBare name) := by
    rw [hspellings]
    refine List.forall_mem_cons.2 ⟨⟨⟨"Fe", rfl⟩, Or.inr hbare⟩, ?_⟩
    exact List.forall_mem_singleton.2 ⟨⟨"Mn, total", rfl⟩, Or.inl (by decide)⟩
  have hdistinct : ∀ a ∈ readings.spellings, ∀ b ∈ readings.spellings,
      a.foldCase = b.foldCase → a = b := by
    rw [hspellings]
    decide
  have hresolves : ∀ name ∈ ls.filterMap Lexeme.name?, readings.contains name = true := by
    change ∀ name ∈ [utf8 "fe", Name.canonical (utf8 "Mn, total")], readings.contains name = true
    decide
  -- the one name is found up to letter case, the other one as it was entered
  have hiron : readings.value (utf8 "fe") = 0.5 := rfl
  have htotal : readings.value (Name.canonical (utf8 "Mn, total")) = 3.0 := rfl
  have htokens : Lexeme.tokens readings.value ls =
      [.number 2.0, .operator .multiply, .number 0.5] ++ .operator .add :: [.number 3.0] := by
    rw [← hiron, ← htotal]
    rfl
  have hparses := (evaluate_texts ls readings .standard ⟨"2*fe +[Mn, total]", rfl⟩ hls
    (fun l hl name hname => hresolves name (List.mem_filterMap.2 ⟨l, hl, hname⟩)) hform
    (fun a ha b hb _ _ => hdistinct a ha b hb) (by rw [hspellings]; decide)).2
  have htext : Lexeme.texts ls = utf8 "2*fe +[Mn, total]" := rfl
  rw [htokens, htext] at hparses
  -- the product is the left operand of the sum
  have hproduct : Precedence.standard.Parses 0
      ([.number 2.0] ++ .operator .multiply :: [.number 0.5])
      (.apply .multiply (.number 2.0) (.number 0.5)) :=
    .apply (Nat.zero_le _) (.number _ _) (.number _ _)
  have hsum := hparses _ (.apply (Nat.zero_le _) hproduct (.number _ _))
  have hvalue : (Expr.apply .add (.apply .multiply (.number 2.0) (.number 0.5))
      (.number 3.0)).eval = 4.0 := rfl
  rw [hvalue] at hsum
  exact hsum

end AssayRules
