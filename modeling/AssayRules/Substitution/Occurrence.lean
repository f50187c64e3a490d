import AssayRules.Text.Fold

/-!
# Occurrences of a name in a text

A name **occurs** where a text spells it out and the spelling stands alone: no word
byte may stand directly before a name that begins with one, nor directly behind a name
that ends with one, so that `pH` is not found in `alpha_pH` or `pH2`.

A text is searched in **glyphs**, the parts of it that an occurrence cannot divide,
each with the key by which it is compared. An exact search has a glyph for each byte,
which is its own key. A search up to letter case has a glyph for each character, with
its folded bytes as the key, since folding may shorten a character and half of one is
nothing to be found. The name is turned into a key in the same way and as a whole.

Occurrences are taken from left to right and do not overlap. `spans` cuts a text into
occurrences and the glyphs between them, and loses nothing of it
(`flatMap_text_spans`).
-/

namespace AssayRules

/-- **A glyph**: a part of a text with the key it is compared by. -/
structure Glyph where
  text : Text
  key : Text
deriving DecidableEq, Repr

/-- **How names are compared** with a text. -/
inductive Matching where
  /-- Byte by byte. -/
  | exact
  /-- Up to letter case. -/
  | folded
deriving DecidableEq, Repr

namespace Matching

/-- The key of a name. -/
def key : Matching → Text → Text
  | exact, s => s
  | folded, s => s.foldCase

/-- The glyphs of a text. -/
def glyphs : Matching → Text → List Glyph
  | exact, s => s.map fun c => ⟨[c], [c]⟩
  | folded, s => s.characters.map fun character => ⟨character, character.foldCase⟩

/-- The glyphs of a text make up the text. -/
@[simp] theorem flatMap_text_glyphs (mode : Matching) (s : Text) :
    (mode.glyphs s).flatMap Glyph.text = s := by
  cases mode with
  | exact => simp [glyphs, List.flatMap_map]
  | folded => rw [glyphs, List.flatMap_map, List.flatMap_id', Text.flatten_characters]

end Matching

/-- **The glyphs at the front whose keys spell `key`**, and the glyphs that follow. The
last key has to end where `key` does. -/
def spell? : Text → List Glyph → Option (List Glyph × List Glyph)
  | [], glyphs => some ([], glyphs)
  | _ :: _, [] => none
  | c :: rest, glyph :: glyphs =>
    if glyph.key.isPrefixOf (c :: rest) then
      (spell? ((c :: rest).drop glyph.key.length) glyphs).map fun (used, after) =>
        (glyph :: used, after)
    else none

/-- What spells a key and what follows it make up the whole. -/
theorem append_of_spell?_eq_some {key : Text} {glyphs used after : List Glyph}
    (h : spell? key glyphs = some (used, after)) : used ++ after = glyphs := by
  fun_induction spell? key glyphs generalizing used with
  | case1 glyphs =>
    simp only [Option.some.injEq, Prod.mk.injEq] at h
    rw [← h.1, ← h.2, List.nil_append]
  | case2 => simp at h
  | case3 c rest glyph glyphs _ ih =>
    obtain ⟨⟨used', after'⟩, hs, he⟩ := Option.map_eq_some_iff.1 h
    simp only [Prod.mk.injEq] at he
    obtain ⟨rfl, rfl⟩ := he
    rw [List.cons_append, ih hs]
  | case4 => simp at h

/-- **Whether a name stands alone** between the bytes before and behind it, of which
either may be missing. -/
def standsAlone (name : Text) (before behind : Option UInt8) : Bool :=
  !(name.head?.any Ascii.isWord && before.any Ascii.isWord)
    && !(name.getLast?.any Ascii.isWord && behind.any Ascii.isWord)

/-- A name to look for, with its key. -/
structure Target where
  name : Text
  key : Text

/-- **The occurrence at the front**, behind the byte `before`: its glyphs and those that
follow. An occurrence has at least one glyph. -/
def Target.front? (target : Target) (before : Option UInt8) (glyphs : List Glyph) :
    Option (List Glyph × List Glyph) :=
  match spell? target.key glyphs with
  | some (glyph :: used, after) =>
    if standsAlone target.name before (after.head?.bind fun next => next.text.head?) then
      some (glyph :: used, after)
    else none
  | _ => none

/-- An occurrence and what follows it make up the whole, and the occurrence is not
empty. -/
theorem Target.append_of_front?_eq_some {target : Target} {before : Option UInt8}
    {glyphs used after : List Glyph} (h : target.front? before glyphs = some (used, after)) :
    used ++ after = glyphs ∧ used ≠ [] := by
  unfold front? at h
  split at h
  · rename_i glyph used' after' hs
    split at h
    · simp only [Option.some.injEq, Prod.mk.injEq] at h
      rw [← h.1, ← h.2]
      exact ⟨append_of_spell?_eq_some hs, List.cons_ne_nil _ _⟩
    · cases h
  · cases h

/-- **A span** of a searched text. -/
inductive Span where
  /-- A glyph outside all occurrences. -/
  | plain (text : Text)
  /-- An occurrence. -/
  | hit (text : Text)
deriving DecidableEq, Repr

namespace Span

/-- The text a span was cut from. -/
def text : Span → Text
  | plain s => s
  | hit s => s

/-- Whether the span is an occurrence. -/
def isHit : Span → Bool
  | plain _ => false
  | hit _ => true

end Span

/-- **The spans of a list of glyphs** that stands behind the byte `before`: at each
glyph the occurrence that begins there, or else the glyph. -/
def Target.spans (target : Target) : Option UInt8 → List Glyph → List Span
  | _, [] => []
  | before, glyph :: rest =>
    match _h : target.front? before (glyph :: rest) with
    | some (used, after) =>
      let found := used.flatMap Glyph.text
      .hit found :: spans target found.getLast? after
    | none => .plain glyph.text :: spans target glyph.text.getLast? rest
termination_by _ glyphs => glyphs.length
decreasing_by
  · obtain ⟨happend, hne⟩ := Target.append_of_front?_eq_some _h
    rw [← happend, List.length_append]
    have := List.length_pos_iff.2 hne
    omega
  · simp

@[simp] theorem Target.spans_nil (target : Target) (before : Option UInt8) :
    target.spans before [] = [] := by
  unfold spans
  rfl

/-- Cutting into spans loses nothing. -/
@[simp] theorem Target.flatMap_text_spans (target : Target) (before : Option UInt8)
    (glyphs : List Glyph) :
    (target.spans before glyphs).flatMap Span.text = glyphs.flatMap Glyph.text := by
  fun_induction Target.spans target before glyphs with
  | case1 => rfl
  | case2 before glyph rest used after h found ih =>
    rw [List.flatMap_cons, ih, ← (append_of_front?_eq_some h).1, List.flatMap_append]
    rfl
  | case3 before glyph rest h ih => rw [List.flatMap_cons, ih, List.flatMap_cons]; rfl

/-- **The spans of a text** in which a name is looked for. -/
def Matching.spans (mode : Matching) (name s : Text) : List Span :=
  Target.spans ⟨name, mode.key name⟩ none (mode.glyphs s)

end AssayRules
