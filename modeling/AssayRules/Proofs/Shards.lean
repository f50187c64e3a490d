import AssayRules.Proofs.References
import AssayRules.Substitution
import Mathlib.Data.List.Chain

/-!
# What turns leave of a text

Substitution forgets what stood where a reading now stands. To say whether a turn did right one
has to know it, so a text is followed here in **shards** (`Shard`): what is left of it, and
readings that remember what they were put in for. Forgetting that again, shards are the pieces
of substitution, turn by turn (`Shard.map_piece_foldl_turn`).

Nothing is assumed of the names that are looked for. What is kept by every turn, for a text that
is UTF-8, is how the shards of text lie between the readings (`Shard.IsBetween`): none is empty
or next to another, none divides a character, and where one borders on a reading there is not a
word on both sides. Because of that last, what stands alone in a shard stands alone in the whole
text (`Shard.Sound.occursIn`).

What a turn cuts out is an occurrence in the whole text (`Shard.Sound.exists_of_turn`), and no
occurrence of the name is left behind in a shard of text (`Shard.Sound.not_inText_turn`).
-/

namespace AssayRules

/-- **A shard** of a text under substitution. -/
inductive Shard where
  /-- What is left of the text. -/
  | text (s : Text)
  /-- A reading, and what it was put in for. -/
  | reading (x : Float) (source : Text)

namespace Shard

/-- The part of the text that a shard was cut from. -/
def source : Shard → Text
  | text s => s
  | reading _ u => u

/-- What a shard is in substitution. -/
def piece : Shard → Piece
  | text s => .text s
  | reading x _ => .value x

/-- Whether a shard is left of the text. -/
def isText : Shard → Bool
  | text _ => true
  | reading _ _ => false

/-- The text that shards were cut from. -/
def sources (shards : List Shard) : Text := shards.flatMap source

@[simp] theorem sources_nil : sources [] = [] := rfl

@[simp] theorem sources_cons (shard : Shard) (shards : List Shard) :
    sources (shard :: shards) = shard.source ++ sources shards := rfl

@[simp] theorem sources_append (shards others : List Shard) :
    sources (shards ++ others) = sources shards ++ sources others :=
  List.flatMap_append

@[simp] theorem sources_singleton (shard : Shard) : sources [shard] = shard.source :=
  List.append_nil _

/-- A single shard has no others around it. -/
theorem eq_of_singleton_eq {shard other : Shard} {front back : List Shard}
    (h : [other] = front ++ shard :: back) : front = [] ∧ shard = other ∧ back = [] := by
  rcases List.singleton_eq_append_iff.1 h with ⟨hfront, hback⟩ | ⟨-, hback⟩
  · obtain ⟨hshard, hback⟩ := List.cons.inj hback
    exact ⟨hfront, hshard, hback⟩
  · cases hback

/-! ### Merging -/

/-- Neighbouring shards of text become one. -/
def merge : List Shard → List Shard
  | [] => []
  | reading x u :: rest => reading x u :: merge rest
  | text s :: rest =>
    match merge rest with
    | text t :: others => text (s ++ t) :: others
    | others => text s :: others

theorem map_piece_merge (shards : List Shard) :
    (merge shards).map piece = Piece.mergeText (shards.map piece) := by
  -- shard by shard, where a text is put in front of the one that follows, if one does
  induction shards with
  | nil => rfl
  | cons shard rest ih =>
    cases shard with
    | reading x u => rw [merge, List.map_cons, ih]; rfl
    | text s =>
      rw [merge, List.map_cons, piece, Piece.mergeText, ← ih]
      cases merge rest with
      | nil => rfl
      | cons other others => cases other <;> rfl

@[simp] theorem sources_merge (shards : List Shard) : sources (merge shards) = sources shards := by
  -- shard by shard, as putting two texts into one moves no byte
  induction shards with
  | nil => rfl
  | cons shard rest ih =>
    cases shard with
    | reading x u => rw [merge, sources_cons, sources_cons, ih]
    | text s =>
      rw [merge, sources_cons, ← ih]
      cases merge rest with
      | nil => rfl
      | cons other others =>
        cases other with
        | text t => exact List.append_assoc s t (sources others)
        | reading x u => rfl

/-- A reading is found between the same sources before merging. -/
theorem exists_of_merge_eq {shards front back : List Shard} {x : Float} {u : Text}
    (h : merge shards = front ++ reading x u :: back) :
    ∃ front' back', shards = front' ++ reading x u :: back' ∧
      sources front' = sources front ∧ sources back' = sources back := by
  -- from the front, until the reading is the first of what is left
  induction shards generalizing front with
  | nil => exact absurd h.symm (by simp [merge])
  | cons shard rest ih =>
    cases shard with
    | reading y v =>
      rw [merge] at h
      cases front with
      | nil =>
        obtain ⟨hreading, rfl⟩ := List.cons.inj h
        rw [hreading]
        exact ⟨[], rest, rfl, rfl, (sources_merge rest).symm⟩
      | cons first front =>
        obtain ⟨rfl, hrest⟩ := List.cons.inj h
        obtain ⟨front', back', rfl, hfront, hback⟩ := ih hrest
        exact ⟨reading y v :: front', back', rfl, congrArg (v ++ ·) hfront, hback⟩
    | text s =>
      rw [merge] at h
      -- what the text is merged with, if anything, stands in front of the reading
      cases hmerge : merge rest with
      | nil =>
        rw [hmerge] at h
        cases front with
        | nil => cases h
        | cons first front => exact absurd (List.cons.inj h).2.symm (by simp)
      | cons other others =>
        rw [hmerge] at h
        cases other with
        | text t =>
          cases front with
          | nil => cases h
          | cons first front =>
            obtain ⟨rfl, rfl⟩ := List.cons.inj h
            -- the text behind is part of the one in front now, and is given back
            have hrest : merge rest = (text t :: front) ++ reading x u :: back := hmerge
            obtain ⟨front', back', rfl, hfront, hback⟩ := ih hrest
            refine ⟨text s :: front', back', rfl, ?_, hback⟩
            rw [sources_cons, hfront, sources_cons, sources_cons]
            exact (List.append_assoc s t (sources front)).symm
        | reading y v =>
          cases front with
          | nil => cases h
          | cons first front =>
            obtain ⟨rfl, hrest⟩ := List.cons.inj h
            obtain ⟨front', back', rfl, hfront, hback⟩ := ih (hmerge.trans hrest)
            exact ⟨text s :: front', back', rfl, congrArg (s ++ ·) hfront, hback⟩

/-- Readings keep what is merged apart. -/
theorem merge_append_reading (front back : List Shard) (x : Float) (u : Text) :
    merge (front ++ reading x u :: back) = merge front ++ reading x u :: merge back := by
  -- a reading is never put into another shard, so the merging on its two sides does not meet
  induction front with
  | nil => rfl
  | cons shard rest ih =>
    cases shard with
    | reading y v => rw [List.cons_append, merge, ih, merge, List.cons_append]
    | text s =>
      rw [List.cons_append, merge, ih, merge]
      cases merge rest with
      | nil => rfl
      | cons other others => cases other <;> rfl

/-- After merging no two texts are neighbours. -/
theorem isChain_merge (shards : List Shard) :
    (merge shards).IsChain fun a b => a.isText = true → b.isText = false := by
  induction shards with
  | nil => exact .nil
  | cons shard rest ih =>
    cases shard with
    | reading x u =>
      rw [merge, List.isChain_cons]
      exact ⟨fun _ _ h => Bool.noConfusion h, ih⟩
    | text s =>
      rw [merge]
      -- the texts behind are apart by now, so only the first of them can touch this one
      cases hmerge : merge rest with
      | nil => exact .singleton _
      | cons other others =>
        rw [hmerge] at ih
        cases other with
        | text t =>
          rw [List.isChain_cons] at ih ⊢
          exact ih
        | reading x u => exact .cons_cons (fun _ => rfl) ih

theorem source_ne_nil_merge {shards : List Shard} (h : ∀ shard ∈ shards, shard.source ≠ []) :
    ∀ shard ∈ merge shards, shard.source ≠ [] := by
  induction shards with
  | nil => exact h
  | cons shard rest ih =>
    obtain ⟨hfirst, hrest⟩ := List.forall_mem_cons.1 h
    have hmerged := ih hrest
    cases shard with
    | reading x u => exact List.forall_mem_cons.2 ⟨hfirst, hmerged⟩
    -- a merged text is longer than the one it begins with
    | text s =>
      rw [merge]
      cases hmerge : merge rest with
      | nil => exact List.forall_mem_singleton.2 hfirst
      | cons other others =>
        rw [hmerge] at hmerged
        cases other with
        | text t =>
          refine List.forall_mem_cons.2 ⟨?_, (List.forall_mem_cons.1 hmerged).2⟩
          exact fun hnil => hfirst (List.append_eq_nil_iff.1 hnil).1
        | reading x u => exact List.forall_mem_cons.2 ⟨hfirst, hmerged⟩

/-! ### Looking for a name -/

/-- What a span becomes. -/
def ofSpan (x : Float) : Span → Shard
  | .plain s => text s
  | .hit u => reading x u

/-- **One shard in which a name has been looked for.** -/
def search (mode : Matching) (name : Text) (x : Float) : Shard → List Shard
  | text s => merge ((mode.spans name s).map (ofSpan x))
  | reading y u => [reading y u]

/-- Shards in which a name has been looked for. -/
def searchAll (mode : Matching) (name : Text) (x : Float) (shards : List Shard) : List Shard :=
  shards.flatMap (search mode name x)

/-- **A turn**: an entry is looked for exactly, and then up to letter case. -/
def turn (shards : List Shard) (entry : Text × Float) : List Shard :=
  if entry.1.isEmpty then shards
  else searchAll .folded entry.1 entry.2 (searchAll .exact entry.1 entry.2 shards)

variable {mode : Matching} {name : Text} {x : Float} {shards : List Shard}

theorem map_piece_search (mode : Matching) (name : Text) (x : Float) (shard : Shard) :
    (search mode name x shard).map piece = (shard.piece.replaceName mode name x).pieces := by
  cases shard with
  | reading y u => rfl
  | text s =>
    rw [search, map_piece_merge, List.map_map, piece, Piece.replaceName]
    congr 1
    refine List.map_congr_left fun span _ => ?_
    cases span <;> rfl

theorem map_piece_searchAll (mode : Matching) (name : Text) (x : Float) (shards : List Shard) :
    (searchAll mode name x shards).map piece
      = (replaceName mode name x (shards.map piece)).pieces := by
  induction shards with
  | nil => rfl
  | cons shard rest ih =>
    rw [searchAll] at ih ⊢
    rw [List.flatMap_cons, List.map_append, map_piece_search, ih]
    rfl

/-- **Shards are the pieces** of substitution, turn by turn. -/
theorem map_piece_foldl_turn (entries : List (Text × Float)) (shards : List Shard) :
    (entries.foldl turn shards).map piece = entries.foldl replaceEntry (shards.map piece) := by
  induction entries generalizing shards with
  | nil => rfl
  | cons entry entries ih =>
    rw [List.foldl_cons, List.foldl_cons, ih, turn, replaceEntry]
    split
    · rfl
    · rw [map_piece_searchAll, map_piece_searchAll]

theorem sources_map_ofSpan (x : Float) (spans : List Span) :
    sources (spans.map (ofSpan x)) = spans.flatMap Span.text := by
  rw [sources, List.flatMap_map]
  refine List.flatMap_congr fun span _ => ?_
  cases span <;> rfl

@[simp] theorem sources_search (mode : Matching) (name : Text) (x : Float) (shard : Shard) :
    sources (search mode name x shard) = shard.source := by
  cases shard with
  | reading y u => exact List.append_nil u
  | text s =>
    rw [search, sources_merge, sources_map_ofSpan, Matching.spans_eq_spansFrom,
      Matching.flatMap_text_spansFrom, source]

/-- Looking for a name loses nothing of the text. -/
@[simp] theorem sources_searchAll (mode : Matching) (name : Text) (x : Float)
    (shards : List Shard) : sources (searchAll mode name x shards) = sources shards := by
  induction shards with
  | nil => rfl
  | cons shard rest ih =>
    rw [searchAll] at ih ⊢
    rw [List.flatMap_cons, sources_append, sources_search, ih, sources_cons]

@[simp] theorem sources_turn (shards : List Shard) (entry : Text × Float) :
    sources (turn shards entry) = sources shards := by
  rw [turn]
  split
  · rfl
  · rw [sources_searchAll, sources_searchAll]

@[simp] theorem sources_foldl_turn (entries : List (Text × Float)) (shards : List Shard) :
    sources (entries.foldl turn shards) = sources shards := by
  induction entries generalizing shards with
  | nil => rfl
  | cons entry entries ih => rw [List.foldl_cons, ih, sources_turn]

/-- **What is put in is put in for an occurrence.** -/
theorem occursIn_of_search {s : Text} (hs : s.IsUtf8) {front back : List Shard} {y : Float}
    {u : Text} (h : search mode name x (text s) = front ++ reading y u :: back) :
    y = x ∧ Matching.folded.OccursIn name (sources front).getLast? u (sources back) := by
  rw [search] at h
  obtain ⟨front', back', hspans, hfront, hback⟩ := exists_of_merge_eq h
  -- the hit in the search that this reading comes from
  obtain ⟨before, rest, hsplit, rfl, hrest⟩ := List.map_eq_append_iff.1 hspans
  obtain ⟨span, behind, rfl, hspan, rfl⟩ := List.map_eq_cons_iff.1 hrest
  rw [sources_map_ofSpan] at hfront hback
  cases span with
  | plain => cases hspan
  | hit v =>
    cases hspan
    refine ⟨rfl, ?_⟩
    rw [Matching.spans_eq_spansFrom] at hsplit
    have hoccurs := (Matching.Divides.of_isUtf8 hs mode).occursIn_of_spansFrom hsplit
    rw [Option.or_none, hfront, hback] at hoccurs
    -- an exact hit is one up to letter case
    cases mode with
    | folded => exact hoccurs
    | exact =>
      have htext := Matching.flatMap_text_spansFrom .exact name none s
      rw [hsplit, List.flatMap_append, List.flatMap_cons, hfront, hback] at htext
      exact Matching.OccursIn.folded_of_exact (htext ▸ hs) hoccurs

/-- **Every occurrence is met**: where one begins, something has been put in. -/
theorem exists_reading_of_occursIn {s a u t : Text} (hs : s.IsUtf8) (h : s = a ++ (u ++ t))
    (hu : Matching.folded.OccursIn name a.getLast? u t) (x : Float) :
    ∃ front v back, search .folded name x (text s) = front ++ reading x v :: back ∧
      (sources front).length ≤ a.length ∧ a.length < (sources front).length + v.length := by
  have hdivides : Matching.folded.Divides s := hs
  rw [← Option.or_none (o := a.getLast?)] at hu
  obtain ⟨before, v, behind, hspans, hle, hlt⟩ := hdivides.exists_hit_of_occursIn h hu
  refine ⟨merge (before.map (ofSpan x)), v, merge (behind.map (ofSpan x)), ?_, ?_, ?_⟩
  · rw [search, Matching.spans_eq_spansFrom, hspans, List.map_append, List.map_cons, ofSpan,
      merge_append_reading]
  all_goals rwa [sources_merge, sources_map_ofSpan]

/-- What is put in is put in for something, and no shard of text is empty. -/
theorem source_ne_nil_search {s : Text} (hs : s.IsUtf8) :
    ∀ shard ∈ search mode name x (text s), shard.source ≠ [] := by
  refine source_ne_nil_merge fun shard hshard => ?_
  obtain ⟨span, hspan, rfl⟩ := List.mem_map.1 hshard
  have hne := (Matching.Divides.of_isUtf8 hs mode).text_ne_nil_of_mem_spansFrom _ hspan
  cases span <;> exact hne

/-! ### How texts lie between readings -/

/-- **A shard of text between others.** -/
structure IsBetween (front : List Shard) (s : Text) (back : List Shard) : Prop where
  ne_nil : s ≠ []
  isUtf8 : s.IsUtf8
  previous : ∀ shard ∈ front.getLast?, shard.isText = false
  next : ∀ shard ∈ back.head?, shard.isText = false
  /-- No word goes on from what is in front. -/
  before : ((sources front).getLast?.any Ascii.isWord && s.head?.any Ascii.isWord) = false
  /-- No word goes on into what is behind. -/
  behind : (s.getLast?.any Ascii.isWord && (sources back).head?.any Ascii.isWord) = false

/-- **Shards in which all texts lie as they should.** -/
def Sound (shards : List Shard) : Prop :=
  ∀ front s back, shards = front ++ text s :: back → IsBetween front s back

theorem Sound.singleton {s : Text} (hne : s ≠ []) (hs : s.IsUtf8) : Sound [text s] := by
  intro front t back h
  obtain ⟨rfl, heq, rfl⟩ := eq_of_singleton_eq h
  cases heq
  exact ⟨hne, hs, by simp, by simp, rfl, by simp⟩

/-- In front of a text in sound shards stands nothing, or a reading; and likewise behind. -/
theorem eq_concat_of_previous {front : List Shard} (hne : front ≠ [])
    (h : ∀ shard ∈ front.getLast?, shard.isText = false) :
    ∃ front' x u, front = front' ++ [reading x u] := by
  obtain ⟨front', last, rfl⟩ := List.eq_nil_or_concat front |>.resolve_left hne
  have hlast := h last (by simp)
  cases last with
  | text s => cases hlast
  | reading x u => exact ⟨front', x, u, by simp⟩

theorem eq_cons_of_next {back : List Shard} (hne : back ≠ [])
    (h : ∀ shard ∈ back.head?, shard.isText = false) :
    ∃ x u back', back = reading x u :: back' := by
  obtain ⟨first, back', rfl⟩ := List.exists_cons_of_ne_nil hne
  have hfirst := h first rfl
  cases first with
  | text s => cases hfirst
  | reading x u => exact ⟨x, u, back', rfl⟩

/-- Beside what is left of a text stands nothing, or a reading. -/
theorem isText_of_search {s w : Text} {front back : List Shard}
    (h : search mode name x (text s) = front ++ text w :: back) :
    (∀ shard ∈ front.getLast?, shard.isText = false) ∧
      ∀ shard ∈ back.head?, shard.isText = false := by
  have hchain := isChain_merge ((mode.spans name s).map (ofSpan x))
  have hsearch : search mode name x (text s) = merge ((mode.spans name s).map (ofSpan x)) := rfl
  rw [← hsearch, h, List.isChain_append, List.isChain_cons] at hchain
  obtain ⟨-, ⟨hnext, -⟩, hprevious⟩ := hchain
  refine ⟨fun shard hshard => ?_, fun shard hshard => hnext shard hshard rfl⟩
  by_contra htext
  cases hprevious shard hshard (text w) rfl (Bool.not_eq_false _ ▸ htext)

/-- **Looking for a name in a text** leaves sound shards. -/
theorem sound_search {s : Text} (hs : s.IsUtf8) : Sound (search mode name x (text s)) := by
  intro front w back h
  have hne : w ≠ [] := source_ne_nil_search hs (text w)
    (h ▸ List.mem_append_right _ List.mem_cons_self)
  obtain ⟨hprevious, hnext⟩ := isText_of_search h
  have hsources : sources front ++ (w ++ sources back) = s := by
    have := sources_search mode name x (text s)
    rwa [h, sources_append, sources_cons] at this
  -- what is put in next to the text says how far the text goes, and stands alone there
  have hfront : (w ++ sources back).head?.any isContinuation = false ∧
      ((sources front).getLast?.any Ascii.isWord && w.head?.any Ascii.isWord) = false := by
    by_cases hnil : front = []
    · subst hnil
      exact ⟨(hsources ▸ hs).head, rfl⟩
    · obtain ⟨front', y, u, rfl⟩ := eq_concat_of_previous hnil hprevious
      rw [List.append_assoc, List.singleton_append] at h
      obtain ⟨-, hoccurs⟩ := occursIn_of_search hs h
      have halone := (Bool.and_eq_true_iff.1 hoccurs.standsAlone_self).2
      have hlast : (sources (front' ++ [reading y u])).getLast? = u.getLast? := by
        rw [sources_append, List.getLast?_append]
        simp [source, Option.or_of_isSome (List.getLast?_isSome.2 hoccurs.ne_nil)]
      refine ⟨Text.IsUtf8.head hoccurs.divides_behind, ?_⟩
      rw [hlast]
      rw [sources_cons, source, List.head?_append_of_ne_nil _ hne, Bool.not_eq_true'] at halone
      exact halone
  have hback : (sources back).head?.any isContinuation = false ∧
      (w.getLast?.any Ascii.isWord && (sources back).head?.any Ascii.isWord) = false := by
    by_cases hnil : back = []
    · subst hnil
      exact ⟨rfl, by simp⟩
    · obtain ⟨y, u, back', rfl⟩ := eq_cons_of_next hnil hnext
      have h' : search mode name x (text s) = (front ++ [text w]) ++ reading y u :: back' := by
        rw [h, List.append_assoc, List.singleton_append]
      obtain ⟨-, hoccurs⟩ := occursIn_of_search hs h'
      have halone := (Bool.and_eq_true_iff.1 hoccurs.standsAlone_self).1
      have hhead : (sources (reading y u :: back')).head? = u.head? := by
        rw [sources_cons, source, List.head?_append_of_ne_nil _ hoccurs.ne_nil]
      refine ⟨?_, ?_⟩
      · -- the byte behind the text is the first one of what was put in there
        rw [hhead]
        exact Text.IsUtf8.head hoccurs.divides
      · rw [hhead]
        rw [sources_append, List.getLast?_append] at halone
        simp only [sources_cons, source, sources_nil, List.append_nil,
          Option.or_of_isSome (List.getLast?_isSome.2 hne)] at halone
        rwa [Bool.not_eq_true', Bool.and_comm] at halone
  -- cut off on both sides at the bounds of characters
  have hutf8 : w.IsUtf8 := by
    obtain ⟨-, hrest⟩ := Text.IsUtf8.of_append (hsources ▸ hs) hfront.1
    exact (hrest.of_append hback.1).1
  exact ⟨hne, hutf8, hprevious, hnext, hfront.2, hback.2⟩

/-- Where a shard comes from. -/
theorem exists_of_searchAll_eq {front back : List Shard} {shard : Shard}
    (h : searchAll mode name x shards = front ++ shard :: back) :
    ∃ front₀ shard₀ back₀ before behind, shards = front₀ ++ shard₀ :: back₀ ∧
      search mode name x shard₀ = before ++ shard :: behind ∧
      front = searchAll mode name x front₀ ++ before ∧
      back = behind ++ searchAll mode name x back₀ := by
  -- shard by shard, each of which becomes the shards that were found in it
  induction shards generalizing front with
  | nil => exact absurd h.symm (by simp [searchAll])
  | cons first rest ih =>
    have h' : search mode name x first ++ searchAll mode name x rest = front ++ shard :: back := h
    -- the shard is behind what the first one became, or a part of it
    rcases List.append_eq_append_iff.1 h' with ⟨front', rfl, hrest⟩ | ⟨middle, hfirst, hrest⟩
    · obtain ⟨front₀, shard₀, back₀, before, behind, rfl, hsearch, rfl, hback⟩ := ih hrest
      refine ⟨first :: front₀, shard₀, back₀, before, behind, rfl, hsearch, ?_, hback⟩
      exact (List.append_assoc _ _ _).symm
    · cases middle with
      | nil =>
        have hrest' : searchAll mode name x rest = [] ++ shard :: back := hrest.symm
        obtain ⟨front₀, shard₀, back₀, before, behind, rfl, hsearch, hfront, hback⟩ := ih hrest'
        refine ⟨first :: front₀, shard₀, back₀, before, behind, rfl, hsearch, ?_, hback⟩
        have hcons : searchAll mode name x (first :: front₀)
            = search mode name x first ++ searchAll mode name x front₀ := rfl
        rw [hcons, List.append_assoc, ← hfront, hfirst, List.append_nil, List.append_nil]
      | cons shard' middle =>
        obtain ⟨rfl, rfl⟩ := List.cons.inj hrest
        exact ⟨[], first, rest, front, middle, rfl, hfirst, rfl, rfl⟩

/-- **Where a shard of text comes from**: readings are not searched. -/
theorem exists_of_searchAll_eq_text {front back : List Shard} {w : Text}
    (h : searchAll mode name x shards = front ++ text w :: back) :
    ∃ front₀ s back₀ before behind, shards = front₀ ++ text s :: back₀ ∧
      search mode name x (text s) = before ++ text w :: behind ∧
      s = sources before ++ (w ++ sources behind) ∧
      front = searchAll mode name x front₀ ++ before ∧
      back = behind ++ searchAll mode name x back₀ := by
  obtain ⟨front₀, shard₀, back₀, before, behind, hshards, hsearch, hfront, hback⟩ :=
    exists_of_searchAll_eq h
  -- a reading is not searched, so it is not where the text comes from
  cases shard₀ with
  | reading y u => cases (eq_of_singleton_eq hsearch).2.1
  | text s =>
    have hsources := sources_search mode name x (text s)
    rw [hsearch, sources_append, sources_cons, source, source] at hsources
    exact ⟨front₀, s, back₀, before, behind, hshards, hsearch, hsources.symm, hfront, hback⟩

/-- **Looking for a name keeps shards sound.** -/
theorem Sound.searchAll (h : Sound shards) : Sound (Shard.searchAll mode name x shards) := by
  intro front w back hsplit
  obtain ⟨front₀, s, back₀, before, behind, rfl, hsearch, hsources, rfl, rfl⟩ :=
    exists_of_searchAll_eq_text hsplit
  have hs := h front₀ s back₀ rfl
  have hw := sound_search hs.isUtf8 before w behind hsearch
  refine ⟨hw.ne_nil, hw.isUtf8, ?_, ?_, ?_, ?_⟩
  · -- at the front of the text, what was in front of it is still there
    by_cases hnil : before = []
    · subst hnil
      rw [List.append_nil]
      by_cases hfront : front₀ = []
      · subst hfront
        simp [Shard.searchAll]
      · obtain ⟨front', y, u, rfl⟩ := eq_concat_of_previous hfront hs.previous
        simp [Shard.searchAll, search, isText]
    · obtain ⟨before', y, u, rfl⟩ := eq_concat_of_previous hnil hw.previous
      simp [isText]
  · -- at the end of the text, the same the other way round
    by_cases hnil : behind = []
    · subst hnil
      rw [List.nil_append]
      by_cases hback : back₀ = []
      · subst hback
        simp [Shard.searchAll]
      · obtain ⟨y, u, back', rfl⟩ := eq_cons_of_next hback hs.next
        simp [Shard.searchAll, search, isText]
    · obtain ⟨y, u, behind', rfl⟩ := eq_cons_of_next hnil hw.next
      simp [isText]
  · -- the byte in front is that of the text searched, or of what was put in within it
    rw [sources_append, sources_searchAll]
    by_cases hnil : sources before = []
    · have hhead : w.head? = s.head? := by
        rw [hsources, hnil, List.nil_append, List.head?_append_of_ne_nil _ hw.ne_nil]
      rw [hnil, List.append_nil, hhead]
      exact hs.before
    · rw [List.getLast?_append_of_ne_nil _ hnil]
      exact hw.before
  · rw [sources_append, sources_searchAll]
    by_cases hnil : sources behind = []
    · have hlast : w.getLast? = s.getLast? := by
        rw [hsources, hnil, List.append_nil, List.getLast?_append_of_ne_nil _ hw.ne_nil]
      rw [hnil, List.nil_append, hlast]
      exact hs.behind
    · rw [List.head?_append_of_ne_nil _ hnil]
      exact hw.behind

theorem Sound.turn (h : Sound shards) (entry : Text × Float) : Sound (Shard.turn shards entry) := by
  rw [Shard.turn]
  split
  · exact h
  · exact h.searchAll.searchAll

theorem Sound.foldl_turn (h : Sound shards) (entries : List (Text × Float)) :
    Sound (entries.foldl Shard.turn shards) := by
  induction entries generalizing shards with
  | nil => exact h
  | cons entry entries ih => exact ih (h.turn entry)

/-- No shard is empty after a search if none was. -/
theorem Sound.source_ne_nil_searchAll (h : Sound shards)
    (hne : ∀ shard ∈ shards, shard.source ≠ []) :
    ∀ shard ∈ Shard.searchAll mode name x shards, shard.source ≠ [] := by
  intro shard hshard
  -- the shard it comes from: a reading is left as it is, a text gives none that is empty
  obtain ⟨shard₀, hmem, hsearch⟩ := List.mem_flatMap.1 hshard
  cases shard₀ with
  | reading y u =>
    obtain rfl := List.mem_singleton.1 hsearch
    exact hne _ hmem
  | text s =>
    obtain ⟨front, back, hshards⟩ := List.append_of_mem hmem
    exact source_ne_nil_search (h front s back hshards).isUtf8 shard hsearch

theorem Sound.source_ne_nil_turn (h : Sound shards) (hne : ∀ shard ∈ shards, shard.source ≠ [])
    (entry : Text × Float) : ∀ shard ∈ Shard.turn shards entry, shard.source ≠ [] := by
  rw [Shard.turn]
  split
  · exact hne
  · exact h.searchAll.source_ne_nil_searchAll (h.source_ne_nil_searchAll hne)

/-! ### What a turn cuts out, and what it leaves -/

/-- **A part of the text, behind `a`, lies in a shard of text.** -/
def InText (shards : List Shard) (a u : Text) : Prop :=
  ∃ front s back f t, shards = front ++ text s :: back ∧ s = f ++ (u ++ t) ∧ a = sources front ++ f

variable {a u t : Text}

/-- What is in a shard of text was in one before. -/
theorem InText.of_searchAll (h : InText (Shard.searchAll mode name x shards) a u) :
    InText shards a u := by
  obtain ⟨front, w, back, f, t, hsplit, rfl, rfl⟩ := h
  obtain ⟨front₀, s, back₀, before, behind, rfl, -, hsources, rfl, -⟩ :=
    exists_of_searchAll_eq_text hsplit
  refine ⟨front₀, s, back₀, sources before ++ f, t ++ sources behind, rfl, ?_, ?_⟩
  · rw [hsources]
    simp only [List.append_assoc]
  · rw [sources_append, sources_searchAll, List.append_assoc]

theorem InText.of_turn {entry : Text × Float} (h : InText (Shard.turn shards entry) a u) :
    InText shards a u := by
  rw [Shard.turn] at h
  split at h
  · exact h
  · exact h.of_searchAll.of_searchAll

theorem InText.of_foldl_turn {entries : List (Text × Float)}
    (h : InText (entries.foldl Shard.turn shards) a u) : InText shards a u := by
  induction entries generalizing shards with
  | nil => exact h
  | cons entry entries ih => exact (ih h).of_turn

/-- **What stands alone in a shard stands alone in the whole text.** -/
theorem Sound.occursIn (h : Sound shards) (hutf8 : (sources shards).IsUtf8)
    (hname : name.IsUtf8) {front back : List Shard} {s f : Text}
    (hsplit : shards = front ++ text s :: back) (hs : s = f ++ (u ++ t))
    (hu : Matching.folded.OccursIn name f.getLast? u t) :
    Matching.folded.OccursIn name (sources front ++ f).getLast? u (t ++ sources back) := by
  -- what stands alone in a text does so in the whole, as the texts stand alone there
  have hbetween := h front s back hsplit
  obtain ⟨hfront, hback⟩ := Bool.and_eq_true_iff.1 hu.standsAlone_self
  have hrest : (t ++ sources back).IsUtf8 := by
    have hwhole : sources shards = (sources front ++ f) ++ (u ++ (t ++ sources back)) := by
      rw [hsplit, sources_append, sources_cons, source, hs]
      simp only [List.append_assoc]
    exact (Text.IsUtf8.around (hwhole ▸ hutf8) hu.divides hu.ne_nil).2
  refine Matching.occursIn_of_standsAlone hname hu.ne_nil hu.divides hrest hu.key_eq ?_
  rw [standsAlone, Bool.and_eq_true]
  constructor
  · rw [List.getLast?_append]
    by_cases hnil : f = []
    · -- the part begins with the shard
      have hhead : s.head? = u.head? := by
        rw [hs, hnil, List.nil_append, List.head?_append_of_ne_nil _ hu.ne_nil]
      have hbefore := hbetween.before
      rw [hhead] at hbefore
      rw [hnil, List.getLast?_nil, Option.none_or, Bool.and_comm, hbefore]
      rfl
    · rw [Option.or_of_isSome (List.getLast?_isSome.2 hnil)]
      exact hfront
  · -- the same at the end of the shard
    rw [List.head?_append]
    by_cases hnil : t = []
    · have hlast : s.getLast? = u.getLast? := by
        rw [hs, hnil, List.append_nil, List.getLast?_append_of_ne_nil _ hu.ne_nil]
      have hbehind := hbetween.behind
      rw [hlast] at hbehind
      rw [hnil, List.head?_nil, Option.none_or, hbehind]
      rfl
    · rw [Option.or_of_isSome (List.isSome_head?.2 hnil)]
      exact hback

/-- A reading was there before, or was put in for an occurrence in the whole text. -/
theorem Sound.exists_of_searchAll (h : Sound shards) (hutf8 : (sources shards).IsUtf8)
    (hname : name.IsUtf8) {front back : List Shard} {y : Float}
    (hsplit : Shard.searchAll mode name x shards = front ++ reading y u :: back) :
    (∃ front₀ back₀, shards = front₀ ++ reading y u :: back₀ ∧
        sources front₀ = sources front ∧ sources back₀ = sources back) ∨
      y = x ∧ InText shards (sources front) u ∧
        Matching.folded.OccursIn name (sources front).getLast? u (sources back) := by
  obtain ⟨front₀, shard₀, back₀, before, behind, hshards, hsearch, rfl, rfl⟩ :=
    exists_of_searchAll_eq hsplit
  rw [sources_append, sources_append, sources_searchAll, sources_searchAll]
  -- a reading was there before, and one that comes from a text was put in now
  cases shard₀ with
  | reading z v =>
    left
    obtain ⟨rfl, heq, rfl⟩ := eq_of_singleton_eq hsearch
    exact ⟨front₀, back₀, heq ▸ hshards, (List.append_nil _).symm, rfl⟩
  | text s =>
    right
    have hs := (h front₀ s back₀ hshards).isUtf8
    obtain ⟨hy, hoccurs⟩ := occursIn_of_search hs hsearch
    have hsources := sources_search mode name x (text s)
    rw [hsearch, sources_append, sources_cons, source, source] at hsources
    exact ⟨hy, ⟨front₀, s, back₀, sources before, sources behind, hshards, hsources.symm, rfl⟩,
      h.occursIn hutf8 hname hshards hsources.symm hoccurs⟩

/-- **What a turn cuts out** is an occurrence in the whole text, in what was left of it. -/
theorem Sound.exists_of_turn (h : Sound shards) (hutf8 : (sources shards).IsUtf8)
    {entry : Text × Float} (hname : entry.1.IsUtf8) {front back : List Shard} {y : Float}
    (hsplit : Shard.turn shards entry = front ++ reading y u :: back) :
    (∃ front₀ back₀, shards = front₀ ++ reading y u :: back₀ ∧
        sources front₀ = sources front ∧ sources back₀ = sources back) ∨
      y = entry.2 ∧ InText shards (sources front) u ∧
        Matching.folded.OccursIn entry.1 (sources front).getLast? u (sources back) := by
  -- no turn is taken by an empty name
  rw [Shard.turn] at hsplit
  split at hsplit
  · exact Or.inl ⟨front, back, hsplit, rfl, rfl⟩
  · -- the second search goes over what the first has left
    have hexact : (sources (Shard.searchAll .exact entry.1 entry.2 shards)).IsUtf8 := by
      rwa [sources_searchAll]
    rcases h.searchAll.exists_of_searchAll hexact hname hsplit with
      ⟨front₁, back₁, hsplit₁, hfront, hback⟩ | ⟨hy, hin, hoccurs⟩
    · rw [← hfront, ← hback]
      exact h.exists_of_searchAll hutf8 hname hsplit₁
    · exact Or.inr ⟨hy, hin.of_searchAll, hoccurs⟩

/-- Two shards at one place are the same. -/
theorem eq_of_overlap {front back front' back' : List Shard} {shard shard' : Shard} {n : Nat}
    (h : front ++ shard :: back = front' ++ shard' :: back')
    (hle : (sources front).length ≤ n)
    (hlt : n < (sources front).length + shard.source.length)
    (hle' : (sources front').length ≤ n)
    (hlt' : n < (sources front').length + shard'.source.length) : shard = shard' := by
  -- one front would be the longer one, and go beyond the byte they share
  rcases List.append_eq_append_iff.1 h with ⟨middle, rfl, hmiddle⟩ | ⟨middle, rfl, hmiddle⟩
  · cases middle with
    | nil => exact (List.cons.inj hmiddle).1
    | cons first middle =>
      obtain ⟨rfl, -⟩ := List.cons.inj hmiddle
      rw [sources_append, sources_cons, List.length_append, List.length_append] at hle'
      omega
  · cases middle with
    | nil => exact (List.cons.inj hmiddle).1.symm
    | cons first middle =>
      obtain ⟨rfl, -⟩ := List.cons.inj hmiddle
      rw [sources_append, sources_cons, List.length_append, List.length_append] at hle
      omega

/-- **A turn leaves no occurrence** of its name in a shard of text. -/
theorem Sound.not_inText_turn (h : Sound shards) {entry : Text × Float} (hne : entry.1 ≠ [])
    (hsources : sources shards = a ++ (u ++ t))
    (hu : Matching.folded.OccursIn entry.1 a.getLast? u t) :
    ¬ InText (Shard.turn shards entry) a u := by
  rw [Shard.turn, if_neg (by simpa using hne)]
  rintro ⟨front, w, back, f, r, hsplit, rfl, ha⟩
  obtain ⟨front₀, s, back₀, before, behind, hshards, hsearch, hs, rfl, rfl⟩ :=
    exists_of_searchAll_eq_text hsplit
  -- where the part lies in the text that was searched, and what is behind it in the whole text
  have hpart : s = (sources before ++ f) ++ (u ++ (r ++ sources behind)) := by
    rw [hs]
    simp only [List.append_assoc]
  rw [sources_append, sources_searchAll, List.append_assoc] at ha
  have ht : t = (r ++ sources behind) ++ sources back₀ := by
    have hwhole : sources shards = sources front₀ ++ (s ++ sources back₀) := by
      rw [← sources_searchAll .exact entry.1 entry.2 shards, hshards, sources_append,
        sources_cons, source]
    rw [hsources, hpart, ha] at hwhole
    simp only [List.append_assoc] at hwhole
    simpa using hwhole
  have hutf8 := (h.searchAll front₀ s back₀ hshards).isUtf8
  rw [ha, ht] at hu
  have hlocal : Matching.folded.OccursIn entry.1 (sources before ++ f).getLast? u
      (r ++ sources behind) := hu.of_append (hpart ▸ hutf8)
  obtain ⟨front', v, back', hsearch', hle, hlt⟩ :=
    exists_reading_of_occursIn hutf8 hpart hlocal entry.2
  -- a reading and a text would be one shard
  have hpos := List.length_pos_iff.2 hu.ne_nil
  have heq := eq_of_overlap (hsearch'.symm.trans hsearch) hle hlt
    (by rw [List.length_append]; omega)
    (by simp only [source, List.length_append]; omega)
  cases heq

/-! ### Several turns -/

/-- **A reading that several turns have put in** is there for an occurrence of the name that had
its turn. -/
theorem Sound.exists_of_foldl_turn (h : Sound shards) (hutf8 : (sources shards).IsUtf8)
    {entries : List (Text × Float)} (hnames : ∀ e ∈ entries, e.1.IsUtf8)
    {front back : List Shard} {y : Float}
    (hsplit : entries.foldl Shard.turn shards = front ++ reading y u :: back) :
    (∃ front₀ back₀, shards = front₀ ++ reading y u :: back₀ ∧
        sources front₀ = sources front ∧ sources back₀ = sources back) ∨
      ∃ e ∈ entries, y = e.2 ∧
        Matching.folded.OccursIn e.1 (sources front).getLast? u (sources back) := by
  -- turn by turn, a reading being there before this turn or put in by it
  induction entries generalizing shards with
  | nil => exact Or.inl ⟨front, back, hsplit, rfl, rfl⟩
  | cons e entries ih =>
    obtain ⟨he, hentries⟩ := List.forall_mem_cons.1 hnames
    rcases ih (h.turn e) (by rwa [sources_turn]) hentries hsplit with
      ⟨front₁, back₁, hturn, hfront, hback⟩ | ⟨f, hf, hoccurs⟩
    · rw [← hfront, ← hback]
      refine (h.exists_of_turn hutf8 he hturn).imp_right ?_
      rintro ⟨hy, -, hoccurs⟩
      exact ⟨e, List.mem_cons_self, hy, hoccurs⟩
    · exact Or.inr ⟨f, List.mem_cons_of_mem _ hf, hoccurs⟩

/-- **A name that had its turn** is not left in a shard of text. -/
theorem Sound.not_inText_foldl_turn (h : Sound shards) {entries : List (Text × Float)}
    {entry : Text × Float} (hentry : entry ∈ entries) (hne : entry.1 ≠ [])
    (hsources : sources shards = a ++ (u ++ t))
    (hu : Matching.folded.OccursIn entry.1 a.getLast? u t) :
    ¬ InText (entries.foldl Shard.turn shards) a u := by
  -- gone after its own turn, and the turns before leave the list sound
  induction entries generalizing shards with
  | nil => cases hentry
  | cons e entries ih =>
    rw [List.foldl_cons]
    intro hin
    rcases List.mem_cons.1 hentry with rfl | hentry
    · exact h.not_inText_turn hne hsources hu hin.of_foldl_turn
    · exact ih (h.turn e) hentry (by rwa [sources_turn]) hin

/-! ### What has no turn -/

theorem Sound.cases (h : Sound shards) : shards = [] ∨ (∃ s, shards = [text s]) ∨
    ∃ front y v back, shards = front ++ reading y v :: back := by
  -- a text that is not alone has a reading behind it
  cases shards with
  | nil => exact Or.inl rfl
  | cons first rest =>
    right
    cases first with
    | reading y v => exact Or.inr ⟨[], y, v, rest, rfl⟩
    | text s =>
      by_cases hnil : rest = []
      · exact Or.inl ⟨s, by rw [hnil]⟩
      · obtain ⟨y, v, rest', rfl⟩ := eq_cons_of_next hnil (h [] s rest rfl).next
        exact Or.inr ⟨[text s], y, v, rest', rfl⟩

/-- Looking for a name in a text leaves the text, or an occurrence is met. -/
theorem search_cases (mode : Matching) (name : Text) (x : Float) {s : Text} (hne : s ≠ [])
    (hs : s.IsUtf8) : search mode name x (text s) = [text s] ∨
      ∃ front v back, search mode name x (text s) = front ++ reading x v :: back ∧
        Matching.folded.OccursIn name (sources front).getLast? v (sources back) := by
  -- the list is sound after the search, so it is one text or has a reading
  have hsources := sources_search mode name x (text s)
  rcases (sound_search hs).cases with hnil | ⟨w, hw⟩ | ⟨front, y, v, back, hsplit⟩
  · rw [hnil] at hsources
    exact absurd hsources.symm hne
  · rw [hw, sources_singleton] at hsources
    rw [hw]
    exact Or.inl (congrArg (fun w => [text w]) hsources)
  · obtain ⟨rfl, hoccurs⟩ := occursIn_of_search hs hsplit
    exact Or.inr ⟨front, v, back, hsplit, hoccurs⟩

/-- **A turn of one text** leaves it, or an occurrence is met. -/
theorem turn_text_cases {s : Text} (hne : s ≠ []) (hs : s.IsUtf8) (entry : Text × Float) :
    turn [text s] entry = [text s] ∨
      ∃ front v back, turn [text s] entry = front ++ reading entry.2 v :: back ∧
        Matching.folded.OccursIn entry.1 (sources front).getLast? v (sources back) := by
  have hsingle : ∀ mode name x, searchAll mode name x [text s] = search mode name x (text s) :=
    fun mode name x => List.append_nil _
  rw [turn]
  split
  · exact Or.inl rfl
  · rw [hsingle]
    rcases search_cases .exact entry.1 entry.2 hne hs with
      hexact | ⟨front, v, back, hexact, hoccurs⟩
    · rw [hexact, hsingle]
      exact search_cases .folded entry.1 entry.2 hne hs
    · -- what the first search has put in is there after the second
      right
      refine ⟨searchAll .folded entry.1 entry.2 front, v,
        searchAll .folded entry.1 entry.2 back, ?_, ?_⟩
      · rw [hexact, searchAll, List.flatMap_append, List.flatMap_cons]
        rfl
      · rwa [sources_searchAll, sources_searchAll]

theorem turn_append (shards others : List Shard) (entry : Text × Float) :
    turn (shards ++ others) entry = turn shards entry ++ turn others entry := by
  rw [turn, turn, turn]
  split
  · rfl
  · rw [searchAll, searchAll, searchAll, searchAll, searchAll, searchAll, List.flatMap_append,
      List.flatMap_append]

/-- **A turn leaves the shards** as they are, or an occurrence is met in one of them. -/
theorem Sound.turn_cases (h : Sound shards) (hutf8 : (sources shards).IsUtf8)
    {entry : Text × Float} (hname : entry.1.IsUtf8) :
    Shard.turn shards entry = shards ∨ ∃ a u t, sources shards = a ++ (u ++ t) ∧
      InText shards a u ∧ Matching.folded.OccursIn entry.1 a.getLast? u t := by
  by_cases hall : ∀ s, text s ∈ shards → Shard.turn [text s] entry = [text s]
  · left
    clear h hutf8
    -- every shard has its turn by itself
    induction shards with
    | nil =>
      rw [Shard.turn]
      split <;> rfl
    | cons shard rest ih =>
      have hshard : Shard.turn [shard] entry = [shard] := by
        cases shard with
        | text s => exact hall s List.mem_cons_self
        | reading y v =>
          rw [Shard.turn]
          split <;> rfl
      rw [← List.singleton_append, turn_append, hshard,
        ih fun s hs => hall s (List.mem_cons_of_mem _ hs)]
  · right
    obtain ⟨s, hs, hturn⟩ : ∃ s, text s ∈ shards ∧ Shard.turn [text s] entry ≠ [text s] := by
      simpa only [not_forall, exists_prop] using hall
    obtain ⟨front, back, hshards⟩ := List.append_of_mem hs
    have hbetween := h front s back hshards
    -- what is met in the one text stands alone in the whole
    obtain ⟨before, v, behind, hsplit, hoccurs⟩ :=
      (turn_text_cases hbetween.ne_nil hbetween.isUtf8 entry).resolve_left hturn
    have hsources := sources_turn [text s] entry
    rw [hsplit, sources_append, sources_cons, sources_singleton, source, source] at hsources
    refine ⟨sources front ++ sources before, v, sources behind ++ sources back, ?_,
      ⟨front, s, back, sources before, sources behind, hshards, hsources.symm, rfl⟩,
      h.occursIn hutf8 hname hshards hsources.symm hoccurs⟩
    rw [hshards, sources_append, sources_cons, source, ← hsources]
    simp only [List.append_assoc]

end Shard

end AssayRules
