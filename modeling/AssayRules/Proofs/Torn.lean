import AssayRules.Proofs.Evaluation
import AssayRules.Proofs.Shards

/-!
# Torn texts

A reading that was put in for a part of a word, or of several with blanks between them, leaves
the rest of it standing beside the reading. Then the shards are **torn** (`Torn`), and they stay
so whatever is looked for in what is left (`Torn.foldl_turn`).

Nothing good comes of it. The rest of the word would have to be read as a number, directly or
after more of it has been replaced, and two numbers side by side are no expression
(`Torn.not_apart`). So a text of which any part is torn does not evaluate
(`not_evaluates_of_torn`).

A bare name that stands between no words is a **reference** (`IsReference`). Of a reference a
search takes all or nothing, as long as the shards are not torn (`Shard.Sound.inText_or_torn`).
-/

namespace AssayRules

/-! ### Words that go on -/

/-- **Whether a word goes on** in front: some word byte comes before any byte that could not
stand in a name. -/
def runsOn (t : Text) : Bool := (t.takeWhile Name.continuesName).any Ascii.isWord

variable {s t m : Text}

theorem runsOn_cons (c : UInt8) (t : Text) :
    runsOn (c :: t) = (Name.continuesName c && (Ascii.isWord c || runsOn t)) := by
  rw [runsOn, List.takeWhile_cons]
  by_cases hc : Name.continuesName c = true
  · rw [if_pos hc, List.any_cons, hc, Bool.true_and, runsOn]
  · rw [if_neg hc, Bool.eq_false_of_not_eq_true hc]
    rfl

/-- Blanks do not make a word go on. -/
theorem runsOn_of_isSpace_append (hs : ∀ c ∈ s, Ascii.isSpace c = true)
    (h : runsOn (s ++ t) = true) : runsOn t = true := by
  induction s with
  | nil => exact h
  | cons c s ih =>
    obtain ⟨hc, hs⟩ := List.forall_mem_cons.1 hs
    rw [List.cons_append, runsOn_cons, Name.isWord_of_isSpace hc, Bool.false_or,
      Bool.and_eq_true] at h
    exact ih hs h.2

theorem runsOn_append (h : runsOn s = true) (t : Text) : runsOn (s ++ t) = true := by
  induction s with
  | nil => cases h
  | cons c s ih =>
    rw [runsOn_cons, Bool.and_eq_true, Bool.or_eq_true] at h
    rw [List.cons_append, runsOn_cons, h.1, Bool.true_and, Bool.or_eq_true]
    exact h.2.imp_right ih

theorem runsOn_of_continuesName (hall : ∀ c ∈ m, Name.continuesName c = true)
    (hword : m.any Ascii.isWord = true) (t : Text) : runsOn (m ++ t) = true := by
  refine runsOn_append ?_ t
  rwa [runsOn, List.takeWhile_eq_self_iff.2 hall]

/-- Behind what goes before the end of a bare name, a word goes on. -/
theorem Name.IsBare.runsOn_append {z : Text} (h : IsBare (z ++ m)) (hne : m ≠ []) (t : Text) :
    runsOn (m ++ t) = true := by
  refine runsOn_of_continuesName (fun c hc => (isBare_iff.1 h).2.1 c
    (List.mem_append_right _ hc)) ?_ t
  have hlast := h.isWord_getLast
  rw [List.getLast?_append_of_ne_nil _ hne, List.getLast?_eq_some_getLast hne] at hlast
  exact List.any_eq_true.2 ⟨_, List.getLast_mem hne, hlast⟩

/-- In front of what comes after the start of a bare name, a word goes on. -/
theorem Name.IsBare.runsOn_reverse {z : Text} (h : IsBare (m ++ z)) (hne : m ≠ []) (t : Text) :
    runsOn (t ++ m).reverse = true := by
  rw [List.reverse_append]
  refine runsOn_of_continuesName (fun c hc => (isBare_iff.1 h).2.1 c
    (List.mem_append_left _ (List.mem_reverse.1 hc))) ?_ _
  have hhead := h.isWord_head
  rw [List.head?_append_of_ne_nil _ hne, List.head?_eq_some_head hne] at hhead
  exact List.any_eq_true.2 ⟨_, List.mem_reverse.2 (List.head_mem hne), hhead⟩

theorem isWord_head_of_runsOn (h : runsOn s = false) : s.head?.any Ascii.isWord = false := by
  cases s with
  | nil => rfl
  | cons c s =>
    rw [runsOn_cons] at h
    by_contra hc
    have hc : Ascii.isWord c = true := Bool.not_eq_false _ ▸ hc
    rw [Name.continuesName_of_isWord hc, hc] at h
    cases h

/-- **A reference** by a bare name, and what stands before and behind it. -/
structure IsReference (front y back : Text) : Prop where
  isBare : Name.IsBare y
  before : runsOn front.reverse = false
  behind : runsOn back = false

namespace IsReference

variable {front y back : Text}

/-- A reference stands alone, for every name that it may be compared with. -/
theorem standsAlone (h : IsReference front y back) (name : Text) :
    AssayRules.standsAlone name front.getLast? back.head? = true := by
  have hbefore := isWord_head_of_runsOn h.before
  rw [List.head?_reverse] at hbefore
  rw [AssayRules.standsAlone, hbefore, isWord_head_of_runsOn h.behind, Bool.and_false,
    Bool.and_false]
  rfl

/-- **A reference occurs** as every name that agrees with it up to letter case. -/
theorem occursIn (h : IsReference front y back) (hy : y.IsUtf8) (hback : back.IsUtf8)
    {name : Text} (hfold : name.foldCase = y.foldCase) :
    Matching.folded.OccursIn name front.getLast? y back :=
  ⟨h.isBare.ne_nil, hy, hback, hfold.symm, h.standsAlone name⟩

end IsReference

/-! ### Torn shards -/

open Shard

/-- **Shards are torn** if a word goes on beside a reading. -/
def Torn (shards : List Shard) : Prop :=
  ∃ front x u back, shards = front ++ .reading x u :: back ∧
    (runsOn (sources front).reverse = true ∨ runsOn (sources back) = true)

section

variable {shards : List Shard}

namespace Torn

theorem searchAll (h : Torn shards) (mode : Matching) (name : Text) (x : Float) :
    Torn (Shard.searchAll mode name x shards) := by
  obtain ⟨front, y, u, back, rfl, hrun⟩ := h
  refine ⟨Shard.searchAll mode name x front, y, u, Shard.searchAll mode name x back, ?_, ?_⟩
  · rw [Shard.searchAll, List.flatMap_append, List.flatMap_cons]
    rfl
  · rwa [sources_searchAll, sources_searchAll]

theorem turn (h : Torn shards) (entry : Text × Float) : Torn (Shard.turn shards entry) := by
  rw [Shard.turn]
  split
  · exact h
  · exact (h.searchAll _ _ _).searchAll _ _ _

/-- **What is torn stays torn.** -/
theorem foldl_turn (h : Torn shards) (entries : List (Text × Float)) :
    Torn (entries.foldl Shard.turn shards) := by
  induction entries generalizing shards with
  | nil => exact h
  | cons entry entries ih => exact ih (h.turn entry)

/-- A reading for a proper part of a bare name tears it. -/
theorem of_proper_part {front back : List Shard} {x : Float} {a m u m' b : Text}
    (hsplit : shards = front ++ .reading x u :: back) (hfront : sources front = a ++ m)
    (hback : sources back = m' ++ b) (hbare : Name.IsBare (m ++ (u ++ m')))
    (hpart : m ≠ [] ∨ m' ≠ []) : Torn shards := by
  refine ⟨front, x, u, back, hsplit, ?_⟩
  rw [hfront, hback]
  rcases hpart with hne | hne
  · exact Or.inl (hbare.runsOn_reverse hne a)
  · rw [← List.append_assoc] at hbare
    exact Or.inr (hbare.runsOn_append hne b)

end Torn

/-- Of two ways to cut a text in two, one cuts no earlier, or later by something. -/
theorem exists_of_append_eq {a b c d : Text} (h : a ++ b = c ++ d) :
    (∃ k, a = c ++ k ∧ d = k ++ b) ∨ ∃ k, k ≠ [] ∧ c = a ++ k ∧ b = k ++ d := by
  rcases List.append_eq_append_iff.1 h with ⟨k, hc, hb⟩ | hcase
  · by_cases hnil : k = []
    · subst hnil
      exact Or.inl ⟨[], by rw [hc, List.append_nil, List.append_nil], hb.symm⟩
    · exact Or.inr ⟨k, hnil, hc, hb⟩
  · exact Or.inl hcase

/-- **A bare name of which a part is in a shard of text is in it as a whole**, or the shards are
torn. -/
theorem Shard.Sound.inText_or_torn (h : Sound shards) {a m u m' b : Text}
    (hin : InText shards (a ++ m) u) (hne : u ≠ [])
    (hsources : sources shards = a ++ ((m ++ (u ++ m')) ++ b))
    (hbare : Name.IsBare (m ++ (u ++ m'))) :
    InText shards a (m ++ (u ++ m')) ∨ Torn shards := by
  obtain ⟨front, s, back, f, t, hshards, hs, ham⟩ := hin
  have hbetween := h _ _ _ hshards
  have hbehind : t ++ sources back = m' ++ b := by
    rw [hshards, hs, sources_append, sources_cons, source] at hsources
    have hwhole : (sources front ++ f) ++ (u ++ (t ++ sources back))
        = (a ++ m) ++ (u ++ (m' ++ b)) := by
      simpa only [List.append_assoc] using hsources
    rw [← ham] at hwhole
    exact List.append_cancel_left (List.append_cancel_left hwhole)
  -- where the name begins before the shard, or ends behind it, there is a reading at that end
  rcases exists_of_append_eq ham with ⟨k, rfl, rfl⟩ | ⟨k, hk, hfront, rfl⟩
  · rcases exists_of_append_eq hbehind with ⟨k', rfl, -⟩ | ⟨k', hk', rfl, hback⟩
    · refine Or.inl ⟨front, s, back, k, k', hshards, ?_, rfl⟩
      rw [hs]
      simp only [List.append_assoc]
    · right
      -- the name goes on behind the shard
      have hnil : back ≠ [] := by
        rintro rfl
        exact hk' (List.append_eq_nil_iff.1 hback.symm).1
      obtain ⟨x, v, back', rfl⟩ := eq_cons_of_next hnil hbetween.next
      refine ⟨front ++ [.text s], x, v, back', ?_, Or.inl ?_⟩
      · rw [hshards, List.append_assoc, List.singleton_append]
      · have hcut : sources (front ++ [.text s]) = (sources front ++ k) ++ (m ++ (u ++ t)) := by
          rw [sources_append, sources_singleton, source, hs]
          simp only [List.append_assoc]
        rw [hcut]
        refine Name.IsBare.runsOn_reverse (z := k') ?_ ?_ _
        · simpa only [List.append_assoc] using hbare
        · exact fun hnil => hne (List.append_eq_nil_iff.1 (List.append_eq_nil_iff.1 hnil).2).1
  · right
    -- the name begins in front of the shard
    have hnil : front ≠ [] := by
      rintro rfl
      exact hk (List.append_eq_nil_iff.1 hfront.symm).2
    obtain ⟨front', x, v, rfl⟩ := eq_concat_of_previous hnil hbetween.previous
    refine ⟨front', x, v, .text s :: back, ?_, Or.inr ?_⟩
    · rw [hshards, List.append_assoc, List.singleton_append]
    · have hcut : sources (.text s :: back) = (f ++ (u ++ m')) ++ b := by
        rw [sources_cons, source, hs]
        simp only [List.append_assoc, hbehind]
      rw [hcut]
      refine Name.IsBare.runsOn_append (z := k) ?_ ?_ _
      · simpa only [List.append_assoc] using hbare
      · exact fun hnil => hne (List.append_eq_nil_iff.1 (List.append_eq_nil_iff.1 hnil).2).1

/-! ### Torn shards have no value -/

/-- What is read of text in which a word goes on begins with a number, unless the word begins
behind it. -/
theorem number_front_of_lex {ts : List Token} (hlex : lex s = ⟨ts, none⟩)
    (hrun : runsOn (s ++ t) = true) :
    (∃ x rest, ts = .number x :: rest) ∨ ts = [] ∧ runsOn t = true := by
  have hblanks : ∀ c ∈ s.takeWhile Ascii.isSpace, Ascii.isSpace c = true :=
    fun c hc => List.mem_takeWhile_imp hc
  -- blanks in front do not matter
  rw [← List.takeWhile_append_dropWhile (p := Ascii.isSpace) (l := s), List.append_assoc] at hrun
  have hrun := runsOn_of_isSpace_append hblanks hrun
  cases hdrop : s.dropWhile Ascii.isSpace with
  | nil =>
    rw [lex_of_dropWhile_eq_nil hdrop] at hlex
    rw [hdrop, List.nil_append] at hrun
    cases hlex
    exact Or.inr ⟨rfl, hrun⟩
  | cons c rest =>
    left
    -- the first byte that is no blank is part of a word, and only numbers are read from these
    have hspace : Ascii.isSpace c = false := by
      have := List.head?_dropWhile_not Ascii.isSpace s
      rwa [hdrop] at this
    rw [hdrop, List.cons_append, runsOn_cons, Bool.and_eq_true] at hrun
    have hword : Ascii.isWord c = true := by
      by_contra hc
      rw [Name.isSpace_of_continuesName hrun.1 (Bool.eq_false_of_not_eq_true hc)] at hspace
      cases hspace
    rw [lex_of_dropWhile_eq_cons hdrop] at hlex
    cases htoken : Token.ofByte? c with
    | some token =>
      rw [isWord_of_endsWord (endsWord_of_ofByte? htoken)] at hword
      cases hword
    | none =>
      rw [htoken] at hlex
      dsimp only at hlex
      split_ifs at hlex with hdigit
      · cases hread : Literal.read (c :: rest) with
        | error cause =>
          rw [hread] at hlex
          cases hlex
        | ok read =>
          rw [hread] at hlex
          obtain ⟨others, rfl, -⟩ := Reading.cons_eq_iff.1 hlex
          exact ⟨_, _, rfl⟩
      · cases hlex

/-- Lexemes behind which a word has gone on end with a number, unless it ended before them. -/
theorem Lexeme.number_back {ls : List Lexeme} (hnames : ∀ l ∈ ls, l.name? = none)
    (value : Text → Float) (hrun : runsOn (t ++ texts ls).reverse = true) :
    (∃ front x, tokens value ls = front ++ [.number x]) ∨
      tokens value ls = [] ∧ runsOn t.reverse = true := by
  -- from behind, past the blanks, to the first lexeme that is none
  induction ls using List.reverseRecOn with
  | nil =>
    rw [texts_nil, List.append_nil] at hrun
    exact Or.inr ⟨rfl, hrun⟩
  | append_singleton ls l ih =>
    have htokens : tokens value (ls ++ [l]) = tokens value ls ++ tokens value [l] :=
      tokens_append value ls [l]
    have hl := hnames l (List.mem_append_right _ (List.mem_singleton_self l))
    rw [htokens]
    have hone : ∀ c, l.text = [c] → Name.continuesName c = true ∧
        (Ascii.isWord c = true ∨ runsOn (t ++ texts ls).reverse = true) := by
      intro c hc
      rw [texts_append, texts_cons, texts_nil, hc, List.append_nil, ← List.append_assoc,
        List.reverse_append, List.reverse_singleton, List.singleton_append, runsOn_cons,
        Bool.and_eq_true, Bool.or_eq_true] at hrun
      exact hrun
    cases l with
    | blank c hc =>
      obtain ⟨-, hword | hrun⟩ := hone c rfl
      · rw [Name.isWord_of_isSpace hc] at hword
        cases hword
      · have hnone : tokens value [.blank c hc] = [] := rfl
        rw [hnone, List.append_nil]
        exact ih (fun l hl => hnames l (List.mem_append_left _ hl)) hrun
    | symbol c token hc =>
      -- no symbol stands in a name
      obtain ⟨hcontinues, -⟩ := hone c rfl
      rw [(Token.continuesName_symbols _ hc).1] at hcontinues
      cases hcontinues
    | numeral n => exact Or.inl ⟨tokens value ls, _, rfl⟩
    | bare => cases hl
    | bracketed => cases hl

theorem pieceTokens_append_eq_ok {pieces others : List Piece} {ts : List Token} :
    pieceTokens (pieces ++ others) = .ok ts ↔ ∃ front back, pieceTokens pieces = .ok front ∧
      pieceTokens others = .ok back ∧ ts = front ++ back := by
  -- the tokens of the first pieces come first
  induction pieces generalizing ts with
  | nil =>
    constructor
    · exact fun h => ⟨[], ts, rfl, h, rfl⟩
    · rintro ⟨front, back, hfront, hback, rfl⟩
      cases hfront
      exact hback
  | cons piece pieces ih =>
    rw [List.cons_append, pieceTokens_cons_eq_ok]
    constructor
    · rintro ⟨first, rest, hfirst, hrest, rfl⟩
      obtain ⟨front, back, hfront, hback, rfl⟩ := ih.1 hrest
      exact ⟨first ++ front, back, pieceTokens_cons_eq_ok.2 ⟨first, front, hfirst, hfront, rfl⟩,
        hback, (List.append_assoc ..).symm⟩
    · rintro ⟨_, back, hpieces, hback, rfl⟩
      obtain ⟨first, front, hfirst, hfront, rfl⟩ := pieceTokens_cons_eq_ok.1 hpieces
      exact ⟨first, front ++ back, hfirst, ih.2 ⟨front, back, hfront, hback, rfl⟩,
        List.append_assoc ..⟩

variable {ts : List Token}

theorem number_front (hts : pieceTokens (shards.map piece) = .ok ts)
    (hrun : runsOn (sources shards) = true) : ∃ x rest, ts = .number x :: rest := by
  -- from the front, past the shards that give no token
  induction shards generalizing ts with
  | nil => cases hrun
  | cons shard shards ih =>
    obtain ⟨front, others, hfront, hothers, rfl⟩ := pieceTokens_cons_eq_ok.1 hts
    cases shard with
    | reading x u =>
      cases hfront
      exact ⟨x, others, rfl⟩
    | text s =>
      rcases number_front_of_lex (Reading.eq_of_toExcept_eq_ok hfront) hrun with
        ⟨x, rest, rfl⟩ | ⟨rfl, hrun⟩
      · exact ⟨x, rest ++ others, rfl⟩
      · exact ih hothers hrun

theorem number_back (hts : pieceTokens (shards.map piece) = .ok ts)
    (hnames : (shards.map piece).flatMap Piece.bareNames = [])
    (hrun : runsOn (sources shards).reverse = true) : ∃ front x, ts = front ++ [.number x] := by
  -- from behind, past the shards that give no token
  induction shards using List.reverseRecOn generalizing ts with
  | nil => cases hrun
  | append_singleton shards shard ih =>
    rw [List.map_append, List.flatMap_append, List.append_eq_nil_iff] at hnames
    rw [List.map_append] at hts
    obtain ⟨front, others, hfront, hothers, rfl⟩ := pieceTokens_append_eq_ok.1 hts
    obtain ⟨last, none, hlast, hnone, rfl⟩ := pieceTokens_cons_eq_ok.1 hothers
    cases hnone
    rw [List.append_nil]
    cases shard with
    | reading x u =>
      cases hlast
      exact ⟨front, x, rfl⟩
    | text s =>
      -- no name is left in the text, so all of its lexemes are read, and the last is a number
      have hs : Name.bareNames s = [] := (List.append_eq_nil_iff.1 hnames.2).1
      obtain ⟨ls, rfl, hls, htokens⟩ :=
        exists_lexemes_of_lex (Reading.eq_of_toExcept_eq_ok hlast) hs
      rw [sources_append, sources_singleton, source] at hrun
      rw [← htokens fun _ => 0]
      rcases Lexeme.number_back hls (fun _ => 0) hrun with ⟨before, x, heq⟩ | ⟨heq, hrun⟩
      · exact ⟨front ++ before, x, by rw [heq, List.append_assoc]⟩
      · obtain ⟨before, x, rfl⟩ := ih hfront hnames.1 hrun
        exact ⟨before, x, by rw [heq, List.append_nil]⟩

theorem not_apart_of_numbers {before : Bool} (left right : List Token) (x y : Float) :
    ¬ Apart before (left ++ .number x :: .number y :: right) := by
  intro h
  -- up to the two numbers, whatever the one before them was
  induction left generalizing before with
  | nil =>
    cases h with
    | number _ h =>
      cases h with
      | other hne _ => exact hne y rfl
    | other hne _ => exact hne x rfl
  | cons token left ih =>
    cases h with
    | number _ h => exact ih h
    | other _ h => exact ih h

/-- **The tokens of torn shards are no expression**, whatever stands around them. -/
theorem Torn.not_apart (h : Torn shards) {pieces others : List Piece}
    (hts : pieceTokens (pieces ++ (shards.map piece ++ others)) = .ok ts)
    (hnames : (shards.map piece).flatMap Piece.bareNames = []) : ¬ Apart false ts := by
  obtain ⟨front, x, u, back, rfl, hrun⟩ := h
  rw [List.map_append, List.flatMap_append, List.append_eq_nil_iff] at hnames
  rw [List.map_append, List.append_assoc] at hts
  obtain ⟨before, _, -, hshards, rfl⟩ := pieceTokens_append_eq_ok.1 hts
  obtain ⟨left, _, hleft, hrest, rfl⟩ := pieceTokens_append_eq_ok.1 hshards
  obtain ⟨_, behind, hback, -, rfl⟩ := pieceTokens_append_eq_ok.1 hrest
  obtain ⟨_, right, hreading, hright, rfl⟩ := pieceTokens_cons_eq_ok.1 hback
  cases hreading
  -- the number of the reading, and the one that is next to it on the side of the tear
  rcases hrun with hrun | hrun
  · obtain ⟨left', y, rfl⟩ := number_back hleft hnames.1 hrun
    simpa using not_apart_of_numbers (before ++ left') (right ++ behind) y x
  · obtain ⟨y, right', rfl⟩ := number_front hright hrun
    simpa using not_apart_of_numbers (before ++ left) (right' ++ behind) x y

end

/-! ### Expressions -/

theorem foldl_replaceEntry_append (entries : List (Text × Float)) (pieces others : List Piece) :
    entries.foldl replaceEntry (pieces ++ others)
      = entries.foldl replaceEntry pieces ++ entries.foldl replaceEntry others := by
  -- one search treats every piece for itself
  have hname : ∀ mode name x (pieces others : List Piece),
      (replaceName mode name x (pieces ++ others)).pieces
        = (replaceName mode name x pieces).pieces ++ (replaceName mode name x others).pieces := by
    intro mode name x pieces others
    induction pieces with
    | nil => rfl
    | cons piece pieces ih =>
      rw [List.cons_append, replaceName, replaceName, Replacement.append, ih]
      exact (List.append_assoc ..).symm
  -- turn by turn, and each is two searches
  induction entries generalizing pieces others with
  | nil => rfl
  | cons entry entries ih =>
    have hturn : replaceEntry (pieces ++ others) entry
        = replaceEntry pieces entry ++ replaceEntry others entry := by
      rw [replaceEntry, replaceEntry, replaceEntry]
      split
      · rfl
      · rw [hname, hname]
    rw [List.foldl_cons, hturn, ih, List.foldl_cons, List.foldl_cons]

/-- **Every piece has its turns by itself.** -/
theorem foldl_replaceEntry_eq_flatMap (entries : List (Text × Float)) (pieces : List Piece) :
    entries.foldl replaceEntry pieces
      = pieces.flatMap fun piece => entries.foldl replaceEntry [piece] := by
  -- piece by piece; with none, no turn finds anything
  induction pieces with
  | nil =>
    induction entries with
    | nil => rfl
    | cons entry entries ih =>
      rw [List.foldl_cons, replaceEntry]
      split <;> exact ih
  | cons piece pieces ih =>
    rw [← List.singleton_append, foldl_replaceEntry_append, ih]
    rfl

/-- A reading has no turn. -/
theorem foldl_replaceEntry_value (entries : List (Text × Float)) (x : Float) :
    entries.foldl replaceEntry [.value x] = [.value x] := by
  induction entries with
  | nil => rfl
  | cons e entries ih =>
    have hturn : replaceEntry [.value x] e = [.value x] := by
      rw [replaceEntry]
      split <;> rfl
    rw [List.foldl_cons, hturn, ih]

/-- The shards of a text when all spellings had their turn. -/
def Readings.shards (readings : Readings) (r : Text) : List Shard :=
  readings.entriesLongestFirst.foldl Shard.turn [.text r]

theorem Readings.map_piece_shards (readings : Readings) (r : Text) :
    (readings.shards r).map piece
      = readings.entriesLongestFirst.foldl replaceEntry [.text r] :=
  map_piece_foldl_turn _ _

/-- **What is torn does not evaluate.** -/
theorem not_evaluates_of_torn {expression : Text} {readings : Readings} {mode : Precedence}
    {r : Text} (hr : .text r ∈ referencePieces readings (segments expression))
    (h : Torn (readings.shards r)) : ¬ Evaluates expression readings mode := by
  intro hevaluates
  obtain ⟨tokens, htokens, hexpression⟩ := evaluates_iff.1 hevaluates
  obtain ⟨-, -, hnames, ts, hts, rfl⟩ := substitute_eq_ok_iff.1 htokens
  rw [takeWhile_append_stop hts] at hexpression
  -- the run is between others, and the turns go over each for itself
  obtain ⟨pieces, others, hsplit⟩ := List.append_of_mem hr
  rw [replaceEntries, foldl_replaceEntry_eq_flatMap, hsplit, List.flatMap_append,
    List.flatMap_cons, ← Readings.map_piece_shards] at hts hnames
  rw [List.flatMap_append, List.flatMap_append, List.append_eq_nil_iff,
    List.append_eq_nil_iff] at hnames
  exact h.not_apart hts hnames.2.1 hexpression.apart

end AssayRules
