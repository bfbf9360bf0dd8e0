import MeshMessenger.Lib.TokenGaps

/-! The comments of a C text, and why they can be taken out of it. -/

namespace CLib.Lex

open Regex (Text Classes)

variable (U : Classes)

/-! ### The places of a text -/

/-- What stands before a place: nothing, the end of a joined line, or a character. -/
inductive Before where
  | start
  | splice
  | char (c : Char)
deriving DecidableEq

/-- A place in a text, with the state in which the lexer reaches it; `hidden` in a comment that
the patterns of comments do not see. -/
structure Place where
  before : Before
  hidden : Bool
  state : State
  rest : Text

def closes (x : Text) : Bool := decide ("*/".toList <:+: x)

/-- The next character is part of a comment that no pattern sees: a joined line divides the mark
at which it starts, or none at which the pattern could end follows. -/
def Place.hides (p : Place) : Bool :=
  match p.state.pending with
  | .line | .block _ => p.hidden
  | .punct ['/'] =>
    p.rest.head? == some '/' && p.before == .splice ||
      p.rest.head? == some '*' && (p.before == .splice || !closes p.rest.tail)
  | _ => false

/-- The places that the lexer reaches in a text. -/
def places : Before → Bool → State → Text → List Place
  | b, h, s, [] => [⟨b, h, s, []⟩]
  | b, h, s, [c] =>
    ⟨b, h, s, [c]⟩ ::
      match feed U s c with
      | none => []
      | some r => [⟨.char c, Place.hides ⟨b, h, s, [c]⟩, r.1, []⟩]
  | b, h, s, c :: d :: x =>
    ⟨b, h, s, c :: d :: x⟩ ::
      if c = backslash ∧ d = '\n' then places .splice h s x
      else
        match feed U s c with
        | none => []
        | some r => places (.char c) (Place.hides ⟨b, h, s, c :: d :: x⟩) r.1 (d :: x)

/-- A line is joined with the next. -/
def Splice (c : Char) (x : Text) : Prop := c = backslash ∧ x.head? = some '\n'

/-- The first character of a text, or its first two where a line is joined. -/
def glyph : Text → Text
  | c :: d :: _ => if c = backslash ∧ d = '\n' then [c, d] else [c]
  | x => x

/-! ### Comments -/

def opensComment (x : Text) : Bool :=
  "//".toList.isPrefixOf x || "/*".toList.isPrefixOf x && closes (x.drop 2)

/-- The next character is part of a comment that a pattern sees. -/
def Place.inComment (p : Place) : Bool :=
  match p.state.pending with
  | .block _ => !p.hidden
  | .line => !p.hidden && p.rest.head? != some '\n'
  | .literal .. | .header .. => false
  | .punct ['/'] => (p.rest.head? == some '/' || p.rest.head? == some '*') && !p.hides
  | _ => opensComment p.rest

def Place.kept (p : Place) : Text := if p.inComment then [] else glyph p.rest

def uncommentFrom (b : Before) (h : Bool) (s : State) (x : Text) : Text :=
  (places U b h s x).flatMap Place.kept

/-- The text without its comments. -/
def uncomment (code : Text) : Text := uncommentFrom U .start false init code

def Pending.isComment : Pending → Bool
  | .line | .block _ => true
  | _ => false

/-- A slash and an asterisk start a block comment, or stand in a comment. -/
def Pending.allowsBlock : Pending → Bool
  | .punct ['/'] => false
  | p => p.isCode || p.isComment

/-- Two slashes start a line comment, or stand in a comment. -/
def Pending.allowsLine (p : Pending) : Bool := p.isCode || p.isComment

/-- A join of two lines that continues a line comment, or divides the mark at which a block
comment ends. -/
def Place.splits (p : Place) : Bool :=
  match p.state.pending with
  | .line => !p.hidden
  | .block true => !p.hidden && (splice p.rest).head? == some '/'
  | _ => false

/-- The comment at a place, if there is one, can be taken out. -/
structure Place.Removable (p : Place) : Prop where
  whole : "\\\n".toList <+: p.rest → p.splits = false
  apart : p.state.pending.isCode = true → opensComment p.rest = true →
    joins U p.state.pending (splice (uncommentFrom U p.before p.hidden p.state p.rest)) = false

instance (p : Place) : Decidable (p.Removable U) :=
  decidable_of_iff (_ ∧ _) ⟨fun h => ⟨h.1, h.2⟩, fun h => ⟨h.whole, h.apart⟩⟩

variable {U}

theorem glyph_cases (x : Text) :
    x = [] ∨ (∃ y, x = backslash :: '\n' :: y) ∨ ∃ c y, x = c :: y ∧ ¬ Splice c y := by
  cases x with
  | nil => exact .inl rfl
  | cons c y =>
    by_cases h : Splice c y
    · obtain ⟨rfl, hy⟩ := h
      cases y with
      | nil => cases hy
      | cons d y =>
        obtain rfl : d = '\n' := Option.some.inj hy
        exact .inr (.inl ⟨y, rfl⟩)
    · exact .inr (.inr ⟨c, y, rfl, h⟩)

theorem splice_joined (x : Text) : splice (backslash :: '\n' :: x) = splice x := by
  rw [splice, if_pos ⟨rfl, rfl⟩]

theorem splice_cons {c : Char} {x : Text} (h : ¬ Splice c x) : splice (c :: x) = c :: splice x := by
  cases x with
  | nil => rfl
  | cons d x =>
    rw [splice, if_neg]
    rintro ⟨rfl, rfl⟩
    exact h ⟨rfl, rfl⟩

theorem glyph_cons {c : Char} {x : Text} (h : ¬ Splice c x) : glyph (c :: x) = [c] := by
  cases x with
  | nil => rfl
  | cons d x =>
    rw [glyph, if_neg]
    rintro ⟨rfl, rfl⟩
    exact h ⟨rfl, rfl⟩

theorem places_joined (b : Before) (h : Bool) (s : State) (x : Text) :
    places U b h s (backslash :: '\n' :: x) =
      ⟨b, h, s, backslash :: '\n' :: x⟩ :: places U .splice h s x := by
  rw [places, if_pos ⟨rfl, rfl⟩]

theorem places_cons {c : Char} {x : Text} (hc : ¬ Splice c x) (b : Before) (h : Bool) {s : State}
    {r : State × List Item} (hr : feed U s c = some r) :
    places U b h s (c :: x) =
      ⟨b, h, s, c :: x⟩ :: places U (.char c) (Place.hides ⟨b, h, s, c :: x⟩) r.1 x := by
  cases x with
  | nil => simp [places, hr]
  | cons d x =>
    rw [places, if_neg, hr]
    rintro ⟨rfl, rfl⟩
    exact hc ⟨rfl, rfl⟩

theorem mem_places (b : Before) (h : Bool) (s : State) (x : Text) :
    ⟨b, h, s, x⟩ ∈ places U b h s x := by
  unfold places
  split <;> exact List.mem_cons_self

theorem mem_places_of_joined {b : Before} {h : Bool} {s : State} {x : Text} {p : Place}
    (hp : p ∈ places U .splice h s x) : p ∈ places U b h s (backslash :: '\n' :: x) := by
  rw [places_joined]
  exact List.mem_cons_of_mem _ hp

theorem mem_places_of_next {c : Char} {x : Text} (hc : ¬ Splice c x) {b : Before} {h : Bool}
    {s : State} {r : State × List Item} (hr : feed U s c = some r) {p : Place}
    (hp : p ∈ places U (.char c) (Place.hides ⟨b, h, s, c :: x⟩) r.1 x) :
    p ∈ places U b h s (c :: x) := by
  rw [places_cons hc b h hr]
  exact List.mem_cons_of_mem _ hp

theorem uncommentFrom_joined (b : Before) (h : Bool) (s : State) (x : Text) :
    uncommentFrom U b h s (backslash :: '\n' :: x) =
      Place.kept ⟨b, h, s, backslash :: '\n' :: x⟩ ++ uncommentFrom U .splice h s x := by
  rw [uncommentFrom, places_joined, List.flatMap_cons, uncommentFrom]

theorem uncommentFrom_cons {c : Char} {x : Text} (hc : ¬ Splice c x) (b : Before) (h : Bool)
    {s : State} {r : State × List Item} (hr : feed U s c = some r) :
    uncommentFrom U b h s (c :: x) =
      Place.kept ⟨b, h, s, c :: x⟩ ++
        uncommentFrom U (.char c) (Place.hides ⟨b, h, s, c :: x⟩) r.1 x := by
  rw [uncommentFrom, places_cons hc b h hr, List.flatMap_cons, uncommentFrom]

theorem places_append {w : Text} (hw : ∀ c ∈ w, c ≠ backslash) {s : State}
    {q : State × List Item} (hq : feedAll U s w = some q) (b : Before) (h : Bool) (x : Text) :
    ∃ b' h', ∀ p ∈ places U b' h' q.1 x, p ∈ places U b h s (w ++ x) := by
  induction w generalizing s b h q with
  | nil =>
    obtain rfl := Option.some.inj hq
    exact ⟨b, h, fun p hp => hp⟩
  | cons c w ih =>
    have hc : ¬ Splice c (w ++ x) := fun hs => hw c List.mem_cons_self hs.1
    rw [feedAll] at hq
    obtain ⟨r, hr, hmap⟩ := Option.bind_eq_some_iff.1 hq
    obtain ⟨q', hq', rfl⟩ := Option.map_eq_some_iff.1 hmap
    obtain ⟨b', h', hmem⟩ := ih (fun d hd => hw d (List.mem_cons_of_mem c hd)) hq' (.char c)
      (Place.hides ⟨b, h, s, c :: (w ++ x)⟩)
    exact ⟨b', h', fun p hp => mem_places_of_next hc hr (hmem p hp)⟩

/-! ### Comments that can be taken out -/

/-- A slash that is pending has turned out to open no comment that a pattern sees. -/
def Settled (b : Before) (h : Bool) (s : State) (x : Text) : Prop :=
  s.pending = .punct ['/'] → Place.inComment ⟨b, h, s, x⟩ = false

/-- The lexer in the text without comments. -/
def State.uncommented (h : Bool) (s : State) : State :=
  if s.pending.isComment ∧ h = false then ⟨.gap, s.line⟩ else s

/-- What is read belongs to no comment that a pattern sees. -/
def Shown (h : Bool) (s : State) : Prop := s.pending.isComment = true → h = true

theorem Settled.of_ne {s : State} (hs : s.pending ≠ .punct ['/']) (b : Before) (h : Bool)
    (x : Text) : Settled b h s x :=
  fun hs' => absurd hs' hs

theorem Settled.joined (h : Bool) (s : State) (x : Text) : Settled .splice h s x := by
  intro hs
  obtain ⟨p, l⟩ := s
  obtain rfl : p = .punct ['/'] := hs
  by_cases hslash : x.head? = some '/' <;> by_cases hstar : x.head? = some '*' <;>
    simp [Place.inComment, Place.hides, hslash, hstar]

theorem advance_slash {p : Pending} (hp : p ≠ .punct ['/']) : advance U p '/' = none := by
  have hword : ∀ w, continues U w '/' = false := by
    intro w
    simp [continues, identChar, backslash]
  have hpunct : ∀ w, w ≠ [] → startsPunctuator (w ++ ['/']) = false := by
    intro w hw
    by_contra h
    rw [Bool.not_eq_false] at h
    have hall : punctuators.all (fun p => !p.tail.contains '/') = true := by decide
    obtain ⟨p, hmem, hpre⟩ := List.any_eq_true.1 h
    have htail := List.all_eq_true.1 hall p hmem
    obtain ⟨c, w, rfl⟩ := List.exists_cons_of_ne_nil hw
    obtain ⟨z, rfl⟩ := List.isPrefixOf_iff_prefix.1 hpre
    simp at htail
  cases p with
  | word w => simp [advance, hword, isQuote, singleQuote, doubleQuote]
  | number w => simp [advance, hword, signs]
  | punct w =>
    have hne : w ≠ ['/'] := fun h => hp (by rw [h])
    have hnone : ¬ (w ≠ [] ∧ startsPunctuator (w ++ ['/']) = true) := by
      rintro ⟨hw, hstarts⟩
      rw [hpunct w hw] at hstarts
      cases hstarts
    simp only [advance, hne, false_and, if_false, if_neg hnone]
    rw [if_neg]
    rintro ⟨-, hdigit⟩
    exact absurd hdigit (by decide)
  | _ => rfl

theorem release_ne_slash {p : Pending} (hp : p ≠ .punct ['/']) : (release p).2 ≠ .punct ['/'] := by
  rcases release_cases p with rfl | rfl | h
  · simp [release]
  · simp [release]
  · rwa [h]

/-- A slash ends all that can be pending, but for another slash. -/
theorem feed_slash {s : State} (hs : s.pending.isCode = true) (hp : s.pending ≠ .punct ['/'])
    {r : State × List Item} (h : feed U s '/' = some r) :
    ∃ ts, s.pending.tokens = some ts ∧
      r = (⟨.punct ['/'], (s.line.emit ts).2⟩, (s.line.emit ts).1) := by
  have hlast : advance U (release s.pending).2 '/' = none := advance_slash (release_ne_slash hp)
  obtain ⟨ts, hts⟩ := tokens_of_feed hs (advance_slash hp) hlast h
  have hstarts : startsPunctuator ['/'] = true := by decide
  have hstart : ∀ l, start U l '/' = some (⟨.punct ['/'], l⟩, []) := by
    intro l
    simp [start, isSpace, isQuote, continues, identChar, singleQuote, doubleQuote, backslash,
      hstarts]
  rw [feed_of_advance_none hs hts (advance_slash hp) hlast, hstart] at h
  refine ⟨ts, hts, ?_⟩
  simpa using h.symm

theorem start_pending {l : LineKind} {c : Char} {r : State × List Item}
    (h : start U l c = some r) :
    r.1.pending.isComment = false ∧ (r.1.pending = .punct ['/'] → c = '/') := by
  unfold start at h
  split_ifs at h <;> cases h <;> simp [Pending.isComment]

theorem comment_of_advance {p q : Pending} {c : Char} (h : advance U p c = some q)
    (hq : q.isComment = true) : p = .punct ['/'] ∧ (c = '/' ∨ c = '*') := by
  cases p with
  | word w | number w =>
    rw [advance] at h
    split_ifs at h <;> cases h <;> cases hq
  | punct w =>
    rw [advance] at h
    split_ifs at h with hline hblock
    · exact ⟨by rw [hline.1], .inl hline.2⟩
    · exact ⟨by rw [hblock.1], .inr hblock.2⟩
    · cases h
      cases hq
    · cases h
      cases hq
  | _ => cases h

/-- What is pending after a character of code goes on with what was pending, or starts anew. -/
theorem pending_of_feed {s : State} (hs : s.pending.isCode = true) {c : Char}
    {r : State × List Item} (h : feed U s c = some r) :
    (∃ p, (p = s.pending ∨ p = (release s.pending).2) ∧ advance U p c = some r.1.pending) ∨
      ∃ l items, start U l c = some (r.1, items) := by
  rw [feed_of_isCode hs, feedCode] at h
  cases hadv : advance U s.pending c with
  | some q =>
    simp only [hadv, Option.some.injEq] at h
    subst h
    exact .inl ⟨_, .inl rfl, hadv⟩
  | none =>
    simp only [hadv] at h
    cases hlast : advance U (release s.pending).2 c with
    | some q =>
      simp only [hlast, Option.some.injEq] at h
      subst h
      exact .inl ⟨_, .inr rfl, hlast⟩
    | none =>
      simp only [hlast] at h
      obtain ⟨us, -, h⟩ := Option.bind_eq_some_iff.1 h
      obtain ⟨q, hq, rfl⟩ := Option.map_eq_some_iff.1 h
      exact .inr ⟨_, q.2, hq⟩

/-- How the lexer gets into a comment. -/
theorem comment_of_feed {s : State} (hs : s.pending.isComment = false) {c : Char}
    {r : State × List Item} (h : feed U s c = some r) (hr : r.1.pending.isComment = true) :
    s.pending = .punct ['/'] ∧ (c = '/' ∨ c = '*') := by
  by_cases hcode : s.pending.isCode = true
  · rcases pending_of_feed hcode h with ⟨p, hp, hadv⟩ | ⟨l, items, hstart⟩
    · obtain ⟨hslash, hc⟩ := comment_of_advance hadv hr
      refine ⟨?_, hc⟩
      by_contra hne
      rcases hp with rfl | rfl
      · exact hne hslash
      · exact release_ne_slash hne hslash
    · rw [(start_pending hstart).1] at hr
      cases hr
  · obtain ⟨p, l⟩ := s
    cases p with
    | literal | header =>
      simp only [feed] at h
      split_ifs at h <;> cases h <;> cases hr
    | line | block => cases hs
    | _ => exact absurd rfl hcode

theorem eq_slash_of_feed {s : State} {c : Char} {r : State × List Item}
    (h : feed U s c = some r) (hr : r.1.pending = .punct ['/']) : c = '/' := by
  by_cases hcode : s.pending.isCode = true
  · rcases pending_of_feed hcode h with ⟨p, -, hadv⟩ | ⟨l, items, hstart⟩
    · rw [hr] at hadv
      obtain ⟨w, -, hw⟩ := punct_of_advance hadv
      have hwc : [] ++ ['/'] = w ++ [c] := hw
      exact (List.append_singleton_inj.1 hwc).2.symm
    · exact (start_pending hstart).2 hr
  · obtain ⟨p, l⟩ := s
    cases p with
    | literal | header | block =>
      simp only [feed] at h
      split_ifs at h <;> cases h <;> cases hr
    | line =>
      simp only [feed] at h
      split_ifs at h
      · exact (start_pending h).2 hr
      · cases h
        cases hr
    | _ => exact absurd rfl hcode

/-- After a backslash in code a character of a name is still to come. -/
theorem tokens_of_feed_backslash {s : State} (hs : s.pending.isCode = true)
    {r : State × List Item} (h : feed U s backslash = some r) :
    r.1.pending.isCode = true ∧ r.1.pending.tokens = none := by
  rcases pending_of_feed hs h with ⟨p, -, hadv⟩ | ⟨l, items, hstart⟩
  · have hpunct : ∀ w, startsPunctuator (w ++ [backslash]) = false := by
      intro w
      by_contra hw
      rw [Bool.not_eq_false] at hw
      have hall : punctuators.all (fun p => !p.contains backslash) = true := by decide
      obtain ⟨p, hmem, hpre⟩ := List.any_eq_true.1 hw
      obtain ⟨z, rfl⟩ := List.isPrefixOf_iff_prefix.1 hpre
      have hnot := List.all_eq_true.1 hall _ hmem
      simp at hnot
    generalize r.1.pending = q at hadv
    cases p with
    | word w =>
      rw [advance] at hadv
      split_ifs at hadv with hcont hquote
      · cases hadv
        simp [Pending.isCode, Pending.tokens]
      · exact absurd hquote.1 (by decide)
    | number w =>
      rw [advance] at hadv
      split_ifs at hadv
      cases hadv
      simp [Pending.isCode, Pending.tokens]
    | punct w =>
      simp only [advance, hpunct] at hadv
      split_ifs at hadv with hline hblock hdigit hword
      · exact absurd hline.2 (by decide)
      · exact absurd hblock.2 (by decide)
      · exact absurd hdigit.2 (by decide)
      · cases hword.2
    | _ => cases hadv
  · have hword : start U l backslash = some (⟨.word [backslash], l⟩, []) := by
      simp [start, isSpace, isQuote, continues, backslash, singleQuote, doubleQuote]
    have hr := (Prod.mk.inj (Option.some.inj (hword.symm.trans hstart))).1
    rw [← hr]
    exact ⟨rfl, by simp [Pending.tokens]⟩

/-- A backslash ends no literal and no comment. -/
theorem isCode_of_feed_backslash {s : State} {r : State × List Item}
    (h : feed U s backslash = some r) (hr : r.1.pending.isCode = true) :
    s.pending.isCode = true := by
  obtain ⟨p, l⟩ := s
  have hliteral : ∀ double, backslash ≠ literalEnd double := by decide
  have hheader : ∀ double, backslash ≠ headerEnd double := by decide
  cases p with
  | literal double escaped w =>
    simp only [feed, hliteral, and_false, if_false] at h
    split_ifs at h
    cases h
    cases hr
  | header double w =>
    simp only [feed, hheader, if_false] at h
    split_ifs at h
    cases h
    cases hr
  | line =>
    simp only [feed] at h
    split_ifs at h with hnewline
    · exact absurd hnewline (by decide)
    · cases h
      cases hr
  | block star =>
    simp only [feed] at h
    split_ifs at h with hend
    · exact absurd hend.2 (by decide)
    · cases h
      cases hr
  | _ => rfl

theorem lexFrom_cons {s : State} {c : Char} {r : State × List Item} (hr : feed U s c = some r)
    {x : Text} {items : List Item} (hx : lexFrom U r.1 x = some items) :
    lexFrom U s (c :: x) = some (r.2 ++ items) := by
  rw [lexFrom, hr, Option.bind_some, hx, Option.map_some]

theorem uncommented_of_shown {h : Bool} {s : State} (hs : Shown h s) : s.uncommented h = s := by
  refine if_neg ?_
  rintro ⟨hcomment, hh⟩
  rw [hs hcomment] at hh
  cases hh

theorem uncommented_of_isComment {s : State} (hs : s.pending.isComment = true) :
    s.uncommented false = ⟨.gap, s.line⟩ := if_pos ⟨hs, rfl⟩

theorem opensComment_iff {x : Text} :
    opensComment x = true ↔
      ∃ d z, x = '/' :: d :: z ∧ (d = '/' ∨ d = '*' ∧ closes z = true) := by
  constructor
  · intro h
    simp only [opensComment, Bool.or_eq_true, Bool.and_eq_true, List.isPrefixOf_iff_prefix] at h
    rcases h with ⟨z, rfl⟩ | ⟨⟨z, rfl⟩, hcloses⟩
    · exact ⟨'/', z, rfl, .inl rfl⟩
    · exact ⟨'*', z, rfl, .inr ⟨rfl, hcloses⟩⟩
  · rintro ⟨d, z, rfl, rfl | ⟨rfl, hcloses⟩⟩
    · rfl
    · simp [opensComment, hcloses]

/-- Outside of a comment that a pattern sees one can only be about to start. -/
theorem inComment_cases {p : Place} (hp : Shown p.hidden p.state) (h : p.inComment = true) :
    p.state.pending.isCode = true ∧
      (p.state.pending = .punct ['/'] ∨
        p.state.pending ≠ .punct ['/'] ∧ opensComment p.rest = true) := by
  obtain ⟨b, hidden, ⟨q, l⟩, x⟩ := p
  by_cases hslash : q = .punct ['/']
  · subst hslash
    exact ⟨rfl, .inl rfl⟩
  · cases q with
    | gap | word w | number w => exact ⟨rfl, .inr ⟨hslash, h⟩⟩
    | punct w =>
      refine ⟨rfl, .inr ⟨hslash, ?_⟩⟩
      simpa only [Place.inComment] using h
    | literal | header => cases h
    | line | block =>
      obtain rfl : hidden = true := hp rfl
      cases h

theorem inComment_of_isCode {p : Place} (hp : p.state.pending.isCode = true)
    (hne : p.state.pending ≠ .punct ['/']) : p.inComment = opensComment p.rest := by
  obtain ⟨b, hidden, ⟨q, l⟩, x⟩ := p
  cases q with
  | gap | word | number => rfl
  | punct w =>
    have hw : w ≠ ['/'] := fun h => hne (by rw [h])
    simp only [Place.inComment]
  | _ => cases hp

theorem inComment_joined (b : Before) {h : Bool} {s : State} (hs : Shown h s) (x : Text) :
    Place.inComment ⟨b, h, s, backslash :: x⟩ = false := by
  by_contra hin
  obtain ⟨-, hslash | ⟨-, hopens⟩⟩ := inComment_cases hs (by simpa using hin)
  · obtain ⟨p, l⟩ := s
    obtain rfl : p = .punct ['/'] := hslash
    simp [Place.inComment, backslash] at hin
  · obtain ⟨d, z, hx, -⟩ := opensComment_iff.1 hopens
    exact absurd (List.cons.inj hx).1 (by decide)

/-- A comment that starts with a character that is kept is one that no pattern sees. -/
theorem shown_of_feed {b : Before} {h : Bool} {s : State} (hs : Shown h s) {c : Char} {y : Text}
    {r : State × List Item} (hr : feed U s c = some r)
    (hin : Place.inComment ⟨b, h, s, c :: y⟩ = false) :
    Shown (Place.hides ⟨b, h, s, c :: y⟩) r.1 := by
  intro hcomment
  cases hcase : s.pending.isComment with
  | true =>
    obtain rfl := hs hcase
    obtain ⟨p, l⟩ := s
    cases p with
    | line => rfl
    | block => rfl
    | _ => cases hcase
  | false =>
    obtain ⟨hslash, hc⟩ := comment_of_feed hcase hr hcomment
    obtain ⟨p, l⟩ := s
    obtain rfl : p = .punct ['/'] := hslash
    have hhead : ((c :: y).head? == some '/' || (c :: y).head? == some '*') = true := by
      rcases hc with rfl | rfl <;> rfl
    simpa only [Place.inComment, hhead, Bool.true_and, Bool.not_eq_false'] using hin

theorem uncommentFrom_nil (b : Before) (h : Bool) (s : State) : uncommentFrom U b h s [] = [] := by
  simp [uncommentFrom, places, Place.kept, glyph]

theorem lexFrom_uncommentFrom_nil {b : Before} {h : Bool} {s : State} {items : List Item}
    (hlex : lexFrom U s [] = some items) :
    lexFrom U (s.uncommented h) (splice (uncommentFrom U b h s [])) = some items := by
  rw [uncommentFrom_nil, State.uncommented]
  split_ifs with hseen
  · obtain ⟨p, l⟩ := s
    cases p with
    | line => exact hlex
    | block => cases hlex
    | _ => exact absurd hseen.1 (by simp [Pending.isComment])
  · exact hlex

/-- No line is joined with the next where a comment is taken out. -/
theorem not_splice_uncommentFrom {s : State} {c : Char} {r : State × List Item}
    (hr : feed U s c = some r) {h : Bool} (hout : Shown h r.1) {y : Text} (hc : ¬ Splice c y)
    {items : List Item} (hlex : lexFrom U r.1 (splice y) = some items) :
    ¬ Splice c (uncommentFrom U (.char c) h r.1 y) := by
  rintro ⟨rfl, hhead⟩
  rcases glyph_cases y with rfl | ⟨z, rfl⟩ | ⟨d, z, rfl, hd⟩
  · rw [uncommentFrom_nil] at hhead
    cases hhead
  · rw [uncommentFrom_joined, Place.kept, inComment_joined _ hout] at hhead
    exact absurd (Option.some.inj hhead) (by decide)
  · rw [splice_cons hd] at hlex
    obtain ⟨q, rest, hq, -, -⟩ := lexFrom_cons_eq_some hlex
    rw [uncommentFrom_cons hd _ h hq, Place.kept] at hhead
    split_ifs at hhead with hin
    · obtain ⟨hcode, hslash | ⟨hne, hopens⟩⟩ := inComment_cases hout hin
      · exact absurd (eq_slash_of_feed hr hslash) (by decide)
      · obtain ⟨e, w, hx, -⟩ := opensComment_iff.1 hopens
        obtain rfl : d = '/' := (List.cons.inj hx).1
        obtain ⟨ts, hts, -⟩ := feed_slash hcode hne hq
        have hin' := isCode_of_feed_backslash hr hcode
        rw [(tokens_of_feed_backslash hin' hr).2] at hts
        cases hts
    · rw [glyph_cons hd] at hhead
      exact hc ⟨rfl, hhead⟩

/-- What is pending after a slash and this character of a comment. -/
def opened (d : Char) : Pending := if d = '/' then .line else .block false

theorem feed_opened {d : Char} (hd : d = '/' ∨ d = '*') (l : LineKind) :
    feed U ⟨.punct ['/'], l⟩ d = some (⟨opened d, l⟩, []) := by
  rcases hd with rfl | rfl <;> simp [feed, feedCode, advance, opened]

theorem isComment_opened (d : Char) : (opened d).isComment = true := by
  unfold opened
  split_ifs <;> rfl

theorem hides_of_isCode {p : Place} (hp : p.state.pending.isCode = true)
    (hne : p.state.pending ≠ .punct ['/']) : p.hides = false := by
  obtain ⟨b, hidden, ⟨q, l⟩, x⟩ := p
  cases q with
  | gap | word | number => rfl
  | punct w =>
    have hw : w ≠ ['/'] := fun h => hne (by rw [h])
    simp only [Place.hides]
  | _ => cases hp

/-- A comment that is about to start. -/
theorem lexFrom_opening {b : Before} {h : Bool} {s : State} (hs : s.pending.isCode = true)
    (hne : s.pending ≠ .punct ['/']) {d : Char} {z : Text}
    (hd : d = '/' ∨ d = '*' ∧ closes z = true)
    {items : List Item} (hlex : lexFrom U s (splice ('/' :: d :: z)) = some items) :
    ∃ ts l rest, s.pending.tokens = some ts ∧ l = (s.line.emit ts).2 ∧
      lexFrom U ⟨opened d, l⟩ (splice z) = some rest ∧ items = (s.line.emit ts).1 ++ rest ∧
      uncommentFrom U b h s ('/' :: d :: z) = uncommentFrom U (.char d) false ⟨opened d, l⟩ z ∧
      places U b h s ('/' :: d :: z) =
        ⟨b, h, s, '/' :: d :: z⟩ :: ⟨.char '/', false, ⟨.punct ['/'], l⟩, d :: z⟩ ::
          places U (.char d) false ⟨opened d, l⟩ z := by
  have hmark : d = '/' ∨ d = '*' := hd.imp_right And.left
  have hback : d ≠ backslash := by
    rcases hmark with rfl | rfl <;> decide
  have hsplice : ¬ Splice '/' (d :: z) := fun h => absurd h.1 (by decide)
  have hsplice' : ¬ Splice d z := fun h => hback h.1
  rw [splice_cons hsplice, splice_cons hsplice'] at hlex
  obtain ⟨r, rest, hr, hrest, rfl⟩ := lexFrom_cons_eq_some hlex
  obtain ⟨ts, hts, rfl⟩ := feed_slash hs hne hr
  obtain ⟨r', rest', hr', hrest', rfl⟩ := lexFrom_cons_eq_some hrest
  obtain rfl := Option.some.inj ((feed_opened hmark _).symm.trans hr')
  have hfirst' : Place.hides ⟨b, h, s, '/' :: d :: z⟩ = false := hides_of_isCode hs hne
  have hsecond' : ∀ l, Place.hides ⟨.char '/', false, ⟨.punct ['/'], l⟩, d :: z⟩ = false := by
    intro l
    rcases hd with rfl | ⟨rfl, hcloses⟩ <;> simp [Place.hides, *]
  have hplaces := places_cons hsplice b h hr
  rw [hfirst', places_cons hsplice' _ _ hr', hsecond'] at hplaces
  have hopens : opensComment ('/' :: d :: z) = true := opensComment_iff.2 ⟨d, z, rfl, hd⟩
  have hfirst : Place.kept ⟨b, h, s, '/' :: d :: z⟩ = [] :=
    if_pos ((inComment_of_isCode hs hne).trans hopens)
  have hsecond : Place.kept ⟨.char '/', false, ⟨.punct ['/'], (s.line.emit ts).2⟩, d :: z⟩ = [] := by
    refine if_pos ?_
    rw [Place.inComment, hsecond']
    rcases hmark with rfl | rfl <;> rfl
  refine ⟨ts, _, rest', hts, rfl, hrest', rfl, ?_, hplaces⟩
  rw [uncommentFrom, hplaces, List.flatMap_cons, List.flatMap_cons, hfirst, hsecond,
    List.nil_append, List.nil_append, uncommentFrom]

theorem isCode_of_feed_slash {s : State} {c : Char} {r : State × List Item}
    (h : feed U s c = some r) (hr : r.1.pending = .punct ['/']) :
    s.pending.isCode = true ∧ s.pending ≠ .punct ['/'] := by
  obtain rfl := eq_slash_of_feed h hr
  obtain ⟨p, l⟩ := s
  have hcode : p.isCode = true := by
    cases p with
    | literal | header | block =>
      simp only [feed] at h
      split_ifs at h <;> cases h <;> cases hr
    | line =>
      cases h
      cases hr
    | _ => rfl
  refine ⟨hcode, fun hslash => ?_⟩
  obtain rfl : p = .punct ['/'] := hslash
  rw [feed_opened (.inl rfl)] at h
  cases h
  cases hr

theorem Settled.next {b : Before} {h : Bool} {s : State} {c : Char} {y : Text}
    {r : State × List Item} (hr : feed U s c = some r)
    (hin : Place.inComment ⟨b, h, s, c :: y⟩ = false) (h' : Bool) :
    Settled (.char c) h' r.1 y := by
  intro hslash
  obtain rfl := eq_slash_of_feed hr hslash
  obtain ⟨hcode, hne⟩ := isCode_of_feed_slash hr hslash
  rw [inComment_of_isCode hcode hne] at hin
  by_contra hopens
  generalize r.1 = q at hslash hopens
  obtain ⟨p, l⟩ := q
  obtain rfl : p = .punct ['/'] := hslash
  have hmarks : Place.inComment ⟨.char '/', h', ⟨.punct ['/'], l⟩, y⟩ = true := by simpa using hopens
  simp only [Place.inComment, Place.hides, Bool.and_eq_true, Bool.or_eq_true, beq_iff_eq] at hmarks
  have hopen : opensComment ('/' :: y) = true := by
    obtain ⟨hmark, hseen⟩ := hmarks
    rcases hmark with hhead | hhead
    · obtain ⟨z, rfl⟩ := List.head?_eq_some_iff.1 hhead
      rfl
    · obtain ⟨z, rfl⟩ := List.head?_eq_some_iff.1 hhead
      refine opensComment_iff.2 ⟨'*', z, rfl, .inr ⟨rfl, ?_⟩⟩
      simpa using hseen
  rw [hopen] at hin
  cases hin

/-- A character in a comment: the line end after a line comment is kept. -/
theorem comment_step {s : State} (hs : s.pending.isComment = true) {c : Char}
    {r : State × List Item} (hr : feed U s c = some r) (b : Before) (y : Text) :
    Place.hides ⟨b, false, s, c :: y⟩ = false ∧
      (s.pending = .line ∧ c = '\n' ∧ r = (⟨.gap, .fresh⟩, s.line.ending) ∧
          Place.kept ⟨b, false, s, c :: y⟩ = ['\n'] ∨
        r.1.uncommented false = ⟨.gap, s.line⟩ ∧ r.2 = [] ∧
          Place.kept ⟨b, false, s, c :: y⟩ = [] ∧ r.1.pending ≠ .punct ['/']) := by
  obtain ⟨p, l⟩ := s
  cases p with
  | line =>
    refine ⟨rfl, ?_⟩
    simp only [feed] at hr
    split_ifs at hr with hnewline
    · subst hnewline
      cases hr
      have hnot : ¬ Splice '\n' y := fun h => absurd h.1 (by decide)
      exact .inl ⟨rfl, rfl, rfl, by simp [Place.kept, Place.inComment, glyph_cons hnot]⟩
    · cases hr
      exact .inr ⟨rfl, rfl, by simp [Place.kept, Place.inComment, hnewline], by simp⟩
  | block star =>
    refine ⟨rfl, ?_⟩
    simp only [feed] at hr
    split_ifs at hr
    · cases hr
      exact .inr ⟨rfl, rfl, rfl, by simp⟩
    · cases hr
      exact .inr ⟨rfl, rfl, rfl, by simp⟩
  | _ => cases hs

/-- Without the comments that the patterns see a text has the same tokens. -/
theorem lexFrom_uncommentFrom {n : ℕ} {x : Text} (hn : x.length ≤ n) {b : Before} {h : Bool}
    {s : State} {items : List Item} (hlex : lexFrom U s (splice x) = some items)
    (hrem : ∀ p ∈ places U b h s x, p.Removable U) (hset : Settled b h s x) :
    lexFrom U (s.uncommented h) (splice (uncommentFrom U b h s x)) = some items := by
  induction n generalizing x b h s items with
  | zero =>
    obtain rfl : x = [] := List.length_eq_zero_iff.1 (Nat.le_zero.1 hn)
    exact lexFrom_uncommentFrom_nil hlex
  | succ n ih =>
    rcases glyph_cases x with rfl | ⟨y, rfl⟩ | ⟨c, y, rfl, hc⟩
    · exact lexFrom_uncommentFrom_nil hlex
    · have hnext : ∀ p ∈ places U .splice h s y, p.Removable U := fun p hp =>
        hrem p (mem_places_of_joined hp)
      rw [splice_joined] at hlex
      have hy := ih (by simp at hn; omega) hlex hnext (Settled.joined h s y)
      rw [uncommentFrom_joined, Place.kept]
      split_ifs
      · exact hy
      · have hglyph : glyph (backslash :: '\n' :: y) = [backslash, '\n'] := by
          rw [glyph, if_pos ⟨rfl, rfl⟩]
        rw [hglyph, List.cons_append, List.cons_append, List.nil_append, splice_joined]
        exact hy
    · have hplace := hrem _ (mem_places b h s (c :: y))
      have hspliced : splice (c :: y) = c :: splice y := splice_cons hc
      have hlex' := hlex
      rw [hspliced] at hlex'
      obtain ⟨r, rest, hr, hrest, rfl⟩ := lexFrom_cons_eq_some hlex'
      have hlen : y.length ≤ n := by simpa using hn
      have hnext : ∀ p ∈ places U (.char c) (Place.hides ⟨b, h, s, c :: y⟩) r.1 y,
          p.Removable U := fun p hp => hrem p (mem_places_of_next hc hr hp)
      by_cases hseen : s.pending.isComment = true ∧ h = false
      · obtain ⟨hs, rfl⟩ := hseen
        rw [uncommented_of_isComment hs, uncommentFrom_cons hc b false hr]
        obtain ⟨hflag, ⟨hline, rfl, rfl, hkept⟩ | ⟨hline, hitems, hkept, hne⟩⟩ :=
          comment_step hs hr b y
        · rw [hflag] at hnext ⊢
          have hy := ih hlen hrest hnext (Settled.of_ne (by simp) _ _ y)
          have hnot : ¬ Splice '\n' (uncommentFrom U (.char '\n') false ⟨.gap, .fresh⟩ y) :=
            fun h => absurd h.1 (by decide)
          rw [hkept, List.singleton_append, splice_cons hnot]
          exact lexFrom_cons (feed_gap s.line '\n') hy
        · rw [hflag] at hnext ⊢
          have hy := ih hlen hrest hnext (Settled.of_ne hne _ _ y)
          rwa [hkept, List.nil_append, hitems, List.nil_append, ← hline]
      · have hshown : Shown h s := fun hs => by simpa [hs] using hseen
        cases hin : Place.inComment ⟨b, h, s, c :: y⟩ with
        | true =>
          obtain ⟨hcode, hslash | ⟨hne, hopens⟩⟩ := inComment_cases hshown hin
          · rw [hset hslash] at hin
            cases hin
          · obtain ⟨d, z, hcy, hd⟩ := opensComment_iff.1 hopens
            obtain ⟨rfl, rfl⟩ := List.cons.inj hcy
            obtain ⟨ts, l, rest', hts, hline, hlex'', hitems, huncomment, hplaces'⟩ :=
              lexFrom_opening (b := b) (h := h) hcode hne hd hlex
            have hjoins := hplace.apart hcode hopens
            have hcomment := isComment_opened d
            have hnext' : ∀ p ∈ places U (.char d) false ⟨opened d, l⟩ z, p.Removable U := by
              intro p hp
              refine hrem p ?_
              rw [hplaces']
              exact List.mem_cons_of_mem _ (List.mem_cons_of_mem _ hp)
            have hset' : Settled (.char d) false ⟨opened d, l⟩ z := by
              refine Settled.of_ne (fun h => ?_) _ _ z
              rw [show opened d = .punct ['/'] from h] at hcomment
              cases hcomment
            have hz := ih (by simp at hn; omega) hlex'' hnext' hset'
            rw [uncommented_of_isComment hcomment, hline] at hz
            rw [huncomment, hline] at hjoins ⊢
            rw [uncommented_of_shown hshown, lexFrom_of_not_joins hcode hts hjoins, hz, hitems]
            rfl
        | false =>
          have hout := shown_of_feed hshown hr hin
          have hy := ih hlen hrest hnext (Settled.next hr hin _)
          have hnot := not_splice_uncommentFrom hr hout hc hrest
          rw [uncommented_of_shown hout] at hy
          rw [uncommented_of_shown hshown, uncommentFrom_cons hc b h hr, Place.kept,
            if_neg (by simp [hin]), glyph_cons hc, List.singleton_append, splice_cons hnot]
          exact lexFrom_cons hr hy

end CLib.Lex
