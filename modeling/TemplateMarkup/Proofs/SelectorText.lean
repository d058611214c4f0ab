import TemplateMarkup.Proofs.SelectorTokens

/-! The text of a selector against the source that it was read from. A selector shows its tokens,
and one space where something stands between two of them. So it shows the source, with white space
and comments made one space, except where reading skipped a character inside the selector, and
except for white space that belongs to its first or last token. -/
namespace TemplateMarkup

namespace Text

theorem trimBack_sublist (cs : List Char) : (trimBack cs).Sublist cs := by
  have dropped := (List.dropWhile_sublist (l := cs.reverse) isWhiteSpace).reverse
  rwa [List.reverse_reverse] at dropped

theorem trimBoth_sublist (cs : List Char) : (trimBoth cs).Sublist cs :=
  (trimBack_sublist _).trans (List.dropWhile_sublist _)

theorem dropWhile_eq_self {cs : List Char} :
    cs.dropWhile isWhiteSpace = cs ↔ ∀ c ∈ cs.head?, isWhiteSpace c = false := by
  cases cs with
  | nil => simp
  | cons c cs =>
    by_cases white : isWhiteSpace c
    · rw [List.dropWhile_cons_of_pos white]
      refine ⟨fun same => ?_, fun visible => ?_⟩
      · have shorter := (List.dropWhile_sublist (l := cs) isWhiteSpace).length_le
        rw [same, List.length_cons] at shorter
        omega
      · simp [white] at visible
    · simp [white]

/-- Trimming changes nothing exactly where there is no white space at either end. -/
theorem trimBoth_eq_self {cs : List Char} : trimBoth cs = cs ↔
    (∀ c ∈ cs.head?, isWhiteSpace c = false) ∧ ∀ c ∈ cs.getLast?, isWhiteSpace c = false := by
  have last : trimBack cs = cs ↔ ∀ c ∈ cs.getLast?, isWhiteSpace c = false := by
    rw [← List.head?_reverse, ← dropWhile_eq_self, trimBack, List.reverse_eq_iff]
  rw [← last, ← dropWhile_eq_self]
  constructor
  · intro same
    have front : trimFront cs = cs := by
      refine (List.dropWhile_sublist _).eq_of_length_le ?_
      have shorter := (trimBack_sublist (trimFront cs)).length_le
      rwa [show trimBack (trimFront cs) = cs from same] at shorter
    have whole : trimBack (trimFront cs) = cs := same
    rw [front] at whole
    exact ⟨front, whole⟩
  · rintro ⟨front, back⟩
    rw [trimBoth, trimFront, front, back]

end Text

namespace TokenStream
open SourceText

/-- The pieces that a source is read in. -/
structure CutInto (stream : TokenStream) (source : String) (pieces : List Piece) : Prop where
  text : textOf pieces = source.toList
  tokens : stream.tokens.dropLast = pieces.filterMap Piece.token?
  skipped : stream.skipped = pieces.filterMap Piece.skipped?
  stands : ∀ front piece back, pieces = front ++ piece :: back → piece.Stands (textOf front)

namespace Piece

/-- The token of a piece, unless it is an ordinary comment. -/
def kept? : Piece → Option Token
  | token t => if t.kind.isPlainComment then none else some t
  | _ => none

theorem kept?_eq_some {piece : Piece} {t : Token} (found : piece.kept? = some t) :
    piece = .token t ∧ t.kind.isPlainComment = false := by
  cases piece with
  | token other =>
    by_cases plain : other.kind.isPlainComment = true
    · rw [kept?, if_pos plain] at found
      cases found
    · rw [kept?, if_neg plain] at found
      cases found
      exact ⟨rfl, by simpa using plain⟩
  | blank | skipped => cases found

/-- White space, or an ordinary comment. -/
def IsSpace : Piece → Prop
  | token t => t.kind.isPlainComment = true
  | blank text => ∀ c ∈ text, Text.isWhiteSpace c = true
  | skipped _ => False

/-- The characters of a piece between two tokens; those of white space and comments are left
open. -/
def marks : Piece → List (Option Char)
  | token t => t.text.toList.map fun _ => none
  | blank text => text.map fun c => if Text.isWhiteSpace c then none else some c
  | skipped s => s.text.toList.map some

theorem length_marks (piece : Piece) : piece.marks.length = piece.chars.length := by
  cases piece <;> simp [marks, chars]

theorem marks_of_isSpace {piece : Piece} (space : piece.IsSpace) : ∀ mark ∈ piece.marks, mark = none := by
  cases piece with
  | token t => simp [marks]
  | blank text =>
    intro mark member
    obtain ⟨c, inside, rfl⟩ := List.mem_map.1 member
    rw [if_pos (space c inside)]
  | skipped s => cases space

end Piece

/-- A text with one space for every run of open places; `inRun` tells that the place before is
open. -/
def condense (inRun : Bool) : List (Option Char) → List Char
  | [] => []
  | some c :: marks => c :: condense false marks
  | none :: marks => if inRun then condense true marks else ' ' :: condense true marks

/-- How many characters are not spaces. -/
def weight (cs : List Char) : Nat := cs.countP (· ≠ ' ')

theorem weight_append (cs cs' : List Char) : weight (cs ++ cs') = weight cs + weight cs' :=
  List.countP_append

@[simp] theorem weight_cons (c : Char) (cs : List Char) :
    weight (c :: cs) = weight cs + if c = ' ' then 0 else 1 := by
  simp only [weight, List.countP_cons, decide_eq_true_eq]
  split <;> simp_all

theorem weight_condense (inRun : Bool) (marks : List (Option Char)) :
    weight (condense inRun marks) = weight (marks.filterMap id) := by
  induction marks generalizing inRun with
  | nil => rfl
  | cons mark marks ih =>
    cases mark with
    | none =>
      rw [List.filterMap_cons_none rfl, ← ih true]
      cases inRun <;> simp [condense]
    | some c =>
      have kept : (some c :: marks).filterMap id = c :: marks.filterMap id := rfl
      rw [kept, condense, weight_cons, weight_cons, ih false]

theorem condense_of_open {marks : List (Option Char)} (space : ∀ mark ∈ marks, mark = none) :
    condense true marks = [] := by
  induction marks with
  | nil => rfl
  | cons mark marks ih =>
    obtain rfl := space mark (by simp)
    exact ih fun mark member => space mark (by simp [member])

/-- The text between two tokens with its white space and comments made one space. -/
def between (gap : List Piece) : List Char := condense false (gap.flatMap Piece.marks)

theorem between_of_isSpace {gap : List Piece} (space : ∀ piece ∈ gap, piece.IsSpace) :
    between gap = if textOf gap = [] then [] else [' '] := by
  have allOpen : ∀ mark ∈ gap.flatMap Piece.marks, mark = none := by
    intro mark member
    obtain ⟨piece, inside, found⟩ := List.mem_flatMap.1 member
    exact Piece.marks_of_isSpace (space piece inside) mark found
  have length : (gap.flatMap Piece.marks).length = (textOf gap).length := by
    simp [textOf, List.length_flatMap, Piece.length_marks]
  unfold between
  cases marks : gap.flatMap Piece.marks with
  | nil =>
    rw [marks] at length
    rw [if_pos (List.length_eq_zero_iff.1 length.symm)]
    rfl
  | cons mark rest =>
    rw [marks] at allOpen length
    have apart : textOf gap ≠ [] := by
      intro empty
      rw [empty] at length
      cases length
    obtain rfl := allOpen mark (by simp)
    rw [if_neg apart, condense, if_neg (by simp),
      condense_of_open fun mark member => allOpen mark (List.mem_cons_of_mem _ member)]

theorem weight_between_pos {gap : List Piece} {piece : Piece} (member : piece ∈ gap)
    (dropped : piece.kept? = none) (visible : ∀ s, piece = .skipped s → s.Visible)
    (other : ¬ piece.IsSpace) : 0 < weight (between gap) := by
  have shown : ∃ c, some c ∈ piece.marks ∧ c ≠ ' ' := by
    cases piece with
    | token t =>
      have kept : ¬ t.kind.isPlainComment = true := other
      rw [Piece.kept?, if_neg kept] at dropped
      cases dropped
    | blank text =>
      simp only [Piece.IsSpace, not_forall, Bool.not_eq_true] at other
      obtain ⟨c, inside, white⟩ := other
      refine ⟨c, List.mem_map.2 ⟨c, inside, by simp [white]⟩, ?_⟩
      rintro rfl
      cases white
    | skipped s =>
      obtain ⟨c, inside, white⟩ := visible s rfl
      refine ⟨c, List.mem_map.2 ⟨c, inside, rfl⟩, ?_⟩
      rintro rfl
      cases white
  obtain ⟨c, marked, apart⟩ := shown
  rw [between, weight_condense]
  refine List.countP_pos_iff.2 ⟨c, ?_, by simpa using apart⟩
  exact List.mem_filterMap.2 ⟨some c, List.mem_flatMap.2 ⟨piece, member, marked⟩, rfl⟩

/-- Tokens, each with the pieces that stand in front of it. -/
def laidOut (chain : List (List Piece × Token)) : List Piece :=
  chain.flatMap fun link => link.1 ++ [.token link.2]

/-- The text of tokens with what stands in front of each, white space and comments made one
space. -/
def condensed (chain : List (List Piece × Token)) : List Char :=
  chain.flatMap fun link => between link.1 ++ link.2.text.toList

/-- The text of tokens with a space in front of each that has something before it. -/
def spread (chain : List (List Piece × Token)) : List Char :=
  chain.flatMap fun link =>
    (if textOf link.1 = [] then [] else [' ']) ++ link.2.text.toList

section Chains

variable {chain : List (List Piece × Token)}

@[simp] theorem laidOut_cons (gap : List Piece) (token : Token) :
    laidOut ((gap, token) :: chain) = gap ++ .token token :: laidOut chain := by
  simp [laidOut]

theorem condensed_cons (link : List Piece × Token) : condensed (link :: chain) =
    between link.1 ++ link.2.text.toList ++ condensed chain := rfl

theorem spread_cons (link : List Piece × Token) : spread (link :: chain) =
    (if textOf link.1 = [] then [] else [' ']) ++ link.2.text.toList ++ spread chain := rfl

theorem condensed_of_isSpace (space : ∀ link ∈ chain, ∀ piece ∈ link.1, piece.IsSpace) :
    condensed chain = spread chain := by
  induction chain with
  | nil => rfl
  | cons link chain ih =>
    have rest := ih fun other member => space other (List.mem_cons_of_mem _ member)
    rw [condensed_cons, spread_cons, rest, between_of_isSpace (space link List.mem_cons_self)]

/-- Where something visible stands between the tokens, a space in its place is not enough. -/
theorem weight_spread (dropped : ∀ link ∈ chain, ∀ piece ∈ link.1, piece.kept? = none)
    (visible : ∀ link ∈ chain, ∀ piece ∈ link.1, ∀ s, piece = .skipped s → s.Visible) :
    weight (spread chain) ≤ weight (condensed chain) ∧
      ((¬ ∀ link ∈ chain, ∀ piece ∈ link.1, piece.IsSpace) →
        weight (spread chain) < weight (condensed chain)) := by
  induction chain with
  | nil => simp [spread, condensed]
  | cons link chain ih =>
    obtain ⟨le, lt⟩ := ih (fun other member => dropped other (List.mem_cons_of_mem _ member))
      fun other member => visible other (List.mem_cons_of_mem _ member)
    have blank : weight (if textOf link.1 = [] then [] else [' ']) = 0 := by
      split <;> rfl
    have front : weight (spread (link :: chain)) =
        weight link.2.text.toList + weight (spread chain) := by
      rw [spread_cons, weight_append, weight_append, blank, Nat.zero_add]
    have back : weight (condensed (link :: chain)) =
        weight (between link.1) + weight link.2.text.toList + weight (condensed chain) := by
      rw [condensed_cons, weight_append, weight_append]
    rw [front, back]
    refine ⟨by omega, fun lost => ?_⟩
    by_cases here : ∀ piece ∈ link.1, piece.IsSpace
    · have later := lt fun space => lost fun other member => by
        rcases List.mem_cons.1 member with rfl | member
        · exact here
        · exact space other member
      omega
    · simp only [not_forall] at here
      obtain ⟨piece, member, other⟩ := here
      have := weight_between_pos member (dropped link List.mem_cons_self piece member)
        (visible link List.mem_cons_self piece member) other
      omega

/-- Tokens that are kept stand in a chain. -/
theorem exists_chain {pieces : List Piece} {tokens more : List Token}
    (kept : pieces.filterMap Piece.kept? = tokens ++ more) :
    ∃ chain back, pieces = laidOut chain ++ back ∧ chain.map Prod.snd = tokens ∧
      (∀ link ∈ chain, ∀ piece ∈ link.1, piece.kept? = none) ∧
      back.filterMap Piece.kept? = more := by
  induction tokens generalizing pieces with
  | nil => exact ⟨[], pieces, rfl, rfl, by simp, kept⟩
  | cons token tokens ih =>
    obtain ⟨gap, piece, rest, rfl, dropped, found, behind⟩ := List.filterMap_eq_cons_iff.1 kept
    obtain ⟨chain, back, rfl, rfl, gaps, after⟩ := ih behind
    obtain ⟨rfl, -⟩ := Piece.kept?_eq_some found
    exact ⟨(gap, token) :: chain, back, by simp, rfl, List.forall_mem_cons.2 ⟨dropped, gaps⟩, after⟩

/-- Tokens in a chain are adjacent where nothing stands between them. -/
theorem spaced_eq_spread {front back : List Piece} {first : Token}
    (stands : ∀ before piece after, front ++ .token first :: (laidOut chain ++ back) =
      before ++ piece :: after → piece.Stands (textOf before)) :
    first.spaced (chain.map Prod.snd) = String.ofList (spread chain) := by
  induction chain generalizing front first with
  | nil => rfl
  | cons link chain ih =>
    obtain ⟨gap, token⟩ := link
    have split : front ++ .token first :: (laidOut ((gap, token) :: chain) ++ back) =
        (front ++ .token first :: gap) ++ .token token :: (laidOut chain ++ back) := by
      simp
    have rest : token.spaced (chain.map Prod.snd) = String.ofList (spread chain) :=
      ih fun before piece after same => stands before piece after (split.trans same)
    have here : first.Behind (textOf front) := (stands front _ _ rfl).2
    have next : token.Behind (textOf (front ++ .token first :: gap)) := (stands _ _ _ split).2
    have start : token.span.start = first.span.stop + byteLength (textOf gap) := by
      rw [next.start, here.stop, textOf_append, byteLength_append, Nat.add_assoc]
      congr 1
      exact byteLength_append _ _
    have apart : token.span.start = first.span.stop ↔ textOf gap = [] := by
      rw [start, ← byteLength_eq_zero]
      omega
    rw [List.map_cons, Token.spaced, rest, spread_cons, String.ofList_append,
      String.ofList_append, String.ofList_toList]
    by_cases empty : textOf gap = []
    · rw [if_pos (apart.2 empty), if_pos empty]
    · rw [if_neg (mt apart.1 empty), if_neg empty]

end Chains

variable {source : String} {stream : TokenStream}

theorem exists_cutInto (tokenizes : ofSource source = .ok stream) :
    ∃ pieces, stream.CutInto source pieces := by
  obtain ⟨p, steps, rfl⟩ := exists_reads tokenizes
  obtain ⟨pieces, whole, covered⟩ := steps.covers covered_start
  rw [List.nil_append] at covered
  exact ⟨pieces, whole, by rw [List.dropLast_concat, covered.tokens], covered.skipped,
    covered.stands⟩

/-- What is parsed of a source are the tokens of its pieces that are kept, and its end. -/
theorem CutInto.parsed {pieces : List Piece} (cut : stream.CutInto source pieces)
    (tokenizes : ofSource source = .ok stream) (options : ParseOptions) :
    ∃ last, last.kind = .eof ∧ (ParseInput.ofTokens source stream.tokens options).tokens.toList =
      pieces.filterMap Piece.kept? ++ [last] := by
  have kept := ParseInput.tokens_ofSource tokenizes options
  obtain ⟨p, -, rfl⟩ := exists_reads tokenizes
  have tokens := cut.tokens
  rw [List.dropLast_concat] at tokens
  have eof : p.endToken.kind = .eof := rfl
  refine ⟨p.endToken, eof, ?_⟩
  rw [kept, List.filter_append, tokens, List.filter_filterMap]
  have ends : [p.endToken].filter (fun token => !token.kind.isPlainComment) = [p.endToken] := by
    simp [eof, TokenKind.isPlainComment]
  rw [ends]
  congr 2
  funext piece
  cases piece with
  | token t => cases plain : t.kind.isPlainComment <;> simp [Piece.token?, Piece.kept?, plain]
  | blank | skipped => rfl

/-- The tokens from one among those that are parsed up to the next brace: the first, and each
further one with the pieces in front of it. -/
structure UpToBrace (stream : TokenStream) (source : String) (cursor : Nat) (first : Token)
    (chain : List (List Piece × Token)) : Prop where
  pieces : ∃ front back brace,
    stream.CutInto source (front ++ .token first :: (laidOut chain ++ back)) ∧
    (front.filterMap Piece.kept?).length = cursor ∧
    (back.filterMap Piece.kept?).head? = some brace ∧ brace.kind = .leftBrace
  tokens : ∀ token ∈ first :: chain.map Prod.snd,
    token.kind ≠ .leftBrace ∧ token.kind.isPlainComment = false
  gaps : ∀ link ∈ chain, ∀ piece ∈ link.1, piece.kept? = none

variable {cursor : Nat} {first : Token}

theorem UpToBrace.visible {chain : List (List Piece × Token)}
    (h : UpToBrace stream source cursor first chain) (tokenizes : ofSource source = .ok stream) :
    ∀ link ∈ chain, ∀ piece ∈ link.1, ∀ s, piece = .skipped s → s.Visible := by
  rintro link inside piece member s rfl
  obtain ⟨front, back, brace, cut, -⟩ := h.pieces
  refine (opened_ofSource tokenizes).2 s ?_
  rw [cut.skipped]
  refine List.mem_filterMap.2 ⟨.skipped s, ?_, rfl⟩
  have linked : .skipped s ∈ laidOut chain :=
    List.mem_flatMap.2 ⟨link, inside, List.mem_append_left _ member⟩
  simp [linked]

theorem UpToBrace.spaced {chain : List (List Piece × Token)}
    (h : UpToBrace stream source cursor first chain) :
    first.spaced (chain.map Prod.snd) = String.ofList (spread chain) := by
  obtain ⟨front, back, brace, cut, -⟩ := h.pieces
  exact spaced_eq_spread cut.stands

/-- Tokens that are parsed one behind the other up to a brace are found among the pieces. -/
theorem exists_upToBrace (tokenizes : ofSource source = .ok stream) (options : ParseOptions)
    {brace : Token} {rest after : List Token}
    (tokens : (ParseInput.ofTokens source stream.tokens options).tokens.toList.drop cursor =
      first :: (rest ++ brace :: after))
    (opens : brace.kind = .leftBrace) (inner : ∀ token ∈ first :: rest, token.kind ≠ .leftBrace) :
    ∃ chain, UpToBrace stream source cursor first chain ∧ chain.map Prod.snd = rest := by
  obtain ⟨pieces, cut⟩ := exists_cutInto tokenizes
  obtain ⟨last, eof, parsed⟩ := cut.parsed tokenizes options
  rw [parsed] at tokens
  have whole := List.take_append_drop cursor (pieces.filterMap Piece.kept? ++ [last])
  rw [tokens] at whole
  -- the brace is not the end of the source, so the end stands behind it
  rcases after.eq_nil_or_concat with rfl | ⟨later, final, rfl⟩
  · rw [← List.cons_append, ← List.append_assoc] at whole
    have same := (List.append_inj' whole rfl).2
    cases same
    rw [eof] at opens
    cases opens
  have length : (List.take cursor (pieces.filterMap Piece.kept? ++ [last])).length = cursor := by
    have more : 0 < (List.drop cursor (pieces.filterMap Piece.kept? ++ [last])).length := by
      rw [tokens]
      simp
    rw [List.length_drop] at more
    rw [List.length_take]
    omega
  generalize (pieces.filterMap Piece.kept? ++ [last]).take cursor = before at whole length
  have kept : pieces.filterMap Piece.kept? = before ++ (first :: (rest ++ brace :: later)) := by
    rw [List.concat_eq_append, ← List.cons_append, ← List.append_assoc, ← List.cons_append,
      ← List.append_assoc] at whole
    rw [← (List.append_inj' whole rfl).1, List.append_assoc, List.cons_append]
  have plain : ∀ token ∈ first :: rest, token.kind.isPlainComment = false := by
    intro token member
    have among : token ∈ pieces.filterMap Piece.kept? := by
      rw [kept, ← List.cons_append]
      exact List.mem_append_right _ (List.mem_append_left _ member)
    obtain ⟨piece, -, found⟩ := List.mem_filterMap.1 among
    exact (Piece.kept?_eq_some found).2
  obtain ⟨front, other, rfl, taken, behind⟩ := List.filterMap_eq_append_iff.1 kept
  obtain ⟨gap, piece, others, rfl, dropped, found, between⟩ := List.filterMap_eq_cons_iff.1 behind
  obtain ⟨rfl, -⟩ := Piece.kept?_eq_some found
  obtain ⟨chain, back, rfl, rfl, gaps, closing⟩ := exists_chain between
  refine ⟨chain, ⟨⟨front ++ gap, back, brace, ?_, ?_, ?_, opens⟩, ?_, gaps⟩, rfl⟩
  · rw [List.append_assoc]
    exact cut
  · rw [List.filterMap_append, List.filterMap_eq_nil_iff.2 dropped, List.append_nil, taken, length]
  · rw [closing]
    rfl
  · exact fun token member => ⟨inner token member, plain token member⟩

end TokenStream

theorem Selector.toText_eq_condensed_iff {selector : Selector} {first : Token}
    {chain : List (List TokenStream.Piece × Token)}
    (joined : selector.joined = first.text ++ String.ofList (TokenStream.spread chain))
    (gaps : ∀ link ∈ chain, ∀ piece ∈ link.1, piece.kept? = none)
    (visible : ∀ link ∈ chain, ∀ piece ∈ link.1, ∀ s, piece = .skipped s → s.Visible) :
    selector.toText = String.ofList (first.text.toList ++ TokenStream.condensed chain) ↔
        (∀ link ∈ chain, ∀ piece ∈ link.1, piece.IsSpace) ∧
        (∀ c ∈ (first.text.toList ++ TokenStream.condensed chain).head?,
          Text.isWhiteSpace c = false) ∧
        ∀ c ∈ (first.text.toList ++ TokenStream.condensed chain).getLast?,
          Text.isWhiteSpace c = false := by
  have parts : selector.joined.toList = first.text.toList ++ TokenStream.spread chain := by
    rw [joined, String.toList_append, String.toList_ofList]
  rw [toText_eq, Text.trim, String.ofList_inj, parts]
  by_cases space : ∀ link ∈ chain, ∀ piece ∈ link.1, piece.IsSpace
  · rw [TokenStream.condensed_of_isSpace space, Text.trimBoth_eq_self]
    exact (and_iff_right space).symm
  · refine iff_of_false (fun same => ?_) fun h => space h.1
    have less := (TokenStream.weight_spread gaps visible).2 space
    have trimmed : TokenStream.weight (Text.trimBoth (first.text.toList ++ TokenStream.spread chain)) ≤
        TokenStream.weight (first.text.toList ++ TokenStream.spread chain) :=
      (Text.trimBoth_sublist _).countP_le
    rw [same, TokenStream.weight_append, TokenStream.weight_append] at trimmed
    omega

namespace Parse
open TokenStream

/-- The text of the selector of a rule is its source, from its first token to its last, with every
run of white space and comments between them made one space, exactly where all that stands
between its tokens is white space and comments and neither end of the text is white space. What
reading skipped inside a selector is lost, a byte order mark between tokens is lost with the white
space, and white space of a kind that is taken into names is lost at both ends. -/
theorem styleRule_toText_iff {source : String} {stream : TokenStream}
    (tokenizes : TokenStream.ofSource source = .ok stream) (options : ParseOptions)
    {s s' : ParseState} {selector : Selector} {items : List StyleItem}
    (run : styleRule (ParseInput.ofTokens source stream.tokens options) s =
      .ok (.rule selector items) s') :
    ∃ first chain, UpToBrace stream source s.cursor first chain ∧
      (selector.toText = String.ofList (first.text.toList ++ condensed chain) ↔
        (∀ link ∈ chain, ∀ piece ∈ link.1, piece.IsSpace) ∧
        (∀ c ∈ (first.text.toList ++ condensed chain).head?, Text.isWhiteSpace c = false) ∧
        ∀ c ∈ (first.text.toList ++ condensed chain).getLast?, Text.isWhiteSpace c = false) := by
  have laid := ParseInput.laid_ofSource tokenizes options
  have spelled : ∀ token ∈ (ParseInput.ofTokens source stream.tokens options).tokens,
      token.Spelled source.toList := by
    intro token member
    rw [← Array.mem_toList_iff, ParseInput.tokens_ofSource tokenizes options] at member
    have there := (List.mem_filter.1 member).1
    exact ⟨(opened_ofSource tokenizes).1 token there,
      (located_ofSource tokenizes token there).text⟩
  obtain ⟨first, rest, brace, after, tokens, opens, inner, joined⟩ :=
    styleRule_spaced laid spelled run
  have plain : ∀ token ∈ first :: rest, token.kind ≠ .leftBrace := by
    intro token member opening
    have goes := inner token member
    rw [opening] at goes
    cases goes
  obtain ⟨chain, upTo, rfl⟩ := exists_upToBrace tokenizes options tokens opens plain
  rw [upTo.spaced] at joined
  exact ⟨first, chain, upTo,
    Selector.toText_eq_condensed_iff joined upTo.gaps (upTo.visible tokenizes)⟩

/-- An attribute selector loses its bracket and the name behind it. -/
theorem styleRule_toText_attribute :
    let source := "a[href=\"x\"] \x7b\x7d"
    ∃ stream selector items s', TokenStream.ofSource source = .ok stream ∧
      styleRule (ParseInput.ofTokens source stream.tokens {}) {} =
        .ok (.rule selector items) s' ∧
      selector.toText = "a =\"x\"]" ∧ stream.skipped.map (·.text) = ["[href"] ∧
      ∃ first chain, UpToBrace stream source 0 first chain ∧
        (selector.toText = String.ofList (first.text.toList ++ condensed chain) ↔
          (∀ link ∈ chain, ∀ piece ∈ link.1, piece.IsSpace) ∧
          (∀ c ∈ (first.text.toList ++ condensed chain).head?, Text.isWhiteSpace c = false) ∧
          ∀ c ∈ (first.text.toList ++ condensed chain).getLast?, Text.isWhiteSpace c = false) := by
  intro source
  have facts : (TokenStream.ofSource source).toOption.map (fun stream =>
      (stream.skipped.map (·.text), ((valueOf? (styleRule
        (ParseInput.ofTokens source stream.tokens {}) {})).bind
          StyleItem.selector?).map Selector.toText)) = some (["[href"], some "a =\"x\"]") := by
    decide +kernel
  obtain ⟨stream, tokens, same⟩ := Option.map_eq_some_iff.1 facts
  obtain ⟨skipped, shown⟩ := Prod.mk.inj same
  obtain ⟨selector, found, text⟩ := Option.map_eq_some_iff.1 shown
  obtain ⟨item, ended, rule⟩ := Option.bind_eq_some_iff.1 found
  have tokenizes := TokenStream.ofSource_of_toOption tokens
  obtain ⟨s', run⟩ := eq_ok_of_valueOf? ended
  cases item with
  | rule other items =>
    cases rule
    exact ⟨stream, selector, items, s', tokenizes, run, text, skipped,
      styleRule_toText_iff tokenizes {} run⟩
  | property | usage | raw => cases rule

end Parse

end TemplateMarkup
