import TemplateMarkup.Proofs.TokenPlaces

/-! A source is its tokens, its white space and its skipped texts, one behind the other, and every
token and every skipped text knows where it stands. -/
namespace TemplateMarkup

namespace Place
open SourceText

/-- The end of a text after its last line feed. -/
def lastLine (cs : List Char) : List Char := (cs.reverse.takeWhile (· ≠ '\n')).reverse

/-- The place that a text leads to from the start of a source. -/
structure Follows (before : List Char) (place : Place) : Prop where
  offset : place.offset = byteLength before
  line : place.line = 1 + before.count '\n'
  column : place.column = 1 + (lastLine before).length

theorem Follows.next {before : List Char} {place : Place} (h : Follows before place) (c : Char) :
    Follows (before ++ [c]) (place.next c) := by
  unfold Place.next
  split
  · rename_i feed
    subst feed
    refine ⟨?_, ?_, ?_⟩
    · rw [byteLength_append, h.offset]
      rfl
    · rw [List.count_append, List.count_singleton_self, h.line]
      exact Nat.add_assoc ..
    · simp [lastLine]
  · rename_i other
    refine ⟨?_, ?_, ?_⟩
    · rw [byteLength_append, h.offset]
      rfl
    · simp [List.count_append, h.line, other]
    · simp only [h.column, lastLine, List.reverse_append, List.reverse_singleton,
        List.singleton_append, List.length_reverse]
      rw [List.takeWhile_cons_of_pos (by simpa using other), List.length_cons]
      exact Nat.add_assoc ..

theorem Follows.after {before : List Char} {place : Place} (h : Follows before place)
    (cs : List Char) : Follows (before ++ cs) (place.after cs) := by
  induction cs generalizing before place with
  | nil =>
    rw [List.append_nil]
    exact h
  | cons c cs ih =>
    have step := ih (h.next c)
    rwa [List.append_assoc, List.singleton_append] at step

end Place

section Tokens
open SourceText

/-- The span that a token has to have where `before` stands in front of it. -/
structure Token.Behind (before : List Char) (token : Token) : Prop where
  start : token.span.start = byteLength before
  stop : token.span.stop = byteLength before + byteLength token.text.toList
  line : token.span.line = 1 + before.count '\n'
  column : token.span.column = 1 + (Place.lastLine before).length

theorem Place.Follows.behind {before : List Char} {place : Place} (h : Place.Follows before place)
    (kind : TokenKind) (text : List Char) :
    Token.Behind before ⟨kind, String.ofList text, place.spanOf text⟩ where
  start := h.offset
  stop := by
    rw [String.toList_ofList, ← byteLength_append]
    exact (h.after text).offset
  line := h.line
  column := h.column

/-- A token is the slice of the source that its span gives, and its line and column are those at
which the slice starts. -/
structure Token.Located (source : List Char) (token : Token) : Prop where
  text : slice? source token.span.start token.span.stop = some token.text
  place : ∃ before, slice? source 0 token.span.start = some before ∧
    token.span.line = 1 + before.toList.count '\n' ∧
    token.span.column = 1 + (Place.lastLine before.toList).length

theorem Token.Behind.located {before back source : List Char} {token : Token}
    (h : Token.Behind before token) (split : source = before ++ token.text.toList ++ back) :
    token.Located source := by
  subst split
  refine ⟨?_, String.ofList before, ?_, ?_, ?_⟩
  · rw [h.start, h.stop, slice?_append, String.ofList_toList]
  · have front := slice?_append [] before (token.text.toList ++ back)
    rw [h.start, List.append_assoc]
    simpa using front
  · rw [String.toList_ofList, h.line]
  · rw [String.toList_ofList, h.column]

end Tokens

namespace TokenStream
open SourceText

/-- A stretch of a source that reading takes in one step. -/
inductive Piece
  | token (token : Token)
  | blank (text : List Char)
  | skipped (skipped : SkippedText)

namespace Piece

def chars : Piece → List Char
  | token t => t.text.toList
  | blank text => text
  | skipped s => s.text.toList

def token? : Piece → Option Token
  | token t => some t
  | _ => none

def skipped? : Piece → Option SkippedText
  | skipped s => some s
  | _ => none

/-- What a piece has to be where `before` stands in front of it. -/
def Stands (before : List Char) : Piece → Prop
  | token t => t.kind ≠ .eof ∧ t.Behind before
  | blank text => ∀ c ∈ text, c ∈ [' ', '\t', '\n', '\r', Char.ofNat 0x0C, Char.ofNat 0xFEFF]
  | skipped s => s.line = 1 + before.count '\n' ∧ s.column = 1 + (Place.lastLine before).length ∧
      s.message = "line " ++ toString s.line ++ ", column " ++ toString s.column ++ ": " ++
        "skipped unexpected character " ++ Text.quote s.text

end Piece

/-- The text of some pieces. -/
def textOf (pieces : List Piece) : List Char := pieces.flatMap Piece.chars

@[simp] theorem textOf_append (pieces pieces' : List Piece) :
    textOf (pieces ++ pieces') = textOf pieces ++ textOf pieces' :=
  List.flatMap_append

@[simp] theorem textOf_singleton (piece : Piece) : textOf [piece] = piece.chars := by
  simp [textOf]

/-- The pieces that have been read, and what has come of them. -/
structure Covered (pieces : List Piece) (p : Progress) : Prop where
  place : Place.Follows (textOf pieces) p.place
  tokens : p.tokens.reverse = pieces.filterMap Piece.token?
  skipped : p.skipped.reverse = pieces.filterMap Piece.skipped?
  stands : ∀ front piece back, pieces = front ++ piece :: back → piece.Stands (textOf front)

theorem covered_start : Covered [] {} where
  place := ⟨rfl, rfl, rfl⟩
  tokens := rfl
  skipped := rfl
  stands front piece back h := by simp at h

variable {pieces : List Piece} {p p' : Progress} {text cs : List Char}

/-- One more piece stands well if it does behind all the others. -/
theorem Covered.stands_concat (h : Covered pieces p) {last : Piece}
    (new : last.Stands (textOf pieces)) (front : List Piece) (piece : Piece) (back : List Piece)
    (split : pieces ++ [last] = front ++ piece :: back) : piece.Stands (textOf front) := by
  rcases back.eq_nil_or_concat with rfl | ⟨back, other, rfl⟩
  · obtain ⟨rfl, same⟩ := List.append_inj' split rfl
    cases same
    exact new
  · rw [List.concat_eq_append, ← List.cons_append, ← List.append_assoc] at split
    exact h.stands front piece back (List.append_inj' split rfl).1

theorem isSkipped_iff {c : Char} : Lexeme.isSkipped c = true ↔
    c ∈ [' ', '\t', '\n', '\r', Char.ofNat 0x0C, Char.ofNat 0xFEFF] := by
  simp [Lexeme.isSkipped, Lexeme.byteOrderMark, or_assoc]

theorem Covered.pass (h : Covered pieces p) (blank : ∀ c ∈ text, Lexeme.isSkipped c) :
    Covered (pieces ++ [.blank text]) (p.pass text) where
  place := by
    rw [textOf_append, textOf_singleton]
    exact h.place.after text
  tokens := by simp [Progress.pass, Piece.token?, List.filterMap_cons, h.tokens]
  skipped := by simp [Progress.pass, Piece.skipped?, List.filterMap_cons, h.skipped]
  stands := h.stands_concat fun c member => isSkipped_iff.1 (blank c member)

theorem Covered.skip (h : Covered pieces p) (text : List Char) : ∃ s : SkippedText,
    s.text.toList = text ∧ Covered (pieces ++ [.skipped s]) (p.skip text) := by
  refine ⟨⟨String.ofList text, p.place.line, p.place.column⟩, String.toList_ofList, ?_, ?_, ?_, ?_⟩
  · rw [textOf_append, textOf_singleton, Piece.chars, String.toList_ofList]
    exact h.place.after text
  · simp [Progress.skip, Piece.token?, List.filterMap_cons, h.tokens]
  · simp [Progress.skip, Piece.skipped?, h.skipped]
  · exact h.stands_concat ⟨h.place.line, h.place.column, rfl⟩

theorem Covered.push (h : Covered pieces p) {kind : TokenKind} (eof : kind ≠ .eof)
    (text : List Char) : ∃ token : Token, token.text.toList = text ∧
      Covered (pieces ++ [.token token]) (p.push kind text) := by
  refine ⟨⟨kind, String.ofList text, p.place.spanOf text⟩, String.toList_ofList, ?_, ?_, ?_, ?_⟩
  · rw [textOf_append, textOf_singleton, Piece.chars, String.toList_ofList]
    exact h.place.after text
  · simp [Progress.push, Piece.token?, h.tokens]
  · simp [Progress.push, Piece.skipped?, List.filterMap_cons, h.skipped]
  · exact h.stands_concat ⟨eof, h.place.behind kind text⟩

/-- Reading a text adds its pieces to those read before. -/
theorem Reads.covers (run : Reads cs p p') (h : Covered pieces p) :
    ∃ more, textOf more = cs ∧ Covered (pieces ++ more) p' := by
  induction run generalizing pieces with
  | done p => exact ⟨[], rfl, by simpa using h⟩
  | @pass text _ _ _ blank _ ih =>
    obtain ⟨more, rfl, covered⟩ := ih (h.pass blank)
    exact ⟨.blank text :: more, rfl, by simpa using covered⟩
  | @skip text _ _ _ _ ih =>
    obtain ⟨s, rfl, step⟩ := h.skip text
    obtain ⟨more, rfl, covered⟩ := ih step
    exact ⟨.skipped s :: more, rfl, by simpa using covered⟩
  | @push text _ _ _ kind eof _ _ ih =>
    obtain ⟨token, rfl, step⟩ := h.push eof text
    obtain ⟨more, rfl, covered⟩ := ih step
    exact ⟨.token token :: more, rfl, by simpa using covered⟩

/-- Every token that was read is one of the pieces. -/
theorem Covered.exists_piece (h : Covered pieces p) {token : Token} (member : token ∈ p.tokens) :
    ∃ front back, pieces = front ++ .token token :: back ∧ token.kind ≠ .eof ∧
      token.Behind (textOf front) := by
  rw [← List.mem_reverse, h.tokens] at member
  obtain ⟨piece, inside, same⟩ := List.mem_filterMap.1 member
  cases piece with
  | token t =>
    cases same
    obtain ⟨front, back, split⟩ := List.append_of_mem inside
    exact ⟨front, back, split, h.stands front _ back split⟩
  | blank | skipped => cases same

/-- Every token of a source is a slice of it, also the one at its end. -/
theorem located_ofSource {source : String} {stream : TokenStream}
    (tokenizes : ofSource source = .ok stream) :
    ∀ token ∈ stream.tokens, token.Located source.toList := by
  obtain ⟨p, steps, rfl⟩ := exists_reads tokenizes
  obtain ⟨pieces, whole, covered⟩ := steps.covers covered_start
  rw [List.nil_append] at covered
  intro token member
  rw [List.mem_append, List.mem_singleton, List.mem_reverse] at member
  rcases member with member | rfl
  · obtain ⟨front, back, split, _, behind⟩ := covered.exists_piece member
    have parts : source.toList = textOf front ++ token.text.toList ++ textOf back := by
      rw [← whole, split, textOf_append, List.append_assoc]
      rfl
    exact behind.located parts
  · have place := covered.place
    rw [whole] at place
    have parts : source.toList = source.toList ++ (String.ofList []).toList ++ [] := by simp
    exact (place.behind .eof []).located parts

/-- The tokens of a source are slices of it, in order; only the last is its end; and what lies
between them is white space and the skipped texts, each of which is reported once. -/
theorem ofSource_covers_source {source : String} {stream : TokenStream}
    (tokenizes : ofSource source = .ok stream) :
    (∃ front last, stream.tokens = front ++ [last] ∧ last.kind = .eof ∧
        last.span.start = byteLength source.toList ∧ last.span.stop = byteLength source.toList ∧
        ∀ token ∈ front, token.kind ≠ .eof) ∧
      (∀ token ∈ stream.tokens, token.Located source.toList) ∧
      stream.tokens.Pairwise (fun token later => token.span.stop ≤ later.span.start) ∧
      ∃ pieces, textOf pieces = source.toList ∧
        stream.tokens.dropLast = pieces.filterMap Piece.token? ∧
        stream.skipped = pieces.filterMap Piece.skipped? ∧
        ∀ front piece back, pieces = front ++ piece :: back → piece.Stands (textOf front) := by
  obtain ⟨p, steps, rfl⟩ := exists_reads tokenizes
  obtain ⟨pieces, whole, covered⟩ := steps.covers covered_start
  rw [List.nil_append] at covered
  have place := covered.place
  rw [whole] at place
  have eof := place.behind .eof []
  refine ⟨⟨p.tokens.reverse, _, rfl, rfl, eof.start, eof.stop, ?_⟩, located_ofSource tokenizes,
    steps.ordered, pieces, whole, ?_, covered.skipped, covered.stands⟩
  · intro token member
    obtain ⟨_, _, _, kind, _⟩ := covered.exists_piece (List.mem_reverse.1 member)
    exact kind
  · rw [List.dropLast_concat, covered.tokens]

theorem ofSource_covers_source_skipped : ∃ stream, ofSource "a\n [b é;" = .ok stream ∧
    stream.tokens.map (·.text) = ["a", "é", ";", ""] ∧ stream.skipped = [⟨"[b", 2, 2⟩] ∧
    (∀ token ∈ stream.tokens, token.Located "a\n [b é;".toList) ∧
    ∃ pieces, textOf pieces = "a\n [b é;".toList ∧
      pieces.filterMap Piece.skipped? = [⟨"[b", 2, 2⟩] := by
  have facts : (ofSource "a\n [b é;").toOption.map
      (fun stream => (stream.tokens.map (·.text), stream.skipped)) =
      some (["a", "é", ";", ""], [⟨"[b", 2, 2⟩]) := by
    decide +kernel
  cases run : ofSource "a\n [b é;" with
  | error e =>
    rw [run] at facts
    cases facts
  | ok stream =>
    rw [run] at facts
    have both := Option.some.inj facts
    obtain ⟨-, located, -, pieces, text, -, skipped, -⟩ := ofSource_covers_source run
    refine ⟨stream, rfl, (Prod.mk.inj both).1, (Prod.mk.inj both).2, located, pieces, text, ?_⟩
    rw [← skipped]
    exact (Prod.mk.inj both).2

end TokenStream

end TemplateMarkup
