import Mathlib.Data.List.TakeWhile
import TemplateMarkup.Proofs.OriginContents
import TemplateMarkup.Proofs.WritingLimits

/-! Comments that go into the markup. Their text is written without escapes, so that a comment ends
where its text says so. -/
namespace TemplateMarkup

namespace Text

/-- Some text that is not white space. -/
structure IsSolid (text : List Char) : Prop where
  some : text ≠ []
  solid : ∀ c ∈ text, isWhiteSpace c = false

theorem IsSolid.reverse {text : List Char} (solid : IsSolid text) : IsSolid text.reverse :=
  ⟨by simpa using solid.some, fun c member => solid.solid c (List.mem_reverse.1 member)⟩

/-- White space in front makes no difference to where a text is found. -/
theorem IsSolid.infix_behind {text blank cs : List Char} (solid : IsSolid text)
    (white : ∀ c ∈ blank, isWhiteSpace c = true) : text <:+: blank ++ cs ↔ text <:+: cs := by
  induction blank with
  | nil => rfl
  | cons c blank ih =>
    rw [List.cons_append, List.infix_cons_iff, ih fun d member => white d (.tail _ member)]
    refine or_iff_right fun starts => ?_
    obtain ⟨d, rest, rfl⟩ := List.exists_cons_of_ne_nil solid.some
    obtain ⟨rfl, -⟩ := List.cons_prefix_cons.1 starts
    have visible := solid.solid d (.head _)
    rw [white d (.head _)] at visible
    cases visible

theorem IsSolid.infix_between {text front cs back : List Char} (solid : IsSolid text)
    (white : ∀ c ∈ front, isWhiteSpace c = true) (white' : ∀ c ∈ back, isWhiteSpace c = true) :
    text <:+: front ++ cs ++ back ↔ text <:+: cs := by
  rw [List.append_assoc, solid.infix_behind white, ← List.reverse_infix, List.reverse_append,
    solid.reverse.infix_behind fun c member => white' c (List.mem_reverse.1 member),
    List.reverse_infix]

theorem exists_trimBoth (cs : List Char) : ∃ front back, cs = front ++ trimBoth cs ++ back ∧
    (∀ c ∈ front, isWhiteSpace c = true) ∧ ∀ c ∈ back, isWhiteSpace c = true := by
  refine ⟨cs.takeWhile isWhiteSpace, ((trimFront cs).reverse.takeWhile isWhiteSpace).reverse,
    ?_, fun c member => List.mem_takeWhile_imp member,
    fun c member => List.mem_takeWhile_imp (List.mem_reverse.1 member)⟩
  rw [List.append_assoc, trimBoth, trimBack, ← List.reverse_append, List.takeWhile_append_dropWhile,
    List.reverse_reverse, trimFront, List.takeWhile_append_dropWhile]

theorem IsSolid.infix_trimBoth {text : List Char} (solid : IsSolid text) (cs : List Char) :
    text <:+: trimBoth cs ↔ text <:+: cs := by
  obtain ⟨front, back, same, white, white'⟩ := exists_trimBoth cs
  rw [same, solid.infix_between white white', ← same]

end Text

namespace Markup

/-- What ends a comment in the markup. -/
def commentEnd : List Char := "-->".toList

theorem isSolid_commentEnd : Text.IsSolid commentEnd := by
  have solid : commentEnd.all (fun c => !Text.isWhiteSpace c) = true := by decide
  exact ⟨by decide, fun c member => by simpa using List.all_eq_true.1 solid c member⟩

/-- What is written between the marks of a comment. -/
def commentBody (content : String) : String := " " ++ Text.trim content ++ " "

theorem comment_eq (content : String) :
    comment content = "<!--" ++ commentBody content ++ "-->" := by
  simp [comment, commentBody, ← String.toList_inj]

/-- A comment for the markup ends early exactly if its text behind its hyphens says so. -/
theorem commentEnd_infix_body (text : String) :
    commentEnd <:+: (commentBody (Parse.commentText text)).toList ↔
      commentEnd <:+: text.toList.dropWhile (· == '-') := by
  rw [commentBody, Parse.commentText, String.toList_append, String.toList_append,
    isSolid_commentEnd.infix_between (List.all_eq_true.1 rfl) (List.all_eq_true.1 rfl), Text.trim,
    String.toList_ofList,
    isSolid_commentEnd.infix_trimBoth, Text.trim, String.toList_ofList,
    isSolid_commentEnd.infix_trimBoth, String.toList_ofList]

end Markup

theorem Node.comment?_eq_some {node : Node} {content : String} {span : Span} :
    node.comment? = some (content, span) ↔
      node.kind = .comment ∧ node.content = content ∧ node.span = span := by
  unfold Node.comment?
  split
  · next kind => simp [kind]
  · next other => exact iff_of_false (by simp) fun comment => other comment.1

theorem ParseInput.token_mem_all (input : ParseInput) (index : Nat) :
    input.token index ∈ input.tokens := by
  have nonempty := input.nonempty
  rcases Nat.lt_or_ge index input.tokens.size with inside | past
  · exact token_mem inside
  · rw [token_of_size_le past]
    exact token_mem (by omega)

namespace Write

variable {document : Document} {hosts : List Host} {v : Visit} {outer : List Visit} {node : Node}

theorem Moment.comment (sound : document.Sound hosts []) (moment : Moment document (v :: outer))
    (here : v.state.document.forest.get? v.id = some node) (kind : node.kind = .comment) :
    ∃ id old, document.forest.get? id = some old ∧ old.kind = .comment ∧
      old.content = node.content ∧ old.span = node.span := by
  obtain ⟨_, _, same, tracked⟩ := moment.tracked sound
  cases same
  obtain ⟨_, _, _, _, _, _, _, queued⟩ := tracked.queued
  obtain ⟨slot, there, rfl⟩ := Option.map_eq_some_iff.1 here
  have brought := (queued.fits v.id (.head _)).here queued.ready.grown there
  obtain ⟨id, old, found, comment⟩ := brought.comment (slot.node.content, slot.node.span)
    (by simp [Node.comment?, kind])
  exact ⟨id, old, found, Node.comment?_eq_some.1 comment⟩

/-- Nothing forbids a comment, and writing it gathers nothing. -/
theorem Visit.step_comment (here : v.state.document.forest.get? v.id = some node)
    (kind : node.kind = .comment) : v.step = .done (Markup.comment node.content) v.state := by
  have allowed : violation? v.state.document.symbols v.around.ban node = none := by
    unfold violation?
    cases v.around.ban with
    | none => rfl
    | some ban =>
      have none : ban.targets.find? (fun target => forbids v.state.document.symbols target node) =
          none := by
        refine List.find?_eq_none.2 fun target _ => ?_
        cases target <;> simp [forbids, kind]
      simp [none]
  unfold Visit.step
  rw [here]
  dsimp only
  rw [allowed]
  simp only [allowedStep, kind, allowedNode]
  rfl

end Write

open Write in
/-- A comment in the markup is what stands in a comment of the source behind the hyphens, trimmed,
between the marks. It is not escaped, so there is an end mark in it exactly if there is one in the
source. -/
theorem WriteResult.comment_ends_early_iff {source : String} {stream : TokenStream}
    (tokenizes : TokenStream.ofSource source = .ok stream) (config : Config)
    (options : ParseOptions) :
    let document := (ParseResult.ofTokens source stream.tokens { config } options).document
    ∀ v outer node, Moment document (v :: outer) →
      v.state.document.forest.get? v.id = some node → node.kind = .comment →
      ∃ token ∈ stream.tokens, token.kind = .comment .generator ∧ node.span = token.span ∧
        let body := Markup.commentBody (Parse.commentText token.text)
        v.step = .done ("<!--" ++ body ++ "-->") v.state ∧
          (Markup.commentEnd <:+: body.toList ↔
            Markup.commentEnd <:+: token.text.toList.dropWhile (· == '-')) := by
  intro document v outer node moment here kind
  have sound : document.Sound [Forest.root] [] :=
    ParseResult.sound_ofTokens source stream.tokens config options
  obtain ⟨id, old, found, kind', content, span⟩ := moment.comment sound here kind
  obtain ⟨index, generator, text, place⟩ :=
    ParseResult.commented source stream.tokens options config id old found kind'
  have member := ParseInput.token_mem_all (ParseInput.ofTokens source stream.tokens options) index
  rw [← Array.mem_toList_iff, ParseInput.tokens_ofSource tokenizes options] at member
  refine ⟨_, (List.mem_filter.1 member).1, generator, span.symm.trans place, ?_,
    Markup.commentEnd_infix_body _⟩
  rw [Visit.step_comment here kind, Markup.comment_eq, ← content, text]

open Write in
/-- An arrow in a comment ends it. -/
theorem WriteResult.comment_ends_early_arrow :
    let source := "-- a --> b"
    ∃ stream, TokenStream.ofSource source = .ok stream ∧
      let document := (ParseResult.ofTokens source stream.tokens {} {}).document
      ∃ v node body, Moment document [v] ∧ v.state.document.forest.get? v.id = some node ∧
        node.kind = .comment ∧ v.step = .done ("<!--" ++ body ++ "-->") v.state ∧
        body = " a --> b " ∧ Markup.commentEnd <:+: body.toList := by
  intro source
  have run : (TokenStream.ofSource source).toOption.bind (fun stream =>
      let document := (ParseResult.ofTokens source stream.tokens {} {}).document
      (document.forest.get? ⟨1⟩).map fun node =>
        (document.forest.children Forest.root, node.comment?.isSome,
          (stream.tokens.filter (·.kind == .comment .generator)).map Token.text)) =
      some ([⟨1⟩], true, ["-- a --> b"]) := by decide +kernel
  obtain ⟨stream, tokens, run⟩ := Option.bind_eq_some_iff.1 run
  obtain ⟨node, found, run⟩ := Option.map_eq_some_iff.1 run
  have tokenizes := TokenStream.ofSource_of_toOption tokens
  simp only [Prod.mk.injEq] at run
  obtain ⟨children, isComment, texts⟩ := run
  obtain ⟨comment, same⟩ := Option.isSome_iff_exists.1 isComment
  have kind := (Node.comment?_eq_some.1 same).1
  have split : _ = [] ++ (⟨1⟩ : NodeId) :: [] := children
  have moment := Moment.top split .nil
  obtain ⟨token, member, generator, -, written, early⟩ :=
    WriteResult.comment_ends_early_iff tokenizes {} {} _ _ node moment found kind
  have text : token.text = "-- a --> b" := by
    have kept : token.text ∈ ["-- a --> b"] := by
      rw [← texts]
      exact List.mem_map_of_mem (List.mem_filter.2 ⟨member, by simp [generator]⟩)
    simpa using kept
  rw [text] at written early
  refine ⟨stream, tokenizes, _, node, _, moment, found, kind, written, by decide +kernel,
    early.2 ?_⟩
  decide +kernel

end TemplateMarkup
