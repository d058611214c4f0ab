import TemplateMarkup.Proofs.StringLiterals
import TemplateMarkup.Proofs.TokenPlaces
import TemplateMarkup.Tags

/-! The sources of plain nodes: texts, and elements that hold attributes and plain nodes and nothing
else. Reading a printed source gives the words it was printed with. -/
namespace TemplateMarkup

/-- An identifier of ASCII characters. -/
def isAsciiName (word : String) : Bool :=
  match word.toList with
  | [] => false
  | c :: cs => Lexeme.startsAsciiName c && cs.all Lexeme.isAsciiNamePart

/-- A name that is not a reserved word. -/
structure PlainName where
  word : String
  ascii : isAsciiName word = true
  free : Keyword.ofWord? word = none

inductive PlainNode
  | text (content : String)
  | element (tag : PlainName) (attributes : List (PlainName × String))
      (content : List PlainNode)

/-- Different names for the attributes of each element, nothing inside an element that has no
content, and at most so many elements in one another. -/
inductive PlainNode.Proper : Nat → PlainNode → Prop
  | text {levels : Nat} (content : String) : Proper levels (.text content)
  | element {levels : Nat} {tag : PlainName} {attributes : List (PlainName × String)}
      {content : List PlainNode} (distinct : (attributes.map fun a => a.1.word).Nodup)
      (single : Tags.isVoid tag.word → content = [])
      (inside : ∀ node ∈ content, Proper levels node) :
      Proper (levels + 1) (.element tag attributes content)

section Printing

/-- A character between quotes. -/
def quotedChar (c : Char) : List Char := if c = '"' ∨ c = '\\' then ['\\', c] else [c]

def quoted (text : String) : List Char := '"' :: (text.toList.flatMap quotedChar ++ ['"'])

def printedAttribute : PlainName × String → List Char
  | (name, value) => name.word.toList ++ ([':', ' '] ++ (quoted value ++ [';', ' ']))

mutual

/-- The source of a node. -/
def PlainNode.printed : PlainNode → List Char
  | .text content =>
    "text".toList ++ ([' ', '\x7b', ' '] ++ (quoted content ++ [' ', '\x7d', ' ']))
  | .element tag attributes content =>
    tag.word.toList ++ ([' ', '\x7b', ' '] ++ (attributes.flatMap printedAttribute
      ++ (PlainNode.printedAll content ++ ['\x7d', ' '])))

def PlainNode.printedAll : List PlainNode → List Char
  | [] => []
  | node :: nodes => node.printed ++ PlainNode.printedAll nodes

end

def attributeWords : PlainName × String → List (TokenKind × String)
  | (name, value) =>
    [(.identifier, name.word), (.colon, ":"), (.string value, String.ofList (quoted value)),
      (.semicolon, ";")]

mutual

/-- The words of the source, each with its kind. -/
def PlainNode.words : PlainNode → List (TokenKind × String)
  | .text content =>
    [(.keyword .text, "text"), (.leftBrace, "\x7b"),
      (.string content, String.ofList (quoted content)), (.rightBrace, "\x7d")]
  | .element tag attributes content =>
    (.identifier, tag.word) :: (.leftBrace, "\x7b") :: (attributes.flatMap attributeWords
      ++ (PlainNode.wordsAll content ++ [(.rightBrace, "\x7d")]))

def PlainNode.wordsAll : List PlainNode → List (TokenKind × String)
  | [] => []
  | node :: nodes => node.words ++ PlainNode.wordsAll nodes

end

end Printing

def Token.word (token : Token) : TokenKind × String := (token.kind, token.text)

/-- Neither an at word nor a comment. -/
def TokenKind.isSimple : TokenKind → Bool
  | .atWord _ => false
  | .comment _ => false
  | _ => true

namespace Lexeme

/-- A text is one token where `behind` follows it. -/
def IsToken (text : List Char) (kind : TokenKind) (behind : List Char) : Prop :=
  ∃ c cs, text = c :: cs ∧ first c (cs ++ behind) = (.token kind, cs.length)

/-- A run stops where the first character fails to satisfy what it looks for. -/
theorem run_append {p : Char → Bool} {cs behind : List Char} (all : ∀ c ∈ cs, p c = true)
    (stop : ∀ c ∈ behind.head?, p c = false) : run p (cs ++ behind) = cs.length := by
  unfold run
  rw [List.takeWhile_append_of_pos all]
  cases behind with
  | nil => simp
  | cons c behind => simp [stop c rfl]

theorem isIdentifierPart_of_ascii {c : Char} (h : isAsciiNamePart c = true) :
    isIdentifierPart c = true := by
  simp only [isAsciiNamePart, isIdentifierPart, Bool.or_eq_true] at h ⊢
  exact .inl h

theorem not_isSkipped_of_starts {c : Char} (h : startsAsciiName c = true) :
    isSkipped c = false := by
  refine Bool.eq_false_iff.2 fun skipped => ?_
  simp only [isSkipped, Bool.or_eq_true, beq_iff_eq] at skipped
  rcases skipped with ((((rfl | rfl) | rfl) | rfl) | rfl) | rfl
  all_goals exact absurd h (by decide)

/-- A word is an identifier where no more of it follows. -/
theorem isToken_word {word : String} {kind : TokenKind} {behind : List Char}
    (ascii : isAsciiName word = true) (named : identifier word = .token kind)
    (stop : ∀ c ∈ behind.head?, isIdentifierPart c = false) :
    IsToken word.toList kind behind := by
  unfold isAsciiName at ascii
  split at ascii
  · cases ascii
  · rename_i c cs letters
    obtain ⟨starts, parts⟩ := (Bool.and_eq_true ..).mp ascii
    have all : ∀ x ∈ cs, isIdentifierPart x = true := fun x member =>
      isIdentifierPart_of_ascii (List.all_eq_true.1 parts x member)
    have word_eq : String.ofList (c :: cs) = word := by rw [← letters, String.ofList_toList]
    have first_eq : startsIdentifier c = true := by
      simp only [startsAsciiName, startsIdentifier, Bool.or_eq_true] at starts ⊢
      exact .inl starts
    refine ⟨c, cs, letters, ?_⟩
    unfold first
    rw [if_neg (by simp [not_isSkipped_of_starts starts]), if_pos first_eq, run_append all stop]
    dsimp only
    rw [List.take_left, word_eq, named]

theorem isToken_quoted (text : String) (behind : List Char) :
    IsToken (quoted text) (.string text) behind := by
  refine ⟨'"', text.toList.flatMap quotedChar ++ ['"'], rfl, ?_⟩
  have found := first_string (.inl rfl) (stringBody_escaped (.inl rfl) text.toList behind)
  rw [List.append_assoc, List.singleton_append]
  refine found.trans ?_
  simp [show escapedChar '"' = quotedChar from rfl]

end Lexeme

namespace TokenStream

variable {cs cs' behind text : List Char} {words words' : List (TokenKind × String)}
  {kind : TokenKind} {p p' : Progress}

/-- Only simple tokens have been read, so that no brace opens the body of an origin block. -/
def Simple (p : Progress) : Prop := ∀ token ∈ p.tokens, token.kind.isSimple = true

theorem Simple.opensOrigin (h : Simple p) : p.opensOrigin = false := by
  -- the kinds that open an origin block have an at word among them
  have impossible (word : AtWord) (member : .atWord word ∈ (p.tokens.take 3).map Token.kind) :
      False := by
    obtain ⟨token, inside, same⟩ := List.mem_map.1 member
    have simple := h token (List.mem_of_mem_take inside)
    rw [same] at simple
    cases simple
  unfold Progress.opensOrigin
  split
  · rename_i word rest kinds
    exact (impossible word (by simp [kinds])).elim
  · rename_i kind word rest kinds
    exact (impossible word (by simp [kinds])).elim
  · rfl

/-- Reading a text gives these words and leaves nothing out. -/
structure Adds (cs : List Char) (words : List (TokenKind × String)) (p p' : Progress) : Prop where
  tokens : ∃ new, p'.tokens = new ++ p.tokens ∧ new.reverse.map Token.word = words
  skipped : p'.skipped = p.skipped
  place : p'.place = p.place.after cs
  simple : Simple p'

theorem Adds.map_word (adds : Adds cs words p p') :
    p'.tokens.reverse.map Token.word = p.tokens.reverse.map Token.word ++ words := by
  obtain ⟨new, tokens, same⟩ := adds.tokens
  rw [tokens, List.reverse_append, List.map_append, same]

theorem Adds.trans {p'' : Progress} (first : Adds cs words p p') (second : Adds cs' words' p' p'') :
    Adds (cs ++ cs') (words ++ words') p p'' where
  tokens := by
    obtain ⟨new, tokens, same⟩ := first.tokens
    obtain ⟨new', tokens', same'⟩ := second.tokens
    refine ⟨new' ++ new, ?_, ?_⟩
    · rw [tokens', tokens, List.append_assoc]
    · rw [List.reverse_append, List.map_append, same, same']
  skipped := second.skipped.trans first.skipped
  place := by
    rw [second.place, first.place]
    exact List.foldl_append.symm
  simple := second.simple

/-- A text gives these words where `behind` follows it. -/
def Spells (cs : List Char) (words : List (TokenKind × String)) (behind : List Char) : Prop :=
  ∀ p, Simple p → ∃ p', read (cs ++ behind) p = read behind p' ∧ Adds cs words p p'

theorem spells_nil : Spells [] [] behind :=
  fun p simple => ⟨p, rfl, ⟨[], rfl, rfl⟩, rfl, rfl, simple⟩

theorem Spells.append (first : Spells cs words (cs' ++ behind))
    (second : Spells cs' words' behind) : Spells (cs ++ cs') (words ++ words') behind := by
  intro p simple
  obtain ⟨middle, run, adds⟩ := first p simple
  obtain ⟨p', run', adds'⟩ := second middle adds.simple
  refine ⟨p', ?_, adds.trans adds'⟩
  rw [List.append_assoc, run, run']

theorem adds_push (simple : Simple p) (plain : kind.isSimple = true) :
    Adds text [(kind, String.ofList text)] p (p.push kind text) where
  tokens := ⟨[_], rfl, rfl⟩
  skipped := rfl
  place := rfl
  simple := by
    intro token member
    rcases List.mem_cons.1 member with rfl | member
    · exact plain
    · exact simple token member

theorem read_token (token : Lexeme.IsToken text kind behind) (simple : Simple p) :
    read (text ++ behind) p = read behind (p.push kind text) := by
  obtain ⟨c, cs, rfl, lexeme⟩ := token
  rw [List.cons_append, read, lexeme]
  dsimp only
  rw [List.take_left, List.drop_left]
  by_cases brace : kind = .leftBrace
  · subst brace
    have single := ((Lexeme.formed_of_first lexeme).brace rfl).2
    rw [List.length_eq_zero_iff] at single
    subst single
    dsimp only
    rw [if_neg (by simp [simple.opensOrigin])]
    rfl
  · split
    all_goals rename_i same
    all_goals cases same
    · exact absurd rfl brace
    · rfl

theorem spells_token (token : Lexeme.IsToken text kind behind)
    (plain : kind.isSimple = true) : Spells text [(kind, String.ofList text)] behind :=
  fun p simple => ⟨p.push kind text, read_token token simple, adds_push simple plain⟩

/-- A text that does not begin with a byte order mark. -/
def Begins (cs : List Char) : Prop := ∀ c ∈ cs.head?, (c != Lexeme.byteOrderMark) = true

variable {c : Char}

theorem begins_cons (other : (c != Lexeme.byteOrderMark) = true) : Begins (c :: cs) := by
  intro x h
  cases h
  exact other

theorem Begins.append (first : Begins cs) (second : Begins behind) : Begins (cs ++ behind) := by
  cases cs with
  | nil => exact second
  | cons c cs => exact first

/-- White space is passed over, also where more of it follows. -/
theorem spells_blank (blank : Lexeme.isSkipped c = true) (other : c ≠ Lexeme.byteOrderMark)
    (begins : Begins behind) : Spells [c] [] behind := by
  intro p simple
  refine ⟨p.pass [c], ?_, ⟨[], rfl, rfl⟩, rfl, rfl, simple⟩
  rw [List.singleton_append, read, Lexeme.first_blank blank other]
  cases behind with
  | nil => rfl
  | cons x behind =>
    cases skipped : Lexeme.isSkipped x with
    | false =>
      have none : Lexeme.run Lexeme.isSkipped (x :: behind) = 0 := by
        simp [Lexeme.run, skipped]
      rw [none]
      rfl
    | true =>
      have more : Lexeme.run Lexeme.isSkipped (x :: behind) =
          Lexeme.run Lexeme.isSkipped behind + 1 := by
        simp [Lexeme.run, skipped]
      rw [more, read, Lexeme.first_blank skipped (by simpa using begins x rfl)]
      rfl

theorem spells_space (begins : Begins behind) : Spells [' '] [] behind :=
  spells_blank rfl (by decide) begins

theorem spells_mark (mark : ∀ cs, Lexeme.first c cs = (.token kind, 0))
    (plain : kind.isSimple = true) : Spells [c] [(kind, String.singleton c)] behind :=
  spells_token ⟨c, [], rfl, mark behind⟩ plain

theorem spells_open (begins : Begins behind) :
    Spells [' ', '\x7b', ' '] [(.leftBrace, "\x7b")] behind :=
  (spells_space (begins_cons rfl)).append
    ((spells_mark (c := '\x7b') (fun _ => rfl) rfl).append (spells_space begins))

theorem spells_close (begins : Begins behind) :
    Spells ['\x7d', ' '] [(.rightBrace, "\x7d")] behind :=
  (spells_mark (c := '\x7d') (fun _ => rfl) rfl).append (spells_space begins)

theorem begins_quoted (text : String) (cs behind : List Char) :
    Begins (quoted text ++ cs ++ behind) := begins_cons rfl

theorem begins_name (name : PlainName) (behind : List Char) :
    Begins (name.word.toList ++ behind) := by
  have ascii := name.ascii
  unfold isAsciiName at ascii
  split at ascii
  · cases ascii
  · rename_i c cs letters
    rw [letters]
    intro x h
    cases h
    have starts := ((Bool.and_eq_true ..).mp ascii).1
    refine bne_iff_ne.2 fun mark => ?_
    rw [mark] at starts
    exact absurd starts (by decide)

theorem spells_word {word : String} (ascii : isAsciiName word = true)
    (named : Lexeme.identifier word = .token kind) (plain : kind.isSimple = true)
    (stop : ∀ c ∈ behind.head?, Lexeme.isIdentifierPart c = false) :
    Spells word.toList [(kind, word)] behind := by
  have token := spells_token (Lexeme.isToken_word ascii named stop) plain
  rwa [String.ofList_toList] at token

theorem spells_name (name : PlainName)
    (stop : ∀ c ∈ behind.head?, Lexeme.isIdentifierPart c = false) :
    Spells name.word.toList [(.identifier, name.word)] behind :=
  spells_word name.ascii (by rw [Lexeme.identifier, name.free]) rfl stop

theorem spells_quoted (text : String) :
    Spells (quoted text) [(.string text, String.ofList (quoted text))] behind :=
  spells_token (Lexeme.isToken_quoted text behind) rfl

theorem spells_attribute (pair : PlainName × String) (begins : Begins behind) :
    Spells (printedAttribute pair) (attributeWords pair) behind := by
  obtain ⟨name, value⟩ := pair
  have colon : Spells [':', ' '] [(.colon, ":")] (quoted value ++ [';', ' '] ++ behind) :=
    (spells_mark (c := ':') (fun _ => rfl) rfl).append (spells_space (begins_quoted value _ behind))
  have semicolon : Spells [';', ' '] [(.semicolon, ";")] behind :=
    (spells_mark (c := ';') (fun _ => rfl) rfl).append (spells_space begins)
  refine (spells_name name ?_).append (colon.append ((spells_quoted value).append semicolon))
  intro c h
  cases h
  decide

theorem begins_attributes (pairs : List (PlainName × String)) (begins : Begins behind) :
    Begins (pairs.flatMap printedAttribute ++ behind) := by
  cases pairs with
  | nil => exact begins
  | cons pair pairs =>
    rw [List.flatMap_cons, List.append_assoc, printedAttribute, List.append_assoc]
    exact begins_name pair.1 _

theorem spells_attributes (pairs : List (PlainName × String)) (begins : Begins behind) :
    Spells (pairs.flatMap printedAttribute) (pairs.flatMap attributeWords) behind := by
  induction pairs with
  | nil => exact spells_nil
  | cons pair pairs ih => exact (spells_attribute pair (begins_attributes pairs begins)).append ih

theorem begins_printed (node : PlainNode) (behind : List Char) :
    Begins (node.printed ++ behind) := by
  cases node with
  | text content =>
    intro c h
    cases h
    rfl
  | element tag pairs content =>
    rw [PlainNode.printed, List.append_assoc]
    exact begins_name tag _

theorem begins_printedAll (nodes : List PlainNode) (begins : Begins behind) :
    Begins (PlainNode.printedAll nodes ++ behind) := by
  cases nodes with
  | nil => exact begins
  | cons node nodes =>
    rw [PlainNode.printedAll, List.append_assoc]
    exact begins_printed node _

theorem begins_close (behind : List Char) : Begins (['\x7d', ' '] ++ behind) := begins_cons rfl

mutual

/-- Reading the source of a node gives its words. -/
theorem spells_printed : (node : PlainNode) → ∀ behind, Begins behind →
    Spells node.printed node.words behind
  | .text content => by
    intro behind begins
    rw [PlainNode.printed, PlainNode.words]
    have close : Spells [' ', '\x7d', ' '] [(.rightBrace, "\x7d")] behind :=
      (spells_space (begins_close behind)).append (spells_close begins)
    refine (spells_word (by decide) rfl rfl ?_).append
      ((spells_open (begins_quoted content _ behind)).append ((spells_quoted content).append close))
    intro c h
    cases h
    decide
  | .element tag pairs content => by
    intro behind begins
    rw [PlainNode.printed, PlainNode.words]
    have closing := begins_close behind
    have inside := (spells_printedAll content _ closing).append (spells_close begins)
    have attributes := spells_attributes pairs (begins_printedAll content closing)
    refine (spells_name tag ?_).append ((spells_open ?_).append
      (Spells.append (by simpa using attributes) inside))
    · intro c h
      cases h
      decide
    · have := begins_attributes pairs (begins_printedAll content closing)
      simpa using this

theorem spells_printedAll : (nodes : List PlainNode) → ∀ behind, Begins behind →
    Spells (PlainNode.printedAll nodes) (PlainNode.wordsAll nodes) behind
  | [] => fun _ _ => spells_nil
  | node :: nodes => by
    intro behind begins
    rw [PlainNode.printedAll, PlainNode.wordsAll]
    exact (spells_printed node _ (begins_printedAll nodes begins)).append
      (spells_printedAll nodes behind begins)

end

variable {source : String}

theorem Spells.exists_read (spells : Spells source.toList words []) :
    ∃ p, read source.toList {} = .ok p ∧ Adds source.toList words {} p := by
  obtain ⟨p, run, adds⟩ := spells {} (by simp [Simple])
  rw [List.append_nil, read] at run
  exact ⟨p, run, adds⟩

/-- The tokens of a spelled source are its words and the end, and nothing is left out. -/
theorem Spells.ofSource (spells : Spells source.toList words []) :
    ∃ stream, TokenStream.ofSource source = .ok stream ∧
      stream.tokens.map Token.word = words ++ [(.eof, "")] ∧
      (∀ token ∈ stream.tokens, token.kind.isSimple = true) ∧ stream.skipped = [] := by
  obtain ⟨p, run, adds⟩ := spells.exists_read
  refine ⟨⟨(p.push .eof []).tokens.reverse, p.skipped.reverse⟩, ?_, ?_, ?_, ?_⟩
  · rw [TokenStream.ofSource, run]
    rfl
  · rw [p.tokens_push_eof, List.map_append, adds.map_word]
    rfl
  · intro token member
    rcases List.mem_cons.1 (List.mem_reverse.1 member) with rfl | member
    · rfl
    · exact adds.simple token member
  · rw [adds.skipped]
    rfl

/-- A token stands where the text before it ends. -/
theorem Spells.span_eq {stream : TokenStream} (tokenizes : TokenStream.ofSource source = .ok stream)
    (split : source.toList = cs ++ (text ++ behind)) (before : Spells cs words (text ++ behind))
    (token : Lexeme.IsToken text kind behind) (plain : kind.isSimple = true)
    (after : Spells behind words' []) :
    (stream.tokens[words.length]?).map Token.span = some ((({} : Place).after cs).spanOf text) := by
  obtain ⟨p, run, adds⟩ := before {} (by simp [Simple])
  obtain ⟨p', run', adds'⟩ := after (p.push kind text) (adds_push adds.simple plain).simple
  rw [List.append_nil, read] at run'
  obtain ⟨new, tokens, same⟩ := adds.tokens
  obtain ⟨new', tokens', -⟩ := adds'.tokens
  have length : p.tokens.reverse.length = words.length := by simp [tokens, ← same]
  rw [TokenStream.ofSource, split, run, read_token token adds.simple, run'] at tokenizes
  cases tokenizes
  dsimp only
  rw [p'.tokens_push_eof, tokens', ← length]
  simp [Progress.push, adds.place]

/-- The tokens of a printed source. -/
theorem ofSource_printedAll (nodes : List PlainNode) :
    ∃ stream, ofSource (String.ofList (PlainNode.printedAll nodes)) = .ok stream ∧
      stream.tokens.map Token.word = PlainNode.wordsAll nodes ++ [(.eof, "")] ∧
      (∀ token ∈ stream.tokens, token.kind.isSimple = true) ∧ stream.skipped = [] := by
  apply Spells.ofSource
  rw [String.toList_ofList]
  exact spells_printedAll nodes [] (by simp [Begins])

end TokenStream

end TemplateMarkup
