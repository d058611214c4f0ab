import TemplateMarkup.Compiler
import TemplateMarkup.Proofs.PlainParses
import TemplateMarkup.Proofs.WritingLimits

/-! The markup of plain nodes. Compiling their source writes each of them as it says. -/
namespace TemplateMarkup

section Serialization

/-- How a character is written where it could mean something in markup. -/
def entity : Char → List Char
  | '&' => "&amp;".toList
  | '<' => "&lt;".toList
  | '>' => "&gt;".toList
  | '"' => "&quot;".toList
  | c => [c]

def escaped (text : String) : String := String.ofList (text.toList.flatMap entity)

mutual

/-- The markup that says what a node says. -/
def PlainNode.markup : PlainNode → String
  | .text content => escaped content
  | .element tag attributes content =>
    "<" ++ tag.word
      ++ String.join (attributes.map fun (name, value) =>
        " " ++ name.word ++ "=\"" ++ escaped value ++ "\"")
      ++ ">" ++ (if Tags.isVoid tag.word then "" else
        PlainNode.markupAll content ++ "</" ++ tag.word ++ ">")

def PlainNode.markupAll : List PlainNode → String
  | [] => ""
  | node :: nodes => node.markup ++ PlainNode.markupAll nodes

end

theorem PlainNode.markupAll_eq (nodes : List PlainNode) :
    PlainNode.markupAll nodes = String.join (nodes.map PlainNode.markup) := by
  induction nodes with
  | nil => rfl
  | cons node nodes ih => rw [PlainNode.markupAll, ih, List.map_cons, String.join_cons]

theorem escape_eq_escaped (text : String) : Markup.escape text = escaped text := by
  have each (c : Char) : (Markup.escapeChar c).toList = entity c := by
    unfold entity
    split
    any_goals rfl
    simp_all [Markup.escapeChar]
  apply String.toList_injective
  rw [Markup.escape, escaped, String.toList_join, String.toList_ofList, List.flatMap_map]
  simp only [each]

end Serialization

namespace Forest

theorem eq_of_slot? {f g : Forest} (size : f.slots.size = g.slots.size)
    (same : ∀ k, f.slot? k = g.slot? k) : f = g := by
  obtain ⟨slots⟩ := f
  obtain ⟨slots'⟩ := g
  congr 1
  refine Array.ext size fun i h h' => ?_
  have there := same ⟨i⟩
  simpa [slot?, Array.getElem?_eq_getElem h, Array.getElem?_eq_getElem h'] using there

theorem modify_eq_self {f : Forest} {id : NodeId} {change : Node → Node}
    (same : (f.get? id).map change = f.get? id) : f.modify id change = f := by
  refine eq_of_slot? (size_modify id change) fun k => ?_
  rw [slot?_modify]
  split
  · rename_i here
    subst here
    unfold get? at same
    cases found : f.slot? k with
    | none => rfl
    | some slot =>
      rw [found] at same
      rw [Option.map_some, Option.some.inj same]
  · rfl

end Forest

namespace Write

variable {s s' : WriteState} {around : Surroundings} {id : NodeId} {ids : List NodeId}
  {texts : List String}

theorem prepareElement_plain {node : Node} (here : s.document.forest.get? id = some node)
    (plain : ∀ child ∈ (childNodes id s).1, child.styleBlock? = none ∧ child.scriptBlock? = none)
    (properties : node.properties = {}) : (prepareElement id node s).2 = s := by
  have styles : (childNodes id s).1.filterMap Node.styleBlock? = [] :=
    List.filterMap_eq_nil_iff.2 fun child member => (plain child member).1
  have scripts : (childNodes id s).1.filterMap Node.scriptBlock? = [] :=
    List.filterMap_eq_nil_iff.2 fun child member => (plain child member).2
  have same : (modifyForest (·.modify id fun node => { node with properties := {} }) s).2 = s := by
    change { s with document := { s.document with forest := s.document.forest.modify id _ } } = s
    rw [Forest.modify_eq_self]
    rw [here, Option.map_some, ← properties]
  have named : (nameElement id s).2 = s := by
    change { s with document := (ElementNames.apply s.document id).2 } = s
    have none : ElementNames.candidates s.document.symbols.config
        (ElementNames.childNodes s.document.forest id) = [] := by
      have children : ElementNames.childNodes s.document.forest id = (childNodes id s).1 := rfl
      unfold ElementNames.candidates
      rw [children, styles, scripts]
      rfl
    unfold ElementNames.apply
    rw [none]
    split <;> rfl
  rw [prepareElement_apply]
  split
  · dsimp only
    rw [named, styles, scripts]
    exact same
  · exact same

end Write

namespace PlainNode

variable {node : PlainNode} {nodes : List PlainNode} {tree : NodeTree} {trees : List NodeTree}

theorem Matches.kind (said : node.Matches tree) :
    tree.node.kind = .text ∨ tree.node.kind = .element := by
  obtain ⟨inner, branches⟩ := tree
  cases node with
  | text content => exact .inl said.1
  | element tag pairs content => exact .inr said.1

theorem MatchesAll.kind (said : MatchesAll nodes trees) :
    ∀ tree ∈ trees, tree.node.kind = .text ∨ tree.node.kind = .element := by
  induction nodes generalizing trees with
  | nil =>
    cases trees with
    | nil => simp
    | cons tree trees => exact said.elim
  | cons node nodes ih =>
    cases trees with
    | nil => simp
    | cons tree trees =>
      intro other member
      rcases List.mem_cons.1 member with rfl | member
      · exact said.1.kind
      · exact ih said.2 other member

/-- What stands inside a plain element is neither a style nor a script block, and forbids
nothing. -/
theorem MatchesAll.plain (said : MatchesAll nodes trees) :
    (∀ child ∈ trees.map NodeTree.node, child.styleBlock? = none ∧ child.scriptBlock? = none) ∧
      ∀ tag, Write.banOf tag (trees.map NodeTree.node) = none := by
  have kinds := said.kind
  constructor
  · intro child member
    obtain ⟨tree, inside, rfl⟩ := List.mem_map.1 member
    rcases kinds tree inside with kind | kind
    all_goals simp [Node.styleBlock?, Node.scriptBlock?, kind]
  · intro tag
    refine if_pos (List.isEmpty_iff.2 (List.flatMap_eq_nil_iff.2 fun child member => ?_))
    obtain ⟨tree, inside, rfl⟩ := List.mem_map.1 member
    rcases kinds tree inside with kind | kind
    all_goals rw [kind]

end PlainNode

namespace Write

variable {s s' : WriteState} {around : Surroundings} {id : NodeId} {ids : List NodeId}
  {texts : List String} {levels : Nat} {nodes : List PlainNode} {trees : List NodeTree}

/-- Writing a node gives its markup and changes nothing. -/
def IsWritten (levels : Nat) (node : PlainNode) : Prop :=
  ∀ ⦃around : Surroundings⦄ ⦃id : NodeId⦄ ⦃ids : List NodeId⦄ ⦃s s' : WriteState⦄
    ⦃tree : NodeTree⦄ ⦃texts : List String⦄, s.document.forest.Grown →
    s.document.forest.tree? id = some tree → node.Matches tree → around.ban = none →
    around.depth + levels ≤ maxElementDepth → Ends around ids s texts s' →
    Ends around (id :: ids) s (node.markup :: texts) s'

theorem ends_nodes (written : ∀ node ∈ nodes, IsWritten levels node)
    (grown : s.document.forest.Grown) (shown : s.document.forest.Shows ids trees)
    (said : PlainNode.MatchesAll nodes trees) (ban : around.ban = none)
    (shallow : around.depth + levels ≤ maxElementDepth) :
    Ends around ids s (nodes.map PlainNode.markup) s := by
  induction nodes generalizing ids trees with
  | nil =>
    cases trees with
    | nil =>
      have none := shown.length_eq
      rw [List.length_nil, List.length_eq_zero_iff] at none
      subst none
      exact .nil
    | cons tree trees => exact said.elim
  | cons node nodes ih =>
    cases trees with
    | nil => exact said.elim
    | cons tree trees =>
      cases ids with
      | nil => cases shown
      | cons id ids =>
        obtain ⟨here, there⟩ := List.cons.inj shown
        have rest := ih (fun node member => written node (.tail _ member)) there said.2
        exact written node (.head _) grown here said.1 ban shallow rest

theorem visit_step {n : Node} (here : s.document.forest.get? id = some n)
    (ban : around.ban = none) : Visit.step ⟨around, id, s⟩ = allowedStep around id n s := by
  unfold Visit.step
  dsimp only
  rw [here, ban]
  rfl

theorem isWritten_text (content : String) : IsWritten levels (.text content) := by
  intro around id ids s s' tree texts grown shown said ban _ rest
  obtain ⟨n, branches⟩ := tree
  obtain ⟨kind, same, -⟩ := said
  have here : s.document.forest.get? id = some n := by rw [grown.get?_eq, shown]; rfl
  have step : Visit.step ⟨around, id, s⟩ = .done (PlainNode.text content).markup s := by
    rw [visit_step here ban, allowedStep, kind]
    dsimp only
    unfold allowedNode
    rw [kind]
    dsimp only
    rw [PlainNode.markup, ← escape_eq_escaped, same]
    rfl
  exact .done step rest

theorem openTag_plain {n : Node} {tag : PlainName} {pairs : List (PlainName × String)}
    (name : n.name = tag.word)
    (attributes : n.attributes.toList = pairs.map fun (name, value) => (name.word, value))
    (properties : n.properties = {}) : Markup.openTag n =
      "<" ++ tag.word ++ String.join (pairs.map fun (name, value) =>
        " " ++ name.word ++ "=\"" ++ escaped value ++ "\"") ++ ">" := by
  unfold Markup.openTag Markup.attributes
  rw [name, attributes, properties, List.map_map]
  have none : (∅ : OrderedMap String String).isEmpty = true := rfl
  simp [Function.comp_def, Markup.attributeText, escape_eq_escaped, none]

theorem isWritten_element {tag : PlainName} {pairs : List (PlainName × String)}
    {content : List PlainNode} (single : Tags.isVoid tag.word → content = [])
    (written : ∀ node ∈ content, IsWritten levels node) :
    IsWritten (levels + 1) (.element tag pairs content) := by
  intro around id ids s s' tree texts grown shown said ban shallow rest
  obtain ⟨n, branches⟩ := tree
  obtain ⟨kind, name, attributes, properties, inside⟩ := said
  have here : s.document.forest.get? id = some n := by rw [grown.get?_eq, shown]; rfl
  have below : s.document.forest.Shows (s.document.forest.children id) branches :=
    grown.shows_children shown
  have children := childNodes_eq grown below
  obtain ⟨plain, free⟩ := inside.plain
  have prepared := prepareElement_plain here (by rwa [children]) properties
  have tag_eq := openTag_plain name attributes properties
  have isVoid : n.isVoid = Tags.isVoid tag.word := by simp [Node.isVoid, Node.isElement, kind, name]
  have step : Visit.step ⟨around, id, s⟩ = elementStep around id n s := by
    rw [visit_step here ban, allowedStep, kind]
    dsimp only
    rw [if_neg (by omega)]
  rw [elementStep, prepared] at step
  dsimp only at step
  rw [here, isVoid, children, Option.getD_some] at step
  rw [PlainNode.markup, ← tag_eq]
  by_cases closed : Tags.isVoid tag.word
  · rw [single closed] at inside
    have none : branches = [] := by
      cases branches with
      | nil => rfl
      | cons branch branches => exact inside.elim
    rw [none, closed, if_neg (by simp), if_pos rfl] at step
    rw [if_pos closed, String.append_empty]
    exact .single step rest
  · rw [if_neg (by simp [closed]), if_neg closed] at step
    have deeper : (insideElement around n (branches.map NodeTree.node)).depth + levels ≤
        maxElementDepth := by
      change around.depth + 1 + levels ≤ maxElementDepth
      omega
    have inner := ends_nodes written grown below inside (free n.name) deeper
    have whole := Ends.within step inner rest
    rw [Role.wrap, Markup.closeTag, name, ← PlainNode.markupAll_eq] at whole
    rw [if_neg closed]
    simpa [String.append_assoc] using whole

theorem isWritten_of_proper {node : PlainNode} (proper : node.Proper levels) :
    IsWritten levels node := by
  induction proper with
  | text content => exact isWritten_text content
  | element _ single _ ih => exact isWritten_element single ih

end Write

/-- The words of proper nodes compile to the markup of the nodes and to nothing else. -/
theorem Compiler.compile_words {nodes : List PlainNode} {source : String} {stream : TokenStream}
    (tokenizes : TokenStream.ofSource source = .ok stream)
    (words : stream.tokens.map Token.word = PlainNode.wordsAll nodes ++ [(.eof, "")])
    (simple : ∀ token ∈ stream.tokens, token.kind.isSimple = true) (skipped : stream.skipped = [])
    (proper : ∀ node ∈ nodes, node.Proper 128) (config : Config) :
    Compiler.compile { config } source =
      { html := PlainNode.markupAll nodes
        css := ""
        js := ""
        success := true
        warnings := []
        errors := []
        fragments := [] } := by
  obtain ⟨errors, warnings, html5, trees, tree, said⟩ :=
    ParseResult.ofTokens_words source simple words {} rfl proper config
  have sound := ParseResult.sound_ofTokens source stream.tokens config {}
  have written := sound.ofDocument_eq (Write.ends_nodes
    (fun node member => Write.isWritten_of_proper (proper node member)) sound.grown
    (sound.grown.shows_children tree) said rfl (Nat.le_of_eq (Nat.zero_add 128)))
  rw [html5, ← PlainNode.markupAll_eq] at written
  have run : Compiler.run { config } source = .ok
      { html := PlainNode.markupAll nodes
        success := true
        warnings := []
        errors := [] } := by
    unfold Compiler.run
    rw [tokenizes]
    dsimp only
    rw [ParseResult.error?, errors, skipped, written, ParseResult.messages, warnings, errors]
    simp [WriteResult.success]
  rw [Compiler.compile, run]

/-- A source of plain nodes compiles to the markup of the nodes and to nothing else. -/
theorem Compiler.compile_printedAll {nodes : List PlainNode}
    (proper : ∀ node ∈ nodes, node.Proper 128) (config : Config) :
    Compiler.compile { config } (String.ofList (PlainNode.printedAll nodes)) =
      { html := PlainNode.markupAll nodes
        css := ""
        js := ""
        success := true
        warnings := []
        errors := []
        fragments := [] } := by
  obtain ⟨stream, tokenizes, words, simple, skipped⟩ := TokenStream.ofSource_printedAll nodes
  exact compile_words tokenizes words simple skipped proper config

/-- Quotes, braces, two hyphens and markup in a text and in the value of an attribute. -/
theorem Compiler.compile_printedAll_quotes :
    let p : PlainName := ⟨"p", rfl, rfl⟩
    let br : PlainName := ⟨"br", rfl, rfl⟩
    let title : PlainName := ⟨"title", rfl, rfl⟩
    let nodes := [PlainNode.element p [(title, "say \"\\\"")]
      [.text "-- \x7b & \x7d", .element br [] []]]
    String.ofList (PlainNode.printedAll nodes) =
      "p \x7b title: \"say \\\"\\\\\\\"\"; text \x7b \"-- \x7b & \x7d\" \x7d br \x7b \x7d \x7d " ∧
    (∀ node ∈ nodes, node.Proper 128) ∧
    Compiler.compile {} (String.ofList (PlainNode.printedAll nodes)) =
      { html := "<p title=\"say &quot;\\&quot;\">-- \x7b &amp; \x7d<br></p>"
        success := true
        warnings := []
        errors := [] } := by
  intro p br title nodes
  have proper : ∀ node ∈ nodes, node.Proper 128 := by
    intro node member
    rw [List.mem_singleton.1 member]
    refine .element (by decide) (by decide) ?_
    intro inner inside
    rcases List.mem_cons.1 inside with rfl | inside
    · exact .text _
    · rw [List.mem_singleton.1 inside]
      exact .element (by decide) (fun _ => rfl) (by simp)
  refine ⟨by decide +kernel, proper, ?_⟩
  rw [Compiler.compile_printedAll proper {}]
  decide +kernel

end TemplateMarkup
