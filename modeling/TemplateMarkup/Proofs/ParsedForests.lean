import TemplateMarkup.Proofs.ForestHosts
import TemplateMarkup.Proofs.StoredContent

/-! Documents while they are read. Every subtree outside the tree belongs to one definition, is
brought by one edit, or is held by what is being read. -/
namespace TemplateMarkup

/-- The nodes that the usages in a node bring. -/
def Node.payload (node : Node) : List NodeId := node.usages.flatMap Usage.payload

/-- A node that may enter, below a parent or outside the tree. -/
structure Node.Enters (hosts : List Host) (parent : Option NodeId) (node : Node) : Prop where
  below : ∀ p ∈ parent, Host.Among p hosts
  plain : node.kind ≠ .activation .html5
  loose : parent = none → node.isLoose
  space : node.isSpace → ∀ p ∈ parent, ⟨p, true⟩ ∈ hosts

/-- The nodes that the edits of a definition and its parents bring. -/
def Definition.payload (definition : Definition) : List NodeId :=
  definition.edits.flatMap Edit.payload ++
    definition.parents.flatMap fun inheritance => inheritance.parent.payload

namespace Document

variable {document : Document} {hosts : List Host} {held held' : List NodeId} {node : Node}

theorem brings_iff {id : NodeId} :
    document.Brings id ↔
      (∃ k slot, document.forest.slot? k = some slot ∧ id ∈ slot.node.payload) ∨
        ∃ key definition, document.symbols.definition? key = some definition ∧
          id ∈ definition.payload := by
  simp only [Brings, Occurs, Node.payload, Definition.payload, List.mem_flatMap, List.mem_append]
  constructor
  · rintro (⟨usage, ⟨k, slot, found, used⟩ | ⟨key, definition, found, p, member, rfl⟩, inside⟩ |
      ⟨key, definition, found, inside⟩)
    · exact .inl ⟨k, slot, found, usage, used, inside⟩
    · exact .inr ⟨key, definition, found, .inr ⟨p, member, inside⟩⟩
    · exact .inr ⟨key, definition, found, .inl inside⟩
  · rintro (⟨k, slot, found, usage, used, inside⟩ |
      ⟨key, definition, found, inside | ⟨p, member, inside⟩⟩)
    · exact .inl ⟨usage, .inl ⟨k, slot, found, used⟩, inside⟩
    · exact .inr ⟨key, definition, found, inside⟩
    · exact .inl ⟨p.parent, .inr ⟨key, definition, found, p, member, rfl⟩, inside⟩

/-- The nodes of a document being read, with `held` outside the tree. -/
structure Shaped (document : Document) (held : List NodeId) : Prop where
  grown : document.forest.Grown
  top : ∃ slot, document.forest.slot? Forest.root = some slot ∧ slot.node.kind = .document
  roots : document.forest.Roots (Forest.root :: (document.symbols.owned ++ held))
  brought : ∀ id, document.Brings id → document.forest.IsRoot id ∧
    id ∉ Forest.root :: (document.symbols.owned ++ held)
  unresolved : document.symbols.Unresolved

namespace Shaped

theorem perm (shaped : Shaped document held) (perm : held.Perm held') :
    Shaped document held' :=
  { shaped with
    roots := shaped.roots.perm ((perm.append_left _).cons _)
    brought := fun id brings => by
      obtain ⟨root, other⟩ := shaped.brought id brings
      refine ⟨root, fun member => other ?_⟩
      exact ((perm.append_left _).cons _).mem_iff.2 member }

theorem sublist (shaped : Shaped document held) (sub : held'.Sublist held) :
    Shaped document held' :=
  { shaped with
    roots := shaped.roots.sublist ((sub.append_left _).cons_cons _)
    brought := fun id brings => by
      obtain ⟨root, other⟩ := shaped.brought id brings
      refine ⟨root, fun member => other ?_⟩
      exact ((sub.append_left _).cons_cons _).subset member }

variable {own : List NodeId}

theorem drop (shaped : Shaped document (own ++ held)) :
    Shaped document held := shaped.sublist (List.sublist_append_right _ _)

variable {id : NodeId}

/-- What is held is not among the nodes of definitions, nor among the rest of what is held. -/
theorem apart (shaped : Shaped document (own ++ held))
    (member : id ∈ own) : id ∉ Forest.root :: (document.symbols.owned ++ held) := by
  have split : (Forest.root :: (document.symbols.owned ++ (own ++ held))).Perm
      (own ++ (Forest.root :: (document.symbols.owned ++ held))) := by
    refine .trans (.cons _ (List.perm_append_comm_assoc _ _ _)) ?_
    exact List.perm_middle.symm
  have nodup := split.nodup_iff.1 shaped.roots.nodup
  exact fun other => (List.nodup_append.1 nodup).2.2 id member id other rfl

theorem isRoot (shaped : Shaped document (own ++ held))
    (member : id ∈ own) : document.forest.IsRoot id :=
  shaped.roots.isRoot id (by simp [member])

/-- A new node outside the tree takes over what its usages bring. -/
theorem insertDetached (shaped : Shaped document (node.payload ++ held)) :
    Shaped { document with forest := (document.forest.insertDetached node).2 }
      (⟨document.forest.slots.size⟩ :: held) := by
  have extend := Forest.extends_insertDetached document.forest node
  have new := Forest.slot?_insertDetached_self document.forest node
  have stays {id : NodeId} (root : document.forest.IsRoot id) :
      (document.forest.insertDetached node).2.IsRoot id :=
    root.congr (extend.slots id root.lt_size)
  have old {id : NodeId} (root : document.forest.IsRoot id) :
      id ≠ ⟨document.forest.slots.size⟩ := by
    rintro rfl
    exact Nat.lt_irrefl _ root.lt_size
  have split : (Forest.root :: (document.symbols.owned ++
      (⟨document.forest.slots.size⟩ :: held))).Perm
      (⟨document.forest.slots.size⟩ :: Forest.root :: (document.symbols.owned ++ held)) :=
    (List.perm_middle.cons _).trans (.swap _ _ _)
  refine ⟨shaped.grown.insertDetached node, ?_, ?_, ?_, shaped.unresolved⟩
  · obtain ⟨slot, found, kind⟩ := shaped.top
    exact ⟨slot, (extend.slots _ (Forest.lt_size_of_slot? found)).trans found, kind⟩
  · refine Forest.Roots.perm ⟨List.nodup_cons.2 ⟨fun member => ?_, shaped.drop.roots.nodup⟩, ?_⟩
      split.symm
    · exact old (shaped.drop.roots.isRoot _ member) rfl
    · intro id member
      rcases List.mem_cons.1 member with rfl | member
      · exact ⟨_, new, rfl⟩
      · exact stays (shaped.drop.roots.isRoot id member)
  · intro id brings
    have before : document.forest.IsRoot id ∧
        id ∉ Forest.root :: (document.symbols.owned ++ held) := by
      rcases brings_iff.1 brings with ⟨k, slot, found, inside⟩ | there
      · dsimp only at found
        rw [Forest.slot?_insertDetached] at found
        split at found
        · cases found
          exact ⟨shaped.isRoot inside, shaped.apart inside⟩
        · exact shaped.drop.brought id (brings_iff.2 (.inl ⟨k, slot, found, inside⟩))
      · exact shaped.drop.brought id (brings_iff.2 (.inr there))
    refine ⟨stays before.1, fun member => ?_⟩
    rcases List.mem_cons.1 (split.mem_iff.1 member) with same | member
    · exact old before.1 same
    · exact before.2 member

/-- A subtree that is held goes below a node. -/
theorem attach {parent child : NodeId} (shaped : Shaped document (child :: held))
    (lt : parent.index < child.index) (index : Nat) :
    Shaped { document with forest := document.forest.insertAt parent index child } held := by
  have shaped' : Shaped document ([child] ++ held) := shaped
  have root : document.forest.IsRoot child := shaped'.isRoot (.head _)
  have ne : parent ≠ child := by
    rintro rfl
    exact Nat.lt_irrefl _ lt
  have other {id : NodeId} (member : id ∈ Forest.root :: (document.symbols.owned ++ held)) :
      id ≠ child := by
    rintro rfl
    exact shaped'.apart (.head _) member
  have node (id : NodeId) : ((document.forest.insertAt parent index child).slot? id).map Slot.node =
      (document.forest.slot? id).map Slot.node := Forest.get?_insertAt
  have stays {id : NodeId} (isRoot : document.forest.IsRoot id) (differs : id ≠ child) :
      (document.forest.insertAt parent index child).IsRoot id :=
    Forest.isRoot_insertAt root ne isRoot differs
  refine ⟨shaped.grown.insertAt root lt, ?_, ?_, ?_, shaped.unresolved⟩
  · obtain ⟨slot, found, kind⟩ := shaped.top
    have same := node Forest.root
    rw [found] at same
    obtain ⟨slot', found', same⟩ := Option.map_eq_some_iff.1 same
    exact ⟨slot', found', by rw [same, kind]⟩
  · exact ⟨shaped'.drop.roots.nodup, fun id member =>
      stays (shaped'.drop.roots.isRoot id member) (other member)⟩
  · intro id brings
    have before : document.Brings id := by
      rcases brings_iff.1 brings with ⟨k, slot, found, inside⟩ | there
      · have same := node k
        dsimp only at found
        rw [found] at same
        obtain ⟨slot', found', same⟩ := Option.map_eq_some_iff.1 same.symm
        exact brings_iff.2 (.inl ⟨k, slot', found', by rwa [same]⟩)
      · exact brings_iff.2 (.inr there)
    obtain ⟨isRoot, apart⟩ := shaped.brought id before
    refine ⟨stays isRoot ?_, (shaped'.drop.brought id before).2⟩
    rintro rfl
    exact apart (by simp)

/-- A node changes, but not in what it is and brings. -/
theorem modify {change : Node → Node} (shaped : Shaped document held)
    (kind : ∀ node, (change node).kind = node.kind) :
    Shaped { document with forest := document.forest.modify id change } held := by
  have payload (node : Node) : (change node).payload = node.payload := by
    unfold Node.payload Node.usages
    rw [kind]
  refine ⟨shaped.grown.modify id change, ?_, ?_, ?_, shaped.unresolved⟩
  · obtain ⟨slot, found, document⟩ := shaped.top
    rw [Forest.slot?_modify, found]
    split
    · exact ⟨_, rfl, (kind _).trans document⟩
    · exact ⟨slot, rfl, document⟩
  · exact ⟨shaped.roots.nodup, fun k member =>
      (Forest.isRoot_modify id change).2 (shaped.roots.isRoot k member)⟩
  · intro k brings
    have before : document.Brings k := by
      rcases brings_iff.1 brings with ⟨n, slot, found, inside⟩ | there
      · dsimp only at found
        rw [Forest.slot?_modify] at found
        split at found
        · obtain ⟨slot', found', rfl⟩ := Option.map_eq_some_iff.1 found
          exact brings_iff.2 (.inl ⟨n, slot', found', by rwa [payload] at inside⟩)
        · exact brings_iff.2 (.inl ⟨n, slot, found, inside⟩)
      · exact brings_iff.2 (.inr there)
    obtain ⟨root, other⟩ := shaped.brought k before
    exact ⟨(Forest.isRoot_modify id change).2 root, other⟩

/-- The table changes, but not in its definitions. -/
theorem withSymbols {symbols : SymbolTable} (shaped : Shaped document held)
    (same : symbols.definitions = document.symbols.definitions) :
    Shaped { document with symbols } held := by
  have definition? (key : DefinitionKey) :
      symbols.definition? key = document.symbols.definition? key := by
    rw [SymbolTable.definition?, same, SymbolTable.definition?]
  have owned : symbols.owned = document.symbols.owned := by
    rw [SymbolTable.owned, same, SymbolTable.owned]
  refine ⟨shaped.grown, shaped.top, ?_, ?_, ?_, ?_⟩
  · rw [owned]
    exact shaped.roots
  · intro id brings
    rw [owned]
    refine shaped.brought id ?_
    simpa only [brings_iff, definition?] using brings
  · intro key definition found
    exact shaped.unresolved.keyed key definition ((definition? key).symm.trans found)
  · intro key definition found
    exact shaped.unresolved.pending key definition ((definition? key).symm.trans found)

variable {definition : Definition}

/-- A definition comes into the table with what was held for it. -/
theorem define {symbols : SymbolTable}
    (found : ∀ key, symbols.definition? key =
      if key = definition.key then some definition else document.symbols.definition? key)
    (owned : symbols.owned = document.symbols.owned ++ definition.elements)
    (pending : definition.resolution = .pending)
    (shaped : Shaped document (definition.elements ++ definition.payload ++ held)) :
    Shaped { document with symbols } held := by
  have moved : (definition.elements ++ definition.payload ++ held).Perm
      (definition.payload ++ (definition.elements ++ held)) := by
    rw [List.append_assoc]
    exact List.perm_append_comm_assoc _ _ _
  have given := shaped.perm moved
  have all : symbols.owned ++ held =
      document.symbols.owned ++ (definition.elements ++ held) := by
    rw [owned, List.append_assoc]
  have split {key : DefinitionKey} {d : Definition} (there : symbols.definition? key = some d) :
      key = definition.key ∧ d = definition ∨ document.symbols.definition? key = some d := by
    rw [found] at there
    by_cases same : key = definition.key
    · rw [if_pos same, Option.some.injEq] at there
      exact .inl ⟨same, there.symm⟩
    · rw [if_neg same] at there
      exact .inr there
  refine ⟨shaped.grown, shaped.top, ?_, ?_, ?_, ?_⟩
  · rw [all]
    exact given.drop.roots
  · intro id brings
    rw [all]
    rcases brings_iff.1 brings with there | ⟨key, d, there, inside⟩
    · exact given.drop.brought id (brings_iff.2 (.inl there))
    · rcases split there with ⟨-, rfl⟩ | old
      · exact ⟨given.isRoot inside, given.apart inside⟩
      · exact given.drop.brought id (brings_iff.2 (.inr ⟨key, d, old, inside⟩))
  · intro key d there
    rcases split there with ⟨rfl, rfl⟩ | old
    · rfl
    · exact shaped.unresolved.keyed key d old
  · intro key d there
    rcases split there with ⟨-, rfl⟩ | old
    · exact pending
    · exact shaped.unresolved.pending key d old

/-- A definition is registered, or dropped if its key is taken. -/
theorem register (pending : definition.resolution = .pending)
    (shaped : Shaped document (definition.elements ++ definition.payload ++ held)) :
    Shaped { document with symbols := (document.symbols.register definition).2 } held := by
  unfold SymbolTable.register
  cases taken : document.symbols.definitions.contains definition.key with
  | true => exact shaped.drop
  | false =>
    have new : document.symbols.definitions.get? definition.key = none := by
      simpa [OrderedMap.contains] using taken
    refine shaped.define (fun key => ?_) ?_ pending
    · exact OrderedMap.get?_insert _ _ _ _
    · simp [SymbolTable.owned, OrderedMap.values_insert new]

/-- A definition of a document that was read holds its own body. -/
theorem tells (shaped : Shaped document held) {key : DefinitionKey}
    (found : document.symbols.definition? key = some definition) :
    document.Tells document.forest key definition := by
  have pending := shaped.unresolved.pending key definition found
  have isRoot : ∀ id ∈ definition.elements, document.forest.IsRoot id := by
    intro id member
    refine shaped.roots.isRoot id (.tail _ (List.mem_append_left _ ?_))
    exact SymbolTable.mem_owned.2 ⟨key, definition, found, member⟩
  obtain ⟨trees, shown⟩ := shaped.grown.ordered.exists_shows fun id member => by
    obtain ⟨slot, there, -⟩ := isRoot id member
    exact ⟨slot, there⟩
  have body : (document.bodyOf definition).elements = trees := shown.filterMap
  rw [Tells, if_neg (by rw [pending]; simp)]
  refine ⟨?_, rfl, rfl, ?_⟩
  · rw [found, ← pending]
  · rw [body]
    exact shown

theorem stored (shaped : Shaped document held) : Stored document document where
  resembles := .refl document.symbols
  grown := shaped.grown
  roots := shaped.roots.sublist ((List.sublist_append_left _ _).trans (List.sublist_cons_self _ _))
  brought := fun id brings => by
    obtain ⟨root, other⟩ := shaped.brought id brings
    exact ⟨root, fun member => other (.tail _ (List.mem_append_left _ member)), rfl⟩
  tells := fun _ _ found => shaped.tells found

end Shaped

/-- A document with nothing in it. -/
theorem shaped_empty {symbols : SymbolTable} (none : symbols.definitions = {}) :
    Shaped { symbols } [] := by
  have absent (key : DefinitionKey) : symbols.definition? key = Option.none := by
    rw [SymbolTable.definition?, none]
    rfl
  have owned : symbols.owned = [] := by
    rw [SymbolTable.owned, none]
    rfl
  have alone (id : NodeId) : Forest.empty.children id = [] := Forest.children_empty
  have apart {p c : NodeId} : c ∉ Forest.empty.children p := by simp [alone]
  refine ⟨⟨fun p c link => absurd link apart, fun p c link => absurd link apart, fun p => ?_⟩,
    ⟨_, rfl, rfl⟩, ?_, ?_, ?_, ?_⟩
  · rw [alone]
    exact List.nodup_nil
  · dsimp only
    rw [owned]
    exact Forest.roots_singleton.2 ⟨_, rfl, rfl⟩
  · intro id brings
    rcases brings_iff.1 brings with ⟨k, slot', found, inside⟩ | ⟨key, d, there, -⟩
    · have there := Forest.slot?_empty.symm.trans found
      split at there
      · cases there
        cases inside
      · cases there
    · cases (absent key).symm.trans there
  · intro key d there
    cases (absent key).symm.trans there
  · intro key d there
    cases (absent key).symm.trans there

/-- A statement that asks for the fifth version of HTML stands in the document. -/
def UsesHtml5 (document : Document) : Prop :=
  ∃ k node, document.forest.get? k = some node ∧ node.kind = .activation .html5

/-- A document being read: its nodes, which may stand where they stand, and what is in use because
a statement says so. What is read may go below `hosts`. -/
structure Sound (hosts : List Host) (document : Document) (held : List NodeId) : Prop extends
    Shaped document held where
  html5 : document.symbols.html5 = true ↔ document.UsesHtml5
  hosted : document.forest.Hosted hosts
  loose : document.forest.Loose

theorem usesHtml5_insertDetached (plain : node.kind ≠ .activation .html5) :
    UsesHtml5 { document with forest := (document.forest.insertDetached node).2 } ↔
      document.UsesHtml5 := by
  unfold UsesHtml5
  simp only [Forest.get?_insertDetached]
  constructor
  · rintro ⟨k, node, found, kind⟩
    split at found
    · cases found
      exact absurd kind plain
    · exact ⟨k, node, found, kind⟩
  · rintro ⟨k, node, found, kind⟩
    refine ⟨k, node, ?_, kind⟩
    rw [if_neg, found]
    rintro rfl
    exact Nat.lt_irrefl _ (Forest.lt_size_of_get? found)

theorem usesHtml5_insertAt (parent child : NodeId) (index : Nat) :
    UsesHtml5 { document with forest := document.forest.insertAt parent index child } ↔
      document.UsesHtml5 := by
  unfold UsesHtml5
  simp only [Forest.get?_insertAt]

namespace Sound

theorem perm (sound : Sound hosts document held) (perm : held.Perm held') :
    Sound hosts document held' := { sound with toShaped := sound.toShaped.perm perm }

theorem lower {fewer : List Host} (sound : Sound hosts document held) (sub : fewer ⊆ hosts) :
    Sound fewer document held :=
  { sound with
    hosted := { sound.hosted with hosts := fun p member => sound.hosted.hosts p (sub member) } }

theorem host {p : NodeId} (sound : Sound hosts document held)
    (found : document.forest.get? p = some node) (isHost : node.isHost) :
    Sound (⟨p, node.isSpace⟩ :: hosts) document held :=
  { sound with hosted := sound.hosted.cons ⟨node, found, .inr ⟨isHost, id⟩⟩ }

theorem drop {own : List NodeId} (sound : Sound hosts document (own ++ held)) :
    Sound hosts document held := { sound with toShaped := sound.toShaped.drop }

/-- A new node outside the tree. -/
theorem insertDetached (sound : Sound hosts document (node.payload ++ held))
    (loose : node.isLoose) :
    Sound hosts { document with forest := (document.forest.insertDetached node).2 }
      (⟨document.forest.slots.size⟩ :: held) := by
  have plain : node.kind ≠ .activation .html5 := by
    intro activates
    simp [Node.isLoose, activates] at loose
  exact ⟨sound.toShaped.insertDetached, sound.html5.trans (usesHtml5_insertDetached plain).symm,
    sound.hosted.insertDetached sound.grown node, Forest.loose_insertDetached sound.loose loose⟩

variable {parent : NodeId}

theorem attach {child : NodeId} (sound : Sound hosts document (child :: held))
    (below : Host.Among parent hosts) (lt : parent.index < child.index) (index : Nat) :
    Sound hosts { document with forest := document.forest.insertAt parent index child } held := by
  have shaped : Shaped document ([child] ++ held) := sound.toShaped
  have root : document.forest.IsRoot child := shaped.isRoot (.head _)
  have ne : parent ≠ child := by
    rintro rfl
    exact Nat.lt_irrefl _ lt
  have other : child ≠ Forest.root := by
    rintro rfl
    exact (List.nodup_cons.1 sound.roots.nodup).1 (List.mem_append_right _ (.head _))
  -- what stands outside the tree is no namespace
  have content (node : Node) (found : document.forest.get? child = some node)
      (space : node.isSpace) : document.forest.HasHost ⟨parent, true⟩ := by
    have loose := sound.loose child node root other found
    simp [Node.isLoose, Node.isSpace_iff.1 space] at loose
  exact ⟨sound.toShaped.attach lt index, sound.html5.trans (usesHtml5_insertAt _ _ index).symm,
    sound.hosted.insertAt root ne (sound.hosted.among below) content index,
    Forest.loose_insertAt (fun id node isRoot top _ => sound.loose id node isRoot top)
      (Forest.isRoot_iff.1 root).1⟩

/-- The nodes with a new one below a parent. -/
theorem insertChild (sound : Sound hosts document (node.payload ++ held))
    (below : Host.Among parent hosts) (space : node.isSpace → ⟨parent, true⟩ ∈ hosts) :
    Shaped { document with forest := (document.forest.insertChild parent node).2 } held ∧
      (document.forest.insertChild parent node).2.Hosted hosts ∧
      (document.forest.insertChild parent node).2.Loose ∧
      (document.forest.insertDetached node).2.IsRoot ⟨document.forest.slots.size⟩ ∧
      parent ≠ ⟨document.forest.slots.size⟩ := by
  have host := sound.hosted.among below
  have lt := host.lt_size
  have shaped : Shaped { document with forest := (document.forest.insertDetached node).2 }
      ([⟨document.forest.slots.size⟩] ++ held) := sound.toShaped.insertDetached
  have root := shaped.isRoot (.head _)
  have ne : parent ≠ ⟨document.forest.slots.size⟩ := by
    rintro rfl
    exact Nat.lt_irrefl _ lt
  have hosted := sound.hosted.insertDetached sound.grown node
  have content (other : Node)
      (found : (document.forest.insertDetached node).2.get? ⟨document.forest.slots.size⟩ =
        some other) (isSpace : other.isSpace) :
      (document.forest.insertDetached node).2.HasHost ⟨parent, true⟩ := by
    rw [Forest.get?_insertDetached, if_pos rfl] at found
    cases found
    exact hosted.hosts _ (space isSpace)
  exact ⟨shaped.attach lt _, hosted.insertAt root ne (hosted.among below) content _,
    Forest.loose_insertChild sound.loose, root, ne⟩

theorem addChild (sound : Sound hosts document (node.payload ++ held))
    (below : Host.Among parent hosts) (plain : node.kind ≠ .activation .html5)
    (space : node.isSpace → ⟨parent, true⟩ ∈ hosts) :
    Sound hosts { document with forest := (document.forest.insertChild parent node).2 } held := by
  obtain ⟨shaped, hosted, loose, root, ne⟩ := sound.insertChild below space
  refine ⟨shaped, sound.html5.trans ?_, hosted, loose⟩
  exact (usesHtml5_insertDetached plain).symm.trans (usesHtml5_insertAt _ _ _).symm

/-- Such a statement enters together with what it turns on. -/
theorem useHtml5 (sound : Sound hosts document held)
    (below : Host.Among parent hosts) (payload : node.payload = [])
    (activates : node.kind = .activation .html5) :
    Sound hosts ⟨(document.forest.insertChild parent node).2, document.symbols.setHtml5⟩
      held := by
  have before : Sound hosts document (node.payload ++ held) := by
    rw [payload]
    exact sound
  have space : node.isSpace → ⟨parent, true⟩ ∈ hosts := by simp [Node.isSpace, activates]
  obtain ⟨shaped, hosted, loose, root, ne⟩ := before.insertChild below space
  refine ⟨shaped.withSymbols rfl, ⟨fun _ => ?_, fun _ => rfl⟩, hosted, loose⟩
  exact ⟨⟨document.forest.slots.size⟩, node, Forest.get?_insertAt.trans
    ((Forest.get?_insertDetached node).trans (if_pos rfl)), activates⟩

theorem modify {id : NodeId} {change : Node → Node} (sound : Sound hosts document held)
    (kind : ∀ node, (change node).kind = node.kind) :
    Sound hosts { document with forest := document.forest.modify id change } held := by
  refine ⟨sound.toShaped.modify kind, sound.html5.trans ?_, sound.hosted.modify kind,
    Forest.loose_modify sound.loose kind⟩
  unfold UsesHtml5
  simp only [Forest.get?_modify]
  constructor
  · rintro ⟨k, node, found, activates⟩
    by_cases same : k = id
    · exact ⟨k, change node, by rw [if_pos same, found, Option.map_some],
        (kind node).trans activates⟩
    · exact ⟨k, node, by rw [if_neg same, found], activates⟩
  · rintro ⟨k, node, found, activates⟩
    split at found
    · obtain ⟨before, there, rfl⟩ := Option.map_eq_some_iff.1 found
      exact ⟨k, before, there, (kind before).symm.trans activates⟩
    · exact ⟨k, node, found, activates⟩

theorem withSymbols {symbols : SymbolTable} (sound : Sound hosts document held)
    (same : symbols.definitions = document.symbols.definitions)
    (html5 : symbols.html5 = document.symbols.html5) : Sound hosts { document with symbols } held :=
  ⟨sound.toShaped.withSymbols same, by rw [html5]; exact sound.html5, sound.hosted, sound.loose⟩

theorem register {definition : Definition} (pending : definition.resolution = .pending)
    (sound : Sound hosts document (definition.elements ++ definition.payload ++ held)) :
    Sound hosts { document with symbols := (document.symbols.register definition).2 } held := by
  have html5 : (document.symbols.register definition).2.html5 = document.symbols.html5 := by
    unfold SymbolTable.register
    split <;> rfl
  exact ⟨sound.toShaped.register pending, by rw [html5]; exact sound.html5, sound.hosted,
    sound.loose⟩

end Sound

theorem sound_empty {symbols : SymbolTable} (none : symbols.definitions = {})
    (html5 : symbols.html5 = false) : Sound [Forest.root] { symbols } [] := by
  refine ⟨shaped_empty none, ⟨fun on => ?_, ?_⟩, ⟨?_, ?_, ?_⟩, ?_⟩
  · rw [html5] at on
    cases on
  · rintro ⟨⟨index⟩, node, found, activates⟩
    cases index with
    | zero =>
      cases found
      cases activates
    | succ index => cases found
  · intro p member
    rw [List.mem_singleton.1 member]
    exact ⟨_, rfl, .inl rfl⟩
  · rintro ⟨index⟩ c link
    cases index with
    | zero | succ => cases link
  · rintro ⟨index⟩ c node link
    cases index with
    | zero | succ => cases link
  · rintro ⟨index⟩ node isRoot top found
    cases index with
    | zero => exact absurd rfl top
    | succ index => cases found

end Document

end TemplateMarkup
