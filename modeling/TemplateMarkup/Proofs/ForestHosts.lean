import TemplateMarkup.Proofs.ForestCopies

/-! Which nodes may stand where. Apart from the top of the tree only elements and namespaces have
nodes below them, namespaces do not stand in elements, and what stands outside the tree is
content. -/
namespace TemplateMarkup

/-- Whether a node may have others below it. -/
def Node.isHost (node : Node) : Bool :=
  match node.kind with
  | .element => true
  | .scope => true
  | _ => false

/-- Whether a node may have namespaces below it. -/
def Node.isSpace (node : Node) : Bool :=
  match node.kind with
  | .scope => true
  | _ => false

theorem Node.isSpace_iff {node : Node} : node.isSpace ↔ node.kind = .scope := by
  unfold Node.isSpace
  split <;> simp_all

/-- Whether a node may be the top of what is defined or inserted. -/
def Node.isLoose (node : Node) : Bool :=
  match node.kind with
  | .element => true
  | .text => true
  | .comment => true
  | .usage _ => true
  | .origin _ => true
  | _ => false

/-- A node that others may be put below, and whether namespaces may. -/
structure Host where
  id : NodeId
  isSpace : Bool := true

/-- The top of the tree is open to all. -/
instance : Coe NodeId Host := ⟨fun id => { id }⟩

/-- Nodes may be put below a node. -/
def Host.Among (p : NodeId) (hosts : List Host) : Prop := ∃ isSpace, ⟨p, isSpace⟩ ∈ hosts

namespace Forest

variable {f : Forest} {hosts : List Host} {host : Host} {p c k id : NodeId} {node : Node}
  {index : Nat}

/-- A node that may have others below it is there. -/
def HasHost (f : Forest) (host : Host) : Prop :=
  ∃ node, f.get? host.id = some node ∧
    (host.id = root ∨ node.isHost ∧ (host.isSpace → node.isSpace))

theorem lt_size_of_get? (found : f.get? k = some node) : k.index < f.slots.size := by
  obtain ⟨slot, there, -⟩ := Option.map_eq_some_iff.1 found
  exact lt_size_of_slot? there

theorem HasHost.lt_size (there : f.HasHost host) : host.id.index < f.slots.size := by
  obtain ⟨node, found, -⟩ := there
  exact lt_size_of_get? found

theorem HasHost.closed {isSpace : Bool} (there : f.HasHost ⟨p, isSpace⟩) :
    f.HasHost ⟨p, false⟩ := by
  obtain ⟨node, found, top | ⟨isHost, -⟩⟩ := there
  · exact ⟨node, found, .inl top⟩
  · exact ⟨node, found, .inr ⟨isHost, nofun⟩⟩

/-- Only nodes that may have others below them do, and `hosts` may. -/
structure Hosted (hosts : List Host) (f : Forest) : Prop where
  hosts : ∀ host ∈ hosts, f.HasHost host
  parents : ∀ p c, c ∈ f.children p → f.HasHost ⟨p, false⟩
  spaces : ∀ p c node, c ∈ f.children p → f.get? c = some node → node.isSpace → f.HasHost ⟨p, true⟩

section

variable (hosted : f.Hosted hosts)

include hosted

theorem Hosted.cons (there : f.HasHost host) : f.Hosted (host :: hosts) where
  hosts other member := by
    rcases List.mem_cons.1 member with rfl | member
    · exact there
    · exact hosted.hosts other member
  parents := hosted.parents
  spaces := hosted.spaces

theorem Hosted.among (among : Host.Among p hosts) : f.HasHost ⟨p, false⟩ := by
  obtain ⟨isSpace, member⟩ := among
  exact (hosted.hosts _ member).closed

theorem Hosted.insertDetached (grown : f.Grown) (node : Node) :
    (f.insertDetached node).2.Hosted hosts := by
  have old {k : NodeId} {other : Node} (found : f.get? k = some other) :
      (f.insertDetached node).2.get? k = some other := by
    rw [get?_insertDetached, if_neg, found]
    rintro rfl
    exact Nat.lt_irrefl _ (lt_size_of_get? found)
  have stays {host : Host} (there : f.HasHost host) : (f.insertDetached node).2.HasHost host := by
    obtain ⟨other, found, isHost⟩ := there
    exact ⟨other, old found, isHost⟩
  have link {p c : NodeId} (link : c ∈ (f.insertDetached node).2.children p) :
      c ∈ f.children p := by
    obtain ⟨slot, found, member⟩ := exists_slot_of_mem_children link
    rw [slot?_insertDetached] at found
    split at found
    · cases found
      cases member
    · rwa [children_eq found]
  refine ⟨fun host member => stays (hosted.hosts host member), fun p c new =>
    stays (hosted.parents p c (link new)), fun p c other new found isSpace => ?_⟩
  obtain ⟨slot, there, -⟩ := grown.exists_slot (link new)
  have before : f.get? c = some slot.node := by rw [get?, there, Option.map_some]
  cases (old before).symm.trans found
  exact stays (hosted.spaces p c _ (link new) before isSpace)

theorem Hosted.insertAt (root : f.IsRoot c) (ne : p ≠ c) (there : f.HasHost ⟨p, false⟩)
    (space : ∀ node, f.get? c = some node → node.isSpace → f.HasHost ⟨p, true⟩) (index : Nat) :
    (f.insertAt p index c).Hosted hosts := by
  have stays {host : Host} (there : f.HasHost host) : (f.insertAt p index c).HasHost host := by
    obtain ⟨node, found, isHost⟩ := there
    exact ⟨node, get?_insertAt.trans found, isHost⟩
  refine ⟨fun host member => stays (hosted.hosts host member), fun q d link => ?_,
    fun q d node link found isSpace => ?_⟩
  · rcases mem_children_insertAt root ne link with old | ⟨rfl, rfl⟩
    · exact stays (hosted.parents q d old)
    · exact stays there
  · rw [get?_insertAt] at found
    rcases mem_children_insertAt root ne link with old | ⟨rfl, rfl⟩
    · exact stays (hosted.spaces q d node old found isSpace)
    · exact stays (space node found isSpace)

theorem Hosted.modify {change : Node → Node} (kind : ∀ node, (change node).kind = node.kind) :
    (f.modify id change).Hosted hosts := by
  have isHost (node : Node) : (change node).isHost = node.isHost := by
    rw [Node.isHost, kind, Node.isHost]
  have isSpace (node : Node) : (change node).isSpace = node.isSpace := by
    rw [Node.isSpace, kind, Node.isSpace]
  have stays {host : Host} (there : f.HasHost host) : (f.modify id change).HasHost host := by
    obtain ⟨node, found, may⟩ := there
    rw [HasHost, get?_modify, found]
    split
    · exact ⟨_, rfl, by rwa [isHost, isSpace]⟩
    · exact ⟨node, rfl, may⟩
  refine ⟨fun host member => stays (hosted.hosts host member), fun q c link => ?_,
    fun q c node link found space => ?_⟩
  · rw [children_modify] at link
    exact stays (hosted.parents q c link)
  · rw [children_modify] at link
    rw [get?_modify] at found
    split at found
    · obtain ⟨before, there, rfl⟩ := Option.map_eq_some_iff.1 found
      rw [isSpace] at space
      exact stays (hosted.spaces q c before link there space)
    · exact stays (hosted.spaces q c node link found space)

end

/-- A forest with new nodes. Of those that were there, only `hosts` have new ones below them. -/
structure GrowsBelow (hosts : List Host) (f g : Forest) : Prop where
  size_le : f.slots.size ≤ g.slots.size
  children : ∀ k, k.index < f.slots.size → ¬ Host.Among k hosts → g.children k = f.children k

theorem GrowsBelow.refl : f.GrowsBelow hosts f := ⟨Nat.le_refl _, fun _ _ _ => rfl⟩

theorem GrowsBelow.trans {g h : Forest} (first : f.GrowsBelow hosts g)
    (second : g.GrowsBelow hosts h) : f.GrowsBelow hosts h where
  size_le := Nat.le_trans first.size_le second.size_le
  children k lt other := by
    rw [second.children k (Nat.lt_of_lt_of_le lt first.size_le) other, first.children k lt other]

/-- A new node may have new ones below it as well. -/
theorem GrowsBelow.transHost {g h : Forest} (first : f.GrowsBelow hosts g)
    (second : g.GrowsBelow (host :: hosts) h) (new : f.slots.size ≤ host.id.index) :
    f.GrowsBelow hosts h where
  size_le := Nat.le_trans first.size_le second.size_le
  children k lt other := by
    have among : ¬ Host.Among k (host :: hosts) := by
      rintro ⟨isSpace, member⟩
      rcases List.mem_cons.1 member with same | member
      · rw [← same] at new
        exact absurd lt (Nat.not_lt.2 new)
      · exact other ⟨isSpace, member⟩
    rw [second.children k (Nat.lt_of_lt_of_le lt first.size_le) among, first.children k lt other]

theorem growsBelow_insertDetached : f.GrowsBelow hosts (f.insertDetached node).2 where
  size_le := by simp
  children k lt _ := by
    refine children_congr ?_
    rw [slot?_insertDetached, if_neg]
    rintro rfl
    exact Nat.lt_irrefl _ lt

theorem growsBelow_insertAt (root : f.IsRoot c) (ne : p ≠ c) (below : Host.Among p hosts)
    (index : Nat) : f.GrowsBelow hosts (f.insertAt p index c) where
  size_le := by simp
  children k _ other := by
    refine children_insertAt root ne ?_
    rintro rfl
    exact other below

theorem growsBelow_insertChild (below : Host.Among p hosts) (lt : p.index < f.slots.size) :
    f.GrowsBelow hosts (f.insertChild p node).2 := by
  have root : (f.insertDetached node).2.IsRoot ⟨f.slots.size⟩ :=
    ⟨_, slot?_insertDetached_self f node, rfl⟩
  refine growsBelow_insertDetached.trans (growsBelow_insertAt root ?_ below _)
  rintro rfl
  exact Nat.lt_irrefl _ lt

/-- What stands outside the tree may be the top of what is defined or inserted. -/
def Loose (f : Forest) : Prop :=
  ∀ id node, f.IsRoot id → id ≠ root → f.get? id = some node → node.isLoose

theorem loose_insertDetached (loose : f.Loose) (new : node.isLoose) :
    (f.insertDetached node).2.Loose := by
  intro id other isRoot ne found
  obtain ⟨slot, there, free⟩ := isRoot
  rw [slot?_insertDetached] at there
  rw [get?_insertDetached] at found
  split at there
  · next same =>
    rw [if_pos same] at found
    cases found
    exact new
  · next old =>
    rw [if_neg old] at found
    exact loose id other ⟨slot, there, free⟩ ne found

/-- What goes below a node need not be such content. -/
theorem loose_insertAt
    (loose : ∀ id node, f.IsRoot id → id ≠ Forest.root → id ≠ c → f.get? id = some node →
      node.isLoose) (live : f.contains c) : (f.insertAt p index c).Loose := by
  intro id node isRoot top found
  rw [get?_insertAt] at found
  have free := isRoot.parent?
  rw [parent?_insertAt live] at free
  split at free
  · cases free
  · next other =>
    refine loose id node ?_ top other found
    obtain ⟨slot, there, -⟩ := Option.map_eq_some_iff.1 found
    exact ⟨slot, there, by rwa [parent?_eq there] at free⟩

theorem loose_insertChild (loose : f.Loose) : (f.insertChild p node).2.Loose := by
  change ((f.insertDetached node).2.insertAt p _ ⟨f.slots.size⟩).Loose
  refine loose_insertAt (fun id other isRoot top old found => ?_)
    (contains_iff.2 ⟨_, slot?_insertDetached_self f node⟩)
  rw [get?_insertDetached, if_neg old] at found
  obtain ⟨slot, there, free⟩ := isRoot
  rw [slot?_insertDetached, if_neg old] at there
  exact loose id other ⟨slot, there, free⟩ top found

theorem loose_modify {change : Node → Node} (loose : f.Loose)
    (kind : ∀ node, (change node).kind = node.kind) : (f.modify id change).Loose := by
  intro k node isRoot top found
  rw [isRoot_modify] at isRoot
  rw [get?_modify] at found
  split at found
  · obtain ⟨before, there, rfl⟩ := Option.map_eq_some_iff.1 found
    rw [Node.isLoose, kind]
    exact loose k before isRoot top there
  · exact loose k node isRoot top found

end Forest

end TemplateMarkup
