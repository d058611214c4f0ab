import TemplateMarkup.Proofs.ParseYields

/-! Usages, style blocks and edits as they are read: each holds the subtrees that its insertions
bring. -/
namespace TemplateMarkup

def Payload.nodes : Payload → List NodeId
  | .elements nodes => nodes
  | .properties _ => []

@[simp] theorem Edit.payload_insert (position : InsertPosition) (payload : Payload) :
    (Edit.insert position payload).payload = payload.nodes := by
  cases payload <;> rfl

namespace Parse

variable {hosts : List Host}

/-- The nodes that edits bring. -/
abbrev payloadOf (edits : List Edit) : List NodeId := edits.flatMap Edit.payload

def DeleteDraft.payload (draft : DeleteDraft) : List NodeId := payloadOf draft.edits

theorem DeleteDraft.payload_flush (draft : DeleteDraft) :
    payloadOf draft.flush = draft.payload := by
  unfold DeleteDraft.flush
  split
  · rfl
  · simp [payloadOf, DeleteDraft.payload, Edit.payload]

theorem yields_deleteItem (draft : DeleteDraft) :
    Yields hosts draft.payload (deleteItem draft) DeleteDraft.payload := by
  have add (edit : Edit) (nothing : edit.payload = []) :
      DeleteDraft.payload { draft with edits := draft.flush ++ [edit], names := [] } =
        draft.payload := by
    rw [← draft.payload_flush]
    simp [DeleteDraft.payload, payloadOf, nothing]
  have parent : Yields hosts draft.payload (do
      let type ← definitionType
      let name ← definitionName
      return { draft with edits := draft.flush ++ [Edit.deleteParent type name], names := [] })
      DeleteDraft.payload :=
    .andThen fun type => .andThen fun name => yields_pure (add _ rfl)
  refine .andThen fun token => ?_
  dsimp only
  split
  · exact parent
  case h_2 | h_3 => exact .andThen fun _ => parent
  · split
    · refine .andThen fun name => .andThen fun bracket => ?_
      split
      · exact .andThen fun index => yields_pure (add _ rfl)
      · exact yields_pure rfl
    · exact yields_unexpected _

/-- Deletions bring nothing. -/
theorem yields_deleteEdits : Yields hosts [] deleteEdits payloadOf := by
  refine .andThen fun _ => .bind (.loop DeleteDraft.payload (fun draft => ?_) {}) fun draft => ?_
  · refine .ite ?_ (yields_pure rfl)
    exact (yields_deleteItem draft).bind fun draft => .andThen fun more => yields_pure rfl
  · refine .andThen fun closed => ?_
    dsimp only
    split
    · exact .andThen fun _ => yields_pure draft.payload_flush
    · exact yields_pure draft.payload_flush

theorem yields_insertEdit {payload : Parse Payload}
    (inside : Yields hosts [] payload Payload.nodes) :
    Yields hosts [] (insertEdit payload) Edit.payload := by
  refine .andThen fun _ => .andThen fun position => .andThen fun _ => inside.bind fun nodes => ?_
  exact .andThen fun _ => .andThen fun _ => yields_pure (Edit.payload_insert _ _)

theorem yields_insertedProperties : Yields hosts [] insertedProperties Payload.nodes := by
  refine .bind (.loop (fun _ => []) (fun properties => .andThen fun kind => ?_) {})
    fun _ => yields_pure rfl
  split
  case h_1 | h_2 => exact yields_pure rfl
  case h_3 | h_4 => exact .andThen fun _ => yields_pure rfl

end Parse

theorem Usage.payload_append (usage : Usage) (edits : List Edit) :
    (Parse.payloadOf edits ++ usage.payload).Perm
      { usage with edits := usage.edits ++ edits }.payload := by
  have both : { usage with edits := usage.edits ++ edits }.payload =
      usage.payload ++ Parse.payloadOf edits := List.flatMap_append
  rw [both]
  exact List.perm_append_comm

namespace Parse

theorem yields_usageStep {payload : Parse Payload} {other : Usage → Parse Usage}
    (inside : Yields hosts [] payload Payload.nodes)
    (others : ∀ usage, Yields hosts usage.payload (other usage) Usage.payload) (usage : Usage) :
    Yields hosts usage.payload (usageStep payload other usage)
      (stepGives Usage.payload usage) := by
  refine .andThen fun kind => ?_
  split
  case h_1 | h_2 => exact yields_pure rfl
  case h_3 | h_4 => exact .andThen fun _ => yields_pure rfl
  · refine (yields_deleteEdits.frame usage.payload).bind fun edits => ?_
    exact yields_perm (usage.payload_append edits)
  · refine ((yields_insertEdit inside).frame usage.payload).bind fun edit => ?_
    have added := usage.payload_append [edit]
    rw [payloadOf, List.flatMap_singleton] at added
    exact yields_perm added
  · exact (others usage).bind fun usage => yields_pure rfl

/-- A usage holds what its body brings. -/
theorem yields_usageWith {type : DefinitionType} {body : Usage → Parse Usage}
    (inside : ∀ usage, Yields hosts usage.payload (body usage) Usage.payload) :
    Yields hosts [] (usageWith type body) Usage.payload := by
  refine .andThen fun kind => .andThen fun token => .andThen fun found => ?_
  dsimp only
  have rest (name : String) (scope : String) (origin : Option String) :
      Yields hosts [] (do
        let usage ← do
          if ← eat .leftBrace then do
            let usage ← body { type, kind, name, origin, scope }
            let _ ← expect .rightBrace "'\x7d' to close usage body"
            pure usage
          else pure { type, kind, name, origin, scope }
        let _ ← eat .semicolon
        return usage) Usage.payload := by
    refine .andThen fun braced => ?_
    dsimp only
    split
    · refine (inside { type, kind, name, origin, scope }).bind fun usage => ?_
      exact .andThen fun _ => .pureThen (.andThen fun _ => yields_pure rfl)
    · exact .pureThen (.andThen fun _ => yields_pure rfl)
  split
  · exact yields_of_error fun _ _ => ⟨_, rfl⟩
  · refine .andThen fun name => .andThen fun scope => .andThen fun named => ?_
    split <;> exact .andThen fun origin => rest name scope origin

theorem yields_propertyUsage (type : DefinitionType) :
    Yields hosts [] (propertyUsage type) Usage.payload := by
  refine yields_usageWith fun usage => .deeper (.loop Usage.payload (fun usage => ?_) usage)
  refine yields_usageStep yields_insertedProperties (fun usage => ?_) usage
  exact .andThen fun _ => yields_pure rfl

/-- The nodes that the usages in style items bring. -/
def itemsPayload (items : List StyleItem) : List NodeId :=
  (StyleItem.usagesIn items).flatMap Usage.payload

theorem itemsPayload_append (items : List StyleItem) (item : StyleItem) :
    itemsPayload (items ++ [item]) = itemsPayload items ++ item.usages.flatMap Usage.payload := by
  induction items with
  | nil => simp [itemsPayload, StyleItem.usagesIn]
  | cons first items ih =>
    simp only [itemsPayload, List.cons_append, StyleItem.usagesIn, List.flatMap_append,
      List.append_assoc] at ih ⊢
    rw [ih]

theorem itemsPayload_concat (items : List StyleItem) (item : StyleItem) :
    (item.usages.flatMap Usage.payload ++ itemsPayload items).Perm
      (itemsPayload (items ++ [item])) := by
  rw [itemsPayload_append]
  exact List.perm_append_comm

/-- An item goes behind those that were read. -/
theorem Yields.addItem {α : Type} {x : Parse α} {item : α → StyleItem} {items : List StyleItem}
    {gives : α → List NodeId} (yields : Yields hosts [] x gives)
    (same : ∀ a, (item a).usages.flatMap Usage.payload = gives a) :
    Yields hosts (itemsPayload items) (do return some (items ++ [item (← x)]))
      (stepGives itemsPayload items) := by
  refine (yields.frame (itemsPayload items)).bind fun a => ?_
  rw [← same a]
  exact yields_perm (itemsPayload_concat items (item a))

theorem yields_styleStep {rule : Option (Parse StyleItem)}
    (inside : ∀ r ∈ rule, Yields hosts [] r fun item => item.usages.flatMap Usage.payload)
    (items : List StyleItem) :
    Yields hosts (itemsPayload items) (styleStep rule items)
      (stepGives itemsPayload items) := by
  have usage : Yields hosts (itemsPayload items) (do
      return some (items ++ [StyleItem.usage (← propertyUsage .style)]))
      (stepGives itemsPayload items) :=
    (yields_propertyUsage .style).addItem fun usage => by simp [StyleItem.usages]
  refine .andThen fun token => ?_
  split
  case h_1 | h_2 => exact yields_pure rfl
  case h_3 | h_4 => exact .andThen fun _ => yields_pure rfl
  case h_5 | h_6 | h_7 => exact usage
  · exact .andThen fun text => yields_perm (itemsPayload_concat items (.raw text))
  · refine .andThen fun ahead => .ite ?_ ?_
    · refine .andThen fun _ => yields_perm ?_
      exact itemsPayload_concat items (.property _ _)
    · cases ahead with
      | false => exact yields_unexpected _
      | true =>
        cases rule with
        | none => exact yields_unexpected _
        | some rule => exact (inside rule rfl).addItem fun _ => rfl

theorem yields_styleRule :
    Yields hosts [] styleRule fun item => item.usages.flatMap Usage.payload := by
  refine .andThen fun selector => .andThen fun _ => .bind (.loop itemsPayload (fun items => ?_) [])
    fun items => .andThen fun _ => yields_pure rfl
  exact yields_styleStep (by simp) items

theorem yields_styleBlock :
    Yields hosts [] styleBlock fun block => itemsPayload block.items := by
  refine .andThen fun _ => .andThen fun _ => .bind (.loop itemsPayload (fun items => ?_) [])
    fun items => .andThen fun _ => yields_pure rfl
  refine yields_styleStep (fun rule member => ?_) items
  cases member
  exact yields_styleRule

end Parse

end TemplateMarkup
