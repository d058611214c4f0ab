import TemplateMarkup.Proofs.ParsedDocuments
import TemplateMarkup.Proofs.ResolveCalls

/-! Resolving in a document as it is read. Definitions are worked out on demand and in place, and
the order in which that happens cannot be seen in what a call answers. -/
namespace TemplateMarkup

open Resolve

variable {document : Document} {hosts : List Host} {held : List NodeId}

theorem Document.Sound.standing (sound : document.Sound hosts held) :
    Standing document { document } :=
  ⟨sound.stored, rests_of_unresolved sound.unresolved⟩

/-- What a call answers does not depend on the calls before it. -/
theorem Call.run_runAll_eq_run (source : String) (tokens : List Token) (config : Config)
    (options : ParseOptions) :
    let document := (ParseResult.ofTokens source tokens { config } options).document
    ∀ (calls : List (Call document)) (call : Call document),
      (call.run (Call.runAll calls { document })).1 = (call.run { document }).1 := by
  intro document calls call
  have sound : document.Sound [Forest.root] [] :=
    ParseResult.sound_ofTokens source tokens config options
  have keyed := sound.unresolved.keyed
  have later := Call.standing_runAll keyed calls sound.standing
  exact (call.run_agree keyed later sound.standing).1

end TemplateMarkup
