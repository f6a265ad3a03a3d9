import YaraRules.Draft.File
import YaraRules.Proofs.DraftRows
import YaraRules.Proofs.NodeRanges
import YaraRules.Proofs.Outcomes
import YaraRules.Proofs.ReadFiles

/-! Files that can be reached. Whatever is read, built or edited, the rows of the imports
and rules of a file stand in its tokens one behind the other, so no rule ever holds a
handle that names no token, or tokens that are out of order. -/

namespace YaraRules

/-! ### Files that are built -/

theorem RuleFile.empty_ordered (id : ChainId) (features : Features) : (RuleFile.empty id features).Ordered := by
  have lone : (TokenStream.empty id).Lone := ⟨TokenStream.sound_empty id, rfl⟩
  refine ⟨⟨lone.tidy, ⟨[], .refl _, List.nil_sublist _⟩, ?_⟩, ?_⟩
  · simp [RuleFile.rows, RuleFile.empty]
  · simp [RuleFile.empty]

namespace FileDraft

open FileEdit (Preserves)

theorem appendNewline_preserves : Preserves appendNewline := by
  refine .get_bind fun _ => ?_
  intro file u file' ordered done
  obtain ⟨h, tokens, inserted, rest⟩ := FileEdit.onTokens_bind done
  cases rest
  obtain ⟨tidy, spots, _⟩ := TokenEdit.insertAt_spots ordered.listed.tidy inserted (List.append_nil _).symm rfl
  obtain ⟨items, same, inside⟩ := ordered.listed.order
  refine ⟨⟨tidy, ⟨items, same, inside.trans ?_⟩, ordered.listed.chain⟩, ordered.filed⟩
  rw [TokenStream.code, TokenStream.code, spots, List.append_nil, TokenStream.codeOf_append]
  exact List.sublist_append_left _ _

private theorem appendRule_preserves {rule : Detached Rule} (ready : rule.Ready Rule.row) (filed : rule.node.Filed) :
    Preserves (appendRule rule) := by
  have rest : Preserves (do FileEdit.addRule rule; appendNewline) :=
    .bind (FileEdit.addRule_preserves ready filed) fun _ => appendNewline_preserves
  refine .get_bind fun file => ?_
  dsimp only
  split_ifs
  · exact .bind appendNewline_preserves fun _ => rest
  · exact rest

private theorem assemble_preserves {draft : FileDraft}
    (ready : ∀ rule ∈ draft.rules, rule.Ready Rule.row ∧ rule.node.Filed) : Preserves draft.assemble := by
  refine .bind (.forIn FileEdit.addImport_preserves draft.modules) fun _ => .forM fun rule member => ?_
  obtain ⟨ready, filed⟩ := ready rule member
  exact appendRule_preserves ready filed

private theorem build_ordered {draft : FileDraft} {verify : Bool} {file : RuleFile}
    (ready : ∀ rule ∈ draft.rules, rule.Ready Rule.row ∧ rule.node.Filed) (done : draft.build verify = .ok file) :
    file.Ordered := by
  unfold build at done
  split at done
  next => cases done
  next u written run =>
    have ordered := assemble_preserves ready _ u written (RuleFile.empty_ordered draft.nextId draft.features) run
    split_ifs at done
    · dsimp only at done
      split at done
      next read =>
        cases done
        exact RuleFile.ofSource_ordered read
      next => cases done
    · cases done
      exact ordered

end FileDraft

/-! ### Edits and what they are given -/

/-- Replacements are built from drafts, or are copies of the nodes that they replace. -/
def RuleEdit.Proposes (modifier : RuleEdit.Modifier) : Prop :=
  ∀ id tokens node replacement, modifier id tokens node = some replacement →
    (∃ (draft : ConditionDraft) (own : ChainId), draft.build own = .ok replacement) ∨
      ∃ own, Detached.copyOf Expr.rename tokens own node node.first node.last = .ok replacement

theorem RuleEdit.Proposes.offers {modifier : RuleEdit.Modifier} (proposes : RuleEdit.Proposes modifier) :
    RuleEdit.Offers modifier := by
  intro id tokens node replacement offered
  rcases proposes id tokens node replacement offered with ⟨draft, own, built⟩ | ⟨own, copied⟩
  · exact .inl (ConditionDraft.build_ready built)
  · exact .inr ⟨(0, node), node.self_node, own, copied⟩

/-- Edits of a rule. -/
inductive RuleEdit.Admitted : {α : Type} → RuleEdit α → Prop
  | setPrivate (wanted : Bool) : Admitted (RuleEdit.setPrivate wanted)
  | setGlobal (wanted : Bool) : Admitted (RuleEdit.setGlobal wanted)
  | addTag (tag : String) : Admitted (RuleEdit.addTag tag)
  | removeTag (tag : String) : Admitted (RuleEdit.removeTag tag)
  | addMeta (key : String) (value : Literal) : Admitted (RuleEdit.addMeta key value)
  | setMetaValue (key : String) (value : Literal) : Admitted (RuleEdit.setMetaValue key value)
  | removeMeta (key : String) : Admitted (RuleEdit.removeMeta key)
  | renameString (old new : String) : Admitted (RuleEdit.renameString old new)
  | removeString (id : String) : Admitted (RuleEdit.removeString id)
  | setCondition {draft : ConditionDraft} {id : ChainId} {condition : Detached Expr}
      (built : draft.build id = .ok condition) : Admitted (RuleEdit.setCondition condition)
  | modifyCondition {modifier : RuleEdit.Modifier} (proposes : RuleEdit.Proposes modifier) :
      Admitted (RuleEdit.modifyCondition modifier)

mutual

/-- Files that edits which succeed lead to, from files that were read or built. -/
inductive RuleFile.Reachable : RuleFile → Prop
  | empty (id : ChainId) (features : Features) : RuleFile.Reachable (RuleFile.empty id features)
  | read {settings : Settings} {tree : FileTree} {id : ChainId} {content : Bytes} {file : RuleFile}
      (done : RuleFile.ofSource settings tree id content = .ok file) : RuleFile.Reachable file
  | readPath {settings : Settings} {tree : FileTree} {id : ChainId} {path : String} {file : RuleFile}
      (done : RuleFile.ofPath settings tree id path = .ok file) : RuleFile.Reachable file
  | built {draft : FileDraft} {verify : Bool} {file : RuleFile} (supplied : ∀ rule ∈ draft.rules, Rule.Supplied rule)
      (done : draft.build verify = .ok file) : RuleFile.Reachable file
  | edited {α : Type} {edit : FileEdit α} {a : α} {file file' : RuleFile} (reachable : RuleFile.Reachable file)
      (admitted : FileEdit.Admitted edit) (done : file.edit edit = (.ok a, file')) : RuleFile.Reachable file'
  | ruleEdited {α : Type} {edit : RuleEdit α} {a : α} {name : String} {file file' : RuleFile}
      (reachable : RuleFile.Reachable file)
      (admitted : RuleEdit.Admitted edit)
      (done : file.editRule name edit = some (.ok a, file')) : RuleFile.Reachable file'

/-- Rules that were built from a draft or copied from a file. -/
inductive Rule.Supplied : Detached Rule → Prop
  | built {draft : RuleDraft} {id : ChainId} {rule : Detached Rule} (filled : draft.Filled)
      (done : draft.build id = .ok rule) : Rule.Supplied rule
  | copied {file : RuleFile} {rule : Rule} {id : ChainId} {copy : Detached Rule} (reachable : RuleFile.Reachable file)
      (member : rule ∈ file.rules)
      (done : Detached.copyOf Rule.rename file.tokens id rule rule.first rule.last = .ok copy) : Rule.Supplied copy

/-- Edits of a file. -/
inductive FileEdit.Admitted : {α : Type} → FileEdit α → Prop
  | addImport (name : String) : FileEdit.Admitted (FileEdit.addImport name)
  | removeImport (name : String) : FileEdit.Admitted (FileEdit.removeImport name)
  | addRule {rule : Detached Rule} (supplied : Rule.Supplied rule) : FileEdit.Admitted (FileEdit.addRule rule)
  | insertRule {rule : Detached Rule} (index : Nat) (supplied : Rule.Supplied rule) :
      FileEdit.Admitted (FileEdit.insertRule index rule)
  | removeRule (name : String) : FileEdit.Admitted (FileEdit.removeRule name)
  | renameRule (old new : String) : FileEdit.Admitted (FileEdit.renameRule old new)

end

/-- An edit of a rule that succeeds leaves a file in order. -/
theorem RuleEdit.Admitted.preserves {α : Type} {edit : RuleEdit α} (admitted : RuleEdit.Admitted edit)
    {file file' : RuleFile} {name : String} {a : α} (ordered : file.Ordered)
    (done : file.editRule name edit = some (.ok a, file')) : file'.Ordered := by
  cases admitted with
  | setPrivate wanted =>
    exact ordered.editRule (fun tidy filed _ _ run => setModifier_keeps (by decide) tidy filed run) done
  | setGlobal wanted =>
    exact ordered.editRule (fun tidy filed _ _ run => setModifier_keeps (by decide) tidy filed run) done
  | addTag tag => exact ordered.editRule (fun tidy filed _ _ run => addTag_keeps tidy filed run) done
  | removeTag tag => exact ordered.editRule (fun tidy filed _ _ run => removeTag_keeps tidy filed run) done
  | addMeta key value => exact ordered.editRule (fun tidy filed _ _ run => addMeta_keeps tidy filed run) done
  | setMetaValue key value => exact ordered.editRule (fun tidy filed _ _ run => setMetaValue_keeps tidy filed run) done
  | removeMeta key => exact ordered.editRule (fun tidy filed _ _ run => removeMeta_keeps tidy filed run) done
  | renameString old new => exact ordered.editRule (fun tidy filed _ _ run => renameString_keeps tidy filed run) done
  | removeString id => exact ordered.editRule (fun tidy filed _ _ run => removeString_keeps tidy filed run) done
  | setCondition built =>
    have ready := ConditionDraft.build_ready built
    exact ordered.editRule (fun tidy filed _ _ run => setCondition_keeps ready tidy filed run) done
  | modifyCondition proposes =>
    exact ordered.editRule (fun tidy filed listed one run =>
      modifyCondition_keeps proposes.offers tidy filed listed one run)
      done

/-- A rule of a file in order, as a copy that can be put into a file. -/
theorem RuleFile.Ordered.copy {file : RuleFile} (ordered : file.Ordered) {rule : Rule} (member : rule ∈ file.rules)
    {id : ChainId} {copy : Detached Rule}
    (done : Detached.copyOf Rule.rename file.tokens id rule rule.first rule.last = .ok copy) :
    copy.Ready Rule.row ∧ copy.node.Filed := by
  have row : rule.row ∈ file.rows := List.mem_append_right _ (List.mem_map_of_mem member)
  obtain ⟨chain, one⟩ := ordered.listed.chain _ row
  constructor
  · refine .copyOf (fun names rule =>
      rule.row_mapHandles names.apply) ordered.listed.tidy rule.head?_row rule.getLast?_row
      (fun h inside => ?_) (ordered.listed.sublist row) done
    rw [one h inside, one rule.first (List.mem_of_head? rule.head?_row)]
  · obtain ⟨names, _, _, rfl⟩ := Detached.copyOf_done done
    exact (ordered.filed rule member).mapHandles names.apply

mutual

theorem RuleFile.Reachable.ordered : ∀ {file : RuleFile}, file.Reachable → file.Ordered
  | _, .empty id features => RuleFile.empty_ordered id features
  | _, .read done => RuleFile.ofSource_ordered done
  | _, .readPath done => RuleFile.ofPath_ordered done
  | _, .built supplied done => FileDraft.build_ordered (fun rule member => (supplied rule member).ready) done
  | _, .edited reachable admitted done => admitted.preserves _ _ _ reachable.ordered done
  | _, .ruleEdited reachable admitted done => admitted.preserves reachable.ordered done

theorem Rule.Supplied.ready : ∀ {rule : Detached Rule}, Rule.Supplied rule → rule.Ready Rule.row ∧ rule.node.Filed
  | _, .built filled done => RuleDraft.build_ready filled done
  | _, .copied reachable member done => reachable.ordered.copy member done

theorem FileEdit.Admitted.preserves : ∀ {α : Type} {edit : FileEdit α}, FileEdit.Admitted edit → FileEdit.Preserves edit
  | _, _, .addImport name => FileEdit.addImport_preserves name
  | _, _, .removeImport name => FileEdit.removeImport_preserves name
  | _, _, .addRule supplied => FileEdit.addRule_preserves supplied.ready.1 supplied.ready.2
  | _, _, .insertRule index supplied => FileEdit.insertRule_preserves supplied.ready.1 supplied.ready.2 index
  | _, _, .removeRule name => FileEdit.removeRule_preserves name
  | _, _, .renameRule old new => FileEdit.renameRule_preserves old new

end

/-- The handles that the rules of a file hold never go stale and stay in order, whatever was
done to the file. -/
theorem RuleFile.Reachable.rules_alive {file : RuleFile} (reachable : file.Reachable) :
    ∀ rule ∈ file.rules, rule.Alive file.tokens := by
  intro rule member
  have listed := reachable.ordered.listed
  have row : rule.row ∈ file.rows := List.mem_append_right _ (List.mem_map_of_mem member)
  obtain ⟨id, chain⟩ := listed.chain _ row
  exact listed.tidy.alive (listed.sublist row) chain

/-- A draft of `rule a { strings: $s = "x" condition: $s or not true }`. -/
def sampleDraft : RuleDraft :=
  ((RuleDraft.withName {} "a").withString "$s" (.plain "x")).withCondition
    (.binary .or (.stringUse .reference "$s") (.unary .not (.boolean true)) false)

private theorem sampleDraft_tagged : yields (sampleDraft.build 1) (fun rule =>
    leaves ((RuleFile.empty 0 Features.current).edit (FileEdit.addRule rule)) fun file =>
    leavesRule (file.editRule "a" (RuleEdit.addTag "t")) fun file' => file'.rules.length == 1) = true := by
  decide +kernel

/-- A rule that was built, added to an empty file and given a tag there. -/
theorem rules_alive_after_tag : ∃ (rule : Detached Rule) (file file' : RuleFile), sampleDraft.build 1 = .ok rule ∧
    (RuleFile.empty 0 Features.current).edit (FileEdit.addRule rule) = (.ok (), file) ∧
    file.editRule "a" (RuleEdit.addTag "t") = some (.ok (), file') ∧
    file'.rules.length = 1 ∧ ∀ rule ∈ file'.rules, rule.Alive file'.tokens := by
  obtain ⟨rule, built, run⟩ := yields_iff.mp sampleDraft_tagged
  obtain ⟨_, file, added, run⟩ := leaves_iff.mp run
  obtain ⟨_, file', tagged, one⟩ := leavesRule_iff.mp run
  have filled : sampleDraft.Filled := .withCondition _ (.withString _ _ (.withName "a" .new))
  have added' := RuleFile.Reachable.edited (.empty 0 Features.current) (.addRule (.built filled built)) added
  exact ⟨rule, file, file', built, added, tagged, eq_of_beq one,
    RuleFile.Reachable.rules_alive (.ruleEdited added' (.addTag "t") tagged)⟩

end YaraRules
