import YaraRules.Proofs.DraftForms
import YaraRules.Proofs.FileEditForms
import YaraRules.Proofs.Outcomes
import YaraRules.Proofs.ReadRuleForms
import YaraRules.Proofs.RuleCopies

/-! Files stay in good form. Whether a file was read, built or is empty, and whether the edits
that were tried on it succeeded or failed, its rules and modules have different names and
every rule is in good form. -/

namespace YaraRules

/-! ### Rules and conditions that are given -/

namespace RuleFile

variable {file : RuleFile} {rule : Rule}

/-- A file that was read is in good form, with its words told. -/
theorem Read.proper (read : file.Read) : file.Proper := by
  have formed := read.formed
  refine ⟨read.reachable.ordered.listed, fun rule member => ?_, formed.names, formed.imports⟩
  have placed (role : Role) (listed : role ∈ rule.roles (rule.nameText file.tokens)) :=
    read.linked.placed role (List.mem_flatMap.mpr ⟨rule, member, listed⟩)
  have texted {h : Handle} {a : Token} (held : h ∈ rule.definitions) (stored : file.tokens.get? h = some a) :
      a.literal.asText?.isSome := by
    obtain ⟨b, stored', text⟩ := read.texted rule member h held
    exact Option.some.inj (stored'.symm.trans stored) ▸ text
  refine ⟨formed.rules rule member, ?_, fun h held => ?_, fun h held => ?_⟩
  · obtain ⟨a, stored, kind, plain, _⟩ := placed (.ruleName rule.name _) List.mem_cons_self
    exact ⟨a, ⟨stored, plain⟩, kind, texted List.mem_cons_self stored⟩
  · have head : h ∈ rule.headRow := rule.words_head (List.mem_cons_of_mem _ (List.mem_append_left _ held))
    obtain ⟨a, stored⟩ := Option.isSome_iff_exists.mp
      (read.reachable.ordered.row_alive member (rule.row_eq ▸ List.mem_append_left _ head))
    exact ⟨a, stored, read.head_plain member head stored⟩
  · obtain ⟨a, stored, kind, plain⟩ :=
      placed (.stringName h) (List.mem_cons_of_mem _ (List.mem_append_left _ (List.mem_map_of_mem held)))
    exact ⟨a, ⟨stored, plain⟩, kind, texted (List.mem_cons_of_mem _ held) stored⟩

private theorem empty_proper (id : ChainId) (features : Features) : (RuleFile.empty id features).Proper :=
  ⟨(empty_ordered id features).listed, nofun, List.nodup_nil, List.nodup_nil⟩

theorem Proper.copy (proper : file.Proper) (member : rule ∈ file.rules) {id : ChainId} {copy : Detached Rule}
    (done : Detached.copyOf Rule.rename file.tokens id rule rule.first rule.last =
    .ok copy) : copy.node.Proper copy.tokens := by
  obtain ⟨names, stream, copied, rfl⟩ := Detached.copyOf_done done
  have tidy := proper.listed.tidy
  obtain ⟨a, stored, _⟩ :=
    tidy.get?_of_code ((proper.ordered.row_listed member).subset (List.mem_of_head? rule.head?_row))
  obtain ⟨owner, held, _⟩ := Option.bind_eq_some_iff.mp stored
  obtain ⟨_, handles, copies⟩ := tidy.sound.copies held copied
  refine (proper.proper rule member).mapHandles fun h word a tells => ⟨?_, tells.2⟩
  exact copies.arrives_plain (proper.ordered.row_copied member copies (rule.words_row word)) tells.1 tells.2

private theorem Proper.condition_ready (proper : file.Proper) (member : rule ∈ file.rules) {copy : Detached Expr}
    (copied : rule.condition.Copied file.tokens copy) : copy.Ready Expr.handles := by
  have part := rule.condition_sublist
  exact copied.ready proper.listed.tidy (part.trans (proper.ordered.row_listed member))
    fun h held => proper.ordered.row_chain member (part.subset held)

end RuleFile

namespace FileDraft

open FileEdit (Upholds)

private theorem appendNewline_upholds : Upholds appendNewline := by
  intro file result file' ends proper
  obtain ⟨_, tokens, inserted, _, grows⟩ :=
    TokenEdit.insertAt_succeeds proper.listed.tidy none nofun file.tokens.newline
  cases ends.get_bind.after (FileEdit.onTokens_succeeds inserted)
  have ordered := appendNewline_preserves file () _ proper.ordered ends
  exact proper.of_code ordered.listed (grows.spares _) (.refl _) proper.imports

private theorem appendRule_upholds {rule : Detached Rule} (ready : rule.Ready Rule.row)
    (proper : rule.node.Proper rule.tokens) : Upholds (appendRule rule) := by
  have rest : Upholds (do FileEdit.addRule rule; appendNewline) :=
    .bind (FileEdit.addRule_upholds ready proper) fun _ => appendNewline_upholds
  refine .get_bind fun file => ?_
  dsimp only
  split_ifs
  · exact .bind appendNewline_upholds fun _ => rest
  · exact rest

theorem build_proper {draft : FileDraft} {verify : Bool} {file : RuleFile}
    (given : ∀ rule ∈ draft.rules, rule.Ready Rule.row ∧ rule.node.Proper rule.tokens)
    (done : draft.build verify = .ok file) : file.Proper := by
  have assembled : Upholds draft.assemble := by
    refine .bind (.forIn FileEdit.addImport_upholds draft.modules) fun _ => .forM fun rule member => ?_
    obtain ⟨ready, proper⟩ := given rule member
    exact appendRule_upholds ready proper
  unfold build at done
  split at done
  next => cases done
  next u written run =>
    have proper := assembled _ _ written run (RuleFile.empty_proper draft.nextId draft.features)
    split_ifs at done
    · dsimp only at done
      split at done
      next read =>
        cases done
        exact (RuleFile.Read.ofSource read).proper
      next => cases done
    · cases done
      exact proper

end FileDraft

/-! ### Files that edits lead to -/

mutual

/-- Files that edits lead to, whether they succeed or fail, from files that were read, built or empty. -/
inductive RuleFile.Attained : RuleFile → Prop
  | empty (id : ChainId) (features : Features) : RuleFile.Attained (RuleFile.empty id features)
  | read {settings : Settings} {tree : FileTree} {id : ChainId} {content : Bytes} {file : RuleFile}
      (done : RuleFile.ofSource settings tree id content = .ok file) : RuleFile.Attained file
  | readPath {settings : Settings} {tree : FileTree} {id : ChainId} {path : String} {file : RuleFile}
      (done : RuleFile.ofPath settings tree id path = .ok file) : RuleFile.Attained file
  | built {draft : FileDraft} {verify : Bool} {file : RuleFile} (given : ∀ rule ∈ draft.rules, Rule.Given rule)
      (done : draft.build verify = .ok file) : RuleFile.Attained file
  | edited {α : Type} {edit : FileEdit α} {result : Except EditError α} {file file' : RuleFile}
      (attained : RuleFile.Attained file)
      (tried : FileEdit.Tried edit) (done : file.edit edit = (result, file')) : RuleFile.Attained file'
  | ruleEdited {α : Type} {edit : RuleEdit α} {result : Except EditError α} {name : String} {file file' : RuleFile}
      (attained : RuleFile.Attained file) (tried : RuleEdit.Tried edit)
      (done : file.editRule name edit = some (result, file')) : RuleFile.Attained file'

/-- Rules that were built from a draft or copied from such a file. -/
inductive Rule.Given : Detached Rule → Prop
  | built {draft : RuleDraft} {id : ChainId} {rule : Detached Rule} (filled : draft.Filled)
      (done : draft.build id = .ok rule) : Rule.Given rule
  | copied {file : RuleFile} {rule : Rule} {id : ChainId} {copy : Detached Rule} (attained : RuleFile.Attained file)
      (member : rule ∈ file.rules)
      (done : Detached.copyOf Rule.rename file.tokens id rule rule.first rule.last = .ok copy) : Rule.Given copy

/-- Conditions that were built from a draft, and copies of what conditions in such files consist of. -/
inductive Expr.Given : Detached Expr → Prop
  | built {draft : ConditionDraft} {id : ChainId} {condition : Detached Expr} (done : draft.build id = .ok condition) :
      Expr.Given condition
  | copied {file : RuleFile} {rule : Rule} {copy : Detached Expr} (attained : RuleFile.Attained file)
      (member : rule ∈ file.rules)
      (done : rule.condition.Copied file.tokens copy) : Expr.Given copy

/-- Edits of a file. -/
inductive FileEdit.Tried : {α : Type} → FileEdit α → Prop
  | addImport (name : String) : FileEdit.Tried (FileEdit.addImport name)
  | removeImport (name : String) : FileEdit.Tried (FileEdit.removeImport name)
  | addRule {rule : Detached Rule} (given : Rule.Given rule) : FileEdit.Tried (FileEdit.addRule rule)
  | insertRule {rule : Detached Rule} (index : Nat) (given : Rule.Given rule) :
      FileEdit.Tried (FileEdit.insertRule index rule)
  | removeRule (name : String) : FileEdit.Tried (FileEdit.removeRule name)
  | renameRule (old new : String) : FileEdit.Tried (FileEdit.renameRule old new)

/-- Edits of a rule. What replaces a node of the condition is given, or a copy of that node or of a part of it. -/
inductive RuleEdit.Tried : {α : Type} → RuleEdit α → Prop
  | setPrivate (wanted : Bool) : RuleEdit.Tried (RuleEdit.setPrivate wanted)
  | setGlobal (wanted : Bool) : RuleEdit.Tried (RuleEdit.setGlobal wanted)
  | addTag (tag : String) : RuleEdit.Tried (RuleEdit.addTag tag)
  | removeTag (tag : String) : RuleEdit.Tried (RuleEdit.removeTag tag)
  | addMeta (key : String) (value : Literal) : RuleEdit.Tried (RuleEdit.addMeta key value)
  | setMetaValue (key : String) (value : Literal) : RuleEdit.Tried (RuleEdit.setMetaValue key value)
  | removeMeta (key : String) : RuleEdit.Tried (RuleEdit.removeMeta key)
  | renameString (old new : String) : RuleEdit.Tried (RuleEdit.renameString old new)
  | removeString (id : String) : RuleEdit.Tried (RuleEdit.removeString id)
  | setCondition {condition : Detached Expr} (given : Expr.Given condition) :
      RuleEdit.Tried (RuleEdit.setCondition condition)
  | modifyCondition {modifier : RuleEdit.Modifier}
      (given : ∀ id tokens node replacement, modifier id tokens node = some replacement →
        ¬ node.Copied tokens replacement → Expr.Given replacement) : RuleEdit.Tried (RuleEdit.modifyCondition modifier)

end

mutual

theorem RuleFile.Attained.proper : ∀ {file : RuleFile}, file.Attained → file.Proper
  | _, .empty id features => RuleFile.empty_proper id features
  | _, .read done => (RuleFile.Read.ofSource done).proper
  | _, .readPath done => (RuleFile.Read.ofPath done).proper
  | _, .built given done => FileDraft.build_proper (fun rule member => (given rule member).proper) done
  | _, .edited attained tried done => tried.upholds _ _ _ done attained.proper
  | _, .ruleEdited attained tried done => attained.proper.editRule tried.upholds done

theorem Rule.Given.proper : ∀ {rule : Detached Rule}, Rule.Given rule → rule.Ready Rule.row ∧
    rule.node.Proper rule.tokens
  | _, .built filled done => ⟨(RuleDraft.build_ready filled done).1, RuleDraft.build_proper filled done⟩
  | _, .copied attained member done => ⟨(attained.proper.ordered.copy member done).1, attained.proper.copy member done⟩

theorem Expr.Given.ready : ∀ {condition : Detached Expr}, Expr.Given condition → condition.Ready Expr.handles
  | _, .built done => ConditionDraft.build_ready done
  | _, .copied attained member done => attained.proper.condition_ready member done

theorem FileEdit.Tried.upholds : ∀ {α : Type} {edit : FileEdit α}, FileEdit.Tried edit → FileEdit.Upholds edit
  | _, _, .addImport name => FileEdit.addImport_upholds name
  | _, _, .removeImport name => FileEdit.removeImport_upholds name
  | _, _, .addRule given => FileEdit.addRule_upholds given.proper.1 given.proper.2
  | _, _, .insertRule index given => FileEdit.insertRule_upholds given.proper.1 given.proper.2 index
  | _, _, .removeRule name => FileEdit.removeRule_upholds name
  | _, _, .renameRule old new => FileEdit.renameRule_upholds old new

theorem RuleEdit.Tried.upholds : ∀ {α : Type} {edit : RuleEdit α}, RuleEdit.Tried edit → RuleEdit.Upholds edit
  | _, _, .setPrivate wanted => RuleEdit.setModifier_upholds (by decide) wanted
  | _, _, .setGlobal wanted => RuleEdit.setModifier_upholds (by decide) wanted
  | _, _, .addTag tag => RuleEdit.addTag_upholds tag
  | _, _, .removeTag tag => RuleEdit.removeTag_upholds tag
  | _, _, .addMeta key value => RuleEdit.addMeta_upholds key value
  | _, _, .setMetaValue key value => RuleEdit.setMetaValue_upholds key value
  | _, _, .removeMeta key => RuleEdit.removeMeta_upholds key
  | _, _, .renameString old new => RuleEdit.renameString_upholds old new
  | _, _, .removeString id => RuleEdit.removeString_upholds id
  | _, _, .setCondition given => RuleEdit.setCondition_upholds given.ready
  | _, _, .modifyCondition given => RuleEdit.modifyCondition_upholds fun id tokens node replacement offered => by
    by_cases copied : node.Copied tokens replacement
    · exact .inr copied
    · exact .inl (given id tokens node replacement offered copied).ready

end

/-- Whatever edits succeed or fail, the rules and modules of a file have different names, and every rule is in
good form. -/
theorem RuleFile.Attained.stays_formed {file : RuleFile} (attained : file.Attained) : file.Formed :=
  attained.proper.formed

private theorem sampleDraft_tagged_twice : yields (sampleDraft.build 1) (fun rule =>
    leaves ((RuleFile.empty 0 Features.current).edit (FileEdit.addRule rule)) fun file =>
    leavesRule (file.editRule "a" (RuleEdit.addTag "t")) fun tagged =>
    match tagged.editRule "a" (RuleEdit.addTag "t") with
    | some (.error e, file') => e == .duplicateTag "t" && file'.rules.length == 1
    | _ => false) = true := by
  decide +kernel

/-- A rule that was built, added to an empty file and given a tag there, and the same tag again, which fails. -/
theorem formed_after_failed_tag : ∃ (rule : Detached Rule)
    (file tagged file' : RuleFile), sampleDraft.build 1 = .ok rule ∧
    (RuleFile.empty 0 Features.current).edit (FileEdit.addRule rule) = (.ok (), file) ∧
    file.editRule "a" (RuleEdit.addTag "t") = some (.ok (), tagged) ∧ tagged.editRule "a" (RuleEdit.addTag "t") =
    some (.error (.duplicateTag "t"), file') ∧ file'.rules.length = 1 ∧ file'.Formed := by
  obtain ⟨rule, built, run⟩ := yields_iff.mp sampleDraft_tagged_twice
  obtain ⟨_, file, added, run⟩ := leaves_iff.mp run
  obtain ⟨_, tagged, first, run⟩ := leavesRule_iff.mp run
  split at run
  next e file' again =>
    obtain ⟨rfl, one⟩ : e = .duplicateTag "t" ∧ file'.rules.length = 1 := by simpa using run
    have filled : sampleDraft.Filled := .withCondition _ (.withString _ _ (.withName "a" .new))
    have added' := RuleFile.Attained.edited (.empty 0 Features.current) (.addRule (.built filled built)) added
    have tagged' := RuleFile.Attained.ruleEdited added' (.addTag "t") first
    exact ⟨rule, file, tagged, file', built, added, first, again, one,
      RuleFile.Attained.stays_formed (.ruleEdited tagged' (.addTag "t") again)⟩
  next => cases run

end YaraRules
