import YaraRules.Layout.Render
import YaraRules.Proofs.ConditionCopies
import YaraRules.Proofs.OwnRules

/-! Files that look the same. One of them has other tokens in a condition, to which no alias
leads. Nothing that can be read of the files tells them apart, and nothing does after
their rules and strings were given other names. -/

namespace YaraRules

open TokenStream (Recast Secluded Renewed)

/-! ### What can be read of a file -/

/-- Depth, kind, type and text of each node of the condition, parents before children. -/
def Rule.outline (rule : Rule) (tokens : TokenStream) : List (Nat × String × ValueType × String) :=
  rule.condition.nodes.map fun (depth, node) => (depth, node.label, node.type, node.text tokens)

theorem Rule.outline_mapHandles {x y : TokenStream} {f : Handle → Handle} {rule : Rule}
    (same : ∀ h ∈ rule.condition.handles, y.text (f h) =
    x.text h) : Rule.outline { rule with condition := rule.condition.mapHandles f } y = rule.outline x := by
  simp only [Rule.outline, Expr.nodes_mapHandles, List.map_map]
  refine List.map_congr_left fun node inside => ?_
  have words : (node.2.mapHandles f).text y = node.2.text x := by
    rw [Expr.text, Expr.textWith_mapHandles]
    exact node.2.textWith_congr fun h held => same h ((Expr.node_sublist inside).subset held)
  simp [words]

namespace RuleFile

/-- Texts, layouts and conditions of two files are the same. -/
structure LooksLike (file file' : RuleFile) : Prop where
  text : file'.text = file.text
  formatted : ∀ style expand, file'.formatted style expand = file.formatted style expand
  rules : file'.texts = file.texts
  outlines : file'.rules.map (·.outline file'.tokens) = file.rules.map (·.outline file.tokens)

/-- Tokens of a part gave way to equal ones, and the conditions follow. What else rules hold is not in the part. -/
structure Mirrors (zone : List Handle) (f : Handle → Handle) (file file' : RuleFile) : Prop where
  secluded : file.tokens.Secluded zone
  recast : Recast zone f file.tokens file'.tokens
  imports : file'.imports = file.imports
  rules : file'.rules = file.rules.map fun rule => { rule with condition := rule.condition.mapHandles f }
  heads : ∀ rule ∈ file.rules, ∀ h ∈ rule.headRow, h ∉ zone
  words : ∀ rule ∈ file.rules, ∀ h ∈ rule.headRow ++ rule.condition.handles, ∃ a, file.tokens.get? h = some a ∧
    a.kind ≠ .newLine
  spans : ∀ rule ∈ file.rules, ∀ string ∈ rule.strings.values, ∀ m ∈ string.modifiers,
    ∃ handles, file.tokens.Spanned m.first m.last handles ∧ handles.Disjoint zone

namespace Mirrors

variable {zone : List Handle} {f : Handle → Handle} {file file' : RuleFile} {rule : Rule} {h : Handle} {index : Nat}

section

variable (mirrors : Mirrors zone f file file')
include mirrors

private theorem head_text (member : rule ∈ file.rules) (held : h ∈ rule.headRow) :
    file'.tokens.text h = file.tokens.text h := by
  obtain ⟨a, stored, _⟩ := mirrors.words rule member h (List.mem_append_left _ held)
  exact mirrors.recast.text_aside mirrors.secluded stored (mirrors.heads rule member h held)

theorem condition_text (member : rule ∈ file.rules) (held : h ∈ rule.condition.handles) :
    file'.tokens.text (f h) = file.tokens.text h := by
  obtain ⟨a, stored, word⟩ := mirrors.words rule member h (List.mem_append_right _ held)
  exact mirrors.recast.text mirrors.secluded stored word

theorem reads (member : rule ∈ file.rules) : rule.Reads id file.tokens file'.tokens := by
  refine ⟨fun h held => mirrors.head_text member held, fun string inside m listed => ?_⟩
  obtain ⟨handles, spanned, apart⟩ := mirrors.spans rule member string inside m listed
  have spanned' := mirrors.recast.spanned mirrors.secluded spanned apart
  rw [StringModifier.text_of_spanned mirrors.secluded.tidy.sound spanned,
    StringModifier.text_of_spanned (m := m.mapHandles id) mirrors.recast.tidy.sound spanned']
  refine congrArg _ (List.map_congr_left fun h held => ?_)
  obtain ⟨_, a, stored⟩ := spanned.stored mirrors.secluded.tidy.sound held
  exact mirrors.recast.text_aside mirrors.secluded stored (apart held)

private theorem expr_text (member : rule ∈ file.rules) {e : Expr} (part : e.handles ⊆ rule.condition.handles) :
    (e.mapHandles f).text file'.tokens = e.text file.tokens := by
  rw [Expr.text, Expr.textWith_mapHandles]
  exact e.textWith_congr fun h held => mirrors.condition_text member (part held)

private theorem rule_text (member : rule ∈ file.rules) :
    Rule.text { rule with condition := rule.condition.mapHandles f } file'.tokens = rule.text file.tokens := by
  rw [Rule.text_eq, Rule.text_eq, Rule.textHaving_condition, (mirrors.reads member).textHaving_same]
  exact congrArg _ (mirrors.expr_text member (List.Subset.refl _))

theorem outline (member : rule ∈ file.rules) :
    Rule.outline { rule with condition := rule.condition.mapHandles f } file'.tokens = rule.outline file.tokens :=
  Rule.outline_mapHandles fun _ held => mirrors.condition_text member held

theorem looksLike : file.LooksLike file' := by
  have texts : file'.texts = file.texts := by
    rw [texts, texts, mirrors.rules, List.map_map]
    exact List.map_congr_left fun rule member => mirrors.rule_text member
  refine ⟨?_, fun style expand => ?_, texts, ?_⟩
  · have empty : file'.rules.isEmpty = file.rules.isEmpty := by rw [mirrors.rules, List.isEmpty_map]
    have whole (x : RuleFile) : x.rules.map (·.text x.tokens) = x.texts := rfl
    rw [text, text, whole, whole, texts, mirrors.imports, empty]
  · rw [formatted, formatted, TokenStream.formatted, TokenStream.formatted, mirrors.recast.items mirrors.secluded,
      mirrors.recast.newlineText]
  · rw [mirrors.rules, List.map_map]
    exact List.map_congr_left fun rule member => mirrors.outline member

theorem names : file'.names = file.names := by
  rw [RuleFile.names, RuleFile.names, mirrors.rules, List.map_map]
  refine List.map_congr_left fun rule member => Prod.ext ?_ rfl
  exact mirrors.head_text member (by simp [Rule.headRow])

/-- A token of a rule is written anew, and the rule changes in what does not refer to tokens. -/
theorem written (found : file.rules[index]? = some rule) (held : h ∈ rule.headRow) (text : String) {changed : Rule}
    (head : changed.headRow = rule.headRow) (strings : changed.strings.values = rule.strings.values)
    (condition : changed.condition = rule.condition) :
    Mirrors zone f { file with tokens := file.tokens.setLiteral h (.ofWritten text), rules := file.rules.set index changed }
      { file' with
        tokens := file'.tokens.setLiteral h (.ofWritten text)
        rules := file'.rules.set index { changed with condition := changed.condition.mapHandles f } } := by
  have member := List.mem_of_getElem? found
  obtain ⟨a, stored, word⟩ := mirrors.words rule member h (List.mem_append_left _ held)
  -- A rule of the new list refers to the tokens that one of the old list refers to.
  have old (r : Rule) (inside : r ∈ file.rules.set index changed) : ∃ r' ∈ file.rules, r.headRow = r'.headRow ∧
      r.condition = r'.condition ∧ r.strings.values = r'.strings.values := by
    rcases List.mem_or_eq_of_mem_set inside with kept | rfl
    · exact ⟨r, kept, rfl, rfl, rfl⟩
    · exact ⟨rule, member, head, condition, strings⟩
  refine {
    secluded := mirrors.secluded.setLiteral h rfl
    recast := mirrors.recast.setLiteral mirrors.secluded _ stored word (mirrors.heads rule member h held)
    imports := mirrors.imports
    rules := ?_
    heads := fun r inside => ?_
    words := fun r inside k part => ?_
    spans := fun r inside string listed m among => ?_ }
  · show file'.rules.set index _ = (file.rules.set index changed).map _
    rw [mirrors.rules, List.map_set]
  · obtain ⟨r', inside', same, _, _⟩ := old r inside
    exact same ▸ mirrors.heads r' inside'
  · obtain ⟨r', inside', same, same', _⟩ := old r inside
    obtain ⟨b, stored', word'⟩ := mirrors.words r' inside' k (same ▸ same' ▸ part)
    show ∃ c, (file.tokens.setLiteral h _).get? k = some c ∧ _
    rw [TokenStream.get?_setLiteral]
    split_ifs with here
    · exact ⟨{ a with literal := .ofWritten text }, by rw [stored]; rfl, word⟩
    · exact ⟨b, stored', word'⟩
  · obtain ⟨r', inside', _, _, same⟩ := old r inside
    obtain ⟨handles, spanned, apart⟩ := mirrors.spans r' inside' string (same ▸ listed) m among
    exact ⟨handles, spanned.setLiteral mirrors.secluded.tidy.sound h _, apart⟩

end

end Mirrors

/-! ### Other names -/

/-- A rule, or a string of a rule, gets another name. -/
inductive NameChange where
  | rule (old new : String)
  | string (rule old new : String)

/-- What comes of a change of a name, and of the file; nothing if there is no such rule. -/
def changeName (file : RuleFile) : NameChange → Option (Except EditError Unit) × RuleFile
  | .rule old new =>
    let (result, file) := file.edit (FileEdit.renameRule old new)
    (some result, file)
  | .string rule old new =>
    match file.editRule rule (RuleEdit.renameString old new) with
    | some (result, file) => (some result, file)
    | none => (none, file)

/-- What comes of changes of names, one after the other. -/
def changeNames (file : RuleFile) : List NameChange → List (Option (Except EditError Unit)) × RuleFile
  | [] => ([], file)
  | change :: rest =>
    let (result, file) := file.changeName change
    let (results, last) := file.changeNames rest
    (result :: results, last)

variable {file file' : RuleFile} {rule : Rule} {index : Nat}

private theorem ruleIndex?_names (file : RuleFile) (name : String) :
    file.ruleIndex? name = file.names.findIdx? (·.1 == name) := by
  rw [names, List.findIdx?_map]
  rfl

private theorem rule?_names (file : RuleFile) (name : String) :
    (file.rule? name).isSome = file.names.any (·.1 == name) := by
  rw [names, List.any_map, rule?, List.isSome_find?]
  rfl

private theorem renameRule_outcome (listed : List (String × Handle)) (old new : String) :
    (∃ e, ∀ file : RuleFile, file.names = listed → file.edit (FileEdit.renameRule old new) = (.error e, file)) ∨
      ∃ index < listed.length, ∀ (file : RuleFile) rule, file.names = listed → file.rules[index]? = some rule →
        file.edit (FileEdit.renameRule old new) = (.ok (), { file with
          tokens := file.tokens.setLiteral rule.name (.ofWritten new)
          rules := file.rules.set index { rule with symbol := Rule.symbolNamed new } }) := by
  by_cases invalid : (!Lexer.isIdentifier new) = true
  · refine .inl ⟨.invalidIdentifier new, fun file _ => ?_⟩
    rw [edit, ExceptT.run, FileEdit.renameRule, get_run, if_pos invalid]
    rfl
  by_cases taken : listed.any (·.1 == new) = true
  · refine .inl ⟨.duplicateRule new, fun file same => ?_⟩
    rw [edit, ExceptT.run, FileEdit.renameRule, get_run, if_neg invalid, rule?_names, same, if_pos taken]
    rfl
  cases found : listed.findIdx? (·.1 == old) with
  | none =>
    refine .inl ⟨.ruleNotFound old, fun file same => ?_⟩
    rw [edit, ExceptT.run, FileEdit.renameRule, get_run, if_neg invalid, rule?_names, same, if_neg taken]
    dsimp only
    rw [ruleIndex?_names, same, found]
    rfl
  | some index =>
    obtain ⟨inside, _⟩ := List.findIdx?_eq_some_iff_getElem.mp found
    refine .inr ⟨index, inside, fun file rule same here => ?_⟩
    rw [edit, ExceptT.run, FileEdit.renameRule, get_run, if_neg invalid, rule?_names, same, if_neg taken]
    dsimp only
    rw [ruleIndex?_names, same, found]
    dsimp only
    rw [here, List.modify_eq_set_getElem?, here]
    rfl

/-- Whether a string can have another name depends on the names of the strings. -/
theorem renameString_outcome (strings : NameTrie StringDefinition) (old new : String) :
    (∃ e, ∀ scope : RuleScope, scope.rule.strings = strings → RuleEdit.renameString old new scope = (.error e, scope)) ∨
      ∃ string ∈ strings.values, ∃ strings' : NameTrie StringDefinition, strings'.values = strings.values ∧
        ∀ scope : RuleScope, scope.rule.strings = strings → RuleEdit.renameString old new scope = (.ok (), { scope with
          tokens := scope.tokens.setLiteral string.id (.ofWritten new)
          rule := { scope.rule with strings := strings' } }) := by
  by_cases invalid : (!new.startsWith "$" || new == "$" || old == "$") = true
  · refine .inl ⟨.invalidStringIdentifier new, fun ⟨tokens, rule, id⟩ _ => ?_⟩
    rw [RuleEdit.renameString, get_run]
    dsimp only
    rw [if_pos invalid]
    rfl
  by_cases taken : strings.contains new = true
  · refine .inl ⟨.duplicateString new, fun ⟨tokens, rule, id⟩ same => ?_⟩
    subst same
    rw [RuleEdit.renameString, get_run]
    dsimp only
    rw [if_neg invalid, if_pos taken]
    rfl
  cases found : strings.get? old with
  | none =>
    refine .inl ⟨.stringNotFound old, fun ⟨tokens, rule, id⟩ same => ?_⟩
    subst same
    rw [RuleEdit.renameString, get_run]
    dsimp only
    rw [if_neg invalid, if_neg taken, found]
    rfl
  | some string =>
    refine .inr ⟨string, NameTrie.mem_values_of_get? found, (strings.rename? old new).getD strings, ?_,
      fun ⟨tokens, rule, id⟩ same => ?_⟩
    · cases renamed : strings.rename? old new with
      | none => rfl
      | some strings' => exact NameTrie.values_rename? renamed
    · subst same
      rw [RuleEdit.renameString, get_run]
      dsimp only
      rw [if_neg invalid, if_neg taken, found]
      rfl

namespace Mirrors

variable {zone : List Handle} {f : Handle → Handle}

private theorem changeName (mirrors : Mirrors zone f file file') (change : NameChange) : (file'.changeName change).1 =
    (file.changeName change).1 ∧ Mirrors zone f (file.changeName change).2 (file'.changeName change).2 := by
  have paired {i : Nat} {r : Rule} (found : file.rules[i]? = some r) :
      file'.rules[i]? = some { r with condition := r.condition.mapHandles f } := by
    rw [mirrors.rules, List.getElem?_map, found]
    rfl
  cases change with
  | rule old new =>
    rcases renameRule_outcome file.names old new with ⟨e, failed⟩ | ⟨index, inside, done⟩
    · simp only [RuleFile.changeName, failed file rfl, failed file' mirrors.names]
      exact ⟨trivial, mirrors⟩
    · obtain ⟨r, found⟩ : ∃ r, file.rules[index]? = some r :=
        ⟨_, List.getElem?_eq_getElem (by simpa [RuleFile.names] using inside)⟩
      simp only [RuleFile.changeName, done file r rfl found, done file' _ mirrors.names (paired found)]
      exact ⟨trivial, mirrors.written found (by simp [Rule.headRow]) new rfl rfl rfl⟩
  | string name old new =>
    have indexed : file'.ruleIndex? name = file.ruleIndex? name := by
      rw [ruleIndex?_names, ruleIndex?_names, mirrors.names]
    cases listed : file.ruleIndex? name with
    | none =>
      simp only [RuleFile.changeName, editRule, indexed, listed]
      exact ⟨rfl, mirrors⟩
    | some index =>
      obtain ⟨inside, _⟩ := List.findIdx?_eq_some_iff_getElem.mp listed
      have found := List.getElem?_eq_getElem inside
      have listed' := indexed.trans listed
      rcases renameString_outcome file.rules[index].strings old new with ⟨e, failed⟩
        | ⟨string, member, strings', same, done⟩
      · simp only [RuleFile.changeName, editRule_run listed found (failed _ rfl),
          editRule_run listed' (paired found) (failed _ rfl)]
        obtain ⟨inside', here⟩ := List.getElem?_eq_some_iff.mp (paired found)
        rw [List.set_getElem_self, ← here, List.set_getElem_self]
        exact ⟨trivial, mirrors⟩
      · simp only [RuleFile.changeName, editRule_run listed found (done _ rfl),
          editRule_run listed' (paired found) (done _ rfl)]
        refine ⟨trivial, mirrors.written found (Rule.ids_head _ (List.mem_map_of_mem member)) new ?_ same rfl⟩
        simp [Rule.headRow, Rule.stringRow, Rule.tagRow, Rule.metaRow, same]

theorem changeNames (changes : List NameChange) :
    ∀ {file file' : RuleFile}, Mirrors zone f file file' → (file'.changeNames changes).1 =
    (file.changeNames changes).1 ∧ Mirrors zone f (file.changeNames changes).2 (file'.changeNames changes).2 := by
  induction changes with
  | nil => exact fun mirrors => ⟨rfl, mirrors⟩
  | cons change rest ih =>
    intro file file' mirrors
    obtain ⟨same, mirrors'⟩ := mirrors.changeName change
    obtain ⟨others, last⟩ := ih mirrors'
    exact ⟨congrArg₂ _ same others, last⟩

end Mirrors

end RuleFile

end YaraRules
