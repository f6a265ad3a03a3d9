import YaraRules.Proofs.OwnRules
import YaraRules.Proofs.RuleEditForms

/-! What edits leave of a file, whether they succeed or fail. An edit of a rule concerns the
row of that rule only, and the words of the other rules stay as they are. An edit that
adds or removes a rule or an import either leaves the tokens as they were or carries out
every step. -/

namespace YaraRules

open TokenStream (Spares Rewrites Grows Sheds)

namespace Listed

variable {tokens : TokenStream} {rows others : List (List Handle)} {row : List Handle}

theorem around (listed : Listed tokens rows) (split : rows.Perm (row :: others)) :
    ∃ front back, (front ++ (row ++ back)).Sublist tokens.code ∧ ∀ other ∈ others, other ⊆ front ++ back := by
  obtain ⟨items, same, inside⟩ := listed.order
  obtain ⟨ahead, behind, rfl⟩ := List.append_of_mem ((same.trans split).mem_iff.mpr List.mem_cons_self)
  have rest : (ahead ++ behind).Perm others := (List.perm_middle.symm.trans (same.trans split)).cons_inv
  refine ⟨ahead.flatten, behind.flatten, by simpa using inside, fun other member h held => ?_⟩
  rw [← List.flatten_append]
  exact List.mem_flatten.mpr ⟨other, rest.mem_iff.mpr member, held⟩

end Listed

theorem RuleFile.row_mem {file : RuleFile} {rule : Rule} (member : rule ∈ file.rules) : rule.row ∈ file.rows :=
  List.mem_append_right _ (List.mem_map_of_mem member)

/-- The rows of a file stand in order, its rules are in good form with their words told,
and no rule and no module is named twice. -/
structure RuleFile.Proper (file : RuleFile) : Prop where
  listed : Listed file.tokens file.rows
  proper : ∀ rule ∈ file.rules, rule.Proper file.tokens
  names : (file.rules.map (·.nameText file.tokens)).Nodup
  imports : (file.imports.map (·.moduleName)).Nodup

namespace RuleFile.Proper

variable {file file' : RuleFile}

theorem ordered (proper : file.Proper) : file.Ordered :=
  ⟨proper.listed, fun rule member => (proper.proper rule member).filed⟩

theorem formed (proper : file.Proper) : file.Formed :=
  ⟨proper.names, proper.imports, fun rule member => (proper.proper rule member).toFormed⟩

/-- A file keeps its form when rules go and what is left in the code is as it was. -/
theorem of_code (proper : file.Proper) (listed : Listed file'.tokens file'.rows)
    (spares : Spares file.tokens file'.tokens file'.tokens.code) (fewer : file'.rules.Sublist file.rules)
    (imports : (file'.imports.map (·.moduleName)).Nodup) : file'.Proper := by
  have kept : ∀ rule ∈ file'.rules, Spares file.tokens file'.tokens rule.words := fun rule member => by
    have row := listed.sublist (List.mem_append_right _ (List.mem_map_of_mem member))
    exact spares.fewer (List.Subset.trans rule.words_row row.subset)
  have still : ∀ rule ∈ file'.rules, rule.Proper file'.tokens := fun rule member =>
    (proper.proper rule (fewer.subset member)).of_spared (kept rule member)
  refine ⟨listed, still, ?_, imports⟩
  have same : file'.rules.map (·.nameText file'.tokens) = file'.rules.map (·.nameText file.tokens) :=
    List.map_congr_left fun rule member =>
      (proper.proper rule (fewer.subset member)).nameText_spared ((kept rule member).fewer (by simp [Rule.words]))
  exact same ▸ proper.names.sublist (fewer.map _)

/-- A file keeps its form when one rule takes the place of another and nothing happens to the words around. -/
theorem of_rule (proper : file.Proper) {rule rule' : Rule} {others : List Rule}
    (split : file.rules.Perm (rule :: others)) (split' : file'.rules.Perm (rule' :: others))
    (imports : file'.imports = file.imports) (rewrites : Rewrites file.tokens file'.tokens rule.row rule'.row)
    (proper' : rule'.Proper file'.tokens)
    (spares : ∀ front back, (front ++ (rule.row ++ back)).Sublist file.tokens.code →
    Spares file.tokens file'.tokens (front ++ back)) (fresh :
    ∀ other ∈ others, other.nameText file.tokens ≠ rule'.nameText file'.tokens) : file'.Proper := by
  have rows := rows_of_rule file.imports split
  have rows' : file'.rows.Perm (rule'.row :: (file.imports.map Import.row ++ others.map Rule.row)) := by
    rw [RuleFile.rows, imports]
    exact rows_of_rule file.imports split'
  obtain ⟨front, back, inside, around⟩ := proper.listed.around rows
  have kept : ∀ other ∈ others, other.Proper file.tokens ∧ Spares file.tokens file'.tokens other.words :=
    fun other member => by
    refine ⟨proper.proper other (split.mem_iff.mpr (List.mem_cons_of_mem _ member)),
      (spares front back inside).fewer ?_⟩
    exact List.Subset.trans other.words_row (around _ (List.mem_append_right _ (List.mem_map_of_mem member)))
  refine ⟨proper.listed.rewrite [rule'.row] rows (by simpa using rewrites) rows', fun other member =>
    ?_, ?_, imports ▸ proper.imports⟩
  · rcases List.mem_cons.mp (split'.mem_iff.mp member) with rfl | old
    · exact proper'
    · exact (kept other old).1.of_spared (kept other old).2
  · have same : others.map (·.nameText file'.tokens) = others.map (·.nameText file.tokens) :=
      List.map_congr_left fun other member => (kept other member).1.nameText_spared
        ((kept other member).2.fewer (by simp [Rule.words]))
    have distinct : (others.map (·.nameText file.tokens)).Nodup := by
      have whole := (split.map (·.nameText file.tokens)).nodup_iff.mp proper.names
      exact (List.nodup_cons.mp whole).2
    refine (split'.map _).nodup_iff.mpr (List.nodup_cons.mpr ⟨fun listed => ?_, same ▸ distinct⟩)
    obtain ⟨other, member, again⟩ := List.mem_map.mp (same ▸ listed)
    exact fresh other member again

/-- Whatever comes of the edit of a rule, the rule keeps its name. -/
theorem rule_leaves (proper : file.Proper) {α : Type} {edit : RuleEdit α} (upholds : RuleEdit.Upholds edit)
    {rule : Rule} (member : rule ∈ file.rules) {result : Except EditError α} {scope : RuleScope}
    (run : edit ⟨file.tokens, rule, file.nextId⟩ = (result, scope)) : RuleEdit.Leaves file.tokens rule scope ∧
    scope.rule.nameText scope.tokens = rule.nameText file.tokens := by
  have listed := proper.ordered.row_listed member
  have leaves := upholds _ _ _ _ _ run proper.listed.tidy listed (proper.listed.chain _ (RuleFile.row_mem member))
    (proper.proper _ member)
  refine ⟨leaves, ?_⟩
  rw [Rule.nameText, leaves.name]
  exact (proper.proper _ member).nameText_spared ((leaves.spares [] [] (by simpa using listed)).fewer (by simp))

/-- Whatever comes of the edit of a rule, it leaves a file in good form. -/
theorem editRule (proper : file.Proper) {α : Type} {edit : RuleEdit α} (upholds : RuleEdit.Upholds edit) {name : String}
    {result : Except EditError α} (done : file.editRule name edit = some (result, file')) : file'.Proper := by
  obtain ⟨index, rule, scope, found, _, run, rfl⟩ := RuleFile.editRule_done done
  obtain ⟨inside, rfl⟩ := List.getElem?_eq_some_iff.mp found
  have split := (List.getElem_cons_eraseIdx_perm inside).symm
  obtain ⟨leaves, named⟩ := proper.rule_leaves upholds (List.getElem_mem inside) run
  refine proper.of_rule split (List.set_perm_cons_eraseIdx inside scope.rule) rfl leaves.rewrites leaves.proper
    (fun front back listed => (leaves.spares front back listed).fewer (List.subset_cons_self _ _))
      fun other rest same => ?_
  have whole := (split.map (·.nameText file.tokens)).nodup_iff.mp proper.names
  exact (List.nodup_cons.mp whole).1 (List.mem_map.mpr ⟨other, rest, same.trans named⟩)

end RuleFile.Proper

namespace TokenEdit

/-- A token can be put in front of any other, or at the end. -/
theorem insertAt_succeeds {s : TokenStream} (tidy : s.Tidy) (anchor : Option Handle)
    (live : ∀ h ∈ anchor, (s.get? h).isSome) (token : Token) :
    ∃ new after, Succeeds (insertAt anchor token) s new after ∧ after.Tidy ∧ Grows s after := by
  cases anchor with
  | none => exact ⟨_, _, rfl, (tidy.push token).1, (tidy.get?_push token).2⟩
  | some before =>
    obtain ⟨new, after, done⟩ := TokenStream.insertBefore_ok token (live before rfl)
    exact ⟨new, after, apply_succeeds done, (tidy.insertBefore_spots done).1, (tidy.get?_insertBefore done).2⟩

private theorem apply_failed {α : Type} {f : TokenStream → Except TokenStream.Error (α × TokenStream)}
    {s after : TokenStream} {e : EditError} (failed : Fails (apply f) s e after) : after = s := by
  rw [Fails, apply_run] at failed
  cases run : f s with
  | error e =>
    rw [run] at failed
    cases failed
    rfl
  | ok result =>
    rw [run] at failed
    cases failed

end TokenEdit

namespace FileEdit

variable {file file' : RuleFile}

theorem onTokens_succeeds {α : Type} {edit : TokenEdit α} {a : α} {tokens : TokenStream}
    (done : Succeeds edit file.tokens a tokens) : Succeeds (onTokens edit) file a { file with tokens } := by
  rw [Succeeds, onTokens_run, done]

private theorem onTokens_failed {α : Type} {edit : TokenEdit α} {e : EditError}
    (failed : Fails (onTokens edit) file e file') :
    ∃ tokens, Fails edit file.tokens e tokens ∧ file' = { file with tokens } := by
  rw [Fails, onTokens_run] at failed
  obtain ⟨stopped, rfl⟩ := Prod.mk.inj failed
  exact ⟨_, Prod.ext stopped rfl, rfl⟩

/-- Whatever comes of the edit, it leaves a file in good form. -/
def Upholds {α : Type} (edit : FileEdit α) : Prop :=
  ∀ file result file', Ends edit file result file' → file.Proper → file'.Proper

namespace Upholds

variable {α β : Type}

/-- To leave a file in good form is a relation between the files before and after. -/
theorem iff_relates {edit : FileEdit α} : Upholds edit ↔ Relates (fun file file' => file.Proper → file'.Proper) edit :=
  Iff.rfl

theorem bind {edit : FileEdit α} {next : α → FileEdit β} (first : Upholds edit) (rest : ∀ a, Upholds (next a)) :
    Upholds (edit >>= next) :=
  iff_relates.mpr (.bind (fun before after proper => after (before proper)) first rest)

theorem get_bind {next : RuleFile → FileEdit β} (rest : ∀ file, Upholds (next file)) : Upholds (get >>= next) :=
  iff_relates.mpr (.get_bind rest)

theorem forIn {edit : α → FileEdit β} (each : ∀ a, Upholds (edit a)) (items : List α) :
    Upholds (forIn items PUnit.unit fun a _ => do let _ ← edit a; return ForInStep.yield PUnit.unit) :=
  iff_relates.mpr (.forIn (fun _ proper => proper) (fun before after proper => after (before proper)) each items)

theorem forM {edit : α → FileEdit PUnit} {items : List α} (each : ∀ a ∈ items, Upholds (edit a)) :
    Upholds (items.forM edit) :=
  iff_relates.mpr (.forM (fun _ proper => proper) (fun before after proper => after (before proper)) each)

end Upholds

/-! ### Imports -/

private theorem importAnchor_live (listed : Listed file.tokens file.rows) :
    ∀ h ∈ importAnchor file, (file.tokens.get? h).isSome := by
  intro h anchor
  unfold importAnchor at anchor
  split at anchor
  next other last =>
    have row := listed.sublist (List.mem_append_left _ (List.mem_map_of_mem (List.mem_of_getLast? last)))
    have last : ([other.keyword] ++ other.name :: []).Sublist file.tokens.code := row
    obtain ⟨_, ahead, next, behind, split, rfl, _⟩ := listed.tidy.next_line anchor last
    exact listed.tidy.get?_of_spots (by simp [split])
  next =>
    obtain ⟨next, behind, split, rfl⟩ := listed.tidy.first_spots anchor
    exact listed.tidy.get?_of_spots (by simp [split])

/-- A module that is found is known by the name that it is looked up by. -/
theorem load_name {pool : ModulePool} {name : String} {features : Features} {found : Module}
    (loaded : (pool.load name features).1 = some found) : found.name = name ∧ name ∈ Module.known := by
  unfold ModulePool.load at loaded
  split at loaded
  next entry listed =>
    split_ifs at loaded
    obtain rfl := Option.some.inj loaded
    have same : entry.name = name := by simpa using List.find?_some listed
    exact ⟨same, same ▸ List.mem_map_of_mem (List.mem_of_find?_eq_some listed)⟩
  next => cases loaded

theorem addImport_upholds (name : String) : Upholds (addImport name) := by
  intro file result file' ends proper
  have rest := ends.get_bind
  split at rest
  next =>
    cases rest
    exact proper
  next absent =>
    have rest := rest.get_bind.get_bind
    dsimp only at rest
    have rest := rest.modify_bind
    split at rest
    next =>
      cases rest
      exact ⟨proper.listed, proper.proper, proper.names, proper.imports⟩
    next imported found =>
      have rest := rest.get_bind
      dsimp only at rest
      have live := importAnchor_live proper.listed
      obtain ⟨keyword, tokens₁, inserted₁, tidy₁, grows₁⟩ :=
        TokenEdit.insertAt_succeeds proper.listed.tidy _ live (.fixed .kwImport)
      obtain ⟨nameToken, tokens₂, inserted₂, tidy₂, grows₂⟩ :=
        TokenEdit.insertAt_succeeds tidy₁ _ (grows₁.live live) { kind := .string, literal := .ofWritten name }
      obtain ⟨stop, tokens₃, inserted₃, _, grows₃⟩ :=
        TokenEdit.insertAt_succeeds tidy₂ _ (grows₂.live (grows₁.live live)) file.tokens.newline
      cases ((rest.after (onTokens_succeeds inserted₁)).after (onTokens_succeeds inserted₂)).after
        (onTokens_succeeds inserted₃)
      have ordered := addImport_preserves name file true _ proper.ordered ends
      refine proper.of_code ordered.listed (((grows₁.trans grows₂).trans grows₃).spares _) (.refl _) ?_
      have fresh : name ∉ file.imports.map (·.moduleName) := fun listed => absent <| by
        obtain ⟨i, member, same⟩ := List.mem_map.mp listed
        exact List.any_eq_true.mpr ⟨i, member, beq_iff_eq.mpr same⟩
      have named : imported.name = name := (load_name found).1
      rw [List.map_append]
      exact List.perm_append_comm.nodup_iff.mpr (List.nodup_cons.mpr ⟨named.symm ▸ fresh, proper.imports⟩)

theorem removeImport_upholds (name : String) : Upholds (removeImport name) := by
  intro file result file' ends proper
  have rest := ends.get_bind
  dsimp only at rest
  split at rest
  next =>
    cases rest
    exact proper
  next index found =>
    rcases rest.guard with rfl | ⟨_, rest⟩
    · exact proper
    have inside : index < file.imports.length := (List.findIdx?_eq_some_iff_getElem.mp found).1
    rw [List.getElem?_eq_getElem inside] at rest
    have row : file.imports[index].row ∈ file.rows :=
      List.mem_append_left _ (List.mem_map_of_mem (List.getElem_mem inside))
    obtain ⟨tokens, erased, _, sheds⟩ :=
      TokenEdit.eraseLine_succeeds proper.listed.tidy rfl rfl (proper.listed.chain _ row)
      (proper.listed.sublist row)
    cases rest.modify_bind.after (Succeeds.loop (onTokens_succeeds erased) rfl)
    have ordered := removeImport_preserves name file true _ proper.ordered ends
    exact proper.of_code ordered.listed sheds.spares (.refl _)
      (proper.imports.sublist ((List.eraseIdx_sublist _ _).map _))

/-! ### Rules -/

/-- A rule is removed with all its tokens, or nothing happens. -/
theorem removeRule_steps {name : String} {result : Except EditError Bool}
    (ends : Ends (removeRule name) file result file')
    (proper : file.Proper) : file' = file ∨ result = .ok true ∧ ∃ (index : Nat) (inside : index < file.rules.length)
    (tokens : TokenStream),
      file' = { file with tokens, rules := file.rules.eraseIdx index } ∧ Sheds file.tokens tokens ∧
      ∀ target ∈ file.rules[index].row, ∀ b, file.tokens.Tells target b → ¬ tokens.Targets target := by
  have rest := ends.get_bind
  split at rest
  next =>
    cases rest
    exact .inl rfl
  next index found =>
    have inside : index < file.rules.length := (List.findIdx?_eq_some_iff_getElem.mp found).1
    rw [List.getElem?_eq_getElem inside] at rest
    have row := RuleFile.row_mem (List.getElem_mem inside)
    have chain := proper.listed.chain _ row
    have listed := proper.listed.sublist row
    have begins := file.rules[index].head?_row
    have final := file.rules[index].getLast?_row
    obtain ⟨tokens, erased, _, sheds⟩ := TokenEdit.eraseLine_succeeds proper.listed.tidy begins final chain listed
    cases rest.modify_bind.after (Succeeds.loop (onTokens_succeeds erased) rfl)
    exact .inr ⟨rfl, index, inside, tokens, rfl, sheds, fun target held b told =>
      TokenEdit.eraseLine_aside proper.listed.tidy begins final chain listed erased held told⟩

theorem removeRule_upholds (name : String) : Upholds (removeRule name) := by
  intro file result file' ends proper
  rcases removeRule_steps ends proper with rfl | ⟨rfl, index, _, tokens, rfl, sheds, _⟩
  · exact proper
  have ordered := removeRule_preserves name file true _ proper.ordered ends
  exact proper.of_code ordered.listed sheds.spares (List.eraseIdx_sublist _ _) proper.imports

/-- A rule that is put in stands in good form among the others when its name is new. -/
theorem insertRule_proper {rule : Detached Rule} (ready : rule.Ready Rule.row) (proper' : rule.node.Proper rule.tokens)
    (proper : file.Proper) {index : Nat} (fresh : file.rule? (rule.node.nameText rule.tokens) = none)
    (done : Succeeds (insertRule index rule) file () file') : file'.Proper := by
  have ordered := insertRule_preserves ready proper'.filed index file () file' proper.ordered done
  obtain ⟨inside, names, left, moved, rules, imports⟩ := insertRule_moves done
  obtain ⟨_, _, _, received, _⟩ :=
    proper.listed.tidy.moveAll_received ready.lone (TokenStream.view_ne_nil rule.node.row_ne_nil ready.listed) moved
  have grows : Grows file.tokens file'.tokens := fun _ _ stored => received.get? stored
  have told : ∀ h ∈ rule.node.words, ∀ a, rule.tokens.Tells h a → file'.tokens.Tells (names.apply h) a :=
    fun h member a tells => by
    obtain ⟨b, stored, word⟩ := ready.lone.tidy.get?_of_code (ready.listed.subset (rule.node.words_row member))
    obtain rfl : b = a := Option.some.inj (stored.symm.trans tells.1)
    exact ⟨received.arrives_plain stored word tells.2, tells.2⟩
  have new : (rule.node.rename names).Proper file'.tokens := proper'.mapHandles told
  have split : file'.rules.Perm (rule.node.rename names :: file.rules) := rules ▸ List.perm_insertIdx _ _ inside
  refine ⟨ordered.listed, fun other member => ?_, ?_, imports ▸ proper.imports⟩
  · rcases List.mem_cons.mp (split.mem_iff.mp member) with rfl | old
    · exact new
    · exact (proper.proper other old).of_spared (grows.spares _)
  · have same : file.rules.map (·.nameText file'.tokens) = file.rules.map (·.nameText file.tokens) :=
      List.map_congr_left fun other member => (proper.proper other member).nameText_spared (grows.spares _)
    have named : (rule.node.rename names).nameText file'.tokens = rule.node.nameText rule.tokens := by
      obtain ⟨a, tells, _⟩ := proper'.nameText
      exact (told _ List.mem_cons_self a tells).text.trans tells.text.symm
    refine (split.map _).nodup_iff.mpr (List.nodup_cons.mpr ⟨fun listed => ?_, same ▸ proper.names⟩)
    obtain ⟨other, member, again⟩ := List.mem_map.mp (same ▸ listed)
    exact List.find?_eq_none.mp fresh other member (beq_iff_eq.mpr (again.trans named))

theorem insertRule_upholds {rule : Detached Rule} (ready : rule.Ready Rule.row) (proper' : rule.node.Proper rule.tokens)
    (index : Nat) : Upholds (insertRule index rule) := by
  intro file result file' ends proper
  rcases ends.get_bind.guard with rfl | ⟨taken, rest⟩
  · exact proper
  have fresh : file.rule? (rule.node.nameText rule.tokens) = none := by simpa using taken
  rcases Nat.lt_or_ge file.rules.length index with beyond | inside
  · rw [List.getElem?_eq_none_iff.mpr (Nat.le_of_lt beyond)] at rest
    dsimp only at rest
    rw [if_neg (Nat.ne_of_gt beyond)] at rest
    cases rest
    exact proper
  · have run := ends
    rw [Ends, RuleFile.insertRule_run fresh inside] at run
    rcases Ends.bind run with ⟨e, failed⟩ | ⟨names, middle, moved, rest⟩
    · obtain ⟨tokens, stopped, rfl⟩ := onTokens_failed failed
      obtain rfl := TokenEdit.apply_failed stopped
      exact ⟨proper.listed, proper.proper, proper.names, proper.imports⟩
    · cases rest
      exact insertRule_proper ready proper' proper fresh ends

theorem addRule_upholds {rule : Detached Rule} (ready : rule.Ready Rule.row) (proper' : rule.node.Proper rule.tokens) :
    Upholds (addRule rule) :=
  fun file result file' ends proper => insertRule_upholds ready proper' _ file result file' ends.get_bind proper

theorem renameRule_upholds (old new : String) : Upholds (renameRule old new) := by
  intro file result file' ends proper
  rcases ends.get_bind.guard with rfl | ⟨_, rest⟩
  · exact proper
  rcases rest.guard with rfl | ⟨taken, rest⟩
  · exact proper
  dsimp only at rest
  split at rest
  next =>
    cases rest
    exact proper
  next index found =>
    cases rest
    have inside : index < file.rules.length := (List.findIdx?_eq_some_iff_getElem.mp found).1
    have member := List.getElem_mem inside
    have split := (List.getElem_cons_eraseIdx_perm inside).symm
    have listed := proper.ordered.row_listed member
    obtain ⟨a, tells, names⟩ := (proper.proper _ member).named
    have told : (file.tokens.setLiteral file.rules[index].name (.ofWritten new)).Tells file.rules[index].name
        { a with literal := .ofWritten new } := by
      refine ⟨?_, rfl⟩
      rw [TokenStream.setLiteral, TokenStream.get?_modify, if_pos rfl, tells.1]
      rfl
    have spares {kept : List Handle} (apart : file.rules[index].name ∉ kept) :
        Spares file.tokens (file.tokens.setLiteral file.rules[index].name (.ofWritten new)) kept :=
          RuleEdit.spares_modify apart
    rw [List.getElem?_eq_getElem inside, List.modify_eq_take_cons_drop inside]
    have split' (rule : Rule) :
        (file.rules.take index ++ rule :: file.rules.drop (index + 1)).Perm (rule :: file.rules.eraseIdx index) := by
      rw [List.eraseIdx_eq_take_drop_succ]
      exact List.perm_middle
    refine proper.of_rule split (split' _) rfl (proper.listed.tidy.setLiteral _ _ _) ?_ (fun front back around => spares ?_)
      fun other rest same => ?_
    · have once := listed.nodup proper.listed.tidy.code_nodup
      have renamed := (proper.proper _ member).renamed (spares (Rule.name_apart once)) ⟨_, told, names.kind, rfl⟩
      exact ⟨{ renamed.toFormed with }, renamed.named, renamed.spelled, renamed.defined⟩
    · exact RuleEdit.row_apart proper.listed.tidy around (RuleEdit.name_row _)
    · have named : (file.tokens.setLiteral file.rules[index].name (.ofWritten new)).text file.rules[index].name =
          new := by
        rw [told.text, names.kind]
        rfl
      have fresh : file.rule? new = none := by simpa using taken
      exact List.find?_eq_none.mp fresh other (List.mem_of_mem_eraseIdx rest) (beq_iff_eq.mpr (same.trans named))

end FileEdit

end YaraRules
