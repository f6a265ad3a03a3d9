import YaraRules.Proofs.LivingHandles
import YaraRules.Proofs.Outcomes
import YaraRules.Proofs.RuleRenames
import YaraRules.Proofs.RuleSpans
import YaraRules.Proofs.StreamArrivals

/-! Edits of the rules that a file lists. Rules of included files are listed too, but
tokens can only be moved into the stream of the file itself. So the condition of a rule can
be replaced, and a rule can be put before it, if it is a rule of the file itself; otherwise
the edit fails and leaves tokens and rules as they were. -/

namespace YaraRules

open TokenStream (Tidy Piece Spans Spanned Received Exchange Renaming Plain)

theorem TokenStream.Drafted.get?_of_code {s : TokenStream} (drafted : s.Drafted) {h : Handle} (member : h ∈ s.code) :
    ∃ a, s.get? h = some a ∧ a.kind ≠ .newLine ∧ Plain a := by
  obtain ⟨a, stored, word⟩ := drafted.toLone.tidy.get?_of_code member
  exact ⟨a, stored, word, drafted.plain _ (drafted.toLone.get?_eq_some.mp stored)⟩

theorem FileEdit.onTokens_run {α : Type} (edit : TokenEdit α) (file : RuleFile) :
    FileEdit.onTokens edit file = ((edit file.tokens).1, { file with tokens := (edit file.tokens).2 }) := rfl

/-! ### Files that were read -/

namespace RuleFile

variable {file file' : RuleFile} {index : Nat} {rule : Rule}

/-- The rule is one of the file itself and not of an included file. -/
def Owns (file : RuleFile) (rule : Rule) : Prop := rule.first.chain = file.tokens.id

/-- Texts of all rules. -/
def texts (file : RuleFile) : List String := file.rules.map (·.text file.tokens)

private theorem Ordered.first_viewed (ordered : file.Ordered) (member : rule ∈ file.rules) (own : file.Owns rule) :
    rule.first ∈ file.tokens.view.map (·.1) := by
  obtain ⟨a, stored⟩ := Option.isSome_iff_exists.mp (ordered.row_alive member (List.mem_of_head? rule.head?_row))
  rw [TokenStream.get?_top _ own, ordered.listed.tidy.sound.chain.get?_eq_some] at stored
  rw [← TokenStream.handles_view]
  exact List.mem_map_of_mem stored

namespace Read

variable (read : file.Read)
include read

theorem reachable : file.Reachable := by
  cases read with
  | ofSource done => exact .read done
  | ofPath done => exact .readPath done

theorem firm {h : Handle} {a : Token} (stored : file.tokens.get? h = some a) : file.tokens.Firm a :=
  fun _ points => read.linked.target_plain stored points

/-- An alias leads to a token before the condition of a rule. -/
theorem leads {h target : Handle} {a : Token} (stored : file.tokens.get? h = some a)
    (points : a.literal.aliasTarget? = some target) : ∃ rule ∈ file.rules, target ∈ rule.headRow := by
  obtain ⟨rule, member, _, ⟨_, other, member', rfl⟩ | named⟩ := read.linked.alias_of_condition stored points
  · exact ⟨other, member', other.name_head⟩
  · exact ⟨rule, member, rule.ids_head named⟩

theorem ruleIndex? (found : file.rules[index]? = some rule) :
    file.ruleIndex? (rule.nameText file.tokens) = some index := by
  obtain ⟨inside, rfl⟩ := List.getElem?_eq_some_iff.mp found
  have unique := read.linked.unique
  rw [show file.names.map (·.1) = file.rules.map (·.nameText file.tokens) by simp [names]] at unique
  refine List.findIdx?_eq_some_iff_getElem.mpr ⟨inside, by simp, fun i early same => ?_⟩
  have here : i < (file.rules.map (·.nameText file.tokens)).length := by simp; omega
  have there : index < (file.rules.map (·.nameText file.tokens)).length := by simpa using inside
  have equal : (file.rules.map (·.nameText file.tokens))[i] = (file.rules.map (·.nameText file.tokens))[index] := by
    simpa using same
  exact absurd (unique.getElem_inj_iff.mp equal) (Nat.ne_of_lt early)

end Read

/-! ### Another condition -/

/-- The tokens and rules of a file are as they were. -/
def Spared (file file' : RuleFile) : Prop := file'.tokens = file.tokens ∧ file'.rules = file.rules

theorem editRule_run {name : String} (indexed : file.ruleIndex? name = some index)
    (found : file.rules[index]? = some rule)
    {α : Type} {edit : RuleEdit α} {result : Except EditError α} {scope : RuleScope}
    (run : edit ⟨file.tokens, rule, file.nextId⟩ = (result, scope)) : file.editRule name edit = some (result,
      { file with tokens := scope.tokens, rules := file.rules.set index scope.rule, nextId := scope.nextId }) := by
  simp [RuleFile.editRule, indexed, found, ExceptT.run, run]

section

variable (read : file.Read) (found : file.rules[index]? = some rule)
include read found

private theorem Read.condition_ranged :
    ∃ range, file.tokens.rangeHandles rule.condition.first rule.condition.last = .ok range := by
  have root : (0, rule.condition) ∈ rule.condition.nodesFrom 0 := by
    rw [Expr.nodesFrom_eq]
    exact List.mem_cons_self
  obtain ⟨range, ranged, _⟩ := (read.reachable.rules_alive rule (List.mem_of_getElem? found)).ranges _ root
  exact ⟨range, ranged⟩

theorem Read.condition_chain : rule.condition.first.chain = rule.first.chain :=
  read.reachable.ordered.row_chain (List.mem_of_getElem? found)
    (rule.condition_sublist.subset (List.mem_of_head? rule.condition.head?_handles))

end

private theorem Read.setCondition_foreign (read : file.Read) (found : file.rules[index]? = some rule)
    (away : ¬ file.Owns rule)
    {draft : ConditionDraft} {id : ChainId} {condition : Detached Expr} (built : draft.build id = .ok condition) :
    ∃ file', file.editRule (rule.nameText file.tokens) (RuleEdit.setCondition condition) =
      some (.error (.tokens (.invalidHandle rule.condition.first)), file') ∧ Spared file file' := by
  have ready := ConditionDraft.build_ready built
  have nonempty := TokenStream.view_ne_nil condition.node.handles_ne_nil ready.listed
  obtain ⟨range, ranged⟩ := read.condition_ranged found
  have foreign : rule.condition.first.chain ≠ file.tokens.chain.id := read.condition_chain found ▸ away
  have failed := read.reachable.ordered.listed.tidy.exchange_misplaced ready.lone nonempty foreign ranged
  refine ⟨_, editRule_run (read.ruleIndex? found) found (RuleEdit.setCondition_fails failed), rfl, ?_⟩
  obtain ⟨inside, rfl⟩ := List.getElem?_eq_some_iff.mp found
  exact List.set_getElem_self inside

private theorem Read.exchange_reads (read : file.Read) (found : file.rules[index]? = some rule)
    {source joined after : TokenStream}
    {names : Renaming} {front new middle back : List Piece}
    (exchange : Exchange file.tokens source joined after names front new middle back)
    (spans : Spans rule.condition.first rule.condition.last middle)
    (alive : ∀ r ∈ file.rules, ∀ h ∈ r.headRow, (after.get? h).isSome) :
    (∀ h a, file.tokens.get? h = some a → (after.get? h).isSome → after.text h = file.tokens.text h) ∧
      ∀ r ∈ file.rules, r.Reads id file.tokens after := by
  have ordered := read.reachable.ordered
  have texts (h : Handle) (a : Token) (stored : file.tokens.get? h = some a) (still : (after.get? h).isSome) :
      after.text h = file.tokens.text h :=
    exchange.text stored (read.firm stored) still fun target points => by
      obtain ⟨r, member, held⟩ := read.leads stored points
      exact alive r member target held
  refine ⟨texts, fun r member => ?_⟩
  have aside := ordered.aside_condition (List.mem_of_getElem? found) member
  refine .of_spanned ordered.listed.tidy exchange.narrowed.tidy'.sound (ordered.row_listed member)
    (fun h held => ordered.row_chain member held) (alive r member) texts
      fun string inside m listed handles spanned => ?_
  have held : m.first ∈ r.headRow :=
    ((Rule.modifier_sublist inside listed).trans r.stringRow_sublist).subset
      (m.mem_row (by simp [StringModifier.handles]))
  exact exchange.spanned spanned (alive r member m.first held) fun top =>
    ordered.listed.tidy.beside exchange.received.before spans spanned (aside string inside m listed) top

private theorem Read.setCondition_replaces (read : file.Read) (found : file.rules[index]? = some rule)
    {condition : Detached Expr}
    {names : Renaming} {after : TokenStream}
    (done : (file.tokens.exchange rule.condition.first rule.condition.last condition.tokens).1 = .ok (names, after)) :
    ∃ file' rule', file.editRule (rule.nameText file.tokens) (RuleEdit.setCondition condition) = some (.ok (), file') ∧
      file'.tokens = after ∧ file'.rules = file.rules.set index rule' ∧
      rule' = { rule with condition := condition.node.rename names } :=
  ⟨_, _, editRule_run (read.ruleIndex? found) found (RuleEdit.setCondition_succeeds done), rfl, rfl, rfl⟩

private theorem Read.setCondition_own (read : file.Read) (found : file.rules[index]? = some rule) (own : file.Owns rule)
    {draft : ConditionDraft} {id : ChainId} {condition : Detached Expr} (built : draft.build id = .ok condition) :
    ∃ file', file.editRule (rule.nameText file.tokens) (RuleEdit.setCondition condition) = some (.ok (), file') ∧
      file'.texts = file.texts.set index (rule.textHaving file.tokens (condition.node.text condition.tokens)) ∧
      ∃ rule', file'.rules[index]? = some rule' ∧
      rule'.condition.text file'.tokens = condition.node.text condition.tokens := by
  have ordered := read.reachable.ordered
  obtain ⟨ready, drafted⟩ := ConditionDraft.build_written built
  have nonempty := TokenStream.view_ne_nil condition.node.handles_ne_nil ready.listed
  obtain ⟨range, ranged⟩ := read.condition_ranged found
  have top : rule.condition.first.chain = file.tokens.chain.id := (read.condition_chain found).trans own
  obtain ⟨names, after, exchanged⟩ := ordered.listed.tidy.exchange_ok ready.lone nonempty top ranged
  obtain ⟨joined, front, new, middle, back, exchange, spans⟩ :=
    ordered.listed.tidy.exchange_parts ready.lone nonempty top exchanged
  obtain ⟨file', rule', done, rfl, rules, changed⟩ := read.setCondition_replaces found exchanged
  have ordered' := (RuleEdit.Admitted.setCondition built).preserves ordered done
  have inside : index < file.rules.length := (List.getElem?_eq_some_iff.mp found).1
  have there : file'.rules[index]? = some rule' := by rw [rules, List.getElem?_set_self inside]
  have others {i : Nat} (apart : i ≠ index) : file'.rules[i]? = file.rules[i]? := by
    rw [rules, List.getElem?_set_ne (Ne.symm apart)]
  have head : rule'.headRow = rule.headRow := by
    rw [changed]
    rfl
  -- Only tokens of the old condition are gone.
  have alive (r : Rule) (member : r ∈ file.rules) (h : Handle) (held : h ∈ r.headRow) :
      (file'.tokens.get? h).isSome := by
    obtain ⟨i, here⟩ := List.getElem?_of_mem member
    by_cases same : i = index
    · subst same
      obtain rfl : rule = r := Option.some.inj (found.symm.trans here)
      exact ordered'.row_alive (List.mem_of_getElem? there) (rule'.row_eq ▸ List.mem_append_left _ (head ▸ held))
    · exact ordered'.row_alive (List.mem_of_getElem? ((others same).trans here))
        (r.row_eq ▸ List.mem_append_left _ held)
  obtain ⟨texts, reads⟩ := read.exchange_reads found exchange spans alive
  have condition_eq : rule'.condition = condition.node.mapHandles names.apply := by
    rw [changed]
    rfl
  have condition_text : rule'.condition.text file'.tokens = condition.node.text condition.tokens := by
    rw [condition_eq, Expr.text, Expr.textWith_mapHandles]
    refine condition.node.textWith_congr fun h held => ?_
    obtain ⟨a, stored, word, plain⟩ := drafted.get?_of_code (ready.listed.subset held)
    refine exchange.text_new stored word plain (ordered'.row_alive (List.mem_of_getElem? there) ?_)
    refine rule'.condition_sublist.subset ?_
    rw [condition_eq, Expr.handles_mapHandles]
    exact List.mem_map_of_mem held
  have own_text : rule'.text file'.tokens = rule.textHaving file.tokens (condition.node.text condition.tokens) := by
    rw [Rule.text_eq, condition_text, changed, Rule.textHaving_condition]
    exact (reads rule (List.mem_of_getElem? found)).textHaving_same _
  refine ⟨file', done, List.ext_getElem? fun i => ?_, rule', there, condition_text⟩
  rw [RuleFile.texts, RuleFile.texts, List.getElem?_map]
  by_cases same : i = index
  · subst same
    rw [there, Option.map_some, own_text, List.getElem?_set_self (by simpa using inside)]
  · rw [others same, List.getElem?_set_ne (Ne.symm same), List.getElem?_map]
    cases here : file.rules[i]? with
    | none => rw [Option.map_none, Option.map_none]
    | some r =>
      have member := List.mem_of_getElem? here
      have words (h : Handle) (held : h ∈ r.condition.handles) : file'.tokens.text h = file.tokens.text h := by
        have part := r.condition_sublist.subset held
        obtain ⟨a, stored⟩ := Option.isSome_iff_exists.mp (ordered.row_alive member part)
        exact texts h a stored (ordered'.row_alive (List.mem_of_getElem? ((others same).trans here)) part)
      have kept : r.text file'.tokens = r.text file.tokens := (reads r member).text_same words
      rw [Option.map_some, Option.map_some, kept]

/-! ### Another rule -/

theorem insertRule_run {new : Detached Rule} (fresh : file.rule? (new.node.nameText new.tokens) = none)
    (inside : index ≤ file.rules.length) :
    FileEdit.insertRule index new file = (do
      let names ← FileEdit.onTokens (.moveAll (file.rules[index]?.map Rule.first) new.tokens)
      modify fun file => { file with rules := file.rules.insertIdx index (new.node.rename names) } : FileEdit Unit)
        { file with nextId := max file.nextId (new.tokens.id + 1) } := by
  unfold FileEdit.insertRule
  rw [get_run]
  dsimp only
  rw [fresh, if_neg (by simp)]
  cases found : file.rules[index]? with
  | some next => rfl
  | none =>
    have last : index = file.rules.length := Nat.le_antisymm inside (List.getElem?_eq_none_iff.mp found)
    dsimp only
    rw [if_pos last]
    rfl

private theorem insertRule_succeeds {new : Detached Rule} (fresh : file.rule? (new.node.nameText new.tokens) = none)
    (inside : index ≤ file.rules.length) {names : Renaming} {after left : TokenStream}
    (done : file.tokens.moveAll (file.rules[index]?.map Rule.first) new.tokens = (.ok (names, after), left)) :
    ∃ file', file.edit (FileEdit.insertRule index new) = (.ok (), file') ∧ file'.tokens = after ∧
      file'.rules = file.rules.insertIdx index (new.node.rename names) := by
  have moved : Succeeds (TokenEdit.moveAll (file.rules[index]?.map Rule.first) new.tokens) file.tokens names after :=
    TokenEdit.apply_succeeds (by rw [done])
  rw [RuleFile.edit, ExceptT.run, insertRule_run fresh inside, bind_run, FileEdit.onTokens_run, moved]
  exact ⟨_, rfl, rfl, rfl⟩

private theorem insertRule_fails {new : Detached Rule} (fresh : file.rule? (new.node.nameText new.tokens) = none)
    (inside : index ≤ file.rules.length) {e : TokenStream.Error}
    (failed : (file.tokens.moveAll (file.rules[index]?.map Rule.first) new.tokens).1 = .error e) :
    ∃ file', file.edit (FileEdit.insertRule index new) = (.error (.tokens e), file') ∧ Spared file file' := by
  have stopped : Fails (TokenEdit.moveAll (file.rules[index]?.map Rule.first) new.tokens) file.tokens
      (.tokens e) file.tokens :=
    TokenEdit.apply_fails failed
  rw [RuleFile.edit, ExceptT.run, insertRule_run fresh inside, bind_run, FileEdit.onTokens_run, stopped]
  exact ⟨_, rfl, rfl, rfl⟩

private theorem Read.insertRule_foreign (read : file.Read) (found : file.rules[index]? = some rule)
    (away : ¬ file.Owns rule)
    {draft : RuleDraft} (filled : draft.Filled) {id : ChainId} {new : Detached Rule} (built : draft.build id = .ok new)
    (fresh : file.rule? (new.node.nameText new.tokens) = none) :
    ∃ file', file.edit (FileEdit.insertRule index new) = (.error (.tokens (.invalidHandle rule.first)), file') ∧
      Spared file file' := by
  have ready := (RuleDraft.build_written filled built).1
  have nonempty := TokenStream.view_ne_nil new.node.row_ne_nil ready.listed
  refine insertRule_fails fresh (Nat.le_of_lt (List.getElem?_eq_some_iff.mp found).1) ?_
  rw [found, Option.map_some]
  exact read.reachable.ordered.listed.tidy.moveAll_misplaced ready.lone nonempty away

/-- Tokens and ranges stay while a rule is put before another one, or behind all. -/
theorem Read.received_reads (read : file.Read) {source after : TokenStream} {names : Renaming}
    {ahead new behind : List Piece}
    (received : Received file.tokens source after names ahead new behind)
    (place : behind.head?.map (·.1) = file.rules[index]?.map Rule.first) :
    (∀ h, (file.tokens.get? h).isSome → after.text h = file.tokens.text h) ∧
      ∀ r ∈ file.rules, r.Reads id file.tokens after := by
  have ordered := read.reachable.ordered
  have texts (h : Handle) (alive : (file.tokens.get? h).isSome) : after.text h = file.tokens.text h := by
    obtain ⟨a, stored⟩ := Option.isSome_iff_exists.mp alive
    exact received.text stored (read.firm stored)
  refine ⟨texts, fun r member => ?_⟩
  refine .of_spanned ordered.listed.tidy received.tidy'.sound (ordered.row_listed member)
    (fun h held => ordered.row_chain member held) (fun h held => ?_)
    (fun h a stored _ => texts h (by simp [stored])) fun string inside m listed handles spanned => ?_
  · obtain ⟨a, stored⟩ :=
      Option.isSome_iff_exists.mp (ordered.row_alive member (r.row_eq ▸ List.mem_append_left _ held))
    simp [received.get? stored]
  refine received.spanned spanned fun top => ?_
  cases found : file.rules[index]? with
  | none =>
    obtain rfl : behind = [] := by simpa [found] using place
    obtain ⟨owner, held, part, _⟩ := spanned
    obtain rfl : file.tokens = owner := Option.some.inj ((TokenStream.owner?_top top).symm.trans held)
    rw [TokenStream.handles_view, received.before, List.append_nil] at part
    exact .inl part
  | some next =>
    rw [found, Option.map_some] at place
    obtain ⟨piece, more, rfl, named⟩ : ∃ piece more, behind = piece :: more ∧ piece.1 = next.first := by
      cases behind with
      | nil => cases place
      | cons piece more => exact ⟨piece, more, rfl, by simpa using place⟩
    have aside : r.Aside file.tokens next.first next.first := by
      have begins := List.mem_of_head? next.head?_row
      by_cases same : r = next
      · subst same
        exact Rule.aside_first (ordered.row_listed member)
      · exact ordered.aside (List.mem_of_getElem? found) member same begins begins
    have one : Spans next.first next.first [piece] := ⟨by simp [named], by simp [named]⟩
    have split : file.tokens.view = ahead ++ ([piece] ++ more) := received.before
    exact (ordered.listed.tidy.beside split one spanned (aside string inside m listed) top).imp_right fun late =>
      late.trans (List.suffix_cons _ _).isInfix

private theorem Read.insertRule_own (read : file.Read) (inside : index ≤ file.rules.length)
    (own : ∀ next ∈ file.rules[index]?, file.Owns next) {draft : RuleDraft} (filled : draft.Filled) {id : ChainId}
    {new : Detached Rule} (built : draft.build id = .ok new)
    (fresh : file.rule? (new.node.nameText new.tokens) = none) :
    ∃ file', file.edit (FileEdit.insertRule index new) = (.ok (), file') ∧
      file'.ruleIndex? (new.node.nameText new.tokens) = some index ∧ file'.texts.eraseIdx index = file.texts := by
  have ordered := read.reachable.ordered
  obtain ⟨ready, drafted, _⟩ := RuleDraft.build_written filled built
  have nonempty := TokenStream.view_ne_nil new.node.row_ne_nil ready.listed
  have live : ∀ h ∈ file.rules[index]?.map Rule.first, h ∈ file.tokens.view.map (·.1) := by
    intro h held
    obtain ⟨next, found, rfl⟩ := Option.map_eq_some_iff.mp held
    exact ordered.first_viewed (List.mem_of_getElem? found) (own next found)
  obtain ⟨names, after, left, moved⟩ := ordered.listed.tidy.moveAll_ok ready.lone nonempty live
  obtain ⟨ahead, pieces, behind, received, place⟩ := ordered.listed.tidy.moveAll_received ready.lone nonempty moved
  obtain ⟨file', done, rfl, rules⟩ := insertRule_succeeds fresh inside moved
  obtain ⟨texts, reads⟩ := read.received_reads received place
  have name_text : (new.node.rename names).nameText file'.tokens = new.node.nameText new.tokens := by
    have held : new.node.name ∈ new.node.row := by simp [Rule.row]
    obtain ⟨a, stored, word, plain⟩ := drafted.get?_of_code (ready.listed.subset held)
    exact received.text_new stored word fun target points => by cases points.symm.trans plain
  refine ⟨file', done, List.findIdx?_eq_some_iff_getElem.mpr ⟨?_, ?_, fun i early => ?_⟩, ?_⟩
  · rw [rules, List.length_insertIdx, if_pos inside]
    omega
  · simp [rules, name_text]
  · have here : file'.rules[i]? = file.rules[i]? := by rw [rules, List.getElem?_insertIdx_of_lt early]
    obtain ⟨r, found⟩ : ∃ r, file.rules[i]? = some r := ⟨_, List.getElem?_eq_getElem (Nat.lt_of_lt_of_le early inside)⟩
    obtain ⟨_, there⟩ := List.getElem?_eq_some_iff.mp (here.trans found)
    have member := List.mem_of_getElem? found
    have other := List.find?_eq_none.mp fresh r member
    have kept : r.nameText file'.tokens = r.nameText file.tokens :=
      (reads r member).words r.name (by simp [Rule.headRow])
    rw [there, kept]
    exact other
  · have kept : file.rules.map (·.text file'.tokens) = file.texts := by
      refine List.map_congr_left fun r member => (reads r member).text_same fun h held => texts h ?_
      exact ordered.row_alive member (r.condition_sublist.subset held)
    rw [RuleFile.texts, rules, List.map_insertIdx, List.eraseIdx_insertIdx_self, kept]

/-! ### What can be edited -/

/-- Outcomes of the two edits on a file that was read. Both are made for each rule of the file itself, and nowhere
else: at a rule of an included file, which is listed as well, they fail and change nothing. A rule can always be put
behind all others. -/
theorem Read.edits_own_rules (read : file.Read) :
    (∀ index rule, file.rules[index]? = some rule →
    ∀ draft id condition, ConditionDraft.build id draft = .ok condition →
      ∃ result file', file.editRule (rule.nameText file.tokens)
      (RuleEdit.setCondition condition) = some (result, file') ∧
        (file.Owns rule → result = .ok () ∧
          file'.texts = file.texts.set index (rule.textHaving file.tokens (condition.node.text condition.tokens)) ∧
          ∃ rule', file'.rules[index]? = some rule' ∧
          rule'.condition.text file'.tokens = condition.node.text condition.tokens) ∧
        (¬ file.Owns rule → result = .error (.tokens (.invalidHandle rule.condition.first)) ∧ Spared file file')) ∧
    (∀ index ≤ file.rules.length, ∀ draft id new, RuleDraft.Filled draft → RuleDraft.build id draft = .ok new →
      file.rule? (new.node.nameText new.tokens) = none →
      ∃ result file', file.edit (FileEdit.insertRule index new) = (result, file') ∧
        ((∀ next ∈ file.rules[index]?, file.Owns next) → result = .ok () ∧
          file'.ruleIndex? (new.node.nameText new.tokens) = some index ∧ file'.texts.eraseIdx index = file.texts) ∧
        ∀ next ∈ file.rules[index]?, ¬ file.Owns next →
          result = .error (.tokens (.invalidHandle next.first)) ∧ Spared file file') := by
  constructor
  · intro index rule found draft id condition built
    by_cases own : file.Owns rule
    · obtain ⟨file', done, texts, condition_text⟩ := read.setCondition_own found own built
      exact ⟨_, file', done, fun _ => ⟨rfl, texts, condition_text⟩, fun away => absurd own away⟩
    · obtain ⟨file', failed, spared⟩ := read.setCondition_foreign found own built
      exact ⟨_, file', failed, fun here => absurd here own, fun _ => ⟨rfl, spared⟩⟩
  · intro index inside draft id new filled built fresh
    by_cases own : ∀ next ∈ file.rules[index]?, file.Owns next
    · obtain ⟨file', done, listed, texts⟩ := read.insertRule_own inside own filled built fresh
      exact ⟨_, file', done, fun _ => ⟨rfl, listed, texts⟩, fun next found away => absurd (own next found) away⟩
    · push Not at own
      obtain ⟨rule, found, away⟩ := own
      obtain ⟨file', failed, spared⟩ := read.insertRule_foreign found away filled built fresh
      refine ⟨_, file', failed, fun here => absurd (here rule found) away, fun next found' _ => ?_⟩
      obtain rfl : rule = next := Option.some.inj (found.symm.trans found')
      exact ⟨rfl, spared⟩

/-- A file with a rule and an include. -/
def ownContent : Bytes := Bytes.ofText "rule a { condition: true } include \"b.yar\""
def ownTree : FileTree := .ofPaths [("b.yar", Bytes.ofText "rule b { condition: true }")]

/-- A draft of `rule z { condition: false }`. -/
def ownDraft : RuleDraft := (RuleDraft.withName {} "z").withCondition (.boolean false)

private theorem own_first : yields (RuleFile.ofSource {} ownTree 0 ownContent) (fun file =>
    yields ((ConditionDraft.boolean false).build 9) fun _ =>
    yields (ownDraft.build 9) fun new =>
    match file.rules with
    | [a, b] => decide (a.first.chain = file.tokens.id ∧ b.first.chain ≠ file.tokens.id) &&
      (file.rule? (new.node.nameText new.tokens)).isNone
    | _ => false) = true := by
  decide +kernel

/-- The rule of the file gets another condition and a rule before it, that of the included file neither. -/
theorem edits_own_not_included : ∃ (file : RuleFile) (a b : Rule) (condition : Detached Expr) (new : Detached Rule)
    (changed widened : RuleFile) (e e' : EditError), RuleFile.ofSource {} ownTree 0 ownContent = .ok file ∧
    file.rules = [a, b] ∧
    (ConditionDraft.boolean false).build 9 = .ok condition ∧ ownDraft.build 9 = .ok new ∧
    file.editRule (a.nameText file.tokens) (RuleEdit.setCondition condition) = some (.ok (), changed) ∧
    file.edit (FileEdit.insertRule 0 new) = (.ok (), widened) ∧ widened.texts.eraseIdx 0 = file.texts ∧
    (∃ file', file.editRule (b.nameText file.tokens) (RuleEdit.setCondition condition) = some (.error e, file') ∧
      Spared file file') ∧
    ∃ file', file.edit (FileEdit.insertRule 1 new) = (.error e', file') ∧ Spared file file' := by
  obtain ⟨file, done, run⟩ := yields_iff.mp own_first
  obtain ⟨condition, built, run⟩ := yields_iff.mp run
  obtain ⟨new, drafted, run⟩ := yields_iff.mp run
  split at run
  next a b listed =>
    simp only [Bool.and_eq_true, decide_eq_true_eq, Option.isNone_iff_eq_none] at run
    obtain ⟨⟨own, away⟩, fresh⟩ := run
    have own : file.Owns a := own
    obtain ⟨conditions, insertions⟩ := Read.edits_own_rules (.ofSource done)
    have filled : ownDraft.Filled := .withCondition _ (.withName "z" .new)
    obtain ⟨_, changed, run₁, made, _⟩ := conditions 0 a (by simp [listed]) _ 9 condition built
    obtain ⟨_, file₁, run₂, _, failed⟩ := conditions 1 b (by simp [listed]) _ 9 condition built
    obtain ⟨_, widened, run₃, put, _⟩ := insertions 0 (by simp) _ 9 new filled drafted fresh
    obtain ⟨_, file₂, run₄, _, refused⟩ := insertions 1 (by simp [listed]) _ 9 new filled drafted fresh
    obtain ⟨rfl, _⟩ := made own
    obtain ⟨rfl, spared⟩ := failed away
    obtain ⟨rfl, _, texts⟩ := put (by simpa [listed] using own)
    obtain ⟨rfl, spared'⟩ := refused b (by simp [listed]) away
    exact ⟨file, a, b, condition, new, changed, widened, _, _, done, listed, built, drafted, run₁, run₃, texts,
      ⟨file₁, run₂, spared⟩, file₂, run₄, spared'⟩
  next => cases run

end RuleFile

end YaraRules
