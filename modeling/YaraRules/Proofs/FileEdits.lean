import YaraRules.Edit.File
import YaraRules.Proofs.ConditionEdits

/-! What edits make of the tokens of a file. The rows of its imports and rules stand one
behind the other, in some order; an edit rewrites one row, removes one, or puts a new one
between two others or at an end. -/

namespace YaraRules

open TokenStream (Tidy Rewrites Spot codeOf codeOf_append codeOf_cons codeOf_one split_unique)

/-- Rows stand in the code of a stream one behind the other, each in one stream. -/
structure Listed (tokens : TokenStream) (rows : List (List Handle)) : Prop where
  tidy : tokens.Tidy
  order : ∃ items : List (List Handle), items.Perm rows ∧ items.flatten.Sublist tokens.code
  chain : ∀ row ∈ rows, ∃ id, ∀ h ∈ row, h.chain = id

namespace Listed

variable {tokens tokens' : TokenStream} {rows rows' others : List (List Handle)} {row : List Handle}

theorem rewrite (listed : Listed tokens rows) (news : List (List Handle)) (split : rows.Perm (row :: others))
    (rewrites : Rewrites tokens tokens' row news.flatten) (split' : rows'.Perm (news ++ others)) :
    Listed tokens' rows' := by
  obtain ⟨items, same, inside⟩ := listed.order
  have member : row ∈ items := (same.trans split).mem_iff.mpr (by simp)
  obtain ⟨front, back, rfl⟩ := List.append_of_mem member
  have rest : (front ++ back).Perm others := (List.perm_middle.symm.trans (same.trans split)).cons_inv
  refine ⟨rewrites.tidy, ⟨front ++ (news ++ back), ?_, ?_⟩, fun row' member' => ?_⟩
  · have swap : (front ++ (news ++ back)).Perm (news ++ (front ++ back)) := by
      simpa using (List.perm_append_comm : (front ++ news).Perm (news ++ front)).append_right back
    exact swap.trans ((rest.append_left news).trans split'.symm)
  · simpa using rewrites.code front.flatten back.flatten (by simpa using inside)
  · rcases List.mem_append.mp (split'.mem_iff.mp member') with new | old
    · obtain ⟨id, chain⟩ := listed.chain row (split.mem_iff.mpr (by simp))
      exact ⟨id, fun h inside => rewrites.chain id chain h (List.mem_flatten.mpr ⟨row', new, inside⟩)⟩
    · exact listed.chain row' (split.mem_iff.mpr (by simp [old]))

/-- A new row comes before or behind all others. -/
theorem add (listed : Listed tokens rows) (tidy : tokens'.Tidy) (chain : ∃ id, ∀ h ∈ row, h.chain = id)
    (placed : ∀ code : List Handle, code.Sublist tokens.code →
      (row ++ code).Sublist tokens'.code ∨ (code ++ row).Sublist tokens'.code)
    (split : rows'.Perm (row :: rows)) : Listed tokens' rows' := by
  obtain ⟨items, same, inside⟩ := listed.order
  refine ⟨tidy, ?_, fun row' member => ?_⟩
  · rcases placed items.flatten inside with first | last
    · exact ⟨row :: items, (same.cons row).trans split.symm, by simpa using first⟩
    · refine ⟨items ++ [row], ?_, by simpa using last⟩
      exact (List.perm_append_singleton row items).trans ((same.cons row).trans split.symm)
  · rcases List.mem_cons.mp (split.mem_iff.mp member) with rfl | old
    · exact chain
    · exact listed.chain row' old

theorem same (listed : Listed tokens rows) (rewrites : ∀ row, Rewrites tokens tokens' row row) :
    Listed tokens' rows := by
  obtain ⟨items, same, inside⟩ := listed.order
  have whole := rewrites items.flatten
  exact ⟨whole.tidy, ⟨items, same, by simpa using whole.code [] [] (by simpa using inside)⟩, listed.chain⟩

theorem sublist (listed : Listed tokens rows) (member : row ∈ rows) : row.Sublist tokens.code := by
  obtain ⟨items, same, inside⟩ := listed.order
  exact (List.sublist_flatten_of_mem (same.mem_iff.mpr member)).trans inside

end Listed

/-- Rows of all imports and rules of a file. -/
def RuleFile.rows (file : RuleFile) : List (List Handle) := file.imports.map Import.row ++ file.rules.map Rule.row

private theorem rows_of_import {imports others : List Import} {i : Import} (split : imports.Perm (i :: others))
    (rules : List Rule) : (imports.map Import.row ++ rules.map Rule.row).Perm
    (i.row :: (others.map Import.row ++ rules.map Rule.row)) :=
  (split.map Import.row).append_right _

theorem rows_of_rule (imports : List Import) {rules others : List Rule} {rule : Rule}
    (split : rules.Perm (rule :: others)) :
    (imports.map Import.row ++ rules.map Rule.row).Perm (rule.row :: (imports.map Import.row ++ others.map Rule.row)) :=
  ((split.map Rule.row).append_left _).trans List.perm_middle

/-- The rows of a file stand in order, and so do the strings of its rules. -/
structure RuleFile.Ordered (file : RuleFile) : Prop where
  listed : Listed file.tokens file.rows
  filed : ∀ rule ∈ file.rules, rule.Filed

namespace TokenEdit

variable {s after : TokenStream}

/-- A token is put in a place between two others, or at the end. -/
theorem insertAt_spots (tidy : s.Tidy) {anchor : Option Handle} {token : Token} {new : Handle}
    (done : Succeeds (insertAt anchor token) s new after) {ahead behind : List Spot}
    (split : s.spots = ahead ++ behind) (place : behind.head?.map (·.1) = anchor) :
    after.Tidy ∧ after.spots = (ahead ++ [(new, token.kind, false)]) ++ behind ∧
      new.chain = (anchor.map (·.chain)).getD s.chain.id ∧ (anchor = none → after.chain.id = s.chain.id) := by
  cases anchor with
  | none =>
    obtain rfl : behind = [] := by simpa using place
    have run : ((.ok (s.push token).1, (s.push token).2) : Except EditError Handle × TokenStream) = (.ok new, after) :=
      done
    obtain ⟨rfl, rfl⟩ : (s.push token).1 = new ∧ (s.push token).2 = after := by simpa using run
    obtain ⟨tidy', chain, spots⟩ := tidy.push token
    obtain ⟨_, _, id, _⟩ := tidy.sound.push token
    exact ⟨tidy', by simpa [split] using spots, chain, fun _ => id⟩
  | some before =>
    obtain ⟨tidy', chain, ahead', spot, behind', split', rfl, spots⟩ := tidy.insertBefore_spots (succeeds_apply done)
    obtain ⟨next, more, rfl, named⟩ : ∃ next more, behind = next :: more ∧ next.1 = spot.1 := by
      cases behind with
      | nil => cases place
      | cons next more => exact ⟨next, more, rfl, by simpa using place⟩
    obtain ⟨rfl, rfl, rfl⟩ := split_unique (split ▸ tidy.nodup) (split.symm.trans split') named
    exact ⟨tidy', by simp [spots], chain, nofun⟩

theorem succeeds_moveAll {before : Option Handle} {source : TokenStream} {names : TokenStream.Renaming}
    (done : Succeeds (moveAll before source) s names after) :
    ∃ left, s.moveAll before source = (.ok (names, after), left) := by
  have run := succeeds_apply done
  rcases found : s.moveAll before source with ⟨result, left⟩
  rw [found] at run
  exact ⟨left, by rw [← run]⟩

/-- A row was put in one place, which a token or the end of the stream marks. -/
def Inserts (s after : TokenStream) (anchor : Option Handle) (row : List Handle) : Prop :=
  ∀ ahead behind, s.spots = ahead ++ behind → behind.head?.map (·.1) = anchor →
    after.Tidy ∧ after.code = codeOf ahead ++ (row ++ codeOf behind) ∧
      ∀ h ∈ row, h.chain = (anchor.map (·.chain)).getD s.chain.id

private theorem insertLine_code {s₁ s₂ s₃ : TokenStream} (tidy : s.Tidy) {anchor : Option Handle}
    {word word' stop : Token} {h h' h'' : Handle} (first : Succeeds (insertAt anchor word) s h s₁)
    (second : Succeeds (insertAt anchor word') s₁ h' s₂) (third : Succeeds (insertAt anchor stop) s₂ h'' s₃)
    (is_word : word.kind ≠ .newLine) (is_word' : word'.kind ≠ .newLine)
    (is_stop : stop.kind = .newLine) : Inserts s s₃ anchor [h, h'] := by
  intro ahead behind split place
  obtain ⟨tidy₁, split₁, chain₁, same₁⟩ := insertAt_spots tidy first split place
  obtain ⟨tidy₂, split₂, chain₂, _⟩ := insertAt_spots tidy₁ second split₁ place
  obtain ⟨tidy₃, split₃, _, _⟩ := insertAt_spots tidy₂ third split₂ place
  refine ⟨tidy₃, ?_, ?_⟩
  · rw [TokenStream.code, split₃, is_stop]
    simp only [codeOf_append, codeOf_one is_word, codeOf_one is_word', TokenStream.codeOf_break]
    simp
  · have same : h'.chain = h.chain := by
      rw [chain₁, chain₂]
      cases anchor with
      | none => exact same₁ rfl
      | some before => rfl
    simp [same, chain₁]

end TokenEdit

namespace FileEdit

variable {file file' : RuleFile} {u : Unit}

theorem succeeds_onTokens {α : Type} {edit : TokenEdit α} {a : α} (done : Succeeds (onTokens edit) file a file') :
    ∃ tokens, Succeeds edit file.tokens a tokens ∧ file' = { file with tokens } := by
  rcases found : edit file.tokens with ⟨result, tokens⟩
  have run : (result, { file with tokens : RuleFile }) = (Except.ok a, file') := by
    have same := done
    unfold Succeeds onTokens ExceptT.run at same
    rw [found] at same
    exact same
  cases run
  exact ⟨tokens, found, rfl⟩

theorem onTokens_bind {α β : Type} {edit : TokenEdit α} {next : α → FileEdit β} {b : β}
    (done : Succeeds (onTokens edit >>= next) file b file') :
    ∃ a tokens, Succeeds edit file.tokens a tokens ∧ Succeeds (next a) { file with tokens } b file' := by
  obtain ⟨a, middle, changed, rest⟩ := done.bind
  obtain ⟨tokens, found, rfl⟩ := succeeds_onTokens changed
  exact ⟨a, tokens, found, rest⟩

/-- An edit that succeeds leaves a file in order. -/
def Preserves {α : Type} (edit : FileEdit α) : Prop :=
  ∀ file a file', file.Ordered → Succeeds edit file a file' → file'.Ordered

namespace Preserves

variable {α β : Type}

theorem pure (a : α) : Preserves (pure a) := by
  intro file b file' ordered done
  cases done
  exact ordered

theorem bind {edit : FileEdit α} {next : α → FileEdit β} (first : Preserves edit) (rest : ∀ a, Preserves (next a)) :
    Preserves (edit >>= next) := by
  intro file b file'' ordered done
  obtain ⟨a, file', one, two⟩ := done.bind
  exact rest a file' b file'' (first file a file' ordered one) two

theorem get_bind {next : RuleFile → FileEdit β} (rest : ∀ file, Preserves (next file)) : Preserves (get >>= next) :=
  fun file b file' ordered done => rest file file b file' ordered done.get_bind

theorem forIn {edit : α → FileEdit β} (each : ∀ a, Preserves (edit a)) (items : List α) :
    Preserves (forIn items PUnit.unit fun a _ => do let _ ← edit a; return ForInStep.yield PUnit.unit) := by
  induction items with
  | nil => exact pure _
  | cons item rest ih =>
    rw [List.forIn_cons]
    refine bind (bind (each item) fun _ => pure _) fun step => ?_
    cases step with
    | done u => exact pure u
    | yield u => exact ih

theorem forM {edit : α → FileEdit PUnit} {items : List α} (each : ∀ a ∈ items, Preserves (edit a)) :
    Preserves (items.forM edit) := by
  induction items with
  | nil => exact pure _
  | cons item rest ih => exact bind (each item (by simp)) fun _ => ih fun a member => each a (by simp [member])

end Preserves

/-! ### Imports -/

/-- The row of a new import comes right behind the row of another import, or before or behind all rows. -/
theorem importLine_listed {rows : List (List Handle)} (listed : Listed file.tokens rows)
    (imports : ∀ i ∈ file.imports, i.row ∈ rows) {after : TokenStream} {row : List Handle}
    (line : TokenEdit.Inserts file.tokens after (importAnchor file) row) : Listed after (row :: rows) := by
  have tidy := listed.tidy
  unfold importAnchor at line
  cases last : file.imports.getLast? with
  | none =>
    rw [last] at line
    cases begins : file.tokens.first? with
    | none =>
      obtain ⟨tidy', code, chain⟩ := line _ _ (List.append_nil _).symm begins.symm
      refine listed.add tidy' ⟨_, chain⟩ (fun others inside => .inr ?_) (.refl _)
      rw [code, TokenStream.codeOf_nil, List.append_nil]
      exact inside.append_right row
    | some start =>
      obtain ⟨next, behind, split, rfl⟩ := tidy.first_spots begins
      obtain ⟨tidy', code, chain⟩ := line [] _ split begins.symm
      refine listed.add tidy' ⟨_, chain⟩ (fun others inside => .inl ?_) (.refl _)
      rw [code, ← split]
      exact inside.append_left row
  | some other =>
    rw [last] at line
    have member := imports other (List.mem_of_getLast? last)
    cases follows : file.tokens.next? (file.tokens.lineEnd other.name) with
    | none =>
      obtain ⟨tidy', code, chain⟩ := line _ _ (List.append_nil _).symm follows.symm
      refine listed.add tidy' ⟨_, chain⟩ (fun others inside => .inr ?_) (.refl _)
      rw [code, TokenStream.codeOf_nil, List.append_nil]
      exact inside.append_right row
    | some start =>
      simp only [follows] at line
      have placed {front back : List Handle} (inside : (front ++ (other.row ++ back)).Sublist file.tokens.code) :=
        tidy.next_line follows (show ((front ++ [other.keyword]) ++ other.name :: back).Sublist _ by
          simpa [Import.row] using inside)
      have rewrites : Rewrites file.tokens after other.row [other.row, row].flatten := by
        obtain ⟨own, ahead, next, behind, split, rfl, _, _⟩ :=
          @placed [] [] (by simpa using listed.sublist member)
        obtain ⟨tidy', _, chain⟩ := line _ _ split rfl
        refine ⟨tidy', fun front back inside => ?_, fun id same h new => ?_⟩
        · obtain ⟨_, ahead, next', behind, split, named, left, right⟩ := placed inside
          obtain ⟨_, code, _⟩ := line _ _ split (congrArg some named)
          have all := left.append (right.append_left row)
          rw [code]
          simpa [Import.row] using all
        · rcases List.mem_append.mp (by simpa using new) with old | new
          · exact same h old
          · rw [chain h new]
            exact own.trans (same other.name (by simp [Import.row]))
      have split := List.perm_cons_erase member
      exact listed.rewrite [other.row, row] split rewrites ((split.cons row).trans (List.Perm.swap ..))

theorem addImport_preserves (name : String) : Preserves (addImport name) := by
  intro file a file' ordered done
  have rest := done.get_bind
  split at rest
  next =>
    cases rest
    exact ordered
  next =>
    have rest := rest.get_bind.get_bind
    dsimp only at rest
    have rest := rest.modify_bind
    split at rest
    next => cases rest
    next imported _ =>
      have rest := rest.get_bind
      dsimp only at rest
      obtain ⟨keyword, tokens₁, inserted₁, rest⟩ := onTokens_bind rest
      obtain ⟨nameToken, tokens₂, inserted₂, rest⟩ := onTokens_bind rest
      obtain ⟨_, tokens₃, inserted₃, rest⟩ := onTokens_bind rest
      cases rest
      have line := TokenEdit.insertLine_code ordered.listed.tidy inserted₁ inserted₂ inserted₃ nofun nofun rfl
      have rows : ∀ i ∈ file.imports, i.row ∈ file.rows := fun i member =>
        List.mem_append_left _ (List.mem_map_of_mem member)
      obtain ⟨tidy, ⟨items, same, inside⟩, chain⟩ := importLine_listed ordered.listed rows line
      have split := rows_of_import (List.perm_append_singleton ⟨keyword, nameToken, imported⟩ file.imports) file.rules
      exact ⟨⟨tidy, ⟨items, same.trans split.symm, inside⟩, fun row member => chain row (split.mem_iff.mp member)⟩,
        ordered.filed⟩

theorem removeImport_preserves (name : String) : Preserves (removeImport name) := by
  intro file a file' ordered done
  have rest := done.get_bind
  dsimp only at rest
  split at rest
  next =>
    cases rest
    exact ordered
  next index found =>
    have rest := rest.guard.2.modify_bind
    have inside : index < file.imports.length := (List.findIdx?_eq_some_iff_getElem.mp found).1
    rw [List.getElem?_eq_getElem inside] at rest
    obtain ⟨_, middle, looped, rest⟩ := rest.bind
    obtain ⟨_, first, none⟩ := looped.for_cons
    obtain ⟨tokens, erased, rfl⟩ := succeeds_onTokens first
    cases none
    cases rest
    have gone : Rewrites _ _ file.imports[index].row [] :=
      TokenEdit.eraseLine_rewrites ordered.listed.tidy rfl rfl erased
    have split := rows_of_import (List.getElem_cons_eraseIdx_perm inside).symm file.rules
    exact ⟨ordered.listed.rewrite [] split gone (.refl _), ordered.filed⟩

/-! ### Rules -/

theorem removeRule_preserves (name : String) : Preserves (removeRule name) := by
  intro file a file' ordered done
  have rest := done.get_bind
  split at rest
  next =>
    cases rest
    exact ordered
  next index found =>
    have rest := rest.modify_bind
    have inside : index < file.rules.length := (List.findIdx?_eq_some_iff_getElem.mp found).1
    rw [List.getElem?_eq_getElem inside] at rest
    obtain ⟨_, middle, looped, rest⟩ := rest.bind
    obtain ⟨_, first, none⟩ := looped.for_cons
    obtain ⟨tokens, erased, rfl⟩ := succeeds_onTokens first
    cases none
    cases rest
    have gone := TokenEdit.eraseLine_rewrites ordered.listed.tidy file.rules[index].head?_row
      file.rules[index].getLast?_row erased
    have split := rows_of_rule file.imports (List.getElem_cons_eraseIdx_perm inside).symm
    exact ⟨ordered.listed.rewrite [] split gone (.refl _),
      fun rule member => ordered.filed rule (List.mem_of_mem_eraseIdx member)⟩

/-- The tokens of a rule that is put in go before those of the rule that is there, or behind all others. -/
theorem insertRule_moves {file file' : RuleFile} {index : Nat} {rule : Detached Rule} {u : Unit}
    (done : Succeeds (insertRule index rule) file u file') : index ≤ file.rules.length ∧ ∃ names left,
      file.tokens.moveAll (file.rules[index]?.map Rule.first) rule.tokens = (.ok (names, file'.tokens), left) ∧
      file'.rules = file.rules.insertIdx index (rule.node.rename names) ∧ file'.imports = file.imports := by
  have rest := done.get_bind.guard.2
  dsimp only at rest
  cases found : file.rules[index]? with
  | some next =>
    rw [found] at rest
    obtain ⟨_, _, chosen, rest⟩ := rest.bind
    cases chosen
    obtain ⟨names, tokens, moved, rest⟩ := onTokens_bind rest.modify_bind
    obtain ⟨left, moved⟩ := TokenEdit.succeeds_moveAll moved
    cases rest
    exact ⟨Nat.le_of_lt (List.getElem?_eq_some_iff.mp found).1, names, left, moved, rfl, rfl⟩
  | none =>
    rw [found] at rest
    dsimp only at rest
    split_ifs at rest with last
    · obtain ⟨_, _, chosen, rest⟩ := rest.bind
      cases chosen
      obtain ⟨names, tokens, moved, rest⟩ := onTokens_bind rest.modify_bind
      obtain ⟨left, moved⟩ := TokenEdit.succeeds_moveAll moved
      cases rest
      exact ⟨Nat.le_of_eq last, names, left, moved, rfl, rfl⟩
    · cases rest

theorem insertRule_preserves {rule : Detached Rule} (ready : rule.Ready Rule.row) (filed : rule.node.Filed)
    (index : Nat) : Preserves (insertRule index rule) := by
  intro file a file' ordered done
  obtain ⟨inside, names, left, moved, rules, imports⟩ := insertRule_moves done
  have nonempty := rule.node.row_ne_nil
  have shorter : (rule.node.rename names).row.Sublist (rule.node.row.map names.apply) :=
    rule.node.row_mapHandles names.apply
  have filed' : ∀ r ∈ file'.rules, r.Filed := by
    intro r member
    rcases List.eq_or_mem_of_mem_insertIdx (rules ▸ member) with rfl | old
    · exact filed.mapHandles names.apply
    · exact ordered.filed r old
  have rows : file'.rows.Perm ((rule.node.rename names).row :: file.rows) := by
    rw [RuleFile.rows, rules, imports]
    exact rows_of_rule file.imports (List.perm_insertIdx _ _ inside)
  cases found : file.rules[index]? with
  | some next =>
    rw [found] at moved
    obtain ⟨there, rfl⟩ := List.getElem?_eq_some_iff.mp found
    -- The new row goes right before the first token of the next rule.
    have before : Rewrites file.tokens file'.tokens file.rules[index].row
        [(rule.node.rename names).row, file.rules[index].row].flatten := by
      obtain ⟨others, row⟩ := List.head?_eq_some_iff.mp file.rules[index].head?_row
      have placed := (ordered.listed.tidy.moveBefore ready.lone nonempty ready.listed moved).right others
      rw [row]
      exact placed.shrink (by simpa using shorter)
    have split := rows_of_rule file.imports (List.getElem_cons_eraseIdx_perm there).symm
    exact ⟨ordered.listed.rewrite [_, _] split before (rows.trans (split.cons _)), filed'⟩
  | none =>
    rw [found] at moved
    obtain ⟨tidy, placed, chain⟩ := ordered.listed.tidy.moveToEnd ready.lone nonempty ready.listed moved
    exact ⟨ordered.listed.add tidy ⟨_, fun h member => chain h (shorter.subset member)⟩
      (fun code inside => .inr ((shorter.append_left code).trans (placed code inside))) rows, filed'⟩

theorem addRule_preserves {rule : Detached Rule} (ready : rule.Ready Rule.row) (filed : rule.node.Filed) :
    Preserves (addRule rule) :=
  fun file a file' ordered done => insertRule_preserves ready filed _ file a file' ordered done.get_bind

theorem renameRule_preserves (old new : String) : Preserves (renameRule old new) := by
  intro file a file' ordered done
  have rest := done.get_bind.guard.2.guard.2
  dsimp only at rest
  split at rest
  next => cases rest
  next index found =>
    cases rest
    have inside : index < file.rules.length := (List.findIdx?_eq_some_iff_getElem.mp found).1
    have renamed := ordered.listed.same fun row =>
      ordered.listed.tidy.setLiteral file.rules[index].name (.ofWritten new) row
    have whole := (List.take_append_drop index file.rules).symm
    rw [List.drop_eq_getElem_cons inside] at whole
    rw [List.getElem?_eq_getElem inside, List.modify_eq_take_cons_drop inside]
    refine ⟨?_, fun rule member => ?_⟩
    · have rows : file.rows = file.imports.map Import.row ++ (file.rules.take index ++
          { file.rules[index] with symbol := Rule.symbolNamed new } :: file.rules.drop (index + 1)).map Rule.row := by
        conv_lhs => rw [RuleFile.rows, whole]
        simp only [List.map_append, List.map_cons]
        rfl
      rw [rows] at renamed
      exact renamed
    · rcases List.mem_append.mp member with early | late
      · exact ordered.filed rule (List.mem_of_mem_take early)
      · rcases List.mem_cons.mp late with rfl | late
        · have filed := ordered.filed _ (List.getElem_mem inside)
          exact ⟨filed.neat, filed.header⟩
        · exact ordered.filed rule (List.mem_of_mem_drop late)

end FileEdit

/-! ### Edits of a rule -/

/-- The rule of the name is edited, and takes its place among the others again. -/
theorem RuleFile.editRule_done {file file' : RuleFile} {name : String} {α : Type} {edit : RuleEdit α}
    {result : Except EditError α}
    (done : file.editRule name edit = some (result, file')) : ∃ (index : Nat) (rule : Rule) (scope : RuleScope),
      file.rules[index]? = some rule ∧ rule.nameText file.tokens = name ∧
      edit ⟨file.tokens, rule, file.nextId⟩ = (result, scope) ∧
      file' = { file with tokens := scope.tokens, rules := file.rules.set index scope.rule, nextId := scope.nextId } := by
  unfold RuleFile.editRule at done
  cases found : file.ruleIndex? name with
  | none => simp [found] at done
  | some index =>
    obtain ⟨inside, named, _⟩ := List.findIdx?_eq_some_iff_getElem.mp found
    rcases run : edit ⟨file.tokens, file.rules[index], file.nextId⟩ with ⟨_, scope⟩
    obtain ⟨rfl, rfl⟩ := by simpa [found, List.getElem?_eq_getElem inside, ExceptT.run, run] using done
    exact ⟨index, _, scope, List.getElem?_eq_getElem inside, by simpa using named, run, rfl⟩

theorem RuleFile.Ordered.editRule {file file' : RuleFile} (ordered : file.Ordered) {name : String} {α : Type}
    {edit : RuleEdit α} {a : α}
    (keeps : ∀ {tokens rule id scope' chain}, tokens.Tidy → rule.Filed → rule.row.Sublist tokens.code →
      (∀ h ∈ rule.row, h.chain = chain) → Succeeds edit ⟨tokens, rule, id⟩ a scope' → RuleEdit.Keeps tokens rule scope')
    (done : file.editRule name edit = some (.ok a, file')) : file'.Ordered := by
  obtain ⟨index, _, scope, found, _, run, rfl⟩ := RuleFile.editRule_done done
  obtain ⟨inside, rfl⟩ := List.getElem?_eq_some_iff.mp found
  have split := rows_of_rule file.imports (List.getElem_cons_eraseIdx_perm inside).symm
  have member : file.rules[index].row ∈ file.rows := split.mem_iff.mpr (by simp)
  obtain ⟨chain, one⟩ := ordered.listed.chain _ member
  obtain ⟨row, filed⟩ := keeps ordered.listed.tidy (ordered.filed _ (List.getElem_mem inside))
    (ordered.listed.sublist member) one run
  have split' : (file.rules.set index scope.rule).Perm (scope.rule :: file.rules.eraseIdx index) := by
    rw [List.set_eq_take_append_cons_drop, if_pos inside, List.eraseIdx_eq_take_drop_succ]
    exact List.perm_middle
  refine ⟨ordered.listed.rewrite [scope.rule.row] split (by simpa using row) (rows_of_rule file.imports split'),
    fun rule member => ?_⟩
  rcases List.mem_or_eq_of_mem_set member with old | rfl
  · exact ordered.filed rule old
  · exact filed

end YaraRules
