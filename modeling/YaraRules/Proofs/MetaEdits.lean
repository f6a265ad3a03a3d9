import Mathlib.Data.List.Find
import Mathlib.Data.List.Pairwise
import YaraRules.Proofs.AttainedForms
import YaraRules.Proofs.EntryLines
import YaraRules.Proofs.MetaEntries
import YaraRules.Proofs.Outcomes

/-! Entries that an edit writes into a meta section. The entry has the key and the value that
it was given, and both are read back from its line. -/

namespace YaraRules

open TokenStream (Spares)

/-! ### Entries that were written -/

/-- The tokens of the entry are for this key and this value. -/
structure MetaEntry.Holds (entry : MetaEntry) (tokens : TokenStream) (key : String) (value : Literal) : Prop where
  key : entry.keyText tokens = key
  value : ∃ a, tokens.get? entry.value = some a ∧ a.kind = RuleEdit.metaValueKind value ∧ a.literal = value

namespace MetaEntry.Holds

variable {entry : MetaEntry} {tokens : TokenStream} {key : String} {value : Literal}

theorem literal (holds : entry.Holds tokens key value) : entry.literal? tokens = some value := by
  obtain ⟨a, stored, _, same⟩ := holds.value
  rw [MetaEntry.literal?, stored, ← same]
  rfl

theorem valueText (holds : entry.Holds tokens key value) (plain : value.aliasTarget? = none) :
    tokens.text entry.value = TokenStream.writtenAs (RuleEdit.metaValueKind value) value.text := by
  obtain ⟨a, stored, kind, rfl⟩ := holds.value
  rw [TokenStream.text_eq _ stored, TokenStream.textOf_plain _ plain, kind]

theorem text (holds : entry.Holds tokens key value) (plain : value.aliasTarget? = none) :
    entry.text tokens = key ++ " = " ++ TokenStream.writtenAs (RuleEdit.metaValueKind value) value.text := by
  rw [MetaEntry.text, holds.key, holds.valueText plain]

end MetaEntry.Holds

theorem Literal.Storable.plain {value : Literal} (storable : value.Storable) : value.aliasTarget? = none := by
  cases storable <;> rfl

theorem Literal.Storable.firm {value : Literal} (storable : value.Storable) :
    Text.Firm (TokenStream.writtenAs (RuleEdit.metaValueKind value) value.text) := by
  cases storable with
  | text s => exact Lexer.firm_quoted _
  | bool b => cases b <;> exact ⟨_, rfl, rfl⟩
  | int => exact Grammar.int_firm _
  | uint u => exact Grammar.nat_firm _

private theorem valueKind_known (value : Literal) : RuleEdit.metaValueKind value ∈ Layout.Page.entryKinds := by
  unfold RuleEdit.metaValueKind
  split <;> simp [Layout.Page.entryKinds]

namespace RuleEdit

variable {tokens : TokenStream} {rule : Rule} {id : ChainId} {scope' : RuleScope} {key : String}
    {value : Literal} {u : Unit}

private theorem addMeta_entry (tidy : tokens.Tidy) (filed : rule.Filed)
    (done : Succeeds (addMeta key value) ⟨tokens, rule, id⟩ u scope') : ∃ entry,
    scope'.rule.metas = rule.metas ++ [entry] ∧ entry.Holds scope'.tokens key value := by
  obtain ⟨anchor, middle, anchored, rest⟩ := done.guard.2.bind
  obtain ⟨tokens₁, header, _, rfl, _, first⟩ := metaAnchor_keeps tidy filed anchored
  obtain ⟨keyToken, tokens₂, inserted₂, rest⟩ := onTokens_bind rest
  obtain ⟨assign, tokens₃, inserted₃, rest⟩ := onTokens_bind rest
  obtain ⟨valueToken, tokens₄, inserted₄, rest⟩ := onTokens_bind rest
  have second := TokenEdit.insertAfter_rewrites first.tidy inserted₂ nofun
  have third := TokenEdit.insertAfter_rewrites second.tidy inserted₃ nofun
  obtain ⟨named, _⟩ := first.tidy.get?_insertAfter (TokenEdit.succeeds_apply inserted₂)
  obtain ⟨_, grows₃⟩ := second.tidy.get?_insertAfter (TokenEdit.succeeds_apply inserted₃)
  obtain ⟨held, grows₄⟩ := third.tidy.get?_insertAfter (TokenEdit.succeeds_apply inserted₄)
  obtain rfl := succeeds_modifyRule rest
  have tells : tokens₄.Tells keyToken { kind := .metaKey, literal := .ofWritten key } :=
    (grows₃.trans grows₄).tells ⟨named, rfl⟩
  exact ⟨⟨keyToken, assign, valueToken⟩, rfl, tells.text, _, held, rfl, rfl⟩

private theorem key_value_apart (once : rule.row.Nodup) {entry other : MetaEntry} (member : entry ∈ rule.metas)
    (member' : other ∈ rule.metas) : other.key ≠ entry.value := by
  have part : (rule.metas.flatMap MetaEntry.handles).Sublist rule.row := by
    rw [row_around_meta]
    exact ((List.sublist_append_right _ _).trans (List.sublist_append_left _ _)).trans (List.sublist_append_right _ _)
  obtain ⟨each, between⟩ := List.nodup_flatMap.mp (once.sublist part)
  intro same
  by_cases one : other = entry
  · subst one
    simpa [MetaEntry.handles, same] using each other member
  · have symmetric : Std.Symm (Function.onFun List.Disjoint MetaEntry.handles) := ⟨fun _ _ => List.disjoint_symm⟩
    have apart := between.forall member' member one
    exact apart (show other.key ∈ other.handles by simp [MetaEntry.handles])
      (show other.key ∈ entry.handles by simp [MetaEntry.handles, same])

/-- The first entry of the key gets the value. Keys that are no aliases stay as they are. -/
theorem setMetaValue_entry (once : rule.row.Nodup) (keys : ∀ entry ∈ rule.metas, ∃ a, tokens.Tells entry.key a)
    (done : Succeeds (setMetaValue key value) ⟨tokens, rule, id⟩ u scope') :
    ∃ entry, scope'.rule.metaEntry? scope'.tokens key = some entry ∧ entry.Holds scope'.tokens key value := by
  have rest := done.get_bind
  dsimp only at rest
  split at rest
  next => cases rest
  next entry found =>
    obtain ⟨there, rest⟩ := rest.guard
    cases rest
    obtain ⟨a, stored⟩ := Option.isSome_iff_exists.mp (Option.isNone_eq_false_iff.mp (Bool.eq_false_iff.mpr there))
    have member := List.mem_of_find?_eq_some found
    have same : ∀ other ∈ rule.metas,
        other.keyText ((tokens.setKind entry.value (metaValueKind value)).setLiteral entry.value value) =
          other.keyText tokens := by
      intro other member'
      obtain ⟨a, tells⟩ := keys other member'
      have absent : entry.value ∉ [other.key] := by simpa using (key_value_apart once member member').symm
      have spares : Spares tokens ((tokens.setKind entry.value (metaValueKind value)).setLiteral entry.value value)
          [other.key] :=
        (spares_modify absent).trans (spares_modify absent)
      exact (spares _ (by simp) a tells).text.trans tells.text.symm
    have again : rule.metaEntry? ((tokens.setKind entry.value (metaValueKind value)).setLiteral entry.value value) key =
        some entry := by
      rw [← found]
      exact List.find?_congr fun other member' => by rw [same other member']
    refine ⟨entry, again,
      by simpa using List.find?_some again, { a with kind := metaValueKind value, literal := value }, ?_, rfl, rfl⟩
    rw [TokenStream.setLiteral, TokenStream.get?_modify, if_pos rfl, TokenStream.setKind, TokenStream.get?_modify,
      if_pos rfl, stored]
    rfl

/-- The edits that write an entry, and where it is found afterwards. -/
inductive WritesEntry (key : String) (value : Literal) : RuleEdit Unit → (Rule → TokenStream → Option MetaEntry) → Prop
  | added : WritesEntry key value (addMeta key value) fun rule _ => rule.metas.getLast?
  | set : WritesEntry key value (setMetaValue key value) fun rule tokens => rule.metaEntry? tokens key

end RuleEdit

namespace RuleFile

open Layout (ShowsLine)
open RuleEdit (WritesEntry)

variable {file file' : RuleFile} {name key : String} {value : Literal} {edit : RuleEdit Unit}
    {found? : Rule → TokenStream → Option MetaEntry}

/-- The key and the value that are written into a rule of a file that was read are read back from the line of
the entry. If the entry stands alone there, this line is one of the formatted text. -/
theorem Read.metas_read_back (read : file.Read) (identifier : Lexer.isIdentifier key = true) (storable : value.Storable)
    (writes : WritesEntry key value edit found?) (done : file.editRule name edit = some (.ok (), file')) :
    ∃ rule ∈ file'.rules, rule.nameText file'.tokens = name ∧ ∃ entry, found? rule file'.tokens = some entry ∧
      entry.keyText file'.tokens = key ∧ entry.literal? file'.tokens = some value ∧
      Grammar.ReadsBack (entry.text file'.tokens) key value ∧
      (entry.isAlone file'.tokens = true → ∀ style expand,
        ShowsLine style file'.tokens.newlineText (file'.formatted style expand) (entry.text file'.tokens)) := by
  obtain ⟨index, rule, scope, found, named, run, rfl⟩ := editRule_done done
  obtain ⟨inside, rfl⟩ := List.getElem?_eq_some_iff.mp found
  have member := List.getElem_mem inside
  have ordered := read.reachable.ordered
  obtain ⟨entry, there, holds⟩ : ∃ entry, found? scope.rule scope.tokens = some entry ∧
    entry.Holds scope.tokens key value := by
    cases writes with
    | added =>
      obtain ⟨entry, metas, holds⟩ := RuleEdit.addMeta_entry ordered.listed.tidy (ordered.filed _ member) run
      exact ⟨entry, by simp [metas], holds⟩
    | set =>
      refine RuleEdit.setMetaValue_entry ((ordered.row_listed member).nodup ordered.code_nodup)
        (fun entry listed => ?_) run
      have inRow : entry.key ∈ file.rules[index].metaRow :=
        List.mem_append_right _ (List.mem_flatMap.mpr ⟨entry, listed, by simp [MetaEntry.handles]⟩)
      have head : entry.key ∈ file.rules[index].headRow := by simp [Rule.headRow, inRow]
      obtain ⟨a, stored⟩ := Option.isSome_iff_exists.mp
        (ordered.row_alive member (Rule.row_eq _ ▸ List.mem_append_left _ head))
      exact ⟨a, stored, read.head_plain member head stored⟩
  have upholds : RuleEdit.Upholds edit := by
    cases writes with
    | added => exact RuleEdit.addMeta_upholds key value
    | set => exact RuleEdit.setMetaValue_upholds key value
  obtain ⟨leaves, same⟩ := read.proper.rule_leaves upholds member run
  refine ⟨scope.rule, List.mem_set inside _, same.trans named, entry, there, holds.key, holds.literal, ?_, ?_⟩
  · rw [holds.text storable.plain]
    exact Grammar.entry_readsBack identifier storable
  · intro alone style expand
    obtain ⟨token, stored, kind, _⟩ := holds.value
    have some : entry.keyText scope.tokens ≠ "" := by
      rw [holds.key]
      rintro rfl
      exact absurd identifier (by decide)
    have firm : Text.Firm (scope.tokens.text entry.value) := holds.valueText storable.plain ▸ storable.firm
    exact leaves.rewrites.tidy.sound.formatted_entry alone stored (kind ▸ valueKind_known value) some firm style expand

/-- A file whose rule has an entry for a number. -/
def numberedContent : Bytes := Bytes.ofText "rule a \x7b meta: n = 1 condition: true \x7d"

private theorem numbered_run : yields (RuleFile.ofSource {} {} 0 numberedContent) (fun file =>
    leavesRule (file.editRule "a" (RuleEdit.setMetaValue "n" (.ofInt (-5)))) fun file' =>
    file'.rules.all fun rule => (rule.metaEntry? file'.tokens "n").any fun entry =>
      entry.text file'.tokens == "n = -5" && entry.isAlone file'.tokens) = true := by
  decide +kernel

theorem metas_read_back_negative : ∃ file file' : RuleFile, RuleFile.ofSource {} {} 0 numberedContent = .ok file ∧
    Lexer.isIdentifier "n" = true ∧ (Literal.ofInt (-5)).Storable ∧
    file.editRule "a" (RuleEdit.setMetaValue "n" (.ofInt (-5))) = some (.ok (), file') ∧
    ∃ rule ∈ file'.rules, rule.nameText file'.tokens = "a" ∧ ∃ entry, rule.metaEntry? file'.tokens "n" = some entry ∧
      entry.text file'.tokens = "n = -5" ∧ Grammar.ReadsBack "n = -5" "n" (.ofInt (-5)) ∧
      ∀ style expand, ShowsLine style file'.tokens.newlineText (file'.formatted style expand) "n = -5" := by
  obtain ⟨file, done, run⟩ := yields_iff.mp numbered_run
  obtain ⟨_, file', set, lines⟩ := leavesRule_iff.mp run
  have identifier : Lexer.isIdentifier "n" = true := by decide +kernel
  have storable : (Literal.ofInt (-5)).Storable := .int (by decide)
  obtain ⟨rule, member, named, entry, there, _, _, back, shown⟩ :=
    Read.metas_read_back (.ofSource done) identifier storable .set set
  obtain ⟨line, alone⟩ : entry.text file'.tokens = "n = -5" ∧ entry.isAlone file'.tokens = true := by
    simpa [there] using List.all_eq_true.mp lines rule member
  exact ⟨file, file', done, identifier, storable, set, rule, member, named, entry, there, line, line ▸ back,
    line ▸ shown alone⟩

end RuleFile

end YaraRules
