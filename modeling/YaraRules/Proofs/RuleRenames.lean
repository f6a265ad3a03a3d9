import YaraRules.Proofs.Outcomes
import YaraRules.Proofs.ReadFileNames
import YaraRules.Proofs.RuleEdits

/-! Renaming rules. The name of a rule is one token, and names in conditions that see it are
aliases of it. So a new name shows wherever the old one was in sight, and nowhere else:
a name in an included file that stands for a rule outside the file keeps its text. -/

namespace YaraRules

open TokenStream (Plain writtenAs)

theorem Role.mem_uses {strings : List Handle} {e : Expr} {h : Handle} :
    .nameUse h ∈ e.uses strings ↔ ∃ node ∈ e.nodes, ∃ type, node.2 = .atom type .name h := by
  have one (e : Expr) : e.use? strings = some (.nameUse h) ↔ ∃ type, e = .atom type .name h := by
    unfold Expr.use?
    split
    next type token => simp
    next other =>
      cases e.stringToken? with
      | none => simpa using fun type same => other type h same
      | some token => simpa using fun type same => other type h same
  simp only [Expr.uses, List.mem_filterMap, one]

namespace RuleFile

variable {file file' : RuleFile} {old new : String}

/-- A condition of the file has a name there that stands for the rule of the given name, and not for a symbol. -/
def Refers (file : RuleFile) (h : Handle) (name : String) : Prop :=
  ∃ rule ∈ file.rules, ∃ node ∈ rule.condition.nodes, ∃ type, node.2 = .atom type .name h ∧
    ∃ a, file.tokens.get? h = some a ∧ a.literal.asSymbol? = none ∧ file.tokens.text h = name

private theorem mem_roles_nameUse {h : Handle} : .nameUse h ∈ file.roles ↔
    ∃ rule ∈ file.rules, ∃ node ∈ rule.condition.nodes, ∃ type, node.2 = .atom type .name h := by
  simp [roles, Rule.roles, Role.mem_uses]

namespace Linked

variable (linked : file.Linked)
include linked

private theorem name_plain {name : String × Handle} (member : name ∈ file.names) :
    ∃ b, file.tokens.get? name.2 = some b ∧ b.kind = .ruleName ∧ Plain b ∧ b.literal.text = name.1 := by
  obtain ⟨rule, listed, rfl⟩ := List.mem_map.mp member
  exact linked.placed (.ruleName rule.name (rule.nameText file.tokens))
    (List.mem_flatMap.mpr ⟨rule, listed, by simp [Rule.roles]⟩)

/-- A name that stands for a rule is an alias of the rule's own if it sees that one, and has a text of its own
if not. -/
theorem refers {h : Handle} (refers : file.Refers h old) {target : Handle} (listed : (old, target) ∈ file.names) :
    ∃ a, file.tokens.get? h = some a ∧ a.kind = .symbolName ∧
      (a.literal.aliasTarget? = some target ∧ file.tokens.Sees h target ∨
        Plain a ∧ ¬ file.tokens.Sees h target) := by
  obtain ⟨rule, member, node, inside, type, same, a, stored, unbound, text⟩ := refers
  obtain ⟨b, found, kind, resolved⟩ := linked.placed _ (mem_roles_nameUse.mpr ⟨rule, member, node, inside, type, same⟩)
  obtain rfl : a = b := Option.some.inj (stored.symm.trans found)
  obtain ⟨name, known, resolved⟩ := resolved.resolve_left (by simp [unbound])
  obtain ⟨c, held, _, plain, word⟩ := linked.name_plain known
  have written : file.tokens.text h = name.1 := by
    rw [TokenStream.text_eq _ stored]
    rcases resolved with ⟨points, _⟩ | ⟨own, reads, _⟩
    · rw [TokenStream.textOf_alias _ points held plain, kind]
      exact word
    · rw [TokenStream.textOf_plain _ own, kind]
      exact reads
  obtain rfl : target = name.2 := by
    have same : (old, target) = name := List.inj_on_of_nodup_map linked.unique listed known (text.symm.trans written)
    exact congrArg (·.2) same
  exact ⟨a, stored, kind, resolved.imp_right fun ⟨own, _, hidden⟩ => ⟨own, hidden⟩⟩

/-- An alias of the name of a rule is a name in a condition that stands for the rule and sees it. -/
theorem refers_of_alias {name : String × Handle} (listed : name ∈ file.names) {h : Handle} {a : Token}
    (stored : file.tokens.get? h = some a) (points : a.literal.aliasTarget? = some name.2) :
    file.Refers h name.1 ∧ file.tokens.Sees h name.2 := by
  obtain ⟨b, held, kind, plain, word⟩ := linked.name_plain listed
  rcases linked.aliases h a name.2 stored points with ⟨use, _⟩ | ⟨_, named⟩
  · obtain ⟨c, found, kind', resolved⟩ := linked.placed _ use
    obtain rfl : a = c := Option.some.inj (stored.symm.trans found)
    have unbound : a.literal.asSymbol? = none := by
      unfold Literal.aliasTarget? at points
      unfold Literal.asSymbol?
      split at points
      next value => rw [value]
      next => cases points
    obtain ⟨other, _, ⟨points', sees⟩ | ⟨own, _⟩⟩ := resolved.resolve_left (by simp [unbound])
    · obtain ⟨rule, member, node, inside, type, same⟩ := mem_roles_nameUse.mp use
      have written : file.tokens.text h = name.1 := by
        rw [TokenStream.text_eq _ stored, TokenStream.textOf_alias _ points held plain, kind']
        exact word
      refine ⟨⟨rule, member, node, inside, type, same, a, stored, unbound, written⟩, ?_⟩
      exact Option.some.inj (points'.symm.trans points) ▸ sees
    · cases (show a.literal.aliasTarget? = none from own).symm.trans points
  · obtain ⟨c, found, string, _⟩ := linked.placed _ named
    obtain rfl : b = c := Option.some.inj (held.symm.trans found)
    cases string.symm.trans kind

/-- What an alias leads to is written by its own literal. -/
theorem target_plain {h target : Handle} {a : Token} (stored : file.tokens.get? h = some a)
    (points : a.literal.aliasTarget? = some target) : ∃ b, file.tokens.get? target = some b ∧ Plain b := by
  rcases linked.aliases h a target stored points with ⟨_, text, named⟩ | ⟨_, named⟩
  · obtain ⟨b, held, _, plain, _⟩ := linked.placed _ named
    exact ⟨b, held, plain⟩
  · obtain ⟨b, held, _, plain⟩ := linked.placed _ named
    exact ⟨b, held, plain⟩

/-- A token keeps its text unless it is written by the literal that changes. -/
theorem text_setLiteral {name h : Handle} (literal : Literal) (apart : h ≠ name)
    (other : ∀ a, file.tokens.get? h = some a → a.literal.aliasTarget? ≠ some name) :
    (file.tokens.setLiteral name literal).text h = file.tokens.text h := by
  have kept (k : Handle) (away : k ≠ name) : (file.tokens.setLiteral name literal).get? k = file.tokens.get? k := by
    rw [TokenStream.setLiteral, TokenStream.get?_modify, if_neg away]
  cases stored : file.tokens.get? h with
  | none => rw [TokenStream.text, TokenStream.text, kept h apart, stored]
  | some a =>
    rw [TokenStream.text_eq _ stored, TokenStream.text_eq _ ((kept h apart).trans stored)]
    cases points : a.literal.aliasTarget? with
    | none => rw [TokenStream.textOf_plain _ points, TokenStream.textOf_plain _ points]
    | some target =>
      have away : target ≠ name := fun same => other a stored (same ▸ points)
      obtain ⟨b, held, plain⟩ := linked.target_plain stored points
      rw [TokenStream.textOf_alias _ points held plain,
        TokenStream.textOf_alias _ points ((kept target away).trans held) plain]

end Linked

/-- A rule that is renamed has its new name in every name of a condition that stands for it and sees it.
All other texts stay, also those of names that stand for the rule from an included file. -/
theorem Read.renameRule_reaches (read : file.Read) (done : file.edit (FileEdit.renameRule old new) = (.ok (), file')) :
    ∃ rule ∈ file.rules, rule.nameText file.tokens = old ∧
    file'.rules.map (·.condition) = file.rules.map (·.condition) ∧
      (∀ h, h = rule.name ∨ file.Refers h old ∧ file.tokens.Sees h rule.name → file'.tokens.text h = new) ∧
      ∀ h, h ≠ rule.name → ¬(file.Refers h old ∧ file.tokens.Sees h rule.name) →
        file'.tokens.text h = file.tokens.text h := by
  have linked := read.linked
  have done : Succeeds (FileEdit.renameRule old new) file ⟨⟩ file' := done
  have rest := done.get_bind.guard.2.guard.2
  dsimp only at rest
  split at rest
  next => cases rest
  next index found =>
    cases rest
    obtain ⟨inside, named, _⟩ := List.findIdx?_eq_some_iff_getElem.mp found
    set rule := file.rules[index]
    have same : rule.nameText file.tokens = old := by simpa using named
    have member : rule ∈ file.rules := List.getElem_mem inside
    have listed : (old, rule.name) ∈ file.names := List.mem_map.mpr ⟨rule, member, by rw [same]⟩
    obtain ⟨b, held, kind, plain, _⟩ := linked.name_plain listed
    have now : (file.tokens.setLiteral rule.name (.ofWritten new)).get? rule.name =
        some { b with literal := .ofWritten new } := by
      rw [TokenStream.setLiteral, TokenStream.get?_modify, if_pos rfl, held]
      rfl
    have written : Plain { b with literal := .ofWritten new } := rfl
    rw [List.getElem?_eq_getElem inside]
    refine ⟨rule, member, same, ?_, fun h reached => ?_, fun h apart hidden => ?_⟩
    · refine List.ext_getElem? fun i => ?_
      rw [List.getElem?_map, List.getElem?_map, List.getElem?_modify]
      cases file.rules[i]? with
      | none => rfl
      | some other => by_cases here : index = i <;> simp [here]
    · rcases reached with rfl | ⟨refers, sees⟩
      · rw [Option.elim_some, TokenStream.text_eq _ now, TokenStream.textOf_plain _ written, kind]
        rfl
      · obtain ⟨a, stored, kind', ⟨points, _⟩ | ⟨_, unseen⟩⟩ := linked.refers refers listed
        · have apart : h ≠ rule.name := by
            rintro rfl
            obtain rfl := Option.some.inj (stored.symm.trans held)
            cases points.symm.trans (show a.literal.aliasTarget? = none from plain)
          have kept : (file.tokens.setLiteral rule.name (.ofWritten new)).get? h = some a := by
            rw [TokenStream.setLiteral, TokenStream.get?_modify, if_neg apart, stored]
          rw [Option.elim_some, TokenStream.text_eq _ kept, TokenStream.textOf_alias _ points now written, kind']
          rfl
        · exact absurd sees unseen
    · refine linked.text_setLiteral _ apart fun a stored points => hidden ?_
      exact linked.refers_of_alias listed stored points

/-- A file with a rule and an include, and the included file, whose condition names the rule. -/
def renamedContent : Bytes := Bytes.ofText "rule a { condition: true } include \"b.yar\" rule c { condition: a }"
def renamedTree : FileTree := .ofPaths [("b.yar", Bytes.ofText "rule b { condition: a }")]

private theorem renamed_texts : yields (RuleFile.ofSource {} renamedTree 0 renamedContent) (fun file =>
    leaves (file.edit (FileEdit.renameRule "a" "z")) fun file' =>
    file'.rules.map (fun rule => (rule.nameText file'.tokens, rule.condition.text file'.tokens)) ==
      [("z", "true"), ("b", "a"), ("c", "z")]) = true := by
  decide +kernel

theorem renameRule_misses_included :
    ∃ file file' : RuleFile, RuleFile.ofSource {} renamedTree 0 renamedContent = .ok file ∧
    file.edit (FileEdit.renameRule "a" "z") = (.ok (), file') ∧
    file'.rules.map (fun rule => (rule.nameText file'.tokens, rule.condition.text file'.tokens)) =
    [("z", "true"), ("b", "a"), ("c", "z")] ∧
    ∃ rule ∈ file.rules, rule.nameText file.tokens = "a" ∧
    file'.rules.map (·.condition) = file.rules.map (·.condition) ∧
      (∀ h, h = rule.name ∨ file.Refers h "a" ∧ file.tokens.Sees h rule.name → file'.tokens.text h = "z") ∧
      ∀ h, h ≠ rule.name → ¬(file.Refers h "a" ∧ file.tokens.Sees h rule.name) →
      file'.tokens.text h = file.tokens.text h := by
  obtain ⟨file, done, run⟩ := yields_iff.mp renamed_texts
  obtain ⟨_, file', renamed, texts⟩ := leaves_iff.mp run
  exact ⟨file, file', done, renamed, eq_of_beq texts, Read.renameRule_reaches (.ofSource done) renamed⟩
end RuleFile

end YaraRules
