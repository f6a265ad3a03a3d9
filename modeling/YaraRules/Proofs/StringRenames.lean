import YaraRules.Proofs.Outcomes
import YaraRules.Proofs.OwnRules
import YaraRules.Proofs.ReadRuleForms

/-! Renaming strings. The name of a string is one token of its rule, and strings in the condition
are aliases of it that are written with other sigils. So a new name shows in the definition and
in the condition of the rule, and no other token changes: neither those of strings of other
rules nor what stands for many strings at once. -/

namespace YaraRules

open TokenStream (Plain withSigil writtenAs)

/-! ### Sigils -/

/-- The sigils that a string is named with. -/
def sigils : List Char := ['$', '#', '@', '!']

/-- The sigil of what refers to a string. -/
def sigilOf : TokenKind → Char
  | .stringCount => '#'
  | .stringOffset => '@'
  | .stringLength => '!'
  | _ => '$'

private theorem sigilOf_mem (kind : TokenKind) : sigilOf kind ∈ sigils := by
  unfold sigilOf
  split <;> simp [sigils]

theorem Sigiled.split {text : String} (begins : Sigiled text) : text.toList = '$' :: text.toList.drop 1 := by
  unfold Sigiled at begins
  cases same : text.toList with
  | nil => simp [same] at begins
  | cons c rest =>
    obtain rfl : c = '$' := by simpa [same] using begins
    rfl

private theorem writtenAs_sigil {kind : TokenKind} (refers : Grammar.Refers kind) {text : String}
    (begins : Sigiled text) : writtenAs kind text = withSigil (sigilOf kind) text := by
  simp only [Grammar.Refers, List.mem_cons, List.not_mem_nil, or_false] at refers
  rcases refers with rfl | rfl | rfl | rfl
  · exact String.toList_inj.mp (by simpa [writtenAs, withSigil, sigilOf] using begins.split)
  · rfl
  · rfl
  · rfl

private theorem withSigil_inj {first second : Char} {text other : String} (begins : Sigiled text)
    (begins' : Sigiled other) (same : withSigil first text = withSigil second other) : text = other := by
  have tails : text.toList.drop 1 = other.toList.drop 1 := by
    have lists := String.toList_inj.mpr same
    simp only [withSigil, String.toList_ofList, List.cons.injEq] at lists
    exact lists.2
  exact String.toList_inj.mp (by rw [begins.split, begins'.split, tails])

/-! ### Strings in conditions -/

/-- A token of the condition that names the string, with one of the sigils before its name. -/
def Rule.Mentions (rule : Rule) (tokens : TokenStream) (name : String) (h : Handle) : Prop :=
  (∃ node ∈ rule.condition.nodes, node.2.stringToken? = some h) ∧ ∃ sigil ∈ sigils, tokens.text h = withSigil sigil name

private theorem Role.mem_uses_string {strings : List Handle} {e : Expr} {h : Handle} :
    .stringUse h strings ∈ e.uses strings ↔ ∃ node ∈ e.nodes, node.2.stringToken? = some h := by
  have one (e : Expr) : e.use? strings = some (.stringUse h strings) ↔ e.stringToken? = some h := by
    unfold Expr.use?
    split
    next type token => simp [Expr.stringToken?]
    next => simp
  simp only [Expr.uses, List.mem_filterMap, one]

namespace RuleFile

variable {file file' : RuleFile} {rule : Rule} {name old new : String} {string : StringDefinition}

private theorem Linked.string_plain (linked : file.Linked) (member : rule ∈ file.rules)
    (listed : string ∈ rule.strings.values) : ∃ b, file.tokens.get? string.id = some b ∧
    b.kind = .stringDefinition ∧ Plain b := by
  refine linked.placed (.stringName string.id)
    (List.mem_flatMap.mpr ⟨rule, member, List.mem_cons_of_mem _ (List.mem_append_left _ ?_)⟩)
  exact List.mem_map_of_mem (List.mem_map_of_mem listed)

/-- What refers to a string is written like the name of the string, with its own sigil. -/
theorem Read.refers_text (read : file.Read) (member : rule ∈ file.rules) (listed : (name, string) ∈ rule.strings.toList)
    {h : Handle} {a : Token} (stored : file.tokens.get? h = some a) (refers : Grammar.Refers a.kind)
    (points : a.literal.aliasTarget? = some string.id) : file.tokens.text h = withSigil (sigilOf a.kind) name := by
  have valued : string ∈ rule.strings.values := List.mem_map_of_mem listed
  obtain ⟨b, held, kind, plain⟩ := read.linked.string_plain member valued
  have named : b.literal.text = name := by
    have text : file.tokens.text string.id = name := (read.formed.rules rule member).keyed _ listed
    rw [← text, TokenStream.text_eq _ held, TokenStream.textOf_plain _ plain, kind]
    rfl
  rw [TokenStream.text_eq _ stored, TokenStream.textOf_alias _ points held plain, named,
    writtenAs_sigil refers (read.sigiled rule member _ listed)]

section

variable (read : file.Read) (member : rule ∈ file.rules) (listed : (old, string) ∈ rule.strings.toList)
include read member listed

private theorem Read.alias_of_mention (kept : old ≠ "$") {h : Handle} (mentions : rule.Mentions file.tokens old h) :
    ∃ a, file.tokens.get? h = some a ∧ Grammar.Refers a.kind ∧ a.literal.aliasTarget? = some string.id := by
  obtain ⟨used, sigil, _, text⟩ := mentions
  have begins := read.sigiled rule member _ listed
  have role : .stringUse h rule.ids ∈ file.roles :=
    List.mem_flatMap.mpr ⟨rule, member, List.mem_cons_of_mem _
      (List.mem_append_right _ (Role.mem_uses_string.mpr used))⟩
  obtain ⟨a, stored, refers, ⟨target, known, points⟩ | ⟨plain, bare⟩⟩ := read.linked.placed _ role
  · obtain ⟨other, among, rfl⟩ := List.mem_map.mp known
    obtain ⟨⟨otherName, _⟩, listed', rfl⟩ := List.mem_map.mp among
    have named := read.refers_text member listed' stored refers points
    obtain rfl := withSigil_inj (read.sigiled rule member _ listed') begins (named.symm.trans text)
    have formed := read.formed.rules rule member
    exact ⟨a, stored, refers, formed.distinct.same listed' listed kept ▸ points⟩
  · -- A bare sigil is too short to name the string.
    have written : file.tokens.text h = writtenAs a.kind a.literal.text :=
      (TokenStream.text_eq _ stored).trans (TokenStream.textOf_plain _ plain)
    rw [← written, text] at bare
    exact absurd (String.toList_inj.mp (begins.split.trans (by simpa [withSigil] using bare))) kept

private theorem Read.mention_of_alias {h : Handle} {a : Token} (stored : file.tokens.get? h = some a)
    (points : a.literal.aliasTarget? = some string.id) : rule.Mentions file.tokens old h := by
  have named : string.id ∈ rule.ids := List.mem_map_of_mem (List.mem_map_of_mem listed)
  rcases read.linked.aliases h a string.id stored points with ⟨_, text, ruleName⟩ | ⟨⟨strings, use⟩, _⟩
  · obtain ⟨b, held, kind, _⟩ := read.linked.string_plain member (List.mem_map_of_mem listed)
    obtain ⟨c, held', kind', _⟩ := read.linked.placed _ ruleName
    obtain rfl : b = c := Option.some.inj (held.symm.trans held')
    cases kind.symm.trans kind'
  · obtain ⟨b, held, refers, suits⟩ := read.linked.placed _ use
    obtain rfl : a = b := Option.some.inj (stored.symm.trans held)
    obtain ⟨r, other, role⟩ := List.mem_flatMap.mp use
    have inside : .stringUse h strings ∈ r.condition.uses r.ids := by simpa using Rule.mem_roles role
    obtain ⟨_, ⟨_, same⟩ | ⟨_, same⟩⟩ := Expr.mem_uses inside
    · cases same
    · cases same
      obtain ⟨target, known, points'⟩ := suits.resolve_right fun bare => by cases points.symm.trans bare.1
      obtain rfl := Option.some.inj (points'.symm.trans points)
      have row (r : Rule) {k : Handle} (held : k ∈ r.ids) : k ∈ r.row :=
        r.row_eq ▸ List.mem_append_left _ (r.ids_head held)
      obtain rfl := read.reachable.ordered.same_rule member other (row rule named) (row r known)
      exact ⟨Role.mem_uses_string.mp inside, _, sigilOf_mem _, read.refers_text member listed stored refers points⟩

end

/-- A string that is renamed has its new name in its definition and, with the same sigils, wherever the
condition of its rule names it. All other texts stay, also those of strings of other rules with that name and
of wildcards. The string takes the new name in its place among the others. -/
theorem Read.renameString_reaches (read : file.Read)
    (done : file.editRule name (RuleEdit.renameString old new) = some (.ok (), file')) :
    ∃ (index : Nat) (rule : Rule) (string : StringDefinition) (strings : NameTrie StringDefinition),
      file.rules[index]? = some rule ∧ rule.nameText file.tokens = name ∧ rule.strings.get? old = some string ∧
      file'.rules = file.rules.set index { rule with strings } ∧
      strings.get? new = some string ∧ strings.get? old = none ∧
      strings.toList = rule.strings.toList.map (NameTrie.relabel old new) ∧
      file.tokens.text string.id = old ∧ file'.tokens.text string.id = new ∧
      (∀ h, rule.Mentions file.tokens old h →
        ∃ sigil ∈ sigils, file.tokens.text h = withSigil sigil old ∧ file'.tokens.text h = withSigil sigil new) ∧
      ∀ h, h ≠ string.id → ¬ rule.Mentions file.tokens old h → file'.tokens.text h = file.tokens.text h := by
  obtain ⟨index, rule, scope, found, named, run, rfl⟩ := editRule_done done
  have member := List.mem_of_getElem? found
  have formed := read.formed.rules rule member
  have run : Succeeds (RuleEdit.renameString old new) ⟨file.tokens, rule, file.nextId⟩ ⟨⟩ scope := run
  obtain ⟨valid, rest⟩ := run.get_bind.guard
  obtain ⟨free, rest⟩ := rest.guard
  dsimp only at rest
  split at rest
  next => cases rest
  next string got =>
    obtain rfl := RuleEdit.succeeds_modifyRule rest.modify_bind
    have listed := formed.indexed.get?_mem got
    obtain ⟨b, held, kind, plain⟩ := read.linked.string_plain member (List.mem_map_of_mem listed)
    obtain ⟨begins, kept⟩ : Sigiled new ∧ old ≠ "$" := by
      simp only [Bool.or_eq_true, Bool.not_eq_true', beq_iff_eq, not_or, Bool.not_eq_false] at valid
      obtain ⟨rest, whole⟩ := String.startsWith_string_iff.mp valid.1.1
      exact ⟨by simp [Sigiled, ← whole], valid.2⟩
    obtain ⟨strings, renamed⟩ := NameTrie.rename?_of_free (by simpa using free) got
    obtain ⟨_, list, taken, left⟩ := formed.indexed.rename? renamed
    have now : (file.tokens.setLiteral string.id (.ofWritten new)).get? string.id =
        some { b with literal := .ofWritten new } := by
      rw [TokenStream.setLiteral, TokenStream.get?_modify, if_pos rfl, held]
      rfl
    have written : Plain { b with literal := .ofWritten new } := rfl
    refine ⟨index, rule, string, strings, found, named, got, by rw [renamed]; rfl, taken.trans got, left, list,
      formed.keyed _ listed, ?_, fun h mentions => ?_, fun h apart silent => ?_⟩
    · rw [TokenStream.text_eq _ now, TokenStream.textOf_plain _ written, kind]
      rfl
    · obtain ⟨a, stored, refers, points⟩ := read.alias_of_mention member listed kept mentions
      refine ⟨_, sigilOf_mem a.kind, read.refers_text member listed stored refers points, ?_⟩
      have apart : h ≠ string.id := by
        rintro rfl
        obtain rfl := Option.some.inj (stored.symm.trans held)
        cases points.symm.trans (show a.literal.aliasTarget? = none from plain)
      have same : (file.tokens.setLiteral string.id (.ofWritten new)).get? h = some a := by
        rw [TokenStream.setLiteral, TokenStream.get?_modify, if_neg apart, stored]
      rw [TokenStream.text_eq _ same, TokenStream.textOf_alias _ points now written]
      exact writtenAs_sigil refers begins
    · exact read.linked.text_setLiteral _ apart fun a stored points =>
        silent (read.mention_of_alias member listed stored points)

/-- A file with a rule and an include, and the included file, whose condition names its strings in all ways. -/
def sigilContent : Bytes := Bytes.ofText "include \"b.yar\" rule a \x7b strings: $s = \"x\" condition: $s \x7d"
def sigilTree : FileTree := .ofPaths [("b.yar", Bytes.ofText
  "rule b \x7b strings: $s = \"y\" $st = \"z\" condition: ($s at 1 or #s in (0..2) < @s[1] or !s == 1) and any of ($s, $st*) \x7d")]

private theorem sigil_texts : yields (RuleFile.ofSource {} sigilTree 0 sigilContent) (fun file =>
    leavesRule (file.editRule "b" (RuleEdit.renameString "$s" "$t")) fun file' =>
    file'.rules.map (fun rule => (rule.strings.toList.map (·.1), rule.condition.text file'.tokens)) ==
      [(["$t", "$st"], "($t at 1 or #t in (0..2) < @t[1] or !t == 1) and any of ($t, $st*)"), (["$s"], "$s")]) =
      true := by
  decide +kernel

theorem renameString_reaches_sigils :
    ∃ file file' : RuleFile, RuleFile.ofSource {} sigilTree 0 sigilContent = .ok file ∧
    file.editRule "b" (RuleEdit.renameString "$s" "$t") = some (.ok (), file') ∧
    file'.rules.map (fun rule => (rule.strings.toList.map (·.1), rule.condition.text file'.tokens)) =
      [(["$t", "$st"], "($t at 1 or #t in (0..2) < @t[1] or !t == 1) and any of ($t, $st*)"), (["$s"], "$s")] ∧
    ∃ (index : Nat) (rule : Rule) (string : StringDefinition) (strings : NameTrie StringDefinition),
      file.rules[index]? = some rule ∧ rule.nameText file.tokens = "b" ∧ rule.strings.get? "$s" = some string ∧
      file'.rules = file.rules.set index { rule with strings } ∧
      strings.get? "$t" = some string ∧ strings.get? "$s" = none ∧
      strings.toList = rule.strings.toList.map (NameTrie.relabel "$s" "$t") ∧
      file.tokens.text string.id = "$s" ∧ file'.tokens.text string.id = "$t" ∧
      (∀ h, rule.Mentions file.tokens "$s" h →
        ∃ sigil ∈ sigils, file.tokens.text h = withSigil sigil "$s" ∧ file'.tokens.text h = withSigil sigil "$t") ∧
      ∀ h, h ≠ string.id → ¬ rule.Mentions file.tokens "$s" h → file'.tokens.text h = file.tokens.text h := by
  obtain ⟨file, done, run⟩ := yields_iff.mp sigil_texts
  obtain ⟨_, file', renamed, texts⟩ := leavesRule_iff.mp run
  exact ⟨file, file', done, renamed, eq_of_beq texts, Read.renameString_reaches (.ofSource done) renamed⟩

end RuleFile

end YaraRules
