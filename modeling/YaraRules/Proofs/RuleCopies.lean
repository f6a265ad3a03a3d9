import YaraRules.Proofs.Outcomes
import YaraRules.Proofs.OwnRules
import YaraRules.Proofs.StreamCopies

/-! Copies of rules in other files. A rule that is copied into another file has the text that
it had, apart from names of other rules in its condition: those are aliases of tokens that
were not copied, and have no text there. Names of its own strings come along. -/

namespace YaraRules

open TokenStream (Plain Copies Received Renaming Piece Spanned)

/-- The modifier stands on one line. -/
def StringModifier.flat (m : StringModifier) (tokens : TokenStream) : Bool :=
  match tokens.rangeHandles m.first m.last with
  | .ok handles => handles.all fun h => (tokens.get? h).all (·.kind != .newLine)
  | .error _ => true

/-- Each modifier of the rule stands on one line. -/
def Rule.flat (rule : Rule) (tokens : TokenStream) : Bool :=
  rule.strings.values.all fun string => string.modifiers.all (·.flat tokens)

namespace RuleFile

/-- The token is an alias of the name of a rule other than the one given. -/
def borrows (file : RuleFile) (rule : Rule) (h : Handle) : Bool :=
  file.rules.any fun other =>
    other.name != rule.name && (file.tokens.get? h).bind (·.literal.aliasTarget?) == some other.name

/-- The text of a token of the rule in a file that it is copied into. -/
def copiedWord (file : RuleFile) (rule : Rule) (h : Handle) : String :=
  if file.borrows rule h then "" else file.tokens.text h

theorem Ordered.row_copied {file : RuleFile} {rule : Rule} (ordered : file.Ordered) (member : rule ∈ file.rules)
    {copy : TokenStream} {names : Renaming} {handles : List Handle}
    (copies : Copies file.tokens copy names rule.first rule.last handles) : rule.row ⊆ handles := by
  obtain ⟨handles', spanned, within⟩ := ordered.listed.tidy.spanned rule.head?_row rule.getLast?_row
    (fun k inside => ordered.row_chain member inside) (ordered.row_listed member)
  rw [copies.spanned.unique spanned ordered.listed.tidy.sound]
  exact within.subset

namespace Read

variable {file : RuleFile} {rule : Rule} (read : file.Read) (member : rule ∈ file.rules)
include read member

/-! ### Aliases of a rule -/

/-- Tokens before the condition are written by their own literals. -/
theorem head_plain {h : Handle} (held : h ∈ rule.headRow) {a : Token}
    (stored : file.tokens.get? h = some a) : Plain a := by
  have ordered := read.reachable.ordered
  cases points : a.literal.aliasTarget? with
  | none => exact points
  | some target =>
    obtain ⟨r, other, used, _⟩ := read.linked.alias_of_condition stored points
    have here : h ∈ rule.row := rule.row_eq ▸ List.mem_append_left _ held
    obtain rfl := ordered.same_rule member other here (r.condition_sublist.subset used)
    have once := (ordered.row_listed member).nodup ordered.code_nodup
    rw [Rule.row_eq] at once
    exact absurd (by simp [Rule.conditionRow, used]) ((List.nodup_append'.mp once).2.2 held)

private theorem modifier_plain {string : StringDefinition} (inside : string ∈ rule.strings.values) {m : StringModifier}
    (listed : m ∈ string.modifiers) {handles : List Handle} (spanned : file.tokens.Spanned m.first m.last handles)
    {h : Handle} (held : h ∈ handles) {a : Token} (stored : file.tokens.get? h = some a) : Plain a := by
  have ordered := read.reachable.ordered
  cases points : a.literal.aliasTarget? with
  | none => exact points
  | some target =>
    obtain ⟨r, other, used, _⟩ := read.linked.alias_of_condition stored points
    have aside : rule.Aside file.tokens h h := by
      by_cases same : rule = r
      · subst same
        exact Rule.aside_condition (ordered.row_listed member) (by simp [Rule.conditionRow, used])
      · have part := r.condition_sublist.subset used
        exact ordered.aside other member same part part
    exact absurd held (ordered.listed.tidy.not_mem_of_beside spanned (aside string inside m listed))

variable {copy s after : TokenStream} {names names' : Renaming} {handles : List Handle} {ahead new behind : List Piece}
  (copies : Copies file.tokens copy names rule.first rule.last handles)
include copies

private theorem head_copied {h : Handle} (held : h ∈ rule.headRow) : h ∈ handles :=
  read.reachable.ordered.row_copied member copies (rule.row_eq ▸ List.mem_append_left _ held)

private theorem reads_copy : rule.Reads names.apply file.tokens copy := by
  have ordered := read.reachable.ordered
  have sound := ordered.listed.tidy.sound
  refine ⟨fun h held => ?_, fun string inside m listed => ?_⟩
  · obtain ⟨a, stored⟩ :=
      Option.isSome_iff_exists.mp (ordered.row_alive member (rule.row_eq ▸ List.mem_append_left _ held))
    exact copies.text_plain (read.head_copied member copies held) stored (read.head_plain member held stored)
  · obtain ⟨part, spanned, start, stop⟩ := Rule.modifier_spanned ordered.listed.tidy (ordered.row_listed member)
      (fun h held => ordered.row_chain member held) inside listed
    obtain ⟨spanned', within⟩ :=
      copies.spanned_part sound spanned (read.head_copied member copies start) (read.head_copied member copies stop)
    rw [StringModifier.text_of_spanned sound spanned,
      StringModifier.text_of_spanned (m := m.mapHandles names.apply) copies.lone.sound spanned', List.map_map]
    refine congrArg _ (List.map_congr_left fun h held => ?_)
    obtain ⟨_, a, stored⟩ := spanned.stored sound held
    exact copies.text_plain (within held) stored (read.modifier_plain member inside listed spanned held stored)

variable (received : Received s copy after names' ahead new behind)
include received

/-- What arrives reads like the copy if no modifier is broken over lines, as line breaks are adopted. -/
theorem reads_received (flat : rule.flat file.tokens) :
    (rule.mapHandles names.apply).Reads names'.apply copy after := by
  have ordered := read.reachable.ordered
  have sound := ordered.listed.tidy.sound
  have arrives {h : Handle} (held : h ∈ handles) {a : Token} (stored : file.tokens.get? h = some a) (plain : Plain a)
      (word : a.kind ≠ .newLine) : after.text (names'.apply (names.apply h)) = copy.text (names.apply h) :=
    received.text_new (copies.arrives_plain held stored plain) word fun target points =>
      by cases points.symm.trans plain
  refine ⟨fun h' held' => ?_, fun string' inside' m' listed' => ?_⟩
  · obtain ⟨h, held, rfl⟩ := List.mem_map.mp ((rule.headRow_mapHandles names.apply).subset held')
    have within : h ∈ rule.row := rule.row_eq ▸ List.mem_append_left _ held
    obtain ⟨a, stored, word⟩ := ordered.listed.tidy.get?_of_code ((ordered.row_listed member).subset within)
    exact arrives (read.head_copied member copies held) stored (read.head_plain member held stored) word
  · obtain ⟨string, inside, rfl⟩ : ∃ string ∈ rule.strings.values, string.mapHandles names.apply = string' := by
      have mapped : string' ∈ (rule.strings.mapValues (·.mapHandles names.apply)).values := inside'
      rwa [NameTrie.values_mapValues, List.mem_map] at mapped
    obtain ⟨m, listed, rfl⟩ : ∃ m ∈ string.modifiers, m.mapHandles names.apply = m' := List.mem_map.mp listed'
    obtain ⟨part, spanned, start, stop⟩ := Rule.modifier_spanned ordered.listed.tidy (ordered.row_listed member)
      (fun h held => ordered.row_chain member held) inside listed
    obtain ⟨spanned', within⟩ :=
      copies.spanned_part sound spanned (read.head_copied member copies start) (read.head_copied member copies stop)
    rw [StringModifier.text_of_spanned (m := m.mapHandles names.apply) copies.lone.sound spanned',
      StringModifier.text_of_spanned (m := (m.mapHandles names.apply).mapHandles names'.apply) received.tidy'.sound
        (received.spanned_new spanned'), List.map_map]
    refine congrArg _ (List.map_congr_left fun h' held' => ?_)
    obtain ⟨h, held, rfl⟩ := List.mem_map.mp held'
    obtain ⟨_, a, stored⟩ := spanned.stored sound held
    have line : a.kind ≠ .newLine := by
      have one := List.all_eq_true.mp (List.all_eq_true.mp flat string inside) m listed
      rw [StringModifier.flat, spanned.rangeHandles sound] at one
      simpa [stored] using List.all_eq_true.mp one h held
    exact arrives (within held) stored (read.modifier_plain member inside listed spanned held stored) line

/-- A token of the condition arrives with its text unless it is the name of another rule. -/
theorem condition_word {id : ChainId} (own : copy.chain.id = id) (apart : ∀ i ∈ file.tokens.ids, i ∉ s.ids ∧ i ≠ id)
    {h : Handle} (held : h ∈ rule.condition.handles) :
    after.text (names'.apply (names.apply h)) = file.copiedWord rule h := by
  have ordered := read.reachable.ordered
  have tidy := ordered.listed.tidy
  have here := rule.condition_sublist.subset held
  have inside := read.reachable.ordered.row_copied member copies here
  obtain ⟨a, stored, word⟩ := tidy.get?_of_code ((ordered.row_listed member).subset here)
  have borrows_iff : file.borrows rule h = true ↔
      ∃ other ∈ file.rules, other.name ≠ rule.name ∧ a.literal.aliasTarget? = some other.name := by
    simp [borrows, stored]
  unfold copiedWord
  cases points : a.literal.aliasTarget? with
  | none =>
    rw [if_neg (by simp [borrows_iff, points])]
    rw [received.text_new (copies.arrives_plain inside stored points) word fun target leads =>
      by cases points.symm.trans leads]
    exact copies.text_plain inside stored points
  | some target =>
    have own_name {other : Rule} (listed : other ∈ file.rules) (within : other.name ∈ rule.row) : other = rule :=
      ordered.same_rule member listed within (other.row_eq ▸ List.mem_append_left _ other.name_head)
    by_cases within : target ∈ rule.row
    · have none_other : ¬ file.borrows rule h = true := by
        rw [borrows_iff]
        rintro ⟨other, listed, apart, leads⟩
        obtain rfl : target = other.name := Option.some.inj (points.symm.trans leads)
        exact apart (congrArg Rule.name (own_name listed within))
      obtain ⟨b, found, line⟩ := tidy.get?_of_code ((ordered.row_listed member).subset within)
      obtain ⟨c, found', plain⟩ := read.firm stored target points
      obtain rfl : b = c := Option.some.inj (found.symm.trans found')
      rw [if_neg none_other]
      exact copies.text_inside received inside stored word points
        (read.reachable.ordered.row_copied member copies within) found plain line
    · obtain ⟨r, listed, used, ⟨kind, other, listed', rfl⟩ | named⟩ := read.linked.alias_of_condition stored points
      · have different : other ≠ rule := by
          rintro rfl
          exact within (other.row_eq ▸ List.mem_append_left _ other.name_head)
        have name : other.name ∈ other.row := other.row_eq ▸ List.mem_append_left _ other.name_head
        have absent : other.name ∉ handles := by
          refine tidy.not_mem_of_beside copies.spanned ?_
          have begins := List.singleton_sublist.mpr (List.mem_of_head? rule.head?_row)
          have ends := List.singleton_sublist.mpr (List.mem_of_getLast? rule.getLast?_row)
          have one := List.singleton_sublist.mpr name
          exact (ordered.apart_rows member listed' different).symm.imp (ends.append one).trans (one.append begins).trans
        have borrowed : file.borrows rule h = true :=
          borrows_iff.mpr ⟨other, listed', fun same =>
            within (same ▸ rule.row_eq ▸ List.mem_append_left _ rule.name_head), points⟩
        obtain ⟨b, found, _⟩ := read.firm stored other.name points
        obtain ⟨foreign, outside⟩ := apart _ (TokenStream.mem_ids_of_get? found)
        rw [if_pos borrowed, copies.text_outside received inside stored word points absent foreign, kind]
        · rfl
        · rw [copies.lone.ids, List.mem_singleton, own]
          exact outside
      · obtain rfl := ordered.same_rule member listed here (r.condition_sublist.subset used)
        exact absurd (r.row_eq ▸ List.mem_append_left _ (r.ids_head named)) within

end Read

/-- A rule that is copied into another file reads there as it did, but has no text for the names of other rules. -/
theorem Read.copied_text {file target target' : RuleFile} {rule : Rule} {copy : Detached Rule}
    {id : ChainId} {index : Nat}
    (read : file.Read) (member : rule ∈ file.rules) (flat : rule.flat file.tokens)
    (copied : Detached.copyOf Rule.rename file.tokens id rule rule.first rule.last = .ok copy)
    (reachable : target.Reachable)
    (apart : ∀ i ∈ file.tokens.ids, i ∉ target.tokens.ids ∧ i ≠ id)
    (inserted : target.edit (FileEdit.insertRule index copy) = (.ok (), target')) :
    ∃ rule', target'.rules[index]? = some rule' ∧
      rule'.text target'.tokens = rule.textHaving file.tokens (rule.condition.textWith (file.copiedWord rule)) ∧
      ((∀ h ∈ rule.condition.handles, file.borrows rule h = false) →
      rule'.text target'.tokens = rule.text file.tokens) := by
  have ordered := read.reachable.ordered
  obtain ⟨names, stream, done, rfl⟩ := Detached.copyOf_done copied
  obtain ⟨inside, names', left, moved, rules, _⟩ := FileEdit.insertRule_moves inserted
  obtain ⟨a, stored⟩ := Option.isSome_iff_exists.mp (ordered.row_alive member (List.mem_of_head? rule.head?_row))
  obtain ⟨owner, held, _⟩ := (ordered.listed.tidy.sound.get?_eq_some _ _).mp stored
  obtain ⟨own, handles, copies⟩ := ordered.listed.tidy.sound.copies held done
  have nonempty : stream.view ≠ [] := by
    intro empty
    have named := copies.named
    have first := read.reachable.ordered.row_copied member copies (List.mem_of_head? rule.head?_row)
    rw [empty, List.map_nil, eq_comm, List.map_eq_nil_iff] at named
    exact List.not_mem_nil (named ▸ first)
  obtain ⟨ahead, new, behind, received, _⟩ := reachable.ordered.listed.tidy.moveAll_received copies.lone nonempty moved
  have there : target'.rules[index]? = some ((rule.rename names).rename names') := by
    rw [rules, List.getElem?_insertIdx_self]
    simp [inside]
  have condition : ((rule.rename names).rename names').condition.text target'.tokens =
      rule.condition.textWith (file.copiedWord rule) := by
    have renamed : ((rule.rename names).rename names').condition =
      (rule.condition.mapHandles names.apply).mapHandles names'.apply := rfl
    rw [renamed, Expr.text, Expr.textWith_mapHandles, Expr.textWith_mapHandles]
    exact rule.condition.textWith_congr fun h held => read.condition_word member copies received own apart held
  have whole : ((rule.rename names).rename names').text target'.tokens =
      rule.textHaving file.tokens (rule.condition.textWith (file.copiedWord rule)) := by
    rw [Rule.text_eq, condition]
    exact ((read.reads_received member copies received flat).textHaving _).trans
      ((read.reads_copy member copies).textHaving _)
  refine ⟨_, there, whole, fun none => ?_⟩
  have words : rule.condition.textWith (file.copiedWord rule) = rule.condition.textWith file.tokens.text :=
    rule.condition.textWith_congr fun h held => by simp [copiedWord, none h held]
  rw [whole, words, Rule.text_eq]
  rfl

/-- A file with a rule that has a string, and a rule that names it. -/
def copiedContent : Bytes :=
  Bytes.ofText "rule a \x7b strings: $s = \"x\" ascii condition: $s \x7d rule b \x7b condition: a and true \x7d"

/-- A file without rules. -/
def emptyTarget : RuleFile := .empty 2 Features.current

private theorem copied_apart : yields (RuleFile.ofSource {} (.ofPaths []) 0 copiedContent) (fun file =>
    match file.rules with
    | [a, b] =>
      yields (Detached.copyOf Rule.rename file.tokens 1 a a.first a.last) fun copyA =>
      yields (Detached.copyOf Rule.rename file.tokens 1 b b.first b.last) fun copyB =>
      leaves (emptyTarget.edit (FileEdit.insertRule 0 copyA)) fun _ =>
      leaves (emptyTarget.edit (FileEdit.insertRule 0 copyB)) fun targetB =>
      a.flat file.tokens && b.flat file.tokens && a.condition.handles.all (fun h => !file.borrows a h) &&
        file.tokens.ids == [0] && emptyTarget.tokens.ids == [2] &&
        targetB.rules.map (·.condition.text targetB.tokens) == [" and true"]
    | _ => false) = true := by
  decide +kernel

/-- The name of a string is copied with the rule, that of another rule is lost. -/
theorem copied_text_borrowed : ∃ (file targetA targetB : RuleFile) (a b ruleA ruleB : Rule)
    (copyA copyB : Detached Rule), RuleFile.ofSource {} (.ofPaths []) 0 copiedContent = .ok file ∧ file.rules = [a, b] ∧
    Detached.copyOf Rule.rename file.tokens 1 a a.first a.last = .ok copyA ∧
    Detached.copyOf Rule.rename file.tokens 1 b b.first b.last = .ok copyB ∧
    emptyTarget.edit (FileEdit.insertRule 0 copyA) = (.ok (), targetA) ∧
    emptyTarget.edit (FileEdit.insertRule 0 copyB) = (.ok (), targetB) ∧ targetA.rules[0]? = some ruleA ∧
    ruleA.text targetA.tokens = a.text file.tokens ∧ targetB.rules[0]? = some ruleB ∧
    ruleB.condition.text targetB.tokens = " and true" ∧
    ruleB.text targetB.tokens = b.textHaving file.tokens (b.condition.textWith (file.copiedWord b)) := by
  obtain ⟨file, done, run⟩ := yields_iff.mp copied_apart
  split at run
  next a b listed =>
    obtain ⟨copyA, copiedA, run⟩ := yields_iff.mp run
    obtain ⟨copyB, copiedB, run⟩ := yields_iff.mp run
    obtain ⟨_, targetA, insertedA, run⟩ := leaves_iff.mp run
    obtain ⟨_, targetB, insertedB, run⟩ := leaves_iff.mp run
    simp only [Bool.and_eq_true, beq_iff_eq, List.all_eq_true, Bool.not_eq_true'] at run
    obtain ⟨⟨⟨⟨⟨flatA, flatB⟩, own⟩, ids⟩, ids'⟩, lost⟩ := run
    have apart : ∀ i ∈ file.tokens.ids, i ∉ emptyTarget.tokens.ids ∧ i ≠ 1 := by simp [ids, ids']
    have reachable : emptyTarget.Reachable := .empty 2 Features.current
    obtain ⟨ruleA, thereA, _, kept⟩ :=
      Read.copied_text (.ofSource done) (by simp [listed]) flatA copiedA reachable apart insertedA
    obtain ⟨ruleB, thereB, text, _⟩ :=
      Read.copied_text (.ofSource done) (by simp [listed]) flatB copiedB reachable apart insertedB
    have condition : ruleB.condition.text targetB.tokens = " and true" := by
      have each := congrArg (·[0]?) lost
      simpa [thereB] using each
    exact ⟨file, targetA, targetB, a, b, ruleA, ruleB, copyA, copyB, done, listed, copiedA, copiedB, insertedA,
      insertedB, thereA, kept own, thereB, condition, text⟩
  next => cases run

end RuleFile

end YaraRules
