import YaraRules.Proofs.FileEdits
import YaraRules.Proofs.NameRoles
import YaraRules.Proofs.RuleTexts
import YaraRules.Proofs.RuleForms

/-! Ranges within rules. The rows of a file are read one behind the other, so whatever a modifier spans
lies before or behind a range of another row, or of the condition. A rule reads the same after tokens
were put or taken beside all that its modifiers span. -/

namespace YaraRules

open TokenStream (Tidy)

/-! ### Ranges of modifiers -/

namespace Rule

variable {s after : TokenStream} {r : Rule}

theorem modifier_sublist {string : StringDefinition} (listed : string ∈ r.strings.values) {m : StringModifier}
    (member : m ∈ string.modifiers) : m.row.Sublist r.stringRow := by
  have within : m.row.Sublist string.row := by
    unfold StringDefinition.row
    refine .trans ?_ ((List.sublist_append_right string.content.handles _).trans (List.sublist_append_right _ _))
    rw [List.flatMap_def]
    exact List.sublist_flatten_of_mem (List.mem_map_of_mem member)
  refine within.trans (.trans ?_ (List.sublist_append_right _ _))
  rw [List.flatMap_def]
  exact List.sublist_flatten_of_mem (List.mem_map_of_mem listed)

theorem stringRow_sublist (r : Rule) : r.stringRow.Sublist r.headRow := by
  unfold headRow
  simp only [← List.append_assoc]
  exact List.sublist_append_right _ _

private theorem first_sublist {h : Handle} (held : h ∈ r.stringRow) : [r.first, h].Sublist r.row := by
  have start : r.first ∈ r.modifiers ++ [r.keyword] := by
    unfold first
    cases r.modifiers <;> simp
  have parts : r.row = (r.modifiers ++ [r.keyword]) ++
      (([r.name] ++ (r.tagRow ++ ([r.opening] ++ r.metaRow))) ++ (r.stringRow ++ r.conditionRow)) := by
    simp [row, bodyRow]
  rw [parts]
  exact TokenStream.pair_sublist start (List.mem_append_right _ (List.mem_append_left _ held))

/-- The ranges of all modifiers of the rule are read before another range, or behind it. -/
def Aside (s : TokenStream) (first last : Handle) (r : Rule) : Prop :=
  ∀ string ∈ r.strings.values, ∀ m ∈ string.modifiers, s.Beside m.first m.last first last

private theorem aside_of_apart {row : List Handle}
    (apart : (r.row ++ row).Sublist s.code ∨ (row ++ r.row).Sublist s.code) {first last : Handle} (begins : first ∈ row)
    (ends : last ∈ row) : r.Aside s first last := by
  intro string listed m member
  have held (h : Handle) (inside : h ∈ m.handles) : h ∈ r.row := by
    rw [r.row_eq]
    exact List.mem_append_left _ (((modifier_sublist listed member).trans r.stringRow_sublist).subset
      (m.mem_row inside))
  refine apart.imp (fun ahead => .trans ?_ ahead) fun behind => .trans ?_ behind
  · exact TokenStream.pair_sublist (held m.last (by simp [StringModifier.handles])) begins
  · exact TokenStream.pair_sublist ends (held m.first (by simp [StringModifier.handles]))

/-- The modifiers of a rule are read before its condition. -/
theorem aside_condition (listed : r.row.Sublist s.code) {first last : Handle} (start : first ∈ r.conditionRow) :
    r.Aside s first last := by
  intro string inside m member
  have held : m.last ∈ r.headRow :=
    ((modifier_sublist inside member).trans r.stringRow_sublist).subset (m.mem_row (by simp [StringModifier.handles]))
  refine .inl (.trans ?_ (r.row_eq ▸ listed))
  exact TokenStream.pair_sublist held start

theorem aside_first (listed : r.row.Sublist s.code) : r.Aside s r.first r.first := fun _ inside m member =>
  .inr ((first_sublist ((modifier_sublist inside member).subset
    (m.mem_row (by simp [StringModifier.handles])))).trans listed)

/-- What a modifier spans, between two tokens of the rule. -/
theorem modifier_spanned (tidy : s.Tidy) (listed : r.row.Sublist s.code) {chain : ChainId}
    (one : ∀ h ∈ r.row, h.chain = chain) {string : StringDefinition} (inside : string ∈ r.strings.values)
    {m : StringModifier} (member : m ∈ string.modifiers) :
    ∃ handles, s.Spanned m.first m.last handles ∧ m.first ∈ r.headRow ∧ m.last ∈ r.headRow := by
  have part := (modifier_sublist inside member).trans r.stringRow_sublist
  have within : m.row.Sublist r.row := r.row_eq ▸ part.trans (List.sublist_append_left _ _)
  obtain ⟨handles, spanned, _⟩ :=
    tidy.spanned m.head?_row m.getLast?_row (fun h held => one h (within.subset held)) (within.trans listed)
  exact ⟨handles, spanned, part.subset (List.mem_of_head? m.head?_row),
    part.subset (List.mem_of_getLast? m.getLast?_row)⟩

/-- A rule reads the same where its tokens and the ranges of its modifiers still are. -/
theorem Reads.of_spanned (tidy : s.Tidy) (sound : after.Sound) (listed : r.row.Sublist s.code) {chain : ChainId}
    (one : ∀ h ∈ r.row, h.chain = chain) (alive : ∀ h ∈ r.headRow, (after.get? h).isSome)
    (texts : ∀ h a, s.get? h = some a → (after.get? h).isSome → after.text h = s.text h)
    (spans : ∀ string ∈ r.strings.values, ∀ m ∈ string.modifiers, ∀ handles, s.Spanned m.first m.last handles →
      after.Spanned m.first m.last handles) : r.Reads id s after := by
  have headed : r.headRow.Sublist s.code := (List.sublist_append_left _ _).trans (r.row_eq ▸ listed)
  refine ⟨fun h held => ?_, fun string inside m member => ?_⟩
  · obtain ⟨a, stored, _⟩ := tidy.get?_of_code (headed.subset held)
    exact texts h a stored (alive h held)
  · obtain ⟨handles, spanned, _⟩ := modifier_spanned tidy listed one inside member
    have spanned' := spans string inside m member handles spanned
    rw [StringModifier.text_of_spanned tidy.sound spanned,
      StringModifier.text_of_spanned (m := m.mapHandles id) sound spanned']
    refine congrArg _ (List.map_congr_left fun h held => ?_)
    obtain ⟨_, a, stored⟩ := spanned.stored tidy.sound held
    obtain ⟨_, b, still⟩ := spanned'.stored sound held
    exact texts h a stored (by simp [still])

end Rule

/-- Two rows of a file are read one behind the other. -/
theorem Listed.apart {tokens : TokenStream} {rows others : List (List Handle)} {row other : List Handle}
    (listed : Listed tokens rows) (split : rows.Perm (row :: others)) (member : other ∈ others) :
    (other ++ row).Sublist tokens.code ∨ (row ++ other).Sublist tokens.code := by
  obtain ⟨items, same, inside⟩ := listed.order
  have held : row ∈ items := (same.trans split).mem_iff.mpr (by simp)
  obtain ⟨front, back, rfl⟩ := List.append_of_mem held
  have rest : (front ++ back).Perm others := (List.perm_middle.symm.trans (same.trans split)).cons_inv
  rw [List.flatten_append, List.flatten_cons] at inside
  rcases List.mem_append.mp (rest.mem_iff.mpr member) with early | late
  · exact .inl (((List.sublist_flatten_of_mem early).append (List.sublist_append_left _ _)).trans inside)
  · exact .inr ((((List.Sublist.refl row).append (List.sublist_flatten_of_mem late)).trans
      (List.sublist_append_right _ _)).trans inside)

namespace RuleFile.Ordered

variable {file : RuleFile} {rule r : Rule} (ordered : file.Ordered)
include ordered

theorem row_listed (member : rule ∈ file.rules) : rule.row.Sublist file.tokens.code :=
  ordered.listed.sublist (List.mem_append_right _ (List.mem_map_of_mem member))

theorem row_chain (member : rule ∈ file.rules) {h : Handle} (held : h ∈ rule.row) : h.chain = rule.first.chain := by
  obtain ⟨id, chain⟩ := ordered.listed.chain rule.row (List.mem_append_right _ (List.mem_map_of_mem member))
  rw [chain h held, chain rule.first (List.mem_of_head? rule.head?_row)]

theorem row_alive (member : rule ∈ file.rules) {h : Handle} (held : h ∈ rule.row) : (file.tokens.get? h).isSome := by
  obtain ⟨a, stored, _⟩ := ordered.listed.tidy.get?_of_code ((ordered.row_listed member).subset held)
  simp [stored]

section

variable (member : rule ∈ file.rules) (other : r ∈ file.rules) (apart : r ≠ rule)
include member other apart

theorem apart_rows : (r.row ++ rule.row).Sublist file.tokens.code ∨ (rule.row ++ r.row).Sublist file.tokens.code := by
  obtain ⟨index, inside, rfl⟩ := List.mem_iff_getElem.mp member
  obtain ⟨i, here⟩ := List.getElem?_of_mem other
  have different : i ≠ index := by
    rintro rfl
    exact apart (Option.some.inj (here.symm.trans (List.getElem?_eq_getElem inside)))
  have split := rows_of_rule file.imports (List.getElem_cons_eraseIdx_perm inside).symm
  have rest : r ∈ file.rules.eraseIdx index := List.mem_eraseIdx_iff_getElem?.mpr ⟨i, different, here⟩
  exact ordered.listed.apart split (List.mem_append_right _ (List.mem_map_of_mem rest))

/-- The modifiers of a rule are read before or behind whatever another rule holds. -/
theorem aside {first last : Handle} (begins : first ∈ rule.row) (ends : last ∈ rule.row) :
    r.Aside file.tokens first last :=
  Rule.aside_of_apart (ordered.apart_rows member other apart) begins ends

end

section

variable (member : rule ∈ file.rules) (other : r ∈ file.rules)
include member other

/-- The modifiers of rules are read before or behind a condition. -/
theorem aside_condition : r.Aside file.tokens rule.condition.first rule.condition.last := by
  have begins := List.mem_of_head? rule.condition.head?_handles
  have ends := List.mem_of_getLast? rule.condition.getLast?_handles
  by_cases same : r = rule
  · subst same
    exact Rule.aside_condition (ordered.row_listed member) (by simp [Rule.conditionRow, begins])
  · have part := rule.condition_sublist.subset
    exact ordered.aside member other same (part begins) (part ends)

/-- What a rule holds before its condition, and whatever another rule holds, is read before or behind the condition. -/
theorem beside_condition {h : Handle} (held : h ∈ r.row) (head : r = rule → h ∈ r.headRow) :
    file.tokens.Beside rule.condition.first rule.condition.last h h := by
  have begins := List.mem_of_head? rule.condition.head?_handles
  have ends := List.mem_of_getLast? rule.condition.getLast?_handles
  by_cases same : r = rule
  · subst same
    have order : [h, r.condition.first].Sublist (r.headRow ++ r.conditionRow) :=
      TokenStream.pair_sublist (head rfl) (by simp [Rule.conditionRow, begins])
    exact .inr ((r.row_eq ▸ order).trans (ordered.row_listed member))
  · have part := rule.condition_sublist.subset
    rcases ordered.apart_rows member other same with early | late
    · exact .inr ((TokenStream.pair_sublist held (part begins)).trans early)
    · exact .inl ((TokenStream.pair_sublist (part ends) held).trans late)

end

theorem code_nodup : file.tokens.code.Nodup := (TokenStream.codeOf_sublist _).nodup ordered.listed.tidy.nodup

theorem same_rule (member : rule ∈ file.rules) (other : r ∈ file.rules) {h : Handle} (held : h ∈ rule.row)
    (held' : h ∈ r.row) : r = rule := by
  by_contra apart
  rcases ordered.apart_rows member other apart with early | late
  · exact (List.nodup_append'.mp (early.nodup ordered.code_nodup)).2.2 held' held
  · exact (List.nodup_append'.mp (late.nodup ordered.code_nodup)).2.2 held held'

end RuleFile.Ordered

/-! ### Names -/

/-- The tokens of a condition name nothing themselves. -/
theorem Expr.mem_uses {strings : List Handle} {e : Expr} {role : Role} (member : role ∈ e.uses strings) :
    role.token ∈ e.handles ∧ ((∃ h, role = .nameUse h) ∨ ∃ h, role = .stringUse h strings) := by
  obtain ⟨node, inside, used⟩ := List.mem_filterMap.mp member
  have within := (Expr.node_sublist inside).subset
  unfold Expr.use? at used
  split at used
  next same =>
    cases used
    exact ⟨within (by simp [same, Expr.handles, Role.token]), .inl ⟨_, rfl⟩⟩
  next =>
    obtain ⟨token, named, rfl⟩ := Option.map_eq_some_iff.mp used
    exact ⟨within (Expr.stringToken?_mem named), .inr ⟨token, rfl⟩⟩

namespace Rule

variable {r : Rule} {text : String} {role : Role}

theorem mem_roles (member : role ∈ r.roles text) : role = .ruleName r.name text ∨ (∃ h ∈ r.ids, role = .stringName h) ∨
    role ∈ r.condition.uses r.ids := by
  rcases List.mem_cons.mp member with same | below
  · exact .inl same
  · refine .inr ((List.mem_append.mp below).imp_left fun listed => ?_)
    obtain ⟨h, held, rfl⟩ := List.mem_map.mp listed
    exact ⟨h, held, rfl⟩

end Rule

/-- An alias is in a condition. It leads to the name of a rule, or to one of a string of the same rule. -/
theorem RuleFile.Linked.alias_of_condition {file : RuleFile} (linked : file.Linked) {h target : Handle} {a : Token}
    (stored : file.tokens.get? h = some a) (points : a.literal.aliasTarget? = some target) :
    ∃ rule ∈ file.rules, h ∈ rule.condition.handles ∧
      (a.kind = .symbolName ∧ (∃ other ∈ file.rules, target = other.name) ∨ target ∈ rule.ids) := by
  rcases linked.aliases h a target stored points with ⟨use, text, named⟩ | ⟨⟨strings, use⟩, _⟩
  · obtain ⟨rule, member, role⟩ := List.mem_flatMap.mp use
    obtain ⟨other, member', role'⟩ := List.mem_flatMap.mp named
    have inside : .nameUse h ∈ rule.condition.uses rule.ids := by simpa using Rule.mem_roles role
    obtain ⟨b, found, kind, _⟩ := linked.placed _ use
    obtain rfl : a = b := Option.some.inj (stored.symm.trans found)
    refine ⟨rule, member, (Expr.mem_uses inside).1, .inl ⟨kind, other, member', ?_⟩⟩
    rcases Rule.mem_roles role' with same | ⟨_, _, same⟩ | used
    · cases same
      rfl
    · cases same
    · rcases (Expr.mem_uses used).2 with ⟨_, same⟩ | ⟨_, same⟩ <;> cases same
  · obtain ⟨b, found, suits⟩ := linked.placed _ use
    obtain rfl : a = b := Option.some.inj (stored.symm.trans found)
    obtain ⟨rule, member, role⟩ := List.mem_flatMap.mp use
    have inside : .stringUse h strings ∈ rule.condition.uses rule.ids := by simpa using Rule.mem_roles role
    obtain ⟨held, ⟨_, same⟩ | ⟨_, same⟩⟩ := Expr.mem_uses inside
    · cases same
    · cases same
      rcases suits.2 with ⟨named, known, points'⟩ | ⟨plain, _⟩
      · exact ⟨rule, member, held, .inr (Option.some.inj (points'.symm.trans points) ▸ known)⟩
      · cases (show a.literal.aliasTarget? = none from plain).symm.trans points

end YaraRules
