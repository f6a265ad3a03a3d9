import YaraRules.Proofs.MirroredFiles
import YaraRules.Proofs.Outcomes
import YaraRules.Proofs.ReadOwners

/-! Copies in the conditions of files that were read. A condition of the file itself is out of reach
of every alias: they lead to names, and names stand before conditions. So copies of its nodes can
take their place, and the file looks as before, also after its rules and strings were renamed. -/

namespace YaraRules

open TokenStream (Spans Recast)

/-- A range of the stream itself has no token of a range that is read before or behind it. -/
theorem TokenStream.Tidy.disjoint_of_beside {s : TokenStream} (tidy : s.Tidy) {first last first' last' : Handle}
    {handles zone : List Handle} (spanned : s.Spanned first last handles) (top : s.Spanned first' last' zone)
    (own : first'.chain = s.chain.id) (beside : s.Beside first last first' last') : handles.Disjoint zone := by
  intro h held held'
  have here := (top.stored tidy.sound held').1
  obtain ⟨owner, found, inside, begins, ends⟩ := top
  obtain rfl : s = owner := Option.some.inj ((owner?_top own).symm.trans found)
  rw [handles_view] at inside
  obtain ⟨middle, ⟨front, back, whole⟩, rfl⟩ := List.infix_map_iff.mp inside
  rw [List.append_assoc] at whole
  have spans : Spans first' last' middle := ⟨by simpa using begins, by simpa using ends⟩
  have same : first.chain = s.chain.id := (spanned.stored tidy.sound held).1.symm.trans (here.trans own)
  have once := tidy.sound.handles_nodup
  rw [← whole, List.map_append, List.map_append] at once
  obtain ⟨_, once', apart⟩ := List.nodup_append'.mp once
  obtain ⟨_, _, apart'⟩ := List.nodup_append'.mp once'
  rcases tidy.beside whole.symm spans spanned beside same with early | late
  · exact apart (early.subset held) (List.mem_append_left _ held')
  · exact apart' held' (late.subset held)

namespace RuleFile

variable {file : RuleFile} {rule r : Rule} {index : Nat} {zone : List Handle}

/-- What a rule holds before its condition, and whatever another rule holds, is not among the tokens of a condition. -/
theorem Ordered.not_mem_condition (ordered : file.Ordered) (member : rule ∈ file.rules) (other : r ∈ file.rules)
    (spanned : file.tokens.Spanned rule.condition.first rule.condition.last zone) {h : Handle} (held : h ∈ r.row)
    (head : r = rule → h ∈ r.headRow) : h ∉ zone :=
  ordered.listed.tidy.not_mem_of_beside spanned (ordered.beside_condition member other held head)

namespace Read

variable (read : file.Read) (member : rule ∈ file.rules) (own : file.Owns rule)
include read member own

/-- No alias leads into the condition of a rule of the file itself. -/
theorem secluded : ∃ zone, file.tokens.Spanned rule.condition.first rule.condition.last zone ∧
    rule.condition.handles.Sublist zone ∧ file.tokens.Secluded zone := by
  have ordered := read.reachable.ordered
  have begins := rule.condition.head?_handles
  have ends := rule.condition.getLast?_handles
  have part := rule.condition_sublist.subset
  obtain ⟨zone, spanned, listed⟩ := ordered.listed.tidy.spanned begins ends
    (fun h held => ordered.row_chain member (part held)) (rule.condition_sublist.trans (ordered.row_listed member))
  refine ⟨zone, spanned, listed, {
    tidy := ordered.listed.tidy
    inside := ?_
    bare := fun piece viewed held => ?_
    firm := fun h a => read.firm
    aside := fun h a target stored points => ?_ }⟩
  · have top : rule.condition.first.chain = file.tokens.chain.id :=
      (ordered.row_chain member (part (List.mem_of_head? begins))).trans own
    obtain ⟨owner, found, inside, _⟩ := spanned
    obtain rfl : file.tokens = owner := Option.some.inj ((TokenStream.owner?_top top).symm.trans found)
    rwa [TokenStream.handles_view] at inside
  · have bare := read.range_bare member own (part (List.mem_of_head? begins))
      (part (List.mem_of_getLast? ends)) spanned piece.1 held
    obtain ⟨entry, _, rfl⟩ := List.mem_map.mp viewed
    exact congrArg Option.join (TokenStream.lookup_of_not_mem bare)
  · obtain ⟨r, inside, named⟩ := read.leads stored points
    exact ordered.not_mem_condition member inside spanned (r.row_eq ▸ List.mem_append_left _ named) fun _ => named

end Read

/-- The rule with the recast condition is the only one that refers to other tokens. -/
theorem Ordered.rules_recast (ordered : file.Ordered) (found : file.rules[index]? = some rule)
    (unique : ∀ i, file.rules[i]? = some rule → i = index) {f : Handle → Handle} {tokens : TokenStream}
    (spanned : file.tokens.Spanned rule.condition.first rule.condition.last zone)
    (recast : Recast zone f file.tokens tokens) :
    file.rules.set index { rule with condition := rule.condition.mapHandles f } =
      file.rules.map fun rule => { rule with condition := rule.condition.mapHandles f } := by
  have member := List.mem_of_getElem? found
  refine List.ext_getElem? fun i => ?_
  rw [List.getElem?_map, List.getElem?_set]
  split_ifs with here inside
  · rw [← here, found]
    rfl
  · simp [← here, inside]
  · cases listed : file.rules[i]? with
    | none => rfl
    | some r =>
      have other := List.mem_of_getElem? listed
      have apart : r ≠ rule := fun same => here (unique i (same ▸ listed)).symm
      have fixed : r.condition.mapHandles f = r.condition := r.condition.mapHandles_fixed fun h held => by
        have part := r.condition_sublist.subset held
        exact recast.still h (ordered.row_alive other part) (ordered.not_mem_condition member other spanned part
          fun same => absurd same apart)
      rw [Option.map_some, fixed]

private theorem Read.modifyCondition_mirrors (read : file.Read) (found : file.rules[index]? = some rule)
    (own : file.Owns rule)
    (selects : ChainId → TokenStream → Expr → Bool) (otherwise : Option (Detached Expr)) :
    ∃ file', file.editRule (rule.nameText file.tokens) (RuleEdit.modifyCondition (RuleEdit.copying selects otherwise)) =
      some (.ok (), file') ∧ ∃ zone f, Mirrors zone f file file' := by
  have ordered := read.reachable.ordered
  have member := List.mem_of_getElem? found
  obtain ⟨zone, spanned, listed, secluded⟩ := read.secluded member own
  obtain ⟨f, tokens, id, done, recast, _⟩ :=
    RuleEdit.modifyCondition_recasts selects otherwise secluded read.ids_fresh listed
  have unique (i : Nat) (here : file.rules[i]? = some rule) : i = index :=
    Option.some.inj ((read.ruleIndex? here).symm.trans (read.ruleIndex? found))
  refine ⟨_, editRule_run (read.ruleIndex? found) found done, zone, f, {
    secluded
    recast
    imports := rfl
    rules := ordered.rules_recast found unique spanned recast
    heads := fun r other h held => ?_
    words := fun r other h held => ?_
    spans := fun r other string inside m among => ?_ }⟩
  · exact ordered.not_mem_condition member other spanned (r.row_eq ▸ List.mem_append_left _ held) fun _ => held
  · refine ordered.listed.tidy.get?_of_code ((ordered.row_listed other).subset ?_)
    rcases List.mem_append.mp held with head | condition
    · exact r.row_eq ▸ List.mem_append_left _ head
    · exact r.condition_sublist.subset condition
  · obtain ⟨handles, between, _⟩ :=
      Rule.modifier_spanned ordered.listed.tidy (ordered.row_listed other) (fun h =>
        ordered.row_chain other) inside among
    have top : rule.condition.first.chain = file.tokens.chain.id := (read.condition_chain found).trans own
    exact ⟨handles, between, ordered.listed.tidy.disjoint_of_beside between spanned top
      (ordered.aside_condition member other string inside m among)⟩

/-- Copies of nodes, in the place of the nodes, are not noticed: not in a text, a layout or the outline of
the condition, and not after rules and strings were given other names. -/
theorem Read.copies_unnoticed (read : file.Read) (member : rule ∈ file.rules) (own : file.Owns rule)
    (selects : ChainId → TokenStream → Expr → Bool) (otherwise : Option (Detached Expr)) :
    ∃ file', file.editRule (rule.nameText file.tokens) (RuleEdit.modifyCondition (RuleEdit.copying selects otherwise)) =
        some (.ok (), file') ∧ file.LooksLike file' ∧
      ∀ changes, (file'.changeNames changes).1 = (file.changeNames changes).1 ∧
        (file.changeNames changes).2.LooksLike (file'.changeNames changes).2 := by
  obtain ⟨index, found⟩ := List.getElem?_of_mem member
  obtain ⟨file', done, zone, f, mirrors⟩ := read.modifyCondition_mirrors found own selects otherwise
  refine ⟨file', done, mirrors.looksLike, fun changes => ?_⟩
  obtain ⟨same, mirrors'⟩ := mirrors.changeNames changes
  exact ⟨same, mirrors'.looksLike⟩

/-- A file with an include and a rule. Its condition names the rule of the included file and a string. -/
def mirroredContent : Bytes := Bytes.ofText
  "include \"a.yar\" rule b \x7b strings: $s = \"x\" condition: // both\n a and #s > 1 \x7d"

def mirroredTree : FileTree := .ofPaths [("a.yar", Bytes.ofText "rule a \x7b condition: true \x7d")]

def mirroredChanges : List NameChange := [.string "b" "$s" "$t", .rule "a" "c", .rule "b" "c"]

private theorem mirrored_rule : yields (RuleFile.ofSource {} mirroredTree 0 mirroredContent) (fun file =>
    (file.rules.any fun rule => rule.nameText file.tokens == "b" && rule.first.chain == file.tokens.id) &&
      (file.changeNames mirroredChanges).2.rules.map (·.condition.text (file.changeNames mirroredChanges).2.tokens) ==
        ["true", "c and #t > 1"]) = true := by
  decide +kernel

/-- All nodes of the condition are copied, the alias to the string and the one to the rule too. -/
theorem copies_unnoticed_below : ∃ (file : RuleFile) (rule : Rule) (file' : RuleFile),
    RuleFile.ofSource {} mirroredTree 0 mirroredContent = .ok file ∧ rule ∈ file.rules ∧ file.Owns rule ∧
    file.editRule (rule.nameText file.tokens)
    (RuleEdit.modifyCondition (RuleEdit.copying (fun _ _ _ => true) none)) = some (.ok (), file') ∧
    file.LooksLike file' ∧ (∀ changes, (file'.changeNames changes).1 = (file.changeNames changes).1 ∧
      (file.changeNames changes).2.LooksLike (file'.changeNames changes).2) ∧
    (file.changeNames mirroredChanges).2.rules.map (·.condition.text (file.changeNames mirroredChanges).2.tokens) =
    ["true", "c and #t > 1"] := by
  obtain ⟨file, done, run⟩ := yields_iff.mp mirrored_rule
  simp only [List.any_eq_true, Bool.and_eq_true, beq_iff_eq] at run
  obtain ⟨⟨rule, member, _, own⟩, renamed⟩ := run
  obtain ⟨file', replaced, alike, later⟩ := Read.copies_unnoticed (.ofSource done) member own (fun _ _ _ => true) none
  exact ⟨file, rule, file', done, member, own, replaced, alike, later, renamed⟩

end RuleFile

end YaraRules
