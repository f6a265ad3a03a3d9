import YaraRules.Proofs.HexDrafts
import YaraRules.Proofs.HexReadings
import YaraRules.Proofs.Outcomes
import YaraRules.Proofs.ReadConditionBounds
import YaraRules.Proofs.ReadRuleForms

/-! Bounds of jumps and ranges in the rules of a file that was read. -/

namespace YaraRules

variable {pair : Handle × Handle}

/-! ### Tokens of bounds -/

private theorem Expr.bounds_handles {e : Expr} (member : pair ∈ e.bounds) :
    pair.1 ∈ e.handles ∧ pair.2 ∈ e.handles := by
  obtain ⟨⟨depth, node⟩, below, own⟩ := List.mem_flatMap.mp member
  have held : pair.1 ∈ node.handles ∧ pair.2 ∈ node.handles := by
    dsimp only at own
    unfold ownBounds at own
    split at own
    · obtain rfl := List.mem_singleton.mp own
      simp [handles]
    · cases own
  exact ⟨(node_sublist below).subset held.1, (node_sublist below).subset held.2⟩

namespace HexUnit

mutual

private theorem jumps_handles : ∀ {unit : HexUnit}, pair ∈ unit.jumps → pair.1 ∈ unit.handles ∧ pair.2 ∈ unit.handles
  | byte _, member => by simp [jumps] at member
  | jump _ low _ high _, member => by
    cases low <;> cases high <;> simp_all [jumps, handles]
  | alternation _ alternatives _, member => by
    have inside : pair ∈ jumpsAmong alternatives := by simpa [jumps] using member
    simp [handles, jumpsAmong_handles inside]

private theorem jumpsAll_handles : ∀ {units : List HexUnit}, pair ∈ jumpsAll units → pair.1 ∈ handlesAll units ∧
    pair.2 ∈ handlesAll units
  | [], member => by simp [jumpsAll] at member
  | unit :: rest, member => by
    rcases List.mem_append.mp (show pair ∈ unit.jumps ++ jumpsAll rest from member) with here | later
    · simp [handlesAll, jumps_handles here]
    · simp [handlesAll, jumpsAll_handles later]

private theorem jumpsAmong_handles : ∀ {alternatives : List (List HexUnit)}, pair ∈ jumpsAmong alternatives →
    pair.1 ∈ handlesAmong alternatives ∧ pair.2 ∈ handlesAmong alternatives
  | [], member => by simp [jumpsAmong] at member
  | units :: rest, member => by
    rcases List.mem_append.mp (show pair ∈ jumpsAll units ++ jumpsAmong rest from member) with here | later
    · simp [handlesAmong, jumpsAll_handles here]
    · simp [handlesAmong, jumpsAmong_handles later]

end

end HexUnit

private theorem StringContent.jumps_handles {content : StringContent} (member : pair ∈ content.jumps) :
    pair.1 ∈ content.handles ∧ pair.2 ∈ content.handles := by
  cases content with
  | plain token => cases member
  | regexp token regexp => cases member
  | hex string =>
    obtain ⟨low, high⟩ := HexUnit.jumpsAll_handles (show pair ∈ HexUnit.jumpsAll string.units from member)
    simp [handles, HexString.handles, low, high]

theorem Rule.content_row {rule : Rule} {string : StringDefinition} (listed : string ∈ rule.strings.values) {h : Handle}
    (held : h ∈ string.content.handles) : h ∈ rule.row := by
  have among : h ∈ rule.stringRow :=
    List.mem_append_right _ (List.mem_flatMap.mpr ⟨string, listed, by simp [StringDefinition.row, held]⟩)
  simp [row, bodyRow, among]

private theorem Rule.bounds_row {rule : Rule} (member : pair ∈ rule.bounds) :
    pair.1 ∈ rule.row ∧ pair.2 ∈ rule.row := by
  rcases List.mem_append.mp member with jump | range
  · obtain ⟨string, listed, inside⟩ := List.mem_flatMap.mp jump
    obtain ⟨low, high⟩ := StringContent.jumps_handles inside
    exact ⟨content_row listed low, content_row listed high⟩
  · obtain ⟨low, high⟩ := Expr.bounds_handles range
    exact ⟨Grammar.sight_tokens rule (.inl low), Grammar.sight_tokens rule (.inl high)⟩

namespace Grammar

variable {l : Ledger} {roles : List Role} {others : List Handle} {s s' : State}

/-! ### Rules -/

private theorem ruleHead_orders : Ensures (Linking l roles others) ruleHead fun _ => Ordered [] := by
  refine .skip (fun _ => rfl) fun bound => .bind (ruleModifiers_links bound []).passes fun modifiers => ?_
  refine .bind (expect_links _).passes fun keyword => .bind (expect_ensures _) fun name =>
    .bind (modify_ensures fun _ own => own) fun _ => ?_
  refine .skip (fun _ => rfl) fun text => .skip (fun _ => rfl)
    fun s => .ite (fun _ => .never (.bind (never_fail _ _) _)) fun _ => ?_
  refine .bind tags_links.passes fun (tagColon, tags) => .bind (expect_ensures _) fun opening =>
    .bind (modify_ensures fun _ own => own) fun _ => ?_
  refine .bind (m := fun _ => Linking { l with strings := {} } roles (opening :: name :: others))
    (.modify fun s link => ?_) fun _ => ?_
  · exact link.restock (t := { s with strings := {}, scopes := [], stringLoops := 0 }) rfl rfl rfl rfl nofun
  refine .bind (m := fun _ => Ordered []) (optionalMetas_links.passes.weaken fun _ s link => ?_)
    fun (metaSection, metas) => ?_
  · have none : s.strings = {} := link.strings
    intro pair member
    rw [State.jumps, none] at member
    cases member
  · show Orders [] _ fun _ => []
    refine .bind optionalStrings_orders fun stringSection => .bind (expect_orders _) fun keyword' => ?_
    exact .bind (expect_orders _) fun colon => .pure (List.nil_subset _)

private theorem ruleTail_orders (head : RuleHead) (condition : Expr) : Ensures (Ordered condition.bounds)
    (ruleTail head condition) fun rule s => ∀ pair ∈ rule.bounds, s.source.tokens.InOrder pair := by
  refine .bind (expect_orders _) fun closing => .bind (refine_orders _ _) fun _ => ?_
  refine .skip (fun _ => rfl) fun start => .skip (fun _ => rfl) fun stop => .skip (fun _ => rfl) fun text => ?_
  rintro s rule s' ⟨⟩ ordered pair member
  exact ordered pair (List.mem_append.mpr (List.mem_append.mp member).symm)

private theorem rule_bounded {rule : Rule} (link : Linking l roles [] s) (done : Grammar.rule s = .ok (rule, s')) :
    ∀ pair ∈ rule.bounds, s'.source.tokens.InOrder pair := by
  obtain ⟨head, s₁, began, run⟩ := bind_done done
  obtain ⟨condition, s₂, read, run⟩ := bind_done run
  have ordered := condition_orders s₁ condition s₂ read (ruleHead_orders s head s₁ began link)
  exact ruleTail_orders head condition s₂ rule s' run (ordered.fewer (List.subset_append_left _ _))

private theorem Forth.inOrder (forth : Forth s s') {low high : Handle} (known : s.HasRead low) (known' : s.HasRead high)
    (order : s.source.tokens.InOrder (low, high)) : s'.source.tokens.InOrder (low, high) := by
  intro m n first second
  rw [TokenStream.number?, forth.same low known] at first
  rw [TokenStream.number?, forth.same high known'] at second
  exact order m n first second

end Grammar

namespace RuleFile

variable {file : RuleFile} {rule : Rule}

private theorem Read.bounds_inOrder (read : file.Read) (member : rule ∈ file.rules) :
    ∀ pair ∈ rule.bounds, file.tokens.InOrder pair := by
  obtain ⟨_, _, _, _, _, fresh, untouched, done⟩ := read.source
  refine Grammar.readSource_each (fun rule tokens => ∀ pair ∈ rule.bounds, tokens.InOrder pair) fresh untouched done
    (fun link _ => Grammar.rule_bounded link) (fun forth known ordered pair inside => ?_) rule member
  obtain ⟨low, high⟩ := Rule.bounds_row inside
  exact forth.inOrder (known _ low) (known _ high) (ordered pair inside)

/-- Jumps and ranges that were read have their bounds in order, unless the lower one is too large to be compared. With
this exception a jump between two bounds is read, in whatever form they are written, if and only if it can be built. -/
theorem Read.bounds_ordered (id : ChainId) :
    (∀ file : RuleFile, file.Read → ∀ rule ∈ file.rules, ∀ pair ∈ rule.bounds, file.tokens.InOrder pair) ∧
    ∀ (low high : JumpBound) (l h : UInt64), low.Sound → high.Sound → low.number = some (l.toNat : Int) →
      high.number = some (h.toNat : Int) → ∀ (s : Grammar.State) (row rest : List Handle), s.source.rest = row ++ rest →
      List.Forall₂ (Stands s.source.tokens) (HexTree.jump (some low) true (some high)).words row →
      ((∃ unit s', Grammar.hexJump s = .ok (unit, s')) ↔
        (∃ hex, HexDraft.build id [.jumpBetween l h] = .ok hex) ∨ Literal.signedLimit ≤ l.toNat) := by
  refine ⟨fun file read rule member => read.bounds_inOrder member,
    fun low high l h low_sound high_sound first second s row rest waiting stand => ?_⟩
  rw [Grammar.hexJump_iff low_sound high_sound stand waiting, HexDraft.between_built, UInt64.le_iff_toNat_le]
  constructor
  · intro order
    exact (order _ _ first second).imp Int.ofNat_le.mp Int.ofNat_le.mp
  · intro order m n same same'
    obtain rfl := Option.some.inj (first.symm.trans same)
    obtain rfl := Option.some.inj (second.symm.trans same')
    exact order.imp Int.ofNat_le.mpr Int.ofNat_le.mpr

/-- A rule with two jumps and a range. The lower bound of the second jump is too large to be compared. -/
def boundedContent : Bytes := Bytes.ofText
  "rule a \x7b strings: $s = \x7b 00 [2-10] 00 [9223372036854775808-1] 00 \x7d condition: $s in (2..18446744073709551615) \x7d"

private theorem bounded_rule : yields (RuleFile.ofSource {} {} 0 boundedContent) (fun file =>
    file.rules.any fun rule => rule.bounds.map (fun pair => (file.tokens.number? pair.1, file.tokens.number? pair.2)) ==
      [(some 2, some 10), (some 9223372036854775808, some 1), (some 2, some 18446744073709551615)]) = true := by
  decide +kernel

/-- A jump that cannot be built, as its bounds are in the wrong order. -/
def wideJump : HexTree := .jump (some (HexDraft.bound 9223372036854775808)) true (some (HexDraft.bound 1))

private theorem wideJump_stands : ∃ (s : Grammar.State) (row rest : List Handle), s.source.rest = row ++ rest ∧
    List.Forall₂ (Stands s.source.tokens) wideJump.words row := by
  have sound : wideJump.Sound := by
    refine .range ?_ ?_ ?_
    · rintro _ ⟨⟩
      exact HexDraft.bound_sound _
    · rintro _ ⟨⟩
      exact HexDraft.bound_sound _
    · rintro _ ⟨⟩ _ ⟨⟩ _ _ ⟨⟩ _
      exact .inr (by decide)
  obtain ⟨source, _, _, stand⟩ := @Grammar.definition_stands "$s" (by decide +kernel) [wideJump] (by simp)
    (List.forall_mem_singleton.mpr sound) 0
  obtain ⟨_, _, _, stand, _⟩ := List.forall₂_cons_left_iff.mp stand
  obtain ⟨_, _, _, stand, _⟩ := List.forall₂_cons_left_iff.mp stand
  obtain ⟨_, row, _, stand, _⟩ := List.forall₂_cons_left_iff.mp stand
  rw [HexTree.wordsAll, HexTree.wordsAll, List.append_nil] at stand
  obtain ⟨row, rest, rfl, stand, _⟩ := TokenStream.forall₂_parts stand
  exact ⟨(Grammar.State.first {} {} source 1 []).leave (row ++ rest), row, rest, rfl, stand⟩

theorem bounds_ordered_below : (∃ (file : RuleFile) (rule : Rule), RuleFile.ofSource {}
      {} 0 boundedContent = .ok file ∧ rule ∈ file.rules ∧
      rule.bounds.map (fun pair => (file.tokens.number? pair.1, file.tokens.number? pair.2)) =
        [(some 2, some 10), (some 9223372036854775808, some 1), (some 2, some 18446744073709551615)] ∧
      ∀ pair ∈ rule.bounds, file.tokens.InOrder pair) ∧
    (¬∃ hex, HexDraft.build 0 [.jumpBetween 9223372036854775808 1] = .ok hex) ∧
    ∃ (s : Grammar.State) (row rest : List Handle), s.source.rest = row ++ rest ∧
      List.Forall₂ (Stands s.source.tokens) wideJump.words row ∧ ∃ unit s', Grammar.hexJump s = .ok (unit, s') := by
  refine ⟨?_, ?_, ?_⟩
  · obtain ⟨file, done, run⟩ := yields_iff.mp bounded_rule
    obtain ⟨rule, member, numbers⟩ := List.any_eq_true.mp run
    exact ⟨file, rule, done, member, eq_of_beq numbers, (Read.bounds_ordered 0).1 file (.ofSource done) rule member⟩
  · rw [HexDraft.between_built]
    decide
  · obtain ⟨s, row, rest, waiting, stand⟩ := wideJump_stands
    have reads := (Read.bounds_ordered 0).2 (HexDraft.bound 9223372036854775808) (HexDraft.bound 1)
      9223372036854775808 1 (HexDraft.bound_sound _) (HexDraft.bound_sound _) rfl rfl s row rest waiting stand
    exact ⟨s, row, rest, waiting, stand, reads.mpr (.inr (by decide))⟩

end RuleFile

end YaraRules
