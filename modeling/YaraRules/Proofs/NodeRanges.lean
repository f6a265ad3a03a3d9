import YaraRules.Proofs.CodeMoves
import YaraRules.Proofs.RuleRows

/-! Ranges of tokens in a condition. The tokens that a node holds stand in the stream in
order, so they span a range, and the ranges of the children of a node lie in its
range one behind the other. -/

namespace YaraRules

open TokenStream (rangeHandles_owner)

/-! ### Parts of a list -/

/-- A row that a list has among its items spans a part of the list. -/
theorem exists_span {α : Type} {row list : List α} (listed : row.Sublist list) (nonempty : row ≠ []) :
    ∃ part, part <:+: list ∧ part.head? = row.head? ∧ part.getLast? = row.getLast? ∧ row.Sublist part := by
  induction listed with
  | slnil => exact absurd rfl nonempty
  | cons a _ ih =>
    obtain ⟨part, inside, ends⟩ := ih nonempty
    exact ⟨part, inside.trans (List.suffix_cons a _).isInfix, ends⟩
  | @cons_cons rest list a later ih =>
    by_cases single : rest = []
    · subst single
      exact ⟨[a], ⟨[], list, rfl⟩, rfl, rfl, .refl _⟩
    · obtain ⟨part, ⟨ahead, behind, rfl⟩, begins, ends, within⟩ := ih single
      refine ⟨a :: (ahead ++ part), ⟨[], behind, by simp⟩, rfl, ?_, ?_⟩
      · obtain ⟨last, final⟩ : ∃ last, rest.getLast? = some last := ⟨_, List.getLast?_eq_some_getLast single⟩
        rw [final] at ends
        simp [List.getLast?_cons, final, List.getLast?_append, ends]
      · exact (within.trans (List.sublist_append_right _ _)).cons_cons a

private theorem exists_spans {α : Type} {list : List α} (rows : List (List α)) (nonempty : ∀ row ∈ rows, row ≠ [])
    (listed : rows.flatten.Sublist list) : ∃ parts : List (List α), parts.flatten.Sublist list ∧
      List.Forall₂ (fun row part => part <:+: list ∧ part.head? = row.head? ∧
      part.getLast? = row.getLast?) rows parts := by
  induction rows generalizing list with
  | nil => exact ⟨[], List.nil_sublist _, .nil⟩
  | cons row rest ih =>
    obtain ⟨here, there, rfl, first, others⟩ := List.append_sublist_iff.mp (List.flatten_cons ▸ listed)
    obtain ⟨part, inside, begins, ends, _⟩ := exists_span first (nonempty row (by simp))
    obtain ⟨parts, within, spans⟩ := ih (fun row member => nonempty row (by simp [member])) others
    refine ⟨part :: parts, by simpa using inside.sublist.append within, .cons ⟨?_, begins, ends⟩ ?_⟩
    · exact inside.trans (List.prefix_append here there).isInfix
    · exact spans.imp fun row part ⟨inside, ends⟩ => ⟨inside.trans (List.suffix_append here there).isInfix, ends⟩

/-- A part of the tokens of a stream is the range from its first token to its last. -/
theorem TokenStream.Sound.rangeHandles_part {s : TokenStream} (sound : s.Sound) {part : List Handle}
    (inside : part <:+: s.entries.map (·.1)) {first last : Handle} (begins : part.head? = some first)
    (ends : part.getLast? = some last) : s.rangeHandles first last = .ok part := by
  obtain ⟨ahead, behind, whole⟩ := inside
  have view : s.view.map (·.1) = ahead ++ (part ++ behind) := by
    rw [← List.append_assoc, whole, TokenStream.view, List.map_map]
    rfl
  obtain ⟨front, rest, split, _, tail⟩ := List.map_eq_append_iff.mp view
  obtain ⟨middle, back, rfl, rfl, _⟩ := List.map_eq_append_iff.mp tail
  rw [List.head?_map] at begins
  rw [List.getLast?_map] at ends
  exact sound.rangeHandles_ok split ⟨begins, ends⟩

/-! ### Nodes -/

namespace Expr

private theorem child_sublist {e child : Expr} (member : child ∈ e.children) : child.handles.Sublist e.handles := by
  refine .trans ?_ e.children_sublist
  rw [List.flatMap_def]
  exact List.sublist_flatten_of_mem (List.mem_map_of_mem member)

private theorem nodesFrom_sublist (e : Expr) :
    ∀ depth, ∀ node ∈ e.nodesFrom depth, node.2.handles.Sublist e.handles := by
  induction e using by_children with
  | step e below =>
    intro depth node member
    rw [nodesFrom_eq, List.mem_cons, List.mem_flatMap] at member
    rcases member with rfl | ⟨child, inside, deeper⟩
    · exact .refl _
    · exact (below child inside _ node deeper).trans (child_sublist inside)

/-- A node holds a part of the row of the condition. -/
theorem self_node (e : Expr) : (0, e) ∈ e.nodes := by
  rw [show e.nodes = e.nodesFrom 0 from rfl, nodesFrom_eq]
  exact List.mem_cons_self

theorem node_sublist {e : Expr} {node : Nat × Expr} (member : node ∈ e.nodes) : node.2.handles.Sublist e.handles :=
  nodesFrom_sublist e 0 node member

/-- The tokens from the first of a node to its last can be told, and those of its children
are among them, in order and apart from one another. -/
def Ranged (tokens : TokenStream) (e : Expr) : Prop :=
  ∃ range, tokens.rangeHandles e.first e.last = .ok range ∧ range.Nodup ∧ ∃ parts : List (List Handle),
    List.Forall₂ (fun child part => tokens.rangeHandles child.first child.last = .ok part) e.children parts ∧
      parts.flatten.Sublist range

theorem ranged {tokens stream : TokenStream} {id : ChainId} (sound : stream.Sound)
    (held : tokens.owner? id = some stream) {e : Expr} (chain : ∀ h ∈ e.handles, h.chain = id)
    (stored : e.handles.Sublist (stream.entries.map (·.1))) : e.Ranged tokens := by
  have owned {node : Expr} (within : node.handles.Sublist e.handles) {part : List Handle}
      (inside : part <:+: stream.entries.map (·.1)) (begins : part.head? = some node.first)
      (ends : part.getLast? = some node.last) : tokens.rangeHandles node.first node.last = .ok part := by
    have first : node.first.chain = id := chain _ (within.subset (List.mem_of_head? node.head?_handles))
    rw [rangeHandles_owner (first.symm ▸ held)]
    exact sound.rangeHandles_part inside begins ends
  obtain ⟨range, inside, begins, ends, covered⟩ := exists_span stored e.handles_ne_nil
  rw [e.head?_handles] at begins
  rw [e.getLast?_handles] at ends
  refine ⟨range, owned (.refl _) inside begins ends, inside.sublist.nodup sound.chain.handles_nodup, ?_⟩
  obtain ⟨parts, within, spans⟩ := exists_spans (e.children.map handles) (by simp [handles_ne_nil])
    (e.children_sublist.trans covered)
  refine ⟨parts, ?_, within⟩
  rw [List.forall₂_map_left_iff, List.forall₂_iff_zip] at spans
  refine List.forall₂_iff_zip.mpr ⟨spans.1, fun {child part} member => ?_⟩
  obtain ⟨inside', begins', ends'⟩ := spans.2 member
  exact owned (child_sublist (List.of_mem_zip member).1) (inside'.trans inside) (begins'.trans child.head?_handles)
    (ends'.trans child.getLast?_handles)

end Expr

/-! ### Rules -/

theorem StringModifier.mem_row {m : StringModifier} {h : Handle} (held : h ∈ m.handles) : h ∈ m.row := by
  unfold row spanRow
  split_ifs with same <;> simpa [handles, same] using held

theorem StringDefinition.mem_row {s : StringDefinition} {h : Handle} (held : h ∈ s.handles) : h ∈ s.row := by
  simp only [handles, row, List.mem_cons, List.mem_append, List.mem_flatMap, List.not_mem_nil, or_false,
    or_assoc] at held ⊢
  rcases held with id | assign | content | ⟨m, member, inside⟩
  · exact .inl id
  · exact .inr (.inl assign)
  · exact .inr (.inr (.inl content))
  · exact .inr (.inr (.inr ⟨m, member, m.mem_row inside⟩))

/-- Every token that a rule holds is in its row. -/
theorem Rule.mem_row {r : Rule} {h : Handle} (held : h ∈ r.handles) : h ∈ r.row := by
  have strings : h ∈ r.strings.values.flatMap StringDefinition.handles →
      h ∈ r.strings.values.flatMap StringDefinition.row := by
    simp only [List.mem_flatMap]
    exact fun ⟨s, member, inside⟩ => ⟨s, member, s.mem_row inside⟩
  simp only [handles, row, tagRow, bodyRow, metaRow, stringRow, conditionRow, headerRow, List.mem_append, List.mem_cons]
    at held ⊢
  grind

/-- The tokens that a rule holds are stored in one stream, each in its place, and the nodes
of its condition have their ranges. -/
structure Rule.Alive (tokens : TokenStream) (r : Rule) : Prop where
  /-- Where the tokens are, none of them twice, and in which order. -/
  stored : ∃ stream, tokens.owner? r.keyword.chain = some stream ∧ (stream.entries.map (·.1)).Nodup ∧
    r.row.Sublist (stream.entries.map (·.1)) ∧
    ∀ h ∈ r.handles, h ∈ r.row ∧ ∃ token, tokens.get? h = some token ∧ (h, token) ∈ stream.entries
  ranges : ∀ node ∈ r.condition.nodes, node.2.Ranged tokens

theorem TokenStream.Tidy.alive {tokens : TokenStream} (tidy : tokens.Tidy) {r : Rule}
    (listed : r.row.Sublist tokens.code) {id : ChainId} (chain : ∀ h ∈ r.row, h.chain = id) : r.Alive tokens := by
  have own : r.keyword.chain = id := chain _ (by simp [Rule.row])
  have nonempty : r.row ≠ [] := by simp [Rule.row]
  obtain ⟨stream, held, inside⟩ := tidy.sound.sublist_entries tidy.distinct nonempty chain
    (listed.trans (TokenStream.codeOf_sublist _))
  have sound := tidy.sound.owner? held
  refine ⟨⟨stream, own ▸ held, sound.chain.handles_nodup, inside, fun h member => ⟨r.mem_row member, ?_⟩⟩, ?_⟩
  · obtain ⟨⟨h', token⟩, stored, rfl⟩ := List.mem_map.mp (inside.subset (r.mem_row member))
    refine ⟨token, (tidy.sound.get?_eq_some _ _).mpr ⟨stream, ?_, stored⟩, stored⟩
    rw [chain _ (r.mem_row member)]
    exact held
  · intro node member
    have part := (Expr.node_sublist member).trans r.condition_sublist
    exact Expr.ranged sound held (fun h within => chain h (part.subset within)) (part.trans inside)

end YaraRules
