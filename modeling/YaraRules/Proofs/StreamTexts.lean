import YaraRules.Grammar.Basic
import YaraRules.Proofs.StreamOwners

/-! Texts of a stream, and its tokens in order, while tokens change. A token is written by
its own literal or by that of the token it is an alias of. -/

namespace YaraRules.TokenStream

/-- The token is written by its own literal. -/
def Plain (a : Token) : Prop := a.literal.aliasTarget? = none

theorem plain_written {kind : TokenKind} {text : String} : Plain { kind, literal := .ofWritten text } := rfl

theorem textOf_plain (s : TokenStream) {a : Token} (plain : Plain a) :
    s.textOf a = writtenAs a.kind a.literal.text := by
  rw [textOf, show a.literal.aliasTarget? = none from plain]

theorem resolve?_plain {s : TokenStream} {h : Handle} {a : Token} (found : s.get? h = some a) (plain : Plain a) :
    s.resolve? h = some a.literal := by
  simp [resolve?, found, resolveFrom, show a.literal.aliasTarget? = none from plain]

theorem textOf_alias (s : TokenStream) {a b : Token} {target : Handle}
    (aliased : a.literal.aliasTarget? = some target) (found : s.get? target = some b) (plain : Plain b) :
    s.textOf a = writtenAs a.kind b.literal.text := by
  rw [textOf, aliased]
  simp [resolve?_plain found plain]

theorem text_eq (s : TokenStream) {h : Handle} {a : Token} (found : s.get? h = some a) : s.text h = s.textOf a := by
  rw [text, found]

theorem aliasOf_plain (s : TokenStream) {h : Handle} {a : Token} (found : s.get? h = some a) (plain : Plain a) :
    s.aliasOf h = .ofAlias h := by
  simp [aliasOf, found, show a.literal.aliasTarget? = none from plain]

end YaraRules.TokenStream

namespace YaraRules.Chain

variable {α : Type} (c : Chain α) (h : Handle) (f : α → α)

/-- An entry after the item of `h` was changed. -/
def touch (entry : Handle × α) : Handle × α := if entry.1 = h then (entry.1, f entry.2) else entry

private theorem walk_modify (last : Option Nat) : ∀ (fuel : Nat) (current : Option Nat),
    (c.modify h f).walk last fuel current = (c.walk last fuel current).map (touch h f)
  | 0, _ => rfl
  | fuel + 1, none => rfl
  | fuel + 1, some index => by
    have same : (c.modify h f).handle index = c.handle index := handle_modify c h f index
    rw [walk, walk, slots_modify]
    cases at_ : c.slots[index]? with
    | none => rfl
    | some slot =>
      cases held : slot.item with
      | none => split_ifs <;> simp [held]
      | some item =>
        have later := walk_modify last fuel slot.next
        by_cases here : c.index? h = some index
        · have named : c.handle index = h := handle_of_index? here
          simp only [Option.map_some, if_pos here, held, same, named, later]
          split_ifs <;> simp [touch]
        · have other : c.handle index ≠ h := by
            intro named
            apply here
            rw [← named]
            simp [index?, handle, generationAt, at_, held]
          simp only [Option.map_some, if_neg here, held, same, later]
          split_ifs <;> simp [touch, other]

private theorem entries_modify : (c.modify h f).entries = c.entries.map (touch h f) := by
  have same : (c.modify h f).slots.size = c.slots.size ∧ (c.modify h f).head = c.head := by
    unfold modify
    cases c.index? h <;> simp [modifyAt]
  rw [entries, entries, same.1, same.2, walk_modify]

theorem get?_of_walk {last : Option Nat} {entry : Handle × α} : ∀ {fuel : Nat} {current : Option Nat},
    entry ∈ c.walk last fuel current → entry.1.chain = c.id ∧ c.get? entry.1 = some entry.2
  | 0, _, member => by cases member
  | fuel + 1, none, member => by cases member
  | fuel + 1, some index, member => by
    rw [walk] at member
    cases at_ : c.slots[index]? with
    | none => simp [at_] at member
    | some slot =>
      cases held : slot.item with
      | none => simp [at_, held] at member
      | some item =>
        simp only [at_, held] at member
        rcases List.mem_cons.mp member with same | later
        · rw [same]
          refine ⟨rfl, ?_⟩
          simp [get?, index?, itemAt?, handle, generationAt, at_, held]
        · split_ifs at later
          · cases later
          · exact get?_of_walk later

end YaraRules.Chain

namespace YaraRules.TokenStream

theorem range_eq (s : TokenStream) (first last : Handle) :
    s.range first last =
      match s.chainOf? first.chain with
      | some chain =>
        match chain.index? first, chain.index? last with
        | some i, some j => .ok (chain.entriesBetween i j)
        | none, _ => .error (.invalidHandle first)
        | some _, none => .error (.invalidHandle last)
      | none => .error (.invalidHandle first) := by
  unfold range checkedOwner chainOf?
  cases s.owner? first.chain with
  | none => rfl
  | some owner =>
    simp only [Option.map_some, checkedIndex, bind, Except.bind]
    cases owner.chain.index? first with
    | none => rfl
    | some i =>
      cases owner.chain.index? last with
      | none => rfl
      | some j => rfl

/-- A change keeps the tokens in their order. -/
theorem handles_modify (s : TokenStream) (h : Handle) (f : Token → Token) :
    (s.modify h f).entries.map (·.1) = s.entries.map (·.1) := by
  have same : (·.1) ∘ Chain.touch h f = ((·.1) : Handle × Token → Handle) := by
    funext entry
    simp only [Function.comp, Chain.touch]
    split_ifs <;> rfl
  cases s
  rw [modify_eq, modifyOwner]
  split_ifs
  · show ((Chain.modify _ h f).entries.map (·.1)) = _
    rw [Chain.entries_modify, List.map_map, same]
    rfl
  · rfl

end YaraRules.TokenStream
