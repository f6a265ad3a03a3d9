import YaraRules.Layout.Item
import YaraRules.Proofs.ReadTexts
import YaraRules.Proofs.StringRenames

/-! Items of files that were read. A name in a condition is written like the token that it follows,
which its own stream holds, so items have texts that fit even where the content of an
included file is laid out by itself. -/

namespace YaraRules

open TokenStream (Plain)

/-! ### Aliases -/

private theorem RuleFile.Read.alias_seen {file : RuleFile} (read : file.Read) {h target : Handle} {a : Token}
    (stored : file.tokens.get? h = some a) (points : a.literal.aliasTarget? = some target) :
    file.tokens.Sees h target ∧ ∃ b, file.tokens.get? target = some b ∧ Plain b ∧ Text.Firm b.literal.text := by
  have linked := read.linked
  have firm {b : Token} (held : file.tokens.get? target = some b) (plain : Plain b)
    (kind : b.kind = .ruleName ∨ b.kind = .stringDefinition) :
      Text.Firm b.literal.text := by
    have fits := read.spoken target b held plain
    rcases kind with kind | kind <;> (rw [Grammar.shown, kind] at fits; exact fits)
  rcases linked.aliases h a target stored points with ⟨use, text, named⟩ | ⟨⟨strings, use⟩, named⟩
  · obtain ⟨b, held, kind, plain, _⟩ := linked.placed _ named
    obtain ⟨c, found, _, symbol | ⟨rule, _, ⟨same, sees⟩ | ⟨own, _⟩⟩⟩ := linked.placed _ use
    all_goals obtain rfl := Option.some.inj (stored.symm.trans found)
    · cases value : a.literal.value <;> simp [Literal.asSymbol?, Literal.aliasTarget?, value] at symbol points
    · obtain rfl := Option.some.inj (same.symm.trans points)
      exact ⟨sees, b, held, plain, firm held plain (.inl kind)⟩
    · cases (show a.literal.aliasTarget? = none from own).symm.trans points
  · obtain ⟨b, held, kind, plain⟩ := linked.placed _ named
    obtain ⟨rule, member, inside, ⟨symbol, _⟩ | known⟩ := linked.alias_of_condition stored points
    · obtain ⟨c, found, refers, _⟩ := linked.placed _ use
      obtain rfl := Option.some.inj (stored.symm.trans found)
      simp [Grammar.Refers, symbol] at refers
    · -- A string and what refers to it are tokens of one rule.
      have ordered := read.reachable.ordered
      have row : target ∈ rule.row := rule.row_eq ▸ List.mem_append_left _ (rule.ids_head known)
      have same : target.chain = h.chain :=
        (ordered.row_chain member row).trans (ordered.row_chain member (rule.condition_sublist.subset inside)).symm
      obtain ⟨owner, owned⟩ := TokenStream.owner?_of_mem_ids (TokenStream.mem_ids_of_get? stored)
      refine ⟨⟨owner, owned, ?_⟩, b, held, plain, firm held plain (.inr kind)⟩
      rw [same, ← TokenStream.id_of_owner? owned]
      exact owner.id_mem_ids

/-! ### Streams -/

namespace TokenStream

/-- Every token of a stream shows a text that fits. -/
structure Voiced (s : TokenStream) : Prop where
  sound : s.Sound
  distinct : s.ids.Nodup
  spoken : s.Spoken
  aliases : ∀ h a target, s.get? h = some a → a.literal.aliasTarget? = some target →
    s.Sees h target ∧ ∃ b, s.get? target = some b ∧ Plain b ∧ Text.Firm b.literal.text

private theorem ownerAmong?_member {sub : TokenStream} {index : Nat} {id : ChainId} (inside : id ∈ sub.ids) :
    ∀ {nested : List (Nat × Option TokenStream)}, (idsAmong nested).Nodup → (index, some sub) ∈ nested →
      ownerAmong? id nested = sub.owner? id
  | (place, none) :: rest, distinct, member => by
    have later := (List.mem_cons.mp member).resolve_left nofun
    rw [ownerAmong?]
    exact ownerAmong?_member inside (by simpa [idsAmong] using distinct) later
  | (place, some other) :: rest, distinct, member => by
    obtain ⟨_, others, apart⟩ := List.nodup_append'.mp (show (other.ids ++ idsAmong rest).Nodup from distinct)
    rw [ownerAmong?]
    rcases List.mem_cons.mp member with same | later
    · cases same
      obtain ⟨owner, held⟩ := owner?_of_mem_ids inside
      rw [held]
    · have below := ownerAmong?_member inside others later
      cases held : other.owner? id with
      | none => exact below
      | some owner =>
        obtain ⟨owner', held'⟩ := owner?_of_mem_ids inside
        exact absurd (mem_ids_of_ownerAmong? (below.trans held')) (apart (mem_ids_of_owner? held))

private theorem owner?_member {chain : Chain Token} {nested : List (Nat × Option TokenStream)} {sub : TokenStream}
    {index : Nat} {id : ChainId} (distinct : (ids ⟨chain, nested⟩).Nodup) (member : (index, some sub) ∈ nested)
    (inside : id ∈ sub.ids) : owner? id ⟨chain, nested⟩ = sub.owner? id := by
  obtain ⟨top, others⟩ := List.nodup_cons.mp (show (chain.id :: idsAmong nested).Nodup from distinct)
  have among := ownerAmong?_member inside others member
  obtain ⟨owner, held⟩ := owner?_of_mem_ids inside
  have apart : chain.id ≠ id := fun same => top (same ▸ mem_ids_of_ownerAmong? (among.trans held))
  rw [owner?, if_neg apart, among]

namespace Voiced

variable {chain : Chain Token} {nested : List (Nat × Option TokenStream)} {sub : TokenStream} {index : Nat}
    {s : TokenStream}

/-- So does every token of a stream that one of them owns. -/
theorem below (voiced : Voiced ⟨chain, nested⟩) (member : (index, some sub) ∈ nested) : sub.Voiced := by
  have owners (id : ChainId) (inside : id ∈ sub.ids) : owner? id ⟨chain, nested⟩ = sub.owner? id :=
    owner?_member voiced.distinct member inside
  have held : owner? sub.chain.id ⟨chain, nested⟩ = some sub := (owners _ sub.id_mem_ids).trans (owner?_self sub)
  have same (h : Handle) (inside : h.chain ∈ sub.ids) : get? ⟨chain, nested⟩ h = sub.get? h := by
    rw [get?, owners h.chain inside, get?]
  refine ⟨voiced.sound.owner? held, distinct_owner voiced.distinct held, fun h a stored =>
    ?_, fun h a target stored points => ?_⟩
  · exact voiced.spoken h a ((same h (mem_ids_of_get? stored)).trans stored)
  · have inside := mem_ids_of_get? stored
    obtain ⟨⟨owner, owned, reached⟩, b, found, plain, firm⟩ :=
      voiced.aliases h a target ((same h inside).trans stored) points
    have sees : sub.Sees h target := ⟨owner, (owners _ inside).symm.trans owned, reached⟩
    exact ⟨sees, b, (same target sees.mem_ids).symm.trans found, plain, firm⟩

theorem fits (voiced : s.Voiced) {entry : Handle × Token} (member : entry ∈ s.entries) :
    entry.2.kind.Fits (s.textOf entry.2) := by
  have stored : s.get? entry.1 = some entry.2 := by
    rw [get?_top s (voiced.sound.chain.chain_eq member)]
    exact (voiced.sound.chain.get?_eq_some _ _).mpr member
  cases points : entry.2.literal.aliasTarget? with
  | none =>
    rw [textOf_plain s points]
    exact voiced.spoken _ _ stored points
  | some target =>
    obtain ⟨_, b, held, plain, firm⟩ := voiced.aliases _ _ target stored points
    rw [textOf_alias s points held plain]
    exact TokenKind.fits_of_firm (Lexer.writtenAs_firm _ firm) _

end Voiced

end TokenStream

/-! ### Items -/

namespace Layout

/-- What the text of an item is like. -/
def Item.Fits : Item → Prop
  | .lineBreak | .fileEdge => True
  | .comment oneLine _ text => if oneLine then Text.Visible text else Text.Firm text
  | .code _ text _ => Text.Firm text

variable {s : TokenStream}

private theorem itemOf_fits {token : Token} (fits : token.kind.Fits (s.textOf token)) : (itemOf s token).Fits := by
  unfold itemOf
  unfold TokenKind.Fits at fits
  split
  · trivial
  next same =>
    rw [same] at fits
    exact fits
  next same =>
    rw [same] at fits
    exact fits
  next line block comment =>
    split at fits
    next same => exact absurd same line
    next same => exact absurd same comment
    · exact fits

private theorem itemsOf_fit {included : List (Nat × List Item)}
    (inner : ∀ file ∈ included, ∀ item ∈ file.2, item.Fits) :
    ∀ (entries : List (Handle × Token)) (skipPath : Bool), (∀ entry ∈ entries, entry.2.kind.Fits (s.textOf entry.2)) →
      ∀ item ∈ itemsOf s included skipPath entries, item.Fits
  | [], _, _ => by
    rw [itemsOf]
    exact fun item member => absurd member List.not_mem_nil
  | (h, token) :: rest, skipPath, fits => by
    obtain ⟨here, later⟩ := List.forall_mem_cons.mp fits
    have bare : ∀ item ∈ itemOf s token :: itemsOf s included false rest, item.Fits :=
      List.forall_mem_cons.mpr ⟨itemOf_fits here, itemsOf_fit inner rest _ later⟩
    rw [itemsOf]
    split_ifs
    · exact itemsOf_fit inner rest _ later
    · split
      next items found =>
        obtain ⟨front, back, split, _⟩ := List.lookup_eq_some_iff.mp found
        refine List.forall_mem_cons.mpr ⟨trivial, List.forall_mem_append.mpr
          ⟨inner (h.index, items) (by simp [split]), ?_⟩⟩
        exact List.forall_mem_cons.mpr ⟨trivial, itemsOf_fit inner rest _ later⟩
      · exact bare
    · exact bare

mutual

private theorem expandedItems_fit : ∀ {s : TokenStream}, s.Voiced → ∀ item ∈ expandedItems s, item.Fits
  | ⟨chain, nested⟩, voiced => by
    rw [expandedItems]
    exact itemsOf_fit (includedItems_fit fun index sub member => voiced.below member) _ _ fun entry => voiced.fits

private theorem includedItems_fit : ∀ {nested : List (Nat × Option TokenStream)},
    (∀ index sub, (index, some sub) ∈ nested → sub.Voiced) → ∀ file ∈ includedItems nested, ∀ item ∈ file.2, item.Fits
  | [], _ => by
    rw [includedItems]
    exact fun file member => absurd member List.not_mem_nil
  | (index, some sub) :: rest, voiced => by
    rw [includedItems]
    refine List.forall_mem_cons.mpr ⟨expandedItems_fit (voiced index sub List.mem_cons_self), ?_⟩
    exact includedItems_fit fun place other member => voiced place other (List.mem_cons_of_mem _ member)
  | (index, none) :: rest, voiced => by
    rw [includedItems]
    exact includedItems_fit fun place other member => voiced place other (List.mem_cons_of_mem _ member)

end

end Layout

private theorem RuleFile.Read.voiced {file : RuleFile} (read : file.Read) : file.tokens.Voiced where
  sound := read.linked.sound
  distinct := read.linked.distinct
  spoken := read.spoken
  aliases _ _ _ := read.alias_seen

/-- The items of a file that was read have texts that fit. -/
theorem RuleFile.Read.items_fit {file : RuleFile} (read : file.Read) (expand : Bool) :
    ∀ item ∈ Layout.items file.tokens expand, item.Fits := by
  unfold Layout.items
  split_ifs
  · exact Layout.expandedItems_fit read.voiced
  · exact Layout.itemsOf_fit (fun file member => absurd member List.not_mem_nil) _ _ fun entry => read.voiced.fits

end YaraRules
