import YaraRules.Proofs.DraftRows
import YaraRules.Proofs.RangeCopies
import YaraRules.Proofs.StreamWords

/-! Where the aliases of a stream lead. A change of a stream makes no alias lead where none led before, apart
from those that come with new tokens or with tokens of another stream; and once tokens are erased, no
alias leads to them. -/

namespace YaraRules.TokenStream

variable {s middle after source copy joined : TokenStream} {h first last target : Handle} {a b token : Token}
  {handles : List Handle} {names : Renaming}

/-- An alias in the stream, at any depth, leads to the token. -/
def Targets (s : TokenStream) (target : Handle) : Prop :=
  ∃ h a, s.get? h = some a ∧ a.literal.aliasTarget? = some target

/-- There are no new streams, and aliases lead where some led before. -/
structure Follows (s after : TokenStream) : Prop where
  ids : after.ids ⊆ s.ids
  targets : ∀ target, after.Targets target → s.Targets target

namespace Follows

theorem refl (s : TokenStream) : Follows s s := ⟨List.Subset.refl _, fun _ aimed => aimed⟩

theorem trans (first : Follows s middle) (second : Follows middle after) : Follows s after :=
  ⟨List.Subset.trans second.ids first.ids, fun target aimed => first.targets target (second.targets target aimed)⟩

end Follows

/-- There are no new streams, and aliases lead where some led before or where new ones may lead. -/
structure Leans (lent : Handle → Prop) (s after : TokenStream) : Prop where
  ids : after.ids ⊆ s.ids
  targets : ∀ target, after.Targets target → s.Targets target ∨ lent target

variable {lent : Handle → Prop}

theorem Follows.leans (follows : Follows s after) : Leans lent s after :=
  ⟨follows.ids, fun target aimed => .inl (follows.targets target aimed)⟩

namespace Leans

theorem refl (s : TokenStream) : Leans lent s s := (Follows.refl s).leans

theorem trans (first : Leans lent s middle) (second : Leans lent middle after) : Leans lent s after := by
  refine ⟨List.Subset.trans second.ids first.ids, fun target aimed => ?_⟩
  rcases second.targets target aimed with before | new
  · exact first.targets target before
  · exact .inr new

end Leans

/-- What is read in a stream is all that can be looked up. -/
theorem Sound.deep_of_get? (sound : s.Sound) (distinct : s.ids.Nodup) (stored : s.get? h = some a) :
    (h, a) ∈ s.deepEntries := by
  obtain ⟨owner, held, listed⟩ := (sound.get?_eq_some _ _).mp stored
  obtain ⟨front, back, split, _⟩ := spots_modifyOwner sound held
  have inside : h ∈ s.deepEntries.map (·.1) := by
    rw [← handles_spots, split, spots_eq owner]
    simp only [List.map_append, List.mem_append, List.map_flatMap, List.mem_flatMap]
    exact .inr (.inl ⟨owner.piece (h, a), List.mem_map_of_mem listed, by simp [spotsAt, piece]⟩)
  obtain ⟨entry, member, rfl⟩ := List.mem_map.mp inside
  obtain rfl : entry.2 = a := Option.some.inj ((sound.get?_of_deep distinct member).symm.trans stored)
  exact member

/-! ### Tokens that are put in -/

theorem Plain.lends (plain : Plain token) (target : Handle) (points : token.literal.aliasTarget? = some target) :
    lent target := by
  cases plain.symm.trans points

section

variable (lends : ∀ target, token.literal.aliasTarget? = some target → lent target)
include lends

private theorem leans_of_put (ids : after.ids = s.ids)
    (found : ∀ h a, after.get? h = some a → a = token ∨ s.get? h = some a) : Leans lent s after := by
  refine ⟨ids ▸ List.Subset.refl _, fun target ⟨h, a, stored, points⟩ => ?_⟩
  rcases found h a stored with rfl | old
  · exact .inr (lends target points)
  · exact .inl ⟨h, a, old, points⟩

theorem Tidy.insertBefore_leans (tidy : s.Tidy) {before new : Handle}
    (done : s.insertBefore before token = .ok (new, after)) : Leans lent s after := by
  obtain ⟨_, _, _, owner, _, _, _, held, rfl, ids, _⟩ := tidy.sound.insertBefore_deep done
  exact leans_of_put lends (ids_modifyOwner held ids) fun _ _ => tidy.insertBefore_get? done

theorem Tidy.insertAfter_leans (tidy : s.Tidy) {before new : Handle}
    (done : s.insertAfter before token = .ok (new, after)) : Leans lent s after := by
  obtain ⟨_, _, _, owner, _, _, _, held, rfl, ids, _⟩ := tidy.sound.insertAfter_deep done
  exact leans_of_put lends (ids_modifyOwner held ids) fun _ _ => tidy.insertAfter_get? done

theorem Tidy.push_leans (tidy : s.Tidy) : Leans lent s (s.push token).2 :=
  leans_of_put lends (tidy.sound.push token).2.2.2 fun _ _ => tidy.push_get?

end

/-! ### Tokens that change -/

private theorem Sound.modify_leans (sound : s.Sound) (h : Handle) {f : Token → Token}
    (own : ∀ a target, (f a).literal.aliasTarget? = some target → a.literal.aliasTarget? = some target ∨ lent target) :
    Leans lent s (s.modify h f) := by
  refine ⟨sound.ids_modify h f ▸ List.Subset.refl _, fun target ⟨k, a, stored, points⟩ => ?_⟩
  rw [get?_modify] at stored
  split_ifs at stored
  · obtain ⟨old, held, rfl⟩ := Option.map_eq_some_iff.mp stored
    exact (own old target points).imp_left fun points => ⟨h, old, held, points⟩
  · exact .inl ⟨k, a, stored, points⟩

theorem Sound.setKind_leans (sound : s.Sound) (h : Handle) (kind : TokenKind) : Leans lent s (s.setKind h kind) :=
  sound.modify_leans h fun _ _ points => .inl points

theorem Sound.setLiteral_leans (sound : s.Sound) (h : Handle) {literal : Literal}
    (lends : ∀ target, literal.aliasTarget? = some target → lent target) : Leans lent s (s.setLiteral h literal) :=
  sound.modify_leans h fun _ target points => .inr (lends target points)

/-! ### Tokens that are erased -/

theorem Tidy.erase_follows (tidy : s.Tidy) (done : s.erase first last = .ok after) : Follows s after := by
  refine ⟨(tidy.erase_spots done).2.2.1, fun target ⟨h, b, stored, points⟩ => ?_⟩
  obtain ⟨a, before, _, rfl, same | stands⟩ := tidy.get?_erase done stored
  · exact ⟨h, a, before, same ▸ points⟩
  · cases stands.plain_last.symm.trans points

theorem copyTarget_alias {aimed : Handle} (stored : (s.copyTarget h target).get? first = some a)
    (points : a.literal.aliasTarget? = some aimed) : s.get? first = some a := by
  unfold copyTarget at stored
  split at stored
  next literal resolved =>
    rw [get?_setLiteral] at stored
    split_ifs at stored
    · obtain ⟨_, _, rfl⟩ := Option.map_eq_some_iff.mp stored
      obtain ⟨_, _, ended⟩ := Option.bind_eq_some_iff.mp resolved
      cases (standsFor_of_resolveFrom ended).plain_last.symm.trans points
    · exact stored
  next => exact stored

/-- A token that takes a copy is no alias any more. -/
theorem Settled.copyTarget_plain {before : TokenStream} (settled : Settled before s) (sound : before.Sound)
    (leads : (before.resolve? target).isSome) (stored : (s.copyTarget h target).get? h = some a) (aimed : Handle) :
    a.literal.aliasTarget? ≠ some aimed := by
  obtain ⟨literal, resolved⟩ := Option.isSome_iff_exists.mp leads
  have now := settled.resolve? sound resolved
  obtain ⟨_, _, ended⟩ := Option.bind_eq_some_iff.mp now
  rw [TokenStream.copyTarget, now] at stored
  dsimp only at stored
  rw [get?_setLiteral, if_pos rfl] at stored
  obtain ⟨old, _, rfl⟩ := Option.map_eq_some_iff.mp stored
  exact fun points => by cases (standsFor_of_resolveFrom ended).plain_last.symm.trans points

/-- A token that is an alias in the end has been one all along. -/
theorem foldl_copyTarget_alias {aimed : Handle} {aliases : List (Handle × Handle)}
    (stored : (aliases.foldl (fun s (h, target) => s.copyTarget h target) s).get? h = some a)
    (points : a.literal.aliasTarget? = some aimed) : s.get? h = some a := by
  induction aliases generalizing s with
  | nil => exact stored
  | cons pair rest ih => exact copyTarget_alias (ih stored) points

private theorem Settled.foldl_copyTarget_plain {before : TokenStream} (settled : Settled before s)
    (sound : before.Sound) {aliases : List (Handle × Handle)}
    (all : ∀ pair ∈ aliases, ∃ token, before.get? pair.1 = some token ∧ token.literal.aliasTarget? = some pair.2)
    (member : (h, target) ∈ aliases) (leads : (before.resolve? target).isSome)
    (stored : (aliases.foldl (fun s (h, target) => s.copyTarget h target) s).get? h = some a) : Plain a := by
  induction aliases generalizing s with
  | nil => cases member
  | cons pair rest ih =>
    obtain ⟨token, here, points⟩ := all pair List.mem_cons_self
    rcases List.mem_cons.mp member with rfl | later
    · cases aliased : a.literal.aliasTarget? with
      | none => exact aliased
      | some aimed =>
        exact absurd aliased (settled.copyTarget_plain sound leads (foldl_copyTarget_alias stored aliased) aimed)
    · exact ih (settled.copyTarget sound here points) (fun other listed =>
        all other (List.mem_cons_of_mem _ listed)) later stored

private theorem Sound.all_aliasesOf (sound : s.Sound) (distinct : s.ids.Nodup) (handles : List Handle) :
    ∀ pair ∈ s.aliasesOf handles, ∃ token, s.get? pair.1 = some token ∧ token.literal.aliasTarget? = some pair.2 := by
  intro pair member
  obtain ⟨token, inside, leads, _⟩ := mem_aliasesOf.mp member
  exact ⟨token, sound.get?_of_deep distinct inside, leads⟩

theorem Settled.detachAliases_aside {before : TokenStream} (settled : Settled before s) (sound : before.Sound)
    (distinct : before.ids.Nodup) (outside : h ∉ handles) (held : target ∈ handles)
    (leads : (before.resolve? target).isSome)
    (stored : (s.detachAliases handles).get? h = some a) : a.literal.aliasTarget? ≠ some target := by
  intro points
  have distinct' := settled.alike.ids_eq ▸ distinct
  have now : s.get? h = some a := foldl_copyTarget_alias stored points
  have listed : (h, target) ∈ s.aliasesOf handles :=
    mem_aliasesOf.mpr ⟨a, settled.sound.deep_of_get? distinct' now, points, outside, held⟩
  have all : ∀ pair ∈ s.aliasesOf handles, ∃ token, before.get? pair.1 = some token ∧ token.literal.aliasTarget? =
      some pair.2 := by
    intro pair member
    obtain ⟨token, found, points⟩ := settled.sound.all_aliasesOf distinct' handles pair member
    exact settled.points_before sound found points
  have plain := settled.foldl_copyTarget_plain sound all listed leads stored
  cases plain.symm.trans points

theorem Tidy.erase_aside (tidy : s.Tidy) (spanned : s.Spanned first last handles) (held : target ∈ handles)
    (told : s.Tells target b) (done : s.erase first last = .ok after) : ¬ after.Targets target := by
  rintro ⟨h, a, stored, points⟩
  obtain ⟨others, found, left⟩ := tidy.sound.get?_detached tidy.distinct done
  obtain rfl : handles = others := Except.ok.inj ((spanned.rangeHandles tidy.sound).symm.trans found)
  obtain ⟨outside, detached⟩ := left h a stored
  have leads : (s.resolve? target).isSome := Option.isSome_of_eq_some (resolve?_plain told.1 told.2)
  have settled := Settled.refl tidy.sound tidy.distinct
  exact settled.detachAliases_aside tidy.sound tidy.distinct outside held leads detached points

/-! ### Tokens of another stream -/

theorem Drafted.targets (drafted : s.Drafted) : ¬ s.Targets target := by
  rintro ⟨h, a, stored, points⟩
  have plain : Plain a := drafted.plain _ (drafted.get?_eq_some.mp stored)
  cases plain.symm.trans points

theorem Received.targets {ahead new behind : List Piece} (received : Received s source after names ahead new behind)
    (foreign : ∀ target, source.Targets target → target.chain ∉ source.ids) (aimed : after.Targets target) :
    s.Targets target ∨ source.Targets target := by
  obtain ⟨h, a, stored, points⟩ := aimed
  obtain ⟨piece, member, here⟩ := (received.tidy'.sound.get?_view received.tidy'.distinct).mp stored
  have old (inside : piece ∈ ahead ++ behind) : s.Targets target :=
    ⟨h, a, (received.tidy.sound.get?_view received.tidy.distinct).mpr ⟨piece, received.before ▸ inside,
      received.own ▸ here⟩, points⟩
  rw [received.now, List.mem_append, List.mem_append] at member
  rcases member with early | inside | late
  · exact .inl (old (List.mem_append_left _ early))
  · have renewed := received.renewed fun h a target stored points => foreign target ⟨h, a, stored, points⟩
    obtain ⟨⟨k, b, sub⟩, listed, _, renewed, bare⟩ := mem_of_forall₂ renewed inside
    obtain rfl : sub = none := received.lone.free listed
    rcases here with ⟨_, rfl⟩ | ⟨_, sub, owned, _⟩
    · obtain rfl : piece.2.1 = b := renewed.of_alias points
      exact .inr ⟨k, _, received.lone.get?_eq_some.mpr listed, points⟩
    · cases bare.symm.trans owned
  · exact .inl (old (List.mem_append_right _ late))

private theorem Tidy.moveAll_ids (tidy : s.Tidy) (lone : source.Lone) {before : Option Handle} {left : TokenStream}
    (done : s.moveAll before source = (.ok (names, after), left)) : after.ids ⊆ s.ids := by
  obtain ⟨_, _, _, own, total, _⟩ := tidy.sound.moveAll lone.sound (by simp [lone.ids]) done
  intro id member
  have kept : source.ids.count id ≤ left.ids.count id := by
    rw [lone.ids, ← own]
    cases left
    simp [TokenStream.ids, List.count_cons]
  have counted := List.count_pos_iff.mpr member
  have sum := total id
  exact List.count_pos_iff.mp (by omega)

theorem Tidy.moveAll_targets (tidy : s.Tidy) (lone : source.Lone) (nonempty : source.view ≠ [])
    (foreign : ∀ target, source.Targets target → target.chain ∉ source.ids) {before : Option Handle}
    {left : TokenStream} (done : s.moveAll before source = (.ok (names, after), left)) : after.ids ⊆ s.ids ∧
    ∀ target, after.Targets target → s.Targets target ∨ source.Targets target := by
  obtain ⟨_, _, _, received, _⟩ := tidy.moveAll_received lone nonempty done
  exact ⟨tidy.moveAll_ids lone done, fun target aimed => received.targets foreign aimed⟩

private theorem Tidy.exchange_targets (tidy : s.Tidy) (lone : source.Lone) (nonempty : source.view ≠ [])
    (foreign : ∀ target, source.Targets target → target.chain ∉ source.ids)
    (done : (s.exchange first last source).1 = .ok (names, after)) :
    after.ids ⊆ s.ids ∧ ∀ target, after.Targets target → s.Targets target ∨ source.Targets target := by
  obtain ⟨joined, left, moved, erased⟩ := exchange_steps done
  obtain ⟨ids, targets⟩ := tidy.moveAll_targets lone nonempty foreign moved
  have follows := (tidy.moveAll lone nonempty moved).1.erase_follows erased
  exact ⟨List.Subset.trans follows.ids ids, fun target aimed => targets target (follows.targets target aimed)⟩

/-- The aliases of a source lead where some lead in a stream or where new ones may lead, and not back into the
source. -/
def Echoes (lent : Handle → Prop) (s source : TokenStream) : Prop :=
  ∀ target, source.Targets target → (s.Targets target ∨ lent target) ∧ target.chain ∉ source.ids

theorem Drafted.echoes (drafted : source.Drafted) (s : TokenStream) : Echoes lent s source :=
  fun _ aimed => absurd aimed drafted.targets

/-- Tokens give way to those of a source whose aliases lead where some led at the start or where new ones may lead. -/
theorem Leans.exchange {start : TokenStream} (leans : Leans lent start s) (tidy : s.Tidy) (lone : source.Lone)
    (nonempty : source.view ≠ []) (echoes : Echoes lent start source)
    (done : (s.exchange first last source).1 = .ok (names, after)) : Leans lent start after := by
  obtain ⟨ids, targets⟩ := tidy.exchange_targets lone nonempty (fun target aimed => (echoes target aimed).2) done
  refine ⟨List.Subset.trans ids leans.ids, fun target aimed => ?_⟩
  rcases targets target aimed with before | own
  · exact leans.targets target before
  · exact (echoes target own).1

/-- Copies of aliases that lead out of a range lead where those do. -/
theorem Copies.targets (copies : Copies source copy names first last handles) (sound : source.Sound)
    (aside : ∀ target, source.Targets target → target ∉ handles)
    (aimed : copy.Targets target) : source.Targets target := by
  obtain ⟨k, b, stored, points⟩ := aimed
  have listed : k ∈ copy.view.map (·.1) := List.mem_map_of_mem (copies.lone.get?_eq_some.mp stored)
  rw [copies.named] at listed
  obtain ⟨h, member, rfl⟩ := List.mem_map.mp listed
  obtain ⟨_, a, held⟩ := copies.spanned.stored sound member
  have same : names.redirect a = a := redirect_idle fun target points =>
    copies.others target (aside target ⟨h, a, held, points⟩)
  have here := copies.arrives h member a held
  rw [same] at here
  obtain rfl : b = a := Option.some.inj (stored.symm.trans here)
  exact ⟨h, b, held, points⟩

end YaraRules.TokenStream
