import YaraRules.Proofs.StreamDepths
import YaraRules.Proofs.StreamInsertions
import YaraRules.Proofs.StreamTexts

/-! What can be seen from a token. A name in a condition follows the name of a rule
only if that one is in the stream that holds the name or in a stream nested there.
The lemmas say what stays in sight while single tokens are changed or taken out
and while a token is given a stream. -/

namespace YaraRules.TokenStream

/-- The second token is in the stream that holds the first, or in one nested there. -/
def Sees (s : TokenStream) (h target : Handle) : Prop :=
  ∃ owner, s.owner? h.chain = some owner ∧ target.chain ∈ owner.ids

variable {s sub after : TokenStream} {h : Handle}

theorem mem_ids_of_get? {a : Token} (found : s.get? h = some a) : h.chain ∈ s.ids := by
  obtain ⟨owner, held, _⟩ := Option.bind_eq_some_iff.mp found
  exact mem_ids_of_owner? held

theorem Sees.mem_ids {target : Handle} (sees : s.Sees h target) : target.chain ∈ s.ids := by
  obtain ⟨owner, held, inside⟩ := sees
  rw [ids_eq_chains] at inside ⊢
  obtain ⟨c, member, same⟩ := List.mem_map.mp inside
  exact List.mem_map.mpr ⟨c, chains_of_owner? held member, same⟩

private theorem sees_of_alike {related : Handle → Token → Token → Prop} (alike : Alike related s after)
    (k target : Handle) : after.Sees k target ↔ s.Sees k target := by
  have owners := alike.owner? k.chain
  unfold Sees
  cases here : s.owner? k.chain with
  | none =>
    cases there : after.owner? k.chain with
    | none => rfl
    | some owner => simp [here, there] at owners
  | some owner =>
    cases there : after.owner? k.chain with
    | none => simp [here, there] at owners
    | some owner' =>
      rw [here, there, Option.rel_some_some] at owners
      simp [owners.ids_eq]

/-! ### Changes of one token -/

/-- Nothing but one token tells the streams apart: it was changed or taken out. -/
structure ButFor (h : Handle) (s after : TokenStream) : Prop where
  sound : after.Sound
  ids : after.ids = s.ids
  places : after.nested.map (·.1) = s.nested.map (·.1)
  others : ∀ k, k ≠ h → after.get? k = s.get? k
  sees : ∀ k target, after.Sees k target ↔ s.Sees k target

theorem id_of_ids (same : after.ids = s.ids) : after.chain.id = s.chain.id := by
  cases s
  cases after
  exact (List.cons.inj same).1

theorem Sound.modify_butFor (sound : s.Sound) (h : Handle) (f : Token → Token) : ButFor h s (s.modify h f) := by
  obtain ⟨sound', alike⟩ := sound.modify_touched h f
  refine ⟨sound', alike.ids_eq, alike.nested.places, fun k apart => ?_, sees_of_alike alike⟩
  rw [get?_modify, if_neg apart]

/-- No alias of a target outside the targets has to be given a copy. -/
theorem Sound.detachAliases_idle (sound : s.Sound) (distinct : s.ids.Nodup) {targets : List Handle}
    (unnamed : ∀ k a, s.get? k = some a → ∀ target ∈ targets, a.literal.aliasTarget? ≠ some target) :
    s.detachAliases targets = s := by
  unfold TokenStream.detachAliases
  dsimp only
  rw [List.filterMap_eq_nil_iff.mpr, List.foldl_nil]
  rintro ⟨k, token⟩ member
  have stored := sound.get?_of_deep distinct member
  dsimp only
  split_ifs
  · rfl
  · refine Option.bind_eq_none_iff.mpr fun target points => if_neg fun listed => ?_
    exact unnamed k token stored target (by simpa using listed) points

theorem get?_top (s : TokenStream) {k : Handle} (own : k.chain = s.chain.id) : s.get? k = s.chain.get? k := by
  rw [get?_eq, own, chainOf?_self]
  rfl

theorem Spans.single {pieces : List Piece} (spans : Spans h h pieces) (nodup : (pieces.map (·.1)).Nodup) :
    ∃ piece, pieces = [piece] ∧ piece.1 = h := by
  obtain ⟨piece, rest, rfl, begins⟩ := spans.first
  obtain ⟨most, last, same, ends⟩ := spans.last
  cases most with
  | nil => exact ⟨last, same, ends⟩
  | cons first more =>
    obtain ⟨rfl, rfl⟩ := List.cons.inj same
    simp [begins, ends] at nodup

/-- Streams below are found whatever the chain. -/
theorem owner?_below {chain : Chain Token} (same : chain.id = s.chain.id) {id : ChainId} (below : id ≠ s.chain.id) :
    owner? id ⟨chain, s.nested⟩ = s.owner? id := by
  cases s
  simp only [owner?, same, if_neg (Ne.symm below)]

theorem owner?_top {id : ChainId} (same : id = s.chain.id) : s.owner? id = some s := same ▸ owner?_self s

private theorem Sound.vacate_butFor (sound : s.Sound) {token : Token} (stored : (h, token) ∈ s.chain.entries)
    (bare : h.index ∉ s.nested.map (·.1)) : ButFor h s ⟨s.chain.vacate h.index, s.nested⟩ := by
  obtain ⟨ahead, behind, split⟩ := List.append_of_mem stored
  obtain ⟨sound', entries, id⟩ := sound.chain.vacate split
  have slot : Chain.slotOf (h, token) = h.index := rfl
  rw [slot] at sound' entries id
  generalize s.chain.vacate h.index = left at sound' entries id
  obtain ⟨slots, places, nested⟩ : (s.nested.map (·.1)).Nodup ∧
      (∀ place ∈ s.nested, place.1 ∈ s.chain.entries.map Chain.slotOf) ∧ SoundAmong s.nested := by
    cases s
    exact sound.2
  refine ⟨⟨sound', slots, fun place member => ?_, nested⟩, s.ids_withChain id, rfl, fun k apart =>
    ?_, fun k target => ?_⟩
  · have apart : place.1 ≠ h.index := fun same => bare (List.mem_map.mpr ⟨place, member, same⟩)
    have listed := places place member
    rw [split] at listed
    rw [entries]
    simpa [slot, apart] using listed
  · by_cases top : k.chain = s.chain.id
    · rw [get?_top s top, get?_top ⟨left, s.nested⟩ (top.trans id.symm)]
      refine Option.ext fun a => ?_
      have other : (k, a) ≠ (h, token) := fun same => apart (congrArg (·.1) same)
      rw [sound'.get?_eq_some, sound.chain.get?_eq_some, entries, split]
      simp [other]
    · rw [TokenStream.get?, owner?_below id top, TokenStream.get?]
  · unfold Sees
    by_cases top : k.chain = s.chain.id
    · rw [owner?_top top, owner?_top (s := ⟨left, s.nested⟩) (top.trans id.symm)]
      simp [s.ids_withChain id]
    · rw [owner?_below id top]

private theorem Sound.vacate_gone (sound : s.Sound) {token : Token} (stored : (h, token) ∈ s.chain.entries) :
    (⟨s.chain.vacate h.index, s.nested⟩ : TokenStream).get? h = none := by
  obtain ⟨ahead, behind, split⟩ := List.append_of_mem stored
  obtain ⟨sound', entries, id⟩ := sound.chain.vacate split
  have slot : Chain.slotOf (h, token) = h.index := rfl
  rw [slot] at sound' entries id
  rw [get?_top ⟨s.chain.vacate h.index, s.nested⟩ ((sound.chain.chain_eq stored).trans id.symm)]
  refine Option.eq_none_iff_forall_ne_some.mpr fun a left => ?_
  have member := (sound'.get?_eq_some _ _).mp left
  have nodup := sound.chain.handles_nodup
  rw [split, List.map_append, List.map_cons, List.nodup_middle, ← List.map_append, ← entries] at nodup
  exact (List.nodup_cons.mp nodup).1 (List.mem_map.mpr ⟨_, member, rfl⟩)

private theorem Sound.dropAll_bare (sound : s.Sound) {token : Token} (stored : (h, token) ∈ s.chain.entries)
    (bare : h.index ∉ s.nested.map (·.1)) : s.dropAll [h] = ⟨s.chain.vacate h.index, s.nested⟩ := by
  have named : s.chain.index? h = some h.index := (sound.chain.index?_eq_some _ _).mpr ⟨rfl, token, stored⟩
  have item : s.chain.itemAt? h.index = some token := by
    simpa [Chain.get?, named] using (sound.chain.get?_eq_some _ _).mpr stored
  have kept : s.nested.filter (·.1 != h.index) = s.nested := List.filter_eq_self.mpr fun place member => by
    have apart : place.1 ≠ h.index := fun same => bare (List.mem_map.mpr ⟨place, member, same⟩)
    simpa using apart
  simp [TokenStream.dropAll, TokenStream.take, Chain.take, named, item, kept]

/-- A token of the stream itself that owns nothing and that no alias leads to is taken out. -/
theorem Sound.eraseOne_butFor (sound : s.Sound) (distinct : s.ids.Nodup) (own : h.chain = s.chain.id)
    (bare : h.index ∉ s.nested.map (·.1)) (unnamed : ∀ k a, s.get? k = some a → a.literal.aliasTarget? ≠ some h)
    (done : s.eraseOne h = .ok after) : ButFor h s after ∧ after.get? h = none := by
  unfold eraseOne TokenStream.erase checkedOwner at done
  rw [own, owner?_self] at done
  cases found : s.rangeHandles h h with
  | error e => simp [found, bind, Except.bind] at done
  | ok handles =>
    obtain ⟨front, middle, back, split, rfl, spans⟩ := sound.rangeHandles own found
    have nodup := sound.handles_nodup
    rw [split, List.map_append, List.map_append] at nodup
    obtain ⟨piece, rfl, rfl⟩ := spans.single (List.nodup_append'.mp (List.nodup_append'.mp nodup).2.1).1
    obtain ⟨entry, stored, same⟩ := List.mem_map.mp (show piece ∈ s.view by simp [split])
    have stored : (piece.1, entry.2) ∈ s.chain.entries := congrArg (·.1) same ▸ stored
    have idle : s.detachAliases [piece.1] = s := sound.detachAliases_idle distinct fun k a stored target listed =>
      List.mem_singleton.mp listed ▸ unnamed k a stored
    have dropped : s.dropAll [piece.1] = after := by
      simpa [found, bind, Except.bind, pure, Except.pure, idle] using done
    rw [← dropped, sound.dropAll_bare stored bare]
    exact ⟨sound.vacate_butFor stored bare, sound.vacate_gone stored⟩

/-- No token changes its place when one is taken out. -/
theorem Sound.eraseOne_handles (sound : s.Sound) (distinct : s.ids.Nodup) (own : h.chain = s.chain.id)
    (same : after.chain.id = s.chain.id)
    (done : s.eraseOne h = .ok after) : (after.entries.map (·.1)).Sublist (s.entries.map (·.1)) := by
  have view (x : TokenStream) : x.entries.map (·.1) = x.view.map (·.1) := by
    rw [TokenStream.view, List.map_map]
    rfl
  obtain ⟨_, _, owner, owner', front, middle, back, held, held', split, _, stays⟩ := sound.erase_deep distinct done
  obtain rfl : owner = s := Option.some.inj (held.symm.trans (owner?_top own))
  obtain rfl : owner' = after := Option.some.inj (held'.symm.trans (owner?_top (own.trans same.symm)))
  rw [view, view, handles_of_stays stays, split]
  simp

/-! ### Streams that tokens are given -/

private theorem ownerAmong?_append (id : ChainId) (front back : List (Nat × Option TokenStream)) :
    ownerAmong? id (front ++ back) = (ownerAmong? id front).or (ownerAmong? id back) := by
  induction front with
  | nil => rfl
  | cons place rest ih =>
    obtain ⟨index, held⟩ := place
    cases held with
    | none => simpa [ownerAmong?] using ih
    | some stream =>
      cases found : owner? id stream with
      | none => simpa [ownerAmong?, found] using ih
      | some owner => simp [ownerAmong?, found]

/-- A token was given a stream: each token sees what it saw before, and those around the stream see into it. -/
structure Joined (h : Handle) (s sub after : TokenStream) : Prop where
  sound : after.Sound
  distinct : after.ids.Nodup
  id : after.chain.id = s.chain.id
  ids : ∀ id, id ∈ after.ids ↔ id ∈ s.ids ∨ id ∈ sub.ids
  places : after.nested.map (·.1) = s.nested.map (·.1) ++ [h.index]
  outer : ∀ k, k.chain ∈ s.ids → after.get? k = s.get? k
  inner : ∀ k, k.chain ∈ sub.ids → after.get? k = sub.get? k
  seesOuter : ∀ k target, k.chain ∈ s.ids →
    (after.Sees k target ↔ s.Sees k target ∨ k.chain = s.chain.id ∧ target.chain ∈ sub.ids)
  seesInner : ∀ k target, k.chain ∈ sub.ids → (after.Sees k target ↔ sub.Sees k target)

theorem Sound.attach_joined (sound : s.Sound) (below : sub.Sound) (distinct : s.ids.Nodup) (distinct' : sub.ids.Nodup)
    (apart : s.ids.Disjoint sub.ids) (bare : h.index ∉ s.nested.map (·.1)) (done : s.attach h sub = .ok after) :
    Joined h s sub after := by
  obtain ⟨sound', _, id, _⟩ := sound.attach below done
  have after_eq : (⟨s.chain, s.nested ++ [(h.index, some sub)]⟩ : TokenStream) = after := by
    unfold TokenStream.attach at done
    cases checked : s.checkedIndex h with
    | error e => simp [checked, bind, Except.bind] at done
    | ok index =>
      obtain ⟨_, _, _, _, _, rfl⟩ := sound.split_at checked
      have any : s.nested.any (·.1 == h.index) = false := List.any_eq_false.mpr fun place inside same =>
        bare (List.mem_map.mpr ⟨place, inside, by simpa using same⟩)
      simpa [checked, bind, Except.bind, pure, Except.pure, any] using done
  subst after_eq
  obtain ⟨chain, nested⟩ := s
  have ids_eq : ids ⟨chain, nested ++ [(h.index, some sub)]⟩ = ids ⟨chain, nested⟩ ++ sub.ids := by
    simp [ids, idsAmong_append, idsAmong]
  have top : ∀ id ∈ sub.ids, chain.id ≠ id := fun id member same => apart (by simp [ids]) (same ▸ member)
  have outside : ∀ id ∈ ids ⟨chain, nested⟩, sub.owner? id = none := fun id member =>
    Option.eq_none_iff_forall_ne_some.mpr fun owner held => apart member (mem_ids_of_owner? held)
  have within : ∀ id ∈ sub.ids, ownerAmong? id nested = none := fun id member =>
    Option.eq_none_iff_forall_ne_some.mpr fun owner held => apart (by simp [ids, mem_ids_of_ownerAmong? held]) member
  have owner : ∀ id, id ∈ ids ⟨chain, nested⟩ → chain.id ≠ id →
      TokenStream.owner? id ⟨chain, nested ++ [(h.index, some sub)]⟩ = TokenStream.owner? id ⟨chain, nested⟩ :=
        fun id member other => by
    simp [TokenStream.owner?, other, ownerAmong?_append, ownerAmong?, outside id member]
  have owner' : ∀ id ∈ sub.ids,
      TokenStream.owner? id ⟨chain, nested ++ [(h.index, some sub)]⟩ = sub.owner? id := fun id member => by
    obtain ⟨held, found⟩ := owner?_of_mem_ids member
    simp [TokenStream.owner?, top id member, ownerAmong?_append, within id member, ownerAmong?, found]
  refine ⟨sound', ?_, rfl, fun id => by simp [ids_eq], by simp, fun k member => ?_, fun k member => ?_,
    fun k target member => ?_, fun k target member => ?_⟩
  · rw [ids_eq]
    exact List.nodup_append'.mpr ⟨distinct, distinct', apart⟩
  · by_cases same : k.chain = chain.id
    · rw [get?_top _ same, get?_top _ same]
    · simp only [TokenStream.get?, owner _ member (Ne.symm same)]
  · simp only [TokenStream.get?, owner' _ member]
  · by_cases same : k.chain = chain.id
    · have here : ∀ nested, TokenStream.owner? k.chain ⟨chain, nested⟩ = some ⟨chain, nested⟩ :=
        fun _ => owner?_top same
      simp only [Sees, here, Option.some.injEq, exists_eq_left', ids_eq, List.mem_append]
      simp [same]
    · simp [Sees, owner _ member (Ne.symm same), same]
  · simp only [Sees, owner' _ member]

end YaraRules.TokenStream
