import YaraRules.Proofs.StreamTransfers

/-! Tokens in the order in which they are read. The tokens of a stream that another token
owns are read right after that one, so a stream with all that is nested in it is one
list. What is done at any depth is done at one place of the list. -/

namespace YaraRules.TokenStream

/-- A token by its handle and its kind, and whether it owns a stream. -/
abbrev Spot := Handle × TokenKind × Bool

mutual

/-- Tokens of a stream and of the streams nested in it, in reading order. -/
def spots : TokenStream → List Spot
  | ⟨chain, nested⟩ =>
    let below := spotsAmong nested
    chain.entries.flatMap fun (h, token) =>
      (h, token.kind, (below.lookup h.index).join.isSome) :: (below.lookup h.index).join.getD []

def spotsAmong : List (Nat × Option TokenStream) → List (Nat × Option (List Spot))
  | [] => []
  | (index, some s) :: rest => (index, some (spots s)) :: spotsAmong rest
  | (index, none) :: rest => (index, none) :: spotsAmong rest

end

/-- A piece and what it owns. -/
def spotsAt (piece : Piece) : List Spot :=
  (piece.1, piece.2.1.kind, piece.2.2.isSome) :: (piece.2.2.map spots).getD []

private theorem lookup_spotsAmong (index : Nat) : ∀ nested : List (Nat × Option TokenStream),
    ((spotsAmong nested).lookup index).join = (nested.lookup index).join.map spots
  | [] => rfl
  | (place, held) :: rest => by
    have later := lookup_spotsAmong index rest
    cases held <;> by_cases same : index = place <;> simp [spotsAmong, lookup_cons_eq, same, later]

theorem spots_eq (s : TokenStream) : s.spots = s.view.flatMap spotsAt := by
  obtain ⟨chain, nested⟩ := s
  rw [view, List.flatMap_map]
  refine List.flatMap_congr fun entry _ => ?_
  simp only [lookup_spotsAmong, spotsAt, piece, subAt?, Option.isSome_map]

mutual

theorem handles_spots : ∀ s : TokenStream, s.spots.map (·.1) = s.deepEntries.map (·.1)
  | ⟨chain, nested⟩ => by
    simp only [spots, deepEntries, List.map_flatMap]
    refine List.flatMap_congr fun entry _ => ?_
    simp [handles_spotsAmong nested entry.1.index]

private theorem handles_spotsAmong : ∀ (nested : List (Nat × Option TokenStream)) (index : Nat),
    (((spotsAmong nested).lookup index).join.getD []).map (·.1) =
      (((deepEntriesAmong nested).lookup index).getD []).map (·.1)
  | [], _ => rfl
  | (place, some s) :: rest, index => by
    by_cases same : index = place
    · simp [spotsAmong, deepEntriesAmong, same, handles_spots s]
    · simpa [spotsAmong, deepEntriesAmong, lookup_cons_eq, same] using handles_spotsAmong rest index
  | (place, none) :: rest, index => by
    by_cases same : index = place
    · simp [spotsAmong, deepEntriesAmong, same]
    · simpa [spotsAmong, deepEntriesAmong, lookup_cons_eq, same] using handles_spotsAmong rest index

end

/-- The same tokens in the same order, each with a related kind. -/
def SameSpots (step : TokenKind → TokenKind → Prop) : List Spot → List Spot → Prop :=
  List.Forall₂ fun old new => new.1 = old.1 ∧ step old.2.1 new.2.1 ∧ new.2.2 = old.2.2

private theorem below_alike {step : TokenKind → TokenKind → Prop} {here there : Option (List Spot)}
    (below : Option.Rel (SameSpots step) here there) :
    there.isSome = here.isSome ∧ SameSpots step (here.getD []) (there.getD []) := by
  cases below with
  | none => exact ⟨rfl, .nil⟩
  | some same => exact ⟨rfl, same⟩

mutual

theorem Alike.spots {related : Handle → Token → Token → Prop} {step : TokenKind → TokenKind → Prop}
    (kinds : ∀ h old new, related h old new → step old.kind new.kind) :
    ∀ {s other : TokenStream}, Alike related s other → SameSpots step s.spots other.spots
  | ⟨chain, nested⟩, ⟨chain', nested'⟩, ⟨_, entries, among⟩ => by
    refine List.rel_flatMap entries fun old new same => ?_
    obtain ⟨owned, below⟩ := below_alike (AlikeAmong.spots kinds among old.1.index)
    rw [← same.1] at owned below
    exact .cons ⟨same.1, kinds _ _ _ same.2, same.1 ▸ owned⟩ (same.1 ▸ below)

theorem AlikeAmong.spots {related : Handle → Token → Token → Prop} {step : TokenKind → TokenKind → Prop}
    (kinds : ∀ h old new, related h old new → step old.kind new.kind) :
    ∀ {nested others : List (Nat × Option TokenStream)}, AlikeAmong related nested others →
    ∀ index, Option.Rel (SameSpots step) ((spotsAmong nested).lookup index).join ((spotsAmong others).lookup index).join
  | [], _, rfl, _ => .none
  | (place, some s) :: rest, _, ⟨other, more, rfl, one, among⟩, index => by
    by_cases same : index = place
    · simpa [spotsAmong, same] using Alike.spots kinds one
    · simpa [spotsAmong, lookup_cons_eq, same] using AlikeAmong.spots kinds among index
  | (place, none) :: rest, _, ⟨more, rfl, among⟩, index => by
    by_cases same : index = place
    · simp [spotsAmong, same]
    · simpa [spotsAmong, lookup_cons_eq, same] using AlikeAmong.spots kinds among index

end

theorem SameSpots.eq {spots others : List Spot} (same : SameSpots Eq spots others) : others = spots := by
  induction same with
  | nil => rfl
  | cons one _ ih =>
    obtain ⟨handle, kind, owned⟩ := one
    exact congrArg₂ _ (Prod.ext handle (Prod.ext kind.symm owned)) ih

/-- Aliases that become copies leave every token where it is. -/
theorem Alike.spots_kept {root s other : TokenStream} (alike : Alike (Kept root) s other) : other.spots = s.spots := by
  refine SameSpots.eq (Alike.spots ?_ alike)
  rintro h old new ⟨_, literal, rfl, _⟩
  rfl

theorem spotsAt_stays {root : TokenStream} {pieces others : List Piece}
    (stays : List.Forall₂ (Stays root) pieces others) : others.flatMap spotsAt = pieces.flatMap spotsAt := by
  induction stays with
  | nil => rfl
  | @cons old new _ _ one _ ih =>
    obtain ⟨handle, ⟨_, literal, token, _⟩, sub⟩ := one
    have same : spotsAt new = spotsAt old := by
      have below : new.2.2.map spots = old.2.2.map spots := by
        revert sub
        generalize old.2.2 = held, new.2.2 = held'
        intro sub
        cases sub with
        | none => rfl
        | some alike => exact congrArg some alike.spots_kept
      have owned : new.2.2.isSome = old.2.2.isSome := by simpa using congrArg Option.isSome below
      simp only [spotsAt, handle, token, below, owned]
    rw [List.flatMap_cons, List.flatMap_cons, same, ih]

/-! ### Changes at any depth -/

/-- A nested stream belongs to one piece; with another stream in its place all other pieces stay. -/
private theorem view_replaced {chain : Chain Token} {first rest : List (Nat × Option TokenStream)} {index : Nat}
    {sub : TokenStream} (sound : Sound ⟨chain, first ++ (index, some sub) :: rest⟩) :
    ∃ ahead h token behind, ∀ held, view ⟨chain, first ++ (index, some held) :: rest⟩ =
      ahead ++ (h, token, some held) :: behind := by
  have occupied := sound.2.2.1 (index, some sub) (by simp)
  obtain ⟨⟨h, token⟩, member, slot⟩ := List.mem_map.mp occupied
  obtain rfl : h.index = index := slot
  have unlisted : h.index ∉ first.map (·.1) := by
    have nodup := sound.2.1
    rw [List.map_append, List.map_cons, List.nodup_middle] at nodup
    exact fun listed => (List.nodup_cons.mp nodup).1 (List.mem_append_left _ listed)
  have looked (held : TokenStream) (other : Nat) : ((first ++ (h.index, some held) :: rest).lookup other).join =
      if other = h.index then some held else ((first ++ (h.index, some sub) :: rest).lookup other).join := by
    rw [List.lookup_append, List.lookup_append, lookup_cons_eq, lookup_cons_eq]
    split_ifs with same
    · rw [same, lookup_of_not_mem unlisted]
      rfl
    · rfl
  obtain ⟨ahead, behind, split⟩ := List.append_of_mem
    (List.mem_map_of_mem (f := piece ⟨chain, first ++ (h.index, some sub) :: rest⟩) member)
  refine ⟨ahead, h, token, behind, fun held => ?_⟩
  refine Eq.trans ?_ (sound.view_at split fun piece => (piece.1, piece.2.1, some held))
  rw [view, view, List.map_map]
  refine List.map_congr_left fun entry _ => ?_
  by_cases same : entry.1.index = h.index
  · simp [piece, subAt?, looked held, same]
  · simp [piece, subAt?, looked held entry.1.index, same]

mutual

/-- What an owner holds is read at one place, and a change of the owner changes nothing around it. -/
theorem spots_modifyOwner {id : ChainId} : ∀ {s owner : TokenStream}, s.Sound → s.owner? id = some owner →
    ∃ front back, s.spots = front ++ (owner.spots ++ back) ∧
      ∀ f, (s.modifyOwner id f).spots = front ++ ((f owner).spots ++ back)
  | ⟨chain, nested⟩, owner, sound, held => by
    unfold owner? at held
    unfold modifyOwner
    split_ifs at held with here
    · cases held
      exact ⟨[], [], by simp, fun f => by simp [here]⟩
    · obtain ⟨first, index, sub, rest, front, back, split, below, changed⟩ := spotsAmong_modifyOwner sound.2.2.2 held
      obtain ⟨ahead, h, token, behind, view⟩ := view_replaced (split ▸ sound)
      refine ⟨ahead.flatMap spotsAt ++ (h, token.kind, true) :: front, back ++ behind.flatMap spotsAt, ?_, fun f => ?_⟩
      · rw [spots_eq, split, view sub]
        simp [spotsAt, below]
      · rw [if_neg here, spots_eq, (changed f).1, view]
        simp [spotsAt, (changed f).2]

private theorem spotsAmong_modifyOwner {id : ChainId} : ∀ {nested : List (Nat × Option TokenStream)}
    {owner : TokenStream},
    SoundAmong nested → ownerAmong? id nested = some owner →
    ∃ first index sub rest front back, nested = first ++ (index, some sub) :: rest ∧
      sub.spots = front ++ (owner.spots ++ back) ∧
      ∀ f, modifyOwnerAmong id f nested = first ++ (index, some (sub.modifyOwner id f)) :: rest ∧
        (sub.modifyOwner id f).spots = front ++ ((f owner).spots ++ back)
  | [], _, _, held => by cases held
  | (index, some s) :: rest, owner, ⟨sound, others⟩, held => by
    unfold ownerAmong? at held
    cases inner : s.owner? id with
    | none =>
      obtain ⟨first, place, sub, more, front, back, split, below, changed⟩ := spotsAmong_modifyOwner others
        (show ownerAmong? id rest = some owner by simpa [inner] using held)
      refine ⟨(index, some s) :: first, place, sub, more, front, back, by simp [split], below, fun f => ?_⟩
      exact ⟨by simp [modifyOwnerAmong, inner, (changed f).1], (changed f).2⟩
    | some found =>
      obtain rfl : found = owner := by simpa [inner] using held
      obtain ⟨front, back, below, changed⟩ := spots_modifyOwner sound inner
      exact ⟨[], index, s, rest, front, back, rfl, below, fun f => ⟨by simp [modifyOwnerAmong, inner], changed f⟩⟩

end

/-! ### Each token once -/

theorem Sound.owner?_of_spots {s : TokenStream} (sound : s.Sound) (distinct : s.ids.Nodup) {h : Handle}
    (member : h ∈ s.spots.map (·.1)) : ∃ owner, s.owner? h.chain = some owner ∧ h ∈ owner.entries.map (·.1) := by
  rw [handles_spots] at member
  obtain ⟨⟨h', token⟩, inside, rfl⟩ := List.mem_map.mp member
  obtain ⟨owner, held, stored⟩ := sound.owner?_of_deep distinct inside
  exact ⟨owner, held, List.mem_map_of_mem stored⟩

theorem ids_of_lookup {index : Nat} {sub : TokenStream} : ∀ {nested : List (Nat × Option TokenStream)},
    (nested.lookup index).join = some sub → sub.ids.Sublist (idsAmong nested)
  | [], found => by cases found
  | (place, held) :: rest, found => by
    rw [idsAmong_cons]
    by_cases same : index = place
    · obtain rfl : held = some sub := by simpa [same] using found
      exact List.sublist_append_left _ _
    · have later : (rest.lookup index).join = some sub := by simpa [lookup_cons_eq, same] using found
      exact (ids_of_lookup later).trans (List.sublist_append_right _ _)

private theorem ids_apart {index index' : Nat} (apart : index ≠ index') {sub sub' : TokenStream} :
    ∀ {nested : List (Nat × Option TokenStream)}, (idsAmong nested).Nodup → (nested.lookup index).join = some sub →
    (nested.lookup index').join = some sub' → sub.ids.Disjoint sub'.ids
  | [], _, found, _ => by cases found
  | (place, held) :: rest, distinct, found, found' => by
    rw [idsAmong_cons] at distinct
    obtain ⟨_, others, between⟩ := List.nodup_append'.mp distinct
    rw [lookup_cons_eq] at found found'
    split_ifs at found found' with here there there
    · exact absurd (here.trans there.symm) apart
    · obtain rfl : held = some sub := by simpa using found
      exact List.disjoint_of_subset_right (ids_of_lookup found').subset between
    · obtain rfl : held = some sub' := by simpa using found'
      exact List.disjoint_comm.mp (List.disjoint_of_subset_right (ids_of_lookup found).subset between)
    · exact ids_apart apart others found found'

private theorem Sound.chain_below {s : TokenStream} (sound : s.Sound) (distinct : s.ids.Nodup) {piece : Piece}
    (member : piece ∈ s.view) {h : Handle} (below : h ∈ ((piece.2.2.map spots).getD []).map (·.1)) :
    ∃ sub, s.subAt? piece.1.index = some sub ∧ h.chain ∈ sub.ids ∧ h.chain ≠ s.chain.id := by
  obtain ⟨entry, _, rfl⟩ := List.mem_map.mp member
  cases held : s.subAt? entry.1.index with
  | none => simp [TokenStream.piece, held] at below
  | some sub =>
    obtain ⟨chain, nested⟩ := s
    obtain ⟨top, others⟩ := List.nodup_cons.mp distinct
    have inside := ids_of_lookup held
    obtain ⟨owner, found, _⟩ := (sound.sub held).owner?_of_spots (inside.nodup others) (h := h)
      (by simpa [TokenStream.piece, held] using below)
    have listed := mem_ids_of_owner? found
    refine ⟨sub, held, listed, ?_⟩
    rintro same
    exact top (same ▸ inside.subset listed)

mutual

theorem Sound.spots_nodup : ∀ {s : TokenStream}, s.Sound → s.ids.Nodup → (s.spots.map (·.1)).Nodup
  | ⟨chain, nested⟩, sound, distinct => by
    have among := SoundAmong.spots_nodup sound.2.2.2 (List.nodup_cons.mp distinct).2
    rw [spots_eq, List.map_flatMap]
    refine List.nodup_flatMap.mpr ⟨fun piece member => ?_, ?_⟩
    · refine List.nodup_cons.mpr ⟨fun below => ?_, ?_⟩
      · obtain ⟨_, _, _, apart⟩ := sound.chain_below distinct member below
        exact apart (sound.chain_of_view member)
      · obtain ⟨entry, _, rfl⟩ := List.mem_map.mp member
        cases held : subAt? ⟨chain, nested⟩ entry.1.index with
        | none => simp [TokenStream.piece, held]
        | some sub => simpa [TokenStream.piece, held] using among entry.1.index sub held
    · have slots : (view ⟨chain, nested⟩).Pairwise fun p q => p.1.index ≠ q.1.index := by
        have nodup := sound.chain.nodup_slots
        rw [view, List.pairwise_map]
        exact List.pairwise_map.mp nodup
      refine slots.imp_of_mem fun {p q} here there apart h inside inside' => ?_
      rcases List.mem_cons.mp inside with rfl | below <;> rcases List.mem_cons.mp inside' with same | below'
      · exact apart (congrArg Handle.index same)
      · obtain ⟨_, _, _, other⟩ := sound.chain_below distinct there below'
        exact other (sound.chain_of_view here)
      · obtain ⟨_, _, _, other⟩ := sound.chain_below distinct here below
        exact other (same ▸ sound.chain_of_view there)
      · obtain ⟨sub, held, listed, _⟩ := sound.chain_below distinct here below
        obtain ⟨sub', held', listed', _⟩ := sound.chain_below distinct there below'
        exact ids_apart apart (List.nodup_cons.mp distinct).2 held held' listed listed'

theorem SoundAmong.spots_nodup : ∀ {nested : List (Nat × Option TokenStream)}, SoundAmong nested →
    (idsAmong nested).Nodup → ∀ index sub, (nested.lookup index).join = some sub → (sub.spots.map (·.1)).Nodup
  | [], _, _, _, _, found => by cases found
  | (place, some s) :: rest, ⟨first, others⟩, distinct, index, sub, found => by
    obtain ⟨here, later, _⟩ := List.nodup_append'.mp distinct
    rw [lookup_cons_eq] at found
    split_ifs at found
    · obtain rfl : s = sub := by simpa using found
      exact first.spots_nodup here
    · exact others.spots_nodup later index sub found

end

private theorem Sound.filter_spots {s : TokenStream} (sound : s.Sound) (distinct : s.ids.Nodup) :
    (s.spots.map (·.1)).filter (·.chain = s.chain.id) = s.entries.map (·.1) := by
  have each : ∀ piece ∈ s.view, ((spotsAt piece).map (·.1)).filter (·.chain = s.chain.id) = [piece.1] := by
    intro piece member
    have below : (((piece.2.2.map spots).getD []).map (·.1)).filter (·.chain = s.chain.id) = [] := by
      refine List.filter_eq_nil_iff.mpr fun h inside => ?_
      obtain ⟨_, _, _, apart⟩ := sound.chain_below distinct member inside
      simpa using apart
    rw [spotsAt, List.map_cons, List.filter_cons_of_pos (by simp [sound.chain_of_view member]), below]
  rw [spots_eq, List.map_flatMap, List.filter_flatMap, List.flatMap_congr each, ← List.map_eq_flatMap, view,
    List.map_map]
  rfl

/-- Tokens of one stream that are read one after the other stand in it in this order. -/
theorem Sound.sublist_entries {s : TokenStream} (sound : s.Sound) (distinct : s.ids.Nodup) {row : List Handle}
    {id : ChainId} (nonempty : row ≠ []) (chain : ∀ h ∈ row, h.chain = id)
    (listed : row.Sublist (s.spots.map (·.1))) :
    ∃ owner, s.owner? id = some owner ∧ row.Sublist (owner.entries.map (·.1)) := by
  obtain ⟨h, inside⟩ := List.exists_mem_of_ne_nil row nonempty
  obtain ⟨owner, held, _⟩ := sound.owner?_of_spots distinct (listed.subset inside)
  rw [chain h inside] at held
  obtain ⟨front, back, split, _⟩ := spots_modifyOwner sound held
  have own : owner.chain.id = id := id_of_owner? held
  have distinct' := distinct_owner distinct held
  have once := sound.spots_nodup distinct
  rw [split, List.map_append, List.map_append] at once
  obtain ⟨_, rest, ahead⟩ := List.nodup_append'.mp once
  obtain ⟨_, _, behind⟩ := List.nodup_append'.mp rest
  -- A token with the identity of the owner is one of its own, so none of them is read around it.
  have mine : ∀ k ∈ s.spots.map (·.1), k.chain = id → k ∈ owner.spots.map (·.1) := by
    intro k member same
    obtain ⟨owner', held', stored⟩ := sound.owner?_of_spots distinct member
    obtain rfl : owner' = owner := Option.some.inj (held'.symm.trans (same ▸ held))
    rw [← (sound.owner? held).filter_spots distinct'] at stored
    exact List.mem_of_mem_filter stored
  have none : ∀ part : List Spot, part.map (·.1) ⊆ s.spots.map (·.1) →
      (part.map (·.1)).Disjoint (owner.spots.map (·.1)) → (part.map (·.1)).filter (·.chain = id) = [] := by
    intro part within apart
    refine List.filter_eq_nil_iff.mpr fun k member same => ?_
    exact apart member (mine k (within member) (by simpa using same))
  have filtered := listed.filter (·.chain = id)
  rw [List.filter_eq_self.mpr (by simpa using chain), split, List.map_append, List.map_append, List.filter_append,
    List.filter_append, none front (by simp [split]) fun k here there => ahead here (by simp [there]),
    none back (by simp [split]) (List.disjoint_comm.mp behind), ← own, (sound.owner? held).filter_spots distinct',
    List.nil_append, List.append_nil] at filtered
  exact ⟨owner, held, filtered⟩

end YaraRules.TokenStream
