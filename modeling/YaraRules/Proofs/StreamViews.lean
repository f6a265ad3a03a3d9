import YaraRules.Proofs.StreamAliases

/-! Streams as lists of pieces. A piece is a token with its handle and the stream it
owns. Each primitive change of a sound stream is a list operation on its pieces,
keeps the stream sound, and neither loses nor repeats an identity. -/

namespace YaraRules.TokenStream

/-- A token with its handle and the stream that it owns. -/
abbrev Piece := Handle × Token × Option TokenStream

def piece (s : TokenStream) (entry : Handle × Token) : Piece := (entry.1, entry.2, s.subAt? entry.1.index)

/-- What a stream means: its pieces in order. -/
def view (s : TokenStream) : List Piece := s.entries.map s.piece

/-- Slot in front of which a list of pieces begins. -/
def frontOf (pieces : List Piece) : Option Nat := pieces.head?.map (·.1.index)

theorem entries_eq (s : TokenStream) : s.entries = s.chain.entries := rfl

theorem lookup_of_not_mem {κ β : Type} [BEq κ] [LawfulBEq κ] {key : κ} {places : List (κ × β)}
    (absent : key ∉ places.map (·.1)) : places.lookup key = none := by
  refine List.lookup_eq_none_iff.mpr fun place member => ?_
  have apart : key ≠ place.1 := fun same => absent (same ▸ List.mem_map_of_mem member)
  simpa using apart

theorem lookup_cons_eq {β : Type} (index place : Nat) (held : β) (rest : List (Nat × β)) :
    ((place, held) :: rest).lookup index = if index = place then some held else rest.lookup index := by
  by_cases same : index = place
  · simp [same]
  · have missed : (index == place) = false := by simpa using same
    simp [List.lookup_cons, missed, same]

private theorem lookup_filter {β : Type} {gone index : Nat} (apart : index ≠ gone) (places : List (Nat × β)) :
    (places.filter (·.1 != gone)).lookup index = places.lookup index := by
  induction places with
  | nil => rfl
  | cons place rest ih =>
    obtain ⟨other, held⟩ := place
    by_cases same : other = gone
    · simp [lookup_cons_eq, same, ih, apart]
    · simp [lookup_cons_eq, same, ih]

private theorem soundAmong_filter {gone : Nat} : ∀ {nested : List (Nat × Option TokenStream)}, SoundAmong nested →
    SoundAmong (nested.filter (·.1 != gone))
  | [], sound => sound
  | (index, some s) :: rest, ⟨first, others⟩ => by
    by_cases same : index = gone
    · simpa [same] using soundAmong_filter others
    · simpa [same] using ⟨first, soundAmong_filter others⟩

private theorem soundAmong_owned {index : Nat} {place : Option TokenStream} :
    ∀ {nested : List (Nat × Option TokenStream)}, SoundAmong nested → (index, place) ∈ nested → ∃ sub, place = some sub
  | (_, some s) :: rest, ⟨_, others⟩, member => by
    rcases List.mem_cons.mp member with same | later
    · cases same
      exact ⟨s, rfl⟩
    · exact soundAmong_owned others later

private theorem soundAmong_member {index : Nat} {held : TokenStream} :
    ∀ {nested : List (Nat × Option TokenStream)}, SoundAmong nested → (index, some held) ∈ nested → held.Sound
  | (_, some s) :: rest, ⟨first, others⟩, member => by
    rcases List.mem_cons.mp member with same | later
    · cases same
      exact first
    · exact soundAmong_member others later

private theorem soundAmong_append : ∀ {front back : List (Nat × Option TokenStream)}, SoundAmong front →
    SoundAmong back → SoundAmong (front ++ back)
  | [], _, _, sound => sound
  | (_, some _) :: _, _, ⟨first, others⟩, sound => ⟨first, soundAmong_append others sound⟩

/-- Identities of an optional stream. -/
def idsOf (sub : Option TokenStream) : List ChainId := (sub.map ids).getD []

theorem idsAmong_cons (index : Nat) (held : Option TokenStream) (rest : List (Nat × Option TokenStream)) :
    idsAmong ((index, held) :: rest) = idsOf held ++ idsAmong rest := by
  cases held <;> simp [idsAmong, idsOf]

theorem idsAmong_append (front back : List (Nat × Option TokenStream)) :
    idsAmong (front ++ back) = idsAmong front ++ idsAmong back := by
  induction front with
  | nil => rfl
  | cons place rest ih =>
    obtain ⟨index, held⟩ := place
    rw [List.cons_append, idsAmong_cons, idsAmong_cons, ih, List.append_assoc]

private theorem count_filter (gone : Nat) (id : ChainId) : ∀ {nested : List (Nat × Option TokenStream)},
    (nested.map (·.1)).Nodup →
    (idsAmong nested).count id =
      (idsAmong (nested.filter (·.1 != gone))).count id + (idsOf (nested.lookup gone).join).count id
  | [], _ => by simp [idsAmong, idsOf]
  | (index, held) :: rest, nodup => by
    obtain ⟨fresh, others⟩ := List.nodup_cons.mp nodup
    by_cases same : index = gone
    · subst same
      have kept : rest.filter (·.1 != index) = rest := List.filter_eq_self.mpr fun place member => by
        have apart : place.1 ≠ index := fun here => fresh (List.mem_map.mpr ⟨place, member, here⟩)
        simpa using apart
      simp [idsAmong_cons, kept, Nat.add_comm]
    · have later := count_filter gone id others
      simp only [idsAmong_cons, List.count_append, later, List.filter_cons, bne_iff_ne, ne_eq, same,
        not_false_eq_true, if_true, lookup_cons_eq, Ne.symm same, if_false]
      omega

theorem ids_withChain (s : TokenStream) {chain : Chain Token} (id : chain.id = s.chain.id) :
    (⟨chain, s.nested⟩ : TokenStream).ids = s.ids := by
  cases s
  simp only [ids]
  rw [id]

namespace Sound

variable {s : TokenStream}

theorem placed (sound : s.Sound) {index : Nat} (member : index ∈ s.nested.map (·.1)) :
    index ∈ s.chain.entries.map Chain.slotOf := by
  obtain ⟨place, inside, rfl⟩ := List.mem_map.mp member
  cases s
  exact sound.2.2.1 place inside

theorem places_nodup (sound : s.Sound) : (s.nested.map (·.1)).Nodup := by
  cases s
  exact sound.2.1

theorem owned (sound : s.Sound) {index : Nat} {place : Option TokenStream} (member : (index, place) ∈ s.nested) :
    ∃ sub, place = some sub := by
  cases s
  exact soundAmong_owned sound.2.2.2 member

private theorem subAt?_fresh (sound : s.Sound) {index : Nat} (fresh : index ∉ s.chain.entries.map Chain.slotOf) :
    s.subAt? index = none := by
  unfold subAt?
  rw [lookup_of_not_mem fun member => fresh (sound.placed member)]
  rfl

/-- A change at one slot is a change of one piece. -/
theorem view_at (sound : s.Sound) {front back : List Piece} {changed : Piece}
    (split : s.view = front ++ changed :: back) (f : Piece → Piece) :
    (s.view.map fun piece => if piece.1.index = changed.1.index then f piece else piece) =
      front ++ f changed :: back := by
  have nodup : (s.view.map (·.1.index)).Nodup := by
    rw [view, List.map_map]
    exact sound.chain.nodup_slots
  rw [split, List.map_append, List.map_cons, List.nodup_middle, ← List.map_append] at nodup
  have apart : ∀ piece ∈ front ++ back, piece.1.index ≠ changed.1.index := fun piece member same =>
    (List.nodup_cons.mp nodup).1 (List.mem_map.mpr ⟨piece, member, same⟩)
  have kept : ∀ part : List Piece, (∀ piece ∈ part, piece ∈ front ++ back) →
      (part.map fun piece => if piece.1.index = changed.1.index then f piece else piece) = part := by
    intro part inside
    refine (List.map_congr_left fun piece member => ?_).trans (List.map_id part)
    exact if_neg (apart piece (inside piece member))
  rw [split, List.map_append, List.map_cons, kept front (by simp_all), kept back (by simp_all), if_pos rfl]

/-- A chain whose slots include the old ones may take the place of the old chain. -/
theorem withChain (sound : s.Sound) {chain : Chain Token} (linked : chain.Sound)
    (kept : ∀ index ∈ s.chain.entries.map Chain.slotOf, index ∈ chain.entries.map Chain.slotOf) :
    (⟨chain, s.nested⟩ : TokenStream).Sound := by
  cases s
  exact ⟨linked, sound.2.1, fun place member => kept _ (sound.2.2.1 place member), sound.2.2.2⟩

/-- A new token is put in front of the pieces `back`. -/
theorem insert (sound : s.Sound) {front back : List Piece} (split : s.view = front ++ back) {token : Token}
    {new : Handle} {chain : Chain Token} (placed : s.chain.insertAt (frontOf back) token = (new, chain)) :
    (⟨chain, s.nested⟩ : TokenStream).Sound ∧
      (⟨chain, s.nested⟩ : TokenStream).view = front ++ (new, token, none) :: back ∧
      chain.id = s.chain.id ∧ new.index ∉ s.chain.entries.map Chain.slotOf := by
  obtain ⟨ahead, behind, entries, rfl, rfl⟩ := List.map_eq_append_iff.mp split
  have place : frontOf (behind.map s.piece) = Chain.Sound.frontSlot behind := by
    cases behind <;> rfl
  have step := sound.chain.insertAt entries token
  rw [← place, placed] at step
  obtain ⟨linked, inserted, id, fresh⟩ := step
  have grown : ∀ index ∈ s.chain.entries.map Chain.slotOf, index ∈ chain.entries.map Chain.slotOf := by
    intro index member
    rw [inserted]
    rw [← entries_eq, entries] at member
    simp only [List.map_append, List.map_cons, List.mem_append, List.mem_cons] at member ⊢
    tauto
  refine ⟨sound.withChain linked grown, ?_, id, fresh⟩
  have unowned : (⟨chain, s.nested⟩ : TokenStream).subAt? new.index = none := sound.subAt?_fresh fresh
  simp only [view, entries_eq, inserted, List.map_append, List.map_cons, piece, unowned]
  rfl

/-- Taking a piece out leaves all others; the stream it owned goes with it. -/
theorem take (sound : s.Sound) {front back : List Piece} {h : Handle} {token : Token} {sub : Option TokenStream}
    (split : s.view = front ++ (h, token, sub) :: back) :
    ∃ place rest, s.take h = some (token, place, rest) ∧ place.join = sub ∧ (place.isSome → sub.isSome) ∧
      rest.Sound ∧ rest.view = front ++ back ∧ rest.chain.id = s.chain.id ∧
      ∀ id, s.ids.count id = rest.ids.count id + (idsOf sub).count id := by
  obtain ⟨ahead, others, entries, rfl, tail⟩ := List.map_eq_append_iff.mp split
  obtain ⟨⟨h', token'⟩, behind, rfl, same, rfl⟩ := List.map_eq_cons_iff.mp tail
  obtain ⟨rfl, rfl, rfl⟩ : h' = h ∧ token' = token ∧ s.subAt? h'.index = sub := by simpa [piece] using same
  have member : (h', token') ∈ s.chain.entries := by simp [← entries_eq, entries]
  have named := (sound.chain.index?_eq_some h' h'.index).mpr ⟨rfl, token', member⟩
  have stored := (sound.chain.get?_eq_some h' token').mpr member
  obtain ⟨linked, left, id⟩ : (s.chain.vacate h'.index).Sound ∧ (s.chain.vacate h'.index).entries = ahead ++ behind ∧
      (s.chain.vacate h'.index).id = s.chain.id := sound.chain.vacate entries
  refine ⟨s.nested.lookup h'.index, ⟨s.chain.vacate h'.index, s.nested.filter (·.1 != h'.index)⟩, ?_, rfl, ?_, ?_, ?_,
    id, ?_⟩
  · have item : s.chain.itemAt? h'.index = some token' := by simpa [Chain.get?, named] using stored
    simp [TokenStream.take, Chain.take, named, item]
  · intro held
    obtain ⟨place, found⟩ := Option.isSome_iff_exists.mp held
    obtain ⟨_, _, parts, _⟩ := List.lookup_eq_some_iff.mp found
    have inside : (h'.index, place) ∈ s.nested := by simp [parts]
    obtain ⟨sub, rfl⟩ := sound.owned inside
    simp [subAt?, found]
  · cases s with
    | mk chain nested =>
      refine ⟨linked, (List.filter_sublist.map _).nodup sound.2.1, fun place inside =>
        ?_, soundAmong_filter sound.2.2.2⟩
      obtain ⟨before, apart⟩ := List.mem_filter.mp inside
      have slot := sound.2.2.1 place before
      have away : place.1 ≠ h'.index := by simpa using apart
      rw [← entries_eq ⟨chain, nested⟩, entries] at slot
      rw [left]
      simp only [List.map_append, List.map_cons, List.mem_append, List.mem_cons] at slot ⊢
      rcases slot with early | here | late
      · exact .inl early
      · exact absurd here away
      · exact .inr late
  · have others : ∀ entry ∈ ahead ++ behind, entry.1.index ≠ h'.index := by
      have nodup := sound.chain.nodup_slots
      rw [← entries_eq, entries, List.map_append, List.map_cons, List.nodup_middle, ← List.map_append] at nodup
      exact fun entry inside same => (List.nodup_cons.mp nodup).1 (List.mem_map.mpr ⟨entry, inside, same⟩)
    rw [view, entries_eq, left, ← List.map_append]
    refine List.map_congr_left fun entry inside => ?_
    simp only [piece, subAt?, lookup_filter (others entry inside)]
  · intro other
    have counted := count_filter h'.index other (sound.places_nodup)
    cases s
    simp only [ids, List.count_cons, counted, subAt?, id]
    omega

theorem dropAll (sound : s.Sound) {front middle back : List Piece} (split : s.view = front ++ (middle ++ back)) :
    (s.dropAll (middle.map (·.1))).Sound ∧ (s.dropAll (middle.map (·.1))).view = front ++ back ∧
      (s.dropAll (middle.map (·.1))).chain.id = s.chain.id ∧
      ∀ id, (s.dropAll (middle.map (·.1))).ids.count id ≤ s.ids.count id := by
  induction middle generalizing s with
  | nil => exact ⟨sound, split, rfl, fun _ => Nat.le_refl _⟩
  | cons piece rest ih =>
    obtain ⟨h, token, sub⟩ := piece
    obtain ⟨place, left, taken, _, _, sound', split', id, counted⟩ := sound.take split
    have step : s.dropAll (((h, token, sub) :: rest).map (·.1)) = left.dropAll (rest.map (·.1)) := by
      simp [TokenStream.dropAll, taken]
    rw [step]
    obtain ⟨after, view, same, bounded⟩ := ih sound' split'
    refine ⟨after, view, same.trans id, fun other => Nat.le_trans (bounded other) ?_⟩
    rw [counted other]
    exact Nat.le_add_right _ _

/-- Changing a token of the stream itself changes one piece. -/
theorem view_modify (sound : s.Sound) {h : Handle} (own : h.chain = s.chain.id) (f : Token → Token) :
    (s.modify h f).view = s.view.map fun piece => if piece.1 = h then (h, f piece.2.1, piece.2.2) else piece := by
  have direct : s.modify h f = ⟨s.chain.modify h f, s.nested⟩ := by
    cases s
    simp [modify_eq, modifyOwner, onChain, own]
  rw [direct, view, entries_eq, view, entries_eq, (sound.chain.modify h f).2, List.map_map, List.map_map]
  refine List.map_congr_left fun entry _ => ?_
  by_cases same : entry.1 = h
  · simp [same, piece, subAt?]
  · simp [same, piece, subAt?]

theorem ids_modify (sound : s.Sound) (h : Handle) (f : Token → Token) : (s.modify h f).ids = s.ids :=
  (sound.modify_touched h f).2.ids_eq

theorem modify (sound : s.Sound) (h : Handle) (f : Token → Token) : (s.modify h f).Sound :=
  (sound.modify_touched h f).1

theorem setNewlines (sound : s.Sound) (text : String) :
    (s.setNewlines text).Sound ∧ (s.setNewlines text).ids = s.ids ∧
      (s.setNewlines text).view = s.view.map fun piece =>
        (piece.1, if piece.2.1.kind == .newLine then { piece.2.1 with literal := .ofWritten text } else piece.2.1,
          piece.2.2) := by
  obtain ⟨linked, entries⟩ := sound.chain.mapItems fun token =>
    if token.kind == .newLine then { token with literal := .ofWritten text } else token
  have slots : ∀ index ∈ s.chain.entries.map Chain.slotOf,
      index ∈ (s.setNewlines text).chain.entries.map Chain.slotOf := by
    intro index member
    rw [TokenStream.setNewlines, entries, List.map_map]
    exact member
  refine ⟨sound.withChain linked slots, ?_, ?_⟩
  · cases s
    rfl
  · simp only [view, entries_eq, TokenStream.setNewlines, entries, List.map_map]
    rfl

theorem sub (sound : s.Sound) {index : Nat} {held : TokenStream} (found : s.subAt? index = some held) : held.Sound := by
  cases s with
  | mk chain nested =>
    have looked : nested.lookup index = some (some held) := Option.join_eq_some_iff.mp found
    obtain ⟨_, _, parts, _⟩ := List.lookup_eq_some_iff.mp looked
    have member : (index, some held) ∈ nested := by simp [parts]
    exact soundAmong_member sound.2.2.2 member

/-- A token that owns no stream yet is given one. -/
theorem own (sound : s.Sound) {index : Nat} (occupied : index ∈ s.chain.entries.map Chain.slotOf)
    (fresh : index ∉ s.nested.map (·.1)) {held : TokenStream} (sub : held.Sound) :
    (⟨s.chain, s.nested ++ [(index, some held)]⟩ : TokenStream).Sound ∧
      (⟨s.chain, s.nested ++ [(index, some held)]⟩ : TokenStream).view = s.view.map (fun piece =>
        if piece.1.index = index then (piece.1, piece.2.1, some held) else piece) ∧
      (⟨s.chain, s.nested ++ [(index, some held)]⟩ : TokenStream).ids = s.ids ++ held.ids := by
  cases s with
  | mk chain nested =>
    obtain ⟨linked, nodup, placed, among⟩ := sound
    refine ⟨⟨linked, ?_, ?_, ?_⟩, ?_, ?_⟩
    · rw [List.map_append, List.map_singleton]
      refine List.nodup_append'.mpr ⟨nodup, by simp, ?_⟩
      simpa using fresh
    · intro place member
      rcases List.mem_append.mp member with old | new
      · exact placed place old
      · simp only [List.mem_singleton] at new
        exact new ▸ occupied
    · exact soundAmong_append among ⟨sub, trivial⟩
    · simp only [view, entries_eq, List.map_map]
      refine List.map_congr_left fun entry _ => ?_
      by_cases same : entry.1.index = index
      · have missing : nested.lookup index = none := lookup_of_not_mem fresh
        simp [piece, subAt?, List.lookup_append, same, missing]
      · simp [piece, subAt?, List.lookup_append, lookup_cons_eq, same]
    · simp [ids, idsAmong_append, idsAmong]

end Sound

end YaraRules.TokenStream
